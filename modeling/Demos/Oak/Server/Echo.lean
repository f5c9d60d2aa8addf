import Mathlib.Data.List.Nodup
import Demos.Oak.Server.Model

/-!
# What the sessions of the server keep

A session has one operation at a time, so nothing is read into its buffer while bytes of it are
still to be written: what it sends back is what it received, in order, and at most one buffer full
of it is on its way. The manager holds exactly the sessions whose socket is open. A session whose
socket is closed sends nothing more and is destroyed after a few steps of its own.
-/

namespace Demos.Oak

open Demos.Lib

namespace Server

variable {s s' : Server} {event : ServerEvent} {labels more : List ServerEvent} {id : ℕ}
  {session session' : Session}

section Moves

/-- What a step does to the session that it is about. -/
inductive Change (session : Session) (id : ℕ) : ServerEvent → Session → Prop
  | arrived {bytes : Bytes} (hopen : session.isOpen) :
      Change session id (.arrived id bytes) { session with inbox := session.inbox ++ bytes }
  | took {k : ℕ} (hopen : session.isOpen) (hoperation : session.operation = .reading)
      (hroom : k ≤ kMaxMessageSize) (hinbox : k ≤ session.inbox.length) :
      Change session id (.transferred id []) { session with
        buffer := session.buffer.store (session.inbox.take k)
        inbox := session.inbox.drop k
        operation := .read (.ok k) }
  | wrote {k size done : ℕ} (hopen : session.isOpen)
      (hoperation : session.operation = .writing size done) (hle : done + k ≤ size) :
      Change session id (.transferred id ((session.buffer.1.drop done).take k)) { session with
        operation := if done + k = size then .written (.ok ()) else .writing size (done + k) }
  | failedRead {error : NetError} (herror : error = .operationAborted → session.isOpen = false)
      (hoperation : session.operation = .reading) :
      Change session id (.failed id error) { session with operation := .read (.error error) }
  | failedWrite {error : NetError} {size done : ℕ}
      (herror : error = .operationAborted → session.isOpen = false)
      (hoperation : session.operation = .writing size done) :
      Change session id (.failed id error) { session with operation := .written (.error error) }
  | writes {bytes : ℕ} (hoperation : session.operation = .read (.ok bytes)) :
      Change session id (.handled id) (session.asyncWrite bytes)
  | reads (hoperation : session.operation = .written (.ok ())) :
      Change session id (.handled id) session.asyncRead
  | aborts (hoperation : session.operation = .read (.error .operationAborted) ∨
        session.operation = .written (.error .operationAborted)) :
      Change session id (.handled id) { session with operation := .idle }

/-- What a step does to the server. -/
inductive Move (s : Server) : ServerEvent → Server → Prop
  | accepted : Move s (.accepted s.created) { s with
      sessions := Function.update s.sessions s.created Session.create.start
      created := s.created + 1
      managed := s.managed.insert s.created
      accepting := true }
  | refused {error : NetError} : Move s (.refused error) { s with accepting := false }
  | ignored : Move s .ignored { s with accepting := false }
  | session {id : ℕ} {event : ServerEvent} {session : Session}
      (hchange : Change (s.sessions id) id event session) : Move s event (s.setSession id session)
  | ended {id : ℕ} {error : NetError} (herror : error ≠ .operationAborted)
      (hoperation : (s.sessions id).operation = .read (.error error) ∨
        (s.sessions id).operation = .written (.error error)) :
      Move s (.handled id) { s with
        sessions := Function.update s.sessions id
          { s.sessions id with operation := .idle, isOpen := false }
        managed := s.managed.erase id }
  | stoppedAll : Move s .stoppedAll s.stopAll

/-- Bytes that the loop moves complete a read or go on with a write. -/
theorem change_of_transfer {k : ℕ} {sent : Bytes} (h : session.transfer k = some (sent, session')) :
    Change session id (.transferred id sent) session' := by
  unfold Session.transfer at h
  by_cases hopen : session.isOpen = true ∧ 0 < k
  · rw [if_pos hopen] at h
    cases hoperation : session.operation with
    | reading =>
      simp only [hoperation] at h
      split at h
      next hk =>
        cases h
        exact .took hopen.1 hoperation hk.1 hk.2
      next => cases h
    | writing size done =>
      simp only [hoperation] at h
      split at h
      next hle =>
        cases h
        exact .wrote hopen.1 hoperation hle
      next => cases h
    | idle | read | written => simp [hoperation] at h
  · simp [hopen] at h

/-- Only an operation under way fails, and as aborted only on a closed socket. -/
theorem change_of_fail {error : NetError} (h : session.fail error = some session') :
    Change session id (.failed id error) session' := by
  unfold Session.fail at h
  by_cases habort : error = .operationAborted ∧ session.isOpen = true
  · simp [habort] at h
  · rw [if_neg habort] at h
    have herror : error = .operationAborted → session.isOpen = false := by
      simpa using habort
    cases hoperation : session.operation with
    | reading =>
      simp only [hoperation] at h
      cases h
      exact .failedRead herror hoperation
    | writing size done =>
      simp only [hoperation] at h
      cases h
      exact .failedWrite herror hoperation
    | idle | read | written => simp [hoperation] at h

/-- The handlers treat an error of a read and of a write alike. -/
theorem move_of_onError {error : NetError}
    (hoperation : (s.sessions id).operation = .read (.error error) ∨
      (s.sessions id).operation = .written (.error error)) :
    Move s (.handled id) (s.onError id error) := by
  by_cases herror : error = .operationAborted
  · subst herror
    exact .session (.aborts hoperation)
  · have hended := Move.ended herror hoperation
    simpa [onError, herror, stopSession, setSession, Session.stop] using hended

/-- A handler goes on with the other operation or ends the session. -/
theorem move_of_handle (h : s.handle id = some s') : Move s (.handled id) s' := by
  unfold handle at h
  split at h
  case h_1 error hoperation =>
    cases h
    exact move_of_onError (.inl hoperation)
  case h_2 bytes hoperation =>
    cases h
    exact .session (.writes hoperation)
  case h_3 error hoperation =>
    cases h
    exact move_of_onError (.inr hoperation)
  case h_4 hoperation =>
    cases h
    exact .session (.reads hoperation)
  case h_5 => cases h

/-- The handler of an accept starts a session, or accepts no more. -/
theorem move_of_onAccept (result : Except NetError Unit) :
    Move s (s.onAccept result).1 (s.onAccept result).2 := by
  cases hopen : s.acceptorOpen with
  | false => simpa [onAccept, hopen] using Move.ignored (s := s)
  | true =>
    cases result with
    | error error => simpa [onAccept, hopen] using Move.refused (s := s)
    | ok _ => simpa [onAccept, hopen, startSession, setSession] using Move.accepted (s := s)

/-- Everything a step can do. -/
theorem Step.move (hstep : Step s event s') : Move s event s' := by
  obtain ⟨action, hnext⟩ := hstep
  cases action with
  | accept result =>
    simp only [next] at hnext
    split at hnext
    next =>
      have hmove := move_of_onAccept (s := s) result
      rw [Option.some.inj hnext] at hmove
      exact hmove
    next => cases hnext
  | arrive id bytes =>
    simp only [next] at hnext
    split at hnext
    next hopen =>
      cases hnext
      exact .session (.arrived hopen)
    next => cases hnext
  | transfer id k =>
    obtain ⟨⟨sent, session⟩, htransfer, heq⟩ := Option.map_eq_some_iff.mp hnext
    cases heq
    exact .session (change_of_transfer htransfer)
  | fail id error =>
    obtain ⟨session, hfail, heq⟩ := Option.map_eq_some_iff.mp hnext
    cases heq
    exact .session (change_of_fail hfail)
  | handle id =>
    obtain ⟨s', hhandle, heq⟩ := Option.map_eq_some_iff.mp hnext
    cases heq
    exact move_of_handle hhandle
  | stopAll =>
    cases hnext
    exact .stoppedAll

/-- `StopAll` closes the sockets of the sessions that the manager holds. -/
theorem foldl_stop_sessions (ids : List ℕ) (s : Server) (id : ℕ) :
    (ids.foldl (fun s id => s.setSession id (s.sessions id).stop) s).sessions id =
      if id ∈ ids then (s.sessions id).stop else s.sessions id := by
  induction ids generalizing s with
  | nil => rfl
  | cons first rest ih =>
    rw [List.foldl_cons, ih]
    by_cases hid : id = first
    · subst hid
      simp [setSession, Session.stop]
    · simp [setSession, hid]

/-- `StopAll` creates nothing. -/
theorem foldl_stop_created (ids : List ℕ) (s : Server) :
    (ids.foldl (fun s id => s.setSession id (s.sessions id).stop) s).created = s.created := by
  induction ids generalizing s with
  | nil => rfl
  | cons first rest ih => exact ih _

theorem stopAll_sessions (s : Server) (id : ℕ) :
    s.stopAll.sessions id = if id ∈ s.managed then (s.sessions id).stop else s.sessions id :=
  foldl_stop_sessions s.managed s id

theorem stopAll_created (s : Server) : s.stopAll.created = s.created :=
  foldl_stop_created s.managed s

end Moves

section Managed

/-- A session whose socket is open has asked for an operation, and none of its operations was
aborted. -/
def Busy (session : Session) : Prop :=
  session.isOpen = true → session.operation ≠ .idle ∧
    session.operation ≠ .read (.error .operationAborted) ∧
    session.operation ≠ .written (.error .operationAborted)

theorem busy_of_closed (h : session.isOpen = false) : Busy session :=
  fun hopen => absurd hopen (by simp [h])

/-- The manager holds the sessions whose socket is open, each once, and these are busy. -/
structure Managed (s : Server) : Prop where
  nodup : s.managed.Nodup
  mem_iff : ∀ id, id ∈ s.managed ↔ (s.sessions id).isOpen = true
  busy : ∀ id, Busy (s.sessions id)
  fresh : ∀ id, s.created ≤ id → s.sessions id = .absent

theorem managed_init : Managed init where
  nodup := List.nodup_nil
  mem_iff _ := by simp [init, Session.absent]
  busy _ hopen := Bool.noConfusion hopen
  fresh _ _ := rfl

/-- A step that is about a session neither opens nor closes its socket. -/
theorem Change.isOpen (h : Change session id event session') :
    session'.isOpen = session.isOpen := by
  cases h <;> rfl

/-- A step that is about a session leaves it with an operation as long as its socket is open. -/
theorem Change.busy (h : Change session id event session') (hbusy : Busy session) :
    Busy session' := by
  intro hopen
  have hopen' : session.isOpen = true := h.isOpen ▸ hopen
  have hbefore := hbusy hopen'
  cases h with
  | arrived => exact hbefore
  | took => simp
  | wrote => split_ifs <;> simp
  | failedRead herror =>
    refine ⟨by simp, fun h => ?_, by simp⟩
    simp only [Operation.read.injEq, Except.error.injEq] at h
    exact Bool.false_ne_true ((herror h).symm.trans hopen')
  | failedWrite herror =>
    refine ⟨by simp, by simp, fun h => ?_⟩
    simp only [Operation.written.injEq, Except.error.injEq] at h
    exact Bool.false_ne_true ((herror h).symm.trans hopen')
  | writes => simp [Session.asyncWrite]
  | reads => simp [Session.asyncRead]
  | aborts hoperation =>
    obtain hoperation | hoperation := hoperation
    · exact absurd hoperation hbefore.2.1
    · exact absurd hoperation hbefore.2.2

/-- A session that does not exist has nothing to do. -/
theorem not_change_absent : ¬ Change .absent id event session := by
  intro h
  cases h <;> simp_all [Session.absent]

/-- Every step keeps the sessions managed. -/
theorem Move.managed (hmove : Move s event s') (h : Managed s) : Managed s' := by
  cases hmove with
  | accepted =>
    refine ⟨List.Nodup.insert h.nodup, fun id => ?_, fun id => ?_, fun id hid => ?_⟩
    · by_cases hid : id = s.created
      · subst hid
        simp [Session.create, Session.start, Session.asyncRead]
      · simp [hid, h.mem_iff]
    · by_cases hid : id = s.created
      · subst hid
        simp [Busy, Session.start, Session.asyncRead]
      · simpa [hid] using h.busy id
    · have hlt : s.created < id := hid
      simpa [hlt.ne'] using h.fresh id hlt.le
  | refused | ignored => exact ⟨h.nodup, h.mem_iff, h.busy, h.fresh⟩
  | @session id event session hchange =>
    refine ⟨h.nodup, fun id' => ?_, fun id' => ?_, fun id' hid' => ?_⟩
    all_goals
      by_cases hid : id' = id
      on_goal 2 => simp only [setSession, Function.update_of_ne hid]
      on_goal 1 => subst hid; simp only [setSession, Function.update_self]
    · rw [hchange.isOpen]
      exact h.mem_iff id'
    · exact h.mem_iff id'
    · exact hchange.busy (h.busy id')
    · exact h.busy id'
    · rw [h.fresh id' hid'] at hchange
      exact absurd hchange not_change_absent
    · exact h.fresh id' hid'
  | @ended id error herror hoperation =>
    refine ⟨h.nodup.erase id, fun id' => ?_, fun id' => ?_, fun id' hid' => ?_⟩
    all_goals
      by_cases hid : id' = id
      on_goal 2 => simp only [Function.update_of_ne hid]
      on_goal 1 => subst hid; simp only [Function.update_self]
    · simp [h.nodup.not_mem_erase]
    · rw [List.mem_erase_of_ne hid]
      exact h.mem_iff id'
    · exact busy_of_closed rfl
    · exact h.busy id'
    · simp [h.fresh id' hid', Session.absent] at hoperation
    · exact h.fresh id' hid'
  | stoppedAll =>
    refine ⟨List.nodup_nil, fun id => ?_, fun id => ?_, fun id hid => ?_⟩
    all_goals rw [stopAll_sessions]
    · split_ifs with hmem
      · simp [stopAll, Session.stop]
      · simpa [stopAll] using fun hopen => hmem ((h.mem_iff id).mpr hopen)
    · split_ifs with hmem
      · exact busy_of_closed rfl
      · exact h.busy id
    · rw [stopAll_created] at hid
      have hfresh := h.fresh id hid
      rw [if_neg (by simp [h.mem_iff, hfresh, Session.absent]), hfresh]

/-- In every reachable state the sessions are managed. -/
theorem managed_of_run (hrun : Run Step init labels s) : Managed s :=
  hrun.invariant (I := fun _ s => Managed s) managed_init
    fun _ _ _ _ h hstep => (Step.move hstep).managed h

/-- However the connections interleave, the manager holds exactly the sessions whose socket is open,
each once, and every one of them has an operation under way or a handler to run: no session is lost
with an open socket. -/
theorem sessions_managed (hrun : Run Step init labels s) :
    s.managed.Nodup ∧ ∀ id, (id ∈ s.managed ↔ (s.sessions id).isOpen = true) ∧
      (id ∈ s.managed → (s.sessions id).operation ≠ .idle) := by
  have h := managed_of_run hrun
  refine ⟨h.nodup, fun id => ⟨h.mem_iff id, fun hmem => ?_⟩⟩
  exact (h.busy id ((h.mem_iff id).mp hmem)).1

/-- Two connections are accepted and one of them is reset. -/
theorem sessions_managed_reset :
    ∃ labels s, Run Step init labels s ∧ s.managed = [1] ∧
      (1 ∈ s.managed → (s.sessions 1).operation ≠ .idle) := by
  have hexec : (exec next init [.accept (.ok ()), .accept (.ok ()), .fail 0 (.other 104),
      .handle 0]).map (fun result => result.2.managed) = some [1] := by
    decide +kernel
  obtain ⟨labels, s, hrun, hresult⟩ := exists_run_of_exec hexec
  exact ⟨labels, s, hrun, hresult, ((sessions_managed hrun).2 1).2⟩

end Managed

section Echo

/-- The bytes that a step brings from the peer of a session. -/
def arrivedAt (id : ℕ) : ServerEvent → Bytes
  | .arrived id' bytes => if id' = id then bytes else []
  | _ => []

/-- The bytes that a step sends to the peer of a session. -/
def sentAt (id : ℕ) : ServerEvent → Bytes
  | .transferred id' sent => if id' = id then sent else []
  | _ => []

/-- Everything the peer of a session has sent. -/
def arrivedFrom (id : ℕ) (labels : List ServerEvent) : Bytes := labels.flatMap (arrivedAt id)

/-- Everything the peer of a session has been sent. -/
def sentTo (id : ℕ) (labels : List ServerEvent) : Bytes := labels.flatMap (sentAt id)

@[simp]
theorem arrivedFrom_snoc (id : ℕ) (labels : List ServerEvent) (event : ServerEvent) :
    arrivedFrom id (labels ++ [event]) = arrivedFrom id labels ++ arrivedAt id event := by
  simp [arrivedFrom]

@[simp]
theorem sentTo_snoc (id : ℕ) (labels : List ServerEvent) (event : ServerEvent) :
    sentTo id (labels ++ [event]) = sentTo id labels ++ sentAt id event := by
  simp [sentTo]

/-- The bytes that a session has read and has not written yet. -/
def inHand (session : Session) : Bytes :=
  match session.operation with
  | .read (.ok bytes) => session.buffer.1.take bytes
  | .writing size done => (session.buffer.1.take size).drop done
  | _ => []

/-- The session goes on: its operation is under way or has succeeded. -/
def GoesOn : Operation → Prop
  | .reading | .read (.ok _) | .writing _ _ | .written (.ok _) => True
  | _ => False

/-- What the peer was sent is the start of what it sent; while the session goes on, the rest is in
its hands or waits in the socket. -/
structure Echoes (arrived sent : Bytes) (session : Session) : Prop where
  isPrefix : sent <+: arrived
  rest : GoesOn session.operation → arrived = sent ++ inHand session ++ session.inbox

/-- The rest of the bytes in the buffer after some of them are written. -/
theorem drop_take_eq (bytes : Bytes) {size done k : ℕ} (hle : done + k ≤ size) :
    (bytes.take size).drop done =
      (bytes.drop done).take k ++ (bytes.take size).drop (done + k) := by
  rw [List.drop_take, List.drop_take, ← List.drop_drop, Nat.sub_add_eq]
  have hsplit := List.take_append_drop k ((bytes.drop done).take (size - done))
  rw [List.take_take, min_eq_left (by omega), List.drop_take] at hsplit
  exact hsplit.symm

/-- A step that is about a session keeps what it echoes. -/
theorem Change.echoes {arrived sent : Bytes} (hchange : Change session id event session')
    (h : Echoes arrived sent session) :
    Echoes (arrived ++ arrivedAt id event) (sent ++ sentAt id event) session' := by
  cases hchange with
  | @arrived bytes hopen =>
    refine ⟨by simpa [sentAt] using h.isPrefix.trans (List.prefix_append _ _), fun hgoes => ?_⟩
    rw [h.rest hgoes]
    simp [arrivedAt, sentAt, inHand]
  | @took k hopen hoperation hroom hinbox =>
    have hrest := h.rest (by simp [hoperation, GoesOn])
    have hlength : (session.inbox.take k).length = k := List.length_take_of_le hinbox
    have hbuffer := session.buffer.take_store (hlength.trans_le hroom)
    rw [hlength] at hbuffer
    refine ⟨by simpa [arrivedAt, sentAt] using h.isPrefix, fun _ => ?_⟩
    simpa [arrivedAt, sentAt, inHand, hoperation, hbuffer] using hrest
  | @wrote k size done hopen hoperation hle =>
    have hrest := h.rest (by simp [hoperation, GoesOn])
    have hsplit := drop_take_eq session.buffer.1 hle
    simp only [inHand, hoperation, hsplit] at hrest
    refine ⟨⟨(session.buffer.1.take size).drop (done + k) ++ session.inbox, ?_⟩, fun _ => ?_⟩
    · simp [arrivedAt, sentAt, hrest]
    · split_ifs with hdone
      · have hnil : (session.buffer.1.take size).drop (done + k) = [] := by
          simp [hdone]
        simpa [arrivedAt, sentAt, inHand, hnil] using hrest
      · simpa [arrivedAt, sentAt, inHand] using hrest
  | failedRead | failedWrite =>
    exact ⟨by simpa [arrivedAt, sentAt] using h.isPrefix, fun hgoes => hgoes.elim⟩
  | writes hoperation =>
    have hrest := h.rest (by simp [hoperation, GoesOn])
    refine ⟨by simpa [arrivedAt, sentAt] using h.isPrefix, fun _ => ?_⟩
    simpa [arrivedAt, sentAt, inHand, hoperation, Session.asyncWrite] using hrest
  | reads hoperation =>
    have hrest := h.rest (by simp [hoperation, GoesOn])
    refine ⟨by simpa [arrivedAt, sentAt] using h.isPrefix, fun _ => ?_⟩
    simpa [arrivedAt, sentAt, inHand, hoperation, Session.asyncRead] using hrest
  | aborts => exact ⟨by simpa [arrivedAt, sentAt] using h.isPrefix, fun hgoes => hgoes.elim⟩

/-- A step that is about one session brings and sends nothing of another. -/
theorem Change.other {id' : ℕ} (hchange : Change session id' event session') (hid : id' ≠ id) :
    arrivedAt id event = [] ∧ sentAt id event = [] := by
  cases hchange <;> simp [arrivedAt, sentAt, hid]

/-- The sessions echo what they receive, and those that do not exist have received nothing. -/
structure AllEcho (labels : List ServerEvent) (s : Server) : Prop where
  managed : Managed s
  echoes : ∀ id, Echoes (arrivedFrom id labels) (sentTo id labels) (s.sessions id)
  silent : ∀ id, s.created ≤ id → arrivedFrom id labels = [] ∧ sentTo id labels = []

/-- Every step keeps what the sessions echo. -/
theorem Move.allEcho (hmove : Move s event s') (h : AllEcho labels s) :
    AllEcho (labels ++ [event]) s' := by
  refine ⟨hmove.managed h.managed, fun id => ?_, fun id hid => ?_⟩
  · rw [arrivedFrom_snoc, sentTo_snoc]
    cases hmove with
    | accepted =>
      by_cases hid : id = s.created
      · obtain ⟨harrived, hsent⟩ := h.silent id hid.ge
        simp only [hid, Function.update_self, arrivedAt, sentAt, List.append_nil]
        rw [← hid, harrived, hsent]
        exact ⟨List.nil_prefix, fun _ => rfl⟩
      · simpa [hid, arrivedAt, sentAt] using h.echoes id
    | refused | ignored => simpa [arrivedAt, sentAt] using h.echoes id
    | @session id' event session hchange =>
      by_cases hid : id = id'
      · subst hid
        simpa [setSession] using hchange.echoes (h.echoes id)
      · obtain ⟨harrived, hsent⟩ := hchange.other (Ne.symm hid)
        simpa [setSession, hid, harrived, hsent] using h.echoes id
    | @ended id' error herror hoperation =>
      by_cases hid : id = id'
      · subst hid
        refine ⟨by simpa [arrivedAt, sentAt] using (h.echoes id).isPrefix, fun hgoes => ?_⟩
        simp [GoesOn] at hgoes
      · simpa [hid, arrivedAt, sentAt] using h.echoes id
    | stoppedAll =>
      rw [stopAll_sessions]
      simp only [arrivedAt, sentAt, List.append_nil]
      split_ifs
      · exact ⟨(h.echoes id).isPrefix, (h.echoes id).rest⟩
      · exact h.echoes id
  · have hbefore : s.created ≤ id := by
      cases hmove with
      | accepted => exact Nat.le_of_succ_le hid
      | stoppedAll => exact (stopAll_created s).symm.trans_le hid
      | _ => exact hid
    obtain ⟨harrived, hsent⟩ := h.silent id hbefore
    have hquiet : arrivedAt id event = [] ∧ sentAt id event = [] := by
      cases hmove with
      | @session id' event session hchange =>
        refine hchange.other fun heq => ?_
        rw [heq, h.managed.fresh id hbefore] at hchange
        exact not_change_absent hchange
      | _ => exact ⟨rfl, rfl⟩
    simp [harrived, hsent, hquiet]

/-- In every reachable state the sessions echo what they receive. -/
theorem allEcho_of_run (hrun : Run Step init labels s) : AllEcho labels s := by
  refine hrun.invariant (I := AllEcho) ⟨managed_init, fun id => ?_, fun id _ => ⟨rfl, rfl⟩⟩ ?_
  · exact ⟨List.nil_prefix, fun hgoes => hgoes.elim⟩
  · exact fun _ _ _ _ h hstep => (Step.move hstep).allEcho h

/-- However the connections interleave, a peer is sent back what it has sent, in order and nothing
else; while its session goes on, what is missing is in the hands of the session, which has at most
one buffer full, or waits in the socket. -/
theorem sessions_echo (hrun : Run Step init labels s) (id : ℕ) :
    sentTo id labels <+: arrivedFrom id labels ∧
    (GoesOn (s.sessions id).operation → arrivedFrom id labels =
      sentTo id labels ++ inHand (s.sessions id) ++ (s.sessions id).inbox) ∧
    (inHand (s.sessions id)).length ≤ kMaxMessageSize := by
  have h := (allEcho_of_run hrun).echoes id
  refine ⟨h.isPrefix, h.rest, ?_⟩
  have hbuffer := (s.sessions id).buffer.2
  unfold inHand
  split
  · rw [List.length_take, hbuffer]
    exact min_le_right _ _
  · rw [List.length_drop, List.length_take, hbuffer]
    omega
  · exact Nat.zero_le _

/-- A peer connects, sends three bytes, and the session takes and writes them. -/
def echoesOnce : List Action :=
  [.accept (.ok ()), .arrive 0 [1, 2, 3], .transfer 0 2, .handle 0, .transfer 0 1, .transfer 0 1,
    .handle 0]

/-- The first two bytes are sent back, and the third waits. -/
theorem sessions_echo_once :
    ∃ labels s, Run Step init labels s ∧
      (sentTo 0 labels = [1, 2] ∧ arrivedFrom 0 labels = [1, 2, 3]) ∧
      sentTo 0 labels <+: arrivedFrom 0 labels := by
  have hexec : (exec next init echoesOnce).map (fun result =>
      (sentTo 0 result.1, arrivedFrom 0 result.1)) = some ([1, 2], [1, 2, 3]) := by
    decide +kernel
  obtain ⟨labels, s, hrun, hresult⟩ := exists_run_of_exec hexec
  exact ⟨labels, s, hrun, Prod.mk.inj hresult, (sessions_echo hrun 0).1⟩

end Echo

section Lifetime

/-- A step of the session itself: of the loop for its operation, or of a handler. -/
def concerns (id : ℕ) : ServerEvent → Bool
  | .transferred id' _ | .failed id' _ | .handled id' => id' = id
  | _ => false

/-- How many steps a session whose socket is closed still makes. -/
def stepsLeft : Operation → ℕ
  | .idle => 0
  | .read (.error _) | .written (.error _) => 1
  | .reading | .writing _ _ => 2
  | .read (.ok _) | .written (.ok _) => 3

/-- On a closed socket a session sends nothing and has fewer steps left after each. -/
theorem Change.closed (hchange : Change session id event session')
    (hclosed : session.isOpen = false) :
    sentAt id event = [] ∧
      (if concerns id event then 1 else 0) + stepsLeft session'.operation ≤
        stepsLeft session.operation := by
  cases hchange with
  | arrived hopen | took hopen | wrote hopen => simp [hclosed] at hopen
  | failedRead _ hoperation | failedWrite _ hoperation =>
    simp [sentAt, concerns, stepsLeft, hoperation]
  | writes hoperation => simp [sentAt, concerns, stepsLeft, hoperation, Session.asyncWrite]
  | reads hoperation => simp [sentAt, concerns, stepsLeft, hoperation, Session.asyncRead]
  | aborts hoperation =>
    obtain hoperation | hoperation := hoperation <;>
      simp [sentAt, concerns, stepsLeft, hoperation]

/-- What a step does about a session whose socket is closed. -/
structure WindsDown (s : Server) (id : ℕ) (event : ServerEvent) (s' : Server) : Prop where
  created : id < s'.created
  closed : (s'.sessions id).isOpen = false
  nothing : sentAt id event = []
  steps : (if concerns id event then 1 else 0) + stepsLeft (s'.sessions id).operation ≤
    stepsLeft (s.sessions id).operation

theorem Move.windsDown (hmove : Move s event s') (hid : id < s.created)
    (hclosed : (s.sessions id).isOpen = false) : WindsDown s id event s' := by
  cases hmove with
  | accepted =>
    refine ⟨Nat.lt_succ_of_lt hid, ?_, rfl, ?_⟩ <;> simp [hid.ne, hclosed, concerns]
  | refused | ignored => exact ⟨hid, hclosed, rfl, by simp [concerns]⟩
  | @session id' event session hchange =>
    by_cases heq : id = id'
    · subst heq
      obtain ⟨hnothing, hsteps⟩ := hchange.closed hclosed
      refine ⟨hid, ?_, hnothing, by simpa [setSession] using hsteps⟩
      simpa [setSession] using hchange.isOpen.trans hclosed
    · refine ⟨hid, by simpa [setSession, heq] using hclosed, (hchange.other (Ne.symm heq)).2, ?_⟩
      have hother : concerns id event = false := by
        cases hchange <;> simp [concerns, Ne.symm heq]
      simp [setSession, heq, hother]
  | @ended id' error herror hoperation =>
    by_cases heq : id = id'
    · subst heq
      refine ⟨hid, by simp, rfl, ?_⟩
      obtain hoperation | hoperation := hoperation <;>
        simp [concerns, stepsLeft, hoperation]
    · refine ⟨hid, by simpa [heq] using hclosed, rfl, ?_⟩
      simp [concerns, heq, Ne.symm heq]
  | stoppedAll =>
    refine ⟨(stopAll_created s).symm ▸ hid, ?_, rfl, ?_⟩
    · rw [stopAll_sessions]
      split_ifs
      · rfl
      · exact hclosed
    · simp only [stopAll_sessions, concerns, Bool.false_eq_true, if_false, Nat.zero_add]
      split_ifs
      · exact le_rfl
      · exact le_rfl

/-- A session whose socket is closed can go on until it has no operation. -/
theorem exists_step_of_closed (hclosed : (s.sessions id).isOpen = false)
    (hbusy : (s.sessions id).operation ≠ .idle) :
    ∃ event s', Step s event s' ∧ concerns id event = true := by
  have hfails {session : Session} (h : (s.sessions id).fail .operationAborted = some session) :
      ∃ event s', Step s event s' ∧ concerns id event = true :=
    ⟨.failed id .operationAborted, s.setSession id session,
      ⟨.fail id .operationAborted, by simp [next, h]⟩, by simp [concerns]⟩
  have hhandles {s' : Server} (h : s.handle id = some s') :
      ∃ event s', Step s event s' ∧ concerns id event = true :=
    ⟨.handled id, s', ⟨.handle id, by simp [next, h]⟩, by simp [concerns]⟩
  cases hoperation : (s.sessions id).operation with
  | idle => exact absurd hoperation hbusy
  | reading | writing => exact hfails (by simp [Session.fail, hclosed, hoperation]; rfl)
  | read result | written result =>
    cases result <;> exact hhandles (by simp only [handle, hoperation]; rfl)

/-- A session whose socket is closed, whoever closed it, is never opened or managed again, sends
nothing more, and takes at most three more steps; and it can take one until it is done. -/
theorem closed_session_ends (hrun : Run Step init labels s) (hid : id < s.created)
    (hclosed : (s.sessions id).isOpen = false) (hmore : Run Step s more s') :
    id ∉ s'.managed ∧ sentTo id more = [] ∧ more.countP (concerns id) ≤ 3 ∧
      ((s'.sessions id).operation ≠ .idle →
        ∃ event s'', Step s' event s'' ∧ concerns id event = true) := by
  have hnothing : (id < s'.created ∧ (s'.sessions id).isOpen = false) ∧ sentTo id more = [] := by
    refine hmore.invariant (I := fun more s' =>
      (id < s'.created ∧ (s'.sessions id).isOpen = false) ∧ sentTo id more = [])
      ⟨⟨hid, hclosed⟩, rfl⟩ ?_
    intro more s₁ event s₂ hbefore hstep
    have hdown := (Step.move hstep).windsDown hbefore.1.1 hbefore.1.2
    exact ⟨⟨hdown.created, hdown.closed⟩, by simp [hbefore.2, hdown.nothing]⟩
  have hsteps := hmore.countP_add_rank_le
    (fun s => id < s.created ∧ (s.sessions id).isOpen = false)
    (fun s => stepsLeft (s.sessions id).operation) (concerns id) ⟨hid, hclosed⟩ ?_
  · have hmost : stepsLeft (s.sessions id).operation ≤ 3 := by
      unfold stepsLeft
      split <;> omega
    obtain ⟨⟨-, hclosed'⟩, hsent⟩ := hnothing
    refine ⟨?_, hsent, by omega, exists_step_of_closed hclosed'⟩
    rw [(managed_of_run (hrun.append hmore)).mem_iff, hclosed']
    exact Bool.false_ne_true
  · intro s₁ event s₂ hbefore hstep
    have hdown := (Step.move hstep).windsDown hbefore.1 hbefore.2
    exact ⟨⟨hdown.created, hdown.closed⟩, hdown.steps⟩

/-- After `StopAll` the read of a session is aborted, its handler ends the session, and the peer is
sent nothing more. -/
theorem closed_session_ends_stopped :
    ∃ labels s more s', Run Step init labels s ∧ Run Step s more s' ∧
      (0 < s.created ∧ (s.sessions 0).isOpen = false ∧
        more = [.failed 0 .operationAborted, .handled 0]) ∧
      0 ∉ s'.managed ∧ sentTo 0 more = [] ∧ more.countP (concerns 0) ≤ 3 := by
  have hexec : ((exec next init (echoesOnce ++ [.stopAll])).bind fun first =>
      (exec next first.2 [.fail 0 .operationAborted, .handle 0]).map fun rest =>
        (decide (0 < first.2.created), (first.2.sessions 0).isOpen, rest.1)) =
      some (true, false, [.failed 0 .operationAborted, .handled 0]) := by
    decide +kernel
  obtain ⟨⟨labels, s⟩, hfirst, hrest⟩ := Option.bind_eq_some_iff.mp hexec
  obtain ⟨⟨more, s'⟩, hsecond, hresult⟩ := Option.map_eq_some_iff.mp hrest
  simp only [Prod.mk.injEq, decide_eq_true_eq] at hresult
  have hrun : Run Step init labels s := exec_run hfirst
  have hmore : Run Step s more s' := exec_run hsecond
  obtain ⟨hmanaged, hsent, hcount, -⟩ := closed_session_ends hrun hresult.1 hresult.2.1 hmore
  exact ⟨labels, s, more, s', hrun, hmore, hresult, hmanaged, hsent, hcount⟩

end Lifetime

end Server

end Demos.Oak
