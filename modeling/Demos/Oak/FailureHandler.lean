import Mathlib.Data.Nat.Digits.Defs
import Demos.Lib.Run
import Demos.Oak.Decimal
import Demos.Oak.Format

/-!
# The handler of failure signals

A thread that fails runs `FailureSignalHandler`. The first thread to get there writes a report and
lets the signal end the process; other threads return from the handler and fail again. If one of
these has called `abort()`, it is there that it goes on: `abort()` restores the default action and
raises the signal again, which ends the process whatever the first thread has written. A signal may
reach a thread at any time, also in the handler, which is not protected against its own signals, so
every thread has a stack of calls of the handler. What each call has left is its place, and the
calls of all threads interleave in any order.

Ids of threads are positive. The writer writes all of what it is given.
-/

namespace Demos.Oak

open Demos.Lib

/-- `kFailureSignal`. -/
inductive FailureSignal where
  | segv
  | ill
  | fpe
  | bus
  | abrt
deriving DecidableEq, Repr

/-- `StrSignal`. -/
def strSignal : FailureSignal → Bytes
  | .segv => ascii "SIGSEGV"
  | .ill => ascii "SIGILL"
  | .fpe => ascii "SIGFPE"
  | .bus => ascii "SIGBUS"
  | .abrt => ascii "SIGABRT"

/-- The time, and the process and user that the signal came from. -/
structure SigInfo where
  time : Int64
  pid : Int32
  uid : Int32
deriving DecidableEq

section Title

/-- The first line of a report. -/
def failureTitle (signo : FailureSignal) (info : SigInfo) : Bytes :=
  ascii "*** " ++ strSignal signo ++ ascii " received at " ++ formatLd info.time.toInt ++
    ascii ", pid = " ++ formatLd info.pid.toInt ++ ascii ", uid = " ++ formatLd info.uid.toInt ++
    ascii " ***\n"

/-- A number has at most one more character than its digits. -/
theorem length_formatLd_le {value : ℤ} {e : ℕ} (he : 0 < e) (h : value.natAbs < 10 ^ e) :
    (formatLd value).length ≤ e + 1 := by
  cases value with
  | ofNat n =>
    have hformat : formatLd (Int.ofNat n) = ascii n.repr := rfl
    rw [hformat, ascii_eq, List.length_map, String.length_toList]
    exact (Nat.repr_length n e he h).trans e.le_succ
  | negSucc n =>
    have hformat : formatLd (Int.negSucc n) = ascii ("-" ++ (n + 1).repr) := rfl
    rw [hformat, ascii_eq, List.length_map, String.length_toList, String.length_append, add_comm]
    exact Nat.succ_le_succ (Nat.repr_length (n + 1) e he h)

/-- A title fits in the buffer that the handler has for it. -/
theorem length_failureTitle_lt (signo : FailureSignal) (info : SigInfo) :
    (failureTitle signo info).length < 128 := by
  have htime : (formatLd info.time.toInt).length ≤ 20 :=
    length_formatLd_le (by decide)
      (by have := info.time.toInt_lt; have := info.time.le_toInt; omega)
  have hpid : (formatLd info.pid.toInt).length ≤ 11 :=
    length_formatLd_le (by decide) (by have := info.pid.toInt_lt; have := info.pid.le_toInt; omega)
  have huid : (formatLd info.uid.toInt).length ≤ 11 :=
    length_formatLd_le (by decide) (by have := info.uid.toInt_lt; have := info.uid.le_toInt; omega)
  have hname : (strSignal signo).length ≤ 7 := by
    cases signo <;> decide
  simp only [failureTitle, List.length_append, ascii, List.length_map]
  have h₁ : "*** ".toList.length = 4 := rfl
  have h₂ : " received at ".toList.length = 13 := rfl
  have h₃ : ", pid = ".toList.length = 8 := rfl
  have h₄ : ", uid = ".toList.length = 8 := rfl
  have h₅ : " ***\n".toList.length = 5 := rfl
  omega

/-- What the handler gives to the writer for the title. There is none if it reads behind its
buffer. -/
def writtenTitle (signo : FailureSignal) (info : SigInfo) : Option Bytes := do
  let output : Formatted :=
    ⟨failureTitle signo info, (length_failureTitle_lt signo info).trans (by decide)⟩
  let (buffer, len) ← format (Cells.fresh 128) 128 (some output)
  buffer.load len.toNat

/-- The writer is given the whole title. -/
theorem writtenTitle_eq (signo : FailureSignal) (info : SigInfo) :
    writtenTitle signo info = some (failureTitle signo info) := by
  have hlength := length_failureTitle_lt signo info
  obtain ⟨buffer, len, hformat, hlen, hbegins⟩ := @format_eq (Cells.fresh 128) 128
    ⟨failureTitle signo info, hlength.trans (by decide)⟩ (by decide) (by simp)
  rw [List.take_of_length_le (by simpa using Nat.le_pred_of_lt hlength)] at hbegins
  simp only [writtenTitle, hformat, Option.bind_eq_bind, Option.bind_some, hlen]
  rw [hbegins.load (by simp), List.take_left]

/-- `ends`. -/
def failureEnds : Bytes := ascii "*** ends ***\n"

end Title

/-- Where a call of the handler is: before the exchange, behind it, after the title, the frames and
the end of the report, after `signal` and after `raise`. -/
inductive HandlerPc where
  | entered
  | chosen
  | titled
  | framed
  | ended
  | reset
  | raised
deriving DecidableEq, Repr

/-- A call of the handler. -/
structure HandlerCall where
  signo : FailureSignal
  info : SigInfo
  pc : HandlerPc
deriving DecidableEq

/-- `failed_tid`, which signals have the default action again, the calls of the handler of each
thread, the last one first, whether a thread may be in `abort()` behind its first signal, and
whether a signal has ended the process. -/
structure Failing where
  failedTid : ℕ
  isDefault : FailureSignal → Bool
  calls : ℕ → List HandlerCall
  aborting : ℕ → Bool
  dead : Bool

/-- What a step shows. -/
inductive FailureEvent where
  | delivered (tid : ℕ)
  | moved (tid : ℕ)
  | wrote (tid : ℕ) (bytes : Bytes)
  | died (signo : FailureSignal)
  | aborted (tid : ℕ)
deriving DecidableEq

namespace Failing

/-- The process after `RegisterFailureSignalHandler`. -/
def init : Failing where
  failedTid := 0
  isDefault := fun _ => false
  calls := fun _ => []
  aborting := fun _ => false
  dead := false

/-- Change the calls of a thread. -/
def setCalls (s : Failing) (tid : ℕ) (calls : List HandlerCall) : Failing :=
  { s with calls := Function.update s.calls tid calls }

/-- A thread returns from a call of the handler before the report. -/
def leave (s : Failing) (tid : ℕ) (call : HandlerCall) (rest : List HandlerCall) : Failing :=
  { s.setCalls tid rest with
    aborting := Function.update s.aborting tid (s.aborting tid || call.signo = .abrt) }

/-- A signal reaches a thread. -/
def deliver (s : Failing) (tid : ℕ) (signo : FailureSignal) (info : SigInfo) :
    FailureEvent × Failing :=
  if s.isDefault signo then (.died signo, { s with dead := true })
  else (.delivered tid, s.setCalls tid (⟨signo, info, .entered⟩ :: s.calls tid))

/-- The next statement of a call of `FailureSignalHandler` on top of the others of its thread.
`frames` is what `backtrace_symbols_fd` writes, and `info` describes the signal of `raise`. -/
def handler (writer : Bool) (s : Failing) (tid : ℕ) (call : HandlerCall) (rest : List HandlerCall)
    (frames : Bytes) (info : SigInfo) : Option (FailureEvent × Failing) :=
  let goTo (pc : HandlerPc) : Failing := s.setCalls tid ({ call with pc := pc } :: rest)
  match call.pc with
  | .entered =>
    if s.failedTid = 0 then some (.moved tid, { goTo .chosen with failedTid := tid })
    else if s.failedTid ≠ tid then some (.moved tid, s.leave tid call rest)
    else some (.moved tid, goTo .chosen)
  | .chosen =>
    if writer then
      (writtenTitle call.signo call.info).map fun bytes => (.wrote tid bytes, goTo .titled)
    else some (.moved tid, goTo .ended)
  | .titled => some (.wrote tid frames, goTo .framed)
  | .framed => some (.wrote tid failureEnds, goTo .ended)
  | .ended =>
    some (.moved tid, { goTo .reset with
      isDefault := Function.update s.isDefault call.signo true })
  | .reset => some ((goTo .raised).deliver tid call.signo info)
  | .raised => some (.moved tid, s.setCalls tid rest)

/-- A signal for a thread, the next statement of its handler, or the second signal of `abort()`. -/
inductive Action where
  | deliver (tid : ℕ) (signo : FailureSignal) (info : SigInfo)
  | run (tid : ℕ) (frames : Bytes) (info : SigInfo)
  | abort (tid : ℕ)

/-- One step of the process, until a signal ends it. -/
def next (writer : Bool) (s : Failing) (action : Action) : Option (FailureEvent × Failing) :=
  if s.dead then none
  else match action with
    | .deliver tid signo info => if tid = 0 then none else some (s.deliver tid signo info)
    | .run tid frames info =>
      match s.calls tid with
      | [] => none
      | call :: rest => s.handler writer tid call rest frames info
    | .abort tid => if s.aborting tid then some (.aborted tid, { s with dead := true }) else none

/-- The steps of the process, with or without a writer. -/
def Step (writer : Bool) : Failing → FailureEvent → Failing → Prop := Moves (next writer)

variable {writer : Bool} {s s' : Failing} {event : FailureEvent} {labels more : List FailureEvent}
  {tid : ℕ} {call : HandlerCall} {rest : List HandlerCall}

section Moves

/-- The call on top goes to another place. -/
def goTo (s : Failing) (tid : ℕ) (call : HandlerCall) (rest : List HandlerCall) (pc : HandlerPc) :
    Failing := s.setCalls tid ({ call with pc := pc } :: rest)

@[simp]
theorem setCalls_isDefault (s : Failing) (tid : ℕ) (calls : List HandlerCall) :
    (s.setCalls tid calls).isDefault = s.isDefault := rfl

@[simp]
theorem goTo_isDefault (s : Failing) (tid : ℕ) (call : HandlerCall) (rest : List HandlerCall)
    (pc : HandlerPc) : (s.goTo tid call rest pc).isDefault = s.isDefault := rfl

/-- Everything the handler does in a thread. -/
inductive HandlerMove (writer : Bool) (s : Failing) (tid : ℕ) (call : HandlerCall)
    (rest : List HandlerCall) : FailureEvent → Failing → Prop
  | first (hpc : call.pc = .entered) (hfailed : s.failedTid = 0) :
      HandlerMove writer s tid call rest (.moved tid)
        { s.goTo tid call rest .chosen with failedTid := tid }
  | leaves (hpc : call.pc = .entered) (hfailed : s.failedTid ≠ 0) (hne : s.failedTid ≠ tid) :
      HandlerMove writer s tid call rest (.moved tid) (s.leave tid call rest)
  | again (hpc : call.pc = .entered) (hfailed : s.failedTid = tid) :
      HandlerMove writer s tid call rest (.moved tid) (s.goTo tid call rest .chosen)
  | title (hpc : call.pc = .chosen) (hwriter : writer = true) :
      HandlerMove writer s tid call rest (.wrote tid (failureTitle call.signo call.info))
        (s.goTo tid call rest .titled)
  | silent (hpc : call.pc = .chosen) (hwriter : writer = false) :
      HandlerMove writer s tid call rest (.moved tid) (s.goTo tid call rest .ended)
  | frames {bytes : Bytes} (hpc : call.pc = .titled) :
      HandlerMove writer s tid call rest (.wrote tid bytes) (s.goTo tid call rest .framed)
  | ends (hpc : call.pc = .framed) :
      HandlerMove writer s tid call rest (.wrote tid failureEnds) (s.goTo tid call rest .ended)
  | resets (hpc : call.pc = .ended) :
      HandlerMove writer s tid call rest (.moved tid) { s.goTo tid call rest .reset with
        isDefault := Function.update s.isDefault call.signo true }
  | raises {info : SigInfo} {event : FailureEvent} {s' : Failing} (hpc : call.pc = .reset)
      (hdeliver : (event, s') = (s.goTo tid call rest .raised).deliver tid call.signo info) :
      HandlerMove writer s tid call rest event s'
  | returns (hpc : call.pc = .raised) :
      HandlerMove writer s tid call rest (.moved tid) (s.setCalls tid rest)

/-- Everything a step can do. -/
inductive Move (writer : Bool) (s : Failing) : FailureEvent → Failing → Prop
  | signal {tid : ℕ} {signo : FailureSignal} {info : SigInfo} {event : FailureEvent} {s' : Failing}
      (htid : tid ≠ 0) (hdeliver : (event, s') = s.deliver tid signo info) : Move writer s event s'
  | handler {tid : ℕ} {call : HandlerCall} {rest : List HandlerCall} {event : FailureEvent}
      {s' : Failing} (hcalls : s.calls tid = call :: rest)
      (hmove : HandlerMove writer s tid call rest event s') : Move writer s event s'
  | abort {tid : ℕ} (haborting : s.aborting tid = true) :
      Move writer s (.aborted tid) { s with dead := true }

theorem handlerMove_of_handler {frames : Bytes} {info : SigInfo}
    (h : s.handler writer tid call rest frames info = some (event, s')) :
    HandlerMove writer s tid call rest event s' := by
  cases hpc : call.pc with
  | entered =>
    simp only [handler, hpc] at h
    split_ifs at h with hfirst hother <;> cases h
    · exact .first hpc hfirst
    · exact .leaves hpc hfirst hother
    · exact .again hpc (not_not.mp hother)
  | chosen =>
    simp only [handler, hpc, writtenTitle_eq] at h
    split_ifs at h with hwriter <;> cases h
    · exact .title hpc hwriter
    · exact .silent hpc (by simpa using hwriter)
  | titled =>
    simp only [handler, hpc] at h
    cases h
    exact .frames hpc
  | framed =>
    simp only [handler, hpc] at h
    cases h
    exact .ends hpc
  | ended =>
    simp only [handler, hpc] at h
    cases h
    exact .resets hpc
  | reset =>
    simp only [handler, hpc, Option.some.injEq] at h
    exact .raises hpc h.symm
  | raised =>
    simp only [handler, hpc] at h
    cases h
    exact .returns hpc

theorem Step.move (hstep : Step writer s event s') : s.dead = false ∧ Move writer s event s' := by
  obtain ⟨action, hnext⟩ := hstep
  unfold next at hnext
  cases hdead : s.dead with
  | true => simp [hdead] at hnext
  | false =>
    refine ⟨rfl, ?_⟩
    simp only [hdead, Bool.false_eq_true, if_false] at hnext
    cases action with
    | deliver tid signo info =>
      by_cases htid : tid = 0
      · simp [htid] at hnext
      · simp only [htid, if_false, Option.some.injEq] at hnext
        exact .signal htid hnext.symm
    | run tid frames info =>
      cases hcalls : s.calls tid with
      | nil => simp [hcalls] at hnext
      | cons call rest =>
        simp only [hcalls] at hnext
        exact .handler hcalls (handlerMove_of_handler hnext)
    | abort tid =>
      dsimp only at hnext
      split_ifs at hnext with haborting
      cases hnext
      exact .abort haborting

end Moves

section Report

/-- What a step writes. -/
def writes : FailureEvent → Option Bytes
  | .wrote _ bytes => some bytes
  | _ => none

/-- What has been written, one write after the other. -/
def report (labels : List FailureEvent) : List Bytes := labels.filterMap writes

@[simp]
theorem report_snoc (labels : List FailureEvent) (event : FailureEvent) :
    report (labels ++ [event]) = report labels ++ (writes event).toList := by
  cases event <;> simp [report, writes]

/-- A whole report on a signal is written without interruption. -/
def Complete (chunks : List Bytes) (signo : FailureSignal) : Prop :=
  ∃ info frames, [failureTitle signo info, frames, failureEnds] <:+: chunks

/-- What is written is not taken back. -/
theorem Complete.append {chunks : List Bytes} {signo : FailureSignal} (h : Complete chunks signo)
    (later : List Bytes) : Complete (chunks ++ later) signo := by
  obtain ⟨info, frames, hinfix⟩ := h
  exact ⟨info, frames, hinfix.trans (List.prefix_append chunks later).isInfix⟩

/-- How far the report of the last call of the thread that failed has come. -/
def Written (writer : Bool) (chunks : List Bytes) (isDefault : FailureSignal → Bool)
    (call : HandlerCall) : Prop :=
  match call.pc with
  | .entered | .chosen => True
  | .titled => [failureTitle call.signo call.info] <:+ chunks
  | .framed => ∃ frames, [failureTitle call.signo call.info, frames] <:+ chunks
  | .ended => writer = true → Complete chunks call.signo
  | .reset => isDefault call.signo = true
  | .raised => False

/-- Only the thread that failed is past the exchange and writes; its last call has written its
report as far as its place says, and a signal has the default action only after a report on it. Only
another thread ends the process in `abort()`. -/
structure Reports (writer : Bool) (labels : List FailureEvent) (s : Failing) : Prop where
  nobody : s.calls 0 = []
  others : ∀ tid, tid ≠ s.failedTid → ∀ call ∈ s.calls tid, call.pc = .entered
  busy : s.failedTid ≠ 0 → s.calls s.failedTid ≠ []
  wrote : ∀ tid bytes, .wrote tid bytes ∈ labels → tid = s.failedTid ∧ tid ≠ 0
  last : s.dead = false → ∀ call rest, s.calls s.failedTid = call :: rest →
    Written writer (report labels) s.isDefault call
  complete : ∀ signo, s.isDefault signo = true → writer = true → Complete (report labels) signo
  died : ∀ signo, .died signo ∈ labels → s.isDefault signo = true
  aborts : ∀ tid, s.aborting tid = true ∨ .aborted tid ∈ labels →
    s.failedTid ≠ 0 ∧ tid ≠ s.failedTid

theorem reports_init : Reports writer [] init where
  nobody := rfl
  others _ _ _ hcall := by cases hcall
  busy hfailed := absurd rfl hfailed
  wrote _ _ hwrote := by cases hwrote
  last _ _ _ hcalls := by cases hcalls
  complete _ hdefault := by cases hdefault
  died _ hdied := by cases hdied
  aborts _ haborts := by cases haborts <;> contradiction

/-- A call past the exchange is one of the thread that failed. -/
theorem Reports.failed_of_pc (h : Reports writer labels s) (hcalls : s.calls tid = call :: rest)
    (hpc : call.pc ≠ .entered) : tid = s.failedTid := by
  by_contra hne
  exact hpc (h.others tid hne call (by simp [hcalls]))

theorem Reports.tid_ne_zero (h : Reports writer labels s) (hcalls : s.calls tid = call :: rest) :
    tid ≠ 0 := by
  rintro rfl
  simp [h.nobody] at hcalls

/-- A signal reaches a thread. -/
theorem Reports.deliver {signo : FailureSignal} {info : SigInfo} (h : Reports writer labels s)
    (hdead : s.dead = false) (htid : tid ≠ 0)
    (hdeliver : (event, s') = s.deliver tid signo info) :
    Reports writer (labels ++ [event]) s' := by
  unfold Failing.deliver at hdeliver
  split_ifs at hdeliver with hdefault <;> cases hdeliver
  · refine ⟨h.nobody, h.others, h.busy, by simpa using h.wrote, fun halive => (by cases halive),
      by simpa [writes] using h.complete, fun signo' hdied => ?_, by simpa using h.aborts⟩
    · obtain hdied | hdied := List.mem_append.mp hdied
      · exact h.died signo' hdied
      · rw [List.mem_singleton, FailureEvent.died.injEq] at hdied
        exact hdied ▸ hdefault
  · refine ⟨by simpa [setCalls, htid.symm] using h.nobody, fun tid' hne call hcall => ?_,
      fun hfailed => ?_, by simpa [setCalls] using h.wrote, fun _ call rest hcalls => ?_,
      by simpa [writes, setCalls] using h.complete, by simpa using h.died,
      by simpa [setCalls] using h.aborts⟩
    · by_cases heq : tid' = tid
      · subst heq
        simp only [setCalls, Function.update_self, List.mem_cons] at hcall
        obtain rfl | hcall := hcall
        · rfl
        · exact h.others tid' hne call hcall
      · exact h.others tid' hne call (by simpa [setCalls, heq] using hcall)
    · by_cases heq : s.failedTid = tid
      · simp [setCalls, heq]
      · simpa [setCalls, heq] using h.busy hfailed
    · by_cases heq : s.failedTid = tid
      · simp only [setCalls, heq, Function.update_self, List.cons.injEq] at hcalls
        rw [← hcalls.1]
        trivial
      · simpa [writes] using h.last hdead call rest (by simpa [setCalls, heq] using hcalls)

/-- The last call of the thread that failed goes on. -/
theorem Reports.goesOn {call' : HandlerCall} (h : Reports writer labels s)
    (hcalls : s.calls tid = call :: rest) (hfailed : tid = s.failedTid)
    (hcalls' : s'.calls = Function.update s.calls tid (call' :: rest))
    (hfailed' : s'.failedTid = s.failedTid) (haborting : s'.aborting = s.aborting)
    (hdefault : ∀ signo, s.isDefault signo = true → s'.isDefault signo = true)
    (hevent : event = .moved tid ∨ (∃ bytes, event = .wrote tid bytes) ∨
      ∃ signo, event = .died signo ∧ s'.isDefault signo = true)
    (hlast : s'.dead = false → Written writer (report (labels ++ [event])) s'.isDefault call')
    (hcomplete : ∀ signo, s'.isDefault signo = true → writer = true →
      Complete (report (labels ++ [event])) signo) : Reports writer (labels ++ [event]) s' := by
  have htid := h.tid_ne_zero hcalls
  refine ⟨by simpa [hcalls', htid.symm] using h.nobody, fun tid' hne call hcall => ?_,
    fun _ => by simp [hcalls', hfailed', ← hfailed], fun tid' bytes hwrote => ?_,
    fun halive call rest hcalls => ?_, hcomplete, fun signo hdied => ?_, fun tid' haborts => ?_⟩
  · rw [hfailed', ← hfailed] at hne
    rw [hcalls', Function.update_of_ne hne] at hcall
    exact h.others tid' (hfailed ▸ hne) call hcall
  · rw [hfailed']
    obtain hwrote | hwrote := List.mem_append.mp hwrote
    · exact h.wrote tid' bytes hwrote
    · rw [List.mem_singleton] at hwrote
      obtain rfl | ⟨bytes', rfl⟩ | ⟨signo, rfl, -⟩ := hevent <;> cases hwrote
      exact ⟨hfailed, htid⟩
  · rw [hcalls', hfailed', ← hfailed, Function.update_self, List.cons.injEq] at hcalls
    exact hcalls.1 ▸ hlast halive
  · obtain hdied | hdied := List.mem_append.mp hdied
    · exact hdefault signo (h.died signo hdied)
    · rw [List.mem_singleton] at hdied
      obtain rfl | ⟨bytes', rfl⟩ | ⟨signo', rfl, hreset⟩ := hevent <;> cases hdied
      exact hreset
  · rw [hfailed']
    refine h.aborts tid' (haborts.imp (fun hbefore => haborting ▸ hbefore) fun haborted => ?_)
    obtain rfl | ⟨bytes', rfl⟩ | ⟨signo', rfl, -⟩ := hevent <;> simpa using haborted

/-- The first thread to fail wins the exchange. -/
theorem Reports.fails (h : Reports writer labels s) (hcalls : s.calls tid = call :: rest)
    (hzero : s.failedTid = 0) : Reports writer (labels ++ [.moved tid])
      { s.goTo tid call rest .chosen with failedTid := tid } := by
  have htid := h.tid_ne_zero hcalls
  refine ⟨by simpa [goTo, setCalls, htid.symm] using h.nobody, fun tid' hne call hcall => ?_,
    fun _ => by simp [goTo, setCalls], fun tid' bytes hwrote => ?_, fun _ call rest hlast => ?_,
    by simpa [writes, goTo, setCalls] using h.complete, by simpa using h.died,
    fun tid' haborts => ?_⟩
  · have hcall : call ∈ s.calls tid' := by simpa [goTo, setCalls, hne] using hcall
    by_cases hnobody : tid' = 0
    · simp [hnobody, h.nobody] at hcall
    · exact h.others tid' (hzero ▸ hnobody) call hcall
  · have hbefore := h.wrote tid' bytes (by simpa using hwrote)
    exact absurd (hbefore.1.trans hzero) hbefore.2
  · simp only [goTo, setCalls, Function.update_self, List.cons.injEq] at hlast
    rw [← hlast.1]
    trivial
  · exact absurd hzero (h.aborts tid' (by simpa [goTo, setCalls] using haborts)).1

/-- A thread that loses the exchange returns. -/
theorem Reports.leaves (h : Reports writer labels s) (hcalls : s.calls tid = call :: rest)
    (hdead : s.dead = false) (hzero : s.failedTid ≠ 0) (hne : s.failedTid ≠ tid) :
    Reports writer (labels ++ [.moved tid]) (s.leave tid call rest) := by
  have htid := h.tid_ne_zero hcalls
  refine ⟨by simpa [leave, setCalls, htid.symm] using h.nobody, fun tid' hne' call hcall => ?_,
    fun hfailed => by simpa [leave, setCalls, hne] using h.busy hfailed,
    by simpa [leave, setCalls] using h.wrote, fun _ call rest hlast => ?_,
    by simpa [writes, leave] using h.complete, by simpa [leave] using h.died,
    fun tid' haborts => ?_⟩
  · by_cases heq : tid' = tid
    · subst heq
      refine h.others tid' hne' call ?_
      rw [hcalls]
      exact List.mem_cons_of_mem _ (by simpa [leave, setCalls] using hcall)
    · exact h.others tid' hne' call (by simpa [leave, setCalls, heq] using hcall)
  · have hbefore := h.last hdead call rest (by simpa [leave, setCalls, hne] using hlast)
    simpa [writes, leave] using hbefore
  · by_cases heq : tid' = tid
    · exact ⟨hzero, heq ▸ hne.symm⟩
    · exact h.aborts tid' (by simpa [leave, heq] using haborts)

/-- Every step of the handler keeps the reports whole. -/
theorem HandlerMove.reports (hmove : HandlerMove writer s tid call rest event s')
    (hcalls : s.calls tid = call :: rest) (hdead : s.dead = false) (h : Reports writer labels s) :
    Reports writer (labels ++ [event]) s' := by
  have hmono (later : List Bytes) : ∀ signo, s.isDefault signo = true → writer = true →
      Complete (report labels ++ later) signo :=
    fun signo hdefault hwriter => (h.complete signo hdefault hwriter).append later
  have hwritten : tid = s.failedTid → Written writer (report labels) s.isDefault call :=
    fun hfailed => h.last hdead call rest (hfailed ▸ hcalls)
  -- a part of the report is written
  have hwrites {pc : HandlerPc} {bytes : Bytes} (hpc : call.pc ≠ .entered)
      (hlast : Written writer (report labels) s.isDefault call →
        Written writer (report labels ++ [bytes]) s.isDefault { call with pc := pc }) :
      Reports writer (labels ++ [.wrote tid bytes]) (s.goTo tid call rest pc) := by
    have hfailed := h.failed_of_pc hcalls hpc
    exact h.goesOn hcalls hfailed rfl rfl rfl (fun _ => id) (.inr (.inl ⟨_, rfl⟩))
      (fun _ => by simpa [writes] using hlast (hwritten hfailed)) (by simpa [writes] using hmono _)
  cases hmove with
  | first hpc hzero => exact h.fails hcalls hzero
  | leaves hpc hzero hne => exact h.leaves hcalls hdead hzero hne
  | again hpc hfailed =>
    exact h.goesOn hcalls hfailed.symm rfl rfl rfl (fun _ => id) (.inl rfl) (fun _ => trivial)
      (by simpa [writes] using hmono [])
  | title hpc hwriter => exact hwrites (by simp [hpc]) fun _ => by simp [Written]
  | silent hpc hwriter =>
    have hfailed := h.failed_of_pc hcalls (by simp [hpc])
    refine h.goesOn hcalls hfailed rfl rfl rfl (fun _ => id) (.inl rfl) (fun _ => ?_)
      (by simpa [writes] using hmono [])
    simp [Written, hwriter]
  | @frames bytes hpc =>
    refine hwrites (by simp [hpc]) fun hwritten => ?_
    have htitle : [failureTitle call.signo call.info] <:+ report labels := by
      simpa [Written, hpc] using hwritten
    obtain ⟨before, hbefore⟩ := htitle
    exact ⟨bytes, before, by simp [← hbefore]⟩
  | ends hpc =>
    refine hwrites (by simp [hpc]) fun hwritten _ => ?_
    have hframes : ∃ frames, [failureTitle call.signo call.info, frames] <:+ report labels := by
      simpa [Written, hpc] using hwritten
    obtain ⟨frames, before, hbefore⟩ := hframes
    exact ⟨call.info, frames, before, [], by simp [← hbefore]⟩
  | resets hpc =>
    have hfailed := h.failed_of_pc hcalls (by simp [hpc])
    have hcomplete : writer = true → Complete (report labels) call.signo := by
      simpa [Written, hpc] using hwritten hfailed
    refine h.goesOn hcalls hfailed rfl rfl rfl (fun signo hdefault => ?_) (.inl rfl) (fun _ => ?_)
      fun signo hdefault hwriter => ?_
    · by_cases heq : signo = call.signo <;> simp [heq, hdefault]
    · simp [Written]
    · simp only [report_snoc, writes, Option.toList_none, List.append_nil]
      by_cases heq : signo = call.signo
      · exact heq ▸ hcomplete hwriter
      · exact h.complete signo (by simpa [heq, goTo, setCalls] using hdefault) hwriter
  | @raises info event s' hpc hdeliver =>
    have hfailed := h.failed_of_pc hcalls (by simp [hpc])
    have hdefault : s.isDefault call.signo = true := by
      simpa [Written, hpc] using hwritten hfailed
    rw [deliver, goTo_isDefault, if_pos hdefault] at hdeliver
    cases hdeliver
    exact h.goesOn hcalls hfailed rfl rfl rfl (fun _ => id) (.inr (.inr ⟨_, rfl, hdefault⟩))
      (fun halive => by cases halive) (by simpa [writes] using hmono [])
  | returns hpc =>
    have hfailed := h.failed_of_pc hcalls (by simp [hpc])
    have hfalse := hwritten hfailed
    simp [Written, hpc] at hfalse

/-- Every step keeps the reports whole. -/
theorem Step.reports (hstep : Step writer s event s') (h : Reports writer labels s) :
    Reports writer (labels ++ [event]) s' := by
  obtain ⟨hdead, hmove⟩ := hstep.move
  cases hmove with
  | signal htid hdeliver => exact h.deliver hdead htid hdeliver
  | handler hcalls hmove => exact hmove.reports hcalls hdead h
  | abort haborting =>
    refine ⟨h.nobody, h.others, h.busy, by simpa using h.wrote, fun halive => (by cases halive),
      by simpa [writes] using h.complete, by simpa using h.died, fun tid haborts => ?_⟩
    refine h.aborts tid (haborts.elim .inl fun haborted => ?_)
    obtain haborted | haborted := List.mem_append.mp haborted
    · exact .inr haborted
    · cases List.mem_singleton.mp haborted
      exact .inl haborting

theorem reports_of_run (hrun : Run (Step writer) init labels s) : Reports writer labels s :=
  hrun.invariant (I := Reports writer) reports_init fun _ _ _ _ h hstep => Step.reports hstep h

/-- A signal from the process itself. -/
def fromSelf : SigInfo := ⟨0, 1, 0⟩

end Report

section Ending

/-- The steps of a thread in the handler, and the end of the process. -/
def ofThread (tid : ℕ) : FailureEvent → Bool
  | .moved tid' | .wrote tid' _ => tid' = tid
  | .died _ => true
  | .delivered _ | .aborted _ => false

/-- The signals that reach a thread in time. -/
def reaches (tid : ℕ) : FailureEvent → Bool
  | .delivered tid' => tid' = tid
  | _ => false

/-- How many statements a call has left until the process ends. -/
def statementsLeft : HandlerPc → ℕ
  | .entered => 6
  | .chosen => 5
  | .titled => 4
  | .framed => 3
  | .ended => 2
  | .reset => 1
  | .raised => 0

/-- How many statements the last call of the thread that failed has left. -/
def left (s : Failing) : ℕ :=
  if s.dead then 0
  else match s.calls s.failedTid with
    | [] => 0
    | call :: _ => statementsLeft call.pc

theorem left_eq (hdead : s.dead = false) (hcalls : s.calls s.failedTid = call :: rest) :
    s.left = statementsLeft call.pc := by
  simp [left, hdead, hcalls]

/-- What the thread that failed has left does not depend on other threads. -/
theorem left_congr (hdead : s'.dead = s.dead) (hfailed : s'.failedTid = s.failedTid)
    (hcalls : s'.calls s.failedTid = s.calls s.failedTid) : s'.left = s.left := by
  simp [left, hdead, hfailed, hcalls]

/-- The handler ends with the process: the last call of the thread that failed is not behind
`raise`. -/
theorem Reports.last_call (h : Reports writer labels s) (hdead : s.dead = false)
    (hfailed : s.failedTid ≠ 0) :
    ∃ call rest, s.calls s.failedTid = call :: rest ∧ call.pc ≠ .raised ∧
      (call.pc = .reset → s.isDefault call.signo = true) := by
  obtain ⟨call, rest, hcalls⟩ := List.exists_cons_of_ne_nil (h.busy hfailed)
  have hwritten := h.last hdead call rest hcalls
  refine ⟨call, rest, hcalls, fun hpc => ?_, fun hpc => ?_⟩
  · simp [Written, hpc] at hwritten
  · simpa [Written, hpc] using hwritten

/-- A statement of the thread that failed leaves it fewer. -/
theorem HandlerMove.left_lt (hmove : HandlerMove writer s s.failedTid call rest event s')
    (h : Reports writer labels s) (hdead : s.dead = false) (hfailed : s.failedTid ≠ 0)
    (hcalls : s.calls s.failedTid = call :: rest) :
    s'.failedTid = s.failedTid ∧ ofThread s.failedTid event = true ∧ s'.left < s.left := by
  obtain ⟨call', rest', hcalls', hraised, hdefault⟩ := h.last_call hdead hfailed
  obtain ⟨rfl, rfl⟩ := List.cons.inj (hcalls'.symm.trans hcalls)
  rw [left_eq hdead hcalls]
  have hless {t : Failing} {pc : HandlerPc} (ht : t.dead = false)
      (hfailed : t.failedTid = s.failedTid)
      (hcalls : t.calls = (s.goTo s.failedTid call' rest' pc).calls)
      (hlt : statementsLeft pc < statementsLeft call'.pc) : t.left < statementsLeft call'.pc := by
    have hlast : t.calls t.failedTid = { call' with pc := pc } :: rest' := by
      simp [hcalls, hfailed, goTo, setCalls]
    exact (left_eq ht hlast).trans_lt hlt
  cases hmove with
  | first _ hzero => exact absurd hzero hfailed
  | leaves _ _ hne => exact absurd rfl hne
  | again hpc | title hpc | silent hpc | frames hpc | ends hpc | resets hpc =>
    exact ⟨rfl, by simp [ofThread], hless hdead rfl rfl (by simp [hpc, statementsLeft])⟩
  | raises hpc hdeliver =>
    rw [deliver, goTo_isDefault, if_pos (hdefault hpc)] at hdeliver
    cases hdeliver
    exact ⟨rfl, rfl, by simp [left, hpc, statementsLeft]⟩
  | returns hpc => exact absurd hpc hraised

/-- A step takes a statement from what the thread that failed has left, or leaves it; a signal that
reaches the thread gives it a new call. -/
theorem Step.left_le (hstep : Step writer s event s') (h : Reports writer labels s)
    (hfailed : s.failedTid ≠ 0) :
    s'.failedTid = s.failedTid ∧ (if ofThread s.failedTid event then 1 else 0) + s'.left ≤
      s.left + if reaches s.failedTid event then 6 else 0 := by
  obtain ⟨hdead, hmove⟩ := hstep.move
  cases hmove with
  | @signal tid signo info event s' htid hdeliver =>
    unfold deliver at hdeliver
    split_ifs at hdeliver <;> cases hdeliver
    · obtain ⟨call, rest, hcalls, hraised, -⟩ := h.last_call hdead hfailed
      have hpos : 0 < s.left := by
        rw [left_eq hdead hcalls]
        cases hpc : call.pc <;> simp_all [statementsLeft]
      have hzero : { s with dead := true }.left = 0 := rfl
      refine ⟨rfl, ?_⟩
      rw [hzero]
      simpa [ofThread, reaches] using Nat.succ_le_of_lt hpos
    · refine ⟨rfl, ?_⟩
      by_cases heq : tid = s.failedTid
      · subst heq
        have hnew : (s.setCalls s.failedTid
            (⟨signo, info, .entered⟩ :: s.calls s.failedTid)).left = 6 := by
          simp [left, setCalls, hdead, statementsLeft]
        simp [hnew, ofThread, reaches]
      · have hsame : (s.setCalls tid (⟨signo, info, .entered⟩ :: s.calls tid)).left = s.left :=
          left_congr rfl rfl (by simp [setCalls, Ne.symm heq])
        simp [hsame, ofThread]
  | @handler tid call rest event s' hcalls hmove =>
    by_cases heq : tid = s.failedTid
    · subst heq
      obtain ⟨hfailed', hown, hlt⟩ := hmove.left_lt h hdead hfailed hcalls
      refine ⟨hfailed', ?_⟩
      rw [hown, if_pos rfl]
      omega
    · have hpc := h.others tid heq call (by simp [hcalls])
      cases hmove with
      | leaves =>
        have hsame : (s.leave tid call rest).left = s.left :=
          left_congr rfl rfl (by simp [leave, setCalls, Ne.symm heq])
        refine ⟨rfl, ?_⟩
        simp [hsame, ofThread, heq]
      | first _ hzero => exact absurd hzero hfailed
      | again _ hsame => exact absurd hsame.symm heq
      | _ => simp_all
  | abort haborting => exact ⟨rfl, by simp [ofThread, left]⟩

/-- The thread that failed can go on until the process ends. -/
theorem Reports.exists_step (h : Reports writer labels s) (hdead : s.dead = false)
    (hfailed : s.failedTid ≠ 0) :
    ∃ event s', Step writer s event s' ∧ ofThread s.failedTid event = true := by
  obtain ⟨call, rest, hcalls, hraised, -⟩ := h.last_call hdead hfailed
  have hhandler : ∃ result, s.handler writer s.failedTid call rest [] fromSelf = some result := by
    cases hpc : call.pc <;> simp only [handler, hpc, writtenTitle_eq] <;> (try split_ifs) <;>
      exact ⟨_, rfl⟩
  obtain ⟨⟨event, s'⟩, hhandler⟩ := hhandler
  refine ⟨event, s', ⟨.run s.failedTid [] fromSelf, ?_⟩, ?_⟩
  · simp only [next, hdead, Bool.false_eq_true, if_false, hcalls]
    exact hhandler
  · exact ((handlerMove_of_handler hhandler).left_lt h hdead hfailed hcalls).2.1

/-- Once a thread has failed it can go on until the process ends, and the process ends after at most
six of its statements, or six more for each signal that reaches it in the handler. -/
theorem failure_ends (hrun : Run (Step writer) init labels s) (hfailed : s.failedTid ≠ 0)
    (hmore : Run (Step writer) s more s') :
    more.countP (ofThread s.failedTid) ≤ 6 + 6 * more.countP (reaches s.failedTid) ∧
      (s'.dead = false → ∃ event s'', Step writer s' event s'' ∧
        ofThread s.failedTid event = true) := by
  have hcount : (s'.failedTid = s.failedTid ∧ Reports writer (labels ++ more) s') ∧
      more.countP (ofThread s.failedTid) + s'.left ≤
        6 + 6 * more.countP (reaches s.failedTid) := by
    refine hmore.invariant (I := fun more s' =>
      (s'.failedTid = s.failedTid ∧ Reports writer (labels ++ more) s') ∧
        more.countP (ofThread s.failedTid) + s'.left ≤
          6 + 6 * more.countP (reaches s.failedTid)) ⟨⟨rfl, ?_⟩, ?_⟩ ?_
    · simpa using reports_of_run hrun
    · unfold left
      split_ifs
      · simp
      · split
        · simp
        · next call _ _ => cases call.pc <;> simp [statementsLeft]
    · intro more s₁ event s₂ hbefore hstep
      obtain ⟨⟨hsame, hreports⟩, hcount⟩ := hbefore
      obtain ⟨hsame', hone⟩ := Step.left_le hstep hreports (hsame ▸ hfailed)
      refine ⟨⟨hsame'.trans hsame, ?_⟩, ?_⟩
      · rw [← List.append_assoc]
        exact Step.reports hstep hreports
      · rw [hsame] at hone
        rw [List.countP_append, List.countP_append, List.countP_singleton, List.countP_singleton]
        split_ifs at hone ⊢ <;> omega
  obtain ⟨⟨hsame, hreports⟩, hle⟩ := hcount
  refine ⟨by omega, fun halive => ?_⟩
  rw [← hsame]
  exact hreports.exists_step halive (hsame ▸ hfailed)

/-- A thread has failed, and can go on. -/
theorem failure_ends_first :
    ∃ labels s, Run (Step true) init labels s ∧ s.failedTid = 7 ∧
      ∃ event s', Step true s event s' ∧ ofThread s.failedTid event = true := by
  have hexec : (exec (next true) init [.deliver 7 .segv fromSelf, .run 7 [] fromSelf]).map
      (fun result => (result.2.failedTid, result.2.dead)) = some (7, false) := by
    decide +kernel
  obtain ⟨labels, s, hrun, hresult⟩ := exists_run_of_exec hexec
  obtain ⟨hfailed, hdead⟩ := Prod.mk.inj hresult
  have hne : s.failedTid ≠ 0 := hfailed ▸ (by decide)
  exact ⟨labels, s, hrun, hfailed, (failure_ends hrun hne .nil).2 hdead⟩

end Ending

end Failing

end Demos.Oak
