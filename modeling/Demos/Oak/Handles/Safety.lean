import Mathlib.Data.List.Nodup
import Demos.Oak.Handles.Moves

/-!
# The handles are used by their protocol

The lock of a context keeps the main thread and the parser thread apart: a parser that has found a
handle still finds it in the map when it calls `Parse`. So no handle is used after it is closed,
every handle is closed at most once, and none is forgotten. The thread that has taken a lock can
always go on until it gives the lock back. Only the alarm of a module that does not open makes the
main thread wait under a lock, for a parser thread that is in `ReportMetrics` and asks for no lock.
-/

namespace Demos.Oak

open Demos.Lib

namespace Shared

variable {dir : Bytes} {n i p object : ℕ} {s s' : Shared} {event : HandleEvent}
  {labels : List HandleEvent} {context : ParserContext ℕ} {id : UInt64}

section Locks

/-- The context whose lock the main thread has. -/
def lockOf : UpdatePc → Option ℕ
  | .inside _ _ i | .alarming _ _ _ i | .opened _ _ _ _ i | .tagged _ _ _ _ i | .erased _ _ i
  | .leave _ _ i _ => some i
  | _ => none

/-- Who is under the lock of a context. -/
def Inside (s : Shared) : Owner → ℕ → Prop
  | .main, i => lockOf s.main = some i
  | .parser p, i => i = p ∧ ¬ Outside (s.parsers p)

/-- A handle that is closed changes nothing else. -/
theorem close_cases {object : Option ℕ} (h : (event, s') = s.close object) :
    (object = none ∧ event = .silent ∧ s' = s) ∨
      ∃ x, object = some x ∧ event = .closed x ∧
        s' = { s with objects := s.objects.destroy x } := by
  cases object with
  | none =>
    cases h
    exact .inl ⟨rfl, rfl, rfl⟩
  | some x =>
    cases h
    exact .inr ⟨x, rfl, rfl, rfl⟩

/-- Closing a handle changes the heap of the handles only. -/
theorem close_eq {object : Option ℕ} (h : (event, s') = s.close object) :
    s' = { s with objects := s'.objects } := by
  obtain ⟨-, -, rfl⟩ | ⟨x, -, -, rfl⟩ := close_cases h <;> rfl

/-- A step that takes and gives back no lock. -/
theorem guards_same (h : Guards s.locks s.Inside) (hlocks : s'.locks = s.locks)
    (hlock : lockOf s'.main = lockOf s.main)
    (hparsers : ∀ p, Outside (s'.parsers p) ↔ Outside (s.parsers p)) :
    Guards s'.locks s'.Inside := by
  rw [hlocks]
  apply h.congr
  intro owner i
  cases owner with
  | main => simp [Inside, hlock]
  | parser p => simp [Inside, hparsers p]

/-- The main thread gives a lock back. -/
theorem guards_release {main : UpdatePc} (h : Guards s.locks s.Inside)
    (hlock : lockOf s.main = some i) (hmain : lockOf main = none) :
    Guards (s.setLock i none).locks (Inside { s.setLock i none with main := main }) := by
  apply h.release (t := .main) (show s.Inside .main i from hlock)
  intro owner j
  cases owner with
  | main => simp [Inside, hmain, hlock, eq_comm]
  | parser p => simp [Inside, setLock]

/-- The main thread keeps the locks right. -/
theorem MainMove.guards (hmove : MainMove dir n s event s') (h : Guards s.locks s.Inside) :
    Guards s'.locks s'.Inside := by
  cases hmove with
  | @locks e job i hmain hlt hfree =>
    apply h.acquire hfree
    intro owner j
    cases owner with
    | main => simp [Inside, hmain, lockOf, eq_comm]
    | parser p => simp [Inside, setLock]
  | unlocks hmain | givesUp hmain => exact guards_release h (by simp [hmain, lockOf]) rfl
  | installs hmain hclose | removes hmain hclose =>
    rw [close_eq hclose]
    exact guards_same h rfl (by simp [hmain, lockOf]) fun _ => Iff.rfl
  | ignored hmain | waits hmain => exact h
  | _ => exact guards_same h rfl (by simp_all [lockOf, setContext]) fun _ => Iff.rfl

/-- A parser thread that stays on its side of the lock. -/
theorem outside_setParser {pc : UsePc} (h : Outside pc ↔ Outside (s.parsers p)) (q : ℕ) :
    Outside ((s.setParser p pc).parsers q) ↔ Outside (s.parsers q) := by
  by_cases hq : q = p
  · subst hq
    simpa [setParser] using h
  · simp [setParser, hq]

/-- A parser thread keeps the locks right. -/
theorem UseMove.guards (hmove : UseMove s p event s') (h : Guards s.locks s.Inside) :
    Guards s'.locks s'.Inside := by
  cases hmove with
  | locks hpc hfree =>
    apply h.acquire hfree
    intro owner j
    cases owner with
    | main => simp [Inside, setParser, setLock]
    | parser q =>
      by_cases hq : q = p
      · subst hq
        simp [Inside, setParser, hpc, Outside]
      · simp [Inside, setParser, setLock, hq]
  | unlocks hpc =>
    apply h.release (t := .parser p) (by simp [Inside, hpc, Outside])
    intro owner j
    cases owner with
    | main => simp [Inside, setParser, setLock]
    | parser q =>
      by_cases hq : q = p
      · subst hq
        simp [Inside, setParser, hpc, Outside]
      · simp [Inside, setParser, setLock, hq]
  | goes hfrom hto =>
    exact guards_same h rfl rfl (outside_setParser (iff_of_true hto hfrom))
  | reports hpc => exact guards_same h rfl rfl (outside_setParser (s := s) (by simp [hpc, Outside]))
  | misses hpc | finds hpc =>
    exact guards_same h rfl rfl (outside_setParser (by simp [hpc, Outside]))
  | parses hpc => exact guards_same h rfl rfl (outside_setParser (by simp [hpc, Outside]))
  | accounts hpc =>
    exact guards_same h rfl rfl (outside_setParser (s := s) (by simp [hpc, Outside]))

end Locks

section Ownership

/-- Who can hold a handle: the main thread before it is in the map, and an entry of the map of a
context. -/
inductive Slot where
  | hand
  | entry (i : ℕ) (id : UInt64)
deriving DecidableEq

/-- The handle that the main thread has opened and not put into the map yet. -/
def handOf : UpdatePc → Option ℕ
  | .opened _ _ _ object _ | .tagged _ _ _ object _ => some object
  | _ => none

/-- The handles that are held. -/
def holds (s : Shared) : Slot → Option (ℕ × Unit)
  | .hand => (handOf s.main).map (·, ())
  | .entry i id => (s.contexts i).handles[id]?.map (·, ())

/-- A step that moves no handle. -/
theorem holds_same (hhand : handOf s'.main = handOf s.main)
    (hhandles : ∀ i, (s'.contexts i).handles = (s.contexts i).handles) : s'.holds = s.holds := by
  funext slot
  cases slot with
  | hand => simp [holds, hhand]
  | entry i id => simp [holds, hhandles]

/-- A step that changes what the main thread holds. -/
theorem holds_hand (hhandles : ∀ i, (s'.contexts i).handles = (s.contexts i).handles) :
    s'.holds = Function.update s.holds .hand ((handOf s'.main).map (·, ())) := by
  funext slot
  cases slot with
  | hand => simp [holds]
  | entry i id => simp [holds, hhandles]

/-- A step that changes an entry. -/
theorem holds_entry (x : Option ℕ) (hhand : handOf s'.main = handOf s.main)
    (hcontexts : s'.contexts = Function.update s.contexts i context)
    (hentry : ∀ id', context.handles[id']? = if id' = id then x else (s.contexts i).handles[id']?) :
    s'.holds = Function.update s.holds (.entry i id) (x.map (·, ())) := by
  funext slot
  cases slot with
  | hand => simp [holds, hhand]
  | entry j id' =>
    by_cases hj : j = i
    · subst hj
      by_cases hid : id' = id
      · subst hid
        simp [holds, hcontexts, hentry]
      · simp [holds, hcontexts, hentry, hid]
    · simp [holds, hcontexts, hj]

/-- The entries after one of them is erased. -/
theorem getElem?_erase_eq (handles : Std.ExtTreeMap UInt64 ℕ) (id id' : UInt64) :
    (handles.erase id)[id']? = if id' = id then none else handles[id']? := by
  by_cases hid : id' = id
  · simp [hid]
  · simp [Std.ExtTreeMap.getElem?_erase, hid, Ne.symm hid]

/-- The entries after one of them is set. -/
theorem getElem?_insert_eq (handles : Std.ExtTreeMap UInt64 ℕ) (id id' : UInt64) (object : ℕ) :
    (handles.insert id object)[id']? = if id' = id then some object else handles[id']? := by
  by_cases hid : id' = id
  · simp [hid]
  · simp [Std.ExtTreeMap.getElem?_insert, hid, Ne.symm hid]

/-- A report leaves the handles. -/
theorem reportTag_handles (context : ParserContext ℕ) (id : UInt64) :
    (context.reportTag id).handles = context.handles := by
  unfold ParserContext.reportTag
  split <;> rfl

/-- The accounting of a record leaves the handles. -/
theorem account_handles (context : ParserContext ℕ) (record : Metadata) (res : ℤ) :
    (context.account record res).handles = context.handles := by
  unfold ParserContext.account
  split
  next => rfl
  next => split <;> rfl

/-- The alarm of a module that does not open leaves the handles. -/
theorem openFailed_handles (context : ParserContext ℕ) (module : ModuleConfig)
    (tag : ProtocolTag) : (context.openFailed module tag).handles = context.handles := by
  unfold ParserContext.openFailed
  split <;> rfl

/-- The handles of the contexts after one of them changes and keeps its own. -/
theorem handles_update (hcontexts : s'.contexts = Function.update s.contexts i context)
    (hhandles : context.handles = (s.contexts i).handles) (j : ℕ) :
    (s'.contexts j).handles = (s.contexts j).handles := by
  by_cases hj : j = i
  · subst hj
    simpa [hcontexts] using hhandles
  · simp [hcontexts, hj]

/-- A step that moves no handle. -/
theorem owned_same (h : s.objects.Owned s.holds) (hobjects : s'.objects = s.objects)
    (hhand : handOf s'.main = handOf s.main)
    (hhandles : ∀ i, (s'.contexts i).handles = (s.contexts i).handles) :
    s'.objects.Owned s'.holds := by
  rw [hobjects, holds_same hhand hhandles]
  exact h

/-- A handle is taken out of its entry and closed. -/
theorem owned_destroy (h : s.objects.Owned s.holds)
    (hobject : (s.contexts i).handles[id]? = some object)
    (hobjects : s'.objects = s.objects.destroy object) (hhand : handOf s'.main = handOf s.main)
    (hcontexts : s'.contexts = Function.update s.contexts i context)
    (hhandles : context.handles = (s.contexts i).handles.erase id) : s'.objects.Owned s'.holds := by
  have hentry : s.holds (.entry i id) = some (object, ()) := by simp [holds, hobject]
  rw [hobjects, holds_entry none hhand hcontexts fun id' => by rw [hhandles, getElem?_erase_eq]]
  exact h.destroy hentry

/-- The handle that the main thread holds goes into an entry that holds none. -/
theorem owned_install {objects : Lib.Ledger Unit} {held : Slot → Option (ℕ × Unit)}
    (h : objects.Owned held) (hheld : held = Function.update s.holds (.entry i id) none)
    (hobjects : s'.objects = objects) (hhand : handOf s.main = some object)
    (hhand' : handOf s'.main = none)
    (hcontexts : s'.contexts = Function.update s.contexts i context)
    (hhandles : context.handles = (s.contexts i).handles.insert id object) :
    s'.objects.Owned s'.holds := by
  have hentry : ({ s' with main := s.main } : Shared).holds =
      Function.update s.holds (.entry i id) (some (object, ())) :=
    holds_entry (some object) rfl hcontexts fun id' => by rw [hhandles, getElem?_insert_eq]
  have hrest : s'.holds = Function.update ({ s' with main := s.main } : Shared).holds .hand
      ((handOf s'.main).map (·, ())) := holds_hand fun _ => rfl
  have hmine : held .hand = some (object, ()) := by simp [hheld, holds, hhand]
  have htransfer := h.transfer (m := .entry i id) (n := .hand) (by simp [hheld]) (by simp)
  rw [hmine, hheld, Function.update_idem] at htransfer
  rw [hobjects, hrest, hentry, hhand']
  exact htransfer

/-- The main thread opens a handle, puts it into the map in place of another, and closes the one it
takes out. -/
theorem MainMove.owned (hmove : MainMove dir n s event s') (h : s.objects.Owned s.holds) :
    s'.objects.Owned s'.holds := by
  cases hmove with
  | opens hmain htag hfactory =>
    rw [holds_hand (s := s) (by intro _; rfl)]
    exact h.create (by simp [holds, hmain, handOf]) ()
  | @installs e module tag object i event s' hmain hclose =>
    have hhand : handOf s.main = some object := by simp [hmain, handOf]
    obtain ⟨hold, rfl, rfl⟩ | ⟨x, hold, rfl, rfl⟩ := close_cases hclose
    · have hnone : s.holds (.entry i module.id) = none := by simp [holds, hold]
      exact owned_install h (Function.update_eq_self_iff.mpr hnone.symm).symm rfl hhand rfl rfl rfl
    · have hentry : s.holds (.entry i module.id) = some (x, ()) := by simp [holds, hold]
      exact owned_install (h.destroy hentry) rfl rfl hhand rfl rfl rfl
  | @removes e module i event s' hmain hclose =>
    obtain ⟨hold, rfl, rfl⟩ | ⟨x, hold, rfl, rfl⟩ := close_cases hclose
    · have herase : (s.contexts i).handles.erase module.id = (s.contexts i).handles := by
        apply Std.ExtTreeMap.ext_getElem?
        intro id'
        rw [getElem?_erase_eq]
        split
        next hid => rw [hid, hold]
        next => rfl
      exact owned_same h rfl (by simp [hmain, handOf]) (handles_update rfl herase)
    · exact owned_destroy h hold rfl (by simp [hmain, handOf]) rfl rfl
  | clears hmain hobject => exact owned_destroy h hobject rfl rfl rfl rfl
  | alarms hmain =>
    exact owned_same h rfl (by simp [hmain, handOf]) (handles_update rfl (openFailed_handles ..))
  | tags hmain | untags hmain =>
    exact owned_same h rfl (by simp [hmain, handOf]) (handles_update rfl rfl)
  | untagsAll hmain => exact owned_same h rfl (by simp [hmain, handOf]) (handles_update rfl rfl)
  | _ => exact owned_same h rfl (by simp_all [handOf]) fun _ => rfl

/-- A parser thread moves no handle. -/
theorem UseMove.handles_eq (hmove : UseMove s p event s') (i : ℕ) :
    (s'.contexts i).handles = (s.contexts i).handles := by
  cases hmove with
  | reports hpc => exact handles_update (s := s) rfl (reportTag_handles ..) i
  | accounts hpc => exact handles_update (s := s) rfl (account_handles ..) i
  | _ => rfl

/-- A parser thread leaves the main thread where it is. -/
theorem UseMove.main_eq (hmove : UseMove s p event s') : s'.main = s.main := by
  cases hmove <;> rfl

/-- A parser thread leaves the others where they are. -/
theorem UseMove.parsers_ne {q : ℕ} (hmove : UseMove s p event s') (hq : q ≠ p) :
    s'.parsers q = s.parsers q := by
  cases hmove <;> simp [setParser, setContext, setLock, hq]

/-- A parser thread opens and closes no handle. -/
theorem UseMove.owned (hmove : UseMove s p event s') (h : s.objects.Owned s.holds) :
    s'.objects.Owned s'.holds := by
  have hobjects : s'.objects = s.objects := by cases hmove <;> rfl
  exact owned_same h hobjects (by rw [hmove.main_eq]) hmove.handles_eq

end Ownership

section Protocol

/-- The main thread changes the handles of the context whose lock it has. -/
theorem MainMove.handles_eq (hmove : MainMove dir n s event s') (hlock : lockOf s.main ≠ some i) :
    (s'.contexts i).handles = (s.contexts i).handles := by
  have hother : ∀ {j : ℕ} {context : ParserContext ℕ}, lockOf s.main = some j →
      (Function.update s.contexts j context i).handles = (s.contexts i).handles := by
    intro j context hj
    have hij : i ≠ j := by
      rintro rfl
      exact hlock hj
    rw [Function.update_of_ne hij]
  cases hmove with
  | installs hmain hclose | removes hmain hclose =>
    rw [close_eq hclose]
    exact hother (by rw [hmain]; rfl)
  | clears hmain | alarms hmain | tags hmain | untags hmain | untagsAll hmain =>
    exact hother (by rw [hmain]; rfl)
  | _ => rfl

/-- The main thread leaves the parser threads where they are. -/
theorem MainMove.parsers_eq (hmove : MainMove dir n s event s') : s'.parsers = s.parsers := by
  cases hmove with
  | installs hmain hclose | removes hmain hclose =>
    rw [close_eq hclose]
    rfl
  | _ => rfl

/-- The handle that a step closes. -/
def closes : HandleEvent → Option ℕ
  | .closed object => some object
  | _ => none

/-- The parser thread and the handle of a call of `Parse`. -/
def uses : HandleEvent → Option (ℕ × ℕ)
  | .parsed p object => some (p, object)
  | _ => none

/-- What holds while the threads run: the locks are right, every handle has one holder, and a parser
that has found a handle still has it in its map. -/
structure Safe (s₀ : Shared) (labels : List HandleEvent) (s : Shared) : Prop where
  guards : Guards s.locks s.Inside
  owned : s.objects.Owned s.holds
  found {p object : ℕ} {record : Metadata} : s.parsers p = .found record object →
    (s.contexts p).handles[record.protocolType]? = some object
  destroyed : s.objects.destroyed = (labels.filterMap closes).reverse ++ s₀.objects.destroyed
  opened {object : ℕ} : object ∈ s.objects.alive →
    object ∈ s₀.objects.alive ∨ .opened object ∈ labels

/-- A parser that has found a handle keeps it. -/
theorem Move.found (hmove : Move dir n s event s') (hguards : Guards s.locks s.Inside)
    (h : ∀ {p object record}, s.parsers p = .found record object →
      (s.contexts p).handles[record.protocolType]? = some object) {record : Metadata}
    (hfound : s'.parsers p = .found record object) :
    (s'.contexts p).handles[record.protocolType]? = some object := by
  cases hmove with
  | fault => exact h hfound
  | main hmove =>
    rw [hmove.parsers_eq] at hfound
    have hlock : lockOf s.main ≠ some p := by
      intro hlock
      -- both would be under the lock of the context
      have hparser : s.Inside (.parser p) p := ⟨rfl, by simp [hfound, Outside]⟩
      exact Owner.noConfusion (hguards.unique (show s.Inside .main p from hlock) hparser)
    rw [hmove.handles_eq hlock]
    exact h hfound
  | @parser event s' q hlt hmove =>
    rw [hmove.handles_eq]
    by_cases hp : p = q
    · subst hp
      cases hmove <;> simp_all [setParser, Outside]
    · exact h (hmove.parsers_ne hp ▸ hfound)

/-- What a step does to the heap of the handles. -/
inductive ObjectChange (event : HandleEvent) (objects : Lib.Ledger Unit) :
    Lib.Ledger Unit → Prop
  | same (hcloses : closes event = none) : ObjectChange event objects objects
  | created (hevent : event = .opened objects.next) :
      ObjectChange event objects (objects.create ())
  | destroyed {object : ℕ} (hevent : event = .closed object) :
      ObjectChange event objects (objects.destroy object)

/-- A step opens a handle, closes one or leaves them. -/
theorem Move.objectChange (hmove : Move dir n s event s') :
    ObjectChange event s.objects s'.objects := by
  cases hmove with
  | fault => exact .same rfl
  | main hmove =>
    cases hmove with
    | opens hmain htag hfactory => exact .created rfl
    | installs hmain hclose | removes hmain hclose =>
      obtain ⟨-, rfl, rfl⟩ | ⟨x, -, rfl, rfl⟩ := close_cases hclose
      · exact .same rfl
      · exact .destroyed rfl
    | clears hmain hobject => exact .destroyed rfl
    | _ => exact .same rfl
  | parser hlt hmove => cases hmove <;> exact .same rfl

/-- Every step keeps the handles safe. -/
theorem Move.safe {s₀ : Shared} (hmove : Move dir n s event s') (h : Safe s₀ labels s) :
    Safe s₀ (labels ++ [event]) s' := by
  have hguards : Guards s'.locks s'.Inside := by
    cases hmove with
    | fault => exact guards_same h.guards rfl rfl fun _ => Iff.rfl
    | main hmove | parser hlt hmove => exact hmove.guards h.guards
  have howned : s'.objects.Owned s'.holds := by
    cases hmove with
    | fault => exact owned_same h.owned rfl rfl fun _ => rfl
    | main hmove | parser hlt hmove => exact hmove.owned h.owned
  have hmore : ∀ {object}, object ∈ s.objects.alive →
      object ∈ s₀.objects.alive ∨ .opened object ∈ labels ++ [event] := by
    intro object halive
    exact (h.opened halive).imp_right (List.mem_append_left [event])
  refine ⟨hguards, howned, fun hfound => hmove.found h.guards h.found hfound, ?_, ?_⟩
  · have hchange := hmove.objectChange
    generalize s'.objects = objects at hchange
    cases hchange with
    | same hcloses => simp [h.destroyed, hcloses]
    | created hevent => simp [Lib.Ledger.create, h.destroyed, hevent, closes]
    | destroyed hevent => simp [Lib.Ledger.destroy, h.destroyed, hevent, closes]
  · have hchange := hmove.objectChange
    generalize s'.objects = objects at hchange
    cases hchange with
    | same hcloses => exact fun {object} halive => hmore halive
    | created hevent =>
      intro object halive
      rw [Lib.Ledger.alive_create] at halive
      obtain rfl | halive := halive
      · exact .inr (by simp [hevent])
      · exact hmore halive
    | destroyed hevent =>
      intro object halive
      rw [Lib.Ledger.alive_destroy] at halive
      exact hmore halive.1

/-- The threads are at the start of their loops, no lock is taken, and every handle has one holder.
-/
structure Ready (s : Shared) : Prop where
  main : s.main = .idle
  parsers (p : ℕ) : s.parsers p = .loop
  locks (i : ℕ) : s.locks i = none
  owned : s.objects.Owned s.holds

/-- The start is safe. -/
theorem Ready.safe (h : Ready s) : Safe s [] s where
  guards i owner := by cases owner <;> simp [Inside, h.main, h.parsers, h.locks, lockOf, Outside]
  owned := h.owned
  found hfound := by simp [h.parsers] at hfound
  destroyed := by simp
  opened halive := .inl halive

/-- In every reachable state the handles are safe. -/
theorem safe_of_run {s₀ : Shared} (hready : Ready s₀) (hrun : Run (Step dir n) s₀ labels s) :
    Safe s₀ labels s :=
  hrun.invariant hready.safe fun _ _ _ _ h hstep => hstep.move.2.safe h

/-- The objects that were destroyed were destroyed once. -/
theorem nodup_destroyed (h : s.objects.Owned s.holds) : s.objects.destroyed.Nodup := by
  rw [List.nodup_iff_count_eq_one]
  intro object hmem
  have hdead : object ∉ s.objects.alive := fun halive => h.alive_notMem halive hmem
  exact h.once (h.lt_of_destroyed hmem) hdead

/-- The handle that a parser thread uses is alive. -/
theorem Safe.alive_of_parsed {s₀ : Shared} (h : Safe s₀ labels s)
    (hmove : Move dir n s (.parsed p object) s') : object ∈ s.objects.alive := by
  cases hmove with
  | main hmove =>
    cases hmove with
    | installs hmain hclose | removes hmain hclose =>
      obtain ⟨-, hevent, -⟩ | ⟨x, -, hevent, -⟩ := close_cases hclose <;> cases hevent
  | parser hlt hmove =>
    cases hmove with
    | @parses record object res hpc =>
      have hentry : s.holds (.entry p record.protocolType) = some (object, ()) := by
        simp [holds, h.found hpc]
      exact h.owned.mem_alive hentry

/-- However the threads interleave, `Parse` is called on a handle that was opened before and not
closed yet, no handle is closed twice, and while the main thread is not at work every handle that
was opened and not closed is in one entry of one map. -/
theorem handles_safe {s₀ : Shared} (hready : Ready s₀) (hrun : Run (Step dir n) s₀ labels s) :
    (∀ before p object, before ++ [.parsed p object] <+: labels →
      (object ∈ s₀.objects.alive ∨ .opened object ∈ before) ∧ .closed object ∉ before) ∧
    (labels.filterMap closes).Nodup ∧
    (s.main = .idle → ∀ object ∈ s.objects.alive, ∃! entry : ℕ × UInt64,
      (s.contexts entry.1).handles[entry.2]? = some object) := by
  have hsafe := safe_of_run hready hrun
  refine ⟨?_, ?_, ?_⟩
  · rintro before p object ⟨after, rfl⟩
    obtain ⟨s', hfirst, -⟩ := hrun.split
    obtain ⟨s', hbefore, hstep⟩ := hfirst.last
    have hsafe' := safe_of_run hready hbefore
    have halive : object ∈ s'.objects.alive := hsafe'.alive_of_parsed hstep.move.2
    refine ⟨hsafe'.opened halive, fun hclosed => ?_⟩
    have hmem : object ∈ s'.objects.destroyed := by
      rw [hsafe'.destroyed]
      refine List.mem_append_left _ (List.mem_reverse.mpr ?_)
      exact List.mem_filterMap.mpr ⟨_, hclosed, rfl⟩
    exact hsafe'.owned.alive_notMem halive hmem
  · have hnodup := nodup_destroyed hsafe.owned
    rw [hsafe.destroyed] at hnodup
    exact List.nodup_reverse.mp hnodup.of_append_left
  · intro hmain object halive
    obtain ⟨slot, hslot⟩ := hsafe.owned.exact.complete halive
    cases slot with
    | hand => simp [Lib.Ledger.objects, holds, hmain, handOf] at hslot
    | entry i id =>
      have hentries : ∀ j id', (s.contexts j).handles[id']? = some object →
          Lib.Ledger.objects s.holds (.entry j id') = some object := by
        intro j id' hentry
        simp [Lib.Ledger.objects, holds, hentry]
      refine ⟨(i, id), by simpa [Lib.Ledger.objects, holds] using hslot, fun entry hentry => ?_⟩
      have heq := hsafe.owned.exact.unique (hentries entry.1 entry.2 hentry) hslot
      exact Prod.ext (Slot.entry.inj heq).1 (Slot.entry.inj heq).2

/-- Idle threads and contexts without a module. -/
def noModules : Shared where
  main := .idle
  parsers _ := .loop
  contexts i := .new i 4
  locks _ := none
  objects := .empty
  config := {}
  written := {}
  fault := false

/-- Idle threads are ready. -/
theorem noModules_ready : Ready noModules where
  main := rfl
  parsers _ := rfl
  locks _ := rfl
  owned := by
    have hholds : noModules.holds = fun _ => none := by
      funext slot
      cases slot <;> simp [holds, noModules, handOf, ParserContext.new]
    rw [hholds]
    exact Lib.Ledger.owned_empty

/-- The main thread goes on; a module opens and the parser of protocol 6 is the next that `clear`
destroys. -/
def updateOn (event : Option IncomingEvent) : Action :=
  .main { event := event, load := .loaded moduleTypeParser (2 ^ 16) 0 (), id := 6 }

/-- The first parser thread goes on; a record of protocol 6 is in its channel. -/
def useOn : Action := .parser 0 ⟨none, some ⟨0, 6, 1, 1, 1⟩, 0⟩

/-- An event that asks for a parser of protocol 6, or for none at all. -/
def askFor (subtype : EventSubtype) : Option IncomingEvent :=
  some ⟨.parser, subtype,
    [(oakProtocolType, ascii "6"), (oakFileName, ascii "http.so"), (oakTaskId, ascii "1")]⟩

/-- A module is added and used. -/
def usesModule : List Action :=
  updateOn (askFor .add) :: List.replicate 7 (updateOn none) ++ List.replicate 5 useOn

/-- A handle is opened, used and closed. -/
theorem handles_safe_clear :
    ∃ labels s, Run (Step [] 1) noModules labels s ∧
      (labels.filterMap closes = [0] ∧ ∃ before, before ++ [.parsed 0 0] <+: labels) ∧
      (∀ before p object, before ++ [.parsed p object] <+: labels →
        (object ∈ noModules.objects.alive ∨ .opened object ∈ before) ∧ .closed object ∉ before) ∧
      (labels.filterMap closes).Nodup := by
  have hexec : (exec (next [] 1) noModules (usesModule ++ List.replicate 2 useOn ++
      updateOn (askFor .clear) :: List.replicate 3 (updateOn none))).map (fun result =>
        (result.1.filterMap closes, result.1.filterMap uses)) = some ([0], [(0, 0)]) := by
    decide +kernel
  obtain ⟨labels, s, hrun, hresult⟩ := exists_run_of_exec hexec
  obtain ⟨hcloses, huses⟩ := Prod.mk.inj hresult
  have hmem : HandleEvent.parsed 0 0 ∈ labels := by
    have huse : (0, 0) ∈ labels.filterMap uses := by simp [huses]
    obtain ⟨e, he, huse⟩ := List.mem_filterMap.mp huse
    cases e <;> simp_all [uses]
  obtain ⟨before, after, hsplit⟩ := List.append_of_mem hmem
  have hsafe := handles_safe noModules_ready hrun
  exact ⟨labels, s, hrun, ⟨hcloses, before, after, by simp [hsplit]⟩, hsafe.1, hsafe.2.1⟩

end Protocol

section Race

/-- The statements of the main thread that read or write the tables of a context. -/
def mainTouches : UpdatePc → ℕ → Bool
  | .inside _ _ i, j | .opened _ _ _ _ i, j | .tagged _ _ _ _ i, j | .erased _ _ i, j => i == j
  | _, _ => false

/-- The statements of a parser thread that read or write the tables of its context. -/
def useTouches : UsePc → Bool
  | .reporting (_ :: _) | .polling | .inside _ | .found _ _ | .parsed _ _ => true
  | _ => false

/-- While the main thread is at the tables of a context, the parser thread of that context is at
them only where it does not ask for the lock: in `ReportMetrics` and at `handles.empty()`. -/
theorem tables_race {s₀ : Shared} (hready : Ready s₀) (hrun : Run (Step dir n) s₀ labels s) {p : ℕ}
    (hmain : mainTouches s.main p) (huse : useTouches (s.parsers p)) :
    (∃ id ids, s.parsers p = .reporting (id :: ids)) ∨ s.parsers p = .polling := by
  have hlock : s.Inside .main p := by
    cases hpc : s.main <;> simp_all [mainTouches, Inside, lockOf]
  have houtside : Outside (s.parsers p) := by
    by_contra hinside
    have hparser : s.Inside (.parser p) p := ⟨rfl, hinside⟩
    exact Owner.noConfusion ((safe_of_run hready hrun).guards.unique hlock hparser)
  cases hpc : s.parsers p with
  | reporting ids =>
    cases ids with
    | nil => simp [hpc, useTouches] at huse
    | cons id ids => exact .inl ⟨id, ids, rfl⟩
  | polling => exact .inr rfl
  | loop | popped => simp [hpc, useTouches] at huse
  | _ => simp [hpc, Outside] at houtside

/-- The parser thread reports a tag of a module while the main thread is about to replace it. -/
theorem tables_race_report :
    ∃ labels s, Run (Step [] 1) noModules labels s ∧ mainTouches s.main 0 ∧
      useTouches (s.parsers 0) ∧
      ((∃ id ids, s.parsers 0 = .reporting (id :: ids)) ∨ s.parsers 0 = .polling) := by
  have hexec : (exec (next [] 1) noModules (usesModule ++ List.replicate 2 useOn ++
      [.parser 0 ⟨some [6], none, 0⟩, updateOn (askFor .update), updateOn none])).map (fun result =>
        (mainTouches result.2.main 0, useTouches (result.2.parsers 0))) = some (true, true) := by
    decide +kernel
  obtain ⟨labels, s, hrun, hresult⟩ := exists_run_of_exec hexec
  obtain ⟨hmain, huse⟩ := Prod.mk.inj hresult
  exact ⟨labels, s, hrun, hmain, huse, tables_race noModules_ready hrun hmain huse⟩

end Race

section Progress

/-- Who moves. -/
def actor : Action → Owner
  | .main _ => .main
  | .parser p _ => .parser p

/-- How many steps a thread has to go until it gives back its lock. -/
def rank (s : Shared) : Owner → ℕ
  | .main =>
    match s.main with
    | .inside _ .clear i => (s.contexts i).handles.size + 2
    | .inside _ _ _ => 3
    | .opened _ _ _ _ _ => 2
    | .alarming _ _ _ _ | .tagged _ _ _ _ _ | .erased _ _ _ => 1
    | _ => 0
  | .parser p =>
    match s.parsers p with
    | .inside _ => 3
    | .found _ _ => 2
    | .parsed _ _ => 1
    | _ => 0

/-- A step of the thread that has the lock gives it back or comes closer to it, or waits for the
parser thread. -/
theorem MainMove.rank_lt (hmove : MainMove dir n s event s') (hlock : lockOf s.main = some i) :
    (s'.locks i = none ∨ lockOf s'.main = some i ∧ s'.rank .main < s.rank .main) ∨
      s' = s ∧ inReport (s.parsers i) = true := by
  cases hmove with
  | waits hmain hreports =>
    rw [hmain] at hlock
    cases hlock
    exact .inr ⟨rfl, hreports⟩
  | @clears e j object id hmain hobject =>
    refine .inl (.inr ⟨by simpa [setContext] using hlock, ?_⟩)
    have hmem : id ∈ (s.contexts j).handles := by
      rw [Std.ExtTreeMap.mem_iff_isSome_getElem?, hobject]
      rfl
    have hsize : 0 < (s.contexts j).handles.size := by
      rw [Nat.pos_iff_ne_zero, Ne, ← Std.ExtTreeMap.eq_empty_iff_size_eq_zero]
      exact fun hempty => Std.ExtTreeMap.eq_empty_iff_forall_not_mem.mp hempty id hmem
    simp only [rank, setContext, hmain, Std.ExtTreeMap.size_erase, hmem, Function.update_self,
      Std.ExtTreeMap.contains_iff_mem, if_true]
    omega
  | installs hmain hclose | removes hmain hclose =>
    refine .inl (.inr ?_)
    rw [close_eq hclose]
    simp_all [lockOf, rank]
  | unlocks hmain | givesUp hmain =>
    refine .inl (.inl ?_)
    simp_all [lockOf, setLock]
  | _ => simp_all [lockOf, rank]

/-- A step of the thread that has the lock gives it back or comes closer to it. -/
theorem UseMove.rank_lt (hmove : UseMove s p event s') (hinside : ¬ Outside (s.parsers p)) :
    s'.locks p = none ∨ ¬ Outside (s'.parsers p) ∧ s'.rank (.parser p) < s.rank (.parser p) := by
  cases hmove with
  | goes hfrom hto => exact absurd hfrom hinside
  | unlocks hpc =>
    left
    simp [setLock, setParser]
  | _ => simp_all [rank, setParser, Outside]

/-- The main thread can go on under a lock. -/
theorem exists_mainNext (dir : Bytes) (n : ℕ) (hlock : lockOf s.main = some i) :
    ∃ choice result, s.mainNext dir n choice = some result := by
  let choice (id : UInt64) : UpdateChoice := { event := none, load := .dlopenFailed, id := id }
  cases hmain : s.main with
  | inside e job j =>
    cases job with
    | clear =>
      by_cases hempty : (s.contexts j).handles = ∅
      · exact ⟨choice 0, _, by simp [mainNext, hmain, underLock, hempty]; rfl⟩
      · rw [Std.ExtTreeMap.eq_empty_iff_forall_not_mem, not_forall] at hempty
        obtain ⟨id, hid⟩ := hempty
        rw [not_not, Std.ExtTreeMap.mem_iff_isSome_getElem?, Option.isSome_iff_exists] at hid
        obtain ⟨object, hobject⟩ := hid
        exact ⟨choice id, _, by simp [mainNext, hmain, underLock, choice, hobject]; rfl⟩
    | _ => exact ⟨choice 0, _, by simp only [mainNext, hmain, underLock]; rfl⟩
  | erased e job j => cases job <;> exact ⟨choice 0, _, by simp only [mainNext, hmain]; rfl⟩
  | leave e job j success =>
    cases success <;> exact ⟨choice 0, _, by simp only [mainNext, hmain]; rfl⟩
  | alarming e module tag j => exact ⟨choice 0, _, by simp [mainNext, hmain, choice]; rfl⟩
  | idle | next | commit => simp [hmain, lockOf] at hlock
  | _ => exact ⟨choice 0, _, by simp only [mainNext, hmain]; rfl⟩

/-- A parser thread can go on under a lock. -/
theorem exists_parserNext (hinside : ¬ Outside (s.parsers p)) :
    ∃ choice result, s.parserNext p choice = some result := by
  let choice : UseChoice := ⟨none, none, 0⟩
  cases hpc : s.parsers p with
  | inside record =>
    cases hobject : (s.contexts p).handles[record.protocolType]? <;>
      exact ⟨choice, _, by simp only [parserNext, hpc, hobject]; rfl⟩
  | found | parsed | leave => exact ⟨choice, _, by simp only [parserNext, hpc]; rfl⟩
  | _ => simp [hpc, Outside] at hinside

/-- A parser thread in `ReportMetrics` can go on and asks for no lock. -/
theorem exists_parserNext_reports (hreports : inReport (s.parsers p) = true) :
    ∃ choice result, s.parserNext p choice = some result := by
  cases hpc : s.parsers p with
  | reporting ids =>
    cases ids with
    | nil => simp [hpc, inReport] at hreports
    | cons id ids => exact ⟨⟨none, none, 0⟩, _, by simp only [parserNext, hpc]; rfl⟩
  | _ => simp [hpc, inReport] at hreports

/-- Whoever has the lock of a context can go on. Every step of its own gives the lock back or brings
it nearer to that, unless the process ends, or the main thread waits with an alarm for the parser
thread of the context, which is in `ReportMetrics` and can go on. The other threads leave both the
lock and the rank. -/
theorem locks_released {s₀ : Shared} (hready : Ready s₀) (hrun : Run (Step dir n) s₀ labels s)
    (hfault : s.fault = false) {owner : Owner} {i : ℕ} (hi : i < n)
    (hlock : s.locks i = some owner) :
    (∃ action result, actor action = owner ∧ s.next dir n action = some result) ∧
    ∀ action event s', s.next dir n action = some (event, s') → s'.fault = true ∨
      actor action = owner ∧
        (s'.locks i = none ∨ s'.locks i = some owner ∧ s'.rank owner < s.rank owner) ∨
      actor action = .main ∧ s' = s ∧ inReport (s.parsers i) = true ∧
        (∃ choice result, s.parserNext i choice = some result) ∨
      actor action ≠ owner ∧ s'.locks i = some owner ∧ s'.rank owner = s.rank owner := by
  have hsafe := safe_of_run hready hrun
  have hinside : s.Inside owner i := (hsafe.guards i owner).mp hlock
  refine ⟨?_, ?_⟩
  · cases owner with
    | main =>
      obtain ⟨choice, result, hnext⟩ := exists_mainNext dir n hinside
      exact ⟨.main choice, result, rfl, by simpa [next, hfault] using hnext⟩
    | parser p =>
      obtain ⟨rfl, houtside⟩ := hinside
      obtain ⟨choice, result, hnext⟩ := exists_parserNext houtside
      exact ⟨.parser i choice, result, rfl, by simpa [next, hfault, hi] using hnext⟩
  · intro action event s' hnext
    have hguards := ((Step.move ⟨action, hnext⟩).2.safe hsafe).guards
    simp only [next, hfault, Bool.false_eq_true, if_false] at hnext
    cases action with
    | main choice =>
      obtain hstopped | hmove := mainNext_cases hnext
      · cases hstopped
        exact .inl rfl
      · right
        cases owner with
        | main =>
          obtain hnearer | ⟨rfl, hreports⟩ := hmove.rank_lt hinside
          · refine .inl ⟨rfl, hnearer.imp_right fun h => ?_⟩
            exact ⟨(hguards i .main).mpr h.1, h.2⟩
          · exact .inr (.inl ⟨rfl, rfl, hreports, exists_parserNext_reports hreports⟩)
        | parser p =>
          refine .inr (.inr ⟨by simp [actor], (hguards i (.parser p)).mpr ?_, ?_⟩)
          · simpa [Inside, hmove.parsers_eq] using hinside
          · simp [rank, hmove.parsers_eq]
    | parser q choice =>
      right
      dsimp only at hnext
      split at hnext
      next hlt =>
        have hmove := parserNext_cases hnext
        cases owner with
        | main =>
          refine .inr (.inr ⟨by simp [actor], (hguards i .main).mpr ?_, ?_⟩)
          · simpa [Inside, hmove.main_eq] using hinside
          · simp [rank, hmove.main_eq, hmove.handles_eq]
        | parser p =>
          obtain ⟨rfl, houtside⟩ := hinside
          by_cases hq : q = i
          · subst hq
            refine .inl ⟨rfl, (hmove.rank_lt houtside).imp_right fun h => ?_⟩
            exact ⟨(hguards q (.parser q)).mpr ⟨rfl, h.1⟩, h.2⟩
          · refine .inr (.inr
              ⟨by simpa [actor] using hq, (hguards i (.parser i)).mpr ⟨rfl, ?_⟩, ?_⟩)
            · rwa [hmove.parsers_ne (Ne.symm hq)]
            · simp [rank, hmove.parsers_ne (Ne.symm hq)]
      next => cases hnext

/-- A parser thread under its lock can go on and gives the lock back. -/
theorem locks_released_inside :
    ∃ labels s, Run (Step [] 1) noModules labels s ∧ s.locks 0 = some (.parser 0) ∧
      ∃ action result, actor action = .parser 0 ∧ s.next [] 1 action = some result := by
  have hexec : (exec (next [] 1) noModules usesModule).map (fun result =>
      (result.2.fault, result.2.locks 0)) = some (false, some (.parser 0)) := by
    decide +kernel
  obtain ⟨labels, s, hrun, hresult⟩ := exists_run_of_exec hexec
  obtain ⟨hfault, hlock⟩ := Prod.mk.inj hresult
  exact ⟨labels, s, hrun, hlock,
    (locks_released noModules_ready hrun hfault Nat.one_pos hlock).1⟩

end Progress

end Shared

end Demos.Oak
