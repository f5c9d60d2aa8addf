import Demos.Oak.Channel.Preservation

/-!
# Pops made while nobody else moves

A `Pop` that runs alone on a channel whose consumer indices agree never spins, whatever
spurious failures its compare-exchange meets, and acts as the plain sequential function
`Channel.popAlone`. Iterating it returns the stored items in ring order and then fails.
-/

namespace Demos.Oak

open Demos.Lib ChannelSystem

variable {Thread α : Type*}

/-- What a `Pop` call does when it runs alone. -/
def Channel.popAlone (ch : Channel α) : Option α × Channel α :=
  if ch.consHead = ch.prodTail then (none, ch)
  else
    let next := nextIndex ch.size ch.consHead
    (some (ch.records ch.consHead), { ch with consHead := next, consTail := next })

/-- The event with which a `Pop` returns. -/
def popReturn : Option α → Event α
  | some ptr => .popped ptr
  | none => .popEmpty

/-- A label of a call that `t` is already making. -/
def Inside (t : Thread) (label : Thread × Event α) : Prop :=
  label.1 = t ∧ label.2 ≠ .pushCall ∧ label.2 ≠ .popCall

/-- How far a `Pop` alone on the channel `ch₀` has come. -/
inductive PopProgress (ch₀ : Channel α) : Channel α → Pc α → Prop
  | load (f : PopFrame) : PopProgress ch₀ ch₀ (.pop .load f)
  | test (f : PopFrame) (hhead : f.consHead = ch₀.consHead) : PopProgress ch₀ ch₀ (.pop .test f)
  | cas (f : PopFrame) (hhead : f.consHead = ch₀.consHead)
      (hnext : f.nextConsHead = nextIndex ch₀.size ch₀.consHead)
      (hitem : ch₀.consHead ≠ ch₀.prodTail) : PopProgress ch₀ ch₀ (.pop .cas f)
  | read (f : PopFrame) (hhead : f.consHead = ch₀.consHead)
      (hnext : f.nextConsHead = nextIndex ch₀.size ch₀.consHead)
      (hitem : ch₀.consHead ≠ ch₀.prodTail) :
      PopProgress ch₀ { ch₀ with consHead := f.nextConsHead } (.pop .read f)
  | wait (f : PopFrame) (hhead : f.consHead = ch₀.consHead)
      (hnext : f.nextConsHead = nextIndex ch₀.size ch₀.consHead)
      (hitem : ch₀.consHead ≠ ch₀.prodTail) :
      PopProgress ch₀ { ch₀ with consHead := f.nextConsHead }
        (.pop (.wait (ch₀.records ch₀.consHead)) f)
  | store (f : PopFrame) (hhead : f.consHead = ch₀.consHead)
      (hnext : f.nextConsHead = nextIndex ch₀.size ch₀.consHead)
      (hitem : ch₀.consHead ≠ ch₀.prodTail) :
      PopProgress ch₀ { ch₀ with consHead := f.nextConsHead }
        (.pop (.store (ch₀.records ch₀.consHead)) f)

namespace PopProgress

variable {ch₀ ch ch' : Channel α} {pc pc' : Pc α} {event : Event α}

/-- A step of the only running `Pop` advances it or returns the sequential result. -/
theorem step (h : PopProgress ch₀ ch pc) (hturn : ch₀.consTail = ch₀.consHead)
    (hlocal : LocalStep ch pc event ch' pc') :
    (PopProgress ch₀ ch' pc' ∧ ∀ r, event ≠ popReturn r) ∨
      ∃ r, event = popReturn r ∧ pc' = .idle ∧ ch₀.popAlone = (r, ch') := by
  cases h with
  | load f =>
    cases hlocal
    exact .inl ⟨.test _ rfl, by rintro (_ | _) <;> simp [popReturn]⟩
  | test f hhead =>
    cases hlocal with
    | popEmpty _ hempty =>
      exact .inr ⟨none, rfl, rfl, by rw [Channel.popAlone, if_pos (hhead ▸ hempty)]⟩
    | popItem _ hitem =>
      exact .inl ⟨.cas _ hhead (by simp [hhead]) (hhead ▸ hitem),
        by rintro (_ | _) <;> simp [popReturn]⟩
  | cas f hhead hnext hitem =>
    cases hlocal with
    | popClaim _ _ => exact .inl ⟨.read f hhead hnext hitem, by rintro (_ | _) <;> simp [popReturn]⟩
    | popRetry _ => exact .inl ⟨.test _ rfl, by rintro (_ | _) <;> simp [popReturn]⟩
  | read f hhead hnext hitem =>
    cases hlocal
    refine .inl ⟨?_, by rintro (_ | _) <;> simp [popReturn]⟩
    simpa [hhead] using PopProgress.wait f hhead hnext hitem
  | wait f hhead hnext hitem =>
    cases hlocal with
    | popSpin _ _ hne => exact absurd (hturn.trans hhead.symm) hne
    | popTurn _ _ _ =>
      exact .inl ⟨.store f hhead hnext hitem, by rintro (_ | _) <;> simp [popReturn]⟩
  | store f hhead hnext hitem =>
    cases hlocal
    refine .inr ⟨some (ch₀.records ch₀.consHead), rfl, rfl, ?_⟩
    rw [Channel.popAlone, if_neg hitem]
    simp [hnext]

end PopProgress

section Solo

variable [DecidableEq Thread] {s s' : ChannelSystem Thread α} {t : Thread} {r : Option α}
  {f : PopFrame}

/-- Thread `t` completes one `Pop` call while nobody else moves. -/
def SoloPop (s : ChannelSystem Thread α) (t : Thread) (r : Option α)
    (s' : ChannelSystem Thread α) : Prop :=
  ∃ es, Run Step s ((t, .popCall) :: (es ++ [(t, popReturn r)])) s' ∧ ∀ label ∈ es, Inside t label

/-- A thread that is not in a call can only make its next label a call. -/
theorem call_of_idle {event : Event α} (hidle : s.pc t = .idle) (hstep : Step s (t, event) s') :
    event = .pushCall ∨ event = .popCall := by
  obtain ⟨pc', hlocal, _⟩ := hstep.cases
  rw [hidle] at hlocal
  generalize s'.chan = ch' at hlocal
  cases hlocal with
  | pushCall _ => exact .inl rfl
  | popCall => exact .inr rfl

/-- The rest of a `Pop` that runs alone. -/
theorem PopProgress.finish {ch₀ : Channel α} (hturn : ch₀.consTail = ch₀.consHead)
    {es : History Thread α} (hinside : ∀ label ∈ es, Inside t label)
    (hrun : Run Step s (es ++ [(t, popReturn r)]) s') (h : PopProgress ch₀ s.chan (s.pc t)) :
    ch₀.popAlone = (r, s'.chan) ∧ s'.pc = Function.update s.pc t .idle := by
  induction es generalizing s with
  | nil =>
    obtain ⟨_, hstep, hnil⟩ := Run.head hrun
    obtain rfl := hnil.nil_eq
    obtain ⟨pc', hlocal, hpcs⟩ := hstep.cases
    rcases h.step hturn hlocal with ⟨_, hno⟩ | ⟨r', hr, rfl, hresult⟩
    · exact absurd rfl (hno r)
    · have hsame : r = r' := by cases r <;> cases r' <;> simp_all [popReturn]
      exact ⟨hsame ▸ hresult, hpcs⟩
  | cons label es ih =>
    obtain ⟨mid, hstep, hrest⟩ := Run.head hrun
    obtain ⟨rfl, _, _⟩ := hinside label List.mem_cons_self
    obtain ⟨pc', hlocal, hpcs⟩ := hstep.cases
    have hinside' : ∀ l ∈ es, Inside label.1 l := fun l hl => hinside l (List.mem_cons_of_mem _ hl)
    rcases h.step hturn hlocal with ⟨hprogress, _⟩ | ⟨r', _, rfl, _⟩
    · have hmid : PopProgress ch₀ mid.chan (mid.pc label.1) := by
        rwa [hpcs, Function.update_self]
      obtain ⟨hresult, hpc⟩ := ih hinside' hrest hmid
      exact ⟨hresult, by rw [hpc, hpcs, Function.update_idem]⟩
    · have hidle : mid.pc label.1 = .idle := by rw [hpcs, Function.update_self]
      exfalso
      cases es with
      | nil =>
        obtain ⟨_, hlast, _⟩ := Run.head hrest
        rcases call_of_idle hidle hlast with hcall | hcall <;> cases r <;> simp [popReturn] at hcall
      | cons next es =>
        obtain ⟨_, hlast, _⟩ := Run.head hrest
        obtain ⟨hthread, hpush, hpop⟩ := hinside' next List.mem_cons_self
        rw [← hthread] at hidle
        rcases call_of_idle hidle hlast with hcall | hcall
        · exact hpush hcall
        · exact hpop hcall

/-- A lonely `Pop` call is the sequential function. -/
theorem SoloPop.result (h : SoloPop s t r s') (hturn : s.chan.consTail = s.chan.consHead) :
    s.chan.popAlone = (r, s'.chan) ∧ s.pc t = .idle ∧ s'.pc = s.pc := by
  obtain ⟨es, hrun, hinside⟩ := h
  obtain ⟨mid, hcall, hrest⟩ := Run.head hrun
  obtain ⟨pc', hlocal, hpcs⟩ := hcall.cases
  generalize hpc : s.pc t = pc at hlocal
  generalize hch : mid.chan = ch' at hlocal
  cases hlocal with
  | popCall =>
    have hmid : PopProgress s.chan mid.chan (mid.pc t) := by
      rw [hch, hpcs, Function.update_self]
      exact .load _
    obtain ⟨hresult, hend⟩ := hmid.finish hturn hinside hrest
    refine ⟨hresult, rfl, ?_⟩
    rw [hend, hpcs, Function.update_idem, ← hpc, Function.update_eq_self]

/-- A call of `t` can be completed from here without anybody else moving. -/
def CanReturn (s : ChannelSystem Thread α) (t : Thread) : Prop :=
  ∃ es r s', Run Step s (es ++ [(t, popReturn r)]) s' ∧ ∀ label ∈ es, Inside t label

/-- A `Pop` access inside the call keeps the call completable. -/
theorem CanReturn.cons {mid : ChannelSystem Thread α} {event : Event α}
    (hstep : Step s (t, event) mid) (hpush : event ≠ .pushCall) (hpop : event ≠ .popCall)
    (h : CanReturn mid t) : CanReturn s t := by
  obtain ⟨es, r, s', hrun, hinside⟩ := h
  refine ⟨(t, event) :: es, r, s', (Run.single hstep).append hrun, ?_⟩
  intro label hlabel
  rcases List.mem_cons.mp hlabel with rfl | hlabel
  · exact ⟨rfl, hpush, hpop⟩
  · exact hinside label hlabel

/-- A running `Pop` makes its next access, without a spurious failure. -/
theorem step_of_pop {point : PopPoint α} {out : Event α × Channel α × Pc α}
    (hpc : s.pc t = .pop point f) (hout : s.chan.popStep false f point = out) :
    Step s (t, out.1) ⟨out.2.1, Function.update s.pc t out.2.2⟩ :=
  ⟨.run t false, by simp only [next, hpc, hout, move]⟩

theorem canReturn_store {ptr : α} (hpc : s.pc t = .pop (.store ptr) f) : CanReturn s t :=
  ⟨[], some ptr, _, Run.single (step_of_pop hpc rfl), by simp⟩

/-- A release wait whose turn has come ends at its first test. -/
theorem canReturn_wait {ptr : α} (hpc : s.pc t = .pop (.wait ptr) f)
    (hturn : s.chan.consTail = f.consHead) : CanReturn s t := by
  have hout : s.chan.popStep false f (.wait ptr) = (.quiet, s.chan, .pop (.store ptr) f) := by
    rw [Channel.popStep, if_pos hturn]
  exact CanReturn.cons (step_of_pop hpc hout) (by simp) (by simp)
    (canReturn_store (Function.update_self ..))

/-- The record read leads to the release wait. -/
theorem canReturn_read (hpc : s.pc t = .pop .read f) (hturn : s.chan.consTail = f.consHead) :
    CanReturn s t :=
  CanReturn.cons (step_of_pop hpc rfl) (by simp [Channel.popStep]) (by simp [Channel.popStep])
    (canReturn_wait (Function.update_self ..) hturn)

/-- The compare-exchange of an undisturbed `Pop` succeeds. -/
theorem canReturn_cas (hpc : s.pc t = .pop .cas f) (hhead : s.chan.consHead = f.consHead)
    (hturn : s.chan.consTail = f.consHead) : CanReturn s t := by
  have hout : s.chan.popStep false f .cas =
      (.claim f.consHead, { s.chan with consHead := f.nextConsHead }, .pop .read f) := by
    rw [Channel.popStep, if_pos ⟨hhead, rfl⟩]
  exact CanReturn.cons (step_of_pop hpc hout) (by simp) (by simp)
    (canReturn_read (Function.update_self ..) hturn)

/-- The empty test returns at once or leads to the compare-exchange. -/
theorem canReturn_test (hpc : s.pc t = .pop .test f) (hhead : s.chan.consHead = f.consHead)
    (hturn : s.chan.consTail = f.consHead) : CanReturn s t := by
  by_cases hempty : f.consHead = s.chan.prodTail
  · have hout : s.chan.popStep false f .test = (.popEmpty, s.chan, .idle) := by
      rw [Channel.popStep, if_pos hempty]
    exact ⟨[], none, _, Run.single (step_of_pop hpc hout), by simp⟩
  · have hout : s.chan.popStep false f .test =
        (.quiet, s.chan,
          .pop .cas { f with nextConsHead := nextIndex s.chan.size f.consHead }) := by
      rw [Channel.popStep, if_neg hempty]
    exact CanReturn.cons (step_of_pop hpc hout) (by simp) (by simp)
      (canReturn_cas (Function.update_self ..) hhead hturn)

/-- An idle thread can complete a `Pop` alone. -/
theorem exists_soloPop (hidle : s.pc t = .idle) (hturn : s.chan.consTail = s.chan.consHead) :
    ∃ r s', SoloPop s t r s' := by
  let called : ChannelSystem Thread α := ⟨s.chan, Function.update s.pc t (.pop .load ⟨0, 0⟩)⟩
  have hcall : Step s (t, .popCall) called := ⟨.pop t, by simp only [next, hidle, move, called]⟩
  have hload : called.pc t = .pop .load ⟨0, 0⟩ := Function.update_self ..
  have hreturn : CanReturn called t :=
    CanReturn.cons (step_of_pop hload rfl) (by simp [Channel.popStep]) (by simp [Channel.popStep])
      (canReturn_test (Function.update_self ..) rfl hturn)
  obtain ⟨es, r, s', hrun, hinside⟩ := hreturn
  exact ⟨r, s', es, (Run.single hcall).append hrun, hinside⟩

/-- Further `Pop` calls made one after the other, with their results. -/
inductive PopSequence : ChannelSystem Thread α → List (Option α) → ChannelSystem Thread α → Prop
  | nil (s : ChannelSystem Thread α) : PopSequence s [] s
  | cons {s mid s' : ChannelSystem Thread α} {t : Thread} {r : Option α} {rs : List (Option α)} :
      SoloPop s t r mid → PopSequence mid rs s' → PopSequence s (r :: rs) s'

/-- Further `Pop` calls return exactly `items` and then fail: whatever sequence of calls is
made, the call number `i` returns `items[i]?`, and any number of calls can be made. -/
structure Drains (s : ChannelSystem Thread α) (items : List α) : Prop where
  results : ∀ rs s', PopSequence s rs s' → rs = (List.range rs.length).map (items[·]?)
  total : ∀ (_ : Thread) (m : ℕ), ∃ rs s', rs.length = m ∧ PopSequence s rs s'

end Solo

/-- A channel at rest that stores `items`, oldest first. -/
structure Channel.Holds (n : ℕ) (ch : Channel α) (items : List α) : Prop where
  size : ch.size = n
  room : items.length < n
  base : ∃ c, ch.consHead = c % n ∧ ch.consTail = c % n ∧ ch.prodTail = (c + items.length) % n ∧
    ∀ i, i < items.length → items[i]? = some (ch.records ((c + i) % n))

namespace Channel.Holds

variable {n : ℕ} {ch : Channel α}

/-- The consumer indices of a channel at rest agree. -/
theorem turn {items : List α} (h : Holds n ch items) : ch.consTail = ch.consHead := by
  obtain ⟨c, hhead, htail, _⟩ := h.base
  rw [hhead, htail]

theorem popAlone_nil (h : Holds n ch []) : ch.popAlone = (none, ch) := by
  obtain ⟨c, hhead, _, htail, _⟩ := h.base
  rw [Channel.popAlone, if_pos]
  simpa [hhead] using htail.symm

/-- The oldest item is popped first and the others stay. -/
theorem popAlone_cons {item : α} {items : List α} (hn : n < 2 ^ 32)
    (h : Holds n ch (item :: items)) :
    ∃ ch', ch.popAlone = (some item, ch') ∧ Holds n ch' items := by
  obtain ⟨c, hhead, htail, hprod, hstored⟩ := h.base
  have hroom := h.room
  simp only [List.length_cons] at hroom hprod hstored
  have hitem : item = ch.records (c % n) := by simpa using hstored 0 (by omega)
  have hne : ch.consHead ≠ ch.prodTail := by
    intro heq
    rw [hhead, hprod] at heq
    have hsame := eq_of_mod_eq (n := n) (a := c) le_rfl (by omega) (by omega) (by omega) heq
    omega
  have hnext : nextIndex ch.size ch.consHead = (c + 1) % n := by
    rw [h.size, hhead, nextIndex_mod (by omega) hn]
  have hpopped : ch.popAlone =
      (some item, { ch with consHead := (c + 1) % n, consTail := (c + 1) % n }) := by
    rw [Channel.popAlone, if_neg hne, hnext, hitem, hhead]
  refine ⟨_, hpopped, h.size, by omega, c + 1, rfl, rfl, ?_, ?_⟩
  · rw [hprod]
    congr 1
    omega
  · intro i hi
    have hlater := hstored (i + 1) (by omega)
    rw [List.getElem?_cons_succ] at hlater
    rw [hlater, show c + 1 + i = c + (i + 1) by omega]

end Channel.Holds

section Drain

variable [DecidableEq Thread] {n : ℕ} {s : ChannelSystem Thread α}

/-- A `Pop` alone on a channel at rest takes the first item and leaves the channel at rest. -/
theorem SoloPop.holds {s' : ChannelSystem Thread α} {t : Thread} {r : Option α} {items : List α}
    (hn : n < 2 ^ 32) (hpop : SoloPop s t r s') (h : s.chan.Holds n items) :
    r = items[0]? ∧ s'.chan.Holds n items.tail ∧ s'.pc = s.pc := by
  obtain ⟨hresult, _, hpcs⟩ := hpop.result h.turn
  cases items with
  | nil =>
    rw [h.popAlone_nil, Prod.mk.injEq] at hresult
    exact ⟨hresult.1.symm, by rw [← hresult.2]; exact h, hpcs⟩
  | cons item items =>
    obtain ⟨ch', hpopped, hrest⟩ := h.popAlone_cons hn
    rw [hpopped, Prod.mk.injEq] at hresult
    exact ⟨hresult.1.symm, by rw [← hresult.2]; exact hrest, hpcs⟩

/-- The results of consecutive pops are the items in order. -/
theorem PopSequence.results {s' : ChannelSystem Thread α} {rs : List (Option α)}
    (hn : n < 2 ^ 32) (hseq : PopSequence s rs s') {items : List α} (h : s.chan.Holds n items) :
    rs = (List.range rs.length).map (items[·]?) := by
  induction hseq generalizing items with
  | nil => rfl
  | cons hpop _ ih =>
    obtain ⟨hr, hrest, _⟩ := hpop.holds hn h
    have htail := ih hrest
    rw [List.length_cons, List.range_succ_eq_map, List.map_cons, List.map_map, ← hr]
    congr 1
    rw [htail]
    simp [Function.comp_def]

/-- A channel at rest with no call in progress is drained of exactly its items. -/
theorem Channel.Holds.drains {items : List α} (hn : n < 2 ^ 32) (hquiet : s.Quiescent)
    (h : s.chan.Holds n items) : Drains s items where
  results rs s' hseq := hseq.results hn h
  total := by
    intro t m
    induction m generalizing s items with
    | zero => exact ⟨[], s, rfl, .nil s⟩
    | succ m ih =>
      obtain ⟨r, mid, hpop⟩ := exists_soloPop (hquiet t) h.turn
      obtain ⟨_, hrest, hpcs⟩ := hpop.holds hn h
      have hquiet' : mid.Quiescent := by
        intro u
        rw [hpcs]
        exact hquiet u
      obtain ⟨rs, s', hlength, hseq⟩ := ih hquiet' hrest
      exact ⟨r :: rs, s', by simp [hlength], .cons hpop hseq⟩

end Drain

end Demos.Oak
