import Demos.Lib.Run
import Mathlib.Algebra.Order.Ring.Int
import Mathlib.Data.Fintype.Card
import Mathlib.Data.List.Nodup
import Mathlib.Logic.Function.Iterate

/-!
# Numbers from a shared counter

Each thread draws a number from a counter. It loads the counter and then exchanges the value that
it has seen for the next one. An exchange that finds another value hands that one to the thread,
which tries again or returns it, as the condition of its loop says.

A call returns what the counter was at its last exchange, which counts the exchanges that succeeded
before. The numbers are therefore distinct if and only if no exchange but the last one failed in a
call that returned, and then they are the first ones.
-/

namespace Demos.Lib.CompareExchange

variable {T V : Type*}

/-- Where a thread is in its call. -/
inductive Pc (V : Type*)
  | start
  | trying (seen : V)
  | done (id : V)

/-- The number of a call that has returned. -/
def Pc.result : Pc V → Option V
  | .done id => some id
  | _ => none

/-- The counter, and the call of each thread. -/
structure State (T V : Type*) where
  counter : V
  pc : T → Pc V

/-- The number that a thread has drawn. -/
def State.result (s : State T V) (t : T) : Option V := (s.pc t).result

/-- Which atomic operation is next. -/
inductive Action (T : Type*)
  | load (t : T)
  | exchange (t : T)

/-- What a step did. A call that returned says whether its last exchange succeeded. -/
inductive Label (T V : Type*)
  | loaded (t : T)
  | retried (t : T)
  | returned (t : T) (won : Bool) (id : V)

section Steps

variable [DecidableEq T] [DecidableEq V]

/-- One atomic operation. The loop goes on if `again` holds for the result of the exchange. -/
def next (again : Bool → Bool) (inc : V → V) (s : State T V) :
    Action T → Option (Label T V × State T V)
  | .load t =>
    match s.pc t with
    | .start => some (.loaded t, { s with pc := Function.update s.pc t (.trying s.counter) })
    | _ => none
  | .exchange t =>
    match s.pc t with
    | .trying seen =>
      let won := decide (s.counter = seen)
      let counter := if won then inc seen else s.counter
      -- an exchange that fails stores the value that it has found
      let id := if won then seen else s.counter
      if again won then some (.retried t, ⟨counter, Function.update s.pc t (.trying id)⟩)
      else some (.returned t won id, ⟨counter, Function.update s.pc t (.done id)⟩)
    | _ => none

/-- No thread has begun. -/
def initial (first : V) : State T V := ⟨first, fun _ => .start⟩

variable {again : Bool → Bool} {inc : V → V} {first : V} {s s' : State T V} {label : Label T V}
  {labels more : List (Label T V)} {t : T}

/-- The cases of a step in a loop that ends with a successful exchange. -/
inductive Step (again : Bool → Bool) (inc : V → V) (s : State T V) : Label T V → State T V → Prop
  | load (t : T) : s.pc t = .start →
      Step again inc s (.loaded t) { s with pc := Function.update s.pc t (.trying s.counter) }
  | retry (t : T) (seen : V) : s.pc t = .trying seen → again false = true →
      Step again inc s (.retried t) { s with pc := Function.update s.pc t (.trying s.counter) }
  | finish (t : T) (seen : V) (won : Bool) : s.pc t = .trying seen → again won = false →
      Step again inc s (.returned t won s.counter)
        ⟨if won then inc s.counter else s.counter, Function.update s.pc t (.done s.counter)⟩

/-- A step is one of the cases. -/
theorem Step.of_moves (hagain : again true = false) (h : Moves (next again inc) s label s') :
    Step again inc s label s' := by
  obtain ⟨action, haction⟩ := h
  cases action with
  | load t =>
    simp only [next] at haction
    split at haction
    next hpc =>
      cases haction
      exact .load t hpc
    next => simp at haction
  | exchange t =>
    simp only [next] at haction
    split at haction
    next seen hpc =>
      by_cases hwon : s.counter = seen
      · subst hwon
        simp only [decide_true, hagain, Bool.false_eq_true, if_false, if_true] at haction
        cases haction
        exact .finish t s.counter true hpc hagain
      · simp only [hwon, decide_false, Bool.false_eq_true, if_false] at haction
        split at haction
        next hretry =>
          cases haction
          exact .retry t seen hpc hretry
        next hstop =>
          cases haction
          exact .finish t seen false hpc (by simpa using hstop)
    next => simp at haction

end Steps

section Turns

variable {l : List Bool} {b : Bool} {k : ℕ}

/-- For each attempt the number of successes before. -/
def turns (l : List Bool) : List ℕ := (List.range l.length).map fun j => (l.take j).count true

/-- One more attempt. -/
theorem turns_snoc (l : List Bool) (b : Bool) : turns (l ++ [b]) = turns l ++ [l.count true] := by
  have hbefore : ∀ j ∈ List.range l.length,
      ((l ++ [b]).take j).count true = (l.take j).count true := by
    intro j hj
    rw [List.take_append_of_le_length (List.mem_range.mp hj).le]
  rw [turns, List.length_append, List.length_singleton, List.range_succ, List.map_append,
    List.map_congr_left hbefore, List.map_singleton, List.take_left, turns]

theorem lt_of_mem_turns (h : k ∈ turns l) : k < l.length := by
  obtain ⟨j, hj, rfl⟩ := List.mem_map.mp h
  have hcount : (l.take j).count true ≤ (l.take j).length := List.count_le_length
  have htake : (l.take j).length ≤ j := List.length_take_le j l
  have hlt : j < l.length := List.mem_range.mp hj
  omega

/-- If no attempt but the last fails, the turns are the first numbers. -/
theorem turns_eq_range (h : ∀ b ∈ l.dropLast, b = true) : turns l = List.range l.length := by
  induction l using List.reverseRecOn with
  | nil => rfl
  | append_singleton l b ih =>
    rw [List.dropLast_concat] at h
    have hcount : l.count true = l.length := List.count_eq_length.mpr fun c hc => (h c hc).symm
    rw [turns_snoc, ih fun c hc => h c (List.dropLast_subset l hc), hcount, List.length_append,
      List.length_singleton, List.range_succ]

/-- The turns are distinct if and only if no attempt but the last fails. -/
theorem nodup_turns_iff : (turns l).Nodup ↔ ∀ b ∈ l.dropLast, b = true := by
  constructor
  · induction l using List.reverseRecOn with
    | nil => simp
    | append_singleton l b ih =>
      rw [turns_snoc, List.dropLast_concat]
      intro hnodup c hc
      obtain ⟨hl, -, hdisjoint⟩ := List.nodup_append.mp hnodup
      obtain rfl | ⟨l, d, rfl⟩ := List.eq_nil_or_concat' l
      · simp at hc
      · have hearlier := ih hl
        rw [List.dropLast_concat] at hearlier
        rcases List.mem_append.mp hc with hc | hc
        · exact hearlier c hc
        · -- after a failure the next attempt has the same turn
          rw [List.mem_singleton.mp hc]
          by_contra hfailed
          have hsame : (l ++ [d]).count true = l.count true := by simp [hfailed]
          exact hdisjoint (l.count true) (by simp [turns_snoc]) _ (by simp) hsame.symm
  · intro h
    rw [turns_eq_range h]
    exact List.nodup_range

end Turns

section History

/-- The calls that have returned, with their numbers. -/
def returns (labels : List (Label T V)) : List (T × V) :=
  labels.filterMap fun
    | .returned t _ id => some (t, id)
    | _ => none

/-- For each call that has returned, whether its last exchange succeeded. -/
def outcomes (labels : List (Label T V)) : List Bool :=
  labels.filterMap fun
    | .returned _ won _ => some won
    | _ => none

theorem returns_append (labels more : List (Label T V)) :
    returns (labels ++ more) = returns labels ++ returns more :=
  List.filterMap_append

theorem outcomes_append (labels more : List (Label T V)) :
    outcomes (labels ++ more) = outcomes labels ++ outcomes more :=
  List.filterMap_append

/-- The counter and the numbers follow from the outcomes. -/
structure Records (inc : V → V) (first : V) (labels : List (Label T V)) (s : State T V) :
    Prop where
  counter : s.counter = inc^[(outcomes labels).count true] first
  ids : (returns labels).map Prod.snd = (turns (outcomes labels)).map fun k => inc^[k] first
  result (t : T) (id : V) : s.result t = some id ↔ (t, id) ∈ returns labels
  threads : ((returns labels).map Prod.fst).Nodup

variable [DecidableEq T] {again : Bool → Bool} {inc : V → V} {first : V} {s s' : State T V}
  {label : Label T V} {labels more : List (Label T V)} {t : T} {pc : Pc V}

/-- A thread that returns gets its result, and the other ones keep theirs. -/
theorem result_update (counter : V) (u : T) :
    State.result ⟨counter, Function.update s.pc t pc⟩ u =
      if u = t then pc.result else s.result u := by
  by_cases hu : u = t
  · subst hu
    simp [State.result]
  · simp [State.result, hu]

/-- A thread that has not returned, and does not, leaves the records as they are. -/
theorem Records.keep (h : Records inc first labels s) (hold : s.result t = none)
    (hnew : pc.result = none) (hreturns : returns [label] = [])
    (houtcomes : outcomes [label] = []) :
    Records inc first (labels ++ [label]) { s with pc := Function.update s.pc t pc } := by
  have hreturns' : returns (labels ++ [label]) = returns labels := by
    rw [returns_append, hreturns, List.append_nil]
  have houtcomes' : outcomes (labels ++ [label]) = outcomes labels := by
    rw [outcomes_append, houtcomes, List.append_nil]
  refine ⟨?_, ?_, ?_, ?_⟩
  · rw [houtcomes']
    exact h.counter
  · rw [hreturns', houtcomes']
    exact h.ids
  · intro u id
    rw [hreturns', ← h.result, result_update]
    split
    next hu => rw [hu, hnew, hold]
    next => rfl
  · rw [hreturns']
    exact h.threads

/-- A call that returns has the number of exchanges that succeeded before. -/
theorem Records.finish (h : Records inc first labels s) (hold : s.result t = none) (won : Bool) :
    Records inc first (labels ++ [.returned t won s.counter])
      ⟨if won then inc s.counter else s.counter, Function.update s.pc t (.done s.counter)⟩ := by
  have hreturns : returns (labels ++ [.returned t won s.counter]) =
      returns labels ++ [(t, s.counter)] := returns_append ..
  have houtcomes : outcomes (labels ++ [.returned t won s.counter]) = outcomes labels ++ [won] :=
    outcomes_append ..
  have hfresh : ∀ id, (t, id) ∉ returns labels := by
    intro id hmem
    rw [← h.result, hold] at hmem
    cases hmem
  refine ⟨?_, ?_, ?_, ?_⟩
  · rw [houtcomes, List.count_append, h.counter]
    cases won <;> simp [Function.iterate_succ_apply']
  · rw [hreturns, houtcomes, turns_snoc, List.map_append, List.map_append, h.ids, h.counter]
    rfl
  · intro u id
    rw [hreturns, result_update, List.mem_append, List.mem_singleton, ← h.result, Prod.mk.injEq]
    by_cases hu : u = t
    · simp [hu, hold, Pc.result, eq_comm]
    · simp [hu]
  · rw [hreturns, List.map_append]
    refine List.nodup_append.mpr ⟨h.threads, List.nodup_singleton _, ?_⟩
    rintro u hu v hv rfl
    obtain ⟨⟨w, id⟩, hmem, rfl⟩ := List.mem_map.mp hu
    obtain rfl : w = t := List.mem_singleton.mp hv
    exact hfresh id hmem

/-- What a step preserves. -/
theorem Records.step (h : Records inc first labels s) (hstep : Step again inc s label s') :
    Records inc first (labels ++ [label]) s' := by
  cases hstep with
  | load t hpc | retry t seen hpc =>
    exact h.keep (by simp [State.result, hpc, Pc.result]) rfl rfl rfl
  | finish t seen won hpc _ => exact h.finish (by simp [State.result, hpc, Pc.result]) won

variable [DecidableEq V]

/-- The records hold along every run. -/
theorem Records.of_run (hagain : again true = false)
    (hrun : Run (Moves (next again inc)) (initial first) labels s) :
    Records inc first labels s := by
  have hinit : Records inc first ([] : List (Label T V)) (initial first) :=
    ⟨rfl, rfl, fun t id => by simp [State.result, initial, Pc.result, returns], List.nodup_nil⟩
  exact hrun.invariant hinit fun labels s label s' h hmove => h.step (.of_moves hagain hmove)

/-- If an exchange that fails is tried again, all calls return from one that succeeded. -/
theorem outcomes_of_retry (hagain : again true = false) (hretry : again false = true)
    (hrun : Run (Moves (next again inc)) (initial first) labels s) :
    ∀ won ∈ outcomes labels, won = true := by
  refine hrun.invariant (I := fun labels _ => ∀ won ∈ outcomes labels, won = true)
    (by simp [outcomes]) ?_
  intro labels s label s' h hmove
  rw [outcomes_append]
  intro won hwon
  rcases List.mem_append.mp hwon with hbefore | hlast
  · exact h won hbefore
  · cases Step.of_moves hagain hmove with
    | load | retry => exact absurd hlast List.not_mem_nil
    | finish t _ last _ hstop =>
      obtain rfl : won = last := List.mem_singleton.mp hlast
      by_contra hlost
      rw [Bool.not_eq_true] at hlost
      rw [hlost, hretry] at hstop
      cases hstop

end History

section Distinct

variable {inc : V → V} {first : V} {s : State T V} {labels : List (Label T V)}

/-- No two threads have the same number. -/
def Distinct (s : State T V) : Prop :=
  ∀ t t' id, s.result t = some id → s.result t' = some id → t = t'

/-- The numbers are distinct as a list if and only if they are for the threads. -/
theorem Records.distinct_iff_nodup (h : Records inc first labels s) :
    Distinct s ↔ ((returns labels).map Prod.snd).Nodup := by
  rw [List.nodup_map_iff_inj_on h.threads.of_map]
  constructor
  · rintro hdistinct ⟨t, id⟩ ht ⟨t', id'⟩ ht' hid
    obtain rfl : id = id' := hid
    rw [hdistinct t t' id ((h.result t id).mpr ht) ((h.result t' id).mpr ht')]
  · intro hinj t t' id ht ht'
    have heq := hinj (t, id) ((h.result t id).mp ht) (t', id) ((h.result t' id).mp ht') rfl
    exact congrArg Prod.fst heq

theorem Records.length_outcomes (h : Records inc first labels s) :
    (outcomes labels).length = (returns labels).length := by
  have hlength := congrArg List.length h.ids
  simpa [turns] using hlength.symm

variable [Fintype T]

theorem Records.length_le_card (h : Records inc first labels s) :
    (outcomes labels).length ≤ Fintype.card T := by
  rw [h.length_outcomes, ← List.length_map Prod.fst]
  exact h.threads.length_le_card

/-- When every thread has a number, as many calls have returned as there are threads. -/
theorem Records.length_eq_card (h : Records inc first labels s) (hall : ∀ t, (s.result t).isSome) :
    (outcomes labels).length = Fintype.card T := by
  refine h.length_le_card.antisymm ?_
  rw [h.length_outcomes, ← List.length_map Prod.fst]
  classical
  have huniv : ((returns labels).map Prod.fst).toFinset = Finset.univ := by
    refine Finset.eq_univ_of_forall fun t => ?_
    obtain ⟨id, hid⟩ := Option.isSome_iff_exists.mp (hall t)
    exact List.mem_toFinset.mpr (List.mem_map.mpr ⟨_, (h.result t id).mp hid, rfl⟩)
  rw [← Finset.card_univ, ← huniv]
  exact List.toFinset_card_le _

/-- The numbers are distinct if and only if no exchange failed but in the last call that
returned. -/
theorem Records.distinct_iff (h : Records inc first labels s)
    (hinj : Set.InjOn (fun k => inc^[k] first) (Set.Iio (Fintype.card T))) :
    Distinct s ↔ ∀ won ∈ (outcomes labels).dropLast, won = true := by
  rw [h.distinct_iff_nodup, h.ids, ← nodup_turns_iff]
  refine ⟨List.Nodup.of_map _, fun hnodup => hnodup.map_on ?_⟩
  intro k hk k' hk' heq
  exact hinj ((lt_of_mem_turns hk).trans_le h.length_le_card)
    ((lt_of_mem_turns hk').trans_le h.length_le_card) heq

/-- The numbers that were drawn are the first ones if and only if no exchange failed but in the
last call. -/
theorem Records.first_iff (h : Records inc first labels s)
    (hinj : Set.InjOn (fun k => inc^[k] first) (Set.Iio (Fintype.card T)))
    (hall : ∀ t, (s.result t).isSome) :
    (∀ id, (∃ t, s.result t = some id) ↔ ∃ k < Fintype.card T, inc^[k] first = id) ↔
      ∀ won ∈ (outcomes labels).dropLast, won = true := by
  have hdrawn : ∀ id, (∃ t, s.result t = some id) ↔
      ∃ k ∈ turns (outcomes labels), inc^[k] first = id := by
    intro id
    rw [← List.mem_map, ← h.ids]
    simp [h.result]
  rw [← nodup_turns_iff]
  constructor
  · intro hfirst
    -- the turns include the first numbers, and there are no more of them
    have hsub : List.range (Fintype.card T) ⊆ turns (outcomes labels) := by
      intro k hk
      have hlt : k < Fintype.card T := List.mem_range.mp hk
      obtain ⟨k', hk', heq⟩ := (hdrawn _).mp ((hfirst _).mpr ⟨k, hlt, rfl⟩)
      have hlt' : k' < Fintype.card T := (lt_of_mem_turns hk').trans_le h.length_le_card
      rwa [hinj hlt' hlt heq] at hk'
    have hperm : (List.range (Fintype.card T)).Perm (turns (outcomes labels)) := by
      refine (List.nodup_range.subperm hsub).perm_of_length_le ?_
      simp [turns, h.length_le_card]
    exact hperm.nodup_iff.mp List.nodup_range
  · intro hnodup id
    rw [hdrawn, turns_eq_range (nodup_turns_iff.mp hnodup), h.length_eq_card hall]
    simp

end Distinct

section Int32

variable {s s' : State T Int32} {labels more : List (Label T Int32)} {k n : ℕ}

/-- The numbers that were drawn are the first `n`. -/
def DrawsBelow (n : ℕ) (s : State T Int32) : Prop :=
  ∀ i : ℤ, (∃ t id, s.result t = some id ∧ id.toInt = i) ↔ 0 ≤ i ∧ i < n

/-- A counter that starts at zero. -/
theorem iterate_add_one (k : ℕ) : (fun x : Int32 => x + 1)^[k] 0 = Int32.ofNat k := by
  induction k with
  | zero => rfl
  | succ k ih => rw [Function.iterate_succ_apply', ih, Int32.ofNat_add]; rfl

/-- Below `2 ^ 31` the counter does not overflow. -/
theorem toInt_iterate (hk : k < 2 ^ 31) : ((fun x : Int32 => x + 1)^[k] 0).toInt = k := by
  rw [iterate_add_one, Int32.toInt_ofNat_of_lt hk]

/-- Different counts are different values of the counter. -/
theorem injOn_iterate (hn : n < 2 ^ 31) :
    Set.InjOn (fun k => (fun x : Int32 => x + 1)^[k] 0) (Set.Iio n) := by
  intro k hk k' hk' heq
  have hint := congrArg Int32.toInt heq
  simp only [toInt_iterate (lt_trans hk hn), toInt_iterate (lt_trans hk' hn)] at hint
  exact Int.ofNat.inj hint

/-- The first numbers as integers and as values of the counter. -/
theorem drawsBelow_iff (hn : n < 2 ^ 31) :
    DrawsBelow n s ↔
      ∀ id, (∃ t, s.result t = some id) ↔ ∃ k < n, (fun x : Int32 => x + 1)^[k] 0 = id := by
  have hvalue : ∀ id : Int32,
      (∃ k < n, (fun x : Int32 => x + 1)^[k] 0 = id) ↔ 0 ≤ id.toInt ∧ id.toInt < n := by
    intro id
    constructor
    · rintro ⟨k, hk, rfl⟩
      rw [toInt_iterate (hk.trans hn)]
      omega
    · rintro ⟨hpos, hlt⟩
      obtain ⟨k, hk⟩ := Int.eq_ofNat_of_zero_le hpos
      have hkn : k < n := by omega
      exact ⟨k, hkn, Int32.toInt_inj.mp ((toInt_iterate (hkn.trans hn)).trans hk.symm)⟩
  constructor
  · intro h id
    rw [hvalue, ← h id.toInt]
    constructor
    · rintro ⟨t, ht⟩
      exact ⟨t, id, ht, rfl⟩
    · rintro ⟨t, id', ht, heq⟩
      rw [Int32.toInt_inj.mp heq] at ht
      exact ⟨t, ht⟩
  · intro h i
    constructor
    · rintro ⟨t, id, ht, rfl⟩
      exact (hvalue id).mp ((h id).mp ⟨t, ht⟩)
    · rintro ⟨hpos, hlt⟩
      obtain ⟨k, rfl⟩ := Int.eq_ofNat_of_zero_le hpos
      have hkn : k < n := by omega
      obtain ⟨t, ht⟩ := (h _).mpr ⟨k, hkn, rfl⟩
      exact ⟨t, _, ht, toInt_iterate (hkn.trans hn)⟩

/-- Later the counter is not smaller. -/
theorem Records.counter_le [Fintype T] (h : Records (· + 1) 0 labels s)
    (h' : Records (· + 1) 0 (labels ++ more) s') (hcard : Fintype.card T < 2 ^ 31) :
    s.counter ≤ s'.counter := by
  have hbound : ∀ {l : List (Label T Int32)} {u : State T Int32}, Records (· + 1) 0 l u →
      (outcomes l).count true < 2 ^ 31 := fun hu =>
    (List.count_le_length.trans hu.length_le_card).trans_lt hcard
  have hmore : (outcomes labels).count true ≤ (outcomes (labels ++ more)).count true := by
    rw [outcomes_append, List.count_append]
    exact Nat.le_add_right _ _
  rw [Int32.le_iff_toInt_le, h.counter, h'.counter, toInt_iterate (hbound h),
    toInt_iterate (hbound h')]
  exact Int.ofNat_le.mpr hmore

end Int32

end Demos.Lib.CompareExchange
