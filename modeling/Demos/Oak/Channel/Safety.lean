import Demos.Oak.Channel.Sequential
import Mathlib.Data.List.Perm.Subperm

/-!
# No item is lost, duplicated or hidden while no compare-exchange succeeds on a stale test

`prod_head_` and `cons_head_` are reduced modulo the ring size. A thread that pauses between
its full or empty test and its compare-exchange can find the same head value after the ring
has gone round, and its compare-exchange then succeeds although the test would now fail. The
safety of any number of threads is proved for the runs without such a stale success, and a
run of two threads on a ring of two slots shows what a single stale success does.
-/

namespace Demos.Oak

open Demos.Lib ChannelSystem

variable {Thread α : Type*}

/-- What the users of a channel rely on, at any point of a run with history `es`. -/
structure ChannelSafe [DecidableEq Thread] (es : History Thread α) (s : ChannelSystem Thread α) :
    Prop where
  reserve_free : ∀ (before : History Thread α) (t : Thread) (slot : ℕ) (ptr : α) rest,
    es = before ++ (t, Event.reserve slot ptr) :: rest → ¬ before.Occupied slot
  once : List.Subperm es.popped es.pushed
  accounted : s.Quiescent → ∃ items, (es.popped ++ items).Perm es.pushed ∧
    items.length = s.chan.usedSpace ∧ Drains s items

/-- The masked difference of two wrapped indices is the distance of their counters. -/
theorem subU32_mask {k a d : ℕ} (hk : k ≤ 31) (hd : d < 2 ^ k) :
    subU32 ((a + d) % 2 ^ k) (a % 2 ^ k) &&& subU32 (2 ^ k) 1 = d := by
  have hle : 2 ^ k ≤ 2 ^ 31 := Nat.pow_le_pow_right (by omega) hk
  have hpos : 0 < 2 ^ k := Nat.two_pow_pos k
  have hmask : subU32 (2 ^ k) 1 = 2 ^ k - 1 := by
    unfold subU32
    rw [show 2 ^ k + 2 ^ 32 - 1 = (2 ^ k - 1) + 2 ^ 32 by omega, Nat.add_mod_right]
    exact Nat.mod_eq_of_lt (by omega)
  have ha := Nat.mod_lt a hpos
  have hdvd : 2 ^ k ∣ 2 ^ 32 := Nat.pow_dvd_pow 2 (by omega)
  have hsum : (a + d) % 2 ^ k = (a % 2 ^ k + d) % 2 ^ k := by simp
  rw [hmask, Nat.and_two_pow_sub_one_eq_mod, subU32, Nat.mod_mod_of_dvd _ hdvd, hsum]
  by_cases hwrap : a % 2 ^ k + d < 2 ^ k
  · rw [Nat.mod_eq_of_lt hwrap, show a % 2 ^ k + d + 2 ^ 32 - a % 2 ^ k = d + 2 ^ 32 by omega]
    obtain ⟨c, hc⟩ := hdvd
    rw [hc, Nat.add_mul_mod_self_left, Nat.mod_eq_of_lt hd]
  · have hturn : (a % 2 ^ k + d) % 2 ^ k = a % 2 ^ k + d - 2 ^ k := by
      rw [Nat.mod_eq_sub_mod (by omega), Nat.mod_eq_of_lt (by omega)]
    rw [hturn, show a % 2 ^ k + d - 2 ^ k + 2 ^ 32 - a % 2 ^ k = d + (2 ^ 32 - 2 ^ k) by omega]
    obtain ⟨c, hc⟩ := hdvd
    have hrest : 2 ^ 32 - 2 ^ k = 2 ^ k * (c - 1) := by rw [hc, Nat.mul_sub, Nat.mul_one]
    rw [hrest, Nat.add_mul_mod_self_left, Nat.mod_eq_of_lt hd]

namespace ChannelInv

variable {n : ℕ} {g : Ledger α} {s : ChannelSystem Thread α}

/-- A new channel has an empty ledger. -/
theorem init (hpos : 0 < n) (records : ℕ → α) :
    ChannelInv n .empty (ChannelSystem.new n records : ChannelSystem Thread α) where
  ring := by
    refine ⟨rfl, le_rfl, le_rfl, le_rfl, by simpa [Ledger.empty] using hpos, ?_, ?_, ?_, ?_, ?_, ?_⟩
    · simp [ChannelSystem.new, Channel.new, Ledger.empty]
    · simp [ChannelSystem.new, Channel.new, Ledger.empty]
    · simp [ChannelSystem.new, Channel.new, Ledger.empty]
    · simp [ChannelSystem.new, Channel.new, Ledger.empty]
    · simp [Ledger.empty]
    · simp [Ledger.empty]
  producers := TicketWindow.empty n 0
  consumers := TicketWindow.empty n 0
  local_ok _ := trivial

/-- With no call in progress every reservation is published and every claim released. -/
theorem counters_of_quiescent (h : ChannelInv n g s) (hquiet : s.Quiescent) :
    g.published = g.items.length ∧ g.claimed = g.released ∧ g.released ≤ g.items.length := by
  have hprod := h.producers.head_le_tail fun t => by simp [hquiet t]
  have hcons := h.consumers.head_le_tail fun t => by simp [hquiet t]
  have hpub := le_antisymm h.ring.published_le hprod
  have hclaim := le_antisymm hcons h.ring.released_le
  have hfirst := h.ring.claimed_le
  exact ⟨hpub, hclaim, by omega⟩

/-- With no call in progress the channel stores the items that are pushed but not popped. -/
theorem holds_of_quiescent (h : ChannelInv n g s) (hquiet : s.Quiescent) :
    s.chan.Holds n (g.items.drop g.released) := by
  obtain ⟨hpub, hclaim, hle⟩ := h.counters_of_quiescent hquiet
  have hring := h.ring
  have hroom := hring.room
  refine ⟨hring.size, by rw [List.length_drop]; omega, g.released, ?_, hring.consTail, ?_, ?_⟩
  · rw [hring.consHead, hclaim]
  · rw [hring.prodTail, hpub, List.length_drop, Nat.add_sub_cancel' hle]
  · intro i hi
    rw [List.length_drop] at hi
    rw [List.getElem?_drop]
    exact hring.stored _ (by omega) (by omega)

/-- With no call in progress `UsedSpace` counts the items that are pushed but not popped. -/
theorem usedSpace_of_quiescent {k : ℕ} (h : ChannelInv (2 ^ k) g s) (hk : k ≤ 31)
    (hquiet : s.Quiescent) : s.chan.usedSpace = (g.items.drop g.released).length := by
  obtain ⟨hpub, hclaim, hle⟩ := h.counters_of_quiescent hquiet
  have hring := h.ring
  have hroom := hring.room
  have hsplit : g.items.length = g.released + (g.items.drop g.released).length := by
    rw [List.length_drop]
    omega
  rw [Channel.usedSpace, hring.prodTail, hring.consHead, hring.size, hpub, hclaim, hsplit]
  exact subU32_mask hk (by omega)

/-- The slot of the next reservation is free when the full test passes. -/
theorem not_occupied (h : ChannelInv n g s) (hpos : 0 < n) (hn : n < 2 ^ 32)
    (htest : nextIndex s.chan.size (g.items.length % n) ≠ s.chan.consTail) :
    g.occupied (g.items.length % n) = false := by
  by_contra hocc
  obtain ⟨k, hk, hk', hmod⟩ := h.ring.occupied _ (Bool.not_eq_false _ ▸ hocc)
  have hroom := h.ring.room_of_test hpos hn htest
  have hsame := eq_of_mod_eq (n := n) (a := g.released) (by omega) (by omega) hk (by omega) hmod
  omega

end ChannelInv

/-- The completed calls, read off the ledger of the history. -/
structure HistoryOk (es : History Thread α) : Prop where
  pushed : es.pushed = es.ledger.items.take es.ledger.published
  popped : es.popped = es.ledger.items.take es.ledger.released

/-- One event keeps the completed calls and the ledger in step. -/
theorem HistoryOk.snoc {es : History Thread α} {t : Thread} {event : Event α} (h : HistoryOk es)
    (hpushed : ∀ ptr, event = .pushed ptr → es.ledger.items[es.ledger.published]? = some ptr)
    (hpopped : ∀ ptr, event = .popped ptr → es.ledger.items[es.ledger.released]? = some ptr)
    (hpub : es.ledger.published ≤ es.ledger.items.length)
    (hrel : es.ledger.released ≤ es.ledger.items.length) : HistoryOk (es ++ [(t, event)]) := by
  have hkeep : ∀ (ptr : α) m, m ≤ es.ledger.items.length →
      (es.ledger.items ++ [ptr]).take m = es.ledger.items.take m :=
    fun _ _ hm => List.take_append_of_le_length hm
  refine ⟨?_, ?_⟩
  · rw [History.pushed_snoc, History.ledger_snoc, h.pushed]
    cases event with
    | reserve slot ptr => simp [Ledger.after, Event.pushedPtr, hkeep ptr _ hpub]
    | pushed ptr => simp [Ledger.after, Event.pushedPtr, List.take_add_one, hpushed ptr rfl]
    | _ => simp [Ledger.after, Event.pushedPtr]
  · rw [History.popped_snoc, History.ledger_snoc, h.popped]
    cases event with
    | reserve slot ptr => simp [Ledger.after, Event.poppedPtr, hkeep ptr _ hrel]
    | popped ptr => simp [Ledger.after, Event.poppedPtr, List.take_add_one, hpopped ptr rfl]
    | _ => simp [Ledger.after, Event.poppedPtr]

section Runs

variable [DecidableEq Thread] {n : ℕ} {es : History Thread α} {s s' : ChannelSystem Thread α}
  {g : Ledger α} {t : Thread} {ptr : α}

/-- The item a `Push` reports is the one of the oldest reserved ticket. -/
theorem ChannelInv.pushed_item (h : ChannelInv n g s) (hstep : Step s (t, .pushed ptr) s') :
    g.items[g.published]? = some ptr := by
  obtain ⟨pc', hlocal, _⟩ := hstep.cases
  generalize hpc : s.pc t = pc at hlocal
  generalize s'.chan = ch' at hlocal
  cases hlocal with
  | pushStore f => exact (h.publish hpc).1

/-- The item a `Pop` reports is the one of the oldest claimed ticket. -/
theorem ChannelInv.popped_item (h : ChannelInv n g s) (hstep : Step s (t, .popped ptr) s') :
    g.items[g.released]? = some ptr := by
  obtain ⟨pc', hlocal, _⟩ := hstep.cases
  generalize hpc : s.pc t = pc at hlocal
  generalize s'.chan = ch' at hlocal
  cases hlocal with
  | popStore f _ => exact (h.release hpc).1

/-- A successful compare-exchange of `Push` names the slot at the producer head. -/
theorem reserve_slot (h : ChannelInv n g s) {slot : ℕ} (hstep : Step s (t, .reserve slot ptr) s') :
    slot = g.items.length % n := by
  obtain ⟨pc', hlocal, _⟩ := hstep.cases
  generalize hpc : s.pc t = pc at hlocal
  generalize s'.chan = ch' at hlocal
  cases hlocal with
  | pushReserve f heq => rw [← heq, h.ring.prodHead]

/-- The ticket invariant and the completed calls, together with freedom from overwriting. -/
structure RunOk (n : ℕ) (es : History Thread α) (s : ChannelSystem Thread α) : Prop where
  inv : ChannelInv n es.ledger s
  history : HistoryOk es
  reserve_free : ∀ (before : History Thread α) (t : Thread) (slot : ℕ) (ptr : α) rest,
    es = before ++ (t, Event.reserve slot ptr) :: rest → ¬ before.Occupied slot

/-- A fresh step keeps everything a run has established. -/
theorem RunOk.step (h : RunOk n es s) (hpos : 0 < n) (hn : n < 2 ^ 32) {label : Thread × Event α}
    (hstep : Step s label s') (hfresh : Fresh s label) : RunOk n (es ++ [label]) s' := by
  obtain ⟨t, event⟩ := label
  have hring := h.inv.ring
  have hrel : es.ledger.released ≤ es.ledger.items.length :=
    hring.released_le.trans h.inv.claimed_le_items
  refine ⟨?_, h.history.snoc ?_ ?_ hring.published_le hrel, ?_⟩
  · rw [History.ledger_snoc]
    exact h.inv.step hpos hn hstep hfresh
  · rintro ptr rfl
    exact h.inv.pushed_item hstep
  · rintro ptr rfl
    exact h.inv.popped_item hstep
  · intro before u slot ptr rest hsplit
    rcases List.eq_nil_or_concat rest with rfl | ⟨init, last, rfl⟩
    · obtain ⟨rfl, hlabel⟩ := List.append_inj' hsplit rfl
      obtain ⟨rfl, rfl⟩ := Prod.mk.injEq .. ▸ List.singleton_inj.mp hlabel
      obtain rfl := reserve_slot h.inv hstep
      simp [History.Occupied, h.inv.not_occupied hpos hn hfresh]
    · rw [List.concat_eq_append, ← List.cons_append, ← List.append_assoc] at hsplit
      obtain ⟨rfl, _⟩ := List.append_inj' hsplit rfl
      exact h.reserve_free before u slot ptr init rfl

/-- Every run without a stale success. -/
theorem RunOk.of_run (hpos : 0 < n) (hn : n < 2 ^ 32) {records : ℕ → α}
    (hrun : Run (Guarded Step Fresh) (ChannelSystem.new n records) es s) : RunOk n es s := by
  refine Run.invariant (I := RunOk n) ⟨ChannelInv.init hpos records, ⟨rfl, rfl⟩, ?_⟩ ?_ hrun
  · intro before t slot ptr rest hsplit
    simp at hsplit
  · intro labels mid label mid' hmid hstep
    exact hmid.step hpos hn hstep.1 hstep.2

/-- The safety of a channel follows from the run invariant. -/
theorem RunOk.safe {k : ℕ} (h : RunOk (2 ^ k) es s) (hk : k ≤ 31) : ChannelSafe es s where
  reserve_free := h.reserve_free
  once := by
    rw [h.history.pushed, h.history.popped]
    have hle : es.ledger.released ≤ es.ledger.published :=
      h.inv.ring.released_le.trans h.inv.ring.claimed_le
    exact (List.take_prefix_take_left hle).sublist.subperm
  accounted := by
    intro hquiet
    obtain ⟨hpub, _⟩ := h.inv.counters_of_quiescent hquiet
    have hn : 2 ^ k < 2 ^ 32 := Nat.pow_lt_pow_right (by omega) (by omega)
    refine ⟨es.ledger.items.drop es.ledger.released, ?_, ?_, ?_⟩
    · rw [h.history.pushed, h.history.popped, hpub, List.take_length, List.take_append_drop]
    · exact (h.inv.usedSpace_of_quiescent hk hquiet).symm
    · exact (h.inv.holds_of_quiescent hquiet).drains hn hquiet

/-- Any number of threads may push and pop in any interleaving: as long as no compare-exchange
succeeds on a stale test, no slot is overwritten, every returned item was pushed and is returned
once, and a channel at rest stores exactly the items that are pushed but not popped. -/
theorem channelSafe_of_fresh (k : ℕ) (hk : k ≤ 31) (records : ℕ → α) (es : History Thread α)
    (s : ChannelSystem Thread α)
    (hrun : Run (Guarded Step Fresh) (ChannelSystem.new (2 ^ k) records) es s) :
    ChannelSafe es s :=
  (RunOk.of_run (Nat.two_pow_pos k) (Nat.pow_lt_pow_right (by omega) (by omega)) hrun).safe hk

/-- Whether a compare-exchange is fresh can be computed. -/
instance (s : ChannelSystem Thread α) : ∀ label, Decidable (Fresh s label)
  | (_, .reserve slot _) =>
    inferInstanceAs (Decidable (nextIndex s.chan.size slot ≠ s.chan.consTail))
  | (_, .claim slot) => inferInstanceAs (Decidable (slot ≠ s.chan.prodTail))
  | (_, .pushCall) | (_, .popCall) | (_, .quiet) | (_, .spin) | (_, .abort) | (_, .wrote)
  | (_, .pushed _) | (_, .pushFull) | (_, .take _) | (_, .popped _) | (_, .popEmpty) =>
    inferInstanceAs (Decidable True)

/-- A thread makes its next `m` accesses undisturbed. -/
def turns (t : Bool) (m : ℕ) : List (Action Bool ℕ) := List.replicate m (.run t false)

/-- One thread pushes while another enters `Pop`; the item is handed over. -/
def handover : List (Action Bool ℕ) :=
  [[.push false 7, .pop true, .run true false], turns false 6,
    [.run true false, .run true true], turns true 5].flatten

/-- A handover in which the first compare-exchange of the `Pop` fails spuriously is safe. -/
theorem channelSafe_handover :
    ∃ (es : History Bool ℕ) (s : ChannelSystem Bool ℕ),
      Run (Guarded Step Fresh) (ChannelSystem.new (2 ^ 1) fun _ => 0) es s ∧
      History.popped es = [7] ∧ ChannelSafe es s := by
  have hexec : (exec (guardedNext next Fresh) (ChannelSystem.new (2 ^ 1) fun _ => 0) handover).map
      (fun result => History.popped result.1) = some [7] := by decide +kernel
  obtain ⟨es, s, hrun, hpopped⟩ := exists_guarded_run_of_exec hexec
  exact ⟨es, s, hrun, hpopped, channelSafe_of_fresh 1 (by decide) _ es s hrun⟩

/-- Two threads on a ring of two slots. The first passes its full test and pauses; the second
pushes, pops and pushes again, which fills the ring and brings the head back to zero; then the
compare-exchange of the first succeeds on its stale test. -/
def staleSchedule : List (Action Bool ℕ) :=
  [.push false 10 :: turns false 2, .push true 20 :: turns true 6, .pop true :: turns true 6,
    .push true 30 :: turns true 6, turns false 4].flatten

/-- The thread is in no call. -/
def Pc.isIdle : Pc α → Bool
  | .idle => true
  | _ => false

/-- A single stale success hides two items: the channel is at rest and reports no used space
although three items were pushed and one was popped. -/
theorem staleSchedule_result :
    (exec next (ChannelSystem.new 2 fun _ => 0) staleSchedule).map (fun result =>
      (History.pushed result.1, History.popped result.1, result.2.chan.usedSpace,
        (result.2.pc false).isIdle, (result.2.pc true).isIdle)) =
      some ([20, 30, 10], [20], 0, true, true) := by
  decide +kernel

/-- The schedules with a stale success break the safety of the channel. -/
theorem channelSafe_fails_when_stale :
    ¬ ∀ (k : ℕ), k ≤ 31 → ∀ (es : History Bool ℕ) (s : ChannelSystem Bool ℕ),
      Run Step (ChannelSystem.new (2 ^ k) fun _ => 0) es s → ChannelSafe es s := by
  intro hsafe
  obtain ⟨es, s, hrun, hresult⟩ := exists_run_of_exec staleSchedule_result
  simp only [Prod.mk.injEq] at hresult
  obtain ⟨hpushed, hpopped, hused, hfalse, htrue⟩ := hresult
  have hidle : ∀ pc : Pc ℕ, pc.isIdle = true → pc = .idle := by
    intro pc hpc
    cases pc <;> simp_all [Pc.isIdle]
  have hquiet : s.Quiescent := by
    intro t
    cases t with
    | false => exact hidle _ hfalse
    | true => exact hidle _ htrue
  obtain ⟨items, hperm, hlength, _⟩ := (hsafe 1 (by omega) es s hrun).accounted hquiet
  have hcount := hperm.length_eq
  rw [List.length_append, hlength, hpushed, hpopped, hused] at hcount
  simp at hcount

end Runs

end Demos.Oak
