import Demos.Oak.Channel.Invariant

/-!
# Fresh steps preserve the ticket invariant

Six kinds of steps touch the shared fields or the history: a reservation, a record write, a
publication, a claim, a record read and a release. All other steps move one thread between
positions that own the same slots. Each kind has its own preservation lemma, and the other
threads are carried along by one transport lemma for each side.
-/

namespace Demos.Oak

open Demos.Lib

variable {Thread α : Type*} {n : ℕ} {g g' : Ledger α} {ch ch' : Channel α}

/-- The locals of a producer stay meaningful when its ticket, its record and the tail relation
are untouched. -/
theorem PushOk.transport {point : PushPoint} {f : PushFrame α} (h : PushOk n g ch point f)
    (hlength : g.items.length ≤ g'.items.length)
    (hitems : ∀ k, k < g.items.length → g'.items[k]? = g.items[k]?)
    (htail : point.holds → ∀ k, f.prodHead = k % n → g.published ≤ k → k < g.items.length →
      g'.published ≤ k ∧ (k = g.published → k = g'.published))
    (hrecord : point.holds → ch'.records f.prodHead = ch.records f.prodHead) :
    PushOk n g' ch' point f where
  next := h.next
  ticket := by
    intro hp
    obtain ⟨k, hk, hk', hslot, hnext, hitem, hwritten, hstore⟩ := h.ticket hp
    obtain ⟨hlow, htail'⟩ := htail hp k hslot hk hk'
    refine ⟨k, hlow, by omega, hslot, hnext, by rw [hitems k hk', hitem], ?_, ?_⟩
    · intro hw
      rw [← hslot, hrecord hp, hslot]
      exact hwritten hw
    · intro hpoint
      exact htail' (hstore hpoint)

/-- The locals of a consumer stay meaningful when its ticket and the tail relation are
untouched and its slot is not taken again. -/
theorem PopOk.transport {point : PopPoint α} {f : PopFrame} (h : PopOk n g point f)
    (hclaimed : g.claimed ≤ g'.claimed) (hbound : g.claimed ≤ g.items.length)
    (hitems : ∀ k, k < g.items.length → g'.items[k]? = g.items[k]?)
    (hoccupied : ∀ k, g.released ≤ k → k < g.claimed → g.occupied (k % n) = false →
      g'.occupied (k % n) = false)
    (htail : point.holds → ∀ k, f.consHead = k % n → g.released ≤ k → k < g.claimed →
      g'.released ≤ k ∧ (k = g.released → k = g'.released)) :
    PopOk n g' point f where
  next := h.next
  ticket := by
    intro hp
    obtain ⟨k, hk, hk', hslot, hnext, hvalue, hstore⟩ := h.ticket hp
    obtain ⟨hlow, htail'⟩ := htail hp k hslot hk hk'
    refine ⟨k, hlow, by omega, hslot, hnext, ?_, ?_⟩
    · intro ptr hptr
      obtain ⟨hitem, hocc⟩ := hvalue ptr hptr
      exact ⟨by rw [hitems k (by omega), hitem], hoccupied k hk hk' hocc⟩
    · intro ptr hpoint
      exact htail' (hstore ptr hpoint)

/-- A thread's local invariant is carried along when both kinds of calls carry theirs. -/
theorem PcOk.transport {pc : Pc α} (h : PcOk n g ch pc)
    (hpush : ∀ point f, pc = .push point f → PushOk n g ch point f → PushOk n g' ch' point f)
    (hpop : ∀ point f, pc = .pop point f → PopOk n g point f → PopOk n g' point f) :
    PcOk n g' ch' pc := by
  cases pc with
  | idle | aborted => trivial
  | push point f => exact hpush point f rfl h
  | pop point f => exact hpop point f rfl h

namespace ChannelInv

variable {s : ChannelSystem Thread α} {t : Thread} {pc' : Pc α} {ptr : α}

theorem claimed_le_items (h : ChannelInv n g s) : g.claimed ≤ g.items.length :=
  h.ring.claimed_le.trans h.ring.published_le

/-- The slot held by a producer is recorded in the producers' window. -/
theorem pushSlot_of_holds {point : PushPoint} {f : PushFrame α} (hpc : s.pc t = .push point f)
    (hp : point.holds) : (s.pc t).pushSlot = some f.prodHead := by
  rw [hpc, Pc.pushSlot, if_pos hp]

/-- The slot held by a consumer is recorded in the consumers' window. -/
theorem popSlot_of_holds {point : PopPoint α} {f : PopFrame} (hpc : s.pc t = .pop point f)
    (hp : point.holds) : (s.pc t).popSlot = some f.consHead := by
  rw [hpc, Pc.popSlot, if_pos hp]

/-- The locals of a running `Push`. -/
theorem pushOk (h : ChannelInv n g s) {point : PushPoint} {f : PushFrame α}
    (hpc : s.pc t = .push point f) : PushOk n g s.chan point f := by
  have hok := h.local_ok t
  rwa [hpc] at hok

/-- The locals of a running `Pop`. -/
theorem popOk (h : ChannelInv n g s) {point : PopPoint α} {f : PopFrame}
    (hpc : s.pc t = .pop point f) : PopOk n g point f := by
  have hok := h.local_ok t
  rwa [hpc] at hok

/-- A completion wait that ends has reached its own ticket. -/
theorem push_turn (h : ChannelInv n g s) {f : PushFrame α} (hpc : s.pc t = .push .wait f)
    (heq : s.chan.prodTail = f.prodHead) : PushOk n g s.chan .store f := by
  obtain ⟨k, hk, hk', hslot, hnext, hitem, hwritten, _⟩ := (h.pushOk hpc).ticket rfl
  refine ⟨by simp, fun _ => ⟨k, hk, hk', hslot, hnext, hitem, fun _ => hwritten rfl, fun _ => ?_⟩⟩
  have hrel := h.ring.released_le
  have hclaim := h.ring.claimed_le
  have hmod : k % n = g.published % n := by rw [← hslot, ← heq, h.ring.prodTail]
  exact h.ring.ticket_eq (by omega) (by omega) (by omega) (by omega) hmod

/-- A release wait that ends has reached its own ticket. -/
theorem pop_turn (h : ChannelInv n g s) {f : PopFrame} (hpc : s.pc t = .pop (.wait ptr) f)
    (heq : s.chan.consTail = f.consHead) : PopOk n g (.store ptr) f := by
  obtain ⟨k, hk, hk', hslot, hnext, hvalue, _⟩ := (h.popOk hpc).ticket rfl
  refine ⟨by simp, fun _ => ⟨k, hk, hk', hslot, hnext, hvalue, fun _ _ => ?_⟩⟩
  have hbound := h.claimed_le_items
  have hmod : k % n = g.released % n := by rw [← hslot, ← heq, h.ring.consTail]
  exact h.ring.ticket_eq hk (by omega) le_rfl (by omega) hmod

/-- Between the two halves of a completion wait nothing is learned or lost. -/
theorem push_loop (h : ChannelInv n g s) {f : PushFrame α} {p q : PushPoint}
    (hpc : s.pc t = .push p f) (hp : p.written) (hq : q = .wait ∨ q = .check) :
    PushOk n g s.chan q f := by
  have hholds : p.holds := by cases p <;> simp_all
  obtain ⟨k, hk, hk', hslot, hnext, hitem, hwritten, _⟩ := (h.pushOk hpc).ticket hholds
  rcases hq with rfl | rfl
  · exact ⟨by simp, fun _ => ⟨k, hk, hk', hslot, hnext, hitem, fun _ => hwritten hp, by simp⟩⟩
  · exact ⟨by simp, fun _ => ⟨k, hk, hk', hslot, hnext, hitem, fun _ => hwritten hp, by simp⟩⟩

/-- Between the two halves of a release wait nothing is learned or lost. -/
theorem pop_loop (h : ChannelInv n g s) {f : PopFrame} {p q : PopPoint α} (hpc : s.pc t = .pop p f)
    (hp : p.value = some ptr) (hq : q = .wait ptr ∨ q = .check ptr) : PopOk n g q f := by
  have hholds : p.holds := by cases p <;> simp_all
  obtain ⟨k, hk, hk', hslot, hnext, hvalue, _⟩ := (h.popOk hpc).ticket hholds
  have hread := hvalue ptr hp
  rcases hq with rfl | rfl
  · refine ⟨by simp, fun _ => ⟨k, hk, hk', hslot, hnext, ?_, by simp⟩⟩
    simpa using hread
  · refine ⟨by simp, fun _ => ⟨k, hk, hk', hslot, hnext, ?_, by simp⟩⟩
    simpa using hread

variable [DecidableEq Thread]

/-- A window changes with the slot of the thread that moved. -/
theorem window_update {a b : ℕ} {slot : Pc α → Option ℕ}
    (hwindow : TicketWindow n a b (Function.update (fun u => slot (s.pc u)) t (slot pc'))) :
    TicketWindow n a b fun u => slot (Function.update s.pc t pc' u) := by
  have hview : (fun u => slot (Function.update s.pc t pc' u)) =
      Function.update (fun u => slot (s.pc u)) t (slot pc') := Function.comp_update slot s.pc t pc'
  rwa [hview]

/-- A window is unaffected by a thread that keeps its slot. -/
theorem window_same {a b : ℕ} {slot : Pc α → Option ℕ}
    (hwindow : TicketWindow n a b fun u => slot (s.pc u)) (hsame : slot pc' = slot (s.pc t)) :
    TicketWindow n a b fun u => slot (Function.update s.pc t pc' u) := by
  apply window_update
  rwa [hsame, Function.update_eq_self]

/-- The local part of the invariant after one thread has moved. -/
theorem local_update (hmover : PcOk n g' ch' pc') (hothers : ∀ u, u ≠ t → PcOk n g' ch' (s.pc u)) :
    ∀ u, PcOk n g' ch' (Function.update s.pc t pc' u) := by
  intro u
  by_cases hu : u = t
  · subst hu
    simpa using hmover
  · rw [Function.update_of_ne hu]
    exact hothers u hu

/-- A step that changes no shared field and no slot ownership. -/
theorem quiet (h : ChannelInv n g s) (hpush : pc'.pushSlot = (s.pc t).pushSlot)
    (hpop : pc'.popSlot = (s.pc t).popSlot) (hok : PcOk n g s.chan pc') :
    ChannelInv n g ⟨s.chan, Function.update s.pc t pc'⟩ where
  ring := h.ring
  producers := window_same h.producers hpush
  consumers := window_same h.consumers hpop
  local_ok := local_update hok fun u _ => h.local_ok u

/-- A successful compare-exchange of `Push` whose full test still passes. -/
theorem reserve (h : ChannelInv n g s) (hpos : 0 < n) (hn : n < 2 ^ 32) {f : PushFrame α}
    (hpc : s.pc t = .push .cas f) (heq : s.chan.prodHead = f.prodHead)
    (hfresh : nextIndex s.chan.size f.prodHead ≠ s.chan.consTail) :
    ChannelInv n (g.after (.reserve f.prodHead f.ptr))
      ⟨{ s.chan with prodHead := f.nextProdHead }, Function.update s.pc t (.push .write f)⟩ := by
  have hring := h.ring
  have hslot : f.prodHead = g.items.length % n := by rw [← heq, hring.prodHead]
  have hnext : f.nextProdHead = (g.items.length + 1) % n := by
    rw [(h.pushOk hpc).next rfl, hslot, nextIndex_mod hpos hn]
  have hroom := hring.room_of_test hpos hn (hslot ▸ hfresh)
  have hrel := hring.released_le
  have hclaim := hring.claimed_le
  have hpub := hring.published_le
  have hitems : ∀ k, k < g.items.length → (g.items ++ [f.ptr])[k]? = g.items[k]? :=
    fun k hk => List.getElem?_append_left hk
  have hlength : (g.after (.reserve f.prodHead f.ptr)).items.length = g.items.length + 1 := by
    simp [Ledger.after]
  refine ⟨?_, ?_, ?_, local_update ?_ ?_⟩
  · refine ⟨hring.size, hrel, hclaim, ?_, ?_, ?_, hring.prodTail, hring.consHead,
      hring.consTail, ?_, ?_⟩
    · rw [hlength]
      exact hpub.trans (Nat.le_succ _)
    · rw [hlength]
      exact hroom
    · rw [hlength]
      exact hnext
    · intro k hk hk'
      exact (hitems k (lt_of_lt_of_le hk' hpub)).trans (hring.stored k hk hk')
    · intro slot hocc
      rw [hlength]
      by_cases hlast : slot = f.prodHead
      · exact ⟨g.items.length, by change g.released ≤ _; omega, by omega, hlast.trans hslot⟩
      · simp only [Ledger.after, Function.update_of_ne hlast] at hocc
        obtain ⟨k, hk, hk', hmod⟩ := hring.occupied slot hocc
        exact ⟨k, hk, by omega, hmod⟩
  · rw [hlength]
    apply window_update
    have hfree : (s.pc t).pushSlot = none := by simp [hpc]
    have htaken : (Pc.push PushPoint.write f).pushSlot = some (g.items.length % n) := by
      simp [hslot]
    rw [htaken]
    exact h.producers.acquire hpub (by omega) hfree
  · exact window_same h.consumers (by simp [hpc])
  · refine ⟨by simp, fun _ => ⟨g.items.length, hpub, by omega, hslot, hnext, ?_, ?_, by simp⟩⟩
    · simp [Ledger.after]
    · simp
  · intro u _
    apply (h.local_ok u).transport
    · intro point fu _ hok
      exact hok.transport (by omega) hitems (fun _ k _ hk _ => ⟨hk, id⟩) (fun _ => rfl)
    · intro point fu _ hok
      refine hok.transport le_rfl h.claimed_le_items hitems ?_ (fun _ k _ hk _ => ⟨hk, id⟩)
      intro k hk hk' hocc
      have hne : k % n ≠ f.prodHead := by
        intro hmod
        have hsame := hring.ticket_eq hk (by omega) (by omega) le_rfl (hmod.trans hslot)
        omega
      simpa [Ledger.after, Function.update_of_ne hne] using hocc

/-- The record write of a `Push` touches only the slot of its own ticket. -/
theorem write (h : ChannelInv n g s) {f : PushFrame α} (hpc : s.pc t = .push .write f) :
    ChannelInv n g ⟨{ s.chan with records := Function.update s.chan.records f.prodHead f.ptr },
      Function.update s.pc t (.push .wait f)⟩ := by
  have hring := h.ring
  have hholds := pushSlot_of_holds hpc rfl
  obtain ⟨k, hk, hk', hslot, hnext, hitem, _, _⟩ := (h.pushOk hpc).ticket rfl
  have hrel := hring.released_le
  have hclaim := hring.claimed_le
  have hpub := hring.published_le
  refine ⟨?_, ?_, ?_, local_update ?_ ?_⟩
  · refine ⟨hring.size, hrel, hclaim, hpub, hring.room, hring.prodHead, hring.prodTail,
      hring.consHead, hring.consTail, ?_, hring.occupied⟩
    intro j hj hj'
    have hne : j % n ≠ f.prodHead := by
      intro hmod
      have hsame := hring.ticket_eq hj (by omega) (by omega : g.released ≤ k) (by omega)
        (hmod.trans hslot)
      omega
    rw [hring.stored j hj hj']
    simp [Function.update_of_ne hne]
  · exact window_same h.producers (by simp [hpc])
  · exact window_same h.consumers (by simp [hpc])
  · refine ⟨by simp, fun _ => ⟨k, hk, hk', hslot, hnext, hitem, ?_, by simp⟩⟩
    intro _
    simp [← hslot]
  · intro u hu
    apply (h.local_ok u).transport
    · intro point fu hpu hok
      refine hok.transport le_rfl (fun _ _ => rfl) (fun _ j _ hj _ => ⟨hj, id⟩) ?_
      intro hp
      have hne : fu.prodHead ≠ f.prodHead := by
        intro hmod
        exact hu (h.producers.unique u t f.prodHead (hmod ▸ pushSlot_of_holds hpu hp) hholds)
      simp [Function.update_of_ne hne]
    · intro point fu _ hok
      exact hok

/-- The tail store of a `Push` publishes the oldest reserved ticket. -/
theorem publish (h : ChannelInv n g s) {f : PushFrame α} (hpc : s.pc t = .push .store f) :
    g.items[g.published]? = some f.ptr ∧
      ChannelInv n (g.after (.pushed f.ptr))
        ⟨{ s.chan with prodTail := f.nextProdHead }, Function.update s.pc t .idle⟩ := by
  have hring := h.ring
  have hholds := pushSlot_of_holds hpc rfl
  obtain ⟨k, hk, hk', hslot, hnext, hitem, hwritten, hstore⟩ := (h.pushOk hpc).ticket rfl
  obtain rfl := hstore rfl
  have hclaim := hring.claimed_le
  have hroom := hring.room
  have hrel := hring.released_le
  refine ⟨hitem, ?_, ?_, ?_, local_update trivial ?_⟩
  · refine ⟨hring.size, hrel, hclaim.trans (Nat.le_succ _), hk', hroom, hring.prodHead, hnext,
      hring.consHead, hring.consTail, ?_, hring.occupied⟩
    intro j hj hj'
    by_cases hlast : j = g.published
    · rw [hlast]
      exact hitem.trans (congrArg some (hwritten rfl).symm)
    · simp only [Ledger.after] at hj'
      exact hring.stored j hj (by omega)
  · apply window_update
    exact h.producers.release (by omega) (hholds.trans (congrArg some hslot))
  · exact window_same h.consumers (by simp [hpc])
  · intro u hu
    apply (h.local_ok u).transport
    · intro point fu hpu hok
      refine hok.transport le_rfl (fun _ _ => rfl) ?_ (fun _ => rfl)
      intro hp j hj hlow _
      have hne : j ≠ g.published := by
        intro heq
        have hsame : (s.pc u).pushSlot = some f.prodHead := by
          rw [pushSlot_of_holds hpu hp, hj, heq, hslot]
        exact hu (h.producers.unique u t _ hsame hholds)
      simp only [Ledger.after]
      omega
    · intro point fu _ hok
      exact hok.transport le_rfl h.claimed_le_items (fun _ _ => rfl) (fun _ _ _ => id)
        (fun _ j _ hj _ => ⟨hj, id⟩)

/-- A successful compare-exchange of `Pop` whose empty test still passes. -/
theorem claim (h : ChannelInv n g s) (hpos : 0 < n) (hn : n < 2 ^ 32) {f : PopFrame}
    (hpc : s.pc t = .pop .cas f) (heq : s.chan.consHead = f.consHead)
    (hfresh : f.consHead ≠ s.chan.prodTail) :
    ChannelInv n (g.after (.claim f.consHead))
      ⟨{ s.chan with consHead := f.nextConsHead }, Function.update s.pc t (.pop .read f)⟩ := by
  have hring := h.ring
  have hslot : f.consHead = g.claimed % n := by rw [← heq, hring.consHead]
  have hnext : f.nextConsHead = (g.claimed + 1) % n := by
    rw [(h.popOk hpc).next rfl, hslot, nextIndex_mod hpos hn]
  have hitem := hring.item_of_test (hslot ▸ hfresh)
  have hrel := hring.released_le
  have hpub := hring.published_le
  have hroom := hring.room
  refine ⟨?_, ?_, ?_, local_update ?_ ?_⟩
  · exact ⟨hring.size, hrel.trans (Nat.le_succ _), hitem, hpub, hroom, hring.prodHead,
      hring.prodTail, hnext, hring.consTail, hring.stored, hring.occupied⟩
  · exact window_same h.producers (by simp [hpc])
  · apply window_update
    have hfree : (s.pc t).popSlot = none := by simp [hpc]
    have htaken : (Pc.pop (PopPoint.read : PopPoint α) f).popSlot = some (g.claimed % n) := by
      simp [hslot]
    rw [htaken]
    exact h.consumers.acquire hrel (by omega) hfree
  · refine ⟨by simp, fun _ => ⟨g.claimed, hrel, Nat.lt_succ_self _, hslot, hnext, ?_, by simp⟩⟩
    simp
  · intro u _
    apply (h.local_ok u).transport
    · intro point fu _ hok
      exact hok.transport le_rfl (fun _ _ => rfl) (fun _ j _ hj _ => ⟨hj, id⟩) (fun _ => rfl)
    · intro point fu _ hok
      exact hok.transport (Nat.le_succ _) h.claimed_le_items (fun _ _ => rfl)
        (fun _ _ _ => id) (fun _ j _ hj _ => ⟨hj, id⟩)

/-- The record read of a `Pop` returns the item of its own ticket and frees the slot. -/
theorem take (h : ChannelInv n g s) {f : PopFrame} (hpc : s.pc t = .pop .read f) :
    ChannelInv n (g.after (.take f.consHead))
      ⟨s.chan, Function.update s.pc t (.pop (.wait (s.chan.records f.consHead)) f)⟩ := by
  have hring := h.ring
  obtain ⟨k, hk, hk', hslot, hnext, _, _⟩ := (h.popOk hpc).ticket rfl
  have hclaim := hring.claimed_le
  have hkeep : ∀ j, g.occupied (j % n) = false →
      Function.update g.occupied f.consHead false (j % n) = false := by
    intro j hj
    by_cases hmod : j % n = f.consHead
    · rw [hmod, Function.update_self]
    · rwa [Function.update_of_ne hmod]
  refine ⟨?_, ?_, ?_, local_update ?_ ?_⟩
  · refine ⟨hring.size, hring.released_le, hclaim, hring.published_le, hring.room, hring.prodHead,
      hring.prodTail, hring.consHead, hring.consTail, hring.stored, ?_⟩
    intro slot hocc
    have hne : slot ≠ f.consHead := by
      intro heq
      simp [Ledger.after, heq] at hocc
    simp only [Ledger.after, Function.update_of_ne hne] at hocc
    exact hring.occupied slot hocc
  · exact window_same h.producers (by simp [hpc])
  · exact window_same h.consumers (by simp [hpc])
  · refine ⟨by simp, fun _ => ⟨k, hk, hk', hslot, hnext, ?_, by simp⟩⟩
    intro ptr hptr
    simp only [PopPoint.value, Option.some.injEq] at hptr
    refine ⟨?_, by simp [Ledger.after, hslot]⟩
    rw [← hptr, hslot]
    exact hring.stored k hk (by omega)
  · intro u _
    apply (h.local_ok u).transport
    · intro point fu _ hok
      exact hok.transport le_rfl (fun _ _ => rfl) (fun _ j _ hj _ => ⟨hj, id⟩) (fun _ => rfl)
    · intro point fu _ hok
      exact hok.transport le_rfl h.claimed_le_items (fun _ _ => rfl)
        (fun j _ _ hocc => hkeep j hocc) (fun _ j _ hj _ => ⟨hj, id⟩)

/-- The tail store of a `Pop` releases the oldest claimed ticket. -/
theorem release (h : ChannelInv n g s) {f : PopFrame} (hpc : s.pc t = .pop (.store ptr) f) :
    g.items[g.released]? = some ptr ∧ g.released < g.claimed ∧
      ChannelInv n (g.after (.popped ptr))
        ⟨{ s.chan with consTail := f.nextConsHead }, Function.update s.pc t .idle⟩ := by
  have hring := h.ring
  have hholds := popSlot_of_holds hpc rfl
  obtain ⟨k, hk, hk', hslot, hnext, hvalue, hstore⟩ := (h.popOk hpc).ticket rfl
  obtain rfl := hstore ptr rfl
  obtain ⟨hitem, hfree⟩ := hvalue ptr rfl
  have hclaim := hring.claimed_le
  have hpub := hring.published_le
  have hroom := hring.room
  refine ⟨hitem, hk', ?_, ?_, ?_, local_update trivial ?_⟩
  · refine ⟨hring.size, hk', hclaim, hpub, ?_, hring.prodHead, hring.prodTail, hring.consHead,
      hnext, ?_, ?_⟩
    · simp only [Ledger.after]
      omega
    · intro j hj hj'
      simp only [Ledger.after] at hj
      exact hring.stored j (by omega) hj'
    · intro slot hocc
      obtain ⟨j, hj, hj', hmod⟩ := hring.occupied slot hocc
      have hne : j ≠ g.released := by
        intro heq
        rw [hmod, heq] at hocc
        simp [Ledger.after, hfree] at hocc
      exact ⟨j, by simp only [Ledger.after]; omega, hj', hmod⟩
  · exact window_same h.producers (by simp [hpc])
  · apply window_update
    exact h.consumers.release (by omega) (hholds.trans (congrArg some hslot))
  · intro u hu
    apply (h.local_ok u).transport
    · intro point fu _ hok
      exact hok.transport le_rfl (fun _ _ => rfl) (fun _ j _ hj _ => ⟨hj, id⟩) (fun _ => rfl)
    · intro point fu hpu hok
      refine hok.transport le_rfl h.claimed_le_items (fun _ _ => rfl) (fun _ _ _ => id) ?_
      intro hp j hj hlow _
      have hne : j ≠ g.released := by
        intro heq
        have hsame : (s.pc u).popSlot = some f.consHead := by
          rw [popSlot_of_holds hpu hp, hj, heq, hslot]
        exact hu (h.consumers.unique u t _ hsame hholds)
      simp only [Ledger.after]
      omega

/-- Every fresh step preserves the invariant. -/
theorem step (h : ChannelInv n g s) (hpos : 0 < n) (hn : n < 2 ^ 32) {s' : ChannelSystem Thread α}
    {event : Event α} (hstep : ChannelSystem.Step s (t, event) s') (hfresh : Fresh s (t, event)) :
    ChannelInv n (g.after event) s' := by
  obtain ⟨pc', hlocal, hpcs⟩ := hstep.cases
  obtain ⟨ch', pcs'⟩ := s'
  simp only at hlocal hpcs
  subst hpcs
  generalize hpc : s.pc t = pc at hlocal
  cases hlocal with
  | pushCall | pushLoad | pushRetry =>
    exact h.quiet (by simp [hpc]) (by simp [hpc]) ⟨by simp, by simp⟩
  | pushFull | popEmpty => exact h.quiet (by simp [hpc]) (by simp [hpc]) trivial
  | pushRoom | popItem =>
    exact h.quiet (by simp [hpc]) (by simp [hpc]) ⟨by simp [h.ring.size], by simp⟩
  | pushReserve f heq => exact h.reserve hpos hn hpc heq hfresh
  | pushWrite f => exact h.write hpc
  | pushSpin f _ => exact h.quiet (by simp [hpc]) (by simp [hpc]) (h.push_loop hpc rfl (.inr rfl))
  | pushTurn f heq => exact h.quiet (by simp [hpc]) (by simp [hpc]) (h.push_turn hpc heq)
  | pushCheck f => exact h.quiet (by simp [hpc]) (by simp [hpc]) (h.push_loop hpc rfl (.inl rfl))
  | pushAbort f hbad =>
    exact absurd (by rw [h.ring.prodTail, h.ring.size]; exact Nat.mod_lt _ hpos) hbad
  | pushStore f => exact (h.publish hpc).2
  | popCall | popLoad | popRetry => exact h.quiet (by simp [hpc]) (by simp [hpc]) ⟨by simp, by simp⟩
  | popClaim f heq => exact h.claim hpos hn hpc heq hfresh
  | popRead f => exact h.take hpc
  | popSpin f ptr _ => exact h.quiet (by simp [hpc]) (by simp [hpc]) (h.pop_loop hpc rfl (.inr rfl))
  | popTurn f ptr heq => exact h.quiet (by simp [hpc]) (by simp [hpc]) (h.pop_turn hpc heq)
  | popCheck f ptr => exact h.quiet (by simp [hpc]) (by simp [hpc]) (h.pop_loop hpc rfl (.inl rfl))
  | popAbort f ptr hbad =>
    exact absurd (by rw [h.ring.consTail, h.ring.size]; exact Nat.mod_lt _ hpos) hbad
  | popStore f ptr => exact (h.release hpc).2.2

end ChannelInv

end Demos.Oak
