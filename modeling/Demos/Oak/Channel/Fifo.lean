import Demos.Oak.Channel.Safety
import Demos.Lib.BoundedQueue

/-!
# One producer and one consumer: a bounded first-in first-out queue

When a single thread pushes and a single thread pops, nobody else can move the head that a
paused thread has read, and the other side only makes its test pass more easily. Every
successful compare-exchange is then fresh, so the ticket invariant holds on all runs, the
completion waits end at their first test, and the channel refines a queue of `size - 1` items.
-/

namespace Demos.Oak

open Demos.Lib ChannelSystem

variable {Thread α : Type*} {n : ℕ} {ch ch' : Channel α} {pc pc' : Pc α} {event : Event α}
  {g : Ledger α}

/-- Only `producer` enters `Push` and only `consumer` enters `Pop`. -/
def Roles (producer consumer : Thread) (_ : ChannelSystem Thread α) (label : Thread × Event α) :
    Prop :=
  match label.2 with
  | .pushCall => label.1 = producer
  | .popCall => label.1 = consumer
  | _ => True

/-- What a thread between its load and its compare-exchange knows when its side is its own. -/
def SideOk (n : ℕ) (g : Ledger α) (ch : Channel α) : Pc α → Prop
  | .push .test f => f.prodHead = ch.prodHead
  | .push .cas f => f.prodHead = ch.prodHead ∧ g.items.length + 1 < g.released + n
  | .pop .test f => f.consHead = ch.consHead
  | .pop .cas f => f.consHead = ch.consHead ∧ g.claimed < g.published
  | _ => True

/-- Each side belongs to one thread. -/
structure SidesOk (n : ℕ) (producer consumer : Thread) (g : Ledger α)
    (s : ChannelSystem Thread α) : Prop where
  producer : ∀ t point f, s.pc t = .push point f → t = producer
  consumer : ∀ t point f, s.pc t = .pop point f → t = consumer
  side : ∀ t, SideOk n g s.chan (s.pc t)

/-- A step outside `Push` leaves the producer head alone and can only free slots. -/
theorem LocalStep.keeps_producer (h : LocalStep ch pc event ch' pc')
    (hpc : ∀ point f, pc ≠ .push point f) (g : Ledger α) :
    ch'.prodHead = ch.prodHead ∧ (g.after event).items = g.items ∧
      g.released ≤ (g.after event).released := by
  cases h with
  | pushCall _ => exact ⟨rfl, rfl, le_rfl⟩
  | popStore _ _ => exact ⟨rfl, rfl, Nat.le_succ _⟩
  | _ => first
    | exact ⟨rfl, rfl, le_rfl⟩
    | exact absurd rfl (hpc _ _)

/-- A step outside `Pop` leaves the consumer head alone and can only publish items. -/
theorem LocalStep.keeps_consumer (h : LocalStep ch pc event ch' pc')
    (hpc : ∀ point f, pc ≠ .pop point f) (g : Ledger α) :
    ch'.consHead = ch.consHead ∧ (g.after event).claimed = g.claimed ∧
      g.published ≤ (g.after event).published := by
  cases h with
  | pushStore _ => exact ⟨rfl, rfl, Nat.le_succ _⟩
  | _ => first
    | exact ⟨rfl, rfl, le_rfl⟩
    | exact absurd rfl (hpc _ _)

/-- A thread is inside `Push` because it was before or because it has just called it. -/
theorem LocalStep.push_source {point : PushPoint} {f : PushFrame α}
    (h : LocalStep ch pc event ch' (.push point f)) :
    (∃ p f', pc = .push p f') ∨ event = .pushCall := by
  cases h with
  | pushCall _ => exact .inr rfl
  | _ => exact .inl ⟨_, _, rfl⟩

/-- A thread is inside `Pop` because it was before or because it has just called it. -/
theorem LocalStep.pop_source {point : PopPoint α} {f : PopFrame}
    (h : LocalStep ch pc event ch' (.pop point f)) :
    (∃ p f', pc = .pop p f') ∨ event = .popCall := by
  cases h with
  | popCall => exact .inr rfl
  | _ => exact .inl ⟨_, _, rfl⟩

/-- The knowledge of the thread that moves, after its step. -/
theorem LocalStep.side (h : LocalStep ch pc event ch' pc') (hring : RingOk n g ch) (hpos : 0 < n)
    (hn : n < 2 ^ 32) (hside : SideOk n g ch pc) : SideOk n (g.after event) ch' pc' := by
  cases h with
  | pushLoad | pushRetry | popLoad | popRetry => exact rfl
  | pushRoom f hroom =>
    have hhead : f.prodHead = ch.prodHead := hside
    exact ⟨hhead, hring.room_of_test hpos hn (by rwa [← hring.prodHead, ← hhead])⟩
  | popItem f hitem =>
    have hhead : f.consHead = ch.consHead := hside
    exact ⟨hhead, hring.item_of_test (by rwa [← hring.consHead, ← hhead])⟩
  | _ => trivial

/-- The knowledge of a producer survives steps that are not its own. -/
theorem SideOk.push_transport {g' : Ledger α} {point : PushPoint} {f : PushFrame α}
    (h : SideOk n g ch (.push point f)) (hhead : ch'.prodHead = ch.prodHead)
    (hitems : g'.items = g.items) (hrel : g.released ≤ g'.released) :
    SideOk n g' ch' (.push point f) := by
  cases point with
  | test => exact h.trans hhead.symm
  | cas =>
    obtain ⟨hsame, hroom⟩ := h
    exact ⟨hsame.trans hhead.symm, by rw [hitems]; omega⟩
  | _ => trivial

/-- The knowledge of a consumer survives steps that are not its own. -/
theorem SideOk.pop_transport {g' : Ledger α} {point : PopPoint α} {f : PopFrame}
    (h : SideOk n g ch (.pop point f)) (hhead : ch'.consHead = ch.consHead)
    (hclaimed : g'.claimed = g.claimed) (hpub : g.published ≤ g'.published) :
    SideOk n g' ch' (.pop point f) := by
  cases point with
  | test => exact h.trans hhead.symm
  | cas =>
    obtain ⟨hsame, hitem⟩ := h
    exact ⟨hsame.trans hhead.symm, by omega⟩
  | _ => trivial

/-- The compare-exchange of a thread that knows its side is fresh when it succeeds. -/
theorem SideOk.fresh [DecidableEq Thread] {s s' : ChannelSystem Thread α} {t : Thread}
    (hside : SideOk n g s.chan (s.pc t)) (hring : RingOk n g s.chan) (hpos : 0 < n)
    (hn : n < 2 ^ 32) (hstep : Step s (t, event) s') : Fresh s (t, event) := by
  obtain ⟨pc', hlocal, _⟩ := hstep.cases
  generalize s.pc t = pc at hlocal hside
  generalize s'.chan = ch' at hlocal
  cases hlocal with
  | pushReserve f heq =>
    obtain ⟨_, hroom⟩ := hside
    change nextIndex s.chan.size f.prodHead ≠ s.chan.consTail
    rw [hring.size, ← heq, hring.prodHead, hring.consTail, nextIndex_mod hpos hn]
    intro hmod
    have horder : g.released ≤ g.items.length :=
      (hring.released_le.trans hring.claimed_le).trans hring.published_le
    have hsame := eq_of_mod_eq (n := n) (a := g.released) (by omega) (by omega) le_rfl (by omega)
      hmod
    omega
  | popClaim f heq =>
    obtain ⟨_, hitem⟩ := hside
    change f.consHead ≠ s.chan.prodTail
    rw [← heq, hring.consHead, hring.prodTail]
    intro hmod
    have hrel := hring.released_le
    have hpub := hring.published_le
    have hsame := hring.ticket_eq hrel (by omega) (by omega) hpub hmod
    omega
  | _ => trivial

namespace SidesOk

variable {producer consumer t : Thread} {s : ChannelSystem Thread α}

/-- A new channel has no calls in progress. -/
theorem init (records : ℕ → α) :
    SidesOk n producer consumer .empty (ChannelSystem.new n records : ChannelSystem Thread α) where
  producer := by simp [ChannelSystem.new]
  consumer := by simp [ChannelSystem.new]
  side _ := trivial

/-- With no `Push` past its compare-exchange every reservation is published. -/
theorem published_eq (h : SidesOk n producer consumer g s) (hinv : ChannelInv n g s)
    {f : PushFrame α} (hpc : s.pc t = .push .test f) : g.published = g.items.length := by
  refine le_antisymm hinv.ring.published_le (hinv.producers.head_le_tail fun u => ?_)
  cases hu : s.pc u with
  | push point f' =>
    obtain rfl := (h.producer u point f' hu).trans (h.producer t .test f hpc).symm
    rw [← hu, hpc]
    rfl
  | _ => rfl

/-- With no `Pop` past its compare-exchange every claim is released. -/
theorem released_eq (h : SidesOk n producer consumer g s) (hinv : ChannelInv n g s) {f : PopFrame}
    (hpc : s.pc t = .pop .test f) : g.claimed = g.released := by
  refine le_antisymm (hinv.consumers.head_le_tail fun u => ?_) hinv.ring.released_le
  cases hu : s.pc u with
  | pop point f' =>
    obtain rfl := (h.consumer u point f' hu).trans (h.consumer t .test f hpc).symm
    rw [← hu, hpc]
    rfl
  | _ => rfl

/-- A step keeps what the other threads know, since it is not on their side. -/
theorem side_of_ne (h : SidesOk n producer consumer g s) {u : Thread}
    (hlocal : LocalStep s.chan (s.pc t) event ch' pc') (hut : u ≠ t) :
    SideOk n (g.after event) ch' (s.pc u) := by
  have hside := h.side u
  cases hu : s.pc u with
  | idle | aborted => trivial
  | push point f =>
    have hother : ∀ p f', s.pc t ≠ .push p f' := by
      intro p f' ht
      exact hut ((h.producer u point f hu).trans (h.producer t p f' ht).symm)
    obtain ⟨hhead, hitems, hrel⟩ := hlocal.keeps_producer hother g
    rw [hu] at hside
    exact hside.push_transport hhead hitems hrel
  | pop point f =>
    have hother : ∀ p f', s.pc t ≠ .pop p f' := by
      intro p f' ht
      exact hut ((h.consumer u point f hu).trans (h.consumer t p f' ht).symm)
    obtain ⟨hhead, hclaimed, hpub⟩ := hlocal.keeps_consumer hother g
    rw [hu] at hside
    exact hside.pop_transport hhead hclaimed hpub

variable [DecidableEq Thread] {s' : ChannelSystem Thread α}

/-- The roles keep each side to its thread. -/
theorem step (h : SidesOk n producer consumer g s) (hring : RingOk n g s.chan) (hpos : 0 < n)
    (hn : n < 2 ^ 32) {t : Thread} (hstep : Step s (t, event) s')
    (hrole : Roles producer consumer s (t, event)) :
    SidesOk n producer consumer (g.after event) s' := by
  obtain ⟨pc', hlocal, hpcs⟩ := hstep.cases
  refine ⟨?_, ?_, ?_⟩
  · intro u point f hu
    rw [hpcs] at hu
    by_cases hut : u = t
    · subst hut
      rw [Function.update_self] at hu
      subst hu
      rcases hlocal.push_source with ⟨p, f', hbefore⟩ | rfl
      · exact h.producer u p f' hbefore
      · exact hrole
    · rw [Function.update_of_ne hut] at hu
      exact h.producer u point f hu
  · intro u point f hu
    rw [hpcs] at hu
    by_cases hut : u = t
    · subst hut
      rw [Function.update_self] at hu
      subst hu
      rcases hlocal.pop_source with ⟨p, f', hbefore⟩ | rfl
      · exact h.consumer u p f' hbefore
      · exact hrole
    · rw [Function.update_of_ne hut] at hu
      exact h.consumer u point f hu
  · intro u
    rw [hpcs]
    by_cases hut : u = t
    · subst hut
      rw [Function.update_self]
      exact hlocal.side hring hpos hn (h.side u)
    · rw [Function.update_of_ne hut]
      exact h.side_of_ne hlocal hut

/-- The completion waits end at their first test. -/
theorem no_spin (h : SidesOk n producer consumer g s) (hinv : ChannelInv n g s)
    (hstep : Step s (t, .spin) s') : False := by
  obtain ⟨pc', hlocal, _⟩ := hstep.cases
  generalize hpc : s.pc t = pc at hlocal
  generalize s'.chan = ch' at hlocal
  cases hlocal with
  | pushSpin f hne =>
    obtain ⟨k, hk, hk', _⟩ := (hinv.pushOk hpc).ticket rfl
    obtain ⟨u, hu⟩ := hinv.producers.owned g.published le_rfl (by omega)
    cases hpu : s.pc u with
    | push point f' =>
      obtain rfl := (h.producer u point f' hpu).trans (h.producer t .wait f hpc).symm
      simp only [hpc, Pc.pushSlot, PushPoint.holds, if_true, Option.some.injEq] at hu
      exact hne (hinv.ring.prodTail.trans hu.symm)
    | _ => simp [hpu] at hu
  | popSpin f ptr hne =>
    obtain ⟨k, hk, hk', _⟩ := (hinv.popOk hpc).ticket rfl
    obtain ⟨u, hu⟩ := hinv.consumers.owned g.released le_rfl (by omega)
    cases hpu : s.pc u with
    | pop point f' =>
      obtain rfl := (h.consumer u point f' hpu).trans (h.consumer t (.wait ptr) f hpc).symm
      simp only [hpc, Pc.popSlot, PopPoint.holds, if_true, Option.some.injEq] at hu
      exact hne (hinv.ring.consTail.trans hu.symm)
    | _ => simp [hpu] at hu

/-- `Push` fails only when `n - 1` published items are not released. -/
theorem full (h : SidesOk n producer consumer g s) (hinv : ChannelInv n g s) (hpos : 0 < n)
    (hn : n < 2 ^ 32) (hstep : Step s (t, .pushFull) s') : g.published + 1 = g.released + n := by
  obtain ⟨pc', hlocal, _⟩ := hstep.cases
  have hside := h.side t
  generalize hpc : s.pc t = pc at hlocal hside
  generalize s'.chan = ch' at hlocal
  cases hlocal with
  | pushFull f hfull =>
    have hring := hinv.ring
    have hhead : f.prodHead = s.chan.prodHead := hside
    rw [hring.size, hhead, hring.prodHead, hring.consTail, nextIndex_mod hpos hn,
      ← Nat.add_mod_right g.released n] at hfull
    have hroom := hring.room
    have hpub := h.published_eq hinv hpc
    have horder := hring.released_le.trans hring.claimed_le
    have hlast := eq_of_mod_eq (n := n) (a := g.released + 1) (by omega) (by omega) (by omega)
      (by omega) hfull
    omega

/-- `Pop` fails only when every published item is released. -/
theorem empty (h : SidesOk n producer consumer g s) (hinv : ChannelInv n g s)
    (hstep : Step s (t, .popEmpty) s') : g.published = g.released := by
  obtain ⟨pc', hlocal, _⟩ := hstep.cases
  have hside := h.side t
  generalize hpc : s.pc t = pc at hlocal hside
  generalize s'.chan = ch' at hlocal
  cases hlocal with
  | popEmpty f hempty =>
    have hring := hinv.ring
    have hhead : f.consHead = s.chan.consHead := hside
    rw [hhead, hring.consHead, hring.prodTail] at hempty
    have hrel := hring.released_le
    have hclaim := hring.claimed_le
    have hsame := hring.ticket_eq hrel hinv.claimed_le_items (hrel.trans hclaim)
      hring.published_le hempty
    rw [← hsame, h.released_eq hinv hpc]

end SidesOk

/-- The items that are pushed but not popped, oldest first. -/
def History.outstanding (es : History Thread α) : List α := es.pushed.drop es.popped.length

/-- The queue operations visible in a history. -/
def observe (label : Thread × Event α) : Option (QueueEvent α) :=
  match label.2 with
  | .pushed ptr => some (.enqueued ptr)
  | .popped ptr => some (.dequeued ptr)
  | .pushFull => some .full
  | .popEmpty => some .empty
  | _ => none

namespace RunOk

variable {es : History Thread α} {s : ChannelSystem Thread α}

/-- Completed pushes are counted by the published tail. -/
theorem pushed_length (h : RunOk n es s) : es.pushed.length = es.ledger.published := by
  rw [h.history.pushed, List.length_take]
  exact min_eq_left h.inv.ring.published_le

/-- Completed pops are counted by the released tail. -/
theorem popped_length (h : RunOk n es s) : es.popped.length = es.ledger.released := by
  rw [h.history.popped, List.length_take]
  exact min_eq_left (h.inv.ring.released_le.trans h.inv.claimed_le_items)

/-- Pops return a prefix of what was pushed, and the rest is outstanding. -/
theorem popped_append_outstanding (h : RunOk n es s) : es.popped ++ es.outstanding = es.pushed := by
  have hle : es.ledger.released ≤ es.ledger.published :=
    h.inv.ring.released_le.trans h.inv.ring.claimed_le
  have hpopped : es.popped = es.pushed.take es.popped.length := by
    rw [h.popped_length, h.history.pushed, List.take_take, min_eq_left hle]
    exact h.history.popped
  calc es.popped ++ es.outstanding
      = es.pushed.take es.popped.length ++ es.pushed.drop es.popped.length := by
        rw [← hpopped, History.outstanding]
    _ = es.pushed := List.take_append_drop ..

/-- The outstanding items are the tickets between the two tails. -/
theorem outstanding_length (h : RunOk n es s) :
    es.outstanding.length = es.ledger.published - es.ledger.released := by
  rw [History.outstanding, List.length_drop, h.pushed_length, h.popped_length]

end RunOk

/-- What holds along a run with one thread on each side. -/
structure FifoRun (n : ℕ) (producer consumer : Thread) (es : History Thread α)
    (s : ChannelSystem Thread α) : Prop where
  run : RunOk n es s
  sides : SidesOk n producer consumer es.ledger s
  no_spin : ∀ label ∈ es, label.2 ≠ .spin
  full : ∀ before t rest, es = before ++ (t, .pushFull) :: rest →
    (History.outstanding before).length = n - 1
  empty : ∀ before t rest, es = before ++ (t, .popEmpty) :: rest → History.outstanding before = []

/-- A new channel starts such a run. -/
theorem FifoRun.init {producer consumer : Thread} (hpos : 0 < n) (records : ℕ → α) :
    FifoRun n producer consumer [] (ChannelSystem.new n records) where
  run := ⟨ChannelInv.init hpos records, ⟨rfl, rfl⟩, by simp⟩
  sides := SidesOk.init records
  no_spin := by simp
  full := by simp
  empty := by simp

section Runs

variable [DecidableEq Thread] {producer consumer t : Thread} {es : History Thread α}
  {s s' : ChannelSystem Thread α}

/-- A step either leaves the outstanding items alone or is a step of the bounded queue. -/
theorem queue_step (h : RunOk n es s) (hsides : SidesOk n producer consumer es.ledger s)
    (hpos : 0 < n) (hn : n < 2 ^ 32) (hstep : Step s (t, event) s')
    (hnext : RunOk n (es ++ [(t, event)]) s') :
    (observe (t, event) = none → History.outstanding (es ++ [(t, event)]) = es.outstanding) ∧
      ∀ o, observe (t, event) = some o →
        QueueStep (n - 1) es.outstanding o (History.outstanding (es ++ [(t, event)])) := by
  have hsplit := h.popped_append_outstanding
  have hsplit' := hnext.popped_append_outstanding
  have hlength := h.outstanding_length
  have hring := h.inv.ring
  have horder := hring.released_le.trans hring.claimed_le
  rw [History.pushed_snoc, History.popped_snoc, ← hsplit] at hsplit'
  have hkeep {a b c d e : List α} (heq : a ++ c ++ b = a ++ d ++ e) (hc : c = []) (he : e = []) :
      a ++ b = a ++ d := by
    simpa [hc, he] using heq
  cases event with
  | pushed ptr =>
    refine ⟨by simp [observe], ?_⟩
    rintro o ⟨⟩
    have hroom := hring.room
    have hitem := h.inv.pushed_item hstep
    obtain ⟨hlt, _⟩ := List.getElem?_eq_some_iff.mp hitem
    simp only [Event.pushedPtr, Event.poppedPtr, Option.toList_none, Option.toList_some,
      List.append_nil, List.append_assoc, List.append_cancel_left_eq] at hsplit'
    rw [hsplit']
    exact .enqueued (enqueue_eq_some_iff.mpr ⟨by omega, rfl⟩)
  | popped ptr =>
    refine ⟨by simp [observe], ?_⟩
    rintro o ⟨⟩
    simp only [Event.pushedPtr, Event.poppedPtr, Option.toList_none, Option.toList_some,
      List.append_nil, List.append_assoc, List.append_cancel_left_eq] at hsplit'
    rw [← hsplit']
    exact .dequeued
  | pushFull =>
    refine ⟨by simp [observe], ?_⟩
    rintro o ⟨⟩
    have hfull := hsides.full h.inv hpos hn hstep
    have hsame := List.append_cancel_left (hkeep hsplit' rfl rfl)
    rw [hsame]
    exact .full (by omega)
  | popEmpty =>
    refine ⟨by simp [observe], ?_⟩
    rintro o ⟨⟩
    have hempty := hsides.empty h.inv hstep
    have hnil : es.outstanding = [] := List.length_eq_zero_iff.mp (by omega)
    have hsame := List.append_cancel_left (hkeep hsplit' rfl rfl)
    rw [hsame, hnil]
    exact .empty
  | _ =>
    refine ⟨fun _ => ?_, by simp [observe]⟩
    exact List.append_cancel_left (hkeep hsplit' rfl rfl)

/-- Every step that respects the roles continues such a run. -/
theorem FifoRun.step (h : FifoRun n producer consumer es s) (hpos : 0 < n) (hn : n < 2 ^ 32)
    {label : Thread × Event α} (hstep : Step s label s') (hrole : Roles producer consumer s label) :
    FifoRun n producer consumer (es ++ [label]) s' := by
  obtain ⟨t, event⟩ := label
  have hring := h.run.inv.ring
  have hlength := h.run.outstanding_length
  refine ⟨h.run.step hpos hn hstep ((h.sides.side t).fresh hring hpos hn hstep), ?_, ?_, ?_, ?_⟩
  · rw [History.ledger_snoc]
    exact h.sides.step hring hpos hn hstep hrole
  · intro label hlabel
    rcases List.mem_append.mp hlabel with hbefore | hlast
    · exact h.no_spin label hbefore
    · obtain rfl := List.mem_singleton.mp hlast
      rintro rfl
      exact h.sides.no_spin h.run.inv hstep
  · intro before u rest hsplit
    rcases List.eq_nil_or_concat rest with rfl | ⟨init, last, rfl⟩
    · obtain ⟨rfl, hlabel⟩ := List.append_inj' hsplit rfl
      obtain ⟨rfl, rfl⟩ := Prod.mk.injEq .. ▸ List.singleton_inj.mp hlabel
      have hfull := h.sides.full h.run.inv hpos hn hstep
      omega
    · rw [List.concat_eq_append, ← List.cons_append, ← List.append_assoc] at hsplit
      obtain ⟨rfl, _⟩ := List.append_inj' hsplit rfl
      exact h.full before u init rfl
  · intro before u rest hsplit
    rcases List.eq_nil_or_concat rest with rfl | ⟨init, last, rfl⟩
    · obtain ⟨rfl, hlabel⟩ := List.append_inj' hsplit rfl
      obtain ⟨rfl, rfl⟩ := Prod.mk.injEq .. ▸ List.singleton_inj.mp hlabel
      have hempty := h.sides.empty h.run.inv hstep
      exact List.length_eq_zero_iff.mp (by omega)
    · rw [List.concat_eq_append, ← List.cons_append, ← List.append_assoc] at hsplit
      obtain ⟨rfl, _⟩ := List.append_inj' hsplit rfl
      exact h.empty before u init rfl

/-- Every run with one thread on each side. -/
theorem FifoRun.of_run (hpos : 0 < n) (hn : n < 2 ^ 32) {records : ℕ → α}
    (hrun : Run (Guarded Step (Roles producer consumer)) (ChannelSystem.new n records) es s) :
    FifoRun n producer consumer es s :=
  Run.invariant (I := FifoRun n producer consumer) (FifoRun.init hpos records)
    (fun _ _ _ _ hmid hstep => hmid.step hpos hn hstep.1 hstep.2) hrun

/-- The visible operations of every such run are a run of the bounded queue. -/
theorem FifoRun.refines (hpos : 0 < n) (hn : n < 2 ^ 32) {records : ℕ → α}
    (hrun : Run (Guarded Step (Roles producer consumer)) (ChannelSystem.new n records) es s) :
    Run (QueueStep (n - 1)) [] (es.filterMap observe) es.outstanding := by
  let R (labels : History Thread α) (mid : ChannelSystem Thread α) (queue : List α) : Prop :=
    FifoRun n producer consumer labels mid ∧ queue = labels.outstanding
  have hsim : ∃ queue, Run (QueueStep (n - 1)) [] (es.filterMap observe) queue ∧ R es s queue := by
    refine Run.simulation observe ⟨FifoRun.init hpos records, rfl⟩ ?_ ?_ hrun
    · rintro labels mid queue ⟨t, event⟩ mid' ⟨hmid, rfl⟩ ⟨hstep, hrole⟩ hsilent
      have hnext := hmid.step hpos hn hstep hrole
      exact ⟨hnext, ((queue_step hmid.run hmid.sides hpos hn hstep hnext.run).1 hsilent).symm⟩
    · rintro labels mid queue ⟨t, event⟩ mid' o ⟨hmid, rfl⟩ ⟨hstep, hrole⟩ hvisible
      have hnext := hmid.step hpos hn hstep hrole
      exact ⟨_, (queue_step hmid.run hmid.sides hpos hn hstep hnext.run).2 o hvisible, hnext, rfl⟩
  obtain ⟨queue, hqueue, _, rfl⟩ := hsim
  exact hqueue

end Runs

/-- A thread outside the three accesses that may precede a failing return. -/
def Pc.committed : Pc α → Bool
  | .push point _ => point.holds
  | .pop point _ => point.holds
  | .idle => true
  | .aborted => true

/-- Only a thread that commits changes a shared field, and it stays committed until its next
call. -/
theorem LocalStep.committed (h : LocalStep ch pc event ch' pc') (hpush : event ≠ .pushCall)
    (hpop : event ≠ .popCall) :
    (pc.committed = true → pc'.committed = true) ∧ (pc'.committed = false → ch' = ch) := by
  cases h with
  | pushCall _ => exact absurd rfl hpush
  | popCall => exact absurd rfl hpop
  | _ => simp [Pc.committed]

section Failures

variable [DecidableEq Thread] {t : Thread} {es : History Thread α}
  {s s' : ChannelSystem Thread α}

/-- A committed thread stays committed while it makes no call. -/
theorem committed_run (hrun : Run Step s es s')
    (hcalls : ∀ label ∈ es, label.1 = t → label.2 ≠ .pushCall ∧ label.2 ≠ .popCall)
    (h : (s.pc t).committed = true) : (s'.pc t).committed = true := by
  induction hrun with
  | nil => exact h
  | @snoc labels mid mid' label _ hlast ih =>
    have hmid := ih fun l hl => hcalls l (List.mem_append_left _ hl)
    obtain ⟨u, event⟩ := label
    obtain ⟨pc', hlocal, hpcs⟩ := hlast.cases
    rw [hpcs]
    by_cases hut : t = u
    · subst hut
      obtain ⟨hpush, hpop⟩ := hcalls (t, event) (by simp) rfl
      rw [Function.update_self]
      exact (hlocal.committed hpush hpop).1 hmid
    · rwa [Function.update_of_ne hut]

/-- A call of `t` that returns false: its entry, the steps of all threads while it runs, and
its return. -/
structure FailedCall (t : Thread) (entry first : ChannelSystem Thread α) (body : History Thread α)
    (last exit : ChannelSystem Thread α) : Prop where
  enter : Step entry (t, .pushCall) first ∨ Step entry (t, .popCall) first
  running : Run Step first body last
  same_call : ∀ label ∈ body, label.1 = t → label.2 ≠ .pushCall ∧ label.2 ≠ .popCall
  leave : Step last (t, .pushFull) exit ∨ Step last (t, .popEmpty) exit

/-- Entering a call and failing touch no shared field. -/
theorem quiet_label (hstep : Step s (t, event) s')
    (hevent : event = .pushCall ∨ event = .popCall ∨ event = .pushFull ∨ event = .popEmpty) :
    s'.chan = s.chan := by
  obtain ⟨pc', hlocal, _⟩ := hstep.cases
  generalize s.pc t = pc at hlocal
  generalize s'.chan = ch' at hlocal ⊢
  cases hlocal <;> first | rfl | simp at hevent

/-- A thread about to fail is not committed. -/
theorem not_committed (hstep : Step s (t, event) s')
    (hevent : event = .pushFull ∨ event = .popEmpty) : (s.pc t).committed = false := by
  obtain ⟨pc', hlocal, _⟩ := hstep.cases
  generalize s.pc t = pc at hlocal ⊢
  generalize s'.chan = ch' at hlocal
  cases hlocal <;> first | rfl | simp at hevent

/-- No step of a call that returns false changes a shared field. -/
theorem FailedCall.readOnly {entry first last exit : ChannelSystem Thread α}
    {body : History Thread α} (h : FailedCall t entry first body last exit) :
    first.chan = entry.chan ∧ exit.chan = last.chan ∧
      ∀ before event after u u', body = before ++ (t, event) :: after → Run Step first before u →
        Step u (t, event) u' → Run Step u' after last → u'.chan = u.chan := by
  refine ⟨?_, ?_, ?_⟩
  · rcases h.enter with hstep | hstep
    · exact quiet_label hstep (by simp)
    · exact quiet_label hstep (by simp)
  · rcases h.leave with hstep | hstep
    · exact quiet_label hstep (by simp)
    · exact quiet_label hstep (by simp)
  · intro before event after u u' hbody _ hstep hrest
    have hlast : (last.pc t).committed = false := by
      rcases h.leave with hleave | hleave
      · exact not_committed hleave (.inl rfl)
      · exact not_committed hleave (.inr rfl)
    have hafter : (u'.pc t).committed = false := by
      by_contra hcommitted
      have hkept := committed_run (t := t) hrest
        (fun l hl => h.same_call l (by simp [hbody, hl])) (Bool.not_eq_false _ ▸ hcommitted)
      simp [hlast] at hkept
    obtain ⟨hpush, hpop⟩ := h.same_call (t, event) (by simp [hbody]) rfl
    obtain ⟨pc', hlocal, hpcs⟩ := hstep.cases
    rw [hpcs, Function.update_self] at hafter
    exact (hlocal.committed hpush hpop).2 hafter

end Failures

/-- A channel used by one pushing and one popping thread is a bounded queue of `n - 1` items. -/
structure FifoChannel [DecidableEq Thread] (n : ℕ) (es : History Thread α)
    (s : ChannelSystem Thread α) : Prop where
  refines : Run (QueueStep (n - 1)) [] (es.filterMap observe) es.outstanding
  returned : es.popped ++ es.outstanding = es.pushed
  no_spin : ∀ label ∈ es, label.2 ≠ .spin
  full : ∀ before t rest, es = before ++ (t, .pushFull) :: rest →
    (History.outstanding before).length = n - 1
  empty : ∀ before t rest, es = before ++ (t, .popEmpty) :: rest → History.outstanding before = []
  readOnly : ∀ (t : Thread) (entry first last exit : ChannelSystem Thread α) body,
    FailedCall t entry first body last exit → first.chan = entry.chan ∧ exit.chan = last.chan ∧
      ∀ before event after u u', body = before ++ (t, event) :: after → Run Step first before u →
        Step u (t, event) u' → Run Step u' after last → u'.chan = u.chan
  space : s.Quiescent → s.chan.usedSpace = es.outstanding.length ∧
    s.chan.availSpace = s.chan.capacity - es.outstanding.length

/-- The free space is the capacity less the used space. -/
theorem availSpace_eq (hused : ch.usedSpace ≤ ch.capacity) :
    ch.availSpace = ch.capacity - ch.usedSpace := by
  have hcap : ch.capacity < 2 ^ 32 := Nat.mod_lt _ (by decide)
  have hwrap : ch.capacity + 2 ^ 64 - ch.usedSpace = (ch.capacity - ch.usedSpace) + 2 ^ 64 := by
    omega
  unfold Channel.availSpace
  change (ch.capacity + 2 ^ 64 - ch.usedSpace) % 2 ^ 64 = _
  rw [hwrap, Nat.add_mod_right]
  exact Nat.mod_eq_of_lt (by omega)

/-- With no call in progress the used space counts the outstanding items, and they fit. -/
theorem RunOk.space {k : ℕ} {es : History Thread α} {s : ChannelSystem Thread α}
    (h : RunOk (2 ^ k) es s) (hk : k ≤ 31) (hquiet : s.Quiescent) :
    s.chan.usedSpace = es.outstanding.length ∧ s.chan.usedSpace ≤ s.chan.capacity := by
  have hn : 2 ^ k < 2 ^ 32 := Nat.pow_lt_pow_right (by omega) (by omega)
  obtain ⟨hpub, _⟩ := h.inv.counters_of_quiescent hquiet
  have hroom := h.inv.ring.room
  have hlength := h.outstanding_length
  have hused : s.chan.usedSpace = es.outstanding.length := by
    rw [h.inv.usedSpace_of_quiescent hk hquiet, List.length_drop, hlength, hpub]
  have hcap : s.chan.capacity = 2 ^ k - 1 := by
    unfold Channel.capacity subU32
    rw [h.inv.ring.size, show 2 ^ k + 2 ^ 32 - 1 = (2 ^ k - 1) + 2 ^ 32 by omega,
      Nat.add_mod_right]
    exact Nat.mod_eq_of_lt (by omega)
  exact ⟨hused, by omega⟩

/-- With one thread calling `Push` and one thread calling `Pop`, possibly the same, every
interleaving of their atomic accesses refines the bounded queue of `2 ^ k - 1` items. -/
theorem channel_refines_queue [DecidableEq Thread] (k : ℕ) (hk : k ≤ 31) (records : ℕ → α)
    (producer consumer : Thread) (es : History Thread α) (s : ChannelSystem Thread α)
    (hrun : Run (Guarded Step (Roles producer consumer)) (ChannelSystem.new (2 ^ k) records) es s) :
    FifoChannel (2 ^ k) es s := by
  have hpos := Nat.two_pow_pos k
  have hn : 2 ^ k < 2 ^ 32 := Nat.pow_lt_pow_right (by omega) (by omega)
  have hfifo := FifoRun.of_run hpos hn hrun
  refine ⟨FifoRun.refines hpos hn hrun, hfifo.run.popped_append_outstanding, hfifo.no_spin,
    hfifo.full, hfifo.empty, fun _ _ _ _ _ _ hcall => hcall.readOnly, ?_⟩
  intro hquiet
  obtain ⟨hused, hfits⟩ := hfifo.run.space hk hquiet
  exact ⟨hused, by rw [availSpace_eq hfits, hused]⟩

/-- Whether a label respects the roles can be computed. -/
instance [DecidableEq Thread] (producer consumer : Thread) (s : ChannelSystem Thread α) :
    ∀ label, Decidable (Roles producer consumer s label)
  | (t, .pushCall) => inferInstanceAs (Decidable (t = producer))
  | (t, .popCall) => inferInstanceAs (Decidable (t = consumer))
  | (_, .reserve _ _) | (_, .claim _) | (_, .quiet) | (_, .spin) | (_, .abort) | (_, .wrote)
  | (_, .pushed _) | (_, .pushFull) | (_, .take _) | (_, .popped _) | (_, .popEmpty) =>
    inferInstanceAs (Decidable True)

/-- The handover between two threads is a run of the bounded queue. -/
theorem channel_refines_queue_handover :
    ∃ (es : History Bool ℕ) (s : ChannelSystem Bool ℕ),
      Run (Guarded Step (Roles false true)) (ChannelSystem.new (2 ^ 1) fun _ => 0) es s ∧
      History.popped es = [7] ∧ FifoChannel (2 ^ 1) es s := by
  have hexec : (exec (guardedNext next (Roles false true))
      (ChannelSystem.new (2 ^ 1) fun _ => 0) handover).map
      (fun result => History.popped result.1) = some [7] := by decide +kernel
  obtain ⟨es, s, hrun, hpopped⟩ := exists_guarded_run_of_exec hexec
  exact ⟨es, s, hrun, hpopped, channel_refines_queue 1 (by decide) _ false true es s hrun⟩

end Demos.Oak
