import Demos.Oak.Channel.Model
import Demos.Lib.TicketWindow

/-!
# The ring as a window of tickets

The history of a channel numbers its reservations. Producers hold the tickets between the
published tail and the producer head, consumers those between the released tail and the
consumer head, and the four wrapping indices are the four counters modulo the ring size. The
invariant is preserved by every step in which a successful compare-exchange finds its own
full or empty test still passing; a stale success is exactly what breaks it.
-/

namespace Demos.Oak

open Demos.Lib

variable {Thread α : Type*}

/-- The unbounded counters behind the ring, computed from the history. -/
structure Ledger (α : Type*) where
  items : List α
  published : ℕ
  claimed : ℕ
  released : ℕ
  occupied : ℕ → Bool

namespace Ledger

/-- Nothing has happened yet. -/
def empty : Ledger α := ⟨[], 0, 0, 0, fun _ => false⟩

/-- Account for one event. A slot is occupied from its reservation until a `Pop` reads it. -/
def after (g : Ledger α) : Event α → Ledger α
  | .reserve slot ptr =>
    { g with items := g.items ++ [ptr], occupied := Function.update g.occupied slot true }
  | .pushed _ => { g with published := g.published + 1 }
  | .claim _ => { g with claimed := g.claimed + 1 }
  | .take slot => { g with occupied := Function.update g.occupied slot false }
  | .popped _ => { g with released := g.released + 1 }
  | _ => g

end Ledger

namespace Event

/-- The item of a `Push` that returns true. -/
def pushedPtr : Event α → Option α
  | .pushed ptr => some ptr
  | _ => none

/-- The item of a `Pop` that returns true. -/
def poppedPtr : Event α → Option α
  | .popped ptr => some ptr
  | _ => none

end Event

namespace History

/-- The counters after a history. -/
def ledger (es : History Thread α) : Ledger α :=
  es.foldl (fun g label => g.after label.2) .empty

/-- The items of the completed successful `Push` calls, in completion order. -/
def pushed (es : History Thread α) : List α :=
  es.filterMap fun label => label.2.pushedPtr

/-- The items returned by the completed successful `Pop` calls, in completion order. -/
def popped (es : History Thread α) : List α :=
  es.filterMap fun label => label.2.poppedPtr

/-- The latest item reserved in a slot has not been read by a `Pop` yet. -/
def Occupied (es : History Thread α) (slot : ℕ) : Prop := es.ledger.occupied slot = true

theorem ledger_snoc (es : History Thread α) (label : Thread × Event α) :
    ledger (es ++ [label]) = (ledger es).after label.2 := by
  simp [ledger]

theorem pushed_snoc (es : History Thread α) (label : Thread × Event α) :
    pushed (es ++ [label]) = pushed es ++ label.2.pushedPtr.toList := by
  cases h : label.2.pushedPtr <;> simp [pushed, h]

theorem popped_snoc (es : History Thread α) (label : Thread × Event α) :
    popped (es ++ [label]) = popped es ++ label.2.poppedPtr.toList := by
  cases h : label.2.poppedPtr <;> simp [popped, h]

end History

/-- A `Push` past its compare-exchange owns the slot it reserved. -/
@[simp] def PushPoint.holds : PushPoint → Bool
  | .load | .test | .cas => false
  | .write | .wait | .check | .store => true

/-- A `Push` past its record access has filled its slot. -/
@[simp] def PushPoint.written : PushPoint → Bool
  | .wait | .check | .store => true
  | _ => false

namespace PopPoint

/-- A `Pop` past its compare-exchange owns the slot it claimed. -/
@[simp] def holds : PopPoint α → Bool
  | .load | .test | .cas => false
  | .read | .wait _ | .check _ | .store _ => true

/-- The value a `Pop` has read. -/
@[simp] def value : PopPoint α → Option α
  | .wait ptr | .check ptr | .store ptr => some ptr
  | _ => none

end PopPoint

namespace Pc

/-- The slot reserved by a running `Push`. -/
@[simp] def pushSlot : Pc α → Option ℕ
  | .push point f => if point.holds then some f.prodHead else none
  | _ => none

/-- The slot claimed by a running `Pop`. -/
@[simp] def popSlot : Pc α → Option ℕ
  | .pop point f => if point.holds then some f.consHead else none
  | _ => none

end Pc

/-- What the locals of a running `Push` say about its ticket. -/
structure PushOk (n : ℕ) (g : Ledger α) (ch : Channel α) (point : PushPoint)
    (f : PushFrame α) : Prop where
  next : point = .cas → f.nextProdHead = nextIndex n f.prodHead
  ticket : point.holds → ∃ k, g.published ≤ k ∧ k < g.items.length ∧ f.prodHead = k % n ∧
    f.nextProdHead = (k + 1) % n ∧ g.items[k]? = some f.ptr ∧
    (point.written → ch.records (k % n) = f.ptr) ∧ (point = .store → k = g.published)

/-- What the locals of a running `Pop` say about its ticket. -/
structure PopOk (n : ℕ) (g : Ledger α) (point : PopPoint α) (f : PopFrame) : Prop where
  next : point = .cas → f.nextConsHead = nextIndex n f.consHead
  ticket : point.holds → ∃ k, g.released ≤ k ∧ k < g.claimed ∧ f.consHead = k % n ∧
    f.nextConsHead = (k + 1) % n ∧
    (∀ ptr, point.value = some ptr → g.items[k]? = some ptr ∧ g.occupied (k % n) = false) ∧
    (∀ ptr, point = .store ptr → k = g.released)

/-- The local part of the invariant for a thread at any position. -/
def PcOk (n : ℕ) (g : Ledger α) (ch : Channel α) : Pc α → Prop
  | .push point f => PushOk n g ch point f
  | .pop point f => PopOk n g point f
  | _ => True

/-- The ring fields are the counters modulo the ring size, and at most `n - 1` tickets are
outstanding. -/
structure RingOk (n : ℕ) (g : Ledger α) (ch : Channel α) : Prop where
  size : ch.size = n
  released_le : g.released ≤ g.claimed
  claimed_le : g.claimed ≤ g.published
  published_le : g.published ≤ g.items.length
  room : g.items.length < g.released + n
  prodHead : ch.prodHead = g.items.length % n
  prodTail : ch.prodTail = g.published % n
  consHead : ch.consHead = g.claimed % n
  consTail : ch.consTail = g.released % n
  stored : ∀ k, g.released ≤ k → k < g.published → g.items[k]? = some (ch.records (k % n))
  occupied : ∀ slot, g.occupied slot = true →
    ∃ k, g.released ≤ k ∧ k < g.items.length ∧ slot = k % n

/-- The invariant of the channel and all its threads. -/
structure ChannelInv (n : ℕ) (g : Ledger α) (s : ChannelSystem Thread α) : Prop where
  ring : RingOk n g s.chan
  producers : TicketWindow n g.published g.items.length fun t => (s.pc t).pushSlot
  consumers : TicketWindow n g.released g.claimed fun t => (s.pc t).popSlot
  local_ok : ∀ t, PcOk n g s.chan (s.pc t)

/-- The full or empty test that let the thread reach its compare-exchange still passes in the
state in which that compare-exchange succeeds. -/
def Fresh (s : ChannelSystem Thread α) (label : Thread × Event α) : Prop :=
  match label.2 with
  | .reserve slot _ => nextIndex s.chan.size slot ≠ s.chan.consTail
  | .claim slot => slot ≠ s.chan.prodTail
  | _ => True

/-- On reduced indices `nextIndex` is the successor modulo the ring size. -/
theorem nextIndex_mod {n : ℕ} (hpos : 0 < n) (hn : n < 2 ^ 32) (k : ℕ) :
    nextIndex n (k % n) = (k + 1) % n := by
  have hlt := Nat.mod_lt k hpos
  have hwrap : (k % n + 1) % 2 ^ 32 = k % n + 1 := Nat.mod_eq_of_lt (by omega)
  have hsucc : (k + 1) % n = (k % n + 1) % n := by simp
  unfold nextIndex
  rw [hwrap, hsucc]
  split
  · rw [‹k % n + 1 = n›, Nat.mod_self]
  · exact (Nat.mod_eq_of_lt (by omega)).symm

namespace RingOk

variable {n : ℕ} {g : Ledger α} {ch : Channel α}

/-- Two outstanding tickets with the same slot are the same ticket. -/
theorem ticket_eq (h : RingOk n g ch) {j k : ℕ} (hj : g.released ≤ j) (hj' : j ≤ g.items.length)
    (hk : g.released ≤ k) (hk' : k ≤ g.items.length) (hmod : j % n = k % n) : j = k := by
  have hroom := h.room
  exact eq_of_mod_eq hj (by omega) hk (by omega) hmod

/-- A full test that passes leaves room for one more reservation. -/
theorem room_of_test (h : RingOk n g ch) (hpos : 0 < n) (hn : n < 2 ^ 32)
    (htest : nextIndex ch.size (g.items.length % n) ≠ ch.consTail) :
    g.items.length + 1 < g.released + n := by
  have hroom := h.room
  by_contra hfull
  apply htest
  have hlast : g.items.length + 1 = g.released + n := by omega
  rw [h.size, h.consTail, nextIndex_mod hpos hn, hlast, Nat.add_mod_right]

/-- An empty test that passes leaves a published ticket to claim. -/
theorem item_of_test (h : RingOk n g ch) (htest : g.claimed % n ≠ ch.prodTail) :
    g.claimed < g.published := by
  have hle := h.claimed_le
  have hne : g.claimed ≠ g.published := by
    intro heq
    exact htest (by rw [h.prodTail, heq])
  omega

end RingOk

end Demos.Oak
