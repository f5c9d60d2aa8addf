import Demos.Lib.Run
import Mathlib.Logic.Function.Basic
import Mathlib.Data.Nat.Bitwise

/-!
# The multi-producer multi-consumer channel, one atomic access at a time

`Channel::Push` and `Channel::Pop` of `oak/common/channel.h`. Every atomic load, every
compare-exchange, every access to `records_` and every tail store is one step of the calling
thread; the local computation between two shared accesses belongs to the step before it. The
debug assertion inside each completion-wait loop reads the tail once more and is a step as
well. Fences do nothing under sequential consistency.

`compare_exchange_weak` may fail although the values agree. The scheduler chooses such a
spurious failure together with the thread that moves next.
-/

namespace Demos.Oak

open Demos.Lib

/-- Wrapping subtraction of `uint32_t` values. -/
def subU32 (a b : ℕ) : ℕ := (a + 2 ^ 32 - b) % 2 ^ 32

/-- The shared fields of a channel. The indices are `uint32_t` values. -/
structure Channel (α : Type*) where
  size : ℕ
  records : ℕ → α
  consHead : ℕ
  consTail : ℕ
  prodHead : ℕ
  prodTail : ℕ

/-- A newly constructed channel; the record array keeps whatever it held before. -/
def Channel.new {α : Type*} (size : ℕ) (records : ℕ → α) : Channel α :=
  ⟨size, records, 0, 0, 0, 0⟩

/-- Number of used slots, read from the published tail and the consumer head. -/
def Channel.usedSpace {α : Type*} (ch : Channel α) : ℕ :=
  subU32 ch.prodTail ch.consHead &&& subU32 ch.size 1

/-- Maximum number of items. -/
def Channel.capacity {α : Type*} (ch : Channel α) : ℕ := subU32 ch.size 1

/-- Number of free slots, computed in `size_t`. -/
def Channel.availSpace {α : Type*} (ch : Channel α) : ℕ :=
  (subU32 ch.size 1 + 2 ^ 64 - ch.usedSpace) % 2 ^ 64

/-- The index after `i`, wrapping to zero at the ring size. -/
def nextIndex (size i : ℕ) : ℕ :=
  if (i + 1) % 2 ^ 32 = size then 0 else (i + 1) % 2 ^ 32

/-- The shared accesses of `Push`, in program order. -/
inductive PushPoint
  | load | test | cas | write | wait | check | store
  deriving DecidableEq

/-- The shared accesses of `Pop`; after the record has been read its value is a local. -/
inductive PopPoint (α : Type*)
  | load | test | cas | read
  | wait (ptr : α)
  | check (ptr : α)
  | store (ptr : α)

/-- Argument and locals of a running `Push`. -/
structure PushFrame (α : Type*) where
  ptr : α
  prodHead : ℕ
  nextProdHead : ℕ

/-- Locals of a running `Pop`. -/
structure PopFrame where
  consHead : ℕ
  nextConsHead : ℕ

/-- Where a thread stands: the shared access it performs next, with its locals. -/
inductive Pc (α : Type*)
  | idle
  | push (point : PushPoint) (frame : PushFrame α)
  | pop (point : PopPoint α) (frame : PopFrame)
  | aborted

/-- What a step does, as far as the history of the channel is concerned. -/
inductive Event (α : Type*)
  | pushCall
  | popCall
  | quiet
  | spin
  | abort
  | reserve (slot : ℕ) (ptr : α)
  | wrote
  | pushed (ptr : α)
  | pushFull
  | claim (slot : ℕ)
  | take (slot : ℕ)
  | popped (ptr : α)
  | popEmpty

namespace Channel

variable {α : Type*}

/-- One shared access of `Push`. -/
def pushStep (ch : Channel α) (spurious : Bool) (f : PushFrame α) :
    PushPoint → Event α × Channel α × Pc α
  | .load => (.quiet, ch, .push .test { f with prodHead := ch.prodHead })
  | .test =>
    let next := nextIndex ch.size f.prodHead
    if next = ch.consTail then (.pushFull, ch, .idle)
    else (.quiet, ch, .push .cas { f with nextProdHead := next })
  | .cas =>
    if ch.prodHead = f.prodHead ∧ spurious = false then
      (.reserve f.prodHead f.ptr, { ch with prodHead := f.nextProdHead }, .push .write f)
    else (.quiet, ch, .push .test { f with prodHead := ch.prodHead })
  | .write =>
    (.wrote, { ch with records := Function.update ch.records f.prodHead f.ptr }, .push .wait f)
  | .wait =>
    if ch.prodTail = f.prodHead then (.quiet, ch, .push .store f)
    else (.spin, ch, .push .check f)
  | .check =>
    if ch.prodTail < ch.size then (.quiet, ch, .push .wait f) else (.abort, ch, .aborted)
  | .store => (.pushed f.ptr, { ch with prodTail := f.nextProdHead }, .idle)

/-- One shared access of `Pop`. -/
def popStep (ch : Channel α) (spurious : Bool) (f : PopFrame) :
    PopPoint α → Event α × Channel α × Pc α
  | .load => (.quiet, ch, .pop .test { f with consHead := ch.consHead })
  | .test =>
    if f.consHead = ch.prodTail then (.popEmpty, ch, .idle)
    else (.quiet, ch, .pop .cas { f with nextConsHead := nextIndex ch.size f.consHead })
  | .cas =>
    if ch.consHead = f.consHead ∧ spurious = false then
      (.claim f.consHead, { ch with consHead := f.nextConsHead }, .pop .read f)
    else (.quiet, ch, .pop .test { f with consHead := ch.consHead })
  | .read => (.take f.consHead, ch, .pop (.wait (ch.records f.consHead)) f)
  | .wait ptr =>
    if ch.consTail = f.consHead then (.quiet, ch, .pop (.store ptr) f)
    else (.spin, ch, .pop (.check ptr) f)
  | .check ptr =>
    if ch.consTail < ch.size then (.quiet, ch, .pop (.wait ptr) f) else (.abort, ch, .aborted)
  | .store ptr => (.popped ptr, { ch with consTail := f.nextConsHead }, .idle)

end Channel

/-- A channel together with all the threads that use it. -/
structure ChannelSystem (Thread α : Type*) where
  chan : Channel α
  pc : Thread → Pc α

/-- The scheduler's choices: a thread enters a call, or performs its next shared access. -/
inductive Action (Thread α : Type*)
  | push (thread : Thread) (ptr : α)
  | pop (thread : Thread)
  | run (thread : Thread) (spurious : Bool)

/-- The labels of a run: who moved and what happened. -/
abbrev History (Thread α : Type*) := List (Thread × Event α)

namespace ChannelSystem

variable {Thread α : Type*} [DecidableEq Thread]

/-- All threads idle on a new channel. -/
def new (size : ℕ) (records : ℕ → α) : ChannelSystem Thread α :=
  ⟨Channel.new size records, fun _ => .idle⟩

/-- Record the outcome of one shared access of `thread`. -/
def move (s : ChannelSystem Thread α) (thread : Thread) (out : Event α × Channel α × Pc α) :
    (Thread × Event α) × ChannelSystem Thread α :=
  ((thread, out.1), ⟨out.2.1, Function.update s.pc thread out.2.2⟩)

/-- The step chosen by the scheduler, if the thread can make it. -/
def next (s : ChannelSystem Thread α) :
    Action Thread α → Option ((Thread × Event α) × ChannelSystem Thread α)
  | .push thread ptr =>
    match s.pc thread with
    | .idle => some (s.move thread (.pushCall, s.chan, .push .load ⟨ptr, 0, 0⟩))
    | _ => none
  | .pop thread =>
    match s.pc thread with
    | .idle => some (s.move thread (.popCall, s.chan, .pop .load ⟨0, 0⟩))
    | _ => none
  | .run thread spurious =>
    match s.pc thread with
    | .push point f => some (s.move thread (s.chan.pushStep spurious f point))
    | .pop point f => some (s.move thread (s.chan.popStep spurious f point))
    | _ => none

/-- The interleaving semantics: any thread may move, in any order. -/
def Step : ChannelSystem Thread α → Thread × Event α → ChannelSystem Thread α → Prop :=
  Moves next

/-- No call is in progress. -/
def Quiescent (s : ChannelSystem Thread α) : Prop := ∀ t, s.pc t = .idle

end ChannelSystem

/-- The possible outcomes of one step of a thread, on the channel and its own position. -/
inductive LocalStep {α : Type*} (ch : Channel α) : Pc α → Event α → Channel α → Pc α → Prop
  | pushCall (ptr : α) : LocalStep ch .idle .pushCall ch (.push .load ⟨ptr, 0, 0⟩)
  | pushLoad (f : PushFrame α) :
      LocalStep ch (.push .load f) .quiet ch (.push .test { f with prodHead := ch.prodHead })
  | pushFull (f : PushFrame α) (hfull : nextIndex ch.size f.prodHead = ch.consTail) :
      LocalStep ch (.push .test f) .pushFull ch .idle
  | pushRoom (f : PushFrame α) (hroom : nextIndex ch.size f.prodHead ≠ ch.consTail) :
      LocalStep ch (.push .test f) .quiet ch
        (.push .cas { f with nextProdHead := nextIndex ch.size f.prodHead })
  | pushReserve (f : PushFrame α) (heq : ch.prodHead = f.prodHead) :
      LocalStep ch (.push .cas f) (.reserve f.prodHead f.ptr)
        { ch with prodHead := f.nextProdHead } (.push .write f)
  | pushRetry (f : PushFrame α) :
      LocalStep ch (.push .cas f) .quiet ch (.push .test { f with prodHead := ch.prodHead })
  | pushWrite (f : PushFrame α) :
      LocalStep ch (.push .write f) .wrote
        { ch with records := Function.update ch.records f.prodHead f.ptr } (.push .wait f)
  | pushSpin (f : PushFrame α) (hne : ch.prodTail ≠ f.prodHead) :
      LocalStep ch (.push .wait f) .spin ch (.push .check f)
  | pushTurn (f : PushFrame α) (heq : ch.prodTail = f.prodHead) :
      LocalStep ch (.push .wait f) .quiet ch (.push .store f)
  | pushCheck (f : PushFrame α) : LocalStep ch (.push .check f) .quiet ch (.push .wait f)
  | pushAbort (f : PushFrame α) (hbad : ¬ ch.prodTail < ch.size) :
      LocalStep ch (.push .check f) .abort ch .aborted
  | pushStore (f : PushFrame α) :
      LocalStep ch (.push .store f) (.pushed f.ptr) { ch with prodTail := f.nextProdHead } .idle
  | popCall : LocalStep ch .idle .popCall ch (.pop .load ⟨0, 0⟩)
  | popLoad (f : PopFrame) :
      LocalStep ch (.pop .load f) .quiet ch (.pop .test { f with consHead := ch.consHead })
  | popEmpty (f : PopFrame) (hempty : f.consHead = ch.prodTail) :
      LocalStep ch (.pop .test f) .popEmpty ch .idle
  | popItem (f : PopFrame) (hitem : f.consHead ≠ ch.prodTail) :
      LocalStep ch (.pop .test f) .quiet ch
        (.pop .cas { f with nextConsHead := nextIndex ch.size f.consHead })
  | popClaim (f : PopFrame) (heq : ch.consHead = f.consHead) :
      LocalStep ch (.pop .cas f) (.claim f.consHead) { ch with consHead := f.nextConsHead }
        (.pop .read f)
  | popRetry (f : PopFrame) :
      LocalStep ch (.pop .cas f) .quiet ch (.pop .test { f with consHead := ch.consHead })
  | popRead (f : PopFrame) :
      LocalStep ch (.pop .read f) (.take f.consHead) ch (.pop (.wait (ch.records f.consHead)) f)
  | popSpin (f : PopFrame) (ptr : α) (hne : ch.consTail ≠ f.consHead) :
      LocalStep ch (.pop (.wait ptr) f) .spin ch (.pop (.check ptr) f)
  | popTurn (f : PopFrame) (ptr : α) (heq : ch.consTail = f.consHead) :
      LocalStep ch (.pop (.wait ptr) f) .quiet ch (.pop (.store ptr) f)
  | popCheck (f : PopFrame) (ptr : α) :
      LocalStep ch (.pop (.check ptr) f) .quiet ch (.pop (.wait ptr) f)
  | popAbort (f : PopFrame) (ptr : α) (hbad : ¬ ch.consTail < ch.size) :
      LocalStep ch (.pop (.check ptr) f) .abort ch .aborted
  | popStore (f : PopFrame) (ptr : α) :
      LocalStep ch (.pop (.store ptr) f) (.popped ptr) { ch with consTail := f.nextConsHead } .idle

namespace Channel

variable {α : Type*}

/-- Every outcome of a `Push` access is one of the listed ones. -/
theorem pushStep_local (ch : Channel α) (spurious : Bool) (f : PushFrame α) (point : PushPoint) :
    LocalStep ch (.push point f) (ch.pushStep spurious f point).1
      (ch.pushStep spurious f point).2.1 (ch.pushStep spurious f point).2.2 := by
  cases point with
  | load => exact .pushLoad f
  | test =>
    simp only [pushStep]
    split
    · exact .pushFull f ‹_›
    · exact .pushRoom f ‹_›
  | cas =>
    simp only [pushStep]
    split
    · exact .pushReserve f (And.left ‹_›)
    · exact .pushRetry f
  | write => exact .pushWrite f
  | wait =>
    simp only [pushStep]
    split
    · exact .pushTurn f ‹_›
    · exact .pushSpin f ‹_›
  | check =>
    simp only [pushStep]
    split
    · exact .pushCheck f
    · exact .pushAbort f ‹_›
  | store => exact .pushStore f

/-- Every outcome of a `Pop` access is one of the listed ones. -/
theorem popStep_local (ch : Channel α) (spurious : Bool) (f : PopFrame) (point : PopPoint α) :
    LocalStep ch (.pop point f) (ch.popStep spurious f point).1
      (ch.popStep spurious f point).2.1 (ch.popStep spurious f point).2.2 := by
  cases point with
  | load => exact .popLoad f
  | test =>
    simp only [popStep]
    split
    · exact .popEmpty f ‹_›
    · exact .popItem f ‹_›
  | cas =>
    simp only [popStep]
    split
    · exact .popClaim f (And.left ‹_›)
    · exact .popRetry f
  | read => exact .popRead f
  | wait ptr =>
    simp only [popStep]
    split
    · exact .popTurn f ptr ‹_›
    · exact .popSpin f ptr ‹_›
  | check ptr =>
    simp only [popStep]
    split
    · exact .popCheck f ptr
    · exact .popAbort f ptr ‹_›
  | store ptr => exact .popStore f ptr

end Channel

namespace ChannelSystem

variable {Thread α : Type*} [DecidableEq Thread]

/-- A step is a local outcome of one thread; every other thread stays where it is. -/
theorem Step.cases {s s' : ChannelSystem Thread α} {t : Thread} {event : Event α}
    (h : Step s (t, event) s') :
    ∃ pc', LocalStep s.chan (s.pc t) event s'.chan pc' ∧ s'.pc = Function.update s.pc t pc' := by
  obtain ⟨action, hnext⟩ := h
  cases action with
  | push thread ptr =>
    cases hpc : s.pc thread with
    | idle =>
      simp only [next, hpc, move, Option.some.injEq, Prod.mk.injEq] at hnext
      obtain ⟨⟨rfl, rfl⟩, rfl⟩ := hnext
      exact ⟨_, hpc ▸ .pushCall ptr, rfl⟩
    | push | pop | aborted => simp [next, hpc] at hnext
  | pop thread =>
    cases hpc : s.pc thread with
    | idle =>
      simp only [next, hpc, move, Option.some.injEq, Prod.mk.injEq] at hnext
      obtain ⟨⟨rfl, rfl⟩, rfl⟩ := hnext
      exact ⟨_, hpc ▸ .popCall, rfl⟩
    | push | pop | aborted => simp [next, hpc] at hnext
  | run thread spurious =>
    cases hpc : s.pc thread with
    | idle | aborted => simp [next, hpc] at hnext
    | push point f =>
      simp only [next, hpc, move, Option.some.injEq, Prod.mk.injEq] at hnext
      obtain ⟨⟨rfl, rfl⟩, rfl⟩ := hnext
      exact ⟨_, hpc ▸ s.chan.pushStep_local spurious f point, rfl⟩
    | pop point f =>
      simp only [next, hpc, move, Option.some.injEq, Prod.mk.injEq] at hnext
      obtain ⟨⟨rfl, rfl⟩, rfl⟩ := hnext
      exact ⟨_, hpc ▸ s.chan.popStep_local spurious f point, rfl⟩

end ChannelSystem

end Demos.Oak
