import Demos.Oak.Worker.Ownership

/-!
# Dispatch of records

A source or a parser thread offers a record to the threads downstream, from the offset on that the
last record left. The loop does not start over at the first thread: it finds a thread exactly if one
at the offset or behind it is available, and a record is discarded while an earlier thread waits.
-/

namespace Demos.Oak

open Demos.Lib

variable {Handle : Type} {down : Downstream}

/-- The thread runs and its channel is not full. -/
def Downstream.Available (down : Downstream) (i : ℕ) : Prop :=
  down.running i = true ∧ down.accepts i = true

/-- What a dispatch among the first `num` threads is for: the record goes to one available thread,
it is discarded only if there is none, and the offset is in range again. -/
structure Dispatched (down : Downstream) (num ptr : ℕ) (effects : List Effect) (offset : ℕ) :
    Prop where
  delivered : (∃ i < num, down.Available i) →
    ∃ i < num, down.Available i ∧ touching ptr effects = [.pushed i ptr]
  discarded : (¬ ∃ i < num, down.Available i) → ReleasedOnce ptr effects
  offset_lt : offset < num

/-- Some thread from the offset on is available, or none at all is. -/
def WithinReach (down : Downstream) (num offset : ℕ) : Prop :=
  (∃ i < num, offset ≤ i ∧ down.Available i) ∨ ¬ ∃ i < num, down.Available i

/-- The loop ends at the first available thread, or behind the last thread. -/
theorem deliver_cases (down : Downstream) (fuel offset : ℕ) :
    (∃ i, offset ≤ i ∧ i < offset + fuel ∧ down.Available i ∧
        deliver down fuel offset = (some i, i)) ∨
      ((∀ i, offset ≤ i → i < offset + fuel → ¬ down.Available i) ∧
        deliver down fuel offset = (none, offset + fuel)) := by
  induction fuel generalizing offset with
  | zero => exact .inr ⟨fun i hle hlt => by omega, rfl⟩
  | succ fuel ih =>
    rw [deliver]
    by_cases hready : down.Available offset
    · refine .inl ⟨offset, le_refl offset, by omega, hready, ?_⟩
      rw [if_pos (by rw [hready.1, hready.2]; rfl)]
    · have hskip : ¬ (down.running offset && down.accepts offset) = true := by
        rw [Bool.and_eq_true]
        exact hready
      rw [if_neg hskip]
      obtain ⟨i, hle, hlt, havailable, heq⟩ | ⟨hnone, heq⟩ := ih (offset + 1)
      · exact .inl ⟨i, by omega, by omega, havailable, heq⟩
      · refine .inr ⟨?_, by rw [heq, Nat.add_right_comm, Nat.add_assoc]⟩
        intro i hle hlt
        obtain rfl | hlater := Nat.eq_or_lt_of_le hle
        · exact hready
        · exact hnone i hlater (by omega)

theorem touching_delivery (ptr : ℕ) (channel : Option ℕ) :
    touching ptr (.obtained ptr :: deliveryEffects ptr channel) = deliveryEffects ptr channel := by
  cases channel <;> simp [touching, deliveryEffects, Effect.touches]

/-- A dispatch from an offset in range does what it is for exactly if a thread is within reach. -/
theorem dispatched_iff {num ptr offset : ℕ} (hoffset : offset < num) :
    Dispatched down num ptr
        (.obtained ptr :: deliveryEffects ptr (deliver down (num - offset) offset).1)
        (wrapOffset num (deliver down (num - offset) offset).2) ↔
      WithinReach down num offset := by
  have hnum : offset + (num - offset) = num := by omega
  obtain ⟨i, hle, hlt, havailable, heq⟩ | ⟨hnone, heq⟩ :=
    deliver_cases down (num - offset) offset
  · rw [hnum] at hlt
    rw [heq]
    have hwrap : wrapOffset num i = i := if_neg (by omega)
    refine iff_of_true ⟨?_, ?_, ?_⟩ (.inl ⟨i, hlt, hle, havailable⟩)
    · intro _
      exact ⟨i, hlt, havailable, touching_delivery ptr (some i)⟩
    · intro hnot
      exact absurd ⟨i, hlt, havailable⟩ hnot
    · rw [hwrap]
      exact hlt
  · rw [hnum] at hnone heq
    rw [heq]
    have hwrap : wrapOffset num num = 0 := if_pos (le_refl num)
    have hnot : ¬ ∃ i < num, offset ≤ i ∧ down.Available i := by
      rintro ⟨i, hlt, hle, havailable⟩
      exact hnone i hle hlt havailable
    rw [WithinReach, or_iff_right hnot]
    constructor
    · rintro ⟨hdelivered, -, -⟩ hsome
      obtain ⟨i, -, -, htouching⟩ := hdelivered hsome
      rw [touching_delivery] at htouching
      simp [deliveryEffects] at htouching
    · intro hempty
      refine ⟨fun hsome => absurd hsome hempty, fun _ => touching_delivery ptr none, ?_⟩
      rw [hwrap]
      omega

/-- An iteration that reads a record dispatches it. -/
theorem sourceIterate_reads {thread : SourceThread} {input : SourceInput}
    (hhandle : thread.hasHandle = true) (hread : input.readOk = true) :
    sourceIterate thread input =
      (.obtained input.ptr :: deliveryEffects input.ptr
          (deliver input.parsers (thread.numParser - thread.offset) thread.offset).1,
        { thread with
          errorCount := 0
          offset := wrapOffset thread.numParser
            (deliver input.parsers (thread.numParser - thread.offset) thread.offset).2 }) := by
  unfold sourceIterate
  rw [if_neg (by simp [hhandle, hread])]

/-- The report at the start of an iteration leaves the sinks and the offset. -/
theorem ParserThread.reportDue_offset (thread : ParserThread Handle) (input : ParserInput) :
    (thread.reportDue input).numSink = thread.numSink ∧
      (thread.reportDue input).offset = thread.offset := by
  unfold reportDue
  split
  · exact ⟨rfl, rfl⟩
  · exact ⟨rfl, rfl⟩

/-- The record at the head of the stream has a parser, and parsing it succeeds with fields. -/
def ParserThread.Parses (thread : ParserThread Handle) (input : ParserInput) (record : Metadata) :
    Prop :=
  thread.context.handles.isEmpty = false ∧ thread.stream.head? = some record ∧
    record.protocolType ∈ thread.context.handles ∧ input.res = 0 ∧ input.fieldsSize ≠ 0

/-- An iteration that parses a record dispatches it. -/
theorem parserIterate_parses {thread : ParserThread Handle} {input : ParserInput}
    {record : Metadata} (hparses : thread.Parses input record) :
    (parserIterate thread input).1 = .obtained record.ptr :: deliveryEffects record.ptr
        (deliver input.sinks (thread.numSink - thread.offset) thread.offset).1 ∧
      (parserIterate thread input).2.offset = wrapOffset thread.numSink
        (deliver input.sinks (thread.numSink - thread.offset) thread.offset).2 := by
  obtain ⟨hne, hhead, hmem, hres, hfields⟩ := hparses
  obtain ⟨rest, hstream⟩ : ∃ rest, thread.stream = record :: rest := by
    cases hcons : thread.stream with
    | nil => simp [hcons] at hhead
    | cons first rest =>
      rw [hcons, List.head?_cons, Option.some.injEq] at hhead
      exact ⟨rest, by rw [hhead]⟩
  obtain ⟨hhandles, hstream'⟩ := thread.reportDue_frame input
  obtain ⟨hsinks, hoffset⟩ := thread.reportDue_offset input
  rw [← hhandles] at hne hmem
  rw [← hstream'] at hstream
  rw [← hsinks, ← hoffset]
  unfold parserIterate
  simp only [hne, hstream, ParserThread.handleRecord, if_pos hmem, ParserThread.parseRecord]
  rw [if_neg (by simp [hres, hfields])]
  exact ⟨rfl, rfl⟩

/-- A source thread and a parser thread dispatch a record as they should exactly if a thread from
the offset on is available or none at all is. -/
theorem dispatch_iff_withinReach :
    (∀ (thread : SourceThread) (input : SourceInput), thread.hasHandle = true →
      input.readOk = true → thread.offset < thread.numParser →
      (Dispatched input.parsers thread.numParser input.ptr (sourceIterate thread input).1
          (sourceIterate thread input).2.offset ↔
        WithinReach input.parsers thread.numParser thread.offset)) ∧
    ∀ (thread : ParserThread Handle) (input : ParserInput) (record : Metadata),
      thread.Parses input record → thread.offset < thread.numSink →
      (Dispatched input.sinks thread.numSink record.ptr (parserIterate thread input).1
          (parserIterate thread input).2.offset ↔
        WithinReach input.sinks thread.numSink thread.offset) := by
  refine ⟨?_, ?_⟩
  · intro thread input hhandle hread hoffset
    rw [sourceIterate_reads hhandle hread]
    exact dispatched_iff hoffset
  · intro thread input record hparses hoffset
    obtain ⟨heffects, hafter⟩ := parserIterate_parses hparses
    rw [heffects, hafter]
    exact dispatched_iff hoffset

/-- All threads run and only this one has room. -/
def onlyAccepts (i : ℕ) : Downstream where
  running _ := true
  accepts j := j = i

/-- A new source thread with two parser threads downstream. -/
def twoParsers : SourceThread where
  hasHandle := true
  numParser := 2
  offset := 0
  errorCount := 0

/-- The second of two parser threads has room, and the record goes there. -/
theorem dispatch_iff_withinReach_second :
    Dispatched (onlyAccepts 1) 2 7 (sourceIterate twoParsers ⟨true, 7, onlyAccepts 1⟩).1
        (sourceIterate twoParsers ⟨true, 7, onlyAccepts 1⟩).2.offset ∧
      Dispatched allReady 1 1 (parserIterate (oneRecord 6) parsesRecord).1
        (parserIterate (oneRecord 6) parsesRecord).2.offset := by
  have hsecond : WithinReach (onlyAccepts 1) 2 0 :=
    .inl ⟨1, by decide, by decide, rfl, rfl⟩
  have hfirst : WithinReach allReady 1 0 := .inl ⟨0, by decide, le_refl 0, rfl, rfl⟩
  have hparses : (oneRecord 6).Parses parsesRecord ⟨1, 6, 100, 20, 1⟩ :=
    ⟨by decide, rfl, by decide, rfl, by decide⟩
  exact ⟨((@dispatch_iff_withinReach ℕ).1 twoParsers ⟨true, 7, onlyAccepts 1⟩ rfl rfl
      (by decide)).mpr hsecond,
    (dispatch_iff_withinReach.2 (oneRecord 6) parsesRecord _ hparses (by decide)).mpr hfirst⟩

/-- After a record for the second parser thread, the next one is discarded although the first parser
thread has room. -/
theorem dispatch_discards_behind_offset :
    ¬ ∀ (thread : SourceThread) (input : SourceInput), thread.hasHandle = true →
      input.readOk = true → thread.offset < thread.numParser →
      Dispatched input.parsers thread.numParser input.ptr (sourceIterate thread input).1
        (sourceIterate thread input).2.offset := by
  intro hall
  have hdispatched := hall (sourceIterate twoParsers ⟨true, 7, onlyAccepts 1⟩).2
    ⟨true, 8, onlyAccepts 0⟩ rfl rfl (by decide)
  obtain ⟨i, -, -, htouching⟩ := hdispatched.delivered ⟨0, by decide, rfl, rfl⟩
  have hreleased : touching 8 (sourceIterate (sourceIterate twoParsers
      ⟨true, 7, onlyAccepts 1⟩).2 ⟨true, 8, onlyAccepts 0⟩).1 =
      [.contentsFreed 8, .deleted 8] := by
    decide
  rw [hreleased] at htouching
  simp at htouching

end Demos.Oak
