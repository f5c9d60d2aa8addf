import Demos.Lib.Allocator
import Demos.Lib.SlotLoop
import Mathlib.Data.Finset.Insert

/-!
# Handing out logic cores

`System::GetNextAvailLogicCore` scans the table of logic cores for one that is enabled, suits the
hint and is not locked, and locks it. The first call initialises the table from the file system,
behind the guard of a static variable. Each look at an entry of the table is a step of the calling
thread; its compare-exchange is the only access to something that changes.

Every run is one of an allocator that answers each call at once.
-/

namespace Demos.Oak

open Demos.Lib

/-- `LogicCore`. -/
structure LogicCore where
  logicCoreId : ℤ
  mask : Finset ℕ
  socketId : ℤ

/-- `LogicCoreWrapper`. -/
structure LogicCoreWrapper where
  enable : Bool
  lock : Bool
  core : LogicCore

/-- `OAK_MAX_NUMA_NODES`. -/
def maxNumaNodes : ℕ := 8

/-- `OAK_MAX_LOGIC_CORES`. -/
def maxLogicCores : ℕ := 128

/-- `g_logic_core`, by index. -/
abbrev CoreTable := ℕ → LogicCoreWrapper

section Layout

/-- `InitLogicCore`. -/
def initLogicCore (logicCore : CoreTable) (size : ℕ) : CoreTable :=
  (List.range size).foldl (fun table i => Function.update table i ⟨false, false, ⟨i, ∅, 0⟩⟩)
    logicCore

/-- `OAK_SYS_CPU_DIR "cpu%d" OAK_SYS_CORE_ID`. -/
def coreIdPath (i : ℕ) : String :=
  "/sys/devices/system/cpu/" ++ "cpu" ++ toString i ++ "/topology/core_id"

/-- `OAK_SYS_CPU_DIR "cpu%d/node%d"`. -/
def nodePath (i j : ℕ) : String :=
  "/sys/devices/system/cpu/" ++ "cpu" ++ toString i ++ "/node" ++ toString j

variable (isExists : String → Bool)

/-- The first node that has an entry for the core. -/
def findNode (i : ℕ) : Option ℕ := (List.range maxNumaNodes).find? fun j => isExists (nodePath i j)

/-- What the loop of `InitCpuLayout` does to the entry of one core. -/
def enableCore (i : ℕ) (wrapper : LogicCoreWrapper) : LogicCoreWrapper :=
  if isExists (coreIdPath i) then
    let core := { wrapper.core with mask := insert i wrapper.core.mask }
    match findNode isExists i with
    | some j => { wrapper with enable := true, core := { core with socketId := j } }
    | none => { wrapper with enable := true, core := core }
  else wrapper

/-- `InitCpuLayout`. -/
def initCpuLayout (table : CoreTable) : CoreTable :=
  (List.range maxLogicCores).foldl
    (fun table i => Function.update table i (enableCore isExists i (table i)))
    (initLogicCore table maxLogicCores)

end Layout

section Calls

variable {T : Type*} [DecidableEq T]

/-- Where a thread is: in no call, or in the loop at an index. -/
inductive CorePc
  | idle
  | scanning (hint : ℤ) (i : ℕ)

/-- The static variable `done`, the table and the threads. -/
structure CoreSystem (T : Type*) where
  done : Bool
  table : CoreTable
  pc : T → CorePc

/-- A thread calls with a hint, or goes on. -/
inductive CoreAction (T : Type*)
  | call (t : T) (hint : ℤ)
  | look (t : T)

/-- What a step did; a call returns the index of its core or a null pointer. -/
inductive CoreLabel (T : Type*)
  | called (t : T) (hint : ℤ)
  | passed (t : T) (i : ℕ)
  | returned (t : T) (hint : ℤ) (core : Option ℕ)

/-- `System::GetNextAvailLogicCore`, one step at a time. -/
def getNextAvailLogicCore (isExists : String → Bool) (s : CoreSystem T) :
    CoreAction T → Option (CoreLabel T × CoreSystem T)
  | .call t hint =>
    match s.pc t with
    | .idle =>
      let table := if s.done then s.table else initCpuLayout isExists s.table
      some (.called t hint, ⟨true, table, Function.update s.pc t (.scanning hint 0)⟩)
    | .scanning _ _ => none
  | .look t =>
    match s.pc t with
    | .idle => none
    | .scanning hint i =>
      if i < maxLogicCores then
        let lcoreWrapper := s.table i
        let pass :=
          some (.passed t i, { s with pc := Function.update s.pc t (.scanning hint (i + 1)) })
        if !lcoreWrapper.enable then pass
        else if hint ≥ 0 ∧ lcoreWrapper.core.logicCoreId < hint then pass
        else if lcoreWrapper.lock then pass
        else some (.returned t hint (some i),
          { s with
            table := Function.update s.table i { lcoreWrapper with lock := true }
            pc := Function.update s.pc t .idle })
      else some (.returned t hint none, { s with pc := Function.update s.pc t .idle })

/-- The table in static storage, before the first call. -/
def CoreSystem.initial : CoreSystem T := ⟨false, fun _ => ⟨false, false, ⟨0, ∅, 0⟩⟩, fun _ => .idle⟩

end Calls

section Answers

variable {T : Type*}

/-- The cores that calls have returned. -/
def handedOut (labels : List (CoreLabel T)) : List ℕ :=
  labels.filterMap fun
    | .returned _ _ core => core
    | _ => none

/-- The answer that a step gives. -/
def answer : CoreLabel T → Option (ℤ × Option ℕ)
  | .returned _ hint core => some (hint, core)
  | _ => none

/-- The cores that were handed out are those of the answers. -/
theorem handedOut_eq (labels : List (CoreLabel T)) :
    handedOut labels = Allocator.granted (labels.filterMap answer) := by
  rw [handedOut, Allocator.granted, List.filterMap_filterMap]
  refine List.filterMap_congr fun label _ => ?_
  cases label <;> rfl

end Answers

section Initialisation

variable {isExists : String → Bool} {table : CoreTable} {i : ℕ}

/-- `InitLogicCore` writes each entry. -/
theorem initLogicCore_eq (table : CoreTable) (size : ℕ) :
    initLogicCore table size =
      fun i => if i < size then ⟨false, false, ⟨i, ∅, 0⟩⟩ else table i :=
  foldl_update (fun (i : ℕ) (_ : LogicCoreWrapper) => ⟨false, false, ⟨i, ∅, 0⟩⟩) size table

/-- The enabled cores are those of the file system, and each entry has its index as its number. -/
def HasLayout (isExists : String → Bool) (table : CoreTable) : Prop :=
  ∀ i < maxLogicCores,
    (table i).enable = isExists (coreIdPath i) ∧ (table i).core.logicCoreId = i

/-- `InitCpuLayout` writes the layout, with all locks free. -/
theorem initCpuLayout_spec (isExists : String → Bool) (table : CoreTable) :
    HasLayout isExists (initCpuLayout isExists table) ∧
      ∀ i < maxLogicCores, (initCpuLayout isExists table i).lock = false := by
  have hentry : ∀ i < maxLogicCores, initCpuLayout isExists table i =
      enableCore isExists i ⟨false, false, ⟨i, ∅, 0⟩⟩ := by
    intro i hi
    rw [initCpuLayout, foldl_update, initLogicCore_eq]
    simp only [hi, if_true]
  constructor
  · intro i hi
    rw [hentry i hi, enableCore]
    cases hexists : isExists (coreIdPath i) <;> cases findNode isExists i <;> exact ⟨rfl, rfl⟩
  · intro i hi
    rw [hentry i hi, enableCore]
    cases isExists (coreIdPath i) <;> cases findNode isExists i <;> rfl

end Initialisation

section Refinement

variable {T : Type*} [DecidableEq T] {isExists : String → Bool} {s s' : CoreSystem T}
  {label : CoreLabel T} {labels : List (CoreLabel T)} {taken : Set ℕ} {t : T} {hint : ℤ} {i : ℕ}

/-- The cores that a call with this hint may return. -/
def Suits (isExists : String → Bool) (hint : ℤ) (i : ℕ) : Prop :=
  i < maxLogicCores ∧ isExists (coreIdPath i) = true ∧ hint ≤ i

/-- The cases of a step. -/
inductive CoreStep (isExists : String → Bool) (s : CoreSystem T) :
    CoreLabel T → CoreSystem T → Prop
  | call (t : T) (hint : ℤ) : s.pc t = .idle →
      CoreStep isExists s (.called t hint)
        ⟨true, if s.done then s.table else initCpuLayout isExists s.table,
          Function.update s.pc t (.scanning hint 0)⟩
  | pass (t : T) (hint : ℤ) (i : ℕ) : s.pc t = .scanning hint i → i < maxLogicCores →
      ((s.table i).enable = false ∨ (s.table i).core.logicCoreId < hint ∨
        (s.table i).lock = true) →
      CoreStep isExists s (.passed t i)
        { s with pc := Function.update s.pc t (.scanning hint (i + 1)) }
  | grant (t : T) (hint : ℤ) (i : ℕ) : s.pc t = .scanning hint i → i < maxLogicCores →
      (s.table i).enable = true → (0 ≤ hint → hint ≤ (s.table i).core.logicCoreId) →
      (s.table i).lock = false →
      CoreStep isExists s (.returned t hint (some i))
        { s with
          table := Function.update s.table i { s.table i with lock := true }
          pc := Function.update s.pc t .idle }
  | refuse (t : T) (hint : ℤ) (i : ℕ) : s.pc t = .scanning hint i → maxLogicCores ≤ i →
      CoreStep isExists s (.returned t hint none) { s with pc := Function.update s.pc t .idle }

/-- A step is one of the cases. -/
theorem CoreStep.of_moves (h : Moves (getNextAvailLogicCore isExists) s label s') :
    CoreStep isExists s label s' := by
  obtain ⟨action, haction⟩ := h
  cases action with
  | call t hint =>
    simp only [getNextAvailLogicCore] at haction
    split at haction
    next hpc =>
      cases haction
      exact .call t hint hpc
    next => simp at haction
  | look t =>
    simp only [getNextAvailLogicCore] at haction
    split at haction
    next => simp at haction
    next hint i hpc =>
      split at haction
      next hi =>
        split at haction
        next henable =>
          cases haction
          exact .pass t hint i hpc hi (.inl (by simpa using henable))
        next henable =>
          split at haction
          next hbelow =>
            cases haction
            exact .pass t hint i hpc hi (.inr (.inl hbelow.2))
          next hsuits =>
            split at haction
            next hlock =>
              cases haction
              exact .pass t hint i hpc hi (.inr (.inr hlock))
            next hlock =>
              cases haction
              exact .grant t hint i hpc hi (by simpa using henable)
                (fun hpos => not_lt.mp fun hlt => hsuits ⟨hpos, hlt⟩) (by simpa using hlock)
      next hi =>
        cases haction
        exact .refuse t hint i hpc (not_lt.mp hi)

/-- The locks are the cores that are taken, and a thread in the loop has passed only cores that are
taken or do not suit it. -/
structure Allocates (isExists : String → Bool) (labels : List (CoreLabel T)) (s : CoreSystem T)
    (taken : Set ℕ) : Prop where
  begun : labels ≠ [] → s.done = true
  fresh : s.done = false → taken = ∅
  layout : s.done = true → HasLayout isExists s.table
  taken_iff (i : ℕ) : i ∈ taken ↔ i < maxLogicCores ∧ (s.table i).lock = true
  scanned {t : T} {hint : ℤ} {i : ℕ} : s.pc t = .scanning hint i →
    s.done = true ∧ ∀ j < i, Suits isExists hint j → j ∈ taken

/-- What the other threads have scanned stays taken. -/
theorem scanned_update {done : Bool} {pc : CorePc} {taken' : Set ℕ} {u : T}
    (h : Allocates isExists labels s taken) (hdone : s.done = true → done = true)
    (htaken : taken ⊆ taken')
    (hpc : ∀ hint i, pc = .scanning hint i →
      done = true ∧ ∀ j < i, Suits isExists hint j → j ∈ taken')
    (hu : Function.update s.pc t pc u = .scanning hint i) :
    done = true ∧ ∀ j < i, Suits isExists hint j → j ∈ taken' := by
  by_cases heq : u = t
  · subst heq
    rw [Function.update_self] at hu
    exact hpc hint i hu
  · rw [Function.update_of_ne heq] at hu
    obtain ⟨hs, hscanned⟩ := h.scanned hu
    exact ⟨hdone hs, fun j hj hsuits => htaken (hscanned j hj hsuits)⟩

/-- The first call initialises the table, and no call returns. -/
theorem Allocates.call (h : Allocates isExists labels s taken) (t : T) (hint : ℤ) :
    Allocates isExists (labels ++ [label])
      ⟨true, if s.done then s.table else initCpuLayout isExists s.table,
        Function.update s.pc t (.scanning hint 0)⟩ taken := by
  obtain ⟨hlayout, hfree⟩ := initCpuLayout_spec isExists s.table
  refine ⟨fun _ => rfl, by simp, fun _ => ?_, fun i => ?_, ?_⟩
  · cases hdone : s.done with
    | true => simpa [hdone] using h.layout hdone
    | false => simpa [hdone] using hlayout
  · cases hdone : s.done with
    | true => simpa [hdone] using h.taken_iff i
    | false =>
      have hlock : ¬ (i < maxLogicCores ∧ (initCpuLayout isExists s.table i).lock = true) := by
        rintro ⟨hi, hlocked⟩
        rw [hfree i hi] at hlocked
        exact Bool.noConfusion hlocked
      simpa [hdone, h.fresh hdone] using hlock
  · refine scanned_update h (fun _ => rfl) subset_rfl ?_
    rintro hint' i hpc
    obtain ⟨rfl, rfl⟩ := CorePc.scanning.inj hpc
    exact ⟨rfl, by simp⟩

/-- A core that is passed is taken or does not suit. -/
theorem Allocates.pass (h : Allocates isExists labels s taken) (hpc : s.pc t = .scanning hint i)
    (hi : i < maxLogicCores) (hreason : (s.table i).enable = false ∨
      (s.table i).core.logicCoreId < hint ∨ (s.table i).lock = true) :
    Allocates isExists (labels ++ [label])
      { s with pc := Function.update s.pc t (.scanning hint (i + 1)) } taken := by
  obtain ⟨hdone, hscanned⟩ := h.scanned hpc
  obtain ⟨henable, hid⟩ := h.layout hdone i hi
  refine ⟨fun _ => hdone, h.fresh, h.layout, h.taken_iff, ?_⟩
  refine scanned_update h id subset_rfl ?_
  rintro hint' k hscan
  obtain ⟨rfl, rfl⟩ := CorePc.scanning.inj hscan
  refine ⟨hdone, fun j hj hsuits => ?_⟩
  obtain hlt | rfl := Nat.lt_succ_iff_lt_or_eq.mp hj
  · exact hscanned j hlt hsuits
  · obtain ⟨-, hexists, hle⟩ := hsuits
    rcases hreason with hdisabled | hbelow | hlock
    · rw [henable, hexists] at hdisabled
      exact Bool.noConfusion hdisabled
    · omega
    · exact (h.taken_iff j).mpr ⟨hi, hlock⟩

/-- A thread that returns without a core leaves the locks as they are. -/
theorem Allocates.refuse (h : Allocates isExists labels s taken)
    (hpc : s.pc t = .scanning hint i) :
    Allocates isExists (labels ++ [label]) { s with pc := Function.update s.pc t .idle } taken := by
  refine ⟨fun _ => (h.scanned hpc).1, h.fresh, h.layout, h.taken_iff, ?_⟩
  exact scanned_update h id subset_rfl (by simp)

/-- A core that is returned is taken from then on. -/
theorem Allocates.grant (h : Allocates isExists labels s taken)
    (hpc : s.pc t = .scanning hint i) (hi : i < maxLogicCores) :
    Allocates isExists (labels ++ [label])
      { s with
        table := Function.update s.table i { s.table i with lock := true }
        pc := Function.update s.pc t .idle } (insert i taken) := by
  have hdone := (h.scanned hpc).1
  refine ⟨fun _ => hdone, ?_, fun _ j hj => ?_, fun j => ?_, ?_⟩
  · intro hnot
    rw [hdone] at hnot
    exact Bool.noConfusion hnot
  · by_cases hji : j = i
    · subst hji
      simpa using h.layout hdone j hj
    · simpa [Function.update_of_ne hji] using h.layout hdone j hj
  · by_cases hji : j = i
    · subst hji
      simp [hi]
    · simp [hji, h.taken_iff]
  · exact scanned_update h id (Set.subset_insert i taken) (by simp)

/-- Every run is one of the allocator that answers each call at once. -/
theorem exists_allocator_run
    (hrun : Run (Moves (getNextAvailLogicCore isExists)) CoreSystem.initial labels s) :
    ∃ taken, Run (Allocator.Step (Suits isExists)) ∅ (labels.filterMap answer) taken ∧
      Allocates isExists labels s taken := by
  refine hrun.simulation answer ?_ ?_ ?_
  · exact ⟨by simp, by simp, by simp [CoreSystem.initial], by simp [CoreSystem.initial],
      by simp [CoreSystem.initial]⟩
  · intro labels s taken label s' h hmove hsilent
    cases CoreStep.of_moves hmove with
    | call t hint _ => exact h.call t hint
    | pass t hint i hpc hi hreason => exact h.pass hpc hi hreason
    | grant | refuse => simp [answer] at hsilent
  · intro labels s taken label s' o h hmove hvisible
    cases CoreStep.of_moves hmove with
    | call | pass => simp [answer] at hvisible
    | grant t hint i hpc hi henable hle hlock =>
      cases hvisible
      obtain ⟨henable', hid⟩ := h.layout (h.scanned hpc).1 i hi
      have hsuits : Suits isExists hint i := ⟨hi, henable' ▸ henable, by omega⟩
      have hfree : i ∉ taken := by
        rw [h.taken_iff, hlock]
        simp
      exact ⟨insert i taken, .grant hfree hsuits, h.grant hpc hi⟩
    | refuse t hint i hpc hi =>
      cases hvisible
      obtain ⟨-, hscanned⟩ := h.scanned hpc
      exact ⟨taken, .refuse fun j hj => hscanned j (hj.1.trans_le hi) hj, h.refuse hpc⟩

/-- Whatever threads call with whatever hints: no core is returned twice, a core that is returned is
enabled and suits the hint, and a call returns no core only after all that suit its hint were handed
out. -/
theorem getNextAvailLogicCore_spec (isExists : String → Bool) (labels : List (CoreLabel T))
    (s : CoreSystem T)
    (hrun : Run (Moves (getNextAvailLogicCore isExists)) CoreSystem.initial labels s) :
    (handedOut labels).Nodup ∧
      (∀ t hint i, .returned t hint (some i) ∈ labels →
        i < maxLogicCores ∧ (s.table i).enable = true ∧
          (0 ≤ hint → hint ≤ (s.table i).core.logicCoreId)) ∧
      ∀ before after t hint, labels = before ++ .returned t hint none :: after →
        ∀ i < maxLogicCores, (s.table i).enable = true →
          hint ≤ (s.table i).core.logicCoreId → i ∈ handedOut before := by
  obtain ⟨taken, hspec, h⟩ := exists_allocator_run hrun
  have honest := Allocator.Honest.of_run hspec
  refine ⟨by rw [handedOut_eq]; exact honest.once, ?_, ?_⟩
  · intro t hint i hmem
    have hdone := h.begun (List.ne_nil_of_mem hmem)
    have hanswer : (hint, some i) ∈ labels.filterMap answer :=
      List.mem_filterMap.mpr ⟨_, hmem, rfl⟩
    obtain ⟨hi, hexists, hle⟩ := honest.suits_of_grant hanswer
    obtain ⟨henable, hid⟩ := h.layout hdone i hi
    exact ⟨hi, henable.trans hexists, fun _ => by omega⟩
  · rintro before after t hint rfl i hi henable hle
    obtain ⟨henable', hid⟩ := h.layout (h.begun (by simp)) i hi
    have hsuits : Suits isExists hint i := ⟨hi, henable' ▸ henable, by omega⟩
    rw [List.filterMap_append, List.filterMap_cons] at hspec
    rw [handedOut_eq]
    exact Allocator.granted_of_refuse hspec hsuits

/-- Two threads that meet at the first core. -/
theorem getNextAvailLogicCore_spec_two :
    ∃ labels s, Run (Moves (getNextAvailLogicCore (T := Bool) fun _ => true))
      CoreSystem.initial labels s ∧ handedOut labels = [0, 1] ∧ (handedOut labels).Nodup := by
  have hexec : (exec (getNextAvailLogicCore (T := Bool) fun _ => true) CoreSystem.initial
      [.call true 0, .call false (-1), .look true, .look false, .look false]).map
        (fun r => handedOut r.1) = some [0, 1] := by
    decide +kernel
  obtain ⟨labels, s, hrun, hcores⟩ := exists_run_of_exec hexec
  exact ⟨labels, s, hrun, hcores, (getNextAvailLogicCore_spec (fun _ => true) labels s hrun).1⟩

end Refinement

end Demos.Oak
