import Demos.Lib.Run
import Demos.Oak.Decimal
import Mathlib.Logic.Function.Basic

/-!
# The guard file

`CreateGuardFile` opens the file, tries to lock it, writes its process number and returns true. If
the lock is taken it returns false. The lock keeps two processes from returning true, but it does
not keep the number of the holder in the file: opening truncates, and that is done before the lock.
The file has the number as long as nobody opens it any more. Before the lock is taken there may be
other text in the file, and this is lost to a process that is refused the lock if it is the first to
open the file.
-/

namespace Demos.Oak

open Demos.Lib

/-- Where a process is in `CreateGuardFile`. -/
inductive GuardPhase where
  | start
  | opened
  | locked
  | written
  | returned (result : Bool)
deriving DecidableEq, Repr

/-- The system calls of `CreateGuardFile`. -/
inductive GuardCall where
  | openFile
  | lock (granted : Bool)
  | write
  | sync
deriving DecidableEq, Repr

/-- The system call of a process, with the text of the file before and after it. -/
structure GuardLabel (T : Type*) where
  process : T
  call : GuardCall
  found : Bytes
  left : Bytes
deriving DecidableEq, Repr

/-- The guard file, its lock and the processes. -/
structure Guard (T : Type*) where
  text : Bytes
  holder : Option T
  phase : T → GuardPhase

variable {T : Type*}

/-- The text that a process writes. -/
def pidText (pid : T → ℤ) (t : T) : Bytes := formatLd (pid t)

/-- The next system call of a process in `CreateGuardFile`. The file is opened with `O_TRUNC`, and
what is written is written at its start. -/
def createGuardFile [DecidableEq T] (pid : T → ℤ) (s : Guard T) (t : T) :
    Option (GuardLabel T × Guard T) :=
  match s.phase t with
  | .start => some (⟨t, .openFile, s.text, []⟩,
      { s with text := [], phase := Function.update s.phase t .opened })
  | .opened =>
    match s.holder with
    | none => some (⟨t, .lock true, s.text, s.text⟩,
        { s with holder := some t, phase := Function.update s.phase t .locked })
    | some _ => some (⟨t, .lock false, s.text, s.text⟩,
        { s with phase := Function.update s.phase t (.returned false) })
  | .locked =>
    let text := pidText pid t ++ s.text.drop (pidText pid t).length
    some (⟨t, .write, s.text, text⟩,
      { s with text := text, phase := Function.update s.phase t .written })
  | .written => some (⟨t, .sync, s.text, s.text⟩,
      { s with phase := Function.update s.phase t (.returned true) })
  | .returned _ => none

/-- Before the first process opens the file. -/
def Guard.before (T : Type*) (text : Bytes) : Guard T where
  text := text
  holder := none
  phase := fun _ => .start

variable {pid : T → ℤ} {s s' : Guard T} {label : GuardLabel T} {labels : List (GuardLabel T)}
  {text : Bytes} {t : T}

/-- The process has the lock. -/
def GuardPhase.Holds : GuardPhase → Prop
  | .locked => True
  | .written => True
  | .returned result => result = true
  | _ => False

/-- The process has written its number. -/
def GuardPhase.HasWritten : GuardPhase → Prop
  | .written => True
  | .returned result => result = true
  | _ => False

/-- Who has written has the lock. -/
theorem GuardPhase.HasWritten.holds {phase : GuardPhase} (h : phase.HasWritten) : phase.Holds := by
  cases phase with
  | start | opened | returned => exact h
  | locked | written => trivial

/-- The holder of the lock is the process that has it. -/
def Guard.Locked (s : Guard T) : Prop := ∀ t, s.holder = some t ↔ (s.phase t).Holds

section History

/-- Nobody opens the file after it was written. -/
def Undisturbed (labels : List (GuardLabel T)) : Prop :=
  labels.Pairwise fun a b => a.call = .write → b.call ≠ .openFile

/-- The process was refused the lock. -/
def Refused (labels : List (GuardLabel T)) (t : T) : Prop :=
  ∃ l ∈ labels, l.process = t ∧ l.call = .lock false

/-- What the calls that were made say about the file. -/
structure GuardHistory (pid : T → ℤ) (text : Bytes) (labels : List (GuardLabel T)) (s : Guard T) :
    Prop where
  locked : s.Locked
  started : ∀ t, s.phase t ≠ .start → labels ≠ []
  wrote : ∀ t, (s.phase t).HasWritten ↔ ∃ l ∈ labels, l.process = t ∧ l.call = .write
  refused : ∀ t, s.phase t = .returned false ↔ Refused labels t
  fresh : labels = [] → s.text = text
  empty : labels ≠ [] → (∀ l ∈ labels, l.call ≠ .write) → s.text = []
  kept : Undisturbed labels → ∀ l ∈ labels, l.call = .write → s.text = pidText pid l.process
  lost : ¬ Undisturbed labels → s.text = []
  first : ∀ l ∈ labels.head?, l.found = text ∧ l.left = []
  others : Undisturbed labels → ∀ l ∈ labels.tail, l.call ≠ .write → l.left = l.found

theorem undisturbed_concat : Undisturbed (labels ++ [label]) ↔ Undisturbed labels ∧
    (label.call = .openFile → ∀ l ∈ labels, l.call ≠ .write) := by
  rw [Undisturbed, List.pairwise_append]
  simp only [List.pairwise_singleton, List.mem_singleton, forall_eq, true_and]
  refine and_congr_right fun _ => ⟨fun h hopen l hl hwrite => h l hl hwrite hopen, ?_⟩
  exact fun h l hl hwrite hopen => h hopen l hl hwrite

/-- A process is refused the lock by one more call, or was before. -/
theorem refused_concat : Refused (labels ++ [label]) t ↔
    Refused labels t ∨ label.process = t ∧ label.call = .lock false := by
  simp [Refused, or_and_right, exists_or]

/-- Before the first process there is no call. -/
theorem guardHistory_nil : GuardHistory pid text [] (Guard.before T text) where
  locked t := by simp [Guard.before, GuardPhase.Holds]
  started t h := absurd rfl h
  wrote t := by simp [Guard.before, GuardPhase.HasWritten]
  refused t := by simp [Guard.before, Refused]
  fresh _ := rfl
  empty h := absurd rfl h
  kept _ l hl := absurd hl List.not_mem_nil
  lost h := absurd List.Pairwise.nil h
  first l hl := by simp at hl
  others _ l hl := absurd hl List.not_mem_nil

/-- A call that neither opens nor writes changes nothing. -/
theorem GuardHistory.quiet {call : GuardCall} (h : GuardHistory pid text labels s)
    (hne : labels ≠ []) (hcall : call ≠ .openFile ∧ call ≠ .write) (htext : s'.text = s.text)
    (hlocked : s'.Locked)
    (hwritten : ∀ v, (s'.phase v).HasWritten ↔ (s.phase v).HasWritten)
    (hrefused : ∀ v, s'.phase v = .returned false ↔
      s.phase v = .returned false ∨ t = v ∧ call = .lock false) :
    GuardHistory pid text (labels ++ [⟨t, call, s.text, s.text⟩]) s' where
  locked := hlocked
  started _ _ := by simp
  wrote v := by simp [hwritten, h.wrote, or_and_right, exists_or, hcall.2]
  refused v := by rw [hrefused, h.refused, refused_concat]
  fresh hnil := by simp at hnil
  empty _ hnone := htext.trans (h.empty hne fun l hl => hnone l (by simp [hl]))
  kept hund l hl hwrite := by
    rcases List.mem_append.mp hl with hl | hl
    · exact htext.trans (h.kept (undisturbed_concat.mp hund).1 l hl hwrite)
    · rw [List.mem_singleton.mp hl] at hwrite
      exact absurd hwrite hcall.2
  lost hund := htext.trans <| h.lost fun hundisturbed =>
    hund (undisturbed_concat.mpr ⟨hundisturbed, fun hopen => absurd hopen hcall.1⟩)
  first l hl := h.first l (by rwa [List.head?_append_of_ne_nil _ hne] at hl)
  others hund l hl hwrite := by
    rw [List.tail_append_of_ne_nil hne, List.mem_append, List.mem_singleton] at hl
    rcases hl with hl | rfl
    · exact h.others (undisturbed_concat.mp hund).1 l hl hwrite
    · rfl

/-- Opening the file empties it. -/
theorem GuardHistory.opens (h : GuardHistory pid text labels s) (htext : s'.text = [])
    (hlocked : s'.Locked)
    (hwritten : ∀ v, (s'.phase v).HasWritten ↔ (s.phase v).HasWritten)
    (hrefused : ∀ v, s'.phase v = .returned false ↔ s.phase v = .returned false) :
    GuardHistory pid text (labels ++ [⟨t, .openFile, s.text, []⟩]) s' where
  locked := hlocked
  started _ _ := by simp
  wrote v := by simp [hwritten, h.wrote, or_and_right, exists_or]
  refused v := by simp [hrefused, h.refused, refused_concat]
  fresh hnil := by simp at hnil
  empty _ _ := htext
  kept hund l hl hwrite := by
    rcases List.mem_append.mp hl with hl | hl
    · exact absurd hwrite ((undisturbed_concat.mp hund).2 rfl l hl)
    · rw [List.mem_singleton.mp hl] at hwrite
      cases hwrite
  lost _ := htext
  first l hl := by
    by_cases hne : labels = []
    · subst hne
      obtain rfl : ⟨t, .openFile, s.text, []⟩ = l := by simpa using hl
      exact ⟨h.fresh rfl, rfl⟩
    · exact h.first l (by rwa [List.head?_append_of_ne_nil _ hne] at hl)
  others hund l hl hwrite := by
    by_cases hne : labels = []
    · subst hne
      simp at hl
    · rw [List.tail_append_of_ne_nil hne, List.mem_append, List.mem_singleton] at hl
      rcases hl with hl | rfl
      · exact h.others (undisturbed_concat.mp hund).1 l hl hwrite
      · exact (h.empty hne ((undisturbed_concat.mp hund).2 rfl)).symm

/-- The holder of the lock is the first to write. -/
theorem GuardHistory.not_write (h : GuardHistory pid text labels s) (hphase : s.phase t = .locked) :
    ∀ l ∈ labels, l.call ≠ .write := by
  intro l hl hwrite
  have hwritten : (s.phase l.process).HasWritten := (h.wrote l.process).mpr ⟨l, hl, rfl, hwrite⟩
  have hholder : s.holder = some l.process := (h.locked _).mpr hwritten.holds
  have hself : s.holder = some t := (h.locked t).mpr (by rw [hphase]; trivial)
  rw [← Option.some.inj (hself.symm.trans hholder), hphase] at hwritten
  exact hwritten

/-- Writing puts the number into the empty file. -/
theorem GuardHistory.writes (h : GuardHistory pid text labels s) (hphase : s.phase t = .locked)
    (htext : s'.text = pidText pid t ++ s.text.drop (pidText pid t).length) (hlocked : s'.Locked)
    (hwritten : ∀ v, (s'.phase v).HasWritten ↔ (s.phase v).HasWritten ∨ v = t)
    (hrefused : ∀ v, s'.phase v = .returned false ↔ s.phase v = .returned false) :
    GuardHistory pid text (labels ++ [⟨t, .write, s.text, s'.text⟩]) s' := by
  have hne : labels ≠ [] := h.started t (by simp [hphase])
  have hnone : ∀ l ∈ labels, l.call ≠ .write := h.not_write hphase
  have hund : Undisturbed labels :=
    List.pairwise_of_forall_mem_list fun a ha _ _ hwrite => absurd hwrite (hnone a ha)
  have htext' : s'.text = pidText pid t := by
    rw [htext, h.empty hne hnone, List.drop_nil, List.append_nil]
  exact {
    locked := hlocked
    started := fun _ _ => by simp
    wrote := fun v => by simp [hwritten, h.wrote, or_and_right, exists_or, eq_comm]
    refused := fun v => by simp [hrefused, h.refused, refused_concat]
    fresh := fun hnil => by simp at hnil
    empty := fun _ hall => absurd rfl (hall _ List.mem_concat_self)
    kept := fun _ l hl hwrite => by
      rcases List.mem_append.mp hl with hl | hl
      · exact absurd hwrite (hnone l hl)
      · rw [List.mem_singleton.mp hl]
        exact htext'
    lost := fun hlost => absurd (undisturbed_concat.mpr ⟨hund, fun hopen => by cases hopen⟩) hlost
    first := fun l hl => h.first l (by rwa [List.head?_append_of_ne_nil _ hne] at hl)
    others := fun _ l hl hwrite => by
      rw [List.tail_append_of_ne_nil hne, List.mem_append, List.mem_singleton] at hl
      rcases hl with hl | rfl
      · exact h.others hund l hl hwrite
      · exact absurd rfl hwrite }

end History

section Step

variable [DecidableEq T]

/-- The cases of a step. -/
inductive GuardStep (pid : T → ℤ) (s : Guard T) : GuardLabel T → Guard T → Prop
  | opens (t : T) : s.phase t = .start →
      GuardStep pid s ⟨t, .openFile, s.text, []⟩
        ⟨[], s.holder, Function.update s.phase t .opened⟩
  | locks (t : T) : s.phase t = .opened → s.holder = none →
      GuardStep pid s ⟨t, .lock true, s.text, s.text⟩
        ⟨s.text, some t, Function.update s.phase t .locked⟩
  | refused (t u : T) : s.phase t = .opened → s.holder = some u →
      GuardStep pid s ⟨t, .lock false, s.text, s.text⟩
        ⟨s.text, s.holder, Function.update s.phase t (.returned false)⟩
  | writes (t : T) : s.phase t = .locked →
      GuardStep pid s
        ⟨t, .write, s.text, pidText pid t ++ s.text.drop (pidText pid t).length⟩
        ⟨pidText pid t ++ s.text.drop (pidText pid t).length, s.holder,
          Function.update s.phase t .written⟩
  | syncs (t : T) : s.phase t = .written →
      GuardStep pid s ⟨t, .sync, s.text, s.text⟩
        ⟨s.text, s.holder, Function.update s.phase t (.returned true)⟩

/-- A step is one of the cases. -/
theorem GuardStep.of_moves (h : Moves (createGuardFile pid) s label s') :
    GuardStep pid s label s' := by
  obtain ⟨t, ht⟩ := h
  rw [createGuardFile] at ht
  split at ht
  next hphase =>
    cases ht
    exact .opens t hphase
  next hphase =>
    split at ht
    next hholder =>
      cases ht
      exact .locks t hphase hholder
    next u hholder =>
      cases ht
      exact .refused t u hphase hholder
  next hphase =>
    cases ht
    exact .writes t hphase
  next hphase =>
    cases ht
    exact .syncs t hphase
  next => cases ht

/-- What the new phase of a process has in common with the old one. -/
theorem update_phase_iff {P : GuardPhase → Prop} {phase : GuardPhase}
    (h : P phase ↔ P (s.phase t)) (v : T) :
    P (Function.update s.phase t phase v) ↔ P (s.phase v) := by
  by_cases hv : v = t
  · subst hv
    rwa [Function.update_self]
  · rw [Function.update_of_ne hv]

/-- The lock stays where it is. -/
theorem Guard.Locked.update {phase : GuardPhase} (h : s.Locked)
    (hphase : phase.Holds ↔ (s.phase t).Holds) (text : Bytes) :
    Guard.Locked ⟨text, s.holder, Function.update s.phase t phase⟩ :=
  fun v => (h v).trans (update_phase_iff (P := GuardPhase.Holds) hphase v).symm

/-- A call keeps the history. -/
theorem GuardStep.history (h : GuardHistory pid text labels s) (hstep : GuardStep pid s label s') :
    GuardHistory pid text (labels ++ [label]) s' := by
  have hlocked := h.locked
  cases hstep with
  | opens t hphase =>
    refine h.opens rfl (hlocked.update ?_ _) (update_phase_iff ?_)
      (update_phase_iff (P := (· = .returned false)) ?_)
    all_goals simp [hphase, GuardPhase.Holds, GuardPhase.HasWritten]
  | locks t hphase hholder =>
    refine h.quiet (h.started t (by simp [hphase])) (by simp) rfl (fun v => ?_)
      (update_phase_iff ?_) fun v => ?_
    · by_cases hv : v = t
      · subst hv
        simp [GuardPhase.Holds]
      · have hnot := hlocked v
        rw [hholder] at hnot
        simpa [hv, Ne.symm hv] using hnot
    · simp [hphase, GuardPhase.HasWritten]
    · simp [update_phase_iff (P := (· = .returned false)), hphase]
  | refused t u hphase hholder =>
    refine h.quiet (h.started t (by simp [hphase])) (by simp) rfl (hlocked.update ?_ _)
      (update_phase_iff ?_) fun v => ?_
    · simp [hphase, GuardPhase.Holds]
    · simp [hphase, GuardPhase.HasWritten]
    · by_cases hv : t = v
      · simp [hv]
      · simp [hv, Ne.symm hv]
  | writes t hphase =>
    refine h.writes hphase rfl (hlocked.update ?_ _) (fun v => ?_)
      (update_phase_iff (P := (· = .returned false)) ?_)
    · simp [hphase, GuardPhase.Holds]
    · by_cases hv : v = t <;> simp [hv, GuardPhase.HasWritten]
    · simp [hphase]
  | syncs t hphase =>
    refine h.quiet (h.started t (by simp [hphase])) (by simp) rfl (hlocked.update ?_ _)
      (update_phase_iff ?_) fun v => ?_
    · simp [hphase, GuardPhase.Holds]
    · simp [hphase, GuardPhase.HasWritten]
    · simp [update_phase_iff (P := (· = .returned false)), hphase]

/-- The history of a run. -/
theorem guardHistory_of_run
    (hrun : Run (Moves (createGuardFile pid)) (Guard.before T text) labels s) :
    GuardHistory pid text labels s :=
  hrun.invariant guardHistory_nil fun _ _ _ _ h hstep => (GuardStep.of_moves hstep).history h

end Step

section Guarantee

/-- A process that returns false leaves the text as it found it. -/
def KeepsText (labels : List (GuardLabel T)) (s : Guard T) : Prop :=
  ∀ l ∈ labels, s.phase l.process = .returned false → l.left = l.found

/-- The file has the number of the holder of the lock, once that has written it. -/
def HasPid (pid : T → ℤ) (s : Guard T) : Prop :=
  ∀ t, s.holder = some t → (s.phase t).HasWritten → s.text = pidText pid t

theorem pidText_ne_nil (pid : T → ℤ) (t : T) : pidText pid t ≠ [] := by
  intro hnil
  have hread := strtol_formatLd (pid t)
  rw [show formatLd (pid t) = [] from hnil] at hread
  cases hread

/-- The number of the holder is in the file exactly if nobody has opened the file since it was
written. -/
theorem GuardHistory.hasPid_iff (h : GuardHistory pid text labels s) :
    HasPid pid s ↔ Undisturbed labels := by
  constructor
  · intro hpid
    by_contra hlost
    -- only a file that was written can be disturbed
    have hwrote : ∃ l ∈ labels, l.call = .write := by
      by_contra hnone
      exact hlost (List.pairwise_of_forall_mem_list fun a ha _ _ hwrite =>
        absurd ⟨a, ha, hwrite⟩ hnone)
    obtain ⟨l, hl, hwrite⟩ := hwrote
    have hwritten : (s.phase l.process).HasWritten := (h.wrote _).mpr ⟨l, hl, rfl, hwrite⟩
    have htext := hpid l.process ((h.locked _).mpr hwritten.holds) hwritten
    exact pidText_ne_nil pid l.process (htext.symm.trans (h.lost hlost))
  · intro hund t _ hwritten
    obtain ⟨l, hl, rfl, hwrite⟩ := (h.wrote t).mp hwritten
    exact h.kept hund l hl hwrite

/-- As long as nobody opens the written file, the first process is the only one that may find a text
and remove it. -/
theorem GuardHistory.keepsText_iff (h : GuardHistory pid text labels s)
    (hund : Undisturbed labels) : KeepsText labels s ↔
      text = [] ∨ ∀ first ∈ labels.head?, ¬ Refused labels first.process := by
  simp only [← h.refused]
  cases labels with
  | nil => simp [KeepsText]
  | cons first rest =>
    obtain ⟨hfound, hleft⟩ := h.first first rfl
    have hrest : ∀ l ∈ rest, s.phase l.process = .returned false → l.left = l.found := by
      intro l hl hfalse
      refine h.others hund l hl fun hwrite => ?_
      have hwritten := (h.wrote l.process).mpr ⟨l, List.mem_cons_of_mem _ hl, rfl, hwrite⟩
      rw [hfalse] at hwritten
      cases hwritten
    simp only [KeepsText, List.forall_mem_cons, hfound, hleft, List.head?_cons, Option.mem_some_iff,
      forall_eq', and_iff_left hrest, eq_comm (a := ([] : Bytes))]
    rw [imp_iff_or_not]

end Guarantee

/-- At most one process returns true. The other processes leave the file as they found it, and the
file has the number of the holder, exactly if nobody opens the file after it was written, and it was
empty at first or the process that opens it first is not refused the lock. -/
theorem createGuardFile_iff [DecidableEq T]
    (hrun : Run (Moves (createGuardFile pid)) (Guard.before T text) labels s) :
    (∀ t u, s.phase t = .returned true → s.phase u = .returned true → t = u) ∧
    (KeepsText labels s ∧ HasPid pid s ↔ Undisturbed labels ∧
      (text = [] ∨ ∀ first ∈ labels.head?, ¬ Refused labels first.process)) := by
  have h := guardHistory_of_run hrun
  refine ⟨fun t u ht hu => ?_, ?_⟩
  · have holder : s.holder = some t := (h.locked t).mpr (by rw [ht]; rfl)
    have holder' : s.holder = some u := (h.locked u).mpr (by rw [hu]; rfl)
    exact Option.some.inj (holder.symm.trans holder')
  · rw [h.hasPid_iff, and_comm]
    exact and_congr_right fun hund => h.keepsText_iff hund

/-- The second process opens the file before the first has written, and is refused the lock. -/
theorem createGuardFile_iff_two : ∃ labels s,
    Run (Moves (createGuardFile fun second : Bool => if second then 43 else 42))
      (Guard.before Bool (ascii "7")) labels s ∧ s.phase false = .returned true ∧
      s.phase true = .returned false ∧ KeepsText labels s ∧
      HasPid (fun second => if second then 43 else 42) s := by
  have hexec : (exec (createGuardFile fun second : Bool => if second then 43 else 42)
      (Guard.before Bool (ascii "7")) [false, true, false, true, false, false]).map
        (fun r => (r.1, r.2.phase false, r.2.phase true)) =
        some ([⟨false, .openFile, ascii "7", []⟩, ⟨true, .openFile, [], []⟩,
          ⟨false, .lock true, [], []⟩, ⟨true, .lock false, [], []⟩,
          ⟨false, .write, [], ascii "42"⟩, ⟨false, .sync, ascii "42", ascii "42"⟩],
          .returned true, .returned false) := by
    decide
  obtain ⟨labels, s, hrun, hresult⟩ := exists_run_of_exec hexec
  simp only [Prod.mk.injEq] at hresult
  obtain ⟨rfl, hfirst, hsecond⟩ := hresult
  refine ⟨_, s, hrun, hfirst, hsecond, (createGuardFile_iff hrun).2.mpr ⟨?_, .inr ?_⟩⟩
  · unfold Undisturbed
    decide
  · simp [Refused]

/-- The second process empties the file of the first and returns false. -/
theorem createGuardFile_truncates : ∃ labels s,
    Run (Moves (createGuardFile fun second : Bool => if second then 43 else 42))
      (Guard.before Bool []) labels s ∧ s.holder = some false ∧
      s.phase false = .returned true ∧ s.phase true = .returned false ∧ s.text = [] := by
  have hexec : (exec (createGuardFile fun second : Bool => if second then 43 else 42)
      (Guard.before Bool []) [false, false, false, false, true, true]).map
        (fun r => (r.2.holder, r.2.phase false, r.2.phase true, r.2.text)) =
        some (some false, .returned true, .returned false, []) := by
    decide
  obtain ⟨labels, s, hrun, hresult⟩ := exists_run_of_exec hexec
  simp only [Prod.mk.injEq] at hresult
  exact ⟨labels, s, hrun, hresult⟩

end Demos.Oak
