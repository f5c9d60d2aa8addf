import Demos.Lib.DirTree
import Demos.Lib.Processes
import Demos.Oak.Fs.DirectoryName

/-!
# Creating a directory with its parents

`CreateDirectoryRecursively` calls itself for the directory above if that is missing, and then tries
again. The first try takes it well if the directory is there already, but the second does not. So it
fails if another process makes the directory in between, and also alone, if the second try is for a
`.` or `..` of the path. It is safe if the directory above is there: then there is no second try.
-/

namespace Demos.Oak

open Demos.Lib

/-- The directories, and the working directory of the processes. -/
structure Disk where
  tree : DirTree Bytes
  cwd : List Bytes
  has_cwd : tree.has cwd = true

/-- The component that a name is. -/
def component (name : Bytes) : Component Bytes :=
  if name = ascii "." then .current
  else if name = ascii ".." then .parent
  else .name name

/-- The components of a path. -/
def components (text : Bytes) : List (Component Bytes) := (names 47 text).map component

/-- Where a path begins. -/
def Disk.origin (disk : Disk) (text : Bytes) : List Bytes :=
  if IsAbsolute 47 text then [] else disk.cwd

/-- `mkdir(path.c_str(), mode)`. -/
def Disk.mkdir (disk : Disk) (path : Bytes) : Mkdir × Disk :=
  let text := cString path
  if text = [] then (.noEntry, disk)
  else
    let made := disk.tree.mkdir (disk.origin text) (components text)
    (made.1, ⟨made.2, disk.cwd, disk.tree.le_mkdir _ _ _ disk.has_cwd⟩)

/-- Where a call of `CreateDirectoryRecursively` stands: before the first or the second `mkdir` of a
directory, with the directories of the calls that wait for this one, or at its end. -/
inductive Call where
  | attempt (directory : Bytes) (pending : List Bytes)
  | retry (directory : Bytes) (pending : List Bytes)
  | returned
  | threw
  | crashed
deriving DecidableEq, Repr

/-- The call that waits goes on. -/
def Call.unwind : List Bytes → Call
  | [] => .returned
  | directory :: pending => .retry directory pending

/-- The next `mkdir` of `CreateDirectoryRecursively`, and what follows from its result. -/
def createDirectoryRecursively (disk : Disk) : Call → Option (Disk × Call)
  | .attempt directory pending =>
    if directory = [] then some (disk, .crashed)
    else
      let ret := disk.mkdir directory
      if ret.1 = .noEntry then
        match directoryName directory with
        | some path => some (ret.2, .attempt path (directory :: pending))
        | none => some (ret.2, .crashed)
      else some (ret.2, .unwind pending)
  | .retry directory pending =>
    let ret := disk.mkdir directory
    if ret.1 = .created then some (ret.2, .unwind pending) else some (ret.2, .threw)
  | _ => none

variable {disk disk' : Disk} {path directory : Bytes} {pending : List Bytes} {call call' : Call}

section Disk

/-- The working directory is the same, and no directory is missing. -/
def Disk.Grows (disk disk' : Disk) : Prop := disk'.cwd = disk.cwd ∧ disk.tree ≤ disk'.tree

/-- A path names a directory, and that has all its ancestors. -/
def Disk.Names (disk : Disk) (path : Bytes) : Prop :=
  cString path ≠ [] ∧
    ∃ d, disk.tree.walk (disk.origin (cString path)) (components (cString path)) = some d ∧
      ∀ e, e <:+ d → disk.tree.has e = true

theorem Disk.Grows.refl (disk : Disk) : disk.Grows disk := ⟨rfl, le_rfl⟩

theorem Disk.Grows.trans {disk'' : Disk} (h : disk.Grows disk') (h' : disk'.Grows disk'') :
    disk.Grows disk'' :=
  ⟨h'.1.trans h.1, h.2.trans h'.2⟩

theorem Disk.Grows.origin_eq (h : disk.Grows disk') (text : Bytes) :
    disk'.origin text = disk.origin text := by
  rw [Disk.origin, Disk.origin, h.1]

/-- Paths begin at a directory. -/
theorem Disk.has_origin (disk : Disk) (text : Bytes) :
    disk.tree.has (disk.origin text) = true := by
  rw [Disk.origin]
  split
  · exact disk.tree.root
  · exact disk.has_cwd

theorem Disk.mkdir_eq (hne : cString path ≠ []) : (disk.mkdir path).1 =
    (disk.tree.mkdir (disk.origin (cString path)) (components (cString path))).1 := by
  rw [Disk.mkdir, if_neg hne]

theorem Disk.mkdir_empty (hempty : cString path = []) : (disk.mkdir path).1 = .noEntry := by
  rw [Disk.mkdir, if_pos hempty]

/-- `mkdir` removes nothing. -/
theorem Disk.grows_mkdir (disk : Disk) (path : Bytes) : disk.Grows (disk.mkdir path).2 := by
  rw [Disk.mkdir]
  split
  · exact Disk.Grows.refl disk
  · exact ⟨rfl, disk.tree.le_mkdir _ _⟩

theorem Disk.Names.mono (hgrows : disk.Grows disk') (h : disk.Names path) : disk'.Names path := by
  obtain ⟨hne, d, hwalk, hancestors⟩ := h
  refine ⟨hne, d, ?_, fun e he => hgrows.2 e (hancestors e he)⟩
  rw [hgrows.origin_eq]
  exact DirTree.walk_mono hgrows.2 hwalk

/-- A directory that is there is not made. -/
theorem Disk.Names.mkdir_eq (h : disk.Names path) : (disk.mkdir path).1 = .exists := by
  obtain ⟨hne, d, hwalk, -⟩ := h
  rw [Disk.mkdir_eq hne]
  exact DirTree.mkdir_of_walk hwalk

/-- Unless `mkdir` finds no directory above, the path names a directory afterwards. -/
theorem Disk.names_mkdir (h : (disk.mkdir path).1 ≠ .noEntry) :
    (disk.mkdir path).2.Names path := by
  have hne : cString path ≠ [] := fun hempty => h (Disk.mkdir_empty hempty)
  rw [Disk.mkdir_eq hne] at h
  rw [Disk.mkdir, if_neg hne]
  obtain ⟨d, hwalk⟩ := DirTree.exists_walk_mkdir (disk.has_origin _) h
  refine ⟨hne, d, hwalk, fun e => DirTree.has_of_suffix (DirTree.has_of_walk ?_ hwalk)⟩
  exact disk.tree.le_mkdir _ _ _ (disk.has_origin _)

/-- The directory above stays. -/
theorem Disk.Grows.mkdir_ne_noEntry (hgrows : disk.Grows disk')
    (h : (disk.mkdir path).1 ≠ .noEntry) : (disk'.mkdir path).1 ≠ .noEntry := by
  have hne : cString path ≠ [] := fun hempty => h (Disk.mkdir_empty hempty)
  rw [Disk.mkdir_eq hne] at h ⊢
  rw [hgrows.origin_eq]
  exact DirTree.mkdir_ne_noEntry_mono hgrows.2 h

theorem Disk.mkdir_dot (disk : Disk) : (disk.mkdir (ascii ".")).1 = .exists := rfl

end Disk

section Step

/-- The cases of a step. -/
inductive CallStep (disk : Disk) : Call → Disk → Call → Prop
  | above (directory above : Bytes) (pending : List Bytes) : directory ≠ [] →
      (disk.mkdir directory).1 = .noEntry → directoryName directory = some above →
      CallStep disk (.attempt directory pending) (disk.mkdir directory).2
        (.attempt above (directory :: pending))
  | done (directory : Bytes) (pending : List Bytes) : (disk.mkdir directory).1 ≠ .noEntry →
      CallStep disk (.attempt directory pending) (disk.mkdir directory).2 (.unwind pending)
  | crash (directory : Bytes) (pending : List Bytes) (disk' : Disk) :
      (disk.mkdir directory).1 = .noEntry → disk.Grows disk' →
      CallStep disk (.attempt directory pending) disk' .crashed
  | made (directory : Bytes) (pending : List Bytes) : (disk.mkdir directory).1 = .created →
      CallStep disk (.retry directory pending) (disk.mkdir directory).2 (.unwind pending)
  | fail (directory : Bytes) (pending : List Bytes) :
      CallStep disk (.retry directory pending) (disk.mkdir directory).2 .threw

/-- A step is one of the cases. -/
theorem CallStep.of_eq (h : createDirectoryRecursively disk call = some (disk', call')) :
    CallStep disk call disk' call' := by
  cases call with
  | attempt directory pending =>
    simp only [createDirectoryRecursively] at h
    split at h
    next hempty =>
      cases h
      exact .crash directory pending disk (Disk.mkdir_empty (by rw [hempty]; rfl))
        (Disk.Grows.refl disk)
    next hne =>
      split at h
      next hmissing =>
        split at h
        next above habove =>
          cases h
          exact .above directory above pending hne hmissing habove
        next =>
          cases h
          exact .crash directory pending _ hmissing (disk.grows_mkdir directory)
      next hfound =>
        cases h
        exact .done directory pending hfound
  | retry directory pending =>
    simp only [createDirectoryRecursively] at h
    split at h
    next hmade =>
      cases h
      exact .made directory pending hmade
    next =>
      cases h
      exact .fail directory pending
  | returned | threw | crashed => cases h

/-- A call that begins has a step. -/
theorem attempt_ne_none (disk : Disk) (directory : Bytes) (pending : List Bytes) :
    createDirectoryRecursively disk (.attempt directory pending) ≠ none := by
  simp only [createDirectoryRecursively]
  split
  · simp
  · split
    · split <;> simp
    · simp

/-- No step removes a directory. -/
theorem CallStep.grows (h : CallStep disk call disk' call') : disk.Grows disk' := by
  cases h with
  | above directory | done directory | made directory | fail directory =>
    exact disk.grows_mkdir directory
  | crash _ _ _ _ hgrows => exact hgrows

end Step

section Termination

/-- How much is left to cut of a path. -/
def pathSize (path : Bytes) : ℕ := if path = ascii "." then 0 else path.length

/-- A bound for the steps of a call. -/
def Call.bound : Call → ℕ
  | .attempt directory pending => 2 * pathSize directory + pending.length + 1
  | .retry _ pending => pending.length + 1
  | _ => 0

theorem Call.bound_unwind (pending : List Bytes) :
    (Call.unwind pending).bound = pending.length := by
  cases pending <;> rfl

/-- The directory of a path is the working directory or shorter than the path. -/
theorem pathSize_directoryName_lt {above : Bytes} (h : directoryName directory = some above) :
    pathSize above < directory.length := by
  obtain ⟨hne, hdot | hshort⟩ := directoryName_length h
  · rw [pathSize, if_pos hdot]
    exact List.length_pos_iff.mpr hne
  · rw [pathSize]
    split
    · exact List.length_pos_iff.mpr hne
    · exact hshort

/-- Every step is one less to take. -/
theorem CallStep.bound_lt (h : CallStep disk call disk' call') : call'.bound < call.bound := by
  cases h with
  | above directory above pending hne hmissing habove =>
    have hdot : directory ≠ ascii "." := by
      rintro rfl
      rw [Disk.mkdir_dot] at hmissing
      cases hmissing
    have hsize : pathSize directory = directory.length := if_neg hdot
    have hcut : pathSize above < directory.length := pathSize_directoryName_lt habove
    simp only [Call.bound, hsize, List.length_cons]
    omega
  | done directory pending =>
    rw [Call.bound_unwind, Call.bound]
    omega
  | crash | fail => exact Nat.succ_pos _
  | made directory pending => exact (Call.bound_unwind pending).trans_lt (Nat.lt_succ_self _)

end Termination

section Interleaving

variable {T : Type*} [DecidableEq T] {labels : List T} {s : Processes Disk Call T}

/-- Processes that all call `CreateDirectoryRecursively(path)`. -/
def callers (T : Type*) (disk : Disk) (path : Bytes) : Processes Disk Call T :=
  ⟨disk, fun _ => .attempt path []⟩

/-- A call for the path has failed or is to try the path again. -/
def Call.Retries (path : Bytes) : Call → Prop
  | .attempt _ pending => ∃ inner, pending = inner ++ [path]
  | .retry directory pending => ∃ inner, directory :: pending = inner ++ [path]
  | .returned => False
  | .threw => True
  | .crashed => True

/-- The outermost of the calls that wait is for the path. -/
theorem Call.retries_unwind {inner : List Bytes} :
    (Call.unwind (inner ++ [path])).Retries path := by
  cases inner with
  | nil => exact ⟨[], rfl⟩
  | cons directory inner => exact ⟨directory :: inner, rfl⟩

/-- The second try of a path that is there already fails. -/
theorem CallStep.retries (hnames : disk.Names path) (hcall : call.Retries path)
    (h : CallStep disk call disk' call') : call'.Retries path := by
  cases h with
  | above directory above pending =>
    obtain ⟨inner, rfl⟩ := hcall
    exact ⟨directory :: inner, rfl⟩
  | done directory pending =>
    obtain ⟨inner, rfl⟩ := hcall
    exact Call.retries_unwind
  | crash | fail => trivial
  | made directory pending hmade =>
    obtain ⟨inner, heq⟩ := hcall
    cases inner with
    | nil =>
      obtain ⟨rfl, rfl⟩ := List.cons.inj heq
      rw [hnames.mkdir_eq] at hmade
      cases hmade
    | cons first inner =>
      obtain ⟨rfl, rfl⟩ := List.cons.inj heq
      exact Call.retries_unwind

/-- If the directory above is there, a call is at its start, or it has returned and the directory is
there. -/
theorem returned_of_run (habove : (disk.mkdir path).1 ≠ .noEntry)
    (hrun : Run (Interleaved createDirectoryRecursively) (callers T disk path) labels s) (t : T) :
    s.locals t = .attempt path [] ∨ s.locals t = .returned ∧ s.shared.Names path := by
  have hstart : (callers T disk path).locals t = .attempt path [] := rfl
  refine (hrun.process (I := fun later => disk.Grows later)
    (J := fun later call => call = .attempt path [] ∨ call = .returned ∧ later.Names path)
    t (Disk.Grows.refl disk) (.inl hstart) ?_ ?_).2
  · intro g l g' l' hgrows hstep
    have hstep' : g.Grows g' := (CallStep.of_eq hstep).grows
    exact ⟨hgrows.trans hstep', fun m hm => hm.imp_right fun h => ⟨h.1, h.2.mono hstep'⟩⟩
  · rintro g l g' l' hgrows (rfl | ⟨rfl, -⟩) hstep
    · have hfound : (g.mkdir path).1 ≠ .noEntry := hgrows.mkdir_ne_noEntry habove
      right
      cases CallStep.of_eq hstep with
      | above _ _ _ _ hmissing | crash _ _ _ hmissing => exact absurd hmissing hfound
      | done => exact ⟨rfl, Disk.names_mkdir hfound⟩
    · cases hstep

/-- A process finds the directory above missing. -/
theorem exists_run_retries (p : T) (hmissing : (disk.mkdir path).1 = .noEntry) :
    ∃ labels s, Run (Interleaved createDirectoryRecursively) (callers T disk path) labels s ∧
      (s.locals p).Retries path := by
  obtain ⟨⟨g, l⟩, hnext⟩ := Option.ne_none_iff_exists'.mp (attempt_ne_none disk path [])
  refine ⟨[p], _, .single (interleaved_iff.mpr ⟨g, l, hnext, rfl⟩), ?_⟩
  simp only [Function.update_self]
  cases CallStep.of_eq hnext with
  | above => exact ⟨[], rfl⟩
  | done _ _ hfound => exact absurd hmissing hfound
  | crash => trivial

/-- If the directory above is missing, another process can make the directory before the second try,
and the call fails. -/
theorem exists_run_not_returned {p q : T} (hpq : p ≠ q)
    (hmissing : (disk.mkdir path).1 = .noEntry) :
    ∃ labels s t, Run (Interleaved createDirectoryRecursively) (callers T disk path) labels s ∧
      createDirectoryRecursively s.shared (s.locals t) = none ∧
      ¬ (s.locals t = .returned ∧ s.shared.Names path) := by
  by_contra hall
  have hreturned : ∀ labels s t,
      Run (Interleaved createDirectoryRecursively) (callers T disk path) labels s →
      createDirectoryRecursively s.shared (s.locals t) = none →
      s.locals t = .returned ∧ s.shared.Names path := by
    intro labels s t hrun hstop
    by_contra hnot
    exact hall ⟨labels, s, t, hrun, hstop, hnot⟩
  have hbound : ∀ g l g' l', createDirectoryRecursively g l = some (g', l') → l'.bound < l.bound :=
    fun g l g' l' hstep => (CallStep.of_eq hstep).bound_lt
  obtain ⟨labels₁, s₁, hrun₁, hlocal₁⟩ := exists_run_retries p hmissing
  -- the second process makes the directory meanwhile
  obtain ⟨labels₂, s₂, hrun₂, hstop₂, hothers⟩ := exists_run_alone hbound s₁ q
  have hnames : s₂.shared.Names path := (hreturned _ _ q (hrun₁.append hrun₂) hstop₂).2
  have hlocal₂ : (s₂.locals p).Retries path := hothers p hpq ▸ hlocal₁
  -- the first process goes on and fails
  obtain ⟨labels₃, s₃, hrun₃, hstop₃, -⟩ := exists_run_alone hbound s₂ p
  have hlocal₃ := (hrun₃.process (I := fun later => later.Names path)
    (J := fun _ call => call.Retries path) p hnames hlocal₂
    (fun _ _ _ _ h hstep => ⟨h.mono (CallStep.of_eq hstep).grows, fun _ hm => hm⟩)
    (fun _ _ _ _ h hm hstep => (CallStep.of_eq hstep).retries h hm)).2
  rw [(hreturned _ _ p ((hrun₁.append hrun₂).append hrun₃) hstop₃).1] at hlocal₃
  exact hlocal₃

end Interleaving

/-- Each process takes a bounded number of steps. Whatever the order of their steps, all of them
return and leave the directory, exactly if the directory above it was there before. -/
theorem createDirectoryRecursively_iff (T : Type*) [DecidableEq T] [Nontrivial T] (disk : Disk)
    (path : Bytes) :
    (∀ labels s, Run (Interleaved createDirectoryRecursively) (callers T disk path) labels s →
      ∀ t, labels.count t ≤ 2 * path.length + 1) ∧
    ((∀ labels s, Run (Interleaved createDirectoryRecursively) (callers T disk path) labels s →
        ∀ t, createDirectoryRecursively s.shared (s.locals t) = none →
          s.locals t = .returned ∧ s.shared.Names path) ↔
      (disk.mkdir path).1 ≠ .noEntry) := by
  constructor
  · intro labels s hrun t
    have hcount := hrun.count_le (fun _ _ _ _ hstep => (CallStep.of_eq hstep).bound_lt) t
    have hsize : pathSize path ≤ path.length := by
      rw [pathSize]
      split <;> omega
    have hstart : ((callers T disk path).locals t).bound = 2 * pathSize path + 1 := rfl
    omega
  constructor
  · intro hall hmissing
    obtain ⟨p, q, hpq⟩ := exists_pair_ne T
    obtain ⟨labels, s, t, hrun, hstop, hnot⟩ := exists_run_not_returned hpq hmissing
    exact hnot (hall labels s hrun t hstop)
  · intro habove labels s hrun t hstop
    refine (returned_of_run habove hrun t).resolve_left fun hattempt => ?_
    rw [hattempt] at hstop
    exact attempt_ne_none _ _ _ hstop

/-- A disk with no directory but the root. -/
def rootDisk : Disk where
  tree := ⟨fun d => d == [], rfl, fun _ _ h => by simp at h⟩
  cwd := []
  has_cwd := rfl

/-- Two processes make a directory in the root. -/
theorem createDirectoryRecursively_iff_tmp :
    (rootDisk.mkdir (ascii "/tmp/")).1 = .created ∧
      ∀ labels s, Run (Interleaved createDirectoryRecursively)
        (callers Bool rootDisk (ascii "/tmp/")) labels s →
        ∀ t, createDirectoryRecursively s.shared (s.locals t) = none →
          s.locals t = .returned ∧ s.shared.Names (ascii "/tmp/") :=
  ⟨by decide, (createDirectoryRecursively_iff Bool rootDisk (ascii "/tmp/")).2.mpr (by decide)⟩

/-- A process alone fails to make `a/.`, and of two processes that make `a/b` the first fails if the
second makes the directory after the first try of the first. -/
theorem createDirectoryRecursively_throws :
    (∃ labels s, Run (Interleaved createDirectoryRecursively)
      (callers Unit rootDisk (ascii "a/.")) labels s ∧ s.locals () = .threw) ∧
    ∃ labels s, Run (Interleaved createDirectoryRecursively)
      (callers Bool rootDisk (ascii "a/b")) labels s ∧ s.locals false = .threw ∧
        s.locals true = .returned := by
  constructor
  · have halone : (exec (Processes.next createDirectoryRecursively)
        (callers Unit rootDisk (ascii "a/.")) [(), (), ()]).map (fun r => r.2.locals ()) =
          some .threw := by
      decide
    exact exists_run_of_exec halone
  · have hboth : (exec (Processes.next createDirectoryRecursively)
        (callers Bool rootDisk (ascii "a/b")) [false, true, true, true, false, false]).map
          (fun r => (r.2.locals false, r.2.locals true)) = some (.threw, .returned) := by
      decide
    obtain ⟨labels, s, hrun, hlocals⟩ := exists_run_of_exec hboth
    exact ⟨labels, s, hrun, Prod.mk.inj hlocals⟩

end Demos.Oak
