import Demos.Lib.Ownership
import Demos.Lib.Run

/-!
# Descriptors of files

A `File` has a descriptor and knows whether it owns it. It closes what it owns when it is destroyed,
closed or assigned to, and gives it away when it is moved from or released. A descriptor that is
closed may be given out again at once, so a second close would hit somebody else's file. As long as
the rest of the program hands over only descriptors that it has, and closes no others, every open
descriptor is owned by one object or by the rest of the program.

An object has a name. Which descriptor `open` returns is an input of a step, and so is whether it
fails. What `close` returns is ignored.
-/

namespace Demos.Oak

open Demos.Lib

/-- `File`. -/
structure FileObject where
  fd : ℤ
  owner : Bool
deriving DecidableEq, Repr

namespace FileObject

/-- What `Release` leaves. -/
def released : FileObject := ⟨-1, false⟩

/-- The descriptor that `Close` closes. -/
def closes (file : FileObject) : Option ℤ :=
  if file.fd ≠ -1 ∧ file.owner then some file.fd else none

/-- The descriptor that a file owns. -/
def owned (file : FileObject) : Option ℕ :=
  match file.fd with
  | Int.ofNat n => if file.owner then some n else none
  | Int.negSucc _ => none

@[simp]
theorem owned_released : released.owned = none := rfl

@[simp]
theorem owned_ofNat (n : ℕ) : (FileObject.mk n true).owned = some n := rfl

@[simp]
theorem owned_of_not_owner (fd : ℤ) : (FileObject.mk fd false).owned = none := by
  cases fd <;> rfl

/-- A file owns what it would close, if that is a descriptor at all. -/
theorem closes_of_owned {file : FileObject} {n : ℕ} (h : file.owned = some n) :
    file.closes = some (n : ℤ) ∧ file = ⟨n, true⟩ := by
  obtain ⟨fd, owner⟩ := file
  cases fd with
  | ofNat m =>
    cases owner with
    | false => cases h
    | true =>
      cases h
      exact ⟨by simp [closes], rfl⟩
  | negSucc m => cases h

end FileObject

/-- The files of the program by their names, the descriptors that are open, and those of them that
the rest of the program answers for. -/
structure FileTable (Name : Type*) where
  files : Name → Option FileObject
  isOpen : ℕ → Bool
  outside : ℕ → Bool

/-- What a step shows. -/
inductive FileEvent (Name : Type*) where
  | quiet
  | opened (name : Name) (fd : ℕ)
  | wrapped (name : Name) (fd : ℤ) (owner : Bool)
  | closed (name : Name) (fd : ℤ)
  | outsideOpened (fd : ℕ)
  | outsideClosed (fd : ℕ)

namespace FileTable

variable {Name : Type*}

/-- The program starts with descriptors that it has not opened. -/
def init (inherited : ℕ → Bool) : FileTable Name where
  files := fun _ => none
  isOpen := inherited
  outside := inherited

section Calls

variable [DecidableEq Name]

/-- Change a file. -/
def setFile (s : FileTable Name) (name : Name) (file : Option FileObject) : FileTable Name :=
  { s with files := Function.update s.files name file }

/-- `close`. -/
def closeDescriptor (s : FileTable Name) : Option ℤ → FileTable Name
  | some (Int.ofNat n) => { s with
      isOpen := Function.update s.isOpen n false, outside := Function.update s.outside n false }
  | _ => s

/-- `File::Close`, for the object with a name. -/
def close (s : FileTable Name) (name : Name) (file : FileObject) :
    FileEvent Name × FileTable Name :=
  let s' := (s.closeDescriptor file.closes).setFile name (some .released)
  match file.closes with
  | some fd => (.closed name fd, s')
  | none => (.quiet, s')

/-- The calls of `File`, and what the rest of the program does with descriptors. -/
inductive Action (Name : Type*) where
  | openFile (name : Name) (answer : Option ℕ)
  | wrap (name : Name) (fd : ℤ) (owner : Bool)
  | moveConstruct (name other : Name)
  | moveAssign (name other : Name)
  | close (name : Name)
  | release (name : Name)
  | destroy (name : Name)
  | outsideOpen (fd : ℕ)
  | outsideClose (fd : ℕ)

/-- One call. An object is constructed under a name that has none, and the other calls need one. -/
def next (s : FileTable Name) : Action Name → Option (FileEvent Name × FileTable Name)
  | .openFile name answer =>
    match s.files name, answer with
    | some _, _ => none
    -- the constructor throws
    | none, none => some (.quiet, s)
    | none, some fd =>
      if s.isOpen fd then none
      else some (.opened name fd, { s.setFile name (some ⟨fd, true⟩) with
        isOpen := Function.update s.isOpen fd true })
  | .wrap name fd owner =>
    match s.files name with
    | some _ => none
    | none => some (.wrapped name fd owner, { s.setFile name (some ⟨fd, owner⟩) with
        outside := match fd, owner with
          | Int.ofNat n, true => Function.update s.outside n false
          | _, _ => s.outside })
  | .moveConstruct name other =>
    match s.files name, s.files other with
    | none, some file =>
      some (.quiet, (s.setFile name (some file)).setFile other (some .released))
    | _, _ => none
  | .moveAssign name other =>
    match s.files name, s.files other with
    | some file, some file' =>
      if name = other then some (.quiet, s)
      else
        let (event, s) := s.close name file
        some (event, (s.setFile name (some file')).setFile other (some .released))
    | _, _ => none
  | .close name => (s.files name).map fun file => s.close name file
  | .release name =>
    (s.files name).map fun file => (.quiet, { s.setFile name (some .released) with
      outside := match file.owned with
        | some n => Function.update s.outside n true
        | none => s.outside })
  | .destroy name =>
    (s.files name).map fun file =>
      let (event, s) := s.close name file
      (event, s.setFile name none)
  | .outsideOpen fd =>
    if s.isOpen fd then none
    else some (.outsideOpened fd, { s with
      isOpen := Function.update s.isOpen fd true, outside := Function.update s.outside fd true })
  | .outsideClose fd => some (.outsideClosed fd, s.closeDescriptor (some fd))

/-- The steps of the program, whatever is called. -/
def Step : FileTable Name → FileEvent Name → FileTable Name → Prop := Moves next

end Calls

/-- The rest of the program makes a file the owner of a descriptor only if it has that descriptor,
and closes no other. -/
def disciplined (s : FileTable Name) : FileEvent Name → Bool
  | .wrapped _ (Int.ofNat n) true => s.outside n
  | .wrapped _ (Int.negSucc n) true => n = 0
  | .outsideClosed fd => s.outside fd
  | _ => true

/-- Who answers for a descriptor. -/
inductive Holder (Name : Type*) where
  | file (name : Name)
  | outside (fd : ℕ)
deriving DecidableEq

/-- The descriptor that a holder answers for. -/
def holds (s : FileTable Name) : Holder Name → Option ℕ
  | .file name => (s.files name).bind FileObject.owned
  | .outside fd => if s.outside fd then some fd else none

/-- The open descriptors. -/
def live (s : FileTable Name) : Set ℕ := {fd | s.isOpen fd = true}

variable {s s' : FileTable Name} {event : FileEvent Name} {labels : List (FileEvent Name)}
  {name other : Name} {file : FileObject} {fd n : ℕ}

theorem holds_file (h : s.files name = some file) : s.holds (.file name) = file.owned := by
  simp [holds, h]

theorem holds_outside_iff : s.holds (.outside fd) = some n ↔ s.outside fd = true ∧ fd = n := by
  simp only [holds]
  split_ifs with h <;> simp [h]

/-- A file owns its descriptor alone. -/
theorem outside_eq_false (hexact : Exact s.holds s.live) (h : s.files name = some file)
    (howned : file.owned = some n) : s.outside n = false := by
  by_contra htrue
  have houtside : s.holds (.outside n) = some n :=
    holds_outside_iff.mpr ⟨by simpa using htrue, rfl⟩
  cases hexact.unique houtside ((holds_file h).trans howned)

/-- Every open descriptor has one holder, and a file that owns anything owns a descriptor. -/
structure Owned (s : FileTable Name) : Prop where
  exact : Exact s.holds s.live
  valid : ∀ name file, s.files name = some file → file.owner = true → -1 ≤ file.fd

/-- The program starts with what it has inherited. -/
theorem owned_init (inherited : ℕ → Bool) : Owned (init inherited : FileTable Name) where
  exact := by
    refine ⟨⟨fun {holder fd} h => ?_, fun {holder holder' fd} h h' => ?_⟩, fun {fd} hfd => ?_⟩
    · cases holder with
      | file name => cases h
      | outside fd' =>
        obtain ⟨hinherited, rfl⟩ := holds_outside_iff.mp h
        exact hinherited
    · cases holder with
      | file name => cases h
      | outside fd₁ =>
        cases holder' with
        | file name => cases h'
        | outside fd₂ =>
          exact congrArg _ ((holds_outside_iff.mp h).2.trans (holds_outside_iff.mp h').2.symm)
    · exact ⟨.outside fd, holds_outside_iff.mpr ⟨hfd, rfl⟩⟩
  valid _ _ h := by cases h

theorem holds_file_none (h : s.files name = none) : s.holds (.file name) = none := by
  simp [holds, h]

section Changes

variable [DecidableEq Name]

theorem holds_setFile (s : FileTable Name) (name : Name) (file : Option FileObject) :
    (s.setFile name file).holds =
      Function.update s.holds (.file name) (file.bind FileObject.owned) := by
  funext holder
  cases holder with
  | file name' =>
    by_cases hname : name' = name
    · subst hname
      simp [holds, setFile]
    · have hne : Holder.file name' ≠ Holder.file name := by simpa using hname
      simp [holds, setFile, hname, hne]
  | outside fd => rfl

/-- What the rest of the program answers for after a change. -/
theorem holds_update_outside (s : FileTable Name) (isOpen : ℕ → Bool) (n : ℕ) (value : Bool) :
    ({ s with isOpen := isOpen, outside := Function.update s.outside n value }).holds =
      Function.update s.holds (.outside n) (if value then some n else none) := by
  funext holder
  cases holder with
  | file name => simp [holds]
  | outside fd =>
    by_cases hfd : fd = n
    · subst hfd
      simp [holds]
    · have hne : (Holder.outside fd : Holder Name) ≠ .outside n := by simpa using hfd
      simp [holds, hfd, hne]

/-- `Close` takes the descriptor from the file and from the open ones. -/
theorem close_eq (hexact : Exact s.holds s.live) (h : s.files name = some file) :
    (s.close name file).2.holds = Function.update s.holds (.file name) none ∧
      (s.close name file).2.live = s.live \ heldBy s.holds (.file name) := by
  have hstate : (s.close name file).2 =
      (s.closeDescriptor file.closes).setFile name (some .released) := by
    unfold close
    split <;> rfl
  rw [hstate, holds_setFile]
  cases howned : file.owned with
  | some n =>
    obtain ⟨hcloses, -⟩ := FileObject.closes_of_owned howned
    have hnone : s.holds (.outside n) = none := by
      simp [holds, outside_eq_false hexact h howned]
    have hclosed : s.closeDescriptor file.closes = { s with
        isOpen := Function.update s.isOpen n false
        outside := Function.update s.outside n false } := by
      rw [hcloses]
      rfl
    rw [hclosed, holds_update_outside]
    refine ⟨?_, ?_⟩
    · simp only [Bool.false_eq_true, if_false, Option.bind_some, FileObject.owned_released]
      rw [← hnone, Function.update_eq_self]
    · ext fd
      by_cases hfd : fd = n
      · simp [live, setFile, heldBy, holds_file h, howned, hfd]
      · simp [live, setFile, heldBy, holds_file h, howned, hfd]
  | none =>
    have hclosed : s.closeDescriptor file.closes = s := by
      obtain ⟨fd, owner⟩ := file
      cases fd with
      | ofNat m => cases owner <;> simp_all [FileObject.closes, FileObject.owned, closeDescriptor]
      | negSucc m => unfold FileObject.closes; split_ifs <;> rfl
    rw [hclosed]
    refine ⟨rfl, ?_⟩
    ext fd
    simp [live, setFile, heldBy, holds_file h, howned]

/-- Changing a file keeps the files valid. -/
theorem valid_setFile (hvalid : ∀ name f, s.files name = some f → f.owner = true → -1 ≤ f.fd)
    (name : Name) (file : Option FileObject)
    (hfile : ∀ f, file = some f → f.owner = true → -1 ≤ f.fd) :
    ∀ name' f, (s.setFile name file).files name' = some f → f.owner = true → -1 ≤ f.fd := by
  intro name' f hf howner
  by_cases hname : name' = name
  · subst hname
    exact hfile f (by simpa [setFile] using hf) howner
  · exact hvalid name' f (by simpa [setFile, hname] using hf) howner

/-- A file that owns nothing is valid. -/
theorem valid_released (f : FileObject) (hf : some .released = some f) (howner : f.owner = true) :
    -1 ≤ f.fd := by
  cases hf
  cases howner

/-- A file with a descriptor is valid. -/
theorem valid_ofNat (fd : ℕ) (f : FileObject) (hf : some ⟨fd, true⟩ = some f)
    (_ : f.owner = true) : -1 ≤ f.fd := by
  cases hf
  exact (by decide : (-1 : ℤ) ≤ 0).trans (Int.natCast_nonneg fd)

omit [DecidableEq Name] in
/-- A descriptor that is opened is live. -/
theorem live_open (hopen : s'.isOpen = Function.update s.isOpen fd true) :
    s'.live = insert fd s.live := by
  ext n
  by_cases hn : n = fd <;> simp [live, hopen, hn]

/-- `Close` keeps the descriptors owned. -/
theorem Owned.close (h : Owned s) (hfile : s.files name = some file) :
    Owned (s.close name file).2 ∧
      (s.close name file).2.files = Function.update s.files name (some .released) := by
  have hfiles : (s.close name file).2.files = Function.update s.files name (some .released) := by
    unfold FileTable.close closeDescriptor
    split <;> split <;> rfl
  obtain ⟨hholds, hlive⟩ := close_eq h.exact hfile
  refine ⟨⟨?_, ?_⟩, hfiles⟩
  · rw [hholds, hlive]
    exact h.exact.release
  · rw [hfiles]
    exact valid_setFile h.valid name _ valid_released

/-- Destroying or replacing a file that owns nothing loses no descriptor. -/
theorem Owned.setFile (h : Owned s) {file : Option FileObject}
    (hnone : s.holds (.file name) = none) (howned : file.bind FileObject.owned = none)
    (hfile : ∀ f, file = some f → f.owner = true → -1 ≤ f.fd) : Owned (s.setFile name file) where
  exact := by
    rw [holds_setFile, howned, ← hnone, Function.update_eq_self]
    exact h.exact
  valid := valid_setFile h.valid name file hfile

/-- Moving hands the descriptor over to a file that owns nothing. -/
theorem Owned.move (h : Owned s) (hne : name ≠ other) (hnone : s.holds (.file name) = none)
    (hfile : s.files other = some file) :
    Owned ((s.setFile name (some file)).setFile other (some .released)) where
  exact := by
    have hholder : Holder.file name ≠ Holder.file other := by simpa using hne
    have hholds : ((s.setFile name (some file)).setFile other (some .released)).holds =
        Function.update (Function.update s.holds (.file name) (s.holds (.file other)))
          (.file other) none := by
      rw [holds_setFile, holds_setFile, holds_file hfile]
      rfl
    rw [hholds]
    exact h.exact.transfer hnone hholder
  valid := by
    refine valid_setFile (valid_setFile h.valid name _ ?_) other _ valid_released
    rintro f ⟨⟩
    exact h.valid other file hfile

/-- A file gets a descriptor that nobody has. -/
theorem Owned.openFile (h : Owned s) (hnone : s.files name = none) (hfd : s.isOpen fd = false) :
    Owned { s.setFile name (some ⟨fd, true⟩) with
      isOpen := Function.update s.isOpen fd true } where
  exact := by
    have hfresh : fd ∉ s.live := by simp [live, hfd]
    rw [live_open rfl]
    have hexact := (h.exact.acquire_iff hfresh).mpr (holds_file_none hnone)
    have hholds := holds_setFile s name (some ⟨fd, true⟩)
    simp only [Option.bind_some, FileObject.owned_ofNat] at hholds
    rw [← hholds] at hexact
    exact hexact
  valid := valid_setFile h.valid name _ (valid_ofNat fd)

/-- The rest of the program opens a descriptor. -/
theorem Owned.outsideOpen (h : Owned s) (hfd : s.isOpen fd = false) :
    Owned { s with
      isOpen := Function.update s.isOpen fd true
      outside := Function.update s.outside fd true } where
  exact := by
    have hfresh : fd ∉ s.live := by simp [live, hfd]
    have hnone : s.holds (.outside fd) = none := by
      cases hholds : s.holds (.outside fd) with
      | none => rfl
      | some n =>
        obtain ⟨-, rfl⟩ := holds_outside_iff.mp hholds
        exact absurd (h.exact.mem_live hholds) hfresh
    rw [holds_update_outside, if_pos rfl, live_open rfl]
    exact (h.exact.acquire_iff hfresh).mpr hnone
  valid := h.valid

/-- The rest of the program closes a descriptor that it has. -/
theorem Owned.outsideClose (h : Owned s) (hfd : s.outside fd = true) :
    Owned (s.closeDescriptor (some fd)) where
  exact := by
    have hheld : s.holds (.outside fd) = some fd := holds_outside_iff.mpr ⟨hfd, rfl⟩
    have hlive : (s.closeDescriptor (some fd)).live =
        s.live \ heldBy s.holds (.outside fd) := by
      ext n
      by_cases hn : n = fd
      · simp [live, closeDescriptor, heldBy, hheld, hn]
      · simp [live, closeDescriptor, heldBy, hheld, hn]
    have hholds : (s.closeDescriptor (some fd)).holds =
        Function.update s.holds (.outside fd) none :=
      holds_update_outside s _ fd false
    rw [hholds, hlive]
    exact h.exact.release
  valid := h.valid

/-- The rest of the program hands a descriptor over. -/
theorem Owned.adopt (h : Owned s) (hnone : s.files name = none) (hfd : s.outside fd = true) :
    Owned { s.setFile name (some ⟨fd, true⟩) with
      outside := Function.update s.outside fd false } where
  exact := by
    have hheld : s.holds (.outside fd) = some fd := holds_outside_iff.mpr ⟨hfd, rfl⟩
    have hholds := holds_update_outside (s.setFile name (some ⟨fd, true⟩)) s.isOpen fd false
    rw [holds_setFile, if_neg Bool.false_ne_true, Option.bind_some, FileObject.owned_ofNat,
      ← hheld] at hholds
    have hexact := h.exact.transfer (holds_file_none hnone)
      (by simp : Holder.file name ≠ .outside fd)
    rw [← hholds] at hexact
    exact hexact
  valid := valid_setFile h.valid name _ (valid_ofNat fd)

/-- A file gives its descriptor back to the rest of the program. -/
theorem Owned.release (h : Owned s) (hfile : s.files name = some file)
    (howned : file.owned = some n) :
    Owned { s.setFile name (some .released) with
      outside := Function.update s.outside n true } where
  exact := by
    have hnone : s.holds (.outside n) = none := by
      simp [holds, outside_eq_false h.exact hfile howned]
    have hheld : s.holds (.file name) = some n := (holds_file hfile).trans howned
    have hexact := h.exact.transfer hnone (by simp : Holder.outside n ≠ .file name)
    have hholds := holds_update_outside (s.setFile name (some .released)) s.isOpen n true
    rw [holds_setFile, if_pos rfl, Option.bind_some, FileObject.owned_released, ← hheld,
      Function.update_comm (by simp)] at hholds
    rw [← hholds] at hexact
    exact hexact
  valid := valid_setFile h.valid name _ valid_released

/-- Every call keeps the descriptors owned, if the rest of the program is disciplined. -/
theorem Step.owned (hstep : Step s event s') (hdisciplined : s.disciplined event = true)
    (h : Owned s) : Owned s' := by
  obtain ⟨action, hnext⟩ := hstep
  cases action with
  | openFile name answer =>
    simp only [next] at hnext
    split at hnext
    case h_1 => cases hnext
    case h_2 =>
      cases hnext
      exact h
    case h_3 fd hnone =>
      split_ifs at hnext with hopen
      cases hnext
      exact h.openFile hnone (by simpa using hopen)
  | wrap name fd owner =>
    simp only [next] at hnext
    split at hnext
    case h_1 => cases hnext
    case h_2 hnone =>
      cases hnext
      cases owner with
      | false =>
        have hsame : Owned (s.setFile name (some ⟨fd, false⟩)) :=
          h.setFile (holds_file_none hnone) (by simp) fun f hf howner => by
            cases hf
            simp at howner
        cases fd <;> exact hsame
      | true =>
        cases fd with
        | ofNat n => exact h.adopt hnone hdisciplined
        | negSucc n =>
          obtain rfl : n = 0 := by simpa [disciplined] using hdisciplined
          exact h.setFile (holds_file_none hnone) rfl fun f hf _ => by
            cases hf
            decide
  | moveConstruct name other =>
    simp only [next] at hnext
    split at hnext
    case h_1 file hnone hfile =>
      cases hnext
      refine h.move ?_ (holds_file_none hnone) hfile
      rintro rfl
      simp [hnone] at hfile
    case h_2 => cases hnext
  | moveAssign name other =>
    simp only [next] at hnext
    split at hnext
    case h_1 file file' hfile hother =>
      split_ifs at hnext with hname <;> cases hnext
      · exact h
      · obtain ⟨hclosed, hfiles⟩ := h.close hfile
        refine hclosed.move hname ?_ ?_
        · simp [holds, hfiles]
        · rw [hfiles, Function.update_of_ne (Ne.symm hname)]
          exact hother
    case h_2 => cases hnext
  | close name =>
    obtain ⟨file, hfile, heq⟩ := Option.map_eq_some_iff.mp hnext
    have hclosed := (h.close hfile).1
    rw [heq] at hclosed
    exact hclosed
  | release name =>
    obtain ⟨file, hfile, heq⟩ := Option.map_eq_some_iff.mp hnext
    cases heq
    cases howned : file.owned with
    | some n => exact h.release hfile howned
    | none =>
      exact h.setFile ((holds_file hfile).trans howned) rfl valid_released
  | destroy name =>
    obtain ⟨file, hfile, heq⟩ := Option.map_eq_some_iff.mp hnext
    cases heq
    obtain ⟨hclosed, hfiles⟩ := h.close hfile
    exact hclosed.setFile (by simp [holds, hfiles]) rfl (by simp)
  | outsideOpen fd =>
    simp only [next] at hnext
    split_ifs at hnext with hopen
    cases hnext
    exact h.outsideOpen (by simpa using hopen)
  | outsideClose fd =>
    cases hnext
    exact h.outsideClose hdisciplined

/-- The event of `Close` names the file and its descriptor. -/
theorem close_event {name' : Name} {fd : ℤ} (h : (s.close name' file).1 = .closed name fd) :
    name' = name ∧ file.closes = some fd ∧
      (s.close name' file).2.isOpen = (s.closeDescriptor (some fd)).isOpen := by
  unfold close at h ⊢
  split at h
  next fd' hcloses =>
    cases h
    simp [hcloses, FileTable.setFile]
  next => cases h

/-- The calls that close a descriptor close the one of the file that they are about. -/
theorem Step.closed {fd : ℤ} (hstep : Step s (.closed name fd) s') :
    ∃ file, s.files name = some file ∧ file.closes = some fd ∧
      s'.isOpen = (s.closeDescriptor (some fd)).isOpen := by
  obtain ⟨action, hnext⟩ := hstep
  have hcase {name' : Name} {file : FileObject} (hfile : s.files name' = some file)
      (hevent : (s.close name' file).1 = .closed name fd)
      (hopen : s'.isOpen = (s.close name' file).2.isOpen) :
      ∃ file, s.files name = some file ∧ file.closes = some fd ∧
        s'.isOpen = (s.closeDescriptor (some fd)).isOpen := by
    obtain ⟨rfl, hcloses, hclosed⟩ := close_event hevent
    exact ⟨file, hfile, hcloses, hopen.trans hclosed⟩
  cases action with
  | openFile name' answer =>
    simp only [next] at hnext
    split at hnext
    case h_1 => cases hnext
    case h_2 => cases hnext
    case h_3 =>
      split_ifs at hnext
      cases hnext
  | wrap | moveConstruct =>
    simp only [next] at hnext
    split at hnext <;> cases hnext
  | moveAssign name' other =>
    simp only [next] at hnext
    split at hnext
    case h_1 file file' hfile hother =>
      split_ifs at hnext
      · cases hnext
      · obtain ⟨hevent, hs'⟩ := Prod.mk.inj (Option.some.inj hnext)
        exact hcase hfile hevent (hs' ▸ rfl)
    case h_2 => cases hnext
  | close name' =>
    obtain ⟨file, hfile, heq⟩ := Option.map_eq_some_iff.mp hnext
    exact hcase hfile (congrArg Prod.fst heq) (congrArg (fun result => result.2.isOpen) heq).symm
  | release name' =>
    obtain ⟨file, hfile, heq⟩ := Option.map_eq_some_iff.mp hnext
    cases heq
  | destroy name' =>
    obtain ⟨file, hfile, heq⟩ := Option.map_eq_some_iff.mp hnext
    obtain ⟨hevent, hs'⟩ := Prod.mk.inj heq
    exact hcase hfile hevent (hs' ▸ rfl)
  | outsideOpen fd' =>
    simp only [next] at hnext
    split_ifs at hnext
    cases hnext
  | outsideClose fd' => cases hnext

/-- The steps of a program that is disciplined about descriptors. -/
def DisciplinedStep : FileTable Name → FileEvent Name → FileTable Name → Prop :=
  Guarded Step fun s event => s.disciplined event = true

theorem owned_of_run {inherited : ℕ → Bool}
    (hrun : Run DisciplinedStep (init inherited) labels s) : Owned s :=
  hrun.invariant (I := fun _ s => Owned s) (owned_init inherited)
    fun _ _ _ _ h hstep => Step.owned hstep.1 hstep.2 h

/-- Whatever is opened, moved, assigned, released and destroyed in whatever order, every open
descriptor is answered for by one file or by the rest of the program; and a descriptor that a file
closes is open, is owned by this file alone, and is not open afterwards. -/
theorem files_own {inherited : ℕ → Bool}
    (hrun : Run DisciplinedStep (init inherited) labels s) :
    (∀ fd, s.isOpen fd = true ↔ ∃! holder, s.holds holder = some fd) ∧
    ∀ name fd s', Step s (.closed name fd) s' →
      ∃ n : ℕ, fd = n ∧ s.isOpen n = true ∧ s.holds (.file name) = some n ∧
        s'.isOpen n = false := by
  have h := owned_of_run hrun
  refine ⟨fun fd => ⟨fun hopen => ?_, fun hholder => ?_⟩, fun name fd s' hstep => ?_⟩
  · obtain ⟨holder, hholder⟩ := h.exact.complete hopen
    exact ⟨holder, hholder, fun other hother => h.exact.unique hother hholder⟩
  · obtain ⟨holder, hholder, -⟩ := hholder
    exact h.exact.mem_live hholder
  · obtain ⟨file, hfile, hcloses, hopen⟩ := hstep.closed
    unfold FileObject.closes at hcloses
    split_ifs at hcloses with hcondition
    obtain ⟨hne, howner⟩ := hcondition
    cases hcloses
    have hvalid := h.valid name file hfile howner
    obtain ⟨n, hn⟩ := Int.eq_ofNat_of_zero_le (show 0 ≤ file.fd by omega)
    have hheld : s.holds (.file name) = some n := by
      rw [holds_file hfile]
      exact congrArg FileObject.owned (show file = ⟨(n : ℤ), true⟩ by cases file; simp_all)
    refine ⟨n, hn, h.exact.mem_live hheld, hheld, ?_⟩
    rw [hopen, hn]
    exact Function.update_self n false s.isOpen

/-- A file is opened, moved, assigned to and destroyed. -/
def movesFile : List (Action Bool) :=
  [.openFile false (some 3), .openFile true (some 4), .moveAssign true false, .destroy false]

/-- The second file has the descriptor of the first one, which is open, and can be destroyed. -/
theorem files_own_moved :
    ∃ labels s s', Run DisciplinedStep (init fun _ => false) labels s ∧
      Step s (.closed true 3) s' ∧ ∃ n : ℕ, (3 : ℤ) = n ∧ s.isOpen n = true := by
  have hexec : (exec (guardedNext next fun s event => s.disciplined event = true)
      (init fun _ => false) movesFile).map (fun result => result.2.files true) =
        some (some ⟨3, true⟩) := by
    decide +kernel
  obtain ⟨labels, s, hrun, hresult⟩ := exists_guarded_run_of_exec hexec
  have hfile : s.files true = some ⟨3, true⟩ := hresult
  have hstep : Step s (.closed true 3) ((s.close true ⟨3, true⟩).2) := by
    refine ⟨.close true, ?_⟩
    simp only [next, hfile, Option.map_some]
    rfl
  obtain ⟨n, hn, hopen, -⟩ := (files_own hrun).2 true 3 _ hstep
  exact ⟨labels, s, _, hrun, hstep, n, hn, hopen⟩

end Changes

end FileTable

end Demos.Oak
