import Demos.Lib.Transfer
import Demos.Oak.Config.RoundTrip

/-!
# The configuration in its file

`ReadConfig` reads its file in pieces until nothing is left, and so it has the whole text, whatever
the sizes of the pieces are. `WriteConfig` writes once and does not look at the number of bytes that
were written. The file is truncated before, so it has the document exactly if this one call takes
all of it, and it has only a part of it otherwise.
-/

namespace Demos.Oak

open Demos.Lib

variable {R : Type}

/-- An error of the system, or one that the program finds itself. -/
inductive FileError where
  | system
  | thrown (fault : Fault)
deriving DecidableEq, Repr

/-- `File::Write`: the number of bytes that were written. -/
def fileWrite (buffer : Bytes) (calls : List Transfer) : Option (Except FileError ℕ) :=
  if buffer = [] then some (.error (.thrown (.assertion "Invalid size")))
  else
    (repeatInterrupted calls).map fun answer =>
      match answer.1 with
      | none => .error .system
      | some k => .ok (min (k + 1) buffer.length)

/-- `File::Read` where `rest` is behind the offset of the file: the bytes that were read, and the
calls behind this one. -/
def fileRead (size : ℕ) (rest : Bytes) (calls : List Transfer) :
    Option (Except FileError Bytes × List Transfer) :=
  if size = 0 then some (.error (.thrown (.assertion "Invalid size")), calls)
  else
    (repeatInterrupted calls).map fun answer =>
      match answer.1 with
      | none => (.error .system, answer.2)
      | some k => (.ok (rest.take (min (k + 1) size)), answer.2)

/-- `WriteConfig` with the file open: the text in the file when it returns. -/
def writeConfigFile (write : Json R → Bytes) (config : Config) (calls : List Transfer) :
    Option (Except FileError Bytes) :=
  let buffer := writeConfig write config
  (fileWrite buffer calls).map (Except.map buffer.take)

/-- The loop of `ReadConfig` where `rest` is behind the offset of the file: the text in the buffer
at its end. -/
def readLoop (calls : List Transfer) (rest buffer : Bytes) : Option (Except FileError Bytes) :=
  (receiveAll 1024 calls rest buffer).map fun
    | none => .error .system
    | some buffer => .ok buffer

/-- `ReadConfig` with the file open. -/
def readConfigFile (real : RealOps R) (parse : Bytes → Option (Json R)) (config : Config)
    (text : Bytes) (calls : List Transfer) : Option (Except FileError Config) :=
  (readLoop calls text []).map fun result =>
    result.bind fun buffer => (readConfig real parse config buffer).mapError .thrown

variable {calls : List Transfer} {rest buffer text : Bytes} {write : Json R → Bytes}
  {config : Config}

/-- The loop reads a piece and appends it until nothing was read. -/
theorem readLoop_eq (calls : List Transfer) (rest buffer : Bytes) : readLoop calls rest buffer =
    (fileRead 1024 rest calls).bind fun
      | (.error e, _) => some (.error e)
      | (.ok piece, calls) =>
        if piece.length = 0 then some (.ok buffer)
        else readLoop calls (rest.drop piece.length) (buffer ++ piece) := by
  rw [readLoop, receiveAll_eq, fileRead, if_neg (by decide)]
  cases repeatInterrupted calls with
  | none => rfl
  | some answer =>
    obtain ⟨_ | k, calls⟩ := answer
    · rfl
    · -- nothing is read only at the end of the file
      have hpiece : (rest.take (min (k + 1) 1024)).length = 0 ↔ rest = [] := by
        rw [List.length_take, ← List.length_eq_zero_iff]
        omega
      have hdrop : rest.drop (rest.take (min (k + 1) 1024)).length =
          rest.drop (min (k + 1) 1024) := by
        rcases Nat.le_total (min (k + 1) 1024) rest.length with hle | hle
        · rw [List.length_take_of_le hle]
        · rw [List.take_of_length_le hle, List.drop_length, List.drop_of_length_le hle]
      simp only [Option.bind_some, Option.map_some, hpiece, hdrop]
      split <;> rfl

/-- The buffer has the text of the file. -/
theorem readLoop_eq_ok (h : readLoop calls text [] = some (.ok buffer)) : buffer = text := by
  obtain ⟨result, hreceive, hresult⟩ := Option.map_eq_some_iff.mp h
  cases result with
  | none => cases hresult
  | some all =>
    cases hresult
    exact receiveAll_eq_some hreceive

/-- With enough calls and no error the loop has read the text of the file. -/
theorem readLoop_returns (hcalls : .failed ∉ calls)
    (henough : text.length < calls.countP Transfer.isMoves) :
    readLoop calls text [] = some (.ok text) := by
  rw [readLoop, receiveAll_returns (by decide) hcalls henough]
  rfl

/-- `WriteConfig` returns when the system has taken some bytes, and they are in the file. -/
theorem writeConfigFile_eq_ok_iff : writeConfigFile write config calls = some (.ok text) ↔
    writeConfig write config ≠ [] ∧ ∃ k rest, repeatInterrupted calls = some (some k, rest) ∧
      text = (writeConfig write config).take (k + 1) := by
  rw [writeConfigFile, fileWrite]
  split
  next hnil => simp [hnil, Except.map]
  next hne =>
    rcases repeatInterrupted calls with _ | ⟨_ | k, rest⟩
    · simp
    · simp [Except.map]
    · have htake : (writeConfig write config).take (min (k + 1) (writeConfig write config).length) =
          (writeConfig write config).take (k + 1) := by
        rw [List.take_eq_take_iff]
        omega
      simp [Except.map, hne, htake, eq_comm]

/-- When `WriteConfig` returns, the file has the document exactly if the call that was not
interrupted took all bytes of it. `ReadConfig` has the text of the file, and it does return. -/
theorem writeConfigFile_complete_iff
    (hwrite : writeConfigFile write config calls = some (.ok text)) :
    (text = writeConfig write config ↔
      ∃ k rest, repeatInterrupted calls = some (some k, rest) ∧
        (writeConfig write config).length ≤ k + 1) ∧
    (∀ reads buffer, readLoop reads text [] = some (.ok buffer) → buffer = text) ∧
    ∀ (real : RealOps R) parse start reads, .failed ∉ reads →
      text.length < reads.countP Transfer.isMoves →
        readConfigFile real parse start text reads =
          some ((readConfig real parse start text).mapError .thrown) := by
  obtain ⟨-, k, rest, hcalls, rfl⟩ := writeConfigFile_eq_ok_iff.mp hwrite
  refine ⟨?_, fun reads buffer => readLoop_eq_ok, fun real parse start reads hreads henough => ?_⟩
  · rw [hcalls, List.take_eq_self_iff]
    simp
  · rw [readConfigFile, readLoop_returns hreads henough]
    rfl

/-- What the styled writer makes of the default configuration. -/
def writeDefaults : Json Empty → Bytes := fun _ => styledText "-1" "-1" "-1"

/-- The document is in the file after a call that was interrupted and one that takes all of it. -/
theorem writeConfigFile_complete_iff_defaults :
    ∃ text, writeConfigFile writeDefaults {} [.interrupted, .moves 1023] = some (.ok text) ∧
      text = writeConfig writeDefaults {} := by
  have hlength : 0 < (writeConfig writeDefaults {}).length ∧
      (writeConfig writeDefaults {}).length ≤ 1024 := by decide +kernel
  have hwrite := writeConfigFile_eq_ok_iff.mpr ⟨List.length_pos_iff.mp hlength.1, 1023, [],
    (rfl : repeatInterrupted [.interrupted, .moves 1023] = _), rfl⟩
  exact ⟨_, hwrite, (writeConfigFile_complete_iff hwrite).1.mpr ⟨1023, [], rfl, hlength.2⟩⟩

/-- One byte of the document is in the file if the system takes one byte. So it is for every
document of two or more bytes. -/
theorem writeConfigFile_short :
    writeConfigFile writeDefaults {} [.moves 0] = some (.ok (ascii "\x7b")) ∧
      writeConfig writeDefaults {} ≠ ascii "\x7b" ∧
      ∀ write : Json Empty → Bytes, 2 ≤ (writeConfig write {}).length →
        ∃ text, writeConfigFile write {} [.moves 0] = some (.ok text) ∧
          text ≠ writeConfig write {} := by
  refine ⟨by decide +kernel, by decide +kernel, fun write hlength => ?_⟩
  have hne : writeConfig write {} ≠ [] := List.length_pos_iff.mp (by omega)
  refine ⟨_, writeConfigFile_eq_ok_iff.mpr ⟨hne, 0, [], rfl, rfl⟩, fun heq => ?_⟩
  have hone : (writeConfig write {}).length ≤ 0 + 1 := List.take_eq_self_iff _ |>.mp heq
  omega

end Demos.Oak
