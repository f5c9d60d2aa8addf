import Demos.Oak.Format

/-!
# Log messages

`LogImpl` puts the level, the file and the line in front of a message, in a buffer of 2048 bytes. If
the message does not fit, the end of the buffer is overwritten by a text that says so. The size of
that text counts its terminator, which takes the last byte of the buffer and is not passed on.
-/

namespace Demos.Oak

open Demos.Lib

/-- `LogLevel`. -/
inductive LogLevel where
  | debug
  | info
  | warning
  | error
  | fatal
deriving DecidableEq, Repr

namespace LogLevel

/-- The value of a level. -/
def toInt : LogLevel → ℤ
  | debug => 0
  | info => 1
  | warning => 2
  | error => 3
  | fatal => 4

instance : LT LogLevel := ⟨fun lhs rhs => lhs.toInt < rhs.toInt⟩

instance (lhs rhs : LogLevel) : Decidable (lhs < rhs) :=
  inferInstanceAs (Decidable (lhs.toInt < rhs.toInt))

/-- `LogLevelShortName`. -/
def shortName : LogLevel → Bytes
  | debug => ascii "D"
  | info => ascii "I"
  | warning => ascii "W"
  | error => ascii "E"
  | fatal => ascii "F"

end LogLevel

/-- `kTailMsg`, without its terminator. -/
def kTailMsg : Bytes := ascii "... (message truncated)\n"

/-- `kTailMsgSize`: the `sizeof` of the text, which has a terminator. -/
def kTailMsgSize : ℕ := kTailMsg.length + 1

/-- `kBufferSize`. -/
def kBufferSize : Int32 := 2048

/-- The text of `"%s [%s:%d] "` for a level, a file and a line. -/
def logHeader (level : LogLevel) (fname : Bytes) (line : Int32) : Bytes :=
  level.shortName ++ ascii " [" ++ fname ++ ascii ":" ++ formatLd line.toInt ++ ascii "] "

/-- What `snprintf` makes of a text, if its length is an `int`. -/
def Formatted.ofText (text : Bytes) : Option Formatted :=
  if small : text.length < 2 ^ 31 then some ⟨text, small⟩ else none

/-- The end of `LogImpl`: the tail is put over the end of a message that does not fit, and the text
is passed to the logger. -/
def finishLog (buffer : Cells UInt8) (plen len : Int32) : Option Bytes :=
  let len := if len < 0 then 0 else len
  if kBufferSize - plen ≤ len then do
    let buffer ← buffer.store (2048 - kTailMsgSize) (kTailMsg ++ [0])
    let len := kBufferSize - plen - 1
    buffer.load (sizeT (plen + len)).toNat
  else buffer.load (sizeT (plen + len)).toNat

/-- The part of `LogImpl` behind the test of the level: the text that is passed to the logger. There
is no result if a byte outside of the buffer is written or read. -/
def logText (header message : Option Formatted) : Option Bytes := do
  let (buffer, plen) ← vsnprintf (Cells.fresh 2048) 0 (sizeT kBufferSize) header
  let (buffer, len) ← vsnprintf buffer plen (sizeT (kBufferSize - plen)) message
  finishLog buffer plen len

/-- `LogImpl`: the text that is passed to the logger, if the level is not filtered out. -/
def logImpl (kLogLevel level : LogLevel) (fname : Bytes) (line : Int32)
    (message : Option Formatted) : Option (Option Bytes) :=
  if level < kLogLevel then some none
  else (logText (Formatted.ofText (logHeader level fname line)) message).map some

/-- The text of a header and a message as it reaches the logger. -/
def loggedText (header message : Bytes) : Bytes :=
  if (header ++ message).length < 2048 then header ++ message
  else (header ++ message).take 2023 ++ kTailMsg

/-- What is left of the buffer behind a header. -/
theorem kBufferSize_sub {p : ℕ} (hp : p ≤ 2048) :
    kBufferSize - Int32.ofNat p = Int32.ofNat (2048 - p) :=
  (Int32.ofNat_sub 2048 p hp).symm

theorem length_cut {text : Bytes} (hlong : 2023 ≤ text.length) :
    (text.take 2023 ++ kTailMsg).length = 2047 := by
  rw [List.length_append, List.length_take_of_le hlong]
  rfl

/-- The part of a long text before the tail is in the buffer. -/
theorem take_stored {header message : Bytes} (hheader : header.length < 2023)
    (hlong : 2047 - header.length ≤ message.length) :
    (header ++ (message.take (2047 - header.length) ++ [0])).take 2023 =
      (header ++ message).take 2023 := by
  have hpart : 2023 - header.length ≤ (message.take (2047 - header.length)).length := by
    rw [List.length_take]
    omega
  have hmin : min (2023 - header.length) (2047 - header.length) = 2023 - header.length := by omega
  rw [List.take_append, List.take_append_of_le_length hpart, List.take_take, hmin,
    ← List.take_append]

/-- A message that fills the buffer leaves no room behind the header. -/
theorem toNat_sizeT_full {p : ℕ} (hp : p < 2023) :
    (sizeT (Int32.ofNat p + (kBufferSize - Int32.ofNat p - 1))).toNat = 2047 := by
  have hlast : Int32.ofNat (2048 - p) - 1 = Int32.ofNat (2048 - p - 1) :=
    (Int32.ofNat_sub _ 1 (by omega)).symm
  rw [kBufferSize_sub (by omega), hlast, ← Int32.ofNat_add, toNat_sizeT (by omega)]
  omega

section Finish

variable {buffer : Cells UInt8} {header message : Bytes} (hheader : header.length < 2023)
  (hmessage : message.length < 2 ^ 31)
  (hbegins : buffer.Begins (header ++ (message.take (2047 - header.length) ++ [0])))
include hheader hmessage hbegins

/-- A message that is too long gets the tail. -/
theorem finishLog_of_long (hlength : buffer.length = 2048)
    (hlong : 2048 - header.length ≤ message.length) :
    finishLog buffer (Int32.ofNat header.length) (Int32.ofNat message.length) =
      some ((header ++ message).take 2023 ++ kTailMsg) := by
  have hfull : kBufferSize - Int32.ofNat header.length ≤ Int32.ofNat message.length := by
    rwa [kBufferSize_sub (by omega), Int32.ofNat_le_iff_le (by omega) hmessage]
  have hknown : (header ++ (message.take (2047 - header.length) ++ [0])).length = 2048 := by
    simp only [List.length_append, List.length_take, List.length_singleton]
    omega
  have htail : 2048 - kTailMsgSize + (kTailMsg ++ [0]).length = 2048 := by decide
  obtain ⟨buffer', hstore, -, hbegins'⟩ :=
    @Cells.Begins.store _ _ _ (kTailMsg ++ [0]) (2048 - kTailMsgSize) hbegins (by omega) (by omega)
  have htaken : ((header ++ message).take 2023 ++ kTailMsg).length = 2047 :=
    length_cut (by rw [List.length_append]; omega)
  simp only [finishLog, if_neg (not_ofNat_lt_zero hmessage), if_pos hfull, hstore,
    Option.bind_eq_bind, Option.bind_some, toNat_sizeT_full hheader]
  change buffer'.Begins (List.take 2023 _ ++ _) at hbegins'
  rw [take_stored hheader (by omega), ← List.append_assoc] at hbegins'
  rw [hbegins'.load (by rw [List.length_append, htaken]; omega), ← htaken, List.take_left]

/-- A message that fits is left as it is. -/
theorem finishLog_of_short (hshort : message.length < 2048 - header.length) :
    finishLog buffer (Int32.ofNat header.length) (Int32.ofNat message.length) =
      some (header ++ message) := by
  have hroom : ¬ kBufferSize - Int32.ofNat header.length ≤ Int32.ofNat message.length := by
    rw [kBufferSize_sub (by omega), Int32.ofNat_le_iff_le (by omega) hmessage]
    omega
  simp only [finishLog, if_neg (not_ofNat_lt_zero hmessage), if_neg hroom]
  rw [← Int32.ofNat_add, toNat_sizeT (by omega)]
  rw [List.take_of_length_le (by omega)] at hbegins
  rw [hbegins.load (by simp), ← List.append_assoc, ← List.length_append, List.take_left]

/-- A text that fits is passed on as it is, and another one is cut before the tail. -/
theorem finishLog_eq (hlength : buffer.length = 2048) :
    finishLog buffer (Int32.ofNat header.length) (Int32.ofNat message.length) =
      some (loggedText header message) := by
  rw [loggedText, List.length_append]
  split
  next hshort => exact finishLog_of_short hheader hmessage hbegins (by omega)
  next hlong => exact finishLog_of_long hheader hmessage hbegins hlength (by omega)

end Finish

/-- A text with a header that leaves room for the tail. -/
theorem logText_eq (header message : Formatted) (hheader : header.text.length < 2023) :
    logText (some header) (some message) = some (loggedText header.text message.text) := by
  obtain ⟨buffer₁, hfirst, hlength₁, hbegins₁⟩ := @vsnprintf_eq (Cells.fresh 2048)
    (sizeT kBufferSize) [] 0 header (Cells.begins_nil _) (by decide) (by decide) (by decide)
    (by rw [Cells.length_fresh]; decide)
  rw [Cells.length_fresh] at hlength₁
  have hbegins₁ : buffer₁.Begins (header.text ++ [0]) := by
    have hwhole : (sizeT kBufferSize).toNat - 1 = 2047 := by decide
    rwa [hwhole, List.take_nil, List.nil_append, List.take_of_length_le (by omega)] at hbegins₁
  have hrest : (sizeT (kBufferSize - Int32.ofNat header.text.length)).toNat =
      2048 - header.text.length := by
    rw [kBufferSize_sub (by omega), toNat_sizeT (by omega)]
  have hne : sizeT (kBufferSize - Int32.ofNat header.text.length) ≠ 0 := by
    rw [Ne, ← UInt64.toNat_inj, hrest, UInt64.toNat_zero]
    omega
  obtain ⟨buffer₂, hsecond, hlength₂, hbegins₂⟩ := @vsnprintf_eq buffer₁ _ _ _
    message hbegins₁ header.small (by simp) hne (by omega)
  rw [hrest, List.take_left, Nat.sub_sub, Nat.add_comm, ← Nat.sub_sub] at hbegins₂
  have hfinish := finishLog_eq hheader message.small hbegins₂ (hlength₂.trans hlength₁)
  change (vsnprintf (Cells.fresh 2048) (Int32.ofNat 0) _ _).bind _ = _
  rw [hfirst, Option.bind_some]
  change (vsnprintf _ _ _ _).bind _ = _
  rw [hsecond, Option.bind_some]
  exact hfinish

/-- A message of a level that is not filtered out, with a header that leaves room for the tail, is
passed on as it is if it is shorter than the buffer. Otherwise its first 2023 bytes and the tail of
24 bytes are passed on. No byte outside of the buffer is written. -/
theorem logImpl_eq {kLogLevel level : LogLevel} (hlevel : ¬ level < kLogLevel) (fname : Bytes)
    (line : Int32) (hheader : (logHeader level fname line).length < 2023) (message : Formatted) :
    ∃ text, logImpl kLogLevel level fname line (some message) = some (some text) ∧
      ((logHeader level fname line ++ message.text).length < 2048 →
        text = logHeader level fname line ++ message.text) ∧
      (2048 ≤ (logHeader level fname line ++ message.text).length →
        text = (logHeader level fname line ++ message.text).take 2023 ++ kTailMsg ∧
          kTailMsg.length = 24 ∧ text.length = 2047) := by
  have hsmall : (logHeader level fname line).length < 2 ^ 31 := by omega
  have hlog := logText_eq ⟨logHeader level fname line, hsmall⟩ message hheader
  refine ⟨loggedText (logHeader level fname line) message.text, ?_, fun hshort => if_pos hshort,
    fun hlong => ?_⟩
  · rw [logImpl, if_neg hlevel, Formatted.ofText, dif_pos hsmall, hlog]
    rfl
  · rw [loggedText, if_neg (by omega)]
    exact ⟨rfl, by decide, length_cut (by omega)⟩

/-- A message that is shorter than the buffer, at the level that is logged. -/
theorem logImpl_eq_short :
    logImpl .error .error (ascii "rs.cc") 7 (some ⟨ascii "stopped", by decide⟩) =
      some (some (ascii "E [rs.cc:7] stopped")) := by
  obtain ⟨text, hlog, hshort, -⟩ := @logImpl_eq .error .error (by decide) (ascii "rs.cc") 7
    (by decide +kernel) ⟨ascii "stopped", by decide⟩
  rw [hlog, hshort (by decide +kernel)]
  decide +kernel

end Demos.Oak
