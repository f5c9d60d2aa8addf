import Demos.Oak.Channel.Fifo
import Demos.Oak.Config.RoundTrip

/-!
# The channels that the threads create

`ParserThreadRoutine` and `SinkThreadRoutine` take the sizes of their channels from the
configuration, with a default for numbers that are not positive, and hand them to the constructor
as they are. The constructor asserts a power of two. For such a size, and for no other, there is a
channel, and while its calls are made one after the other the used space counts the queued items.
-/

namespace Demos.Oak

open Demos.Lib ChannelSystem

variable {Thread : Type*} {α R : Type} {n : ℕ} {records : ℕ → α} {real : RealOps R}

/-- The constructor of `Channel`; the `int` of the caller becomes a `uint32_t`. -/
def Channel.create (size : ℤ) (records : ℕ → α) : Except Fault (Channel α) := do
  let size := (size % 2 ^ 32).toNat
  assert (size &&& subU32 size 1 = 0) "size MUST be a pwer of 2"
  return Channel.new size records

/-- The size that a thread routine takes for a channel. -/
def channelSize (configured default : ℤ) : ℤ := if configured ≤ 0 then default else configured

/-- The channels of `ParserThreadRoutine`: the stream and the report. -/
def parserChannels (config : ParserConfig) (records : ℕ → α) :
    Except Fault (Channel α × Channel α) := do
  let stream ← Channel.create (channelSize config.streamChannelSize 512) records
  let report ← Channel.create (channelSize config.reportChannelSize 1024) records
  return (stream, report)

/-- The channel of `SinkThreadRoutine`. -/
def sinkChannel (config : SinkConfig) (records : ℕ → α) : Except Fault (Channel α) :=
  Channel.create (channelSize config.streamChannelSize 512) records

/-- A size that a configuration file can carry: what `asUInt` accepts, stored in an `int`. -/
def Carried (real : RealOps R) (size : ℤ) : Prop := ∃ value : Json R, value.asInt real = .ok size

/-- The size is not positive, so that the default is taken, or it is a power of two. -/
def SizeOk (size : ℤ) : Prop := size ≤ 0 ∨ ∃ k : ℕ, size = 2 ^ k

section OneByOne

/-- A call is entered only while no other call is in progress. -/
def OneByOne (s : ChannelSystem Thread α) (label : Thread × Event α) : Prop :=
  match label.2 with
  | .pushCall => s.Quiescent
  | .popCall => s.Quiescent
  | _ => True

/-- What holds along a run of calls that are made one after the other. -/
structure OneByOneRun (n : ℕ) (es : History Thread α) (s : ChannelSystem Thread α) : Prop where
  run : RunOk n es s
  side : ∀ t, SideOk n es.ledger s.chan (s.pc t)
  alone : ∀ t u, s.pc t ≠ .idle → s.pc u ≠ .idle → t = u

/-- A new channel starts such a run. -/
theorem OneByOneRun.init (hpos : 0 < n) (records : ℕ → α) :
    OneByOneRun n [] (ChannelSystem.new n records : ChannelSystem Thread α) where
  run := ⟨ChannelInv.init hpos records, ⟨rfl, rfl⟩, by simp⟩
  side _ := trivial
  alone _ _ h := absurd rfl h

variable [DecidableEq Thread] {es : History Thread α} {s s' : ChannelSystem Thread α}

/-- While a thread moves, the others are not in a call. -/
theorem OneByOneRun.idle_of_ne (h : OneByOneRun n es s) {t u : Thread} {event : Event α}
    (hstep : Step s (t, event) s') (hguard : OneByOne s (t, event)) (hne : u ≠ t) :
    s.pc u = .idle := by
  by_cases hidle : s.pc t = .idle
  · obtain rfl | rfl := call_of_idle hidle hstep
    · exact hguard u
    · exact hguard u
  · by_contra hu
    exact hne (h.alone u t hu hidle)

/-- Every step of such a run continues it. -/
theorem OneByOneRun.step (h : OneByOneRun n es s) (hpos : 0 < n) (hn : n < 2 ^ 32)
    {label : Thread × Event α} (hstep : Step s label s') (hguard : OneByOne s label) :
    OneByOneRun n (es ++ [label]) s' := by
  obtain ⟨t, event⟩ := label
  have hring := h.run.inv.ring
  have hothers : ∀ u, u ≠ t → s'.pc u = .idle := by
    intro u hne
    obtain ⟨pc', -, hpcs⟩ := hstep.cases
    rw [hpcs, Function.update_of_ne hne, h.idle_of_ne hstep hguard hne]
  refine ⟨h.run.step hpos hn hstep ((h.side t).fresh hring hpos hn hstep), ?_, ?_⟩
  · intro u
    by_cases hut : u = t
    · subst hut
      obtain ⟨pc', hlocal, hpcs⟩ := hstep.cases
      rw [History.ledger_snoc, hpcs, Function.update_self]
      exact hlocal.side hring hpos hn (h.side u)
    · rw [hothers u hut]
      trivial
  · intro u v hu hv
    have hut : u = t := by
      by_contra hne
      exact hu (hothers u hne)
    have hvt : v = t := by
      by_contra hne
      exact hv (hothers v hne)
    rw [hut, hvt]

/-- In every run of calls that are made one after the other, the used space is the number of queued
items between two calls, and the used and the available space make up the capacity. -/
def CountsItems (Thread : Type*) [DecidableEq Thread] (ch : Channel α) : Prop :=
  ∀ (es : History Thread α) (s : ChannelSystem Thread α),
    Run (Guarded Step OneByOne) ⟨ch, fun _ => .idle⟩ es s → s.Quiescent →
      s.chan.usedSpace = es.outstanding.length ∧
        s.chan.usedSpace + s.chan.availSpace = s.chan.capacity

/-- A channel whose size is a power of two counts its items. -/
theorem countsItems_new {k : ℕ} (hk : k ≤ 31) (records : ℕ → α) :
    CountsItems Thread (Channel.new (2 ^ k) records) := by
  intro es s hrun hquiet
  have hpos := Nat.two_pow_pos k
  have hn : 2 ^ k < 2 ^ 32 := Nat.pow_lt_pow_right (by omega) (by omega)
  have hone : OneByOneRun (2 ^ k) es s :=
    Run.invariant (I := OneByOneRun (2 ^ k)) (OneByOneRun.init hpos records)
      (fun _ _ _ _ hmid hstep => hmid.step hpos hn hstep.1 hstep.2) hrun
  obtain ⟨hused, hfits⟩ := hone.run.space hk hquiet
  exact ⟨hused, by rw [availSpace_eq hfits]; omega⟩

end OneByOne

section Size

/-- A number has no bit in common with the one before exactly if it is a power of two. -/
theorem and_pred_eq_zero_iff (hn : n ≠ 0) : n &&& (n - 1) = 0 ↔ ∃ k, n = 2 ^ k := by
  constructor
  · intro hand
    have hlow : 2 ^ n.log2 ≤ n := Nat.log2_self_le hn
    have hhigh : n < 2 ^ (n.log2 + 1) := Nat.lt_log2_self
    refine ⟨n.log2, le_antisymm ?_ hlow⟩
    by_contra hlt
    -- otherwise both numbers have the highest bit
    have hbit : n.testBit n.log2 = true :=
      Nat.testBit_of_two_pow_le_and_two_pow_add_one_gt hlow hhigh
    have hbit' : (n - 1).testBit n.log2 = true :=
      Nat.testBit_of_two_pow_le_and_two_pow_add_one_gt (by omega) (by omega)
    have hzero : (n &&& (n - 1)).testBit n.log2 = false := by rw [hand, Nat.zero_testBit]
    rw [Nat.testBit_and, hbit, hbit'] at hzero
    exact Bool.noConfusion hzero
  · rintro ⟨k, rfl⟩
    rw [Nat.and_two_pow_sub_one_eq_mod, Nat.mod_self]

/-- The constructor accepts a positive `int` exactly if it is a power of two. -/
theorem Channel.create_eq_ok_iff {size : ℤ} (hpos : 0 < size) (hlt : size < 2 ^ 31)
    {ch : Channel α} : Channel.create size records = .ok ch ↔
      (∃ k : ℕ, size = 2 ^ k) ∧ Channel.new size.toNat records = ch := by
  obtain ⟨n, rfl⟩ := Int.eq_ofNat_of_zero_le hpos.le
  have hmod : ((n : ℤ) % 2 ^ 32).toNat = n := by omega
  have hpred : subU32 n 1 = n - 1 := by
    unfold subU32
    omega
  have hpow : (∃ k : ℕ, (n : ℤ) = 2 ^ k) ↔ ∃ k, n = 2 ^ k := by
    refine exists_congr fun k => ?_
    exact_mod_cast Iff.rfl
  rw [Channel.create, bind_eq_ok_iff]
  simp only [hmod, hpred, assert_eq_ok_iff, hpow, Int.toNat_natCast,
    and_pred_eq_zero_iff (show n ≠ 0 by omega)]
  simp [pure, Except.pure]

/-- The sizes that a file can carry are the values of an `int`. -/
theorem carried_iff {size : ℤ} : Carried real size ↔ IntRange size := by
  constructor
  · rintro ⟨value, hvalue⟩
    exact (Json.asInt_eq_ok hvalue).1
  · rintro ⟨hlow, hhigh⟩
    let number : UInt32 := UInt32.ofNat (size % 2 ^ 32).toNat
    have hnat : number.toNat = (size % 2 ^ 32).toNat := UInt32.toNat_ofNat_of_lt' (by
      simp only [UInt32.size]
      omega)
    have hrange : 0 ≤ size % 2 ^ 32 ∧ size % 2 ^ 32 < 2 ^ 32 := by omega
    refine ⟨.int (size % 2 ^ 32), ?_⟩
    rw [Json.asInt, Json.asUInt, if_pos hrange]
    change Except.ok number.toInt32.toInt = Except.ok size
    rw [toInt_toInt32, hnat]
    congr 1
    split
    next => omega
    next => omega

/-- A configured size is fine exactly if the thread takes a power of two, where the default is
one. -/
theorem sizeOk_iff {configured default : ℤ} {d : ℕ} (hdefault : default = 2 ^ d) :
    SizeOk configured ↔ ∃ k : ℕ, channelSize configured default = 2 ^ k := by
  unfold SizeOk channelSize
  split
  next hsmall => exact iff_of_true (.inl hsmall) ⟨d, hdefault⟩
  next hlarge => exact or_iff_right hlarge

/-- A channel is created, and counts its items, exactly if the configured size is fine. -/
theorem exists_channel_iff (Thread : Type*) [DecidableEq Thread] (records : ℕ → α)
    {configured default : ℤ} {d : ℕ} (hconf : Carried real configured)
    (hdefault : default = 2 ^ d) (hd : d < 31) :
    (∃ ch, Channel.create (channelSize configured default) records = .ok ch ∧
      CountsItems Thread ch) ↔ SizeOk configured := by
  obtain ⟨hlow, hhigh⟩ := carried_iff.mp hconf
  have hdefault' : 0 < default ∧ default < 2 ^ 31 := by
    rw [hdefault]
    exact ⟨pow_pos (by decide) d, pow_lt_pow_right₀ (by decide) hd⟩
  have hsize : 0 < channelSize configured default ∧ channelSize configured default < 2 ^ 31 := by
    unfold channelSize
    split
    next => exact hdefault'
    next hlarge => exact ⟨not_le.mp hlarge, hhigh⟩
  rw [sizeOk_iff hdefault]
  constructor
  · rintro ⟨ch, hcreate, -⟩
    exact ((Channel.create_eq_ok_iff hsize.1 hsize.2).mp hcreate).1
  · rintro ⟨k, hk⟩
    refine ⟨_, (Channel.create_eq_ok_iff hsize.1 hsize.2).mpr ⟨⟨k, hk⟩, rfl⟩, ?_⟩
    have hlt : (2 : ℤ) ^ k < 2 ^ 31 := hk ▸ hsize.2
    have hk31 : k < 31 := (pow_lt_pow_iff_right₀ (by decide)).mp hlt
    have hnat : (channelSize configured default).toNat = 2 ^ k := by
      rw [hk]
      exact_mod_cast Int.toNat_natCast (2 ^ k)
    rw [hnat]
    exact countsItems_new hk31.le records

end Size

/-- `ParserThreadRoutine` creates its channels, and they count their items. -/
def ParserChannelsWork (Thread : Type*) [DecidableEq Thread] (records : ℕ → α)
    (config : ParserConfig) : Prop :=
  ∃ stream report, parserChannels config records = .ok (stream, report) ∧
    CountsItems Thread stream ∧ CountsItems Thread report

/-- `SinkThreadRoutine` creates its channel, and it counts its items. -/
def SinkChannelWorks (Thread : Type*) [DecidableEq Thread] (records : ℕ → α)
    (config : SinkConfig) : Prop :=
  ∃ stream, sinkChannel config records = .ok stream ∧ CountsItems Thread stream

/-- Both channels of a parser thread are created. -/
theorem parserChannels_eq_ok_iff {config : ParserConfig} {stream report : Channel α} :
    parserChannels config records = .ok (stream, report) ↔
      Channel.create (channelSize config.streamChannelSize 512) records = .ok stream ∧
        Channel.create (channelSize config.reportChannelSize 1024) records = .ok report := by
  simp [parserChannels, bind_eq_ok_iff, pure, Except.pure]

/-- Whatever sizes a configuration file carries, the channels of the threads work exactly if each
size is a power of two or not positive. -/
theorem channels_work_iff (Thread : Type*) [DecidableEq Thread] (real : RealOps R)
    (records : ℕ → α) (parser : ParserConfig) (sink : SinkConfig)
    (hstream : Carried real parser.streamChannelSize)
    (hreport : Carried real parser.reportChannelSize)
    (hsink : Carried real sink.streamChannelSize) :
    (ParserChannelsWork Thread records parser ↔
        SizeOk parser.streamChannelSize ∧ SizeOk parser.reportChannelSize) ∧
      (SinkChannelWorks Thread records sink ↔ SizeOk sink.streamChannelSize) := by
  have hsmall : (512 : ℤ) = 2 ^ 9 := by decide
  have hlarge : (1024 : ℤ) = 2 ^ 10 := by decide
  constructor
  · rw [← exists_channel_iff Thread records hstream hsmall (by decide),
      ← exists_channel_iff Thread records hreport hlarge (by decide)]
    constructor
    · rintro ⟨stream, report, hcreate, hcount, hcount'⟩
      obtain ⟨hstream, hreport⟩ := parserChannels_eq_ok_iff.mp hcreate
      exact ⟨⟨stream, hstream, hcount⟩, report, hreport, hcount'⟩
    · rintro ⟨⟨stream, hstream, hcount⟩, report, hreport, hcount'⟩
      exact ⟨stream, report, parserChannels_eq_ok_iff.mpr ⟨hstream, hreport⟩, hcount, hcount'⟩
  · exact exists_channel_iff Thread records hsink hsmall (by decide)

/-- The sizes of the default configuration work. -/
theorem channels_work_default :
    Carried noReals ({} : ParserConfig).streamChannelSize ∧
      ParserChannelsWork Bool (fun _ => 0) {} ∧ SinkChannelWorks Bool (fun _ => 0) {} := by
  have hstream : Carried noReals 512 := carried_iff.mpr (by decide)
  have hreport : Carried noReals 1024 := carried_iff.mpr (by decide)
  have hwork := channels_work_iff Bool noReals (fun _ => 0) {} {} hstream hreport hstream
  exact ⟨hstream, hwork.1.mpr ⟨.inr ⟨9, by decide⟩, .inr ⟨10, by decide⟩⟩,
    hwork.2.mpr (.inr ⟨9, by decide⟩)⟩

/-- A stream of a thousand items, which a file can carry, fails the assertion of the constructor. -/
theorem channels_work_fails :
    (Json.int 1000 : Json Empty).asInt noReals = .ok 1000 ∧
      parserChannels { streamChannelSize := 1000 } (fun _ => 0) =
        .error (.assertion "size MUST be a pwer of 2") ∧
      sinkChannel { streamChannelSize := 1000 } (fun _ => 0) =
        .error (.assertion "size MUST be a pwer of 2") ∧
      ¬ ParserChannelsWork Bool (fun _ => 0) { streamChannelSize := 1000 } := by
  have hfails : parserChannels { streamChannelSize := 1000 } (fun _ => 0) =
      .error (.assertion "size MUST be a pwer of 2") := rfl
  refine ⟨by decide, hfails, rfl, ?_⟩
  rintro ⟨stream, report, hcreate, -⟩
  rw [hfails] at hcreate
  cases hcreate

end Demos.Oak
