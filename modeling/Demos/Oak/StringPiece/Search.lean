import Demos.Oak.StringPiece.Model

/-!
# What the searches find

Every search returns the least or the greatest position at which a text occurs or a character
passes a test, within the part of the view that it is asked to search, and `npos` if there is no
such position. The bounds that the loops compute in unsigned arithmetic are those of the view.
-/

namespace Demos.Oak

open Demos.Lib

/-- `memcmp` is zero for equal bytes only. -/
theorem memcmp_eq_zero_iff {as bs : Bytes} (hlen : as.length = bs.length) :
    memcmp as bs = 0 ↔ as = bs := by
  induction as generalizing bs with
  | nil =>
    obtain rfl := List.eq_nil_of_length_eq_zero hlen.symm
    simp [memcmp]
  | cons a as ih =>
    cases bs with
    | nil => simp at hlen
    | cons b bs =>
      have hrest := @ih bs (by simpa using hlen)
      simp only [memcmp, List.cons.injEq]
      split
      next hlt => simp [UInt8.ne_of_lt hlt]
      next hle =>
        split
        next hlt => simp [(UInt8.ne_of_lt hlt).symm]
        next hge =>
          have heq : a = b := UInt8.le_antisymm (UInt8.not_lt.mp hge) (UInt8.not_lt.mp hle)
          simp [heq, hrest]

namespace StringPiece

variable {s v : StringPiece} {c : UInt8} {pos n start : UInt64} {i : ℕ}

/-- The text occurs in the view at a position. -/
def Occurs (v s : StringPiece) (i : ℕ) : Prop := i ≤ s.chars.length ∧ v.chars <+: s.chars.drop i

instance : DecidablePred (Occurs v s) := fun _ => inferInstanceAs (Decidable (_ ∧ _))

/-- The view has a character with a property at a position. -/
def HasAt (s : StringPiece) (p : UInt8 → Prop) (i : ℕ) : Prop := ∃ c ∈ s.chars[i]?, p c

instance {p : UInt8 → Prop} [DecidablePred p] : DecidablePred (s.HasAt p) :=
  fun i => inferInstanceAs (Decidable (∃ c ∈ s.chars[i]?, p c))

/-- A search returns the extreme one of some positions, and `npos` if there is none. -/
def Returns (extreme : Set ℕ → ℕ → Prop) (positions : Set ℕ) (result : Option UInt64) : Prop :=
  ∃ i, result = some i ∧
    ((i = npos ∧ positions = ∅) ∨ (i ≠ npos ∧ extreme positions i.toNat))

/-- The length of a view is below the largest number. -/
theorem len_toNat (s : StringPiece) : s.len.toNat = s.chars.length := by
  have hsmall : s.chars.length < 2 ^ 63 := s.small
  exact UInt64.toNat_ofNat_of_lt' (hsmall.trans (by decide))

/-- The positions of a view are below `npos`. -/
theorem npos_toNat : npos.toNat = 2 ^ 64 - 1 := rfl

/-- A view is empty exactly if it has no characters. -/
theorem len_eq_zero_iff : v.len = 0 ↔ v.chars = [] := by
  rw [← UInt64.toNat_inj, len_toNat, UInt64.toNat_zero, List.length_eq_zero_iff]

/-- A view has a positive length exactly if it has characters. -/
theorem len_pos_iff : 0 < v.len ↔ v.chars ≠ [] := by
  rw [UInt64.lt_iff_toNat_lt, len_toNat, UInt64.toNat_zero, List.length_pos_iff]

/-- A comparison within both views compares their characters. -/
theorem compareAt_eq (hs : pos.toNat + n.toNat ≤ s.chars.length)
    (hv : start.toNat + n.toNat ≤ v.chars.length) :
    (do return (← s.compareAt pos v start n) = 0) =
      some (decide ((s.chars.drop pos.toNat).take n.toNat =
        (v.chars.drop start.toNat).take n.toNat)) := by
  have hlen : ((s.chars.drop pos.toNat).take n.toNat).length =
      ((v.chars.drop start.toNat).take n.toNat).length := by
    simp only [List.length_take, List.length_drop]
    omega
  simp [compareAt, range, hs, hv, memcmp_eq_zero_iff hlen]

/-- A character is looked up in the whole text. -/
theorem has_eq (v : StringPiece) (c : UInt8) : v.has c = some (decide (c ∈ v.chars)) := by
  have hany : (v.chars.any fun x => decide (x = c)) = decide (c ∈ v.chars) := by
    rw [Bool.eq_iff_iff]
    simp
  simpa [has, findAt, range, len_toNat] using hany

/-- The test of `find` within the view. -/
theorem matchesAt_eq (hv : v.chars ≠ []) (hpos : pos.toNat + v.chars.length ≤ s.chars.length) :
    s.matchesAt v pos = some (decide (Occurs v s pos.toNat)) := by
  obtain ⟨a, rest, hcons⟩ := List.exists_cons_of_ne_nil hv
  have hsmall : s.chars.length < 2 ^ 63 := s.small
  have hlength : v.chars.length = rest.length + 1 := by rw [hcons, List.length_cons]
  have hnext : (pos + 1).toNat = pos.toNat + 1 := by
    rw [UInt64.toNat_add, UInt64.toNat_one]
    omega
  have hrest : (v.len - 1).toNat = rest.length := by
    have hprev := toNat_sub_one (len_pos_iff.mpr hv)
    rw [len_toNat] at hprev
    omega
  have hcompare := @compareAt_eq s v (pos + 1) (v.len - 1) 1 (by omega)
    (by rw [hrest, hlength, UInt64.toNat_one]; omega)
  rw [hrest, hnext, hcons, UInt64.toNat_one, List.drop_one, List.tail_cons, List.take_length]
    at hcompare
  have hlt : pos.toNat < s.chars.length := by omega
  have hocc : Occurs v s pos.toNat ↔ s.chars[pos.toNat] = a ∧
      (s.chars.drop (pos.toNat + 1)).take rest.length = rest := by
    rw [Occurs, hcons, List.drop_eq_getElem_cons hlt, List.cons_prefix_cons,
      List.prefix_iff_eq_take]
    simp [hlt.le, eq_comm]
  have hread : s.read pos = some s.chars[pos.toNat] := List.getElem?_eq_getElem hlt
  have hfirst : v.read 0 = some a := by simp [read, hcons]
  by_cases heq : s.chars[pos.toNat] = a
  · simpa [matchesAt, hread, hfirst, hocc, heq] using hcompare
  · simp [matchesAt, hread, hfirst, hocc, heq]

/-- The test of `rfind` within the view. -/
theorem compareAt_occurs (hpos : pos.toNat + v.chars.length ≤ s.chars.length) :
    (do return (← s.compareAt pos v 0 v.len) = 0) = some (decide (Occurs v s pos.toNat)) := by
  rw [compareAt_eq (by rwa [len_toNat]) (by simp [len_toNat]), len_toNat]
  have hiff : (s.chars.drop pos.toNat).take v.chars.length = (v.chars.drop 0).take v.chars.length ↔
      Occurs v s pos.toNat := by
    rw [Occurs, List.prefix_iff_eq_take]
    have hle : pos.toNat ≤ s.chars.length := by omega
    simp [hle, eq_comm]
  simp [← hiff]

/-- What a loop has found is what the search returns. -/
theorem Returns.of_finds {extreme : Set ℕ → ℕ → Prop} {positions : Set ℕ} {r : Option UInt64}
    (hfinds : Finds extreme positions r) (hextreme : ∀ i, extreme positions i → i ∈ positions)
    (hbound : ∀ i ∈ positions, i ≤ s.chars.length) :
    Returns extreme positions (some (r.getD npos)) := by
  have hsmall : s.chars.length < 2 ^ 63 := s.small
  cases r with
  | none => exact ⟨npos, rfl, .inl ⟨rfl, hfinds⟩⟩
  | some i =>
    have hi := hbound i.toNat (hextreme i.toNat hfinds)
    have hne : i ≠ npos := by
      rintro rfl
      rw [npos_toNat] at hi
      omega
    exact ⟨i, rfl, .inr ⟨hne, hfinds⟩⟩

/-- A character with a property is at a position of the view. -/
theorem HasAt.lt {p : UInt8 → Prop} (hat : s.HasAt p i) : i < s.chars.length := by
  obtain ⟨c, hc, -⟩ := hat
  exact (List.getElem?_eq_some_iff.mp hc).1

/-- A test of the character at a position of the view. -/
theorem read_test {p : UInt8 → Prop} [DecidablePred p] {test : UInt8 → Option Bool}
    (htest : ∀ c, test c = some (decide (p c))) (hpos : pos.toNat < s.chars.length) :
    (do test (← s.read pos)) = some (decide (s.HasAt p pos.toNat)) := by
  simp [read, HasAt, hpos, htest]

/-- The loop over the first characters. -/
theorem firstChar_returns {p : UInt8 → Prop} [DecidablePred p] {test : UInt8 → Option Bool}
    (htest : ∀ c, test c = some (decide (p c))) :
    Returns IsLeast {i | pos.toNat ≤ i ∧ s.HasAt p i} (s.firstChar test pos) := by
  have hsmall : s.chars.length < 2 ^ 63 := s.small
  have hgo : ∀ i : UInt64, decide (i < s.len) = true ↔ i.toNat < s.chars.length := by
    simp [UInt64.lt_iff_toNat_lt, len_toNat]
  have hfuel : s.chars.length - pos.toNat < s.fuel := by
    rw [fuel]
    omega
  obtain ⟨r, hr, hfinds⟩ :=
    searchUp_finds (by omega) hgo (fun i hi => read_test htest hi) hfuel
  have hset : {i | pos.toNat ≤ i ∧ s.HasAt p i} =
      {i | pos.toNat ≤ i ∧ i < s.chars.length ∧ s.HasAt p i} := by
    ext i
    exact ⟨fun hi => ⟨hi.1, hi.2.lt, hi.2⟩, fun hi => ⟨hi.1, hi.2.2⟩⟩
  rw [hset, firstChar, hr]
  exact .of_finds hfinds (fun i hi => hi.1) fun i hi => hi.2.1.le

/-- The smaller of two numbers. -/
theorem toNat_min (a b : UInt64) : (min a b).toNat = min a.toNat b.toNat := by
  change (if a ≤ b then a else b).toNat = _
  split
  next hle => exact (min_eq_left (UInt64.le_iff_toNat_le.mp hle)).symm
  next hle =>
    have hlt := UInt64.lt_iff_toNat_lt.mp (UInt64.not_le.mp hle)
    exact (min_eq_right hlt.le).symm

/-- The last position of a view that is not empty. -/
theorem toNat_last (hs : 0 < s.len) :
    (min pos (s.len - 1)).toNat = min pos.toNat (s.chars.length - 1) := by
  have hprev := toNat_sub_one hs
  rw [len_toNat] at hprev
  rw [toNat_min]
  omega

/-- The loop over the last characters. -/
theorem lastChar_returns {p : UInt8 → Prop} [DecidablePred p] {test : UInt8 → Option Bool}
    (htest : ∀ c, test c = some (decide (p c))) (hs : 0 < s.len) :
    Returns IsGreatest {i | i ≤ pos.toNat ∧ s.HasAt p i} (s.lastChar test pos) := by
  have hsmall : s.chars.length < 2 ^ 63 := s.small
  have hlength : 0 < s.chars.length := List.length_pos_iff.mpr (len_pos_iff.mp hs)
  have hstart : (min pos (s.len - 1) + 1).toNat = min pos.toNat (s.chars.length - 1) + 1 := by
    rw [UInt64.toNat_add, toNat_last hs, UInt64.toNat_one]
    omega
  have hread : ∀ i : UInt64, i.toNat < (min pos (s.len - 1) + 1).toNat →
      (do test (← s.read i)) = some (decide (s.HasAt p i.toNat)) :=
    fun i hi => read_test htest (by omega)
  have hfuel : (min pos (s.len - 1) + 1).toNat < s.fuel := by
    rw [fuel]
    omega
  obtain ⟨r, hr, hfinds⟩ := searchDown_finds hread hfuel
  have hset : {i | i ≤ pos.toNat ∧ s.HasAt p i} =
      {i | i < (min pos (s.len - 1) + 1).toNat ∧ s.HasAt p i} := by
    ext i
    refine and_congr_left fun hat => ?_
    have hlt := hat.lt
    omega
  rw [hset, lastChar, hr]
  exact .of_finds hfinds (fun i hi => hi.1) fun i hi => hi.2.lt.le

theorem hasAt_nil {p : UInt8 → Prop} (hs : ¬ 0 < s.len) : ¬ s.HasAt p i := by
  intro hat
  have hlt := hat.lt
  rw [len_pos_iff, not_not] at hs
  simp [hs] at hlt

theorem Returns.npos {extreme : Set ℕ → ℕ → Prop} {positions : Set ℕ}
    (hnone : ∀ i, i ∉ positions) : Returns extreme positions (some npos) :=
  ⟨_, rfl, .inl ⟨rfl, Set.eq_empty_of_forall_notMem hnone⟩⟩

/-- A search that knows its answer. -/
theorem Returns.found {extreme : Set ℕ → ℕ → Prop} {positions : Set ℕ}
    (hle : pos.toNat ≤ s.chars.length) (hextreme : extreme positions pos.toNat) :
    Returns extreme positions (some pos) := by
  have hsmall : s.chars.length < 2 ^ 63 := s.small
  refine ⟨pos, rfl, .inr ⟨?_, hextreme⟩⟩
  rintro rfl
  rw [npos_toNat] at hle
  omega

/-- An occurrence lies within the view. -/
theorem Occurs.le (hoccurs : Occurs v s i) : i + v.chars.length ≤ s.chars.length := by
  have hle := hoccurs.2.length_le
  rw [List.length_drop] at hle
  have := hoccurs.1
  omega

/-- The length of the text is at most that of the view. -/
theorem len_le_iff : v.len ≤ s.len ↔ v.chars.length ≤ s.chars.length := by
  rw [UInt64.le_iff_toNat_le, len_toNat, len_toNat]

/-- The last position at which the text may occur. -/
theorem toNat_len_sub (hle : v.len ≤ s.len) :
    (s.len - v.len).toNat = s.chars.length - v.chars.length := by
  rw [UInt64.toNat_sub_of_le _ _ hle, len_toNat, len_toNat]

/-- A text that occurs is not longer than the view. -/
theorem Occurs.len_le (hoccurs : Occurs v s i) : v.len ≤ s.len :=
  len_le_iff.mpr (Nat.le_of_add_left_le hoccurs.le)

/-- The empty text occurs at each position within the view. -/
theorem find_returns_of_nil (hnil : v.chars = []) (pos : UInt64) :
    Returns IsLeast {i | pos.toNat ≤ i ∧ Occurs v s i}
      (some (if pos ≤ s.len then pos else npos)) := by
  have hiff : pos ≤ s.len ↔ pos.toNat ≤ s.chars.length := by
    rw [UInt64.le_iff_toNat_le, len_toNat]
  split
  next hle =>
    have hle' := hiff.mp hle
    exact .found hle' ⟨⟨le_rfl, hle', hnil ▸ List.nil_prefix⟩, fun i hi => hi.1⟩
  next hgt => exact .npos fun i hi => hgt (hiff.mpr (hi.1.trans hi.2.1))

/-- The text occurs at the least position that `find` returns. -/
theorem find_returns (s v : StringPiece) (pos : UInt64) :
    Returns IsLeast {i | pos.toNat ≤ i ∧ Occurs v s i} (s.find v pos) := by
  have hsmall : s.chars.length < 2 ^ 63 := s.small
  rw [find]
  split
  next hv => exact find_returns_of_nil (len_eq_zero_iff.mp hv) pos
  next hv =>
    have hne : v.chars ≠ [] := mt len_eq_zero_iff.mpr hv
    have hpos : 0 < v.chars.length := List.length_pos_iff.mpr hne
    split
    next hle =>
      have hle' := len_le_iff.mp hle
      have hgo : ∀ i : UInt64, decide (i ≤ s.len - v.len) = true ↔
          i.toNat < s.chars.length - v.chars.length + 1 := by
        intro i
        rw [decide_eq_true_eq, UInt64.le_iff_toNat_le, toNat_len_sub hle, Nat.lt_succ_iff]
      have hfuel : s.chars.length - v.chars.length + 1 - pos.toNat < s.fuel := by
        rw [fuel]
        omega
      have htest : ∀ i : UInt64, i.toNat < s.chars.length - v.chars.length + 1 →
          s.matchesAt v i = some (decide (Occurs v s i.toNat)) :=
        fun i hi => matchesAt_eq hne (by omega)
      obtain ⟨r, hr, hfinds⟩ := searchUp_finds (by omega) hgo htest hfuel
      have hset : {i | pos.toNat ≤ i ∧ Occurs v s i} =
          {i | pos.toNat ≤ i ∧ i < s.chars.length - v.chars.length + 1 ∧ Occurs v s i} := by
        ext i
        refine ⟨fun hi => ⟨hi.1, ?_, hi.2⟩, fun hi => ⟨hi.1, hi.2.2⟩⟩
        have := hi.2.le
        omega
      rw [hr, hset]
      exact .of_finds hfinds (fun i hi => hi.1) fun i hi => hi.2.2.1
    next hgt => exact .npos fun i hi => hgt hi.2.len_le

/-- The text occurs at the greatest position that `rfind` returns. -/
theorem rfind_returns (s v : StringPiece) (pos : UInt64) :
    Returns IsGreatest {i | i ≤ pos.toNat ∧ Occurs v s i} (s.rfind v pos) := by
  have hsmall : s.chars.length < 2 ^ 63 := s.small
  rw [rfind]
  split
  next hle =>
    have hstart : (min (s.len - v.len) pos).toNat =
        min (s.chars.length - v.chars.length) pos.toNat := by
      rw [toNat_min, toNat_len_sub hle]
    have hle' := len_le_iff.mp hle
    have htest : ∀ i : UInt64, i.toNat ≤ (min (s.len - v.len) pos).toNat →
        (do return (← s.compareAt i v 0 v.len) = 0) = some (decide (Occurs v s i.toNat)) :=
      fun i hi => compareAt_occurs (by omega)
    have hfuel : (min (s.len - v.len) pos).toNat < s.fuel := by
      rw [fuel]
      omega
    obtain ⟨r, hr, hfinds⟩ := searchBack_finds htest hfuel
    have hset : {i | i ≤ pos.toNat ∧ Occurs v s i} =
        {i | i ≤ (min (s.len - v.len) pos).toNat ∧ Occurs v s i} := by
      ext i
      refine and_congr_left fun hoccurs => ?_
      have := hoccurs.le
      omega
    rw [hr, hset]
    exact .of_finds hfinds (fun i hi => hi.1) fun i hi => hi.2.1
  next hgt => exact .npos fun i hi => hgt hi.2.len_le

/-- A lookup within the view finds the first place of a character. -/
theorem findAt_finds (c : UInt8) (hrange : pos.toNat + n.toNat ≤ s.chars.length) :
    ∃ r, s.findAt pos n c = some r ∧
      Finds IsLeast {i | pos.toNat ≤ i ∧ i < pos.toNat + n.toNat ∧ s.HasAt (· = c) i} r := by
  have hsmall : s.chars.length < 2 ^ 63 := s.small
  have hpart (k : ℕ) (hk : k < n.toNat) :
      ((s.chars.drop pos.toNat).take n.toNat)[k]? = s.chars[pos.toNat + k]? := by
    rw [List.getElem?_take_of_lt hk, List.getElem?_drop]
  have hlength : ((s.chars.drop pos.toNat).take n.toNat).length = n.toNat := by
    rw [List.length_take, List.length_drop]
    omega
  refine ⟨_, by rw [findAt, range, if_pos hrange]; rfl, ?_⟩
  cases hfind : ((s.chars.drop pos.toNat).take n.toNat).findIdx? (· = c) with
  | none =>
    refine Set.eq_empty_of_forall_notMem fun i ⟨hle, hlt, ch, hch, heq⟩ => ?_
    obtain ⟨k, rfl⟩ := Nat.exists_eq_add_of_le hle
    rw [Option.mem_def, ← hpart k (by omega)] at hch
    simpa [heq] using List.findIdx?_eq_none_iff.mp hfind ch (List.mem_of_getElem? hch)
  | some k =>
    obtain ⟨hk, hhere, hbefore⟩ := List.findIdx?_eq_some_iff_getElem.mp hfind
    rw [hlength] at hk
    have hnat : (pos + UInt64.ofNat k).toNat = pos.toNat + k := by
      rw [UInt64.toNat_add, UInt64.toNat_ofNat_of_lt' (by omega : k < 2 ^ 64)]
      omega
    rw [Option.map_some, Finds, hnat]
    constructor
    · refine ⟨Nat.le_add_right _ _, by omega, _, ?_, of_decide_eq_true hhere⟩
      rw [Option.mem_def, ← hpart k hk, List.getElem?_eq_getElem]
    · rintro i ⟨hle, hlt, ch, hch, heq⟩
      obtain ⟨j, rfl⟩ := Nat.exists_eq_add_of_le hle
      rw [Option.mem_def, ← hpart j (by omega), List.getElem?_eq_some_iff] at hch
      obtain ⟨hj, hch⟩ := hch
      by_contra hless
      exact hbefore j (by omega) (by simp [hch, heq])

/-- The first place of a character. -/
theorem findChar_returns (s : StringPiece) (c : UInt8) (pos : UInt64) :
    Returns IsLeast {i | pos.toNat ≤ i ∧ s.HasAt (· = c) i} (s.findChar c pos) := by
  rw [findChar]
  split
  next hlt =>
    have hlt' : pos.toNat < s.chars.length := by rwa [UInt64.lt_iff_toNat_lt, len_toNat] at hlt
    have hrest : (s.len - pos).toNat = s.chars.length - pos.toNat := by
      rw [UInt64.toNat_sub_of_le _ _ (UInt64.le_of_lt hlt), len_toNat]
    obtain ⟨r, hr, hfinds⟩ := @findAt_finds s pos (s.len - pos) c (by omega)
    have hset : {i | pos.toNat ≤ i ∧ s.HasAt (· = c) i} =
        {i | pos.toNat ≤ i ∧ i < pos.toNat + (s.len - pos).toNat ∧ s.HasAt (· = c) i} := by
      ext i
      refine and_congr_right fun _ => ⟨fun hat => ⟨?_, hat⟩, And.right⟩
      have := hat.lt
      omega
    rw [hr, hset]
    exact .of_finds hfinds (fun i hi => hi.1) fun i hi => hi.2.2.lt.le
  next hge =>
    refine .npos fun i hi => hge ?_
    rw [UInt64.lt_iff_toNat_lt, len_toNat]
    exact hi.1.trans_lt hi.2.lt

/-- The last place of a character. -/
theorem rfindChar_returns (s : StringPiece) (c : UInt8) (pos : UInt64) :
    Returns IsGreatest {i | i ≤ pos.toNat ∧ s.HasAt (· = c) i} (s.rfindChar c pos) := by
  rw [rfindChar]
  split
  next hs => exact lastChar_returns (fun _ => rfl) hs
  next hs => exact .npos fun i hi => hasAt_nil hs hi.2

/-- The first place of a character of the text. -/
theorem findFirstOf_returns (s v : StringPiece) (pos : UInt64) :
    Returns IsLeast {i | pos.toNat ≤ i ∧ s.HasAt (· ∈ v.chars) i} (s.findFirstOf v pos) := by
  rw [findFirstOf]
  split
  next hv => exact firstChar_returns (has_eq v)
  next hv =>
    rw [len_pos_iff, not_not] at hv
    refine .npos fun i hi => ?_
    obtain ⟨ch, -, hmem⟩ := hi.2
    simp [hv] at hmem

/-- The last place of a character of the text. -/
theorem findLastOf_returns (s v : StringPiece) (pos : UInt64) :
    Returns IsGreatest {i | i ≤ pos.toNat ∧ s.HasAt (· ∈ v.chars) i} (s.findLastOf v pos) := by
  rw [findLastOf]
  split
  next hlen => exact lastChar_returns (has_eq v) hlen.1
  next hlen =>
    refine .npos fun i hi => hlen ⟨?_, ?_⟩
    · by_contra hs
      exact hasAt_nil hs hi.2
    · obtain ⟨ch, -, hmem⟩ := hi.2
      exact len_pos_iff.mpr (List.ne_nil_of_mem hmem)

/-- The lookup of a character that is to be absent. -/
theorem has_map_not (v : StringPiece) (c : UInt8) :
    (v.has c).map not = some (decide (c ∉ v.chars)) := by
  rw [has_eq, Option.map_some, decide_not]

/-- The last place of a character that is not in the text. -/
theorem findLastNotOf_returns (s v : StringPiece) (pos : UInt64) :
    Returns IsGreatest {i | i ≤ pos.toNat ∧ s.HasAt (· ∉ v.chars) i} (s.findLastNotOf v pos) := by
  rw [findLastNotOf]
  split
  next hv =>
    have hnil := len_eq_zero_iff.mp hv
    split
    next hs =>
      have hpos : 0 < s.len := len_pos_iff.mpr (mt len_eq_zero_iff.mpr hs)
      have hlength : 0 < s.chars.length := List.length_pos_iff.mpr (len_pos_iff.mp hpos)
      have hlast := @toNat_last s pos hpos
      have hlt : (min pos (s.len - 1)).toNat < s.chars.length := by omega
      refine .found hlt.le ⟨⟨by omega, _, List.getElem?_eq_getElem hlt, by simp [hnil]⟩, ?_⟩
      intro i hi
      have hle : i ≤ pos.toNat := hi.1
      have hlt' := hi.2.lt
      omega
    next hs =>
      rw [not_not] at hs
      exact .npos fun i hi => hasAt_nil (by simp [hs]) hi.2
  next hv =>
    split
    next hs => exact lastChar_returns (has_map_not v) hs
    next hs => exact .npos fun i hi => hasAt_nil hs hi.2

/-- The last place of another character. -/
theorem findLastNotOfChar_returns (s : StringPiece) (c : UInt8) (pos : UInt64) :
    Returns IsGreatest {i | i ≤ pos.toNat ∧ s.HasAt (c ≠ ·) i} (s.findLastNotOfChar c pos) := by
  rw [findLastNotOfChar]
  split
  next hs => exact lastChar_returns (fun _ => rfl) hs
  next hs => exact .npos fun i hi => hasAt_nil hs hi.2

theorem find_nil (hv : v.chars = []) (hpos : pos ≤ s.len) : s.find v pos = some pos := by
  rw [find, if_pos (len_eq_zero_iff.mpr hv), if_pos hpos]

/-- The empty text is found where `rfind` starts. -/
theorem rfind_nil (hv : v.chars = []) : s.rfind v pos = some (min pos s.len) := by
  have hzero := len_eq_zero_iff.mpr hv
  have hmin : min s.len pos = min pos s.len := by
    rw [← UInt64.toNat_inj, toNat_min, toNat_min, min_comm]
  have hcompare : s.compareAt (min pos s.len) v 0 0 = some 0 := by
    have hle : (min pos s.len).toNat ≤ s.chars.length := by
      rw [toNat_min, len_toNat]
      omega
    simp [compareAt, range, hle, memcmp]
  simp [rfind, hzero, fuel, searchBack, hmin, hcompare]

/-- Every search returns the least or the greatest position that it is to find, `npos` if there is
none, and reads nothing outside the view and the text. -/
theorem searches_return (s v : StringPiece) (c : UInt8) (pos : UInt64) :
    (Returns IsLeast {i | pos.toNat ≤ i ∧ Occurs v s i} (s.find v pos) ∧
      Returns IsLeast {i | pos.toNat ≤ i ∧ s.HasAt (· = c) i} (s.findChar c pos) ∧
      Returns IsGreatest {i | i ≤ pos.toNat ∧ Occurs v s i} (s.rfind v pos) ∧
      Returns IsGreatest {i | i ≤ pos.toNat ∧ s.HasAt (· = c) i} (s.rfindChar c pos)) ∧
    (Returns IsLeast {i | pos.toNat ≤ i ∧ s.HasAt (· ∈ v.chars) i} (s.findFirstOf v pos) ∧
      Returns IsLeast {i | pos.toNat ≤ i ∧ s.HasAt (· = c) i} (s.findFirstOfChar c pos) ∧
      Returns IsLeast {i | pos.toNat ≤ i ∧ s.HasAt (· ∉ v.chars) i} (s.findFirstNotOf v pos) ∧
      Returns IsLeast {i | pos.toNat ≤ i ∧ s.HasAt (c ≠ ·) i} (s.findFirstNotOfChar c pos)) ∧
    (Returns IsGreatest {i | i ≤ pos.toNat ∧ s.HasAt (· ∈ v.chars) i} (s.findLastOf v pos) ∧
      Returns IsGreatest {i | i ≤ pos.toNat ∧ s.HasAt (· = c) i} (s.findLastOfChar c pos) ∧
      Returns IsGreatest {i | i ≤ pos.toNat ∧ s.HasAt (· ∉ v.chars) i} (s.findLastNotOf v pos) ∧
      Returns IsGreatest {i | i ≤ pos.toNat ∧ s.HasAt (c ≠ ·) i} (s.findLastNotOfChar c pos)) ∧
    (v.chars = [] → (pos ≤ s.len → s.find v pos = some pos) ∧
      s.rfind v pos = some (min pos s.len)) :=
  ⟨⟨find_returns s v pos, findChar_returns s c pos, rfind_returns s v pos,
      rfindChar_returns s c pos⟩,
    ⟨findFirstOf_returns s v pos, findChar_returns s c pos, firstChar_returns (has_map_not v),
      firstChar_returns fun _ => rfl⟩,
    ⟨findLastOf_returns s v pos, rfindChar_returns s c pos, findLastNotOf_returns s v pos,
      findLastNotOfChar_returns s c pos⟩,
    fun hv => ⟨find_nil hv, rfind_nil hv⟩⟩

/-- The empty text is found at the end of a view of two characters, from both sides. -/
theorem searches_return_empty :
    find ⟨some [97, 98], by decide⟩ ⟨none, by decide⟩ 2 = some 2 ∧
      rfind ⟨some [97, 98], by decide⟩ ⟨none, by decide⟩ npos = some 2 :=
  ⟨((searches_return ⟨some [97, 98], by decide⟩ ⟨none, by decide⟩ 97 2).2.2.2 rfl).1 (by decide),
    ((searches_return ⟨some [97, 98], by decide⟩ ⟨none, by decide⟩ 97 npos).2.2.2 rfl).2⟩

end StringPiece

end Demos.Oak
