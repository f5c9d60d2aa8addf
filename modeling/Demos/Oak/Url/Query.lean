import Demos.Lib.Assoc
import Demos.Lib.Segments
import Demos.Lib.SlotLoop
import Demos.Oak.Url.Returns

/-!
# Parsing a query

`ParseQuery` cuts a query at the ampersands and each segment at its first equals sign, and decodes
both sides. It fills a map of its own, which it swaps with the destination at the end. So what it
computes is a fold over the segments of the query: the call succeeds exactly if each segment has two
sides that are decoded, and a key has the value of the last segment in which it occurs.
-/

namespace Demos.Oak

open Demos.Lib

variable {query pre seg key val : Bytes} {text : Option Bytes} {fuel : ℕ} {dict res res' : Dict}
  {segs : List Bytes} {pairs : List (Bytes × Bytes)}

/-- `ParseQuery` with its destination: the result, and the destination after the call. There is no
result if the loop is cut off. -/
def parseQueryTo (query : Bytes) (dict : Dict) : Option (Bool × Dict) :=
  match parseQuery query with
  | .ok res => some (true, res)
  | .error .rejected => some (false, dict)
  | .error .loops => none

/-- The segment has an equals sign, and the parts before and behind the first one are decoded to the
key and the value. -/
def ReadsAs (seg key val : Bytes) : Prop :=
  ∃ left right, seg = left ++ byteOf '=' :: right ∧ byteOf '=' ∉ left ∧
    percentDecode left = some key ∧ percentDecode right = some val

/-- What `ParseQuery` does with a query and a destination. -/
structure ParsesQuery (query : Bytes) (dict : Dict) (success : Bool) (dict' : Dict) : Prop where
  /-- The call succeeds exactly if each segment of the query is read. -/
  success_iff : success = true ↔ ∀ seg ∈ segments (byteOf '&') query, ∃ key val, ReadsAs seg key val
  /-- The new map has, for each key, the value of the last segment with it, and nothing else. -/
  contents : success = true → ∀ key val, dict'[key]? = some val ↔
    ∃ before seg after, segments (byteOf '&') query = before ++ seg :: after ∧
      ReadsAs seg key val ∧ ∀ other ∈ after, ∀ v, ¬ ReadsAs other key v
  /-- A call that fails leaves the destination as it was. -/
  unchanged : success = false → dict' = dict

/-- A segment gives a pair exactly if it is read as that. -/
theorem parsePair_eq_ok_iff : parsePair seg = .ok (key, val) ↔ ReadsAs seg key val := by
  obtain ⟨left, right, rfl, hleft⟩ := exists_component '=' seg
  cases right with
  | none =>
    have hseg : byteOf '=' ∉ left ++ Pieces.component '=' none := by simpa [Pieces.component]
    rw [parsePair, findChar_eq_none hseg]
    refine iff_of_false (fun hok => ?_) ?_
    · cases hok
    · rintro ⟨before, after, heq, -⟩
      exact hseg (by simp [heq])
  | some right =>
    have hparts : parsePair (left ++ byteOf '=' :: right) = .ok (key, val) ↔
        percentDecode left = some key ∧ percentDecode right = some val := by
      have hdrop : (left ++ byteOf '=' :: right).drop (left.length + 1) = right := by simp
      rw [parsePair, findChar_append hleft]
      simp only [List.take_left, hdrop]
      cases percentDecode left <;> cases percentDecode right <;> simp
    rw [Pieces.component_some, hparts]
    constructor
    · rintro ⟨hkey, hval⟩
      exact ⟨left, right, rfl, hleft, hkey, hval⟩
    · rintro ⟨before, after, heq, hbefore, hkey, hval⟩
      have hlength : left.length = before.length := by
        have hfind : findChar '=' (left ++ byteOf '=' :: right) = some left.length :=
          findChar_append hleft
        rw [heq, findChar_append hbefore] at hfind
        exact (Option.some.inj hfind).symm
      obtain ⟨rfl, hright⟩ := List.append_inj heq hlength
      exact ⟨hkey, (List.cons.inj hright).2 ▸ hval⟩

/-- The first segment of a query, and what is left behind it. -/
theorem segments_component (hne : pre ++ Pieces.component '&' text ≠ []) (hpre : byteOf '&' ∉ pre) :
    segments (byteOf '&') (pre ++ Pieces.component '&' text) =
      pre :: segments (byteOf '&') (text.getD []) := by
  cases text with
  | none =>
    have hnil : pre ≠ [] := by simpa [Pieces.component] using hne
    rw [Pieces.component, List.append_nil, segments_of_notMem hnil hpre, Option.getD_none,
      segments_nil]
  | some text => exact segments_append_cons hpre

/-- One round of the loop reads the first segment. -/
theorem parsePairs_component (hne : pre ++ Pieces.component '&' text ≠ [])
    (hpre : byteOf '&' ∉ pre) :
    parsePairs (fuel + 1) (pre ++ Pieces.component '&' text) res =
      parsePair pre >>= fun pair => parsePairs fuel (text.getD []) (res.insert pair.1 pair.2) := by
  obtain ⟨c, rest, hquery⟩ := List.exists_cons_of_ne_nil hne
  have hstops : Stops (· = byteOf '&') (Pieces.component '&' text) :=
    Pieces.stops_component '&' text (by simp)
  have hsub := (substrTo_findChar hpre hstops).1
  have hrest : removeTo (pre ++ Pieces.component '&' text)
      ((findChar '&' (pre ++ Pieces.component '&' text)).map (· + 1)) = text.getD [] := by
    cases text with
    | none =>
      rw [Pieces.component, List.append_nil, findChar_eq_none hpre]
      exact List.drop_length
    | some text =>
      rw [Pieces.component_some, findChar_append hpre]
      simp [removeTo]
  rw [hquery] at hsub hrest ⊢
  rw [parsePairs, hsub, hrest]

/-- The loop adds the pairs of the segments, if it is not cut off. -/
theorem parsePairs_eq_ok_iff (hfuel : query.length ≤ fuel) : parsePairs fuel query res = .ok res' ↔
    ∃ pairs : List (Bytes × Bytes),
      (segments (byteOf '&') query).map parsePair = pairs.map Except.ok ∧
        res' = res.insertMany pairs := by
  induction fuel generalizing query res with
  | zero =>
    obtain rfl := List.length_eq_zero_iff.mp (Nat.le_zero.mp hfuel)
    simp [parsePairs, eq_comm]
  | succ fuel ih =>
    by_cases hne : query = []
    · subst hne
      simp [parsePairs, eq_comm]
    · obtain ⟨pre, text, rfl, hpre⟩ := exists_component '&' query
      have hshort : (text.getD []).length ≤ fuel := by
        cases text with
        | none => exact Nat.zero_le fuel
        | some text =>
          rw [List.length_append, Pieces.component_some, List.length_cons] at hfuel
          rw [Option.getD_some]
          omega
      rw [parsePairs_component hne hpre, bind_eq_ok_iff, segments_component hne hpre]
      constructor
      · rintro ⟨pair, hpair, hrest⟩
        obtain ⟨pairs, hmap, rfl⟩ := (ih hshort).mp hrest
        exact ⟨pair :: pairs, by simp [hpair, hmap], Std.ExtTreeMap.insertMany_cons.symm⟩
      · rintro ⟨pairs, hmap, rfl⟩
        cases pairs with
        | nil => simp at hmap
        | cons pair pairs =>
          obtain ⟨hpair, hmap⟩ := List.cons.inj hmap
          exact ⟨pair, hpair, (ih hshort).mpr ⟨pairs, hmap, Std.ExtTreeMap.insertMany_cons⟩⟩

/-- Segments give pairs exactly if each of them is read. -/
theorem exists_map_parsePair_iff :
    (∃ pairs : List (Bytes × Bytes), segs.map parsePair = pairs.map Except.ok) ↔
      ∀ seg ∈ segs, ∃ key val, ReadsAs seg key val := by
  constructor
  · rintro ⟨pairs, hmap⟩ seg hseg
    have hmem : parsePair seg ∈ pairs.map Except.ok := hmap ▸ List.mem_map_of_mem hseg
    obtain ⟨pair, -, hpair⟩ := List.mem_map.mp hmem
    exact ⟨pair.1, pair.2, parsePair_eq_ok_iff.mp hpair.symm⟩
  · intro hread
    induction segs with
    | nil => exact ⟨[], rfl⟩
    | cons seg segs ih =>
      obtain ⟨⟨key, val, hseg⟩, hrest⟩ := List.forall_mem_cons.mp hread
      obtain ⟨pairs, hmap⟩ := ih hrest
      refine ⟨(key, val) :: pairs, ?_⟩
      rw [List.map_cons, List.map_cons, parsePair_eq_ok_iff.mpr hseg, hmap]

/-- The pairs are those that segments are read as. -/
theorem mem_pairs_iff (hmap : segs.map parsePair = pairs.map Except.ok) :
    (key, val) ∈ pairs ↔ ∃ seg ∈ segs, ReadsAs seg key val := by
  have hmem : Except.ok (key, val) ∈ segs.map parsePair ↔ (key, val) ∈ pairs := by simp [hmap]
  rw [← hmem, List.mem_map]
  simp only [parsePair_eq_ok_iff]

/-- No pair has a key exactly if no segment is read with it. -/
theorem forall_pairs_ne_iff (hmap : segs.map parsePair = pairs.map Except.ok) :
    (∀ pair ∈ pairs, pair.1 ≠ key) ↔ ∀ seg ∈ segs, ∀ val, ¬ ReadsAs seg key val := by
  constructor
  · intro hne seg hseg val hread
    exact hne (key, val) ((mem_pairs_iff hmap).mpr ⟨seg, hseg, hread⟩) rfl
  · rintro hnone ⟨_, val⟩ hpair rfl
    obtain ⟨seg, hseg, hread⟩ := (mem_pairs_iff hmap).mp hpair
    exact hnone seg hseg val hread

/-- The last pair with a key is that of the last segment that is read with the key. -/
theorem exists_last_pair_iff (hmap : segs.map parsePair = pairs.map Except.ok) :
    (∃ before after, pairs = before ++ (key, val) :: after ∧ ∀ pair ∈ after, pair.1 ≠ key) ↔
      ∃ before seg after, segs = before ++ seg :: after ∧ ReadsAs seg key val ∧
        ∀ other ∈ after, ∀ v, ¬ ReadsAs other key v := by
  constructor
  · rintro ⟨before, after, rfl, hafter⟩
    rw [List.map_append, List.map_cons] at hmap
    obtain ⟨before', rest, rfl, -, hrest⟩ := List.map_eq_append_iff.mp hmap
    obtain ⟨seg, after', rfl, hseg, hafter'⟩ := List.map_eq_cons_iff.mp hrest
    exact ⟨before', seg, after', rfl, parsePair_eq_ok_iff.mp hseg,
      (forall_pairs_ne_iff hafter').mp hafter⟩
  · rintro ⟨before, seg, after, rfl, hseg, hafter⟩
    rw [List.map_append, List.map_cons, parsePair_eq_ok_iff.mpr hseg] at hmap
    obtain ⟨before', rest, rfl, -, hrest⟩ := List.map_eq_append_iff.mp hmap.symm
    obtain ⟨pair, after', rfl, hpair, hafter'⟩ := List.map_eq_cons_iff.mp hrest
    cases hpair
    exact ⟨before', after', rfl, (forall_pairs_ne_iff hafter'.symm).mpr hafter⟩

/-- For every query and every destination `ParseQuery` returns. It succeeds exactly if each segment
has two sides that are decoded; then the destination is the map of the last value of each key, and
otherwise it is left as it was. -/
theorem parseQueryTo_spec (query : Bytes) (dict : Dict) : ∃ success dict',
    parseQueryTo query dict = some (success, dict') ∧ ParsesQuery query dict success dict' := by
  cases hparse : parseQuery query with
  | ok res =>
    obtain ⟨pairs, hmap, rfl⟩ := (parsePairs_eq_ok_iff le_rfl).mp hparse
    refine ⟨true, _, by rw [parseQueryTo, hparse], ?_, fun _ key val => ?_, nofun⟩
    · exact iff_of_true rfl (exists_map_parsePair_iff.mp ⟨pairs, hmap⟩)
    · rw [getElem?_insertMany_eq_some_iff, exists_last_pair_iff hmap]
      simp
  | error stop =>
    cases stop with
    | loops => exact absurd hparse (parseQuery_ne_loops query)
    | rejected =>
      refine ⟨false, dict, by rw [parseQueryTo, hparse], ?_, nofun, fun _ => rfl⟩
      refine iff_of_false nofun fun hread => ?_
      obtain ⟨pairs, hmap⟩ := exists_map_parsePair_iff.mpr hread
      have hok : parseQuery query = .ok _ := (parsePairs_eq_ok_iff le_rfl).mpr ⟨pairs, hmap, rfl⟩
      simp [hparse] at hok

end Demos.Oak
