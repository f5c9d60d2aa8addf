import Demos.Lib.Scan
import Demos.Oak.Url.Model

/-!
# The pieces of a URL

Every string falls into the pieces that the delimiters mark: a scheme, an authority, a path, a query
and a fragment. A delimiter is found at the end of the text that does not contain it.
-/

namespace Demos.Oak

open Demos.Lib

variable {str part pre post : Bytes}

section Find

/-- The text is not found exactly if it does not occur. -/
theorem findStr_eq_none_iff (hpart : part ≠ []) : findStr part str = none ↔ ¬ part <:+: str := by
  induction str with
  | nil => simp [findStr, hpart]
  | cons c rest ih =>
    rw [findStr, List.infix_cons_iff]
    split
    next hstart => simp [hstart]
    next hstart => simp [hstart, ih]

/-- The text is found at the first place of its first character. -/
theorem findStr_append {c : UInt8} (hpre : c ∉ pre) :
    findStr (c :: part) (pre ++ (c :: part ++ post)) = some pre.length := by
  induction pre with
  | nil => simp [findStr]
  | cons x pre ih =>
    have hx : c ≠ x := fun heq => hpre (heq ▸ List.mem_cons_self)
    have hrest := ih fun hmem => hpre (List.mem_cons_of_mem x hmem)
    have hstart : ¬ c :: part <+: x :: (pre ++ (c :: part ++ post)) := by
      simp [List.cons_prefix_cons, hx]
    rw [List.cons_append, findStr, if_neg hstart, hrest]
    rfl

/-- Where the text is found it occurs. -/
theorem exists_of_findStr {n : ℕ} (hfind : findStr part str = some n) :
    ∃ pre post, str = pre ++ (part ++ post) ∧ pre.length = n := by
  induction str generalizing n with
  | nil => simp [findStr] at hfind
  | cons c rest ih =>
    rw [findStr] at hfind
    split at hfind
    next hstart =>
      obtain ⟨post, hpost⟩ := hstart
      exact ⟨[], post, hpost.symm, by simpa using hfind⟩
    next =>
      obtain ⟨m, hm, rfl⟩ := Option.map_eq_some_iff.mp hfind
      obtain ⟨pre, post, rfl, rfl⟩ := ih hm
      exact ⟨c :: pre, post, rfl, rfl⟩

/-- A view up to a delimiter, and from it on. -/
theorem substrTo_findFirstOf {chars : Bytes} (hpre : Avoids chars pre)
    (hpost : Stops (· ∈ chars) post) :
    substrTo (pre ++ post) (findFirstOf chars (pre ++ post)) = pre ∧
      removeTo (pre ++ post) (findFirstOf chars (pre ++ post)) = post :=
  take_findIdx? (fun c hc => decide_eq_false (hpre c hc)) hpost

/-- The characters of a text that lacks one are others. -/
theorem forall_ne_byteOf {c : Char} (hstr : byteOf c ∉ str) :
    ∀ x ∈ str, decide (x = byteOf c) = false :=
  fun _ hx => decide_eq_false (ne_of_mem_of_not_mem hx hstr)

/-- A view up to a character, and from it on. -/
theorem substrTo_findChar {c : Char} (hpre : byteOf c ∉ pre) (hpost : Stops (· = byteOf c) post) :
    substrTo (pre ++ post) (findChar c (pre ++ post)) = pre ∧
      removeTo (pre ++ post) (findChar c (pre ++ post)) = post :=
  take_findIdx? (forall_ne_byteOf hpre) hpost

theorem findChar_append {c : Char} (hpre : byteOf c ∉ pre) :
    findChar c (pre ++ byteOf c :: post) = some pre.length :=
  findIdx?_append_cons (forall_ne_byteOf hpre) (by simp)

/-- A character that does not occur is not found. -/
theorem findChar_eq_none {c : Char} (hstr : byteOf c ∉ str) : findChar c str = none :=
  List.findIdx?_eq_none_iff.mpr (forall_ne_byteOf hstr)

end Find

/-- The pieces of a string. -/
structure Pieces where
  scheme : Option Bytes := none
  auth : Bytes := []
  path : Bytes := []
  query : Option Bytes := none
  fragment : Option Bytes := none

namespace Pieces

/-- A piece with the character that leads to it. -/
def component (lead : Char) : Option Bytes → Bytes
  | none => []
  | some text => byteOf lead :: text

theorem component_some (lead : Char) (text : Bytes) :
    component lead (some text) = byteOf lead :: text := rfl

/-- The string after the scheme. -/
def rest (p : Pieces) : Bytes :=
  p.auth ++ (p.path ++ (component '?' p.query ++ component '#' p.fragment))

/-- The string. -/
def text (p : Pieces) : Bytes :=
  match p.scheme with
  | none => p.rest
  | some scheme => scheme ++ (ascii "://" ++ p.rest)

/-- The pieces are those that the delimiters mark. -/
structure WellFormed (p : Pieces) : Prop where
  scheme : findStr (ascii "://") p.text = p.scheme.map List.length
  auth : Avoids (ascii "/?#") p.auth
  path_slash : ∀ c ∈ p.path.head?, c = byteOf '/'
  path : Avoids (ascii "?#") p.path
  query : ∀ q ∈ p.query, byteOf '#' ∉ q

/-- A component starts with the character that leads to it. -/
theorem stops_component (lead : Char) (text : Option Bytes) {p : UInt8 → Bool}
    (hlead : p (byteOf lead) = true) : Stops p (component lead text) := by
  intro c hc
  cases text with
  | none => simp [component] at hc
  | some text =>
    obtain rfl : byteOf lead = c := by simpa [component] using hc
    exact hlead

end Pieces

/-- Every text is cut at the first place of a character. -/
theorem exists_component (lead : Char) (str : Bytes) :
    ∃ pre text, str = pre ++ Pieces.component lead text ∧ byteOf lead ∉ pre := by
  obtain ⟨pre, post, rfl, hpre, hstops⟩ := exists_cut (· = byteOf lead) str
  have hlead : byteOf lead ∉ pre := fun hmem => by simpa using hpre _ hmem
  cases post with
  | nil => exact ⟨pre, none, rfl, hlead⟩
  | cons c post =>
    obtain rfl : c = byteOf lead := by simpa using hstops c rfl
    exact ⟨pre, some post, rfl, hlead⟩

/-- A text that starts with a delimiter is a query and a fragment. -/
theorem exists_query_fragment (hstr : Stops (· ∈ ascii "?#") str) :
    ∃ query fragment, (∀ q ∈ query, byteOf '#' ∉ q) ∧
      str = Pieces.component '?' query ++ Pieces.component '#' fragment := by
  cases str with
  | nil => exact ⟨none, none, by simp, rfl⟩
  | cons c rest =>
    by_cases hc : c = byteOf '?'
    · obtain ⟨query, fragment, rfl, hquery⟩ := exists_component '#' rest
      exact ⟨some query, fragment, by simpa using hquery, by rw [hc]; rfl⟩
    · have hhash : c = byteOf '#' := by
        have hmem : c ∈ ascii "?#" := by simpa using hstr c rfl
        simpa [ascii_eq, hc] using hmem
      exact ⟨none, some rest, by simp, by rw [hhash]; rfl⟩

/-- Every string falls into pieces. -/
theorem exists_pieces (str : Bytes) : ∃ p : Pieces, p.WellFormed ∧ p.text = str := by
  have hrest : ∀ (scheme : Option Bytes) (rest : Bytes), ∃ p : Pieces, p.scheme = scheme ∧
      p.rest = rest ∧ Avoids (ascii "/?#") p.auth ∧ (∀ c ∈ p.path.head?, c = byteOf '/') ∧
      Avoids (ascii "?#") p.path ∧ ∀ q ∈ p.query, byteOf '#' ∉ q := by
    intro scheme rest
    obtain ⟨auth, tail, rfl, hauth, hstops⟩ := exists_cut (· ∈ ascii "/?#") rest
    obtain ⟨path, tail, rfl, hpath, hstops'⟩ := exists_cut (· ∈ ascii "?#") tail
    obtain ⟨query, fragment, hquery, rfl⟩ := exists_query_fragment hstops'
    refine ⟨⟨scheme, auth, path, query, fragment⟩, rfl, rfl,
      fun c hc => of_decide_eq_false (hauth c hc), ?_,
      fun c hc => of_decide_eq_false (hpath c hc), hquery⟩
    intro c hc
    have hmark : c ∉ ascii "?#" := of_decide_eq_false (hpath c (List.mem_of_mem_head? hc))
    have hmem : c ∈ ascii "/?#" := by
      simpa using hstops c (by rw [List.head?_append, Option.mem_def.mp hc]; rfl)
    simp only [ascii_eq] at hmark hmem
    simp_all
  cases hfind : findStr (ascii "://") str with
  | none =>
    obtain ⟨p, hscheme, hp, hauth, hslash, hpath, hquery⟩ := hrest none str
    have htext : p.text = str := by rw [Pieces.text, hscheme, hp]
    exact ⟨p, ⟨by rw [htext, hfind, hscheme]; rfl, hauth, hslash, hpath, hquery⟩, htext⟩
  | some n =>
    obtain ⟨pre, post, rfl, rfl⟩ := exists_of_findStr hfind
    obtain ⟨p, hscheme, hp, hauth, hslash, hpath, hquery⟩ := hrest (some pre) post
    have htext : p.text = pre ++ (ascii "://" ++ post) := by rw [Pieces.text, hscheme, hp]
    exact ⟨p, ⟨by rw [htext, hfind, hscheme]; rfl, hauth, hslash, hpath, hquery⟩, htext⟩

end Demos.Oak
