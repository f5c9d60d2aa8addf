import Demos.Oak.Url.Assemble

/-!
# Looking up a key of the query

`Url::Query(key)` compares the iterator that it has found with the end the wrong way round: it
returns the empty string for a key that is there, and reads the value behind the end of the map for
one that is not.
-/

namespace Demos.Oak

open Demos.Lib

/-- `Url::Query(key)`. There is no result if the iterator is the end of the map when its value is
read. -/
def Url.queryOf (u : Url) (key : Bytes) : Option Bytes :=
  let it := u.query[key]?
  if it ≠ none then some [] else it

variable {u : Url} {key : Bytes} {pairs : List (Bytes × Bytes)}

/-- What a lookup is for: the value of a key that is there, and the empty string for any other. -/
def Answers (pairs : List (Bytes × Bytes)) (key : Bytes) (res : Option Bytes) : Prop :=
  (∀ val, (key, val) ∈ pairs → res = some val) ∧ ((∀ val, (key, val) ∉ pairs) → res = some [])

theorem unreserved_of_none : ∀ text ∈ (none : Option Bytes), Unreserved text := by
  intro text htext
  cases htext

/-- The string `/?` with a query over unreserved characters. -/
def UrlParts.ofQuery (pairs : List (Bytes × Bytes)) (hkeys : (pairs.map Prod.fst).Nodup)
    (hchars : ∀ pair ∈ pairs, Unreserved pair.1 ∧ Unreserved pair.2) : UrlParts where
  path := some (ascii "/")
  query := some pairs
  scheme_chars := by simp
  path_slash := by
    intro text htext
    cases htext
    rfl
  path_chars := by
    intro text htext c hc
    cases htext
    exact .inr (List.mem_singleton.mp hc)
  query_unreserved := by
    intro pairs' hpairs
    cases hpairs
    exact hchars
  query_distinct := by
    intro pairs' hpairs
    cases hpairs
    exact hkeys
  fragment_unreserved := unreserved_of_none
  present := .inr rfl

/-- A fresh object has the pairs of the string that it has parsed. -/
theorem exists_parse_pairsText (hkeys : (pairs.map Prod.fst).Nodup)
    (hchars : ∀ pair ∈ pairs, Unreserved pair.1 ∧ Unreserved pair.2) :
    ∃ u, ({} : Url).parse (ascii "/?" ++ pairsText pairs) = .ok u ∧
      ∀ key val, u.query[key]? = some val ↔ (key, val) ∈ pairs := by
  let p := UrlParts.ofQuery pairs hkeys hchars
  have hport : ¬ p.Ipv6WithPort := by
    rintro ⟨a, ha, -⟩
    cases ha
  have hassemble : p.assemble = ascii "/?" ++ pairsText pairs := by
    simp only [p, UrlParts.assemble, UrlParts.ofQuery]
    exact List.append_nil _
  have htrim : trim (ascii "/?" ++ pairsText pairs) = p.pieces.text := by
    rw [← hassemble, p.trim_assemble, p.pieces_text]
  exact ⟨p.url, (Url.parse_eq_ok_iff p.pieces_wellFormed htrim).mpr (p.gives_url hport),
    p.url_query⟩

/-- The value that is found does not matter. -/
theorem Url.queryOf_eq (u : Url) (key : Bytes) :
    u.queryOf key = if u.query[key]?.isSome then some [] else none := by
  rw [Url.queryOf]
  cases u.query[key]? <;> simp

/-- After `/?k=v&...` is parsed a lookup is right if and only if the key is there with the empty
string as its value. -/
theorem queryOf_answers_iff (pairs : List (Bytes × Bytes)) (hkeys : (pairs.map Prod.fst).Nodup)
    (hchars : ∀ pair ∈ pairs, Unreserved pair.1 ∧ Unreserved pair.2) (key : Bytes) :
    ∃ u, ({} : Url).parse (ascii "/?" ++ pairsText pairs) = .ok u ∧
      (Answers pairs key (u.queryOf key) ↔ (key, []) ∈ pairs) := by
  obtain ⟨u, hparse, hquery⟩ := exists_parse_pairsText hkeys hchars
  refine ⟨u, hparse, ?_⟩
  rw [Url.queryOf_eq]
  cases hfound : u.query[key]? with
  | none =>
    have habsent : ∀ val, (key, val) ∉ pairs := fun val hmem => by
      rw [(hquery key val).mpr hmem] at hfound
      cases hfound
    refine iff_of_false (fun hanswers => ?_) (habsent [])
    cases hanswers.2 habsent
  | some val =>
    have hval : ∀ val', (key, val') ∈ pairs ↔ val = val' := fun val' => by
      rw [← hquery, hfound, Option.some.injEq]
    constructor
    · intro hanswers
      have hempty := hanswers.1 val ((hval val).mpr rfl)
      exact (hval []).mpr (Option.some.inj hempty).symm
    · intro hmem
      obtain rfl := (hval []).mp hmem
      refine ⟨fun val' hmem' => ?_, fun habsent => absurd hmem (habsent [])⟩
      obtain rfl := (hval val').mp hmem'
      rfl

/-- One key without a value. -/
theorem queryOf_answers_iff_empty :
    ∃ u, ({} : Url).parse (ascii "/?" ++ pairsText [(ascii "k", [])]) = .ok u ∧
      Answers [(ascii "k", [])] (ascii "k") (u.queryOf (ascii "k")) := by
  have hchars : ∀ pair ∈ [(ascii "k", ([] : Bytes))], Unreserved pair.1 ∧ Unreserved pair.2 := by
    intro pair hpair
    obtain rfl := List.mem_singleton.mp hpair
    exact ⟨List.all_eq_true.mp (by decide), by simp [Unreserved]⟩
  obtain ⟨u, hparse, hanswers⟩ :=
    queryOf_answers_iff [(ascii "k", [])] (by decide) hchars (ascii "k")
  exact ⟨u, hparse, hanswers.mpr List.mem_cons_self⟩

/-- After `/?k=v` is parsed the value of `k` is returned as empty, and the one of `x` is read at the
end of the map. -/
theorem queryOf_inverted :
    ∃ u, ({} : Url).parse (ascii "/?k=v") = .ok u ∧
      u.query[ascii "k"]? = some (ascii "v") ∧ u.queryOf (ascii "k") = some [] ∧
      u.queryOf (ascii "x") = none ∧
      ¬ Answers [(ascii "k", ascii "v")] (ascii "k") (u.queryOf (ascii "k")) ∧
      ¬ Answers [(ascii "k", ascii "v")] (ascii "x") (u.queryOf (ascii "x")) := by
  have hchars : ∀ pair ∈ [(ascii "k", ascii "v")], Unreserved pair.1 ∧ Unreserved pair.2 := by
    intro pair hpair
    obtain rfl := List.mem_singleton.mp hpair
    exact ⟨List.all_eq_true.mp (by decide), List.all_eq_true.mp (by decide)⟩
  have htext : ascii "/?k=v" = ascii "/?" ++ pairsText [(ascii "k", ascii "v")] := by decide
  obtain ⟨u, hparse, hquery⟩ := exists_parse_pairsText (by decide) hchars
  have hk : u.query[ascii "k"]? = some (ascii "v") := (hquery _ _).mpr List.mem_cons_self
  have hx : u.query[ascii "x"]? = none := by
    refine Option.eq_none_iff_forall_ne_some.mpr fun val hval => ?_
    have hmem := List.mem_singleton.mp ((hquery _ _).mp hval)
    exact absurd (Prod.mk.inj hmem).1 (by decide)
  have hfound : u.queryOf (ascii "k") = some [] := by simp [Url.queryOf_eq, hk]
  have hend : u.queryOf (ascii "x") = none := by simp [Url.queryOf_eq, hx]
  refine ⟨u, htext ▸ hparse, hk, hfound, hend, fun hanswers => ?_, fun hanswers => ?_⟩
  · have hval := hanswers.1 _ List.mem_cons_self
    rw [hfound] at hval
    exact absurd (Option.some.inj hval) (by decide)
  · have habsent : ∀ val, (ascii "x", val) ∉ [(ascii "k", ascii "v")] := fun val hmem =>
      absurd (Prod.mk.inj (List.mem_singleton.mp hmem)).1 (by decide)
    have hval := hanswers.2 habsent
    rw [hend] at hval
    cases hval

end Demos.Oak
