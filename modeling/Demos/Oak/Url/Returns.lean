import Demos.Oak.Url.Parse

/-!
# `Url::Parse` returns

The loop over the pairs of a query and the loop over the components of a string consume what they
read, so that neither is cut off by the length of its text: a call accepts the string or rejects it.
-/

namespace Demos.Oak

/-- The loop over the pairs of a query is not cut off by the length of the query. -/
theorem parsePairs_ne_loops {fuel : ℕ} {query : Bytes} {res : Dict}
    (hfuel : query.length ≤ fuel) :
    parsePairs fuel query res ≠ .error .loops := by
  induction fuel generalizing query res with
  | zero =>
    obtain rfl := List.length_eq_zero_iff.mp (Nat.le_zero.mp hfuel)
    simp [parsePairs]
  | succ fuel ih =>
    cases query with
    | nil => simp [parsePairs]
    | cons c rest =>
      have hshort : (removeTo (c :: rest)
          ((findChar '&' (c :: rest)).map (· + 1))).length ≤ fuel := by
        cases findChar '&' (c :: rest) with
        | none => simp [removeTo]
        | some pos =>
          simp only [removeTo, Option.map_some, Option.getD_some, List.length_drop]
          omega
      rw [parsePairs]
      cases hpair : parsePair (substrTo (c :: rest) (findChar '&' (c :: rest))) with
      | ok pair => exact ih hshort
      | error stop =>
        intro heq
        have hstop : stop = .loops := Except.error.inj heq
        rw [hstop, parsePair] at hpair
        split at hpair
        next => simp at hpair
        next => split at hpair <;> simp at hpair

theorem parseQuery_ne_loops (query : Bytes) : parseQuery query ≠ .error .loops :=
  parsePairs_ne_loops le_rfl

namespace Url

variable {u : Url} {str : Bytes}

/-- The call is not cut off. -/
def Ends (call : Except (Stop × Url) Url) : Prop := ∀ u, call ≠ .error (.loops, u)

/-- Calls that are not cut off can be made one after the other. -/
theorem Ends.bind {call : Except (Stop × Url) Url} {next : Url → Except (Stop × Url) Url}
    (hcall : Ends call) (hnext : ∀ u, Ends (next u)) : Ends (call >>= next) := by
  cases call with
  | error stop => exact hcall
  | ok u => exact hnext u

/-- Decoding a piece is not cut off. -/
theorem ends_decodeInto {put : Bytes → Url} : Ends (decodeInto u str put) := by
  intro u'
  rw [decodeInto]
  cases percentDecode str <;> simp

/-- Storing a scheme is not cut off. -/
theorem ends_storeScheme {scheme : Option Bytes} : Ends (u.storeScheme scheme str) := by
  intro u'
  cases scheme with
  | none => simp [storeScheme]
  | some scheme =>
    rw [storeScheme]
    split
    next => simp
    next => split <;> simp

/-- Storing an authority is not cut off. -/
theorem ends_storeAuthority : Ends (u.storeAuthority str) := by
  rw [storeAuthority]
  split
  next => intro u'; simp
  next =>
    refine ends_decodeInto.bind fun u => ends_decodeInto.bind fun u => ends_decodeInto.bind fun u =>
      Ends.bind ?_ fun u => ends_decodeInto.bind fun u => ends_decodeInto.bind fun u => ?_
    · intro u'
      rw [checkPort]
      split <;> simp
    · intro u' heq
      cases heq

/-- Storing a query is not cut off. -/
theorem ends_storeQuery {query : Option Bytes} : Ends (u.storeQuery query) := by
  intro u'
  rw [storeQuery]
  split
  next => simp
  next =>
    cases hquery : parseQuery (query.getD []) with
    | ok dict => simp
    | error stop =>
      have hstop : stop ≠ .loops := by
        rintro rfl
        exact parseQuery_ne_loops _ hquery
      simpa using fun heq => absurd heq hstop

/-- `Url::Parse` returns for every object and every string: neither loop is cut off. -/
theorem ends_parse (u : Url) (str : Bytes) : Ends (u.parse str) := by
  obtain ⟨p, hwf, htext⟩ := exists_pieces (trim str)
  by_cases hne : p.text = []
  · intro u'
    rw [parse, ← htext, if_pos hne]
    simp
  · rw [parse_text hwf htext.symm hne]
    refine ends_storeScheme.bind fun u => ?_
    rw [parseRest_text hwf]
    refine Ends.bind ?_ fun u => Ends.bind ?_ fun u => ends_storeQuery.bind fun u =>
      Ends.bind ?_ fun u => ?_
    · split
      next => intro u'; simp
      next => exact ends_storeAuthority
    · rw [storePath]
      split
      next => intro u'; simp
      next => exact ends_decodeInto
    · cases p.fragment with
      | none => intro u'; simp [storeFragment]
      | some fragment => exact ends_decodeInto
    · intro u'
      rw [accept]
      split <;> simp

end Url

end Demos.Oak
