import Demos.Oak.Url.Returns

/-!
# The loop over the components

The loop of `Url::Parse` has a branch for each of the characters that begin a component and none for
any other character, which it would look at for ever. What is left of the string begins with one of
the three when the loop is entered, and again after each iteration that does not reject the string.
-/

namespace Demos.Oak

open Demos.Lib

/-- What is left at the first character of a set begins with a character of the set. -/
theorem stops_removeTo_findFirstOf (chars str : Bytes) :
    Stops (· ∈ chars) (removeTo str (findFirstOf chars str)) := by
  obtain ⟨pre, post, rfl, hpre, hpost⟩ := exists_cut (· ∈ chars) str
  rw [removeTo, findFirstOf, (take_findIdx? hpre hpost).2]
  exact hpost

/-- What is left at a character begins with it. -/
theorem stops_removeTo_findChar (c : Char) (str : Bytes) :
    Stops (· = byteOf c) (removeTo str (findChar c str)) := by
  obtain ⟨pre, post, rfl, hpre, hpost⟩ := exists_cut (· = byteOf c) str
  rw [removeTo, findChar, (take_findIdx? hpre hpost).2]
  exact hpost

/-- A character outside of the set is removed. -/
theorem removeTo_cons {chars rest : Bytes} {c : UInt8} (hc : c ∉ chars) :
    removeTo (c :: rest) (findFirstOf chars (c :: rest)) =
      removeTo rest (findFirstOf chars rest) := by
  have hfind : findFirstOf chars (c :: rest) = (findFirstOf chars rest).map (· + 1) := by
    simp [findFirstOf, List.findIdx?_cons, hc]
  rw [hfind]
  cases findFirstOf chars rest <;> simp [removeTo]

theorem length_removeTo_le (str : Bytes) (pos : Option ℕ) :
    (removeTo str pos).length ≤ str.length := by
  simp [removeTo]

namespace Url

variable {u u' : Url} {c : UInt8} {rest str url url' : Bytes} {fuel k n : ℕ}

/-- One iteration of the loop, for a string that begins with `c`. -/
def parseComponent (u : Url) (c : UInt8) (rest : Bytes) : Except (Stop × Url) (Url × Bytes) :=
  if c = byteOf '/' then do
    let url := c :: rest
    let pos := findFirstOf (ascii "?#") url
    let u ← decodeInto u (substrTo url pos) fun res => { u with path := res }
    return (u, removeTo url pos)
  else if c = byteOf '?' then
    let pos := findChar '#' rest
    let qstr := substrTo rest pos
    if qstr = [] then .ok (u, removeTo rest pos)
    else
      match parseQuery qstr with
      | .error stop => .error (stop, u)
      | .ok query => .ok ({ u with query := query }, removeTo rest pos)
  else if c = byteOf '#' then do
    let u ← decodeInto u rest fun res => { u with fragment := res }
    return (u, [])
  else .ok (u, c :: rest)

/-- The loop, stopped after `n` iterations if it goes on so long. -/
def componentRounds : ℕ → Url → Bytes → Except (Stop × Url) (Url × Bytes)
  | _, u, [] => .ok (u, [])
  | 0, u, c :: rest => .ok (u, c :: rest)
  | n + 1, u, c :: rest => parseComponent u c rest >>= fun (u, url) => componentRounds n u url

/-- `Url::Parse` up to the loop: the members, and the string that the loop begins with if it is
reached. -/
def beforeComponents (u : Url) (url : Bytes) : Except (Stop × Url) (Url × Option Bytes) :=
  let url := trim url
  if url = [] then .error (.rejected, u)
  else u.parseScheme url >>= fun (u, url) =>
    let pos := findFirstOf (ascii "/?#") url
    let auth := substrTo url pos
    (if auth = [] then .ok u else u.storeAuthority auth) >>= fun u =>
      .ok (u, pos.map fun _ => removeTo url pos)

section Rounds

/-- The loop takes iteration after iteration. -/
theorem parseComponents_cons (fuel : ℕ) (u : Url) (c : UInt8) (rest : Bytes) :
    parseComponents (fuel + 1) u (c :: rest) =
      parseComponent u c rest >>= fun (u, url) => parseComponents fuel u url := by
  rw [parseComponents, parseComponent]
  dsimp only
  split
  next =>
    cases decodeInto u (substrTo (c :: rest) (findFirstOf (ascii "?#") (c :: rest)))
      fun res => { u with path := res } <;> rfl
  next =>
    split
    next =>
      split
      next => rfl
      next => cases parseQuery (substrTo rest (findChar '#' rest)) <;> rfl
    next =>
      split
      next => cases decodeInto u rest fun res => { u with fragment := res } <;> rfl
      next => rfl

/-- The bounded loop is cut off if something is left. -/
theorem parseComponents_eq (fuel : ℕ) (u : Url) (url : Bytes) :
    parseComponents fuel u url = componentRounds fuel u url >>= fun (u, url) =>
      if url = [] then .ok u else .error (.loops, u) := by
  induction fuel generalizing u url with
  | zero => cases url <;> rfl
  | succ fuel ih =>
    cases url with
    | nil => rfl
    | cons c rest =>
      rw [parseComponents_cons, componentRounds]
      cases parseComponent u c rest with
      | error stop => rfl
      | ok next => exact ih next.1 next.2

/-- Iterations follow one another. -/
theorem componentRounds_add (n k : ℕ) (u : Url) (url : Bytes) :
    componentRounds (n + k) u url =
      componentRounds n u url >>= fun (u, url) => componentRounds k u url := by
  induction n generalizing u url with
  | zero =>
    rw [Nat.zero_add]
    cases url with
    | nil => cases k <;> rfl
    | cons c rest => rfl
  | succ n ih =>
    cases url with
    | nil => cases k <;> rfl
    | cons c rest =>
      rw [Nat.succ_add, componentRounds, componentRounds]
      cases parseComponent u c rest with
      | error stop => rfl
      | ok next => exact ih next.1 next.2

end Rounds

section Progress

/-- What is left of the string begins a component, if there is something left. -/
abbrev AtComponent (url : Bytes) : Prop := Stops (· ∈ ascii "/?#") url

/-- The characters at which a path ends begin a component. -/
theorem atComponent_of_stops {chars : Bytes} (hchars : chars ⊆ ascii "/?#")
    (h : Stops (· ∈ chars) url) : AtComponent url := fun c hc =>
  decide_eq_true (hchars (of_decide_eq_true (h c hc)))

/-- The string is rejected, or a shorter one than `url` is left that begins a component again. -/
def Advances (url : Bytes) (result : Except (Stop × Url) (Url × Bytes)) : Prop :=
  (∃ u, result = .error (.rejected, u)) ∨
    ∃ u url', result = .ok (u, url') ∧ url'.length < url.length ∧ AtComponent url'

/-- An iteration that decodes a piece and leaves a shorter string. -/
theorem advances_decodeInto (u : Url) (str : Bytes) (put : Bytes → Url)
    (hlt : url'.length < url.length) (hat : AtComponent url') :
    Advances url (decodeInto u str put >>= fun u => pure (u, url')) := by
  rw [decodeInto]
  cases percentDecode str with
  | none => exact .inl ⟨u, rfl⟩
  | some res => exact .inr ⟨put res, url', rfl, hlt, hat⟩

theorem length_removeTo_lt (c : UInt8) (rest : Bytes) (pos : Option ℕ) :
    (removeTo rest pos).length < (c :: rest).length :=
  Nat.lt_succ_of_le (length_removeTo_le rest pos)

/-- A path ends at a query or a fragment. -/
theorem advances_path (u : Url) (rest : Bytes) :
    Advances (byteOf '/' :: rest) (parseComponent u (byteOf '/') rest) := by
  have hstops := stops_removeTo_findFirstOf (ascii "?#") rest
  rw [parseComponent, if_pos rfl]
  dsimp only
  rw [removeTo_cons (by decide)]
  exact advances_decodeInto u _ _ (length_removeTo_lt _ rest _)
    (atComponent_of_stops (by decide) hstops)

/-- A query ends at a fragment. -/
theorem advances_query (u : Url) (rest : Bytes) :
    Advances (byteOf '?' :: rest) (parseComponent u (byteOf '?') rest) := by
  have hlt := length_removeTo_lt (byteOf '?') rest (findChar '#' rest)
  have hat : AtComponent (removeTo rest (findChar '#' rest)) := fun c hc => by
    obtain rfl : c = byteOf '#' := by simpa using stops_removeTo_findChar '#' rest c hc
    decide
  rw [parseComponent, if_neg (by decide), if_pos rfl]
  by_cases hempty : substrTo rest (findChar '#' rest) = []
  · exact .inr ⟨u, _, if_pos hempty, hlt, hat⟩
  · rw [if_neg hempty]
    cases hquery : parseQuery (substrTo rest (findChar '#' rest)) with
    | ok query => exact .inr ⟨{ u with query := query }, _, rfl, hlt, hat⟩
    | error stop =>
      cases stop with
      | rejected => exact .inl ⟨u, rfl⟩
      | loops => exact absurd hquery (parseQuery_ne_loops _)

/-- A fragment is all that is left. -/
theorem advances_fragment (u : Url) (rest : Bytes) :
    Advances (byteOf '#' :: rest) (parseComponent u (byteOf '#') rest) := by
  rw [parseComponent, if_neg (by decide), if_neg (by decide), if_pos rfl]
  exact advances_decodeInto u rest _ (Nat.succ_pos _) (by simp [Stops])

/-- An iteration at a component rejects the string, or leaves a shorter one that begins a component
again. -/
theorem advances_parseComponent (u : Url) (rest : Bytes) (hc : c ∈ ascii "/?#") :
    Advances (c :: rest) (parseComponent u c rest) := by
  have hchars : ascii "/?#" = [byteOf '/', byteOf '?', byteOf '#'] := rfl
  simp only [hchars, List.mem_cons, List.not_mem_nil, or_false] at hc
  rcases hc with rfl | rfl | rfl
  · exact advances_path u rest
  · exact advances_query u rest
  · exact advances_fragment u rest

/-- After `n` iterations the string is used up, or `n` characters shorter at least. -/
theorem componentRounds_progress (n : ℕ) (u : Url) (hurl : AtComponent url) :
    (∃ u', componentRounds n u url = .error (.rejected, u')) ∨
      ∃ u' url', componentRounds n u url = .ok (u', url') ∧ url'.length ≤ url.length - n ∧
        AtComponent url' := by
  induction n generalizing u url with
  | zero =>
    refine .inr ⟨u, url, ?_, le_rfl, hurl⟩
    cases url <;> rfl
  | succ n ih =>
    cases url with
    | nil => exact .inr ⟨u, [], rfl, Nat.zero_le _, hurl⟩
    | cons c rest =>
      have hc : c ∈ ascii "/?#" := of_decide_eq_true (hurl c rfl)
      rw [componentRounds]
      rcases advances_parseComponent u rest hc with ⟨u', hreject⟩ | ⟨u₁, url₁, hok, hlt, hnext⟩
      · exact .inl ⟨u', by rw [hreject]; rfl⟩
      · rw [hok]
        rcases ih u₁ hnext with ⟨u', hreject⟩ | ⟨u', url', hrounds, hle, hlast⟩
        · exact .inl ⟨u', hreject⟩
        · exact .inr ⟨u', url', hrounds, by omega, hlast⟩

end Progress

section Loop

/-- The loop begins at a component, and `Url::Parse` is what comes before it, the loop and the last
check. -/
theorem parse_of_beforeComponents (h : u.beforeComponents str = .ok (u', some url)) :
    AtComponent url ∧ ∃ fuel, url.length ≤ fuel ∧
      u.parse str = parseComponents fuel u' url >>= accept := by
  rw [beforeComponents] at h
  rw [parse]
  dsimp only at h ⊢
  split at h
  next => cases h
  next hne =>
    rw [if_neg hne]
    cases hscheme : u.parseScheme (trim str) with
    | error stop => rw [hscheme] at h; cases h
    | ok next =>
      obtain ⟨u₁, url₁⟩ := next
      rw [hscheme] at h
      change (_ >>= fun u => Except.ok (u, _)) = Except.ok _ at h
      change AtComponent url ∧ ∃ fuel, url.length ≤ fuel ∧ u₁.parseRest url₁ = _
      rw [parseRest]
      cases hauth : (if substrTo url₁ (findFirstOf (ascii "/?#") url₁) = [] then .ok u₁
        else u₁.storeAuthority (substrTo url₁ (findFirstOf (ascii "/?#") url₁)) :
          Except (Stop × Url) Url) with
      | error stop => rw [hauth] at h; cases h
      | ok u₂ =>
        rw [hauth] at h
        obtain ⟨rfl, hmap⟩ := Prod.mk.inj (Except.ok.inj h)
        obtain ⟨pos, hpos, rfl⟩ := Option.map_eq_some_iff.mp hmap
        refine ⟨stops_removeTo_findFirstOf _ _, url₁.length, length_removeTo_le _ _, ?_⟩
        have hfound : findFirstOf (ascii "/?#") url₁ ≠ none :=
          Option.ne_none_iff_exists'.mpr ⟨pos, hpos⟩
        exact congrArg (· >>= accept) (if_neg hfound)

/-- The loop of `Url::Parse` ends for every string. As long as there is something left it begins a
component, and an iteration rejects the string or leaves a shorter one that is used up or begins a
component again. After as many iterations as there are characters nothing is left. -/
theorem parse_components_terminate (u : Url) (str : Bytes) (u₀ : Url) (url₀ : Bytes)
    (h : u.beforeComponents str = .ok (u₀, some url₀)) :
    (∀ n u₁ c rest, componentRounds n u₀ url₀ = .ok (u₁, c :: rest) →
      c ∈ ascii "/?#" ∧
        ((∃ u₂, parseComponent u₁ c rest = .error (.rejected, u₂)) ∨
          ∃ u₂ url₂, parseComponent u₁ c rest = .ok (u₂, url₂) ∧
            url₂.length < (c :: rest).length ∧
            (url₂ = [] ∨ ∃ c₂ rest₂, url₂ = c₂ :: rest₂ ∧ c₂ ∈ ascii "/?#"))) ∧
      ((∃ u₁, componentRounds url₀.length u₀ url₀ = .error (.rejected, u₁) ∧
          u.parse str = .error (.rejected, u₁)) ∨
        ∃ u₁, componentRounds url₀.length u₀ url₀ = .ok (u₁, []) ∧ u.parse str = u₁.accept) := by
  obtain ⟨hstart, fuel, hfuel, hparse⟩ := parse_of_beforeComponents h
  constructor
  · intro n u₁ c rest hrounds
    have hurl : AtComponent (c :: rest) := by
      rcases componentRounds_progress n u₀ hstart with ⟨u', hreject⟩ | ⟨u', url', hok, -, hat⟩
      · rw [hrounds] at hreject
        cases hreject
      · rw [hrounds] at hok
        cases hok
        exact hat
    have hc : c ∈ ascii "/?#" := of_decide_eq_true (hurl c rfl)
    refine ⟨hc, (advances_parseComponent u₁ rest hc).imp_right ?_⟩
    rintro ⟨u₂, url₂, hok, hlt, hat⟩
    refine ⟨u₂, url₂, hok, hlt, ?_⟩
    cases url₂ with
    | nil => exact .inl rfl
    | cons c₂ rest₂ => exact .inr ⟨c₂, rest₂, rfl, of_decide_eq_true (hat c₂ rfl)⟩
  · obtain ⟨k, rfl⟩ := Nat.exists_eq_add_of_le hfuel
    rw [hparse, parseComponents_eq, componentRounds_add]
    rcases componentRounds_progress url₀.length u₀ hstart with
      ⟨u₁, hreject⟩ | ⟨u₁, url₁, hok, hlength, -⟩
    · exact .inl ⟨u₁, hreject, by rw [hreject]; rfl⟩
    · obtain rfl : url₁ = [] := List.length_eq_zero_iff.mp (by omega)
      refine .inr ⟨u₁, hok, ?_⟩
      rw [hok]
      cases k <;> rfl

/-- A string with a path, a query and a fragment. -/
theorem parse_components_terminate_three :
    ∃ u₀ url₀, ({} : Url).beforeComponents (ascii "http://h/p?k=v#f") = .ok (u₀, some url₀) ∧
      url₀ = ascii "/p?k=v#f" ∧
      ((∃ u₁, componentRounds url₀.length u₀ url₀ = .error (.rejected, u₁) ∧
          ({} : Url).parse (ascii "http://h/p?k=v#f") = .error (.rejected, u₁)) ∨
        ∃ u₁, componentRounds url₀.length u₀ url₀ = .ok (u₁, []) ∧
          ({} : Url).parse (ascii "http://h/p?k=v#f") = u₁.accept) := by
  have hentry : ({} : Url).beforeComponents (ascii "http://h/p?k=v#f") =
      .ok ({ scheme := ascii "http", host := ascii "h" }, some (ascii "/p?k=v#f")) := by
    decide +kernel
  exact ⟨_, _, hentry, rfl, (parse_components_terminate _ _ _ _ hentry).2⟩

end Loop

end Url

end Demos.Oak
