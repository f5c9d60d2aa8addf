import Demos.Oak.Url.Texts

/-!
# What decoding does to a text

Decoding makes no text longer and adds no characters to it but spaces and bytes below `0x10`. A text
is decoded as itself exactly if it has no percent signs and no plus signs.
-/

namespace Demos.Oak

open Demos.Lib

section Decode

/-- The text is decoded, character by character. -/
inductive Decodes : Bytes → Bytes → Prop
  | nil : Decodes [] []
  | digits {str res : Bytes} (first second : UInt8) (hrest : Decodes str res) :
      Decodes (byteOf '%' :: first :: second :: str) (letterToHex second :: res)
  | plus {str res : Bytes} (hrest : Decodes str res) :
      Decodes (byteOf '+' :: str) (byteOf ' ' :: res)
  | char {str res : Bytes} {c : UInt8} (hpercent : c ≠ byteOf '%') (hplus : c ≠ byteOf '+')
      (hrest : Decodes str res) : Decodes (c :: str) (c :: res)

variable {str res chars : Bytes}

/-- What `PercentDecode` returns. -/
theorem decodes_of_percentDecode (hdecode : percentDecode str = some res) : Decodes str res := by
  fun_induction percentDecode str generalizing res with
  | case1 =>
    cases hdecode
    exact .nil
  | case2 first second rest ih =>
    obtain ⟨res, hrest, rfl⟩ := Option.map_eq_some_iff.mp hdecode
    rw [decodeDigits_eq]
    exact .digits first second (ih hrest)
  | case3 => simp at hdecode
  | case4 rest _ ih =>
    obtain ⟨res, hrest, rfl⟩ := Option.map_eq_some_iff.mp hdecode
    exact .plus (ih hrest)
  | case5 c rest hpercent hplus ih =>
    obtain ⟨res, hrest, rfl⟩ := Option.map_eq_some_iff.mp hdecode
    exact .char hpercent hplus (ih hrest)

/-- Decoding makes no text longer. -/
theorem Decodes.length_le (h : Decodes str res) : res.length ≤ str.length := by
  induction h with
  | nil => exact le_rfl
  | digits first second hrest ih =>
    simp only [List.length_cons]
    omega
  | plus hrest ih | char hpercent hplus hrest ih => exact Nat.succ_le_succ ih

/-- Decoding keeps the first character, if it stands for itself. -/
theorem Decodes.head?_eq {c : UInt8} (h : Decodes str res) (hc : str.head? = some c)
    (hpercent : c ≠ byteOf '%') (hplus : c ≠ byteOf '+') : res.head? = some c := by
  cases h with
  | nil | char => exact hc
  | digits first second hrest => exact absurd (Option.some.inj hc).symm hpercent
  | plus hrest => exact absurd (Option.some.inj hc).symm hplus

/-- A digit is a number below `0x10`, and any other character is taken as it is. -/
theorem letterToHex_cases (c : UInt8) : letterToHex c < 0x10 ∨ letterToHex c = c :=
  forall_byte (P := fun c => letterToHex c < 0x10 ∨ letterToHex c = c) (by decide +kernel) c

/-- Decoding adds no characters but spaces and bytes below `0x10`. -/
theorem Decodes.avoids (h : Decodes str res)
    (hchars : chars.all (fun c => 0x10 ≤ c && c ≠ byteOf ' ') = true) (hstr : Avoids chars str) :
    Avoids chars res := by
  have hkept : ∀ c ∈ chars, 0x10 ≤ c ∧ c ≠ byteOf ' ' := fun c hc => by
    simpa using List.all_eq_true.mp hchars c hc
  induction h with
  | nil => exact avoids_nil
  | digits first second hrest ih =>
    obtain ⟨-, hrest⟩ := List.forall_mem_cons.mp hstr
    obtain ⟨-, hrest⟩ := List.forall_mem_cons.mp hrest
    obtain ⟨hsecond, hrest⟩ := List.forall_mem_cons.mp hrest
    refine .cons (fun hmem => ?_) (ih hrest)
    obtain hsmall | hsame := letterToHex_cases second
    · exact UInt8.not_lt.mpr (hkept _ hmem).1 hsmall
    · exact hsecond (hsame ▸ hmem)
  | plus hrest ih =>
    exact .cons (fun hmem => (hkept _ hmem).2 rfl) (ih (List.forall_mem_cons.mp hstr).2)
  | char hpercent hplus hrest ih =>
    exact .cons (List.forall_mem_cons.mp hstr).1 (ih (List.forall_mem_cons.mp hstr).2)

/-- A text that is decoded as itself, up to a change of characters, has no percent signs and no plus
signs. -/
theorem Decodes.avoids_of_map {f : UInt8 → UInt8} (h : Decodes str res)
    (hf : f (byteOf ' ') ≠ byteOf '+') (hmap : res.map f = str) : Avoids (ascii "%+") str := by
  induction h with
  | nil => exact avoids_nil
  | digits first second hrest ih =>
    have hlength := congrArg List.length hmap
    have hle := hrest.length_le
    simp only [List.map_cons, List.length_cons, List.length_map] at hlength
    omega
  | plus hrest ih => exact absurd (List.cons.inj hmap).1 hf
  | char hpercent hplus hrest ih =>
    refine .cons ?_ (ih (List.cons.inj hmap).2)
    simpa [ascii_eq] using ⟨hpercent, hplus⟩

/-- A part of a text is decoded as the text exactly if it is the text and needs no decoding. -/
theorem percentDecode_map_eq_iff {f : UInt8 → UInt8} {part : Bytes}
    (hf : f (byteOf ' ') ≠ byteOf '+') (hfix : str.map f = str) (hpart : part <:+: str) :
    (percentDecode part).map (List.map f) = some str ↔ part = str ∧ Avoids (ascii "%+") str := by
  constructor
  · intro hdecode
    obtain ⟨res, hres, hmap⟩ := Option.map_eq_some_iff.mp hdecode
    have hdecodes := decodes_of_percentDecode hres
    have hlength : str.length ≤ part.length := by
      rw [← hmap, List.length_map]
      exact hdecodes.length_le
    obtain rfl := hpart.eq_of_length_le hlength
    exact ⟨rfl, hdecodes.avoids_of_map hf hmap⟩
  · rintro ⟨rfl, havoids⟩
    rw [percentDecode_of_avoids havoids, Option.map_some, hfix]

/-- A part of a text is decoded as the text exactly if it is the text and needs no decoding. -/
theorem percentDecode_eq_some_iff {part : Bytes} (hpart : part <:+: str) :
    percentDecode part = some str ↔ part = str ∧ Avoids (ascii "%+") str := by
  have hiff := percentDecode_map_eq_iff (f := id) (by decide) (List.map_id str) hpart
  have hmap : (percentDecode part).map (List.map id) = percentDecode part := by simp
  rwa [hmap] at hiff

end Decode

section Lower

variable {str chars : Bytes}

/-- A text in lower case stays. -/
theorem map_toLower_map_toLower (str : Bytes) :
    (str.map toLower).map toLower = str.map toLower := by
  have hsame : ∀ c, toLower (toLower c) = toLower c :=
    forall_byte (P := fun c => toLower (toLower c) = toLower c) (by decide +kernel)
  simp [hsame]

/-- The characters of a scheme are those of a scheme in lower case. -/
theorem isSchemeChar_toLower (c : UInt8) : isSchemeChar (toLower c) = isSchemeChar c :=
  forall_byte (P := fun c => isSchemeChar (toLower c) = isSchemeChar c) (by decide +kernel) c

/-- Lower case adds letters only. -/
theorem avoids_map_toLower (hstr : Avoids chars str) (hchars : chars.all (!isAlnum ·) = true) :
    Avoids chars (str.map toLower) := by
  have hcases : ∀ c, isAlnum (toLower c) = true ∨ toLower c = c :=
    forall_byte (P := fun c => isAlnum (toLower c) = true ∨ toLower c = c) (by decide +kernel)
  intro x hx hmem
  obtain ⟨c, hc, rfl⟩ := List.mem_map.mp hx
  obtain halnum | hsame := hcases c
  · have hfalse := List.all_eq_true.mp hchars _ hmem
    rw [halnum] at hfalse
    exact Bool.noConfusion hfalse
  · exact hstr c hc (hsame ▸ hmem)

end Lower

end Demos.Oak
