/-
Cobalt.Json.DomTheorems — what `json_parse` returns for a JSON text.

`jsonParse_denotes_iff` settles every text of the grammar whose nesting is
within the cap and whose strings the parser can represent: the tree is the
right one exactly when the value is `synced`, that is, when no child but
the last of an array or object is a non-empty object whose own last member
holds a non-empty object.
-/
import Cobalt.Json.Compact
import Cobalt.Json.DomAstray

namespace Cobalt.Json

open StrChar

variable {D : Type} (strtod : List UInt8 → D)

/-- The start of the parse: one value, with only white space after it. -/
lemma jsonParse_eq {text : CString} {d : Doc} (h : JsonText text.bytes d) :
    ∃ (c : Ctx) (s r : List UInt8), Value s d r ∧ Ws r ∧ c.Near s 0
      ∧ jsonParse strtod text =
        if (jsonParseValue granting strtod (valueFuel c) c).2.depthExceeded then .null
        else (jsonParseValue granting strtod (valueFuel c) c).1 := by
  obtain ⟨w, s, r, hs, hw, hv, hr⟩ := h
  have hstart : (Ctx.start text.bytes).At (w ++ s) 0 :=
    ⟨by simp [Ctx.start, Ctx.rest, hs], rfl, rfl, text.fits⟩
  have hskip := hstart.skipWhitespace
  rw [skip_append hw, hv.skip_eq] at hskip
  obtain ⟨b, t, rfl, -⟩ := hv.head
  refine ⟨jsonSkipWhitespace (Ctx.start text.bytes), _, r, hv, hr, ⟨_, hskip, hv.skip_eq⟩, ?_⟩
  have hlen : (Ctx.start text.bytes).len ≠ 0 := by simp [Ctx.len, Ctx.start, hs]
  rw [jsonParse, jsonParseWithArena]
  simp only [if_neg hlen, if_neg (Nat.not_le.mpr hskip.lt)]
  split <;> rfl

/-- A text that expands `v` is read as `v` only if it is a text of `v` and
in step. -/
lemma jsonParse_expands_iff {text : CString} {d : Doc} {v : Val D} (h : JsonText text.bytes d)
    (hx : Expands strtod d v) (hp : d.allStrings portable = true) :
    (jsonParse strtod text).denote = some v
      ↔ d.value strtod = v ∧ v.synced = true ∧ d.nesting ≤ maxDepth := by
  obtain ⟨c, s, r, hv, hr, hc, heq⟩ := jsonParse_eq strtod h
  have hclear : ∀ m, Clear m r := fun m j _ => by rw [eat_of_nil (skip_ws hr)]; simp
  rw [heq]
  constructor
  · intro hden
    by_contra hno
    have hastray := value_astray strtod (n := valueFuel c) hv hx hp (Nat.zero_le _) (.done hr)
      (fun hstep => hno ⟨hstep.1, hstep.2.1, by simpa using hstep.2.2.1⟩) hc (le_refl _)
    rcases hastray with hflag | hne | ⟨_, hf, -⟩
    · rw [if_pos hflag] at hden
      cases hden
    · split at hden
      · cases hden
      · exact hne hden
    · cases hf
  · rintro ⟨rfl, hsync, hnest⟩
    obtain ⟨hden, r', hat, -⟩ := value_exact strtod (n := valueFuel c) hv hp (by simpa using hnest)
      (delim_ws hr) hsync (hclear _) hc (le_refl _)
    rw [if_neg (by rw [hat.ok]; simp)]
    exact hden

/-- For a text of the grammar within the nesting cap and without `\u0000`
or unpaired surrogate escapes, `json_parse` returns the tree of its value
if and only if no child but the last of an array or object is a non-empty
object whose last member holds a non-empty object. -/
theorem jsonParse_denotes_iff {text : CString} {d : Doc} (h : JsonText text.bytes d)
    (hn : d.nesting ≤ maxDepth) (hp : d.allStrings portable = true) :
    (jsonParse strtod text).denote = some (d.value strtod)
      ↔ (d.value strtod).synced = true := by
  rw [jsonParse_expands_iff strtod h (expands_self strtod d) hp]
  exact ⟨fun h => h.2.1, fun h => ⟨rfl, h, hn⟩⟩

/-- The tree of `[{"a":1},{"b":{"a":2}}]`. -/
def nestedLast : Doc :=
  .array [.object [([.raw 0x61], .number [0x31])],
    .object [([.raw 0x62], .object [([.raw 0x61], .number [0x32])])]]

lemma nestedLast_wellFormed : nestedLast.WellFormed :=
  ⟨⟨by simp [ValidChars, valid], number_digit (by decide), trivial⟩,
    ⟨by simp [ValidChars, valid], ⟨by simp [ValidChars, valid],
      number_digit (by decide), trivial⟩, trivial⟩, trivial⟩

theorem jsonParse_nestedLast :
    (jsonParse id ⟨nestedLast.text, by decide +kernel, by decide +kernel⟩).denote
      = some (nestedLast.value id) :=
  (jsonParse_denotes_iff id (Doc.jsonText_text _ nestedLast_wellFormed) (by decide)
    (by decide)).mpr (by decide)

/-- The tree of `[{"a":{"b":1}},2]`. -/
def nestedThenTwo : Doc :=
  .array [.object [([.raw 0x61], .object [([.raw 0x62], .number [0x31])])], .number [0x32]]

/-- `[{"a":{"b":1}},2]` -/
def nestedThenTwoText : CString where
  bytes := [0x5B, 0x7B, 0x22, 0x61, 0x22, 0x3A, 0x7B, 0x22, 0x62, 0x22, 0x3A, 0x31, 0x7D, 0x7D,
    0x2C, 0x32, 0x5D]
  noNul := by simp
  fits := by norm_num

lemma nestedThenTwo_wellFormed : nestedThenTwo.WellFormed :=
  ⟨⟨by simp [ValidChars, valid], ⟨by simp [ValidChars, valid],
    number_digit (by decide), trivial⟩, trivial⟩, number_digit (by decide), trivial⟩

/-- The outer object takes the comma before `2`, and the array ends. -/
theorem jsonParse_nestedThenTwo :
    JsonText nestedThenTwoText.bytes nestedThenTwo ∧ nestedThenTwo.nesting ≤ maxDepth
      ∧ nestedThenTwo.allStrings portable = true
      ∧ (jsonParse id nestedThenTwoText).denote
        = some (.array [.object [([0x61], .object [([0x62], .number [0x31])])]])
      ∧ (jsonParse id nestedThenTwoText).denote ≠ some (nestedThenTwo.value id) := by
  have hres : jsonParse id nestedThenTwoText = .arrayNode [.objectNode [([0x61],
      .objectNode [([0x62], .leaf .number (.number [0x31]))])]] := by
    decide +kernel
  have hden : (jsonParse id nestedThenTwoText).denote
      = some (.array [.object [([0x61], .object [([0x62], .number [0x31])])]]) := by
    rw [hres]
    rfl
  refine ⟨Doc.jsonText_text _ nestedThenTwo_wellFormed, by decide, by decide, hden, ?_⟩
  rw [hden]
  simp [nestedThenTwo, Doc.value, Doc.valueElems]

end Cobalt.Json
