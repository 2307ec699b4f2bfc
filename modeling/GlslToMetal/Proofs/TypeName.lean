import GlslToMetal.Lowering.TypeName
import GlslToMetal.Proofs.Text.Standing
import GlslToMetal.Proofs.Text.Tokens
import GlslToMetal.Proofs.Item.Trimming

/-! The spellings of types. The search for them finds exactly the tokens of the code that spell a type
in GLSL, so the program with its types spelled as in Metal has the same bytes but for these tokens. No
comment begins or ends otherwise than before, and no spelling of GLSL is left or comes to stand in the
code. -/

namespace GlslToMetal.TypeName

open List Text Pattern Unicode

variable {cs m ms rest tail w y : List Char} {i : Nat} {before : Option Char} {t : Text} {p : Text.Place}

/-- The spellings of each type in GLSL and in Metal. -/
def table : List (String × String) :=
  [("vec2", "float2"), ("ivec2", "int2"), ("uvec2", "uint2"), ("bvec2", "bool2"),
    ("mat2", "float2x2"), ("mat2x2", "float2x2"), ("mat2x3", "float2x3"), ("mat2x4", "float2x4"),
    ("vec3", "float3"), ("ivec3", "int3"), ("uvec3", "uint3"), ("bvec3", "bool3"),
    ("mat3", "float3x3"), ("mat3x2", "float3x2"), ("mat3x3", "float3x3"), ("mat3x4", "float3x4"),
    ("vec4", "float4"), ("ivec4", "int4"), ("uvec4", "uint4"), ("bvec4", "bool4"),
    ("mat4", "float4x4"), ("mat4x2", "float4x2"), ("mat4x3", "float4x3"), ("mat4x4", "float4x4"),
    ("sampler2D", "texture2d<float>")]

theorem map_all : all.map (fun n => (n.glsl, n.metal)) = table := rfl

/-- What stands in Metal for a token that spells a type in GLSL. -/
def renamed? (w : List Char) : Option (List Char) := (table.find? (·.1.toList == w)).map (·.2.toList)

/-- A token as it is spelled in Metal. -/
def rename (w : List Char) : List Char := (renamed? w).getD w

/-- A text, the code of which has the tokens `ws`, with those that spell a type in GLSL replaced and
every other byte kept. -/
def respell : List (List Char) → Text → Text
  | [], t => t
  | w :: ws, t => ((renamed? w).map ofChars).getD (t.take (width w)) ++ respell ws (t.drop (width w))

/-- What each line of the table has: on the left a word with a `v` or an `m`, and on the right bytes
that open no comment, and neither of these letters. -/
structure Line (old new : List Char) : Prop where
  ne_nil : old ≠ []
  word : ∀ c ∈ old, isWordChar c
  isWord : ofChars old ≠ [] ∧ (ofChars old).all isWordByte
  marked : old.contains 'v' || old.contains 'm'
  unmarked : !new.contains 'v' && !new.contains 'm'
  fill : ofChars new ≠ [] ∧ (ofChars new).all fun b => b < 128 && b != 11 && b != 47 && b != 42 &&
    b != 38 && !isBlank b

theorem Line.spelled {old new : List Char} (h : Line old new) : (ofChars old).IsWord :=
  ⟨h.isWord.1, all_eq_true.mp h.isWord.2⟩

theorem line_of_mem {line : String × String} (h : line ∈ table) : Line line.1.toList line.2.toList := by
  have hall : ∀ line ∈ table, line.1.toList.all isWordChar ∧
      (ofChars line.1.toList ≠ [] ∧ (ofChars line.1.toList).all isWordByte) ∧
      (line.1.toList.contains 'v' || line.1.toList.contains 'm') ∧
      (!line.2.toList.contains 'v' && !line.2.toList.contains 'm') ∧ ofChars line.2.toList ≠ [] ∧
      (ofChars line.2.toList).all fun b => b < 128 && b != 11 && b != 47 && b != 42 && b != 38 &&
        !isBlank b := by
    decide +kernel
  obtain ⟨hword, hisWord, hmarked, hunmarked, hfill⟩ := hall line h
  exact ⟨fun hnil => hisWord.1 (congrArg ofChars hnil), all_eq_true.mp hword, hisWord, hmarked,
    hunmarked, hfill⟩

theorem line_of_renamed? (h : renamed? w = some m) : Line w m := by
  obtain ⟨line, hline, rfl⟩ := Option.map_eq_some_iff.mp h
  have hw := find?_some hline
  obtain rfl := eq_of_beq hw
  exact line_of_mem (mem_of_find?_eq_some hline)

theorem isSome_renamed? {line : String × String} (h : line ∈ table) : (renamed? line.1.toList).isSome := by
  rw [renamed?, Option.isSome_map, find?_isSome]
  exact ⟨line, h, beq_self_eq_true _⟩

theorem exists_renamed? {n : TypeName} (h : n ∈ all) : (renamed? n.glsl.toList).isSome :=
  @isSome_renamed? (n.glsl, n.metal) (map_all ▸ mem_map_of_mem h)

theorem toMetal_ofChars (w : List Char) : toMetal (ofChars w) = ofChars (rename w) := by
  have hfind : (fun n : TypeName => ofChars w == (n.glsl : Text)) = fun n => n.glsl.toList == w := by
    funext n
    rw [Bool.eq_iff_iff, beq_iff_eq, beq_iff_eq]
    constructor
    · intro h
      have hchars := congrArg chars h
      rw [chars_ofChars] at hchars
      exact (hchars.trans (chars_ofChars _)).symm
    · rintro rfl
      rfl
  rw [toMetal, ofGlsl?, hfind, rename, renamed?, ← map_all, find?_map, Option.map_map]
  change _ = ofChars ((Option.map (fun n => n.metal.toList) (all.find? fun n => n.glsl.toList == w)).getD w)
  cases all.find? fun n => n.glsl.toList == w with
  | none => rfl
  | some n => rfl

/-! What the search finds. -/

theorem isWordChar_charOf {b : UInt8} (h : b < 128) : Unicode.isWordChar (charOf b) = isWordByte b := by
  have hlt : b.toNat < 128 := h
  unfold Unicode.isWordChar isWordByte isLetter Text.isDigit
  rw [toNat_charOf h, if_pos hlt, Bool.eq_iff_iff]
  simp only [Bool.or_eq_true, Bool.and_eq_true, decide_eq_true_eq, beq_iff_eq,
    UInt8.le_iff_toNat_le, ← UInt8.toNat_inj]
  simp
  omega

theorem pattern_eq_some (h : pattern before cs = some tail) :
    before.any isWordChar = false ∧ tail.head?.any isWordChar = false ∧ ∃ g, (renamed? g).isSome ∧
      cs = g ++ tail := by
  unfold pattern at h
  split at h
  · next hstart =>
    obtain ⟨n, hn, h⟩ := exists_of_findSome?_eq_some h
    obtain ⟨rest, hrest, hend⟩ := Option.bind_eq_some_iff.mp h
    obtain rfl := wordEnd_eq_some hend
    have hapart := (Option.ite_none_left_eq_some.mp hend).1
    exact ⟨by simpa [atWordStart] using hstart, by simpa using hapart, _, exists_renamed? hn,
      literal_eq_some hrest⟩
  · cases h

theorem isSome_pattern (hbefore : before.any isWordChar = false)
    (hw : (renamed? w).isSome) (htail : tail.head?.any isWordChar = false) :
    (pattern before (w ++ tail)).isSome := by
  rw [renamed?, ← map_all, find?_map, Option.map_map, Option.isSome_map, find?_isSome] at hw
  obtain ⟨n, hn, hspelled⟩ := hw
  obtain rfl : n.glsl.toList = w := eq_of_beq hspelled
  have hliteral : literal n.glsl (n.glsl.toList ++ tail) = some tail := by
    rw [literal, if_pos (List.isPrefixOf_iff_prefix.mpr (prefix_append _ _)),
      ← String.length_toList, drop_left]
  unfold pattern
  rw [atWordStart, hbefore, Bool.not_false, if_pos rfl, findSome?_isSome_iff]
  refine ⟨n, hn, ?_⟩
  rw [hliteral, Option.bind_some, wordEnd, htail]
  rfl

/-- A word that begins among characters behind which no word goes on ends among them. -/
theorem exists_append_of_word {g : List Char} (h : y ++ rest = g ++ tail) (hg : ∀ c ∈ g, isWordChar c)
    (hrest : rest.head?.any isWordChar = false) : ∃ z, y = g ++ z ∧ tail = z ++ rest := by
  rcases append_eq_append_iff.mp h with ⟨z, rfl, rfl⟩ | ⟨z, rfl, rfl⟩
  · cases z with
    | nil => exact ⟨[], by simp, rfl⟩
    | cons c z =>
      have : isWordChar c = false := hrest
      rw [hg c (by simp)] at this
      cases this
  · exact ⟨z, rfl, rfl⟩

theorem pattern_inside (h : before.any isWordChar) (cs : List Char) : pattern before cs = none :=
  Option.eq_none_iff_forall_ne_some.mpr fun _ hsome => by
    rw [(pattern_eq_some hsome).1] at h
    cases h

theorem pattern_apart {c : Char} (h : isWordChar c = false) (before : Option Char) (cs : List Char) :
    pattern before (c :: cs) = none := by
  refine Option.eq_none_iff_forall_ne_some.mpr fun tail hsome => ?_
  obtain ⟨-, -, g, hg, hcs⟩ := pattern_eq_some hsome
  obtain ⟨m, hm⟩ := Option.isSome_iff_exists.mp hg
  have hline := line_of_renamed? hm
  obtain ⟨d, g, rfl⟩ := exists_cons_of_ne_nil hline.ne_nil
  rw [hline.word c ((cons.inj hcs).1 ▸ mem_cons_self)] at h
  cases h

theorem pattern_word (hw : ∀ c ∈ w, isWordChar c)
    (hrest : rest.head?.any isWordChar = false) (h : pattern before (w ++ rest) = some tail) :
    (renamed? w).isSome ∧ tail = rest := by
  obtain ⟨-, htail, g, hg, hcs⟩ := pattern_eq_some h
  obtain ⟨m, hm⟩ := Option.isSome_iff_exists.mp hg
  obtain ⟨z, rfl, rfl⟩ := exists_append_of_word hcs (line_of_renamed? hm).word hrest
  cases z with
  | nil => exact ⟨by rwa [append_nil], rfl⟩
  | cons c z =>
    have hc : isWordChar c = false := htail
    rw [hw c (by simp)] at hc
    cases hc

/-- The ranges of the tokens that spell a type, the first token at offset `i`. -/
def spelledAt (i : Nat) : List (List Char) → List Range
  | [] => []
  | w :: ws =>
    if (renamed? w).isSome then ⟨i, i + width w⟩ :: spelledAt (i + width w) ws else spelledAt (i + width w) ws

theorem getLast?_or_of_ne_nil (hne : w ≠ []) (before : Option Char) : w.getLast?.or before = w.getLast? := by
  rw [getLast?_eq_some_getLast hne, Option.some_or]

theorem pattern_within {x : List Char} (hw : ∀ c ∈ w, isWordChar c) (hxy : w = x ++ y) (hx : x ≠ [])
    (before : Option Char) (cs : List Char) : pattern (x.getLast?.or before) cs = none := by
  refine pattern_inside ?_ cs
  rw [getLast?_eq_some_getLast hx]
  exact hw _ (hxy ▸ mem_append_left _ (getLast_mem hx))

theorem matchesFrom_gap (hw : ∀ c ∈ w, isWordChar c = false) (before : Option Char) (i : Nat) :
    matchesFrom pattern before i 0 (w ++ rest) = matchesFrom pattern (w.getLast?.or before)
      (i + width w) 0 rest := by
  refine matchesFrom_of_none fun x y hxy hne => ?_
  obtain ⟨c, y, rfl⟩ := exists_cons_of_ne_nil hne
  exact pattern_apart (hw c (by simp [hxy])) _ _

theorem matchesFrom_unspelled (hw : ∀ c ∈ w, isWordChar c)
    (hrest : rest.head?.any isWordChar = false) (hnone : renamed? w = none) (before : Option Char) (i : Nat) :
    matchesFrom pattern before i 0 (w ++ rest) = matchesFrom pattern (w.getLast?.or before)
      (i + width w) 0 rest := by
  refine matchesFrom_of_none fun x y hxy hne => ?_
  by_cases hx : x = []
  · subst hx
    obtain rfl : w = y := hxy
    refine Option.eq_none_iff_forall_ne_some.mpr fun tail hsome => ?_
    have hspelled := (pattern_word hw hrest hsome).1
    rw [hnone] at hspelled
    cases hspelled
  · exact pattern_within hw hxy hx before _

theorem renamed?_gap (hne : w ≠ []) (hw : ∀ c ∈ w, isWordChar c = false) : renamed? w = none := by
  refine Option.eq_none_iff_forall_ne_some.mpr fun m hm => ?_
  obtain ⟨c, w, rfl⟩ := exists_cons_of_ne_nil hne
  have hc := hw c mem_cons_self
  rw [(line_of_renamed? hm).word c mem_cons_self] at hc
  cases hc

/-- **The search finds the tokens that spell a type**, and nothing else. -/
theorem matchesFrom_flatten {ws : List (List Char)} (h : Parted before ws) (i : Nat) :
    matchesFrom pattern before i 0 ws.flatten = spelledAt i ws := by
  induction h generalizing i with
  | nil => rfl
  | @word before w ws hne hw hbefore hrest _ ih =>
    rw [flatten_cons, spelledAt]
    cases hspelled : renamed? w with
    | none =>
      rw [matchesFrom_unspelled hw hrest hspelled, getLast?_or_of_ne_nil hne, ih]
      rfl
    | some m =>
      obtain ⟨tail, htail⟩ := Option.isSome_iff_exists.mp
        (isSome_pattern hbefore (Option.isSome_iff_exists.mpr ⟨m, hspelled⟩) hrest)
      rw [matchesFrom_of_some hne ((pattern_word hw hrest htail).2 ▸ htail), getLast?_or_of_ne_nil hne, ih]
      rfl
  | @gap before w ws hne hw _ ih =>
    rw [flatten_cons, spelledAt, renamed?_gap hne hw, matchesFrom_gap hw, getLast?_or_of_ne_nil hne, ih]
    rfl

theorem ranges_eq (cs : List Char) : pattern.ranges (ofChars cs) = spelledAt 0 (tokens cs) := by
  rw [Pattern.ranges, chars_ofChars, ← matchesFrom_flatten (parted_tokens cs), flatten_tokens]

/-! The text in Metal. -/

theorem start_of_mem_spelledAt {ws : List (List Char)} {r : Range} (h : r ∈ spelledAt i ws) :
    i ≤ r.start := by
  induction ws generalizing i with
  | nil => cases h
  | cons w ws ih =>
    rw [spelledAt] at h
    split at h
    · rcases mem_cons.mp h with rfl | h
      · exact Nat.le_refl _
      · exact Nat.le_trans (Nat.le_add_right _ _) (ih h)
    · exact Nat.le_trans (Nat.le_add_right _ _) (ih h)

theorem pairwise_spelledAt (ws : List (List Char)) (i : Nat) :
    (spelledAt i ws).Pairwise fun r q => r.start ≤ q.start := by
  induction ws generalizing i with
  | nil => exact .nil
  | cons w ws ih =>
    rw [spelledAt]
    split
    · exact .cons (fun q hq => Nat.le_trans (Nat.le_add_right _ _) (start_of_mem_spelledAt hq)) (ih _)
    · exact ih _

section

variable {t : Text} {pre w : List Char} {rest : List Char} (hmask : t.mask = ofChars (pre ++ (w ++ rest)))
include hmask

theorem cut_mask_token : t.mask.cut ⟨width pre, width pre + width w⟩ = ofChars w := by
  rw [hmask, ofChars_append, ofChars_append, ← append_assoc, ← length_ofChars, ← length_ofChars, cut_append]

theorem cut_token (hm : renamed? w = some m) :
    t.cut ⟨width pre, width pre + width w⟩ = ofChars w ∧ t.placeAt (width pre) = .code ∧
      t.placeAt (width pre + width w) = .code := by
  have hlength : width pre + width w ≤ t.length := by
    rw [← length_mask t, hmask, length_ofChars, width_append, width_append]
    omega
  have hpart := @maskUpTo_part t ⟨width pre, width pre + width w⟩ (Nat.le_add_right _ _) hlength
  rw [cut_mask_token hmask] at hpart
  have hline := line_of_renamed? hm
  exact eq_of_maskUpTo_solid hpart
    hline.spelled.not_isBlank hline.isWord.1

end

theorem isBoundary_of_cut {w : Text} (hcut : (ofChars cs).cut ⟨i, i + w.length⟩ = w)
    (hne : w ≠ []) (hascii : w.IsAscii) :
    (ofChars cs).isBoundary i ∧ (ofChars cs).isBoundary (i + w.length) := by
  have hbyte : ∀ k < w.length, ∃ b, (ofChars cs)[i + k]? = some b ∧ b < 128 := by
    intro k hk
    refine ⟨w[k], ?_, hascii _ (getElem_mem hk)⟩
    rw [← getElem?_drop, ← getElem?_eq_getElem hk]
    conv => rhs; rw [← hcut]
    rw [cut, getElem?_take_of_lt (by simpa using hk)]
  have hpos := length_pos_of_ne_nil hne
  obtain ⟨b, hb, hlt⟩ := hbyte 0 hpos
  obtain ⟨c, hc, hlt'⟩ := hbyte (w.length - 1) (by omega)
  have hlast := (isBoundary_of_lt hc hlt').2
  rw [Nat.add_assoc, Nat.sub_add_cancel hpos] at hlast
  exact ⟨(isBoundary_of_lt hb hlt).1, hlast⟩

/-- Replacing the tokens that spell a type, from the one at `width pre` on, with all before it kept from
`c` on. -/
theorem applyFrom_spelledAt {cs : List Char} {ws : List (List Char)} {pre : List Char} {c : Nat}
    (hmask : (ofChars cs).mask = ofChars (pre ++ ws.flatten)) (hc : c ≤ width pre)
    (hboundary : (ofChars cs).isBoundary c) :
    Edit.applyFrom (ofChars cs) c ((spelledAt (width pre) ws).map fun r =>
      ⟨r, toMetal ((ofChars cs).mask.cut r)⟩) =
      .ok ((ofChars cs).cut ⟨c, width pre⟩ ++ respell ws ((ofChars cs).drop (width pre))) := by
  induction ws generalizing pre c with
  | nil =>
    have hlength : (ofChars cs).length = width pre := by
      rw [← length_mask, hmask, flatten_nil, append_nil, length_ofChars]
    rw [spelledAt, map_nil, Edit.applyFrom, hlength, respell,
      drop_of_length_le (Nat.le_of_eq hlength), append_nil]
    exact slice_eq_cut hc (Nat.le_of_eq hlength.symm) hboundary (hlength ▸ isBoundary_length _)
  | cons w ws ih =>
    have hnext : (ofChars cs).mask = ofChars ((pre ++ w) ++ ws.flatten) := by
      rw [hmask, flatten_cons, append_assoc]
    have hle : width pre ≤ (ofChars cs).length := by
      rw [← length_mask, hmask, length_ofChars, width_append]
      exact Nat.le_add_right _ _
    rw [spelledAt, respell]
    cases hm : renamed? w with
    | none =>
      have hkept : (ofChars cs).cut ⟨c, width pre + width w⟩ =
          (ofChars cs).cut ⟨c, width pre⟩ ++ ((ofChars cs).drop (width pre)).take (width w) := by
        unfold cut
        rw [show width pre + width w -
          c = (width pre - c) + width w by omega, take_add, drop_drop, Nat.add_sub_cancel' hc]
      have hrest := @ih (pre ++ w) c hnext (by rw [width_append]; omega) hboundary
      rw [width_append, hkept] at hrest
      rw [Option.isSome_none, if_neg Bool.false_ne_true, hrest, drop_drop, Option.map_none,
        Option.getD_none, append_assoc]
    | some m =>
      have hline := line_of_renamed? hm
      have hcut := (cut_token (hmask.trans (by rw [flatten_cons])) hm).1
      rw [← length_ofChars w] at hcut
      have hbounds := isBoundary_of_cut hcut hline.isWord.1 hline.spelled.isCode.isAscii
      rw [length_ofChars] at hbounds
      have hrest := @ih (pre ++ w) (width pre + width w) hnext
        (Nat.le_of_eq (width_append _ _).symm) hbounds.2
      rw [width_append] at hrest
      rw [Option.isSome_some, if_pos rfl, map_cons, Edit.applyFrom, if_neg (Nat.not_lt.mpr hc),
        slice_eq_cut hc hle hboundary hbounds.1, hrest, cut_mask_token (hmask.trans (by rw [flatten_cons])),
        toMetal_ofChars, rename, hm]
      simp only [cut, Nat.sub_self, take_zero, nil_append, drop_drop]
      exact congrArg Except.ok (append_assoc _ _ _)

/-- **Types are spelled as in Metal by replacing tokens.** -/
theorem lower_ofChars (hmask : (ofChars cs).mask = ofChars ms) :
    lower (ofChars cs) = .ok (respell (tokens ms) (ofChars cs)) := by
  rw [lower, Edit.apply, codeEdits, hmask, ranges_eq,
    Edit.ordered_of_pairwise (pairwise_map.mpr (pairwise_spelledAt _ _)), ← hmask]
  exact @applyFrom_spelledAt cs (tokens ms) [] 0 (by rw [nil_append, flatten_tokens, hmask]) (Nat.zero_le _)
    (isBoundary_zero _)

/-! The code of the text in Metal. -/

/-- A text whose mask begins with a token is cut behind the bytes that are masked to it. -/
theorem exists_of_maskFrom_token (h : maskFrom p t = ofChars (w ++ rest)) :
    ∃ s u q, t = s ++ u ∧ s.length = width w ∧ maskUpTo p u.head? s = (ofChars w, q) ∧
      maskFrom q u = ofChars rest := by
  have hmask : maskUpTo p none t = (ofChars w ++ ofChars rest, (maskUpTo p none t).2) :=
    Prod.ext ((maskUpTo_none p t).trans (h.trans (ofChars_append w rest))) rfl
  obtain ⟨s, u, q, rfl, hs, hu⟩ := exists_of_maskUpTo hmask
  rw [Option.or_none] at hs
  refine ⟨s, u, q, rfl, (length_of_maskUpTo hs).trans (length_ofChars w), hs, ?_⟩
  rw [← maskUpTo_none, hu]

section

variable {w m : List Char} (hm : renamed? w = some m)
include hm

theorem not_mem_fill : 47 ∉ ofChars m := fun hmem => by
  have := all_eq_true.mp (line_of_renamed? hm).fill.2 47 hmem
  simp at this

theorem harmless_fill (t : Text) : Harmless (ofChars m ++ t).head? := by
  obtain ⟨hne, hall⟩ := (line_of_renamed? hm).fill
  obtain ⟨b, s, hs⟩ := exists_cons_of_ne_nil hne
  have hb := all_eq_true.mp hall b (hs ▸ mem_cons_self)
  simp only [Bool.and_eq_true, bne_iff_ne] at hb
  rw [hs]
  simp [Harmless, hb]

theorem harmless_token (t : Text) : Harmless (ofChars w ++ t).head? := by
  obtain ⟨hne, hall⟩ := (line_of_renamed? hm).isWord
  obtain ⟨b, s, hs⟩ := exists_cons_of_ne_nil hne
  have hb := all_eq_true.mp hall b (hs ▸ mem_cons_self)
  rw [hs]
  constructor <;>
  · rintro h
    obtain rfl := Option.some.inj h
    cases hb

end

/-- The byte that comes first is the same, or no such byte opens or closes a comment. -/
theorem head?_respell {ws : List (List Char)} (hne : ∀ w ∈ ws, w ≠ [])
    (hmask : maskFrom p t = ofChars ws.flatten) :
    (respell ws t).head? = t.head? ∨ Harmless (respell ws t).head? ∧ Harmless t.head? := by
  cases ws with
  | nil => exact .inl rfl
  | cons w ws =>
    obtain ⟨s, u, q, rfl, hs, hsmask, -⟩ := exists_of_maskFrom_token hmask
    rw [respell]
    cases hm : renamed? w with
    | none =>
      have hpos : s ≠ [] := by
        rintro rfl
        rw [← length_ofChars] at hs
        exact ofChars_ne_nil (hne w mem_cons_self) (length_eq_zero_iff.mp hs.symm)
      obtain ⟨b, s, rfl⟩ := exists_cons_of_ne_nil hpos
      rw [← hs]
      exact .inl rfl
    | some m =>
      obtain ⟨rfl, -, -⟩ := eq_of_maskUpTo_solid hsmask
        (line_of_renamed? hm).spelled.not_isBlank (line_of_renamed? hm).isWord.1
      exact .inr ⟨harmless_fill hm _, harmless_token hm _⟩

theorem maskFrom_of_not_mem {s : Text} (hs : 47 ∉ s) (t : Text) :
    maskFrom .code (s ++ t) = s ++ maskFrom .code t := by
  induction s with
  | nil => rfl
  | cons b s ih =>
    rw [mem_cons, not_or] at hs
    rw [cons_append, maskFrom_cons, maskByte, beq_eq_false_iff_ne.mpr (Ne.symm hs.1)]
    simp only [Bool.false_and, Bool.false_eq_true, if_false, ih hs.2, cons_append]

/-- **The code of the text in Metal** is the code of the text with its tokens spelled as in Metal. -/
theorem maskFrom_respell {ws : List (List Char)} (hne : ∀ w ∈ ws, w ≠ [])
    (hmask : maskFrom p t = ofChars ws.flatten) :
    maskFrom p (respell ws t) = ofChars (ws.flatMap rename) := by
  induction ws generalizing p t with
  | nil => exact hmask
  | cons w ws ih =>
    have hrest : ∀ v ∈ ws, v ≠ [] := fun v hv => hne v (mem_cons_of_mem _ hv)
    obtain ⟨s, u, q, rfl, hs, hsmask, hu⟩ := exists_of_maskFrom_token hmask
    rw [respell, ← hs, drop_left, take_left, flatMap_cons, ofChars_append, ← ih hrest hu, rename]
    cases hm : renamed? w with
    | none =>
      -- Only the byte behind the token could end a comment otherwise than before.
      have hsame : maskUpTo p (respell ws u).head? s = maskUpTo p u.head? s := by
        rcases head?_respell hrest hu with heq | ⟨hnew, hold⟩
        · rw [heq]
        · exact maskUpTo_harmless hold hnew p s
      rw [Option.map_none, Option.getD_none, Option.getD_none, maskFrom_append, hsame, hsmask]
    | some m =>
      obtain ⟨-, rfl, rfl⟩ := eq_of_maskUpTo_solid hsmask
        (line_of_renamed? hm).spelled.not_isBlank (line_of_renamed? hm).isWord.1
      exact maskFrom_of_not_mem (not_mem_fill hm) _

/-! No spelling of GLSL in the text in Metal. -/

theorem any_head?_flatMap {ws : List (List Char)} (h : Parted before ws)
    (hhead : ws.flatten.head?.any isWordChar = false) : (ws.flatMap rename).head?.any isWordChar = false := by
  cases h with
  | nil => rfl
  | @word _ w ws hne hw _ _ _ =>
    obtain ⟨c, w, rfl⟩ := exists_cons_of_ne_nil hne
    have : isWordChar c = false := hhead
    rw [hw c mem_cons_self] at this
    cases this
  | @gap _ w ws hne hw _ =>
    obtain ⟨c, w, rfl⟩ := exists_cons_of_ne_nil hne
    rw [flatMap_cons, rename, renamed?_gap (cons_ne_nil _ _) hw]
    exact hw c mem_cons_self

theorem matchesFrom_fill (hm : renamed? w = some m) (hrest : rest.head?.any isWordChar = false)
    (before : Option Char) (i : Nat) :
    matchesFrom pattern before i 0 (m ++ rest) = matchesFrom pattern (m.getLast?.or before)
      (i + width m) 0 rest := by
  refine matchesFrom_of_none fun x y hxy hne => ?_
  refine Option.eq_none_iff_forall_ne_some.mpr fun tail hsome => ?_
  obtain ⟨-, -, g, hg, hcs⟩ := pattern_eq_some hsome
  obtain ⟨m', hm'⟩ := Option.isSome_iff_exists.mp hg
  obtain ⟨z, rfl, -⟩ := exists_append_of_word hcs (line_of_renamed? hm').word hrest
  have hmarked := (line_of_renamed? hm').marked
  have hunmarked := (line_of_renamed? hm).unmarked
  simp only [Bool.or_eq_true, Bool.and_eq_true, Bool.not_eq_true', contains_eq_mem, decide_eq_true_eq,
    decide_eq_false_iff_not, hxy, mem_append, not_or] at hmarked hunmarked
  rcases hmarked with hv | hm
  · exact hunmarked.1.2.1 hv
  · exact hunmarked.2.2.1 hm

theorem matchesFrom_rename {ws : List (List Char)} (h : Parted before ws) (before' : Option Char)
    (i : Nat) : matchesFrom pattern before' i 0 (ws.flatMap rename) = [] := by
  induction h generalizing before' i with
  | nil => rfl
  | @word before w ws hne hw _ hhead hrest ih =>
    have hhead := any_head?_flatMap hrest hhead
    rw [flatMap_cons, rename]
    cases hm : renamed? w with
    | none => rw [Option.getD_none, matchesFrom_unspelled hw hhead hm, ih]
    | some m => rw [Option.getD_some, matchesFrom_fill hm hhead, ih]
  | @gap before w ws hne hw _ ih =>
    rw [flatMap_cons, rename, renamed?_gap hne hw, Option.getD_none, matchesFrom_gap hw, ih]

theorem lower_of_ranges (h : pattern.ranges t.mask = []) : lower t = .ok t := by
  rw [lower, codeEdits, h, map_nil, Edit.apply, Edit.ordered, Edit.applyFrom,
    slice_eq_cut (Nat.zero_le _) (Nat.le_refl _) (isBoundary_zero t) (isBoundary_length t), cut, drop_zero,
    Nat.sub_zero, take_length]

theorem ranges_rename (cs : List Char) : pattern.ranges (ofChars ((tokens cs).flatMap rename)) = [] := by
  rw [Pattern.ranges, chars_ofChars, matchesFrom_rename (parted_tokens cs)]

theorem mask_respell (hmask : t.mask = ofChars ms) :
    (respell (tokens ms) t).mask = ofChars ((tokens ms).flatMap rename) := by
  have hflatten : t.mask = ofChars (tokens ms).flatten := by rw [hmask, flatten_tokens]
  exact maskFrom_respell (fun _ hw => ne_nil_of_mem_splitBy hw) hflatten

/-- **Spelling types as in Metal replaces whole tokens of the code, and nothing else.** In every text,
exactly the tokens of the code that spell a type in GLSL are replaced, each by the spelling in Metal,
and every other byte stays, those in comments included; the code of the result is the code of the text
with its tokens replaced; and what is spelled as in Metal is left as it is. -/
theorem lower_replaces_tokens (cs : List Char) :
    ∃ ms s, (ofChars cs).mask = ofChars ms ∧ lower (ofChars cs) = .ok s ∧
      s = respell (tokens ms) (ofChars cs) ∧
      s.mask = ofChars ((tokens ms).flatMap rename) ∧ lower s = .ok s := by
  obtain ⟨ms, hmask⟩ := @exists_maskFrom_ofChars .code cs (Text.Place.fits_code _)
  have hmasked := mask_respell hmask
  refine ⟨ms, _, hmask, lower_ofChars hmask, rfl, hmasked, lower_of_ranges ?_⟩
  rw [hmasked, ranges_rename]

end GlslToMetal.TypeName
