import GlslToMetal.Lowering.Parameter
import GlslToMetal.Proofs.Item.Skeleton
import GlslToMetal.Proofs.Parameter.Words
import GlslToMetal.Proofs.Text.Seams

/-! Parameters as they are read and as they are put back. A parameter whose words are marks, a type and
a name is read again from what is put in its place, and its text keeps the bytes that divide it, for
these stand in the type and in the brackets of an array. -/

namespace GlslToMetal

open List Text
open Unicode (isWhiteSpace)

variable {r : Range} {s t : Text}

namespace Text

/-- The text is a piece of code without blanks and comments. -/
structure Solid (v : Text) : Prop where
  ne_nil : v ≠ []
  isCode : v.IsCode
  bare : Bare v
  not_isBlank : ∀ b ∈ v, isBlank b = false

theorem IsWord.solid {v : Text} (h : v.IsWord) : Solid v :=
  ⟨h.1, h.isCode, bare_of_not_mem (h.not_mem rfl), h.not_isBlank⟩

theorem Solid.words_eq {v : Text} (h : Solid v) (href : 38 ∉ v) :
    (Parameter.spaceReferences v).words = [v] := by
  rw [Parameter.spaceReferences_of_not_mem href, words_of_none h.isCode h.ne_nil h.not_isBlank]

/-- A word of a parameter stands in its text, and holds no white space. -/
theorem word_stands (ht : t.IsAscii) {w : Text} (hw : w ∈ (Parameter.spaceReferences t).words)
    (href : 38 ∉ w) :
    w <:+: t ∧ (Bare w → Solid w) := by
  rw [← ofChars_map_charOf ht, spaceReferences_ofChars, words, chars_ofChars] at hw
  obtain ⟨cs, hcs, rfl⟩ := mem_map.mp hw
  rcases exists_of_mem_charWords_spaced hcs with rfl | ⟨a, z, hsplit, -, -, hsolid⟩
  · exact absurd (by decide) href
  obtain ⟨y, v, rfl, hy, -⟩ := map_eq_append_iff.mp hsplit
  obtain ⟨u, w, rfl, -, rfl⟩ := map_eq_append_iff.mp hy
  have hascii : Text.IsAscii w := fun b hb => ht b (by simp [hb])
  have hbyte : ∀ b ∈ w, b ≠ 11 ∧ isBlank b = false := by
    intro b hb
    have hwhite := hsolid _ (mem_map_of_mem hb)
    have hne : b ≠ 11 := by
      rintro rfl
      cases hwhite
    exact ⟨hne, isWhiteSpace_charOf (hascii b hb) hne ▸ hwhite⟩
  rw [charWords_eq] at hcs
  rw [ofChars_map_charOf hascii]
  refine ⟨⟨u, v, rfl⟩, fun hbare =>
    ⟨fun h => ?_, fun b hb => ⟨hascii b hb, (hbyte b hb).1⟩, hbare, fun b hb => (hbyte b hb).2⟩⟩
  rw [h] at hcs
  cases (mem_filter.mp hcs).2

/-- The words of a parameter hold what divides its text. -/
theorem filter_words (ht : t.IsAscii) :
    (Parameter.spaceReferences t).words.flatten.filter divides = t.filter divides := by
  have hwords : ∀ u : Text, u.IsAscii → u.words.flatten = u.filter fun b => !isWhiteSpace (charOf b) := by
    intro u hu
    have hsub : Text.IsAscii (u.filter fun b => !isWhiteSpace (charOf b)) :=
      fun b hb => hu b (mem_filter.mp hb).1
    have hflatten := congrArg ofChars (flatten_charWords (u.map charOf))
    rw [filter_map, Function.comp_def, ofChars_map_charOf hsub] at hflatten
    rw [← hflatten, words, chars_of_isAscii hu]
    generalize charWords (u.map charOf) = ws
    induction ws with
    | nil => rfl
    | cons w ws ih => rw [map_cons, flatten_cons, flatten_cons, ofChars_append, ih]
  have hspaced : (Parameter.spaceReferences t).filter divides = t.filter divides := by
    induction t with
    | nil => rfl
    | cons b t ih =>
      rw [Parameter.spaceReferences, flatMap_cons, filter_append, ← Parameter.spaceReferences,
        ih fun c hc => ht c (mem_cons_of_mem _ hc)]
      split
      · next hb => rw [beq_iff_eq.mp hb]; rfl
      · exact (filter_append [b] t).symm
  rw [hwords _ (Parameter.isAscii_spaceReferences ht), filter_filter, ← hspaced]
  refine filter_congr fun b _ => ?_
  rcases hb : divides b with _ | _
  · rfl
  · simp only [divides, contains_iff_mem, mem_cons, not_mem_nil, or_false] at hb
    rcases hb with rfl | rfl | rfl | rfl | rfl | rfl | rfl | rfl | rfl <;> rfl

theorem IsCode.space (hs : s.IsCode) (ht : t.IsCode) : IsCode (s ++ 32 :: t) :=
  forall_mem_append.mpr ⟨hs, forall_mem_cons.mpr ⟨by decide, ht⟩⟩

/-- Code with a space in it is read on both sides of the space. -/
theorem words_space (hs : s.IsCode) (ht : t.IsCode) : (Parameter.spaceReferences (s ++ 32 :: t)).words =
    (Parameter.spaceReferences s).words ++ (Parameter.spaceReferences t).words := by
  have hcode : ∀ {u : Text}, u.IsCode → IsCode (Parameter.spaceReferences u) := by
    intro u hu b hb
    obtain ⟨c, hc, hb⟩ := mem_flatMap.mp hb
    split at hb
    · simp only [mem_cons, not_mem_nil, or_false] at hb
      rcases hb with rfl | rfl | rfl <;> decide
    · exact mem_singleton.mp hb ▸ hu c hc
  rw [spaceReferences_append]
  exact words_append_cons rfl ((hcode hs).space (hcode ht))

theorem Bare.space (hs : Bare s) (ht : Bare t) : Bare (s ++ 32 :: t) := by
  refine isChain_append.mpr ⟨hs, isChain_cons.mpr ⟨fun _ _ h => absurd h (by decide), ht⟩, ?_⟩
  rintro a - _ ⟨⟩ -
  decide

end Text

/-- The parameter as it is passed: `in` is dropped, and an output that is no array is passed by reference. -/
def Parameter.passed (p : Parameter) : Parameter :=
  match p.qualifier with
  | .input => { p with qualifier := .unmarked }
  | .output | .inOut =>
    if p.arraySuffix.isSome then p else { p with qualifier := .thread, isConst := false, isReference := true }
  | .unmarked | .thread => p

theorem Parameter.passed_of_edit? {p : Parameter} (h : p.edit? = none) : p.passed = p := by
  unfold edit? at h
  unfold passed
  split <;> simp_all

/-- The text can be put where a parameter stands, and reads as `p`. -/
structure Parameter.Renders (t : Text) (p : Parameter) : Prop where
  isCode : t.IsCode
  bare : Bare t
  first : StartsSolid t
  last : EndsSolid t
  getLast : t.getLast? ≠ some 47
  reads : ∀ r, ofText? t r = some { p with range := r }

namespace PlainWords

variable {w : PlainWords}

/-- The words as they are written: the `&` stands at the type. -/
def text (w : PlainWords) : Text :=
  w.marks.flatMap (fun m => m.word ++ [32]) ++
    (w.type ++ (if w.isReference then [38] else []) ++ 32 :: w.last)

theorem getLast_last (w : PlainWords) : w.last.getLast? ≠ some 47 := by
  unfold last arraySuffix
  cases w.size? with
  | none => exact fun h => w.isWord_name.not_mem rfl (mem_of_getLast? (by simpa using h))
  | some size =>
    rw [Option.map_some, Option.getD_some, ← cons_append, ← append_assoc, getLast?_concat]
    decide

theorem filter_eq (ht : t.IsAscii) (h : (Parameter.spaceReferences t).words = w.words) :
    t.filter divides = w.type.filter divides ++ w.last.filter divides := by
  have hmarks : (w.marks.map Mark.word).flatten.filter divides = [] := by
    induction w.marks with
    | nil => rfl
    | cons m marks ih =>
      rw [map_cons, flatten_cons, filter_append, ih]
      cases m <;> rfl
  rw [← filter_words ht, h, words, flatten_append, filter_append, hmarks]
  have hand : ("&" : Text).filter divides = [] := rfl
  cases w.isReference <;> simp [hand]

theorem solid (ht : t.IsAscii) (h : (Parameter.spaceReferences t).words = w.words) (hbare : Bare t) :
    Solid w.type ∧ Solid w.last := by
  have hword : ∀ {v : Text}, v ∈ w.words → 38 ∉ v → Solid v := fun hv href => by
    obtain ⟨hpart, hsolid⟩ := word_stands ht (h ▸ hv) href
    exact hsolid (hbare.part hpart)
  exact ⟨hword (by simp [words]) w.no_reference.1, hword (by simp [words]) w.not_mem_last⟩

section Written

variable (htype : Solid w.type) (hlast : Solid w.last)
include htype hlast

theorem words_text : w.text.IsCode ∧ Bare w.text ∧ StartsSolid w.text ∧
    (Parameter.spaceReferences w.text).words = w.words := by
  have hstart : ∀ {v : Text}, Solid v → ∀ u, StartsSolid (v ++ u) := fun hv =>
    StartsSolid.append_right (solid_ends hv.ne_nil hv.not_isBlank).1
  unfold text words
  generalize w.marks = marks
  induction marks with
  | nil =>
    have hreference : (w.type ++ if w.isReference then [38] else []).IsCode ∧
        Bare (w.type ++ if w.isReference then [38] else []) ∧
        (Parameter.spaceReferences (w.type ++ if w.isReference then [38] else [])).words =
          w.type :: if w.isReference then [("&" : Text)] else [] := by
      cases w.isReference with
      | false => simpa using ⟨htype.isCode, htype.bare, htype.words_eq w.no_reference.1⟩
      | true =>
        have hcode : IsCode (w.type ++ [32, 38, 32]) := forall_mem_append.mpr ⟨htype.isCode, by simp⟩
        have hand : Text.words [38, 32] = [[38]] := by decide
        refine ⟨forall_mem_append.mpr ⟨htype.isCode, by simp⟩,
          isChain_append.mpr ⟨htype.bare, isChain_singleton _, by simp⟩, ?_⟩
        rw [if_pos rfl, if_pos rfl, spaceReferences_append,
          Parameter.spaceReferences_of_not_mem w.no_reference.1]
        refine (words_append_cons (t := [38, 32]) rfl hcode).trans ?_
        rw [hand, words_of_none htype.isCode htype.ne_nil htype.not_isBlank]
        rfl
    obtain ⟨hcode, hbare, hwords⟩ := hreference
    rw [flatMap_nil, nil_append]
    refine ⟨hcode.space hlast.isCode, hbare.space hlast.bare, ?_, ?_⟩
    · rw [append_assoc]
      exact hstart htype _
    · rw [words_space hcode hlast.isCode, hwords, hlast.words_eq w.not_mem_last]
      rfl
  | cons m marks ih =>
    obtain ⟨hcode, hbare, -, hwords⟩ := ih
    have hm := m.isWord.solid
    rw [flatMap_cons, append_assoc, append_assoc, singleton_append]
    refine ⟨hm.isCode.space hcode, hm.bare.space hbare, hstart hm _, ?_⟩
    rw [words_space hm.isCode hcode, hwords, hm.words_eq (m.isWord.not_mem rfl)]
    rfl

/-- **A parameter is read from its words as they are written.** -/
theorem renders : Parameter.Renders w.text (w.read r) := by
  obtain ⟨hcode, hbare, hstart, hwords⟩ := words_text htype hlast
  obtain ⟨y, hy⟩ : ∃ y, w.text = y ++ w.last := ⟨_, by unfold text; rw [append_cons, ← append_assoc]⟩
  refine ⟨hcode, hbare, hstart, ?_, ?_, fun r => w.ofText?_eq hwords⟩
  · exact hy ▸ EndsSolid.append_left y (solid_ends hlast.ne_nil hlast.not_isBlank).2
  · have hlast' := getLast?_eq_some_getLast hlast.ne_nil
    rw [hy, getLast?_append, hlast', Option.some_or, ← hlast']
    exact w.getLast_last

end Written

theorem asValue_eq : (w.read r).asValue =
    text { w with marks := if w.marks.contains .const then [.const] else [], isReference := false } := by
  have hname : w.name.isEmpty = false := isEmpty_eq_false_iff.mpr w.isWord_name.1
  have hconst : ("const " : Text) = Mark.const.word ++ [32] ∧ (" " : Text) = [32] := ⟨rfl, rfl⟩
  unfold Parameter.asValue text last arraySuffix read
  cases w.marks.contains .const <;> simp [hname, hconst, arraySuffix]

theorem asReference_eq (hsize : w.size? = none) : (w.read r).asReference =
    text { w with marks := [.thread], isReference := true } := by
  have hthread : ("thread " : Text) = Mark.thread.word ++ [32] ∧ ("& " : Text) = [38, 32] := ⟨rfl, rfl⟩
  simp [Parameter.asReference, read, text, last, arraySuffix, hsize, hthread]

/-- **What is put in place of a parameter reads as the parameter passed**, and keeps what divides its text. -/
theorem renders_edit (ht : t.IsAscii) (hbare : Bare t) (h : (Parameter.spaceReferences t).words = w.words)
    (href : w.isReference = false) {e : Edit} (he : (w.read r).edit? = some e) :
    e.range = r ∧ Parameter.Renders e.replacement (w.read r).passed ∧
      e.replacement.filter divides = t.filter divides := by
  obtain ⟨htype, hlast⟩ := solid ht h hbare
  have hput : ∀ w' : PlainWords, w'.type = w.type → w'.last = w.last → w'.read r = (w.read r).passed →
      Parameter.Renders w'.text (w.read r).passed ∧ w'.text.filter divides = t.filter divides := by
    intro w' htype' hlast' hread
    rw [← htype'] at htype
    rw [← hlast'] at hlast
    obtain ⟨hcode, -, -, hwords⟩ := words_text htype hlast
    rw [filter_eq ht h, filter_eq hcode.isAscii hwords, htype', hlast', ← hread]
    exact ⟨renders htype hlast, rfl⟩
  unfold Parameter.edit? at he
  cases hq : (w.read r).qualifier with
  | unmarked | thread => simp [hq] at he
  | input =>
    simp only [hq, Option.some.injEq] at he
    subst he
    refine ⟨rfl, ?_⟩
    rw [asValue_eq]
    refine hput
      { w with marks := if w.marks.contains .const then [.const] else [], isReference := false }
      rfl rfl ?_
    unfold Parameter.passed
    rw [hq]
    unfold read
    cases w.marks.contains .const <;> simp [href, Mark.qualifier?, arraySuffix]
  | output | inOut =>
    simp only [hq, Option.ite_none_left_eq_some, Option.some.injEq] at he
    obtain ⟨hsuffix, rfl⟩ := he
    refine ⟨rfl, ?_⟩
    rw [asReference_eq (by simpa [read, arraySuffix] using hsuffix)]
    refine hput { w with marks := [.thread], isReference := true } rfl rfl ?_
    simp only [Parameter.passed, hq, hsuffix]
    rfl

end PlainWords

end GlslToMetal
