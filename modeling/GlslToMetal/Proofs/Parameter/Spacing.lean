import GlslToMetal.Proofs.Lowering.Encoding
import GlslToMetal.Proofs.Parameter.Words
import GlslToMetal.Proofs.Text.Standing

/-! Spacing around the brackets of an array. A parameter is read word by word: the name and the array
suffix are looked for in the last word only, and words end at white space and at `&`. So an array is
read as it is written only if neither stands between its name and its last bracket; a break there makes
the name a part of the type. An output array is left and reported as long as its last word holds an
opening bracket. -/

namespace GlslToMetal

open List Text
open Unicode (isWhiteSpace)

variable {c : Char} {cs t z : List Char} {p : Parameter} {r : Range}

namespace Text

/-- A character at which a word of a parameter ends. -/
def isBreak (c : Char) : Bool := isWhiteSpace c || c == '&'

/-- The runs of characters between breaks. -/
def pieces (cs : List Char) : List (List Char) := (cs.splitOnP isBreak).filter (!·.isEmpty)

theorem pieces_append_cons (hc : isBreak c) (s t : List Char) :
    pieces (s ++ c :: t) = pieces s ++ pieces t := by
  unfold pieces
  rw [splitOnP_append_cons _ _ hc, filter_append]

theorem pieces_of_none (hne : cs ≠ []) (h : ∀ c ∈ cs, isBreak c = false) : pieces cs = [cs] := by
  unfold pieces
  rw [splitOnP_eq_singleton h]
  simp [hne]

theorem pieces_cons_ne_nil (hc : isBreak c = false) (cs : List Char) : pieces (c :: cs) ≠ [] := by
  obtain ⟨w, ws, hw⟩ := exists_cons_of_ne_nil (splitOnP_ne_nil isBreak cs)
  unfold pieces
  rw [splitOnP_cons_eq_if_modifyHead, if_neg (by simp [hc]), hw]
  simp

/-- What stands behind the last break. -/
def lastPiece (cs : List Char) : List Char := (cs.reverse.takeWhile (!isBreak ·)).reverse

theorem lastPiece_append_of_none (s : List Char) (h : ∀ d ∈ t, isBreak d = false) :
    lastPiece (s ++ t) = lastPiece s ++ t := by
  have ht : ∀ d ∈ t.reverse, !isBreak d := fun d hd => by simp [h d (mem_reverse.1 hd)]
  unfold lastPiece
  rw [reverse_append, takeWhile_append_of_pos ht, reverse_append, reverse_reverse]

theorem lastPiece_of_none (h : ∀ c ∈ cs, isBreak c = false) : lastPiece cs = cs :=
  lastPiece_append_of_none [] h

theorem lastPiece_append_cons (hc : isBreak c) (s : List Char)
    (h : ∀ d ∈ t, isBreak d = false) : lastPiece (s ++ c :: t) = t := by
  have hnil : lastPiece (s ++ [c]) = [] := by simp [lastPiece, hc]
  rw [append_cons, lastPiece_append_of_none _ h, hnil, nil_append]

theorem exists_last_break (cs : List Char) :
    (∀ c ∈ cs, isBreak c = false) ∨ ∃ s c t, cs = s ++ c :: t ∧ isBreak c ∧ ∀ d ∈ t, isBreak d = false := by
  rcases exists_first isBreak cs.reverse with hnone | ⟨x, c, y, hcs, hc, hx⟩
  · exact .inl fun c h => hnone c (mem_reverse.2 h)
  · refine .inr ⟨y.reverse, c, x.reverse, ?_, hc, fun d hd => hx d (mem_reverse.1 hd)⟩
    rw [← reverse_reverse cs, hcs]
    simp

/-- Characters with no break at either end are one piece, or the last of their pieces is what stands
behind the last break. -/
theorem pieces_eq_concat {d : Char} (hfirst : isBreak d = false)
    (hlast : ∀ c ∈ (d :: cs).getLast?, isBreak c = false) :
    ∃ init, pieces (d :: cs) = init ++ [lastPiece (d :: cs)] ∧
      (init = [] ↔ ∀ c ∈ d :: cs, isBreak c = false) := by
  rcases exists_last_break (d :: cs) with hnone | ⟨s, c, t, hcs, hc, ht⟩
  · exact ⟨[], by rw [pieces_of_none (cons_ne_nil d cs) hnone, lastPiece_of_none hnone, nil_append],
      fun _ => hnone, fun _ => rfl⟩
  · have hne : t ≠ [] := by
      rintro rfl
      have hend : (d :: cs).getLast? = some c := by rw [hcs, getLast?_concat]
      simp [hlast c hend] at hc
    refine ⟨pieces s, ?_, fun hs => ?_, fun hnone => ?_⟩
    · rw [hcs, pieces_append_cons hc, pieces_of_none hne ht, lastPiece_append_cons hc s ht]
    · cases s with
      | nil => simp [(cons.inj hcs).1 ▸ hfirst] at hc
      | cons e s =>
        obtain ⟨rfl, -⟩ := cons.inj hcs
        exact absurd hs (pieces_cons_ne_nil hfirst s)
    · simp [hnone c (hcs ▸ mem_append_right s mem_cons_self)] at hc

theorem spaced_append (s t : List Char) : spaced (s ++ t) = spaced s ++ spaced t := flatMap_append

theorem spaced_of_not_mem (h : '&' ∉ cs) : spaced cs = cs := by
  induction cs with
  | nil => rfl
  | cons c cs ih =>
    obtain ⟨hc, hcs⟩ := not_or.1 (mem_cons.not.1 h)
    rw [spaced, flatMap_cons, if_neg (by simpa using Ne.symm hc)]
    exact congrArg (c :: ·) (ih hcs)

theorem not_mem_of_isBreak (h : ∀ c ∈ cs, isBreak c = false) : '&' ∉ cs := fun hmem =>
  Bool.noConfusion (h '&' hmem)

theorem spaced_of_none (h : ∀ c ∈ cs, isBreak c = false) : spaced cs = cs :=
  spaced_of_not_mem (not_mem_of_isBreak h)

theorem charWords_of_none (h : ∀ c ∈ cs, isBreak c = false) (hne : cs ≠ []) : charWords cs = [cs] := by
  rw [charWords_eq, splitOnP_eq_singleton fun c hc => (Bool.or_eq_false_iff.1 (h c hc)).1]
  simp [hne]

theorem not_mem_of_isWhiteSpace (h : ∀ c ∈ cs, isWhiteSpace c) : '&' ∉ cs := fun hmem =>
  Bool.noConfusion (h '&' hmem)

theorem charWords_white (h : ∀ c ∈ z, isWhiteSpace c) (t : List Char) : charWords (z ++ t) = charWords t := by
  induction z with
  | nil => rfl
  | cons c z ih =>
    obtain ⟨hc, hz⟩ := forall_mem_cons.1 h
    rw [cons_append, charWords, if_pos hc, ih hz]

/-- **The words of a parameter, without the `&`s, are its pieces.** -/
theorem filter_charWords_spaced (cs : List Char) :
    (charWords (spaced cs)).filter (· != ['&']) = pieces cs := by
  induction hn : cs.length using Nat.strong_induction_on generalizing cs with
  | _ n ih =>
    rcases exists_first isBreak cs with hnone | ⟨x, c, y, rfl, hc, hx⟩
    · rw [spaced_of_none hnone]
      by_cases hne : cs = []
      · rw [hne]
        simp [charWords, pieces]
      · rw [charWords_of_none hnone hne, pieces_of_none hne hnone, filter_cons_of_pos, filter_nil]
        rw [bne_iff_ne]
        rintro rfl
        exact not_mem_of_isBreak hnone mem_cons_self
    · have hy := ih y.length (by simp at hn; omega) y rfl
      have hfront := ih x.length (by simp at hn; omega) x rfl
      rw [pieces_append_cons hc, ← hy, ← hfront, spaced_append]
      by_cases hreference : c = '&'
      · subst hreference
        have hspaced : spaced ('&' :: y) = ' ' :: (['&'] ++ ' ' :: spaced y) := rfl
        rw [hspaced, charWords_append_cons rfl, charWords_append_cons rfl, filter_append, filter_append]
        rfl
      · have hwhite : isWhiteSpace c := by simpa [isBreak, hreference] using hc
        have hspaced : spaced (c :: y) = c :: spaced y := by
          rw [spaced, flatMap_cons, if_neg (by simpa using hreference)]
          rfl
        rw [hspaced, charWords_append_cons hwhite, filter_append]

end Text

/-- White space between two words. -/
def IsSpace (z : List Char) : Prop := z ≠ [] ∧ ∀ c ∈ z, isWhiteSpace c

theorem charWords_spaced_append {u : List Char} (hne : u ≠ []) (hu : ∀ c ∈ u, isBreak c = false)
    (hz : IsSpace z)
    (rest : List Char) : charWords (spaced (u ++ z ++ rest)) = u :: charWords (spaced rest) := by
  obtain ⟨c, z, rfl⟩ := exists_cons_of_ne_nil hz.1
  obtain ⟨hc, hwhite⟩ := forall_mem_cons.1 hz.2
  rw [spaced_append, spaced_append, spaced_of_none hu, spaced_of_not_mem (not_mem_of_isWhiteSpace hz.2),
    append_assoc, cons_append, charWords_append_cons hc, charWords_of_none hu hne, charWords_white hwhite,
    singleton_append]

theorem filter_map_ofChars (ws : List (List Char)) :
    (ws.map ofChars).filter (· != ("&" : Text)) = (ws.filter (· != ['&'])).map ofChars := by
  have hbne : ((· != ("&" : Text)) ∘ ofChars) = (· != ['&']) := by
    funext cs
    exact Bool.eq_iff_iff.2 ((bne_iff_ne.trans (ofChars_injective.ne_iff (y := ['&']))).trans bne_iff_ne.symm)
  rw [filter_map, hbne]

theorem mem_ofChars_bracket : 91 ∈ ofChars cs ↔ '[' ∈ cs := by
  constructor
  · exact charOf_mem_of_ofChars (by decide)
  · intro h
    obtain ⟨a, z, rfl⟩ := append_of_mem h
    rw [ofChars_append, ofChars_cons]
    exact mem_append_right _ (mem_append_left _ (by decide))

/-- An array parameter as it is written: marks, a type, a name, and a size between brackets. White space
may stand before the brackets and anywhere between them. -/
structure ArrayText where
  /-- The marks, each with the white space behind it. -/
  marks : List (Mark × List Char)
  type : List Char
  space : List Char
  name : Text
  gap : List Char
  size : List Char
  isSpace_marks : ∀ m ∈ marks, IsSpace m.2
  type_ne_nil : type ≠ []
  isBreak_type : ∀ c ∈ type, isBreak c = false
  type_ne_word : ∀ m : Mark, ofChars type ≠ m.word
  isSpace_space : IsSpace space
  isIdentifier_name : name.isIdentifier
  isWhiteSpace_gap : ∀ c ∈ gap, isWhiteSpace c

namespace ArrayText

variable (w : ArrayText)

/-- The name and the brackets. -/
def behind : List Char := w.name.map charOf ++ w.gap ++ '[' :: (w.size ++ [']'])

def text : Text := ofChars
    (w.marks.flatMap (fun m => m.1.word.map charOf ++ m.2) ++ (w.type ++ w.space ++ w.behind))

def qualifier : Qualifier := ((w.marks.map Prod.fst).filterMap Mark.qualifier?).getLast?.getD .unmarked

/-- The parameter is what was written, its array suffix up to white space. -/
structure ReadsAs (p : Parameter) : Prop where
  qualifier : p.qualifier = w.qualifier
  type : p.type = ofChars w.type
  name : p.name = w.name
  arraySuffix : ∃ suffix ∈ p.arraySuffix, suffix.chars.filter (!isWhiteSpace ·) =
    '[' :: (w.size.filter (!isWhiteSpace ·) ++ [']'])

theorem isBreak_of_isWord {t : Text} (h : t.IsWord) : ∀ c ∈ t.map charOf, isBreak c = false := by
  intro c hc
  obtain ⟨b, hb, rfl⟩ := mem_map.1 hc
  have hword := h.2 b hb
  have hcode := isCode_of_isWordByte hword
  have hreference : charOf b ≠ '&' := by
    intro heq
    have hb : b = 38 := UInt8.toNat_inj.1 (by rw [← toNat_charOf hcode.1, heq]; rfl)
    rw [hb] at hword
    cases hword
  rw [isBreak, isWhiteSpace_charOf hcode.1 hcode.2, isBlank_of_isWordByte hword, Bool.false_or,
    beq_eq_false_iff_ne.2 hreference]

theorem charWords_text :
    (charWords (spaced (w.marks.flatMap (fun m => m.1.word.map charOf ++ m.2) ++
      (w.type ++ w.space ++ w.behind)))).map
      ofChars = (w.marks.map Prod.fst).map Mark.word ++ ofChars w.type ::
        (charWords (spaced w.behind)).map ofChars := by
  have hmarks := w.isSpace_marks
  generalize w.marks = ms at hmarks
  induction ms with
  | nil =>
    rw [flatMap_nil, nil_append, charWords_spaced_append w.type_ne_nil w.isBreak_type w.isSpace_space]
    rfl
  | cons m ms ih =>
    obtain ⟨hm, hms⟩ := forall_mem_cons.1 hmarks
    rw [flatMap_cons, append_assoc, charWords_spaced_append (by simpa using m.1.isWord.1)
      (isBreak_of_isWord m.1.isWord) hm, map_cons, ih hms, ofChars_map_charOf m.1.isWord.isCode.isAscii]
    rfl

/-- The brackets are in the last word exactly if an opening one stands behind the last break. -/
theorem bracket_mem_lastPiece : '[' ∈ lastPiece w.behind ↔ '[' ∈ lastPiece ('[' :: w.size) := by
  have hclose : ∀ d ∈ [']'], isBreak d = false := fun d hd => mem_singleton.1 hd ▸ rfl
  rcases exists_last_break ('[' :: w.size) with hnone | ⟨s, c, t, hsize, hc, ht⟩
  · have hbehind : ∀ d ∈ '[' :: (w.size ++ [']']), isBreak d = false :=
      forall_mem_append.2 ⟨hnone, hclose⟩
    rw [behind, lastPiece_append_of_none _ hbehind, lastPiece_of_none hnone]
    exact iff_of_true (mem_append_right _ mem_cons_self) mem_cons_self
  · have hbehind : w.behind = (w.name.map charOf ++ w.gap ++ s) ++ c :: (t ++ [']']) := by
      rw [behind, ← cons_append, hsize]
      simp
    rw [hbehind, lastPiece_append_cons hc _ (forall_mem_append.2 ⟨ht, hclose⟩), hsize,
      lastPiece_append_cons hc _ ht]
    simp

/-- The name and the brackets are one word exactly if nothing stands between them and no break inside. -/
theorem isBreak_behind :
    (∀ c ∈ w.behind, isBreak c = false) ↔ w.gap = [] ∧ ∀ c ∈ w.size, isBreak c = false := by
  have hname := isBreak_of_isWord (isWordByte_of_isIdentifier w.isIdentifier_name)
  constructor
  · intro h
    refine ⟨eq_nil_iff_forall_not_mem.2 fun c hc => ?_, fun c hc => h c (by simp [behind, hc])⟩
    have hbreak := h c (by simp [behind, hc])
    simp [isBreak, w.isWhiteSpace_gap c hc] at hbreak
  · rintro ⟨hgap, hsize⟩ c hc
    simp only [behind, hgap, append_nil, mem_append, mem_cons, not_mem_nil, or_false] at hc
    rcases hc with hc | rfl | hc | rfl
    · exact hname c hc
    · decide +kernel
    · exact hsize c hc
    · decide +kernel

/-- What is read of the parameter: words before the last go to the type. -/
theorem exists_reading (r : Range) :
    ∃ (p : Parameter) (init : List (List Char)), Parameter.ofText? w.text r = some p ∧
      p.qualifier = w.qualifier ∧
      p.type = unwords (ofChars w.type :: init.map ofChars) ∧
      (p.name, p.arraySuffix) = Parameter.declarator (ofChars (lastPiece w.behind)) ∧
      (init = [] ↔ w.gap = [] ∧ ∀ c ∈ w.size, isBreak c = false) := by
  obtain ⟨d, cs, hbehind⟩ : ∃ d cs, w.behind = d :: cs := exists_cons_of_ne_nil (by simp [behind])
  have hfirst : isBreak d = false := by
    obtain ⟨b, n, hname⟩ := exists_cons_of_ne_nil (isWordByte_of_isIdentifier w.isIdentifier_name).1
    have hword := isBreak_of_isWord (isWordByte_of_isIdentifier w.isIdentifier_name)
    simp only [behind, hname, map_cons, cons_append] at hbehind hword
    exact (cons.inj hbehind).1 ▸ hword _ mem_cons_self
  have hlast : ∀ c ∈ (d :: cs).getLast?, isBreak c = false := by
    have hend : w.behind.getLast? = some ']' := by
      rw [behind, ← cons_append, ← append_assoc, getLast?_concat]
    rw [← hbehind, hend]
    rintro c ⟨⟩
    decide +kernel
  obtain ⟨init, hpieces, hinit⟩ := pieces_eq_concat hfirst hlast
  rw [← hbehind] at hpieces hinit
  have htype : ofChars w.type ≠ ("&" : Text) := fun heq =>
    not_mem_of_isBreak w.isBreak_type (ofChars_injective heq ▸ mem_cons_self)
  have hne : charWords (spaced w.behind) ≠ [] := by
    intro hnil
    have := filter_charWords_spaced w.behind
    rw [hnil, hpieces] at this
    simp at this
  refine ⟨⟨unwords (ofChars w.type :: init.map ofChars), w.qualifier,
    (Parameter.declarator (ofChars (lastPiece w.behind))).1, (w.marks.map Prod.fst).contains .const,
    (ofChars w.type :: (charWords (spaced w.behind)).map ofChars).contains ("&" : Text),
    (Parameter.declarator (ofChars (lastPiece w.behind))).2, r⟩, init, ?_, rfl, rfl, rfl,
      hinit.trans w.isBreak_behind⟩
  unfold Parameter.ofText? Text.words text
  rw [spaceReferences_ofChars, chars_ofChars, w.charWords_text]
  refine (Parameter.ofWords?_eq_some fun t ht => ?_).2 ⟨?_, ?_, rfl, rfl, rfl, rfl⟩
  · cases ht
    exact w.type_ne_word
  · intro heq
    have hlength := congrArg length heq
    have hpos := length_pos_iff.2 hne
    simp at hlength
    omega
  · rw [filter_cons_of_pos (by simpa using htype), filter_map_ofChars, filter_charWords_spaced, hpieces,
      map_append, map_singleton, ← cons_append, Parameter.declared_concat (cons_ne_nil _ _)]

/-- **An array is read as it is written exactly if no white space and no `&` stands between its name and
its last bracket.** -/
theorem readsAs_iff (h : Parameter.ofText? w.text r = some p) :
    w.ReadsAs p ↔ w.gap = [] ∧ ∀ c ∈ w.size, isBreak c = false := by
  obtain ⟨q, init, hq, hqualifier, htype, hdeclarator, hinit⟩ := w.exists_reading r
  cases hq.symm.trans h
  constructor
  · intro hreads
    refine hinit.1 ?_
    have hlength := congrArg length (hreads.type.symm.trans htype)
    cases init with
    | nil => rfl
    | cons u us =>
      rw [map_cons, unwords_cons_cons] at hlength
      simp at hlength
  · intro htight
    have hwhole := lastPiece_of_none (w.isBreak_behind.2 htight)
    have hword : ofChars w.behind = w.name ++ 91 :: ofChars (w.size ++ [']']) := by
      rw [behind, htight.1, append_nil, ofChars_append,
        ofChars_map_charOf (isWordByte_of_isIdentifier w.isIdentifier_name).isCode.isAscii, ofChars_cons]
      rfl
    have hdeclared : Parameter.declarator (ofChars w.behind) =
        (w.name, some (91 :: ofChars (w.size ++ [']']))) := by
      rw [hword, Parameter.declarator_append]
      exact (isWordByte_of_isIdentifier w.isIdentifier_name).not_mem rfl
    rw [hwhole, hdeclared, Prod.mk.injEq] at hdeclarator
    rw [hinit.2 htight] at htype
    refine ⟨hqualifier, by simpa [unwords] using htype, hdeclarator.1, _, hdeclarator.2, ?_⟩
    have hchars : Text.chars (91 :: ofChars (w.size ++ [']'])) = '[' :: (w.size ++ [']']) :=
      chars_ofChars ('[' :: (w.size ++ [']']))
    rw [hchars, filter_cons_of_pos (by decide +kernel), filter_append]
    rfl

theorem isSome_arraySuffix_iff (h : Parameter.ofText? w.text r = some p) :
    p.arraySuffix.isSome ↔ '[' ∈ lastPiece ('[' :: w.size) := by
  obtain ⟨q, init, hq, -, -, hdeclarator, -⟩ := w.exists_reading r
  cases hq.symm.trans h
  have hsuffix : p.arraySuffix = (Parameter.declarator (ofChars (lastPiece w.behind))).2 :=
    congrArg Prod.snd hdeclarator
  rw [← w.bracket_mem_lastPiece, ← mem_ofChars_bracket, hsuffix]
  refine ⟨fun hsome => ?_, Parameter.isSome_declarator_of_mem⟩
  by_contra hnot
  rw [Parameter.declarator_of_not_mem hnot] at hsome
  cases hsome

end ArrayText

namespace Parameter

theorem edit?_eq_none_iff (h : p.qualifier = .output ∨ p.qualifier = .inOut) :
    p.edit? = none ↔ p.arraySuffix.isSome := by
  unfold edit?
  rcases h with h | h <;> simp [h, Option.isSome_iff_ne_none]

theorem diagnostic?_eq_some (h : p.qualifier = .output ∨ p.qualifier = .inOut)
    (harray : p.arraySuffix.isSome) (function : Text) :
    p.diagnostic? function = some (outputArray function p) := by
  unfold diagnostic?
  rcases h with h | h <;> simp [h, harray]

theorem mem_of_lower {source : Text} {fs : List Signature} (hfs : Program.functions source = .ok fs)
    {ds : List Diagnostic} {t : Text} (h : lower source = .ok (ds, t)) {f : Signature} (hf : f ∈ fs)
    (hp : p ∈ f.params) {d : Diagnostic} (hd : p.diagnostic? f.name = some d) : d ∈ ds := by
  obtain ⟨_, hfs', h⟩ := Checked.exists_of_bind h
  cases hfs.symm.trans hfs'
  obtain ⟨_, -, h⟩ := Checked.exists_of_bind h
  cases h
  exact mem_flatMap.2 ⟨f, hf, mem_filterMap.2 ⟨p, hp, hd⟩⟩

/-- **Spacing decides how an array parameter is read, and whether an output array is left and
reported.** It is read as it is written exactly if no white space and no `&` stands between its name and
its last bracket. An output array keeps its text and is reported exactly if an opening bracket stands
behind the last break; for a size without brackets, if there is no break in it. -/
theorem lower_reports_array_iff (w : ArrayText) :
    (∀ (masked : Text) (r : Range), masked.slice r = .ok w.text → ∃ p, ofRange? masked r = .ok (some p) ∧
      (w.ReadsAs p ↔ w.gap = [] ∧ ∀ c ∈ w.size, isBreak c = false)) ∧
    (w.qualifier = .output ∨ w.qualifier = .inOut →
      ∀ (source : Text) (fs : List Signature) (ds : List Diagnostic)
      (t : Text), Program.functions source = .ok fs → lower source = .ok (ds, t) →
      ∀ f ∈ fs, ∀ p ∈ f.params, source.mask.slice p.range = .ok w.text →
        (p.edit? = none ∧ outputArray f.name p ∈ ds ↔ '[' ∈ lastPiece ('[' :: w.size))) := by
  have hread : ∀ {masked : Text} {r : Range}, masked.slice r = .ok w.text →
      ofRange? masked r = .ok (ofText? w.text r) := by
    intro masked r h
    unfold ofRange?
    rw [h]
    rfl
  refine ⟨fun masked r h => ?_, fun houtput source fs ds t hfs hlower f hf p hp h => ?_⟩
  · obtain ⟨p, -, hp, -⟩ := w.exists_reading r
    exact ⟨p, by rw [hread h, hp], w.readsAs_iff hp⟩
  · have hp' := (Program.yields_functions source fs hfs f hf).2.2 p hp
    rw [hread h, Except.ok.injEq] at hp'
    have hqualifier : p.qualifier = w.qualifier := by
      obtain ⟨q, -, hq, hqualifier, -⟩ := w.exists_reading p.range
      cases hq.symm.trans hp'
      exact hqualifier
    rw [← hqualifier] at houtput
    rw [edit?_eq_none_iff houtput, ← w.isSome_arraySuffix_iff hp']
    exact and_iff_left_of_imp fun harray =>
      mem_of_lower hfs hlower hf hp (diagnostic?_eq_some houtput harray f.name)

/-- `out float v[4 ][2]`: not read as it is written, but left and reported. -/
def gappedArray : ArrayText where
  marks := [(.output, [' '])]
  type := ['f', 'l', 'o', 'a', 't']
  space := [' ']
  name := "v"
  gap := []
  size := ['4', ' ', ']', '[', '2']
  isSpace_marks := fun m hm => mem_singleton.1 hm ▸ ⟨by decide, all_eq_true.1 rfl⟩
  type_ne_nil := by decide
  isBreak_type := by simp; decide
  type_ne_word := fun m => by cases m <;> decide
  isSpace_space := ⟨by decide, all_eq_true.1 rfl⟩
  isIdentifier_name := by decide
  isWhiteSpace_gap := forall_mem_nil _

def gappedProgram : Text := "void f(out float v[4 ][2]) \x7b\x7d\n"

def gappedParameter : Parameter := ⟨"float v[4", .output, "]", false, false, some ("[2]" : Text), ⟨7, 25⟩⟩

theorem lower_reports_array_iff_gappedArray :
    (∃ p, ofRange? gappedArray.text ⟨0, 18⟩ = .ok (some p) ∧ ¬ gappedArray.ReadsAs p) ∧
      ∃ ds, lower gappedProgram = .ok (ds, gappedProgram) ∧ gappedParameter.edit? = none ∧
        outputArray "f" gappedParameter ∈ ds := by
  obtain ⟨hreads, hreports⟩ := lower_reports_array_iff gappedArray
  refine ⟨?_, ?_⟩
  · obtain ⟨p, hp, hiff⟩ := hreads gappedArray.text ⟨0, 18⟩ (by decide +kernel)
    refine ⟨p, hp, fun h => ?_⟩
    have hbreak := (hiff.1 h).2 ' ' (by decide)
    revert hbreak
    decide +kernel
  · have hfs : Program.functions gappedProgram =
        .ok [⟨"f", "void", [gappedParameter], ⟨0, 29⟩, ⟨5, 6⟩, 6, 25, some ⟨28, 28⟩⟩] := by
      unfold gappedProgram gappedParameter
      repeat rw [ofString_ofList]
      decide +kernel
    have hlower : lower gappedProgram = .ok ([outputArray "f" gappedParameter], gappedProgram) := by
      unfold gappedProgram gappedParameter
      repeat rw [ofString_ofList]
      decide +kernel
    exact ⟨_, hlower, (hreports (.inl rfl) gappedProgram _ _ _ hfs hlower _ mem_cons_self gappedParameter
      mem_cons_self (by decide +kernel)).2 (by decide +kernel)⟩

/-- A space behind the bracket makes the name and the bracket a part of the type: the parameter becomes
a reference, and nothing is reported. A space before the bracket leaves the parameter without a name. -/
theorem lower_breaks_array :
    lower "void f(out float v[ 4 ]) \x7b\x7d\n" = .ok ([], "void f(thread float v[ 4& ]) \x7b\x7d\n") ∧
      ofText? "out float v [4]" ⟨0, 15⟩ = some ⟨"float v", .output, "", false, false,
        some ("[4]" : Text), ⟨0, 15⟩⟩ := by
  repeat rw [ofString_ofList]
  decide +kernel

end Parameter

end GlslToMetal
