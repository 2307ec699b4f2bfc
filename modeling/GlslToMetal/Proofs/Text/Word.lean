import GlslToMetal.Proofs.Text.Blank
import GlslToMetal.Proofs.Text.Nesting
import GlslToMetal.Text.Identifier

/-! Whole words. A search for a word skips from each match to its end, but a match that overlaps an
earlier one touches an identifier byte, so no occurrence as a whole word is missed. A text contains
a word exactly when the word is one of its runs of identifier bytes. -/

namespace GlslToMetal.Text

open List

variable {c : Char} {i : Nat} {l t w : Text} {b : UInt8}

/-- A text made of identifier bytes. -/
def IsWord (w : Text) : Prop := w ≠ [] ∧ ∀ b ∈ w, isWordByte b

/-- The text ends before a word: its last byte is no identifier byte. -/
def EndsWord (l : Text) : Prop := ∀ b ∈ l.getLast?, isWordByte b = false

/-- The text goes on behind a word: its first byte is no identifier byte. -/
def StartsApart (r : Text) : Prop := ∀ b ∈ r.head?, isWordByte b = false

theorem isBlank_of_isWordByte (h : isWordByte b) : isBlank b = false := by
  simp only [isWordByte, isLetter, isDigit, Bool.or_eq_true, Bool.and_eq_true, decide_eq_true_eq,
    beq_iff_eq] at h
  simp only [isBlank, Bool.or_eq_false_iff, beq_eq_false_iff_ne]
  refine ⟨⟨⟨⟨?_, ?_⟩, ?_⟩, ?_⟩, ?_⟩ <;> rintro rfl <;> exact absurd h (by decide)

theorem isWordByte_of_isBlank (h : isBlank b) : isWordByte b = false := by
  by_contra hword
  rw [isBlank_of_isWordByte (by simpa using hword)] at h
  cases h

theorem IsWord.not_isBlank {w : Text} (h : w.IsWord) : ∀ b ∈ w, isBlank b = false :=
  fun b hb => isBlank_of_isWordByte (h.2 b hb)

theorem startsApart_append {z r : Text} (hz : z.all isBlank) (hr : StartsApart r) : StartsApart (z ++ r) := by
  cases z with
  | nil => exact hr
  | cons c z =>
    rw [all_cons, Bool.and_eq_true] at hz
    rintro _ ⟨⟩
    exact isWordByte_of_isBlank hz.1

theorem startsApart_dropWhile (t : Text) : StartsApart (t.dropWhile isWordByte) :=
  fun _ => not_of_mem_head?_dropWhile

theorem isCode_of_isWordByte (h : isWordByte b) : b < 128 ∧ b ≠ 11 := by
  simp only [isWordByte, isLetter, isDigit, Bool.or_eq_true, Bool.and_eq_true, decide_eq_true_eq,
    beq_iff_eq] at h
  constructor
  · rcases h with ((h | h) | h) | rfl
    · exact UInt8.lt_of_le_of_lt h.2 (by decide)
    · exact UInt8.lt_of_le_of_lt h.2 (by decide)
    · exact UInt8.lt_of_le_of_lt h.2 (by decide)
    · decide
  · rintro rfl
    exact absurd h (by decide)

theorem isWordByte_of_isIdentifier (h : w.isIdentifier) : w.IsWord := by
  cases w with
  | nil => simp [isIdentifier] at h
  | cons b rest =>
    simp only [isIdentifier, Bool.and_eq_true, all_eq_true] at h
    refine ⟨by simp, ?_⟩
    intro c hc
    rcases mem_cons.mp hc with rfl | hc
    · simp only [Bool.or_eq_true] at h
      rcases h.1 with hletter | hscore
      · simp [isWordByte, hletter]
      · simp [isWordByte, hscore]
    · exact h.2 c hc

theorem IsWord.not_mem (h : w.IsWord) (hb : isWordByte b = false) : b ∉ w := by
  intro hmem
  rw [h.2 b hmem] at hb
  cases hb

theorem IsWord.isCode (h : w.IsWord) : w.IsCode := fun b hb => isCode_of_isWordByte (h.2 b hb)

theorem plain_of_isWordByte (h : isWordByte b) : Delimiter.plain b := by
  have hne : ∀ {c : UInt8}, isWordByte c = false → b ≠ c := by
    rintro c hc rfl
    rw [h] at hc
    cases hc
  simp [Delimiter.plain, Delimiter.ofOpener?, Delimiter.ofCloser?, @hne 123 rfl, @hne 40 rfl, @hne 91 rfl,
    @hne 125 rfl, @hne 41 rfl, @hne 93 rfl]

theorem IsWord.plain (h : w.IsWord) : ∀ b ∈ w, Delimiter.plain b ∧ b ≠ 59 ∧ b ≠ 61 := by
  intro b hb
  have hne : ∀ {c : UInt8}, isWordByte c = false → b ≠ c := fun hc heq => h.not_mem hc (heq ▸ hb)
  exact ⟨plain_of_isWordByte (h.2 b hb), hne rfl, hne rfl⟩

theorem isPrefixOf_of_mem_occurrencesFrom (hne : w ≠ []) {skip j : Nat}
    (h : j ∈ occurrencesFrom w i skip t) : i ≤ j ∧ w <+: t.drop (j - i) := by
  have hw : w.isEmpty = false := by simpa using hne
  induction t generalizing i skip with
  | nil => simp [occurrencesFrom, hw] at h
  | cons b rest ih =>
    have hstep : ∀ skip, j ∈ occurrencesFrom w (i + 1) skip rest →
        i ≤ j ∧ w <+: (b :: rest).drop (j - i) := by
      intro skip hj
      obtain ⟨hle, hpre⟩ := ih hj
      refine ⟨by omega, ?_⟩
      rwa [show j - i = j - (i + 1) + 1 by omega, drop_succ_cons]
    cases skip with
    | succ skip => exact hstep skip h
    | zero =>
      simp only [occurrencesFrom, hw, Bool.false_eq_true, if_false] at h
      split at h
      · next hpre =>
        rcases mem_cons.mp h with rfl | h
        · exact ⟨Nat.le_refl j, by simpa using hpre⟩
        · exact hstep _ h
      · exact hstep 0 h

/-- The search finds every occurrence of a word that no identifier byte precedes: the bytes that it
skips are identifier bytes, and so is the byte before them. -/
theorem mem_occurrencesFrom (hw : w.IsWord) (l r : Text) (i skip : Nat)
    (hskip : ∀ b ∈ (l ++ w ++ r).take skip, isWordByte b) (hl : EndsWord l)
    (hstart : l = [] → skip = 0) : i + l.length ∈ occurrencesFrom w i skip (l ++ w ++ r) := by
  have hempty : w.isEmpty = false := by simpa using hw.1
  induction l generalizing i skip with
  | nil =>
    obtain rfl := hstart rfl
    obtain ⟨b, rest, rfl⟩ := exists_cons_of_ne_nil hw.1
    simp [occurrencesFrom]
  | cons b l ih =>
    have hends : l ≠ [] → EndsWord l := by
      intro hne c hc
      apply hl c
      rw [getLast?_cons]
      obtain ⟨d, hd⟩ := Option.isSome_iff_exists.mp (getLast?_isSome.mpr hne)
      simp_all
    have hnil : l = [] → isWordByte b = false := by
      rintro rfl
      exact hl b (by simp)
    have hlen : i + (b :: l).length = i + 1 + l.length := by simp; omega
    have hstep : ∀ skip, (∀ c ∈ (l ++ w ++ r).take skip, isWordByte c) → (l = [] → skip = 0) →
        i + (b :: l).length ∈ occurrencesFrom w (i + 1) skip (l ++ w ++ r) := by
      intro skip hbytes hzero
      rw [hlen]
      by_cases hne : l = []
      · subst hne
        exact ih (i + 1) skip hbytes (by simp [EndsWord]) hzero
      · exact ih (i + 1) skip hbytes (hends hne) hzero
    cases skip with
    | succ skip =>
      simp only [cons_append, occurrencesFrom]
      apply hstep
      · intro c hc
        exact hskip c (by simp only [cons_append, take_succ_cons]; exact mem_cons_of_mem _ hc)
      · intro hne
        have := hskip b (by simp)
        rw [hnil hne] at this
        cases this
    | zero =>
      simp only [cons_append, occurrencesFrom, hempty, Bool.false_eq_true, if_false]
      split
      · next hpre =>
        rw [List.isPrefixOf_iff_prefix] at hpre
        obtain ⟨c, w', rfl⟩ := exists_cons_of_ne_nil hw.1
        obtain ⟨rfl, htail⟩ := cons_prefix_cons.mp hpre
        apply mem_cons_of_mem
        apply hstep
        · intro d hd
          apply hw.2 d
          have : (l ++ c :: w' ++ r).take w'.length = w' := (prefix_iff_eq_take.mp htail).symm
          simp only [length_cons, Nat.add_sub_cancel] at hd
          rw [this] at hd
          exact mem_cons_of_mem _ hd
        · intro hne
          have := hw.2 c mem_cons_self
          rw [hnil hne] at this
          cases this
      · exact hstep 0 (by simp) (fun _ => rfl)

theorem before?_append (l : Text) (r : Text) : (l ++ r).before? l.length = l.getLast? := by
  unfold before?
  cases hl : l.length with
  | zero => simp [length_eq_zero_iff.mp hl]
  | succ n =>
    rw [getLast?_eq_getElem?, hl]
    simp
    rw [getElem?_append_left (by omega)]

theorem isWholeWord_append (l w r : Text) :
    (l ++ w ++ r).isWholeWord ⟨l.length, l.length + w.length⟩ ↔ EndsWord l ∧ StartsApart r := by
  have hbefore : (l ++ w ++ r).before? l.length = l.getLast? := by
    rw [append_assoc]
    exact before?_append l (w ++ r)
  have hafter : (l ++ w ++ r)[l.length + w.length]? = r.head? := by
    rw [getElem?_append_right (by simp), length_append, Nat.sub_self]
    exact head?_eq_getElem?.symm
  unfold isWholeWord EndsWord StartsApart
  rw [hbefore, hafter]
  cases l.getLast? <;> cases r.head? <;> simp

/-- **The search for a word is exact**: it finds the offsets at which the word stands and no
identifier byte touches it. -/
theorem mem_findWord (hw : w.IsWord) :
    i ∈ t.findWord w ↔ ∃ l r, t = l ++ w ++ r ∧ l.length = i ∧ EndsWord l ∧ StartsApart r := by
  unfold findWord
  rw [mem_filter]
  constructor
  · rintro ⟨hocc, hwhole⟩
    obtain ⟨-, r, hr⟩ := isPrefixOf_of_mem_occurrencesFrom hw.1 hocc
    rw [Nat.sub_zero] at hr
    have hlen : (t.take i).length = i := by
      rw [length_take]
      have hdrop := congrArg length hr
      have hpos := length_pos_iff.mpr hw.1
      simp at hdrop
      omega
    have ht : t = t.take i ++ w ++ r := by
      rw [append_assoc, hr, take_append_drop]
    refine ⟨t.take i, r, ht, hlen, ?_⟩
    rw [ht] at hwhole
    have := isWholeWord_append (t.take i) w r
    rw [hlen] at this
    exact this.mp hwhole
  · rintro ⟨l, r, rfl, rfl, hl, hr⟩
    refine ⟨?_, (isWholeWord_append l w r).mpr ⟨hl, hr⟩⟩
    have := mem_occurrencesFrom hw l r 0 0 (by simp) hl (fun _ => rfl)
    rwa [Nat.zero_add] at this

theorem pairwise_occurrencesFrom (hne : w ≠ []) (i skip : Nat) :
    (occurrencesFrom w i skip t).Pairwise (· < ·) := by
  have hw : w.isEmpty = false := by simpa using hne
  induction t generalizing i skip with
  | nil => simp [occurrencesFrom, hw]
  | cons b rest ih =>
    cases skip with
    | succ skip => exact ih (i + 1) skip
    | zero =>
      simp only [occurrencesFrom, hw, Bool.false_eq_true, if_false]
      split
      · refine pairwise_cons.mpr ⟨?_, ih (i + 1) _⟩
        intro j hj
        have := (isPrefixOf_of_mem_occurrencesFrom hne hj).1
        omega
      · exact ih (i + 1) 0

theorem pairwise_findWord (hne : w ≠ []) (t : Text) :
    (t.findWord w).Pairwise (· < ·) := (pairwise_occurrencesFrom hne 0 0).filter _

/-! The word before an offset. -/

/-- The word at the front of a text that is read backwards, behind blanks. -/
def wordBefore (left : Text) : Text := ((left.dropWhile isBlank).takeWhile isWordByte).reverse

/-- What a text that is read backwards holds behind its first word. -/
def beforeWord (left : Text) : Text := (left.dropWhile isBlank).dropWhile isWordByte

theorem previousWord_append (l r : Text) : (l ++ r).previousWord l.length =
      .ok (if (wordBefore l.reverse).isEmpty then none else some (wordBefore l.reverse)) := by
  unfold previousWord wordBefore
  rw [if_neg (by simp)]
  simp

theorem takeWhile_append_apart (hw : ∀ b ∈ w, isWordByte b) (ht : StartsApart t) :
    (w ++ t).takeWhile isWordByte = w := by
  rw [takeWhile_append_of_pos hw]
  cases t with
  | nil => simp
  | cons b t => simp [ht b rfl]

theorem dropWhile_append_apart (hw : ∀ b ∈ w, isWordByte b) (ht : StartsApart t) :
    (w ++ t).dropWhile isWordByte = t := by
  rw [dropWhile_append_of_all (all_eq_true.mpr hw)]
  cases t with
  | nil => rfl
  | cons b t => simp [ht b rfl]

theorem wordBefore_of_append {l n z : Text} (hn : n.IsWord) (hz : z.all isBlank) (hl : EndsWord l) :
    leadingBlanks (l ++ n ++ z).reverse = z.length ∧ wordBefore (l ++ n ++ z).reverse = n ∧
      beforeWord (l ++ n ++ z).reverse = l.reverse := by
  have hrev : (l ++ n ++ z).reverse = z.reverse ++ (n.reverse ++ l.reverse) := by simp
  have hapart : StartsApart l.reverse := by
    intro b hb
    rw [head?_reverse] at hb
    exact hl b hb
  have hword : ∀ b ∈ n.reverse, isWordByte b := fun b hb => hn.2 b (mem_reverse.mp hb)
  obtain ⟨b, w, hb⟩ := exists_cons_of_ne_nil (reverse_ne_nil_iff.mpr hn.1)
  have hblank : isBlank b = false := isBlank_of_isWordByte (hword b (by simp [hb]))
  have hdrop : (z.reverse ++ (n.reverse ++ l.reverse)).dropWhile isBlank = n.reverse ++ l.reverse := by
    rw [dropWhile_append_of_all (by simpa using hz), hb]
    simp [hblank]
  refine ⟨?_, ?_, ?_⟩
  · rw [hrev]
    unfold leadingBlanks
    rw [takeWhile_append_of_pos (by simpa using hz), hb]
    simp [hblank]
  · rw [hrev]
    unfold wordBefore
    rw [hdrop, takeWhile_append_apart hword hapart, reverse_reverse]
  · rw [hrev]
    unfold beforeWord
    rw [hdrop, dropWhile_append_apart hword hapart]

theorem exists_wordBefore (l : Text) :
    ∃ z, l = (beforeWord l.reverse).reverse ++ wordBefore l.reverse ++ z ∧ z.all isBlank ∧
      EndsWord (beforeWord l.reverse).reverse := by
  refine ⟨(l.reverse.takeWhile isBlank).reverse, ?_, ?_, ?_⟩
  · have hblank := takeWhile_append_dropWhile (p := isBlank) (l := l.reverse)
    have hword := takeWhile_append_dropWhile (p := isWordByte) (l := l.reverse.dropWhile isBlank)
    apply reverse_inj.mp
    unfold wordBefore beforeWord
    simp only [reverse_append, reverse_reverse]
    rw [hword, hblank]
  · simp
  · intro b hb
    rw [getLast?_reverse] at hb
    exact startsApart_dropWhile _ b hb

theorem wordBefore_eq (h : ¬ t.all isBlank) :
    wordBefore t.reverse = (t.strip.reverse.takeWhile isWordByte).reverse ∧
      (beforeWord t.reverse).reverse = t.takeWhile isBlank ++
        (t.strip.reverse.dropWhile isWordByte).reverse := by
  obtain ⟨ht, -, hne⟩ := eq_strip_append h
  obtain ⟨b, s, hs⟩ := exists_cons_of_ne_nil (reverse_ne_nil_iff.mpr hne)
  have hb : isBlank b = false := by
    unfold strip stripEnd at hs
    rw [reverse_reverse] at hs
    exact not_of_mem_head?_dropWhile (by rw [hs]; rfl)
  have hrev : t.reverse = t.blankTail.reverse ++ (t.strip.reverse ++ (t.takeWhile isBlank).reverse) := by
    conv => lhs; rw [ht]
    simp
  have hdrop : t.reverse.dropWhile isBlank = t.strip.reverse ++ (t.takeWhile isBlank).reverse := by
    rw [hrev, dropWhile_append_of_all (by simpa using all_blankTail t), hs, cons_append,
      dropWhile_cons_of_neg (by simp [hb])]
  have hblanks : ∀ c ∈ (t.takeWhile isBlank).reverse, isWordByte c = false := fun c hc =>
    isWordByte_of_isBlank (mem_takeWhile_imp (mem_reverse.mp hc))
  unfold wordBefore beforeWord
  rw [hdrop]
  generalize hy : (t.takeWhile isBlank).reverse = y at hblanks
  have hy' : t.takeWhile isBlank = y.reverse := by rw [← hy, reverse_reverse]
  rw [hy']
  cases y with
  | nil => simp
  | cons c y =>
    have hc := hblanks c (by simp)
    rw [takeWhile_append_cons hc, dropWhile_append_cons hc]
    simp

/-! Words between white space. -/

open Unicode (isWhiteSpace)

theorem charWords_eq (cs : List Char) : charWords cs = (cs.splitOnP isWhiteSpace).filter (!·.isEmpty) := by
  induction cs with
  | nil => simp [charWords]
  | cons c rest ih =>
    rw [charWords, ih, splitOnP_cons_eq_if_modifyHead]
    by_cases hc : isWhiteSpace c
    · simp [hc]
    · rw [if_neg hc, if_neg hc]
      cases rest with
      | nil => simp
      | cons d rest =>
        rw [splitOnP_cons_eq_if_modifyHead]
        by_cases hd : isWhiteSpace d
        · simp [hd]
        · obtain ⟨w, ws, hw⟩ := exists_cons_of_ne_nil (splitOnP_ne_nil isWhiteSpace rest)
          simp [hd, hw]

theorem words_of_none (hcode : t.IsCode) (hne : t ≠ []) (h : ∀ b ∈ t, isBlank b = false) : t.words = [t] := by
  have hspace : ∀ c ∈ t.map charOf, isWhiteSpace c = false := by
    intro c hc
    obtain ⟨b, hb, rfl⟩ := mem_map.mp hc
    rw [isWhiteSpace_charOf (hcode b hb).1 (hcode b hb).2, h b hb]
  unfold words
  rw [chars_of_isAscii hcode.isAscii, charWords_eq, splitOnP_eq_singleton hspace]
  simp [hne, ofChars_map_charOf hcode.isAscii]

theorem charWords_append_cons (hc : isWhiteSpace c) (s t : List Char) :
    charWords (s ++ c :: t) = charWords s ++ charWords t := by
  rw [charWords_eq, charWords_eq, charWords_eq, splitOnP_append_cons _ _ hc, filter_append]

theorem mem_charWords {cs : List Char} (hc : c ∈ cs) (hwhite : isWhiteSpace c = false) :
    ∃ w ∈ charWords cs, c ∈ w := by
  rw [← mem_flatten, flatten_charWords]
  exact mem_filter.mpr ⟨hc, by rw [hwhite]; rfl⟩

theorem words_ne_nil (hcode : t.IsCode) (h : ¬ t.all isBlank) : t.words ≠ [] := by
  obtain ⟨b, hb, hblank⟩ : ∃ b ∈ t, isBlank b = false := by simpa using h
  unfold words
  rw [chars_of_isAscii hcode.isAscii, ne_eq, map_eq_nil_iff]
  obtain ⟨w, hw, -⟩ :=
    mem_charWords (mem_map_of_mem hb)
    ((isWhiteSpace_charOf (hcode b hb).1 (hcode b hb).2).trans hblank)
  exact ne_nil_of_mem hw

theorem words_append_cons (hb : isBlank b) {s : Text} (hcode : (s ++ b :: t).IsCode) :
    words (s ++ b :: t) = words s ++ words t := by
  have hs : s.IsCode := hcode.sublist (sublist_append_left _ _)
  have ht : t.IsCode := fun c hc => hcode c (by simp [hc])
  have hspace : isWhiteSpace (charOf b) := by
    rw [isWhiteSpace_charOf (hcode b (by simp)).1 (hcode b (by simp)).2, hb]
  unfold words
  rw [chars_of_isAscii hcode.isAscii, chars_of_isAscii hs.isAscii, chars_of_isAscii ht.isAscii,
    map_append, map_cons, charWords_append_cons hspace, map_append]

/-- Words joined by a space are an identifier only if there is one of them. -/
theorem isIdentifier_of_unwords (hcode : t.IsCode) (hstrip : t.strip = t)
    (h : (unwords t.words).isIdentifier) : t.isIdentifier := by
  by_cases hblank : ∃ b ∈ t, isBlank b
  · -- A blank inside separates two words, and the space between them is in no identifier.
    exfalso
    obtain ⟨b, hb, hblank⟩ := hblank
    obtain ⟨x, y, rfl⟩ := append_of_mem hb
    have hx : ¬ x.all isBlank := by
      intro hall
      have hsame := strip_surround (a := x ++ [b]) (z := []) (by simp_all) y rfl
      have hlen := (strip_sublist y).length_le
      rw [← hsame, append_nil, append_assoc, singleton_append, hstrip] at hlen
      simp only [length_append, length_cons] at hlen
      omega
    have hy : ¬ y.all isBlank := by
      intro hall
      have hsame := strip_surround (a := []) (z := b :: y) rfl x (by simp_all)
      have hlen := (strip_sublist x).length_le
      rw [← hsame, nil_append, hstrip] at hlen
      simp only [length_append, length_cons] at hlen
      omega
    have hwords := words_append_cons hblank hcode
    obtain ⟨u, us, hu⟩ := exists_cons_of_ne_nil
      (words_ne_nil (hcode.sublist (sublist_append_left _ _)) hx)
    obtain ⟨v, vs, hv⟩ := exists_cons_of_ne_nil
      (words_ne_nil (fun c hc => hcode c (by simp [hc])) hy)
    have hspace : 32 ∈ unwords (words (x ++ b :: y)) := by
      rw [hwords, hu, hv, unwords, cons_append]
      cases us <;> simp [intercalate, intersperse]
    exact absurd ((isWordByte_of_isIdentifier h).2 32 hspace) (by decide)
  · have hnone : ∀ b ∈ t, isBlank b = false := by
      intro b hb
      cases hcase : isBlank b with
      | false => rfl
      | true => exact absurd ⟨b, hb, hcase⟩ hblank
    by_cases hne : t = []
    · subst hne
      exact h
    · rw [words_of_none hcode hne hnone] at h
      simpa [unwords, intercalate] using h

/-! The words of a text as its runs of identifier bytes. -/

/-- The runs of identifier bytes of a text. -/
def runs (t : Text) : List Text := (t.splitOnP fun b => !isWordByte b).filter (!·.isEmpty)

@[simp] theorem runs_nil : runs [] = [] := by simp [runs]

theorem runs_append_cons (hb : isWordByte b = false) (s t : Text) :
    runs (s ++ b :: t) = runs s ++ runs t := by
  unfold runs
  rw [splitOnP_append_cons _ _ (by simp [hb]), filter_append]

theorem runs_cons (hb : isWordByte b = false) (t : Text) : runs (b :: t) = runs t :=
  runs_append_cons hb [] t

theorem runs_of_isWord (hw : w.IsWord) : runs w = [w] := by
  unfold runs
  rw [splitOnP_eq_singleton fun b hb => by simp [hw.2 b hb]]
  simp [hw.1]

theorem runs_append_blanks (t : Text) {z : Text} (hz : z.all isBlank) : runs (t ++ z) = runs t := by
  induction z generalizing t with
  | nil => rw [append_nil]
  | cons b z ih =>
    rw [all_cons, Bool.and_eq_true] at hz
    rw [runs_append_cons (isWordByte_of_isBlank hz.1), ← nil_append z, ih [] hz.2, runs_nil, append_nil]

theorem mem_runs_append {r : Text} (hw : w.IsWord) (hl : EndsWord l) (hr : StartsApart r) :
    w ∈ runs (l ++ w ++ r) := by
  have htail : w ∈ runs (w ++ r) := by
    cases r with
    | nil => simp [runs_of_isWord hw]
    | cons b r => simp [runs_append_cons (hr b rfl), runs_of_isWord hw]
  rcases eq_nil_or_concat l with rfl | ⟨l, b, rfl⟩
  · simpa using htail
  · rw [concat_eq_append, append_assoc, append_assoc, singleton_append, runs_append_cons (hl b (by simp))]
    exact mem_append_right _ htail

theorem endsWord_append_cons (hb : isWordByte b = false) (hl : EndsWord l)
    (s : Text) : EndsWord (s ++ b :: l) := by
  intro c hc
  rw [getLast?_append, getLast?_cons] at hc
  cases hlast : l.getLast? with
  | none =>
    simp [hlast] at hc
    rwa [← hc]
  | some d =>
    simp [hlast] at hc
    rw [← hc]
    exact hl d hlast

theorem exists_of_mem_runs :
    ∀ {t : Text}, w ∈ runs t → ∃ l r, t = l ++ w ++ r ∧ EndsWord l ∧ StartsApart r := by
  intro t hmem
  induction hn : t.length using Nat.strongRecOn generalizing t with
  | ind n ih =>
    have hsplit := takeWhile_append_dropWhile (p := isWordByte) (l := t)
    have hfirst : ∀ r, t = t.takeWhile isWordByte ++ r → StartsApart r → w ∈ runs (t.takeWhile isWordByte) →
        ∃ l r, t = l ++ w ++ r ∧ EndsWord l ∧ StartsApart r := by
      intro r ht hr hrun
      have hne : t.takeWhile isWordByte ≠ [] := by
        intro hnil
        rw [hnil] at hrun
        simp at hrun
      have hall := all_eq_true.mp (all_takeWhile (p := isWordByte) (l := t))
      rw [runs_of_isWord ⟨hne, hall⟩, mem_singleton] at hrun
      exact ⟨[], r, by rw [hrun]; simpa using ht, by simp [EndsWord], hr⟩
    by_cases hall : t.all isWordByte
    · have hself := takeWhile_eq_self_iff.mpr (all_eq_true.mp hall)
      exact hfirst [] (by rw [append_nil, hself]) (by simp [StartsApart]) (by rwa [hself])
    · obtain ⟨b, rest, hsplit, hb⟩ := exists_leading hall
      rw [hsplit, runs_append_cons hb, mem_append] at hmem
      rcases hmem with hmem | hmem
      · exact hfirst (b :: rest) hsplit (by simpa [StartsApart] using hb) hmem
      · have hlt : rest.length < n := by
          have := congrArg length hsplit
          simp at this
          omega
        obtain ⟨l, r, hrest, hl, hr⟩ := ih rest.length hlt hmem rfl
        refine ⟨t.takeWhile isWordByte ++ b :: l, r, ?_, endsWord_append_cons hb hl _, hr⟩
        conv => lhs; rw [hsplit, hrest]
        simp

theorem containsWord_iff_mem_runs (hw : w.IsWord) : t.containsWord w ↔ w ∈ t.runs := by
  unfold containsWord
  rw [Bool.not_eq_true', isEmpty_eq_false_iff_exists_mem]
  constructor
  · rintro ⟨i, hi⟩
    obtain ⟨l, r, rfl, -, hl, hr⟩ := (mem_findWord hw).mp hi
    exact mem_runs_append hw hl hr
  · intro hmem
    obtain ⟨l, r, ht, hl, hr⟩ := exists_of_mem_runs hmem
    exact ⟨l.length, (mem_findWord hw).mpr ⟨l, r, ht, rfl, hl, hr⟩⟩

end GlslToMetal.Text
