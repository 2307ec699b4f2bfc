import GlslToMetal.Proofs.Call
import GlslToMetal.Proofs.Text.Patching
import GlslToMetal.Proofs.Text.Spelling
import GlslToMetal.Proofs.Text.Stretches

/-! Words replaced by words. Edits that replace whole words by words leave everything between them, so
the parentheses of the edited text are those of the text: the same arguments stand behind them, and the
words before them are the same or replaced. -/

namespace GlslToMetal

open List Text

variable {e : Edit} {a s t w : Text}

namespace Text

theorem not_startsApart (hw : w.IsWord) (t : Text) : ¬ StartsApart (w ++ t) := by
  obtain ⟨b, w, rfl⟩ := exists_cons_of_ne_nil hw.1
  exact fun h => by simpa [hw.2 b mem_cons_self] using h b rfl

end Text

namespace Edit

/-- An identifier for an identifier. -/
def Swaps (w w' : Text) : Prop := w.isIdentifier ∧ w'.isIdentifier

/-- The edits keep the word at offset `i`, or put an identifier in its place. -/
def Puts (i : Nat) (w : Text) (es : List Edit) (w' : Text) : Prop :=
  w.IsWord ∧ (es = [] ∧ w' = w ∨ es = [⟨⟨i, i + w.length⟩, w'⟩] ∧ Swaps w w')

theorem puts_kept {i : Nat} (hw : w.IsWord) : Puts i w [] w := ⟨hw, .inl ⟨rfl, rfl⟩⟩

theorem puts_swap {i : Nat} {w' : Text} (h : Swaps w w') : Puts i w [⟨⟨i, i + w.length⟩, w'⟩] w' :=
  ⟨isWordByte_of_isIdentifier h.1, .inr ⟨rfl, h⟩⟩

theorem Puts.isWord {i : Nat} {es : List Edit} {w' : Text} (h : Puts i w es w') : w'.IsWord := by
  obtain ⟨hw, ⟨-, rfl⟩ | ⟨-, hswaps⟩⟩ := h
  · exact hw
  · exact isWordByte_of_isIdentifier hswaps.2

/-- The edits, which stand one behind another in the text that begins at offset `i`, replace words of it
by words and make the second text of the first. -/
inductive Replaces : Nat → Text → List Edit → Text → Prop where
  | nil (i : Nat) : Replaces i [] [] []
  | apart {i : Nat} {b : UInt8} {t t' : Text} {es : List Edit} : isWordByte b = false →
    Replaces (i + 1) t es t' →
      Replaces i (b :: t) es (b :: t')
  | word {i : Nat} {w w' t t' : Text} {es fs : List Edit} : Puts i w es w' → StartsApart t →
      Replaces (i + w.length) t fs t' → Replaces i (w ++ t) (es ++ fs) (w' ++ t')

namespace Replaces

variable {i : Nat} {t t' : Text} {es : List Edit}

theorem splices (h : Replaces i t es t') : Splices i t es t' := by
  induction h with
  | nil i => exact .keep i []
  | @apart i b _ _ _ _ _ ih => exact ih.prepend [b]
  | word hputs _ _ ih =>
    obtain ⟨hw, ⟨rfl, rfl⟩ | ⟨rfl, -⟩⟩ := hputs
    · exact ih.prepend _
    · exact @Splices.edit _ [] _ _ _ _ _ hw.1 ih

theorem respelled {R : Text → Text → Prop} (h : Replaces i t es t')
    (hR : ∀ e ∈ es, ∀ w, Swaps w e.replacement → R w e.replacement) : Spelled R t t' := by
  induction h with
  | nil => exact .nil
  | apart hb _ ih => exact .apart hb (ih hR)
  | word hputs hapart _ ih =>
    refine .word hputs.1 hputs.isWord ?_ hapart (ih fun e he => hR e (mem_append_right _ he))
    obtain ⟨-, ⟨-, rfl⟩ | ⟨rfl, hswaps⟩⟩ := hputs
    · exact .inl rfl
    · exact .inr (hR _ mem_cons_self _ hswaps)

theorem spelled (h : Replaces i t es t') : Spelled Swaps t t' := h.respelled fun _ _ _ => id

theorem append {s' : Text} {fs : List Edit} (h : Replaces i t es t') (hs : Replaces (i + t.length) s fs s')
    (hseam : EndsWord t ∨ StartsApart s) : Replaces i (t ++ s) (es ++ fs) (t' ++ s') := by
  have hextend : ∀ {w u : Text}, w.IsWord → StartsApart u → EndsWord (w ++ u) ∨ StartsApart s →
      StartsApart (u ++ s) := by
    intro w u hw hu hseam
    cases u with
    | cons b u => exact hu
    | nil =>
      refine hseam.resolve_left fun hends => ?_
      obtain ⟨b, hb⟩ := Option.ne_none_iff_exists'.1 (mt getLast?_eq_none_iff.1 hw.1)
      rw [append_nil] at hends
      simpa [hw.2 b (mem_of_getLast? hb)] using hends b hb
  have hshorten : ∀ {w u : Text}, EndsWord (w ++ u) ∨ StartsApart s → EndsWord u ∨ StartsApart s :=
    fun hseam =>
    hseam.imp_left EndsWord.of_append
  induction h with
  | nil i => exact hs
  | @apart i b t t' es hb _ ih =>
    have hlength : i + (b :: t).length = i + 1 + t.length := by rw [length_cons]; omega
    exact .apart hb (ih (hlength ▸ hs) (hshorten (w := [b]) hseam))
  | @word i w w' t t' es fs hputs hapart _ ih =>
    have hlength : i + (w ++ t).length = i + w.length + t.length := by simp [Nat.add_assoc]
    rw [append_assoc, append_assoc, append_assoc]
    exact .word hputs (hextend hputs.1 hapart hseam) (ih (hlength ▸ hs) (hshorten hseam))

/-- Replaced words can be cut at a byte that is no identifier byte. -/
theorem exists_of_append_cons {c : UInt8} (h : Replaces i (a ++ c :: t) es s) (hc : isWordByte c = false) :
    ∃ es₁ es₂ a' t', es = es₁ ++ es₂ ∧ s = a' ++ c :: t' ∧ Replaces i a es₁ a' ∧
      Replaces (i + a.length + 1) t es₂ t' := by
  generalize hx : a ++ c :: t = x at h
  induction h generalizing a with
  | nil => simp at hx
  | @apart i b u u' es hb hu ih =>
    cases a with
    | nil =>
      obtain ⟨rfl, rfl⟩ := cons.inj hx
      exact ⟨[], es, [], u', rfl, rfl, .nil i, hu⟩
    | cons d a =>
      obtain ⟨rfl, htail⟩ := cons.inj hx
      obtain ⟨es₁, es₂, a', t', rfl, rfl, ha, ht⟩ := ih htail
      have hlength : i + (d :: a).length + 1 = i + 1 + a.length + 1 := by rw [length_cons]; omega
      exact ⟨es₁, es₂, d :: a', t', rfl, rfl, .apart hb ha, hlength ▸ ht⟩
  | @word i w w' u u' es fs hputs hapart _ ih =>
    -- the byte is none of the word's, so the word lies before it
    obtain ⟨a₂, rfl, hu⟩ := hputs.1.exists_of_append_cons hc hx
    obtain ⟨es₁, es₂, a', t', rfl, rfl, ha, ht⟩ := ih hu
    have hlength : i + (w ++ a₂).length + 1 = i + w.length + a₂.length + 1 := by simp [Nat.add_assoc]
    rw [← hu] at hapart
    exact ⟨es ++ es₁, es₂, w' ++ a', t', by simp, by simp, .word hputs hapart.of_append ha, hlength ▸ ht⟩

theorem eq_nil (h : Replaces i [] es t') : es = [] ∧ t' = [] := by
  generalize hx : ([] : Text) = x at h
  cases h with
  | nil => exact ⟨rfl, rfl⟩
  | apart => cases hx
  | word hputs => exact absurd (append_eq_nil_iff.1 hx.symm).1 hputs.1.1

theorem of_isWord (h : Replaces i w es t') (hw : w.IsWord) : Puts i w es t' := by
  cases h with
  | nil => exact absurd rfl hw.1
  | @apart _ b t t' _ hb => exact absurd (hw.2 b mem_cons_self) (by simp [hb])
  | @word _ v v' t t' es fs hputs hapart ht =>
    cases t with
    | nil =>
      obtain ⟨rfl, rfl⟩ := ht.eq_nil
      simpa using hputs
    | cons b t => exact absurd (hw.2 b (by simp)) (by simp [hapart b rfl])

theorem exists_of_append_blanks {z : Text} (h : Replaces i (a ++ z) es t') (hz : z.all isBlank) :
    ∃ a', t' = a' ++ z ∧ Replaces i a es a' := by
  induction z using reverseRecOn generalizing t' es with
  | nil => exact ⟨t', by simp, by simpa using h⟩
  | append_singleton z b ih =>
    rw [all_append, Bool.and_eq_true] at hz
    have hb : isBlank b := by simpa using hz.2
    rw [← append_assoc] at h
    obtain ⟨es₁, es₂, u, v, rfl, rfl, hu, hv⟩ := h.exists_of_append_cons (isWordByte_of_isBlank hb)
    obtain ⟨rfl, rfl⟩ := hv.eq_nil
    obtain ⟨a', rfl, ha⟩ := ih hu hz.1
    exact ⟨a', by simp, by simpa using ha⟩

/-- A word at the end is kept or replaced, and what stands before it is edited on its own. -/
theorem exists_of_append_word (h : Replaces i (a ++ w) es t') (ha : EndsWord a) (hw : w.IsWord) :
    ∃ es₁ es₂ a' w', es = es₁ ++ es₂ ∧ t' = a' ++ w' ∧ Replaces i a es₁ a' ∧ a'.getLast? = a.getLast? ∧
      Puts (i + a.length) w es₂ w' := by
  rcases eq_nil_or_concat a with rfl | ⟨a, c, rfl⟩
  · exact ⟨[], es, [], t', rfl, rfl, .nil i, rfl, h.of_isWord hw⟩
  · have hc : isWordByte c = false := ha c (by simp)
    rw [concat_eq_append] at h ⊢
    rw [append_assoc] at h
    obtain ⟨es₁, es₂, a', w', rfl, rfl, ha', hw'⟩ := h.exists_of_append_cons hc
    have hfront : Replaces i (a ++ [c]) es₁ (a' ++ [c]) := by
      simpa using ha'.append (.apart hc (.nil _)) (.inr fun b hb => by simpa [← Option.some.inj hb] using hc)
    refine ⟨es₁, es₂, a' ++ [c], w', rfl, by simp, hfront, by simp, ?_⟩
    have hlength : i + (a ++ [c]).length = i + a.length + 1 := by simp [Nat.add_assoc]
    rw [hlength]
    exact hw'.of_isWord hw

/-- **What is called before a parenthesis.** Nothing before and nothing behind, or a name that is kept
or replaced. -/
theorem named? {l l' : Text} (h : Replaces 0 l es l') :
    Text.named? l.reverse = none ∧ Text.named? l'.reverse = none ∨
      ∃ n n', Text.named? l.reverse = some n ∧ Text.named? l'.reverse = some n' ∧
        (n' = n ∧ (∀ e ∈ es, e.range ≠ (Call.named n l.reverse l.length).nameRange) ∨
          ⟨(Call.named n l.reverse l.length).nameRange, n'⟩ ∈ es) := by
  obtain ⟨z, hl, hz, hends⟩ := exists_wordBefore l
  by_cases hword : wordBefore l.reverse = []
  · -- Neither text ends in a word.
    refine .inl ⟨by simp [Text.named?, hword], ?_⟩
    have hword' : wordBefore l'.reverse = [] := by
      rw [hword, append_nil] at hl
      rw [hl] at h
      obtain ⟨a', rfl, ha⟩ := h.exists_of_append_blanks hz
      rcases eq_nil_or_endsSolid hword with hnil | ⟨c, hc, hblank⟩
      · rw [hnil] at ha
        rw [ha.eq_nil.2]
        exact wordBefore_of_blanks hz
      · obtain ⟨x, hx⟩ : ∃ x, (beforeWord l.reverse).reverse = x ++ [c] :=
          ⟨_, (dropLast_append_getLast? c hc).symm⟩
        rw [hx] at ha
        obtain ⟨_, _, x', u, -, rfl, -, hu⟩ := ha.exists_of_append_cons (hends c hc)
        obtain rfl := hu.eq_nil.2
        exact wordBefore_of_endsSolid ⟨c, by simp, hblank⟩ (fun b hb =>
          by simp at hb; exact hb ▸ hends c hc) hz
    simp [Text.named?, hword']
  · have hisWord : IsWord (wordBefore l.reverse) := by
      refine ⟨hword, fun b hb => ?_⟩
      exact mem_takeWhile_imp (mem_reverse.1 hb)
    generalize wordBefore l.reverse = n at *
    generalize (beforeWord l.reverse).reverse = a at *
    subst hl
    obtain ⟨l', rfl, hfront⟩ := h.exists_of_append_blanks hz
    obtain ⟨es₁, es₂, a', n', rfl, rfl, ha, hlast, hn⟩ := hfront.exists_of_append_word hends hisWord
    have hisWord' := hn.isWord
    have hends' : EndsWord a' := fun b hb => hends b (hlast ▸ hb)
    obtain ⟨-, hword, hbefore⟩ := wordBefore_of_append hisWord hz hends
    obtain ⟨-, hword', hbefore'⟩ := wordBefore_of_append hisWord' hz hends'
    by_cases hdot : a.getLast? = some 46
    · refine .inl ⟨?_, ?_⟩
      · rw [Text.named?, hbefore, head?_reverse, hdot]
        simp
      · rw [Text.named?, hbefore', head?_reverse, hlast, hdot]
        simp
    · refine .inr ⟨n, n', ?_, ?_, ?_⟩
      · exact named?_eq_some.2 ⟨hisWord.1, hword, by rwa [hbefore, head?_reverse]⟩
      · exact named?_eq_some.2 ⟨hisWord'.1, hword', by rwa [hbefore', head?_reverse, hlast]⟩
      · rw [Call.named_append hisWord hz hends]
        obtain ⟨-, ⟨rfl, rfl⟩ | ⟨rfl, -⟩⟩ := hn
        · refine .inl ⟨rfl, fun e he heq => ?_⟩
          rw [append_nil] at he
          have hbounds := (ha.splices.bounds e he).2
          have hpos := length_pos_iff.2 hisWord.1
          rw [heq] at hbounds
          dsimp only at hbounds
          omega
        · exact .inr (mem_append_right _ (by simp))

end Replaces

/-- The edit puts an identifier for an identifier that stands in the text as a whole word. -/
def SwapsWord (m : Text) (e : Edit) : Prop :=
  ∃ l w r, m = l ++ w ++ r ∧ EndsWord l ∧ StartsApart r ∧
    e.range = ⟨l.length, l.length + w.length⟩ ∧ Swaps w e.replacement

/-- A word that is replaced begins where a word begins, and ends where it ends. -/
theorem SwapsWord.eq_or_le {r : Text} (h : e.SwapsWord (a ++ (w ++ r))) (hw : w.IsWord)
    (hr : StartsApart r) (hle : a.length ≤ e.range.start) :
    e.range = ⟨a.length, a.length + w.length⟩ ∧ Swaps w e.replacement ∨
      a.length + w.length ≤ e.range.start := by
  obtain ⟨l, v, u, hm, hl, hu, hrange, hswaps⟩ := h
  rw [hrange] at hle ⊢
  dsimp only at hle ⊢
  have hv := isWordByte_of_isIdentifier hswaps.1
  rw [append_assoc] at hm
  obtain ⟨x, rfl, hx⟩ := exists_of_append_eq hm.symm hle
  by_cases hnil : x = []
  · subst hnil
    have hword : w = v := by
      rw [← takeWhile_append_apart hw.2 hr, hx, nil_append, takeWhile_append_apart hv.2 hu]
    subst hword
    exact .inl ⟨by simp, hswaps⟩
  · refine .inr ?_
    by_contra hlt
    obtain ⟨y, hy, -⟩ := exists_of_append_eq hx (by simp at hlt; omega)
    obtain ⟨b, hb⟩ := Option.ne_none_iff_exists'.1 (mt getLast?_eq_none_iff.1 hnil)
    have hapart := hl b (by rw [getLast?_append, hb]; rfl)
    rw [hw.2 b (hy ▸ mem_append_left y (mem_of_getLast? hb))] at hapart
    cases hapart

theorem SwapsWord.ne_start (h : e.SwapsWord (a ++ t)) (ht : StartsApart t) : e.range.start ≠ a.length := by
  obtain ⟨l, v, u, hm, -, -, hrange, hswaps⟩ := h
  rw [hrange]
  intro hlength
  rw [append_assoc] at hm
  obtain ⟨-, rfl⟩ := append_inj hm hlength.symm
  exact not_startsApart (isWordByte_of_isIdentifier hswaps.1) u ht

/-- **Edits that put words for words, in order, replace them.** -/
theorem exists_replaces {m : Text} {es : List Edit} (hes : ∀ e ∈ es, e.SwapsWord m)
    (hpairwise : es.Pairwise (·.range.start < ·.range.start)) : ∃ m', Replaces 0 m es m' := by
  suffices hfrom : ∀ (n : Nat) (a t : Text) (es : List Edit), t.length = n → m = a ++ t →
      (∀ e ∈ es, e.SwapsWord m ∧ a.length ≤ e.range.start) → es.Pairwise (·.range.start < ·.range.start) →
      ∃ t', Replaces a.length t es t' from
    hfrom _ [] m es rfl rfl (fun e he => ⟨hes e he, Nat.zero_le _⟩) hpairwise
  intro n
  induction n using Nat.strong_induction_on with
  | _ n ih =>
    rintro a t es rfl rfl hes hpairwise
    cases t with
    | nil =>
      cases es with
      | nil => exact ⟨[], .nil _⟩
      | cons e es =>
        obtain ⟨⟨l, v, u, hm, -, -, hrange, hswaps⟩, hle⟩ := hes e mem_cons_self
        have hlength := congrArg length hm
        have hpos := length_pos_iff.2 (isWordByte_of_isIdentifier hswaps.1).1
        simp [hrange] at hlength hle
        omega
    | cons b t =>
      by_cases hb : isWordByte b
      · -- The whole word is kept or replaced.
        obtain ⟨w, r, hword, hw, hr⟩ : ∃ w r : Text, b :: t = w ++ r ∧ w.IsWord ∧ StartsApart r := by
          refine ⟨_, _, (takeWhile_append_dropWhile (p := isWordByte)).symm,
            ⟨by simp [hb], fun c hc => mem_takeWhile_imp hc⟩, startsApart_dropWhile _⟩
        rw [hword] at hes ih ⊢
        have hpos := length_pos_iff.2 hw.1
        have hcases := fun e he => (hes e he).1.eq_or_le hw hr (hes e he).2
        have hrest : ∀ {fs : List Edit}, fs <+ es → (∀ f ∈ fs, a.length + w.length ≤ f.range.start) →
            ∃ r', Replaces (a.length + w.length) r fs r' := by
          intro fs hsub hle
          rw [← length_append] at hle ⊢
          exact ih r.length (by simp; omega) (a ++ w) r fs rfl (by simp)
            (fun f hf => ⟨(hes f (hsub.subset hf)).1, hle f hf⟩) (hpairwise.sublist hsub)
        cases es with
        | nil =>
          obtain ⟨r', hr'⟩ := hrest (.refl []) nofun
          exact ⟨w ++ r', .word (puts_kept hw) hr hr'⟩
        | cons e es =>
          have hlater := (pairwise_cons.1 hpairwise).1
          rcases hcases e mem_cons_self with ⟨hrange, hswaps⟩ | hle
          · obtain ⟨r', hr'⟩ := hrest (sublist_cons_self e es) fun f hf =>
              (hcases f (mem_cons_of_mem _ hf)).resolve_left fun h => by
                have hlt := hlater f hf
                rw [h.1, hrange] at hlt
                exact Nat.lt_irrefl _ hlt
            obtain ⟨range, new⟩ := e
            dsimp only at hrange hswaps
            exact ⟨new ++ r', hrange ▸ .word (puts_swap hswaps) hr hr'⟩
          · obtain ⟨r', hr'⟩ := hrest (.refl _)
              (forall_mem_cons.2 ⟨hle, fun f hf => Nat.le_trans hle (hlater f hf).le⟩)
            exact ⟨w ++ r', .word (puts_kept hw) hr hr'⟩
      · have hb : isWordByte b = false := by simpa using hb
        have happart : StartsApart (b :: t) := fun c hc => by simpa [← Option.some.inj hc] using hb
        obtain ⟨t', ht'⟩ := ih t.length (by simp) (a ++ [b]) t es rfl (by simp) (fun e he => by
          refine ⟨(hes e he).1, ?_⟩
          have hne := (hes e he).1.ne_start happart
          have hle := (hes e he).2
          simp
          omega) hpairwise
        exact ⟨b :: t', .apart hb (by simpa using ht')⟩

end Edit

namespace Text

theorem openings_append_word (hw : w.IsWord) (left t : Text) :
    openings left (w ++ t) = openings (w.reverse ++ left) t := by
  have hnone : openings left w = [] := eq_nil_iff_forall_not_mem.2 fun o ho => by
    obtain ⟨x, hx, -⟩ := mem_openings.1 ho
    exact hw.not_mem (b := 40) rfl (hx ▸ mem_append_right x mem_cons_self)
  rw [openings_append, hnone]
  rfl

end Text

/-- The parentheses of two texts stand alike: the edits before and behind them make the second of the
first. -/
def Edit.Meets (es : List Edit) (o o' : Text × Text) : Prop :=
  ∃ es₁ es₂, es = es₁ ++ es₂ ∧ Replaces 0 o.1.reverse es₁ o'.1.reverse ∧
    Replaces (o.1.length + 1) o.2 es₂ o'.2

/-- **A text and the text with its words replaced have the same parentheses.** -/
theorem Edit.Replaces.openings {i : Nat} {t t' : Text} {es : List Edit} (h : Replaces i t es t') :
    ∀ {k k' : Text} {fs : List Edit}, k.length = i → Replaces 0 k fs k' → EndsWord k ∨ StartsApart t →
      List.Forall₂ (Meets (fs ++ es)) (Text.openings k.reverse t) (Text.openings k'.reverse t') := by
  induction h with
  | nil i => exact fun _ _ _ => .nil
  | @apart i b t t' es hb h ih =>
    rintro k k' fs rfl hk hseam
    have hnext : Replaces 0 (k ++ [b]) fs (k' ++ [b]) := by
      simpa using hk.append (.apart hb (.nil _)) (.inr fun c hc => by simpa [← Option.some.inj hc] using hb)
    have ih := @ih (k ++ [b]) (k' ++ [b]) fs (by simp) hnext (.inl fun c hc => by simp at hc; exact hc ▸ hb)
    simp only [reverse_append, reverse_singleton, singleton_append] at ih
    rw [Text.openings, Text.openings]
    split
    · exact .cons ⟨fs, es, rfl, by simpa using hk, by simpa using h⟩ ih
    · exact ih
  | @word i w w' t t' es fs hputs hapart h ih =>
    rintro k k' gs rfl hk hseam
    have hends : EndsWord k := hseam.resolve_right (not_startsApart hputs.1 t)
    have hword : Puts (0 + k.length) w es w' := by rwa [Nat.zero_add]
    have hnext := hk.append (.word hword (fun b hb => by cases hb) (.nil _)) (.inl hends)
    simp only [append_nil] at hnext
    rw [openings_append_word hputs.1, openings_append_word hputs.isWord, ← reverse_append, ← reverse_append]
    have ih := ih (by simp) hnext (.inr hapart)
    simpa using ih

end GlslToMetal
