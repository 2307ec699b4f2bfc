import GlslToMetal.Proofs.Text.Splicing

/-! Edits found in a masked text and made in the text. What an edit replaces begins and ends in code, so
the edits cut the text where they cut its mask. If what they put in opens no comment, neither on its own
nor with a slash that stands beside it, the mask of the edited text is the edited mask. -/

namespace GlslToMetal

open List Text

theorem Text.exists_of_append_eq {α : Type} {a b x y : List α} (h : a ++ b = x ++ y)
    (hle : x.length ≤ a.length) :
    ∃ c, a = x ++ c ∧ y = c ++ b := by
  rcases append_eq_append_iff.1 h with ⟨c, rfl, rfl⟩ | ⟨c, ha, hy⟩
  · have hc : c = [] := by simpa using hle
    exact ⟨[], by simp [hc], by simp [hc]⟩
  · exact ⟨c, ha, hy⟩

namespace Edit

namespace Splices

variable {i : Nat} {t t' : Text} {es : List Edit}

theorem spliced (h : Splices i t es t') :
    ∀ {before : Text}, before.length = i → Edit.spliced (before ++ t) i es = t' := by
  induction h with
  | keep i t =>
    rintro before rfl
    exact drop_left
  | @edit i kept old new rest rest' es hne h ih =>
    rintro before rfl
    rw [spliced_append, @ih (before ++ kept ++ old) (by simp only [length_append])]

theorem apply_of_isBoundary {m m' : Text} (h : Splices 0 m es m')
    (hes : ∀ e ∈ es, m.isBoundary e.range.start ∧ m.isBoundary e.range.stop) {fs : List Edit}
    (hperm : fs.Perm es) :
    Edit.apply fs m = .ok m' := by
  have hcuts : ∀ e ∈ fs, e.Cuts m := by
    intro e he
    have hmem := hperm.mem_iff.mp he
    have hbounds := h.bounds e hmem
    rw [Nat.zero_add] at hbounds
    exact ⟨⟨Nat.le_of_lt hbounds.2.1, hbounds.2.2⟩, (hes e hmem).1, (hes e hmem).2⟩
  rw [apply_eq_spliced hcuts, ordered_eq hperm h.pairwise_start]
  exact congrArg Except.ok (@spliced _ _ _ _ h [] rfl)

end Splices

/-- The edit of a text is made in its mask as the second edit: what they replace begins and ends with
code, and what the one puts in is masked to what the other does. -/
structure Sits (m : Text) (e e' : Edit) : Prop where
  range_eq : e.range = e'.range
  stands : ∃ l w r, Stands m l w r e'.range
  ne_nil : e.replacement ≠ []
  masked : maskUpTo .code none e.replacement = (e'.replacement, .code)
  front : m.before? e'.range.start = some 47 → Harmless e.replacement.head?
  back : e'.replacement.getLast? = some 47 → m.before? e'.range.stop = some 47

theorem harmless_of_before? {t : Text} {i : Nat} (hi : i ≤ t.length)
    (h : t.mask.before? i = some 47) : Harmless t[i]? := by
  obtain ⟨s, u, rfl, rfl⟩ : ∃ s u, t = s ++ u ∧ s.length = i :=
    ⟨t.take i, t.drop i, (take_append_drop i t).symm, length_take_of_le hi⟩
  rw [before?_mask] at h
  rcases eq_nil_or_concat s with rfl | ⟨s, b, rfl⟩
  · cases h
  · rw [concat_eq_append, maskUpTo_concat, getLast?_append] at h
    rw [getElem?_append_right (Nat.le_refl _), Nat.sub_self, ← head?_eq_getElem?]
    exact harmless_of_maskByte (Option.some.inj h)

theorem Sits.inCode {t : Text} {e e' : Edit} {es es' : List Edit} (h : Sits t.mask e e')
    (hsits : List.Forall₂ (Sits t.mask) es es') (hascii : e.replacement.IsAscii) : e.InCode t es := by
  obtain ⟨hrange, ⟨l, w, r, hstands⟩, hne, hmasked, hfront, hback⟩ := h
  rw [← hrange] at hstands hfront hback
  refine ⟨hstands.within, hascii, hne, hstands.places.1, hstands.places.2,
    by rw [hmasked], hfront, fun hlast => ?_⟩
  have hslash := hback (by rwa [mask, ← maskUpTo_none, hmasked] at hlast)
  refine ⟨harmless_of_before? hstands.within.2 hslash, fun f hf hstart => ?_⟩
  obtain ⟨f', -, hsit⟩ := exists_of_mem_left hsits hf
  exact hsit.front (by rw [← hsit.range_eq, hstart, hslash])

/-- The edits of a text can be made in another one of its length. -/
theorem Splices.copy {i : Nat} {m m' t : Text} {es es' : List Edit} (h : Splices i m es' m')
    (ht : t.length = m.length)
    (hes : List.Forall₂ (fun e e' => e.range = e'.range ∧
      e.replacement.length = e'.replacement.length) es es') :
    ∃ t', Splices i t es t' ∧ t'.length = m'.length := by
  induction h generalizing t es with
  | keep i m =>
    cases hes
    exact ⟨t, .keep i t, ht⟩
  | @edit i kept old new rest rest' es' hne h ih =>
    obtain ⟨⟨range, put⟩, es, ⟨hrange, hput⟩, hlater, rfl⟩ := forall₂_cons_right_iff.1 hes
    obtain rfl : range = _ := hrange
    obtain ⟨k, o, r, rfl, hk, ho, hr⟩ := exists_parts ht
    obtain ⟨r', hr', hlength⟩ := @ih r es hr hlater
    refine ⟨k ++ put ++ r', ?_, by simp only [length_append, hk, hlength]; exact hput ▸ rfl⟩
    dsimp only
    rw [← hk, ← ho] at hr' ⊢
    exact .edit (by rwa [← length_pos_iff, ho, length_pos_iff]) hr'

theorem isBoundary_of_code {t : Text} {i : Nat} (hi : i ≤ t.length) (hplace : t.placeAt i = .code)
    (h : t.mask.isBoundary i) : t.isBoundary i := by
  have hdrop := mask_drop hi hplace
  unfold isBoundary at h ⊢
  rw [← hdrop] at h
  cases hrest : t.drop i with
  | nil =>
    rw [hrest, mask, maskFrom, length_mask] at h
    exact h
  | cons b rest =>
    rw [hrest, mask, maskFrom] at h
    have hbyte : (maskByte .code b rest.head?).1 = b ∨ b = 47 := by
      unfold maskByte
      grind
    rcases hbyte with hbyte | rfl
    · simpa [hbyte] using h
    · simp [isContinuation]

/-- **Edits that can be made in a text are made in it as in its mask.** -/
theorem Splices.apply_unmasked {t m' : Text} {es es' fs : List Edit} (h : Splices 0 t.mask es' m')
    (hsits : List.Forall₂ (Sits t.mask) es es') (hascii : ∀ e ∈ es, e.replacement.IsAscii)
    (hboundary : ∀ e ∈ es', t.mask.isBoundary e.range.start ∧ t.mask.isBoundary e.range.stop)
    (hperm : fs.Perm es) :
    ∃ t', Edit.apply fs t = .ok t' ∧ Splices 0 t es t' ∧ t'.mask = m' := by
  have hmasked : ∀ {e e'}, Sits t.mask e e' → e.masked = e' := fun {e e'} hsit => by
    rw [masked, hsit.range_eq, mask, ← maskUpTo_none, hsit.masked]
  obtain rfl : es.map masked = es' := forall₂_eq_eq_eq ▸ forall₂_map_left_iff.2 (hsits.imp fun _ _ => hmasked)
  obtain ⟨t', ht', -⟩ := h.copy (length_mask t).symm
    (hsits.imp fun e e' hsit => hmasked hsit ▸ ⟨rfl, (length_mask _).symm⟩)
  have hin : ∀ e ∈ es, e.InCode t es := fun e he => by
    obtain ⟨e', -, hsit⟩ := exists_of_mem_left hsits he
    exact hsit.inCode hsits (hascii e he)
  refine ⟨t', ht'.apply_of_isBoundary (fun e he => ?_) hperm, ht', ?_⟩
  · obtain ⟨hwithin, -, -, hstart, hstop, -⟩ := hin e he
    have hcuts := hboundary _ (mem_map_of_mem he)
    exact ⟨isBoundary_of_code (Nat.le_trans hwithin.1 hwithin.2) hstart hcuts.1,
      isBoundary_of_code hwithin.2 hstop hcuts.2⟩
  · have hsame := (spliced_masked (Subset.refl es) hin (Nat.zero_le _) (placeAt_zero t)).1
    have hleft : Edit.spliced t.mask 0 (es.map masked) = m' := @Splices.spliced _ _ _ _ h [] rfl
    have hright : Edit.spliced t 0 es = t' := @Splices.spliced _ _ _ _ ht' [] rfl
    rw [← hleft, hsame, hright]

end Edit

end GlslToMetal
