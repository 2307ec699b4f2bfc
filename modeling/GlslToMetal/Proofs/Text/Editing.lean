import GlslToMetal.Proofs.Text.Bounds
import GlslToMetal.Proofs.Text.Cutting

/-! Edits in code. An edit that begins and ends in code, and that joins no slash to a byte with which it
would open a comment, changes the masked text as it changes the text: its replacement is masked on its
own, and every other byte stays code or comment as it was. -/

namespace GlslToMetal

open List Text

variable {es : List Edit} {c : Nat} {s t : Text}

namespace Edit

/-- The edit of the masked text. -/
def masked (e : Edit) : Edit := ⟨e.range, e.replacement.mask⟩

/-- The edit, one of `all`, stands in the code of the text. -/
structure InCode (t : Text) (all : List Edit) (e : Edit) : Prop where
  within : e.range.Within t.length
  ascii : e.replacement.IsAscii
  ne_nil : e.replacement ≠ []
  start : t.placeAt e.range.start = .code
  stop : t.placeAt e.range.stop = .code
  closed : (maskUpTo .code none e.replacement).2 = .code
  front : t.mask.before? e.range.start = some 47 → Harmless e.replacement.head?
  back : e.replacement.mask.getLast? = some 47 → Harmless t[e.range.stop]? ∧
    ∀ f ∈ all, f.range.start = e.range.stop → Harmless f.replacement.head?

theorem before?_eq_getLast?_cut {i j : Nat} (hij : i < j) (hj : j ≤ t.length) :
    (t.cut ⟨i, j⟩).getLast? = t.before? j := by
  have hlength : ((t.drop i).take (j - i)).length = j - i :=
    length_take_of_le (by rw [length_drop]; omega)
  change ((t.drop i).take (j - i)).getLast? = _
  rw [getLast?_eq_getElem?, hlength, getElem?_take_of_lt (by omega), getElem?_drop, before?]
  have hne : (j == 0) = false := by
    rw [beq_eq_false_iff_ne]
    omega
  rw [hne]
  congr 1
  omega

/-- **Masking and editing commute**, from an offset in code on. -/
theorem spliced_masked {t : Text} {all es : List Edit} (hsub : es ⊆ all)
    (h : ∀ e ∈ es, e.InCode t all) {c : Nat} (hc : c ≤ t.length) (hplace : t.placeAt c = .code) :
    spliced t.mask c (es.map masked) = (spliced t c es).mask ∧
      (maskUpTo .code none (spliced t c es)).2 = (maskUpTo .code none t).2 ∧
      ((spliced t c es).head? = t[c]? ∨ ∃ f ∈ es, f.range.start = c ∧
        (spliced t c es).head? = f.replacement.head?) := by
  induction es generalizing c with
  | nil =>
    rw [map_nil, spliced, spliced, mask_drop hc hplace]
    refine ⟨rfl, ?_, .inl (by rw [head?_drop])⟩
    have hlength : c + (t.drop c).length = t.length := by
      rw [length_drop]
      omega
    rw [← placeAt_length, placeAt_drop hc hplace (Nat.le_of_eq hlength), hlength, placeAt_length]
  | cons e rest ih =>
    have ih := fun {c : Nat} (hc : c ≤ t.length) => @ih (fun f hf => hsub (mem_cons_of_mem _ hf))
      (fun f hf => h f (mem_cons_of_mem _ hf)) c hc
    obtain ⟨hwithin, hascii, hne, hstart, hstop, hclosed, hfront, hback⟩ := h e mem_cons_self
    rw [map_cons, spliced, spliced]
    by_cases hlt : e.range.start < c
    · rw [if_pos hlt, if_pos (show e.masked.range.start < c from hlt)]
      obtain ⟨hrest, hend, hhead⟩ := ih hc hplace
      refine ⟨hrest, hend, hhead.imp_right ?_⟩
      rintro ⟨f, hf, hf'⟩
      exact ⟨f, mem_cons_of_mem _ hf, hf'⟩
    · have hge := Nat.not_lt.mp hlt
      have hle : e.range.start ≤ t.length := Nat.le_trans hwithin.1 hwithin.2
      obtain ⟨hrest, hend, hhead⟩ := ih hwithin.2 hstop
      rw [if_neg hlt, if_neg (show ¬ e.masked.range.start < c from hlt),
        show e.masked.range = e.range from rfl, hrest]
      generalize spliced t e.range.stop rest = after at hrest hend hhead ⊢
      have hnext : (e.replacement ++ after).head? = e.replacement.head? := by
        obtain ⟨b, new, hnew⟩ := exists_cons_of_ne_nil hne
        rw [hnew]
        rfl
      -- The text before the edit is masked as it was.
      have hkept : maskUpTo .code (e.replacement ++ after).head? (t.cut ⟨c, e.range.start⟩) =
          (t.mask.cut ⟨c, e.range.start⟩, .code) := by
        have hcut := maskUpTo_cut hc hplace hge hle hstart
        rw [← hcut]
        refine maskUpTo_next (.inr ⟨by rw [hcut], fun hlast => ?_⟩)
        rw [hnext]
        refine hfront ?_
        rw [hcut] at hlast
        have hlt : c < e.range.start := by
          refine Nat.lt_of_le_of_ne hge ?_
          rintro rfl
          simp [cut] at hlast
        rw [← before?_eq_getLast?_cut hlt (by rwa [length_mask]), hlast]
      -- What is put in is masked on its own.
      have hnew : maskUpTo .code after.head? e.replacement = (e.replacement.mask, .code) := by
        have hmask : maskUpTo .code none e.replacement = (e.replacement.mask, .code) :=
          Prod.ext (maskUpTo_none _ _) hclosed
        rw [← hmask]
        refine maskUpTo_next (.inr ⟨hclosed, fun hlast => ?_⟩)
        rw [hmask] at hlast
        obtain ⟨hharmless, hall⟩ := hback hlast
        rcases hhead with hhead | ⟨f, hf, hfstart, hhead⟩
        · rw [hhead]
          exact hharmless
        · rw [hhead]
          exact hall f (hsub (mem_cons_of_mem _ hf)) hfstart
      have hmask : maskUpTo .code none (t.cut ⟨c, e.range.start⟩ ++ (e.replacement ++ after)) =
          (t.mask.cut ⟨c, e.range.start⟩ ++ (e.replacement.mask ++ after.mask),
            (maskUpTo .code none t).2) := by
        rw [maskUpTo_append, Option.or_none, hkept, maskUpTo_append, Option.or_none, hnew,
          maskUpTo_none, hend]
        rfl
      refine ⟨?_, by rw [hmask], ?_⟩
      · exact (congrArg Prod.fst hmask).symm.trans (maskUpTo_none _ _)
      · by_cases heq : c = e.range.start
        · refine .inr ⟨e, mem_cons_self, heq.symm, ?_⟩
          rw [heq, cut, Nat.sub_self, take_zero, nil_append, hnext]
        · have hlt : c < e.range.start := by omega
          refine .inl ?_
          rw [head?_append, cut, head?_take, if_neg (Nat.sub_ne_zero_of_lt hlt), head?_drop,
            getElem?_eq_getElem (Nat.lt_of_lt_of_le hlt hle)]
          rfl

theorem ordered_masked (es : List Edit) : (ordered es).map masked = ordered (es.map masked) := by
  rw [ordered_eq_insertionSort, ordered_eq_insertionSort]
  exact map_insertionSort _ _ _ es fun _ _ _ _ => Iff.rfl

theorem placeAt_zero (t : Text) : t.placeAt 0 = .code := rfl

/-- **Masking and editing commute** for edits in code. -/
theorem apply_masked (ht : t.IsAscii) (h : ∀ e ∈ es, e.InCode t es)
    (hs : apply es t = .ok s) :
    apply (es.map masked) t.mask = .ok s.mask ∧ (maskUpTo .code none s).2 = (maskUpTo .code none t).2 := by
  have hperm := ordered_perm es
  obtain ⟨hmask, hend, -⟩ := spliced_masked hperm.subset (fun e he => h e (hperm.mem_iff.mp he))
    (Nat.zero_le _) (placeAt_zero t)
  have hcuts : ∀ e ∈ es.map masked, e.Cuts t.mask := by
    intro e he
    obtain ⟨f, hf, rfl⟩ := mem_map.mp he
    exact cuts_of_isAscii ht.mask ((length_mask t).symm ▸ (h f hf).within)
  rw [apply_eq_spliced fun e he => cuts_of_isAscii ht (h e he).within] at hs
  obtain rfl := Except.ok.inj hs
  rw [apply_eq_spliced hcuts, ← ordered_masked, hmask]
  exact ⟨rfl, hend⟩

end Edit

end GlslToMetal
