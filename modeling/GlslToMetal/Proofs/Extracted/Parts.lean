import GlslToMetal.Proofs.Extracted.Body
import GlslToMetal.Proofs.Program.Bounds

/-! Taking a program apart. The entry point is a block of the masked program, so what stands before
it, what stands between its braces and what stands behind it begins and ends in code: each part can
be cut off, and its mask is its part of the mask. -/

namespace GlslToMetal

open List Text Item

variable {cs : List Char} {fs : List Signature} {closed opened start stop : Nat} {body : Range}
  {f : Signature}
  {output : Text}

namespace Signature

theorem exists_block {t : Text} (hfs : Program.functions t = .ok fs)
    (hf : f ∈ fs) (hbody : f.body? = some body) :
    ∃ start opened closed stop, f.range = ⟨start, stop⟩ ∧ body = ⟨opened + 1, closed⟩ ∧
      .block start opened closed stop ∈ t.mask.items := by
  obtain ⟨item, hitem, hof⟩ := Program.exists_ofItem? hfs hf
  obtain ⟨hrange, hbody', -⟩ := of_ofItem? hof
  rw [hbody] at hbody'
  cases item with
  | block start opened closed stop =>
    exact ⟨start, opened, closed, stop, hrange, Option.some.inj hbody', hitem⟩
  | directive => cases hbody'
  | statement => cases hbody'
  | unterminated => cases hbody'

end Signature

namespace Extracted

theorem mem_of_found? {output coord : Text}
    (h : found? fs = some (f, output, coord, body)) :
    f ∈ fs ∧ f.body? = some body ∧ ∃ p ∈ f.params, p.name = output := by
  simp only [found?, bind, Option.bind_eq_some_iff] at h
  obtain ⟨g, hg, ⟨o, c⟩, hcontract, b, hb, heq⟩ := h
  cases heq
  refine ⟨mem_of_find?_eq_some hg, hb, ?_⟩
  unfold Signature.entryContract? at hcontract
  split at hcontract
  · next color coord hparams =>
    obtain ⟨-, hcontract⟩ := Option.ite_none_right_eq_some.mp hcontract
    cases hcontract
    exact ⟨color, hparams ▸ mem_cons_self, rfl⟩
  · cases hcontract

theorem isBoundary_start (h : IsBlock (ofChars cs).mask start opened closed stop) :
    (ofChars cs).isBoundary start := by
  obtain ⟨ms, hms⟩ := exists_maskFrom_ofChars (Place.fits_code (ofChars cs).head?)
  obtain ⟨hso, hoc, hce, hstop⟩ := h.order
  rw [length_mask] at hstop
  obtain ⟨b, hb, hsolid⟩ := h.solid
  refine isBoundary_of_mask rfl (by omega) ?_ (.inr (.inr (.inr ⟨b, hb, ?_⟩)))
  · rw [mask, hms]
    cases start with
    | zero => exact isBoundary_zero _
    | succ k =>
      have hk : k < (ofChars ms).length := by
        rw [← hms, length_maskFrom]
        omega
      have hbefore := h.before
      rw [mask, hms, ← take_append_getElem hk, Reader.read_append] at hbefore
      refine (isBoundary_of_lt (getElem?_eq_getElem hk) ?_).2
      rcases Reader.cases_of_isRest_step hbefore with hblank | hsemi | hbrace
      · exact lt_of_isBlank hblank
      · rw [hsemi]
        decide
      · rw [hbrace]
        decide
  · rintro rfl
    cases hsolid

/-- **The parts of a program can be cut off at a block of it**: what stands before it, between its
braces and behind it. -/
theorem exists_parts (h : IsBlock (ofChars cs).mask start opened closed stop) :
    (∃ ds next, (ofChars cs).slice ⟨0, start⟩ = .ok (ofChars ds) ∧
      maskUpTo .code next (ofChars ds) = ((ofChars cs).mask.take start, .code)) ∧
    (∃ ds, (ofChars cs).slice ⟨stop, (ofChars cs).length⟩ = .ok (ofChars ds) ∧
      ofChars ds = (ofChars cs).drop stop ∧ (ofChars ds).mask = (ofChars cs).mask.drop stop ∧
      (maskUpTo .code none (ofChars ds)).2 = (ofChars cs).placeAt (ofChars cs).length) ∧
    ∃ ds es, (ofChars cs).slice ⟨opened + 1, closed⟩ = .ok (ofChars ds) ∧
      (ofChars cs).mask.slice ⟨opened + 1, closed⟩ = .ok (ofChars es) ∧
      maskUpTo .code (some 125) (ofChars ds) = (ofChars es, .code) ∧
      ofChars es = (ofChars cs).mask.cut ⟨opened + 1, closed⟩ := by
  obtain ⟨ms, hms⟩ := exists_maskFrom_ofChars (Place.fits_code (ofChars cs).head?)
  have hmask : (ofChars cs).mask = ofChars ms := hms
  have hlength : (ofChars ms).length = (ofChars cs).length := by rw [← hmask, length_mask]
  obtain ⟨hso, hoc, hce, hstop⟩ := h.order
  rw [length_mask] at hstop
  obtain ⟨b, hb, hsolid⟩ := h.solid
  obtain ⟨-, hstartCode, -⟩ := solid_at hb hsolid
  obtain ⟨hopened, -, hopenedCode⟩ := solid_at h.opener rfl
  obtain ⟨hclosed, hclosedCode, -⟩ := solid_at h.closer rfl
  obtain ⟨c, hlast, hc, hsolid'⟩ : ∃ c, (ofChars cs).mask[stop - 1]? = some c ∧ c < 128 ∧
      isBlank c = false := by
    rcases h.last with h | h
    · exact ⟨125, h, by decide, rfl⟩
    · exact ⟨59, h, by decide, rfl⟩
  obtain ⟨hlast', -, hstopCode⟩ := solid_at hlast hsolid'
  rw [Nat.sub_add_cancel (by omega)] at hstopCode
  have hstart := isBoundary_start h
  have hfirst := (isBoundary_of_lt hopened (by decide)).2
  have hend := (isBoundary_of_lt hclosed (by decide)).1
  have hbehind := (isBoundary_of_lt hlast' hc).2
  rw [Nat.sub_add_cancel (by omega)] at hbehind
  refine ⟨?_, ?_, ?_⟩
  · obtain ⟨ds, hds⟩ := exists_ofChars_cut (Nat.zero_le start) (by omega) (isBoundary_zero _) hstart
    refine ⟨ds, ((ofChars cs).drop start).head?, ?_, ?_⟩
    · rw [← hds]
      exact slice_eq_cut (Nat.zero_le _) (by show start ≤ _; omega) (isBoundary_zero _) hstart
    · have htake := @maskUpTo_take (ofChars cs) start (by omega)
      rw [hstartCode] at htake
      rwa [← hds]
  · obtain ⟨ds, hds⟩ := exists_ofChars_cut hstop (Nat.le_refl _) hbehind (isBoundary_length _)
    have hdrop : (ofChars cs).cut ⟨stop, (ofChars cs).length⟩ = (ofChars cs).drop stop :=
      take_of_length_le (by rw [length_drop])
    refine ⟨ds, ?_, ?_, ?_, ?_⟩
    · rw [← hds]
      exact slice_eq_cut hstop (Nat.le_refl _) hbehind (isBoundary_length _)
    · rw [← hds, hdrop]
    · rw [← hds, hdrop, mask_drop hstop hstopCode]
    · have hplace := @placeAt_drop _ _ hstop hstopCode ((ofChars cs).length - stop) (by omega)
      rwa [Nat.add_sub_cancel' hstop, ← length_drop, placeAt_length, ← hdrop, hds] at hplace
  · obtain ⟨ds, hds⟩ := exists_ofChars_cut (by omega) (by omega) hfirst hend
    have hopener := h.opener
    have hcloser := h.closer
    rw [hmask] at hopener hcloser
    have hfirst' := (isBoundary_of_lt hopener (by decide)).2
    have hend' := (isBoundary_of_lt hcloser (by decide)).1
    obtain ⟨es, hes⟩ := exists_ofChars_cut (by omega) (by omega) hfirst' hend'
    refine ⟨ds, es, ?_, ?_, ?_, by rw [hmask, hes]⟩
    · rw [← hds]
      exact slice_eq_cut (by show opened + 1 ≤ closed; omega) (by show closed ≤ _; omega) hfirst hend
    · rw [hmask, ← hes]
      exact slice_eq_cut (by show opened + 1 ≤ closed; omega) (by show closed ≤ _; omega) hfirst' hend'
    · have hcut := @maskUpTo_cut _ _ (by omega) hopenedCode closed (by omega) (by omega) hclosedCode
      rwa [head?_drop, hclosed, hds, hmask, hes] at hcut

theorem replaces_returned (h : output.isIdentifier) :
    Replaces (("return " : Text) ++ output ++ (";" : Text)) := by
  have hnot : ∀ b, isWordByte b = false → b ∉ ("return " : Text) → b ∉ (";" : Text) →
      b ∉ ("return " : Text) ++ output ++ (";" : Text) := by
    intro b hb hfirst hlast hmem
    rcases mem_append.mp hmem with hmem | hmem
    · rcases mem_append.mp hmem with hmem | hmem
      · exact hfirst hmem
      · exact (isWordByte_of_isIdentifier h).not_mem hb hmem
    · exact hlast hmem
  exact ⟨rfl, hnot 47 rfl (by decide) (by decide), hnot 123 rfl (by decide) (by decide),
    hnot 125 rfl (by decide) (by decide)⟩

/-- **A body with its bare returns replaced may stand between braces** if the body does. -/
theorem exists_returning (h : output.isIdentifier) {ds es : List Char}
    (hmask : maskUpTo .code (some 125) (ofChars ds) = (ofChars es, .code))
    (hbraces : State.bracesBehind? 0 (ofChars es) = some 0) :
    ∃ body x, returning output (ofChars es) (ofChars ds) = .ok body ∧
      maskUpTo .code (some 125) body = (x, .code) ∧ State.bracesBehind? 0 x = some 0 := by
  obtain ⟨body, x, hfilled, hbody, hsame, hbounds, -⟩ :=
    exists_filled (replaces_returned h) (advances_bareReturn.matches none 0 es) rfl hmask
  refine ⟨body, x, ?_, hbody, by rw [hsame, hbraces]⟩
  unfold returning
  rw [Pattern.ranges, chars_ofChars]
  exact hfilled.apply fun r hr => hbounds r hr

end Extracted

end GlslToMetal
