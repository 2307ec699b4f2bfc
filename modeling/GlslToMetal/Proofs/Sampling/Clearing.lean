import GlslToMetal.Proofs.Lowering.Total
import GlslToMetal.Proofs.Sampling.Pass

/-! How far the sampling stage gets. One pass replaces the calls that stand in no other call and leaves
the others, each in one call less, with the arguments that they had. So the eight passes leave the calls
that stand in eight others or more, and running the stage again changes nothing just when there are none
of these. -/

namespace GlslToMetal

open List Text

variable {t : Nest} {source target : Text}

namespace Sampling

open Nest Edit

/-- The program is code whose delimiters are nested as in the tree. -/
structure HasTree (source : Text) (t : Nest) : Prop where
  plain : t.Plain
  code : source.IsCode
  mask : source.mask = t.text

theorem exists_hasTree (hcode : source.IsCode) (hnested : source.mask.isNested) : ∃ t, HasTree source t := by
  obtain ⟨t, hplain, htext⟩ := exists_of_isNested hnested
  exact ⟨t, hplain, hcode, htext.symm⟩

/-- The edits of some of the calls, the outermost among them, replace the outermost. -/
theorem spliced_chosen (hlength : t.text.length = source.length) {p : Sampled → Bool}
    (hp : ∀ c ∈ found source [] 0 t, Sampled.depth (found source [] 0 t) c = 0 → p c) :
    spliced source 0 (chosen p (found source [] 0 t)) = replacedText [] [] source t := by
  have h := @spliced_found source [] 0 (Nat.le_refl 0) t p hp [] (fun e he => absurd he not_mem_nil)
  rw [List.append_nil, Nat.zero_add, hlength, spliced, List.drop_length, List.append_nil] at h
  exact h

namespace HasTree

variable {source : Text} {t : Nest} (h : HasTree source t)
include h

theorem length : t.text.length = source.length := by rw [← h.mask, length_mask]

theorem within {c : Sampled} (hc : c ∈ found source [] 0 t) : c.range.Within source.length := by
  have hbounds := bounds_of_mem_found (Nat.le_refl 0) hc
  rw [Nat.zero_add, h.length] at hbounds
  exact ⟨Nat.le_of_lt hbounds.2.1, hbounds.2.2⟩

omit h in
theorem exists_listed {c : Sampled} (hc : c ∈ found source [] 0 t) :
    ∃ p ∈ t.lists [] 0, sampled? source p = some c := by
  rw [← filterMap_sampled?] at hc
  exact mem_filterMap.mp hc

/-- **One pass replaces the outermost calls.** -/
theorem pass {ss : List Site} (hperm : (edits ss).Perm ((found source [] 0 t).map Sampled.edit)) :
    Edit.apply (edits ss) source = .ok (replacedText [] [] source t) ∧
      HasTree (replacedText [] [] source t) (replaced [] t) := by
  have hsorted : ∀ source', ((found source' [] 0 t).map Sampled.edit).Pairwise
      (·.range.start < ·.range.start) :=
    fun source' => pairwise_map.mpr (pairwise_found source' (Nat.le_refl 0) t)
  have hall : ∀ source', (found source' [] 0 t).map Sampled.edit =
      chosen (fun _ => true) (found source' [] 0 t) :=
    fun source' => by rw [chosen, filter_true]
  have hsplice : spliced source 0 ((found source [] 0 t).map Sampled.edit) = replacedText [] [] source t := by
    rw [hall]
    exact spliced_chosen h.length fun _ _ _ => rfl
  have happly : Edit.apply (edits ss) source = .ok (replacedText [] [] source t) := by
    rw [apply_eq_spliced fun e he => cuts_of_isAscii h.code.isAscii ?_,
      ordered_eq hperm (hsorted source), hsplice]
    obtain ⟨c, hc, rfl⟩ := mem_map.mp (hperm.subset he)
    exact h.within hc
  refine ⟨happly, plain_replaced h.plain fun b hb => absurd hb not_mem_nil, ?_, ?_⟩
  · intro b hb
    rw [← hsplice] at hb
    rcases mem_spliced hb with hb | ⟨e, he, hb⟩
    · exact h.code b hb
    · obtain ⟨c, hc, rfl⟩ := mem_map.mp he
      obtain ⟨p, -, hp⟩ := exists_listed hc
      exact isCode_edit h.code hp b hb
  · -- The masked copy is edited as the program is.
    have hin : ∀ e ∈ edits ss, e.InCode source (edits ss) := by
      intro e he
      obtain ⟨c, hc, rfl⟩ := mem_map.mp (hperm.subset he)
      obtain ⟨p, hp, hc⟩ := exists_listed hc
      exact inCode_edit h.plain h.code h.mask hp hc _
    have hmasked := (apply_masked h.code.isAscii hin happly).1
    have hperm' := hperm.map Edit.masked
    rw [map_masked_found h.plain h.code h.mask] at hperm'
    rw [apply_eq_spliced fun e he => cuts_of_isAscii h.code.isAscii.mask ?_,
      ordered_eq hperm' (hsorted _), hall,
      spliced_chosen (by rw [h.mask]) fun _ _ _ => rfl] at hmasked
    · have htext := replacedText_text [] t []
      rw [List.append_nil, ← h.mask] at htext
      exact (Except.ok.inj hmasked).symm.trans htext
    · obtain ⟨c, hc, rfl⟩ := mem_map.mp (hperm'.subset he)
      have hbounds := bounds_of_mem_found (Nat.le_refl 0) hc
      rw [Nat.zero_add, ← h.mask] at hbounds
      exact ⟨Nat.le_of_lt hbounds.2.1, hbounds.2.2⟩

theorem exists_sites :
    ∃ ss, sites source = .ok ss ∧ (edits ss).Perm ((found source [] 0 t).map Sampled.edit) :=
  Sampling.exists_sites h.plain h.code h.mask

theorem all_eq : Sampled.all source = .ok (found source [] 0 t) := all_eq_found h.plain h.code h.mask

theorem nested_pass :
    nested [] (replacedText [] [] source t) (replaced [] t) = lowered 1 (nested [] source t) :=
  (@nested_replaced [] [] source t rfl (Nat.le_of_eq h.length)).2

omit h in
theorem edits_eq_nil_iff {ss : List Site} (hperm : (edits ss).Perm ((found source [] 0 t).map Sampled.edit)) :
    edits ss = [] ↔ found source [] 0 t = [] := by
  rw [← length_eq_zero_iff, hperm.length_eq, length_map, length_eq_zero_iff]

theorem passes_of_nil (hnil : found source [] 0 t = []) (n : Nat) : passes n source = .ok source := by
  obtain ⟨ss, hss, hperm⟩ := h.exists_sites
  cases n with
  | zero => rfl
  | succ n =>
    rw [Sampling.passes, hss]
    simp only [bind, Except.bind, (edits_eq_nil_iff hperm).mpr hnil]
    rfl

/-- **A number of passes leaves the calls in as many others**, and takes them out of these. -/
theorem passes (n : Nat) : ∃ target t', passes n source = .ok target ∧ HasTree target t' ∧
      nested [] target t' = lowered n (nested [] source t) := by
  induction n generalizing source t with
  | zero => exact ⟨source, t, rfl, h, by simp [lowered]⟩
  | succ n ih =>
    obtain ⟨ss, hss, hperm⟩ := h.exists_sites
    by_cases hnil : found source [] 0 t = []
    · have hnested := map_depth_found source [] 0 t
      rw [hnil, drop_zero] at hnested
      refine ⟨source, t, h.passes_of_nil hnil _, h, ?_⟩
      rw [← hnested]
      rfl
    · obtain ⟨happly, htree⟩ := h.pass hperm
      obtain ⟨target, t', htarget, htree', hcalls⟩ := ih htree
      refine ⟨target, t', ?_, htree', ?_⟩
      · have hedits : ¬ (edits ss).isEmpty := by rwa [List.isEmpty_iff, edits_eq_nil_iff hperm]
        rw [Sampling.passes, hss]
        simp only [bind, Except.bind, hedits, happly]
        exact htarget
      · rw [hcalls, h.nested_pass, lowered_lowered, Nat.add_comm]

end HasTree

namespace Sampled

/-- What is called, and with which arguments. -/
def key (c : Sampled) : Function × List Text := (c.function, c.args)

/-- The calls that stand in no other. -/
def outermost (calls : List Sampled) : List Sampled := calls.filter fun c => depth calls c == 0

end Sampled

theorem pairwise_outermost {calls : List Sampled}
    (h : calls.Pairwise fun c e => c.range.stop ≤ e.range.start ∨ c.encloses e) :
    (Sampled.outermost calls).Pairwise (·.range.stop ≤ ·.range.start) := by
  rw [Sampled.outermost, pairwise_filter]
  refine h.imp_of_mem ?_
  intro c e hc _ hce _ hzero
  refine hce.resolve_right fun hencloses => ?_
  rw [beq_iff_eq, Sampled.depth, countP_eq_zero] at hzero
  exact hzero c hc hencloses

theorem map_key_eq {t' : Nest} {n : Nat}
    (h : nested [] target t' = lowered n (nested [] source t)) :
    (found target [] 0 t').map Sampled.key =
      ((found source [] 0 t).filter (n ≤ Sampled.depth (found source [] 0 t) ·)).map Sampled.key := by
  have hsource := map_depth_found source [] 0 t
  have htarget := map_depth_found target [] 0 t'
  rw [drop_zero] at hsource htarget
  rw [← hsource, ← htarget, lowered, filter_map, map_map] at h
  have hkeys := congrArg (map Prod.snd) h
  rw [map_map, map_map] at hkeys
  exact hkeys

theorem exists_outermost (h : found source [] 0 t ≠ []) :
    ∃ c ∈ found source [] 0 t, Sampled.depth (found source [] 0 t) c = 0 := by
  have hsorted := @pairwise_found source [] 0 (Nat.le_refl 0) t
  obtain ⟨c, calls, hcalls⟩ := exists_cons_of_ne_nil h
  rw [hcalls] at hsorted ⊢
  refine ⟨c, mem_cons_self, Sampled.depth_eq_zero fun e he hlt => ?_⟩
  rcases mem_cons.mp he with rfl | he
  · omega
  · have := rel_of_pairwise_cons hsorted he
    omega

theorem passes_of_lower {reports : List Diagnostic}
    (h : lower source = .ok (reports, target)) : passes maxPasses source = .ok target := by
  obtain ⟨ss, -, hrest⟩ := Checked.exists_of_bind h
  obtain ⟨told, -, hrest⟩ := Checked.exists_of_bind hrest
  obtain ⟨made, hpasses, hmade⟩ := Checked.exists_of_bind hrest
  cases hmade
  exact hpasses

namespace HasTree

variable {source : Text} {t : Nest} (h : HasTree source t)
include h

theorem lower_of_passes (hsize : source.length < 2 ^ 32)
    (hpasses : Sampling.passes maxPasses source = .ok target) :
    ∃ reports, lower source = .ok (reports, target) := by
  obtain ⟨result, hlower, -⟩ := (kind_isAscii.sampling h.code.isAscii fun _ => hsize).returns
  have hrest := passes_of_lower hlower
  rw [hpasses] at hrest
  exact ⟨result.1, by rw [hlower, Except.ok.inj hrest]⟩

/-- **The stage leaves a program as it is just when there are no calls in it**, if it returns at all. -/
theorem found_eq_nil_of_lower {reports : List Diagnostic}
    (hself : Sampling.lower source = .ok (reports, source)) : found source [] 0 t = [] := by
  by_contra hne
  obtain ⟨target, t', hpasses, htree, hcalls⟩ := h.passes maxPasses
  obtain rfl : source = target := Except.ok.inj ((passes_of_lower hself).symm.trans hpasses)
  have hsame : found source [] 0 t' = found source [] 0 t :=
    Except.ok.inj (htree.all_eq.symm.trans h.all_eq)
  -- All calls are left, also the outermost.
  have hlength := congrArg List.length (map_key_eq hcalls)
  rw [hsame, length_map, length_map] at hlength
  obtain ⟨c, hc, hzero⟩ := exists_outermost hne
  have hdeep := length_filter_eq_length_iff.mp hlength.symm c hc
  rw [decide_eq_true_eq, hzero, maxPasses] at hdeep
  omega

end HasTree

/-- **The sampling stage clears calls in up to seven others.** In a program of nested delimiters whose
offsets fit in the ends of a span, a pass replaces just the calls that stand in no other call, by method
calls with the same arguments, and leaves the others with their arguments; it makes no new call. The
stage leaves the calls in eight others or more. Run on its own result it changes nothing just when there
are none of these, unless the result has grown beyond the ends of a span. -/
theorem lower_clears_nested_calls {source : Text} (hcode : source.IsCode)
    (hnested : source.mask.isNested) (hsize : source.length < 2 ^ 32) :
    ∃ calls, Sampled.all source = .ok calls ∧
      (∀ c ∈ calls, ∃ surface coord extra,
        c.args = surface :: coord :: extra ∧ surface.isIdentifier ∧
        c.edit.replacement = sample surface (coord :: extra.map (marked c.function.mark))) ∧
      (∃ found target rest, sites source = .ok found ∧
        (edits found).Perm (calls.map Sampled.edit) ∧
        Edit.apply (edits found) source = .ok target ∧
        target = Edit.spliced source 0 ((Sampled.outermost calls).map Sampled.edit) ∧
        (Sampled.outermost calls).Pairwise (·.range.stop ≤ ·.range.start) ∧
        Sampled.all target = .ok rest ∧
        rest.map Sampled.key = (calls.filter (1 ≤ Sampled.depth calls ·)).map Sampled.key) ∧
      ∃ reports target rest, lower source = .ok (reports, target) ∧ Sampled.all target = .ok rest ∧
        rest.map Sampled.key = (calls.filter (8 ≤ Sampled.depth calls ·)).map Sampled.key ∧
        ((∃ again, lower target = .ok (again, target)) → ∀ c ∈ calls, Sampled.depth calls c < 8) ∧
        ((∀ c ∈ calls, Sampled.depth calls c < 8) → target.length < 2 ^ 32 →
          ∃ again, lower target = .ok (again, target)) := by
  obtain ⟨t, h⟩ := exists_hasTree hcode hnested
  obtain ⟨ss, hss, hperm⟩ := h.exists_sites
  obtain ⟨happly, hpass⟩ := h.pass hperm
  obtain ⟨target, t', hpasses, htree, hcalls⟩ := h.passes maxPasses
  obtain ⟨reports, hlower⟩ := h.lower_of_passes hsize hpasses
  have hcleared : found target [] 0 t' = [] ↔
      ∀ c ∈ found source [] 0 t, Sampled.depth (found source [] 0 t) c < 8 := by
    have hkeys := congrArg length (map_key_eq hcalls)
    rw [length_map, length_map] at hkeys
    rw [← length_eq_zero_iff, hkeys, length_eq_zero_iff, filter_eq_nil_iff]
    refine forall₂_congr fun c _ => ?_
    rw [decide_eq_true_eq, Nat.not_le, maxPasses]
  refine ⟨found source [] 0 t, h.all_eq, ?_, ⟨ss, _, _, hss, hperm, happly, ?_, ?_, hpass.all_eq, ?_⟩,
    reports, target, _, hlower, htree.all_eq, map_key_eq hcalls, ?_, ?_⟩
  · intro c hc
    obtain ⟨p, hp, hc⟩ := HasTree.exists_listed hc
    obtain ⟨surface, coord, extra, hargs, hident⟩ := exists_surface h.plain h.code h.mask hp hc
    refine ⟨surface, coord, extra, hargs, hident, ?_⟩
    rw [Sampled.edit, hargs]
    rfl
  · exact (spliced_chosen h.length fun c _ hzero => by simpa using hzero).symm
  · exact pairwise_outermost (pairwise_apart source [] 0 t)
  · exact map_key_eq h.nested_pass
  · rintro ⟨again, hagain⟩
    exact hcleared.mp (htree.found_eq_nil_of_lower hagain)
  · intro hshallow hlength
    exact htree.lower_of_passes hlength (htree.passes_of_nil (hcleared.mpr hshallow) _)

/-- Nine calls in each other. -/
def nineDeep : Text :=
  "texture(s, texture(s, texture(s, texture(s, texture(s, texture(s, texture(s, texture(s, texture(s, p)))))))))"

theorem deep_nineDeep {calls : List Sampled} (h : Sampled.all nineDeep = .ok calls) :
    (calls.filter (8 ≤ Sampled.depth calls ·)).map Sampled.key =
      [(.texture, [("s" : Text), ("p" : Text)])] := by
  have hall : (Sampled.all nineDeep).toOption.map (fun calls =>
      (calls.filter (8 ≤ Sampled.depth calls ·)).map Sampled.key) =
        some [(.texture, [("s" : Text), ("p" : Text)])] := by
    unfold nineDeep
    repeat rw [ofString_ofList]
    decide +kernel
  rw [h] at hall
  exact Option.some.inj hall

theorem lower_clears_nested_calls_nineDeep : ∃ reports target rest,
      lower nineDeep = .ok (reports, target) ∧ Sampled.all target = .ok rest ∧
      rest.map Sampled.key = [(.texture, [("s" : Text), ("p" : Text)])] ∧
      ¬ ∃ again, lower target = .ok (again, target) := by
  have hsource : nineDeep.IsCode ∧ nineDeep.mask.isNested ∧ nineDeep.length < 2 ^ 32 := by
    unfold nineDeep
    rw [ofString_ofList]
    decide +kernel
  obtain ⟨calls, hcalls, -, -, reports, target, rest, hlower, hrest, hkeys, hself, -⟩ :=
    lower_clears_nested_calls hsource.1 hsource.2.1 hsource.2.2
  have hdeep := deep_nineDeep hcalls
  refine ⟨reports, target, rest, hlower, hrest, hkeys.trans hdeep, fun hagain => ?_⟩
  have hnone : calls.filter (8 ≤ Sampled.depth calls ·) = [] :=
    filter_eq_nil_iff.mpr fun c hc => by simpa using hself hagain c hc
  rw [hnone] at hdeep
  cases hdeep

end Sampling

end GlslToMetal
