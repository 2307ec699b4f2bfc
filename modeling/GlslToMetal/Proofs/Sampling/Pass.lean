import GlslToMetal.Proofs.Sampling.Nested
import GlslToMetal.Proofs.Text.Splicing

/-! A pass of the sampling stage. The edits of the calls are applied from left to right, and those of
the calls in the arguments of a replaced one are dropped. So what a pass makes is the text of the tree
with its outermost calls replaced, and its masked copy is the text of that tree. -/

namespace GlslToMetal

open List Text

variable {e : Edit} {f : Function} {args args' : List Text} {t : Nest}

namespace Sampling

open Nest Edit

/-- The edits of some of the calls. -/
def chosen (p : Sampled → Bool) (calls : List Sampled) : List Edit := (calls.filter p).map Sampled.edit

theorem chosen_append (p : Sampled → Bool) (calls more : List Sampled) :
    chosen p (calls ++ more) = chosen p calls ++ chosen p more := by
  rw [chosen, filter_append, map_append]
  rfl

theorem exists_of_mem_chosen {p : Sampled → Bool} {calls : List Sampled} (h : e ∈ chosen p calls) :
    ∃ c ∈ calls, c.edit = e := by
  obtain ⟨c, hc, he⟩ := mem_map.mp h
  exact ⟨c, mem_of_mem_filter hc, he⟩

section Pair

variable {source left : Text} {i : Nat} {d : Delimiter} {inner rest : Nest} {p : Sampled → Bool}
  {es : List Edit}
  (hes : ∀ e ∈ es, i + (inner.text.length + 2) + rest.text.length ≤ e.range.start)

/-- The edit of a call drops those of the calls in its arguments. -/
theorem spliced_pair_of_some {c : Sampled} (hc : own? source left i d inner = some c) (hp : p c) :
    spliced source (i - left.length) (chosen p (found source left i (pair d inner rest)) ++ es) =
      source.cut ⟨i - left.length, c.range.start⟩ ++ (methodCall c.function c.args ++
        spliced source (i + (inner.text.length + 2))
          (chosen p (found source [] (i + (inner.text.length + 2)) rest) ++ es)) := by
  have hmem : c ∈ (own? source left i d inner).toList := by rw [hc]; exact mem_singleton_self c
  obtain ⟨hstart, -, hstop⟩ := range_of_own? hmem
  have hdropped : ∀ e ∈ chosen p (found source [] (i + 1) inner), e.range.start < c.range.stop := by
    intro e he
    obtain ⟨c', hc', rfl⟩ := exists_of_mem_chosen he
    have := bounds_inner hc'
    rw [show c'.edit.range = c'.range from rfl]
    omega
  have hchosen : chosen p (found source left i (pair d inner rest)) =
    c.edit :: (chosen p (found source [] (i + 1) inner) ++
        chosen p (found source [] (i + (inner.text.length + 2)) rest)) := by
    rw [found, hc, chosen_append, chosen_append]
    simp [chosen, hp]
  rw [hchosen, List.cons_append, List.append_assoc, spliced, show c.edit.range = c.range from rfl,
    if_neg (Nat.not_lt.mpr hstart), spliced_append_of_lt source hdropped, hstop]
  rfl

include hes

theorem le_start_of_mem_rest
    (he : e ∈ chosen p (found source [] (i + (inner.text.length + 2)) rest) ++ es) :
    i + (inner.text.length + 2) ≤ e.range.start := by
  rcases mem_append.mp he with he | he
  · obtain ⟨c, hc, rfl⟩ := exists_of_mem_chosen he
    exact (bounds_rest hc).1
  · have := hes e he
    omega

theorem spliced_pair_of_none (hnone : own? source left i d inner = none) :
    spliced source (i - left.length) (chosen p (found source left i (pair d inner rest)) ++ es) =
      source.cut ⟨i - left.length, i + 1⟩ ++
        spliced source (i + 1) (chosen p (found source [] (i + 1) inner) ++
        (chosen p (found source [] (i + (inner.text.length + 2)) rest) ++ es)) := by
  have hstarts : ∀ e ∈ chosen p (found source [] (i + 1) inner) ++
      (chosen p (found source [] (i + (inner.text.length + 2)) rest) ++ es), i + 1 ≤ e.range.start := by
    intro e he
    rcases mem_append.mp he with he | he
    · obtain ⟨c, hc, rfl⟩ := exists_of_mem_chosen he
      exact (bounds_inner hc).1
    · have := le_start_of_mem_rest hes he
      omega
  rw [found, hnone, Option.toList_none, List.nil_append, chosen_append, List.append_assoc]
  exact spliced_cut source (by omega) hstarts

end Pair

/-- **The edits of the calls make the text with the outermost calls replaced**, and so do the edits of
any of the calls among which the outermost are. -/
theorem spliced_found {source left : Text} {i : Nat} (hleft : left.length ≤ i) {t : Nest} {p : Sampled → Bool}
    (hp : ∀ c ∈ found source left i t, Sampled.depth (found source left i t) c = 0 → p c) {es : List Edit}
    (hes : ∀ e ∈ es, i + t.text.length ≤ e.range.start) :
    spliced source (i - left.length) (chosen p (found source left i t) ++ es) =
      replacedText left (source.cut ⟨i - left.length, i⟩) (source.drop i) t ++
        spliced source (i + t.text.length) es := by
  induction t generalizing left i es with
  | nil => exact spliced_cut source (Nat.sub_le _ _) hes
  | byte b rest ih =>
    have hkept : source.cut ⟨i - left.length, i⟩ ++ (source.drop i).take 1 =
        source.cut ⟨i + 1 - (b :: left).length, i + 1⟩ := by
      rw [length_cons, Nat.add_sub_add_right,
        ← cut_append_cut source (Nat.sub_le i left.length) (Nat.le_succ i), cut_one]
    have htail : i + (byte b rest).text.length = i + 1 + rest.text.length := by
      rw [text_byte, length_cons]
      omega
    have hrest := @ih (b :: left) (i + 1) (by simpa using hleft) hp es (by rwa [← htail])
    rw [length_cons, Nat.add_sub_add_right] at hrest
    rw [found, replacedText, hrest, htail, hkept, length_cons, Nat.add_sub_add_right, drop_drop]
  | pair d inner rest ihInner ihRest =>
    obtain ⟨hown, hinner, hrest⟩ := depth_found_pair source left i d inner rest
    have hmem : ∀ c, c ∈ found source left i (pair d inner rest) ↔ c ∈ (own? source left i d inner).toList ∨
        c ∈ found source [] (i + 1) inner ∨
          c ∈ found source [] (i + (inner.text.length + 2)) rest := fun c => by
      rw [found, mem_append, mem_append]
    have hempty : ∀ k, source.cut ⟨k, k⟩ = [] := fun k => by simp [cut]
    have hstop : i + (pair d inner rest).text.length = i + (inner.text.length + 2) + rest.text.length := by
      rw [length_text_pair, ← Nat.add_assoc]
    rw [hstop] at hes ⊢
    have hbehind := @ihRest [] (i + (inner.text.length + 2)) (Nat.zero_le _)
      (fun c hc hzero => hp c ((hmem c).mpr (.inr (.inr hc))) ((hrest c hc).trans hzero)) es hes
    rw [length_nil, Nat.sub_zero, hempty] at hbehind
    cases hsampling : sampling? left d inner with
    | some f =>
      have hc : own? source left i d inner =
          some ⟨⟨i - leadingBlanks left - (wordBefore left).length, i + (inner.text.length + 2)⟩, f,
            arguments inner (source.drop (i + 1))⟩ := by
        rw [own?, hsampling]
        rfl
      have hc' := Option.mem_toList.mpr hc
      have hfront : source.cut ⟨i - left.length, i - leadingBlanks left - (wordBefore left).length⟩ =
          (source.cut ⟨i - left.length, i⟩).take (beforeWord left).length := by
        have := length_beforeWord left
        simp only [cut, take_take]
        congr 1
        omega
      rw [spliced_pair_of_some hc (hp _ ((hmem _).mpr (.inl hc')) (hown _ hc')), hbehind,
        replacedText_of_some rest hsampling, hfront, drop_drop, drop_drop]
      simp only [List.append_assoc]
    | none =>
      have hnone : own? source left i d inner = none := by rw [own?, hsampling]; rfl
      rw [hsampling] at hinner
      have hinside := @ihInner [] (i + 1) (Nat.zero_le _)
        (fun c hc hzero => hp c ((hmem c).mpr (.inr (.inl hc))) ((hinner c hc).trans hzero))
        (chosen p (found source [] (i + (inner.text.length + 2)) rest) ++ es)
        (fun e he => Nat.le_trans (by omega) (le_start_of_mem_rest hes he))
      rw [length_nil, Nat.sub_zero, hempty] at hinside
      have hclose : i + 1 + inner.text.length = i + (inner.text.length + 1) := by omega
      have hlast : i + (inner.text.length + 1) ≤ i + (inner.text.length + 2) := by omega
      have hcloser : source.cut ⟨i + (inner.text.length + 1), i + (inner.text.length + 2)⟩ =
        (source.drop (i + (inner.text.length + 1))).take 1 := cut_one source _
      rw [spliced_pair_of_none hes hnone, hinside, hclose,
        spliced_cut source hlast (fun e he => le_start_of_mem_rest hes he), hcloser, hbehind,
        ← cut_append_cut source (Nat.sub_le i left.length) (Nat.le_succ i), cut_one,
        replacedText_of_none rest hsampling, drop_drop, drop_drop, drop_drop]
      simp only [List.append_assoc]

/-! Masking what replaces a call. -/

namespace Masks

variable {x x' y y' : Text}

theorem append (h : Masks x y) (h' : Masks x' y') (hslash : y.getLast? = some 47 → Harmless x'.head?) :
    Masks (x ++ x') (y ++ y') := by
  obtain ⟨rfl, hend⟩ := h
  obtain ⟨rfl, hend'⟩ := h'
  exact ⟨hend.mask_append hslash, hend.append hslash hend'⟩

theorem of_not_mem (h : 47 ∉ x) : Masks x x := ⟨(bare_of_not_mem h).mask, (bare_of_not_mem h).endsCode⟩

theorem append_left {w : Text} (hw : 47 ∉ w) (h : Masks x y) : Masks (w ++ x) (w ++ y) :=
  (of_not_mem hw).append h fun hlast => absurd (mem_of_getLast? hlast) hw

theorem append_cons {b : UInt8} (hb : b ≠ 47 ∧ b ≠ 42) (h : Masks x y) (h' : Masks x' y') :
    Masks (x ++ b :: x') (y ++ b :: y') := by
  refine h.append (append_left (w := [b]) (by simpa using hb.1.symm) h') fun _ => ?_
  exact ⟨fun heq => hb.1 (Option.some.inj heq), fun heq => hb.2 (Option.some.inj heq)⟩

theorem marked (h : Masks x y) {mark : Text} (hmark : 47 ∉ mark) : Masks (marked mark x) (marked mark y) := by
  rw [marked_eq, marked_eq]
  refine append_left hmark (append_left (w := [40]) (by decide) ?_)
  exact h.append_cons (by decide) (of_not_mem not_mem_nil)

theorem intercalate (h : List.Forall₂ Masks args args') (hx : Masks x y) :
    Masks (([44, 32] : Text).intercalate (x :: args)) (([44, 32] : Text).intercalate (y :: args')) := by
  induction h generalizing x y with
  | nil => simpa using hx
  | cons ha _ ih =>
    rw [List.intercalate_cons_cons, List.intercalate_cons_cons, List.append_assoc, List.append_assoc]
    exact hx.append_cons (by decide) (append_left (w := [32]) (by decide) (ih ha))

theorem sample (h : List.Forall₂ Masks args args') (hx : Masks x y) :
    Masks (sample x args) (sample y args') := by
  have hname : Masks samplerName samplerName := of_not_mem (by decide)
  have hlist : Masks (([44, 32] : Text).intercalate (samplerName :: args) ++ [41])
      (([44, 32] : Text).intercalate (samplerName :: args') ++ [41]) :=
    (intercalate h hname).append_cons (by decide) (of_not_mem not_mem_nil)
  rw [sample_eq, sample_eq, show (".sample" : Text) = 46 :: ("sample" : Text) by decide]
  exact hx.append_cons (by decide) (append_left (by decide) (append_left (w := [40]) (by decide) hlist))

theorem methodCall (h : List.Forall₂ Masks args args') (f : Function) :
    Masks (methodCall f args) (methodCall f args') := by
  have hmark : 47 ∉ f.mark := by cases f <;> decide
  cases h with
  | nil => exact of_not_mem not_mem_nil
  | cons hsurface h =>
    cases h with
    | nil => exact of_not_mem not_mem_nil
    | cons hcoord hextra =>
      refine sample (.cons hcoord ?_) hsurface
      rw [forall₂_map_left_iff, forall₂_map_right_iff]
      exact hextra.imp fun _ _ hm => hm.marked hmark

end Masks

theorem methodCall_eq_append (h : (replacement? f args).isSome) : ∃ w, methodCall f args = w ++ [41] := by
  obtain ⟨new, hnew⟩ := Option.isSome_iff_exists.mp h
  obtain ⟨-, surface, coord, extra, rfl, -⟩ := eq_methodCall hnew
  rw [methodCall, sample_eq, ← List.cons_append, ← List.append_assoc, ← List.append_assoc]
  exact ⟨_, rfl⟩

theorem isCode_intercalate (h : ∀ a ∈ args, a.IsCode) : Text.IsCode (([44, 32] : Text).intercalate args) := by
  induction args with
  | nil => exact fun b hb => absurd hb not_mem_nil
  | cons a args ih =>
    have hrest := ih fun a ha => h a (mem_cons_of_mem _ ha)
    cases args with
    | nil => simpa using h a mem_cons_self
    | cons a' args =>
      rw [intercalate_cons_cons]
      exact ((h a mem_cons_self).append (by decide)).append hrest

theorem isCode_methodCall (h : ∀ a ∈ args, a.IsCode) (f : Function) : (methodCall f args).IsCode := by
  have hmark : f.mark.IsCode := by cases f <;> decide
  rcases args with - | ⟨surface, - | ⟨coord, extra⟩⟩
  · exact fun b hb => absurd hb not_mem_nil
  · exact fun b hb => absurd hb not_mem_nil
  · simp only [forall_mem_cons] at h
    have hargs : ∀ a ∈ samplerName :: coord :: extra.map (marked f.mark), a.IsCode := by
      simp only [forall_mem_cons, forall_mem_map]
      refine ⟨by decide, h.2.1, fun a ha => ?_⟩
      rw [marked_eq]
      exact hmark.append (IsCode.append (s := [40]) (by decide) ((h.2.2 a ha).append (by decide)))
    rw [methodCall, sample_eq]
    refine h.1.append (IsCode.append (by decide) (IsCode.append (s := [40]) (by decide) ?_))
    exact (isCode_intercalate hargs).append (by decide)

/-! The edits of the calls. -/

section Listed

variable {source : Text} {t : Nest} (ht : t.Plain) (hcode : source.IsCode) (hmask : source.mask = t.text)
  {p : Listed} (hp : p ∈ t.lists [] 0) {c : Sampled} (hc : sampled? source p = some c)

include hc in
theorem eq_of_sampled? : sampling? p.left .paren p.inner = some c.function ∧
      c.range = ⟨p.openParen - leadingBlanks p.left - (wordBefore p.left).length,
        p.openParen + (p.inner.text.length + 2)⟩ ∧
      c.args = arguments p.inner (source.drop (p.openParen + 1)) := by
  rw [sampled?, own?, Option.map_eq_some_iff] at hc
  obtain ⟨f, hf, rfl⟩ := hc
  exact ⟨hf, rfl, rfl⟩

include ht hmask hp hc

/-- A call begins with its name and ends with its parenthesis. -/
theorem stands_sampled : ∃ l w r, Stands source.mask l w r c.range := by
  obtain ⟨hsampling, hrange, -⟩ := eq_of_sampled? hc
  have hname := (sampling?_eq_some.mp hsampling).2.1
  have hword : wordBefore p.left = c.function.name := (named?_eq_some.mp hname).2.1
  obtain ⟨-, before, r, htext, hopen, hleft⟩ := exists_of_mem_lists ht hp
  obtain ⟨z, hbefore, hz, hends⟩ := exists_wordBefore before
  rw [wordBefore_upToStop hleft, hword] at hbefore
  have hnamed := Call.named_append c.function.isWord_name hz hends
  rw [← hbefore, Call.named_upToStop hleft] at hnamed
  have hstart : c.range.start = (beforeWord before.reverse).reverse.length := by
    rw [hrange, hword, hopen]
    exact congrArg (fun call => call.nameRange.start) hnamed
  generalize (beforeWord before.reverse).reverse = l at hbefore hstart
  subst hbefore
  have hstop : c.range.stop = (l ++ c.function.name ++ z).length + (p.inner.text.length + 2) := by
    rw [hrange, hopen]
  refine ⟨l, c.function.name ++ (z ++ 40 :: p.inner.text) ++ [41], r, ?_, ?_, ?_, 41,
    getLast?_concat, by decide⟩
  · rw [hmask, htext]
    simp only [List.append_assoc, List.cons_append, List.nil_append]
  · rw [show c.range = ⟨c.range.start, c.range.stop⟩ from rfl, hstart, hstop]
    simp only [length_append, length_cons, length_nil, Range.mk.injEq, true_and]
    omega
  · obtain ⟨b, w, hw⟩ := exists_cons_of_ne_nil c.function.isWord_name.1
    refine ⟨b, by rw [hw]; rfl, isBlank_of_isWordByte (c.function.isWord_name.2 b ?_)⟩
    rw [hw]
    exact mem_cons_self

omit ht hmask hp in
include hcode in
theorem isCode_edit : c.edit.replacement.IsCode := by
  refine isCode_methodCall ?_ _
  rw [(eq_of_sampled? hc).2.2, ← map_cut_ranges]
  intro a ha
  obtain ⟨r, -, rfl⟩ := mem_map.mp ha
  exact hcode.cut r

include hcode

theorem masks_edit : Masks c.edit.replacement (methodCall c.function p.inner.arguments) := by
  rw [Sampled.edit, (eq_of_sampled? hc).2.2]
  exact .methodCall (masks_arguments ht hcode hmask hp) _

theorem exists_surface :
    ∃ surface coord extra, c.args = surface :: coord :: extra ∧ surface.isIdentifier := by
  obtain ⟨hsampling, -, hargs⟩ := eq_of_sampled? hc
  have hsome := (sampling?_eq_some.mp hsampling).2.2
  rw [← isSome_replacement?_masks (masks_arguments ht hcode hmask hp), ← hargs] at hsome
  obtain ⟨new, hnew⟩ := Option.isSome_iff_exists.mp hsome
  exact (eq_methodCall hnew).2

/-- The edit of a call begins and ends in code and opens no comment. -/
theorem inCode_edit (all : List Edit) : c.edit.InCode source all := by
  obtain ⟨l, w, r, hstands⟩ := stands_sampled ht hmask hp hc
  obtain ⟨surface, coord, extra, hargs, hident⟩ := exists_surface ht hcode hmask hp hc
  have hword := isWordByte_of_isIdentifier hident
  obtain ⟨b, s, rfl⟩ := exists_cons_of_ne_nil hword.1
  have hnew : c.edit.replacement = sample (b :: s) (coord :: extra.map (marked c.function.mark)) := by
    rw [Sampled.edit, hargs]
    rfl
  have hhead : c.edit.replacement.head? = some b := by rw [hnew, sample_eq]; rfl
  obtain ⟨w', hw'⟩ := methodCall_eq_append (sampling?_eq_some.mp (eq_of_sampled? hc).1).2.2
  exact
    { within := hstands.within
      ascii := (isCode_edit hcode hc).isAscii
      ne_nil := fun hnil => by rw [hnil] at hhead; cases hhead
      start := hstands.places.1
      stop := hstands.places.2
      closed := (masks_edit ht hcode hmask hp hc).2
      front := fun _ => by
        rw [hhead]
        have hb := hword.2 b mem_cons_self
        constructor <;> rintro heq <;> cases heq <;> exact absurd hb (by decide)
      back := fun hlast => by
        rw [(masks_edit ht hcode hmask hp hc).1, hw', getLast?_concat] at hlast
        cases hlast }

end Listed

theorem map_masked_found {source : Text} (ht : t.Plain) (hcode : source.IsCode)
    (hmask : source.mask = t.text) :
    ((found source [] 0 t).map Sampled.edit).map Edit.masked =
      (found source.mask [] 0 t).map Sampled.edit := by
  rw [← filterMap_sampled?, ← filterMap_sampled?, map_filterMap, map_filterMap, map_filterMap]
  refine filterMap_congr fun p hp => ?_
  cases hc : sampled? source p with
  | none =>
    rw [sampled?, own?, Option.map_eq_none_iff] at hc
    rw [sampled?, own?, hc]
    rfl
  | some c =>
    have hmasks := (masks_edit ht hcode hmask hp hc).1
    obtain ⟨hsampling, hrange, -⟩ := eq_of_sampled? hc
    rw [sampled?, own?, hsampling, Option.map_some, Option.map_some, Option.map_some,
      Option.map_some, Edit.masked, hmasks,
      ← arguments_mask ht hcode hmask hp, show c.edit.range = c.range from rfl, hrange]
    rfl

/-! The text of the tree after a pass. -/

theorem text_join_spaced (s : Nest) (segs : List Nest) :
    (join (s :: segs.map (byte 32))).text = ([44, 32] : Text).intercalate (s.text :: segs.map text) := by
  induction segs generalizing s with
  | nil => simp [join]
  | cons u segs ih =>
    rw [map_cons, join, join_byte, text_append, text_byte, text_byte, ih, map_cons, intercalate_cons_cons]
    simp

theorem text_replacementNest (f : Function) (segs : List Nest) :
    (replacementNest f segs).text = methodCall f (segs.map text) := by
  rcases segs with - | ⟨s, - | ⟨c, segs⟩⟩
  · rfl
  · rfl
  · have hmarked : (segs.map (markedNest f.mark)).map text = (segs.map text).map (marked f.mark) := by
      simp only [map_map]
      refine map_congr_left fun u _ => ?_
      simp [markedNest, marked_eq, Delimiter.opener, Delimiter.closer]
    rw [replacementNest, sampleNest, text_append, text_append, text_pair, text_ofText,
      text_join_spaced, text_ofText,
      map_cons, hmarked, map_cons, map_cons, methodCall, sample_eq]
    rfl

theorem pieces_text (segs : List Nest) (y : Text) :
    pieces segs ((join segs).text ++ y) = segs.map (·.text.strip) := by
  induction segs generalizing y with
  | nil => rfl
  | cons s segs ih =>
    have hfirst : ∀ z : Text, Text.cut (s.text ++ z) ⟨s.text.leadingBlanks, s.text.core.length⟩ =
        s.text.strip := by
      intro z
      have h := cut_trimmed [] s.text z
      rwa [length_nil, Nat.zero_add, Nat.zero_add] at h
    cases segs with
    | nil => rw [join, pieces, hfirst]; rfl
    | cons s' segs =>
      have hrest : (s.text ++ 44 :: ((join (s' :: segs)).text ++ y)).drop (s.text.length + 1) =
          (join (s' :: segs)).text ++ y := by
        rw [drop_length_add_append]
        rfl
      rw [join, text_append, text_byte, List.append_assoc, List.cons_append, pieces, hfirst, hrest, ih]
      rfl

theorem arguments_text (inner : Nest) (y : Text) : arguments inner (inner.text ++ y) = inner.arguments := by
  rw [arguments]
  split
  · next hblank => exact (isEmpty_iff.mp ((isEmpty_arguments inner).trans hblank)).symm
  · next hblank =>
    conv_lhs => rw [← join_commas inner, commas_join (commas_ne_nil inner) (noComma_commas inner)]
    rw [pieces_text, arguments_of_not_blank hblank]

/-- The text of a tree, with its outermost calls replaced, is the text of the tree with these calls
replaced. -/
theorem replacedText_text (left : Text) (t : Nest) (y : Text) :
    replacedText left left.reverse (t.text ++ y) t = (replaced left t).text := by
  induction t generalizing left y with
  | nil => simp [replacedText, replaced]
  | byte b rest ih =>
    exact (congrArg (fun kept => replacedText _ kept _ rest) reverse_cons.symm).trans (ih _ y)
  | pair d inner rest ihInner ihRest =>
    have htext : (pair d inner rest).text ++ y =
        d.opener :: (inner.text ++ d.closer :: (rest.text ++ y)) := by
      simp [text_pair]
    have hcloser : (d.opener :: (inner.text ++ d.closer :: (rest.text ++ y))).drop (inner.text.length + 1) =
        d.closer :: (rest.text ++ y) := by
      rw [drop_succ_cons, drop_left]
    have hrest : (d.opener :: (inner.text ++ d.closer :: (rest.text ++ y))).drop (inner.text.length + 2) =
        rest.text ++ y := by
      rw [drop_succ_cons, drop_length_add_append]
      rfl
    rw [htext]
    cases hsampling : sampling? left d inner with
    | some f =>
      have hsome := (sampling?_eq_some.mp hsampling).2.2
      have hargs : ((commas inner).map Nest.strip).map text = inner.arguments := by
        rw [arguments_of_not_blank (exists_of_replacement hsome).1, map_map]
        exact map_congr_left fun s _ => text_strip s
      have hfront : left.reverse.take (beforeWord left).length = (beforeWord left).reverse := by
        obtain ⟨word, hword⟩ := suffix_beforeWord left
        have hreverse := congrArg reverse hword
        rw [reverse_append] at hreverse
        rw [← hreverse, take_left' length_reverse]
      rw [replacedText_of_some rest hsampling, replaced_of_some rest hsampling, text_append,
        text_append, text_ofText,
        text_replacementNest, hargs, hrest, hfront, drop_one, tail_cons, arguments_text]
      exact congrArg (fun z => _ ++ (_ ++ z)) (ihRest [] y)
    | none =>
      rw [replacedText_of_none rest hsampling, replaced_of_none rest hsampling, text_append,
        text_ofText, text_pair, hrest,
        hcloser, drop_one, tail_cons]
      have hinner := ihInner [] (d.closer :: (rest.text ++ y))
      have hrest' := ihRest [] y
      rw [reverse_nil] at hinner hrest'
      rw [hinner, hrest']
      rfl

theorem plain_strip {s : Nest} (h : s.Plain) : s.strip.Plain := by
  rw [← strip_eq s, plain_append, plain_append] at h
  exact h.2.1

theorem plain_replacementNest {segs : List Nest} (h : ∀ s ∈ segs, s.Plain) :
    (replacementNest f segs).Plain := by
  have hmark : f.mark.all Delimiter.plain := by cases f <;> decide
  have hname : samplerName.all Delimiter.plain := by decide
  have hmethod : (".sample" : Text).all Delimiter.plain := by decide
  rw [all_eq_true] at hmark hname hmethod
  rcases segs with - | ⟨s, - | ⟨c, segs⟩⟩
  · trivial
  · trivial
  · simp only [forall_mem_cons] at h
    have hlist : ∀ u ∈ ofText samplerName :: (c :: segs.map (markedNest f.mark)).map (byte 32), u.Plain := by
      simp only [map_cons, map_map, forall_mem_cons, forall_mem_map]
      refine ⟨plain_ofText hname, ⟨by decide, h.2.1⟩, fun u hu => ⟨by decide, ?_⟩⟩
      exact plain_append.mpr ⟨plain_ofText hmark, h.2.2 u hu, trivial⟩
    exact plain_append.mpr ⟨h.1, plain_append.mpr ⟨plain_ofText hmethod, plain_join_of_forall hlist, trivial⟩⟩

theorem plain_replaced (h : t.Plain) {left : Text} (hleft : ∀ b ∈ left, Delimiter.plain b) :
    (replaced left t).Plain := by
  induction t generalizing left with
  | nil => exact plain_ofText (by simpa using hleft)
  | byte b rest ih => exact ih h.2 (forall_mem_cons.mpr ⟨h.1, hleft⟩)
  | pair d inner rest ihInner ihRest =>
    have hrest := ihRest h.2 (fun b hb => absurd hb (not_mem_nil))
    cases hsampling : sampling? left d inner with
    | some f =>
      have hbefore : ∀ b ∈ (beforeWord left).reverse, Delimiter.plain b := fun b hb =>
        hleft b ((suffix_beforeWord left).subset (mem_reverse.mp hb))
      have hsegs : ∀ s ∈ (commas inner).map Nest.strip, s.Plain := by
        rw [forall_mem_map]
        exact fun s hs => plain_strip (plain_join (by rw [join_commas]; exact h.1) s hs)
      rw [replaced_of_some rest hsampling]
      exact plain_append.mpr ⟨plain_ofText hbefore, plain_append.mpr ⟨plain_replacementNest hsegs, hrest⟩⟩
    | none =>
      rw [replaced_of_none rest hsampling]
      exact plain_append.mpr ⟨plain_ofText (by simpa using hleft),
        ihInner h.1 (fun b hb => absurd hb (not_mem_nil)), hrest⟩

end Sampling

end GlslToMetal
