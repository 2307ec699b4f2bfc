import GlslToMetal.Proofs.Sampling.Found

/-! Sampling calls inside each other. The number of calls around a call, which their ranges give, is the
number of calls that the walk over the tree is in. A pass replaces the calls that no other call
encloses, and what stands in their arguments is copied: so in the new tree every other call is one call
less deep, and nothing else is a call that is replaced. -/

namespace GlslToMetal

open Text

variable {f : Function} {segs : List Nest} {args : List Text} {n : Nat} {inner s t : Nest} {a left x : Text}
  {b : UInt8}

namespace Nest

/-- The tree without the blanks at its start. -/
def stripStart : Nest → Nest
  | nil => nil
  | byte b rest => if isBlank b then rest.stripStart else byte b rest
  | pair d inner rest => pair d inner rest

/-- The tree without the blanks at its ends. -/
def strip (t : Nest) : Nest := t.stripStart.stripEnd

theorem stripStart_eq (t : Nest) : ofText (t.text.takeWhile isBlank) ++ t.stripStart = t := by
  induction t with
  | nil => rfl
  | byte b rest ih =>
    by_cases hb : isBlank b
    · rw [stripStart, if_pos hb, text_byte, List.takeWhile_cons_of_pos hb, ofText, byte_append, ih]
    · rw [stripStart, if_neg hb, text_byte, List.takeWhile_cons_of_neg hb, ofText, nil_append]
  | pair d inner rest =>
    rw [text_pair, List.takeWhile_cons_of_neg (by simp [isBlank_opener]), ofText, nil_append, stripStart]

theorem text_stripStart (t : Nest) : t.stripStart.text = t.text.dropWhile isBlank := by
  have h := congrArg text (stripStart_eq t)
  rw [text_append, text_ofText] at h
  exact List.append_cancel_left (h.trans List.takeWhile_append_dropWhile.symm)

theorem text_stripEnd (t : Nest) : t.stripEnd.text = t.text.stripEnd := by
  have h := congrArg text (stripEnd_append t)
  rw [text_append, text_ofText] at h
  have hsplit : t.text.stripEnd ++ t.text.trailing = t.text := by
    rw [Text.stripEnd, trailing, ← List.reverse_append, List.takeWhile_append_dropWhile, List.reverse_reverse]
  exact List.append_cancel_right (h.trans hsplit.symm)

theorem text_strip (t : Nest) : t.strip.text = t.text.strip := by
  rw [strip, text_stripEnd, text_stripStart, Text.strip]

theorem strip_eq (t : Nest) :
    ofText (t.text.takeWhile isBlank) ++ (t.strip ++ ofText t.stripStart.text.trailing) = t := by
  rw [strip, stripEnd_append, stripStart_eq]

end Nest

namespace Sampling

open Nest

/-- The calls that are replaced in a part of a program behind `left` that is the text `x`, each with the
number of those around it. -/
def nested (left x : Text) : Nest → List (Nat × Function × List Text)
  | nil => []
  | byte b rest => nested (b :: left) (x.drop 1) rest
  | pair d inner rest =>
    ((sampling? left d inner).map fun f => (0, f, arguments inner (x.drop 1))).toList ++
      (((nested [] (x.drop 1) inner).map fun c => (c.1 + (sampling? left d inner).toList.length, c.2)) ++
        nested [] (x.drop (inner.text.length + 2)) rest)

/-! Depth by ranges and by the walk. -/

namespace Sampled

theorem depth_append (calls more : List Sampled) (c : Sampled) :
    depth (calls ++ more) c = depth calls c + depth more c := List.countP_append

theorem depth_eq_zero {calls : List Sampled} {c : Sampled}
    (h : ∀ e ∈ calls, e.range.start < c.range.start → e.range.stop ≤ c.range.stop) : depth calls c = 0 := by
  rw [depth, List.countP_eq_zero]
  intro e he henc
  simp only [encloses, Bool.and_eq_true, decide_eq_true_eq] at henc
  have := h e he henc.1
  omega

theorem depth_eq_length {calls : List Sampled} {c : Sampled}
    (h : ∀ e ∈ calls, e.range.start < c.range.start ∧ c.range.stop < e.range.stop) :
    depth calls c = calls.length := by
  rw [depth, List.countP_eq_length]
  intro e he
  simp [encloses, h e he]

end Sampled

/-- The calls around a call: those between the same delimiters, and that of the delimiters. -/
theorem depth_found_pair (source left : Text) (i : Nat) (d : Delimiter) (inner rest : Nest) :
    (∀ c ∈ (own? source left i d inner).toList,
      Sampled.depth (found source left i (pair d inner rest)) c = 0) ∧
    (∀ c ∈ found source [] (i + 1) inner, Sampled.depth (found source left i (pair d inner rest)) c =
        Sampled.depth (found source [] (i + 1) inner) c + (sampling? left d inner).toList.length) ∧
    ∀ c ∈ found source [] (i + (inner.text.length + 2)) rest,
      Sampled.depth (found source left i (pair d inner rest)) c =
        Sampled.depth (found source [] (i + (inner.text.length + 2)) rest) c := by
  have hlength : (own? source left i d inner).toList.length = (sampling? left d inner).toList.length := by
    rw [own?]
    cases sampling? left d inner <;> rfl
  simp only [found, Sampled.depth_append]
  refine ⟨fun c hc => ?_, fun c hc => ?_, fun c hc => ?_⟩
  · have hc' := range_of_own? hc
    rw [Sampled.depth_eq_zero fun e he _ => by have := range_of_own? he; omega,
      Sampled.depth_eq_zero fun e he _ => by have := bounds_inner he; omega,
      Sampled.depth_eq_zero fun e he _ => by have := bounds_rest he; omega]
  · have hc' := bounds_inner hc
    rw [Sampled.depth_eq_length fun e he => by have := range_of_own? he; omega,
      @Sampled.depth_eq_zero (found source [] (i + (inner.text.length + 2)) rest) c fun e he _ => by
        have := bounds_rest he; omega, hlength, Nat.add_zero, Nat.add_comm]
  · have hc' := bounds_rest hc
    rw [Sampled.depth_eq_zero fun e he _ => by have := range_of_own? he; omega,
      @Sampled.depth_eq_zero (found source [] (i + 1) inner) c fun e he _ => by
        have := bounds_inner he; omega,
      Nat.zero_add, Nat.zero_add]

/-- **The number of calls whose ranges enclose a call is the number of calls that the walk is in.** -/
theorem map_depth_found (source left : Text) (i : Nat) (t : Nest) :
    (found source left i t).map (fun c => (Sampled.depth (found source left i t) c, c.function, c.args)) =
      nested left (source.drop i) t := by
  induction t generalizing left i with
  | nil => rfl
  | byte b rest ih =>
    rw [nested, List.drop_drop, ← ih]
    rfl
  | pair d inner rest ihInner ihRest =>
    obtain ⟨hown, hinner, hrest⟩ := depth_found_pair source left i d inner rest
    rw [nested, List.drop_drop, List.drop_drop, ← ihInner, ← ihRest]
    conv_lhs =>
      arg 2
      rw [found]
    rw [List.map_append, List.map_append]
    refine congrArg₂ _ ?_ (congrArg₂ _ ?_ ?_)
    · rw [List.map_congr_left fun c hc => by rw [hown c hc], own?]
      cases sampling? left d inner <;> rfl
    · rw [List.map_congr_left fun c hc => by rw [hinner c hc], List.map_map]
      rfl
    · rw [List.map_congr_left fun c hc => by rw [hrest c hc]]

/-! The parts of a tree. -/

theorem nested_ofText (left x y : Text) : nested left x (ofText y) = [] := by
  induction y generalizing left x with
  | nil => rfl
  | cons b y ih => exact ih _ _

theorem nested_append (left x : Text) (s t : Nest) :
    nested left x (s ++ t) = nested left x s ++ nested (s.context left) (x.drop s.text.length) t := by
  induction s generalizing left x with
  | nil => rfl
  | byte b rest ih =>
    rw [byte_append, nested, nested, ih, List.drop_drop, context, text_byte, List.length_cons, Nat.add_comm]
  | pair d inner rest _ ihRest =>
    rw [pair_append, nested, nested, ihRest, context, List.drop_drop, length_text_pair]
    simp only [List.append_assoc]

theorem nested_of_not_mem (h : 40 ∉ t.text) (left x : Text) : nested left x t = [] := by
  induction t generalizing left x with
  | nil => rfl
  | byte b rest ih => exact ih (fun hmem => h (List.mem_cons_of_mem _ hmem)) _ _
  | pair d inner rest ihInner ihRest =>
    simp only [text_pair, List.mem_cons, List.mem_append, not_or] at h
    have hd : sampling? left d inner = none := if_neg fun hd => h.1 (by rw [hd]; rfl)
    rw [nested, hd, ihInner h.2.1, ihRest h.2.2.2]
    rfl

theorem pieces_take (h : (join segs).text.length ≤ n) : pieces segs (x.take n) = pieces segs x := by
  induction segs generalizing x n with
  | nil => rfl
  | cons s segs ih =>
    have hcore : s.text.core.length ≤ s.text.length := by
      rw [← congrArg List.length (core_append_blankTail s.text), List.length_append]
      exact Nat.le_add_right _ _
    have hs : s.text.length ≤ n := by
      cases segs with
      | nil => exact h
      | cons s' segs =>
        rw [join, text_append, List.length_append] at h
        omega
    have hfirst : Text.cut (x.take n) ⟨s.text.leadingBlanks, s.text.core.length⟩ =
        x.cut ⟨s.text.leadingBlanks, s.text.core.length⟩ := by
      simp only [cut, List.drop_take, List.take_take]
      congr 1
      omega
    rw [pieces, pieces, hfirst, List.drop_take]
    cases segs with
    | nil => rfl
    | cons s' segs =>
      rw [join, text_append, text_byte, List.length_append, List.length_cons] at h
      rw [ih (by omega)]

theorem arguments_take (h : inner.text.length ≤ n) : arguments inner (x.take n) = arguments inner x := by
  rw [arguments, arguments, pieces_take (by rwa [join_commas])]

theorem nested_take (h : t.text.length ≤ n) : nested left (x.take n) t = nested left x t := by
  induction t generalizing left x n with
  | nil => rfl
  | byte b rest ih =>
    rw [nested, nested, List.drop_take, ih]
    simp only [text_byte, List.length_cons] at h
    omega
  | pair d inner rest ihInner ihRest =>
    simp only [text_pair, List.length_cons, List.length_append] at h
    rw [nested, nested, List.drop_take, List.drop_take, arguments_take (by omega),
      ihInner (by omega), ihRest (by omega)]

/-- Two texts before a part with the same words before its calls. -/
def Alike (left left' : Text) : Prop := ∀ u, named? (u ++ left) = named? (u ++ left')

theorem nested_congr {left' : Text} (h : Alike left left') (x : Text) (t : Nest) :
    nested left x t = nested left' x t := by
  induction t generalizing left left' x with
  | nil => rfl
  | byte b rest ih =>
    refine ih (fun u => ?_) _
    simpa using h (u ++ [b])
  | pair d inner rest _ _ =>
    have hsame : sampling? left d inner = sampling? left' d inner := by
      unfold sampling?
      rw [show named? left = named? left' from h []]
    rw [nested, nested, hsame]

theorem alike_stop (hb : isStop b) (beyond : Text) : Alike (b :: beyond) [] := by
  intro u
  refine named?_upToStop (.inr ⟨b, beyond, hb, ?_⟩)
  rw [List.append_nil]

theorem alike_blanks {z : Text} (hz : z.all isBlank) : Alike z [] := by
  intro u
  rw [List.append_nil]
  unfold named? wordBefore beforeWord
  rw [List.dropWhile_append, dropWhile_of_all hz]
  split
  · next hnil => rw [List.isEmpty_iff.mp hnil]
  · -- The word ends where it did, and no dot is among the blanks.
    generalize hv : u.dropWhile isBlank = v
    have hparts : v ++ z = v.takeWhile isWordByte ++ (v.dropWhile isWordByte ++ z) := by
      rw [← List.append_assoc, List.takeWhile_append_dropWhile]
    have hapart : StartsApart (v.dropWhile isWordByte ++ z) := by
      cases hw : v.dropWhile isWordByte with
      | nil => simpa using @startsApart_append z [] hz nofun
      | cons b w =>
        rintro _ ⟨⟩
        exact startsApart_dropWhile v b (by rw [hw]; rfl)
    have hword : ∀ b ∈ v.takeWhile isWordByte, isWordByte b := fun b hb => List.mem_takeWhile_imp hb
    have hhead : (v.dropWhile isWordByte ++ z).head? = some 46 ↔
        (v.dropWhile isWordByte).head? = some 46 := by
      cases v.dropWhile isWordByte with
      | nil =>
        refine iff_of_false (fun h => ?_) (by simp)
        exact absurd (List.all_eq_true.mp hz 46 (List.mem_of_head? h)) (by decide)
      | cons b w => rfl
    rw [hparts, takeWhile_append_apart hword hapart, dropWhile_append_apart hword hapart]
    simp only [Bool.or_eq_true, beq_iff_eq, hhead]

theorem context_ofText (left y : Text) : (ofText y).context left = y.reverse ++ left := by
  induction y generalizing left with
  | nil => rfl
  | cons b y ih => rw [ofText, context, ih, List.reverse_cons, List.append_assoc]; rfl

theorem nested_strip (x : Text) (s : Nest) :
    nested [] (x.cut ⟨s.text.leadingBlanks, s.text.core.length⟩) s.strip = nested [] x s := by
  have hlength : s.strip.text.length ≤ s.text.core.length - s.text.leadingBlanks := by
    rw [text_strip]
    by_cases hblank : s.text.all isBlank
    · rw [strip_of_all hblank]
      exact Nat.zero_le _
    · rw [(eq_strip_append hblank).2.1, List.length_append, leadingBlanks]
      omega
  have hblanks : (s.text.takeWhile isBlank).reverse.all isBlank := by
    rw [List.all_reverse]
    exact List.all_takeWhile
  calc nested [] (x.cut ⟨s.text.leadingBlanks, s.text.core.length⟩) s.strip
      = nested [] (x.drop s.text.leadingBlanks) s.strip := nested_take hlength
    _ = nested (s.text.takeWhile isBlank).reverse (x.drop s.text.leadingBlanks) s.strip :=
        (nested_congr (alike_blanks hblanks) _ _).symm
    _ = nested [] x (ofText (s.text.takeWhile isBlank) ++
      (s.strip ++ ofText s.stripStart.text.trailing)) := by
        rw [nested_append, nested_ofText, List.nil_append, nested_append, nested_ofText,
          List.append_nil, text_ofText,
          context_ofText, List.append_nil, leadingBlanks]
    _ = nested [] x s := by rw [strip_eq]

theorem nested_join (x : Text) (segs : List Nest) :
    nested [] x (join segs) = (List.zipWith (nested []) (pieces segs x) (segs.map Nest.strip)).flatten := by
  induction segs generalizing x with
  | nil => rfl
  | cons s segs ih =>
    rw [pieces, List.map_cons, List.zipWith_cons_cons, List.flatten_cons, nested_strip, ← ih]
    cases segs with
    | nil => simp [join, nested]
    | cons s' segs =>
      rw [join, nested_append, nested, List.drop_drop, nested_congr (alike_stop (by decide) _)]

/-! What replaces a call. -/

def markedNest (mark : Text) (t : Nest) : Nest := ofText mark ++ pair .paren t nil

/-- The tree of the method call with these arguments. -/
def sampleNest (surface : Nest) (args : List Nest) : Nest :=
  surface ++ (ofText (".sample" : Text) ++ pair .paren (join (ofText samplerName :: args.map (byte 32))) nil)

/-- The tree of what replaces a call of `f`. -/
def replacementNest (f : Function) : List Nest → Nest
  | surface :: coord :: extra => sampleNest surface (coord :: extra.map (markedNest f.mark))
  | _ => nil

/-- The tree behind `left` with its outermost calls replaced. What stands in `left` comes out before it,
up to the name of a call that is replaced. -/
def replaced (left : Text) : Nest → Nest
  | nil => ofText left.reverse
  | byte b rest => replaced (b :: left) rest
  | pair d inner rest =>
    match sampling? left d inner with
    | some f =>
      ofText (beforeWord left).reverse ++
        (replacementNest f ((commas inner).map Nest.strip) ++ replaced [] rest)
    | none => ofText left.reverse ++ pair d (replaced [] inner) (replaced [] rest)

/-- The text of a tree with its outermost calls replaced, where the tree is the text `x` and `kept` the
text before it. -/
def replacedText (left kept x : Text) : Nest → Text
  | nil => kept
  | byte b rest => replacedText (b :: left) (kept ++ x.take 1) (x.drop 1) rest
  | pair d inner rest =>
    match sampling? left d inner with
    | some f =>
      kept.take (beforeWord left).length ++ (methodCall f (arguments inner (x.drop 1)) ++
          replacedText [] [] (x.drop (inner.text.length + 2)) rest)
    | none =>
      kept ++ (x.take 1 ++ (replacedText [] [] (x.drop 1) inner ++
        ((x.drop (inner.text.length + 1)).take 1 ++
          replacedText [] [] (x.drop (inner.text.length + 2)) rest)))

section Pair

variable {left : Text} {d : Delimiter} {inner : Nest} (rest : Nest)

theorem replaced_of_some (h : sampling? left d inner = some f) :
    replaced left (pair d inner rest) = ofText (beforeWord left).reverse ++
      (replacementNest f ((commas inner).map Nest.strip) ++ replaced [] rest) := by
  rw [replaced, h]

theorem replaced_of_none (h : sampling? left d inner = none) :
    replaced left (pair d inner rest) = ofText left.reverse ++ pair d (replaced [] inner)
      (replaced [] rest) := by
  rw [replaced, h]

theorem replacedText_of_some (h : sampling? left d inner = some f) (kept x : Text) :
    replacedText left kept x (pair d inner rest) = kept.take (beforeWord left).length ++
        (methodCall f (arguments inner (x.drop 1)) ++
          replacedText [] [] (x.drop (inner.text.length + 2)) rest) := by
  rw [replacedText, h]

theorem replacedText_of_none (h : sampling? left d inner = none) (kept x : Text) :
    replacedText left kept x (pair d inner rest) =
      kept ++ (x.take 1 ++ (replacedText [] [] (x.drop 1) inner ++
        ((x.drop (inner.text.length + 1)).take 1 ++
          replacedText [] [] (x.drop (inner.text.length + 2)) rest))) := by
  rw [replacedText, h]

end Pair

/-! The calls of what replaces a call. -/

/-- The part of a program is as long as the text. -/
def Covers (x : Text) (t : Nest) : Prop := x.length = t.text.length

theorem nested_left (left : Text) (h : Covers x t) (y : Text) : nested left (x ++ y) t = nested left x t := by
  rw [← nested_take (Nat.le_of_eq h.symm), List.take_left]

theorem covers_pieces {x : Text} {segs : List Nest} (h : (join segs).text.length ≤ x.length) :
    List.Forall₂ Covers (pieces segs x) (segs.map Nest.strip) := by
  induction segs generalizing x with
  | nil => exact .nil
  | cons s segs ih =>
    have hs : s.text.length ≤ x.length ∧ (join segs).text.length ≤ x.length - (s.text.length + 1) := by
      cases segs with
      | nil => exact ⟨h, Nat.zero_le _⟩
      | cons s' segs =>
        rw [join, text_append, text_byte, List.length_append, List.length_cons] at h
        omega
    refine .cons ?_ (ih (by simpa using hs.2))
    rw [Covers, text_strip, cut, List.length_take, List.length_drop]
    by_cases hblank : s.text.all isBlank
    · rw [strip_of_all hblank, Text.core, if_pos hblank, leadingBlanks_of_all hblank]
      simp
    · have hcore := congrArg List.length (eq_strip_append hblank).2.1
      have hsum := congrArg List.length (core_append_blankTail s.text)
      rw [List.length_append] at hcore hsum
      simp only [leadingBlanks]
      omega

theorem marked_eq (mark a : Text) : marked mark a = mark ++ 40 :: (a ++ [41]) := by
  rw [marked, show ("(" : Text) = [40] by decide, show (")" : Text) = [41] by decide]
  simp

theorem sample_eq (surface : Text) (args : List Text) : sample surface args =
      surface ++ ((".sample" : Text) ++
        40 :: (([44, 32] : Text).intercalate (samplerName :: args) ++ [41])) := by
  rw [sample, show (".sample(" : Text) = (".sample" : Text) ++
    [40] by decide, show (")" : Text) = [41] by decide]
  simp

theorem Covers.marked (h : Covers a s) (mark : Text) : Covers (marked mark a) (markedNest mark s) := by
  have h' : a.length = s.text.length := h
  rw [Covers, marked_eq, markedNest, text_append, text_ofText, text_pair]
  simp [h']

theorem sampling?_eq_none (h : ∀ f : Function, named? left ≠ some f.name) (d : Delimiter)
    (inner : Nest) : sampling? left d inner = none := by
  rw [Option.eq_none_iff_forall_ne_some]
  intro f hf
  exact h f (sampling?_eq_some.mp hf).2.1

theorem nested_marked {mark : Text} (hmark : ∀ f : Function, named? mark.reverse ≠ some f.name)
    (h : Covers a s) : nested [] (marked mark a) (markedNest mark s) = nested [] a s := by
  rw [marked_eq, markedNest, nested_append, nested_ofText, text_ofText, List.drop_left, context_ofText,
    List.append_nil, nested, sampling?_eq_none hmark, List.drop_one, List.tail_cons, nested_left [] h]
  simp [nested]

/-- The calls of arguments that are joined are those of the arguments. -/
theorem nested_intercalate (h : List.Forall₂ Covers args segs)
    (ha : Covers a s) :
    Covers (([44, 32] : Text).intercalate (a :: args)) (join (s :: segs.map (byte 32))) ∧
      nested [] (([44, 32] : Text).intercalate (a :: args)) (join (s :: segs.map (byte 32))) =
        nested [] a s ++ (List.zipWith (nested []) args segs).flatten := by
  induction h generalizing a s with
  | nil => exact ⟨by simpa [join] using ha, by simp [join]⟩
  | @cons b u args segs hb _ ih =>
    obtain ⟨hcovers, hcalls⟩ := ih hb
    have htext : ([44, 32] : Text).intercalate (a :: b :: args) =
        a ++ 44 :: 32 :: ([44, 32] : Text).intercalate (b :: args) := by
      simp [List.intercalate]
    have hcovers' : List.length (([44, 32] : Text).intercalate (b :: args)) =
      (join (u :: segs.map (byte 32))).text.length := hcovers
    have ha' : a.length = s.text.length := ha
    rw [htext, List.map_cons, join, join_byte]
    refine ⟨by simp [Covers, hcovers', ha'], ?_⟩
    rw [nested_append, nested_left [] ha, ← ha', List.drop_left, nested,
      nested_congr (alike_stop (by decide) _), nested,
      nested_congr (@alike_blanks [32] (by decide)), List.drop_one, List.drop_one, List.tail_cons,
        List.tail_cons, hcalls]
    rfl

/-- The method call holds the calls of its arguments, wherever it stands. -/
theorem nested_sample (h : List.Forall₂ Covers args segs) {surface : Text}
    (hs : Covers surface s) (hparen : 40 ∉ s.text) (left : Text) :
    Covers (sample surface args) (sampleNest s segs) ∧
      nested left (sample surface args) (sampleNest s segs) =
        (List.zipWith (nested []) args segs).flatten := by
  have hname : Covers samplerName (ofText samplerName) := by rw [Covers, text_ofText]
  obtain ⟨hcovers, hcalls⟩ := nested_intercalate h hname
  have hs' : surface.length = s.text.length := hs
  have hcovers' : List.length (([44, 32] : Text).intercalate (samplerName :: args)) =
    (join (ofText samplerName :: segs.map (byte 32))).text.length := hcovers
  have hnone : ∀ beyond : Text, named? ((".sample" : Text).reverse ++ beyond) = none := by
    intro beyond
    rw [show (".sample" : Text).reverse = [101, 108, 112, 109, 97, 115, 46] by decide]
    rfl
  rw [sample_eq, sampleNest]
  refine ⟨by simp [Covers, hcovers', hs'], ?_⟩
  rw [nested_append, nested_of_not_mem hparen, List.nil_append, ← hs', List.drop_left,
    nested_append, nested_ofText,
    List.nil_append, text_ofText, List.drop_left, context_ofText, nested,
    sampling?_eq_none (fun f => by rw [hnone]; nofun), List.drop_one, List.tail_cons,
      nested_left [] hcovers, hcalls,
    nested_ofText]
  simp [nested]

theorem named?_mark (f g : Function) :
    named? f.mark.reverse ≠ some g.name := by cases f <;> cases g <;> decide

theorem covers_marked (h : List.Forall₂ Covers args segs) (f : Function) :
    List.Forall₂ Covers (args.map (marked f.mark)) (segs.map (markedNest f.mark)) ∧
      List.zipWith (nested []) (args.map (marked f.mark)) (segs.map (markedNest f.mark)) =
        List.zipWith (nested []) args segs := by
  induction h with
  | nil => exact ⟨.nil, rfl⟩
  | cons ha _ ih =>
    refine ⟨.cons (ha.marked f.mark) ih.1, ?_⟩
    simp only [List.map_cons, List.zipWith_cons_cons, ih.2, nested_marked (named?_mark f) ha]

theorem exists_of_replacement (h : (replacement? f inner.arguments).isSome) :
    ¬ inner.text.all isBlank ∧ ∃ s c segs, commas inner = s :: c :: segs ∧ s.text.strip.isIdentifier := by
  obtain ⟨new, hnew⟩ := Option.isSome_iff_exists.mp h
  obtain ⟨-, surface, coord, extra, hargs, hident⟩ := eq_methodCall hnew
  have hblank : ¬ inner.text.all isBlank := by
    rw [← isEmpty_arguments, hargs]
    exact Bool.false_ne_true
  rw [arguments_of_not_blank hblank, List.map_eq_cons_iff] at hargs
  obtain ⟨s, segs', hsegs, rfl, hargs⟩ := hargs
  obtain ⟨c, segs, rfl, -, -⟩ := List.map_eq_cons_iff.mp hargs
  exact ⟨hblank, s, c, segs, hsegs, hident⟩

/-- **The method call holds the calls that the replaced call held in its arguments.** -/
theorem nested_methodCall (h : (replacement? f inner.arguments).isSome)
    (hx : inner.text.length ≤ x.length) (left : Text) :
    Covers (methodCall f (arguments inner x)) (replacementNest f ((commas inner).map Nest.strip)) ∧
      nested left (methodCall f (arguments inner x)) (replacementNest f ((commas inner).map Nest.strip)) =
        nested [] x inner := by
  -- The surface holds no call.
  obtain ⟨hblank, s, c, segs, hsegs, hident⟩ := exists_of_replacement h
  have hparen : 40 ∉ s.strip.text := by
    rw [text_strip]
    exact (isWordByte_of_isIdentifier hident).not_mem (by decide)
  have hcalls := nested_join x (commas inner)
  have hcovers := @covers_pieces x (commas inner) (by rwa [join_commas])
  rw [join_commas] at hcalls
  rw [arguments, if_neg hblank, hcalls]
  rw [hsegs] at hcovers ⊢
  obtain ⟨hs, hcovers⟩ := List.forall₂_cons.mp hcovers
  obtain ⟨hc, hcovers⟩ := List.forall₂_cons.mp hcovers
  obtain ⟨hmarked, hzip⟩ := covers_marked hcovers f
  obtain ⟨hlength, hsame⟩ := nested_sample (.cons hc hmarked) hs hparen left
  refine ⟨hlength, hsame.trans ?_⟩
  rw [List.zipWith_cons_cons, hzip, pieces, List.map_cons, List.zipWith_cons_cons, nested_of_not_mem hparen]
  rfl

/-! What is not replaced stays as it is. -/

/-- A list with a blank between its parentheses stands in the text. -/
def HasSpacedList (t : Text) : Prop := ∃ a b c d, t = a ++ 40 :: (b ++ 32 :: (c ++ 41 :: d))

theorem HasSpacedList.append {t : Text} (h : HasSpacedList t) (u v : Text) :
    HasSpacedList (u ++ (t ++ v)) := by
  obtain ⟨a, b, c, d, rfl⟩ := h
  exact ⟨u ++ a, b, c, d ++ v, by simp⟩

theorem HasSpacedList.mem {t : Text} (h : HasSpacedList t) : 40 ∈ t := by
  obtain ⟨a, b, c, d, rfl⟩ := h
  exact List.mem_append_right _ List.mem_cons_self

theorem hasSpacedList_replacementNest (h : (replacement? f inner.arguments).isSome) :
    HasSpacedList (replacementNest f ((commas inner).map Nest.strip)).text := by
  obtain ⟨-, s, c, segs, hsegs, -⟩ := exists_of_replacement h
  rw [hsegs]
  refine ⟨s.strip.text ++ (".sample" : Text), samplerName ++ [44],
    (join (c.strip :: (segs.map Nest.strip).map fun s =>
    byte 32 (markedNest f.mark s))).text, [], ?_⟩
  simp only [List.map_cons, List.map_map, replacementNest, sampleNest, text_append, text_pair,
    text_ofText, text_nil,
    join_cons (List.cons_ne_nil _ _), text_byte, join_byte, List.append_assoc, List.cons_append,
      List.nil_append]
  rfl

theorem replaced_cases (left : Text) (t : Nest) :
    HasSpacedList (replaced left t).text ∨ replaced left t = ofText left.reverse ++ t := by
  induction t generalizing left with
  | nil => exact .inr (append_nil _).symm
  | byte b rest ih =>
    refine (ih (b :: left)).imp_right fun h => ?_
    rw [replaced, h, List.reverse_cons, ofText_append, append_assoc]
    rfl
  | pair d inner rest ihInner ihRest =>
    rw [replaced]
    split
    · next f hf =>
      rw [text_append, text_append]
      exact .inl ((hasSpacedList_replacementNest (sampling?_eq_some.mp hf).2.2).append _ _)
    · rw [text_append, text_pair]
      rcases ihInner [] with hspaced | hinner
      · have h := hspaced.append (left.reverse ++ [d.opener]) (d.closer :: (replaced [] rest).text)
        exact .inl (by simpa using h)
      · rcases ihRest [] with hspaced | hrest
        · have h := hspaced.append (left.reverse ++ d.opener :: ((replaced [] inner).text ++ [d.closer])) []
          exact .inl (by simpa using h)
        · rw [hinner, hrest]
          exact .inr rfl

theorem replaced_stop (hb : isStop b) (u beyond : Text) (t : Nest) :
    replaced (u ++ b :: beyond) t = ofText (b :: beyond).reverse ++ replaced u t := by
  induction t generalizing u with
  | nil => rw [replaced, replaced, List.reverse_append, ofText_append]
  | byte c rest ih => exact ih (c :: u)
  | pair d inner rest _ _ =>
    have hsame : sampling? (u ++ b :: beyond) d inner = sampling? u d inner := by
      unfold sampling?
      rw [named?_upToStop (.inr ⟨b, beyond, hb, rfl⟩)]
    simp only [isStop, Bool.and_eq_true, Bool.not_eq_true'] at hb
    have hword : beforeWord (u ++ b :: beyond) = beforeWord u ++ b :: beyond := by
      rw [beforeWord, dropWhile_append_cons hb.1.1, dropWhile_append_cons hb.1.2, beforeWord]
    rw [replaced, replaced, hsame]
    split
    · rw [hword, List.reverse_append, ofText_append, append_assoc]
    · rw [List.reverse_append, ofText_append, append_assoc]

/-- What stands behind a tree is replaced as it is behind the bytes at the end of the tree. -/
theorem exists_replaced_append (left : Text) (s : Nest) :
    ∃ base, ∀ t, replaced left (s ++ t) = base ++ replaced (s.context left) t := by
  induction s generalizing left with
  | nil => exact ⟨nil, fun t => rfl⟩
  | byte b rest ih => exact ih (b :: left)
  | pair d inner rest _ ihRest =>
    obtain ⟨base, hbase⟩ := ihRest []
    cases hcall : sampling? left d inner with
    | some f =>
      refine ⟨ofText (beforeWord left).reverse ++
        (replacementNest f ((commas inner).map Nest.strip) ++ base), fun t => ?_⟩
      rw [pair_append, replaced_of_some _ hcall, hbase, append_assoc, append_assoc]
      rfl
    | none =>
      refine ⟨ofText left.reverse ++ pair d (replaced [] inner) base, fun t => ?_⟩
      rw [pair_append, replaced_of_none _ hcall, hbase, append_assoc, pair_append]
      rfl

/-- A tree in which nothing depends on what stands before it is replaced on its own. -/
theorem replaced_append {t' : Nest} (h : ∀ left, replaced left t = ofText left.reverse ++ t')
    (left : Text) (s : Nest) :
    replaced left (s ++ t) = replaced left s ++ t' := by
  obtain ⟨base, hbase⟩ := exists_replaced_append left s
  have hs := hbase nil
  rw [append_nil] at hs
  rw [hbase, hs, h, replaced, append_assoc]

theorem replaced_append_stop (hb : isStop b) (left : Text) (s t : Nest) :
    replaced left (s ++ byte b t) = replaced left s ++ byte b (replaced [] t) := by
  refine replaced_append (fun left => ?_) left s
  have hstop := replaced_stop hb [] left t
  rw [List.nil_append] at hstop
  rw [replaced, hstop, List.reverse_cons, ofText_append, append_assoc]
  rfl

theorem replaced_join : replaced [] (join segs) = join (segs.map (replaced [])) := by
  induction segs with
  | nil => rfl
  | cons s segs ih =>
    cases segs with
    | nil => rfl
    | cons s' segs =>
      rw [join, replaced_append_stop (by decide), ih]
      rfl

theorem noComma_strip (h : t.NoComma) : t.strip.NoComma := by
  rw [← strip_eq t, noComma_append, noComma_append] at h
  exact h.2.1

theorem noComma_replaced (h : t.NoComma) (hleft : 44 ∉ left) : (replaced left t).NoComma := by
  induction t generalizing left with
  | nil => exact noComma_ofText (by simpa using hleft)
  | byte b rest ih =>
    refine ih h.2 ?_
    simpa using ⟨h.1.symm, hleft⟩
  | pair d inner rest _ ihRest =>
    rw [replaced]
    split
    · next f hf =>
      obtain ⟨-, s, c, segs, hsegs, -⟩ := exists_of_replacement (sampling?_eq_some.mp hf).2.2
      have hs : s.strip.NoComma :=
        noComma_strip (noComma_commas inner s (by rw [hsegs]; exact List.mem_cons_self))
      have hbefore : 44 ∉ (beforeWord left).reverse := by
        rw [List.mem_reverse]
        exact fun hmem => hleft ((suffix_beforeWord left).subset hmem)
      rw [hsegs]
      simp only [List.map_cons, replacementNest, sampleNest, noComma_append]
      exact ⟨noComma_ofText hbefore, ⟨hs, noComma_ofText (by decide), trivial⟩, ihRest h List.not_mem_nil⟩
    · rw [noComma_append]
      exact ⟨noComma_ofText (by simpa using hleft), ihRest h List.not_mem_nil⟩

theorem commas_replaced (t : Nest) : commas (replaced [] t) = (commas t).map (replaced []) := by
  conv_lhs => rw [← join_commas t, replaced_join]
  refine commas_join (by simpa using commas_ne_nil t) ?_
  intro s hs
  obtain ⟨u, hu, rfl⟩ := List.mem_map.mp hs
  exact noComma_replaced (noComma_commas t u hu) List.not_mem_nil

theorem isSome_replacement?_of_replaced (h : (replacement? f (replaced [] inner).arguments).isSome) :
    (replacement? f inner.arguments).isSome := by
  obtain ⟨hblank', s', c', segs', hsegs', hident⟩ := exists_of_replacement h
  have hcommas := commas_replaced inner
  obtain ⟨s, rest, hsegs, rfl, hrest⟩ := List.map_eq_cons_iff.mp (hcommas.symm.trans hsegs')
  obtain ⟨c, segs, rfl, -, -⟩ := List.map_eq_cons_iff.mp hrest
  have hblank : ¬ inner.text.all isBlank := by
    rw [← join_commas inner, hsegs]
    exact fun hall => absurd (List.all_eq_true.mp hall 44 (by simp [join])) (by decide)
  -- A call in the surface would leave a parenthesis in it.
  have hsame : replaced [] s = s := by
    refine (replaced_cases [] s).resolve_left fun hspaced => ?_
    exact (isWordByte_of_isIdentifier hident).not_mem (by decide) (mem_strip (by decide) hspaced.mem)
  rw [isSome_replacement?, arguments_of_not_blank hblank', hcommas, hsegs] at h
  rw [isSome_replacement?, arguments_of_not_blank hblank, hsegs]
  simpa [hsame] using h

/-- **A call that is not replaced is not replaced later either**: its surface becomes no identifier, and
it gets no other number of arguments. -/
theorem sampling?_replaced {d : Delimiter} (h : sampling? left d inner = none) :
    sampling? left d (replaced [] inner) = none := by
  rw [Option.eq_none_iff_forall_ne_some] at h ⊢
  intro f hf
  obtain ⟨hd, hname, hsome⟩ := sampling?_eq_some.mp hf
  exact h f (sampling?_eq_some.mpr ⟨hd, hname, isSome_replacement?_of_replaced hsome⟩)

/-! The calls after a pass. -/

/-- The calls in at least `n` others, each taken out of `n`. -/
def lowered {α : Type} (n : Nat) (calls : List (Nat × α)) : List (Nat × α) :=
  (calls.filter (n ≤ ·.1)).map fun c => (c.1 - n, c.2)

section Lowered

variable {α : Type}

theorem lowered_append (n : Nat) (calls more : List (Nat × α)) :
    lowered n (calls ++ more) = lowered n calls ++ lowered n more := by
  rw [lowered, List.filter_append, List.map_append]
  rfl

theorem lowered_lowered (m n : Nat) (calls : List (Nat × α)) :
    lowered m (lowered n calls) = lowered (n + m) calls := by
  simp only [lowered, List.filter_map, List.filter_filter, List.map_map, Function.comp_def, Nat.sub_sub]
  congr 2
  funext c
  rw [← Bool.decide_and, decide_eq_decide]
  omega

theorem lowered_deeper (n : Nat) (calls : List (Nat × α)) :
    lowered n (calls.map fun c => (c.1 + n, c.2)) = calls := by
  simp [lowered, List.filter_map, Function.comp_def]

end Lowered

theorem Covers.append {y : Text} (h : Covers x s) (h' : Covers y t) : Covers (x ++ y) (s ++ t) := by
  rw [Covers, List.length_append, text_append, List.length_append, h, h']

theorem nested_append_covers (left : Text) (h : Covers x s) (y : Text) (t : Nest) :
    nested left (x ++ y) (s ++ t) = nested left x s ++ nested (s.context left) y t := by
  rw [nested_append, nested_left left h, ← h, List.drop_left]

theorem context_append (left : Text) (s t : Nest) : (s ++ t).context left = t.context (s.context left) := by
  induction s generalizing left with
  | nil => rfl
  | byte b rest ih => exact ih _
  | pair d inner rest _ ih => exact ih _

theorem context_replacementNest (h : (replacement? f inner.arguments).isSome)
    (left : Text) : (replacementNest f ((commas inner).map Nest.strip)).context left = [] := by
  obtain ⟨-, s, c, segs, hsegs, -⟩ := exists_of_replacement h
  rw [hsegs]
  simp only [List.map_cons, replacementNest, sampleNest, context_append, context]

/-- **A pass replaces the outermost calls**: of the calls of the tree it leaves those that stand in
another, each in one less, with the arguments that it had. -/
theorem nested_replaced {left kept x : Text} {t : Nest} (hkept : kept.length = left.length)
    (hx : t.text.length ≤ x.length) :
    Covers (replacedText left kept x t) (replaced left t) ∧
      nested [] (replacedText left kept x t) (replaced left t) = lowered 1 (nested left x t) := by
  induction t generalizing left kept x with
  | nil => exact ⟨by simp [Covers, replacedText, replaced, hkept], nested_ofText _ _ _⟩
  | byte b rest ih =>
    simp only [text_byte, List.length_cons] at hx
    refine ih ?_ ?_
    · simp [hkept]
      omega
    · simp
      omega
  | pair d inner rest ihInner ihRest =>
    simp only [text_pair, List.length_cons, List.length_append] at hx
    have hrest := @ihRest [] [] (x.drop (inner.text.length + 2)) rfl (by simp; omega)
    rw [replaced, replacedText, nested]
    cases hsampling : sampling? left d inner with
    | some f =>
      have hsome := (sampling?_eq_some.mp hsampling).2.2
      have hmethod := nested_methodCall hsome (x := x.drop 1) (by simp; omega)
      have hfront : Covers (kept.take (beforeWord left).length) (ofText (beforeWord left).reverse) := by
        have := length_beforeWord left
        simp [Covers]
        omega
      refine ⟨hfront.append ((hmethod []).1.append hrest.1), ?_⟩
      simp only
      rw [nested_append_covers [] hfront, nested_ofText, nested_append_covers _ (hmethod []).1, (hmethod _).2,
        context_replacementNest hsome, hrest.2, lowered_append, lowered_append]
      have hdeeper := lowered_deeper 1 (nested [] (x.drop 1) inner)
      exact congrArg (fun calls => [] ++ (calls ++ _)) hdeeper.symm
    | none =>
      have hinner := @ihInner [] [] (x.drop 1) rfl (by simp; omega)
      have hopener : (x.take 1).length = 1 := by simp; omega
      have hcloser : ((x.drop (inner.text.length + 1)).take 1).length = 1 := by simp; omega
      have hfront : Covers kept (ofText left.reverse) := by simp [Covers, hkept]
      have hinner' : (replacedText [] [] (x.drop 1) inner).length =
        (replaced [] inner).text.length := hinner.1
      have hrest' : (replacedText [] [] (x.drop (inner.text.length + 2)) rest).length =
        (replaced [] rest).text.length := hrest.1
      refine ⟨hfront.append ?_, ?_⟩
      · simp only [Covers, List.length_append, text_pair, List.length_cons, hopener, hcloser, hinner', hrest']
        omega
      have hbehind : ((x.take 1 ++
        (replacedText [] [] (x.drop 1) inner ++ ((x.drop (inner.text.length + 1)).take 1 ++
          replacedText [] [] (x.drop (inner.text.length + 2)) rest))).drop
            ((replaced [] inner).text.length + 2)) =
          replacedText [] [] (x.drop (inner.text.length + 2)) rest := by
        rw [← List.append_assoc, ← List.append_assoc]
        refine List.drop_left' ?_
        rw [List.length_append, List.length_append, hopener, hcloser, hinner']
        omega
      simp only
      rw [nested_append_covers [] hfront, nested_ofText, context_ofText, List.reverse_reverse,
        List.append_nil, nested,
        sampling?_replaced hsampling, List.drop_left' hopener, nested_left [] hinner.1, hinner.2,
          hbehind, hrest.2,
        lowered_append, lowered_append]
      simp [lowered]

end Sampling

end GlslToMetal
