import GlslToMetal.Proofs.Call
import GlslToMetal.Proofs.Text.Appending
import Mathlib.Data.List.Forall2

/-! Threading a value through the calls of a tree. The edits that threading collects are positions
in the text; what they do is a walk over the tree that appends the value to the argument lists of
the calls that are meant. The walk changes no name and no number of arguments elsewhere, and the
words of the new text are the old ones and the value. -/

namespace GlslToMetal.Nest

open List Text

variable {i : Nat} {inner t : Nest} {left new whole : Text} {b : UInt8}

section Walk

variable (meant : Text → List Text → Bool) (new : Text)

/-- A pair of delimiters behind `left` is the argument list of a call that is meant. -/
def isMeant (left : Text) (d : Delimiter) (inner : Nest) : Bool :=
  d == .paren && (callee? left).any (meant · inner.arguments)

/-- The tree with the value appended to the calls that are meant. -/
def pass (left : Text) : Nest → Nest
  | nil => nil
  | byte b rest => byte b (rest.pass (b :: left))
  | pair d inner rest =>
    pair d (if isMeant meant left d inner then appendArg new (inner.pass []) else inner.pass [])
      (rest.pass [])

/-- The edits of a tree that starts at offset `i`, from left to right. -/
def edits (left : Text) (i : Nat) : Nest → List Edit
  | nil => []
  | byte b rest => rest.edits (b :: left) (i + 1)
  | pair d inner rest =>
    inner.edits [] (i + 1) ++
      ((if d = .paren then Listed.edit? meant new ⟨left, i, inner⟩ else none).toList ++
        rest.edits [] (i + (inner.text.length + 2)))

theorem edits_perm (t : Nest) (left : Text) (i : Nat) :
    (t.edits meant new left i).Perm ((t.lists left i).filterMap (Listed.edit? meant new)) := by
  induction t generalizing left i with
  | nil => exact .refl _
  | byte b rest ih => exact ih _ _
  | pair d inner rest ihInner ihRest =>
    have hown : (if d = .paren then Listed.edit? meant new ⟨left, i, inner⟩ else none).toList =
        (if d = .paren then [⟨left, i, inner⟩] else []).filterMap (Listed.edit? meant new) := by
      split
      · cases h : Listed.edit? meant new ⟨left, i, inner⟩ <;> simp [h]
      · rfl
    simp only [edits, lists, filterMap_append, hown]
    refine perm_append_comm_assoc _ _ _ |>.trans ?_
    exact (ihInner _ _).append (ihRest _ _) |>.append_left _

/-- What stands before the end of a tree behind `left`, read backwards up to a stop. -/
def context (left : Text) : Nest → Text
  | nil => left
  | byte b rest => rest.context (b :: left)
  | pair _ _ rest => rest.context []

theorem edits_append (s t : Nest) (left : Text) (i : Nat) : (s ++ t).edits meant new left i =
      s.edits meant new left i ++ t.edits meant new (s.context left) (i + s.text.length) := by
  induction s generalizing left i with
  | nil => rfl
  | byte b rest ih =>
    rw [byte_append, edits, ih, edits, context, text_byte, length_cons]
    congr 2
    omega
  | pair d inner rest _ ih =>
    rw [pair_append, edits, ih, edits, context, text_pair]
    simp only [List.append_assoc, List.length_cons, List.length_append]
    congr 4
    omega

theorem edits_upToStop (h : UpToStop left whole) (t : Nest) (i : Nat) :
    t.edits meant new whole i = t.edits meant new left i := by
  induction t generalizing left whole i with
  | nil => rfl
  | byte b rest ih => rw [edits, edits, ih (h.cons b)]
  | pair d inner rest =>
    rw [edits, edits]
    unfold Listed.edit?
    dsimp only
    rw [callee?_upToStop h]
    rfl

end Walk

theorem upToStop_context {left whole : Text} (h : UpToStop left whole) (t : Nest) :
    UpToStop (t.context left) (t.text.reverse ++ whole) := by
  induction t generalizing left whole with
  | nil => exact h
  | byte b rest ih =>
    have := ih (h.cons b)
    simpa [context] using this
  | pair d inner rest _ ih =>
    have := (@ih [] [] (.inl rfl)).append (isStop_closer d)
      (inner.text.reverse ++ d.opener :: whole)
    simpa [context] using this

section Shape

variable {meant : Text → List Text → Bool} {new : Text}

theorem pass_upToStop (h : UpToStop left whole) (t : Nest) :
    t.pass meant new whole = t.pass meant new left := by
  induction t generalizing left whole with
  | nil => rfl
  | byte b rest ih => rw [pass, pass, ih (h.cons b)]
  | pair d inner rest =>
    rw [pass, pass, isMeant, isMeant, callee?_upToStop h]

theorem pass_append_comma (s t : Nest) (left : Text) :
    (s ++ byte 44 t).pass meant new left = s.pass meant new left ++ byte 44 (t.pass meant new []) := by
  induction s generalizing left with
  | nil =>
    rw [nil_append, pass, pass, nil_append, pass_upToStop (.stop (by decide) left)]
  | byte b rest ih => rw [byte_append, pass, pass, byte_append, ih]
  | pair d inner rest _ ih => rw [pair_append, pass, pass, pair_append, ih]

theorem pass_join (segs : List Nest) :
    (join segs).pass meant new [] = join (segs.map (pass meant new [])) := by
  fun_induction join segs with
  | case1 => rfl
  | case2 s => rfl
  | case3 s t rest ih => rw [pass_append_comma, ih]; rfl

theorem noComma_pass (h : t.NoComma) (left : Text) : (t.pass meant new left).NoComma := by
  induction t generalizing left with
  | nil => trivial
  | byte b rest ih => exact ⟨h.1, ih h.2 _⟩
  | pair d inner rest _ ih => exact ih h _

theorem commas_pass (t : Nest) : commas (t.pass meant new []) = (commas t).map (pass meant new []) := by
  conv => lhs; rw [← join_commas t, pass_join]
  refine commas_join (by simp [commas_ne_nil]) ?_
  intro s hs
  obtain ⟨u, hu, rfl⟩ := mem_map.mp hs
  exact noComma_pass (noComma_commas t u hu) _

theorem all_isBlank_pass (t : Nest) (left : Text) :
    (t.pass meant new left).text.all isBlank = t.text.all isBlank := by
  induction t generalizing left with
  | nil => rfl
  | byte b rest ih => simp only [pass, text_byte, all_cons, ih]
  | pair d inner rest => simp [pass, isBlank_opener]

theorem not_mem_of_blank {t : Text} (h : t.all isBlank) : 40 ∉ t := by
  intro hmem
  exact absurd (all_eq_true.mp h 40 hmem) (by decide)

theorem pass_of_not_mem (h : 40 ∉ t.text) (left : Text) : t.pass meant new left = t := by
  induction t generalizing left with
  | nil => rfl
  | byte b rest ih =>
    rw [text_byte, mem_cons, not_or] at h
    rw [pass, ih h.2]
  | pair d inner rest ihInner ihRest =>
    simp only [text_pair, mem_cons, mem_append, not_or] at h
    obtain ⟨hd, hinner, -, hrest⟩ := h
    have hmeant : isMeant meant left d inner = false := by
      cases d <;> simp_all [isMeant, Delimiter.opener]
    rw [pass, hmeant, ihInner hinner, ihRest hrest]
    rfl

theorem trailing_pass (t : Nest) (left : Text) : (t.pass meant new left).text.trailing = t.text.trailing := by
  induction t generalizing left with
  | nil => rfl
  | byte b rest ih =>
    by_cases h : isBlank b && rest.text.all isBlank
    · rw [pass_of_not_mem (not_mem_of_blank (by simpa using h))]
    · rw [pass, text_byte, text_byte, trailing_cons h, trailing_cons, ih]
      rwa [all_isBlank_pass]
  | pair d inner rest _ ih =>
    simp only [pass, text_pair]
    rw [← cons_append, ← cons_append, trailing_append_cons (isBlank_closer d),
      trailing_append_cons (isBlank_closer d), ih]

theorem behindLast_pass (segs : List Nest) : behindLast (segs.map (pass meant new [])) = behindLast segs := by
  fun_induction behindLast segs with
  | case1 => rfl
  | case2 s =>
    show blankTail _ = _
    unfold blankTail
    rw [all_isBlank_pass]
    split
    · rfl
    · exact trailing_pass s []
  | case3 s t rest ih => exact ih

theorem lists_of_not_mem (h : 40 ∉ t.text) (left : Text) (i : Nat) : t.lists left i = [] := by
  induction t generalizing left i with
  | nil => rfl
  | byte b rest ih =>
    rw [text_byte, mem_cons, not_or] at h
    exact ih h.2 _ _
  | pair d inner rest ihInner ihRest =>
    simp only [text_pair, mem_cons, mem_append, not_or] at h
    obtain ⟨hd, hinner, -, hrest⟩ := h
    have hparen : d ≠ .paren := by
      rintro rfl
      exact hd rfl
    rw [lists, ihInner hinner, ihRest hrest, if_neg hparen]
    rfl

theorem edits_of_not_mem (h : 40 ∉ t.text) (left : Text) (i : Nat) : t.edits meant new left i = [] := by
  have hperm := edits_perm meant new t left i
  rw [lists_of_not_mem h] at hperm
  exact hperm.eq_nil

end Shape

theorem insertable_of_isWord (h : new.IsWord) : Insertable new := by
  refine ⟨h.1, ?_, ?_, ?_⟩
  · exact h.not_mem rfl
  · exact h.not_mem rfl
  · intro b hb
    exact isCode_of_isWordByte (h.2 b hb)

theorem rewrites_upToLast {meant : Text → List Text → Bool}
    {edits : List Edit} (h : Rewrites i inner.text edits (inner.pass meant new []).text) :
    Rewrites i (upToLast (commas inner)).text edits
      (upToLast (commas (inner.pass meant new []))).text := by
  have htext := congrArg text (upToLast_append (commas inner))
  have htext' := congrArg text (upToLast_append (commas (inner.pass meant new [])))
  rw [text_append, text_ofText, join_commas] at htext htext'
  obtain ⟨s, hs, hrw⟩ := h.of_append_blanks htext.symm (all_behindLast _)
  rw [commas_pass, behindLast_pass, ← commas_pass, hs] at htext'
  rwa [append_cancel_right htext']

/-- The edits of a pair of delimiters: those inside it, and the value at the end of a call. -/
theorem rewrites_pair {meant : Text → List Text → Bool} (hnew : new.IsWord)
    (d : Delimiter) (h : Rewrites (i + 1) inner.text (inner.edits meant new [] (i + 1))
      (inner.pass meant new []).text) (left : Text) :
    Rewrites i (d.opener :: (inner.text ++ [d.closer]))
      (inner.edits meant new [] (i + 1) ++
        (if d = .paren then Listed.edit? meant new ⟨left, i, inner⟩ else none).toList)
      (d.opener :: ((if isMeant meant left d inner then appendArg new (inner.pass meant new [])
        else inner.pass meant new []).text ++ [d.closer])) := by
  have hplain : Rewrites i (d.opener :: (inner.text ++ [d.closer])) (inner.edits meant new [] (i + 1))
      (d.opener :: ((inner.pass meant new []).text ++ [d.closer])) := by
    have := (h.append (.keep _ [d.closer])).prepend (i := i) [d.opener]
    simpa using this
  by_cases hmeant : isMeant meant left d inner
  · have hd : d = .paren := by
      simp only [isMeant, Bool.and_eq_true, beq_iff_eq] at hmeant
      exact hmeant.1
    subst hd
    have hedit : Listed.edit? meant new ⟨left, i, inner⟩ =
        some (Threading.append (present (spans (i + 1) (commas inner))).getLast? i
          (i + 1 + inner.text.length) new) := by
      simp only [isMeant, Bool.and_eq_true] at hmeant
      simp [Listed.edit?, hmeant.2, Listed.ranges, Listed.closeParen]
    rw [if_pos rfl, hedit, if_pos hmeant, appendArg, isEmpty_arguments, all_isBlank_pass,
      present_spans, Option.toList_some]
    by_cases hblank : inner.text.all isBlank
    · -- A blank list is replaced as a whole.
      rw [edits_of_not_mem (not_mem_of_blank hblank), if_pos hblank, if_pos hblank, text_ofText]
      exact @Rewrites.edit i [40] inner.text new [41] [41] [] (by simp) (insertable_of_isWord hnew)
        (.inl ⟨40, rfl, rfl⟩) (.inr ⟨41, rfl, rfl⟩) (by decide) (.keep _ _)
    · rw [if_neg hblank, if_neg hblank]
      obtain ⟨start, hlast⟩ := getLast?_spans (i + 1) (commas_ne_nil inner)
      have hbefore := (rewrites_upToLast h).prepend (i := i) [40]
      have hsolid : EndsSolid ([40] ++ (upToLast (commas inner)).text) ∨
          (([] : Text) = [] ∧ StartsSolid (behindLast (commas inner) ++ [41])) := by
        rcases endsSolid_upToLast (commas_ne_nil inner) with hsolid | hnil
        · exact .inl (hsolid.append_left _)
        · exact .inr ⟨rfl, 41, by simp [hnil], rfl⟩
      have hedited := hbefore.snoc (by simp) (insertable_of_isWord hnew).comma hsolid (.inl rfl)
        (by simp [show isBlank 41 = false from rfl])
      have htext := congrArg text (upToLast_append (commas inner))
      rw [text_append, text_ofText, join_commas] at htext
      rw [hlast, ← htext, join_extendLast _ (commas_ne_nil _)]
      rw [commas_pass, behindLast_pass, ← commas_pass]
      simpa [Threading.append, Edit.insert, Nat.add_assoc, Nat.add_comm, Delimiter.opener,
        Delimiter.closer, comma_eq] using hedited
  · have hedit : (if d = .paren then Listed.edit? meant new ⟨left, i, inner⟩ else none) = none := by
      simp only [isMeant, Bool.and_eq_true, beq_iff_eq, not_and] at hmeant
      split
      · next hd => simp [Listed.edit?, hmeant hd]
      · rfl
    rw [hedit, if_neg hmeant, Option.toList_none, List.append_nil]
    exact hplain

/-- **The edits of a tree make the walk over it.** -/
theorem rewrites_pass (meant : Text → List Text → Bool) (hnew : new.IsWord) (t : Nest)
    (left : Text) (i : Nat) :
    Rewrites i t.text (t.edits meant new left i) (t.pass meant new left).text := by
  induction t generalizing left i with
  | nil => exact .keep i []
  | byte b rest ih => exact (ih (b :: left) (i + 1)).prepend [b]
  | pair d inner rest ihInner ihRest =>
    have hpair := rewrites_pair hnew d (ihInner [] (i + 1)) left
    have hrest := ihRest [] (i + (inner.text.length + 2))
    have := hpair.append (u := rest.text) (by simpa using hrest)
    simpa [edits, pass] using this

/-! What the walk does to the calls. -/

theorem calls_of_not_mem (h : 40 ∉ t.text) (left : Text) : t.calls left = [] := by
  rw [← filterMap_lists t left 0, lists_of_not_mem h]
  rfl

theorem calls_append (s t : Nest) (left : Text) :
    (s ++ t).calls left = s.calls left ++ t.calls (s.context left) := by
  induction s generalizing left with
  | nil => rfl
  | byte b rest ih => exact ih _
  | pair d inner rest _ ih =>
    rw [pair_append, calls, ih, calls, context]
    simp only [List.append_assoc]

theorem calls_append_of_not_mem (s : Nest) (h : 40 ∉ t.text) (left : Text) :
    (s ++ t).calls left = s.calls left := by
  rw [calls_append, calls_of_not_mem h, List.append_nil]

theorem calls_upToStop (h : UpToStop left whole) (t : Nest) : t.calls whole = t.calls left := by
  induction t generalizing left whole with
  | nil => rfl
  | byte b rest ih => exact ih (h.cons b)
  | pair d inner rest => rw [calls, calls, callee?_upToStop h]

theorem calls_appendArg (hnew : new.IsWord) (t : Nest) (left : Text) :
    (appendArg new t).calls left = t.calls left := by
  unfold appendArg
  rw [isEmpty_arguments]
  split
  · next hblank =>
    rw [calls_of_not_mem (by rw [text_ofText]; exact hnew.not_mem rfl),
      calls_of_not_mem (not_mem_of_blank hblank)]
  · have hbehind : 40 ∉ behindLast (commas t) := not_mem_of_blank (all_behindLast _)
    have hsplit := upToLast_append (commas t)
    rw [join_commas] at hsplit
    rw [join_extendLast _ (commas_ne_nil t), calls_append_of_not_mem _ (by
      simp [hnew.not_mem (b := 40) rfl, hbehind])]
    conv => rhs; rw [← hsplit, calls_append_of_not_mem _ (by rwa [text_ofText])]

theorem arguments_ofText (hnew : new.IsWord) : (ofText new).arguments = [new] := by
  have hcomma : 44 ∉ new := hnew.not_mem rfl
  have hsegs : commas (ofText new) = [ofText new] :=
    @commas_join [ofText new] (by simp) (by simpa using noComma_ofText hcomma)
  have hstrip : new.strip = new := strip_of_none hnew.not_isBlank
  simp [arguments, hsegs, hstrip, hnew.1]

theorem arguments_appendArg (hnew : new.IsWord) (t : Nest) :
    (appendArg new t).arguments = t.arguments ++ [new] := by
  have hstrip : new.strip = new := strip_of_none hnew.not_isBlank
  have hcomma : 44 ∉ new := hnew.not_mem rfl
  unfold appendArg
  rw [isEmpty_arguments]
  split
  · next hblank =>
    rw [← isEmpty_arguments, List.isEmpty_iff] at hblank
    rw [hblank, arguments_ofText hnew, List.nil_append]
  · next hblank =>
    have hsegs : commas (join (extendLast new (commas t))) = extendLast new (commas t) :=
      commas_join (extendLast_ne_nil _ _) (noComma_extendLast hcomma (noComma_commas t))
    have hblank' : ¬ (join (extendLast new (commas t))).text.all isBlank := by
      rw [join_extendLast _ (commas_ne_nil t)]
      simp [show isBlank 44 = false from rfl]
    rw [arguments_of_not_blank hblank', arguments_of_not_blank hblank, hsegs,
      map_strip_extendLast hstrip (commas_ne_nil t)]

/-- The texts are equal, or both hold a parenthesis: an argument with calls in it may change, and
an argument without stays. -/
def Evolved (a b : Text) : Prop := a = b ∨ (40 ∈ a ∧ 40 ∈ b)

theorem mem_strip (hb : isBlank b = false) {t : Text} (h : b ∈ t) : b ∈ t.strip := by
  have hnot : ¬ t.all isBlank := by
    intro hall
    rw [all_eq_true.mp hall b h] at hb
    cases hb
  obtain ⟨ht, -, -⟩ := eq_strip_append hnot
  rw [ht, mem_append, mem_append] at h
  rcases h with (h | h) | h
  · rw [all_eq_true.mp all_takeWhile b h] at hb
    cases hb
  · exact h
  · rw [all_eq_true.mp (all_blankTail t) b h] at hb
    cases hb

/-- A byte that is neither a blank nor a comma is in the new list if it is in the old one or in the
value. -/
theorem mem_appendArg (hb : isBlank b = false) (hcomma : b ≠ 44)
    (hnew : b ∉ new) (t : Nest) : b ∈ (appendArg new t).text ↔ b ∈ t.text := by
  have hblanks : ∀ {z : Text}, z.all isBlank → b ∉ z := by
    intro z hz hmem
    rw [all_eq_true.mp hz b hmem] at hb
    cases hb
  unfold appendArg
  rw [isEmpty_arguments]
  split
  · next hblank => simp [hnew, hblanks hblank]
  · have hsplit := congrArg text (upToLast_append (commas t))
    rw [text_append, text_ofText, join_commas] at hsplit
    have hspace : b ≠ 32 := by
      rintro rfl
      exact absurd hb (by decide)
    rw [join_extendLast _ (commas_ne_nil t), ← hsplit]
    simp [hcomma, hspace, hnew, hblanks (all_behindLast _)]

theorem mem_pass {b : UInt8} (hb : isBlank b = false) (hcomma : b ≠ 44)
    {meant : Text → List Text → Bool} {new : Text} (hnew : b ∉ new) (t : Nest) (left : Text) :
    b ∈ (t.pass meant new left).text ↔ b ∈ t.text := by
  induction t generalizing left with
  | nil => rfl
  | byte c rest ih => rw [pass, text_byte, text_byte, mem_cons, mem_cons, ih]
  | pair d inner rest ihInner ihRest =>
    simp only [pass, text_pair, mem_cons, mem_append, ihRest]
    split
    · rw [mem_appendArg hb hcomma hnew, ihInner]
    · rw [ihInner]

theorem evolved_pass (meant : Text → List Text → Bool) (hnew : new.IsWord) (s : Nest) :
    Evolved s.text.strip (s.pass meant new []).text.strip := by
  by_cases h : 40 ∈ s.text
  · refine .inr ⟨mem_strip rfl h, mem_strip rfl ?_⟩
    exact (mem_pass rfl (by decide) (hnew.not_mem rfl) s []).mpr h
  · exact .inl (by rw [pass_of_not_mem h])

theorem arguments_pass (meant : Text → List Text → Bool) (hnew : new.IsWord) (t : Nest) :
    List.Forall₂ Evolved t.arguments (t.pass meant new []).arguments := by
  by_cases hblank : t.text.all isBlank
  · rw [pass_of_not_mem (not_mem_of_blank hblank)]
    exact forall₂_same.mpr fun _ _ => .inl rfl
  · rw [arguments_of_not_blank hblank, arguments_of_not_blank (by rwa [all_isBlank_pass]),
      commas_pass, map_map, forall₂_map_left_iff, forall₂_map_right_iff]
    exact forall₂_same.mpr fun s _ => evolved_pass meant hnew s

/-- A call before and after the walk: its arguments evolve, and the value is the last of them if the
call is meant. -/
def Called (meant : Text → List Text → Bool) (new : Text) (c c' : Text × List Text) : Prop :=
  c'.1 = c.1 ∧ ∃ args, List.Forall₂ Evolved c.2 args ∧ c'.2 = if meant c.1 c.2 then args ++ [new] else args

/-- **The walk keeps the calls.** Each is a call of the same function, in the same order, and those
that are meant pass the value. -/
theorem calls_pass (meant : Text → List Text → Bool) (hnew : new.IsWord) (t : Nest)
    (left : Text) :
    List.Forall₂ (Called meant new) (t.calls left) ((t.pass meant new left).calls left) := by
  induction t generalizing left with
  | nil => exact .nil
  | byte b rest ih => exact ih _
  | pair d inner rest ihInner ihRest =>
    simp only [calls, pass]
    refine rel_append ?_ (rel_append ?_ (ihRest []))
    · split
      · next hd =>
        cases hcallee : callee? left with
        | none => exact .nil
        | some n =>
          have hown : isMeant meant left d inner = meant n inner.arguments := by
            simp [isMeant, hd, hcallee]
          refine .cons ⟨rfl, (inner.pass meant new []).arguments, arguments_pass meant hnew inner, ?_⟩
            .nil
          rw [hown]
          split
          · exact arguments_appendArg hnew _
          · rfl
      · exact .nil
    · split
      · rw [calls_appendArg hnew]
        exact ihInner []
      · exact ihInner []

/-! What the walk does to the words. -/

theorem mem_runs_appendArg (hnew : new.IsWord) (t : Nest) (w : Text) :
    w ∈ runs (appendArg new t).text ↔ w ∈ runs t.text ∨ w = new := by
  unfold appendArg
  rw [isEmpty_arguments]
  split
  · next hblank =>
    have hnone : runs t.text = [] := by simpa using runs_append_blanks [] hblank
    simp [runs_of_isWord hnew, hnone]
  · have hsplit := congrArg text (upToLast_append (commas t))
    rw [text_append, text_ofText, join_commas] at hsplit
    rw [join_extendLast _ (commas_ne_nil t), ← hsplit, text_append, text_byte, text_ofText,
      runs_append_cons rfl, runs_cons rfl, runs_append_blanks new (all_behindLast _),
      runs_append_blanks _ (all_behindLast _), runs_of_isWord hnew, mem_append,
      mem_singleton]

theorem isWordByte_opener (d : Delimiter) : isWordByte d.opener = false := by cases d <;> decide

theorem isWordByte_closer (d : Delimiter) : isWordByte d.closer = false := by cases d <;> decide

/-- **The walk adds one word**: the value, if a call is meant. -/
theorem mem_runs_pass (meant : Text → List Text → Bool) (hnew : new.IsWord) (t : Nest)
    (left front w : Text) :
    w ∈ runs (front ++ (t.pass meant new left).text) ↔
      w ∈ runs (front ++ t.text) ∨ (w = new ∧ (t.calls left).any fun c => meant c.1 c.2) := by
  induction t generalizing left front with
  | nil => simp [pass, calls]
  | byte b rest ih =>
    rw [pass, text_byte, text_byte, ← List.singleton_append, ← List.append_assoc, ih,
      List.append_assoc, List.singleton_append, calls]
  | pair d inner rest ihInner ihRest =>
    have hown : isMeant meant left d inner = true ↔
        (if d = .paren then ((callee? left).map (·, inner.arguments)).toList else []).any
          (fun c => meant c.1 c.2) = true := by
      unfold isMeant
      by_cases hd : d = .paren
      · cases hcallee : callee? left <;> simp [hd]
      · simp [hd]
    have hrest := ihRest [] []
    have hinner := ihInner [] []
    simp only [List.nil_append] at hrest hinner
    simp only [pass, calls, text_pair, runs_append_cons (isWordByte_opener d),
      runs_append_cons (isWordByte_closer d), mem_append, hrest, any_append,
      Bool.or_eq_true, ← hown]
    split
    · next hmeant =>
      rw [mem_runs_appendArg hnew, hinner]
      grind
    · next hmeant =>
      rw [hinner]
      grind

theorem plain_appendArg (hnew : new.IsWord) (ht : t.Plain) : (appendArg new t).Plain := by
  have hword : (ofText new).Plain := plain_ofText fun b hb => plain_of_isWordByte (hnew.2 b hb)
  unfold appendArg
  split
  · exact hword
  · have hsplit := upToLast_append (commas t)
    rw [join_commas] at hsplit
    rw [← hsplit, plain_append] at ht
    rw [join_extendLast _ (commas_ne_nil t), plain_append]
    refine ⟨ht.1, by decide, by decide, ?_⟩
    rw [ofText_append, plain_append]
    exact ⟨hword, ht.2⟩

theorem plain_pass (meant : Text → List Text → Bool) (hnew : new.IsWord)
    (ht : t.Plain) (left : Text) : (t.pass meant new left).Plain := by
  induction t generalizing left with
  | nil => trivial
  | byte b rest ih => exact ⟨ht.1, ih ht.2 _⟩
  | pair d inner rest ihInner ihRest =>
    refine ⟨?_, ihRest ht.2 _⟩
    split
    · exact plain_appendArg hnew (ihInner ht.1 _)
    · exact ihInner ht.1 _

end GlslToMetal.Nest
