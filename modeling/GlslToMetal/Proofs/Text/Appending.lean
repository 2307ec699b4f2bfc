import GlslToMetal.Proofs.Text.Arguments
import GlslToMetal.Proofs.Text.Rewriting
import GlslToMetal.Proofs.Text.Word

/-! Appending to a list between parentheses. A new element goes behind the last byte of the last
element that is no blank. A list whose last element is blank takes it at its end. -/

namespace GlslToMetal

variable {segs : List Nest} {new t : Text} {b : UInt8}

namespace Text

/-- The blanks at the end. -/
def trailing (t : Text) : Text := (t.reverse.takeWhile isBlank).reverse

theorem trailing_append (s t : Text) :
    trailing (s ++ t) = if t.all isBlank then trailing s ++ t else trailing t := by
  unfold trailing
  rw [List.reverse_append, List.takeWhile_append]
  by_cases h : t.all isBlank
  · have hrev : t.reverse.takeWhile isBlank = t.reverse :=
      List.takeWhile_eq_self_iff.mpr (by simpa using h)
    rw [hrev, if_pos rfl, if_pos h]
    simp
  · have hlen : ¬ (t.reverse.takeWhile isBlank).length = t.reverse.length := by
      intro hlen
      apply h
      have hself := (List.takeWhile_prefix (p := isBlank) (l := t.reverse)).eq_of_length hlen
      rw [List.takeWhile_eq_self_iff] at hself
      simpa using hself
    rw [if_neg hlen, if_neg h]

theorem trailing_of_all (h : t.all isBlank) : t.trailing = t := by
  have := trailing_append [] t
  rwa [if_pos h] at this

theorem trailing_cons (h : ¬ (isBlank b && t.all isBlank)) : trailing (b :: t) = trailing t := by
  rw [show b :: t = [b] ++ t from rfl, trailing_append]
  split
  · next hall =>
    have hb : trailing [b] = [] := by
      simp [hall] at h
      simp [trailing, h]
    rw [hb, trailing_of_all hall, List.nil_append]
  · rfl

theorem trailing_append_cons (hb : isBlank b = false) (s t : Text) : trailing (s ++ b :: t) = trailing t := by
  rw [trailing_append, if_neg (by simp [hb]), trailing_cons (by simp [hb])]

theorem endsSolid_core (h : ¬ t.all isBlank) : EndsSolid t.core := by
  have hne : t.reverse.dropWhile isBlank ≠ [] := by
    intro hnil
    apply h
    rw [← List.all_reverse]
    exact List.all_eq_true.mpr (List.dropWhile_eq_nil_iff.mp hnil)
  refine ⟨(t.reverse.dropWhile isBlank).head hne, ?_, List.head_dropWhile_not isBlank hne⟩
  rw [core, if_neg h, stripEnd, List.getLast?_reverse]
  exact List.head?_eq_some_head hne

end Text

namespace Nest

open List Text

theorem comma_eq : (", " : Text) = [44, 32] := by decide

theorem ofText_text {t : Nest} (h : t.text.all isBlank) : ofText t.text = t := by
  induction t with
  | nil => rfl
  | byte b rest ih =>
    rw [text_byte, all_cons, Bool.and_eq_true] at h
    rw [text_byte, ofText, ih h.2]
  | pair d inner rest =>
    exfalso
    rw [text_pair, all_cons, Bool.and_eq_true] at h
    cases d <;> exact absurd h.1 (by decide)

/-- The tree without the blanks at its end. -/
def stripEnd : Nest → Nest
  | nil => nil
  | byte b rest => if isBlank b && rest.text.all isBlank then nil else byte b rest.stripEnd
  | pair d inner rest => pair d inner rest.stripEnd

theorem isBlank_opener (d : Delimiter) : isBlank d.opener = false := by cases d <;> decide

theorem isBlank_closer (d : Delimiter) : isBlank d.closer = false := by cases d <;> decide

theorem stripEnd_append (t : Nest) : t.stripEnd ++ ofText t.text.trailing = t := by
  induction t with
  | nil => rfl
  | byte b rest ih =>
    unfold stripEnd
    split
    · next h =>
      rw [nil_append, trailing_of_all (by simpa using h), ofText_text (by simpa using h)]
    · next h => rw [text_byte, trailing_cons h, byte_append, ih]
  | pair d inner rest _ ih =>
    have htail : trailing (pair d inner rest).text = trailing rest.text := by
      rw [text_pair, ← cons_append]
      exact trailing_append_cons (isBlank_closer d) _ _
    rw [htail, stripEnd, pair_append, ih]

/-- The tree up to its last byte that is no blank, and the whole of a blank tree. -/
def core (t : Nest) : Nest := if t.text.all isBlank then t else t.stripEnd

theorem core_append (t : Nest) : t.core ++ ofText t.text.blankTail = t := by
  unfold core blankTail
  split
  · rw [ofText, append_nil]
  · exact stripEnd_append t

theorem text_core (t : Nest) : t.core.text = t.text.core := by
  have h := congrArg text (core_append t)
  rw [text_append, text_ofText] at h
  exact append_cancel_right (h.trans (core_append_blankTail t.text).symm)

theorem all_isBlank_of_commas {t s u : Nest} {rest : List Nest} (h : commas t = s :: u :: rest) :
    t.text.all isBlank = false := by
  have ht := join_commas t
  rw [h, join_cons (by simp)] at ht
  rw [← ht, text_append, text_byte, all_append, all_cons]
  simp [show isBlank 44 = false from rfl]

theorem isEmpty_arguments (t : Nest) : t.arguments.isEmpty = t.text.all isBlank := by
  unfold arguments
  match hsegs : commas t with
  | [] => exact absurd hsegs (commas_ne_nil t)
  | [s] =>
    have ht := join_commas t
    rw [hsegs, join] at ht
    subst ht
    rw [← isEmpty_strip]
    simp only [map_cons, map_nil]
    cases s.text.strip.isEmpty <;> rfl
  | s :: u :: rest => rw [all_isBlank_of_commas hsegs]; rfl

theorem arguments_of_not_blank {t : Nest} (h : ¬ t.text.all isBlank) :
    t.arguments = (commas t).map (·.text.strip) := by
  rw [← isEmpty_arguments] at h
  unfold arguments at h ⊢
  split
  · next only heq =>
    have hempty : ¬ only.isEmpty := by
      intro hempty
      simp [heq, hempty] at h
    rw [if_neg hempty, heq]
  · rfl

theorem present_spans (i : Nat) (t : Nest) :
    present (spans i (commas t)) = if t.text.all isBlank then [] else spans i (commas t) := by
  match hsegs : commas t with
  | [] => exact absurd hsegs (commas_ne_nil t)
  | [s] =>
    have ht := join_commas t
    rw [hsegs, join] at ht
    subst ht
    rw [spans, spans, present, isEmpty_trimmed]
  | s :: u :: rest => rw [all_isBlank_of_commas hsegs]; rfl

/-- The segments of a list with one more, behind the last byte of the last that is no blank. -/
def extendLast (new : Text) : List Nest → List Nest
  | [] => [ofText new]
  | [s] => [s.core, ofText (32 :: (new ++ s.text.blankTail))]
  | s :: t :: rest => s :: extendLast new (t :: rest)

/-- The list with one more argument. -/
def appendArg (new : Text) (t : Nest) : Nest :=
  if t.arguments.isEmpty then ofText new else join (extendLast new (commas t))

/-- The blanks behind the last argument. -/
def behindLast : List Nest → Text
  | [] => []
  | [s] => s.text.blankTail
  | _ :: t :: rest => behindLast (t :: rest)

theorem all_behindLast (segs : List Nest) : (behindLast segs).all isBlank := by
  fun_induction behindLast segs with
  | case1 => rfl
  | case2 s => exact all_blankTail _
  | case3 s t rest ih => exact ih

theorem extendLast_ne_nil (new : Text) (segs : List Nest) : extendLast new segs ≠ [] := by
  fun_cases extendLast new segs <;> simp

theorem map_strip_extendLast (hnew : new.strip = new)
    (hne : segs ≠ []) :
    (extendLast new segs).map (·.text.strip) = segs.map (·.text.strip) ++ [new] := by
  fun_induction extendLast new segs with
  | case1 => exact absurd rfl hne
  | case2 s =>
    have hsecond : strip (32 :: (new ++ s.text.blankTail)) = new := by
      have := strip_surround (a := [32]) (z := s.text.blankTail) rfl new (all_blankTail _)
      rw [hnew] at this
      exact this
    simp [text_core, strip_core, hsecond]
  | case3 s t rest ih => simp [ih (by simp)]

theorem noComma_extendLast (hnew : 44 ∉ new)
    (h : ∀ s ∈ segs, s.NoComma) : ∀ s ∈ extendLast new segs, s.NoComma := by
  have hblanks : ∀ z : Text, z.all isBlank → 44 ∉ z := by
    intro z hz hmem
    exact absurd (all_eq_true.mp hz 44 hmem) (by decide)
  fun_induction extendLast new segs with
  | case1 =>
    intro s hs
    rw [mem_singleton.mp hs]
    exact noComma_ofText hnew
  | case2 s =>
    intro u hu
    simp only [mem_cons, not_mem_nil, or_false] at hu
    rcases hu with rfl | rfl
    · have hs := h s (by simp)
      rw [← core_append s] at hs
      exact (noComma_append.mp hs).1
    · apply noComma_ofText
      have := hblanks _ (all_blankTail s.text)
      simp [hnew, this]
  | case3 s t rest ih =>
    intro u hu
    rcases mem_cons.mp hu with rfl | hu
    · exact h u (by simp)
    · exact ih (fun v hv => h v (mem_cons_of_mem _ hv)) u hu

/-- The tree of a list up to the end of its last argument. -/
def upToLast : List Nest → Nest
  | [] => nil
  | [s] => s.core
  | s :: t :: rest => s ++ byte 44 (upToLast (t :: rest))

theorem upToLast_append (segs : List Nest) : upToLast segs ++ ofText (behindLast segs) = join segs := by
  fun_induction join segs with
  | case1 => rfl
  | case2 s => exact core_append s
  | case3 s t rest ih => rw [upToLast, behindLast, append_assoc, byte_append, ih]

theorem join_extendLast (new : Text) (hne : segs ≠ []) : join (extendLast new segs) =
      upToLast segs ++ byte 44 (ofText (32 :: (new ++ behindLast segs))) := by
  fun_induction extendLast new segs with
  | case1 => exact absurd rfl hne
  | case2 s => rfl
  | case3 s t rest ih =>
    rw [join_cons (extendLast_ne_nil new _), ih (by simp), upToLast, behindLast, append_assoc, byte_append]

theorem getLast?_spans (i : Nat) (hne : segs ≠ []) :
    ∃ start, (spans i segs).getLast? = some ⟨start, i + (upToLast segs).text.length⟩ := by
  fun_induction upToLast segs generalizing i with
  | case1 => exact absurd rfl hne
  | case2 s =>
    refine ⟨i + s.text.leadingBlanks, ?_⟩
    simp [spans, text_core]
  | case3 s t rest ih =>
    obtain ⟨start, hstart⟩ := ih (i + s.text.length + 1) (by simp)
    refine ⟨start, ?_⟩
    rw [spans]
    have hlen : i + (s ++ byte 44 (upToLast (t :: rest))).text.length =
        i + s.text.length + 1 + (upToLast (t :: rest)).text.length := by
      simp
      omega
    rw [hlen, ← hstart]
    simp [spans, getLast?_cons_cons]

theorem endsSolid_upToLast (hne : segs ≠ []) : EndsSolid (upToLast segs).text ∨ behindLast segs = [] := by
  fun_induction upToLast segs with
  | case1 => exact absurd rfl hne
  | case2 s =>
    by_cases h : s.text.all isBlank
    · exact .inr (by simp [behindLast, blankTail, h])
    · left
      rw [text_core]
      exact endsSolid_core h
  | case3 s t rest ih =>
    rcases ih (by simp) with h | h
    · left
      rw [text_append, text_byte, ← List.singleton_append, ← List.append_assoc]
      exact h.append_left _
    · exact .inr h

end Nest

end GlslToMetal
