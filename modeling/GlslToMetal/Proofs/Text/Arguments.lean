import GlslToMetal.Proofs.Text.Stretches

/-! Argument lists. The inside of a pair of parentheses is cut at the commas that no further pair
encloses, and its arguments are the pieces without the blanks around them; a single blank piece is
no argument. Splitting the arguments of a text finds these pieces at their offsets. -/

namespace GlslToMetal.Nest

open List

variable {segs : List Nest} {s t : Nest}

/-- No comma outside the pairs. -/
def NoComma : Nest → Prop
  | nil => True
  | byte b rest => b ≠ 44 ∧ rest.NoComma
  | pair _ _ rest => rest.NoComma

/-- Pieces with commas between them. -/
def join : List Nest → Nest
  | [] => nil
  | [s] => s
  | s :: t :: rest => s ++ byte 44 (join (t :: rest))

/-- Puts something before the first piece. -/
def prepend (f : Nest → Nest) : List Nest → List Nest
  | [] => [f nil]
  | s :: rest => f s :: rest

/-- The pieces between the commas outside the pairs. -/
def commas : Nest → List Nest
  | nil => [nil]
  | byte b rest => if b = 44 then nil :: commas rest else prepend (byte b) (commas rest)
  | pair d inner rest => prepend (pair d inner) (commas rest)

theorem prepend_ne_nil (f : Nest → Nest) (segs : List Nest) : prepend f segs ≠ [] := by
  cases segs <;> simp [prepend]

theorem commas_ne_nil (t : Nest) : commas t ≠ [] := by
  cases t with
  | nil => simp [commas]
  | byte b rest =>
    unfold commas
    split
    · simp
    · exact prepend_ne_nil _ _
  | pair d inner rest => exact prepend_ne_nil _ _

theorem noComma_append : (s ++ t).NoComma ↔ s.NoComma ∧ t.NoComma := by
  induction s with
  | nil => simp [NoComma]
  | byte b rest ih => simp [NoComma, ih, and_assoc]
  | pair d inner rest _ ih => simp [NoComma, ih]

theorem noComma_ofText {t : Text} (h : 44 ∉ t) : (ofText t).NoComma := by
  induction t with
  | nil => trivial
  | cons b rest ih =>
    simp only [mem_cons, not_or] at h
    exact ⟨fun hb => h.1 hb.symm, ih h.2⟩

theorem noComma_commas (t : Nest) : ∀ s ∈ commas t, s.NoComma := by
  induction t with
  | nil => simp [commas, NoComma]
  | byte b rest ih =>
    obtain ⟨s, ss, hs⟩ := exists_cons_of_ne_nil (commas_ne_nil rest)
    intro p hp
    unfold commas at hp
    split at hp
    · rcases mem_cons.mp hp with rfl | hp
      · trivial
      · exact ih p hp
    · next hb =>
      rw [hs, prepend] at hp
      rw [hs] at ih
      rcases mem_cons.mp hp with rfl | hp
      · exact ⟨hb, ih s mem_cons_self⟩
      · exact ih p (mem_cons_of_mem _ hp)
  | pair d inner rest _ ih =>
    obtain ⟨s, ss, hs⟩ := exists_cons_of_ne_nil (commas_ne_nil rest)
    intro p hp
    rw [commas, hs, prepend] at hp
    rw [hs] at ih
    rcases mem_cons.mp hp with rfl | hp
    · exact ih s mem_cons_self
    · exact ih p (mem_cons_of_mem _ hp)

theorem join_cons (h : segs ≠ []) : join (s :: segs) = s ++ byte 44 (join segs) := by
  obtain ⟨t, rest, rfl⟩ := exists_cons_of_ne_nil h
  rfl

theorem join_append {segs' : List Nest} (h : segs ≠ []) (h' : segs' ≠ []) :
    join (segs ++ segs') = join segs ++ byte 44 (join segs') := by
  induction segs with
  | nil => exact absurd rfl h
  | cons s rest ih =>
    by_cases hrest : rest = []
    · subst hrest
      exact join_cons h'
    · rw [cons_append, join_cons (by simp [hrest]), ih hrest, join_cons hrest, append_assoc]
      rfl

theorem join_byte (b : UInt8) (s : Nest) (segs : List Nest) :
    join (byte b s :: segs) = byte b (join (s :: segs)) := by
  cases segs <;> rfl

theorem join_commas (t : Nest) : join (commas t) = t := by
  induction t with
  | nil => rfl
  | byte b rest ih =>
    unfold commas
    split
    · next hb => rw [join_cons (commas_ne_nil rest), ih, hb, nil_append]
    · obtain ⟨s, ss, hs⟩ := exists_cons_of_ne_nil (commas_ne_nil rest)
      rw [hs] at ih ⊢
      cases ss with
      | nil => simp only [prepend, join] at ih ⊢; rw [ih]
      | cons t ss => simp only [prepend, join, byte_append] at ih ⊢; rw [ih]
  | pair d inner rest _ ih =>
    obtain ⟨s, ss, hs⟩ := exists_cons_of_ne_nil (commas_ne_nil rest)
    rw [commas, hs]
    rw [hs] at ih
    cases ss with
    | nil => simp only [prepend, join] at ih ⊢; rw [ih]
    | cons t ss => simp only [prepend, join, pair_append] at ih ⊢; rw [ih]

theorem commas_append (hs : s.NoComma) (t : Nest) : commas (s ++ t) = prepend (s ++ ·) (commas t) := by
  obtain ⟨p, ps, hp⟩ := exists_cons_of_ne_nil (commas_ne_nil t)
  induction s with
  | nil => simp [hp, prepend]
  | byte b rest ih =>
    rw [byte_append, commas, if_neg hs.1, ih hs.2, hp]
    rfl
  | pair d inner rest _ ih =>
    rw [pair_append, commas, ih hs, hp]
    rfl

theorem commas_join {segs : List Nest} (hne : segs ≠ []) (h : ∀ s ∈ segs, s.NoComma) :
    commas (join segs) = segs := by
  induction segs with
  | nil => exact absurd rfl hne
  | cons s rest ih =>
    have hs := h s mem_cons_self
    by_cases hrest : rest = []
    · subst hrest
      rw [join, ← append_nil s, commas_append hs, append_nil]
      simp [commas, prepend]
    · rw [join_cons hrest, commas_append hs, commas, if_pos rfl, prepend, append_nil,
        ih hrest fun t ht => h t (mem_cons_of_mem _ ht)]

/-! The offsets of the pieces. -/

/-- The stretches of pieces that stand from offset `i` on with commas between them, without the blanks
around them. -/
def spans (i : Nat) : List Nest → List Range
  | [] => []
  | s :: rest =>
    ⟨i + s.text.leadingBlanks, i + s.text.core.length⟩ :: spans (i + s.text.length + 1) rest

theorem spans_eq (i : Nat) (segs : List Nest) : spans i segs = Text.trimmed i (segs.map text) := by
  induction segs generalizing i with
  | nil => rfl
  | cons s rest ih => rw [spans, ih, map_cons, Text.trimmed]

theorem stretches_inside (ht : t.Plain) {depth : Int} (hdepth : 0 < depth) (rest : Text) :
    Text.stretches depth (t.text ++ rest) = Text.glue t.text (Text.stretches depth rest) := by
  induction t generalizing depth rest with
  | nil => exact (Text.glue_nil (Text.stretches_ne_nil depth rest)).symm
  | byte b t ih =>
    rw [text_byte, cons_append, Text.stretches, if_neg (by simp; omega),
      Text.byteWeight_of_plain ht.1, Int.add_zero,
      ih ht.2 hdepth, Text.glue_glue]
    rfl
  | pair d inner t ihInner ih =>
    rw [text_pair, cons_append, List.append_assoc, Text.stretches_opener, ihInner ht.1 (by omega),
      cons_append,
      Text.stretches_closer, Int.add_sub_cancel, ih ht.2 hdepth, Text.glue_glue, Text.glue_glue,
        Text.glue_glue]
    simp

/-- **The pieces of a nest are the stretches of its text.** -/
theorem stretches_text (h : t.Plain) : Text.stretches 0 t.text = (commas t).map text := by
  have hglue : ∀ (f : Nest → Nest) (x : Text), (∀ s, (f s).text = x ++ s.text) →
    ∀ segs : List Nest, segs ≠ [] →
      (prepend f segs).map text = Text.glue x (segs.map text) := by
    intro f x hf segs hne
    obtain ⟨s, rest, rfl⟩ := exists_cons_of_ne_nil hne
    rw [prepend, map_cons, hf]
    rfl
  induction t with
  | nil => rfl
  | byte b t ih =>
    rw [text_byte, Text.stretches, commas]
    by_cases hb : b = 44
    · rw [if_pos (by simp [hb]), if_pos hb, ih h.2]
      rfl
    · rw [if_neg (by simp [hb]), if_neg hb, Text.byteWeight_of_plain h.1, Int.add_zero, ih h.2,
        hglue (byte b) [b] (fun s => rfl) _ (commas_ne_nil t)]
  | pair d inner t _ ih =>
    rw [commas, hglue (pair d inner) (d.opener :: (inner.text ++ [d.closer])) (fun s => by simp) _
      (commas_ne_nil t), ← ih h.2,
      text_pair, Text.stretches_opener, stretches_inside h.1 (by omega), Text.stretches_closer, Int.zero_add,
      Int.sub_self, Text.glue_glue, Text.glue_glue]
    rfl

theorem plain_join_of_forall (h : ∀ s ∈ segs, s.Plain) : (join segs).Plain := by
  induction segs with
  | nil => trivial
  | cons s segs ih =>
    rw [forall_mem_cons] at h
    cases segs with
    | nil => exact h.1
    | cons s' segs => exact plain_append.mpr ⟨h.1, (by decide : Delimiter.plain 44 = true), ih h.2⟩

theorem plain_join (h : (join segs).Plain) : ∀ s ∈ segs, s.Plain := by
  induction segs with
  | nil => simp
  | cons s rest ih =>
    by_cases hrest : rest = []
    · subst hrest
      simpa [join] using h
    · rw [join_cons hrest, plain_append] at h
      intro t ht
      rcases mem_cons.mp ht with rfl | ht
      · exact h.1
      · exact ih h.2.2 t ht

/-- The arguments between a pair of parentheses. -/
theorem splitArgs_pair {pre post : Text} {inner : Nest} (h : inner.Plain) (b c : UInt8) :
    (pre ++ b :: (inner.text ++ c :: post)).splitArgs pre.length
        (pre.length + 1 + inner.text.length) =
      .ok (present (spans (pre.length + 1) (commas inner))) := by
  rw [Text.splitArgs_eq, stretches_text h, spans_eq]

/-- The arguments that a nest holds. -/
def arguments (t : Nest) : List Text :=
  match (commas t).map (·.text.strip) with
  | [only] => if only.isEmpty then [] else [only]
  | args => args

theorem text_sublist_of_mem_commas (h : s ∈ commas t) : List.Sublist s.text t.text := by
  have hjoin : ∀ segs : List Nest, s ∈ segs → List.Sublist s.text (join segs).text := by
    intro segs hmem
    induction segs with
    | nil => cases hmem
    | cons u rest ih =>
      by_cases hrest : rest = []
      · subst hrest
        rw [mem_singleton.mp hmem]
        exact List.Sublist.refl _
      · rw [join_cons hrest, text_append, text_byte]
        rcases mem_cons.mp hmem with rfl | hmem
        · exact sublist_append_left _ _
        · exact ((ih hmem).cons 44).trans (sublist_append_right _ _)
  have := hjoin (commas t) h
  rwa [join_commas] at this

theorem exists_of_mem_arguments {arg : Text} (h : arg ∈ t.arguments) :
    ∃ s ∈ commas t, arg = s.text.strip := by
  have hmem : arg ∈ (commas t).map (·.text.strip) := by
    unfold arguments at h
    split at h
    · next only heq =>
      split at h
      · cases h
      · rwa [heq]
    · exact h
  obtain ⟨s, hs, heq⟩ := mem_map.mp hmem
  exact ⟨s, hs, heq.symm⟩

theorem map_trim_arguments (h : t.text.IsCode) : t.arguments.map Text.trim = t.arguments := by
  refine (map_congr_left (g := id) ?_).trans (map_id _)
  intro arg harg
  obtain ⟨s, hs, rfl⟩ := exists_of_mem_arguments harg
  have hcode : s.text.strip.IsCode :=
    h.sublist ((Text.strip_sublist _).trans (text_sublist_of_mem_commas hs))
  exact (Text.trim_of_isCode hcode).trans (Text.strip_strip _)

theorem mapM_slice_spans (pre post : Text) (segs : List Nest)
    (hcode : (pre ++ (join segs).text ++ post).IsAscii) :
    (spans pre.length segs).mapM (pre ++ (join segs).text ++ post).slice = .ok (segs.map (·.text.strip)) := by
  induction segs generalizing pre with
  | nil => rfl
  | cons s rest ih =>
    by_cases hrest : rest = []
    · subst hrest
      simp only [spans, join, mapM_cons, mapM_nil, map_cons, map_nil] at hcode ⊢
      rw [Text.slice_trimmed hcode]
      rfl
    · have hsplit : pre ++ (join (s :: rest)).text ++ post = (pre ++ s.text ++ [44]) ++
          (join rest).text ++ post := by
        rw [join_cons hrest]
        simp
      have hfirst : pre ++ (join (s :: rest)).text ++ post = pre ++ s.text ++
          (44 :: (join rest).text ++ post) := by
        rw [join_cons hrest]
        simp
      have hlen : (pre ++ s.text ++ [44]).length = pre.length + s.text.length + 1 := by
        simp
        omega
      have htail := ih (pre ++ s.text ++ [44]) (hsplit ▸ hcode)
      rw [← hsplit, hlen] at htail
      have hhead := Text.slice_trimmed (hfirst ▸ hcode)
      rw [← hfirst] at hhead
      simp only [spans, mapM_cons, map_cons]
      rw [hhead, htail]
      rfl

theorem mapM_slice_present {pre post : Text} {inner : Nest} {b c : UInt8}
    (hcode : (pre ++ b :: (inner.text ++ c :: post)).IsAscii) :
    (present (spans (pre.length + 1) (commas inner))).mapM
        (pre ++ b :: (inner.text ++ c :: post)).slice = .ok inner.arguments := by
  have hslices := mapM_slice_spans (pre ++ [b]) (c :: post) (commas inner)
    (by simpa [join_commas] using hcode)
  rw [join_commas] at hslices
  simp only [List.length_append, List.length_singleton, List.append_assoc, List.cons_append,
    List.nil_append] at hslices
  unfold arguments
  match hsegs : commas inner with
  | [] => exact absurd hsegs (commas_ne_nil inner)
  | [s] =>
    rw [hsegs] at hslices
    simp only [spans, present, Text.isEmpty_trimmed, ← Text.isEmpty_strip, map_cons, map_nil] at hslices ⊢
    split
    · rfl
    · exact hslices
  | s :: t :: rest =>
    rw [hsegs] at hslices
    exact hslices

end GlslToMetal.Nest
