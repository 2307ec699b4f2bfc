import GlslToMetal.Proofs.Item.Trimming
import GlslToMetal.Proofs.Signature.Header

/-! The layout of a header. A header is a function when a lead that reads as a type and a name stands
before its first list between parentheses and white space behind it. Its parameters are read of the
stretches of the list, one by one. -/

namespace GlslToMetal

open List Text

variable {head lead t : Text} {b : UInt8}

namespace Text

theorem isWhiteSpace_eq_false (h : b < 128) (hb : isWhiteByte b = false) :
    Unicode.isWhiteSpace (charOf b) = false := by
  simp only [isWhiteByte, Bool.or_eq_false_iff, beq_eq_false_iff_ne] at hb
  rw [isWhiteSpace_charOf h hb.2, hb.1.2]

theorem mem_words (ht : t.IsAscii) (hb : b ∈ t) (hwhite : isWhiteByte b = false) : ∃ w ∈ t.words, b ∈ w := by
  have hlt := ht b hb
  obtain ⟨w, hw, hcw⟩ := @mem_charWords (charOf b) t.chars
    (by rw [chars_of_isAscii ht]; exact mem_map_of_mem hb) (isWhiteSpace_eq_false hlt hwhite)
  refine ⟨ofChars w, mem_map_of_mem hw, mem_flatMap.mpr ⟨_, hcw, ?_⟩⟩
  rw [utf8EncodeChar_charOf hlt]
  exact mem_singleton_self b

theorem mem_dropWhile_of_not {α : Type} {p : α → Bool} {xs : List α} {x : α} (hx : x ∈ xs)
    (hp : p x = false) :
    x ∈ xs.dropWhile p := by
  rw [← takeWhile_append_dropWhile (p := p) (l := xs), mem_append] at hx
  refine hx.resolve_left fun hmem => ?_
  rw [mem_takeWhile_imp hmem] at hp
  cases hp

theorem mem_trim (ht : t.IsAscii) (hb : b ∈ t) (hwhite : isWhiteByte b = false) : b ∈ t.trim := by
  have hlt := ht b hb
  have hspace := isWhiteSpace_eq_false hlt hwhite
  have hmem : charOf b ∈ t.chars := by
    rw [chars_of_isAscii ht]
    exact mem_map_of_mem hb
  refine mem_flatMap.mpr ⟨charOf b, ?_, by rw [utf8EncodeChar_charOf hlt]; exact mem_singleton_self b⟩
  unfold charsTrimEnd
  rw [mem_reverse]
  exact mem_dropWhile_of_not (mem_reverse.mpr (mem_dropWhile_of_not hmem hspace)) hspace

theorem isWhite_eq_false (ht : t.IsAscii) (hb : b ∈ t) (hwhite : isWhiteByte b = false) :
    t.isWhite = false := by
  unfold isWhite
  rw [chars_of_isAscii ht, all_eq_false]
  exact ⟨charOf b, mem_map_of_mem hb, by rw [isWhiteSpace_eq_false (ht b hb) hwhite]; decide⟩

theorem trim_append_left {a t : Text} (ha : a.all isBlank) (h : (a ++ t).IsAscii) :
    (a ++ t).trim = t.trim := by
  have ht : t.IsAscii := h.of_subset (subset_append_right a t)
  unfold trim
  rw [chars_of_isAscii h, chars_of_isAscii ht, map_append, dropWhile_append_of_pos]
  intro c hc
  obtain ⟨b, hb, rfl⟩ := mem_map.mp hc
  exact isWhiteSpace_of_isBlank (all_eq_true.mp ha b hb)

end Text

/-- The parameter that a text declares. -/
def Parameter.ofText? (t : Text) (range : Range) : Option Parameter :=
  ofWords? (spaceReferences t).words range

theorem Parameter.ofText?_eq (t : Text) (range : Range) :
    ofText? t range = (ofText? t ⟨0, 0⟩).map fun p => { p with range } := ofWords?_eq _ _

/-- The parameters that texts declare, which stand from offset `i` on with commas between them. -/
def Parameter.declaredFrom (i : Nat) : List Text → List Parameter
  | [] => []
  | x :: rest =>
    (ofText? x.strip ⟨i + x.leadingBlanks, i + x.core.length⟩).toList ++ declaredFrom (i + x.length + 1) rest

theorem Parameter.map_shift_declaredFrom (i n : Nat) (xs : List Text) :
    (declaredFrom i xs).map (·.shift n) = declaredFrom (i + n) xs := by
  induction xs generalizing i with
  | nil => rfl
  | cons x xs ih =>
    have hshift := ofWords?_shift (spaceReferences x.strip).words ⟨i + x.leadingBlanks, i + x.core.length⟩ n
    have hrange : Range.shift ⟨i + x.leadingBlanks, i + x.core.length⟩ n =
        ⟨i + n + x.leadingBlanks, i + n + x.core.length⟩ := by
      simp only [Range.shift, Nat.add_right_comm i]
    have hoffset : i + x.length + 1 + n = i + n + x.length + 1 := by omega
    rw [hrange] at hshift
    rw [declaredFrom, declaredFrom, map_append, ih, hoffset, ofText?, ofText?, hshift, Option.toList_map]

theorem Parameter.ofText?_of_blank {x : Text} (h : x.all isBlank) (r : Range) : ofText? x.strip r = none := by
  rw [strip_of_all h]
  rfl

theorem Parameter.mapM_ofRange?_trimmed {pre post : Text} (xs : List Text)
    (h : (pre ++ [44].intercalate xs ++ post).IsAscii) :
    ∃ found, (trimmed pre.length xs).mapM (ofRange? (pre ++ [44].intercalate xs ++ post)) = .ok found ∧
      found.filterMap id = declaredFrom pre.length xs := by
  induction xs generalizing pre with
  | nil => exact ⟨[], rfl, rfl⟩
  | cons x xs ih =>
    obtain ⟨rest, hsplit⟩ : ∃ rest, pre ++ [44].intercalate (x :: xs) ++ post = pre ++ x ++ rest := by
      cases xs with
      | nil => exact ⟨post, by rw [intercalate_singleton]⟩
      | cons y ys => exact ⟨44 :: [44].intercalate (y :: ys) ++ post, by rw [intercalate_cons_cons]; simp⟩
    have hfirst : ofRange? (pre ++ [44].intercalate (x :: xs) ++ post)
        ⟨pre.length + x.leadingBlanks, pre.length + x.core.length⟩ =
          .ok (ofText? x.strip ⟨pre.length + x.leadingBlanks, pre.length + x.core.length⟩) := by
      unfold ofRange?
      rw [hsplit] at h ⊢
      rw [slice_trimmed h]
      rfl
    obtain ⟨found, hfound, hparams⟩ : ∃ found, (trimmed (pre.length + x.length + 1) xs).mapM
        (ofRange? (pre ++ [44].intercalate (x :: xs) ++ post)) = .ok found ∧
          found.filterMap id = declaredFrom (pre.length + x.length + 1) xs := by
      cases xs with
      | nil => exact ⟨[], rfl, rfl⟩
      | cons y ys =>
        have hlength : (pre ++ x ++ [44]).length = pre.length + x.length + 1 := by simp [Nat.add_assoc]
        have hwhole : pre ++ [44].intercalate (x :: y :: ys) ++ post =
            pre ++ x ++ [44] ++ [44].intercalate (y :: ys) ++ post := by
          rw [intercalate_cons_cons]
          simp
        rw [hwhole] at h ⊢
        rw [← hlength]
        exact ih h
    refine ⟨ofText? x.strip ⟨pre.length + x.leadingBlanks, pre.length + x.core.length⟩ :: found, ?_, ?_⟩
    · rw [trimmed, mapM_cons, hfirst, hfound]
      rfl
    · rw [declaredFrom, ← hparams]
      cases ofText? x.strip ⟨pre.length + x.leadingBlanks, pre.length + x.core.length⟩ <;> rfl

namespace Signature

theorem nameOffset_of_isAscii {t : Text} (h : t.IsAscii) :
    nameOffset t = (t.reverse.dropWhile isWordByte).length := by
  unfold nameOffset
  congr 1
  cases hdrop : t.reverse.dropWhile isWordByte with
  | nil => rfl
  | cons b rest =>
    have hmem : b ∈ t := mem_reverse.mp ((dropWhile_sublist isWordByte).subset (by simp [hdrop]))
    rw [dropWhile_cons_of_neg (by simp [isContinuation_of_lt (h b hmem)])]

/-- The name that stands before a parameter list. -/
def nameIn (lead : Text) : Text := wordBefore lead.reverse

/-- What stands before the name. -/
def typeIn (lead : Text) : Text := trim (beforeWord lead.reverse).reverse

theorem wordBefore_of_all (h : lead.all isBlank) :
    wordBefore lead.reverse = [] ∧ beforeWord lead.reverse = [] := by
  unfold wordBefore beforeWord
  rw [dropWhile_of_all (by simpa using h)]
  exact ⟨rfl, rfl⟩

/-- A lead reads as what stands before its last word, and the word. -/
theorem slice_lead {post : Text} (h : (lead ++ post).IsAscii) : ∃ whole type : Text,
      (lead ++ post).slice ⟨lead.leadingBlanks, lead.core.length⟩ = .ok whole ∧
      (lead ++ post).slice ⟨lead.leadingBlanks + nameOffset whole, lead.core.length⟩ = .ok (nameIn lead) ∧
      (lead ++ post).slice ⟨lead.leadingBlanks, lead.leadingBlanks + nameOffset whole⟩ = .ok type ∧
      type.trim = typeIn lead := by
  unfold nameIn typeIn
  have hwhole := @slice_trimmed [] lead post h
  simp only [length_nil, Nat.zero_add, nil_append] at hwhole
  refine ⟨lead.strip, ?_⟩
  have hascii : lead.IsAscii := h.of_subset (subset_append_left _ _)
  by_cases hblank : lead.all isBlank
  · obtain ⟨hword, hbefore⟩ := wordBefore_of_all hblank
    rw [strip_of_all hblank] at hwhole ⊢
    rw [hword, hbefore]
    refine ⟨[], hwhole, hwhole, ?_, rfl⟩
    have hnone : lead.core.length = lead.leadingBlanks := by
      rw [core, if_pos hblank, leadingBlanks_of_all hblank]
    rwa [hnone] at hwhole
  · obtain ⟨hlead, hcore, -⟩ := eq_strip_append hblank
    obtain ⟨hname, htype⟩ := wordBefore_eq hblank
    have hoffset := nameOffset_of_isAscii (hascii.of_subset (strip_sublist lead).subset)
    have hsplit : lead.strip = (lead.strip.reverse.dropWhile isWordByte).reverse ++
        wordBefore lead.reverse := by
      rw [hname, ← reverse_append, takeWhile_append_dropWhile, reverse_reverse]
    generalize hT : (lead.strip.reverse.dropWhile isWordByte).reverse = type at hsplit htype
    have hlength : nameOffset lead.strip = type.length := by rw [hoffset, ← hT, length_reverse]
    -- The three slices are parts of one decomposition of the text.
    have hparts : lead ++ post =
        lead.takeWhile isBlank ++ type ++ wordBefore lead.reverse ++ (lead.blankTail ++ post) := by
      conv => lhs; rw [hlead, hsplit]
      simp
    have hend : lead.core.length = (lead.takeWhile isBlank ++ type).length +
        (wordBefore lead.reverse).length := by
      rw [hcore]
      simp only [length_append]
      rw [hsplit, length_append]
      omega
    rw [hlength]
    refine ⟨type, hwhole, ?_, ?_, ?_⟩
    · rw [hparts] at h ⊢
      rw [hend, leadingBlanks, ← length_append]
      exact slice_append h
    · have h' : IsAscii (lead.takeWhile isBlank ++ type ++
          (wordBefore lead.reverse ++ (lead.blankTail ++ post))) := by
        rwa [← append_assoc, ← hparts]
      rw [hparts, append_assoc, leadingBlanks]
      exact slice_append h'
    · rw [htype]
      refine (trim_append_left all_takeWhile (hascii.of_subset fun b hb => ?_)).symm
      rw [hlead, hsplit]
      simp only [mem_append] at hb ⊢
      exact .inl (hb.imp_right .inl)

/-- What a lead reads as does not depend on the blanks before it. -/
theorem reads_dropWhile (h : lead.IsAscii) :
    nameIn (lead.dropWhile isBlank) = nameIn lead ∧ typeIn (lead.dropWhile isBlank) = typeIn lead := by
  unfold nameIn typeIn
  by_cases hblank : lead.all isBlank
  · obtain ⟨hword, hbefore⟩ := wordBefore_of_all hblank
    rw [dropWhile_of_all hblank, hword, hbefore]
    exact ⟨rfl, rfl⟩
  · obtain ⟨b, r, hb, hsolid⟩ : ∃ b r, lead.dropWhile isBlank = b :: r ∧ isBlank b = false := by
      obtain ⟨b, r, hlead, hb⟩ := exists_leading hblank
      exact ⟨b, r, append_cancel_left (takeWhile_append_dropWhile.trans hlead), hb⟩
    have hnone : (lead.dropWhile isBlank).takeWhile isBlank = [] := by
      rw [hb, takeWhile_cons_of_neg (by simp [hsolid])]
    have hsame : strip (lead.dropWhile isBlank) = lead.strip := by
      rw [strip, hb, dropWhile_cons_of_neg (by simp [hsolid]), ← hb, strip]
    obtain ⟨hname, htype⟩ := wordBefore_eq hblank
    obtain ⟨hname', htype'⟩ := @wordBefore_eq (lead.dropWhile isBlank) (by simp [hb, hsolid])
    rw [hname, hname', htype, htype', hsame, hnone, nil_append]
    refine ⟨rfl, (trim_append_left all_takeWhile (h.of_subset fun c hc => ?_)).symm⟩
    rcases mem_append.mp hc with hc | hc
    · exact (takeWhile_sublist _).subset hc
    · exact (strip_sublist lead).subset (mem_reverse.mp ((dropWhile_sublist _).subset (mem_reverse.mp hc)))

/-- The text before a parameter list does not read as a type and a name. -/
def unread (lead : Text) : Bool :=
  !(nameIn lead).isIdentifier || (typeIn lead).isEmpty || nonTypeWords.contains (typeIn lead) ||
    nonTypeWords.contains (nameIn lead)

/-- A header with its first list between parentheses. -/
structure Layout (head lead list behind : Text) : Prop where
  eq : head = lead ++ 40 :: (list ++ 41 :: behind)
  first : 40 ∉ lead
  closed : list.ParensClosed

/-- The signature is what is read of a header. -/
structure Reads (f : Signature) (lead list : Text) : Prop where
  name : f.name = nameIn lead
  returnType : f.returnType = unwords (typeIn lead).words
  openParen : f.openParen = lead.length
  closeParen : f.closeParen = lead.length + 1 + list.length
  params : f.params = Parameter.declaredFrom (lead.length + 1) (stretches 0 list)

theorem takeWhile_lead {rest : Text} (h : 40 ∉ lead) : (lead ++ 40 :: rest).takeWhile (· != 40) = lead := by
  rw [takeWhile_append_cons (by decide), takeWhile_eq_self_iff]
  intro b hb
  rw [bne_iff_ne]
  rintro rfl
  exact h hb

/-- **What is read of a header with a list.** -/
theorem Layout.ofHeader? {list behind : Text} (h : Layout head lead list behind)
    (hascii : head.IsAscii) :
    ∃ f, ofHeader? head = .ok (if !behind.isWhite || unread lead then none else some f) ∧
      f.Reads lead list := by
  obtain ⟨rfl, hfirst, hclosed⟩ := h
  have hheader : header? (lead ++ 40 :: (list ++ 41 :: behind))
      (.block 0 (lead ++ 40 :: (list ++ 41 :: behind)).length 0 0) =
        some ⟨0, (lead ++ 40 :: (list ++ 41 :: behind)).length⟩ := rfl
  have hcut : (lead ++ 40 :: (list ++ 41 :: behind)).cut ⟨0, (lead ++ 40 :: (list ++ 41 :: behind)).length⟩ =
      lead ++ 40 :: (list ++ 41 :: behind) := take_length
  have hmatch : (lead ++ 40 :: (list ++ 41 :: behind)).matching? lead.length =
      some (lead.length + 1 + list.length) := matching?_paren.mpr ⟨list, behind, rfl, hclosed, rfl⟩
  have hbehind : (lead ++ 40 :: (list ++ 41 :: behind)).slice
      ⟨lead.length + 1 + list.length + 1, (lead ++ 40 :: (list ++ 41 :: behind)).length⟩ = .ok behind := by
    have := @slice_append (lead ++ 40 :: (list ++ [41])) behind [] (by simpa using hascii)
    simp only [append_assoc, cons_append, nil_append, append_nil, length_append, length_cons,
      length_nil] at this ⊢
    rw [← this]
    congr 2 <;> omega
  have htrim := trimRange_append [] lead (40 :: (list ++ 41 :: behind))
  simp only [length_nil, Nat.zero_add, nil_append] at htrim
  obtain ⟨whole, type, hwhole, hname, htype, hstrip⟩ := slice_lead hascii
  have hargs := splitArgs_list lead list behind 40 41
  obtain ⟨found, hfound, hparams⟩ :=
    @Parameter.mapM_ofRange?_trimmed (lead ++ [40]) (41 :: behind) (stretches 0 list)
    (by rw [intercalate_stretches]; simpa using hascii)
  rw [intercalate_stretches] at hfound
  simp only [length_append, length_singleton, append_assoc, cons_append, nil_append] at hfound hparams
  -- A list of blanks has no arguments, and its one stretch declares nothing.
  obtain ⟨found', hfound', hparams'⟩ : ∃ found', (if list.all isBlank then [] else
      trimmed (lead.length + 1) (stretches 0 list)).mapM
        (Parameter.ofRange? (lead ++ 40 :: (list ++ 41 :: behind))) = .ok found' ∧
          found'.filterMap id = Parameter.declaredFrom (lead.length + 1) (stretches 0 list) := by
    by_cases hblank : list.all isBlank
    · have hcomma : 44 ∉ list := fun hmem => absurd (all_eq_true.mp hblank 44 hmem) (by decide)
      refine ⟨[], by rw [if_pos hblank]; rfl, ?_⟩
      rw [stretches_eq_singleton hcomma, Parameter.declaredFrom, Parameter.declaredFrom,
        Parameter.ofText?_of_blank hblank]
      rfl
    · rw [if_neg hblank]
      exact ⟨found, hfound, hparams⟩
  have hstop : ¬ (lead ++ 40 :: (list ++ 41 :: behind)).length ≤ lead.length := by simp
  have hstop' : ¬ (lead ++ 40 :: (list ++ 41 :: behind)).length ≤ lead.length + 1 + list.length := by
    simp
    omega
  refine ⟨⟨nameIn lead, unwords (typeIn lead).words,
    Parameter.declaredFrom (lead.length + 1) (stretches 0 list), ⟨0, 0⟩,
    ⟨lead.leadingBlanks + nameOffset whole, lead.core.length⟩, lead.length, lead.length + 1 + list.length,
    (Item.block 0 (lead ++ 40 :: (list ++ 41 :: behind)).length 0 0).body?⟩, ?_, rfl, rfl, rfl, rfl, rfl⟩
  unfold Signature.ofHeader? ofItem?
  simp only [hheader, hcut, takeWhile_lead hfirst, Nat.zero_add, hstop, if_false, hmatch, hstop',
    hbehind, htrim,
    hwhole, hname, htype, hstrip, hargs, hfound', bind, Except.bind, pure, Except.pure]
  unfold unread
  cases behind.isWhite with
  | false => rfl
  | true =>
    simp only [Bool.not_true, Bool.false_eq_true, if_false, Bool.false_or]
    split
    · rfl
    · rw [hparams']
      rfl

/-- Nothing is read of a header whose first parenthesis is not closed. -/
theorem ofHeader?_of_not_layout (h : ∀ lead list behind, ¬ Layout head lead list behind) :
    Signature.ofHeader? head = .ok none := by
  have hheader : header? head (.block 0 head.length 0 0) = some ⟨0, head.length⟩ := rfl
  have hcut : head.cut ⟨0, head.length⟩ = head := take_length
  unfold Signature.ofHeader? ofItem?
  rw [hheader]
  dsimp only
  rw [hcut, Nat.zero_add]
  split
  · rfl
  · next hparen =>
    obtain ⟨b, rest, hsplit, hb⟩ := exists_leading (p := (· != 40)) (t := head) fun hall => hparen <| by
      rw [takeWhile_eq_self_iff.mpr (all_eq_true.mp hall)]
    obtain rfl : b = 40 := by simpa using hb
    have hfirst : 40 ∉ head.takeWhile (· != 40) := fun hmem => absurd (mem_takeWhile_imp hmem) (by decide)
    generalize head.takeWhile (· != 40) = lead at hsplit hfirst
    subst hsplit
    cases hmatch : matching? (lead ++ 40 :: rest) lead.length with
    | none => rfl
    | some c =>
      obtain ⟨list, behind, rfl, hclosed, -⟩ := matching?_paren.mp hmatch
      exact absurd ⟨rfl, hfirst, hclosed⟩ (h lead list behind)

/-- The header is that of a function with this lead and this parameter list. -/
structure IsFunction (head lead list : Text) : Prop where
  layout : ∃ behind, Layout head lead list behind ∧ behind.isWhite
  named : unread lead = false

theorem Layout.unique {list list' lead' behind behind' : Text} (h : Layout head lead list behind)
    (h' : Layout head lead' list' behind') : lead = lead' ∧ list = list' ∧ behind = behind' := by
  obtain ⟨rfl, hfirst, hclosed⟩ := h
  obtain ⟨heq, hfirst', hclosed'⟩ := h'
  have hlead := congrArg (takeWhile (· != 40)) heq
  rw [takeWhile_lead hfirst, takeWhile_lead hfirst'] at hlead
  subst hlead
  have hrest := (cons.inj (append_cancel_left heq)).2
  have hlength : ∀ {t r : Text}, t.ParensClosed → Delimiter.paren.toCloser 0 (t ++ 41 :: r) = some t.length :=
    fun {t r} ht => Delimiter.toCloser_eq_some_iff.mpr ⟨t, r, rfl, ht, rfl⟩
  have hsame := hlength hclosed (r := behind)
  rw [hrest, hlength hclosed'] at hsame
  obtain ⟨hlist, hbehind⟩ := append_inj hrest (Option.some.inj hsame).symm
  exact ⟨rfl, hlist, (cons.inj hbehind).2⟩

theorem IsFunction.unique {list list' lead' : Text} (h : IsFunction head lead list)
    (h' : IsFunction head lead' list') : lead = lead' ∧ list = list' := by
  obtain ⟨⟨behind, hlayout, -⟩, -⟩ := h
  obtain ⟨⟨behind', hlayout', -⟩, -⟩ := h'
  obtain ⟨hlead, hlist, -⟩ := hlayout.unique hlayout'
  exact ⟨hlead, hlist⟩

/-- **A header is read as a function exactly when it is one.** -/
theorem ofHeader?_spec (h : head.IsAscii) :
    (ofHeader? head = .ok none ∧ ∀ lead list, ¬ IsFunction head lead list) ∨
      ∃ f lead list, ofHeader? head = .ok (some f) ∧ IsFunction head lead list ∧ f.Reads lead list := by
  by_cases hlayout : ∃ lead list behind, Layout head lead list behind
  · obtain ⟨lead, list, behind, hlayout⟩ := hlayout
    obtain ⟨f, hf, hreads⟩ := hlayout.ofHeader? h
    by_cases hnone : !behind.isWhite || unread lead
    · rw [if_pos hnone] at hf
      refine .inl ⟨hf, ?_⟩
      rintro lead' list' ⟨⟨behind', hlayout', hwhite⟩, hnamed⟩
      obtain ⟨rfl, rfl, rfl⟩ := hlayout.unique hlayout'
      rw [hwhite, hnamed] at hnone
      cases hnone
    · rw [if_neg hnone] at hf
      simp only [Bool.or_eq_true, Bool.not_eq_true', not_or, Bool.not_eq_false, Bool.not_eq_true] at hnone
      exact .inr ⟨f, lead, list, hf, ⟨⟨behind, hlayout, hnone.1⟩, hnone.2⟩, hreads⟩
  · refine .inl ⟨ofHeader?_of_not_layout fun lead list behind hl => hlayout ⟨lead, list, behind, hl⟩, ?_⟩
    rintro lead list ⟨⟨behind, hl, -⟩, -⟩
    exact hlayout ⟨lead, list, behind, hl⟩

end Signature

end GlslToMetal
