import GlslToMetal.Lowering.Global
import GlslToMetal.Proofs.Pattern

/-! What is read of the declaration of a global: its texts are made of characters of the declaration,
and its name stands there between white space and white space or dimensions. -/

namespace GlslToMetal.Global

open List Text Unicode

variable {cs n rest : List Char}

theorem exists_of_run {p : Char → Bool} (h : Pattern.run p cs = some rest) :
    ∃ b, cs = b ++ rest ∧ b ≠ [] ∧ ∀ c ∈ b, p c := by
  obtain ⟨mid, hmid, rfl⟩ := Option.map_eq_some_iff.mp h
  obtain ⟨c, rfl, hc⟩ := Pattern.char_eq_some hmid
  refine ⟨c :: mid.takeWhile p, by rw [cons_append, takeWhile_append_dropWhile], cons_ne_nil _ _, ?_⟩
  exact forall_mem_cons.mpr ⟨hc, fun d hd => mem_takeWhile_imp hd⟩

theorem exists_of_pastName (h : pastName cs = some rest) :
    ∃ n, cs = n ++ rest ∧ n ≠ [] ∧ ∀ c ∈ n, isNameStart c ∨ isWordChar c := by
  obtain ⟨mid, hmid, rfl⟩ := Option.map_eq_some_iff.mp h
  obtain ⟨c, rfl, hc⟩ := Pattern.char_eq_some hmid
  refine ⟨c :: mid.takeWhile isWordChar, by rw [cons_append, takeWhile_append_dropWhile], cons_ne_nil _ _, ?_⟩
  exact forall_mem_cons.mpr ⟨.inl hc, fun d hd => .inr (mem_takeWhile_imp hd)⟩

theorem pastTemplate_suffix (cs : List Char) : pastTemplate cs <:+ cs := by
  unfold pastTemplate
  cases h : (Pattern.char (· == '<') cs).bind fun inner =>
    Pattern.char (· == '>') (inner.dropWhile (· != '>')) with
  | none => exact suffix_rfl
  | some rest =>
    obtain ⟨inner, hinner, hrest⟩ := Option.bind_eq_some_iff.mp h
    obtain ⟨c, rfl, -⟩ := Pattern.char_eq_some hinner
    obtain ⟨d, hd, -⟩ := Pattern.char_eq_some hrest
    have hsuffix : rest <:+ inner := (suffix_cons d rest).trans (hd ▸ dropWhile_suffix _)
    exact hsuffix.trans (suffix_cons c inner)

theorem exists_of_pastDims (h : pastDims cs = some rest) : ∃ inner, cs = '[' :: inner ∧ rest <:+ inner := by
  obtain ⟨inner, hinner, hrest⟩ := Option.bind_eq_some_iff.mp h
  obtain ⟨c, rfl, hc⟩ := Pattern.char_eq_some hinner
  obtain ⟨d, hd, -⟩ := Pattern.char_eq_some hrest
  rw [beq_iff_eq.mp hc]
  refine ⟨inner, rfl, (suffix_cons d rest).trans ?_⟩
  rw [← hd]
  exact (dropWhile_suffix _).trans ((dropWhile_suffix _).trans (dropWhile_suffix _))

theorem exists_of_taking {p : List Char → Option (List Char)}
    (hp : ∀ {cs rest}, p cs = some rest → rest <:+ cs) {taken : Text}
    (h : taking p cs = some (taken, rest)) : ∃ n, cs = n ++ rest ∧ taken = ofChars n := by
  obtain ⟨r, hr, heq⟩ := Option.map_eq_some_iff.mp h
  obtain ⟨htaken, rfl⟩ := Prod.mk.inj heq
  obtain ⟨n, rfl⟩ := hp hr
  refine ⟨n, rfl, ?_⟩
  rw [← htaken, length_append, Nat.add_sub_cancel, take_left]

theorem suffix_of_pastName (h : pastName cs = some rest) : rest <:+ cs := by
  obtain ⟨n, rfl, -⟩ := exists_of_pastName h
  exact suffix_append n rest

theorem suffix_of_pastDims (h : pastDims cs = some rest) : rest <:+ cs := by
  obtain ⟨inner, rfl, hsuffix⟩ := exists_of_pastDims h
  exact hsuffix.trans (suffix_cons _ _)

theorem exists_of_takeDims (cs : List Char) :
    ∃ dims, cs = dims ++ (takeDims cs).2 ∧ (takeDims cs).1.getD [] = ofChars dims := by
  unfold takeDims
  split
  · next taken rest h =>
    obtain ⟨dims, rfl, rfl⟩ := exists_of_taking suffix_of_pastDims h
    exact ⟨dims, rfl, rfl⟩
  · exact ⟨[], rfl, rfl⟩

/-- The texts of the head stand one behind the other among the given characters. -/
def Head.From (cs : List Char) (h : Head) : Prop :=
  ∃ type typeDims name nameDims, List.Sublist (type ++ typeDims ++ name ++ nameDims) cs ∧
    h.type = ofChars type ∧ h.typeDims?.getD [] = ofChars typeDims ∧ h.name = ofChars name ∧
    h.nameDims?.getD [] = ofChars nameDims

theorem Head.From.of_suffix {head : Head} (h : head.From rest) (hsuffix : rest <:+ cs) :
    head.From cs := by
  obtain ⟨type, typeDims, name, nameDims, hsublist, h⟩ := h
  exact ⟨type, typeDims, name, nameDims, hsublist.trans hsuffix.sublist, h⟩

/-- What stands behind the name of a declaration is white space and dimensions. -/
theorem apart_of_takeDims (h : (takeDims (cs.dropWhile isWhiteSpace)).2 = []) :
    ∀ c ∈ cs.head?, isWhiteSpace c ∨ c = '[' := by
  cases cs with
  | nil => nofun
  | cons c cs =>
    rintro _ ⟨⟩
    by_cases hspace : isWhiteSpace c
    · exact .inl hspace
    rw [dropWhile_cons_of_neg (by simpa using hspace), takeDims] at h
    split at h
    · next dims rest htaking =>
      obtain ⟨r, hr, -⟩ := Option.map_eq_some_iff.mp htaking
      obtain ⟨inner, hinner, -⟩ := exists_of_pastDims hr
      exact .inr (cons.inj hinner).1
    · cases h

/-- The name of the head stands in the characters, behind white space and before white space or dimensions. -/
def Head.NamedIn (cs : List Char) (h : Head) : Prop :=
  ∃ a s n z, cs = a ++ s :: n ++ z ∧ h.name = ofChars n ∧ n ≠ [] ∧ (∀ c ∈ n, isNameStart c ∨ isWordChar c) ∧
    isWhiteSpace s ∧ ∀ c ∈ z.head?, isWhiteSpace c ∨ c = '['

/-- **What is read of a global stands in its declaration.** -/
theorem of_typed? {isConst : Bool} {head : Head} (h : typed? isConst cs = some head) :
    head.From cs ∧ head.NamedIn cs := by
  unfold typed? at h
  obtain ⟨⟨type, behindType⟩, htype, h⟩ := Option.bind_eq_some_iff.mp h
  obtain ⟨spaced, hspaced, h⟩ := Option.bind_eq_some_iff.mp h
  obtain ⟨⟨name, behindName⟩, hname, h⟩ := Option.bind_eq_some_iff.mp h
  obtain ⟨u, hend, heq⟩ := Option.bind_eq_some_iff.mp h
  have hpast : ∀ {cs rest}, (pastName cs).map pastTemplate = some rest → rest <:+ cs := by
    intro cs rest h
    obtain ⟨mid, hmid, rfl⟩ := Option.map_eq_some_iff.mp h
    exact (pastTemplate_suffix mid).trans (suffix_of_pastName hmid)
  obtain ⟨t, rfl, rfl⟩ := exists_of_taking hpast htype
  obtain ⟨d, hdims, hdimsText⟩ := exists_of_takeDims (behindType.dropWhile isWhiteSpace)
  -- The name is looked for behind the dimensions, or right behind the type if there are none.
  obtain ⟨front, hrun, hsuffix, hfront⟩ : ∃ front, Pattern.run isWhiteSpace front = some spaced ∧
      front <:+ behindType ∧ List.Sublist (d ++ front) behindType := by
    refine ⟨if (takeDims (behindType.dropWhile isWhiteSpace)).1.isSome then
      (takeDims (behindType.dropWhile isWhiteSpace)).2 else behindType, hspaced, ?_⟩
    split
    · refine ⟨(hdims ▸ suffix_append d _).trans (dropWhile_suffix _), ?_⟩
      rw [← hdims]
      exact dropWhile_sublist _
    · next hnone =>
      rw [Option.not_isSome_iff_eq_none.mp hnone] at hdimsText
      obtain rfl : [] = d := ofChars_injective hdimsText
      exact ⟨suffix_rfl, Sublist.refl _⟩
  obtain ⟨b, rfl, hne, hb⟩ := exists_of_run hrun
  obtain ⟨n, rfl, rfl⟩ := exists_of_taking suffix_of_pastName hname
  obtain ⟨past, hpastName, hpair⟩ := Option.map_eq_some_iff.mp hname
  obtain rfl : past = behindName := congrArg Prod.snd hpair
  obtain ⟨n', hn', hne', hword⟩ := exists_of_pastName hpastName
  obtain rfl : n = n' := append_cancel_right hn'
  obtain ⟨e, hnameDims, hnameDimsText⟩ := exists_of_takeDims (past.dropWhile isWhiteSpace)
  cases heq
  refine ⟨⟨t, d, n, e, ?_, rfl, hdimsText, rfl, hnameDimsText⟩, ?_⟩
  · have htail : List.Sublist (n ++ e) (b ++ (n ++ past)) := by
      refine (Sublist.append_left ?_ n).trans (sublist_append_right _ _)
      exact (hnameDims ▸ sublist_append_left e _).trans (dropWhile_sublist _)
    rw [append_assoc, append_assoc]
    exact Sublist.append_left ((Sublist.append_left htail d).trans hfront) t
  · obtain ⟨b, s, rfl⟩ := (eq_nil_or_concat b).resolve_left hne
    obtain ⟨a, rfl⟩ := hsuffix
    refine ⟨t ++ a ++ b, s, n, past, by simp, rfl, hne', hword, hb s (by simp), apart_of_takeDims ?_⟩
    by_contra hnot
    have hguard : (if (takeDims (past.dropWhile isWhiteSpace)).2.isEmpty then pure () else failure :
        Option Unit) = some u := hend
    rw [if_neg (by simpa using hnot)] at hguard
    cases hguard

theorem of_head {head : Head} (h : Head.ofChars? cs = some head) : head.From cs ∧ head.NamedIn cs := by
  rcases Option.or_eq_some_iff.mp h with h | ⟨-, h⟩
  · obtain ⟨rest, hrest, h⟩ := Option.bind_eq_some_iff.mp h
    obtain ⟨mid, hmid, hrest⟩ := Option.bind_eq_some_iff.mp hrest
    obtain ⟨b, rfl⟩ := Pattern.run_eq_some hrest
    have hcs := Pattern.literal_eq_some hmid
    obtain ⟨hfrom, a, s, n, z, rfl, hname⟩ := of_typed? h
    refine ⟨hfrom.of_suffix ⟨"const".toList ++ b, by simp [hcs]⟩, "const".toList ++ b ++ a, s, n, z,
      by simp [hcs], hname⟩
  · exact of_typed? h

end GlslToMetal.Global
