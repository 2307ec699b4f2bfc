import GlslToMetal.Proofs.Text.Ascii
import GlslToMetal.Text.Comment
import GlslToMetal.Text.Edit
import Mathlib.Data.List.Nodup
import Mathlib.Data.List.Sort

/-! Edits of a text and of its masked copy. The offsets of edits are found in the masked copy. They
stand beside code: the byte before or behind an edit is no blank of the copy, so no comment is cut,
and masking the edited text gives the edited copy. -/

namespace GlslToMetal

variable {edits sorted : List Edit} {i : Nat} {next : Option UInt8} {new s t t' u : Text} {p : Text.Place}

namespace Text

open List

theorem maskByte_solid {p : Text.Place} {b : UInt8} {next : Option UInt8}
    (h : isBlank (maskByte p b next).1 = false) : p = .code ∧ maskByte p b next = (b, .code) := by
  cases p with
  | code =>
    refine ⟨rfl, ?_⟩
    unfold maskByte at h ⊢
    dsimp only at h ⊢
    split
    · next hline => simp [hline, isBlank] at h
    · next hline =>
      rw [if_neg hline] at h
      split
      · next hopen => simp [hopen, isBlank] at h
      · rfl
  | line =>
    unfold maskByte at h
    dsimp only at h
    split at h <;> simp [isBlank, newline] at h
  | opening => simp [maskByte, isBlank] at h
  | block =>
    unfold maskByte at h
    dsimp only at h
    split at h
    · simp [isBlank] at h
    · dsimp only at h
      split at h <;> simp [isBlank, newline] at h
  | closing => simp [maskByte, isBlank] at h

/-- Masks a text that `next` follows, and gives the place behind it. -/
def maskUpTo (p : Place) (next : Option UInt8) : Text → Text × Place
  | [] => ([], p)
  | b :: rest =>
    let (masked, after) := maskByte p b (rest.head?.or next)
    let (tail, last) := maskUpTo after next rest
    (masked :: tail, last)

theorem maskUpTo_append (p : Place) (next : Option UInt8) (s t : Text) : maskUpTo p next (s ++ t) =
      ((maskUpTo p (t.head?.or next) s).1 ++ (maskUpTo (maskUpTo p (t.head?.or next) s).2 next t).1,
        (maskUpTo (maskUpTo p (t.head?.or next) s).2 next t).2) := by
  induction s generalizing p with
  | nil => rfl
  | cons b s ih =>
    simp only [List.cons_append, maskUpTo, ih, List.head?_append, Option.or_assoc]

theorem maskUpTo_concat (p : Place) (next : Option UInt8) (s : Text) (b : UInt8) :
    maskUpTo p next (s ++ [b]) =
      ((maskUpTo p (some b) s).1 ++ [(maskByte (maskUpTo p (some b) s).2 b next).1],
        (maskByte (maskUpTo p (some b) s).2 b next).2) := by
  rw [maskUpTo_append]
  rfl

theorem maskUpTo_none (p : Place) (t : Text) : (maskUpTo p none t).1 = maskFrom p t := by
  induction t generalizing p with
  | nil => rfl
  | cons b t ih => simp [maskFrom, maskUpTo, ih]

theorem maskFrom_append (p : Place) (s t : Text) :
    maskFrom p (s ++ t) = (maskUpTo p t.head? s).1 ++ maskFrom (maskUpTo p t.head? s).2 t := by
  rw [← maskUpTo_none, maskUpTo_append, Option.or_none, maskUpTo_none]

theorem length_maskUpTo (p : Place) (next : Option UInt8) (t : Text) :
    (maskUpTo p next t).1.length = t.length := by
  induction t generalizing p with
  | nil => rfl
  | cons b t ih => simp [maskUpTo, ih]

theorem length_maskFrom (p : Place) (t : Text) : (maskFrom p t).length = t.length := by
  rw [← maskUpTo_none, length_maskUpTo]

theorem maskByte_fst (place : Place) (b : UInt8) (next : Option UInt8) :
    (maskByte place b next).1 = b ∨ (maskByte place b next).1 = 32 := by
  unfold maskByte
  split <;> (repeat' split) <;> simp_all

theorem mem_maskUpTo {p : Place} {c : UInt8}
    (h : c ∈ (maskUpTo p next t).1) : c ∈ t ∨ c = 32 := by
  induction t generalizing p with
  | nil => cases h
  | cons b t ih =>
    simp only [maskUpTo] at h
    rcases mem_cons.mp h with hc | h
    · rcases maskByte_fst p b (t.head?.or next) with hb | hb
      · exact .inl (hc.trans hb ▸ mem_cons_self)
      · exact .inr (hc.trans hb)
    · exact (ih h).imp_left (mem_cons_of_mem _)

theorem mem_maskFrom {place : Place} {c : UInt8} (h : c ∈ maskFrom place t) : c ∈ t ∨ c = 32 :=
  mem_maskUpTo (maskUpTo_none place t ▸ h)

theorem IsAscii.mask (h : t.IsAscii) : t.mask.IsAscii := by
  intro c hc
  rcases mem_maskFrom hc with hc | rfl
  · exact h c hc
  · decide

@[simp] theorem length_mask (t : Text) : t.mask.length = t.length := length_maskFrom .code t

/-- A byte that opens no comment behind a slash. -/
def Harmless (next : Option UInt8) : Prop := next ≠ some 47 ∧ next ≠ some 42

/-- A newline of the masked text ends a line comment, or stands in code or in a block comment. -/
theorem maskByte_newline (h : (maskByte p b next).1 = newline) :
    ((maskByte p b next).2 = .code ∨ (maskByte p b next).2 = .block) ∧
      ∀ next', maskByte p b next' = maskByte p b next := by
  have hb : b = newline := by
    rcases maskByte_fst p b next with hfst | hfst
    · exact hfst ▸ h
    · rw [hfst] at h
      cases h
  subst hb
  cases p with
  | code => exact ⟨.inl rfl, fun _ => rfl⟩
  | line => exact ⟨.inl rfl, fun _ => rfl⟩
  | opening => cases h
  | block => exact ⟨.inr rfl, fun _ => rfl⟩
  | closing => cases h

theorem maskByte_next (hcode : (maskByte p b next).2 = .code)
    (h : (maskByte p b next).1 = 47 → Harmless next') : maskByte p b next' = maskByte p b next := by
  cases p with
  | code =>
    by_cases hb : b = 47
    · subst hb
      have hsame : maskByte .code 47 next = (47, .code) := by
        unfold maskByte at hcode ⊢
        dsimp only at hcode ⊢
        split at hcode
        · cases hcode
        split at hcode
        · cases hcode
        · simp_all
      rw [hsame] at h ⊢
      obtain ⟨hslash, hstar⟩ := h rfl
      simp [maskByte, hslash, hstar]
    · simp [maskByte, hb]
  | line => rfl
  | opening => rfl
  | block =>
    unfold maskByte at hcode
    dsimp only at hcode
    split at hcode <;> cases hcode
  | closing => rfl

/-- Where code follows, another byte may follow instead, as long as it opens no comment. -/
theorem maskUpTo_next (h : (maskUpTo p next s).1.getLast? = some newline ∨ (maskUpTo p next s).2 = .code ∧
      ((maskUpTo p next s).1.getLast? = some 47 → Harmless next')) :
    maskUpTo p next' s = maskUpTo p next s := by
  rcases eq_nil_or_concat s with rfl | ⟨s, b, rfl⟩
  · rfl
  rw [concat_eq_append] at h ⊢
  simp only [maskUpTo_concat, getLast?_append, getLast?_singleton, Option.some_or, Option.some.injEq] at h ⊢
  have hbyte : maskByte (maskUpTo p (some b) s).2 b next' = maskByte (maskUpTo p (some b) s).2 b next := by
    rcases h with hnewline | ⟨hcode, hslash⟩
    · exact (maskByte_newline hnewline).2 next'
    · exact maskByte_next hcode hslash
  rw [hbyte]

/-- The text ends in a byte that is no blank. -/
def EndsSolid (t : Text) : Prop := ∃ b ∈ t.getLast?, isBlank b = false

/-- The text starts with a byte that is no blank. -/
def StartsSolid (t : Text) : Prop := ∃ b ∈ t.head?, isBlank b = false

theorem EndsSolid.append_left (s : Text) (h : EndsSolid t) : EndsSolid (s ++ t) := by
  obtain ⟨b, hb, hblank⟩ := h
  refine ⟨b, ?_, hblank⟩
  rw [Option.mem_def] at hb ⊢
  rw [List.getLast?_append, hb, Option.some_or]

theorem EndsSolid.of_append {s t : Text} (hne : t ≠ []) (h : EndsSolid (s ++ t)) : EndsSolid t := by
  obtain ⟨b, hb, hblank⟩ := h
  refine ⟨b, ?_, hblank⟩
  rw [List.getLast?_append, List.getLast?_eq_some_getLast hne, Option.some_or] at hb
  rwa [List.getLast?_eq_some_getLast hne]

theorem StartsSolid.append_right (h : StartsSolid s) (t : Text) : StartsSolid (s ++ t) := by
  obtain ⟨b, hb, hblank⟩ := h
  refine ⟨b, ?_, hblank⟩
  rw [Option.mem_def] at hb ⊢
  rw [List.head?_append, hb, Option.some_or]

theorem place_of_endsSolid (h : EndsSolid (maskUpTo p next s).1) : (maskUpTo p next s).2 = .code := by
  rcases List.eq_nil_or_concat s with rfl | ⟨s, b, rfl⟩
  · simp [maskUpTo, EndsSolid] at h
  · rw [List.concat_eq_append, maskUpTo_concat] at h ⊢
    obtain ⟨d, hd, hblank⟩ := h
    obtain rfl : _ = d := by simpa using hd
    rw [(maskByte_solid hblank).2]

theorem place_of_startsSolid (h : StartsSolid (maskFrom p s)) : p = .code := by
  cases s with
  | nil => simp [maskFrom, StartsSolid] at h
  | cons b s =>
    obtain ⟨d, hd, hblank⟩ := h
    simp only [maskFrom, List.head?_cons, Option.mem_def, Option.some.injEq] at hd
    subst hd
    exact (maskByte_solid hblank).1

theorem maskUpTo_code (h : 47 ∉ t) (next : Option UInt8) : maskUpTo .code next t = (t, .code) := by
  induction t with
  | nil => rfl
  | cons b t ih =>
    rw [mem_cons, not_or] at h
    have hbyte : ∀ next, maskByte .code b next = (b, .code) := by
      intro next
      simp [maskByte, Ne.symm h.1]
    simp only [maskUpTo, hbyte, ih h.2]

theorem maskFrom_code_append (h : 47 ∉ new) (t : Text) :
    maskFrom .code (new ++ t) = new ++ maskFrom .code t := by
  rw [maskFrom_append, maskUpTo_code h]

end Text

open List Text

/-- A text to put in: it is ASCII and opens no comment. -/
def Insertable (new : Text) : Prop := new ≠ [] ∧ 47 ∉ new ∧ 42 ∉ new ∧ new.IsCode

theorem Insertable.comma (h : Insertable new) : Insertable (44 :: 32 :: new) := by
  obtain ⟨-, hslash, hstar, hcode⟩ := h
  refine ⟨by simp, by simp [hslash], by simp [hstar], ?_⟩
  intro b hb
  simp only [mem_cons] at hb
  rcases hb with rfl | rfl | hb
  · decide
  · decide
  · exact hcode b hb

/-- The edits, whose offsets count from `i` at the start of the text, turn the text into the other:
from left to right, with something between one edit and the next, each beside a byte that is no
blank, and none at the end. -/
inductive Rewrites : Nat → Text → List Edit → Text → Prop where
  | keep (i : Nat) (t : Text) : Rewrites i t [] t
  | edit {i : Nat} {kept old new rest rest' : Text} {edits : List Edit} :
      kept ≠ [] → Insertable new → EndsSolid kept ∨ (old = [] ∧ StartsSolid rest) →
      old = [] ∨ StartsSolid rest → ¬ rest.all isBlank →
      Rewrites (i + kept.length + old.length) rest edits rest' →
      Rewrites i (kept ++ old ++ rest)
        (⟨⟨i + kept.length, i + kept.length + old.length⟩, new⟩ :: edits) (kept ++ new ++ rest')

/-- A text is cut as another one of its length is. -/
theorem Text.exists_parts {a b c s : Text} (h : s.length = (a ++ b ++ c).length) :
    ∃ x y z, s = x ++ y ++ z ∧ x.length = a.length ∧ y.length = b.length ∧ z.length = c.length := by
  simp only [length_append] at h
  refine ⟨s.take a.length, (s.drop a.length).take b.length, (s.drop a.length).drop b.length, ?_, ?_, ?_, ?_⟩
  · rw [append_assoc, take_append_drop, take_append_drop]
  all_goals simp only [length_take, length_drop]; omega

namespace Rewrites

/-- **Masking and editing commute.** Edits of the masked copy apply to the text, and the result has
the edited copy as its masked copy. -/
theorem applyFrom {i : Nat} {m m' : Text} {edits : List Edit} (h : Rewrites i m edits m') :
    ∀ {before s : Text} {p : Text.Place}, before.length = i → (before ++ s).IsCode → maskFrom p s = m →
      ∃ s', Edit.applyFrom (before ++ s) i edits = .ok s' ∧ maskFrom p s' = m' ∧ s'.IsCode := by
  induction h with
  | keep i t =>
    intro before s p hlen hcode hmask
    refine ⟨s, ?_, hmask, hcode.sublist (sublist_append_right _ _)⟩
    subst hlen
    rw [Edit.applyFrom, slice_of_isAscii hcode.isAscii (by simp) (Nat.le_refl _)]
    have := cut_append before s []
    simpa using this
  | @edit i kept old new rest rest' edits hkept hnew hbefore hbehind hrest hrw ih =>
    intro before s p hlen hcode hmask
    subst hlen
    obtain ⟨k, o, r, rfl, hk, ho, -⟩ :=
      exists_parts ((length_maskFrom p s).symm.trans (congrArg length hmask))
    -- The masked parts are the parts of the masked text, and code stands where they meet.
    rw [append_assoc, maskFrom_append, append_assoc] at hmask
    obtain ⟨hkept, hmask⟩ := append_inj hmask (by rw [length_maskUpTo, hk])
    have hplace : (maskUpTo p (o ++ r).head? k).2 = .code := by
      rcases hbefore with hsolid | ⟨hnil, hsolid⟩
      · exact place_of_endsSolid (hkept ▸ hsolid)
      · subst hnil
        rw [nil_append] at hmask
        exact place_of_startsSolid (hmask ▸ hsolid)
    rw [hplace, maskFrom_append] at hmask
    obtain ⟨hold, hmask⟩ := append_inj hmask (by rw [length_maskUpTo, ho])
    have hplace' : (maskUpTo .code r.head? o).2 = .code := by
      rcases hbehind with hnil | hsolid
      · rw [hnil, length_nil, length_eq_zero_iff] at ho
        subst ho
        rfl
      · exact place_of_startsSolid (hmask ▸ hsolid)
    rw [hplace'] at hmask
    obtain ⟨s', happly, hmask', hcode'⟩ := @ih (before ++ k ++ o) r .code
      (by simp only [length_append, hk, ho]) (by simpa using hcode) hmask
    refine ⟨k ++ new ++ s', ?_, ?_, ?_⟩
    · have hslice : (before ++ (k ++ o ++ r)).slice ⟨before.length, before.length + kept.length⟩ = .ok k := by
        rw [slice_of_isAscii hcode.isAscii (by simp) (by simp [hk]), ← hk]
        have := cut_append before k (o ++ r)
        simp only [append_assoc] at this ⊢
        rw [this]
      have hsplit : before ++ k ++ o ++ r = before ++ (k ++ o ++ r) := by simp
      rw [hsplit] at happly
      simp only [Edit.applyFrom, bind, Except.bind, hslice, happly]
      rw [if_neg (by omega)]
      rfl
    · have hharmless : Harmless (new ++ s').head? := by
        obtain ⟨b, tail, rfl⟩ := exists_cons_of_ne_nil hnew.1
        have hslash : b ≠ 47 := fun h => hnew.2.1 (by simp [h])
        have hstar : b ≠ 42 := fun h => hnew.2.2.1 (by simp [h])
        simp [Harmless, hslash, hstar]
      rw [append_assoc, maskFrom_append, maskUpTo_next (.inr ⟨hplace, fun _ => hharmless⟩), hplace, hkept,
        maskFrom_code_append hnew.2.1, hmask', append_assoc]
    · intro b hb
      simp only [mem_append, or_assoc] at hb
      rcases hb with hb | hb | hb
      · exact hcode b (by simp [hb])
      · exact hnew.2.2.2 b hb
      · exact hcode' b hb

theorem prepend (k : Text)
    (h : Rewrites (i + k.length) t edits t') : Rewrites i (k ++ t) edits (k ++ t') := by
  generalize hj : i + k.length = j at h
  cases h with
  | keep => exact .keep i _
  | @edit _ kept old new rest rest' edits hkept hnew hbefore hbehind hrest hrw =>
    subst hj
    have hstart : i + k.length + kept.length = i + (k ++ kept).length := by
      rw [length_append]
      omega
    rw [hstart] at hrw ⊢
    rw [← append_assoc, ← append_assoc, ← append_assoc, ← append_assoc]
    refine .edit (by simp [hkept]) hnew (hbefore.imp_left ?_) hbehind hrest hrw
    exact EndsSolid.append_left k

theorem append {u' : Text} {edits' : List Edit}
    (h : Rewrites i t edits t') (h' : Rewrites (i + t.length) u edits' u') :
    Rewrites i (t ++ u) (edits ++ edits') (t' ++ u') := by
  induction h with
  | keep i t => exact prepend t h'
  | @edit i kept old new rest rest' edits hkept hnew hbefore hbehind hrest hrw ih =>
    have htail := ih (by simpa [Nat.add_assoc] using h')
    rw [append_assoc, append_assoc (kept ++ new), cons_append]
    refine .edit hkept hnew ?_ ?_ ?_ htail
    · exact hbefore.imp_right fun ⟨hnil, hsolid⟩ => ⟨hnil, hsolid.append_right u⟩
    · exact hbehind.imp_right fun hsolid => hsolid.append_right u
    · intro hall
      rw [all_append, Bool.and_eq_true] at hall
      exact hrest hall.1

/-- One more edit behind the others. -/
theorem snoc {old rest : Text} (h : Rewrites i t edits t')
    (hne : t ≠ []) (hnew : Insertable new) (hbefore : EndsSolid t ∨ (old = [] ∧ StartsSolid rest))
    (hbehind : old = [] ∨ StartsSolid rest) (hrest : ¬ rest.all isBlank) :
    Rewrites i (t ++ old ++ rest)
      (edits ++ [⟨⟨i + t.length, i + t.length + old.length⟩, new⟩]) (t' ++ new ++ rest) := by
  induction h with
  | keep i t => exact .edit hne hnew hbefore hbehind hrest (.keep _ _)
  | @edit i kept old' new' rest' rest'' edits hkept hnew' hbefore' hbehind' hrest' hrw ih =>
    have hne' : rest' ≠ [] := by
      rintro rfl
      simp at hrest'
    have htail := ih hne' (hbefore.imp_left (EndsSolid.of_append hne'))
    have hlen : i + kept.length + old'.length + rest'.length = i + (kept ++ old' ++ rest').length := by
      simp only [length_append]
      omega
    rw [hlen, append_assoc rest', append_assoc rest''] at htail
    rw [append_assoc (kept ++ old' ++ rest'), append_assoc (kept ++ old'),
      append_assoc (kept ++ new' ++ rest''), append_assoc (kept ++ new'),
      cons_append]
    refine .edit hkept hnew' ?_ ?_ ?_ htail
    · exact hbefore'.imp_right fun ⟨hnil, hsolid⟩ => ⟨hnil, hsolid.append_right _⟩
    · exact hbehind'.imp_right fun hsolid => hsolid.append_right _
    · intro hall
      rw [all_append, Bool.and_eq_true] at hall
      exact hrest' hall.1

theorem of_append_blanks (h : Rewrites i u edits t') {z : Text} (hu : u = t ++ z) (hz : z.all isBlank) :
    ∃ s, t' = s ++ z ∧ Rewrites i t edits s := by
  induction h generalizing t with
  | keep i u => exact ⟨t, hu, .keep i t⟩
  | @edit i kept old new rest rest' edits hkept hnew hbefore hbehind hrest hrw ih =>
    obtain ⟨x, rfl, rfl⟩ : ∃ x, t = kept ++ old ++ x ∧ rest = x ++ z := by
      rcases append_eq_append_iff.mp hu with ⟨x, ht, hx⟩ | ⟨x, -, hx⟩
      · exact ⟨x, ht, hx⟩
      · rw [hx, all_append, Bool.and_eq_true] at hz
        exact absurd hz.2 hrest
    have hx : ¬ x.all isBlank := by
      intro hall
      apply hrest
      rw [all_append, hall, hz]
      rfl
    have hstarts : StartsSolid (x ++ z) → StartsSolid x := by
      obtain ⟨b, x, rfl⟩ := exists_cons_of_ne_nil (l := x) (by rintro rfl; simp at hx)
      exact id
    obtain ⟨s, rfl, htail⟩ := ih rfl
    refine ⟨kept ++ new ++ s, by simp, .edit hkept hnew ?_ (hbehind.imp_right hstarts) hx htail⟩
    exact hbefore.imp_right fun ⟨hnil, hsolid⟩ => ⟨hnil, hstarts hsolid⟩

theorem le_start (h : Rewrites i t edits t') : ∀ e ∈ edits, i < e.range.start := by
  induction h with
  | keep => simp
  | @edit i kept old new rest rest' edits hkept _ _ _ _ _ ih =>
    have hpos := length_pos_iff.mpr hkept
    intro e he
    rcases mem_cons.mp he with rfl | he
    · show i < i + kept.length
      omega
    · have := ih e he
      omega

theorem pairwise_start (h : Rewrites i t edits t') : edits.Pairwise (·.range.start < ·.range.start) := by
  induction h with
  | keep => exact .nil
  | edit _ _ _ _ _ hrw ih =>
    refine pairwise_cons.mpr ⟨?_, ih⟩
    intro e he
    have := hrw.le_start e he
    show _ + _ < e.range.start
    omega

end Rewrites

/-- A list that is ordered by a key is the list in which the keys grow, if it has the same elements. -/
theorem eq_of_perm_of_pairwise {α : Type} (key : α → Nat) {xs ys : List α} (hperm : xs.Perm ys)
    (hxs : xs.Pairwise (key · ≤ key ·)) (hys : ys.Pairwise (key · < key ·)) : xs = ys := by
  have hdistinct : (ys.map key).Nodup := pairwise_map.mpr (hys.imp Nat.ne_of_lt)
  refine List.Perm.eq_of_pairwise ?_ hxs (hys.imp Nat.le_of_lt) hperm
  intro x y hx hy hle hge
  exact inj_on_of_nodup_map hdistinct (hperm.mem_iff.mp hx) hy (Nat.le_antisymm hle hge)

namespace Edit

theorem place_eq_orderedInsert (e : Edit) (edits : List Edit) :
    place e edits = edits.orderedInsert (·.range.start ≤ ·.range.start) e := by
  induction edits with
  | nil => rfl
  | cons f rest ih => rw [place, orderedInsert_cons, ih]

theorem ordered_eq_insertionSort (edits : List Edit) :
    ordered edits = edits.insertionSort (·.range.start ≤ ·.range.start) := by
  induction edits with
  | nil => rfl
  | cons e rest ih => rw [ordered, place_eq_orderedInsert, ih, insertionSort_cons]

theorem ordered_perm (edits : List Edit) : (ordered edits).Perm edits :=
  ordered_eq_insertionSort edits ▸ perm_insertionSort _ _

theorem pairwise_place_stable {e : Edit} {es : List Edit} {p : Edit → Edit → Prop} (he : ∀ f ∈ es, p e f)
    (h : es.Pairwise fun e f => e.range.start < f.range.start ∨ e.range.start = f.range.start ∧ p e f) :
    (place e es).Pairwise fun e f =>
      e.range.start < f.range.start ∨ e.range.start = f.range.start ∧ p e f := by
  induction es with
  | nil => exact pairwise_singleton _ _
  | cons f rest ih =>
    obtain ⟨hf, hrest⟩ := pairwise_cons.mp h
    unfold place
    split
    · next hle =>
      refine pairwise_cons.mpr ⟨fun g hg => ?_, h⟩
      have hstart : f.range.start ≤ g.range.start := by
        rcases mem_cons.mp hg with rfl | hg
        · exact Nat.le_refl _
        · rcases hf g hg with hlt | ⟨heq, -⟩
          · exact Nat.le_of_lt hlt
          · exact Nat.le_of_eq heq
      rcases Nat.lt_or_eq_of_le (Nat.le_trans hle hstart) with hlt | heq
      · exact .inl hlt
      · exact .inr ⟨heq, he g hg⟩
    · next hgt =>
      refine pairwise_cons.mpr ⟨fun g hg => ?_, ih (fun g hg => he g (mem_cons_of_mem _ hg)) hrest⟩
      rw [place_eq_orderedInsert, mem_orderedInsert] at hg
      rcases hg with rfl | hg
      · exact .inl (Nat.lt_of_not_le hgt)
      · exact hf g hg

/-- **Edits that start together keep their order.** -/
theorem pairwise_ordered_stable {es : List Edit} {p : Edit → Edit → Prop} (h : es.Pairwise p) :
    (ordered es).Pairwise fun e f =>
      e.range.start < f.range.start ∨ e.range.start = f.range.start ∧ p e f := by
  induction es with
  | nil => exact .nil
  | cons e rest ih =>
    obtain ⟨he, hrest⟩ := pairwise_cons.mp h
    exact pairwise_place_stable (fun f hf => he f ((ordered_perm rest).mem_iff.mp hf)) (ih hrest)

theorem pairwise_ordered (edits : List Edit) : (ordered edits).Pairwise (·.range.start ≤ ·.range.start) :=
  (pairwise_ordered_stable (p := fun _ _ => True) (pairwise_of_forall fun _ _ => trivial)).imp fun h =>
    h.elim Nat.le_of_lt fun h => Nat.le_of_eq h.1

theorem ordered_eq (hperm : edits.Perm sorted)
    (hsorted : sorted.Pairwise (·.range.start < ·.range.start)) : ordered edits = sorted :=
  eq_of_perm_of_pairwise (·.range.start) ((ordered_perm edits).trans hperm) (pairwise_ordered edits) hsorted

end Edit

theorem Rewrites.apply {m' : Text} (h : Rewrites 0 s.mask sorted m')
    (hperm : edits.Perm sorted) (hs : s.IsCode) :
    ∃ s', Edit.apply edits s = .ok s' ∧ s'.mask = m' ∧ s'.IsCode := by
  unfold Edit.apply
  rw [Edit.ordered_eq hperm h.pairwise_start]
  exact @Rewrites.applyFrom _ _ _ _ h [] s .code rfl hs rfl

end GlslToMetal
