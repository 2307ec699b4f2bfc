import GlslToMetal.Proofs.Text.Masking
import GlslToMetal.Proofs.Text.Spliced
import GlslToMetal.Proofs.Text.Word

/-! Taking ranges out of a text. What is left reads as it did in the text, code as code and comment
as comment, if each range begins in a block comment exactly when it ends in one, and if no `/` of the
code comes to stand before a `/` or a `*`. -/

namespace GlslToMetal

open List

variable {ds : List Char} {rs : List Range} {i : Nat} {next' : Option UInt8} {r : Range} {new s t t' : Text}

/-- The offset lies in the range. -/
def Range.covers (r : Range) (i : Nat) : Bool := r.start ≤ i && i < r.stop

theorem Range.covers_iff : r.covers i ↔ r.start ≤ i ∧ i < r.stop := by
  simp [covers]

theorem Range.covers_eq_false (h : i < r.start ∨ r.stop ≤ i) : r.covers i = false := by
  rw [Bool.eq_false_iff, Ne, covers_iff]
  omega

namespace Text

/-- The bytes that start at offset `i`, without those that lie in one of the ranges. -/
def withoutFrom (rs : List Range) (i : Nat) : Text → Text
  | [] => []
  | b :: t => if rs.any (·.covers i) then withoutFrom rs (i + 1) t else b :: withoutFrom rs (i + 1) t

/-- The bytes of a text that lie in none of the ranges. -/
def without (t : Text) (rs : List Range) : Text := withoutFrom rs 0 t

theorem withoutFrom_append (rs : List Range) (i : Nat) (s t : Text) :
    withoutFrom rs i (s ++ t) = withoutFrom rs i s ++ withoutFrom rs (i + s.length) t := by
  induction s generalizing i with
  | nil => rfl
  | cons b s ih =>
    rw [cons_append, withoutFrom, withoutFrom, ih, length_cons, Nat.add_comm s.length, ← Nat.add_assoc]
    split <;> rfl

theorem withoutFrom_congr {rs' : List Range}
    (h : ∀ j, i ≤ j → j < i + t.length → rs.any (·.covers j) = rs'.any (·.covers j)) :
    withoutFrom rs i t = withoutFrom rs' i t := by
  induction t generalizing i with
  | nil => rfl
  | cons b t ih =>
    have hi := h i (Nat.le_refl i) (by simp)
    have ht := @ih (i + 1) fun j hij hj => h j (by omega) (by rw [length_cons]; omega)
    rw [withoutFrom, withoutFrom, hi, ht]

theorem withoutFrom_of_all (h : ∀ j, i ≤ j → j < i + t.length → rs.any (·.covers j)) :
    withoutFrom rs i t = [] := by
  induction t generalizing i with
  | nil => rfl
  | cons b t ih =>
    rw [withoutFrom, if_pos (h i (Nat.le_refl i) (by simp))]
    exact ih fun j hij hj => h j (by omega) (by rw [length_cons]; omega)

theorem withoutFrom_of_none
    (h : ∀ j, i ≤ j → j < i + t.length → rs.any (·.covers j) = false) : withoutFrom rs i t = t := by
  induction t generalizing i with
  | nil => rfl
  | cons b t ih =>
    rw [withoutFrom, h i (Nat.le_refl i) (by simp), ih fun j hij hj =>
      h j (by omega) (by rw [length_cons]; omega)]
    rfl

/-- The ranges divide the text that starts at offset `i`: each lies behind the one before. -/
inductive Divided : Nat → Text → List Range → Prop where
  | nil {i : Nat} {t : Text} : Divided i t []
  | cons {i : Nat} {kept old rest : Text} {rs : List Range} : Divided (i + kept.length + old.length) rest rs →
      Divided i (kept ++ old ++ rest) (⟨i + kept.length, i + kept.length + old.length⟩ :: rs)

namespace Divided

theorem bounds (h : Divided i t rs) : ∀ r ∈ rs, i ≤ r.start ∧ r.start ≤ r.stop ∧ r.stop ≤ i + t.length := by
  induction h with
  | nil => simp
  | cons hrest ih =>
    simp only [length_append]
    refine forall_mem_cons.mpr ⟨by dsimp only; omega, fun r hr => ?_⟩
    have := ih r hr
    omega

theorem not_covers {j : Nat} (h : Divided i t rs) (hj : j < i) : rs.any (·.covers j) = false := by
  rw [any_eq_false]
  intro r hr hcovers
  have := h.bounds r hr
  have := Range.covers_iff.mp hcovers
  omega

theorem of_length (h : Divided i t rs)
    (hlength : t'.length = t.length) : Divided i t' rs := by
  induction h generalizing t' with
  | nil => exact .nil
  | @cons i kept old rest rs _ ih =>
    obtain ⟨kept', old', rest', rfl, hkept, hold, hrest⟩ := exists_parts hlength
    have hdivided := ih hrest
    rw [← hkept, ← hold] at hdivided ⊢
    exact .cons hdivided

/-- Taking ranges out goes from one to the next. -/
theorem withoutFrom_cons {i : Nat} {kept old rest : Text} {rs : List Range}
    (h : Divided (i + kept.length + old.length) rest rs) :
    withoutFrom (⟨i + kept.length, i + kept.length + old.length⟩ :: rs) i (kept ++ old ++ rest) =
      kept ++ withoutFrom rs (i + kept.length + old.length) rest := by
  have hkept : withoutFrom (⟨i + kept.length, i + kept.length + old.length⟩ :: rs) i kept = kept := by
    refine withoutFrom_of_none fun j _ hj => ?_
    rw [any_cons, h.not_covers (by omega), Range.covers_eq_false (.inl hj)]
    rfl
  have hold : withoutFrom (⟨i + kept.length, i + kept.length + old.length⟩ :: rs)
      (i + kept.length) old = [] := by
    refine withoutFrom_of_all fun j hij hj => ?_
    rw [any_cons, Range.covers_iff.mpr ⟨hij, hj⟩, Bool.true_or]
  rw [withoutFrom_append, withoutFrom_append, hkept, hold, append_nil]
  congr 1
  rw [length_append, ← Nat.add_assoc]
  refine withoutFrom_congr fun j hij _ => ?_
  rw [any_cons, Range.covers_eq_false (.inr hij), Bool.false_or]

end Divided

variable {p : Place} {b : UInt8} {next : Option UInt8}

theorem maskByte_unspaced (h : (maskByte p b next).1 ≠ 32) :
    (maskByte p b next).1 = b ∧ (p = .code ∨ (p = .line ∨ p = .block) ∧ b = newline) := by
  refine ⟨(maskByte_fst p b next).resolve_right h, ?_⟩
  cases p with
  | code => exact .inl rfl
  | line =>
    by_cases hb : b = newline
    · exact .inr ⟨.inl rfl, hb⟩
    · simp [maskByte, hb] at h
  | opening => exact absurd rfl h
  | block =>
    by_cases hb : b = newline
    · exact .inr ⟨.inr rfl, hb⟩
    · unfold maskByte at h
      dsimp only at h
      split at h <;> simp [hb] at h
  | closing => exact absurd rfl h

/-! Ranges that code and comments are kept apart by. -/

/-- The range starts at the start of a line or at code, ends with a line, at code or with the text,
and does not start with a newline. -/
structure Anchored (t : Text) (r : Range) : Prop where
  start : r.start = 0 ∨ t.mask.before? r.start = some newline ∨ ∃ b ∈ t.mask[r.start]?, b ≠ 32
  solid : t.mask[r.start]? ≠ some newline
  stop : r.stop = t.length ∨ t.mask.before? r.stop = some newline ∨ ∃ b ∈ t.mask[r.stop]?, b ≠ 32

/-- The range can be taken out with the others: it begins in a block comment exactly if it ends in
one, unless nothing stands behind it, and if a `/` of the code stands before it, what is left behind
it does not begin with a `/` or a `*`. -/
structure Separable (t : Text) (rs : List Range) (r : Range) : Prop where
  comment : (t.placeAt r.start = .block ↔ t.placeAt r.stop = .block) ∨ r.stop = t.length
  slash : t.mask.before? r.start = some 47 → Harmless (withoutFrom rs r.stop (t.drop r.stop)).head?

instance (next : Option UInt8) : Decidable (Harmless next) :=
  inferInstanceAs (Decidable (next ≠ some 47 ∧ next ≠ some 42))

instance (t : Text) (rs : List Range) (r : Range) : Decidable (Separable t rs r) :=
  decidable_of_iff (((t.placeAt r.start = .block ↔ t.placeAt r.stop = .block) ∨ r.stop = t.length) ∧
      (before? t.mask r.start = some 47 → Harmless (withoutFrom rs r.stop (t.drop r.stop)).head?))
    ⟨fun h => ⟨h.1, h.2⟩, fun h => ⟨h.1, h.2⟩⟩

theorem mask_append (s t : Text) :
    (s ++ t).mask = (maskUpTo .code t.head? s).1 ++ maskFrom (placeAt (s ++ t) s.length) t := by
  rw [placeAt_append, mask, maskFrom_append]

theorem before?_mask (s t : Text) :
    before? (s ++ t).mask s.length = (maskUpTo .code t.head? s).1.getLast? := by
  rw [mask_append, ← before?_append, length_maskUpTo]

theorem getElem?_mask (s t : Text) :
    (s ++ t).mask[s.length]? = (maskFrom (placeAt (s ++ t) s.length) t).head? := by
  have hlength := length_maskUpTo .code t.head? s
  rw [mask_append, getElem?_append_right (Nat.le_of_eq hlength), hlength, Nat.sub_self, head?_eq_getElem?]

theorem placeAt_step (s x t : Text) : placeAt (s ++ (x ++ t)) (s.length + x.length) =
      (maskUpTo (placeAt (s ++ (x ++ t)) s.length) t.head? x).2 := by
  rw [placeAt_append, ← append_assoc, ← length_append, placeAt_append, maskUpTo_append, head?_append]

theorem before?_mask_append {x : Text} (hx : x ≠ []) (s t : Text) :
    before? (s ++ (x ++ t)).mask (s.length + x.length) =
      (maskUpTo (placeAt (s ++ (x ++ t)) s.length) t.head? x).1.getLast? := by
  have hne : (maskUpTo (placeAt (s ++ (x ++ t)) s.length) t.head? x).1 ≠ [] := by
    rw [← length_pos_iff, length_maskUpTo]
    exact length_pos_iff.mpr hx
  rw [← append_assoc, ← length_append, before?_mask, maskUpTo_append, ← head?_append,
    append_assoc, ← placeAt_append, getLast?_append, getLast?_eq_some_getLast hne]
  rfl

theorem place_of_newline (h : (maskUpTo p next s).1.getLast? = some newline) :
    (maskUpTo p next s).2 = .code ∨ (maskUpTo p next s).2 = .block := by
  rcases eq_nil_or_concat s with rfl | ⟨s, b, rfl⟩
  · cases h
  rw [concat_eq_append, maskUpTo_concat] at h ⊢
  simp only [getLast?_append, getLast?_singleton, Option.some_or, Option.some.injEq] at h
  exact (maskByte_newline h).1

theorem place_of_unspaced (h : ∃ b ∈ (maskFrom p t).head?, b ≠ 32) :
    ∃ b ∈ (maskFrom p t).head?, t.head? = some b ∧ (p = .code ∨ (p = .line ∨ p = .block) ∧ b = newline) := by
  obtain ⟨b, hb, hspace⟩ := h
  cases t with
  | nil => cases hb
  | cons c t =>
    rw [maskFrom_cons, head?_cons, Option.mem_some] at hb
    obtain ⟨heq, hplace⟩ := maskByte_unspaced (hb ▸ hspace)
    rw [heq] at hb
    subst hb
    exact ⟨c, congrArg some heq, rfl, hplace⟩

/-- A range that starts at a line or at code starts in code or in a block comment, and in a block
comment only behind a newline. -/
theorem Anchored.placeAt_start (h : Anchored (s ++ t) r) (hr : r.start = s.length) :
    placeAt (s ++ t) s.length = .code ∨
      placeAt (s ++ t) s.length = .block ∧ before? (s ++ t).mask s.length = some newline := by
  have hstart := h.start
  have hsolid := h.solid
  rw [hr] at hstart hsolid
  rcases hstart with hzero | hnewline | hunspaced
  · rw [hzero]
    exact .inl rfl
  · have hlast := hnewline
    rw [before?_mask] at hlast
    rcases place_of_newline hlast with hplace | hplace <;> rw [← placeAt_append] at hplace
    · exact .inl hplace
    · exact .inr ⟨hplace, hnewline⟩
  · rw [getElem?_mask] at hunspaced hsolid
    obtain ⟨b, hb, -, hplace | ⟨-, rfl⟩⟩ := place_of_unspaced hunspaced
    · exact .inl hplace
    · exact absurd hb hsolid

/-- A range that ends with a line, at code or with the text ends in code or in a block comment, with
the text, or before the newline that ends a line comment. -/
theorem Anchored.placeAt_stop (h : Anchored (s ++ t) r) (hr : r.stop = s.length) :
    t = [] ∨ placeAt (s ++ t) s.length = .code ∨ placeAt (s ++ t) s.length = .block ∨
      placeAt (s ++ t) s.length = .line ∧ t.head? = some newline ∧
        (s ++ t).mask[s.length]? = some newline := by
  have hstop := h.stop
  rw [hr] at hstop
  rcases hstop with hend | hnewline | hunspaced
  · rw [length_append] at hend
    exact .inl (length_eq_zero_iff.mp (by omega))
  · rw [before?_mask] at hnewline
    rcases place_of_newline hnewline with hplace | hplace <;> rw [← placeAt_append] at hplace
    · exact .inr (.inl hplace)
    · exact .inr (.inr (.inl hplace))
  · rw [getElem?_mask] at hunspaced ⊢
    obtain ⟨b, hb, ht, hplace | ⟨hplace | hplace, rfl⟩⟩ := place_of_unspaced hunspaced
    · exact .inr (.inl hplace)
    · exact .inr (.inr (.inr ⟨hplace, ht, hb⟩))
    · exact .inr (.inr (.inl hplace))

theorem withoutFrom_head (h : rs.any (·.covers i) = false) (b : UInt8) (t : Text) :
    withoutFrom rs i (b :: t) = b :: withoutFrom rs (i + 1) t := by
  rw [withoutFrom, h]
  rfl

/-- What is left behind a range reads the same from its start as from its end. -/
theorem maskFrom_start_eq {pre old rest : Text} {rs : List Range} {r : Range}
    (hstart : r.start = pre.length) (hstop : r.stop = pre.length + old.length)
    (hanchored : Anchored (pre ++ (old ++ rest)) r) {all : List Range}
    (hseparable : Separable (pre ++ (old ++ rest)) all r) (hdivided : Divided r.stop rest rs)
    (hsolid : ∀ r ∈ rs, (pre ++ (old ++ rest)).mask[r.start]? ≠ some newline) :
    maskFrom (placeAt (pre ++ (old ++ rest)) r.start) (withoutFrom rs r.stop rest) =
      maskFrom (placeAt (pre ++ (old ++ rest)) r.stop) (withoutFrom rs r.stop rest) := by
  have hfull : pre ++ (old ++ rest) = (pre ++ old) ++ rest := (append_assoc _ _ _).symm
  have hlength : (pre ++ old).length = r.stop := by rw [length_append, hstop]
  have hplaceStart := hanchored.placeAt_start hstart
  rw [← hstart] at hplaceStart
  have hplaceStop := Anchored.placeAt_stop (hfull ▸ hanchored) hlength.symm
  rw [hlength, ← hfull] at hplaceStop
  have hempty : rest = [] → maskFrom (placeAt (pre ++ (old ++ rest)) r.start) (withoutFrom rs r.stop rest) =
      maskFrom (placeAt (pre ++ (old ++ rest)) r.stop) (withoutFrom rs r.stop rest) := by
    rintro rfl
    rfl
  rcases hseparable.comment with hblock | hend
  · rcases hplaceStop with hnil | hcode | hstopBlock | ⟨hline, hhead, hnewline⟩
    · exact hempty hnil
    · rcases hplaceStart with hstartCode | ⟨hstartBlock, -⟩
      · rw [hstartCode, hcode]
      · rw [hblock.mp hstartBlock] at hcode
        cases hcode
    · rw [hblock.mpr hstopBlock, hstopBlock]
    · -- The newline that ends the line comment is kept, and reads the same in code.
      have hcovers : rs.any (·.covers r.stop) = false := by
        rw [any_eq_false]
        intro r' hr' hcovers
        have hle := hdivided.bounds r' hr'
        have hmem := Range.covers_iff.mp hcovers
        have heq : r'.start = r.stop := by omega
        exact hsolid r' hr' (heq ▸ hnewline)
      rcases hplaceStart with hstartCode | ⟨hstartBlock, -⟩
      · obtain ⟨rest, rfl⟩ := head?_eq_some_iff.mp hhead
        rw [withoutFrom_head hcovers, hstartCode, hline]
        rfl
      · rw [hblock.mp hstartBlock] at hline
        cases hline
  · rw [length_append, length_append, hstop] at hend
    exact hempty (length_eq_zero_iff.mp (by omega))

theorem maskUpTo_left {pre kept rest left : Text} (hstart : r.start = pre.length + kept.length)
    (hanchored : Anchored (pre ++ (kept ++ rest)) r)
    (hslash : before? (pre ++ (kept ++ rest)).mask r.start = some 47 → Harmless left.head?) :
    maskUpTo (placeAt (pre ++ (kept ++ rest)) pre.length) left.head? kept =
      maskUpTo (placeAt (pre ++ (kept ++ rest)) pre.length) rest.head? kept := by
  by_cases hkept : kept = []
  · subst hkept
    rfl
  have hlength : r.start = (pre ++ kept).length := by rw [hstart, length_append]
  have hplace := Anchored.placeAt_start (s := pre ++ kept) (by rwa [append_assoc]) hlength
  rw [append_assoc, length_append, placeAt_step, before?_mask_append hkept] at hplace
  rw [hstart, before?_mask_append hkept] at hslash
  apply maskUpTo_next
  rcases hplace with hcode | ⟨-, hnewline⟩
  · exact .inr ⟨hcode, hslash⟩
  · exact .inl hnewline

/-- **Taking ranges out of a text keeps code apart from comments.** The induction is on the ranges,
from one to the next; what stands before them has been read. -/
theorem maskFrom_withoutFrom {full : Text} {all : List Range} {i : Nat} {s : Text} {rs : List Range}
    (hdivided : Divided i s rs) {pre : Text} (hpre : pre.length = i) (hfull : pre ++ s = full)
    (hall : ∀ j, i ≤ j → all.any (·.covers j) = rs.any (·.covers j))
    (hanchored : ∀ r ∈ rs, Anchored full r) (hseparable : ∀ r ∈ rs, Separable full all r) :
    maskFrom (full.placeAt i) (withoutFrom rs i s) = withoutFrom rs i (maskFrom (full.placeAt i) s) := by
  induction hdivided generalizing pre with
  | nil => rw [withoutFrom_of_none (by simp), withoutFrom_of_none (by simp)]
  | @cons i kept old rest rs hrest ih =>
    obtain ⟨hanchor, hanchored⟩ := forall_mem_cons.mp hanchored
    obtain ⟨hseparate, hseparable⟩ := forall_mem_cons.mp hseparable
    have hallRest : ∀ j, i + kept.length + old.length ≤ j → all.any (·.covers j) = rs.any (·.covers j) := by
      intro j hj
      rw [hall j (by omega), any_cons, Range.covers_eq_false (.inr hj), Bool.false_or]
    have hkeptFull : pre ++ (kept ++ (old ++ rest)) = full := by
      rw [← hfull, append_assoc]
    have holdFull : pre ++ kept ++ (old ++ rest) = full := by
      rw [← hkeptFull, append_assoc]
    have hrestFull : pre ++ kept ++ old ++ rest = full := by
      rw [← holdFull, append_assoc]
    have hkeptLength : (pre ++ kept).length = i + kept.length := by rw [length_append, hpre]
    have holdLength : (pre ++ kept ++ old).length = i + kept.length + old.length := by
      rw [length_append, hkeptLength]
    have ih := ih holdLength hrestFull hallRest hanchored hseparable
    generalize hr : (⟨i + kept.length, i + kept.length + old.length⟩ : Range) = r at hanchor hseparate
    have hstart : r.start = i + kept.length := by rw [← hr]
    have hstop : r.stop = i + kept.length + old.length := by rw [← hr]
    generalize hleft : withoutFrom rs (i + kept.length + old.length) rest = left at ih
    have hslash : before? full.mask r.start = some 47 → Harmless left.head? := by
      intro hbefore
      have hcongr : withoutFrom all r.stop rest = withoutFrom rs r.stop rest :=
        withoutFrom_congr fun j hj _ => hallRest j (hstop ▸ hj)
      have hdrop : full.drop r.stop = rest := by
        rw [← hrestFull, hstop, drop_left' holdLength]
      have hharmless := hseparate.slash hbefore
      rwa [hdrop, hcongr, hstop, hleft] at hharmless
    have hkept : maskUpTo (full.placeAt i) left.head? kept =
        maskUpTo (full.placeAt i) (old ++ rest).head? kept := by
      rw [← hkeptFull, ← hpre] at *
      exact maskUpTo_left hstart hanchor hslash
    have hbehind : maskFrom (full.placeAt (i + kept.length)) left =
        maskFrom (full.placeAt (i + kept.length + old.length)) left := by
      have hsame := @maskFrom_start_eq (pre ++ kept) old rest rs r (by rw [hstart, hkeptLength])
        (by rw [hstop, hkeptLength]) (holdFull.symm ▸ hanchor) all (holdFull.symm ▸ hseparate)
        (hstop.symm ▸ hrest) (fun r' hr' => holdFull.symm ▸ (hanchored r' hr').solid)
      rwa [holdFull, hstart, hstop, hleft] at hsame
    have hplace : (maskUpTo (full.placeAt i) (old ++ rest).head? kept).2 =
        full.placeAt (i + kept.length) := by
      rw [← hkeptFull, ← hpre, placeAt_step]
    have hplaceOld : (maskUpTo (full.placeAt (i + kept.length)) rest.head? old).2 =
        full.placeAt (i + kept.length + old.length) := by
      rw [← holdFull, ← hkeptLength, placeAt_step]
    have hmask : maskFrom (full.placeAt i) (kept ++ old ++ rest) =
      (maskUpTo (full.placeAt i) (old ++ rest).head? kept).1 ++
          (maskUpTo (full.placeAt (i + kept.length)) rest.head? old).1 ++
          maskFrom (full.placeAt (i + kept.length + old.length)) rest := by
      rw [append_assoc, maskFrom_append, hplace, maskFrom_append, hplaceOld, append_assoc]
    have hright := @Divided.withoutFrom_cons i (maskUpTo (full.placeAt i) (old ++ rest).head? kept).1
      (maskUpTo (full.placeAt (i + kept.length)) rest.head? old).1
      (maskFrom (full.placeAt (i + kept.length + old.length)) rest) rs
    rw [length_maskUpTo, length_maskUpTo] at hright
    rw [← hr, hmask, hright (hrest.of_length (length_maskFrom _ _)), hrest.withoutFrom_cons, hleft,
      maskFrom_append, hkept, hplace, hbehind, ih]

/-- **What is left of a text without some ranges reads as it did in the text.** -/
theorem mask_without (hdivided : Divided 0 t rs)
    (hanchored : ∀ r ∈ rs, Anchored t r) (hseparable : ∀ r ∈ rs, Separable t rs r) :
    (t.without rs).mask = t.mask.without rs :=
  @maskFrom_withoutFrom t rs 0 t rs hdivided [] rfl rfl (fun _ _ => rfl) hanchored hseparable

/-! Taking ranges out by edits. -/

/-- The second text is the first, whose bytes start at offset `i`, with `new` in place of each range. -/
inductive Filled (new : Text) : Nat → Text → List Range → Text → Prop where
  | nil {i : Nat} {t : Text} : Filled new i t [] t
  | cons {i : Nat} {kept old rest rest' : Text} {rs : List Range} :
      Filled new (i + kept.length + old.length) rest rs rest' →
      Filled new i (kept ++ old ++ rest) (⟨i + kept.length, i + kept.length + old.length⟩ :: rs)
        (kept ++ new ++ rest')

theorem Filled.divided (h : Filled new i t rs t') : Divided i t rs := by
  induction h with
  | nil => exact .nil
  | cons _ ih => exact .cons ih

theorem Divided.filled (h : Divided i t rs) : Filled [] i t rs (withoutFrom rs i t) := by
  induction h with
  | nil =>
    rw [withoutFrom_of_none (by simp)]
    exact .nil
  | @cons i kept old rest rs hrest ih =>
    have hcons := @Filled.cons [] i kept old rest _ rs ih
    rw [append_nil] at hcons
    rw [hrest.withoutFrom_cons]
    exact hcons

/-- Edits that put a text in place of ranges give the text filled with it. -/
theorem Filled.spliced (h : Filled new i s rs t') : ∀ {before : Text}, before.length = i →
    Edit.spliced (before ++ s) i (rs.map fun r => ⟨r, new⟩) = t' := by
  induction h with
  | nil =>
    rintro before rfl
    exact drop_left
  | @cons i kept old rest rest' rs _ ih =>
    rintro before rfl
    rw [map_cons, Edit.spliced_append, @ih (before ++ kept ++ old) (by simp only [length_append])]

theorem isBoundary_of_append {s t : Text} {i : Nat} (h : (s ++ t).isBoundary (s.length + i)) :
    t.isBoundary i := by
  unfold isBoundary at h ⊢
  rw [drop_append] at h
  rw [drop_eq_nil_of_le (Nat.le_add_right _ _), nil_append, Nat.add_sub_cancel_left] at h
  split at h
  · rw [length_append] at h
    simp only [beq_iff_eq] at h ⊢
    omega
  · simp only [Bool.or_eq_true, beq_iff_eq] at h ⊢
    exact h.imp_left (by omega)

theorem exists_ofChars_of_isBoundary {cs : List Char} (h : ofChars cs = s ++ t)
    (hseam : (s ++ t).isBoundary s.length) : ∃ a z, cs = a ++ z ∧ s = ofChars a ∧ t = ofChars z := by
  refine exists_ofChars_append h ?_
  unfold isBoundary at hseam
  rw [drop_left] at hseam
  split at hseam
  · exact .inr (by simp)
  · rw [Bool.or_eq_true, beq_iff_eq, Bool.not_eq_true'] at hseam
    rcases hseam with hzero | hhead
    · rw [length_eq_zero_iff.mp hzero]
      exact .inl (by simp)
    · exact .inr (by simpa using hhead)

/-- What is left of a text in UTF-8 between characters is in UTF-8. -/
theorem exists_withoutFrom (h : Divided i s rs)
    (hs : s = ofChars ds) (hrs : ∀ r ∈ rs, s.isBoundary (r.start - i) ∧ s.isBoundary (r.stop - i)) :
    ∃ es, withoutFrom rs i s = ofChars es := by
  induction h generalizing ds with
  | nil => exact ⟨ds, by rw [withoutFrom_of_none (by simp), hs]⟩
  | @cons i kept old rest rs hrest ih =>
    obtain ⟨⟨hstart, hstop⟩, hrs⟩ := forall_mem_cons.mp hrs
    have hback : kept ++ old ++ rest = ofChars ds := hs
    have hstopOffset : i + kept.length + old.length - i = (kept ++ old).length := by
      rw [length_append]
      omega
    have hstartOffset : i + kept.length - i = kept.length := by omega
    rw [hstopOffset] at hstop
    rw [hstartOffset, append_assoc] at hstart
    obtain ⟨-, dc, -, -, hrestChars⟩ := exists_ofChars_of_isBoundary hback.symm hstop
    obtain ⟨da, -, -, hkeptChars, -⟩ :=
      exists_ofChars_of_isBoundary (by rw [← append_assoc]; exact hback.symm) hstart
    obtain ⟨es, hes⟩ := ih hrestChars fun r hr => by
      have hbounds := hrest.bounds r hr
      have hoffset : ∀ j, i + kept.length + old.length ≤ j →
          j - i = (kept ++ old).length + (j - (i + kept.length + old.length)) := by
        intro j hj
        rw [length_append]
        omega
      have hboundary := hrs r hr
      rw [hoffset r.start hbounds.1, hoffset r.stop (by omega)] at hboundary
      exact ⟨isBoundary_of_append hboundary.1, isBoundary_of_append hboundary.2⟩
    rw [hrest.withoutFrom_cons, hes, hkeptChars]
    exact ⟨da ++ es, (ofChars_append da es).symm⟩

/-- An offset between two characters of the masked text lies between two characters of the text, if
it is the start of a line or if no space of the masked text stands there. -/
theorem isBoundary_of_mask (ht : t = ofChars ds) (hi : i ≤ t.length)
    (hmask : t.mask.isBoundary i)
    (hanchor : i = 0 ∨ i = t.length ∨ before? t.mask i = some newline ∨ ∃ b ∈ t.mask[i]?, b ≠ 32) :
    t.isBoundary i := by
  obtain ⟨s, u, rfl, rfl⟩ : ∃ s u, t = s ++ u ∧ s.length = i :=
    ⟨t.take i, t.drop i, (take_append_drop i t).symm, length_take_of_le hi⟩
  rcases hanchor with hzero | hend | hnewline | hunspaced
  · exact hzero ▸ isBoundary_zero _
  · exact hend ▸ isBoundary_length _
  · have hlast : ∀ b ∈ s.getLast?, b < 128 := by
      rw [before?_mask] at hnewline
      rcases eq_nil_or_concat s with rfl | ⟨s, b, rfl⟩
      · simp
      · rw [concat_eq_append, maskUpTo_concat, getLast?_append] at hnewline
        simp only [getLast?_singleton, Option.some_or, Option.some.injEq] at hnewline
        rcases maskByte_fst (maskUpTo .code (some b) s).2 b u.head? with hfst | hfst
        · rw [hfst] at hnewline
          subst hnewline
          simp [newline]
        · rw [hfst] at hnewline
          cases hnewline
    obtain ⟨a, z, -, rfl, rfl⟩ := exists_ofChars_append ht.symm (.inl hlast)
    exact isBoundary_ofChars _ _
  · rw [getElem?_mask] at hunspaced
    obtain ⟨b, hb, hu, -⟩ := place_of_unspaced hunspaced
    have hmaskDrop : (s ++ u).mask.drop s.length = maskFrom (placeAt (s ++ u) s.length) u := by
      rw [mask_append, drop_left' (length_maskUpTo _ _ _)]
    obtain ⟨m, hm⟩ := head?_eq_some_iff.mp hb
    obtain ⟨u, rfl⟩ := head?_eq_some_iff.mp hu
    unfold isBoundary at hmask ⊢
    rw [hmaskDrop, hm] at hmask
    rw [drop_left]
    exact hmask

theorem Divided.pairwise_start (h : Divided i t rs) : rs.Pairwise (·.start ≤ ·.start) := by
  induction h with
  | nil => exact .nil
  | cons hrest ih =>
    refine .cons (fun r hr => ?_) ih
    have := hrest.bounds r hr
    dsimp only
    omega

end Text

theorem Edit.ordered_of_pairwise {edits : List Edit}
    (h : edits.Pairwise (·.range.start ≤ ·.range.start)) : ordered edits = edits :=
  (ordered_eq_insertionSort edits).trans h.insertionSort_eq

/-- **Ranges between characters can be taken out of a text in UTF-8**, and leave one. -/
theorem Text.Filled.apply (h : Filled new 0 t rs t')
    (hrs : ∀ r ∈ rs, t.isBoundary r.start ∧ t.isBoundary r.stop) :
    Edit.apply (rs.map fun r => ⟨r, new⟩) t = .ok t' := by
  have hcuts : ∀ e ∈ rs.map fun r => ⟨r, new⟩, Edit.Cuts t e := by
    intro e he
    obtain ⟨r, hr, rfl⟩ := mem_map.mp he
    have hbounds := h.divided.bounds r hr
    rw [Nat.zero_add] at hbounds
    exact ⟨hbounds.2, (hrs r hr).1, (hrs r hr).2⟩
  rw [Edit.apply_eq_spliced hcuts, Edit.ordered_of_pairwise (pairwise_map.mpr h.divided.pairwise_start)]
  exact congrArg Except.ok (@Filled.spliced _ _ _ _ _ h [] rfl)

theorem Text.Divided.apply (ht : t = ofChars ds)
    (h : Divided 0 t rs) (hrs : ∀ r ∈ rs, t.isBoundary r.start ∧ t.isBoundary r.stop) :
    Edit.apply (rs.map fun r => ⟨r, []⟩) t = .ok (t.without rs) ∧ ∃ es, t.without rs = ofChars es :=
  ⟨h.filled.apply hrs, exists_withoutFrom h ht hrs⟩

end GlslToMetal
