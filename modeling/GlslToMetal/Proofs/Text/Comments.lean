import GlslToMetal.Proofs.Text.Seams

/-! The comments of a text. A comment begins where `//` or `/*` stands in code; it ends before the
newline, behind the first `*/`, or with the text. Masking puts a space in place of every byte of a
comment but its newlines, so the masked text has no comments of its own, and masking it again changes
nothing. -/

namespace GlslToMetal.Text

open List

variable {b : UInt8} {i n : Nat} {p : Place} {r : Range} {t : Text}

/-- How many bytes of a block comment the text begins with: up to its first `*/`. -/
def blockTail : Text → Nat
  | [] => 0
  | b :: t => if b == 42 && t.head? == some 47 then 2 else blockTail t + 1

/-- The length of the comment with which the text begins. -/
def commentLength (t : Text) : Nat :=
  if [47, 47].isPrefixOf t then (t.takeWhile (· != newline)).length
  else if [47, 42].isPrefixOf t then 2 + blockTail (t.drop 2)
  else 0

/-- The comments that begin in the bytes from offset `i` on, after the next `skip` of them. -/
def commentsFrom (i skip : Nat) : Text → List Range
  | [] => []
  | b :: t =>
    match skip with
    | skip + 1 => commentsFrom (i + 1) skip t
    | 0 =>
      match commentLength (b :: t) with
      | 0 => commentsFrom (i + 1) 0 t
      | n + 1 => ⟨i, i + n + 1⟩ :: commentsFrom (i + 1) n t

def comments (t : Text) : List Range := commentsFrom 0 0 t

theorem start_le_of_mem_commentsFrom (h : r ∈ commentsFrom i n t) : i ≤ r.start := by
  induction t generalizing i n with
  | nil => cases h
  | cons b t ih =>
    unfold commentsFrom at h
    split at h
    · exact Nat.le_of_succ_le (ih h)
    split at h
    · exact Nat.le_of_succ_le (ih h)
    · rcases mem_cons.1 h with rfl | h
      · exact Nat.le_refl i
      · exact Nat.le_of_succ_le (ih h)

/-- How many bytes from here on belong to the comment in which a place stands. -/
def Place.left : Place → Text → Nat
  | .code, _ => 0
  | .line, t => (t.takeWhile (· != newline)).length
  | .opening, t => 1 + blockTail t.tail
  | .block, t => blockTail t
  | .closing, _ => 1

/-- The same, with a comment that begins here. -/
def Place.ahead (p : Place) (t : Text) : Nat := if p = .code then commentLength t else p.left t

/-- A byte that no comment holds stays, and code follows it. -/
theorem maskByte_of_ahead_eq_zero (h : p.ahead (b :: t) = 0) :
    maskByte p b t.head? = (b, .code) ∧ p.left (b :: t) = 0 ∧ commentLength (b :: t) = 0 := by
  cases p with
  | code =>
    have hlength : commentLength (b :: t) = 0 := h
    refine ⟨?_, rfl, hlength⟩
    cases t with
    | nil => simp [maskByte]
    | cons c t =>
      have hline : ¬ (b = 47 ∧ c = 47) := by
        rintro ⟨rfl, rfl⟩
        cases hlength
      have hblock : ¬ (b = 47 ∧ c = 42) := by
        rintro ⟨rfl, rfl⟩
        change 2 + blockTail t = 0 at hlength
        omega
      unfold maskByte
      dsimp only
      rw [if_neg (by simpa using hline), if_neg (by simpa using hblock)]
  | line =>
    have hb : b = newline := by
      by_contra hb
      simp [Place.ahead, Place.left, hb] at h
    subst hb
    exact ⟨rfl, rfl, rfl⟩
  | opening => simp [Place.ahead, Place.left] at h
  | block =>
    simp only [Place.ahead, Place.left, blockTail] at h
    grind
  | closing => cases h

/-- A byte of a comment becomes a space unless it is a newline, and one byte less of the comment is left. -/
theorem maskByte_of_ahead_eq_succ (hp : p.Fits (some b)) (h : p.ahead (b :: t) = n + 1) :
    (maskByte p b t.head?).1 = (if b != newline then 32 else b) ∧ (maskByte p b t.head?).2.left t = n := by
  cases p with
  | code =>
    have hlength : commentLength (b :: t) = n + 1 := h
    unfold commentLength at hlength
    cases t with
    | nil => simp [isPrefixOf] at hlength
    | cons c t =>
      simp only [isPrefixOf, Bool.and_true, Bool.and_eq_true, beq_iff_eq] at hlength
      split at hlength
      · next hmark =>
        obtain ⟨rfl, rfl⟩ := hmark
        exact ⟨rfl, Nat.succ.inj hlength⟩
      split at hlength
      · next hmark =>
        obtain ⟨rfl, rfl⟩ := hmark
        refine ⟨rfl, ?_⟩
        change 1 + blockTail t = n
        change 2 + blockTail t = n + 1 at hlength
        omega
      · cases hlength
  | line =>
    have hb : b ≠ newline := by
      rintro rfl
      cases h
    have hleft : (t.takeWhile (· != newline)).length = n := by
      simpa [Place.ahead, Place.left, hb] using h
    simp [maskByte, hb, hleft, Place.left]
  | opening =>
    obtain rfl : b = 42 := Option.some.inj (hp.1 rfl)
    refine ⟨rfl, ?_⟩
    change 1 + blockTail t = n + 1 at h
    change blockTail t = n
    omega
  | block =>
    change blockTail (b :: t) = n + 1 at h
    unfold blockTail at h
    by_cases hmark : b == 42 && t.head? == some 47
    · obtain rfl : b = 42 := by simp_all
      rw [if_pos hmark] at h
      obtain rfl : n = 1 := by omega
      simp_all [maskByte, Place.left, newline]
    · rw [if_neg hmark] at h
      simp only [maskByte, if_neg hmark, Place.left]
      exact ⟨by by_cases hb : b = newline <;> simp [hb], by omega⟩
  | closing =>
    obtain rfl : b = 47 := Option.some.inj (hp.2 rfl)
    exact ⟨rfl, Nat.succ.inj h⟩

/-- The bytes that masking blanks: those of the comment that is open and those of the comments that
begin later. The induction is on the text, one byte of a comment at a time. -/
theorem maskFrom_eq_mapIdx (hp : p.Fits t.head?) (i : Nat) : maskFrom p t = t.mapIdx fun k b =>
      if (k < p.left t || (commentsFrom i (p.left t) t).any (·.covers (i + k))) &&
        b != newline then 32 else b := by
  induction t generalizing p i with
  | nil => rfl
  | cons b t ih =>
    have hnext := ih (fits_maskByte p b t.head?) (i + 1)
    have hlater : ∀ m, (commentsFrom (i + 1) m t).any (·.covers i) = false := fun m => by
      rw [any_eq_false]
      intro r hr hcovers
      have := start_le_of_mem_commentsFrom hr
      have := (Range.covers_iff.1 hcovers).1
      omega
    rw [maskFrom_cons, mapIdx_cons]
    cases hahead : p.ahead (b :: t) with
    | zero =>
      obtain ⟨hbyte, hleft, hlength⟩ := maskByte_of_ahead_eq_zero hahead
      rw [hbyte] at hnext ⊢
      refine congrArg₂ cons ?_ (hnext.trans (congrArg (mapIdx · t) (funext fun k => funext fun c => ?_)))
      · simp only [hleft, commentsFrom, hlength, Nat.add_zero, hlater]
        simp
      · have hshift : i + (k + 1) = i + 1 + k := by omega
        rw [hleft]
        simp only [commentsFrom, hlength, hshift, Nat.not_lt_zero]
        rfl
    | succ n =>
      obtain ⟨hbyte, hn⟩ := maskByte_of_ahead_eq_succ hp hahead
      rw [hn] at hnext
      refine congrArg₂ cons ?_ (hnext.trans (congrArg (mapIdx · t) (funext fun k => funext fun c => ?_)))
      all_goals by_cases hcode : p = .code
      · have hlength : commentLength (b :: t) = n + 1 := by rwa [Place.ahead, if_pos hcode] at hahead
        have hhead : Range.covers ⟨i, i + n + 1⟩ i := Range.covers_iff.2 ⟨Nat.le_refl i, by dsimp only; omega⟩
        rw [hbyte, hcode]
        simp only [Place.left, commentsFrom, hlength, any_cons, Nat.add_zero, hhead, Bool.true_or,
          Bool.or_true,
          Bool.true_and]
      · have hleft : p.left (b :: t) = n + 1 := by rwa [Place.ahead, if_neg hcode] at hahead
        simp only [hbyte, hleft, Nat.zero_lt_succ, decide_true, Bool.true_or, Bool.true_and]
      · have hlength : commentLength (b :: t) = n + 1 := by rwa [Place.ahead, if_pos hcode] at hahead
        have hshift : i + (k + 1) = i + 1 + k := by omega
        have hcovers : Range.covers ⟨i, i + n + 1⟩ (i + 1 + k) = decide (k < n) := by
          rw [Bool.eq_iff_iff, Range.covers_iff, decide_eq_true_iff]
          dsimp only
          omega
        simp only [hcode, Place.left, commentsFrom, hlength, any_cons, hshift, hcovers,
          Nat.not_lt_zero, decide_false,
          Bool.false_or]
      · have hleft : p.left (b :: t) = n + 1 := by rwa [Place.ahead, if_neg hcode] at hahead
        have hshift : i + (k + 1) = i + 1 + k := by omega
        simp only [hleft, commentsFrom, hshift, Nat.succ_lt_succ_iff]

/-- **Masking blanks the comments of a text and nothing else.** -/
theorem mask_eq_mapIdx (t : Text) :
    t.mask = t.mapIdx fun i b => if t.comments.any (·.covers i) && b != newline then 32 else b := by
  have h := maskFrom_eq_mapIdx (Place.fits_code t.head?) 0
  simp only [Nat.zero_add, Place.left, Nat.not_lt_zero, decide_false, Bool.false_or] at h
  exact h

/-- A boundary between characters is one of the mask, because a space continues no character. -/
theorem mask_isBoundary (h : t.isBoundary i) : t.mask.isBoundary i := by
  unfold isBoundary at h ⊢
  cases hdrop : t.mask.drop i with
  | nil =>
    have hle : t.length ≤ i := by rw [← length_mask]; exact drop_eq_nil_iff.1 hdrop
    rw [drop_eq_nil_of_le hle] at h
    simpa using h
  | cons m rest =>
    have hget : t.mask[i]? = some m := by rw [← head?_drop, hdrop]; rfl
    rw [mask_eq_mapIdx, getElem?_mapIdx, Option.map_eq_some_iff] at hget
    obtain ⟨b, hb, rfl⟩ := hget
    obtain ⟨rest', hrest⟩ : ∃ rest', t.drop i = b :: rest' := by
      rw [← head?_eq_some_iff, head?_drop, hb]
    rw [hrest] at h
    dsimp only at h ⊢
    split
    · simp [isContinuation]
    · exact h

/-- **Masking keeps every position and is done once.** The masked text is in UTF-8 and as long as the
text; a byte is kept or, inside a comment, replaced by a space; newlines and the boundaries between
characters stay where they are; no comment begins in the masked text, and masking it again gives it
back. -/
theorem mask_keeps_positions (s : String) :
    (ofString s).mask.isUtf8 ∧ (ofString s).mask.length = (ofString s).length ∧
      (ofString s).mask =
        ((ofString s).mapIdx fun i b => if (ofString s).comments.any (·.covers i) &&
          b != newline then 32 else b) ∧
      (∀ i : Nat, (ofString s).mask[i]? = some newline ↔ (ofString s)[i]? = some newline) ∧
      (∀ i, (ofString s).isBoundary i → (ofString s).mask.isBoundary i) ∧
      ¬ [47, 47] <:+: (ofString s).mask ∧ ¬ [47, 42] <:+: (ofString s).mask ∧
      (ofString s).mask.mask = (ofString s).mask := by
  generalize ht : ofString s = t
  have hmarks : ∀ c, [47, c] <:+: t.mask → c ≠ 47 ∧ c ≠ 42 :=
    fun c h => isChain_pair.1 ((bare_mask t).part h) rfl
  refine ⟨?_, length_mask t, mask_eq_mapIdx t, fun i => ?_, fun i => mask_isBoundary, fun h =>
    (hmarks 47 h).1 rfl,
    fun h => (hmarks 42 h).2 rfl, (bare_mask t).mask⟩
  · obtain ⟨ds, hds⟩ := @exists_maskFrom_ofChars .code s.toList (Place.fits_code _)
    rw [← ht, mask, show ofString s = ofChars s.toList from rfl, hds, isUtf8, chars_ofChars]
    exact beq_self_eq_true _
  · rw [mask_eq_mapIdx, getElem?_mapIdx]
    cases t[i]? with
    | none => simp
    | some b =>
      simp only [Option.map_some, Option.some.injEq]
      split
      · next hcomment => exact iff_of_false (by decide) (by simp_all)
      · rfl

end GlslToMetal.Text
