import GlslToMetal.Proofs.Text.Ascii
import GlslToMetal.Text.Delimiter
import Mathlib.Data.List.TakeWhile

/-! Blanks around a text. Trimming a range leaves what `strip` leaves of the text there. The range
ends where the `core` of the text ends: before the blanks at its end, or, in a text of blanks only,
behind all of them. -/

namespace GlslToMetal.Text

open List

variable {t : Text} {b : UInt8}

theorem not_of_mem_head?_dropWhile {α : Type} {p : α → Bool} {t : List α} {b : α}
    (hb : b ∈ (t.dropWhile p).head?) :
    p b = false := by
  have := head?_dropWhile_not p t
  rw [hb] at this
  simpa using this

theorem exists_leading {α : Type} {p : α → Bool} {t : List α} (h : ¬ t.all p) :
    ∃ b r, t = t.takeWhile p ++ b :: r ∧ p b = false := by
  have hsplit := takeWhile_append_dropWhile (p := p) (l := t)
  cases hdrop : t.dropWhile p with
  | nil =>
    rw [hdrop, append_nil] at hsplit
    exact absurd (hsplit ▸ all_takeWhile) h
  | cons b r => exact ⟨b, r, by rw [← hdrop, hsplit], not_of_mem_head?_dropWhile (by rw [hdrop]; rfl)⟩

/-- What stands before the end of the trimmed text. -/
def core (t : Text) : Text := if t.all isBlank then t else t.stripEnd

/-- What stands behind the end of the trimmed text. -/
def blankTail (t : Text) : Text := if t.all isBlank then [] else (t.reverse.takeWhile isBlank).reverse

theorem core_append_blankTail (t : Text) : t.core ++ t.blankTail = t := by
  unfold core blankTail
  split
  · simp
  · rw [stripEnd, ← reverse_append, takeWhile_append_dropWhile, reverse_reverse]

theorem all_blankTail (t : Text) : t.blankTail.all isBlank := by
  unfold blankTail
  split
  · rfl
  · rw [all_reverse]
    exact all_takeWhile

theorem stripEnd_append_blanks (t : Text) {z : Text} (hz : z.all isBlank) :
    (t ++ z).stripEnd = t.stripEnd := by
  have hrev : ∀ b ∈ z.reverse, isBlank b := by simpa using hz
  unfold stripEnd
  rw [reverse_append, dropWhile_append_of_pos hrev]

theorem dropWhile_of_all (h : t.all isBlank) : t.dropWhile isBlank = [] := by
  have hall : ∀ b ∈ t, isBlank b := by simpa using h
  rw [← append_nil t, dropWhile_append_of_pos hall]
  rfl

theorem strip_of_all (h : t.all isBlank) : t.strip = [] := by
  rw [strip, dropWhile_of_all h]
  rfl

theorem strip_surround {a z : Text} (ha : a.all isBlank) (t : Text) (hz : z.all isBlank) :
    (a ++ t ++ z).strip = t.strip := by
  have hall : ∀ b ∈ a, isBlank b := by simpa using ha
  rw [strip, strip, append_assoc, dropWhile_append_of_pos hall, dropWhile_append]
  split
  · next hempty =>
    rw [dropWhile_of_all hz]
    simp only [List.isEmpty_iff] at hempty
    rw [hempty]
  · exact stripEnd_append_blanks _ hz

theorem strip_of_none (h : ∀ b ∈ t, isBlank b = false) : t.strip = t := by
  have hdrop : ∀ s : Text, (∀ b ∈ s, isBlank b = false) → s.dropWhile isBlank = s := by
    intro s hs
    cases s with
    | nil => rfl
    | cons b rest => simp [hs b mem_cons_self]
  rw [strip, stripEnd, hdrop t h, hdrop t.reverse fun b hb => h b (mem_reverse.mp hb), reverse_reverse]

theorem dropWhile_append_cons {p : UInt8 → Bool} (hb : p b = false) (s t : Text) :
    (s ++ b :: t).dropWhile p = s.dropWhile p ++ b :: t := by
  rw [dropWhile_append]
  split
  · next hnil => simp [hb, isEmpty_iff.mp hnil]
  · rfl

theorem takeWhile_append_cons {p : UInt8 → Bool} (hb : p b = false) (s t : Text) :
    (s ++ b :: t).takeWhile p = s.takeWhile p := by
  induction s with
  | nil => simp [hb]
  | cons c s ih =>
    rw [cons_append, takeWhile_cons, takeWhile_cons, ih]

theorem dropWhile_append_of_all {p : UInt8 → Bool} {s : Text} (hs : s.all p) (t : Text) :
    (s ++ t).dropWhile p = t.dropWhile p := by
  rw [dropWhile_append, dropWhile_eq_nil_iff.mpr (all_eq_true.mp hs)]
  simp

theorem eq_strip_append (h : ¬ t.all isBlank) : t = t.takeWhile isBlank ++ t.strip ++ t.blankTail ∧
      t.core = t.takeWhile isBlank ++ t.strip ∧ t.strip ≠ [] := by
  have hdrop : ¬ (t.dropWhile isBlank).all isBlank := by
    intro hall
    apply h
    rw [← takeWhile_append_dropWhile (p := isBlank) (l := t), all_append, hall, all_takeWhile]
    rfl
  have hcore : t.core = t.takeWhile isBlank ++ t.strip := by
    rw [core, if_neg h, strip, stripEnd, stripEnd]
    conv => lhs; rw [← takeWhile_append_dropWhile (p := isBlank) (l := t)]
    rw [reverse_append, dropWhile_append, if_neg, reverse_append, reverse_reverse]
    intro hempty
    apply hdrop
    rw [← all_reverse]
    exact all_eq_true.mpr (by simpa using dropWhile_eq_nil_iff.mp (isEmpty_iff.mp hempty))
  refine ⟨?_, hcore, ?_⟩
  · conv => lhs; rw [← core_append_blankTail t, hcore]
  · intro hnil
    apply hdrop
    rw [← all_reverse]
    rw [strip, stripEnd, reverse_eq_nil_iff, dropWhile_eq_nil_iff] at hnil
    exact all_eq_true.mpr hnil

theorem strip_strip (t : Text) : t.strip.strip = t.strip := by
  by_cases h : t.all isBlank
  · rw [strip_of_all h]
    rfl
  · obtain ⟨ht, -, -⟩ := eq_strip_append h
    calc t.strip.strip
      _ = strip (t.takeWhile isBlank ++ t.strip ++ t.blankTail) :=
        (strip_surround all_takeWhile t.strip (all_blankTail t)).symm
      _ = t.strip := by rw [← ht]

theorem isEmpty_strip (t : Text) : t.strip.isEmpty = t.all isBlank := by
  by_cases h : t.all isBlank
  · rw [strip_of_all h, h]
    rfl
  · rw [Bool.not_eq_true] at h
    rw [h, isEmpty_eq_false_iff]
    exact (eq_strip_append (by simp [h])).2.2

theorem strip_eq_self_iff :
    t.strip = t ↔ (∀ b ∈ t.head?, isBlank b = false) ∧ ∀ b ∈ t.getLast?, isBlank b = false := by
  constructor
  · intro h
    constructor
    · intro b hb
      obtain ⟨s, rfl⟩ := head?_eq_some_iff.mp hb
      cases hblank : isBlank b with
      | false => rfl
      | true =>
        have hlen := (stripEnd_sublist ((b :: s).dropWhile isBlank)).length_le
        rw [← strip, h, dropWhile_cons_of_pos hblank] at hlen
        have := (dropWhile_sublist (l := s) isBlank).length_le
        simp only [length_cons] at hlen
        omega
    · intro b hb
      obtain ⟨s, rfl⟩ := getLast?_eq_some_iff.mp hb
      cases hblank : isBlank b with
      | false => rfl
      | true =>
        have hsame := @strip_surround [] [b] rfl s (by simp [hblank])
        rw [nil_append, h] at hsame
        have hlen := (strip_sublist s).length_le
        rw [← hsame, length_append, length_singleton] at hlen
        omega
  · rintro ⟨hhead, hlast⟩
    have hfirst : t.dropWhile isBlank = t := by
      cases t with
      | nil => rfl
      | cons b t => rw [dropWhile_cons_of_neg (by simp [hhead b rfl])]
    have hfinal : t.reverse.dropWhile isBlank = t.reverse := by
      cases hreverse : t.reverse with
      | nil => rfl
      | cons b s =>
        have hb : b ∈ t.getLast? := by rw [← head?_reverse, hreverse]; rfl
        rw [dropWhile_cons_of_neg (by simp [hlast b hb])]
    rw [strip, hfirst, stripEnd, hfinal, reverse_reverse]

theorem strip_core (t : Text) : t.core.strip = t.strip := by
  conv => rhs; rw [← core_append_blankTail t]
  exact (strip_surround (a := []) rfl t.core (all_blankTail t)).symm

theorem leadingBlanks_of_all (h : t.all isBlank) : t.leadingBlanks = t.length := by
  unfold leadingBlanks
  rw [takeWhile_eq_self_iff.mpr (by simpa using h)]

theorem isEmpty_trimmed (i : Nat) (t : Text) :
    Range.isEmpty ⟨i + t.leadingBlanks, i + t.core.length⟩ = t.all isBlank := by
  by_cases hall : t.all isBlank
  · simp [Range.isEmpty, leadingBlanks_of_all hall, core, hall]
  · obtain ⟨-, hcore, hne⟩ := eq_strip_append hall
    have hpos : 0 < t.strip.length := length_pos_iff.mpr hne
    have hlen : t.core.length = t.leadingBlanks + t.strip.length := by
      rw [hcore, length_append]
      rfl
    rw [Bool.not_eq_true] at hall
    rw [hall]
    simp only [Range.isEmpty, hlen, decide_eq_false_iff_not]
    omega

/-- A trimmed range, wherever its text stands. -/
theorem trimRange_append (pre t post : Text) :
    (pre ++ t ++ post).trimRange ⟨pre.length, pre.length + t.length⟩ =
      .ok ⟨pre.length + t.leadingBlanks, pre.length + t.core.length⟩ := by
  unfold trimRange
  dsimp only
  rw [cut_append]
  by_cases hempty : t = []
  · subst hempty
    simp [leadingBlanks, core]
  have hpos : 0 < t.length := length_pos_iff.mpr hempty
  rw [if_pos (by omega), if_neg (by simp)]
  by_cases hall : t.all isBlank
  · simp [leadingBlanks_of_all hall, core, hall, cut]
    simp [leadingBlanks]
  · obtain ⟨heq, hcore, -⟩ := eq_strip_append hall
    have htail : (pre ++ t ++ post).cut ⟨pre.length + t.leadingBlanks, pre.length + t.length⟩ =
        t.dropWhile isBlank := by
      have hlen : (pre ++ t.takeWhile isBlank).length = pre.length + t.leadingBlanks := by
        simp [leadingBlanks]
      have hsum : pre.length + t.length = (pre ++ t.takeWhile isBlank).length +
          (t.dropWhile isBlank).length := by
        have hwhole := congrArg length
          (takeWhile_append_dropWhile (p := isBlank) (l := t))
        rw [length_append] at hwhole
        rw [hlen, leadingBlanks]
        omega
      have hsplit : pre ++ t ++ post = (pre ++ t.takeWhile isBlank) ++ t.dropWhile isBlank ++ post := by
        rw [append_assoc pre (t.takeWhile isBlank), takeWhile_append_dropWhile]
      rw [hsum, ← hlen, hsplit]
      exact cut_append _ _ _
    have hblanks : leadingBlanks (t.dropWhile isBlank).reverse = t.blankTail.length := by
      have hsplit : t.reverse = (t.dropWhile isBlank).reverse ++ (t.takeWhile isBlank).reverse := by
        rw [← reverse_append, takeWhile_append_dropWhile]
      rw [blankTail, if_neg hall, length_reverse, hsplit, leadingBlanks, takeWhile_append, if_neg]
      intro hlen
      have hself : (t.dropWhile isBlank).reverse.takeWhile isBlank = (t.dropWhile isBlank).reverse :=
        (List.takeWhile_prefix _).eq_of_length hlen
      have hdrop : ∀ b ∈ t.dropWhile isBlank, isBlank b := by
        intro b hb
        exact takeWhile_eq_self_iff.mp hself b (mem_reverse.mpr hb)
      apply hall
      rw [← takeWhile_append_dropWhile (p := isBlank) (l := t), all_append, all_takeWhile,
        all_eq_true.mpr hdrop]
      rfl
    have hsum : t.core.length + t.blankTail.length = t.length := by
      rw [← length_append, core_append_blankTail]
    rw [htail, hblanks]
    congr 2
    omega

theorem cut_trimmed (pre t post : Text) :
    (pre ++ t ++ post).cut ⟨pre.length + t.leadingBlanks, pre.length + t.core.length⟩ = t.strip := by
  by_cases hall : t.all isBlank
  · simp [strip_of_all hall, leadingBlanks_of_all hall, core, hall, cut]
  · obtain ⟨heq, hcore, -⟩ := eq_strip_append hall
    have hlen : (pre ++ t.takeWhile isBlank).length = pre.length + t.leadingBlanks := by
      simp [leadingBlanks]
    have hstop : pre.length + t.core.length = (pre ++ t.takeWhile isBlank).length + t.strip.length := by
      rw [hcore]
      simp
      omega
    rw [hstop, ← hlen]
    have hsplit : pre ++ t ++ post = (pre ++ t.takeWhile isBlank) ++ t.strip ++ (t.blankTail ++ post) := by
      conv => lhs; rw [heq]
      simp
    rw [hsplit]
    exact cut_append _ _ _

theorem slice_trimmed {pre x post : Text} (h : (pre ++ x ++ post).IsAscii) :
    (pre ++ x ++ post).slice ⟨pre.length + x.leadingBlanks, pre.length + x.core.length⟩ = .ok x.strip := by
  have hcore := congrArg length (core_append_blankTail x)
  rw [length_append] at hcore
  have hle : x.leadingBlanks ≤ x.core.length := by
    by_cases hblank : x.all isBlank
    · rw [core, if_pos hblank]
      exact (takeWhile_sublist _).length_le
    · rw [(eq_strip_append hblank).2.1, length_append, leadingBlanks]
      omega
  rw [slice_of_isAscii h (by dsimp only; omega) (by dsimp only; simp only [length_append]; omega),
    cut_trimmed]

end GlslToMetal.Text
