import GlslToMetal.Proofs.Text.Nesting
import Mathlib.Order.Bounds.Basic

/-! Matching delimiters. A delimiter is closed by the first byte up to which as many of its kind were
closed as opened, whatever other delimiters stand between, and nothing closes it if there is none.
So of two pairs of one kind either one encloses the other or they stand apart. -/

namespace GlslToMetal

open List

variable {d : Delimiter} {c depth i j k n : Nat} {s t : Text}

namespace Delimiter

theorem closer_ne_opener (d : Delimiter) : d.closer ≠ d.opener := by
  cases d <;> decide

/-- How many delimiters of the kind are open behind a text, if `depth` are before it and none closes
more. -/
def behind? (d : Delimiter) (depth : Nat) : Text → Option Nat
  | [] => some depth
  | b :: t =>
    if b == d.opener then d.behind? (depth + 1) t
    else if b == d.closer then
      match depth with
      | 0 => none
      | depth + 1 => d.behind? depth t
    else d.behind? depth t

theorem behind?_append (d : Delimiter) (depth : Nat) (s t : Text) :
    d.behind? depth (s ++ t) = (d.behind? depth s).bind (d.behind? · t) := by
  induction s generalizing depth with
  | nil => rfl
  | cons b s ih =>
    simp only [cons_append, behind?]
    split
    · exact ih _
    · split
      · cases depth with
        | zero => rfl
        | succ depth => exact ih _
      · exact ih _

theorem behind?_of_not_mem (hopen : d.opener ∉ t) (hclose : d.closer ∉ t)
    (depth : Nat) : d.behind? depth t = some depth := by
  induction t with
  | nil => rfl
  | cons b t ih =>
    rw [mem_cons, not_or] at hopen hclose
    simp only [behind?]
    rw [if_neg (by simpa using Ne.symm hopen.1), if_neg (by simpa using Ne.symm hclose.1),
      ih hopen.2 hclose.2]

/-- How many delimiters are open shows in how many are opened and closed up to there. -/
theorem behind?_eq_some_iff {k : Nat} :
    d.behind? depth t = some k ↔ (∀ p, p <+: t → p.count d.closer ≤ depth + p.count d.opener) ∧
      k + t.count d.closer = depth + t.count d.opener := by
  have hne := d.closer_ne_opener
  induction t generalizing depth with
  | nil =>
    simp only [behind?, Option.some.injEq, prefix_nil, forall_eq, count_nil]
    omega
  | cons b t ih =>
    -- A prefix is empty or begins with the first byte.
    have hbegins : (∀ p, p <+: b :: t → p.count d.closer ≤ depth + p.count d.opener) ↔
        ∀ p, p <+: t → (b :: p).count d.closer ≤ depth + (b :: p).count d.opener := by
      constructor
      · exact fun h p hp => h (b :: p) ((prefix_cons_inj b).mpr hp)
      · intro h p hp
        rcases prefix_cons_iff.mp hp with rfl | ⟨q, rfl, hq⟩
        · exact Nat.zero_le _
        · exact h q hq
    rw [hbegins]
    simp only [behind?]
    by_cases hopen : b = d.opener
    · subst hopen
      simp only [BEq.rfl, if_true, ih, count_cons_self, count_cons_of_ne (Ne.symm hne),
        Nat.add_assoc, Nat.add_comm 1]
    · by_cases hclose : b = d.closer
      · subst hclose
        simp only [beq_eq_false_iff_ne.mpr hne, Bool.false_eq_true, if_false, BEq.rfl, if_true,
          count_cons_self,
          count_cons_of_ne hne]
        cases depth with
        | zero =>
          refine ⟨nofun, fun h => ?_⟩
          have := h.1 [] nil_prefix
          simp at this
        | succ depth =>
          refine ih.trans (and_congr (forall₂_congr fun p _ => ?_) ?_) <;> omega
      · simp only [beq_eq_false_iff_ne.mpr hopen, beq_eq_false_iff_ne.mpr hclose,
          Bool.false_eq_true, if_false, ih,
          count_cons_of_ne hopen, count_cons_of_ne hclose]

/-- Looking for a closer goes on behind a text that leaves some open. -/
theorem toCloser_append (d : Delimiter) (depth : Nat) (s t : Text) : d.toCloser depth (s ++ t) =
    (d.behind? depth s).elim (d.toCloser depth s) fun k => (d.toCloser k t).map (· + s.length) := by
  induction s generalizing depth with
  | nil => simp [behind?]
  | cons b s ih =>
    have hpass : ∀ depth, (d.toCloser depth (s ++ t)).map (· + 1) = (d.behind? depth s).elim
        ((d.toCloser depth s).map (· + 1)) fun k => (d.toCloser k t).map (· + (b :: s).length) := by
      intro depth
      rw [ih]
      cases d.behind? depth s with
      | none => rfl
      | some k => exact Option.map_map ..
    simp only [cons_append, toCloser, behind?]
    split
    · exact hpass _
    · split
      · cases depth with
        | zero => rfl
        | succ depth => exact hpass depth
      · exact hpass _

theorem isSome_toCloser (d : Delimiter) (depth : Nat) (t : Text) :
    (d.toCloser depth t).isSome = (d.behind? depth t).isNone := by
  induction t generalizing depth with
  | nil => rfl
  | cons b t ih =>
    simp only [toCloser, behind?]
    split
    · simp [ih]
    · split
      · cases depth <;> simp [ih]
      · simp [ih]

/-- **A delimiter is closed behind a text that leaves none open.** -/
theorem toCloser_eq_some_iff {n : Nat} : d.toCloser depth t = some n ↔
      ∃ s r, t = s ++ d.closer :: r ∧ d.behind? depth s = some 0 ∧ n = s.length := by
  constructor
  · intro h
    induction t generalizing depth n with
    | nil => cases h
    | cons b t ih =>
      have hpass : ∀ {k : Nat}, (∀ s, d.behind? depth (b :: s) = d.behind? k s) →
          (d.toCloser k t).map (· + 1) = some n →
          ∃ s r, b :: t = s ++ d.closer :: r ∧ d.behind? depth s = some 0 ∧ n = s.length := by
        intro k hk hmap
        obtain ⟨m, hm, rfl⟩ := Option.map_eq_some_iff.mp hmap
        obtain ⟨s, r, rfl, hs, rfl⟩ := ih hm
        exact ⟨b :: s, r, rfl, by rw [hk, hs], rfl⟩
      unfold toCloser at h
      split at h
      · next hopen => exact hpass (fun s => by simp only [behind?, if_pos hopen]) h
      · next hopen =>
        split at h
        · next hclose =>
          cases depth with
          | zero =>
            cases h
            exact ⟨[], t, by rw [beq_iff_eq.mp hclose]; rfl, rfl, rfl⟩
          | succ depth => exact hpass (fun s => by simp only [behind?, if_neg hopen, if_pos hclose]) h
        · next hclose => exact hpass (fun s => by simp only [behind?, if_neg hopen, if_neg hclose]) h
  · rintro ⟨s, r, rfl, hs, rfl⟩
    simp [toCloser_append, hs, toCloser, d.closer_ne_opener]

theorem toCloser_lt (h : d.toCloser depth t = some n) : n < t.length := by
  obtain ⟨s, r, rfl, -, rfl⟩ := toCloser_eq_some_iff.mp h
  simp

end Delimiter

namespace Text

theorem cut_append_cut (t : Text) {i j k : Nat} (h : i ≤ j) (h' : j ≤ k) :
    t.cut ⟨i, j⟩ ++ t.cut ⟨j, k⟩ = t.cut ⟨i, k⟩ := by
  have hk : j - i + (k - j) = k - i := by omega
  simp only [cut]
  rw [← hk, take_add, drop_drop, Nat.add_sub_cancel' h]

theorem drop_start {r : Range} (hr : r.start ≤ r.stop) : t.drop r.start = t.cut r ++ t.drop r.stop := by
  rw [cut, ← Nat.add_sub_cancel' hr, ← drop_drop, Nat.add_sub_cancel_left, take_append_drop]

theorem cut_of_getElem? {b : UInt8} (h : t[i]? = some b) (hk : i < k) :
    t.cut ⟨i, k⟩ = b :: t.cut ⟨i + 1, k⟩ := by
  obtain ⟨hi, rfl⟩ := List.getElem?_eq_some_iff.mp h
  simp only [cut]
  rw [drop_eq_getElem_cons hi, show k - i = k - (i + 1) + 1 by omega, take_succ_cons]

theorem matching?_of_opener (h : t[i]? = some d.opener) :
    t.matching? i = (d.toCloser 0 (t.drop (i + 1))).map (i + 1 + ·) := by
  obtain ⟨hi, hget⟩ := List.getElem?_eq_some_iff.mp h
  unfold matching?
  rw [drop_eq_getElem_cons hi, hget]
  simp only [Delimiter.ofOpener?_opener, bind, Option.bind_some, pure]
  cases d.toCloser 0 (t.drop (i + 1)) <;> rfl

theorem exists_opener_of_matching? (h : t.matching? i = some c) : ∃ d : Delimiter, t[i]? = some d.opener := by
  unfold matching? at h
  split at h
  · cases h
  · next b rest hdrop =>
    obtain ⟨d, hd, -⟩ := Option.bind_eq_some_iff.mp h
    exact ⟨d, by rw [← Delimiter.eq_opener_of_ofOpener? hd, ← head?_drop, hdrop, head?_cons]⟩

theorem closer_of_matching? (h : t[i]? = some d.opener) (hc : t.matching? i = some c) :
    t[c]? = some d.closer := by
  rw [matching?_of_opener h, Option.map_eq_some_iff] at hc
  obtain ⟨n, hn, rfl⟩ := hc
  obtain ⟨s, r, hdrop, -, rfl⟩ := Delimiter.toCloser_eq_some_iff.mp hn
  rw [← getElem?_drop, hdrop, getElem?_append_right (Nat.le_refl _), Nat.sub_self,
    getElem?_cons_zero]

/-- **The search for a closer comes to every offset that is not beyond it**, and is then inside one
delimiter less than were opened and not closed on the way. -/
theorem toCloser_reaches (h : t[i]? = some d.opener) (hik : i < k)
    (hc : ∀ c, t.matching? i = some c → k ≤ c) :
    ∃ n, (t.cut ⟨i, k⟩).count d.opener = (t.cut ⟨i, k⟩).count d.closer + n + 1 ∧
      d.toCloser 0 (t.drop (i + 1)) = (d.toCloser n (t.drop k)).map (· + (t.cut ⟨i + 1, k⟩).length) := by
  have hdrop : t.drop (i + 1) = t.cut ⟨i + 1, k⟩ ++ t.drop k := drop_start (r := ⟨i + 1, k⟩) hik
  rw [matching?_of_opener h, hdrop] at hc
  rw [cut_of_getElem? h hik, count_cons_self, count_cons_of_ne (Ne.symm d.closer_ne_opener), hdrop]
  cases hbehind : d.behind? 0 (t.cut ⟨i + 1, k⟩) with
  | none =>
    obtain ⟨n, hn⟩ : ∃ n, d.toCloser 0 (t.cut ⟨i + 1, k⟩) = some n := by
      rw [← Option.isSome_iff_exists, Delimiter.isSome_toCloser, hbehind]
      rfl
    have hle := hc (i + 1 + n) (by rw [Delimiter.toCloser_append, hbehind, Option.elim_none, hn]; rfl)
    have hlt := Delimiter.toCloser_lt hn
    have hlength : (t.cut ⟨i + 1, k⟩).length ≤ k - (i + 1) := length_take_le _ _
    omega
  | some n =>
    have hcount := (Delimiter.behind?_eq_some_iff.mp hbehind).2
    exact ⟨n, by omega, by rw [Delimiter.toCloser_append, hbehind]; rfl⟩

/-- As many openers of a kind as closers from offset `i` to offset `k`. -/
def Balanced (d : Delimiter) (t : Text) (i k : Nat) : Prop :=
  (t.cut ⟨i, k + 1⟩).count d.opener = (t.cut ⟨i, k + 1⟩).count d.closer

theorem isLeast_matching? (h : t[i]? = some d.opener) (hc : t.matching? i = some c) :
    IsLeast {k | i ≤ k ∧ k < t.length ∧ Balanced d t i k} c := by
  obtain ⟨n, hn, rfl⟩ : ∃ n, d.toCloser 0 (t.drop (i + 1)) = some n ∧ i + 1 + n = c := by
    rwa [matching?_of_opener h, Option.map_eq_some_iff] at hc
  obtain ⟨s, r, hdrop, hs, rfl⟩ := Delimiter.toCloser_eq_some_iff.mp hn
  have hcut : t.cut ⟨i + 1, i + 1 + s.length + 1⟩ = s ++ [d.closer] := by
    rw [cut, hdrop, show i + 1 + s.length + 1 - (i + 1) = s.length + 1 by omega, take_length_add_append]
    rfl
  have hlength := congrArg length hdrop
  rw [length_drop, length_append, length_cons] at hlength
  have hcount := (Delimiter.behind?_eq_some_iff.mp hs).2
  refine ⟨⟨by omega, by omega, ?_⟩, ?_⟩
  · rw [Balanced, cut_of_getElem? h (by omega), hcut]
    simp [d.closer_ne_opener, d.closer_ne_opener.symm]
    omega
  · rintro k ⟨hik, hk, hbalanced⟩
    by_contra hlt
    obtain ⟨n, hreach, -⟩ := toCloser_reaches h (k := k + 1) (by omega) (fun c h => by
      rw [hc, Option.some.injEq] at h
      omega)
    rw [Balanced, hreach] at hbalanced
    omega

/-- **A delimiter is closed by the first byte up to which as many were closed as opened**, and by none
if there is no such byte. The search comes to every offset before with a count of open delimiters that
never falls below zero, and two pairs of one kind are nested or stand apart. -/
theorem matching?_closes_first (t : Text) :
    (∀ i c, t.matching? i = some c ↔ ∃ d : Delimiter, t[i]? = some d.opener ∧
      IsLeast {k | i ≤ k ∧ k < t.length ∧ Balanced d t i k} c) ∧
    (∀ i, t.matching? i = none ↔ ∀ d : Delimiter, t[i]? = some d.opener →
      ∀ k, i ≤ k → k < t.length → ¬ Balanced d t i k) ∧
    (∀ (d : Delimiter) i k, t[i]? = some d.opener → i < k → (∀ c, t.matching? i = some c → k ≤ c) →
      ∃ n, (t.cut ⟨i, k⟩).count d.opener = (t.cut ⟨i, k⟩).count d.closer + n + 1 ∧
        d.toCloser 0 (t.drop (i + 1)) = (d.toCloser n (t.drop k)).map (· + (t.cut ⟨i + 1, k⟩).length)) ∧
    ∀ i j c e, i < j → t[i]? = t[j]? → t.matching? i = some c → t.matching? j = some e → c < j ∨ e < c := by
  have hnone : ∀ {i d k}, t[i]? = some (Delimiter.opener d) → i ≤ k → Balanced d t i k →
      t.matching? i ≠ none := by
    intro i d k hopen hik hbalanced hnone
    obtain ⟨n, hreach, -⟩ := toCloser_reaches hopen (k := k + 1) (by omega) (by simp [hnone])
    rw [Balanced, hreach] at hbalanced
    omega
  refine ⟨fun i c => ⟨fun h => ?_, ?_⟩, fun i => ⟨?_, fun h => ?_⟩, fun d i k => toCloser_reaches, ?_⟩
  · obtain ⟨d, hopen⟩ := exists_opener_of_matching? h
    exact ⟨d, hopen, isLeast_matching? hopen h⟩
  · rintro ⟨d, hopen, hleast⟩
    obtain ⟨e, he⟩ := Option.ne_none_iff_exists'.mp (hnone hopen hleast.1.1 hleast.1.2.2)
    rw [he, hleast.unique (isLeast_matching? hopen he)]
  · exact fun h d hopen k hik _ hbalanced => hnone hopen hik hbalanced h
  · refine Option.eq_none_iff_forall_ne_some.mpr fun c hc => ?_
    obtain ⟨d, hopen⟩ := exists_opener_of_matching? hc
    obtain ⟨hik, hk, hbalanced⟩ := (isLeast_matching? hopen hc).1
    exact h d hopen c hik hk hbalanced
  · intro i j c e hij hsame hc he
    obtain ⟨d, hopen⟩ := exists_opener_of_matching? hc
    have hopen' : t[j]? = some d.opener := hsame ▸ hopen
    by_contra hcross
    -- From the second opener to the closer of the first more are closed than opened.
    obtain ⟨n, hbefore, -⟩ :=
      toCloser_reaches hopen hij (fun k hk => by rw [hc, Option.some.injEq] at hk; omega)
    have hwhole := (isLeast_matching? hopen hc).1.2.2
    rw [Balanced, ← cut_append_cut t (Nat.le_of_lt hij) (show j ≤ c + 1 by omega), count_append,
      count_append] at hwhole
    rcases Nat.lt_or_eq_of_le (show c ≤ e by omega) with hlt | rfl
    · obtain ⟨m, hinside, -⟩ := toCloser_reaches hopen' (k := c + 1) (by omega)
        (fun k hk => by rw [he, Option.some.injEq] at hk; omega)
      omega
    · have hinside := (isLeast_matching? hopen' he).1.2.2
      rw [Balanced] at hinside
      omega

end Text

end GlslToMetal
