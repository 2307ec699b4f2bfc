import GlslToMetal.Proofs.Program.Bounds
import GlslToMetal.Proofs.Text.Removal

/-! What is read of an item depends on its header alone. A header that is cut out of a program reads
as a text of its own, and what is read of it there has its offsets counted from its beginning. -/

namespace GlslToMetal

open List Text

variable {d : Delimiter} {depth i k n : Nat} {r : Range} {part s t : Text}

theorem Range.shift_start (r : Range) (n : Nat) : (r.shift n).start = r.start + n := rfl

theorem Range.shift_stop (r : Range) (n : Nat) : (r.shift n).stop = r.stop + n := rfl

theorem Checked.mapM_map_eq {α β : Type} {f g : α → Checked β} {k : α → α} {k' : β → β} {xs : List α}
    (h : ∀ x ∈ xs, f (k x) = (g x).map k') : (xs.map k).mapM f = (xs.mapM g).map (·.map k') := by
  induction xs with
  | nil => rfl
  | cons x xs ih =>
    rw [map_cons, mapM_cons, mapM_cons, h x mem_cons_self, ih fun y hy => h y (mem_cons_of_mem _ hy)]
    cases g x with
    | error => rfl
    | ok y =>
      cases xs.mapM g with
      | error => rfl
      | ok ys => rfl

theorem Checked.bind_eq_map {α β γ δ : Type} {x : Checked α} {x' : Checked β} {g : α → β} {f : α → Checked γ}
    {f' : β → Checked δ} {k : γ → δ} (hx : x' = x.map g) (hf : ∀ a, x = .ok a → f' (g a) = (f a).map k) :
    (x' >>= f') = (x >>= f).map k := by
  subst hx
  cases x with
  | error => rfl
  | ok a => exact hf a rfl

namespace Text

theorem isBoundary_of_drop {r : Text} {b : UInt8} (h : t.drop i = b :: r) (hb : b < 128) :
    t.isBoundary i := by
  unfold isBoundary
  rw [h]
  simp [isContinuation_of_lt hb]

theorem cut_shift_of_drop {part post : Text} (h : t.drop n = part ++ post) (hr : r.stop ≤ part.length) :
    t.cut (r.shift n) = part.cut r := by
  unfold cut
  rw [Range.shift_start, Range.shift_stop, Nat.add_sub_add_right, Nat.add_comm, ← drop_drop, h]
  by_cases hle : r.start ≤ r.stop
  · rw [drop_append_of_le_length (by omega), take_append_of_le_length (by rw [length_drop]; omega)]
  · have hnone : r.stop - r.start = 0 := by omega
    rw [hnone, take_zero, take_zero]

/-- The text `part` stands in `t` at offset `n`, between characters. -/
structure Part (t : Text) (n : Nat) (part : Text) : Prop where
  drop : ∃ post, t.drop n = part ++ post
  le : n + part.length ≤ t.length
  start : t.isBoundary n
  stop : t.isBoundary (n + part.length)

namespace Part

theorem of_cut (ht : t.IsAscii) (hr : r.Within t.length) : Part t r.start (t.cut r) := by
  have hlength : (t.cut r).length = r.stop - r.start := by
    rw [cut, length_take_of_le (by rw [length_drop]; exact Nat.sub_le_sub_right hr.2 _)]
  have hstop : r.start + (t.cut r).length = r.stop := by rw [hlength, Nat.add_sub_cancel' hr.1]
  refine ⟨⟨_, (take_append_drop (r.stop - r.start) _).symm⟩, hstop ▸ hr.2,
    isBoundary_of_isAscii ht (Nat.le_trans hr.1 hr.2), ?_⟩
  rw [hstop]
  exact isBoundary_of_isAscii ht hr.2

variable {t part : Text} {n : Nat} (h : Part t n part)
include h

theorem cut_shift {r : Range} (hr : r.stop ≤ part.length) : t.cut (r.shift n) = part.cut r := by
  obtain ⟨post, hpost⟩ := h.drop
  exact cut_shift_of_drop hpost hr

theorem isBoundary_shift (hi : i ≤ part.length) : t.isBoundary (i + n) = part.isBoundary i := by
  obtain ⟨post, hpost⟩ := h.drop
  cases i with
  | zero => rw [Nat.zero_add, h.start, isBoundary_zero]
  | succ i =>
    by_cases hlast : i + 1 = part.length
    · rw [hlast, Nat.add_comm, h.stop, isBoundary_length]
    · unfold isBoundary
      rw [Nat.add_comm, ← drop_drop, hpost, drop_append_of_le_length hi]
      cases hdrop : part.drop (i + 1) with
      | nil =>
        have := congrArg length hdrop
        rw [length_drop, length_nil] at this
        omega
      | cons b rest => simp

theorem slice_shift {r : Range} (hr : r.stop ≤ part.length) : t.slice (r.shift n) = part.slice r := by
  have hle := h.le
  unfold slice
  rw [h.cut_shift hr, Range.shift_start, Range.shift_stop]
  by_cases hinverted : r.stop < r.start
  · rw [if_pos hinverted, if_pos (by omega)]
  · have hordered : ¬ r.stop + n < r.start + n := by omega
    have hinside : ¬ t.length < r.stop + n := by omega
    rw [if_neg hordered, if_neg hinside, if_neg hinverted, if_neg (Nat.not_lt.mpr hr),
      h.isBoundary_shift (by omega), h.isBoundary_shift hr]

theorem slice_add {j : Nat} (hj : j ≤ part.length) : t.slice ⟨i + n, j + n⟩ = (part.slice ⟨i, j⟩).map id := by
  have hslice : t.slice ⟨i + n, j + n⟩ = part.slice ⟨i, j⟩ := @slice_shift _ _ _ h ⟨i, j⟩ hj
  rw [hslice]
  cases part.slice ⟨i, j⟩ <;> rfl

theorem trimRange_shift {r : Range} (hr : r.stop ≤ part.length) :
    t.trimRange (r.shift n) = (part.trimRange r).map (·.shift n) := by
  have hle := h.le
  unfold trimRange
  rw [h.cut_shift hr, Range.shift_start, Range.shift_stop]
  by_cases hordered : r.start < r.stop
  · have hordered' : r.start + n < r.stop + n := by omega
    have hinside : ¬ t.length < r.stop + n := by omega
    have hcut := @cut_shift _ _ _ h ⟨r.start + leadingBlanks (part.cut r), r.stop⟩ hr
    have hblanks := leadingBlanks_le (part.cut ⟨r.start + leadingBlanks (part.cut r), r.stop⟩).reverse
    have hlength := length_cut_le part ⟨r.start + leadingBlanks (part.cut r), r.stop⟩
    rw [length_reverse] at hblanks
    dsimp only at hlength
    rw [if_pos hordered', if_neg hinside, if_pos hordered, if_neg (Nat.not_lt.mpr hr)]
    simp only [Range.shift, Except.map] at hcut ⊢
    rw [Nat.add_right_comm, hcut]
    congr 2
    omega
  · rw [if_neg (by omega), if_neg hordered]
    rfl

end Part

theorem commaStretches_shift (depth : Int) (start i n : Nat) (t : Text) :
    commaStretches depth (start + n) (i + n) t = (commaStretches depth start i t).map (·.shift n) := by
  induction t generalizing depth start i with
  | nil => rfl
  | cons b t ih =>
    have hnext : i + n + 1 = i + 1 + n := by omega
    unfold commaStretches
    rw [hnext]
    (repeat' split) <;> simp only [ih, map_cons, Range.shift]

theorem Part.splitArgs_shift (h : Part t n part) {opened closed : Nat}
    (hclosed : closed ≤ part.length) :
    t.splitArgs (opened + n) (closed + n) = (part.splitArgs opened closed).map (·.map (·.shift n)) := by
  have hle := h.le
  unfold splitArgs
  by_cases hempty : closed ≤ opened + 1
  · rw [if_pos hempty, if_pos (by omega)]
    rfl
  · have hstart : opened + n + 1 = opened + 1 + n := by omega
    have hempty' : ¬ closed + n ≤ opened + 1 + n := by omega
    have hinside : ¬ t.length < closed + n := by omega
    have hcut := @Part.cut_shift _ _ _ h ⟨opened + 1, closed⟩ hclosed
    simp only [Range.shift] at hcut
    rw [if_neg hempty, if_neg (Nat.not_lt.mpr hclosed), hstart, if_neg hempty', if_neg hinside,
      hcut, commaStretches_shift]
    have hbounds : ∀ r ∈ commaStretches 0 (opened + 1) (opened + 1) (part.cut ⟨opened + 1, closed⟩),
        r.stop ≤ part.length := by
      intro r hr
      have hlength := length_cut_le part ⟨opened + 1, closed⟩
      have := stop_le_of_mem_commaStretches r hr
      dsimp only at hlength
      omega
    have hmap : ((commaStretches 0 (opened + 1) (opened + 1) (part.cut ⟨opened + 1, closed⟩)).map
        (·.shift n)).mapM t.trimRange =
        ((commaStretches 0 (opened + 1) (opened + 1) (part.cut ⟨opened + 1, closed⟩)).mapM
          part.trimRange).map (·.map (·.shift n)) :=
      Checked.mapM_map_eq fun r hr => h.trimRange_shift (hbounds r hr)
    rw [hmap]
    cases (commaStretches 0 (opened + 1) (opened + 1) (part.cut ⟨opened + 1, closed⟩)).mapM
      part.trimRange with
    | error => rfl
    | ok args =>
      show Except.ok _ = Except.ok _
      congr 1
      rcases args with _ | ⟨only, _ | ⟨second, rest⟩⟩
      · rfl
      · have hsame : (only.shift n).isEmpty = only.isEmpty := by simp [Range.isEmpty, Range.shift]
        simp only [map_cons, map_nil, hsame]
        split <;> rfl
      · rfl

end Text

/-- The parameter moved `n` bytes to the right. -/
def Parameter.shift (p : Parameter) (n : Nat) : Parameter := { p with range := p.range.shift n }

theorem Parameter.ofWords?_eq (words : List Text) (r : Range) :
    ofWords? words r = (ofWords? words ⟨0, 0⟩).map fun p => { p with range := r } := by
  unfold ofWords?
  split
  · rfl
  · dsimp only
    cases declared ((takeQualifiers .unmarked false words).2.2.filter (· != ("&" : Text))) with
    | none => rfl
    | some d => rfl

theorem Parameter.range_of_ofRange? {p : Parameter} (h : ofRange? t r = .ok (some p)) : p.range = r := by
  obtain ⟨source, -, h⟩ := Checked.exists_of_bind h
  have hp := Except.ok.inj h
  rw [ofWords?_eq] at hp
  obtain ⟨q, -, rfl⟩ := Option.map_eq_some_iff.mp hp
  rfl

theorem Parameter.ofWords?_shift (words : List Text) (r : Range) (n : Nat) :
    ofWords? words (r.shift n) = (ofWords? words r).map (·.shift n) := by
  rw [ofWords?_eq, ofWords?_eq words r, Option.map_map]
  rfl

theorem Parameter.ofRange?_shift (h : t.Part n part)
    (hr : r.stop ≤ part.length) :
    ofRange? t (r.shift n) = (ofRange? part r).map (Option.map (·.shift n)) := by
  unfold ofRange?
  rw [h.slice_shift hr]
  cases part.slice r with
  | error => rfl
  | ok source => exact congrArg Except.ok (ofWords?_shift _ _ _)

theorem Text.Part.matching?_shift (h : Part t n part) (hi : i < part.length) :
    (∀ j, part.matching? i = some j → t.matching? (i + n) = some (j + n)) ∧
      (part.matching? i = none → ∀ j, t.matching? (i + n) = some j → part.length + n ≤ j) := by
  obtain ⟨post, hpost⟩ := h.drop
  unfold matching?
  rw [Nat.add_comm i n, ← drop_drop, hpost, drop_append_of_le_length (Nat.le_of_lt hi)]
  cases hdrop : part.drop i with
  | nil =>
    have := congrArg length hdrop
    rw [length_drop, length_nil] at this
    omega
  | cons b rest =>
    have hlength := congrArg length hdrop
    rw [length_drop, length_cons] at hlength
    simp only [cons_append]
    cases Delimiter.ofOpener? b with
    | none => exact ⟨nofun, nofun⟩
    | some d =>
      refine ⟨fun j hj => ?_, fun hnone j hj => ?_⟩
      · obtain ⟨_, ⟨⟩, hj⟩ := Option.bind_eq_some_iff.mp hj
        obtain ⟨k, hk, hkj⟩ := Option.bind_eq_some_iff.mp hj
        have hkj := Option.some.inj hkj
        refine Option.bind_eq_some_iff.mpr ⟨d, rfl, Option.bind_eq_some_iff.mpr
          ⟨k, ?_, congrArg some ?_⟩⟩
        · have hnone : d.behind? 0 rest = none := by
            rw [← Option.isNone_iff_eq_none, ← Delimiter.isSome_toCloser, hk]
            rfl
          rw [Delimiter.toCloser_append, hnone, Option.elim_none, hk]
        · omega
      · obtain ⟨_, ⟨⟩, hj⟩ := Option.bind_eq_some_iff.mp hj
        obtain ⟨k, hk, hkj⟩ := Option.bind_eq_some_iff.mp hj
        have hkj := Option.some.inj hkj
        have hopen : (d.behind? 0 rest).isSome := by
          have hsome := d.isSome_toCloser 0 rest
          cases hcloser : d.toCloser 0 rest with
          | none => simpa [hcloser] using hsome
          | some k => simp [hcloser] at hnone
        obtain ⟨m, hm⟩ := Option.isSome_iff_exists.mp hopen
        rw [Delimiter.toCloser_append, hm, Option.elim_some, Option.map_eq_some_iff] at hk
        obtain ⟨l, -, rfl⟩ := hk
        omega

namespace Signature

/-- What is read of a header on its own. -/
def ofHeader? (head : Text) : Checked (Option Signature) := ofItem? head (.block 0 head.length 0 0)

/-- What is read of the header of an item that begins at offset `n`. -/
def placed (f : Signature) (n : Nat) (item : Item) : Signature where
  name := f.name
  returnType := f.returnType
  params := f.params.map (·.shift n)
  range := item.range
  nameRange := f.nameRange.shift n
  openParen := f.openParen + n
  closeParen := f.closeParen + n
  body? := item.body?

/-- **What is read of an item is read of its header.** -/
theorem ofItem?_eq {head : Text} {item : Item} (h : t.Part n head)
    (hheader : header? t item = some (Range.shift ⟨0, head.length⟩ n)) :
    ofItem? t item = (ofHeader? head).map (Option.map (·.placed n item)) := by
  unfold ofHeader? ofItem?
  have hown : header? head (.block 0 head.length 0 0) = some ⟨0, head.length⟩ := rfl
  rw [hheader, hown]
  dsimp only
  rw [h.cut_shift (Nat.le_refl _)]
  generalize ((head.cut ⟨0, head.length⟩).takeWhile (· != 40)).length = k
  simp only [Range.shift, Nat.zero_add]
  rw [Nat.add_comm n k]
  by_cases hnone : head.length ≤ k
  · rw [if_pos (by omega), if_pos hnone]
    rfl
  rw [if_neg (by omega), if_neg hnone]
  obtain ⟨hmatch, hmatch'⟩ := h.matching?_shift (Nat.lt_of_not_le hnone)
  cases hclose : head.matching? k with
  | none =>
    cases hclose' : t.matching? (k + n) with
    | none => rfl
    | some j =>
      dsimp only
      rw [if_pos (hmatch' hclose j hclose')]
      rfl
  | some j =>
    rw [hmatch j hclose]
    dsimp only
    by_cases hbehind : head.length ≤ j
    · rw [if_pos hbehind, if_pos (by omega)]
      rfl
    rw [if_neg hbehind, if_neg (by omega), Nat.add_right_comm]
    refine Checked.bind_eq_map (h.slice_add (Nat.le_refl _)) fun behind _ => ?_
    dsimp only [id]
    split
    · rfl
    have htrim := @Part.trimRange_shift _ _ _ h ⟨0, k⟩ (Nat.le_of_not_le hnone)
    simp only [Range.shift, Nat.zero_add] at htrim
    refine Checked.bind_eq_map htrim fun lead hlead => ?_
    obtain ⟨_, hlead', htrims⟩ := @returns_trimRange ⟨0, k⟩ head ⟨Nat.zero_le k, Nat.le_of_not_le hnone⟩
    obtain rfl := Except.ok.inj (hlead.symm.trans hlead')
    have hstop := htrims.stop_le
    dsimp only at hstop ⊢
    refine Checked.bind_eq_map (h.slice_add (by omega)) fun whole hwhole => ?_
    have hoffset := nameOffset_le whole
    obtain ⟨hordered, -, rfl⟩ := of_slice hwhole
    have hwidth := length_cut_le head lead
    dsimp only [id]
    rw [Nat.add_right_comm]
    refine Checked.bind_eq_map (h.slice_add (by omega)) fun name _ => ?_
    refine Checked.bind_eq_map (h.slice_add (by omega)) fun type _ => ?_
    dsimp only [id]
    split
    · rfl
    refine Checked.bind_eq_map (h.splitArgs_shift (by omega)) fun args hargs => ?_
    obtain ⟨_, hargs', hbounds, -⟩ := @returns_splitArgs j k head (by omega)
    obtain rfl := Except.ok.inj (hargs.symm.trans hargs')
    refine Checked.bind_eq_map (Checked.mapM_map_eq fun r hr => Parameter.ofRange?_shift h
      (Nat.le_trans (hbounds r hr).2.2 (by omega))) fun params _ => ?_
    have hparams : (params.map (Option.map (·.shift n))).filterMap id =
        (params.filterMap id).map (·.shift n) := by
      rw [filterMap_map, map_filterMap]
      rfl
    dsimp only [Except.map, pure, Except.pure, Option.map]
    rw [hparams]
    rfl

theorem ofItem?_of_header? {item : Item} (ht : t.IsAscii) (hr : r.Within t.length)
    (h : header? t item = some r) :
    ofItem? t item = (ofHeader? (t.cut r)).map (Option.map (·.placed r.start item)) := by
  refine ofItem?_eq (.of_cut ht hr) ?_
  have hle := hr.1
  rw [h, cut, length_take_of_le (by rw [length_drop]; exact Nat.sub_le_sub_right hr.2 _),
    Range.shift, Nat.zero_add,
    Nat.sub_add_cancel hle]

end Signature

end GlslToMetal
