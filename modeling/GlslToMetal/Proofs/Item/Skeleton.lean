import GlslToMetal.Proofs.Item.Laid
import GlslToMetal.Proofs.Text.Patching
import GlslToMetal.Proofs.Text.Stretches

/-! The bytes that divide a text: delimiters, commas, semicolons and `=`. They alone decide whether
delimiters are closed, whether an item ends, and where a list is cut, so a text may be respelled between
them. -/

namespace GlslToMetal

open List Text

namespace Text

variable {s t : Text} {b : UInt8}

/-- A byte that divides texts. -/
def divides (b : UInt8) : Bool := ([40, 41, 44, 59, 61, 91, 93, 123, 125] : Text).contains b

theorem plain_of_divides (h : ¬ divides b) : Delimiter.plain b ∧ b ≠ 44 ∧ b ≠ 59 := by
  simp only [divides, contains_iff_mem, mem_cons, not_or] at h
  simp [Delimiter.plain, Delimiter.ofOpener?, Delimiter.ofCloser?, h]

theorem behind?_filter (d : Delimiter) (k : Nat) (t : Text) :
    d.behind? k (t.filter divides) = d.behind? k t := by
  induction t generalizing k with
  | nil => rfl
  | cons b t ih =>
    by_cases hb : divides b
    · rw [filter_cons_of_pos hb]
      simp only [Delimiter.behind?, ih]
    · have hplain := (plain_of_divides hb).1
      rw [filter_cons_of_neg hb, ih]
      simp [Delimiter.behind?, Delimiter.ne_opener_of_plain hplain d, Delimiter.ne_closer_of_plain hplain d]

theorem behind?_congr (h : s.filter divides = t.filter divides) (d : Delimiter) (k : Nat) :
    d.behind? k s = d.behind? k t := by
  rw [← behind?_filter, h, behind?_filter]

theorem mem_congr (h : s.filter divides = t.filter divides) (hb : divides b) : b ∈ s ↔ b ∈ t := by
  have hmem : ∀ u : Text, b ∈ u.filter divides ↔ b ∈ u := fun u => mem_filter.trans (and_iff_left hb)
  rw [← hmem, h, hmem]

theorem stretches_filter (depth : Int) (t : Text) :
    stretches depth (t.filter divides) = (stretches depth t).map (·.filter divides) := by
  induction t generalizing depth with
  | nil => rfl
  | cons b t ih =>
    have hglue : ∀ depth, (glue [b] (stretches depth t)).map (·.filter divides) =
        glue ([b].filter divides) (stretches depth (t.filter divides)) := by
      intro depth
      obtain ⟨x, xs, hx⟩ := exists_cons_of_ne_nil (stretches_ne_nil depth t)
      rw [ih, hx, glue, map_cons, filter_append]
      rfl
    by_cases hb : divides b
    · rw [filter_cons_of_pos hb, stretches, stretches]
      split
      · rw [map_cons, ih]
        rfl
      · rw [hglue, filter_cons_of_pos hb]
        rfl
    · obtain ⟨hplain, hcomma, -⟩ := plain_of_divides hb
      rw [filter_cons_of_neg hb, stretches, if_neg (by simp [hcomma]), byteWeight_of_plain hplain,
        Int.add_zero, hglue,
        filter_cons_of_neg hb, filter_nil, glue_nil (stretches_ne_nil _ _)]

/-- The commas between texts are told from those inside by what divides the texts. -/
theorem intercalate_injective {xs ys : List Text} (h : [44].intercalate xs = [44].intercalate ys)
    (hmap : xs.map (·.filter divides) = ys.map (·.filter divides)) : xs = ys := by
  have hfirst : ∀ {x y u v : Text}, x ++ 44 :: u = y ++ 44 :: v → x.filter divides = y.filter divides →
      x.length ≤ y.length := by
    intro x y u v h hxy
    by_contra hlt
    obtain ⟨_ | ⟨b, c⟩, rfl, hc⟩ := exists_of_append_eq h (Nat.le_of_not_le hlt)
    · simp at hlt
    · obtain ⟨rfl, -⟩ := cons.inj hc
      simpa [divides] using congrArg length hxy
  induction xs generalizing ys with
  | nil => exact (map_eq_nil_iff.mp hmap.symm).symm
  | cons x xs ih =>
    obtain ⟨y, ys, rfl, hxy, hrest⟩ := map_eq_cons_iff.mp hmap.symm
    cases xs with
    | nil =>
      obtain rfl := map_eq_nil_iff.mp hrest
      simpa using h
    | cons x' xs =>
      obtain ⟨y', ys, rfl, -⟩ := map_eq_cons_iff.mp hrest
      simp only [intercalate_cons_cons, append_assoc, singleton_append] at h
      obtain ⟨rfl, htail⟩ := append_inj h (Nat.le_antisymm (hfirst h hxy.symm) (hfirst h.symm hxy))
      rw [ih (cons.inj htail).2 hrest.symm]

/-- A list is cut into the texts it is put together from if another is whose texts are divided alike. -/
theorem stretches_intercalate {xs : List Text} {depth : Int}
    (hlist : ([44].intercalate xs).filter divides = t.filter divides)
    (h : xs.map (·.filter divides) = (stretches depth t).map (·.filter divides)) :
    stretches depth ([44].intercalate xs) = xs :=
  intercalate_injective (intercalate_stretches _ _) (by rw [← stretches_filter, hlist, stretches_filter, h])

end Text

/-- Code in which no item ends may be respelled between the bytes that divide it. -/
theorem Item.Run.of_filter {x y : Text} (hx : Run x) (h : y.filter divides = x.filter divides) : Run y := by
  have hplain : ∀ {x z : Text}, Run x → z.filter divides = [] → Run (x ++ z) := fun hx hz =>
    hx.append_plain fun b hb => (plain_of_divides (filter_eq_nil_iff.mp hz b hb)).imp_right And.right
  induction hx generalizing y with
  | nil => exact hplain .nil h
  | @byte x b hx hopener hsemi ih =>
    rw [filter_append] at h
    obtain ⟨u, v, rfl, hu, hv⟩ := filter_eq_append_iff.mp h
    by_cases hb : divides b
    · rw [filter_cons_of_pos hb, filter_nil] at hv
      obtain ⟨z, w, rfl, hz, -, hw⟩ := filter_eq_cons_iff.mp hv
      simpa using hplain ((hplain (ih hu) (filter_eq_nil_iff.mpr hz)).byte hopener hsemi) hw
    · exact hplain (ih hu) (by rw [hv, filter_cons_of_neg hb, filter_nil])
  | @pair x inner d hx hbrace hinner ih =>
    have hd : divides d.opener ∧ divides d.closer := by cases d <;> decide
    rw [filter_append, filter_cons_of_pos hd.1, filter_append, filter_cons_of_pos hd.2, filter_nil] at h
    obtain ⟨u, v, rfl, hu, hv⟩ := filter_eq_append_iff.mp h
    obtain ⟨z, w, rfl, hz, -, hw⟩ := filter_eq_cons_iff.mp hv
    obtain ⟨inner', v, rfl, hinner', hv⟩ := filter_eq_append_iff.mp hw
    obtain ⟨z', v, rfl, hz', -, hv⟩ := filter_eq_cons_iff.mp hv
    have hinside : (inner' ++ z').filter divides = inner.filter divides := by
      rw [filter_append, hinner', filter_eq_nil_iff.mpr hz', append_nil]
    simpa using hplain ((hplain (ih hu) (filter_eq_nil_iff.mpr hz)).pair
      (fun h => mem_append_left _ ((mem_congr hu (by decide)).mpr (hbrace h)))
        ((behind?_congr hinside d 0).trans hinner)) hv

end GlslToMetal
