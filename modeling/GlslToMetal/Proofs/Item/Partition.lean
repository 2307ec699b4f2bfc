import GlslToMetal.Proofs.Signature.Header
import GlslToMetal.Proofs.Text.Stretches

/-! The items of a text divide it. Between items stand blanks, and behind the last of them blanks and at
most one run of code that nothing ends. -/

namespace GlslToMetal

open List Text

variable {b : UInt8} {d : Delimiter} {i k : Nat} {item : Item} {items : List Item} {s t x : Text}

namespace Item

/-- Where the last of some items ends, or where there are none, the offset at which they would begin. -/
def lastStop (i : Nat) (items : List Item) : Nat := (items.getLast?.map (·.range.stop)).getD i

theorem lastStop_cons (i : Nat) (item : Item) (items : List Item) :
    lastStop i (item :: items) = lastStop item.range.stop items := by
  cases items with
  | nil => rfl
  | cons next items => simp [lastStop, getLast?_eq_some_getLast]

namespace Laid

theorem bounds (h : Laid i t items) : ∀ item ∈ items,
    i ≤ item.range.start ∧ item.range.start < item.range.stop ∧ item.range.stop ≤ i + t.length := by
  induction h with
  | blank _ _ ih =>
    intro item hitem
    have := ih item hitem
    rw [length_cons]
    omega
  | @item i x t item items hshaped _ ih =>
    obtain ⟨hrange, hpos⟩ := hshaped.range
    rw [length_append]
    refine forall_mem_cons.2 ⟨?_, fun next hnext => ?_⟩
    · rw [hrange]
      dsimp only
      omega
    · have := ih next hnext
      omega
  | run => exact forall_mem_nil _
  | unterminated => exact forall_mem_singleton.2 ⟨Nat.le_refl _, by simp [Item.range], Nat.le_refl _⟩

theorem pairwise (h : Laid i t items) :
    items.Pairwise fun a b => a.range.start < b.range.start ∧ a.range.stop ≤ b.range.start := by
  induction h with
  | blank _ _ ih => exact ih
  | @item i x t item items hshaped hrest ih =>
    obtain ⟨hrange, hpos⟩ := hshaped.range
    refine .cons (fun next hnext => ?_) ih
    have := hrest.bounds next hnext
    rw [hrange]
    dsimp only
    omega
  | run => exact .nil
  | unterminated => exact pairwise_singleton _ _

/-- What stands before the end of the last item and in no item is blank. -/
theorem gaps (h : Laid i t items) : ∀ k b, t[k]? = some b → i + k < lastStop i items →
    (∀ item ∈ items, item.range.covers (i + k) = false) → isBlank b := by
  induction h with
  | @blank i c t items hc hrest ih =>
    intro k b hb hk hcovers
    cases k with
    | zero =>
      obtain rfl : c = b := Option.some.inj hb
      exact hc
    | succ k =>
      have hshift : i + (k + 1) = i + 1 + k := by omega
      rw [hshift] at hk hcovers
      refine ih k b hb ?_ hcovers
      cases items with
      | nil => exact absurd hk (by simp [lastStop]; omega)
      | cons item items => rwa [lastStop_cons] at hk ⊢
  | @item i x t item items hshaped _ ih =>
    intro k b hb hk hcovers
    obtain ⟨hcover, hcovers⟩ := forall_mem_cons.1 hcovers
    rw [lastStop_cons] at hk
    rw [hshaped.range.1] at hk hcover
    have hlarge : x.length ≤ k := by
      by_contra hsmall
      refine absurd (Range.covers_iff.2 ?_) (Bool.eq_false_iff.1 hcover)
      dsimp only
      omega
    rw [getElem?_append_right hlarge] at hb
    have hshift : i + k = i + x.length + (k - x.length) := by omega
    rw [hshift] at hk hcovers
    exact ih _ b hb hk hcovers
  | run =>
    intro k b _ hk
    exact absurd hk (by simp [lastStop])
  | unterminated =>
    intro k b hb _ hcovers
    have hlt := (List.getElem?_eq_some_iff.1 hb).1
    have := forall_mem_singleton.1 hcovers
    refine absurd (Range.covers_iff.2 ?_) (Bool.eq_false_iff.1 this)
    dsimp only [Item.range]
    omega

/-- Behind the last item stand blanks and a run of code that nothing ends. -/
theorem behind (h : Laid i t items) :
    ∃ z x, t.drop (lastStop i items - i) = z ++ x ∧ z.all isBlank ∧ Run x := by
  induction h with
  | @blank i b t items hb hrest ih =>
    obtain ⟨z, x, hdrop, hz, hx⟩ := ih
    cases items with
    | nil =>
      refine ⟨b :: z, x, ?_, by rw [all_cons, hb, hz]; rfl, hx⟩
      simp only [lastStop, getLast?_nil, Option.map_none, Option.getD_none, Nat.sub_self, drop_zero]
        at hdrop ⊢
      rw [hdrop, cons_append]
    | cons item items =>
      refine ⟨z, x, ?_, hz, hx⟩
      have hlast := (hrest.bounds _ (getLast_mem (cons_ne_nil item items))).1
      have hlast' := (hrest.bounds _ (getLast_mem (cons_ne_nil item items))).2.1
      have hstop : lastStop i (item :: items) = ((item :: items).getLast (cons_ne_nil _ _)).range.stop := by
        simp [lastStop, getLast?_eq_some_getLast]
      have hstop' : lastStop (i + 1) (item :: items) = lastStop i (item :: items) := by
        rw [lastStop_cons, lastStop_cons]
      rw [hstop'] at hdrop
      rw [← hdrop, show lastStop i (item :: items) - i = lastStop i (item :: items) -
        (i + 1) + 1 by omega, drop_succ_cons]
  | @item i x t item items hshaped hrest ih =>
    obtain ⟨z, y, hdrop, hz, hy⟩ := ih
    refine ⟨z, y, ?_, hz, hy⟩
    rw [lastStop_cons, hshaped.range.1]
    dsimp only
    rw [← hdrop]
    have hle : i + x.length ≤ lastStop (i + x.length) items := by
      cases hlast : items.getLast? with
      | none => simp [lastStop, hlast]
      | some last =>
        have := hrest.bounds last (mem_of_getLast? hlast)
        simp only [lastStop, hlast, Option.map_some, Option.getD_some]
        omega
    rw [show lastStop (i + x.length) items -
      i = x.length + (lastStop (i + x.length) items - (i + x.length)) by omega,
      drop_length_add_append]
  | @run i x hx => exact ⟨[], x, by simp [lastStop], rfl, hx⟩
  | unterminated => exact ⟨[], [], by simp [lastStop, Item.range], rfl, .nil⟩

/-- An item that is not terminated is the last, and reaches to the end. -/
theorem unterminated_last (h : Laid i t items) {start stop : Nat} (hitem : .unterminated start stop ∈ items) :
    items.getLast? = some (.unterminated start stop) ∧ stop = i + t.length := by
  induction h with
  | blank _ _ ih =>
    obtain ⟨hlast, hstop⟩ := ih hitem
    exact ⟨hlast, by rw [hstop, length_cons]; omega⟩
  | @item i x t item items hshaped _ ih =>
    rcases mem_cons.1 hitem with rfl | hitem
    · cases hshaped
    · obtain ⟨hlast, hstop⟩ := ih hitem
      refine ⟨?_, by rw [hstop, length_append]; omega⟩
      rw [getLast?_cons, hlast]
      rfl
  | run => cases hitem
  | unterminated =>
    cases mem_singleton.1 hitem
    exact ⟨rfl, rfl⟩

end Laid

end Item

namespace Text

open Item

/-- **The items of a text divide it.** Every item covers something, lies in the text and ends before the
next begins. What stands before the end of the last item and in no item is blank, and behind it stand
blanks and at most one run of code that nothing ends. A statement ends in `;`. A block has its braces
where its body begins and ends, and they match; its header ends at the first. An item that is not
terminated is the last and reaches to the end of the text. -/
theorem items_divide (t : Text) :
    (∀ item ∈ t.items, item.range.start < item.range.stop ∧ item.range.stop ≤ t.length) ∧
      t.items.Pairwise (fun a b => a.range.start < b.range.start ∧ a.range.stop ≤ b.range.start) ∧
      (∀ (k : Nat) b, t[k]? = some b → k < lastStop 0 t.items →
        (∀ item ∈ t.items, item.range.covers k = false) → isBlank b) ∧
      (∃ z x, t.drop (lastStop 0 t.items) = z ++ x ∧ z.all isBlank ∧ Run x) ∧
      (∀ start semicolon, .statement start semicolon ∈ t.items → t[semicolon]? = some 59) ∧
      (∀ item ∈ t.items, ∀ body ∈ item.body?, item.range.start < body.start ∧
        item.header = ⟨item.range.start, body.start - 1⟩ ∧ t[body.start - 1]? = some 123 ∧
          t[body.stop]? = some 125 ∧
        t.matching? (body.start - 1) = some body.stop ∧ body.stop < item.range.stop) ∧
      ∀ start stop, .unterminated start stop ∈ t.items →
        t.items.getLast? = some (.unterminated start stop) ∧ stop = t.length := by
  have h := laid_items t
  have hmarked : ∀ item ∈ t.items, item.Marked ([] ++ t) := h.marked rfl
  refine ⟨fun item hitem => ?_, h.pairwise, ?_, h.behind, ?_, ?_, ?_⟩
  · have := h.bounds item hitem
    omega
  · intro k b hb hk hcovers
    exact h.gaps k b hb (by rwa [Nat.zero_add]) (by rwa [Nat.zero_add])
  · exact fun start semicolon hitem => hmarked _ hitem
  · intro item hitem body hbody
    cases item with
    | block start opened closed stop =>
      cases hbody
      obtain ⟨hstart, hopen, hclose, hmatch, hstop, -⟩ := hmarked _ hitem
      exact ⟨Nat.lt_succ_of_le hstart, rfl, hopen, hclose, hmatch, hstop⟩
    | _ => cases hbody
  · intro start stop hitem
    have := h.unterminated_last hitem
    rwa [Nat.zero_add] at this

end Text

end GlslToMetal
