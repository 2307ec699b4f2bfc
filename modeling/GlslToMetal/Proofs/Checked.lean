import GlslToMetal.Text.Basic
import Mathlib.Data.List.Forall2

/-! Computations that may fail. What a computation returns is told with a property of it, step by step
along its binds, and a computation over a list is told by what it does to each element. -/

namespace GlslToMetal

open List

theorem exists_getElem?_right {α β : Type} {R : α → β → Prop} {xs : List α} {ys : List β}
    (h : List.Forall₂ R xs ys) {i : Nat} {x : α} (hx : xs[i]? = some x) :
    ∃ y, ys[i]? = some y ∧ R x y := by
  obtain ⟨hi, rfl⟩ := List.getElem?_eq_some_iff.mp hx
  have hi' : i < ys.length := h.length_eq ▸ hi
  exact ⟨ys[i], List.getElem?_eq_getElem hi', h.get hi hi'⟩

theorem exists_of_mem_left {α β : Type} {R : α → β → Prop} {xs : List α} {ys : List β}
    (h : List.Forall₂ R xs ys) {x : α} (hx : x ∈ xs) : ∃ y ∈ ys, R x y := by
  obtain ⟨i, hi⟩ := List.mem_iff_getElem?.mp hx
  obtain ⟨y, hy, hxy⟩ := exists_getElem?_right h hi
  exact ⟨y, List.mem_of_getElem? hy, hxy⟩

theorem exists_of_mem_right {α β : Type} {R : α → β → Prop} {xs : List α} {ys : List β}
    (h : List.Forall₂ R xs ys) {y : β} (hy : y ∈ ys) : ∃ x ∈ xs, R x y :=
  exists_of_mem_left h.flip hy

theorem forall₂_filter {α β : Type} {R : α → β → Prop} {p : α → Bool} {q : β → Bool} {xs : List α}
    {ys : List β}
    (h : List.Forall₂ R xs ys) (hpq : ∀ {x y}, R x y → q y = p x) :
    List.Forall₂ R (xs.filter p) (ys.filter q) :=
  rel_filter (R := R) (p := p) (q := q) (fun _ _ hxy => iff_of_eq (congrArg (· = true) (hpq hxy).symm)) h

/-- The ends of the range are in order and not beyond `n`. -/
def Range.Within (n : Nat) (r : Range) : Prop := r.start ≤ r.stop ∧ r.stop ≤ n

namespace Checked

variable {α β : Type} {P : α → Prop} {Q : β → Prop}

/-- The computation does not fail, and what it gives has the property. -/
def Returns (x : Checked α) (P : α → Prop) : Prop := ∃ a, x = .ok a ∧ P a

theorem returns_pure {a : α} (h : P a) : Returns (pure a) P := ⟨a, rfl, h⟩

theorem Returns.bind {x : Checked α} {f : α → Checked β} (h : x.Returns P)
    (hf : ∀ a, P a → (f a).Returns Q) : (x >>= f).Returns Q := by
  obtain ⟨a, rfl, ha⟩ := h
  exact hf a ha

theorem Returns.mono {x : Checked α} {R : α → Prop} (h : x.Returns P) (hR : ∀ a, P a → R a) :
    x.Returns R := by
  obtain ⟨a, hx, ha⟩ := h
  exact ⟨a, hx, hR a ha⟩

theorem eq_ok_of_mem {ε α : Type} {x : Except ε α} {a : α} (h : a ∈ x.toOption) : x = .ok a := by
  cases x with
  | error => cases h
  | ok => exact congrArg Except.ok (Option.some.inj h)

theorem returns_mapM {f : α → Checked β} {xs : List α} (h : ∀ x ∈ xs, (f x).Returns Q) :
    (xs.mapM f).Returns fun ys => ∀ y ∈ ys, Q y := by
  induction xs with
  | nil => exact ⟨[], rfl, by simp⟩
  | cons x xs ih =>
    rw [mapM_cons]
    refine (h x mem_cons_self).bind fun y hy => ?_
    refine (ih fun x hx => h x (mem_cons_of_mem _ hx)).bind fun ys hys => ?_
    exact returns_pure (forall_mem_cons.mpr ⟨hy, hys⟩)

theorem exists_of_bind {ε α β : Type} {x : Except ε α} {f : α → Except ε β} {b : β} (h : x >>= f = .ok b) :
    ∃ a, x = .ok a ∧ f a = .ok b := by
  cases x with
  | error => cases h
  | ok a => exact ⟨a, rfl, h⟩

theorem exists_of_map {ε α β : Type} {x : Except ε α} {f : α → β} {b : β} (h : x.map f = .ok b) :
    ∃ a, x = .ok a ∧ f a = b := by
  cases x with
  | error => cases h
  | ok a => exact ⟨a, rfl, Except.ok.inj h⟩

theorem forall₂_of_mapM {α β : Type} {f : α → Checked β} {xs : List α} {ys : List β}
    (h : xs.mapM f = .ok ys) : List.Forall₂ (fun x y => f x = .ok y) xs ys := by
  induction xs generalizing ys with
  | nil =>
    cases h
    exact .nil
  | cons x xs ih =>
    rw [mapM_cons] at h
    obtain ⟨y, hx, h⟩ := exists_of_bind h
    obtain ⟨ys, hxs, h⟩ := exists_of_bind h
    cases h
    exact .cons hx (ih hxs)

theorem exists_of_mem_mapM {α β : Type} {f : α → Checked β} {xs : List α} {ys : List β}
    (h : xs.mapM f = .ok ys) {y : β} (hy : y ∈ ys) : ∃ x ∈ xs, f x = .ok y :=
  exists_of_mem_right (forall₂_of_mapM h) hy

/-- What is kept of each result that is there is a part of what the results are computed from. -/
theorem sublist_of_mapM {γ : Type} {f : α → Checked (Option β)} {xs : List α} {ys : List (Option β)}
    (h : xs.mapM f = .ok ys) {g : α → γ} {g' : β → γ} (hg : ∀ x y, f x = .ok (some y) → g' y = g x) :
    (ys.filterMap id).map g' <+ xs.map g := by
  have hall := forall₂_of_mapM h
  clear h
  induction hall with
  | nil => exact .slnil
  | @cons x y? xs ys hxy _ ih =>
    cases y? with
    | none => exact ih.cons _
    | some y =>
      rw [map_cons, ← hg x y hxy]
      exact ih.cons_cons (g' y)

end Checked

end GlslToMetal
