import GlslToMetal.Ambient.Overload

/-! Overloads. A call means an accepting overload with most values threaded, if any accepts it. The
overloads of a program are the pairs of a name and an arity that it declares, and threading a value
changes nothing but the values of some of them. -/

namespace GlslToMetal.Overloads

open List

variable {id n : Nat} {o : Overloads}

/-! Which overload a call means. -/

section Resolution

variable (name : Text) (args : List Text)

/-- Looks at one more overload. -/
def better (best : Option (Nat × Nat)) (x : Overload × Nat) : Option (Nat × Nat) :=
  if accepts x.1 name args && (best.all fun (n, _) => n ≤ x.1.threaded.length) then
    some (x.1.threaded.length, x.2)
  else best

theorem resolve?_eq (o : Overloads) :
    o.resolve? name args = (o.table.zipIdx.foldl (better name args) none).map Prod.snd := rfl

variable {name args}

theorem better_origin {best : Option (Nat × Nat)} {x : Overload × Nat}
    (h : better name args best x = some (n, id)) :
    best = some (n, id) ∨ (accepts x.1 name args ∧ x.1.threaded.length = n ∧ x.2 = id) := by
  unfold better at h
  split at h
  · next hcond =>
    rw [Bool.and_eq_true] at hcond
    cases h
    exact .inr ⟨hcond.1, rfl, rfl⟩
  · exact .inl h

theorem better_mono {best : Option (Nat × Nat)} (h : best = some (n, id))
    (x : Overload × Nat) : ∃ m id', better name args best x = some (m, id') ∧ n ≤ m := by
  subst h
  unfold better
  split
  · next hcond =>
    rw [Bool.and_eq_true] at hcond
    exact ⟨_, _, rfl, by simpa using hcond.2⟩
  · exact ⟨n, id, rfl, Nat.le_refl n⟩

theorem better_accepts (best : Option (Nat × Nat)) {x : Overload × Nat}
    (hx : accepts x.1 name args) :
    ∃ m id, better name args best x = some (m, id) ∧ x.1.threaded.length ≤ m := by
  unfold better
  split
  · exact ⟨_, _, rfl, Nat.le_refl _⟩
  · next hcond =>
    cases best with
    | none => simp [hx] at hcond
    | some b =>
      simp only [hx, Option.all_some, Bool.true_and, decide_eq_true_eq, Nat.not_le] at hcond
      exact ⟨b.1, b.2, rfl, Nat.le_of_lt hcond⟩

theorem foldl_better_origin {xs : List (Overload × Nat)} {best : Option (Nat × Nat)}
    (h : xs.foldl (better name args) best = some (n, id)) :
    best = some (n, id) ∨ ∃ v, (v, id) ∈ xs ∧ accepts v name args ∧ v.threaded.length = n := by
  induction xs generalizing best with
  | nil => exact .inl h
  | cons x xs ih =>
    rcases ih h with hbest | ⟨v, hv, hrest⟩
    · rcases better_origin hbest with hbest | ⟨hx, hn, rfl⟩
      · exact .inl hbest
      · exact .inr ⟨x.1, mem_cons_self, hx, hn⟩
    · exact .inr ⟨v, mem_cons_of_mem x hv, hrest⟩

theorem foldl_better_mono {best : Option (Nat × Nat)} (h : best = some (n, id))
    (xs : List (Overload × Nat)) :
    ∃ m id', xs.foldl (better name args) best = some (m, id') ∧ n ≤ m := by
  induction xs generalizing best n id with
  | nil => exact ⟨n, id, h, Nat.le_refl n⟩
  | cons x xs ih =>
    obtain ⟨m, id', hbest, hle⟩ := better_mono h x
    obtain ⟨m', id'', hfold, hle'⟩ := ih hbest
    exact ⟨m', id'', hfold, Nat.le_trans hle hle'⟩

theorem foldl_better_accepts {xs : List (Overload × Nat)} {x : Overload × Nat} (hx : x ∈ xs)
    (haccepts : accepts x.1 name args) (best : Option (Nat × Nat)) :
    ∃ m id, xs.foldl (better name args) best = some (m, id) ∧ x.1.threaded.length ≤ m := by
  induction xs generalizing best with
  | nil => cases hx
  | cons y xs ih =>
    rcases mem_cons.mp hx with rfl | hx
    · obtain ⟨m, id, hbest, hle⟩ := better_accepts best haccepts
      obtain ⟨m', id', hfold, hle'⟩ := foldl_better_mono hbest xs
      exact ⟨m', id', hfold, Nat.le_trans hle hle'⟩
    · exact ih hx _

/-- **What a call means accepts it**, and no other accepting overload has more values threaded. -/
theorem resolve?_spec (h : o.resolve? name args = some id) :
    ∃ v, o.table[id]? = some v ∧ accepts v name args ∧
      ∀ w ∈ o.table, accepts w name args → w.threaded.length ≤ v.threaded.length := by
  rw [resolve?_eq, Option.map_eq_some_iff] at h
  obtain ⟨⟨n, id'⟩, hfold, rfl⟩ := h
  rcases foldl_better_origin hfold with hnone | ⟨v, hv, haccepts, rfl⟩
  · cases hnone
  · refine ⟨v, mk_mem_zipIdx_iff_getElem?.mp hv, haccepts, ?_⟩
    intro w hw hw'
    obtain ⟨j, hj, rfl⟩ := getElem_of_mem hw
    have hmem : (o.table[j], j) ∈ o.table.zipIdx :=
      mk_mem_zipIdx_iff_getElem?.mpr (getElem?_eq_getElem hj)
    obtain ⟨m, id'', hfold', hle⟩ := foldl_better_accepts hmem hw' none
    rw [hfold] at hfold'
    cases hfold'
    exact hle

theorem resolve?_isSome {v : Overload} (hv : v ∈ o.table)
    (h : accepts v name args) : ∃ id, o.resolve? name args = some id := by
  obtain ⟨j, hj, rfl⟩ := getElem_of_mem hv
  have hmem : (o.table[j], j) ∈ o.table.zipIdx :=
    mk_mem_zipIdx_iff_getElem?.mpr (getElem?_eq_getElem hj)
  obtain ⟨m, id, hfold, -⟩ := foldl_better_accepts hmem h none
  exact ⟨id, by rw [resolve?_eq, hfold]; rfl⟩

/-- The overloads of a table have different names or arities. -/
def Distinct (o : Overloads) : Prop :=
  o.table.Pairwise fun v w => v.name = w.name → v.arity ≠ w.arity

theorem Distinct.eq (h : o.Distinct) {id' : Nat} {v v' : Overload}
    (hv : o.table[id]? = some v) (hv' : o.table[id']? = some v') (hname : v.name = v'.name)
    (harity : v.arity = v'.arity) : id = id' := by
  obtain ⟨hlt, rfl⟩ := List.getElem?_eq_some_iff.mp hv
  obtain ⟨hlt', rfl⟩ := List.getElem?_eq_some_iff.mp hv'
  unfold Distinct at h
  rw [pairwise_iff_getElem] at h
  rcases Nat.lt_trichotomy id id' with hid | hid | hid
  · exact absurd harity (h id id' hlt hlt' hid hname)
  · exact hid
  · exact absurd harity.symm (h id' id hlt' hlt hid hname.symm)

theorem Distinct.of_table {o' : Overloads} (h : o.Distinct)
    (htable : ∀ {id : Nat} {w : Overload}, o'.table[id]? = some w →
      ∃ v, o.table[id]? = some v ∧ w.name = v.name ∧ w.arity = v.arity) : o'.Distinct := by
  unfold Distinct
  rw [pairwise_iff_getElem]
  intro i j hi hj hij hname harity
  obtain ⟨v, hv, hvname, hvarity⟩ := htable (getElem?_eq_getElem hi)
  obtain ⟨w, hw, hwname, hwarity⟩ := htable (getElem?_eq_getElem hj)
  have := h.eq hv hw (hvname.symm.trans (hname.trans hwname)) (hvarity.symm.trans (harity.trans hwarity))
  omega

/-- **A call means the accepting overload with fewest parameters**: an overload that accepts a call has
the more values threaded, the fewer parameters it was declared with. -/
theorem Distinct.resolve? (h : o.Distinct) {v : Overload}
    (hv : o.table[id]? = some v) (haccepts : accepts v name args)
    (hleast : ∀ w ∈ o.table, accepts w name args → v.arity ≤ w.arity) :
    o.resolve? name args = some id := by
  obtain ⟨id', hid'⟩ := resolve?_isSome (mem_of_getElem? hv) haccepts
  obtain ⟨w, hw, haccepts', hmost⟩ := resolve?_spec hid'
  have hle := hleast w (mem_of_getElem? hw) haccepts'
  have hle' := hmost v (mem_of_getElem? hv) haccepts
  simp only [accepts, Bool.and_eq_true, beq_iff_eq] at haccepts haccepts'
  rw [hid', h.eq hw hv (haccepts'.1.1.trans haccepts.1.1.symm) (by omega)]

end Resolution

/-- The overload of a name with a number of parameters. -/
def find? (o : Overloads) (name : Text) (arity : Nat) : Option Nat :=
  o.table.findIdx? fun v => v.name == name && v.arity == arity

theorem Distinct.find?_eq_some_iff (h : o.Distinct) {name : Text} {arity : Nat} :
    o.find? name arity = some id ↔ ∃ v, o.table[id]? = some v ∧ v.name = name ∧ v.arity = arity := by
  unfold find?
  constructor
  · intro hfind
    obtain ⟨hlt, hsame, -⟩ := findIdx?_eq_some_iff_getElem.mp hfind
    simp only [Bool.and_eq_true, beq_iff_eq] at hsame
    exact ⟨_, getElem?_eq_getElem hlt, hsame⟩
  · rintro ⟨v, hv, rfl, rfl⟩
    cases hfind : o.table.findIdx? fun w => w.name == v.name && w.arity == v.arity with
    | none =>
      have := findIdx?_eq_none_iff.mp hfind v (mem_of_getElem? hv)
      simp at this
    | some id' =>
      obtain ⟨hlt, hsame, -⟩ := findIdx?_eq_some_iff_getElem.mp hfind
      simp only [Bool.and_eq_true, beq_iff_eq] at hsame
      rw [h.eq (getElem?_eq_getElem hlt) hv hsame.1 hsame.2]

/-! Threading changes the values of some overloads. -/

theorem getElem?_thread (o : Overloads) (ids : List Nat) (ambient : Text) (id : Nat) :
    (o.thread ids ambient).table[id]? = o.table[id]?.map fun v =>
      if ids.contains id then { v with threaded := v.threaded ++ [ambient] } else v := by
  unfold thread
  rw [getElem?_map, getElem?_zipIdx, Option.map_map, Nat.zero_add]
  rfl

/-- The overloads of some functions, before anything is threaded. -/
structure Covers (o : Overloads) (functions : List Signature) : Prop where
  length : o.ofFunction.length = functions.length
  entered : ∀ {i : Nat} {f : Signature}, functions[i]? = some f →
    ∃ id, o.ofFunction[i]? = some id ∧ o.table[id]? = some (Overload.mk f.name f.arity [])
  distinct : o.Distinct
  origin : ∀ v ∈ o.table, v.threaded = [] ∧ ∃ f ∈ functions, f.name = v.name ∧ f.arity = v.arity

theorem getElem?_concat_eq_some {α : Type} {xs : List α} {x y : α} {i : Nat}
    (h : (xs ++ [x])[i]? = some y) : xs[i]? = some y ∨ (i = xs.length ∧ x = y) := by
  by_cases hi : i < xs.length
  · rw [getElem?_append_left hi] at h
    exact .inl h
  · rw [getElem?_append_right (Nat.le_of_not_lt hi)] at h
    obtain ⟨hlt, heq⟩ := List.getElem?_eq_some_iff.mp h
    simp only [length_singleton] at hlt
    exact .inr ⟨by omega, by simpa using heq⟩

theorem Covers.enter {functions : List Signature} (h : o.Covers functions)
    (f : Signature) : (o.enter f).Covers (functions ++ [f]) := by
  have horigin : ∀ v ∈ o.table, v.threaded = [] ∧ ∃ g ∈ functions ++ [f], g.name = v.name ∧
      g.arity = v.arity := by
    intro v hv
    obtain ⟨hthreaded, g, hg, hname⟩ := h.origin v hv
    exact ⟨hthreaded, g, mem_append_left _ hg, hname⟩
  have hentered : ∀ {i : Nat} {g : Signature} (id : Nat) (ids : List Nat) (table : List Overload),
      functions[i]? = some g → o.ofFunction[i]? = some id →
      o.table[id]? = some (Overload.mk g.name g.arity []) →
      (o.ofFunction ++ ids)[i]? = some id ∧
        (o.table ++ table)[id]? = some (Overload.mk g.name g.arity []) := by
    intro i g id ids table _ hid htable
    constructor
    · rw [List.getElem?_append_left (List.getElem?_eq_some_iff.mp hid).1, hid]
    · rw [List.getElem?_append_left (List.getElem?_eq_some_iff.mp htable).1, htable]
  unfold Overloads.enter
  split
  · next id hfind =>
    obtain ⟨hlt, hsame, -⟩ := findIdx?_eq_some_iff_getElem.mp hfind
    rw [Bool.and_eq_true, beq_iff_eq, beq_iff_eq] at hsame
    refine ⟨by simp [h.length], ?_, h.distinct, horigin⟩
    intro i g hg
    rcases getElem?_concat_eq_some hg with hg | ⟨rfl, rfl⟩
    · obtain ⟨id', hid, htable⟩ := h.entered hg
      have := hentered id' [id] [] hg hid htable
      rw [append_nil] at this
      exact ⟨id', this⟩
    · refine ⟨id, by rw [← h.length]; simp, ?_⟩
      rw [getElem?_eq_getElem hlt, ← hsame.1, ← hsame.2, ← (h.origin _ (getElem_mem hlt)).1]
  · next hfind =>
    rw [findIdx?_eq_none_iff] at hfind
    refine ⟨by simp [h.length], ?_, ?_, ?_⟩
    · intro i g hg
      rcases getElem?_concat_eq_some hg with hg | ⟨rfl, rfl⟩
      · obtain ⟨id', hid, htable⟩ := h.entered hg
        exact ⟨id', hentered id' _ _ hg hid htable⟩
      · exact ⟨o.table.length, by rw [← h.length]; simp, by simp⟩
    · refine pairwise_append.mpr ⟨h.distinct, pairwise_singleton _ _, ?_⟩
      intro v hv w hw hname harity
      rw [mem_singleton] at hw
      subst hw
      have := hfind v hv
      rw [hname, harity] at this
      simp at this
    · intro v hv
      rcases mem_append.mp hv with hv | hv
      · exact horigin v hv
      · rw [mem_singleton] at hv
        subst hv
        exact ⟨rfl, f, by simp, rfl, rfl⟩

theorem covers_collect (functions : List Signature) : (collect functions).Covers functions := by
  have hfold : ∀ (functions entered : List Signature) (o : Overloads), o.Covers entered →
      (functions.foldl enter o).Covers (entered ++ functions) := by
    intro functions
    induction functions with
    | nil =>
      intro entered o h
      rwa [append_nil]
    | cons f functions ih =>
      intro entered o h
      have := ih _ _ (h.enter f)
      rwa [append_assoc] at this
  exact hfold functions [] ⟨[], []⟩ ⟨rfl, by simp, .nil, by simp⟩

end GlslToMetal.Overloads
