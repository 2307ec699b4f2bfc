import GlslToMetal.Proofs.Ambient.Growth

/-! What overloads and calls are given along a run. Every overload has been given a list of values,
and its declarations have gained one parameter for each of them, in that order. A call that cannot be
taken for a call of another overload passes the values that its own has been given. -/

namespace GlslToMetal

open List Text Nest

variable {a : Ambient} {ambients values : List Ambient} {args args' : List Text} {id : Nat}
  {σ σ₀ : Phase} {n : Text}

/-- Values that can be threaded and told apart by their names. -/
structure Ambient.Family (ambients : List Ambient) : Prop where
  proper : ∀ a ∈ ambients, a.Proper
  distinct : ∀ a ∈ ambients, ∀ b ∈ ambients, a.name = b.name → a = b

theorem Ambient.family_all : Family all := ⟨fun _ => proper_of_mem, by decide⟩

namespace Threading.Phase

/-- The values that each overload has been given since the first phase. -/
structure Given (ambients : List Ambient) (σ₀ σ : Phase) (given : Nat → List Ambient) : Prop where
  valid : σ.Valid
  nodup : ∀ id : Nat, (given id).Nodup
  subset : ∀ id : Nat, ∀ a ∈ given id, a ∈ ambients
  ofFunction : σ.overloads.ofFunction = σ₀.overloads.ofFunction
  table : ∀ id : Nat, σ.overloads.table[id]? = σ₀.overloads.table[id]?.map fun v =>
    { v with threaded := (given id).map (·.name) }
  length : σ.routines.length = σ₀.routines.length
  routines : ∀ {i id : Nat} {r₀ : Routine}, σ₀.routines[i]? = some r₀ →
    σ₀.overloads.ofFunction[i]? = some id → ∃ r, σ.routines[i]? = some r ∧ r₀.Grown r (given id)

/-- The values given once one more value is threaded. -/
def give (σ : Phase) (a : Ambient) (given : Nat → List Ambient) (id : Nat) : List Ambient :=
  if (σ.users a).contains id then given id ++ [a] else given id

section Step

variable {ambients : List Ambient} (hambients : Ambient.Family ambients) {σ₀ σ : Phase}
  (hfree : ∀ r ∈ σ₀.routines, ∀ a ∈ ambients, r.hasParam a.name = false)
  {given : Nat → List Ambient} (h : Given ambients σ₀ σ given)
include hambients hfree h

/-- A routine has a parameter for a value if its overload has been given the value. -/
theorem Given.hasParam_iff {i : Nat} {r : Routine} (hr : σ.routines[i]? = some r)
    (hid : σ₀.overloads.ofFunction[i]? = some id) (ha : a ∈ ambients) :
    r.hasParam a.name ↔ a ∈ given id := by
  have hlt : i < σ₀.routines.length := h.length ▸ (List.getElem?_eq_some_iff.mp hr).1
  obtain ⟨r₀, hr₀⟩ : ∃ r₀, σ₀.routines[i]? = some r₀ := ⟨_, getElem?_eq_getElem hlt⟩
  obtain ⟨r', hr', hgrown⟩ := h.routines hr₀ hid
  rw [hr] at hr'
  cases hr'
  have hnone := hfree r₀ (mem_of_getElem? hr₀) a ha
  unfold Routine.hasParam at hnone ⊢
  rw [hgrown.params, any_append, hnone, Bool.false_or, any_map, any_eq_true]
  constructor
  · rintro ⟨b, hb, hname⟩
    have : b.name = a.name := by simpa [Ambient.parameter] using hname
    rwa [hambients.distinct a ha b (h.subset id b hb) this.symm]
  · intro hmem
    exact ⟨a, hmem, by simp [Ambient.parameter]⟩

theorem Given.not_mem_of_users (ha : a ∈ ambients) (hid : id ∈ σ.users a) : a ∉ given id := by
  obtain ⟨i, hwants, hi⟩ := mem_users.mp hid
  obtain ⟨-, r, hr, hlacks⟩ := Routine.wants_iff.mp hwants
  rw [h.ofFunction] at hi
  rw [← h.hasParam_iff hambients hfree hr hi ha]
  unfold Routine.lacks at hlacks
  simp only [Bool.and_eq_true, Bool.not_eq_true'] at hlacks
  simp [hlacks.1]

theorem Given.thread (ha : a ∈ ambients) : Given ambients σ₀ (σ.thread a) (σ.give a given) where
  valid := h.valid.thread (hambients.proper a ha)
  nodup := by
    intro id
    unfold give
    split
    · next huser =>
      refine nodup_append.mpr ⟨h.nodup id, pairwise_singleton _ _, ?_⟩
      intro b hb c hc
      rw [mem_singleton] at hc
      rintro rfl
      exact h.not_mem_of_users hambients hfree ha (contains_iff_mem.mp huser) (hc ▸ hb)
    · exact h.nodup id
  subset := by
    intro id b hb
    unfold give at hb
    split at hb
    · rcases mem_append.mp hb with hb | hb
      · exact h.subset id b hb
      · rwa [mem_singleton.mp hb]
    · exact h.subset id b hb
  ofFunction := h.ofFunction
  table := by
    intro id
    have hthread := Overloads.getElem?_thread σ.overloads (σ.users a) a.name id
    unfold Phase.thread give
    rw [hthread, h.table, Option.map_map]
    congr 1
    funext v
    dsimp only [Function.comp_apply]
    split <;> simp
  length := by
    rw [← h.length, h.valid.routines_thread (hambients.proper a ha), length_zipWith,
      h.valid.length_gains, Nat.min_self]
  routines := by
    intro i id r₀ hr₀ hid
    obtain ⟨r, hr, hgrown⟩ := h.routines hr₀ hid
    refine ⟨_, h.valid.getElem?_routines_thread (hambients.proper a ha) hr (h.ofFunction ▸ hid), ?_⟩
    have hgains : ((σ.users a).contains id && !r.hasParam a.name) = (σ.users a).contains id := by
      by_cases huser : (σ.users a).contains id
      · have hnot : r.hasParam a.name = false := by
          rw [Bool.eq_false_iff, Ne, h.hasParam_iff hambients hfree hr hid ha]
          exact h.not_mem_of_users hambients hfree ha (contains_iff_mem.mp huser)
        rw [hnot, Bool.not_false, Bool.and_true]
      · rw [Bool.not_eq_true] at huser
        rw [huser, Bool.false_and]
    rw [hgains]
    exact hgrown.thread (σ.meant a) a _

end Step

/-! Calls. -/

/-- A call since the first phase: its arguments may have changed, and values are appended. -/
def Extended (c₀ c : Text × List Text) (values : List Ambient) : Prop :=
  c.1 = c₀.1 ∧ ∃ args, List.Forall₂ Evolved c₀.2 args ∧ c.2 = args ++ values.map (·.name)

theorem Extended.length (h : Extended (n, args) (n, args') values) :
    args'.length = args.length + values.length := by
  obtain ⟨-, old, hold, hargs⟩ := h
  dsimp only at hold hargs
  rw [hargs, hold.length_eq, length_append, length_map]

theorem Extended.drop (h : Extended (n, args) (n, args') values) :
    args'.drop args.length = values.map (·.name) := by
  obtain ⟨-, old, hold, hargs⟩ := h
  dsimp only at hold hargs
  rw [hargs, hold.length_eq, drop_left]

theorem evolved_trans (s t u : Text) (h : Evolved s t) (h' : Evolved t u) : Evolved s u := by
  unfold Evolved at *
  grind

theorem eq_of_forall₂_evolved {xs ys : List Text} (h : List.Forall₂ Evolved xs ys)
    (hwords : ∀ x ∈ xs, x.IsWord) : ys = xs := by
  induction h with
  | nil => rfl
  | cons hxy _ ih =>
    rw [ih fun x hx => hwords x (mem_cons_of_mem _ hx)]
    rcases hxy with rfl | ⟨hmem, -⟩
    · rfl
    · exact absurd hmem ((hwords _ mem_cons_self).not_mem rfl)

theorem Extended.step {c₀ c c' : Text × List Text}
    (h : Extended c₀ c values) (hwords : ∀ b ∈ values, b.name.IsWord)
    {meant : Text → List Text → Bool} (hcalled : Called meant a.name c c') :
    Extended c₀ c' (if meant c.1 c.2 then values ++ [a] else values) := by
  obtain ⟨hname, args, hargs, hc⟩ := h
  obtain ⟨hname', args', hargs', hc'⟩ := hcalled
  rw [hc] at hargs'
  have hfront := forall₂_take args.length hargs'
  have hbehind := forall₂_drop args.length hargs'
  rw [take_left] at hfront
  rw [drop_left] at hbehind
  have hsame := eq_of_forall₂_evolved hbehind (by
    intro x hx
    obtain ⟨b, hb, rfl⟩ := mem_map.mp hx
    exact hwords b hb)
  have hsplit := take_append_drop args.length args'
  rw [hsame] at hsplit
  generalize args'.take args.length = front at hfront hsplit
  refine ⟨hname'.trans hname, front, forall₂_comp evolved_trans hargs hfront, ?_⟩
  rw [hc', ← hsplit]
  split <;> simp

/-- A call that cannot be taken for a call of an overload with fewer parameters: not all further
arguments are names of values. -/
def Unmistakable (ambients : List Ambient) (σ₀ : Phase) (c : Text × List Text) : Prop :=
  ∀ v ∈ σ₀.overloads.table, v.name = c.1 → v.arity < c.2.length →
    ∃ x ∈ c.2.drop v.arity, ∀ a ∈ ambients, x ≠ a.name

theorem Given.distinct {given : Nat → List Ambient}
    (h : Given ambients σ₀ σ given) (hdistinct : σ₀.overloads.Distinct) : σ.overloads.Distinct := by
  refine hdistinct.of_table ?_
  intro id w hw
  rw [h.table, Option.map_eq_some_iff] at hw
  obtain ⟨v, hv, rfl⟩ := hw
  exact ⟨v, hv, rfl, rfl⟩

/-- **A call that cannot be mistaken means the overload it was written for.** -/
theorem Given.resolve? (hambients : Ambient.Family ambients)
    {given : Nat → List Ambient} (h : Given ambients σ₀ σ given) (hdistinct : σ₀.overloads.Distinct)
    {c₀ c : Text × List Text} (hc₀ : Unmistakable ambients σ₀ c₀) {v : Overload}
    (hv : σ₀.overloads.table[id]? = some v) (hname : v.name = c₀.1) (harity : v.arity = c₀.2.length)
    (hc : Extended c₀ c (given id)) : σ.overloads.resolve? c.1 c.2 = some id := by
  obtain ⟨hsame, args, hargs, hlist⟩ := hc
  have hlen : args.length = v.arity := by rw [harity, hargs.length_eq]
  have hnow : σ.overloads.table[id]? = some { v with threaded := (given id).map (·.name) } := by
    rw [h.table, hv]
    rfl
  refine (h.distinct hdistinct).resolve? hnow ?_ ?_
  · simp [Overloads.accepts, hname, hsame, hlist, ← hlen]
  · intro w hw haccepts
    obtain ⟨id', hid'⟩ := mem_iff_getElem?.mp hw
    rw [h.table, Option.map_eq_some_iff] at hid'
    obtain ⟨w, hw', rfl⟩ := hid'
    simp only [Overloads.accepts, Bool.and_eq_true, beq_iff_eq] at haccepts
    obtain ⟨⟨hname', -⟩, hdrop⟩ := haccepts
    by_contra hlt
    rw [Nat.not_le] at hlt
    -- All arguments behind the shorter list would be names of values.
    obtain ⟨x, hx, hnot⟩ := hc₀ w (mem_of_getElem? hw') (hname'.trans hsame) (harity ▸ hlt)
    obtain ⟨y, hy, hxy⟩ := exists_of_mem_left (forall₂_drop w.arity hargs) hx
    have hmem : y ∈ c.2.drop w.arity := by
      rw [hlist, drop_append]
      exact mem_append_left _ hy
    rw [hdrop] at hmem
    obtain ⟨a, ha, rfl⟩ := mem_map.mp hmem
    have ha' := h.subset id' a ha
    rcases hxy with rfl | ⟨-, hparen⟩
    · exact hnot a ha' rfl
    · exact (hambients.proper a ha').word.not_mem rfl hparen

/-- A call before and after it has gained some values: if it cannot be mistaken, those that its
overload has been given. -/
structure CallGains (ambients : List Ambient) (σ₀ : Phase) (given : Nat → List Ambient)
    (c₀ c : Text × List Text) (values : List Ambient) : Prop where
  extended : Extended c₀ c values
  subset : ∀ b ∈ values, b ∈ ambients
  agreed : Unmistakable ambients σ₀ c₀ → ∀ {id : Nat} {v : Overload},
    σ₀.overloads.table[id]? = some v → v.name = c₀.1 → v.arity = c₀.2.length → values = given id

theorem callGains_nil (ambients : List Ambient) (σ₀ : Phase) (c : Text × List Text) :
    CallGains ambients σ₀ (fun _ => []) c c [] where
  extended := ⟨rfl, c.2, forall₂_same.mpr fun _ _ => .inl rfl, by simp⟩
  subset := by simp
  agreed := by
    intros
    rfl

theorem given_initial (ambients : List Ambient) (h : σ₀.Valid)
    (hnone : ∀ v ∈ σ₀.overloads.table, v.threaded = []) : Given ambients σ₀ σ₀ fun _ => [] where
  valid := h
  nodup := fun _ => .nil
  subset := by simp
  ofFunction := rfl
  table := by
    intro id
    cases hv : σ₀.overloads.table[id]? with
    | none => rfl
    | some v =>
      have := hnone v (mem_of_getElem? hv)
      rw [Option.map_some, map_nil, ← this]
  length := rfl
  routines := by
    intro i id r₀ hr₀ _
    exact ⟨r₀, hr₀, .refl r₀⟩

section Step

variable {ambients : List Ambient} (hambients : Ambient.Family ambients) {σ₀ σ : Phase}
  (hdistinct : σ₀.overloads.Distinct) {given : Nat → List Ambient}
include hambients hdistinct

/-- A call that cannot be mistaken passes a value if its overload is given the value. -/
theorem Given.meant_eq (h : Given ambients σ₀ σ given) {c₀ c : Text × List Text}
    (hc₀ : Unmistakable ambients σ₀ c₀) {v : Overload}
    (hv : σ₀.overloads.table[id]? = some v) (hname : v.name = c₀.1) (harity : v.arity = c₀.2.length)
    (hc : CallGains ambients σ₀ given c₀ c values) (a : Ambient) :
    σ.meant a c.1 c.2 = (σ.users a).contains id := by
  have hext := hc.extended
  rw [hc.agreed hc₀ hv hname harity] at hext
  unfold meant Overloads.means
  rw [h.resolve? hambients hdistinct hc₀ hv hname harity hext]
  rfl

theorem Given.callGains (h : Given ambients σ₀ σ given) (ha : a ∈ ambients)
    {c₀ c c' : Text × List Text}
    (hc : CallGains ambients σ₀ given c₀ c values) (hcalled : Called (σ.meant a) a.name c c') :
    CallGains ambients σ₀ (σ.give a given) c₀ c'
      (if σ.meant a c.1 c.2 then values ++ [a] else values) where
  extended := hc.extended.step (fun b hb => (hambients.proper b (hc.subset b hb)).word) hcalled
  subset := by
    split
    · intro b hb
      rcases mem_append.mp hb with hb | hb
      · exact hc.subset b hb
      · rwa [mem_singleton.mp hb]
    · exact hc.subset
  agreed := by
    intro hc₀ id v hv hname harity
    unfold give
    rw [h.meant_eq hambients hdistinct hc₀ hv hname harity hc a, hc.agreed hc₀ hv hname harity]

end Step

end Threading.Phase

open Threading

/-! The first phase of a program. -/

section Initial

variable {source : Text} {o : Outline} (h : Represents source o) {functions : List Signature}
  (hfunctions : Program.functions source = .ok functions)
include h hfunctions

theorem Represents.matches :
    List.Forall₂ (Signature.Matches source.mask) functions (Phase.initial o functions).routines := by
  obtain ⟨found, hfound, hmatches, -, -⟩ := h.functions
  rw [hfunctions] at hfound
  cases hfound
  exact hmatches

theorem Represents.starts : functions.Pairwise (·.range.start < ·.range.start) := by
  obtain ⟨found, hfound, -, hstart, -⟩ := h.functions
  rw [hfunctions] at hfound
  cases hfound
  exact hstart

theorem Represents.valid_initial : (Phase.initial o functions).Valid := by
  refine ⟨⟨source, h.initial hfunctions⟩, ?_⟩
  rw [← (h.matches hfunctions).length_eq]
  exact (Overloads.covers_collect functions).length

theorem Represents.free_initial
    (hfree : ∀ f ∈ functions, ∀ a ∈ ambients, f.hasParam a.name = false) :
    ∀ r ∈ (Phase.initial o functions).routines, ∀ a ∈ ambients, r.hasParam a.name = false := by
  intro r hr a ha
  obtain ⟨f, hf, hmatch⟩ := exists_of_mem_right (h.matches hfunctions) hr
  rw [← hmatch.hasParam]
  exact hfree f hf a ha

end Initial

end GlslToMetal
