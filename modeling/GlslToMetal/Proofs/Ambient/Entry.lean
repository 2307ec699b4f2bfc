import GlslToMetal.Proofs.Ambient.Agreement

/-! The entry point of a threaded program. Functions keep their places and gain parameters behind
their own, so the entry point changes in two ways only: it gains a parameter itself, because another
function of its name and arity wants a value, or an earlier function that writes a colour gains the
resolution and is taken for it. -/

namespace GlslToMetal

open List Text Nest Threading

variable {a : Ambient} {ambients : List Ambient} {k : Nat} {σ σ₀ : Phase} {r : Routine}
  {f : Signature} {m m' : Text}

namespace Threading.Phase

/-- The routines of a phase have gained parameters since the first one. -/
structure Grows (ambients : List Ambient) (σ₀ σ : Phase) : Prop where
  valid : σ.Valid
  ofFunction : σ.overloads.ofFunction = σ₀.overloads.ofFunction
  routines : List.Forall₂ (Routine.GrownBy ambients) σ₀.routines σ.routines

theorem Valid.grows (ambients : List Ambient) (h : σ₀.Valid) : Grows ambients σ₀ σ₀ :=
  ⟨h, rfl, forall₂_same.mpr fun r _ => .refl r⟩

theorem Grows.thread (hambients : ∀ a ∈ ambients, a.Proper)
    (h : Grows ambients σ₀ σ) (ha : a ∈ ambients) : Grows ambients σ₀ (σ.thread a) :=
  ⟨h.valid.thread (hambients a ha), h.ofFunction,
    forall₂_comp Routine.GrownBy.trans h.routines (h.valid.grownBy hambients ha)⟩

/-- The routine at a position is as it was but for its body. -/
def KeptAt (k : Nat) (σ₀ σ : Phase) : Prop :=
  ∀ r₀, σ₀.routines[k]? = some r₀ → ∃ r, σ.routines[k]? = some r ∧ r₀.Grown r []

/-- **Where the entry point of a phase stands**: at its old place, if it gained nothing and no earlier
routine gained its shape. -/
theorem Grows.entry?_iff (h : Grows ambients σ₀ σ)
    (hk : Routine.entry? σ₀.routines = some k) :
    Routine.entry? σ.routines = some k ∧ KeptAt k σ₀ σ ↔
      KeptAt k σ₀ σ ∧ ∀ j < k, ∀ r₀ r, σ₀.routines[j]? = some r₀ → σ.routines[j]? = some r →
        r₀.awaitsCoord → ∀ a ∈ ambients, Signature.isCoordInput a.parameter → ¬ r₀.Grown r [a] := by
  constructor
  · rintro ⟨hentry, hkept⟩
    refine ⟨hkept, ?_⟩
    intro j hj r₀ r hr₀ hr hawaits a _ hcoord hgrown
    have hnot := Routine.isEntry_of_lt hentry hj hr
    rw [hgrown.isEntry_iff.mpr (.inr ⟨a, rfl, hcoord, hawaits⟩)] at hnot
    cases hnot
  · rintro ⟨hkept, hnone⟩
    refine ⟨?_, hkept⟩
    rw [← hk]
    refine Routine.entry?_eq h.routines.length_eq.symm ?_
    intro i r₀ r hr₀ hr hle
    rw [Bool.eq_iff_iff]
    rcases Nat.lt_or_eq_of_le (hle k hk) with hlt | rfl
    · obtain ⟨r', hr', values, hgrown, hsubset⟩ := exists_getElem?_right h.routines hr₀
      rw [hr] at hr'
      cases hr'
      rw [hgrown.isEntry_iff, Routine.isEntry_of_lt hk hlt hr₀]
      simp only [Bool.false_eq_true, and_false, false_or, iff_false]
      rintro ⟨a, rfl, hcoord, hawaits⟩
      exact hnone i hlt r₀ r hr₀ hr hawaits a (hsubset a mem_cons_self) hcoord hgrown
    · obtain ⟨r', hr', hgrown⟩ := hkept r₀ hr₀
      rw [hr] at hr'
      cases hr'
      rw [hgrown.isEntry_iff]
      simp

/-- **The entry point keeps its place and its parameters** if its overload is its own and no earlier
routine misses but a coordinate to be one. -/
theorem Grows.rounds_entry? (hambients : ∀ a ∈ ambients, a.Proper)
    (hvalid : σ₀.Valid) (hk : Routine.entry? σ₀.routines = some k)
    (hown : ∀ {i id : Nat}, σ₀.overloads.ofFunction[i]? = some id →
      σ₀.overloads.ofFunction[k]? = some id → i = k)
    (hshape : ∀ j < k, ∀ r, σ₀.routines[j]? = some r → r.awaitsCoord = false) (n : Nat) :
    Routine.entry? (σ₀.rounds ambients n).routines = some k ∧ KeptAt k σ₀ (σ₀.rounds ambients n) := by
  have hrun : Grows ambients σ₀ (σ₀.rounds ambients n) ∧
      Routine.entry? (σ₀.rounds ambients n).routines = some k ∧ KeptAt k σ₀ (σ₀.rounds ambients n) := by
    refine rounds_induction (P := fun σ => Grows ambients σ₀ σ ∧
      Routine.entry? σ.routines = some k ∧ KeptAt k σ₀ σ) ?_
      ⟨hvalid.grows ambients, hk, fun r₀ hr₀ => ⟨r₀, hr₀, .refl r₀⟩⟩ n
    rintro σ a ha ⟨hgrows, hentry, hkept⟩
    have hgrows' := hgrows.thread hambients ha
    refine ⟨hgrows', (hgrows'.entry?_iff hk).mpr ⟨?_, ?_⟩⟩
    · intro r₀ hr₀
      obtain ⟨r, hr, hgrown⟩ := hkept r₀ hr₀
      have hlt : k < σ.overloads.ofFunction.length :=
        hgrows.valid.length ▸ (List.getElem?_eq_some_iff.mp hr).1
      obtain ⟨id, hid⟩ : ∃ id, σ.overloads.ofFunction[k]? = some id :=
        ⟨_, getElem?_eq_getElem hlt⟩
      -- The users are overloads of other routines.
      have hnot : (σ.users a).contains id = false := by
        rw [Bool.eq_false_iff, Ne, contains_iff_mem]
        intro huser
        obtain ⟨i, hwants, hi⟩ := mem_users.mp huser
        obtain ⟨hne, -⟩ := Routine.wants_iff.mp hwants
        rw [hgrows.ofFunction] at hi hid
        rw [hown hi hid] at hne
        exact hne hentry
      refine ⟨_, hgrows.valid.getElem?_routines_thread (hambients a ha) hr hid, ?_⟩
      rw [hnot]
      exact hgrown.thread (σ.meant a) a false
    · intro j hj r₀ r hr₀ _ hawaits
      rw [hshape j hj r₀ hr₀] at hawaits
      cases hawaits
  exact hrun.2

end Threading.Phase

/-- The function has the shape of an entry point but for the coordinate. -/
def Signature.awaitsCoord (f : Signature) : Bool :=
  f.isDefinition && f.returnType == ("void" : Text) && match f.params with
    | [color] => isColorOutput color
    | _ => false

theorem Signature.Matches.awaitsCoord (h : f.Matches m r) : f.awaitsCoord = r.awaitsCoord := by
  unfold Signature.awaitsCoord Routine.awaitsCoord
  rw [h.definition, h.returnType, ← h.params]
  congr 1
  match f.params with
  | [] => rfl
  | [_] => rfl
  | _ :: _ :: _ => rfl

/-- The function at a position is the entry point, with the parameters of `e`. -/
def Threading.IsEntryAt (k : Nat) (e : Signature) (functions : List Signature) : Prop :=
  ∃ e', functions[k]? = some e' ∧ Program.entryPoint? functions = some e' ∧
    e'.params.map Parameter.bare = e.params.map Parameter.bare

theorem Ambient.isCoordInput_parameter (ha : a ∈ all) :
    Signature.isCoordInput a.parameter ↔ a = resolution := by
  simp only [all, mem_cons, not_mem_nil, or_false] at ha
  rcases ha with rfl | rfl
  · exact ⟨fun _ => rfl, fun _ => by decide⟩
  · decide

theorem Routine.GrownBy.grown_iff {r₀ : Routine}
    (h : r₀.GrownBy ambients r) {f' : Signature} (hf : f.Matches m r₀)
    (hf' : f'.Matches m' r) (values : List Ambient) :
    f'.params.map Parameter.bare = f.params.map Parameter.bare ++ values.map (·.parameter) ↔
      r₀.Grown r values := by
  obtain ⟨_, hgrown, -⟩ := h
  rw [hf.params, hf'.params]
  exact ⟨fun hparams => ⟨hgrown.name, hgrown.type, hgrown.definition, hparams⟩, (·.params)⟩

section Kept

variable {m m' : Text} {functions functions' : List Signature} {ambients : List Ambient}
  {σ₀ σ : Phase} (hgrows : σ₀.Grows ambients σ)
  (hmatches : List.Forall₂ (Signature.Matches m) functions σ₀.routines)
  (hmatches' : List.Forall₂ (Signature.Matches m') functions' σ.routines) {k : Nat} {e : Signature}
  (hk : functions[k]? = some e)
include hgrows hmatches hmatches' hk

theorem Threading.Phase.keptAt_iff : Phase.KeptAt k σ₀ σ ↔ ∃ e', functions'[k]? = some e' ∧
    e'.params.map Parameter.bare = e.params.map Parameter.bare := by
  obtain ⟨r₀, hr₀, hmatch⟩ := exists_getElem?_right hmatches hk
  obtain ⟨r, hr, hgrown⟩ := exists_getElem?_right hgrows.routines hr₀
  obtain ⟨e', he', hmatch'⟩ := exists_getElem?_right hmatches'.flip hr
  have hnone := hgrown.grown_iff hmatch hmatch' []
  rw [List.map_nil, List.append_nil] at hnone
  constructor
  · intro hkept
    obtain ⟨r', hr', hsame⟩ := hkept r₀ hr₀
    rw [hr] at hr'
    cases hr'
    exact ⟨e', he', hnone.mpr hsame⟩
  · rintro ⟨e'', he'', hparams⟩ r₀' hr₀'
    rw [he'] at he''
    cases he''
    rw [hr₀] at hr₀'
    cases hr₀'
    exact ⟨r, hr, hnone.mp hparams⟩

theorem Threading.isEntryAt_iff (hstart' : functions'.Pairwise (·.range.start < ·.range.start)) :
    IsEntryAt k e functions' ↔ Routine.entry? σ.routines = some k ∧ Phase.KeptAt k σ₀ σ := by
  rw [Phase.keptAt_iff hgrows hmatches hmatches' hk]
  constructor
  · rintro ⟨e', he', hentry, hparams⟩
    exact ⟨(entryPoint?_eq_some_iff hmatches' hstart' he').mp hentry, e', he', hparams⟩
  · rintro ⟨hentry, e', he', hparams⟩
    exact ⟨e', he', (entryPoint?_eq_some_iff hmatches' hstart' he').mpr hentry, hparams⟩

end Kept

/-- An earlier function takes the place of the entry point when its routine does. -/
theorem Threading.Phase.Grows.taken_iff {functions functions' : List Signature}
    (hgrows : σ₀.Grows Ambient.all σ)
    (hmatches : List.Forall₂ (Signature.Matches m) functions σ₀.routines)
    (hmatches' : List.Forall₂ (Signature.Matches m') functions' σ.routines) (j : Nat) :
    (∀ r₀ r, σ₀.routines[j]? = some r₀ → σ.routines[j]? = some r → r₀.awaitsCoord →
        ∀ a ∈ Ambient.all, Signature.isCoordInput a.parameter → ¬ r₀.Grown r [a]) ↔
      ∀ f f', functions[j]? = some f → functions'[j]? = some f' → f.awaitsCoord →
        f'.params.map Parameter.bare ≠
          f.params.map Parameter.bare ++ [Ambient.resolution.parameter] := by
  constructor
  · intro hnone f f' hf hf' hawaits hparams
    obtain ⟨r₀, hr₀, hmatch⟩ := exists_getElem?_right hmatches hf
    obtain ⟨r, hr, hgrown⟩ := exists_getElem?_right hgrows.routines hr₀
    obtain ⟨r', hr', hmatch'⟩ := exists_getElem?_right hmatches' hf'
    obtain rfl : r = r' := Option.some.inj (hr.symm.trans hr')
    exact hnone r₀ r hr₀ hr (hmatch.awaitsCoord ▸ hawaits) Ambient.resolution (by decide) (by decide)
      ((hgrown.grown_iff hmatch hmatch' [Ambient.resolution]).mp hparams)
  · intro hnone r₀ r hr₀ hr hawaits a ha hcoord hgrown
    obtain ⟨f, hf, hmatch⟩ := exists_getElem?_right hmatches.flip hr₀
    obtain ⟨f', hf', hmatch'⟩ := exists_getElem?_right hmatches'.flip hr
    rw [(Ambient.isCoordInput_parameter ha).mp hcoord] at hgrown
    refine hnone f f' hf hf' ?_ ?_
    · rw [Signature.Matches.awaitsCoord hmatch]
      exact hawaits
    · rw [hmatch.params, hmatch'.params]
      exact hgrown.params

/-- **When the entry point is kept.** It is, exactly when its declaration gains nothing and no earlier
function that misses but a coordinate gains the resolution alone. That is so in particular when no
other function has its name and arity and no earlier function misses but a coordinate. -/
theorem Threading.lower_isEntryAt_iff {source : Text} {functions : List Signature}
    (hfunctions : Program.functions source = .ok functions) (h : Regular source functions)
    {k : Nat} {e : Signature} (hk : functions[k]? = some e)
    (he : Program.entryPoint? functions = some e) (mode : Propagation) (maxRounds : Option Nat) :
    ∃ reports target functions', lower mode Ambient.all maxRounds source = .ok (reports, target) ∧
      Program.functions target = .ok functions' ∧
      (IsEntryAt k e functions' ↔ (∃ e', functions'[k]? = some e' ∧
          e'.params.map Parameter.bare = e.params.map Parameter.bare) ∧
        ∀ j < k, ∀ f f', functions[j]? = some f → functions'[j]? = some f' → f.awaitsCoord →
          f'.params.map Parameter.bare ≠
            f.params.map Parameter.bare ++ [Ambient.resolution.parameter]) ∧
      ((∀ f ∈ functions, f.name = e.name → f.arity = e.arity → f = e) →
        (∀ j < k, ∀ f, functions[j]? = some f → f.awaitsCoord = false) →
        IsEntryAt k e functions') := by
  obtain ⟨o, ho⟩ := h.represents hfunctions
  have hproper := Ambient.family_all.proper
  obtain ⟨reports, target, hlower, hof⟩ := ho.lower hfunctions hproper mode maxRounds
  obtain ⟨functions', hfunctions', hmatches', hstart', -⟩ := hof.represents.functions
  have hmatches := ho.matches hfunctions
  have hentry := (entryPoint?_eq_some_iff hmatches (ho.starts hfunctions) hk).mp he
  have hvalid := ho.valid_initial hfunctions
  have hgrows : (Phase.initial o functions).Grows Ambient.all
      ((Phase.initial o functions).rounds Ambient.all (roundLimit mode Ambient.all maxRounds functions)) :=
    Phase.rounds_induction (fun σ a ha hσ => hσ.thread hproper ha) (hvalid.grows Ambient.all) _
  refine ⟨reports, target, functions', hlower, hfunctions', ?_, ?_⟩
  · rw [isEntryAt_iff hgrows hmatches hmatches' hk hstart', hgrows.entry?_iff hentry,
      Phase.keptAt_iff hgrows hmatches hmatches' hk]
    exact and_congr_right fun _ => forall₂_congr fun j _ => hgrows.taken_iff hmatches hmatches' j
  · intro hown hshape
    rw [isEntryAt_iff hgrows hmatches hmatches' hk hstart']
    refine Phase.Grows.rounds_entry? hproper hvalid hentry ?_ ?_ _
    · intro i id hi hid
      have hcovers := Overloads.covers_collect functions
      have hlt : i < functions.length := hcovers.length ▸ (List.getElem?_eq_some_iff.mp hi).1
      obtain ⟨id', hid', hv⟩ := hcovers.entered (getElem?_eq_getElem hlt)
      obtain ⟨id'', hid'', hv'⟩ := hcovers.entered hk
      have hsame : id' = id := Option.some.inj (hid'.symm.trans hi)
      have hsame' : id'' = id := Option.some.inj (hid''.symm.trans hid)
      rw [hsame] at hv
      rw [hsame', hv, Option.some.injEq, Overload.mk.injEq] at hv'
      have := hown _ (getElem_mem hlt) hv'.1 hv'.2.1
      exact eq_of_start (ho.starts hfunctions) (getElem?_eq_getElem hlt) hk (by rw [this])
    · intro j hj r hr
      obtain ⟨f, hf, hmatch⟩ := exists_getElem?_right hmatches.flip hr
      rw [← Signature.Matches.awaitsCoord hmatch]
      exact hshape j hj f hf

theorem Threading.lower_isEntryAt_iff_nestedCalls : ∃ e, (Program.declared nestedCalls)[3]? = some e ∧
    ∃ reports target functions', lower .transitive Ambient.all none nestedCalls = .ok (reports, target) ∧
      Program.functions target = .ok functions' ∧ IsEntryAt 3 e functions' := by
  have hentry : ∃ e ∈ Program.declared nestedCalls, (Program.declared nestedCalls)[3]? = some e ∧
      Program.entryPoint? (Program.declared nestedCalls) = some e ∧
      (∀ f ∈ Program.declared nestedCalls, f.name = e.name → f.arity = e.arity → f = e) ∧
      ∀ f ∈ Program.declared nestedCalls, f.awaitsCoord = false := by
    unfold nestedCalls
    repeat rw [ofString_ofList]
    decide +kernel
  obtain ⟨e, -, hk, he, hown, hshape⟩ := hentry
  obtain ⟨reports, target, functions', hlower, hfunctions', -, hkept⟩ :=
    lower_isEntryAt_iff uniform_nestedCalls.1 uniform_nestedCalls.2.toRegular hk he .transitive none
  exact ⟨e, hk, reports, target, functions', hlower, hfunctions', hkept hown fun j _ f hf =>
    hshape f (mem_of_getElem? hf)⟩

/-- Another function of the name and the arity of the entry point. -/
def Threading.sharedEntry : Text :=
  (["float mainImage(float a, float b) { return a * iTime + b; }\n",
    "void mainImage(out vec4 c, in vec2 p) { c = vec4(mainImage(p.x, p.y)); }\n"] :
    List Text).flatten

/-- A function that writes a colour from the resolution, before the entry point. -/
def Threading.colorWriter : Text :=
  (["void fill(out vec4 c) { c = vec4(iResolution, 0, 1); }\n",
    "void mainImage(out vec4 c, in vec2 p) { fill(c); }\n"] : List Text).flatten

/-- **The entry point is not always kept.** The first program is left without one, as its entry point
gains `iTime`; in the second, the function before it becomes one. -/
theorem Threading.lower_moves_entry : (∃ reports target functions',
      lower .singleHop Ambient.all none sharedEntry = .ok (reports, target) ∧
      Program.functions target = .ok functions' ∧
      Program.entryPoint? (Program.declared sharedEntry) = (Program.declared sharedEntry)[1]? ∧
      Program.entryPoint? functions' = none) ∧
    ∃ reports target functions', lower .singleHop Ambient.all none colorWriter = .ok (reports, target) ∧
      Program.functions target = .ok functions' ∧
      Program.entryPoint? (Program.declared colorWriter) = (Program.declared colorWriter)[1]? ∧
      Program.entryPoint? functions' = functions'[0]? := by
  refine ⟨exists_lower_of_mem ?_, exists_lower_of_mem ?_⟩
  · unfold sharedEntry
    repeat rw [ofString_ofList]
    decide +kernel
  · unfold colorWriter
    repeat rw [ofString_ofList]
    decide +kernel

end GlslToMetal
