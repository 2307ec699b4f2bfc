import GlslToMetal.Proofs.Ambient.Schedule

/-! Declarations and calls agree in a threaded program, as far as calls can be told apart. -/

namespace GlslToMetal

open List Text Nest Threading

variable {f : Signature} {source : Text}

theorem forall₂_callsOf {R : Text × List Text → Text × List Text → Prop}
    (hname : ∀ c c', R c c' → c'.1 = c.1) {s t : Nest} (h : List.Forall₂ R (s.calls []) (t.calls []))
    (n : Text) : List.Forall₂ (fun args args' => R (n, args) (n, args')) (s.callsOf n) (t.callsOf n) := by
  unfold callsOf
  generalize s.calls [] = cs at h
  generalize t.calls [] = cs' at h
  induction h with
  | nil => exact .nil
  | @cons c c' _ _ hc _ ih =>
    obtain ⟨m, args⟩ := c
    obtain ⟨m', args'⟩ := c'
    obtain rfl : m' = m := hname _ _ hc
    simp only [filterMap_cons]
    by_cases hn : m' = n
    · subst hn
      rw [if_pos rfl, if_pos rfl]
      exact .cons hc ih
    · rw [if_neg hn, if_neg hn]
      exact ih

theorem Represents.argumentLists {o : Outline} (h : Represents source o) {n : Text}
    (hn : n.IsWord) : Call.argumentLists source.mask n = .ok (o.nest.callsOf n) := by
  rw [h.mask]
  exact argumentLists_text (Outline.plain_nest.mpr h.sound.plain) h.sound.code hn

/-- The regular programs in which no parameter is named after a value. -/
structure Threading.Unshadowed (source : Text) (functions : List Signature) : Prop
    extends Regular source functions where
  free : ∀ f ∈ functions, ∀ a ∈ Ambient.all, f.hasParam a.name = false

instance (source : Text) (functions : List Signature) : Decidable (Threading.Unshadowed source functions) :=
  decidable_of_iff
    (Threading.Regular source functions ∧ ∀ f ∈ functions, ∀ a ∈ Ambient.all, f.hasParam a.name = false)
    ⟨fun h => ⟨h.1, h.2⟩, fun h => ⟨h.toRegular, h.free⟩⟩

/-- The unshadowed programs in which a name tells the number of parameters. -/
structure Threading.Uniform (source : Text) (functions : List Signature) : Prop
    extends Unshadowed source functions where
  arities : ∀ f ∈ functions, ∀ g ∈ functions, f.name = g.name → f.arity = g.arity

instance (source : Text) (functions : List Signature) : Decidable (Threading.Uniform source functions) :=
  decidable_of_iff
    (Threading.Unshadowed source functions ∧ ∀ f ∈ functions, ∀ g ∈ functions, f.name = g.name →
      f.arity = g.arity)
    ⟨fun h => ⟨h.1, h.2⟩, fun h => ⟨h.toUnshadowed, h.arities⟩⟩

section Follows

variable {source : Text} {o : Outline} (ho : Represents source o) {functions : List Signature}
  (hfunctions : Program.functions source = .ok functions) {ambients : List Ambient} {σ : Phase}
  {target : Text}
include ho hfunctions

/-- The declarations of a program and what they have been given. -/
theorem Threading.Phase.Given.declarations {given : Nat → List Ambient}
    (h : Phase.Given ambients (Phase.initial o functions) σ given) {functions' : List Signature}
    (hmatches' : List.Forall₂ (Signature.Matches target.mask) functions' σ.routines) :
    List.Forall₂ (fun f f' => ∃ id : Nat,
      (Overloads.collect functions).table[id]? = some ⟨f.name, f.arity, []⟩ ∧ f'.name = f.name ∧
      f'.returnType = f.returnType ∧ f'.isDefinition = f.isDefinition ∧
      f'.params.map Parameter.bare = f.params.map Parameter.bare ++ (given id).map (·.parameter))
      functions functions' := by
  have hmatches := ho.matches hfunctions
  rw [forall₂_iff_get]
  refine ⟨by rw [hmatches.length_eq, hmatches'.length_eq]; exact h.length.symm, ?_⟩
  intro i hi hi'
  have hf : functions[i]? = some functions[i] := getElem?_eq_getElem hi
  obtain ⟨id, hid, hv⟩ := (Overloads.covers_collect functions).entered hf
  obtain ⟨r₀, hr₀, hmatch⟩ := exists_getElem?_right hmatches hf
  obtain ⟨r', hr', hmatch'⟩ := exists_getElem?_right hmatches' (getElem?_eq_getElem hi')
  obtain ⟨r, hr, hgrown⟩ := h.routines hr₀ hid
  obtain rfl : r = r' := Option.some.inj (hr.symm.trans hr')
  refine ⟨id, hv, ?_, ?_, ?_, ?_⟩ <;> rw [get_eq_getElem, get_eq_getElem]
  · rw [hmatch'.name, hgrown.name, hmatch.name]
  · rw [hmatch'.returnType, hgrown.type, hmatch.returnType]
  · rw [hmatch'.definition, hgrown.definition, hmatch.definition]
  · rw [hmatch'.params, hgrown.params, hmatch.params]

theorem Threading.Phase.Follows.argumentLists {ps : List Pass}
    (h : Phase.Follows ambients (Phase.initial o functions) σ ps) (hof : σ.Of target)
    (hf : f ∈ functions) :
    ∃ calls calls', Call.argumentLists source.mask f.name = .ok calls ∧
      Call.argumentLists target.mask f.name = .ok calls' ∧
      List.Forall₂ (fun args args' => Phase.CallGains ambients (Phase.initial o functions) (Pass.given ps)
        (f.name, args) (f.name, args') (Pass.passed (Overloads.collect functions) f.name args ps))
        calls calls' := by
  obtain ⟨r, hr, hmatch⟩ := exists_of_mem_left (ho.matches hfunctions) hf
  have hword : f.name.IsWord := hmatch.name ▸ Outline.isWord_name hr
  refine ⟨_, _, ho.argumentLists hword, hof.represents.argumentLists hword, ?_⟩
  exact forall₂_callsOf (fun c c' hgains => hgains.extended.1) h.calls f.name

end Follows

/-- The values that the declarations of a name are given, in a program where the name tells the number
of parameters. -/
def Threading.Pass.gainedBy (functions : List Signature) (ps : List Pass) (n : Text) : List Ambient :=
  (functions.find? (·.name == n)).elim [] fun f =>
    gained (Overloads.collect functions) ps n f.arity

theorem Threading.Uniform.gainedBy_eq {functions : List Signature}
    (h : Uniform source functions) (ps : List Pass) (hf : f ∈ functions) {id : Nat}
    (hid : (Overloads.collect functions).table[id]? = some ⟨f.name, f.arity, []⟩) :
    Pass.gainedBy functions ps f.name = Pass.given ps id := by
  have hdistinct := (Overloads.covers_collect functions).distinct
  unfold Pass.gainedBy
  cases hfind : functions.find? (·.name == f.name) with
  | none =>
    have := find?_eq_none.mp hfind f hf
    simp at this
  | some g =>
    have hname := find?_some hfind
    rw [beq_iff_eq] at hname
    have harity := h.arities g (mem_of_find?_eq_some hfind) f hf hname
    exact Pass.gained_eq (hdistinct.find?_eq_some_iff.mpr ⟨_, hid, rfl, harity.symm⟩) ps

/-- Declarations and calls agree in a threaded program. For every name there is one list of values,
without repetition. Every declaration of the name has its parameters and then one for each of these
values, in that order. Every call that passed as many arguments as the name had parameters passes
these values behind them, in that order. -/
def Threading.AritiesAgree (source target : Text) (functions functions' : List Signature) : Prop :=
  ∃ given : Text → List Ambient, (∀ n, (given n).Nodup ∧ ∀ a ∈ given n, a ∈ Ambient.all) ∧
    List.Forall₂ (fun f f' => f'.name = f.name ∧ f'.params.map Parameter.bare =
      f.params.map Parameter.bare ++ (given f.name).map (·.parameter)) functions functions' ∧
    ∀ f ∈ functions, ∃ calls calls', Call.argumentLists source.mask f.name = .ok calls ∧
      Call.argumentLists target.mask f.name = .ok calls' ∧
      List.Forall₂ (fun args args' => args.length = f.arity → args'.length = f.arity + (given f.name).length ∧
        args'.drop f.arity = (given f.name).map (·.name)) calls calls'

/-- **Threading keeps declarations and calls in agreement**, in either mode and for every limit. -/
theorem Threading.lower_keeps_arities_agreed {source : Text} {functions : List Signature}
    (hfunctions : Program.functions source = .ok functions) (h : Uniform source functions)
    (mode : Propagation) (maxRounds : Option Nat) :
    ∃ reports target functions', lower mode Ambient.all maxRounds source = .ok (reports, target) ∧
      Program.functions target = .ok functions' ∧
      AritiesAgree source target functions functions' := by
  obtain ⟨o, ho⟩ := h.toRegular.represents hfunctions
  have hfamily := Ambient.family_all
  obtain ⟨reports, target, hlower, hof⟩ := ho.lower hfunctions hfamily.proper mode maxRounds
  obtain ⟨ps, -, -, hfollows⟩ := ho.schedule hfunctions hfamily h.free mode maxRounds
  obtain ⟨functions', hfunctions', hmatches', -, -⟩ := hof.represents.functions
  refine ⟨reports, target, functions', hlower, hfunctions', Pass.gainedBy functions ps, ?_, ?_, ?_⟩
  · intro n
    unfold Pass.gainedBy Pass.gained
    cases functions.find? (·.name == n) with
    | none => exact ⟨.nil, by simp⟩
    | some f =>
      cases hid : (Overloads.collect functions).find? n f.arity with
      | none => exact ⟨by simp [hid], by simp [hid]⟩
      | some id => simpa [hid] using And.intro (hfollows.nodup id) (hfollows.subset id)
  · refine forall₂_imp_of_mem (hfollows.declarations ho hfunctions hmatches') ?_
    rintro f hf f' - ⟨id, hv, hname, -, -, hparams⟩
    rw [h.gainedBy_eq ps hf hv]
    exact ⟨hname, hparams⟩
  · intro f hf
    obtain ⟨i, hi⟩ := mem_iff_getElem?.mp hf
    obtain ⟨id, -, hv⟩ := (Overloads.covers_collect functions).entered hi
    obtain ⟨calls, calls', hcalls, hcalls', hgains⟩ := hfollows.argumentLists ho hfunctions hof hf
    refine ⟨calls, calls', hcalls, hcalls', hgains.imp ?_⟩
    intro args args' hgains hlen
    have hclear : Phase.Unmistakable Ambient.all (Phase.initial o functions) (f.name, args) := by
      intro v hv hname hlt
      obtain ⟨-, g, hg, hgname, hgarity⟩ := (Overloads.covers_collect functions).origin v hv
      have := h.arities g hg f hf (hgname.trans hname)
      dsimp only at hlt
      omega
    rw [h.gainedBy_eq ps hf hv, ← hgains.agreed hclear hv rfl hlen.symm, ← hlen]
    exact ⟨hgains.extended.length, hgains.extended.drop⟩

theorem Threading.exists_lower_of_mem {mode : Propagation}
    {p : Text → List Signature → Prop}
    (h : ∃ r ∈ (lower mode Ambient.all none source).toOption,
      ∃ functions' ∈ (Program.functions r.2).toOption, p r.2 functions') :
    ∃ reports target functions', lower mode Ambient.all none source = .ok (reports, target) ∧
      Program.functions target = .ok functions' ∧ p target functions' := by
  obtain ⟨⟨reports, target⟩, hlower, functions', hfunctions', hp⟩ := h
  exact ⟨reports, target, functions', Checked.eq_ok_of_mem hlower, Checked.eq_ok_of_mem hfunctions', hp⟩

/-- A prototype, a function that calls itself in an argument, and an entry point. -/
def Threading.nestedCalls : Text :=
  (["float glow(float d);\n", "float wave(float x) { return x * iTime; }\n",
    "float glow(float d) { return wave(glow(d)); }\n",
    "void mainImage(out vec4 c, in vec2 p) { c = vec4(glow(p.x)); }\n"] : List Text).flatten

theorem Threading.uniform_nestedCalls : Program.functions nestedCalls = .ok (Program.declared nestedCalls) ∧
    Uniform nestedCalls (Program.declared nestedCalls) := by
  unfold nestedCalls
  repeat rw [ofString_ofList]
  decide +kernel

theorem Threading.lower_keeps_arities_agreed_nestedCalls : ∃ reports target functions',
      lower .transitive Ambient.all none nestedCalls = .ok (reports, target) ∧
      Program.functions target = .ok functions' ∧
      AritiesAgree nestedCalls target (Program.declared nestedCalls) functions' :=
  lower_keeps_arities_agreed uniform_nestedCalls.1 uniform_nestedCalls.2 .transitive none

end GlslToMetal
