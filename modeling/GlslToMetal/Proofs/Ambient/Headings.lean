import GlslToMetal.Proofs.Ambient.Agreement

/-! Headings that could be taken for calls. Whether a name in front of a parenthesis is declared or
called is told by the word before it, so a return type that does not end in a word leaves it open. Where
no heading reads as a call, every function keeps its parameters and gains at most one for each value. -/

namespace GlslToMetal

open List Text Nest Outline

namespace Threading

/-- The programs whose headings read as no calls: ASCII without vertical tabs, delimiters that are
properly nested, no preprocessor lines, no parentheses in parameter lists, and no parameter that is
named after a value. Return types are of any form that keeps the name behind them from being called. -/
structure Undisguised (source : Text) (functions : List Signature) : Prop where
  code : source.IsCode
  nested : source.mask.isNested
  hash : 35 ∉ source.mask
  headings : ∀ f ∈ functions, callee? (source.mask.take f.openParen).reverse = none
  lists : ∀ f ∈ functions, 40 ∉ source.mask.cut ⟨f.openParen + 1, f.closeParen⟩
  free : ∀ f ∈ functions, ∀ a ∈ Ambient.all, f.hasParam a.name = false

instance (source : Text) (functions : List Signature) : Decidable (Undisguised source functions) :=
  decidable_of_iff
    (source.IsCode ∧ source.mask.isNested ∧ 35 ∉ source.mask ∧
      (∀ f ∈ functions, callee? (source.mask.take f.openParen).reverse = none) ∧
      (∀ f ∈ functions, 40 ∉ source.mask.cut ⟨f.openParen + 1, f.closeParen⟩) ∧
      ∀ f ∈ functions, ∀ a ∈ Ambient.all, f.hasParam a.name = false)
    ⟨fun h => ⟨h.1, h.2.1, h.2.2.1, h.2.2.2.1, h.2.2.2.2.1, h.2.2.2.2.2⟩,
      fun h => ⟨h.code, h.nested, h.hash, h.headings, h.lists, h.free⟩⟩

theorem Undisguised.represents {source : Text} {functions : List Signature} (h : Undisguised source functions)
    (hfunctions : Program.functions source = .ok functions) : ∃ o, Represents source o := by
  refine exists_represents h.code h.nested h.hash hfunctions fun o hmask x hx f hf hdescribes => ?_
  constructor
  · exact (callee?_heading hmask hx hdescribes).symm.trans (h.headings f hf)
  · exact cut_params hmask hx hdescribes ▸ h.lists f hf

/-- The function has the parameters of the other and behind them one for each of some values, none of
them twice. -/
def Gained (f f' : Signature) : Prop :=
  f'.name = f.name ∧ f'.returnType = f.returnType ∧ f'.isDefinition = f.isDefinition ∧
    ∃ values : List Ambient, values.Nodup ∧ (∀ a ∈ values, a ∈ Ambient.all) ∧
      f'.params.map Parameter.bare = f.params.map Parameter.bare ++ values.map (·.parameter)

/-- **No function is given a value twice.** Where no heading reads as a call, every function of the
threaded program has the parameters that it had and behind them at most one for each value, declared as
the value is, in either mode and for every limit; and again no heading reads as a call. -/
theorem lower_appends_values {source : Text} {functions : List Signature}
    (hfunctions : Program.functions source = .ok functions) (h : Undisguised source functions)
    (mode : Propagation)
    (maxRounds : Option Nat) :
    ∃ reports target functions', lower mode Ambient.all maxRounds source = .ok (reports, target) ∧
      Program.functions target = .ok functions' ∧ List.Forall₂ Gained functions functions' ∧
      ∀ f ∈ functions', callee? (target.mask.take f.openParen).reverse = none := by
  obtain ⟨o, ho⟩ := h.represents hfunctions
  have hfamily := Ambient.family_all
  obtain ⟨reports, target, hlower, hof⟩ := ho.lower hfunctions hfamily.proper mode maxRounds
  obtain ⟨ps, -, -, hfollows⟩ := ho.schedule hfunctions hfamily h.free mode maxRounds
  obtain ⟨functions', hfunctions', hmatches', -, hdescribed'⟩ := hof.represents.functions
  refine ⟨reports, target, functions', hlower, hfunctions', ?_, ?_⟩
  · refine (hfollows.declarations ho hfunctions hmatches').imp ?_
    rintro f f' ⟨id, -, hname, htype, hdefinition, hparams⟩
    exact ⟨hname, htype, hdefinition, _, hfollows.nodup id, hfollows.subset id, hparams⟩
  · intro f hf
    obtain ⟨x, hx, hdescribes⟩ := exists_of_mem_left hdescribed' hf
    obtain ⟨hd, hp, -⟩ := exists_of_mem_declarations hx
    rw [callee?_heading hof.represents.mask hx hdescribes]
    exact (hof.represents.simple _ hp _ hd).callee

/-- Return types of several words, one of them an array, and a function that is only called by another. -/
def wordyTypes : Text :=
  (["float[2] const wave(float x);\n",
    "float[2] const wave(float x) \x7b return float[2](x * iTime, x); \x7d\n",
    "highp vec2 glow(vec2 p, float) \x7b return p / iResolution * wave(p.x)[0]; \x7d\n",
    "void mainImage(out vec4 c, in vec2 p) \x7b c = vec4(glow(p, 1.0), 0, 1); \x7d\n"] : List Text).flatten

theorem lower_appends_values_wordyTypes : Program.functions wordyTypes = .ok (Program.declared wordyTypes) ∧
      Undisguised wordyTypes (Program.declared wordyTypes) ∧
      ∃ reports target functions', lower .transitive Ambient.all none wordyTypes = .ok (reports, target) ∧
        Program.functions target = .ok functions' ∧
          List.Forall₂ Gained (Program.declared wordyTypes) functions' ∧
        ∀ f ∈ functions', callee? (target.mask.take f.openParen).reverse = none := by
  have h : Program.functions wordyTypes = .ok (Program.declared wordyTypes) ∧
      Undisguised wordyTypes (Program.declared wordyTypes) := by
    unfold wordyTypes
    repeat rw [ofString_ofList]
    decide +kernel
  exact ⟨h.1, h.2, lower_appends_values h.1 h.2 .transitive none⟩

/-- A heading behind a type that does not end in a word. -/
def arrayType : Text := "float[2] f(float a) \x7b return float[2](iTime, a); \x7d\n"

theorem Gained.mem_of_mem_drop {f f' : Signature} (h : Gained f f') :
    ∀ p ∈ (f'.params.map Parameter.bare).drop f.params.length, p ∈ Ambient.all.map (·.parameter) := by
  obtain ⟨-, -, -, values, -, hvalues, hparams⟩ := h
  intro p hp
  rw [hparams, drop_left' (length_map _)] at hp
  obtain ⟨a, ha, rfl⟩ := mem_map.mp hp
  exact mem_map_of_mem (hvalues a ha)

/-- A heading that reads as a call is given the value twice, once to declare it and once to pass it. -/
theorem lower_declares_and_passes :
    ∃ reports target functions', lower .singleHop Ambient.all none arrayType = .ok (reports, target) ∧
      Program.functions target = .ok functions' ∧
      target = "float[2] f(float a, float iTime, iTime) \x7b return float[2](iTime, a); \x7d\n" ∧
      ¬ List.Forall₂ Gained (Program.declared arrayType) functions' := by
  have hstray : ∃ r ∈ (lower .singleHop Ambient.all none arrayType).toOption,
      ∃ functions' ∈ (Program.functions r.2).toOption,
        r.2 = "float[2] f(float a, float iTime, iTime) \x7b return float[2](iTime, a); \x7d\n" ∧
        ∃ x ∈ (Program.declared arrayType).zip functions',
          ∃ p ∈ (x.2.params.map Parameter.bare).drop x.1.params.length,
            p ∉ Ambient.all.map (·.parameter) := by
    unfold arrayType
    repeat rw [ofString_ofList]
    decide +kernel
  obtain ⟨⟨reports, target⟩, hlower, functions', hfunctions', htarget, x, hx, p, hp, hstray⟩ := hstray
  refine ⟨reports, target, functions', Checked.eq_ok_of_mem hlower, Checked.eq_ok_of_mem hfunctions', htarget,
    fun hgained => hstray ?_⟩
  exact ((forall₂_iff_zip.mp hgained).2 hx).mem_of_mem_drop p hp

end Threading

end GlslToMetal
