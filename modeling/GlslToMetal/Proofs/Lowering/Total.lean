import GlslToMetal.Proofs.Extracted.Parts
import GlslToMetal.Proofs.Lowering.Size
import GlslToMetal.Proofs.Pipeline.Journal
import GlslToMetal.Proofs.Sampling.Found

/-! Lowering a program in ASCII does not fail, unless the program is so long that an offset does not fit
into 32 bits. Each step returns, and what it returns is a program in ASCII again, on which the next step
can be taken. -/

namespace GlslToMetal

open List Text Checked

variable {masked output source t : Text}

/-- The name and the type of the value are in ASCII. -/
def Ambient.IsAscii (a : Ambient) : Prop := a.name.IsAscii ∧ a.type.IsAscii

theorem Ambient.isAscii_all : ∀ a ∈ Ambient.all, a.IsAscii := by
  show ∀ a ∈ Ambient.all, a.name.IsAscii ∧ a.type.IsAscii
  decide +kernel

theorem Ambient.plain_all : ∀ a ∈ Ambient.all, a.Plain := by
  show ∀ a ∈ Ambient.all, weigh (load 0) a.declaration = 0
  decide +kernel

theorem Ambient.IsAscii.made {a : Ambient} (h : a.IsAscii) : a.Made Text.IsAscii := ⟨h.1, h.2⟩

/-! The entry point. -/

namespace Extracted

theorem returns_returning {body : Text} (houtput : output.IsAscii) (hmasked : masked.IsAscii)
    (hbody : body.IsAscii) (hlength : masked.length = body.length) :
    (returning output masked body).Returns IsAscii := by
  refine (kind_isAscii.apply hbody fun e he => ?_).returns
  obtain ⟨r, hr, rfl⟩ := mem_map.mp he
  have hwithin := Pattern.within_of_mem_ranges hmasked hr
  rw [hlength] at hwithin
  exact ⟨fun _ => hwithin,
    (Text.IsAscii.append (isAscii_ofList (by decide)) houtput).append (isAscii_ofList (by decide))⟩

theorem returns_extract (h : source.IsAscii) : (extract source).Returns fun _ => True := by
  refine (Program.returns_functions h).bind fun functions hfunctions => ?_
  split
  · exact returns_pure trivial
  · next f output coord body hfound =>
    obtain ⟨hf, hbody, p, hp, rfl⟩ := mem_of_found? hfound
    have hsound := hfunctions f hf
    have hwithin := hsound.body body hbody
    have hfront : Range.Within source.length ⟨0, f.range.start⟩ :=
      ⟨Nat.zero_le _, Nat.le_trans hsound.range.1 hsound.range.2⟩
    have hback : Range.Within source.length ⟨f.range.stop, source.length⟩ :=
      ⟨hsound.range.2, Nat.le_refl _⟩
    refine (returns_slice h hfront).bind fun before _ => ?_
    refine (returns_slice h hback).bind fun after _ => ?_
    refine (returns_slice h.mask (by rwa [length_mask])).bind fun maskedBody hmasked => ?_
    refine (returns_slice h hwithin).bind fun sourceBody hsource => ?_
    subst hmasked hsource
    have hlength : (source.mask.cut body).length = (source.cut body).length := by
      simp only [Text.cut, length_take, length_drop, length_mask]
    have hreturning :=
      returns_returning (hsound.params p hp).1.name (h.mask.cut body) (h.cut body) hlength
    exact hreturning.bind fun _ _ => returns_pure trivial

end Extracted

/-! The pipeline. -/

section

variable {α β γ : Type} {P : α → Prop} {Q : β → Prop} {R : γ → Prop}

/-- The computation does not fail, its stage does not either, and the result has the property. -/
def Checked.Succeeds {τ : Type} (x : Checked (Except StageError β × τ)) (Q : β → Prop) : Prop :=
  x.Returns fun r => ∃ b, r.1 = .ok b ∧ Q b

/-- On every context with the first property the stage succeeds, and its result has the second. -/
def Stage.Total (s : Stage α β) (P : α → Prop) (Q : β → Prop) : Prop :=
  ∀ a j, P a → (s.run a j).Returns fun r => ∃ b, r.2 = .ok b ∧ Q b

namespace Pipeline

theorem succeeds_runStage {o : Options} {s : Stage α β} (hs : s.Total P Q) {a : α} (ha : P a) (t : Trace) :
    (runStage o s a t).Succeeds Q := by
  refine (hs a _ ha).bind ?_
  rintro ⟨diagnostics, result⟩ ⟨b, rfl, hb⟩
  exact returns_pure ⟨b, rfl, hb⟩

theorem succeeds_stage {o : Options} {front : Pipeline α β} {s : Stage β γ} {a : α} {t : Trace}
    (hfront : (front.run o a t).Succeeds Q) (hs : s.Total Q R) :
    ((front.stage s).run o a t).Succeeds R := by
  refine hfront.bind ?_
  rintro ⟨_, t⟩ ⟨b, rfl, hb⟩
  exact succeeds_runStage hs hb t

theorem succeeds_optional {o : Options} {front : Pipeline α β} {s : Stage β β} {a : α} {t : Trace}
    {Q' : β → Prop} (hfront : (front.run o a t).Succeeds Q) (hs : s.Total Q Q')
    (hskip : ∀ b, Q b → Q' b) : ((front.optional s).run o a t).Succeeds Q' := by
  refine hfront.bind ?_
  rintro ⟨_, t⟩ ⟨b, rfl, hb⟩
  dsimp only
  split
  · exact succeeds_runStage hs hb t
  · exact returns_pure ⟨b, rfl, hskip b hb⟩

theorem exists_of_runStage {o : Options} {s : Stage α β} {a : α} {t t' : Trace}
    {result : Except StageError β} (h : runStage o s a t = .ok (result, t')) :
    ∃ diagnostics made, s.run a t.journal = .ok (diagnostics, made) ∧
      t'.journal.items = t.journal.items ++ diagnostics ∧
      result = made.mapError fun e => ⟨s.name, e.message⟩ := by
  obtain ⟨⟨diagnostics, made⟩, hrun, h⟩ := exists_of_bind h
  cases made <;> cases h <;> exact ⟨_, _, hrun, by simp [Trace.append, Trace.flush], rfl⟩

theorem exists_of_run_stage {o : Options} {front : Pipeline α β} {s : Stage β γ} {a : α}
    {t t' : Trace} {c : γ} (h : (front.stage s).run o a t = .ok (.ok c, t')) :
    ∃ b u diagnostics, front.run o a t = .ok (.ok b, u) ∧
      s.run b u.journal = .ok (diagnostics, .ok c) ∧
      t'.journal.items = u.journal.items ++ diagnostics := by
  obtain ⟨⟨mid, u⟩, hfront, h⟩ := exists_of_bind h
  cases mid with
  | error => cases h
  | ok b =>
    obtain ⟨diagnostics, made, hmade, hitems, hresult⟩ := exists_of_runStage h
    cases made with
    | error => cases hresult
    | ok d =>
      cases hresult
      exact ⟨b, u, diagnostics, hfront, hmade, hitems⟩

section

variable {front : Pipeline α β} {o : Options} {a : α} {t : Trace} {e : Fault}

theorem run_stage_error {s : Stage β γ} (h : front.run o a t = .error e) :
    (front.stage s).run o a t = .error e := by
  rw [run, h]
  rfl

theorem run_optional_error {s : Stage β β} (h : front.run o a t = .error e) :
    (front.optional s).run o a t = .error e := by
  rw [run, h]
  rfl

theorem run_optional_fails {s : Stage β β} {b : β} {u : Trace} (h : front.run o a t = .ok (.ok b, u))
    (hs : o.enables s.name = true) (hrun : ∀ j, s.run b j = .error e) :
    (front.optional s).run o a t = .error e := by
  rw [run, h]
  refine (if_pos hs).trans ?_
  rw [runStage, hrun]
  rfl

theorem run_optional_leftOut {s : Stage β β} {b : β} {u : Trace}
    (h : front.run o a t = .ok (.ok b, u)) (hs : o.enables s.name = false) :
    (front.optional s).run o a t = .ok (.ok b, u.append [skipped s.name]) := by
  rw [run, h]
  exact if_neg (hs ▸ Bool.false_ne_true)

end

end Pipeline

end

namespace Lowering

section

variable {s : Settings} {P R : Text → Prop} {step : Step} {steps : List Step}

/-- **Every step on a program in ASCII returns one**, if the spans of the reports can hold the offsets of
the program. -/
theorem returns_lowerText (hambients : ∀ a ∈ s.ambients, a.IsAscii) (step : Step)
    (h : source.IsAscii) (hsize : step = .sampling → source.length < 2 ^ 32) :
    (lowerText s step source).Returns fun r => r.2.IsAscii :=
  (kind_isAscii.lowerText (fun a ha => (hambients a ha).made) step h fun _ => hsize).returns

/-- The text that some steps make of a program, one after the other. -/
def lowerAll (s : Settings) (steps : List Step) (source : Text) : Checked Text :=
  steps.foldlM (fun t step => do return (← lowerText s step t).2) source

/-- Each step, taken or left out, makes a text with the next property of one with the property before it.
The first property is `P` and the last is `R`. -/
inductive Carries (s : Settings) : (Text → Prop) → List Step → (Text → Prop) → Prop where
  | nil {P : Text → Prop} : Carries s P [] P
  | cons {P Q R : Text → Prop} {step : Step} {steps : List Step}
      (taken : ∀ t, P t → (lowerText s step t).Returns fun r => Q r.2) (leftOut : ∀ t, P t → Q t)
      (rest : Carries s Q steps R) : Carries s P (step :: steps) R

namespace Carries

theorem returns_lowerAll {all : List Step} (h : Carries s P all R) (hsteps : List.Sublist steps all)
    (hsource : P source) : (lowerAll s steps source).Returns R := by
  induction h generalizing steps source with
  | nil =>
    rw [sublist_nil.mp hsteps]
    exact returns_pure hsource
  | @cons P Q R step all taken leftOut _ ih =>
    cases hsteps with
    | cons _ hsteps => exact ih hsteps (leftOut source hsource)
    | cons_cons _ hsteps =>
      rw [lowerAll, foldlM_cons]
      refine Returns.bind (P := Q) ?_ fun t ht => ih hsteps ht
      exact (taken source hsource).bind fun r hr => returns_pure hr

theorem succeeds_foldl (h : Carries s P steps R) {o : Pipeline.Options} {p : Pipeline Text Text}
    {t : Pipeline.Trace} (hp : (p.run o source t).Succeeds P) :
    ((steps.foldl (fun p step => p.optional (textStage step (lowerText s step))) p).run o source
      t).Succeeds R := by
  induction h generalizing p with
  | nil => exact hp
  | cons taken leftOut _ ih =>
    refine ih (Pipeline.succeeds_optional hp (fun source _ hsource => ?_) leftOut)
    exact (taken source hsource).bind fun r hr => returns_pure ⟨r.2, rfl, hr⟩

theorem append {Q : Text → Prop} {later : List Step} (h : Carries s P steps Q)
    (hlater : Carries s Q later R) : Carries s P (steps ++ later) R := by
  induction h with
  | nil => exact hlater
  | cons taken leftOut _ ih => exact .cons taken leftOut (ih hlater)

/-- A step on programs in ASCII makes the property `Q` of their size of `P`. -/
theorem cons_isAscii {P Q : Text → Prop} (hambients : ∀ a ∈ s.ambients, a.IsAscii)
    (hsize : step = .sampling → ∀ t, P t → t.length < 2 ^ 32)
    (htaken : ∀ t, t.IsAscii → P t → (lowerText s step t).Yields fun r => Q r.2)
    (hleftOut : ∀ t, P t → Q t) (hrest : Carries s (fun t => t.IsAscii ∧ Q t) steps R) :
    Carries s (fun t => t.IsAscii ∧ P t) (step :: steps) R := by
  refine .cons (fun t ht => ?_) (fun t ht => ⟨ht.1, hleftOut t ht.2⟩) hrest
  obtain ⟨r, hr, hascii⟩ := returns_lowerText hambients step ht.1 fun heq => hsize heq t ht.2
  exact ⟨r, hr, hascii, htaken t ht.1 ht.2 r hr⟩

end Carries

/-- Before the sampling calls: directives keep the property `A` of the size of a program in ASCII, and
types make `B` of it. -/
theorem carries_types {A B : Text → Prop} (hambients : ∀ a ∈ s.ambients, a.IsAscii)
    (hdirectives : ∀ t, t.IsAscii → A t → (Directive.strip t).Yields fun r => A r.2)
    (htypes : ∀ t, t.IsAscii → A t → (TypeName.lower t).Yields B) (hAB : ∀ t, A t → B t) :
    Carries s (fun t => t.IsAscii ∧ A t) [.directives, .types] fun t => t.IsAscii ∧ B t := by
  have htypes' : ∀ t, t.IsAscii → A t → (lowerText s .types t).Yields fun r => B r.2 :=
    fun t ht hA => (htypes t ht hA).bind fun result hresult => yields_pure hresult
  exact .cons_isAscii hambients nofun hdirectives (fun _ ht => ht)
    (.cons_isAscii hambients nofun htypes' hAB .nil)

/-- From the sampling calls on: these make `C` of the property `B`, and the other steps keep it. -/
theorem carries_sampling {B C : Text → Prop} (hambients : ∀ a ∈ s.ambients, a.IsAscii)
    (hB : ∀ t, B t → t.length < 2 ^ 32)
    (hsampling : ∀ t, t.IsAscii → B t → (Sampling.lower t).Yields fun r => C r.2)
    (hBC : ∀ t, B t → C t)
    (hlater : ∀ step ∈ [Step.builtins, .globals, .parameters, .ambients], ∀ t, t.IsAscii → C t →
      (lowerText s step t).Yields fun r => C r.2) :
    Carries s (fun t => t.IsAscii ∧ B t)
      (.sampling :: [.builtins, .globals, .parameters, .ambients]) fun t => t.IsAscii ∧ C t := by
  refine .cons_isAscii hambients (fun _ => hB) hsampling hBC ?_
  have hkeep : ∀ steps, (∀ step ∈ steps, step ≠ .sampling ∧ ∀ t, t.IsAscii → C t →
      (lowerText s step t).Yields fun r => C r.2) →
      Carries s (fun t => t.IsAscii ∧ C t) steps fun t => t.IsAscii ∧ C t := by
    intro steps hsteps
    induction steps with
    | nil => exact .nil
    | cons step steps ih =>
      obtain ⟨⟨hne, hyields⟩, hsteps⟩ := forall_mem_cons.mp hsteps
      exact .cons_isAscii hambients (fun heq => absurd heq hne) hyields (fun _ ht => ht) (ih hsteps)
  exact hkeep _ fun step hmem => ⟨by rintro rfl; simp at hmem, hlater step hmem⟩

theorem carries_isAscii (hambients : ∀ a ∈ s.ambients, a.IsAscii) :
    Carries s (fun t => t.IsAscii ∧ t.length < 2 ^ 31) textSteps fun t => t.IsAscii ∧ True := by
  have htypes : Carries s (fun t => t.IsAscii ∧ t.length < 2 ^ 31) [.directives, .types]
      fun t => t.IsAscii ∧ t.length < 2 ^ 32 := by
    refine carries_types hambients (fun t ht hA r hr => ?_) (fun t ht hA r hr => ?_)
      fun t ht => by omega
    · exact Nat.lt_of_le_of_lt (Directive.length_strip ht r hr) hA
    · have := TypeName.length_lower ht r hr
      omega
  exact htypes.append (carries_sampling hambients (fun _ ht => ht) (fun _ _ _ _ _ => trivial)
    (fun _ _ => trivial) fun _ _ _ _ _ _ _ => trivial)

/-- A program of less than `2 ^ 28` bytes comes to the sampling calls with less than `2 ^ 31` delimiters,
those counted that the passes may add. -/
theorem carries_load (hambients : ∀ a ∈ s.ambients, a.IsAscii) :
    Carries s (fun t => t.IsAscii ∧ t.length < 2 ^ 28) [.directives, .types]
      fun t => t.IsAscii ∧ t.length < 2 ^ 32 ∧ weigh (load Sampling.maxPasses) t < 2 ^ 31 := by
  have hload : ∀ t : Text, t.length < 2 ^ 28 → weigh (load Sampling.maxPasses) t < 2 ^ 31 := by
    intro t ht
    have : weigh (load 8) t ≤ 8 * t.length := weigh_load_le (by decide) t
    show weigh (load 8) t < 2 ^ 31
    omega
  refine carries_types hambients (fun t ht hA r hr => ?_) (fun t ht hA r hr => ?_)
    fun t ht => ⟨by omega, hload t ht⟩
  · exact Nat.lt_of_le_of_lt (Directive.length_strip ht r hr) hA
  · have hlength := TypeName.length_lower ht r hr
    have hweigh := TypeName.weigh_lower (w := load Sampling.maxPasses) (fun _ => Nat.le_refl _)
      (load_space _) (by decide +kernel) ht r hr
    exact ⟨by omega, Nat.lt_of_le_of_lt hweigh (hload t hA)⟩

/-- Whichever steps are taken, a program of less than `2 ^ 28` bytes keeps less than `2 ^ 31`
delimiters. -/
theorem carries_delimiters (hambients : ∀ a ∈ s.ambients, a.IsAscii)
    (hplain : ∀ a ∈ s.ambients, a.Plain) :
    Carries s (fun t => t.IsAscii ∧ t.length < 2 ^ 28) textSteps
      fun t => t.IsAscii ∧ weigh (load 0) t < 2 ^ 31 := by
  refine (carries_load hambients).append (carries_sampling hambients (fun t ht => ht.1)
    (fun t ht hB r hr => ?_) (fun t ht => ?_) fun step hstep t ht hC r hr => ?_)
  · exact Nat.lt_of_le_of_lt (Sampling.weigh_lower ht r hr) hB.2
  · exact Nat.lt_of_le_of_lt (weigh_mono (load_mono (Nat.zero_le _)) t) ht.2
  · have hmade : ∀ a ∈ s.ambients, a.Made Text.IsAscii := fun a ha => (hambients a ha).made
    exact Nat.lt_of_le_of_lt (weigh_lowerText hmade hplain hstep ht r hr) hC

/-- The texts that a step goes over: the program that it is given, and what it has made of it so far,
where it goes over the program again. -/
inductive Scans (s : Settings) : Step → Text → Text → Prop where
  | given {step : Step} {t : Text} : Scans s step t t
  | pass {t u : Text} {k : Nat} (hk : k ≤ Sampling.maxPasses) (h : Sampling.passes k t = .ok u) :
      Scans s .sampling t u
  | threaded {t u v : Text} {a : Ambient} {users : List Nat} {overloads : Overloads}
      (ha : a ∈ s.ambients) (hu : Scans s .ambients t u)
      (h : Threading.threadValue u a users overloads = .ok v) : Scans s .ambients t v

/-- **What a step goes over has no more delimiters than the passes may have added.** -/
theorem Scans.weigh_lt {u : Text} (hambients : ∀ a ∈ s.ambients, a.IsAscii)
    (hplain : ∀ a ∈ s.ambients, a.Plain) (h : Scans s step t u)
    (ht : t.IsAscii ∧ weigh (load 0) t < 2 ^ 31)
    (hsampling : step = .sampling → weigh (load Sampling.maxPasses) t < 2 ^ 31) :
    u.IsAscii ∧ weigh (load 0) u < 2 ^ 31 := by
  induction h with
  | given => exact ht
  | pass hk h =>
    refine ⟨(kind_isAscii.passes ht.1).1 _ h, ?_⟩
    have hpasses := Sampling.weigh_passes (n := 0) ht.1 _ h
    rw [Nat.zero_add] at hpasses
    exact Nat.lt_of_le_of_lt (Nat.le_trans hpasses (weigh_mono (load_mono hk) _)) (hsampling rfl)
  | threaded ha _ h ih =>
    obtain ⟨hascii, hweigh⟩ := ih ht nofun
    exact ⟨(kind_isAscii.threadValue hascii (hambients _ ha).made).1 _ h,
      Nat.lt_of_le_of_lt (Threading.weigh_threadValue hascii (hplain _ ha) _ h) hweigh⟩

theorem succeeds_pipeline (hambients : ∀ a ∈ s.ambients, a.IsAscii) {f : Fragment}
    {o : Pipeline.Options} (h : source.IsAscii) (hsize : source.length < 2 ^ 31)
    {t : Pipeline.Trace} :
    ((pipeline s f).run o source t).Succeeds fun a => a.entrySymbol = f.entrySymbol := by
  have hempty : ((Pipeline.empty : Pipeline Text Text).run o source t).Succeeds
      fun t => t.IsAscii ∧ t.length < 2 ^ 31 := returns_pure ⟨source, rfl, h, hsize⟩
  have hentry : entryStage.Total (fun t => t.IsAscii ∧ True) fun _ => True := fun source _ h =>
    (Extracted.returns_extract h.1).bind fun r _ => returns_pure ⟨r.2, rfl, trivial⟩
  have hassembly : (assemblyStage f).Total (fun _ => True) fun a => a.entrySymbol = f.entrySymbol :=
    fun e _ _ => returns_pure ⟨f.assemble e, rfl, rfl⟩
  have htext := (carries_isAscii hambients).succeeds_foldl hempty
  exact Pipeline.succeeds_stage (Pipeline.succeeds_stage htext hentry) hassembly

end

/-- The items and the functions of the text can be read, and their offsets are in order and inside it.
The depth at which a stretch of its code ends, counted from where it starts, fits into 32 bits. -/
def Scannable (t : Text) : Prop :=
  (∀ item ∈ t.mask.items, item.Within t.length) ∧
    ((Program.functions t).Returns fun fs => ∀ f ∈ fs, f.Sound t.length) ∧
    ∀ r, -2 ^ 31 ≤ (t.mask.cut r).weight ∧ (t.mask.cut r).weight < 2 ^ 31

theorem scannable_of_isAscii (h : t.IsAscii) (hsize : weigh (load 0) t < 2 ^ 31) : Scannable t := by
  refine ⟨fun item hitem => ?_, Program.returns_functions h, fun r => ?_⟩
  · have := Item.within_of_mem_items hitem
    rwa [length_mask] at this
  · have hdepth := natAbs_weight_le (t.mask.cut r)
    have hmask := weigh_mask_cut_le (load_space 0) t r
    have hcut := weigh_le_of_sublist (w := load 0) (t.cut_sublist r)
    omega

/-- The steps of a lowerer. -/
def Lowerer.settings (l : Lowerer) : Settings :=
  { modulus := l.options.modulus, propagation := l.options.propagation }

theorem Lowerer.exists_run_of_lower {l : Lowerer} {output : Output}
    (h : l.lower source = .ok (.ok output)) :
    ∃ trace, l.pipeline.run l.options.pipeline source {} = .ok (.ok output.assembled, trace) ∧
      output.diagnostics = trace.journal.items := by
  obtain ⟨⟨made, trace⟩, hrun, h⟩ := exists_of_bind h
  cases made with
  | error => cases h
  | ok assembled =>
    cases h
    exact ⟨trace, hrun, rfl⟩

theorem Lowerer.exists_lower (l : Lowerer) (h : source.IsAscii) (hsize : source.length < 2 ^ 31) :
    ∃ output, l.lower source = .ok (.ok output) ∧
      output.assembled.entrySymbol = l.options.entrySymbol := by
  obtain ⟨⟨_, trace⟩, hrun, a, rfl, ha⟩ := succeeds_pipeline (s := l.settings) Ambient.isAscii_all
    (f := { entrySymbol := l.options.entrySymbol, modulus := l.options.modulus })
    (o := l.options.pipeline) h hsize (t := {})
  have hpipeline : l.pipeline.run l.options.pipeline source {} = .ok (.ok a, trace) := hrun
  refine ⟨⟨a, trace.journal.items, trace.log⟩, ?_, ha⟩
  rw [Lowerer.lower, hpipeline]
  rfl

/-- **Lowering a program in ASCII of less than `2 ^ 28` bytes returns**, however malformed the program
is, whichever steps are left out and whatever the other options are. Whichever steps have been taken,
they have returned a program that can be scanned without leaving it, and in which no depth is beyond 32
bits; so are all programs that the next step goes over. -/
theorem Lowerer.lower_of_isAscii {o : Options} {l : Lowerer} (hl : Lowerer.ofOptions o = .ok l)
    {source : Text} (h : source.IsAscii) (hsize : source.length < 2 ^ 28) :
    (∃ output, l.lower source = .ok (.ok output) ∧ output.assembled.entrySymbol = o.entrySymbol) ∧
      (∀ steps : List Step, List.Sublist steps textSteps →
        (lowerAll l.settings steps source).Returns Scannable) ∧
      ∀ (step : Step) (steps : List Step) (t u : Text),
        List.Sublist steps (textSteps.takeWhile (· != step)) →
        lowerAll l.settings steps source = .ok t → Scans l.settings step t u → Scannable u := by
  have hoptions : l.options = o := by
    unfold ofOptions at hl
    split at hl <;> cases hl
    rfl
  have hdelimiters : ∀ steps : List Step, List.Sublist steps textSteps →
      (lowerAll l.settings steps source).Returns fun t => t.IsAscii ∧ weigh (load 0) t < 2 ^ 31 :=
    fun steps hsteps => (carries_delimiters (s := l.settings) Ambient.isAscii_all
      Ambient.plain_all).returns_lowerAll hsteps ⟨h, hsize⟩
  refine ⟨hoptions ▸ l.exists_lower h (by omega), fun steps hsteps => ?_,
    fun step steps t u hsteps ht hscans => ?_⟩
  · exact (hdelimiters steps hsteps).mono fun t ht => scannable_of_isAscii ht.1 ht.2
  · obtain ⟨t', ht', hweigh⟩ := hdelimiters steps (hsteps.trans (takeWhile_sublist _))
    obtain rfl : t = t' := Except.ok.inj (ht.symm.trans ht')
    have hsampling : step = .sampling → weigh (load Sampling.maxPasses) t < 2 ^ 31 := by
      rintro rfl
      obtain ⟨t', ht', -, -, hload⟩ := (carries_load (s := l.settings)
        Ambient.isAscii_all).returns_lowerAll hsteps ⟨h, hsize⟩
      rwa [Except.ok.inj (ht.symm.trans ht')]
    obtain ⟨hascii, hlight⟩ :=
      hscans.weigh_lt Ambient.isAscii_all Ambient.plain_all hweigh hsampling
    exact scannable_of_isAscii hascii hlight

/-- A program in which nothing matches: closers before openers, a directive between them, and a
comment, a parameter list and a body that nothing ends. -/
def malformed : Text := "\x7d])#if (\n/* c */ void f(float a[ \x7b iTime; mod(1.0, /*"

theorem Lowerer.lower_of_isAscii_malformed :
    malformed.IsAscii ∧ malformed.length < 2 ^ 28 ∧
      ∃ l, Lowerer.ofOptions { propagation := .transitive, modulus := .exact } = .ok l ∧
        (∃ output, l.lower malformed = .ok (.ok output) ∧
          output.assembled.entrySymbol = defaultEntrySymbol) ∧
        (∀ steps : List Step, List.Sublist steps textSteps →
          (lowerAll l.settings steps malformed).Returns Scannable) ∧
        ∀ (step : Step) (steps : List Step) (t u : Text),
          List.Sublist steps (textSteps.takeWhile (· != step)) →
          lowerAll l.settings steps malformed = .ok t → Scans l.settings step t u → Scannable u := by
  have hascii : malformed.IsAscii := isAscii_ofList (by decide)
  have hsize : malformed.length < 2 ^ 28 := by
    unfold malformed
    rw [ofString_ofList]
    decide
  have hsymbol : isEntrySymbol defaultEntrySymbol = true := by decide +kernel
  have hl : Lowerer.ofOptions { propagation := .transitive, modulus := .exact } =
      .ok ⟨{ propagation := .transitive, modulus := .exact }⟩ := if_pos hsymbol
  exact ⟨hascii, hsize, _, hl, Lowerer.lower_of_isAscii hl hascii hsize⟩

end Lowering

namespace Sampling

/-- A sampling call with nothing but blanks between its parentheses. -/
def blankCall (n : Nat) : Text := (" texture" : Text) ++ 40 :: (replicate n 32 ++ [41])

theorem ofString_texture :
    (" texture" : Text) = [32, 116, 101, 120, 116, 117, 114, 101] := by
  rw [ofString_ofList]
  rfl

theorem mask_blankCall (n : Nat) : (blankCall n).mask = blankCall n := by
  have hslash : 47 ∉ blankCall n := by
    have hname : (47 : UInt8) ∉ (" texture" : Text) := by rw [ofString_texture]; decide
    simp [blankCall, hname, mem_replicate]
  have hmask := maskFrom_code_append hslash []
  rwa [append_nil, maskFrom, append_nil] at hmask

theorem isAscii_blankCall (n : Nat) : (blankCall n).IsAscii := by
  have hname : (" texture" : Text).IsAscii := isAscii_ofList (by decide)
  refine hname.append (forall_mem_cons.mpr ⟨by decide, Text.IsAscii.append (fun b hb => ?_) (by decide)⟩)
  rw [eq_of_mem_replicate hb]
  decide

theorem openings_blankCall (n : Nat) :
    openings [] (blankCall n) = [((" texture" : Text).reverse, replicate n 32 ++ [41])] := by
  have hbehind : ∀ left, openings left (replicate n 32 ++ [41]) = [] := by
    intro left
    refine eq_nil_iff_forall_not_mem.mpr fun o ho => ?_
    obtain ⟨x, hx, -⟩ := mem_openings.mp ho
    have hmem : (40 : UInt8) ∈ replicate n 32 ++ [41] := hx ▸ by simp
    simp [mem_replicate] at hmem
  have hfront : openings [] (" texture" : Text) = [] := by rw [ofString_texture]; decide
  rw [blankCall, openings_append, hfront, map_nil, nil_append, openings, hbehind, append_nil]
  rfl

theorem callSites_blankCall (n : Nat) (f : Function) :
    Call.sites (blankCall n) f.name = if f = .texture then [⟨⟨1, 8⟩, 8⟩] else [] := by
  have hname : Function.texture.name = [116, 101, 120, 116, 117, 114, 101] := by
    rw [Function.name, ofString_ofList]
    rfl
  have hnamed : named? (" texture" : Text).reverse = some Function.texture.name := by
    rw [hname, ofString_texture]
    decide
  have hcall : Call.named Function.texture.name (" texture" : Text).reverse
      (" texture" : Text).reverse.length = ⟨⟨1, 8⟩, 8⟩ := by
    rw [hname, ofString_texture]
    decide
  rw [Call.sites_eq f.isWord_name, openings_blankCall]
  by_cases hf : f = .texture
  · rw [hf, if_pos rfl, filter_cons_of_pos (by simp [hnamed]), filter_nil, map_singleton, hcall]
  · have hne : Function.texture.name ≠ f.name := fun heq => hf (Function.name_inj heq).symm
    rw [if_neg hf, filter_cons_of_neg (by simp [hnamed, hne]), filter_nil, map_nil]

/-- The call is found, cannot be rewritten, and reaches to the end of the program. -/
theorem site?_blankCall (n : Nat) (f : Function) :
    site? (blankCall n) f ⟨⟨1, 8⟩, 8⟩ = .ok (some ⟨⟨1, n + 10⟩, none⟩) := by
  have hfront : (" texture" : Text).length = 8 := by rw [ofString_texture]; rfl
  have hclosed : ParensClosed (replicate n 32) :=
    Delimiter.behind?_of_not_mem (by simp [mem_replicate, Delimiter.opener])
      (by simp [mem_replicate, Delimiter.closer]) 0
  have hmatching : (blankCall n).matching? 8 = some (9 + n) :=
    matching?_paren.mpr ⟨replicate n 32, [], rfl, hclosed, by rw [length_replicate]; rfl⟩
  have hlength : (blankCall n).length = n + 10 := by
    simp only [blankCall, length_append, length_cons, length_replicate, length_nil, hfront]
    omega
  have hargs : (blankCall n).splitArgs 8 (9 + n) = .ok [] := by
    obtain ⟨args, -, hargs⟩ := splitArgs_arranged (t := blankCall n) (show 8 < 9 + n by omega)
      (by omega)
    have hcut : (blankCall n).cut ⟨8 + 1, 9 + n⟩ = replicate n 32 := by
      have hsplit : blankCall n = (" texture" : Text) ++ [40] ++ replicate n 32 ++ [41] := by
        simp [blankCall]
      have hcut := cut_append ((" texture" : Text) ++ [40]) (replicate n 32) [41]
      rw [length_append, hfront, length_replicate] at hcut
      rw [hsplit]
      exact hcut
    rw [hargs, hcut, if_pos (by simp [isBlank])]
  unfold site? Call.closeParen?
  rw [mask_blankCall, hmatching]
  simp only [hargs]
  rw [show 9 + n + 1 = n + 10 by omega]
  rfl

theorem sites_blankCall (n : Nat) : sites (blankCall n) = .ok [⟨⟨1, n + 10⟩, none⟩] := by
  have hsites : ∀ f : Function, sitesOf (blankCall n) f =
      .ok (if f = .texture then [⟨⟨1, n + 10⟩, none⟩] else []) := by
    intro f
    unfold sitesOf
    rw [mask_blankCall, callSites_blankCall]
    cases f with
    | texture => simp [site?_blankCall]
    | texture2D => rfl
    | textureLod => rfl
  unfold sites
  simp only [mapM_cons, mapM_nil, hsites]
  rfl

/-- Where the end of the call does not fit into 32 bits, the range of its span is inverted. -/
theorem lower_blankCall {n : Nat} (hn : n + 10 = 2 ^ 32) : lower (blankCall n) = .error .inverted := by
  unfold lower
  rw [sites_blankCall, hn]
  rfl

end Sampling

namespace Lowering

theorem run_textStage_error {step : Step} {lower : Text → Checked (List Diagnostic × Text)}
    {source : Text} {e : Fault} (h : lower source = .error e) (j : Pipeline.Journal) :
    (textStage step lower).run source j = .error e := by
  simp only [textStage, h]
  rfl

/-- **Lowering fails on a program of `2 ^ 32` bytes**, all but ten of them blanks: a sampling call that
cannot be rewritten is reported with a span, and the end of the span wraps to zero. -/
theorem Lowerer.lower_inverts_span :
    let source := Sampling.blankCall (2 ^ 32 - 10)
    let o : Options := { pipeline := { disabledStages := [Step.directives.name, Step.types.name] } }
    source.IsAscii ∧ ∃ l, Lowerer.ofOptions o = .ok l ∧ l.lower source = .error .inverted := by
  intro source o
  have hsymbol : isEntrySymbol o.entrySymbol = true := by decide +kernel
  refine ⟨Sampling.isAscii_blankCall _, ⟨o⟩, if_pos hsymbol, ?_⟩
  have hlower : Sampling.lower source = .error .inverted := Sampling.lower_blankCall (by decide)
  clear_value source
  have hstart : Pipeline.empty.run o.pipeline source {} = .ok (.ok source, {}) := rfl
  have hdirectives := Pipeline.run_optional_leftOut hstart
    (s := textStage .directives (lowerText {} .directives)) (by decide +kernel)
  have htypes := Pipeline.run_optional_leftOut hdirectives
    (s := textStage .types (lowerText {} .types)) (by decide +kernel)
  have hsampling := Pipeline.run_optional_fails htypes
    (s := textStage .sampling (lowerText {} .sampling)) (by decide +kernel)
    fun j => run_textStage_error hlower j
  have hrun : (pipeline ⟨o⟩).run o.pipeline source {} = .error .inverted :=
    Pipeline.run_stage_error (Pipeline.run_stage_error (Pipeline.run_optional_error
      (Pipeline.run_optional_error (Pipeline.run_optional_error
        (Pipeline.run_optional_error hsampling)))))
  rw [lower, hrun]
  rfl

/-- A comment of two lines behind a parameter that ends in a slash and a `&`. -/
def joinedComment : Text := "float f(in a/&/*\nvec2*/);\n"

/-- **The name of a type in a comment may become code**, in which it is not replaced. The parameter
loses its `&`, so the slash before it joins the comment to one that ends with the line. -/
theorem Lowerer.lower_uncovers_type : joinedComment.IsCode ∧ ∃ l output, Lowerer.ofOptions {} = .ok l ∧
    l.lower joinedComment = .ok (.ok output) ∧ output.assembled.source.mask.containsWord "vec2" := by
  have h : ∃ l ∈ (Lowerer.ofOptions {}).toOption, ∃ r ∈ (l.lower joinedComment).toOption,
    ∃ output ∈ r.toOption,
      output.assembled.source.mask.containsWord "vec2" := by decide +kernel
  obtain ⟨l, hl, r, hr, output, houtput, hword⟩ := h
  obtain rfl := eq_ok_of_mem houtput
  exact ⟨by decide +kernel, l, output, eq_ok_of_mem hl, eq_ok_of_mem hr, hword⟩

end Lowering

end GlslToMetal
