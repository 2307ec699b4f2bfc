import GlslToMetal.Effect.Session
import GlslToMetal.Proofs.Lowering.Total
import GlslToMetal.Proofs.Pipeline.Run

/-! A session over its operations. An operation writes the slot of its own effect, and what it writes
does not depend on what was there, so behind any run an effect shows what the last operation on it has
left. -/

namespace GlslToMetal

open List Text Checked

variable {source : Text}

namespace Lowering.Lowerer

/-- The fragment function of a lowered program has the name that was asked for. -/
theorem entrySymbol_of_lower {l : Lowerer} {output : Output}
    (h : l.lower source = .ok (.ok output)) : output.assembled.entrySymbol = l.options.entrySymbol := by
  obtain ⟨trace, hrun, -⟩ := exists_run_of_lower h
  obtain ⟨extracted, t, said, -, hassembly, -⟩ := Pipeline.exists_of_run_stage hrun
  obtain ⟨-, h⟩ := Prod.mk.inj (Except.ok.inj hassembly)
  rw [← Except.ok.inj h]
  rfl

end Lowering.Lowerer

/-- What can be done to a session. -/
inductive Session.Operation where
  | install (kind : EffectKind) (source : Text)
  | installFile (kind : EffectKind) (path : String)
  | clear (kind : EffectKind)

/-- The files that shaders are read from: what reading a path gives. -/
abbrev Shelf := String → Except FileError Text

namespace Session

namespace Operation

/-- The effect that an operation is about. -/
def kind : Operation → EffectKind
  | install kind _ | installFile kind _ | clear kind => kind

/-- The shader that an operation installs, or why it cannot be read. -/
def source? (files : Shelf) : Operation → Option (Except Lowering.Error Text)
  | install _ source => some (.ok source)
  | installFile _ path => some (Lowering.sourceAt path (files path))
  | clear _ => none

end Operation

/-- What a session tells about an effect. -/
structure View (Pipeline : Type) where
  status : EffectStatus
  pipeline : Pipeline
  assembled? : Option Assembled

def view {Pipeline : Type} (s : Session Pipeline) (fallback : Pipeline) (kind : EffectKind) : View Pipeline :=
  ⟨s.status kind, s.pipeline fallback kind, s.assembled? kind⟩

/-- The last of some operations that is about an effect. -/
def lastOn (kind : EffectKind) (ops : List Operation) : Option Operation :=
  (ops.filter (·.kind = kind)).getLast?

end Session

namespace Studio

open Session

variable {Vertex Function Format Pipeline : Type} (studio : Studio Vertex Function Format Pipeline)
  (files : Shelf)

/-- Does one operation, with the status that an installation gives back. -/
def perform (s : Session Pipeline) : Operation → Checked (Session Pipeline × Option EffectStatus)
  | .install kind source => return (← studio.install s kind source).map id some
  | .installFile kind path =>
    return (← studio.installFile s kind (Lowering.sourceAt path (files path))).map id some
  | .clear kind => return (s.clear kind, none)

/-- Does some operations, with all that they give back. -/
def run (s : Session Pipeline) : List Operation → Checked (Session Pipeline × List (Option EffectStatus))
  | [] => return (s, [])
  | op :: ops => do
    let (s, told) ← studio.perform files s op
    let (s, more) ← run s ops
    return (s, told :: more)

/-- What an effect shows behind the last operation on it. -/
inductive Shows (kind : EffectKind) : Option Operation → View Pipeline → Prop where
  | untouched : Shows kind none ⟨.default, studio.fallback, none⟩
  | cleared : Shows kind (some (.clear kind)) ⟨.default, studio.fallback, none⟩
  /-- The program is the lowered shader with the fragment function of the effect, and the pipeline is
  linked from this function. -/
  | installed {op : Operation} {source : Text} {output : Lowering.Output} {function : Function}
    {pipeline : Pipeline}
      (hsource : op.source? files = some (.ok source))
      (hlower : (studio.lowerer kind).lower source = .ok (.ok output))
      (hsymbol : output.assembled.entrySymbol = kind.entrySymbol)
      (hcompile : studio.graphics.compile output.assembled.source kind.entrySymbol = .ok function)
      (hlink : studio.graphics.link studio.vertex function studio.format = .ok pipeline) :
      Shows kind (some op) ⟨.custom, pipeline, some output.assembled⟩
  | unreadable {op : Operation} {e : Lowering.Error} (hsource : op.source? files = some (.error e)) :
      Shows kind (some op) ⟨.fallback e.message, studio.fallback, none⟩
  | unlowered {op : Operation} {source : Text} {e : Lowering.Error}
      (hsource : op.source? files = some (.ok source))
      (hlower : (studio.lowerer kind).lower source = .ok (.error e)) :
      Shows kind (some op) ⟨.fallback e.message, studio.fallback, none⟩
  | uncompiled {op : Operation} {source : Text} {output : Lowering.Output} {message : String}
      (hsource : op.source? files = some (.ok source))
      (hlower : (studio.lowerer kind).lower source = .ok (.ok output))
      (hcompile : studio.graphics.compile output.assembled.source kind.entrySymbol = .error message) :
      Shows kind (some op)
        ⟨.fallback (BuildError.compile kind.entrySymbol message output.assembled.source).message,
          studio.fallback, none⟩
  | unlinked {op : Operation} {source : Text} {output : Lowering.Output} {function : Function}
    {message : String}
      (hsource : op.source? files = some (.ok source))
      (hlower : (studio.lowerer kind).lower source = .ok (.ok output))
      (hcompile : studio.graphics.compile output.assembled.source kind.entrySymbol = .ok function)
      (hlink : studio.graphics.link studio.vertex function studio.format = .error message) :
      Shows kind (some op)
        ⟨.fallback (BuildError.link kind.entrySymbol message output.assembled.source).message,
          studio.fallback, none⟩

end Studio

namespace Session

variable {Pipeline : Type}

theorem set_self (s : Session Pipeline) (kind : EffectKind) (slot : Option (Slot Pipeline)) :
    s.set kind slot kind = slot := if_pos rfl

theorem set_of_ne (s : Session Pipeline) {kind k : EffectKind} (h : k ≠ kind)
    (slot : Option (Slot Pipeline)) :
    s.set kind slot k = s k := if_neg h

/-- What a slot shows. -/
def slotView {Pipeline : Type} (fallback : Pipeline) : Option (Slot Pipeline) → View Pipeline
  | none => ⟨.default, fallback, none⟩
  | some (.custom built) => ⟨.custom, built.pipeline, some built.assembled⟩
  | some (.failed reason) => ⟨.fallback reason, fallback, none⟩

theorem view_eq (s : Session Pipeline) (fallback : Pipeline) (kind : EffectKind) :
    s.view fallback kind = slotView fallback (s kind) := by
  unfold view status Session.pipeline assembled?
  rcases s kind with _ | _ | _ <;> rfl

theorem lastOn_concat (k : EffectKind) (ops : List Operation) (op : Operation) :
    lastOn k (ops ++ [op]) = if op.kind = k then some op else lastOn k ops := by
  unfold lastOn
  by_cases h : op.kind = k <;> simp [h]

end Session

namespace Studio

open Session

variable {Vertex Function Format Pipeline : Type} {studio : Studio Vertex Function Format Pipeline}
  {files : Shelf}

/-- The slot that an installation writes, by what the build came to. -/
def slotOf : Except BuildError (Built Pipeline) → Slot Pipeline
  | .ok built => .custom built
  | .error e => .failed e.message

theorem shows_of_build {op : Operation} (hsource : op.source? files = some (.ok source))
    {r : Except BuildError (Built Pipeline)}
    (h : studio.graphics.build (studio.lowerer op.kind) source studio.vertex studio.format = .ok r) :
    studio.Shows files op.kind (some op) (slotView studio.fallback (some (slotOf r))) := by
  obtain ⟨lowered, hlower, h⟩ := exists_of_bind h
  cases lowered with
  | error e =>
    cases h
    exact .unlowered hsource hlower
  | ok output =>
    have hsymbol : output.assembled.entrySymbol = op.kind.entrySymbol :=
      Lowering.Lowerer.entrySymbol_of_lower hlower
    dsimp only at h
    rw [hsymbol] at h
    split at h
    · next hcompile =>
      cases h
      exact .uncompiled hsource hlower hcompile
    · next hcompile =>
      split at h
      · next hlink =>
        cases h
        exact .unlinked hsource hlower hcompile hlink
      · next hlink =>
        cases h
        exact .installed hsource hlower hsymbol hcompile hlink

theorem exists_build {kind : EffectKind} {lowered : Except Lowering.Error Lowering.Output}
    (h : (studio.lowerer kind).lower source = .ok lowered) :
    ∃ r, studio.graphics.build (studio.lowerer kind) source studio.vertex studio.format = .ok r := by
  unfold Graphics.build
  rw [h]
  cases lowered with
  | error e => exact ⟨_, rfl⟩
  | ok output =>
    dsimp only [bind, Except.bind]
    split
    · exact ⟨_, rfl⟩
    · split <;> exact ⟨_, rfl⟩

/-- An installation writes what the build came to, and gives back the status that it has written. -/
theorem install_eq (s : Session Pipeline) (kind : EffectKind) (source : Text) : studio.install s kind source =
      (studio.graphics.build (studio.lowerer kind) source studio.vertex studio.format).map fun r =>
        (s.set kind (some (slotOf r)), (slotView studio.fallback (some (slotOf r))).status) := by
  unfold install
  cases studio.graphics.build (studio.lowerer kind) source studio.vertex studio.format with
  | error f => rfl
  | ok r => cases r <;> rfl

theorem exists_install (s : Session Pipeline) {op : Operation}
    (hsource : op.source? files = some (.ok source)) {lowered : Except Lowering.Error Lowering.Output}
    (h : (studio.lowerer op.kind).lower source = .ok lowered) :
    ∃ slot, studio.Shows files op.kind (some op) (slotView studio.fallback slot) ∧
      studio.install s op.kind source = .ok (s.set op.kind slot, (slotView studio.fallback slot).status) := by
  obtain ⟨r, hbuild⟩ := exists_build h
  refine ⟨_, shows_of_build hsource hbuild, ?_⟩
  rw [install_eq, hbuild]
  rfl

theorem perform_of_source (s : Session Pipeline) {op : Operation}
    (h : op.source? files = some (.ok source)) :
    studio.perform files s op = (studio.install s op.kind source).map (Prod.map id some) := by
  cases op with
  | clear kind => cases h
  | install kind given =>
    cases h
    rfl
  | installFile kind path =>
    rw [perform, Option.some_inj.1 h]
    rfl

theorem perform_of_unreadable (s : Session Pipeline) {op : Operation} {e : Lowering.Error}
    (h : op.source? files = some (.error e)) :
    studio.perform files s op = .ok (s.set op.kind (some (.failed e.message)),
      some (.fallback e.message)) := by
  cases op with
  | clear kind => cases h
  | install kind given => cases h
  | installFile kind path =>
    rw [perform, Option.some_inj.1 h]
    rfl

/-- The shader of an operation, if it has one, is lowered without a fault. -/
def Returns (studio : Studio Vertex Function Format Pipeline) (files : Shelf) (op : Operation) : Prop :=
  ∀ source, op.source? files = some (.ok source) → ∃ r, (studio.lowerer op.kind).lower source = .ok r

/-- **One operation** writes the slot of its effect, whatever was there, and gives back the status that
it has written. It returns where lowering does. -/
theorem exists_perform (s : Session Pipeline) {op : Operation} (h : studio.Returns files op) :
    ∃ slot, studio.Shows files op.kind (some op) (slotView studio.fallback slot) ∧
      studio.perform files s op = .ok (s.set op.kind slot,
        (op.source? files).map fun _ => (slotView studio.fallback slot).status) := by
  rcases hsource : op.source? files with _ | _ | source
  · cases op with
    | clear kind => exact ⟨none, .cleared, rfl⟩
    | install kind source => cases hsource
    | installFile kind path => cases hsource
  · exact ⟨_, .unreadable hsource, perform_of_unreadable s hsource⟩
  · obtain ⟨_, hlower⟩ := h source hsource
    obtain ⟨slot, hshows, hinstall⟩ := exists_install s hsource hlower
    refine ⟨slot, hshows, ?_⟩
    rw [perform_of_source s hsource, hinstall]
    rfl

theorem run_cons_of_perform {s s' : Session Pipeline} {op : Operation} {told : Option EffectStatus}
    (h : studio.perform files s op = .ok (s', told)) (ops : List Operation) :
    studio.run files s (op :: ops) = (studio.run files s' ops).map fun r => (r.1, told :: r.2) := by
  rw [run, h]
  rfl

/-- **A run** leaves every effect as the last operation on it has, and gives back the status that each
installation has written. -/
theorem exists_run {s : Session Pipeline} {done : List Operation}
    (hs : ∀ k, studio.Shows files k (lastOn k done) (s.view studio.fallback k)) {ops : List Operation}
    (h : ∀ op ∈ ops, studio.Returns files op) :
    ∃ s' told, studio.run files s ops = .ok (s', told) ∧
      (∀ k, studio.Shows files k (lastOn k (done ++ ops)) (s'.view studio.fallback k)) ∧
      ∀ i op, ops[i]? = some op → ∃ t more, studio.run files s (ops.take (i + 1)) = .ok (t, more) ∧
        told[i]? = some ((op.source? files).map fun _ => t.status op.kind) := by
  induction ops generalizing s done with
  | nil =>
    refine ⟨s, [], rfl, ?_, fun i op hop => ?_⟩
    · rwa [append_nil]
    · cases hop
  | cons op ops ih =>
    obtain ⟨hop, hops⟩ := forall_mem_cons.1 h
    obtain ⟨slot, hshows, hperform⟩ := exists_perform s hop
    have hview : (s.set op.kind slot).view studio.fallback op.kind = slotView studio.fallback slot := by
      rw [view_eq, set_self]
    have hnext : ∀ k, studio.Shows files k (lastOn k (done ++ [op]))
        ((s.set op.kind slot).view studio.fallback k) := by
      intro k
      rw [lastOn_concat]
      split
      · next hk => exact hk ▸ hview ▸ hshows
      · next hk =>
        rw [view_eq, set_of_ne s (Ne.symm hk), ← view_eq]
        exact hs k
    obtain ⟨s', told, hrun, hlast, htold⟩ := ih hnext hops
    refine ⟨s', _, by rw [run_cons_of_perform hperform, hrun]; rfl, ?_, ?_⟩
    · simpa using hlast
    · intro i later hlater
      cases i with
      | zero =>
        cases hlater
        refine ⟨_, _, run_cons_of_perform hperform [], congrArg some ?_⟩
        rw [← hview]
        rfl
      | succ i =>
        obtain ⟨t, more, ht, htell⟩ := htold i later hlater
        exact ⟨t, _, by rw [take_succ_cons, run_cons_of_perform hperform, ht]; rfl, htell⟩

end Studio

end GlslToMetal
