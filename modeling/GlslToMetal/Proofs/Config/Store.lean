import GlslToMetal.Config.Store
import GlslToMetal.Proofs.Command.Lower

/-! Which of several files of settings counts. The files in the usual places are laid over each other, and the
two sections that say how to lower and what to compile with are taken over as wholes: each comes from the last
file in which it is not the default. So a key keeps the value of the last file that sets it only if that file
is also the one from which its section comes. The shaders of effects are laid over one by one. -/

namespace GlslToMetal.Config

open List

open Toml (Value Table)

/-- The document in a file. -/
def documentAt? (w : World) (path : String) : Option Table :=
  match w.files.readText w.cwd path with
  | .ok content => Toml.parse? content.chars
  | .error _ => none

/-- A file of settings. -/
structure Layer (w : World) where
  path : String
  document : Table
  config : Config
  reads : documentAt? w path = some document
  means : ofTable? document = some config

/-- Those of the usual places in which there is a file. -/
def existing (w : World) (user : UserDirectories) : List String :=
  (candidates user).filter (w.files.isFile w.cwd)

/-- The last of some values that is not the default, and the default if there is none. -/
def lastOther {α : Type} [DecidableEq α] (default : α) (xs : List α) : α :=
  (xs.filter (· ≠ default)).getLast?.getD default

/-- The keys of the sections that are taken over as wholes. -/
inductive Key where
  | entrySymbol
  | propagation
  | modulus
  | disabledStages
  | printStages
  | plainDiagnostics
  | program
  | args
  deriving DecidableEq

namespace Key

def name : Key → String
  | entrySymbol => "entry_symbol"
  | propagation => "propagation"
  | modulus => "mod_semantics"
  | disabledStages => "disabled_stages"
  | printStages => "print_stages"
  | plainDiagnostics => "plain_diagnostics"
  | program => "program"
  | args => "args"

/-- The section of a key, and the keys of the section in order. -/
def home : Key → String × List String
  | program | args => ("compiler", ["program", "args"])
  | _ => ("transpile", loweringKeys)

/-- The value that a document sets for a key. -/
def value? (key : Key) (d : Table) : Option Value :=
  ((d.get? key.home.1).bind (section? key.home.2)).bind (·.get? key.name)

/-- The settings have the value for the key. -/
def Holds (c : Config) (v : Value) : Key → Prop
  | entrySymbol => (string? v).map some = some c.lowering.entrySymbol?
  | propagation => choice? Propagation.ofName? v = some c.lowering.propagation
  | modulus => choice? Modulus.ofName? v = some c.lowering.modulus
  | disabledStages => strings? v = some c.lowering.disabledStages
  | printStages => boolean? v = some c.lowering.printStages
  | plainDiagnostics => boolean? v = some c.lowering.plainDiagnostics
  | program => string? v = some c.toolchain.program
  | args => strings? v = some c.toolchain.args

/-- The section of the key is not the default. -/
def Alters (c : Config) : Key → Prop
  | program | args => c.toolchain ≠ .xcrun
  | _ => c.lowering ≠ {}

/-- The settings agree in the section of the key. -/
def Agree (c d : Config) : Key → Prop
  | program | args => c.toolchain = d.toolchain
  | _ => c.lowering = d.lowering

theorem Agree.holds {key : Key} {c d : Config} (h : key.Agree c d) {v : Value}
    (hd : key.Holds d v) : key.Holds c v := by
  cases key <;> dsimp only [Agree, Holds] at h hd ⊢ <;> rwa [h]

end Key

/-- The value that a document sets for the shader of an effect. -/
def shader? (kind : EffectKind) (d : Table) : Option Value :=
  match d.get? "effects" with
  | some (.table _ entries) => Table.get? entries kind.name
  | _ => none

/-! ### What a document says -/

theorem decode_of_field? {α : Type} {t : Table} {key : String} {decode : Value → Option α}
    {default a : α} {v : Value}
    (h : field? t key decode default = some a) (hv : t.get? key = some v) : decode v = some a := by
  rwa [field?, hv] at h

theorem sections_of_ofTable? {d : Table} {c : Config} (h : ofTable? d = some c) :
    field? d "transpile" lowering? {} = some c.lowering ∧
      field? d "compiler" toolchain? .xcrun = some c.toolchain ∧
      field? d "effects" effects? (fun _ => none) = some c.effects := by
  unfold ofTable? at h
  simp only [bind, Option.bind_eq_some_iff] at h
  obtain ⟨lowering, hlowering, toolchain, htoolchain, effects, heffects, h⟩ := h
  cases h
  exact ⟨hlowering, htoolchain, heffects⟩

theorem fields_of_lowering? {v : Value} {l : LoweringConfig} {t : Table} (h : lowering? v = some l)
    (ht : section? loweringKeys v = some t) :
    field? t "entry_symbol" (fun v => (string? v).map some) none = some l.entrySymbol? ∧
      field? t "propagation" (choice? Propagation.ofName?) .singleHop = some l.propagation ∧
      field? t "mod_semantics" (choice? Modulus.ofName?) .approximate = some l.modulus ∧
      field? t "disabled_stages" strings? [] = some l.disabledStages ∧
      field? t "print_stages" boolean? false = some l.printStages ∧
      field? t "plain_diagnostics" boolean? false = some l.plainDiagnostics := by
  unfold lowering? at h
  simp only [ht, bind, Option.bind_some, Option.bind_eq_some_iff] at h
  obtain ⟨symbol, hsymbol, propagation, hpropagation, modulus, hmodulus, disabled, hdisabled,
    printed, hprinted, plain,
    hplain, h⟩ := h
  cases h
  exact ⟨hsymbol, hpropagation, hmodulus, hdisabled, hprinted, hplain⟩

theorem fields_of_toolchain? {v : Value} {c : Toolchain} {t : Table} (h : toolchain? v = some c)
    (ht : section? ["program", "args"] v = some t) :
    field? t "program" string? Toolchain.xcrun.program = some c.program ∧
      field? t "args" strings? Toolchain.xcrun.args = some c.args := by
  unfold toolchain? at h
  simp only [ht, bind, Option.bind_some, Option.bind_eq_some_iff] at h
  obtain ⟨program, hprogram, args, hargs, h⟩ := h
  cases h
  exact ⟨hprogram, hargs⟩

/-- **A document means the values that it sets.** -/
theorem holds_of_value? {d : Table} {c : Config} (hc : ofTable? d = some c) {key : Key} {v : Value}
    (hv : key.value? d = some v) : key.Holds c v := by
  obtain ⟨hlowering, htoolchain, -⟩ := sections_of_ofTable? hc
  obtain ⟨t, ht, hget⟩ := Option.bind_eq_some_iff.mp hv
  obtain ⟨s, hs, hsection⟩ := Option.bind_eq_some_iff.mp ht
  have hfields {t : Table} (hd : d.get? "transpile" = some s) :=
    @fields_of_lowering? s c.lowering t (decode_of_field? hlowering hd)
  have htools {t : Table} (hd : d.get? "compiler" = some s) :=
    @fields_of_toolchain? s c.toolchain t (decode_of_field? htoolchain hd)
  cases key with
  | entrySymbol => exact decode_of_field? (hfields hs hsection).1 hget
  | propagation => exact decode_of_field? (hfields hs hsection).2.1 hget
  | modulus => exact decode_of_field? (hfields hs hsection).2.2.1 hget
  | disabledStages => exact decode_of_field? (hfields hs hsection).2.2.2.1 hget
  | printStages => exact decode_of_field? (hfields hs hsection).2.2.2.2.1 hget
  | plainDiagnostics => exact decode_of_field? (hfields hs hsection).2.2.2.2.2 hget
  | program => exact decode_of_field? (htools hs hsection).1 hget
  | args => exact decode_of_field? (htools hs hsection).2 hget

theorem name_of_ofName? {s : String} {kind : EffectKind} (h : EffectKind.ofName? s = some kind) :
    kind.name = s := by
  have hfound := find?_some h
  exact beq_iff_eq.mp hfound

theorem name_injective : Function.Injective EffectKind.name := by
  intro a b
  cases a <;> cases b <;> decide

theorem lookup_shaders {entries : Table} {paths : List (EffectKind × String)}
    (h : entries.mapM (fun (key, v) => do return (← EffectKind.ofName? key, ← string? v)) = some paths)
    (kind : EffectKind) : paths.lookup kind = (entries.lookup kind.name).bind string? := by
  induction entries generalizing paths with
  | nil =>
    cases h
    rfl
  | cons entry entries ih =>
    rw [mapM_cons] at h
    simp only [bind, Option.bind_eq_some_iff] at h
    obtain ⟨path, ⟨k, hk, s, hs, hpath⟩, rest, hrest, h⟩ := h
    cases hpath
    cases h
    have hname := name_of_ofName? hk
    rw [lookup_cons, lookup_cons, ← hname]
    by_cases hkind : kind = k
    · subst hkind
      rw [beq_self_eq_true, beq_self_eq_true]
      exact hs.symm
    · rw [beq_false_of_ne hkind, beq_false_of_ne (name_injective.ne hkind)]
      exact ih hrest

theorem effects_of_ofTable? {d : Table} {c : Config} (hc : ofTable? d = some c) (kind : EffectKind) :
    c.effects kind = (shader? kind d).bind string? := by
  have hfield := (sections_of_ofTable? hc).2.2
  unfold shader?
  cases hd : d.get? "effects" with
  | none =>
    rw [field?, hd] at hfield
    rw [← Option.some.inj hfield]
    rfl
  | some v =>
    have hread := decode_of_field? hfield hd
    unfold effects? at hread
    split at hread
    · simp only [bind, Option.bind_eq_some_iff] at hread
      obtain ⟨paths, hpaths, hread⟩ := hread
      rw [← Option.some.inj hread]
      exact lookup_shaders hpaths kind
    · cases hread

/-! ### Laying settings over each other -/

/-- The last value that is not the default stays, whatever defaults come behind it. -/
theorem lastOther_append_cons {α : Type} [DecidableEq α] {default x : α} (hx : x ≠ default) (before : List α)
    {after : List α} (hafter : ∀ y ∈ after, y = default) : lastOther default (before ++ x :: after) = x := by
  have hnone : after.filter (· ≠ default) = [] := filter_eq_nil_iff.mpr (by simpa using hafter)
  rw [lastOther, filter_append, filter_cons_of_pos (by simpa using hx), hnone, getLast?_append_cons]
  rfl

/-- A section that is taken over as a whole unless it is the default comes from the last settings in
which it is not. -/
theorem section_foldl {α : Type} [DecidableEq α] (part : Config → α) (default : α)
    (hmerge : ∀ c d, part (merge c d) = if part d = default then part c else part d) (c : Config)
    (cs : List Config) :
    part (cs.foldl merge c) = ((cs.map part).filter (· ≠ default)).getLast?.getD (part c) := by
  induction cs generalizing c with
  | nil => rfl
  | cons d cs ih =>
    rw [foldl_cons, ih, hmerge, map_cons]
    by_cases hd : part d = default
    · rw [if_pos hd, filter_cons_of_neg (by simpa using hd)]
    · rw [if_neg hd, filter_cons_of_pos (by simpa using hd), getLast?_cons]
      rfl

theorem lowering_foldl (cs : List Config) :
    (cs.foldl merge {}).lowering = lastOther {} (cs.map (·.lowering)) :=
  section_foldl lowering {} (fun _ _ => rfl) {} cs

theorem toolchain_foldl (cs : List Config) :
    (cs.foldl merge {}).toolchain = lastOther .xcrun (cs.map (·.toolchain)) :=
  section_foldl toolchain .xcrun (fun _ _ => rfl) {} cs

theorem agree_foldl {key : Key} {c : Config} (hc : key.Alters c) (before : List Config) {after : List Config}
    (hafter : ∀ d ∈ after, ¬ key.Alters d) : key.Agree ((before ++ c :: after).foldl merge {}) c := by
  have hlowering (hc : c.lowering ≠ {}) (hafter : ∀ d ∈ after, ¬ d.lowering ≠ {}) :
      ((before ++ c :: after).foldl merge {}).lowering = c.lowering := by
    rw [lowering_foldl, map_append, map_cons]
    exact lastOther_append_cons hc _ (forall_mem_map.mpr fun d hd => not_not.mp (hafter d hd))
  have htoolchain (hc : c.toolchain ≠ .xcrun) (hafter : ∀ d ∈ after, ¬ d.toolchain ≠ .xcrun) :
      ((before ++ c :: after).foldl merge {}).toolchain = c.toolchain := by
    rw [toolchain_foldl, map_append, map_cons]
    exact lastOther_append_cons hc _ (forall_mem_map.mpr fun d hd => not_not.mp (hafter d hd))
  cases key with
  | program | args => exact htoolchain hc hafter
  | _ => exact hlowering hc hafter

theorem effects_foldl (c : Config) (cs : List Config) (kind : EffectKind) :
    (cs.foldl merge c).effects kind = (cs.reverse.findSome? (·.effects kind)).or (c.effects kind) := by
  induction cs generalizing c with
  | nil => rfl
  | cons d cs ih =>
    rw [foldl_cons, ih, reverse_cons, findSome?_append, Option.or_assoc]
    congr 1
    cases h : d.effects kind <;> simp [merge, h]

/-! ### Loading -/

open Command (Leaves leaves_bind)

theorem leaves_perform {α ε : Type} {f : ε → CommandError} {act : StateM World (Except ε α)}
    {w w' : World} {a : α}
    (h : act.run w = (.ok a, w')) : Leaves (Command.perform f act) w a w' := by
  have hact : Leaves (ExceptT.lift act) w (.ok a) w' := by
    rw [Leaves, ExceptT.run_lift, StateT.run_map, h]
    rfl
  exact leaves_bind hact rfl

theorem leaves_loadFile {w : World} (l : Layer w) : Leaves (loadFile World.host l.path) w l.config w := by
  have hreads := l.reads
  unfold documentAt? at hreads
  split at hreads
  · next content hcontent =>
    have hparse : parse? content = some l.config := by
      rw [parse?, hreads]
      exact l.means
    have hread : Leaves (Command.perform (fun e => .config (.unreadable l.path e))
      (World.host.readText l.path)) w content
        w := leaves_perform (congrArg (·, w) hcontent)
    refine leaves_bind hread ?_
    rw [hparse]
    rfl
  · cases hreads

theorem leaves_loadOver {w : World} (layers : List (Layer w)) {paths : List String}
    (h : layers.map (·.path) = paths.filter (w.files.isFile w.cwd)) (c : Config) :
    Leaves (loadOver World.host c paths) w ((layers.map (·.config)).foldl merge c) w := by
  induction paths generalizing layers c with
  | nil =>
    obtain rfl := map_eq_nil_iff.mp h
    rfl
  | cons path paths ih =>
    have hfile : Leaves (liftM (World.host.isFile path)) w (w.files.isFile w.cwd path) w := rfl
    refine leaves_bind hfile ?_
    cases hpath : w.files.isFile w.cwd path with
    | false =>
      rw [filter_cons_of_neg (by simpa using hpath)] at h
      exact ih layers h c
    | true =>
      rw [filter_cons_of_pos hpath] at h
      obtain ⟨l, layers, rfl, rfl, hlayers⟩ := map_eq_cons_iff.mp h
      exact leaves_bind (leaves_loadFile l) (ih layers hlayers _)

/-! ### Two files -/

/-- Settings in the home of a user and in the working directory. -/
def layered (home here : String) : World where
  files := ⟨[(["home"], .directory), (["home", ".vulpes-shader.toml"], .file (home : Text)),
    (["vulpes-shader.toml"], .file (here : Text))]⟩

/-- The user whose home this is. -/
def resident : UserDirectories where
  home? := some "/home"

/-- The home names a symbol and a shader, and the working directory only says how far to thread values. -/
def forgetful : World :=
  layered "[transpile]\nentry_symbol = 'soft_fx'\n[effects]\nbloom = 'glow.glsl'\n"
    "[transpile]\npropagation = 'transitive'\n"

/-- The home asks for something else than the default, and the working directory for the default. -/
def stubborn : World :=
  layered "[transpile]\npropagation = 'transitive'\n" "[transpile]\npropagation = 'single-hop'\n"

theorem exists_layer {w : World} {path : String} {p : Table → Config → Prop} [∀ d c, Decidable (p d c)]
    (h : ((documentAt? w path).any fun d => (ofTable? d).any fun c => p d c) = true) :
    ∃ l : Layer w, l.path = path ∧ p l.document l.config := by
  obtain ⟨d, hd, h⟩ := (Option.any_eq_true ..).mp h
  obtain ⟨c, hc, h⟩ := (Option.any_eq_true ..).mp h
  exact ⟨⟨path, d, c, hd, hc⟩, rfl, of_decide_eq_true h⟩

theorem exists_layers_forgetful :
    ∃ home here : Layer forgetful, [home, here].map (·.path) = existing forgetful resident ∧
      (Key.entrySymbol.value? home.document).bind string? = some "soft_fx" ∧
      (shader? .bloom home.document).bind string? = some "glow.glsl" ∧
      Key.entrySymbol.value? here.document = none ∧ (shader? .bloom here.document).bind string? = none ∧
      here.config.lowering = { propagation := .transitive } := by
  obtain ⟨home, hhome, hsymbol, hshader⟩ := @exists_layer forgetful "/home/.vulpes-shader.toml"
    (fun d _ => (Key.entrySymbol.value? d).bind string? = some "soft_fx" ∧
      (shader? .bloom d).bind string? = some "glow.glsl") _ (by decide +kernel)
  obtain ⟨here, hhere, hnone, hother, hlowering⟩ := @exists_layer forgetful "vulpes-shader.toml"
    (fun d c => (Key.entrySymbol.value? d).isNone ∧ (shader? .bloom d).bind string? = none ∧
      c.lowering = { propagation := .transitive }) _ (by decide +kernel)
  refine ⟨home, here, ?_, hsymbol, hshader, Option.isNone_iff_eq_none.mp hnone, hother, hlowering⟩
  rw [map_cons, map_singleton, hhome, hhere]
  decide +kernel

theorem exists_layers_stubborn : ∃ home here : Layer stubborn,
    [home, here].map (·.path) = existing stubborn resident ∧
      home.config.lowering = { propagation := .transitive } ∧
      (Key.propagation.value? here.document).bind string? = some "single-hop" ∧
        here.config.lowering = {} := by
  obtain ⟨home, hhome, hlowering⟩ := @exists_layer stubborn "/home/.vulpes-shader.toml"
    (fun _ c => c.lowering = { propagation := .transitive }) _ (by decide +kernel)
  obtain ⟨here, hhere, hvalue, hdefault⟩ := @exists_layer stubborn "vulpes-shader.toml"
    (fun d c => (Key.propagation.value? d).bind string? = some "single-hop" ∧ c.lowering = {}) _
      (by decide +kernel)
  refine ⟨home, here, ?_, hlowering, hvalue, hdefault⟩
  rw [map_cons, map_singleton, hhome, hhere]
  decide +kernel

/-- **What is loaded from the usual places.** Each of the two sections is that of the last file in which
it is not the default, so a key has the value that a file sets for it if the section of this file is not
the default and that of every later file is. An effect has the shader that the last file sets for it. -/
theorem load_takes_last {w : World} {user : UserDirectories} (layers : List (Layer w))
    (h : layers.map (·.path) = existing w user) :
    ∃ c, (ExceptT.run (load World.host user none)).run w = (.ok c, w) ∧
      c.lowering = lastOther {} (layers.map (·.config.lowering)) ∧
      c.toolchain = lastOther .xcrun (layers.map (·.config.toolchain)) ∧
      (∀ before l after, layers = before ++ l :: after → ∀ (key : Key) v, key.value? l.document = some v →
        key.Alters l.config → (∀ later ∈ after, ¬ key.Alters later.config) → key.Holds c v) ∧
      ∀ kind, c.effects kind = layers.reverse.findSome? fun l => (shader? kind l.document).bind string? := by
  refine ⟨_, leaves_loadOver layers h {}, ?_, ?_, ?_, ?_⟩
  · rw [lowering_foldl, map_map]
    rfl
  · rw [toolchain_foldl, map_map]
    rfl
  · rintro before l after rfl key v hv hl hafter
    rw [map_append, map_cons]
    exact (agree_foldl hl _ (forall_mem_map.mpr hafter)).holds (holds_of_value? l.means hv)
  · intro kind
    rw [effects_foldl, ← map_reverse, findSome?_map, Option.or_none]
    congr 1
    funext l
    exact effects_of_ofTable? l.means kind

theorem load_takes_last_forgetful :
    ∃ home here : Layer forgetful, [home, here].map (·.path) = existing forgetful resident ∧
      ∃ c, (ExceptT.run (load World.host resident none)).run forgetful = (.ok c, forgetful) ∧
        c.lowering = { propagation := .transitive } ∧ c.effects .bloom = some "glow.glsl" := by
  obtain ⟨home, here, hpaths, -, hshader, -, hother, hhere⟩ := exists_layers_forgetful
  obtain ⟨c, hrun, hlowering, -, -, heffects⟩ := load_takes_last [home, here] hpaths
  refine ⟨home, here, hpaths, c, hrun, ?_, ?_⟩
  · rw [hlowering, map_cons, map_singleton, hhere]
    exact lastOther_append_cons (by decide) [_] (forall_mem_nil _)
  · rw [heffects, reverse_cons, reverse_singleton, singleton_append, findSome?_cons, hother,
      findSome?_singleton, hshader]

/-- Every key has the value that the last file with this key sets for it. -/
def KeyByKey (w : World) (user : UserDirectories) : Prop :=
  ∀ layers : List (Layer w), layers.map (·.path) = existing w user →
    ∃ c, (ExceptT.run (load World.host user none)).run w = (.ok c, w) ∧
      ∀ before l after, layers = before ++ l :: after → ∀ (key : Key) v, key.value? l.document = some v →
        (∀ later ∈ after, key.value? later.document = none) → key.Holds c v

theorem holds_of_keyByKey {w : World} {user : UserDirectories} (h : KeyByKey w user) {home here : Layer w}
    (hpaths : [home, here].map (·.path) = existing w user) {key : Key} {v : Value} :
    (key.value? home.document = some v → key.value? here.document = none →
        key.Holds (merge (merge {} home.config) here.config) v) ∧
      (key.value? here.document = some v → key.Holds (merge (merge {} home.config) here.config) v) := by
  obtain ⟨c, hrun, hkeys⟩ := h [home, here] hpaths
  have hloaded : Leaves (load World.host user none) w (merge (merge {} home.config) here.config) w :=
    leaves_loadOver [home, here] hpaths {}
  obtain rfl : c = merge (merge {} home.config) here.config := by
    have := hrun.symm.trans hloaded
    exact Except.ok.inj (Prod.mk.inj this).1
  refine ⟨fun hv hnone => ?_, fun hv => ?_⟩
  · exact hkeys [] home [here] rfl key v hv (forall_mem_singleton.mpr hnone)
  · exact hkeys [home] here [] rfl key v hv (forall_mem_nil _)

/-- **A key can lose its value.** The symbol of the home is forgotten, because the working directory has
another key of the section, and the default that the working directory asks for counts for nothing. -/
theorem load_forgets_keys : ¬ KeyByKey forgetful resident ∧ ¬ KeyByKey stubborn resident := by
  constructor
  · intro h
    obtain ⟨home, here, hpaths, hsymbol, -, hnone, -, hhere⟩ := exists_layers_forgetful
    obtain ⟨v, hv, hname⟩ := Option.bind_eq_some_iff.mp hsymbol
    have hlowering : (merge (merge {} home.config) here.config).lowering =
        { propagation := .transitive } := by
      rw [merge, hhere]
      rfl
    have hholds := (holds_of_keyByKey h hpaths).1 hv hnone
    rw [Key.Holds, hname, hlowering] at hholds
    cases hholds
  · intro h
    obtain ⟨home, here, hpaths, hhome, hvalue, hdefault⟩ := exists_layers_stubborn
    obtain ⟨v, hv, hname⟩ := Option.bind_eq_some_iff.mp hvalue
    have hlowering : (merge (merge {} home.config) here.config).lowering =
        { propagation := .transitive } := by
      rw [merge, hdefault, if_pos rfl, merge, hhome]
      rfl
    have hholds := (holds_of_keyByKey h hpaths).2 hv
    rw [Key.Holds, hlowering] at hholds
    cases v with
    | string s =>
      cases hname
      revert hholds
      decide
    | _ => cases hname

end GlslToMetal.Config
