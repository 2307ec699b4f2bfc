import GlslToMetal.Command.Lower
import GlslToMetal.Proofs.Files.Path
import GlslToMetal.Proofs.Files.Tree
import Mathlib.Data.List.Basic

/-! What the lowering command leaves in a directory. Every shader goes to a file that is named after its
own file alone, so shaders of one name share a file, and the last of them stays. A shader that shares
its name with no other one is read as it was at the start and its output stays as it was written. -/

namespace GlslToMetal.Command

open List

variable {after before : List String} {place : Place} {directory input path : String} {content source : Text}
  {w w' : World}

/-- The command returns, and leaves a world. -/
def Leaves {α : Type} (c : Command (StateM World) α) (w : World) (a : α) (w' : World) : Prop :=
  (ExceptT.run c).run w = (.ok a, w')

section

variable {α β ε : Type} {w w' : World} {a : α} {b : β}

theorem exists_of_bind {c : Command (StateM World) α} {next : α → Command (StateM World) β}
    (h : Leaves (c >>= next) w b w') : ∃ a v, Leaves c w a v ∧ Leaves (next a) v b w' := by
  unfold Leaves at h
  rw [ExceptT.run_bind, StateT.run_bind] at h
  cases hc : (ExceptT.run c).run w with
  | mk r v =>
    rw [hc] at h
    cases r with
    | error e => cases h
    | ok a => exact ⟨a, v, hc, h⟩

theorem leaves_bind {c : Command (StateM World) α} {next : α → Command (StateM World) β} {v : World}
    (hc : Leaves c w a v) (hnext : Leaves (next a) v b w') : Leaves (c >>= next) w b w' := by
  unfold Leaves at hc ⊢
  rw [ExceptT.run_bind, StateT.run_bind, hc]
  exact hnext

theorem eq_of_ofExcept {f : ε → CommandError} {x : Except ε α} (h : Leaves (ofExcept f x) w a w') :
    x = .ok a ∧ w' = w := by
  cases x with
  | error e => cases h
  | ok b =>
    cases h
    exact ⟨rfl, rfl⟩

theorem eq_of_perform {f : ε → CommandError} {act : StateM World (Except ε α)}
    (h : Leaves (perform f act) w a w') : act.run w = (.ok a, w') := by
  obtain ⟨x, v, hact, hx⟩ := exists_of_bind h
  obtain ⟨rfl, rfl⟩ := eq_of_ofExcept hx
  unfold Leaves at hact
  rw [ExceptT.run_lift, StateT.run_map] at hact
  cases hrun : act.run w with
  | mk r v =>
    rw [hrun] at hact
    cases hact
    rfl

theorem exists_of_forM {f : String → Command (StateM World) Unit}
    (h : Leaves ((before ++ input :: after).forM f) w () w') :
    ∃ u v, Leaves (before.forM f) w () u ∧ Leaves (f input) u () v ∧ Leaves (after.forM f) v () w' := by
  induction before generalizing w with
  | nil =>
    obtain ⟨_, v, hinput, hafter⟩ := exists_of_bind h
    exact ⟨w, v, rfl, hinput, hafter⟩
  | cons first before ih =>
    obtain ⟨_, u, hfirst, hrest⟩ := exists_of_bind h
    obtain ⟨u', v, hbefore, hinput, hafter⟩ := ih hrest
    exact ⟨u', v, leaves_bind hfirst hbefore, hinput, hafter⟩

end

/-! ### The names of outputs -/

theorem exists_metalName (input : String) :
    ∃ s, s ≠ "" ∧ '/' ∉ s.toList ∧ metalName input = s ++ ".metal" := by
  unfold metalName
  cases hname : Path.fileName? input with
  | none => exact ⟨"shader", by decide, by decide, rfl⟩
  | some name =>
    have hpiece : name ∈ Path.pieces input :=
      (mem_filter.1 (mem_of_getLast? (Option.filter_eq_some_iff.1 hname).1)).1
    exact ⟨Path.stem name, Path.stem_ne_empty (Path.ne_empty_of_mem_pieces hpiece),
      fun h => Path.slash_not_mem_of_mem_pieces hpiece (Path.mem_of_mem_stem h), rfl⟩

theorem slash_not_mem_metalName (input : String) : '/' ∉ (metalName input).toList := by
  obtain ⟨s, -, hs, h⟩ := exists_metalName input
  rw [h, String.toList_append, mem_append, not_or]
  exact ⟨hs, by decide⟩

theorem metalName_ne_empty (input : String) : metalName input ≠ "" := by
  obtain ⟨s, hs, -, h⟩ := exists_metalName input
  rw [h]
  exact fun heq => hs (String.append_eq_empty_iff.1 heq).1

/-- A shader in a file that is called like an output goes to an output of the same name. -/
theorem metalName_of_fileName? {other : String} (h : Path.fileName? input = some (metalName other)) :
    metalName input = metalName other := by
  obtain ⟨s, hs, -, hother⟩ := exists_metalName other
  rw [hother] at h ⊢
  unfold metalName
  rw [h]
  exact congrArg (· ++ ".metal") (Path.stem_append_metal hs)

theorem at?_eq_none (h : place.getLast? = some (metalName input)) : Device.at? place = none := by
  refine find?_eq_none.2 fun d _ hd => ?_
  obtain ⟨s, -, -, hname⟩ := exists_metalName input
  rw [← beq_iff_eq.1 hd, hname] at h
  have hd : d.name = s ++ ".metal" := Option.some_inj.1 h
  have hdot : '.' ∈ d.name.toList := by
    rw [hd, String.toList_append, mem_append]
    exact .inr (by decide)
  clear h hd
  revert hdot
  cases d <;> decide

/-! ### The worlds that shaders leave -/

theorem eq_of_readShader
    (h : Leaves (readShader World.host path) w source w') :
    w.files.readText w.cwd path = .ok source ∧ w' = w := by
  have hrun : (Lowering.sourceAt path (w.files.readText w.cwd path), w) = (.ok source, w') := eq_of_perform h
  obtain ⟨hsource, rfl⟩ := Prod.mk.inj hrun
  refine ⟨?_, rfl⟩
  cases hread : w.files.readText w.cwd path with
  | error e =>
    rw [hread] at hsource
    cases hsource
  | ok t =>
    rw [hread] at hsource
    cases hsource
    rfl

theorem files_of_notify {t : Text} {u : Unit}
    (h : Leaves (ExceptT.lift (World.host.notify t)) w u w') : w'.files = w.files ∧ w'.cwd = w.cwd := by
  cases h
  exact ⟨rfl, rfl⟩

theorem eq_of_lowerShader {flags : Flags} {lowerer : Lowering.Lowerer} {output : Lowering.Output}
    (h : Leaves (lowerShader World.host flags lowerer path source) w output w') :
    lowerer.lower source = .ok (.ok output) ∧ w'.files = w.files ∧ w'.cwd = w.cwd := by
  obtain ⟨lowered, w₁, hlower, hthen⟩ := exists_of_bind h
  obtain ⟨hlowered, rfl⟩ := eq_of_ofExcept hlower
  obtain ⟨out, w₂, hout, hrest⟩ := exists_of_bind hthen
  obtain ⟨rfl, rfl⟩ := eq_of_ofExcept hout
  obtain ⟨_, w₃, hnotify, hreturn⟩ := exists_of_bind hrest
  obtain ⟨hfiles, hcwd⟩ := files_of_notify hnotify
  cases hreturn
  exact ⟨hlowered, hfiles, hcwd⟩

theorem getLast?_of_target {tree : FileTree} {cwd : Place}
    (h : tree.target cwd (Path.join directory (metalName input)) = .ok place) :
    place.getLast? = some (metalName input) := by
  obtain ⟨p, name, rfl, hlocate, -, -⟩ := FileTree.exists_of_target h
  have hlast := (FileTree.getLast?_of_locate hlocate).1
  rw [Path.getLast?_pieces_join directory (slash_not_mem_metalName input) (metalName_ne_empty input)] at hlast
  rw [getLast?_concat, hlast]

theorem run_write (path : String) (content : Text) (w : World) :
    (World.host.write path content).run w = w.write path content := rfl

theorem exists_of_write {u : Unit}
    (h : (World.host.write (Path.join directory (metalName input)) content).run w = (.ok u, w')) :
    ∃ place, w.files.target w.cwd (Path.join directory (metalName input)) = .ok place ∧
      w'.files = w.files.set place (.file content) ∧ w'.cwd = w.cwd := by
  rw [run_write, World.write] at h
  cases htarget : w.files.target w.cwd (Path.join directory (metalName input)) with
  | error e =>
    rw [htarget] at h
    cases h
  | ok place =>
    rw [htarget] at h
    dsimp only [FileTree.store] at h
    rw [at?_eq_none (getLast?_of_target htarget)] at h
    obtain ⟨-, rfl⟩ := Prod.mk.inj h
    exact ⟨place, rfl, rfl, rfl⟩

/-- **One shader**: its file is read, lowered, and written under its name; nothing else changes but what
is printed. -/
theorem exists_of_lowerFile {args : LowerArgs} {lowerer : Lowering.Lowerer}
    (houtput : args.output? = some directory)
    (h : Leaves (lowerFile World.host args lowerer true input) w () w') :
    ∃ source output place, w.files.readText w.cwd input = .ok source ∧
      lowerer.lower source = .ok (.ok output) ∧
      w.files.target w.cwd (Path.join directory (metalName input)) = .ok place ∧
      w'.cwd = w.cwd ∧ w'.files = w.files.set place (.file output.assembled.source) := by
  obtain ⟨source, w₁, hread, hthen⟩ := exists_of_bind h
  obtain ⟨hsource, rfl⟩ := eq_of_readShader hread
  obtain ⟨output, w₂, hlower, hrest⟩ := exists_of_bind hthen
  obtain ⟨houtcome, hfiles, hcwd⟩ := eq_of_lowerShader hlower
  have hdestination : destination? args.output? true input =
      some (Path.join directory (metalName input)) := by
    rw [houtput]
    rfl
  rw [hdestination] at hrest
  obtain ⟨_, w₃, hperform, hnotify⟩ := exists_of_bind hrest
  obtain ⟨hfiles₃, hcwd₃⟩ := files_of_notify hnotify
  obtain ⟨place, htarget, hset, hstay⟩ := exists_of_write (eq_of_perform hperform)
  rw [hfiles, hcwd] at htarget
  refine ⟨source, output, place, hsource, houtcome, htarget, ?_, ?_⟩
  · rw [hcwd₃, hstay, hcwd]
  · rw [hfiles₃, hset, hfiles]

/-- Only files with some names have been touched, and every directory is still there. -/
structure Touches (names : List String) (w w' : World) : Prop where
  cwd : w'.cwd = w.cwd
  keeps : w.files.Keeps w'.files
  elsewhere : ∀ p : Place, (∀ name ∈ names, p.getLast? ≠ some name) → w'.files.get? p = w.files.get? p

namespace Touches

variable {names more : List String} {w w' w'' : World}

theorem refl (w : World) : Touches [] w w := ⟨rfl, fun _ h => h, fun _ _ => rfl⟩

theorem trans (h : Touches names w w') (h' : Touches more w' w'') : Touches (names ++ more) w w'' where
  cwd := h'.cwd.trans h.cwd
  keeps := h.keeps.trans h'.keeps
  elsewhere p hp :=
    (h'.elsewhere p fun name hname => hp name (mem_append_right names hname)).trans
      (h.elsewhere p fun name hname => hp name (mem_append_left more hname))

end Touches

theorem touches_of_set
    (htarget : w.files.target w.cwd (Path.join directory (metalName input)) = .ok place)
    (hcwd : w'.cwd = w.cwd)
    (hfiles : w'.files = w.files.set place (.file content)) : Touches [metalName input] w w' where
  cwd := hcwd
  keeps := by
    obtain ⟨p, name, hplace, -, -, hget⟩ := FileTree.exists_of_target htarget
    rw [hfiles]
    exact FileTree.keeps_set hget _
  elsewhere p hp := by
    have hne : p ≠ place := fun heq =>
      hp _ (mem_singleton.2 rfl) (heq ▸ getLast?_of_target htarget)
    rw [hfiles, FileTree.get?_set_of_ne _ hne]

/-- **All shaders** touch the files of their own names. -/
theorem touches_of_forM {args : LowerArgs} {lowerer : Lowering.Lowerer} {inputs : List String}
    (houtput : args.output? = some directory)
    (h : Leaves (inputs.forM (lowerFile World.host args lowerer true)) w () w') :
    Touches (inputs.map metalName) w w' := by
  induction inputs generalizing w with
  | nil =>
    cases h
    exact Touches.refl _
  | cons input rest ih =>
    obtain ⟨_, v, hinput, hrest⟩ := exists_of_bind h
    obtain ⟨_, _, _, -, -, htarget, hcwd, hfiles⟩ := exists_of_lowerFile houtput hinput
    exact (touches_of_set htarget hcwd hfiles).trans (ih hrest)

theorem read_of_touches {names : List String} (h : Touches names w w')
    (hname : ∀ name ∈ names, Path.fileName? path ≠ some name)
    (hread : w.files.read w.cwd path = .ok content) : w'.files.read w'.cwd path = .ok content := by
  obtain ⟨place, hfind⟩ := FileTree.read_eq_ok_iff.1 hread
  obtain ⟨directory, name, hplace, hlocate, -, hget⟩ := FileTree.exists_of_find hfind
  obtain ⟨hlast, hdot, hdots⟩ := FileTree.getLast?_of_locate hlocate
  have helsewhere : ∀ n ∈ names, place.getLast? ≠ some n := by
    rw [hplace, getLast?_concat, ← Path.fileName?_eq hlast hdot hdots]
    exact hname
  rw [h.cwd]
  exact FileTree.read_eq_ok_iff.2 ⟨place, h.keeps.find hfind ((h.elsewhere place helsewhere).trans hget)⟩

theorem fileName?_join (directory input : String) :
    Path.fileName? (Path.join directory (metalName input)) = some (metalName input) := by
  obtain ⟨s, -, -, hname⟩ := exists_metalName input
  have hm : 'm' ∈ (metalName input).toList := by
    rw [hname, String.toList_append, mem_append]
    exact .inr (by decide)
  refine Path.fileName?_eq
    (Path.getLast?_pieces_join directory (slash_not_mem_metalName input) (metalName_ne_empty input)) ?_ ?_
  · intro h
    rw [h] at hm
    exact absurd hm (by decide)
  · intro h
    rw [h] at hm
    exact absurd hm (by decide)

/-- **The output of a shader stays as it was written** if no later one has its name. An earlier one of
its name does not matter either, unless the shader itself lies where that one is written. -/
theorem read_output {args : LowerArgs} {lowerer : Lowering.Lowerer}
    (houtput : args.output? = some directory)
    (h : Leaves ((before ++ input :: after).forM (lowerFile World.host args lowerer true)) w () w')
    (hafter : metalName input ∉ after.map metalName)
    (hbefore : Path.fileName? input = some (metalName input) → metalName input ∉ before.map metalName)
    (hsource : w.files.readText w.cwd input = .ok source) :
    ∃ output, lowerer.lower source = .ok (.ok output) ∧
      w'.files.read w'.cwd (Path.join directory (metalName input)) = .ok output.assembled.source := by
  obtain ⟨u, v, hfirst, hinput, hrest⟩ := exists_of_forM h
  obtain ⟨found, output, place, hread, hlower, htarget, hcwd, hfiles⟩ := exists_of_lowerFile houtput hinput
  have hsame : u.files.read u.cwd input = .ok source := by
    refine read_of_touches (touches_of_forM houtput hfirst) ?_ (FileTree.read_of_readText hsource).1
    intro name hname heq
    obtain ⟨other, -, rfl⟩ := mem_map.1 hname
    have hother := metalName_of_fileName? heq
    rw [← hother] at heq hname
    exact hbefore heq hname
  cases hsame.symm.trans (FileTree.read_of_readText hread).1
  have hwritten : v.files.read v.cwd (Path.join directory (metalName input)) =
      .ok output.assembled.source := by
    rw [hfiles, hcwd]
    exact FileTree.read_eq_ok_iff.2 ⟨place, FileTree.find_set htarget _⟩
  refine ⟨output, hlower, read_of_touches (touches_of_forM houtput hrest) ?_ hwritten⟩
  intro name hname heq
  rw [fileName?_join, Option.some_inj] at heq
  exact hafter (heq ▸ hname)

/-- The command makes its directory first, and then lowers one shader after the other. -/
theorem exists_of_lower {args : LowerArgs} {config : Config} (houtput : args.output? = some directory)
    (hdirectory : 1 < args.inputs.length ∨ w.files.isDirectory w.cwd directory = true)
    (h : Leaves (lower World.host args config) w () w') :
    ∃ lowerer v, Lowering.Lowerer.ofOptions (args.flags.resolve config) = .ok lowerer ∧
      v.cwd = w.cwd ∧ w.files.Grows v.files ∧
      Leaves (args.inputs.forM (lowerFile World.host args lowerer true)) v () w' := by
  obtain ⟨lowerer, w₁, hlowerer, hthen⟩ := exists_of_bind h
  obtain ⟨hoptions, rfl⟩ := eq_of_ofExcept hlowerer
  rw [houtput] at hthen
  obtain ⟨existing, w₂, hexisting, hrest⟩ := exists_of_bind hthen
  obtain ⟨hthere, hw₂⟩ : existing = w₁.files.isDirectory w₁.cwd directory ∧ w₂ = w₁ := by
    cases hexisting
    exact ⟨rfl, rfl⟩
  have hmany : (decide (1 < args.inputs.length) || existing) = true := by
    rw [hthere]
    simpa using hdirectory
  dsimp only at hrest
  rw [hmany, if_pos rfl] at hrest
  obtain ⟨_, v, hmake, hloop⟩ := exists_of_bind hrest
  have hkeep : w₂.keep (w₂.files.makeDirectories w₂.cwd directory) = (.ok (), v) := eq_of_perform hmake
  rw [hw₂] at hkeep
  refine ⟨lowerer, v, hoptions, ?_⟩
  cases hmade : w₁.files.makeDirectories w₁.cwd directory with
  | error e =>
    rw [hmade] at hkeep
    cases hkeep
  | ok files =>
    rw [hmade] at hkeep
    cases hkeep
    exact ⟨rfl, FileTree.grows_makeDirectories hmade, hloop⟩

/-- **The last output of a name is not lost**: if lowering to a directory succeeds, a shader that could
be read at the start has its lowered program in the directory, exactly, if no later one has a file of
the same stem. An earlier one with this stem does harm only to a shader whose own file has the name of
the output. -/
theorem lower_keeps_outputs {args : LowerArgs} {config : Config} {directory : String} {w w' : World}
    (houtput : args.output? = some directory)
    (hdirectory : 1 < args.inputs.length ∨ w.files.isDirectory w.cwd directory = true)
    (h : (ExceptT.run (lower World.host args config)).run w = (.ok (), w')) :
    ∃ lowerer, Lowering.Lowerer.ofOptions (args.flags.resolve config) = .ok lowerer ∧
      ∀ before input after, args.inputs = before ++ input :: after → metalName input ∉ after.map metalName →
        (Path.fileName? input = some (metalName input) → metalName input ∉ before.map metalName) →
        ∀ source, w.files.readText w.cwd input = .ok source →
          ∃ output, lowerer.lower source = .ok (.ok output) ∧
            w'.files.read w'.cwd (Path.join directory (metalName input)) = .ok output.assembled.source := by
  obtain ⟨lowerer, v, hlowerer, hcwd, hgrows, hloop⟩ := exists_of_lower houtput hdirectory h
  refine ⟨lowerer, hlowerer, fun before input after hinputs hafter hbefore source hsource => ?_⟩
  rw [hinputs] at hloop
  exact read_output houtput hloop hafter hbefore (hcwd ▸ hgrows.readText hsource)

/-- Two shaders in directories of their own, in files of one name. -/
def namesakes : World where
  files := ⟨[(["dark"], .directory), (["light"], .directory),
    (["dark", "fog.glsl"], .file ("// dark" : Text)),
    (["light", "fog.glsl"], .file ("// light" : Text))]⟩

def lowerNamesakes : LowerArgs where
  inputs := ["dark/fog.glsl", "light/fog.glsl"]
  output? := some "out"

/-- What lowering both leaves. -/
def lowered : Except CommandError Unit × World :=
  (ExceptT.run (lower World.host lowerNamesakes {})).run namesakes

theorem lowered_namesakes :
    lowered.1.isOk = true ∧ Lowering.isEntrySymbol (lowerNamesakes.flags.resolve {}).entrySymbol = true ∧
      metalName "light/fog.glsl" = "fog.metal" ∧ Path.fileName? "light/fog.glsl" = some "fog.glsl" ∧
      namesakes.files.readText namesakes.cwd "dark/fog.glsl" = .ok ("// dark" : Text) ∧
      namesakes.files.readText namesakes.cwd "light/fog.glsl" = .ok ("// light" : Text) := by
  decide +kernel

theorem lowered_eq :
    (ExceptT.run (lower World.host lowerNamesakes {})).run namesakes = (.ok (), lowered.2) := by
  have hok := lowered_namesakes.1
  change lowered = _
  cases h : lowered with
  | mk r w =>
    rw [h] at hok
    cases r with
    | error e => cases hok
    | ok u => rfl

/-- What the command lowers with. -/
def namesakesLowerer : Lowering.Lowerer := ⟨lowerNamesakes.flags.resolve {}⟩

theorem lower_keeps_outputs_namesakes :
    (ExceptT.run (lower World.host lowerNamesakes {})).run namesakes = (.ok (), lowered.2) ∧
      ∃ output, namesakesLowerer.lower ("// light" : Text) = .ok (.ok output) ∧
        lowered.2.files.read lowered.2.cwd "out/fog.metal" = .ok output.assembled.source := by
  obtain ⟨-, hsymbol, hname, hfile, -, hread⟩ := lowered_namesakes
  obtain ⟨lowerer, hlowerer, houtputs⟩ := lower_keeps_outputs rfl (.inl (by decide)) lowered_eq
  obtain rfl : namesakesLowerer = lowerer := Except.ok.inj ((if_pos hsymbol).symm.trans hlowerer)
  obtain ⟨output, hlower, hkept⟩ := houtputs ["dark/fog.glsl"] "light/fog.glsl" [] rfl not_mem_nil
    (by rw [hname, hfile]; decide) _ hread
  refine ⟨lowered_eq, output, hlower, ?_⟩
  rwa [hname] at hkept

/-- The source of the program that a lowerer makes. -/
def program? (l : Lowering.Lowerer) (source : Text) : Option Text :=
  match l.lower source with
  | .ok (.ok output) => some output.assembled.source
  | _ => none

theorem exists_of_program? {l : Lowering.Lowerer} {p : Text → Bool}
    (h : (program? l source).any p = true) :
    ∃ output, l.lower source = .ok (.ok output) ∧ p output.assembled.source = true := by
  unfold program? at h
  split at h
  · next output hlower => exact ⟨output, hlower, h⟩
  · cases h

theorem get?_ne_of_all {tree : FileTree} (h : tree.entries.all (·.2 != .file content) = true)
    (place : Place) : tree.get? place ≠ some (.file content) := by
  unfold FileTree.get?
  split
  · exact fun heq => (by cases heq)
  · intro hlookup
    obtain ⟨before, after, hentries, -⟩ := lookup_eq_some_iff.1 hlookup
    have hmem : (place, Entry.file content) ∈ tree.entries := by
      rw [hentries]
      simp
    exact bne_iff_ne.1 (all_eq_true.1 h _ hmem) rfl

/-- Of two shaders in files of one name the output of the first is lost: nothing holds it any more. -/
theorem lower_loses_output : lowerNamesakes.inputs.Nodup ∧
      (∀ input ∈ lowerNamesakes.inputs, ∃ source, namesakes.files.readText namesakes.cwd input = .ok source) ∧
      (ExceptT.run (lower World.host lowerNamesakes {})).run namesakes = (.ok (), lowered.2) ∧
      ∃ output, namesakesLowerer.lower ("// dark" : Text) = .ok (.ok output) ∧
        ∀ place, lowered.2.files.get? place ≠ some (.file output.assembled.source) := by
  obtain ⟨-, -, -, -, hdark, hlight⟩ := lowered_namesakes
  have hlost : (program? namesakesLowerer ("// dark" : Text)).any
      (fun source => lowered.2.files.entries.all (·.2 != .file source)) = true := by decide +kernel
  refine ⟨by decide, ?_, lowered_eq, ?_⟩
  · intro input hinput
    rcases mem_pair.1 hinput with rfl | rfl
    · exact ⟨_, hdark⟩
    · exact ⟨_, hlight⟩
  · obtain ⟨output, hlower, hall⟩ := exists_of_program? hlost
    exact ⟨output, hlower, get?_ne_of_all hall⟩

end GlslToMetal.Command
