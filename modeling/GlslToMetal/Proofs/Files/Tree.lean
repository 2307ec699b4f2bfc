import GlslToMetal.Files.Tree
import GlslToMetal.Proofs.Checked

/-! What operations leave of a tree of files. A path leads to the same place as long as the directories
on its way stay, writing a file takes away no directory and touches one place only, and making
directories touches only places where nothing was. -/

namespace GlslToMetal.FileTree

open List Checked

variable {directory p place q : Place} {name : String}

variable {tree tree' tree'' : FileTree} {cwd place : Place} {path : String} {content : Text}

theorem get?_set_self (tree : FileTree) (h : place ≠ []) (entry : Entry) :
    (tree.set place entry).get? place = some entry := by
  simp [get?, set, h]

theorem lookup_filter_of_ne (entries : List (Place × Entry)) (h : p ≠ place) :
    (entries.filter (·.1 != place)).lookup p = entries.lookup p := by
  induction entries with
  | nil => rfl
  | cons e rest ih =>
    obtain ⟨q, entry⟩ := e
    by_cases hq : q = place
    · subst hq
      have hbeq : (p == q) = false := by simpa using h
      rw [filter_cons_of_neg (by simp), ih, lookup_cons, hbeq]
    · rw [filter_cons_of_pos (by simpa using hq), lookup_cons, lookup_cons, ih]

theorem get?_set_of_ne (tree : FileTree) (h : p ≠ place) (entry : Entry) :
    (tree.set place entry).get? p = tree.get? p := by
  have hbeq : (p == place) = false := by simpa using h
  unfold get? set
  split
  · rfl
  · rw [lookup_cons, hbeq, lookup_filter_of_ne _ h]

/-- The directories of a tree are directories of another one. -/
def Keeps (tree tree' : FileTree) : Prop :=
  ∀ p, tree.get? p = some .directory → tree'.get? p = some .directory

theorem Keeps.trans (h : tree.Keeps tree') (h' : tree'.Keeps tree'') : tree.Keeps tree'' :=
  fun p hp => h' p (h p hp)

theorem keeps_set (h : tree.get? place ≠ some .directory) (entry : Entry) :
    tree.Keeps (tree.set place entry) := by
  intro p hp
  by_cases hplace : p = place
  · exact absurd (hplace ▸ hp) h
  · rw [get?_set_of_ne tree hplace, hp]

namespace Keeps

theorem enter (h : tree.Keeps tree') {piece : String} (henter : tree.enter place piece = .ok q) :
    tree'.enter place piece = .ok q := by
  unfold FileTree.enter at henter ⊢
  split
  · next hdot => rwa [if_pos hdot] at henter
  · next hdot =>
    rw [if_neg hdot] at henter
    split
    · next hdots => rwa [if_pos hdots] at henter
    · next hdots =>
      rw [if_neg hdots] at henter
      obtain ⟨_, hname, hentered⟩ := exists_of_bind henter
      split at hentered
      · cases hentered
      · cases hentered
      · next hget => rwa [h _ hget, ← hget]

theorem enterAll (h : tree.Keeps tree') {pieces : List String}
    (henter : pieces.foldlM tree.enter place = .ok q) : pieces.foldlM tree'.enter place = .ok q := by
  induction pieces generalizing place with
  | nil => exact henter
  | cons piece rest ih =>
    rw [foldlM_cons] at henter ⊢
    obtain ⟨next, hfirst, henter⟩ := exists_of_bind henter
    rw [h.enter hfirst]
    exact ih henter

end Keeps

/-- What the last piece of a path leads to in a directory. -/
def ending (path : String) (directory : Place) : Destination :=
  match (Path.pieces path).getLast? with
  | none => .directory directory
  | some last =>
    if last == "." then .directory directory
    else if last == ".." then .directory directory.dropLast
    else .name directory last (Path.hasTrailingSlash path)

/-- A path that can be followed leads through directories to its last piece. -/
theorem locate_eq_ok_iff {d : Destination} : tree.locate cwd path = .ok d ↔
    (path.toList.contains '\x00' = false ∧ (path == "") = false ∧ ¬pathLimit ≤ path.utf8ByteSize) ∧
      ∃ directory, (Path.pieces path).dropLast.foldlM tree.enter (if Path.isAbsolute path then [] else cwd) =
        .ok directory ∧ ending path directory = d := by
  unfold locate
  by_cases hnul : path.toList.contains '\x00' = true
  · rw [if_pos hnul, hnul]
    exact ⟨fun h => (by cases h), fun h => (by cases h.1.1)⟩
  by_cases hempty : (path == "") = true
  · rw [if_neg hnul, if_pos hempty, hempty]
    exact ⟨fun h => (by cases h), fun h => (by cases h.1.2.1)⟩
  by_cases hlong : pathLimit ≤ path.utf8ByteSize
  · rw [if_neg hnul, if_neg hempty, if_pos hlong]
    exact ⟨fun h => (by cases h), fun h => absurd hlong h.1.2.2⟩
  rw [if_neg hnul, if_neg hempty, if_neg hlong]
  dsimp only [bind, Except.bind]
  cases (Path.pieces path).dropLast.foldlM tree.enter (if Path.isAbsolute path then [] else cwd) with
  | error e =>
    refine ⟨fun h => (by cases h), fun h => ?_⟩
    obtain ⟨-, directory, hway, -⟩ := h
    cases hway
  | ok directory =>
    have hpath : path.toList.contains '\x00' = false ∧ (path == "") = false ∧
        ¬pathLimit ≤ path.utf8ByteSize :=
      ⟨Bool.eq_false_iff.2 hnul, Bool.eq_false_iff.2 hempty, hlong⟩
    have hreach : ∀ x : Except FileError Destination, x = .ok (ending path directory) → (x = .ok d ↔
        (path.toList.contains '\x00' = false ∧ (path == "") = false ∧ ¬pathLimit ≤ path.utf8ByteSize) ∧
          ∃ p, (Except.ok directory : Except FileError Place) = .ok p ∧ ending path p = d) := by
      rintro _ rfl
      refine ⟨fun h => ⟨hpath, directory, rfl, Except.ok.inj h⟩, fun h => ?_⟩
      obtain ⟨-, p, hp, hd⟩ := h
      rw [Except.ok.inj hp, hd]
    refine hreach _ ?_
    dsimp only [ending]
    cases (Path.pieces path).getLast? with
    | none => rfl
    | some last =>
      dsimp only
      split
      · rfl
      · split <;> rfl

theorem Keeps.locate (h : tree.Keeps tree') {d : Destination} (hlocate : tree.locate cwd path = .ok d) :
    tree'.locate cwd path = .ok d := by
  obtain ⟨hpath, directory, hway, hd⟩ := locate_eq_ok_iff.1 hlocate
  exact locate_eq_ok_iff.2 ⟨hpath, directory, h.enterAll hway, hd⟩

theorem getLast?_of_locate {slash : Bool}
    (h : tree.locate cwd path = .ok (.name directory name slash)) :
    (Path.pieces path).getLast? = some name ∧ name ≠ "." ∧ name ≠ ".." := by
  obtain ⟨-, directory, -, hending⟩ := locate_eq_ok_iff.1 h
  unfold ending at hending
  split at hending
  · cases hending
  · next last hlast =>
    split at hending
    · cases hending
    · split at hending
      · cases hending
      · next hdot hdots =>
        cases hending
        exact ⟨hlast, by simpa using hdot, by simpa using hdots⟩

theorem exists_of_find (h : tree.find cwd path = .ok (place, .file content)) :
    ∃ directory name, place = directory ++ [name] ∧ tree.locate cwd path = .ok (.name directory name false) ∧
      checkName name = .ok () ∧ tree.get? place = some (.file content) := by
  obtain ⟨d, hlocate, h⟩ := exists_of_bind h
  cases d with
  | directory p => cases h
  | name directory name slash =>
    obtain ⟨_, hname, h⟩ := exists_of_bind h
    cases hget : tree.get? (directory ++ [name]) with
    | none =>
      rw [hget] at h
      cases h
    | some entry =>
      rw [hget] at h
      cases entry with
      | directory => cases h
      | file found =>
        cases slash with
        | true => cases h
        | false =>
          cases h
          exact ⟨directory, name, rfl, hlocate, hname, hget⟩

theorem find_of_locate (h : tree.locate cwd path = .ok (.name directory name false))
    (hname : checkName name = .ok ())
    (hget : tree.get? (directory ++ [name]) = some (.file content)) :
    tree.find cwd path = .ok (directory ++ [name], .file content) := by
  unfold find
  rw [h]
  dsimp only [bind, Except.bind]
  rw [hname]
  dsimp only
  rw [hget]
  rfl

theorem Keeps.find (h : tree.Keeps tree') (hfind : tree.find cwd path = .ok (place, .file content))
    (hget : tree'.get? place = some (.file content)) : tree'.find cwd path = .ok (place, .file content) := by
  obtain ⟨directory, name, rfl, hlocate, hname, -⟩ := exists_of_find hfind
  exact find_of_locate (h.locate hlocate) hname hget

theorem read_eq_ok_iff : tree.read cwd path = .ok content ↔
    ∃ place, tree.find cwd path = .ok (place, .file content) := by
  unfold read
  cases tree.find cwd path with
  | error e =>
    refine ⟨fun h => (by cases h), fun h => ?_⟩
    obtain ⟨place, h⟩ := h
    cases h
  | ok found =>
    obtain ⟨place, entry⟩ := found
    cases entry with
    | directory =>
      refine ⟨fun h => (by cases h), fun h => ?_⟩
      obtain ⟨p, h⟩ := h
      cases h
    | file text =>
      refine ⟨fun h => ⟨place, by cases h; rfl⟩, fun h => ?_⟩
      obtain ⟨p, h⟩ := h
      cases h
      rfl

theorem read_of_readText (h : tree.readText cwd path = .ok content) :
    tree.read cwd path = .ok content ∧ content.isUtf8 := by
  obtain ⟨bytes, hread, h⟩ := exists_of_bind h
  unfold asText at h
  split at h
  · next hutf8 =>
    cases h
    exact ⟨hread, hutf8⟩
  · cases h

theorem exists_of_target (h : tree.target cwd path = .ok place) :
    ∃ directory name, place = directory ++ [name] ∧ tree.locate cwd path = .ok (.name directory name false) ∧
      checkName name = .ok () ∧ tree.get? place ≠ some .directory := by
  obtain ⟨d, hlocate, h⟩ := exists_of_bind h
  split at h
  · cases h
  · cases h
  · next directory name =>
    obtain ⟨_, hname, h⟩ := exists_of_bind h
    split at h
    · cases h
    · next hget =>
      cases h
      exact ⟨directory, name, rfl, hlocate, hname, hget⟩

/-- **What is written to a path can be read there.** -/
theorem find_set (h : tree.target cwd path = .ok place) (content : Text) :
    (tree.set place (.file content)).find cwd path = .ok (place, .file content) := by
  obtain ⟨directory, name, rfl, hlocate, hname, hget⟩ := exists_of_target h
  exact find_of_locate ((keeps_set hget _).locate hlocate) hname (get?_set_self tree (by simp) _)

/-- What a tree holds, another one holds in the same places. -/
def Grows (tree tree' : FileTree) : Prop := ∀ p e, tree.get? p = some e → tree'.get? p = some e

theorem Grows.keeps (h : tree.Grows tree') : tree.Keeps tree' := fun p => h p _

theorem Grows.refl (tree : FileTree) : tree.Grows tree := fun _ _ h => h

theorem Grows.trans (h : tree.Grows tree') (h' : tree'.Grows tree'') : tree.Grows tree'' :=
  fun p e hp => h' p e (h p e hp)

theorem Grows.readText (h : tree.Grows tree') (hread : tree.readText cwd path = .ok content) :
    tree'.readText cwd path = .ok content := by
  obtain ⟨hbytes, hutf8⟩ := read_of_readText hread
  obtain ⟨place, hfind⟩ := read_eq_ok_iff.1 hbytes
  obtain ⟨_, _, -, -, -, hget⟩ := exists_of_find hfind
  have hagain : tree'.read cwd path = .ok content :=
    read_eq_ok_iff.2 ⟨place, h.keeps.find hfind (h place _ hget)⟩
  rw [FileTree.readText, hagain]
  exact if_pos hutf8

theorem grows_makeDirectory (h : tree.makeDirectory cwd path = .ok tree') : tree.Grows tree' := by
  obtain ⟨d, -, h⟩ := exists_of_bind h
  split at h
  · cases h
  · next directory name slash =>
    obtain ⟨_, -, h⟩ := exists_of_bind h
    split at h
    · cases h
    · next hget =>
      cases h
      intro p e hp
      have hne : p ≠ directory ++ [name] := fun heq => by
        rw [heq, hget] at hp
        cases hp
      rwa [get?_set_of_ne tree hne]

theorem grows_makeAll {paths : List String} (h : tree.makeAll cwd paths = .ok tree') : tree.Grows tree' := by
  induction paths generalizing tree tree' with
  | nil =>
    cases h
    exact Grows.refl tree
  | cons path above ih =>
    have hthere : ∀ {t : FileTree} {e : FileError},
        (if t.isDirectory cwd path then Except.ok t else .error e) = .ok tree' → t.Grows tree' := by
      intro t e ht
      split at ht
      · cases ht
        exact Grows.refl _
      · cases ht
    unfold makeAll at h
    split at h
    · next made hmade =>
      cases h
      exact grows_makeDirectory hmade
    · next hmade =>
      dsimp only [bind, Except.bind] at h
      split at h
      · cases h
      · next hall =>
        split at h
        · next made hagain =>
          cases h
          exact (ih hall).trans (grows_makeDirectory hagain)
        · exact (ih hall).trans (hthere h)
    · exact hthere h

theorem grows_makeDirectories (h : tree.makeDirectories cwd path = .ok tree') : tree.Grows tree' := by
  unfold makeDirectories at h
  split at h
  · cases h
    exact Grows.refl tree
  · exact grows_makeAll h

end GlslToMetal.FileTree
