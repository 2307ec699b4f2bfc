import GlslToMetal.Files.Path

/-! The pieces of a path. A name without slashes that is joined to a directory is the last piece of the
path. -/

namespace GlslToMetal.Path

open List

variable {name path piece : String}

theorem splitSlashes_ne_nil (cs : List Char) : splitSlashes cs ≠ [] := by
  cases cs with
  | nil => exact cons_ne_nil _ _
  | cons c rest =>
    unfold splitSlashes
    split
    · exact cons_ne_nil _ _
    · split <;> exact cons_ne_nil _ _

theorem splitSlashes_append_slash (cs name : List Char) :
    splitSlashes (cs ++ '/' :: name) = splitSlashes cs ++ splitSlashes name := by
  induction cs with
  | nil =>
    change splitSlashes ('/' :: name) = [] :: splitSlashes name
    cases h : splitSlashes name with
    | nil => exact absurd h (splitSlashes_ne_nil name)
    | cons piece others =>
      rw [splitSlashes, h]
      rfl
  | cons c rest ih =>
    rw [cons_append, splitSlashes, splitSlashes, ih]
    cases h : splitSlashes rest with
    | nil => exact absurd h (splitSlashes_ne_nil rest)
    | cons piece others =>
      rw [cons_append]
      dsimp only
      split <;> rfl

theorem splitSlashes_of_not_mem {name : List Char} (h : '/' ∉ name) : splitSlashes name = [name] := by
  induction name with
  | nil => rfl
  | cons c rest ih =>
    rw [mem_cons, not_or] at h
    rw [splitSlashes, ih h.2]
    exact if_neg (by simpa using Ne.symm h.1)

theorem slash_not_mem_of_mem_splitSlashes {cs piece : List Char} (h : piece ∈ splitSlashes cs) :
    '/' ∉ piece := by
  induction cs generalizing piece with
  | nil =>
    rw [mem_singleton.1 h]
    exact not_mem_nil
  | cons c rest ih =>
    rw [splitSlashes] at h
    cases hrest : splitSlashes rest with
    | nil => exact absurd hrest (splitSlashes_ne_nil rest)
    | cons first others =>
      rw [hrest] at h ih
      dsimp only at h
      split at h
      · rcases mem_cons.1 h with rfl | h
        · exact not_mem_nil
        · exact ih h
      · next hc =>
        rcases mem_cons.1 h with rfl | h
        · rw [mem_cons, not_or]
          exact ⟨fun heq => hc (by rw [← heq]; rfl), ih mem_cons_self⟩
        · exact ih (mem_cons_of_mem _ h)

theorem slash_not_mem_of_mem_pieces (h : piece ∈ pieces path) : '/' ∉ piece.toList := by
  obtain ⟨cs, hcs, rfl⟩ := mem_map.1 (mem_filter.1 h).1
  rw [String.toList_ofList]
  exact slash_not_mem_of_mem_splitSlashes hcs

theorem ne_empty_of_mem_pieces (h : piece ∈ pieces path) : piece ≠ "" :=
  bne_iff_ne.1 (mem_filter.1 h).2

theorem getLast?_pieces {front name : List Char} (hpath : path.toList = front ++ '/' :: name)
    (hslash : '/' ∉ name) (hne : name ≠ []) : (pieces path).getLast? = some (String.ofList name) := by
  have hname : String.ofList name ≠ "" := fun h => hne (by rw [← String.toList_ofList (l := name), h]; rfl)
  unfold pieces
  rw [hpath, splitSlashes_append_slash, splitSlashes_of_not_mem hslash, map_append, filter_append]
  simp [hname]

/-- **A name joined to a directory** is the last piece of the path. -/
theorem getLast?_pieces_join (directory : String) (hslash : '/' ∉ name.toList) (hne : name ≠ "") :
    (pieces (join directory name)).getLast? = some name := by
  have hlist : name.toList ≠ [] := fun h => hne (String.toList_eq_nil_iff.1 h)
  have hrelative : isAbsolute name = false := by
    unfold isAbsolute
    cases hname : name.toList with
    | nil => rfl
    | cons c rest =>
      rw [hname, mem_cons, not_or] at hslash
      simpa using Ne.symm hslash.1
  unfold join
  rw [hrelative, if_neg Bool.false_ne_true]
  split
  · next h =>
    rcases Bool.or_eq_true_iff.1 h with h | h
    · rw [beq_iff_eq.1 h, String.empty_append]
      unfold pieces
      rw [splitSlashes_of_not_mem hslash]
      simp [hne]
    · obtain ⟨front, hfront⟩ := getLast?_eq_some_iff.1 (beq_iff_eq.1 h)
      have hpath : (directory ++ name).toList = front ++ '/' :: name.toList := by
        rw [String.toList_append, hfront, append_assoc]
        rfl
      rw [getLast?_pieces hpath hslash hlist, String.ofList_toList]
  · have hpath : (directory ++ "/" ++ name).toList = directory.toList ++ '/' :: name.toList := by
      rw [String.toList_append, String.toList_append, append_assoc]
      rfl
    rw [getLast?_pieces hpath hslash hlist, String.ofList_toList]

theorem fileName?_eq (h : (pieces path).getLast? = some name) (hdot : name ≠ ".")
    (hdots : name ≠ "..") : fileName? path = some name := by
  obtain ⟨front, hfront⟩ := getLast?_eq_some_iff.1 h
  unfold fileName? parts
  rw [hfront, filter_append]
  simp [hdot, hdots]

theorem stem_ne_empty (h : name ≠ "") : stem name ≠ "" := by
  unfold stem
  dsimp only
  split
  · exact h
  · next hbefore =>
    intro heq
    apply hbefore
    have hnil := congrArg String.toList heq
    rw [String.toList_ofList] at hnil
    rw [reverse_eq_nil_iff.1 hnil]
    rfl

theorem mem_of_mem_stem {c : Char} (h : c ∈ (stem name).toList) : c ∈ name.toList := by
  unfold stem at h
  dsimp only at h
  split at h
  · exact h
  · rw [String.toList_ofList, mem_reverse] at h
    exact mem_reverse.1 ((dropWhile_suffix _).subset ((drop_suffix _ _).subset h))

theorem stem_append_metal {s : String} (h : s ≠ "") : stem (s ++ ".metal") = s := by
  have hne : s.toList ≠ [] := fun hnil => h (String.toList_eq_nil_iff.1 hnil)
  have hbefore : (((s ++ ".metal").toList.reverse.dropWhile (· != '.')).drop 1) = s.toList.reverse := by
    rw [String.toList_append, reverse_append]
    rfl
  unfold stem
  dsimp only
  rw [hbefore, reverse_reverse, String.ofList_toList]
  simp [hne]

end GlslToMetal.Path
