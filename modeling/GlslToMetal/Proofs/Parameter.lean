import GlslToMetal.Ambient.Threading
import GlslToMetal.Proofs.Signature

/-! Parameters on the tree of a list. Not every element of a list declares a parameter: the word
`void` does not, and nor does a blank. A new parameter goes behind the last element that declares
one; a list that declares none is replaced. -/

namespace GlslToMetal

open Text (strip)

/-- The parameter without its place. -/
def Parameter.bare (p : Parameter) : Parameter := { p with range := ⟨0, 0⟩ }

/-- Without their places, the parameters are what each text declares. -/
theorem Parameter.map_bare_declaredFrom (i : Nat) (xs : List Text) :
    (declaredFrom i xs).map bare = (xs.map strip).filterMap (ofText? · ⟨0, 0⟩) := by
  induction xs generalizing i with
  | nil => rfl
  | cons x xs ih =>
    rw [declaredFrom, List.map_append, ih, List.map_cons, List.filterMap_cons, ofText?_eq]
    have hplace := ofText?_eq x.strip ⟨0, 0⟩
    cases hx : ofText? x.strip ⟨0, 0⟩ with
    | none => rfl
    | some p =>
      rw [hx] at hplace
      exact congrArg (· :: _) (Option.some.inj hplace).symm

theorem Parameter.declaredFrom_append (i : Nat) (xs : List Text) {ys : List Text}
    (h : (ys.map strip).filterMap (ofText? · ⟨0, 0⟩) = []) :
    declaredFrom i (xs ++ ys) = declaredFrom i xs := by
  induction xs generalizing i with
  | nil => exact List.map_eq_nil_iff.mp ((map_bare_declaredFrom i ys).trans h)
  | cons x xs ih => rw [List.cons_append, declaredFrom, declaredFrom, ih]

theorem Signature.isColorOutput_bare (p : Parameter) : isColorOutput p.bare = isColorOutput p := rfl

theorem Signature.isCoordInput_bare (p : Parameter) : isCoordInput p.bare = isCoordInput p := rfl

theorem Signature.isSome_entryContract? (f : Signature) :
    f.entryContract?.isSome = match f.params.map Parameter.bare with
      | [color, coord] => f.returnType == ("void" : Text) && isColorOutput color && isCoordInput coord
      | _ => false := by
  unfold entryContract?
  match f.params with
  | [] => rfl
  | [_] => rfl
  | [color, coord] =>
    simp only [List.map_cons, List.map_nil, isColorOutput_bare, isCoordInput_bare]
    split
    · next hshape => rw [hshape]; rfl
    · next hshape => simpa using hshape
  | _ :: _ :: _ :: _ => rfl

namespace Nest

open List Text

/-- The parameter that an element of a list declares. -/
def parameter? (s : Nest) : Option Parameter := Parameter.ofText? s.text.strip ⟨0, 0⟩

/-- The parameters of a list without their places. -/
def bareParameters (t : Nest) : List Parameter := (commas t).filterMap parameter?

theorem filterMap_parameter? (segs : List Nest) : segs.filterMap parameter? =
    ((segs.map text).map strip).filterMap (Parameter.ofText? · ⟨0, 0⟩) := by
  rw [map_map, filterMap_map]
  rfl

theorem map_bare_parameters (i : Nat) (t : Nest) :
    (t.parameters i).map Parameter.bare = t.bareParameters := by
  rw [parameters_eq_declaredFrom, Parameter.map_bare_declaredFrom, bareParameters, filterMap_parameter?]

/-- The segments up to the last that declares a parameter, and those behind it. -/
def splitDeclared : List Nest → List Nest × List Nest
  | [] => ([], [])
  | s :: rest =>
    let (front, behind) := splitDeclared rest
    if front.isEmpty && s.parameter?.isNone then ([], s :: behind) else (s :: front, behind)

/-- The list with one more parameter. -/
def appendParam (new : Text) (t : Nest) : Nest :=
  let (front, behind) := splitDeclared (commas t)
  if front.isEmpty then ofText new else join (extendLast new front ++ behind)

theorem splitDeclared_append (segs : List Nest) :
    (splitDeclared segs).1 ++ (splitDeclared segs).2 = segs := by
  induction segs with
  | nil => rfl
  | cons s rest ih =>
    unfold splitDeclared
    dsimp only
    split
    · next h =>
      simp only [Bool.and_eq_true, List.isEmpty_iff] at h
      rw [h.1, List.nil_append] at ih
      rw [ih, List.nil_append]
    · rw [cons_append, ih]

theorem filterMap_splitDeclared (segs : List Nest) : (splitDeclared segs).2.filterMap parameter? = [] ∧
      ∀ s ∈ (splitDeclared segs).1.getLast?, s.parameter?.isSome := by
  induction segs with
  | nil => simp [splitDeclared]
  | cons s rest ih =>
    unfold splitDeclared
    dsimp only
    split
    · next h =>
      simp only [Bool.and_eq_true, List.isEmpty_iff, Option.isNone_iff_eq_none] at h
      simp [h.2, ih.1]
    · next h =>
      refine ⟨ih.1, ?_⟩
      intro u hu
      cases hfront : (splitDeclared rest).1 with
      | nil =>
        rw [hfront] at hu
        simp only [getLast?_singleton, Option.mem_def, Option.some.injEq] at hu
        subst hu
        simp only [hfront, isEmpty_nil, Bool.true_and, Option.isNone_iff_eq_none] at h
        exact Option.isSome_iff_ne_none.mpr h
      | cons v front =>
        apply ih.2 u
        rw [hfront] at hu ⊢
        simpa using hu

/-- The parameters of a list are the old ones and the new one. -/
theorem bareParameters_appendParam {new : Text} (hstrip : new.strip = new) (hcomma : 44 ∉ new)
    {q : Parameter} (hq : Parameter.ofText? new ⟨0, 0⟩ = some q) (t : Nest) :
    (appendParam new t).bareParameters = t.bareParameters ++ [q] := by
  have hsplit := splitDeclared_append (commas t)
  have hbehind := (filterMap_splitDeclared (commas t)).1
  have hold : t.bareParameters = (splitDeclared (commas t)).1.filterMap parameter? := by
    unfold bareParameters
    conv => lhs; rw [← hsplit, List.filterMap_append, hbehind, List.append_nil]
  have hcommas : ∀ s ∈ (splitDeclared (commas t)).1 ++ (splitDeclared (commas t)).2, s.NoComma := by
    rw [hsplit]
    exact noComma_commas t
  rw [hold]
  unfold appendParam
  dsimp only
  generalize (splitDeclared (commas t)).1 = front at hcommas ⊢
  generalize (splitDeclared (commas t)).2 = behind at hcommas hbehind ⊢
  split
  · next hempty =>
    have hsegs : commas (ofText new) = [ofText new] :=
      @commas_join [ofText new] (by simp) (by simpa using noComma_ofText hcomma)
    simp [isEmpty_iff.mp hempty, bareParameters, hsegs, parameter?, hstrip, hq]
  · next hempty =>
    have hne : front ≠ [] := by simpa using hempty
    have hsegs : commas (join (extendLast new front ++ behind)) = extendLast new front ++ behind := by
      refine commas_join (by simp [extendLast_ne_nil]) ?_
      intro s hs
      rcases mem_append.mp hs with hs | hs
      · exact noComma_extendLast hcomma (fun u hu => hcommas u (mem_append_left _ hu)) s hs
      · exact hcommas s (mem_append_right _ hs)
    unfold bareParameters
    have hold := map_strip_extendLast hstrip hne
    rw [hsegs, filterMap_append, hbehind, filterMap_parameter?, map_map, filterMap_parameter?, map_map]
    simp [Function.comp_def, hold, hq]

theorem getLast?_declaredFrom (i : Nat) {segs : List Nest} (hne : segs ≠ [])
    (hlast : ∀ s ∈ segs.getLast?, s.parameter?.isSome) : ∃ start,
      (Parameter.declaredFrom i (segs.map text)).getLast?.map (·.range) =
        some ⟨start, i + (upToLast segs).text.length⟩ := by
  fun_induction upToLast segs generalizing i with
  | case1 => exact absurd rfl hne
  | case2 s =>
    obtain ⟨p, hp⟩ := Option.isSome_iff_exists.mp (hlast s rfl)
    rw [parameter?] at hp
    refine ⟨i + s.text.leadingBlanks, ?_⟩
    rw [map_singleton, Parameter.declaredFrom, Parameter.ofText?_eq, hp, text_core]
    rfl
  | case3 s t rest ih =>
    obtain ⟨start, hstart⟩ := ih (i + s.text.length + 1) (by simp) (by simpa using hlast)
    refine ⟨start, ?_⟩
    have hlen : i + (s ++ byte 44 (upToLast (t :: rest))).text.length =
        i + s.text.length + 1 + (upToLast (t :: rest)).text.length := by
      simp
      omega
    rw [hlen, ← hstart, map_cons, Parameter.declaredFrom, getLast?_append]
    cases h : (Parameter.declaredFrom (i + s.text.length + 1) ((t :: rest).map text)).getLast? with
    | none =>
      rw [h] at hstart
      cases hstart
    | some p => rfl

/-- What follows a segment. -/
def remainder (behind : List Nest) : Nest := if behind.isEmpty then nil else byte 44 (join behind)

theorem join_append_remainder {segs : List Nest} (hne : segs ≠ []) (behind : List Nest) :
    join (segs ++ behind) = join segs ++ remainder behind := by
  unfold remainder
  split
  · next h => rw [List.isEmpty_iff.mp h, List.append_nil, append_nil]
  · next h => exact join_append hne (by simpa using h)

/-- The edit that appends a parameter to the list whose parenthesis is at `i`. -/
theorem rewrites_params {new : Text} (hnew : Insertable new) (t : Nest) (i : Nat) (r : Text) :
    Rewrites i (40 :: (t.text ++ 41 :: r))
      [Threading.append ((t.parameters (i + 1)).getLast?.map (·.range)) i (i + 1 + t.text.length) new]
      (40 :: ((appendParam new t).text ++ 41 :: r)) := by
  have hsplit := splitDeclared_append (commas t)
  obtain ⟨hbehind, hlast⟩ := filterMap_splitDeclared (commas t)
  rw [filterMap_parameter?] at hbehind
  rw [parameters_eq_declaredFrom]
  unfold appendParam
  dsimp only
  generalize (splitDeclared (commas t)).1 = front at hsplit hlast ⊢
  generalize (splitDeclared (commas t)).2 = behind at hsplit hbehind ⊢
  rw [← hsplit, map_append, Parameter.declaredFrom_append _ _ hbehind]
  split
  · next hempty =>
    rw [isEmpty_iff.mp hempty, text_ofText]
    exact @Rewrites.edit i [40] t.text new (41 :: r) (41 :: r) [] (by simp) hnew
      (.inl ⟨40, rfl, rfl⟩) (.inr ⟨41, rfl, rfl⟩) (by simp [show isBlank 41 = false from rfl]) (.keep _ _)
  · next hempty =>
    have hne : front ≠ [] := by simpa using hempty
    obtain ⟨start, hrange⟩ := getLast?_declaredFrom (i + 1) hne hlast
    have htext : t.text = (upToLast front).text ++ (behindLast front ++ (remainder behind).text) := by
      have := join_commas t
      rw [← hsplit, join_append_remainder hne, ← upToLast_append front] at this
      rw [← this]
      simp
    have htext' : (join (extendLast new front ++ behind)).text = (upToLast front).text ++
        ((44 :: 32 :: new) ++ (behindLast front ++ (remainder behind).text)) := by
      rw [join_append_remainder (extendLast_ne_nil new front), join_extendLast new hne]
      simp
    have hsolid : EndsSolid (40 :: (upToLast front).text) ∨
        (([] : Text) = [] ∧ StartsSolid (behindLast front ++ (remainder behind).text ++ 41 :: r)) := by
      rcases endsSolid_upToLast hne with hsolid | hnil
      · exact .inl (hsolid.append_left [40])
      · refine .inr ⟨rfl, ?_⟩
        rw [hnil, remainder]
        split
        · exact ⟨41, rfl, rfl⟩
        · exact ⟨44, rfl, rfl⟩
    have hedited := @Rewrites.edit i (40 :: (upToLast front).text) [] (44 :: 32 :: new)
      (behindLast front ++ (remainder behind).text ++ 41 :: r) _ [] (by simp) hnew.comma hsolid
      (.inl rfl) (by simp [show isBlank 41 = false from rfl]) (.keep _ _)
    rw [hrange, htext, htext']
    simpa [Threading.append, Edit.insert, Nat.add_assoc, Nat.add_comm, comma_eq] using hedited

end Nest

end GlslToMetal
