import GlslToMetal.Proofs.Ambient.Routine

/-! Which routines use which values. What discovery reports of a program can be said of its routines:
a routine other than the entry point lacks a value when its body names it and no parameter has that
name. -/

namespace GlslToMetal

open List Text

variable {ambients : List Ambient} {routines : List Routine} {functions : List Signature} {names : List Text}
  {i : Nat} {o : Outline} {r : Routine} {f : Signature} {m name source : Text}

theorem Text.mem_placeName {other : Text} : other ∈ placeName name names ↔ other = name ∨ other ∈ names := by
  induction names with
  | nil => simp [placeName]
  | cons n names ih =>
    unfold placeName
    split
    · rw [mem_cons, ih, mem_cons]
      grind
    · split
      · next heq =>
        rw [beq_iff_eq] at heq
        simp [heq]
      · simp

theorem Text.pairwise_placeName (h : names.Pairwise (· < ·)) : (placeName name names).Pairwise (· < ·) := by
  induction names with
  | nil => exact pairwise_singleton _ _
  | cons n names ih =>
    rw [pairwise_cons] at h
    unfold placeName
    split
    · next hlt =>
      refine pairwise_cons.mpr ⟨?_, ih h.2⟩
      intro other hother
      rcases mem_placeName.mp hother with rfl | hmem
      · exact hlt
      · exact h.1 other hmem
    · next hlt =>
      split
      · exact pairwise_cons.mpr h
      · next hne =>
        rw [beq_iff_eq] at hne
        have hname : name < n := by
          rcases Std.Trichotomous.rel_or_eq_or_rel_swap (r := (· < · : Text → Text → Prop))
            (a := n) (b := name) with hlt' | heq | hlt'
          · exact absurd hlt' hlt
          · exact absurd heq hne
          · exact hlt'
        refine pairwise_cons.mpr ⟨?_, pairwise_cons.mpr h⟩
        intro other hother
        rcases mem_cons.mp hother with rfl | hmem
        · exact hname
        · exact List.lt_trans hname (h.1 other hmem)

section Fold

variable {α : Type} (f : α → Text)

theorem mem_foldl_placeName (xs : List α) (names : List Text) (name : Text) :
    name ∈ xs.foldl (fun names x => (f x).placeName names) names ↔ name ∈ names ∨ ∃ x ∈ xs, f x = name := by
  induction xs generalizing names with
  | nil => simp
  | cons x xs ih =>
    rw [foldl_cons, ih, mem_placeName]
    grind

theorem nodup_foldl_placeName (xs : List α) (h : names.Pairwise (· < ·)) :
    (xs.foldl (fun names x => (f x).placeName names) names).Nodup := by
  induction xs generalizing names with
  | nil =>
    refine h.imp ?_
    rintro a b hlt rfl
    exact List.lt_irrefl _ hlt
  | cons x xs ih => exact ih (pairwise_placeName h)

end Fold

theorem Use.mem_place {u v : Use} {uses : List Use} : v ∈ u.place uses ↔ v = u ∨ v ∈ uses := by
  induction uses with
  | nil => simp [place]
  | cons w uses ih =>
    unfold place
    split
    · rw [mem_cons, ih, mem_cons]
      grind
    · simp

theorem Use.mem_foldr_place {v : Use} {uses : List Use} : v ∈ uses.foldr place [] ↔ v ∈ uses := by
  induction uses with
  | nil => rfl
  | cons u uses ih => rw [foldr_cons, mem_place, ih, mem_cons]

/-! What discovery reports. -/

namespace Routine

/-- The position of the entry point. -/
def entry? (routines : List Routine) : Option Nat := routines.findIdx? isEntry

/-- The values that a routine lacks, in the order of their names. -/
def lacking (ambients : List Ambient) (r : Routine) : List Text :=
  (ambients.filter fun a => r.lacks a.name).foldl (fun names a => a.name.placeName names) []

theorem mem_lacking : name ∈ r.lacking ambients ↔ ∃ a ∈ ambients, r.lacks a.name ∧ a.name = name := by
  unfold lacking
  rw [mem_foldl_placeName]
  simp [and_assoc]

end Routine

namespace Routine

/-- The use that the routine at a position makes of values. -/
def use? (ambients : List Ambient) (routines : List Routine) (i : Nat) : Option Use :=
  (routines[i]?).bind fun r =>
    if entry? routines == some i || (r.lacking ambients).isEmpty then none
    else some ⟨r.name, r.params.length, i, r.lacking ambients⟩

/-- The routine at a position lacks a value and is not the entry point. -/
def wants (routines : List Routine) (name : Text) (i : Nat) : Bool :=
  entry? routines != some i && (routines[i]?).any (·.lacks name)

theorem wants_iff : wants routines name i ↔ entry? routines ≠ some i ∧ ∃ r, routines[i]? = some r ∧
    r.lacks name := by
  unfold wants
  rw [Bool.and_eq_true, bne_iff_ne, Option.any_eq_true]

end Routine

section Matched

variable {m : Text} {f : Signature} {r : Routine} (h : f.Matches m r)
include h

theorem Signature.Matches.isEntry : (f.isDefinition && f.entryContract?.isSome) = r.isEntry := by
  rw [isSome_entryContract?, h.definition, h.params, h.returnType]
  rfl

theorem Signature.Matches.hasParam (name : Text) : f.hasParam name = r.hasParam name := by
  unfold Signature.hasParam Routine.hasParam
  rw [← h.params, any_map]
  rfl

theorem Signature.Matches.arity : f.arity = r.params.length := by
  rw [← h.params, length_map, Signature.arity]

/-- The values that discovery finds in a definition are those that its routine lacks. -/
theorem Signature.Matches.namesUsed (ambients : List Ambient) {body : Range} (hbody : f.body? = some body) :
    Usage.namesUsed m ambients f body = .ok (r.lacking ambients) := by
  obtain ⟨tree, htree, hslice⟩ := h.body body hbody
  have hlacks : ∀ a : Ambient, (!f.hasParam a.name && tree.text.containsWord a.name) = r.lacks a.name := by
    intro a
    rw [h.hasParam, Routine.lacks, Option.mem_def.mp htree]
    rfl
  unfold Usage.namesUsed
  simp only [hslice, bind, Except.bind, hlacks]
  rfl

end Matched

theorem findIdx?_matches (h : List.Forall₂ (Signature.Matches m) functions routines) :
    functions.findIdx? (fun f => f.isDefinition && f.entryContract?.isSome) = Routine.entry? routines := by
  unfold Routine.entry?
  induction h with
  | nil => rfl
  | cons hf _ ih => rw [findIdx?_cons, findIdx?_cons, hf.isEntry, ih]

section Entry

variable {m : Text} {functions : List Signature} {routines : List Routine}
  (h : List.Forall₂ (Signature.Matches m) functions routines)
  (hstart : functions.Pairwise (·.range.start < ·.range.start))

include hstart in
theorem eq_of_start {j : Nat} {g : Signature} (hf : functions[i]? = some f)
    (hg : functions[j]? = some g) (hsame : f.range.start = g.range.start) : i = j := by
  obtain ⟨hi, rfl⟩ := List.getElem?_eq_some_iff.mp hf
  obtain ⟨hj, rfl⟩ := List.getElem?_eq_some_iff.mp hg
  rw [pairwise_iff_getElem] at hstart
  rcases Nat.lt_trichotomy i j with hij | hij | hij
  · have := hstart i j hi hj hij
    omega
  · exact hij
  · have := hstart j i hj hi hij
    omega

include h in
theorem entryPoint?_eq : Program.entryPoint? functions = (Routine.entry? routines).bind (functions[·]?) := by
  unfold Program.entryPoint?
  rw [find?_eq_bind_findIdx?_getElem?, findIdx?_matches h]

include h hstart

theorem entryPoint?_eq_some_iff (hf : functions[i]? = some f) :
    Program.entryPoint? functions = some f ↔ Routine.entry? routines = some i := by
  rw [entryPoint?_eq h, Option.bind_eq_some_iff]
  constructor
  · rintro ⟨j, hj, hfj⟩
    rw [hj, eq_of_start hstart hfj hf rfl]
  · intro hi
    exact ⟨i, hi, hf⟩

theorem any_entryPoint? (hf : functions[i]? = some f) :
    (Program.entryPoint? functions).any (·.range.start == f.range.start) =
      (Routine.entry? routines == some i) := by
  rw [Bool.eq_iff_iff, beq_iff_eq, ← entryPoint?_eq_some_iff h hstart hf, Option.any_eq_true]
  constructor
  · rintro ⟨g, hg, hsame⟩
    rw [entryPoint?_eq h, Option.bind_eq_some_iff] at hg
    obtain ⟨j, hj, hgj⟩ := hg
    obtain rfl := eq_of_start hstart hgj hf (beq_iff_eq.mp hsame)
    rw [entryPoint?_eq h, hj]
    exact hf
  · intro hentry
    exact ⟨f, hentry, beq_self_eq_true _⟩

end Entry

open Routine

theorem Routine.lacking_of_prototype (h : r.body? = none) (ambients : List Ambient) :
    r.lacking ambients = [] := by
  have hlacks : ∀ a : Ambient, r.lacks a.name = false := by simp [lacks, h]
  simp [lacking, hlacks]

theorem Usage.ofFunction?_matches (ambients : List Ambient)
    (h : List.Forall₂ (Signature.Matches m) functions routines)
    (hstart : functions.Pairwise (·.range.start < ·.range.start)) (hf : functions[i]? = some f) :
    ofFunction? m ambients (Program.entryPoint? functions) f i = .ok (use? ambients routines i) := by
  obtain ⟨hi, rfl⟩ := List.getElem?_eq_some_iff.mp hf
  have hi' : i < routines.length := h.length_eq ▸ hi
  have hmatch : functions[i].Matches m routines[i] := h.get hi hi'
  unfold ofFunction? use?
  rw [any_entryPoint? h hstart hf, getElem?_eq_getElem hi', Option.bind_some]
  cases hentry : entry? routines == some i with
  | true => rfl
  | false =>
    cases hbody : functions[i].body? with
    | none =>
      have hdef := hmatch.definition
      rw [Signature.isDefinition, hbody, Option.isSome_none] at hdef
      rw [lacking_of_prototype (Option.isSome_eq_false_iff.mp hdef.symm |> Option.isNone_iff_eq_none.mp)]
      rfl
    | some body =>
      simp only [hmatch.namesUsed ambients hbody, bind, Except.bind, Bool.false_eq_true, if_false,
        Bool.false_or, pure, Except.pure, hmatch.name, hmatch.arity]

/-- **What discovery reports**: the uses that the routines make. -/
theorem Represents.discover (h : Represents source o)
    (ambients : List Ambient) :
    ∃ uses, Usage.discover source ambients = .ok uses ∧ ∀ u, u ∈ uses ↔
      ∃ i, use? ambients o.routines i = some u := by
  obtain ⟨functions, hfunctions, hmatches, hstart, -⟩ := h.functions
  have hread : ∀ x ∈ functions.zipIdx,
    Usage.ofFunction? source.mask ambients (Program.entryPoint? functions) x.1 x.2 =
        .ok (use? ambients o.routines x.2) := fun x hx =>
    Usage.ofFunction?_matches ambients hmatches hstart (mem_zipIdx_iff_getElem?.mp hx)
  refine ⟨((functions.zipIdx.map fun x => use? ambients o.routines x.2).filterMap id).foldr
    Use.place [], ?_, ?_⟩
  · unfold Usage.discover
    simp only [hfunctions, bind, Except.bind, Nest.mapM_eq_ok hread]
    rfl
  · intro u
    rw [Use.mem_foldr_place, mem_filterMap]
    simp only [id_eq, exists_eq_right, mem_map]
    constructor
    · rintro ⟨x, -, hx⟩
      exact ⟨x.2, hx⟩
    · rintro ⟨i, hi⟩
      have hlt : i < functions.length := by
        obtain ⟨r, hr, -⟩ := Option.bind_eq_some_iff.mp hi
        rw [hmatches.length_eq]
        exact (List.getElem?_eq_some_iff.mp hr).1
      exact ⟨(functions[i], i), mem_zipIdx_iff_getElem?.mpr (getElem?_eq_getElem hlt), hi⟩

theorem Routine.use?_eq_some {u : Use} : use? ambients routines i = some u ↔
      ∃ r, routines[i]? = some r ∧ entry? routines ≠ some i ∧ r.lacking ambients ≠ [] ∧
        u = ⟨r.name, r.params.length, i, r.lacking ambients⟩ := by
  unfold use?
  rw [Option.bind_eq_some_iff]
  refine exists_congr fun r => and_congr_right fun _ => ?_
  split
  · next hcond =>
    simp only [Bool.or_eq_true, beq_iff_eq, List.isEmpty_iff] at hcond
    simp only [reduceCtorEq, false_iff]
    rintro ⟨hentry, hlacking, -⟩
    exact hcond.elim hentry hlacking
  · next hcond =>
    simp only [Bool.or_eq_true, beq_iff_eq, List.isEmpty_iff, not_or] at hcond
    simp [hcond, eq_comm]

theorem Represents.discover_isEmpty (h : Represents source o)
    {uses : List Use} (huses : Usage.discover source ambients = .ok uses) :
    uses.isEmpty ↔ ∀ a ∈ ambients, ∀ i, wants o.routines a.name i = false := by
  obtain ⟨found, hfound, hmem⟩ := h.discover ambients
  rw [huses] at hfound
  cases hfound
  rw [List.isEmpty_iff]
  constructor
  · intro hempty a ha i
    by_contra hwants
    rw [Bool.not_eq_false, wants_iff] at hwants
    obtain ⟨hentry, r, hr, hlacks⟩ := hwants
    have hname : a.name ∈ r.lacking ambients := mem_lacking.mpr ⟨a, ha, hlacks, rfl⟩
    have huse := (hmem _).mpr ⟨i, use?_eq_some.mpr ⟨r, hr, hentry, ne_nil_of_mem hname, rfl⟩⟩
    rw [hempty] at huse
    cases huse
  · intro hnone
    refine eq_nil_iff_forall_not_mem.mpr ?_
    intro u hu
    obtain ⟨i, hi⟩ := (hmem u).mp hu
    obtain ⟨r, hr, hentry, hlacking, -⟩ := use?_eq_some.mp hi
    obtain ⟨name, hname⟩ := exists_mem_of_ne_nil _ hlacking
    obtain ⟨a, ha, hlacks, -⟩ := mem_lacking.mp hname
    have := hnone a ha i
    rw [wants_iff.mpr ⟨hentry, r, hr, hlacks⟩] at this
    cases this

theorem Represents.mem_users (h : Represents source o) {a : Ambient}
    {uses : List Use} (huses : Usage.discover source [a] = .ok uses) {overloads : Overloads} {id : Nat} :
    id ∈ Threading.users uses a.name overloads ↔ ∃ i, wants o.routines a.name i ∧
      overloads.ofFunction[i]? = some id := by
  obtain ⟨found, hfound, hmem⟩ := h.discover [a]
  rw [huses] at hfound
  cases hfound
  unfold Threading.users Usage.usersOf
  rw [mem_eraseDups, mem_filterMap]
  constructor
  · rintro ⟨u, hu, hid⟩
    rw [mem_filter, contains_eq_mem, decide_eq_true_eq] at hu
    obtain ⟨i, hi⟩ := (hmem u).mp hu.1
    obtain ⟨r, hr, hentry, -, rfl⟩ := use?_eq_some.mp hi
    obtain ⟨b, hb, hlacks, -⟩ := mem_lacking.mp hu.2
    rw [mem_singleton] at hb
    subst hb
    exact ⟨i, wants_iff.mpr ⟨hentry, r, hr, hlacks⟩, hid⟩
  · rintro ⟨i, hwants, hid⟩
    obtain ⟨hentry, r, hr, hlacks⟩ := wants_iff.mp hwants
    have hname : a.name ∈ r.lacking [a] := mem_lacking.mpr ⟨a, mem_singleton_self a, hlacks, rfl⟩
    have huse := (hmem _).mpr ⟨i, use?_eq_some.mpr ⟨r, hr, hentry, ne_nil_of_mem hname, rfl⟩⟩
    refine ⟨_, mem_filter.mpr ⟨huse, ?_⟩, hid⟩
    rw [contains_eq_mem, decide_eq_true_eq]
    exact hname

end GlslToMetal
