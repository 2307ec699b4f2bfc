import GlslToMetal.Proofs.Ambient.Phase

/-! What threading a value does to the routines and the calls of a program. Routines keep their
names, types and order and gain parameters at the end; calls keep their functions and their order,
and those that are meant gain the value at the end. -/

namespace GlslToMetal

open List Text Nest

variable {a : Ambient} {values : List Ambient} {rs : List Routine} {o : Outline} {p : Piece}
  {r r' r₀ : Routine}

theorem forall₂_comp {α β γ : Type} {R : α → β → Prop} {S : β → γ → Prop} {Q : α → γ → Prop}
    (himp : ∀ x y z, R x y → S y z → Q x z) {xs : List α} {ys : List β} {zs : List γ}
    (h : List.Forall₂ R xs ys) (h' : List.Forall₂ S ys zs) : List.Forall₂ Q xs zs := by
  induction h generalizing zs with
  | nil =>
    cases h'
    exact .nil
  | cons hxy _ ih =>
    cases h' with
    | cons hyz hrest => exact .cons (himp _ _ _ hxy hyz) (ih hrest)

/-- The routine with a value threaded through it. -/
def Routine.thread (meant : Text → List Text → Bool) (a : Ambient) (gains : Bool) (r : Routine) :
    Routine where
  name := r.name
  type := r.type
  params := if gains then r.params ++ [a.parameter] else r.params
  body? := r.body?.map (·.pass meant a.name [])

/-- The routine has gained parameters for some values. -/
structure Routine.Grown (r₀ r : Routine) (values : List Ambient) : Prop where
  name : r.name = r₀.name
  type : r.type = r₀.type
  definition : r.body?.isSome = r₀.body?.isSome
  params : r.params = r₀.params ++ values.map (·.parameter)

theorem Routine.Grown.refl (r : Routine) : r.Grown r [] := ⟨rfl, rfl, rfl, by simp⟩

theorem Routine.Grown.thread (h : r₀.Grown r values)
    (meant : Text → List Text → Bool) (a : Ambient) (gains : Bool) :
    r₀.Grown (r.thread meant a gains) (if gains then values ++ [a] else values) := by
  refine ⟨h.name, h.type, ?_, ?_⟩
  · rw [← h.definition, Routine.thread, Option.isSome_map]
  · unfold Routine.thread
    dsimp only
    rw [h.params]
    split <;> simp

/-- The routine has gained parameters for values of a family. -/
def Routine.GrownBy (ambients : List Ambient) (r₀ r : Routine) : Prop :=
  ∃ values, r₀.Grown r values ∧ ∀ a ∈ values, a ∈ ambients

namespace Routine.GrownBy

variable {ambients : List Ambient}

theorem refl (r : Routine) : r.GrownBy ambients r := ⟨[], .refl r, by simp⟩

theorem trans (r r' r'' : Routine) (h : r.GrownBy ambients r') (h' : r'.GrownBy ambients r'') :
    r.GrownBy ambients r'' := by
  obtain ⟨values, hgrown, hsubset⟩ := h
  obtain ⟨values', hgrown', hsubset'⟩ := h'
  refine ⟨values ++ values', ⟨hgrown'.name.trans hgrown.name, hgrown'.type.trans hgrown.type,
    hgrown'.definition.trans hgrown.definition, ?_⟩, ?_⟩
  · rw [hgrown'.params, hgrown.params, List.map_append, List.append_assoc]
  · intro a ha
    exact (mem_append.mp ha).elim (hsubset a) (hsubset' a)

theorem thread (meant : Text → List Text → Bool) (ha : a ∈ ambients) (gains : Bool)
    (r : Routine) : r.GrownBy ambients (r.thread meant a gains) := by
  refine ⟨_, (Grown.refl r).thread meant a gains, ?_⟩
  split
  · simpa using ha
  · simp

theorem definition (h : r.GrownBy ambients r') : r'.body?.isSome = r.body?.isSome := by
  obtain ⟨values, hgrown, -⟩ := h
  exact hgrown.definition

theorem hasParam (h : r.GrownBy ambients r') {name : Text} (hr : r.hasParam name) : r'.hasParam name := by
  obtain ⟨values, hgrown, -⟩ := h
  unfold Routine.hasParam at hr ⊢
  rw [hgrown.params, any_append, hr, Bool.true_or]

end Routine.GrownBy

/-- The routine has the shape of an entry point but for the coordinate. -/
def Routine.awaitsCoord (r : Routine) : Bool :=
  r.body?.isSome && r.type == ("void" : Text) && match r.params with
    | [color] => Signature.isColorOutput color
    | _ => false

/-- **A routine that has gained parameters is an entry point** if it was one and gained none, or if
all it missed was the coordinate and that is what it gained. -/
theorem Routine.Grown.isEntry_iff (h : r₀.Grown r values) : r.isEntry ↔ (values = [] ∧ r₀.isEntry) ∨
      ∃ a, values = [a] ∧ Signature.isCoordInput a.parameter ∧ r₀.awaitsCoord := by
  have hcolor : ∀ a : Ambient, Signature.isColorOutput a.parameter = false := by
    intro a
    simp [Signature.isColorOutput, Ambient.parameter]
  unfold Routine.isEntry Routine.awaitsCoord
  rw [h.definition, h.params, h.type]
  match values, r₀.params with
  | [], params => simp
  | [a], [] => simp
  | [a], [color] =>
    simp only [map_cons, map_nil, singleton_append, Bool.and_eq_true, reduceCtorEq,
      false_and, false_or, cons.injEq, and_true]
    constructor
    · rintro ⟨hbody, ⟨htype, hcolor⟩, hcoord⟩
      exact ⟨a, rfl, hcoord, ⟨hbody, htype⟩, hcolor⟩
    · rintro ⟨b, rfl, hcoord, ⟨hbody, htype⟩, hcolor⟩
      exact ⟨hbody, ⟨htype, hcolor⟩, hcoord⟩
  | [a], _ :: _ :: params => simp
  | [a, b], [] => simp [hcolor]
  | a :: b :: values, [_] => simp
  | a :: b :: values, _ :: _ :: params => simp
  | a :: b :: c :: values, [] => simp

/-- The entry point stays in place if the routines up to it are entry points as before. -/
theorem Routine.entry?_eq {rs₀ : List Routine} (hlen : rs.length = rs₀.length)
    (h : ∀ {i : Nat} {r₀ r : Routine}, rs₀[i]? = some r₀ → rs[i]? = some r →
      (∀ k, entry? rs₀ = some k → i ≤ k) → r.isEntry = r₀.isEntry) : entry? rs = entry? rs₀ := by
  cases hk : entry? rs₀ with
  | none =>
    have hnone := findIdx?_eq_none_iff.mp hk
    refine findIdx?_eq_none_iff.mpr ?_
    intro r hr
    obtain ⟨i, hi, rfl⟩ := getElem_of_mem hr
    rw [h (getElem?_eq_getElem (hlen ▸ hi)) (getElem?_eq_getElem hi) (by simp [hk])]
    exact hnone _ (getElem_mem _)
  | some k =>
    obtain ⟨hlt, hentry, hbefore⟩ := findIdx?_eq_some_iff_getElem.mp hk
    refine findIdx?_eq_some_iff_getElem.mpr ⟨hlen ▸ hlt, ?_, ?_⟩
    · rw [h (getElem?_eq_getElem hlt) (getElem?_eq_getElem _) fun k' hk' =>
        Nat.le_of_eq (Option.some.inj (hk.symm.trans hk'))]
      exact hentry
    · intro j hj
      rw [h (getElem?_eq_getElem (Nat.lt_trans hj hlt)) (getElem?_eq_getElem _) fun k' hk' =>
        Option.some.inj (hk.symm.trans hk') ▸ Nat.le_of_lt hj]
      exact hbefore j hj

theorem Routine.isEntry_of_lt {k j : Nat} (hk : entry? rs = some k) (hj : j < k)
    (hr : rs[j]? = some r) : r.isEntry = false := by
  obtain ⟨hlt, -, hbefore⟩ := findIdx?_eq_some_iff_getElem.mp hk
  obtain ⟨hlt', rfl⟩ := List.getElem?_eq_some_iff.mp hr
  simpa using hbefore j hj

theorem Piece.routine?_thread (meant : Text → List Text → Bool) (ha : a.Proper)
    (gains : Bool) (hproper : p.Proper false) :
    (p.thread meant a gains).routine? = p.routine?.map (Routine.thread meant a gains) := by
  unfold routine?
  rw [declaration?_thread meant gains ha hproper, Option.map_map, Option.map_map]
  congr 1
  funext d
  obtain ⟨-, -, hname, htype⟩ := d.lead_gain gains a.declaration
  have hparams : (d.gain a.declaration gains).heading.params.bareParameters =
      if gains then d.heading.params.bareParameters ++ [a.parameter]
      else d.heading.params.bareParameters := by
    unfold Declaration.gain
    split
    · exact bareParameters_appendParam ha.stripped (ha.not_mem rfl (by decide)) ha.declared _
    · rfl
  simp only [Function.comp_apply, Routine.thread, hname, htype, hparams]
  rfl

namespace Outline

theorem routines_thread (meant : Text → List Text → Bool) (ha : a.Proper)
    {gains : List Bool} (hproper : o.Proper) (hlen : gains.length = o.routines.length) :
    (o.thread meant a gains).routines = zipWith (fun r g => r.thread meant a g) o.routines gains := by
  obtain ⟨pieces, rest⟩ := o
  have hpieces := hproper.1
  unfold routines at hlen ⊢
  unfold thread
  dsimp only at hlen hpieces ⊢
  induction pieces generalizing gains with
  | nil => rfl
  | cons p pieces ih =>
    have hp := hpieces p mem_cons_self
    have hmore := fun q hq => hpieces q (mem_cons_of_mem p hq)
    have hproper' : Proper ⟨pieces, rest⟩ := ⟨hmore, hproper.2⟩
    unfold threadPieces
    cases hd : p.declaration? with
    | none =>
      have hnone : p.routine? = none := by simp [Piece.routine?, hd]
      rw [filterMap_cons_none hnone] at hlen ⊢
      rw [filterMap_cons_none (by rw [Piece.routine?_thread meant ha false hp, hnone]; rfl)]
      exact ih hproper' hlen hmore
    | some d =>
      obtain ⟨r, hr⟩ : ∃ r, p.routine? = some r := by simp [Piece.routine?, hd]
      rw [filterMap_cons_some hr] at hlen ⊢
      cases gains with
      | nil => cases hlen
      | cons g gains =>
        rw [filterMap_cons_some (by rw [Piece.routine?_thread meant ha _ hp, hr]; rfl)]
        rw [zipWith_cons_cons]
        congr 1
        exact ih hproper' (by simpa using hlen) hmore

/-- The calls of an outline. -/
def calls (o : Outline) : List (Text × List Text) := o.nest.calls []

theorem calls_eq (o : Outline) :
    o.calls = (o.pieces.flatMap fun p =>
      p.head.calls [] ++ (p.body?.map (Nest.calls [])).getD []) ++ o.rest.calls [] := by
  obtain ⟨pieces, rest⟩ := o
  unfold calls nest
  dsimp only
  induction pieces with
  | nil => rfl
  | cons p pieces ih =>
    obtain ⟨head, body?⟩ := p
    rw [List.foldr_cons, List.flatMap_cons, List.append_assoc, ← ih]
    cases body? with
    | none =>
      simp only [Piece.followedBy, calls_append, Option.map_none, Option.getD_none, List.append_nil]
      rw [Nest.calls, calls_upToStop (.stop rfl _)]
    | some body =>
      simp [Piece.followedBy, calls_append, Nest.calls]

end Outline

theorem Declaration.Simple.calls {p : Piece} {d : Declaration} (hd : p.declaration? = some d)
    (hsimple : d.Simple) : p.head.calls [] = [] := by
  have hhead := (Piece.eq_of_declaration? hd).1
  obtain ⟨hheading, hparen, hblank, -, -, -⟩ := Nest.eq_of_declaration? hhead
  rw [eq_of_heading? hheading, calls_append, calls_of_not_mem hparen, Nest.calls,
    hsimple.callee, calls_of_not_mem hsimple.params, calls_of_not_mem (not_mem_of_blank hblank)]
  rfl

section Calls

variable (meant : Text → List Text → Bool) {a : Ambient} (ha : a.Proper)
include ha

theorem Piece.calls_head_thread (gains : Bool) (hproper : p.Proper false)
    (hsimple : ∀ d ∈ p.declaration?, d.Simple) :
    List.Forall₂ (Called meant a.name) (p.head.calls []) ((p.thread meant a gains).head.calls []) := by
  cases hd : p.declaration? with
  | none =>
    simp only [thread, hd]
    exact calls_pass meant ha.word p.head []
  | some d =>
    have hd' : (p.thread meant a gains).declaration? = some (d.gain a.declaration gains) := by
      rw [declaration?_thread meant gains ha hproper, hd]
      rfl
    rw [(hsimple d hd).calls hd, ((hsimple d hd).gain ha gains).calls hd']
    exact .nil

theorem Outline.calls_thread (gains : List Bool) (hproper : o.Proper)
    (hsimple : ∀ p ∈ o.pieces, ∀ d ∈ p.declaration?, d.Simple) :
    List.Forall₂ (Called meant a.name) o.calls (o.thread meant a gains).calls := by
  rw [calls_eq, calls_eq]
  refine rel_append ?_ (calls_pass meant ha.word o.rest [])
  obtain ⟨pieces, rest⟩ := o
  have hpieces := hproper.1
  unfold thread
  dsimp only at hpieces hsimple ⊢
  clear hproper
  have hpiece : ∀ (p : Piece) (g : Bool), p.Proper false → (∀ d ∈ p.declaration?, d.Simple) →
      List.Forall₂ (Called meant a.name) (p.head.calls [] ++ (p.body?.map (Nest.calls [])).getD [])
        ((p.thread meant a g).head.calls [] ++ ((p.thread meant a g).body?.map (Nest.calls [])).getD []) := by
    intro p g hp hs
    refine rel_append (Piece.calls_head_thread meant ha g hp hs) ?_
    unfold Piece.thread
    cases p.body? with
    | none => exact .nil
    | some body => exact calls_pass meant ha.word body []
  induction pieces generalizing gains with
  | nil => exact .nil
  | cons p pieces ih =>
    have hp := hpieces p mem_cons_self
    have hs := hsimple p mem_cons_self
    have hrest := fun gains => ih gains (fun q hq => hsimple q (mem_cons_of_mem p hq))
      fun q hq => hpieces q (mem_cons_of_mem p hq)
    unfold threadPieces
    split
    · exact rel_append (hpiece p false hp hs) (hrest gains)
    · exact rel_append (hpiece p (gains.headD false) hp hs) (hrest gains.tail)

end Calls

theorem Outline.mem_calls (hr : r ∈ o.routines) {body : Nest}
    (hbody : r.body? = some body) {c : Text × List Text} (hc : c ∈ body.calls []) : c ∈ o.calls := by
  obtain ⟨p, hp, hr⟩ := mem_filterMap.mp hr
  obtain ⟨d, -, rfl⟩ := Option.map_eq_some_iff.mp hr
  have hbody' : p.body? = some body := hbody
  rw [calls_eq]
  refine mem_append_left _ (mem_flatMap.mpr ⟨p, hp, mem_append_right _ ?_⟩)
  rw [hbody']
  exact hc

namespace Threading.Phase

def calls (σ : Phase) : List (Text × List Text) := σ.outline.calls

/-- A phase that a program has, with an overload for each function. -/
structure Valid (σ : Phase) : Prop where
  program : ∃ source, σ.Of source
  length : σ.overloads.ofFunction.length = σ.routines.length

section Step

variable {σ : Phase} (h : σ.Valid)
include h

theorem Valid.length_gains (a : Ambient) :
    (Routine.gains a (σ.users a) σ.overloads σ.routines).length = σ.routines.length := by
  simp [Routine.gains, h.length]

variable {a : Ambient} (ha : a.Proper)
include ha

theorem Valid.routines_thread :
    (σ.thread a).routines = zipWith (fun r g => r.thread (σ.meant a) a g) σ.routines
      (Routine.gains a (σ.users a) σ.overloads σ.routines) := by
  obtain ⟨source, hof⟩ := h.program
  exact Outline.routines_thread (σ.meant a) ha hof.represents.sound.proper (h.length_gains a)

theorem Valid.thread : (σ.thread a).Valid := by
  obtain ⟨source, hof⟩ := h.program
  obtain ⟨target, -, hrepresents⟩ := hof.represents.threadValue ha (σ.users a) hof.words
  refine ⟨⟨target, hrepresents, words_thread hof.words a⟩, ?_⟩
  rw [h.routines_thread ha, length_zipWith, h.length_gains a, Nat.min_self]
  exact h.length

theorem Valid.calls_thread : List.Forall₂ (Called (σ.meant a) a.name) σ.calls (σ.thread a).calls := by
  obtain ⟨source, hof⟩ := h.program
  exact Outline.calls_thread (σ.meant a) ha _ hof.represents.sound.proper hof.represents.simple

theorem Valid.forall₂_thread : List.Forall₂ (fun r r' => ∃ gains, r' = r.thread (σ.meant a) a gains)
    σ.routines (σ.thread a).routines := by
  have hzip : ∀ (rs : List Routine) (gains : List Bool), gains.length = rs.length →
      List.Forall₂ (fun r r' => ∃ gains, r' = r.thread (σ.meant a) a gains) rs
        (zipWith (fun r g => r.thread (σ.meant a) a g) rs gains) := by
    intro rs
    induction rs with
    | nil => exact fun _ _ => .nil
    | cons r rs ih =>
      intro gains hlen
      cases gains with
      | nil => cases hlen
      | cons g gains => exact .cons ⟨g, rfl⟩ (ih gains (by simpa using hlen))
  rw [h.routines_thread ha]
  exact hzip _ _ (h.length_gains a)

theorem Valid.getElem?_routines_thread {i id : Nat} (hr : σ.routines[i]? = some r)
    (hid : σ.overloads.ofFunction[i]? = some id) :
    (σ.thread a).routines[i]? = some (r.thread (σ.meant a) a
      ((σ.users a).contains id && !r.hasParam a.name)) := by
  have hgain : (Routine.gains a (σ.users a) σ.overloads σ.routines)[i]? =
      some ((σ.users a).contains id && !r.hasParam a.name) := by
    unfold Routine.gains
    have hzip : (σ.routines.zip σ.overloads.ofFunction)[i]? = some (r, id) :=
      getElem?_zip_eq_some.mpr ⟨hr, hid⟩
    rw [getElem?_map, hzip]
    rfl
  rw [h.routines_thread ha, getElem?_zipWith, hr, hgain]

end Step

theorem Valid.grownBy {ambients : List Ambient} (hambients : ∀ a ∈ ambients, a.Proper) {σ : Phase}
    (h : σ.Valid) (ha : a ∈ ambients) :
    List.Forall₂ (Routine.GrownBy ambients) σ.routines (σ.thread a).routines := by
  refine (h.forall₂_thread (hambients a ha)).imp ?_
  rintro r r' ⟨gains, rfl⟩
  exact .thread (σ.meant a) ha gains r

end Threading.Phase

end GlslToMetal
