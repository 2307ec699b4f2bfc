import GlslToMetal.Proofs.Ambient.Step

/-! Programs that threading understands, as lists of routines: their functions with the trees of
their bodies, without the places where they stand. -/

namespace GlslToMetal

open List Text

/-- A function without its place. -/
structure Routine where
  name : Text
  type : Text
  params : List Parameter
  body? : Option Nest

namespace Routine

def hasParam (r : Routine) (name : Text) : Bool := r.params.any (·.name == name)

/-- The routine has the shape of an entry point. -/
def isEntry (r : Routine) : Bool :=
  r.body?.isSome && match r.params with
    | [color, coord] =>
      r.type == ("void" : Text) && Signature.isColorOutput color && Signature.isCoordInput coord
    | _ => false

/-- The body of the routine names a value that is none of its parameters. -/
def lacks (r : Routine) (name : Text) : Bool :=
  !r.hasParam name && r.body?.any fun body => body.text.containsWord name

end Routine

/-- The routine that a piece declares. -/
def Piece.routine? (p : Piece) : Option Routine :=
  p.declaration?.map fun d => ⟨d.name, unwords d.type.words, d.heading.params.bareParameters, p.body?⟩

def Outline.routines (o : Outline) : List Routine := o.pieces.filterMap Piece.routine?

/-- The outline is that of a program that threading understands. -/
structure Represents (source : Text) (o : Outline) : Prop where
  code : source.IsCode
  mask : source.mask = o.nest.text
  sound : o.Sound
  simple : ∀ p ∈ o.pieces, ∀ d ∈ p.declaration?, d.Simple

/-- The signature is that of the routine. -/
structure Signature.Matches (m : Text) (f : Signature) (r : Routine) : Prop where
  name : f.name = r.name
  returnType : f.returnType = r.type
  params : f.params.map Parameter.bare = r.params
  definition : f.isDefinition = r.body?.isSome
  body : ∀ range ∈ f.body?, ∃ body ∈ r.body?, m.slice range = .ok body.text

namespace Piece

theorem exists_reverse_text (p : Piece) : ∃ b r, p.text.reverse = b :: r ∧ isStop b := by
  obtain ⟨head, body?⟩ := p
  cases body? with
  | none => exact ⟨59, head.text.reverse, by simp [text, ending], rfl⟩
  | some body => exact ⟨125, (head.text ++ 123 :: body.text).reverse, by simp [text, ending], rfl⟩

end Piece

namespace Outline

theorem exists_of_mem_located {i : Nat} {pieces : List Piece} {x : Nat × Piece}
    (h : x ∈ located i pieces) :
    x.2 ∈ pieces ∧ ∃ before behind, pieces.flatMap Piece.text = before ++ x.2.text ++ behind ∧
      x.1 = i + before.length ∧
      UpToStop [] before.reverse := by
  induction pieces generalizing i with
  | nil => cases h
  | cons p pieces ih =>
    rcases mem_cons.mp h with rfl | h
    · exact ⟨mem_cons_self, [], pieces.flatMap Piece.text, rfl, rfl, .inl rfl⟩
    · obtain ⟨hmem, before, behind, htext, hoff, hstop⟩ := ih h
      refine ⟨mem_cons_of_mem _ hmem, p.text ++ before, behind, by simp [htext],
        by rw [hoff, length_append, Nat.add_assoc], ?_⟩
      obtain ⟨b, r, hreverse, hb⟩ := p.exists_reverse_text
      rw [reverse_append, hreverse]
      exact hstop.append hb r

theorem length_text_pos (p : Piece) : p.head.text.length < p.text.length := by
  obtain ⟨head, body?⟩ := p
  cases body? <;> simp [Piece.text, Piece.ending]

theorem pairwise_located (i : Nat) (pieces : List Piece) :
    (located i pieces).Pairwise fun x y => x.1 + x.2.text.length ≤ y.1 := by
  induction pieces generalizing i with
  | nil => exact .nil
  | cons p pieces ih =>
    refine pairwise_cons.mpr ⟨?_, ih _⟩
    intro x hx
    obtain ⟨-, before, -, -, hoff, -⟩ := exists_of_mem_located hx
    show i + p.text.length ≤ x.1
    omega

/-- Where the item of a declaration starts. -/
def start (x : Nat × Piece × Declaration) : Nat := x.1 + leadingBlanks x.2.1.head.text

theorem pairwise_start (i : Nat) (pieces : List Piece) :
    (declarations i pieces).Pairwise fun x y => start x < start y := by
  unfold declarations
  rw [pairwise_filterMap]
  refine (pairwise_located i pieces).imp ?_
  rintro ⟨i, p⟩ ⟨j, q⟩ hle x hx y hy
  obtain ⟨d, -, rfl⟩ := Option.map_eq_some_iff.mp hx
  obtain ⟨e, -, rfl⟩ := Option.map_eq_some_iff.mp hy
  have hlead : leadingBlanks p.head.text ≤ p.head.text.length :=
    (takeWhile_sublist isBlank).length_le
  have := length_text_pos p
  show i + leadingBlanks p.head.text < j + leadingBlanks q.head.text
  have : i + p.text.length ≤ j := hle
  omega

theorem routines_eq (o : Outline) : o.routines = (declarations 0 o.pieces).map fun x =>
      ⟨x.2.2.name, unwords x.2.2.type.words, x.2.2.heading.params.bareParameters, x.2.1.body?⟩ := by
  have hfrom : ∀ (pieces : List Piece) (i : Nat), pieces.filterMap Piece.routine? =
    (declarations i pieces).map fun x =>
        ⟨x.2.2.name, unwords x.2.2.type.words, x.2.2.heading.params.bareParameters, x.2.1.body?⟩ := by
    intro pieces
    induction pieces with
    | nil => intro i; rfl
    | cons p pieces ih =>
      intro i
      rw [declarations_cons, map_append, ← ih (i + p.text.length), filterMap_cons]
      unfold Piece.routine?
      cases p.declaration? <;> rfl
  exact hfrom o.pieces 0

end Outline

open Outline

theorem forall₂_imp_of_mem {α β : Type} {R S : α → β → Prop} {xs : List α} {ys : List β}
    (h : List.Forall₂ R xs ys) (himp : ∀ x ∈ xs, ∀ y ∈ ys, R x y → S x y) :
    List.Forall₂ S xs ys := by
  rw [forall₂_iff_zip] at h ⊢
  exact ⟨h.1, fun hmem => himp _ (of_mem_zip hmem).1 _ (of_mem_zip hmem).2 (h.2 hmem)⟩

theorem exists_of_mem_declarations {i : Nat} {pieces : List Piece} {x : Nat × Piece × Declaration}
    (h : x ∈ declarations i pieces) :
    x.2.1.declaration? = some x.2.2 ∧ x.2.1 ∈ pieces ∧
      ∃ before behind, pieces.flatMap Piece.text = before ++ x.2.1.text ++ behind ∧
        x.1 = i + before.length := by
  obtain ⟨⟨j, p⟩, hmem, hx⟩ := mem_filterMap.mp h
  obtain ⟨d, hd, rfl⟩ := Option.map_eq_some_iff.mp hx
  obtain ⟨hp, before, behind, htext, hoff, -⟩ := exists_of_mem_located hmem
  exact ⟨hd, hp, before, behind, htext, hoff⟩

theorem exists_mem_declarations {pieces : List Piece} {p : Piece} (hp : p ∈ pieces) {d : Declaration}
    (hd : p.declaration? = some d) (i : Nat) :
    ∃ x ∈ declarations i pieces, x.2.1 = p ∧ x.2.2 = d := by
  induction pieces generalizing i with
  | nil => cases hp
  | cons q pieces ih =>
    rw [declarations_cons]
    rcases mem_cons.mp hp with rfl | hp
    · exact ⟨(i, p, d), by simp [hd], rfl, rfl⟩
    · obtain ⟨x, hx, hx'⟩ := ih hp (i + q.text.length)
      exact ⟨x, mem_append_right _ hx, hx'⟩

theorem Signature.matches_of_described {m : Text} (hcode : m.IsCode) {f : Signature} {p : Piece}
    {d : Declaration} {before behind : Text} (hm : m = before ++ p.text ++ behind)
    (h : f.Describes before.length p d) :
    f.Matches m ⟨d.name, unwords d.type.words, d.heading.params.bareParameters, p.body?⟩ := by
  refine ⟨h.name, h.returnType, ?_, ?_, ?_⟩
  · rw [h.params, Nest.map_bare_parameters]
  · rw [isDefinition, h.body?, Option.isSome_map]
  · intro range hrange
    rw [Option.mem_def, h.body?, Option.map_eq_some_iff] at hrange
    obtain ⟨body, hbody, rfl⟩ := hrange
    refine ⟨body, hbody, ?_⟩
    have hsplit : m = (before ++ p.head.text ++ [123]) ++ body.text ++ (125 :: behind) := by
      rw [hm, Piece.text, Piece.ending, hbody]
      simp
    have hslice := @slice_append (before ++ p.head.text ++ [123]) body.text (125 :: behind)
      (hsplit ▸ hcode.isAscii)
    rw [← hsplit] at hslice
    simpa [Nat.add_assoc] using hslice

/-- The signatures of a program are those of its routines, in order. -/
theorem Represents.functions {source : Text} {o : Outline} (h : Represents source o) :
    ∃ functions, Program.functions source = .ok functions ∧
      List.Forall₂ (Signature.Matches source.mask) functions o.routines ∧
      functions.Pairwise (·.range.start < ·.range.start) ∧
      List.Forall₂ Described functions (declarations 0 o.pieces) := by
  obtain ⟨functions, hfunctions, hdescribed⟩ := functions_eq h.sound h.mask
  refine ⟨functions, hfunctions, ?_, ?_, hdescribed⟩
  · rw [routines_eq, forall₂_map_right_iff]
    refine forall₂_imp_of_mem hdescribed ?_
    intro f _ x hx hf
    obtain ⟨hd, hmem, before, behind, htext, hoff⟩ := exists_of_mem_declarations hx
    have hm : source.mask = before ++ x.2.1.text ++ (behind ++ o.rest.text) := by
      rw [h.mask, text_nest, htext, append_assoc]
    unfold Described at hf
    rw [hoff, Nat.zero_add] at hf
    exact Signature.matches_of_described (h.mask ▸ h.sound.code) hm hf
  · have hstart : functions.map (·.range.start) = (declarations 0 o.pieces).map start := by
      clear hfunctions
      generalize declarations 0 o.pieces = ds at hdescribed
      induction hdescribed with
      | nil => rfl
      | cons hd _ ih => rw [map_cons, map_cons, ih, hd.start]; rfl
    have hpair := pairwise_map.mpr (pairwise_start 0 o.pieces)
    rw [← hstart] at hpair
    exact pairwise_map.mp hpair

namespace Outline

section Described

variable {source : Text} {o : Outline} (hmask : source.mask = o.nest.text) {f : Signature}
  {x : Nat × Piece × Declaration} (hx : x ∈ declarations 0 o.pieces)
include hmask hx

theorem lead_subset : x.2.2.heading.lead.text ⊆ source.mask := by
  obtain ⟨hd, -, before, behind, htext, -⟩ := exists_of_mem_declarations hx
  intro b hb
  rw [hmask, text_nest, htext, Piece.text, Piece.text_head hd]
  simp [hb]

variable (hf : Described f x)
include hf

theorem callee?_heading :
    callee? (source.mask.take f.openParen).reverse = callee? (x.2.2.heading.lead.context []) := by
  obtain ⟨⟨j, p⟩, hmem, hpiece⟩ := mem_filterMap.mp hx
  obtain ⟨d, hd, rfl⟩ := Option.map_eq_some_iff.mp hpiece
  obtain ⟨-, before, behind, htext, hoff, hstop⟩ := exists_of_mem_located hmem
  have hsplit : source.mask = (before ++ d.heading.lead.text) ++
      (40 :: (d.heading.params.text ++ 41 :: d.heading.behind.text) ++ p.ending ++
        (behind ++ o.rest.text)) := by
    rw [hmask, text_nest, htext, Piece.text, Piece.text_head hd]
    simp
  have hopen : f.openParen = (before ++ d.heading.lead.text).length := by
    rw [hf.openParen, hoff, length_append, Nat.zero_add]
  rw [hopen, hsplit, take_left, reverse_append]
  exact callee?_upToStop (Nest.upToStop_context hstop _)

theorem cut_params : source.mask.cut ⟨f.openParen + 1, f.closeParen⟩ = x.2.2.heading.params.text := by
  obtain ⟨hd, -, before, behind, htext, hoff⟩ := exists_of_mem_declarations hx
  have hsplit : source.mask = (before ++ x.2.2.heading.lead.text ++ [40]) ++ x.2.2.heading.params.text ++
      (41 :: (x.2.2.heading.behind.text ++ x.2.1.ending ++ (behind ++ o.rest.text))) := by
    rw [hmask, text_nest, htext, Piece.text, Piece.text_head hd]
    simp
  have hopen : f.openParen + 1 = (before ++ x.2.2.heading.lead.text ++ [40]).length := by
    rw [hf.openParen, hoff, length_append, length_append, Nat.zero_add]
    rfl
  rw [hf.closeParen, hopen, hsplit, cut_append]

end Described

end Outline

theorem Text.isCode_maskFrom {t : Text} (h : t.IsCode) (place : Place) : (maskFrom place t).IsCode := by
  intro c hc
  rcases mem_maskFrom hc with hc | rfl
  · exact h c hc
  · decide

theorem exists_represents {source : Text} (hcode : source.IsCode) (hnested : source.mask.isNested)
    (hhash : 35 ∉ source.mask) {functions : List Signature}
    (hfunctions : Program.functions source = .ok functions)
    (hsimple : ∀ o : Outline, source.mask = o.nest.text → ∀ x ∈ declarations 0 o.pieces, ∀ f ∈ functions,
      Described f x → x.2.2.Simple) : ∃ o, Represents source o := by
  obtain ⟨t, hplain, htext⟩ := Nest.exists_of_isNested hnested
  obtain ⟨o, rfl, hproper⟩ := exists_proper t
  have hsound : o.Sound :=
    ⟨hproper, plain_nest.mp hplain, htext ▸ isCode_maskFrom hcode .code, htext ▸ hhash⟩
  obtain ⟨found, hfound, hdescribed⟩ := functions_eq hsound htext.symm
  obtain rfl := Except.ok.inj (hfound.symm.trans hfunctions)
  refine ⟨o, hcode, htext.symm, hsound, fun p hp d hd => ?_⟩
  obtain ⟨x, hx, rfl, rfl⟩ := exists_mem_declarations hp hd 0
  obtain ⟨f, hf, hdescribes⟩ := exists_of_mem_right hdescribed hx
  exact hsimple o htext.symm x hx f hf hdescribes

/-- The programs that threading understands: ASCII without vertical tabs, delimiters that are
properly nested, no preprocessor lines, return types of one identifier, and parameter lists without
parentheses. -/
structure Threading.Regular (source : Text) (functions : List Signature) : Prop where
  code : source.IsCode
  nested : source.mask.isNested
  hash : 35 ∉ source.mask
  types : ∀ f ∈ functions, f.returnType.isIdentifier
  lists : ∀ f ∈ functions, 40 ∉ source.mask.cut ⟨f.openParen + 1, f.closeParen⟩

instance (source : Text) (functions : List Signature) : Decidable (Threading.Regular source functions) :=
  decidable_of_iff
    (source.IsCode ∧ source.mask.isNested ∧ 35 ∉ source.mask ∧ (∀ f ∈ functions, f.returnType.isIdentifier) ∧
      ∀ f ∈ functions, 40 ∉ source.mask.cut ⟨f.openParen + 1, f.closeParen⟩)
    ⟨fun h => ⟨h.1, h.2.1, h.2.2.1, h.2.2.2.1, h.2.2.2.2⟩, fun h =>
      ⟨h.code, h.nested, h.hash, h.types, h.lists⟩⟩

theorem Threading.Regular.represents {source : Text} {functions : List Signature}
    (h : Regular source functions) (hfunctions : Program.functions source = .ok functions) :
    ∃ o, Represents source o := by
  refine exists_represents h.code h.nested h.hash hfunctions fun o hmask x hx f hf hdescribes => ?_
  constructor
  · have hhead := (Piece.eq_of_declaration? (exists_of_mem_declarations hx).1).1
    obtain ⟨-, -, -, -, -, htype⟩ := Nest.eq_of_declaration? hhead
    refine Declaration.callee?_of_isIdentifier ?_ hhead
    refine isIdentifier_of_unwords ?_ ?_ (hdescribes.returnType ▸ h.types f hf)
    · have hlead : x.2.2.heading.lead.text.IsCode := fun b hb =>
        isCode_maskFrom h.code .code b (lead_subset hmask hx hb)
      rw [htype]
      refine hlead.sublist ((strip_sublist _).trans ?_)
      have hbefore : (beforeWord x.2.2.heading.lead.text.reverse).Sublist x.2.2.heading.lead.text.reverse :=
        (dropWhile_sublist _).trans (dropWhile_sublist _)
      simpa using hbefore.reverse
    · rw [htype, strip_strip]
  · exact cut_params hmask hx hdescribes ▸ h.lists f hf

end GlslToMetal
