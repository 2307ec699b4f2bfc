import GlslToMetal.Program
import GlslToMetal.Proofs.Outline
import GlslToMetal.Proofs.Signature.Layout
import GlslToMetal.Proofs.Text.Appending

/-! Functions on the outline of a program. A piece declares a function when its first list between
parentheses ends its head and what stands before the list reads as a type and a name. -/

namespace GlslToMetal

variable {t : Nest} {p : Piece} {l m post pre : Text}

namespace Nest

/-- The head of a piece at its first list between parentheses. -/
structure Heading where
  lead : Nest
  params : Nest
  behind : Nest

def heading? : Nest → Option Heading
  | nil => none
  | byte b rest => rest.heading?.map fun h => { h with lead := byte b h.lead }
  | pair d inner rest =>
    if d = .paren then some ⟨nil, inner, rest⟩
    else rest.heading?.map fun h => { h with lead := pair d inner h.lead }

theorem eq_of_heading? {h : Heading} (hh : t.heading? = some h) :
    t = h.lead ++ pair .paren h.params h.behind := by
  induction t generalizing h with
  | nil => cases hh
  | byte b rest ih =>
    obtain ⟨g, hg, rfl⟩ := Option.map_eq_some_iff.mp hh
    rw [byte_append, ← ih hg]
  | pair d inner rest _ ih =>
    unfold heading? at hh
    split at hh
    · next hd =>
      cases hh
      rw [hd, nil_append]
    · obtain ⟨g, hg, rfl⟩ := Option.map_eq_some_iff.mp hh
      rw [pair_append, ← ih hg]

theorem heading?_append {s : Nest} (h : s.heading? = none) (t : Nest) :
    (s ++ t).heading? = t.heading?.map fun g => { g with lead := s ++ g.lead } := by
  induction s with
  | nil => simp
  | byte b s ih =>
    rw [heading?, Option.map_eq_none_iff] at h
    rw [byte_append, heading?, ih h, Option.map_map]
    rfl
  | pair d inner s _ ih =>
    rw [heading?] at h
    split at h
    · cases h
    · next hd =>
      rw [Option.map_eq_none_iff] at h
      rw [pair_append, heading?, if_neg hd, ih h, Option.map_map]
      rfl

theorem heading?_of_not_mem (h : 40 ∉ t.text) : t.heading? = none := by
  refine Option.eq_none_iff_forall_ne_some.mpr fun g hg => h ?_
  rw [eq_of_heading? hg, text_append, text_pair]
  exact List.mem_append_right _ List.mem_cons_self

theorem heading?_lead {g : Heading} (h : t.heading? = some g) : g.lead.heading? = none := by
  induction t generalizing g with
  | nil => cases h
  | byte b t ih =>
    obtain ⟨g, hg, rfl⟩ := Option.map_eq_some_iff.mp h
    rw [heading?, ih hg, Option.map_none]
  | pair d inner t _ ih =>
    rw [heading?] at h
    split at h
    · cases h
      rfl
    · next hd =>
      obtain ⟨g, hg, rfl⟩ := Option.map_eq_some_iff.mp h
      rw [heading?, if_neg hd, ih hg, Option.map_none]

/-- The first parenthesis of a text opens a list. If it is inside other delimiters, their end, which is
no blank, comes behind the list. -/
theorem exists_first_list (ht : t.Plain) (h : 40 ∈ t.text) :
    ∃ (l : Text) (inner : Nest) (r : Text), 40 ∉ l ∧ inner.Plain ∧
      t.text = l ++ 40 :: (inner.text ++ 41 :: r) ∧
      ((∀ g, t.heading? = some g → 40 ∈ g.lead.text) → ¬ r.all Text.isBlank) := by
  induction t with
  | nil => cases h
  | byte b rest ih =>
    have hb : 40 ≠ b := Ne.symm (Delimiter.ne_opener_of_plain ht.1 .paren)
    rw [text_byte, List.mem_cons] at h
    obtain ⟨l, inner, r, hl, hinner, htext, hr⟩ := ih ht.2 (h.resolve_left hb)
    refine ⟨b :: l, inner, r, by simp [hb, hl], hinner, by simp [htext], fun hnone => hr fun g hg => ?_⟩
    have := hnone { g with lead := byte b g.lead } (by simp [heading?, hg])
    simpa [hb] using this
  | pair d c rest ihInner ihRest =>
    by_cases hd : d = .paren
    · subst hd
      exact ⟨[], c, rest.text, by simp, ht.1, rfl, fun hnone => absurd (hnone ⟨nil, c, rest⟩ rfl) (by simp)⟩
    have hopen : 40 ≠ d.opener := by cases d <;> simp_all [Delimiter.opener]
    have hclose : 40 ≠ d.closer := by cases d <;> decide
    by_cases hc : 40 ∈ c.text
    · obtain ⟨l, inner, r, hl, hinner, htext, -⟩ := ihInner ht.1 hc
      exact ⟨d.opener :: l, inner, r ++ d.closer :: rest.text, by simp [hopen, hl], hinner,
        by simp [htext], by simp [isBlank_closer]⟩
    · have hrest : 40 ∈ rest.text := by simpa [hopen, hclose, hc] using h
      obtain ⟨l, inner, r, hl, hinner, htext, hr⟩ := ihRest ht.2 hrest
      refine ⟨d.opener :: (c.text ++ d.closer :: l), inner, r,
        by simp [hopen, hc, hclose, hl], hinner, by simp [htext],
        fun hnone => hr fun g hg => ?_⟩
      have := hnone { g with lead := pair d c g.lead } (by simp [heading?, hg, hd])
      simpa [hopen, hclose, hc] using this

/-- The parameters that a list declares. -/
def parameters (i : Nat) (t : Nest) : List Parameter :=
  ((present (spans i (commas t))).zip t.arguments).filterMap fun (range, arg) =>
    Parameter.ofWords? (Parameter.spaceReferences arg).words range

theorem parameters_eq_declaredFrom (i : Nat) (t : Nest) :
    t.parameters i = Parameter.declaredFrom i ((commas t).map text) := by
  have hspans : ∀ (segs : List Nest) (i : Nat),
    ((spans i segs).zip (segs.map (·.text.strip))).filterMap (fun x =>
        Parameter.ofWords? (Parameter.spaceReferences x.2).words x.1) =
          Parameter.declaredFrom i (segs.map text) := by
    intro segs
    induction segs with
    | nil => exact fun _ => rfl
    | cons s rest ih =>
      intro i
      simp only [spans, List.map_cons, List.zip_cons_cons, List.filterMap_cons, ih,
        Parameter.declaredFrom, Parameter.ofText?]
      cases Parameter.ofWords? (Parameter.spaceReferences s.text.strip).words _ <;> rfl
  unfold parameters
  rw [present_spans]
  split
  · next hblank =>
    rcases hsegs : commas t with - | ⟨s, - | ⟨u, rest⟩⟩
    · exact absurd hsegs (commas_ne_nil t)
    · have ht := join_commas t
      rw [hsegs, join] at ht
      subst ht
      simp [Parameter.declaredFrom, Parameter.ofText?_of_blank hblank]
    · rw [all_isBlank_of_commas hsegs] at hblank
      cases hblank
  · next hblank =>
    rw [arguments_of_not_blank hblank]
    exact hspans (commas t) i

end Nest

open Text in
/-- The text before a parameter list does not read as a type and a name. -/
def Signature.unnamed (l : Text) : Bool :=
  let name := wordBefore l.reverse
  let type := strip (beforeWord l.reverse).reverse
  !name.isIdentifier || type.isEmpty || nonTypeWords.contains type || nonTypeWords.contains name

/-- A function as a piece declares it. -/
structure Declaration where
  name : Text
  type : Text
  heading : Nest.Heading

namespace Nest

open Text

/-- What a head declares. -/
def declaration? (head : Nest) : Option Declaration :=
  head.heading?.bind fun h =>
    if h.lead.text.contains 40 || !h.behind.text.all isBlank || Signature.unnamed h.lead.text then none
    else some ⟨wordBefore h.lead.text.reverse, strip (beforeWord h.lead.text.reverse).reverse, h⟩

end Nest

theorem Nest.declaration?_of_not_mem (h : 40 ∉ t.text) : t.declaration? = none := by
  rw [declaration?, heading?_of_not_mem h, Option.bind_none]

/-- What a piece declares: a statement with an `=` declares no function. -/
def Piece.declaration? (p : Piece) : Option Declaration :=
  if p.body?.isNone && p.head.text.contains 61 then none else p.head.declaration?

namespace Signature

open Text Nest

/-- The signature is what is read of a declaration in a piece at offset `i`. -/
structure Describes (f : Signature) (i : Nat) (p : Piece) (d : Declaration) : Prop where
  name : f.name = d.name
  returnType : f.returnType = unwords d.type.words
  openParen : f.openParen = i + d.heading.lead.text.length
  closeParen : f.closeParen = f.openParen + 1 + d.heading.params.text.length
  params : f.params = d.heading.params.parameters (f.openParen + 1)
  start : f.range.start = i + leadingBlanks p.head.text
  body? : f.body? = p.body?.map fun b =>
    ⟨i + p.head.text.length + 1, i + p.head.text.length + 1 + b.text.length⟩

theorem takeWhile_of_not_mem {t : Text} (h : 40 ∉ t) :
    (t.dropWhile isBlank).takeWhile (· != 40) = t.dropWhile isBlank := by
  rw [List.takeWhile_eq_self_iff]
  intro b hb
  have hmem := (List.dropWhile_sublist isBlank).subset hb
  simp only [bne_iff_ne, ne_eq]
  rintro rfl
  exact h hmem

theorem cut_header {m pre head post : Text} (hm : m = pre ++ head ++ post) :
    m.cut ⟨pre.length + leadingBlanks head, pre.length + head.length⟩ = head.dropWhile isBlank := by
  have hsplit := List.takeWhile_append_dropWhile (p := isBlank) (l := head)
  have hlen := congrArg List.length hsplit
  rw [List.length_append] at hlen
  have hm' : m = (pre ++ head.takeWhile isBlank) ++ head.dropWhile isBlank ++ post := by
    rw [hm]
    conv => lhs; rw [← hsplit]
    simp
  have hcut := cut_append (pre ++ head.takeWhile isBlank) (head.dropWhile isBlank) post
  rw [← hm', List.length_append] at hcut
  rw [← hcut]
  congr 2
  omega

theorem parensClosed_text (h : t.Plain) : t.text.ParensClosed := by
  obtain ⟨list, behind, heq, hclosed, hlength⟩ := matching?_paren.mp (@matching?_pair [] [] .paren t h)
  obtain ⟨htext, -⟩ := List.append_inj heq (by simpa using hlength)
  rwa [htext]

/-- What is read of an item whose first parenthesis opens the list `inner`. -/
theorem ofItem?_list {m pre l post behind : Text} {inner : Nest} (hinner : inner.Plain) (hl : 40 ∉ l)
    (hm : m = pre ++ (l ++ 40 :: (inner.text ++ 41 :: behind)) ++ post) (hcode : m.IsCode)
    {item : Item}
    (hheader : header? m item = some
      ⟨pre.length + leadingBlanks (l ++ 40 :: (inner.text ++ 41 :: behind)),
        pre.length + (l ++ 40 :: (inner.text ++ 41 :: behind)).length⟩) :
    ∃ nameRange, ofItem? m item = .ok
      (if !behind.all isBlank || unnamed l then none
      else some {
        name := wordBefore l.reverse
        returnType := unwords (strip (beforeWord l.reverse).reverse).words
        params := inner.parameters (pre.length + l.length + 1)
        range := item.range
        nameRange
        openParen := pre.length + l.length
        closeParen := pre.length + l.length + 1 + inner.text.length
        body? := item.body? }) := by
  have hascii := hcode.isAscii
  have hsplit : l.leadingBlanks + (l.dropWhile isBlank).length = l.length := by
    rw [leadingBlanks, ← List.length_append, List.takeWhile_append_dropWhile]
  have hlead : leadingBlanks (l ++ 40 :: (inner.text ++ 41 :: behind)) = l.leadingBlanks := by
    unfold leadingBlanks
    rw [takeWhile_append_cons rfl]
  have hcut := cut_header hm
  rw [dropWhile_append_cons rfl] at hcut
  have hlayout : Layout _ (l.dropWhile isBlank) inner.text behind :=
    ⟨rfl, fun hmem => hl ((List.dropWhile_sublist _).subset hmem), parensClosed_text hinner⟩
  obtain ⟨f, hf, hreads⟩ := hlayout.ofHeader? (hcut ▸ hascii.cut _)
  have hlascii : l.IsAscii := hascii.of_subset fun b hb => by simp [hm, hb]
  obtain ⟨hname, htype⟩ := reads_dropWhile hlascii
  have hbefore : IsCode (beforeWord l.reverse).reverse := by
    intro b hb
    have hmem := (List.dropWhile_sublist _).subset
      ((List.dropWhile_sublist _).subset (List.mem_reverse.mp hb))
    exact hcode b (by simp [hm, List.mem_reverse.mp hmem])
  rw [typeIn.eq_1 l, trim_of_isCode hbefore] at htype
  have hunread : unread (l.dropWhile isBlank) = unnamed l := by
    rw [unread, hname, htype]
    rfl
  have hwhite : behind.isWhite = behind.all isBlank := isWhite_of_isCode fun b hb =>
    hcode b (by simp [hm, hb])
  have hwithin : Range.Within m.length ⟨pre.length + leadingBlanks (l ++ 40 :: (inner.text ++ 41 :: behind)),
      pre.length + (l ++ 40 :: (inner.text ++ 41 :: behind)).length⟩ := by
    rw [hlead, hm]
    simp only [Range.Within, List.length_append]
    omega
  refine ⟨f.nameRange.shift (pre.length + l.leadingBlanks), ?_⟩
  rw [ofItem?_of_header? hascii hwithin hheader, hcut, hf, hwhite, hunread, hlead]
  split
  · rfl
  · have hopen : f.openParen + (pre.length + l.leadingBlanks) = pre.length + l.length := by
      rw [hreads.openParen]
      omega
    have hclose : f.closeParen + (pre.length + l.leadingBlanks) = pre.length + l.length + 1 +
        inner.text.length := by
      rw [hreads.closeParen]
      omega
    have hparams : f.params.map (·.shift (pre.length + l.leadingBlanks)) =
        inner.parameters (pre.length + l.length + 1) := by
      rw [hreads.params, Parameter.map_shift_declaredFrom, stretches_text hinner,
        ← parameters_eq_declaredFrom]
      congr 1
      omega
    simp only [Except.map, Option.map, placed, hreads.name, hreads.returnType, hname, htype, hopen,
      hclose, hparams]
    rfl

theorem header?_ofPiece (hm : m = pre ++ p.text ++ post) (tail : Nat) :
    header? m (Item.ofPiece p pre.length tail) =
      if p.body?.isNone && p.head.text.contains 61 then none
      else some ⟨pre.length + leadingBlanks p.head.text, pre.length + p.head.text.length⟩ := by
  obtain ⟨head, body?⟩ := p
  cases body? with
  | some body => rfl
  | none =>
    have hcut := @cut_header m pre head.text (59 :: post) (by simp [hm, Piece.text, Piece.ending])
    have hassign : (head.text.dropWhile isBlank).contains 61 = head.text.contains 61 := by
      have hblank : (head.text.takeWhile isBlank).contains 61 = false := by
        rw [List.contains_eq_mem, decide_eq_false_iff_not]
        intro hmem
        exact absurd (List.all_eq_true.mp List.all_takeWhile 61 hmem) (by decide)
      conv => rhs; rw [← List.takeWhile_append_dropWhile (p := isBlank) (l := head.text),
        List.contains_append, hblank, Bool.false_or]
    simp only [header?, Item.ofPiece, hcut, hassign]
    rfl

section Piece

variable {m pre post : Text} {p : Piece} (hm : m = pre ++ p.text ++ post) (hcode : m.IsCode)
  (hhead : p.head.Plain) (tail : Nat)
  (hheader : header? m (Item.ofPiece p pre.length tail) =
    some ⟨pre.length + leadingBlanks p.head.text, pre.length + p.head.text.length⟩)
include hm hheader

theorem ofItem?_of_not_mem (hparen : 40 ∉ p.head.text) :
    ofItem? m (Item.ofPiece p pre.length tail) = .ok none := by
  have hm' : m = pre ++ p.head.text ++ (p.ending ++ post) := by simp [hm, Piece.text]
  have hlen := congrArg List.length (List.takeWhile_append_dropWhile (p := isBlank) (l := p.head.text))
  rw [List.length_append] at hlen
  unfold ofItem?
  simp only [hheader, cut_header hm', takeWhile_of_not_mem hparen]
  rw [if_pos (by unfold leadingBlanks; omega)]
  rfl

include hcode hhead

/-- A piece whose first parenthesis opens the list of its heading. -/
theorem ofItem?_heading {g : Heading} (hg : p.head.heading? = some g) (hlead : 40 ∉ g.lead.text) :
    (p.head.declaration? = none → ofItem? m (Item.ofPiece p pre.length tail) = .ok none) ∧
      ∀ d, p.head.declaration? = some d → ∃ f, ofItem? m (Item.ofPiece p pre.length tail) = .ok (some f) ∧
          f.Describes pre.length p d := by
  have hm' : m = pre ++ p.head.text ++ (p.ending ++ post) := by simp [hm, Piece.text]
  have heq := eq_of_heading? hg
  have htext : p.head.text = g.lead.text ++ 40 :: (g.params.text ++ 41 :: g.behind.text) := by
    conv => lhs; rw [heq]
    simp [Delimiter.opener, Delimiter.closer]
  have hplain : g.params.Plain := by
    rw [heq, plain_append] at hhead
    exact hhead.2.1
  rw [htext] at hheader hm'
  obtain ⟨nameRange, hread⟩ := ofItem?_list hplain hlead hm' hcode hheader
  have hdecl : p.head.declaration? = if !g.behind.text.all isBlank || unnamed g.lead.text then none
      else some ⟨wordBefore g.lead.text.reverse, strip (beforeWord g.lead.text.reverse).reverse, g⟩ := by
    simp [declaration?, hg, hlead]
  rw [hdecl, hread]
  split
  · exact ⟨fun _ => rfl, by simp⟩
  · refine ⟨by simp, ?_⟩
    intro d hd
    cases hd
    refine ⟨_, rfl, rfl, rfl, rfl, rfl, rfl, ?_, ?_⟩
    · obtain ⟨head, body?⟩ := p
      cases body? <;> rfl
    · obtain ⟨head, body?⟩ := p
      cases body? <;> rfl

/-- A piece whose first parenthesis is inside other delimiters: their end is no blank. -/
theorem ofItem?_enclosed (hparen : 40 ∈ p.head.text)
    (hlead : ∀ g, p.head.heading? = some g → 40 ∈ g.lead.text) :
    p.head.declaration? = none ∧ ofItem? m (Item.ofPiece p pre.length tail) = .ok none := by
  constructor
  · unfold declaration?
    cases hg : p.head.heading? with
    | none => rfl
    | some g => simp [hlead g hg]
  · have hm' : m = pre ++ p.head.text ++ (p.ending ++ post) := by simp [hm, Piece.text]
    obtain ⟨l, inner, r, hl, hinner, htext, hr⟩ := exists_first_list hhead hparen
    rw [htext] at hheader hm'
    obtain ⟨nameRange, hread⟩ := ofItem?_list hinner hl hm' hcode hheader
    rw [hread]
    simp [hr hlead]

end Piece

/-- **What is read of a piece is what it declares.** -/
theorem ofItem?_piece (hm : m = pre ++ p.text ++ post)
    (hcode : m.IsCode) (hhead : p.head.Plain) (tail : Nat) :
    (p.declaration? = none → ofItem? m (Item.ofPiece p pre.length tail) = .ok none) ∧
      ∀ d, p.declaration? = some d →
        ∃ f, ofItem? m (Item.ofPiece p pre.length tail) = .ok (some f) ∧ f.Describes pre.length p d := by
  have hheader := header?_ofPiece hm tail
  unfold Piece.declaration?
  by_cases hassign : p.body?.isNone && p.head.text.contains 61
  · rw [if_pos hassign] at hheader
    rw [if_pos hassign]
    refine ⟨fun _ => ?_, by simp⟩
    unfold ofItem?
    rw [hheader]
    rfl
  rw [if_neg hassign] at hheader
  rw [if_neg hassign]
  by_cases hparen : 40 ∈ p.head.text
  · by_cases hgood : ∃ g, p.head.heading? = some g ∧ 40 ∉ g.lead.text
    · obtain ⟨g, hg, hlead⟩ := hgood
      exact ofItem?_heading hm hcode hhead tail hheader hg hlead
    · obtain ⟨hnone, hread⟩ := ofItem?_enclosed hm hcode hhead tail hheader hparen (by
        intro g hg
        by_contra hmem
        exact hgood ⟨g, hg, hmem⟩)
      exact ⟨fun _ => hread, by simp [hnone]⟩
  · exact ⟨fun _ => ofItem?_of_not_mem hm tail hheader hparen, by simp [declaration?_of_not_mem hparen]⟩

end Signature

end GlslToMetal
