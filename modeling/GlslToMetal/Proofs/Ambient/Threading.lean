import GlslToMetal.Proofs.Ambient.Overload
import GlslToMetal.Proofs.Ambient.Usage

/-! Threading one value through the text of a program. The edits that threading collects, in
whatever order, are those of the outline from left to right, so the text that it makes is the text of
the threaded outline. -/

namespace GlslToMetal

open List Text Nest

variable {a : Ambient} {d : Declaration} {pieces : List Piece} {t : Nest} {o : Outline}
  {overloads : Overloads}
  {p : Piece}

/-- The edits in the body of a piece. -/
def Piece.bodyEdits (meant : Text → List Text → Bool) (new : Text) (i : Nat) (p : Piece) : List Edit :=
  match p.body? with
  | none => []
  | some body => body.edits meant new [] (i + p.head.text.length + 1)

/-- The edit that gives a declaration the value. -/
def Declaration.edit (a : Ambient) (i : Nat) (d : Declaration) : Edit :=
  let openParen := i + d.heading.lead.text.length
  Threading.append ((d.heading.params.parameters (openParen + 1)).getLast?.map (·.range)) openParen
    (openParen + 1 + d.heading.params.text.length) a.declaration

/-- The edit of the declaration in a piece that gains the value. -/
def Piece.ownEdits (a : Ambient) (gains : Bool) (i : Nat) (p : Piece) : List Edit :=
  match p.declaration? with
  | none => []
  | some d => if gains then [d.edit a i] else []

section Edits

variable (meant : Text → List Text → Bool) (new : Text)

theorem Nest.edits_stop {b : UInt8} (hb : isStop b) (left : Text) (rest : Nest) (i : Nat) :
    (byte b rest).edits meant new left i = rest.edits meant new [] (i + 1) := by
  rw [edits, edits_upToStop meant new (.stop hb left)]

theorem Piece.edits_followedBy (p : Piece) (rest : Nest) (i : Nat) :
    (p.followedBy rest).edits meant new [] i =
      p.head.edits meant new [] i ++
        (p.bodyEdits meant new i ++ rest.edits meant new [] (i + p.text.length)) := by
  obtain ⟨head, body?⟩ := p
  cases body? with
  | none =>
    simp only [followedBy, bodyEdits, edits_append, text, ending, List.nil_append]
    rw [edits_stop meant new rfl]
    simp [Nat.add_assoc]
  | some body =>
    simp only [followedBy, bodyEdits, edits_append, text, ending, edits]
    simp only [reduceCtorEq, if_false, Option.toList_none, List.nil_append, List.length_append,
      length_cons, length_nil]
    congr 3
    omega

theorem Declaration.Simple.edits (hd : p.declaration? = some d)
    (hsimple : d.Simple) (i : Nat) : p.head.edits meant new [] i = [] := by
  have hhead := (Piece.eq_of_declaration? hd).1
  obtain ⟨hheading, hparen, hblank, -, -, -⟩ := Nest.eq_of_declaration? hhead
  rw [eq_of_heading? hheading, edits_append, edits_of_not_mem hparen]
  simp only [Nest.edits, Listed.edit?, hsimple.callee, edits_of_not_mem hsimple.params,
    edits_of_not_mem (not_mem_of_blank hblank)]
  rfl

end Edits

/-- The edits of a piece make the threaded piece. -/
theorem Piece.rewrites (meant : Text → List Text → Bool) (ha : a.Proper) (gains : Bool)
    (hsimple : ∀ d ∈ p.declaration?, d.Simple) (i : Nat) :
    Rewrites i p.text
      (p.ownEdits a gains i ++ (p.head.edits meant a.name [] i ++ p.bodyEdits meant a.name i))
      (p.thread meant a gains).text := by
  have hending : Rewrites (i + p.head.text.length) p.ending (p.bodyEdits meant a.name i)
      (p.thread meant a gains).ending := by
    unfold ending bodyEdits thread
    cases p.body? with
    | none => exact .keep _ _
    | some body =>
      have hbody := rewrites_pass meant ha.word body [] (i + p.head.text.length + 1)
      have := (hbody.append (.keep _ [125])).prepend [123]
      rwa [List.append_nil] at this
  have hhead : Rewrites i p.head.text (p.ownEdits a gains i ++ p.head.edits meant a.name [] i)
      (p.thread meant a gains).head.text := by
    unfold ownEdits
    cases hd : p.declaration? with
    | none =>
      simp only [thread, hd]
      exact rewrites_pass meant ha.word p.head [] i
    | some d =>
      rw [(hsimple d hd).edits meant a.name hd, List.append_nil, head_thread meant gains hd, text_head hd]
      cases gains with
      | false =>
        have : (d.gain a.declaration false).heading.params = d.heading.params := rfl
        simp only [text_append, text_pair, Delimiter.opener, Delimiter.closer, this]
        exact .keep _ _
      | true =>
        have := rewrites_params ha.insertable d.heading.params (i + d.heading.lead.text.length)
          d.heading.behind.text
        simp only [text_append]
        exact this.prepend d.heading.lead.text
  rw [← List.append_assoc]
  exact hhead.append hending

namespace Outline

/-- Threads a value through pieces. The flags say which of the functions gain it. -/
def threadPieces (meant : Text → List Text → Bool) (a : Ambient) : List Bool → List Piece → List Piece
  | _, [] => []
  | gains, p :: pieces =>
    match p.declaration? with
    | none => p.thread meant a false :: threadPieces meant a gains pieces
    | some _ => p.thread meant a (gains.headD false) :: threadPieces meant a gains.tail pieces

/-- Threads a value through an outline. -/
def thread (meant : Text → List Text → Bool) (a : Ambient) (gains : List Bool) (o : Outline) : Outline :=
  ⟨threadPieces meant a gains o.pieces, o.rest.pass meant a.name []⟩

/-- The edits of the declarations that gain the value. -/
def ownEdits (a : Ambient) (gains : List Bool) (ds : List (Nat × Piece × Declaration)) : List Edit :=
  (ds.zip gains).filterMap fun (x, gains) => if gains then some (x.2.2.edit a x.1) else none

theorem rewrites_pieces (meant : Text → List Text → Bool) (ha : a.Proper)
    (hsimple : ∀ p ∈ pieces, ∀ d ∈ p.declaration?, d.Simple) (rest : Nest)
    (gains : List Bool) (i : Nat) :
    ∃ sorted, Rewrites i (pieces.flatMap Piece.text ++ rest.text) sorted
        ((threadPieces meant a gains pieces).flatMap Piece.text ++ (rest.pass meant a.name []).text) ∧
      (ownEdits a gains (declarations i pieces) ++
        (nest ⟨pieces, rest⟩).edits meant a.name [] i).Perm sorted := by
  induction pieces generalizing gains i with
  | nil =>
    refine ⟨rest.edits meant a.name [] i, ?_, ?_⟩
    · simpa [threadPieces] using rewrites_pass meant ha.word rest [] i
    · simp [declarations, located, ownEdits, nest]
  | cons p pieces ih =>
    have hown : ∃ own tail, threadPieces meant a gains (p :: pieces) =
          p.thread meant a own :: threadPieces meant a tail pieces ∧
        ownEdits a gains (declarations i (p :: pieces)) =
          p.ownEdits a own i ++ ownEdits a tail (declarations (i + p.text.length) pieces) := by
      rw [declarations_cons]
      cases hd : p.declaration? with
      | none => exact ⟨false, gains, by simp [threadPieces, hd], by simp [Piece.ownEdits, hd]⟩
      | some d =>
        refine ⟨gains.headD false, gains.tail, by simp [threadPieces, hd], ?_⟩
        cases gains with
        | nil => simp [ownEdits, Piece.ownEdits, hd]
        | cons g gains => cases g <;> simp [ownEdits, Piece.ownEdits, hd]
    obtain ⟨own, tail, hthread, hown⟩ := hown
    have hfirst := hsimple p mem_cons_self
    have hmore := fun q hq => hsimple q (mem_cons_of_mem p hq)
    obtain ⟨sorted, hrw, hperm⟩ := ih hmore tail (i + p.text.length)
    refine ⟨p.ownEdits a own i ++ (p.head.edits meant a.name [] i ++ p.bodyEdits meant a.name i) ++
      sorted, ?_, ?_⟩
    · simpa [hthread] using (Piece.rewrites meant ha own hfirst i).append hrw
    · have hnest : nest ⟨p :: pieces, rest⟩ = p.followedBy (nest ⟨pieces, rest⟩) := rfl
      rw [hown, hnest, Piece.edits_followedBy]
      -- The edits of the piece come first in the text; the declarations come first in the list.
      refine List.Perm.trans ?_ (hperm.append_left _)
      generalize p.ownEdits a own i = o
      generalize p.head.edits meant a.name [] i = h
      generalize p.bodyEdits meant a.name i = b
      generalize ownEdits a tail (declarations (i + p.text.length) pieces) = os
      generalize (nest ⟨pieces, rest⟩).edits meant a.name [] (i + p.text.length) = n
      rw [List.append_assoc, List.append_assoc, ← List.append_assoc h]
      refine List.Perm.append_left o ?_
      exact perm_append_comm_assoc os (h ++ b) n

end Outline

/-! The edits that threading collects: those of the declarations, and for each name those of the
calls of that name. -/

/-- Taking the members of a list name by name gives each of them once. -/
theorem perm_flatMap_filterMap {α β : Type} {names : List Text} (hnodup : names.Nodup)
    (key : α → Option Text) (f : α → Option β) (xs : List α)
    (hkey : ∀ x ∈ xs, ∀ y, f x = some y → ∃ n ∈ names, key x = some n) :
    (names.flatMap fun n => (xs.filter fun x => key x == some n).filterMap f).Perm
      (xs.filterMap f) := by
  induction xs with
  | nil => simp
  | cons x xs ih =>
    have hrest := ih fun y hy => hkey y (mem_cons_of_mem x hy)
    cases hf : f x with
    | none =>
      have hsame : (names.flatMap fun n => ((x :: xs).filter fun x => key x == some n).filterMap f) =
          names.flatMap fun n => (xs.filter fun x => key x == some n).filterMap f := by
        congr 1
        funext n
        rw [filter_cons]
        split
        · rw [filterMap_cons_none hf]
        · rfl
      rw [hsame, filterMap_cons_none hf]
      exact hrest
    | some y =>
      obtain ⟨n, hn, hx⟩ := hkey x mem_cons_self y hf
      obtain ⟨front, behind, rfl⟩ := append_of_mem hn
      have hne : ∀ m ∈ front ++ behind, (key x == some m) = false := by
        intro m hm
        have hmn : m ≠ n := by
          rintro rfl
          rw [nodup_append, nodup_cons] at hnodup
          rcases mem_append.mp hm with hm | hm
          · exact hnodup.2.2 m hm m mem_cons_self rfl
          · exact hnodup.2.1.1 hm
        rw [hx, beq_eq_false_iff_ne, Ne, Option.some.injEq]
        exact fun h => hmn h.symm
      have hother : ∀ m ∈ front ++ behind, ((x :: xs).filter fun x => key x == some m).filterMap f =
          (xs.filter fun x => key x == some m).filterMap f := by
        intro m hm
        rw [filter_cons, hne m hm]
        rfl
      have hown : ((x :: xs).filter fun x => key x == some n).filterMap f =
          y :: (xs.filter fun x => key x == some n).filterMap f := by
        rw [filter_cons, hx, beq_self_eq_true, if_pos rfl, filterMap_cons_some hf]
      rw [filterMap_cons_some hf]
      refine List.Perm.trans ?_ (hrest.cons y)
      simp only [flatMap_append, flatMap_cons, hown, cons_append]
      rw [flatMap_congr fun m hm => hother m (mem_append_left _ hm),
        flatMap_congr fun m hm => hother m (mem_append_right _ hm)]
      exact perm_middle

theorem Overloads.mem_namesOf_of_means {users : List Nat} {name : Text}
    {args : List Text} (h : overloads.means users name args) :
    name ∈ Threading.namesOf overloads users := by
  unfold Overloads.means at h
  rw [Option.any_eq_true] at h
  obtain ⟨id, hid, huser⟩ := h
  obtain ⟨v, hv, haccepts, -⟩ := resolve?_spec hid
  unfold accepts at haccepts
  simp only [Bool.and_eq_true, beq_iff_eq] at haccepts
  unfold Threading.namesOf
  rw [mem_foldl_placeName fun name => name]
  refine .inr ⟨v.name, ?_, haccepts.1.1⟩
  rw [contains_eq_mem, decide_eq_true_eq] at huser
  exact mem_filterMap.mpr ⟨id, huser, by rw [hv]; rfl⟩

theorem Threading.nodup_namesOf (overloads : Overloads) (users : List Nat) :
    (namesOf overloads users).Nodup :=
  nodup_foldl_placeName (fun name => name) _ .nil

theorem Threading.perm_callEdits (a : Ambient) (users : List Nat) (overloads : Overloads) :
    ((namesOf overloads users).flatMap fun n =>
      ((t.lists [] 0).filter fun p => Text.named? p.left == some n).filterMap
        (Listed.edit? (overloads.means users) a.name)).Perm
      (t.edits (overloads.means users) a.name [] 0) := by
  refine (perm_flatMap_filterMap (nodup_namesOf overloads users) _ _ _ ?_).trans
    (edits_perm _ a.name t [] 0).symm
  intro p _ e he
  unfold Listed.edit? at he
  split at he
  · next hmeant =>
    obtain ⟨n, hn, hmeans⟩ := (Option.any_eq_true _ _).mp hmeant
    refine ⟨n, Overloads.mem_namesOf_of_means hmeans, ?_⟩
    unfold callee? at hn
    split at hn
    · exact hn
    · cases hn
  · cases he

/-- Which routines gain a value that is threaded into some overloads: those of the overloads that do
not have it. -/
def Routine.gains (a : Ambient) (users : List Nat) (overloads : Overloads)
    (routines : List Routine) : List Bool :=
  (routines.zip overloads.ofFunction).map fun (r, id) => users.contains id && !r.hasParam a.name

theorem Signature.Describes.declarationEdit? {f : Signature} {i : Nat} (h : f.Describes i p d) (a : Ambient) :
    Threading.declarationEdit? a f =
      if d.heading.params.bareParameters.any (·.name == a.name) then none else some (d.edit a i) := by
  have hhas : f.hasParam a.name = d.heading.params.bareParameters.any (·.name == a.name) := by
    rw [← map_bare_parameters (f.openParen + 1), ← h.params, any_map]
    rfl
  unfold Threading.declarationEdit? Declaration.edit
  rw [hhas, h.closeParen, h.params, h.openParen]

theorem Threading.filterMap_declarationEdit? {functions : List Signature}
    {ds : List (Nat × Piece × Declaration)} (h : List.Forall₂ Outline.Described functions ds)
    (a : Ambient) (users ids : List Nat) :
    (functions.zip ids).filterMap (fun (f, id) =>
        if users.contains id then declarationEdit? a f else none) =
      Outline.ownEdits a ((ds.zip ids).map fun (x, id) =>
        users.contains id && !x.2.2.heading.params.bareParameters.any (·.name == a.name)) ds := by
  unfold Outline.ownEdits
  induction h generalizing ids with
  | nil => rfl
  | cons hf _ ih =>
    cases ids with
    | nil => rfl
    | cons id ids =>
      simp only [zip_cons_cons, map_cons, filterMap_cons, ih, Signature.Describes.declarationEdit? hf]
      cases users.contains id
      · rfl
      · cases any _ _ <;> rfl

namespace Outline

theorem exists_of_mem_threadPieces {meant : Text → List Text → Bool}
    {gains : List Bool} {q : Piece}
    (h : q ∈ threadPieces meant a gains pieces) : ∃ p ∈ pieces, ∃ g, q = p.thread meant a g := by
  induction pieces generalizing gains with
  | nil => cases h
  | cons p pieces ih =>
    have hstep : ∀ {g gains}, q ∈ p.thread meant a g :: threadPieces meant a gains pieces →
        ∃ p' ∈ p :: pieces, ∃ g, q = p'.thread meant a g := fun h => (mem_cons.mp h).elim
      (fun h => ⟨p, mem_cons_self, _, h⟩) fun h => (ih h).imp fun _ => .imp_left (mem_cons_of_mem p)
    unfold threadPieces at h
    split at h
    · exact hstep h
    · exact hstep h

theorem hash_thread (meant : Text → List Text → Bool) (ha : a.Proper)
    (gains : List Bool) (h : 35 ∉ o.nest.text) :
    35 ∉ (o.thread meant a gains).nest.text := by
  have hname : 35 ∉ a.name := fun hmem => absurd (ha.word.2 _ hmem) (by decide)
  rw [text_nest, mem_append, not_or, mem_flatMap] at h ⊢
  refine ⟨?_, ?_⟩
  · rintro ⟨q, hq, hmem⟩
    obtain ⟨p, hp, g, rfl⟩ := exists_of_mem_threadPieces hq
    have hpiece : 35 ∉ p.text := fun hmem => h.1 ⟨p, hp, hmem⟩
    rw [Piece.text, mem_append, not_or] at hpiece
    rw [Piece.text, mem_append] at hmem
    rcases hmem with hmem | hmem
    · exact Piece.not_mem_head_thread meant g ha rfl rfl (by decide) hpiece.1 hmem
    · have hending := hpiece.2
      unfold Piece.ending Piece.thread at hmem
      unfold Piece.ending at hending
      cases hbody : p.body? with
      | none => simp [hbody] at hmem
      | some body =>
        simp only [hbody, Option.map_some, mem_append, mem_cons, not_mem_nil,
          or_false, not_or, mem_pass rfl (show (35 : UInt8) ≠ 44 by decide) hname] at hmem hending
        grind
  · unfold thread
    rw [mem_pass rfl (by decide) hname]
    exact h.2

theorem Sound.thread (meant : Text → List Text → Bool) (ha : a.Proper)
    (gains : List Bool) (h : o.Sound) (hcode : (o.thread meant a gains).nest.text.IsCode) :
    (o.thread meant a gains).Sound where
  proper := by
    refine ⟨?_, passes_pass meant ha.word h.proper.2 []⟩
    intro q hq
    obtain ⟨p, hp, g, rfl⟩ := exists_of_mem_threadPieces hq
    exact Piece.proper_thread meant g ha (h.proper.1 p hp)
  plain := by
    refine ⟨?_, plain_pass meant ha.word h.plain.2 []⟩
    intro q hq
    obtain ⟨p, hp, g, rfl⟩ := exists_of_mem_threadPieces hq
    exact Piece.plain_thread meant g ha (h.plain.1 p hp).1 (h.plain.1 p hp).2
  code := hcode
  hash := hash_thread meant ha gains h.hash

end Outline

theorem Declaration.Simple.gain (ha : a.Proper) (gains : Bool)
    (h : d.Simple) : (d.gain a.declaration gains).Simple := by
  obtain ⟨hlead, -⟩ := d.lead_gain gains a.declaration
  exact ⟨hlead ▸ h.callee, d.not_mem_gain gains ha rfl (by decide) (by decide) h.params⟩

/-- **Threading a value makes the threaded outline.** -/
theorem Represents.threadValue {source : Text} (h : Represents source o)
    (ha : a.Proper) (users : List Nat)
    (hwords : ∀ v ∈ overloads.table, v.name.IsWord) :
    ∃ target, Threading.threadValue source a users overloads = .ok target ∧ Represents target
        (o.thread (overloads.means users) a (Routine.gains a users overloads o.routines)) := by
  obtain ⟨functions, hfunctions, -, -, hdescribed⟩ := h.functions
  have hplain := Outline.plain_nest.mpr h.sound.plain
  have hnames : ∀ n ∈ Threading.namesOf overloads users, n.IsWord := by
    intro n hn
    unfold Threading.namesOf at hn
    rw [mem_foldl_placeName fun name => name] at hn
    obtain hn | ⟨m, hm, rfl⟩ := hn
    · cases hn
    · obtain ⟨id, -, hid⟩ := mem_filterMap.mp hm
      obtain ⟨v, hv, rfl⟩ := Option.map_eq_some_iff.mp hid
      exact hwords v (mem_of_getElem? hv)
  have hgains : Routine.gains a users overloads o.routines =
      ((Outline.declarations 0 o.pieces).zip overloads.ofFunction).map fun (x, id) =>
        users.contains id && !x.2.2.heading.params.bareParameters.any (·.name == a.name) := by
    unfold Routine.gains
    rw [Outline.routines_eq, zip_map_left, map_map]
    rfl
  obtain ⟨sorted, hrewrites, hperm⟩ := Outline.rewrites_pieces (overloads.means users) ha h.simple
    o.rest (Routine.gains a users overloads o.routines) 0
  have hcalls : ((Threading.namesOf overloads users).mapM fun name => do
        let found ← (Call.sites source.mask name).mapM
          (Threading.callEdit? source.mask a users overloads name)
        return found.filterMap id) =
      .ok ((Threading.namesOf overloads users).map fun n =>
        ((o.nest.lists [] 0).filter fun p => Text.named? p.left == some n).filterMap
          (Listed.edit? (overloads.means users) a.name)) := by
    refine mapM_eq_ok ?_
    intro n hn
    rw [h.mask, mapM_sites hplain (hnames n hn) fun p hp hnamed =>
      callEdit?_listed hplain h.sound.code hp (hnames n hn) hnamed a users overloads]
    show Except.ok _ = Except.ok _
    rw [filterMap_map]
    rfl
  rw [← Outline.text_nest, ← h.mask] at hrewrites
  obtain ⟨target, htarget, hmask, hcode⟩ := hrewrites.apply
    ((List.Perm.append_left _ (Threading.perm_callEdits a users overloads)).trans hperm) h.code
  have hnest : target.mask = (o.thread (overloads.means users) a
      (Routine.gains a users overloads o.routines)).nest.text := by
    rw [hmask, Outline.text_nest]
    rfl
  refine ⟨target, ?_, hcode, hnest, h.sound.thread _ ha _ (hnest ▸ isCode_maskFrom hcode .code), ?_⟩
  · unfold Threading.threadValue
    simp only [hfunctions, bind, Except.bind] at hcalls ⊢
    rw [hcalls, Threading.filterMap_declarationEdit? hdescribed, ← hgains]
    exact htarget
  · intro q hq d hd
    obtain ⟨p, hp, g, rfl⟩ := Outline.exists_of_mem_threadPieces hq
    rw [Piece.declaration?_thread _ g ha (h.sound.proper.1 p hp), Option.mem_def,
      Option.map_eq_some_iff] at hd
    obtain ⟨d, hd, rfl⟩ := hd
    exact (h.simple p hp d hd).gain ha g

end GlslToMetal
