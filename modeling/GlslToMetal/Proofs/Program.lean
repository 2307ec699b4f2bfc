import GlslToMetal.Proofs.Signature
import GlslToMetal.Proofs.Text.Bounds

/-! The functions of a program are the declarations of its outline. -/

namespace GlslToMetal

/-- The functions of a program that is read without a fault. -/
def Program.declared (source : Text) : List Signature := (functions source).toOption.getD []

namespace Outline

open List Text

/-- The pieces with their offsets. -/
def located (i : Nat) : List Piece → List (Nat × Piece)
  | [] => []
  | p :: pieces => (i, p) :: located (i + p.text.length) pieces

/-- The declarations of the pieces with their offsets. -/
def declarations (i : Nat) (pieces : List Piece) : List (Nat × Piece × Declaration) :=
  (located i pieces).filterMap fun (i, p) => p.declaration?.map (i, p, ·)

theorem text_nest (o : Outline) : o.nest.text = o.pieces.flatMap Piece.text ++ o.rest.text := by
  obtain ⟨pieces, rest⟩ := o
  unfold nest
  induction pieces with
  | nil => rfl
  | cons p pieces ih => simp [Piece.text_followedBy, ih]

/-- All trees of the outline are plain. -/
def Plain (o : Outline) : Prop :=
  (∀ p ∈ o.pieces, p.head.Plain ∧ ∀ b ∈ p.body?, b.Plain) ∧ o.rest.Plain

theorem plain_nest {o : Outline} : o.nest.Plain ↔ o.Plain := by
  obtain ⟨pieces, rest⟩ := o
  unfold nest Plain
  induction pieces with
  | nil => simp
  | cons p pieces ih =>
    have hp : (p.followedBy (pieces.foldr Piece.followedBy rest)).Plain ↔
        (p.head.Plain ∧ ∀ b ∈ p.body?, b.Plain) ∧ (pieces.foldr Piece.followedBy rest).Plain := by
      obtain ⟨head, body?⟩ := p
      cases body? with
      | none =>
        simp [Piece.followedBy, Nest.Plain, show Delimiter.plain 59 = true from rfl]
      | some body => simp [Piece.followedBy, Nest.Plain, and_assoc]
    rw [foldr_cons, hp, ih]
    simp [and_assoc]

/-- The outline is that of a program in ASCII without preprocessor lines. -/
structure Sound (o : Outline) : Prop where
  proper : o.Proper
  plain : o.Plain
  code : o.nest.text.IsCode
  hash : 35 ∉ o.nest.text

/-- The item that a piece makes is read like the piece. -/
def Described (f : Signature) (d : Nat × Piece × Declaration) : Prop := f.Describes d.1 d.2.1 d.2.2

theorem declarations_cons (i : Nat) (p : Piece) (pieces : List Piece) : declarations i (p :: pieces) =
      (p.declaration?.map (i, p, ·)).toList ++ declarations (i + p.text.length) pieces := by
  unfold declarations
  rw [located, filterMap_cons]
  cases hd : p.declaration? <;> simp [hd]

theorem filterMap_id_cons {α : Type} (r : Option α) (found : List (Option α)) :
    (r :: found).filterMap id = r.toList ++ found.filterMap id := by
  cases r <;> rfl

theorem exists_ofItem? {m before post : Text} {p : Piece} (hm : m = before ++ p.text ++ post)
    (hcode : m.IsCode) (hhead : p.head.Plain) (tail : Nat) :
    ∃ r, Signature.ofItem? m (Item.ofPiece p before.length tail) = .ok r ∧
      List.Forall₂ Described r.toList (p.declaration?.map (before.length, p, ·)).toList := by
  obtain ⟨hnone, hsome⟩ := Signature.ofItem?_piece hm hcode hhead tail
  cases hd : p.declaration? with
  | none => exact ⟨none, hnone hd, .nil⟩
  | some d =>
    obtain ⟨f, hf, hdescribes⟩ := hsome d hd
    exact ⟨some f, hf, .cons hdescribes .nil⟩

/-- A `;` behind blanks is a piece of its own. -/
theorem exists_semicolon {pieces : List Piece} {last : Nest}
    (hpieces : ∀ p ∈ pieces, p.Proper false) (hlast : last.Passes false) {z r : Text}
    (hz : z.all isBlank) (h : pieces.flatMap Piece.text ++ last.text = z ++ 59 :: r) :
    ∃ q qs, pieces = q :: qs ∧ q.head.text = z ∧ q.body? = none := by
  cases pieces with
  | nil =>
    obtain ⟨z', -, hu⟩ := Item.exists_of_passes hlast (u := []) hz (by simpa using h)
    simp at hu
  | cons q qs =>
    obtain ⟨head, body?⟩ := q
    have hproper := hpieces ⟨head, body?⟩ mem_cons_self
    rw [flatMap_cons, Piece.text, append_assoc, append_assoc] at h
    obtain ⟨z', rfl, hu⟩ := Item.exists_of_passes hproper.1 hz h
    rw [all_append, Bool.and_eq_true] at hz
    cases z' with
    | nil =>
      cases body? with
      | none => exact ⟨_, qs, rfl, by simp, rfl⟩
      | some body => simp [Piece.ending] at hu
    | cons c z' =>
      exfalso
      rw [all_cons, Bool.and_eq_true] at hz
      cases body? with
      | none =>
        simp only [Piece.ending, cons_append, cons.injEq] at hu
        rw [← hu.1] at hz
        exact absurd hz.2.1 (by decide)
      | some body =>
        simp only [Piece.ending, cons_append, cons.injEq] at hu
        rw [← hu.1] at hz
        exact absurd hz.2.1 (by decide)

/-- Reads the items of the pieces in turn. A `;` behind a block is a piece that declares nothing. -/
theorem exists_read {m rest : Text} {last : Nest} (hcode : m.IsCode) (hrest : rest = last.text)
    (hlast : last.Plain) (hpasses : last.Passes false) (n : Nat) :
    ∀ {pieces : List Piece} (before : Text), pieces.length ≤ n →
      (∀ p ∈ pieces, p.Proper false ∧ p.head.Plain ∧ ∀ b ∈ p.body?, b.Plain) →
      m = before ++ (pieces.flatMap Piece.text ++ rest) →
      35 ∉ pieces.flatMap Piece.text ++ rest →
      ∃ found, (Item.scan .between before.length 0 (pieces.flatMap Piece.text ++ rest)).mapM
          (Signature.ofItem? m) = .ok found ∧
        List.Forall₂ Described (found.filterMap id) (declarations before.length pieces) := by
  induction n with
  | zero =>
    intro pieces before hlen _ _ hhash
    obtain rfl := length_eq_zero_iff.mp (Nat.le_zero.mp hlen)
    subst hrest
    simp only [flatMap_nil, nil_append] at hhash ⊢
    rw [Item.scan_rest hlast hpasses hhash]
    exact ⟨[], rfl, .nil⟩
  | succ n ih =>
    intro pieces before hlen hpieces hm hhash
    cases pieces with
    | nil => exact ih before (Nat.zero_le n) hpieces hm hhash
    | cons p pieces =>
      obtain ⟨hproper, hhead, hbody⟩ := hpieces p mem_cons_self
      have hmore := fun q hq => hpieces q (mem_cons_of_mem p hq)
      simp only [flatMap_cons, append_assoc, mem_append, not_or] at hm hhash ⊢
      rw [length_cons, Nat.succ_le_succ_iff] at hlen
      have hhash' : 35 ∉ pieces.flatMap Piece.text ++ rest := by simp [hhash.2]
      obtain ⟨tail, hscan, htail⟩ :=
        Item.scan_piece hproper hhead hbody hhash.1 before.length hhash'
      obtain ⟨r, hr, hdescribed⟩ := exists_ofItem? (by rw [hm, append_assoc]) hcode hhead tail
      -- It remains to read what follows the item.
      suffices hrest : ∃ found, (Item.scan .between (before.length + p.text.length + tail) 0
            ((pieces.flatMap Piece.text ++ rest).drop tail)).mapM (Signature.ofItem? m) = .ok found ∧
          List.Forall₂ Described (found.filterMap id)
            (declarations (before.length + p.text.length) pieces) by
        obtain ⟨found, hfound, hforall⟩ := hrest
        refine ⟨r :: found, ?_, ?_⟩
        · rw [hscan, mapM_cons, hr, hfound]
          rfl
        · rw [declarations_cons, filterMap_id_cons]
          exact rel_append hdescribed hforall
      rcases htail with rfl | ⟨z, r, hz, hblank, rfl⟩
      · have := ih (before ++ p.text) hlen hmore (by rw [hm, append_assoc]) hhash'
        simpa using this
      · -- The piece behind the block is the `;` that belongs to it.
        subst hrest
        obtain ⟨q, qs, rfl, hqhead, hqbody⟩ :=
          exists_semicolon (fun q hq => (hmore q hq).1) hpasses hblank hz
        have hqtext : q.text = z ++ [59] := by simp [Piece.text, Piece.ending, hqhead, hqbody]
        have hqdecl : q.declaration? = none := by
          have hparen : 40 ∉ q.head.text := by
            intro hmem
            rw [hqhead] at hmem
            exact absurd (all_eq_true.mp hblank 40 hmem) (by decide)
          unfold Piece.declaration?
          rw [Nest.declaration?_of_not_mem hparen, ite_self]
        have hdrop : ((q :: qs).flatMap Piece.text ++ last.text).drop (z.length + 1) =
            qs.flatMap Piece.text ++ last.text := by
          rw [flatMap_cons, hqtext]
          simp [drop_append]
        have := ih (before ++ p.text ++ q.text) (Nat.le_of_succ_le hlen)
          (fun r hr => hmore r (mem_cons_of_mem q hr)) (by simp [hm]) (by
            simp only [flatMap_cons, mem_append, not_or] at hhash' ⊢
            exact ⟨hhash'.1.2, hhash'.2⟩)
        rw [hdrop, declarations_cons, hqdecl, hqtext]
        simpa [hqtext, Nat.add_assoc] using this

/-- **The functions of a program are what its pieces declare**, in order. -/
theorem functions_eq {o : Outline} (ho : o.Sound) {source : Text} (hmask : source.mask = o.nest.text) :
    ∃ functions, Program.functions source = .ok functions ∧
      List.Forall₂ Described functions (declarations 0 o.pieces) := by
  have htext := text_nest o
  obtain ⟨found, hfound, hdescribed⟩ := exists_read ho.code rfl ho.plain.2 ho.proper.2
    o.pieces.length [] (Nat.le_refl _) (fun p hp => ⟨ho.proper.1 p hp, ho.plain.1 p hp⟩) htext
    (htext ▸ ho.hash)
  refine ⟨found.filterMap id, ?_, hdescribed⟩
  unfold Program.functions items
  rw [hmask]
  rw [← htext] at hfound
  simp only [length_nil] at hfound
  rw [hfound]
  rfl

end Outline

end GlslToMetal
