import GlslToMetal.Item
import GlslToMetal.Proofs.Text.Blank
import GlslToMetal.Proofs.Text.Nesting

/-! The outline of a program: the trees of its items. A piece is what stands before a `;` or before
the braces of a block, with the body of the block. The scan for items reads the pieces one after
another; only a `;` behind a block, which is an empty piece here, is part of the item before it. -/

namespace GlslToMetal

variable {assigned : Bool} {t : Nest} {z : Text} {b : UInt8}

/-- An item as a tree: what stands before its end, and the body of a block. -/
structure Piece where
  head : Nest
  body? : Option Nest

/-- The pieces of a program, and what follows the last of them. -/
structure Outline where
  pieces : List Piece
  rest : Nest

/-- The tree is part of one item: no `;` and no braces end the item in it. The braces of an
initialiser do not, and they follow an `=`. -/
def Nest.Passes (assigned : Bool) : Nest → Prop
  | .nil => True
  | .byte b rest => b ≠ 59 ∧ rest.Passes (assigned || b == 61)
  | .pair d inner rest =>
    (d = .brace → assigned = true) ∧ rest.Passes (assigned || inner.text.contains 61)

theorem Nest.passes_append {s : Nest} :
    (s ++ t).Passes assigned ↔ s.Passes assigned ∧ t.Passes (assigned || s.text.contains 61) := by
  induction s generalizing assigned with
  | nil => simp [Passes]
  | byte b s ih =>
    rw [byte_append, Passes, Passes, ih, and_assoc, text_byte, List.contains_cons, Bool.or_assoc, BEq.comm]
  | pair d inner s _ ih =>
    have hopen : (61 == d.opener) = false := by cases d <;> rfl
    have hclose : (61 == d.closer) = false := by cases d <;> rfl
    rw [pair_append, Passes, Passes, ih, and_assoc, text_pair, List.contains_cons, hopen,
      List.contains_append,
      List.contains_cons, hclose, Bool.false_or, Bool.false_or, Bool.or_assoc]

namespace Piece

/-- The piece with a tree behind it. -/
def followedBy (p : Piece) (rest : Nest) : Nest :=
  p.head ++ match p.body? with
    | none => .byte 59 rest
    | some body => .pair .brace body rest

/-- The piece ends where an item does. -/
def Proper (assigned : Bool) (p : Piece) : Prop :=
  p.head.Passes assigned ∧ (p.body?.isSome → assigned = false ∧ 61 ∉ p.head.text)

/-- What ends the piece. -/
def ending (p : Piece) : Text :=
  match p.body? with
  | none => [59]
  | some body => 123 :: (body.text ++ [125])

def text (p : Piece) : Text := p.head.text ++ p.ending

theorem text_followedBy (p : Piece) (rest : Nest) : (p.followedBy rest).text = p.text ++ rest.text := by
  unfold followedBy text ending
  cases p.body? <;> simp [Delimiter.opener, Delimiter.closer]

end Piece

namespace Outline

def nest (o : Outline) : Nest := o.pieces.foldr Piece.followedBy o.rest

/-- The first item of the outline goes on from one with an `=` in it or without. -/
def ProperFrom (assigned : Bool) : Outline → Prop
  | ⟨[], rest⟩ => rest.Passes assigned
  | ⟨p :: pieces, rest⟩ =>
    p.Proper assigned ∧ (∀ q ∈ pieces, q.Proper false) ∧ rest.Passes false

/-- The pieces are the items. -/
def Proper (o : Outline) : Prop := (∀ p ∈ o.pieces, p.Proper false) ∧ o.rest.Passes false

theorem ProperFrom.proper {o : Outline} (h : o.ProperFrom false) : o.Proper := by
  obtain ⟨pieces, rest⟩ := o
  cases pieces with
  | nil => exact ⟨by simp, h⟩
  | cons p pieces =>
    refine ⟨?_, h.2.2⟩
    intro q hq
    rcases List.mem_cons.mp hq with rfl | hq
    · exact h.1
    · exact h.2.1 q hq

/-- What a tree before the outline belongs to. -/
def push (f : Nest → Nest) : Outline → Outline
  | ⟨[], rest⟩ => ⟨[], f rest⟩
  | ⟨p :: pieces, rest⟩ => ⟨⟨f p.head, p.body?⟩ :: pieces, rest⟩

theorem exists_properFrom (t : Nest) (assigned : Bool) :
    ∃ o : Outline, o.nest = t ∧ o.ProperFrom assigned := by
  induction t generalizing assigned with
  | nil => exact ⟨⟨[], .nil⟩, rfl, trivial⟩
  | byte b rest ih =>
    by_cases hb : b = 59
    · subst hb
      obtain ⟨o, rfl, ho⟩ := ih false
      exact ⟨⟨⟨.nil, none⟩ :: o.pieces, o.rest⟩, rfl, ⟨trivial, by simp⟩, ho.proper⟩
    · obtain ⟨o, rfl, ho⟩ := ih (assigned || b == 61)
      refine ⟨o.push (.byte b), ?_, ?_⟩
      · obtain ⟨pieces, rest⟩ := o
        cases pieces <;> rfl
      · obtain ⟨pieces, rest⟩ := o
        cases pieces with
        | nil => exact ⟨hb, ho⟩
        | cons p pieces =>
          refine ⟨⟨⟨hb, ho.1.1⟩, ?_⟩, ho.2⟩
          intro hbody
          have := ho.1.2 hbody
          simp only [Bool.or_eq_false_iff, beq_eq_false_iff_ne] at this
          simp [this, Ne.symm this.1.2]
  | pair d inner rest _ ih =>
    by_cases hd : d = .brace ∧ assigned = false
    · obtain ⟨rfl, rfl⟩ := hd
      obtain ⟨o, rfl, ho⟩ := ih false
      exact ⟨⟨⟨.nil, some inner⟩ :: o.pieces, o.rest⟩, rfl, ⟨trivial, by simp⟩, ho.proper⟩
    · have hbrace : d = .brace → assigned = true := by
        intro h
        cases assigned with
        | true => rfl
        | false => exact absurd ⟨h, rfl⟩ hd
      obtain ⟨o, rfl, ho⟩ := ih (assigned || inner.text.contains 61)
      refine ⟨o.push (.pair d inner), ?_, ?_⟩
      · obtain ⟨pieces, rest⟩ := o
        cases pieces <;> rfl
      · obtain ⟨pieces, rest⟩ := o
        cases pieces with
        | nil => exact ⟨hbrace, ho⟩
        | cons p pieces =>
          refine ⟨⟨⟨hbrace, ho.1.1⟩, ?_⟩, ho.2⟩
          intro hbody
          have := ho.1.2 hbody
          simp only [Bool.or_eq_false_iff, List.contains_eq_mem, decide_eq_false_iff_not] at this
          have hopen : (61 : UInt8) ≠ d.opener := by cases d <;> decide
          have hclose : (61 : UInt8) ≠ d.closer := by cases d <;> decide
          simp [this, hopen, hclose]

theorem exists_proper (t : Nest) : ∃ o : Outline, o.nest = t ∧ o.Proper := by
  obtain ⟨o, ho, hproper⟩ := exists_properFrom t false
  exact ⟨o, ho, hproper.proper⟩

end Outline

namespace Item

open List Text

theorem plain_of_isBlank (h : isBlank b) : Delimiter.plain b := by
  simp only [isBlank, Bool.or_eq_true, beq_iff_eq] at h
  rcases h with (((rfl | rfl) | rfl) | rfl) | rfl <;> decide

theorem scan_skip (place : Place) (i : Nat) (s t : Text) :
    scan place i s.length (s ++ t) = scan (s.foldl Place.pass place) (i + s.length) 0 t := by
  induction s generalizing place i with
  | nil => cases t <;> rfl
  | cons b s ih =>
    rw [length_cons, cons_append, scan, ih, foldl_cons]
    congr 1
    omega

theorem foldl_pass_inside (start : Nat) (assigned : Bool) (s : Text) :
    s.foldl Place.pass (.inside start assigned) = .inside start (assigned || s.contains 61) := by
  induction s generalizing assigned with
  | nil => simp
  | cons b s ih =>
    rw [foldl_cons, Place.pass, ih, contains_cons, Bool.or_assoc, BEq.comm]

theorem foldl_pass_between (s : Text) : s.foldl Place.pass .between = .between := by
  induction s with
  | nil => rfl
  | cons b s ih => exact ih

theorem scan_blank (hb : isBlank b) (i : Nat) (t : Text) :
    scan .between i 0 (b :: t) = scan .between (i + 1) 0 t := by
  conv => lhs; unfold scan
  simp [hb]

theorem scan_enter (hb : isBlank b = false) (hhash : b ≠ 35) (i : Nat) (t : Text) :
    scan .between i 0 (b :: t) = scan (.inside i false) i 0 (b :: t) := by
  unfold scan
  simp [hb, hhash, Place.enter]

theorem scan_between (hz : z.all isBlank) (hb : isBlank b = false)
    (hhash : b ≠ 35) (i : Nat) (t : Text) :
    scan .between i 0 (z ++ b :: t) = scan (.inside (i + z.length) false) (i + z.length) 0 (b :: t) := by
  induction z generalizing i with
  | nil => exact scan_enter hb hhash i t
  | cons c z ih =>
    rw [all_cons, Bool.and_eq_true] at hz
    have hlen : i + (c :: z).length = i + 1 + z.length := by
      rw [length_cons]
      omega
    rw [cons_append, scan_blank hz.1, ih hz.2, hlen]

theorem semicolonTail_cases (t : Text) :
    (∃ z r, t = z ++ 59 :: r ∧ z.all isBlank ∧ semicolonTail t = z.length + 1) ∨
      ((t.dropWhile isBlank).head? ≠ some 59 ∧ semicolonTail t = 0) := by
  have hsplit := takeWhile_append_dropWhile (p := isBlank) (l := t)
  unfold semicolonTail
  split
  · next r hdrop =>
    rw [hdrop] at hsplit
    exact .inl ⟨t.takeWhile isBlank, r, hsplit.symm, by simp, rfl⟩
  · next hdrop =>
    refine .inr ⟨?_, rfl⟩
    cases h : t.dropWhile isBlank with
    | nil => simp
    | cons b r =>
      intro hb
      simp only [head?_cons, Option.some.injEq] at hb
      subst hb
      exact hdrop r h

theorem semicolonTail_eq_zero_iff {t : Text} :
    semicolonTail t = 0 ↔ (t.dropWhile isBlank).head? ≠ some 59 := by
  rcases semicolonTail_cases t with ⟨z, r, rfl, hz, htail⟩ | ⟨hne, htail⟩
  · rw [htail, dropWhile_append_of_pos (all_eq_true.mp hz), dropWhile_cons_of_neg (by decide)]
    simp
  · exact iff_of_true htail hne

theorem semicolonTail_append_cons (hz : z.all isBlank) (t : Text) :
    semicolonTail (z ++ 59 :: t) = z.length + 1 := by
  have hdrop : (z ++ 59 :: t).dropWhile isBlank = 59 :: t := by
    rw [dropWhile_append_of_pos (all_eq_true.mp hz), dropWhile_cons_of_neg (by decide)]
  have htake : (z ++ 59 :: t).takeWhile isBlank = z := by
    rw [takeWhile_append_of_pos (all_eq_true.mp hz), takeWhile_cons_of_neg (by decide), append_nil]
  rw [semicolonTail, hdrop, leadingBlanks, htake]
  rfl

theorem semicolonTail_le (t : Text) : semicolonTail t ≤ t.length := by
  rcases semicolonTail_cases t with ⟨z, r, rfl, -, htail⟩ | ⟨-, htail⟩
  · rw [htail]
    simp
  · rw [htail]
    exact Nat.zero_le _

section Inside

variable (start i : Nat) (t : Text)

theorem scan_byte (hb : Delimiter.ofOpener? b = none) (hsemi : b ≠ 59) (assigned : Bool) :
    scan (.inside start assigned) i 0 (b :: t) = scan (.inside start (assigned || b == 61)) (i + 1) 0 t := by
  conv => lhs; unfold scan
  simp [hb, hsemi, Place.enter, Place.pass]

theorem scan_semicolon (assigned : Bool) :
    scan (.inside start assigned) i 0 (59 :: t) = statement start i :: scan .between (i + 1) 0 t := by
  conv => lhs; unfold scan
  simp [show Delimiter.ofOpener? 59 = none from rfl, Place.enter]

theorem scan_enclosed {inner : Text}
    (hclose : Delimiter.brace.toCloser 0 (inner ++ 125 :: t) = some inner.length) :
    scan (.inside start false) i 0 (123 :: (inner ++ 125 :: t)) =
      block start i (i + 1 + inner.length) (i + 2 + inner.length + semicolonTail t) ::
        scan .between (i + 2 + inner.length + semicolonTail t) 0 (t.drop (semicolonTail t)) := by
  have hdrop : (inner ++ 125 :: t).drop (inner.length + 1) = t := by
    rw [drop_append]
    simp
  have hskip := scan_skip .between (i + 1) (inner ++ 125 :: t.take (semicolonTail t))
    (t.drop (semicolonTail t))
  have hlen : (inner ++ 125 :: t.take (semicolonTail t)).length = inner.length + 1 + semicolonTail t := by
    simp only [length_append, length_cons, length_take, Nat.min_eq_left (semicolonTail_le t)]
    omega
  rw [foldl_pass_between, hlen, append_assoc, cons_append, take_append_drop] at hskip
  have hopen : Delimiter.ofOpener? 123 = some .brace := rfl
  conv => lhs; unfold scan
  simp only [hopen, hclose, Place.enter, hdrop, hskip]
  simp
  congr 1
  omega

theorem scan_pair {d : Delimiter} {inner : Text}
    (hclose : d.toCloser 0 (inner ++ d.closer :: t) = some inner.length)
    (hd : d = .brace → assigned = true) :
    scan (.inside start assigned) i 0 (d.opener :: (inner ++ d.closer :: t)) =
      scan (.inside start (assigned || inner.contains 61)) (i + (inner.length + 2)) 0 t := by
  have hcloser : (61 : UInt8) ≠ d.closer := by cases d <;> decide
  have hskip := scan_skip (.inside start assigned) (i + 1) (inner ++ [d.closer]) t
  rw [foldl_pass_inside] at hskip
  have hpasses : ¬ (d == .brace && !assigned) := by
    intro h
    simp only [Bool.and_eq_true, beq_iff_eq, Bool.not_eq_true'] at h
    rw [hd h.1] at h
    cases h.2
  conv => lhs; unfold scan
  simp only [Delimiter.ofOpener?_opener, hclose, Place.enter, hpasses]
  simp only [length_append, length_singleton, append_assoc, singleton_append]
    at hskip
  have hinside : (Place.inside start assigned == Place.between) = false := by simp
  simp only [hinside, Bool.false_and, Bool.false_eq_true, if_false, hskip]
  congr 1
  · rw [contains_append]
    simp [hcloser]
  · omega

variable {inner : Nest} (hinner : inner.Plain)
include hinner

theorem toCloser_inner (d : Delimiter) :
    d.toCloser 0 (inner.text ++ d.closer :: t) = some inner.text.length := by
  have hne : d.closer ≠ d.opener := by cases d <;> decide
  rw [Nest.toCloser_text d hinner, Delimiter.toCloser]
  simp [hne]

theorem scan_block : scan (.inside start false) i 0 (123 :: (inner.text ++ 125 :: t)) =
      block start i (i + 1 + inner.text.length) (i + 2 + inner.text.length + semicolonTail t) ::
        scan .between (i + 2 + inner.text.length + semicolonTail t) 0 (t.drop (semicolonTail t)) :=
  scan_enclosed start i t (toCloser_inner t hinner .brace)

end Inside

theorem scan_passes (ht : t.Plain) (hpasses : t.Passes assigned)
    (start i : Nat) (rest : Text) :
    scan (.inside start assigned) i 0 (t.text ++ rest) =
      scan (.inside start (assigned || t.text.contains 61)) (i + t.text.length) 0 rest := by
  induction t generalizing assigned i with
  | nil => simp
  | byte b t ih =>
    rw [Nest.text_byte, cons_append,
      scan_byte start i _ (Delimiter.ofOpener?_of_plain ht.1) hpasses.1, ih ht.2 hpasses.2,
      contains_cons, Bool.or_assoc, BEq.comm, length_cons]
    congr 1
    omega
  | pair d inner t _ ih =>
    have hopen : (61 == d.opener) = false := by cases d <;> rfl
    have hclose : (61 == d.closer) = false := by cases d <;> rfl
    rw [Nest.text_pair, cons_append, append_assoc, cons_append,
      scan_pair start i _ (toCloser_inner _ ht.1 _) hpasses.1, ih ht.2 hpasses.2]
    congr 1
    · rw [contains_cons, hopen, contains_append, contains_cons, hclose]
      simp [Bool.or_assoc]
    · simp
      omega

theorem scan_blanks (hz : z.all isBlank) (start i : Nat) (t : Text) :
    scan (.inside start false) i 0 (z ++ t) = scan (.inside start false) (i + z.length) 0 t := by
  induction z generalizing i with
  | nil => rfl
  | cons b z ih =>
    rw [all_cons, Bool.and_eq_true] at hz
    have hassign : (b == 61) = false := by
      rw [beq_eq_false_iff_ne]
      rintro rfl
      exact absurd hz.1 (by decide)
    have hsemi : b ≠ 59 := by
      rintro rfl
      exact absurd hz.1 (by decide)
    rw [cons_append, scan_byte start i _ (Delimiter.ofOpener?_of_plain (plain_of_isBlank hz.1))
      hsemi, hassign, Bool.or_false,
      ih hz.2, length_cons]
    congr 1
    omega

theorem scan_begin {t : Text} (h : ¬ t.all isBlank) (hhash : 35 ∉ t) (i : Nat) :
    scan .between i 0 t = scan (.inside (i + leadingBlanks t) false) i 0 t := by
  obtain ⟨b, r, ht, hb⟩ := exists_leading h
  have hne : b ≠ 35 := by
    rintro rfl
    exact hhash (by rw [ht]; simp)
  conv => lhs; rw [ht, scan_between all_takeWhile hb hne]
  conv => rhs; rw [ht, scan_blanks all_takeWhile]
  rw [← ht]
  rfl

/-- The item that a piece is, at its offset and with the `;` behind its block. -/
def ofPiece (p : Piece) (i tail : Nat) : Item :=
  let start := i + leadingBlanks p.head.text
  let stop := i + p.head.text.length
  match p.body? with
  | none => statement start stop
  | some body => block start stop (stop + 1 + body.text.length) (stop + 2 + body.text.length + tail)

/-- **The scan reads one piece after another.** -/
theorem scan_piece {p : Piece} (hproper : p.Proper false) (hhead : p.head.Plain)
    (hbody : ∀ b ∈ p.body?, b.Plain) (hhash : 35 ∉ p.text) (i : Nat) {rest : Text}
    (hhash' : 35 ∉ rest) :
    ∃ tail, scan .between i 0 (p.text ++ rest) =
        ofPiece p i tail :: scan .between (i + p.text.length + tail) 0 (rest.drop tail) ∧
      (tail = 0 ∨ ∃ z r, rest = z ++ 59 :: r ∧ z.all isBlank ∧ tail = z.length + 1) := by
  obtain ⟨head, body?⟩ := p
  obtain ⟨hpasses, hassigned⟩ := hproper
  have hbegin : ∀ {b : UInt8} {r : Text}, isBlank b = false → 35 ∉ head.text ++ b :: r →
      scan .between i 0 (head.text ++ b :: r) = scan
        (.inside (i + leadingBlanks head.text) (head.text.contains 61)) (i + head.text.length) 0
        (b :: r) := by
    intro b r hb hnone
    have hlead : leadingBlanks (head.text ++ b :: r) = leadingBlanks head.text := by
      unfold leadingBlanks
      rw [takeWhile_append_cons hb]
    rw [scan_begin (by simp [hb]) hnone, hlead, scan_passes hhead hpasses, Bool.false_or]
  cases body? with
  | none =>
    refine ⟨0, ?_, .inl rfl⟩
    simp only [Piece.text, Piece.ending, ofPiece, append_assoc, singleton_append] at hhash ⊢
    rw [hbegin rfl (by simp_all), scan_semicolon]
    simp [Nat.add_assoc]
  | some body =>
    have hnone : head.text.contains 61 = false := by simpa using (hassigned rfl).2
    refine ⟨semicolonTail rest, ?_, ?_⟩
    · simp only [Piece.text, Piece.ending, ofPiece, append_assoc, cons_append, nil_append] at hhash ⊢
      rw [hbegin rfl (by simp_all), hnone, scan_block _ _ _ (hbody body rfl)]
      congr 2
      simp
      omega
    · rcases semicolonTail_cases rest with h | h
      · exact .inr h
      · exact .inl h.2

theorem scan_rest (ht : t.Plain) (hpasses : t.Passes false) (hhash : 35 ∉ t.text) (i : Nat) :
    scan .between i 0 t.text = [] := by
  by_cases hblank : t.text.all isBlank
  · have hblanks : ∀ (z : Text) (i : Nat), z.all isBlank → scan .between i 0 z = [] := by
      intro z
      induction z with
      | nil => intro i _; rfl
      | cons b z ih =>
        intro i hz
        rw [all_cons, Bool.and_eq_true] at hz
        rw [scan_blank hz.1, ih _ hz.2]
    exact hblanks t.text i hblank
  · have := scan_passes ht hpasses (i + leadingBlanks t.text) i []
    rw [append_nil] at this
    rw [scan_begin hblank hhash, this]
    rfl

theorem exists_of_passes (hpasses : t.Passes assigned) {u r : Text}
    (hz : z.all isBlank) (h : t.text ++ u = z ++ 59 :: r) :
    ∃ z', z = t.text ++ z' ∧ u = z' ++ 59 :: r := by
  induction t generalizing assigned z with
  | nil => exact ⟨z, rfl, h⟩
  | byte b t ih =>
    cases z with
    | nil =>
      simp only [Nest.text_byte, cons_append, nil_append, cons.injEq] at h
      exact absurd h.1 hpasses.1
    | cons c z =>
      rw [all_cons, Bool.and_eq_true] at hz
      simp only [Nest.text_byte, cons_append, cons.injEq] at h
      obtain ⟨rfl, h⟩ := h
      obtain ⟨z', rfl, hu⟩ := ih hpasses.2 hz.2 h
      exact ⟨z', rfl, hu⟩
  | pair d inner t =>
    exfalso
    cases z with
    | nil =>
      simp only [Nest.text_pair, cons_append, nil_append, cons.injEq] at h
      cases d <;> exact absurd h.1 (by decide)
    | cons c z =>
      rw [all_cons, Bool.and_eq_true] at hz
      simp only [Nest.text_pair, cons_append, cons.injEq] at h
      rw [← h.1] at hz
      cases d <;> exact absurd hz.1 (by decide)

end Item

end GlslToMetal
