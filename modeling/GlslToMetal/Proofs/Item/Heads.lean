import GlslToMetal.Proofs.Item.Laid
import GlslToMetal.Signature

/-! The headers of a masked text, without their offsets. A reader keeps the text of the item that is
open instead of the offset at which it began, so what it gives for the rest of a text does not depend on
where that rest stands: two readers that remember similar texts give similar headers. -/

namespace GlslToMetal

open Text

variable {ρ ρ' : Reader} {t : Text} {b : UInt8}

namespace Item

/-- What is read of an item: a preprocessor line, or the header of a block or of a statement without
`=`. -/
inductive Head where
  | line (t : Text)
  | header (t : Text) (isBlock : Bool)
  deriving DecidableEq, Repr

/-- What is read of an item of a masked text. Nothing is read of what is not terminated. -/
def head? (m : Text) : Item → Option Head
  | directive r => some (.line (m.cut r))
  | statement start semicolon =>
    if (m.cut ⟨start, semicolon⟩).contains 61 then none
    else some (.header (m.cut ⟨start, semicolon⟩) false)
  | block start opened _ _ => some (.header (m.cut ⟨start, opened⟩) true)
  | unterminated .. => none

/-- What a reader remembers: the text of the open item, up to the brace of its body. -/
inductive Reader where
  | between
  | line (t : Text)
  | inside (head : Text)
  | nested (head : Text) (d : Delimiter) (depth : Nat)
  | body (head : Text) (depth : Nat)
  | closed
  deriving DecidableEq, Repr

namespace Reader

/-- A byte is read in an item. -/
def enter (head : Text) (b : UInt8) : Reader :=
  match Delimiter.ofOpener? b with
  | some d => if d == .brace && !head.contains 61 then body head 0 else nested (head ++ [b]) d 0
  | none => if b == 59 then between else inside (head ++ [b])

/-- A byte is read between items. -/
def begin (b : UInt8) : Reader :=
  if isBlank b then between else if b == 35 then line [b] else enter [] b

/-- A byte is read. -/
def step (b : UInt8) : Reader → Reader
  | between => begin b
  | line t => if b == newline && t.getLast? != some 92 then between else line (t ++ [b])
  | inside head => enter head b
  | nested head d depth =>
    if b == d.opener then nested (head ++ [b]) d (depth + 1)
    else if b == d.closer then
      match depth with
      | 0 => inside (head ++ [b])
      | depth + 1 => nested (head ++ [b]) d depth
    else nested (head ++ [b]) d depth
  | body head depth =>
    if b == 123 then body head (depth + 1)
    else if b == 125 then
      match depth with
      | 0 => closed
      | depth + 1 => body head depth
    else body head depth
  | closed => if isBlank b then closed else if b == 59 then between else begin b

/-- The item that a byte completes. -/
def emit (b : UInt8) : Reader → List (Option Head)
  | between => if b == 59 then [some (.header [] false)] else []
  | line t => if b == newline && t.getLast? != some 92 then [some (.line t)] else []
  | inside head =>
    if b == 59 then [if head.contains 61 then none else some (.header head false)] else []
  | nested .. => []
  | body head depth => if b == 125 && depth == 0 then [some (.header head true)] else []
  | closed => []

/-- The item that the end of the text completes. -/
def finish : Reader → List (Option Head)
  | line t => [some (.line t)]
  | nested .. => [none]
  | body .. => [none]
  | _ => []

/-- The reader behind a text. -/
def read (ρ : Reader) : Text → Reader
  | [] => ρ
  | b :: t => (ρ.step b).read t

/-- The items that a text completes. -/
def emitted (ρ : Reader) : Text → List (Option Head)
  | [] => []
  | b :: t => ρ.emit b ++ (ρ.step b).emitted t

theorem read_append (ρ : Reader) (s t : Text) : ρ.read (s ++ t) = (ρ.read s).read t := by
  induction s generalizing ρ with
  | nil => rfl
  | cons b s ih => exact ih (ρ.step b)

theorem emitted_append (ρ : Reader) (s t : Text) :
    ρ.emitted (s ++ t) = ρ.emitted s ++ (ρ.read s).emitted t := by
  induction s generalizing ρ with
  | nil => rfl
  | cons b s ih => rw [List.cons_append, emitted, ih, emitted, read, List.append_assoc]

/-- The items that a text and its end complete. -/
def heads (ρ : Reader) (t : Text) : List (Option Head) := ρ.emitted t ++ (ρ.read t).finish

theorem heads_append (ρ : Reader) (s t : Text) : ρ.heads (s ++ t) = ρ.emitted s ++ (ρ.read s).heads t := by
  rw [heads, heads, emitted_append, read_append, List.append_assoc]

/-- The text of the header that is being read. -/
def open? : Reader → Option Text
  | inside head => some head
  | nested head .. => some head
  | _ => none

/-- No item is open: the next byte that is no blank begins one. -/
def isRest : Reader → Bool
  | between => true
  | closed => true
  | _ => false

/-- An item is open that the end of the text does not complete. -/
def isOpen : Reader → Bool
  | inside .. => true
  | nested .. => true
  | body .. => true
  | _ => false

/-- The readers remember the texts `a ++ w` and `b ++ w`, and are otherwise alike. -/
inductive Alike (a b : Text) : Reader → Reader → Prop where
  | line (w : Text) : Alike a b (line (a ++ w)) (line (b ++ w))
  | inside (w : Text) : Alike a b (inside (a ++ w)) (inside (b ++ w))
  | nested (w : Text) (d : Delimiter) (depth : Nat) :
    Alike a b (nested (a ++ w) d depth) (nested (b ++ w) d depth)
  | body (w : Text) (depth : Nat) : Alike a b (body (a ++ w) depth) (body (b ++ w) depth)

/-- What is read has the texts `a ++ w` and `b ++ w`, and is otherwise alike. -/
inductive AlikeHead (a b : Text) : Option Head → Option Head → Prop where
  | none : AlikeHead a b none none
  | line (w : Text) : AlikeHead a b (some (.line (a ++ w))) (some (.line (b ++ w)))
  | header (w : Text) (isBlock : Bool) :
    AlikeHead a b (some (.header (a ++ w) isBlock)) (some (.header (b ++ w) isBlock))

section Alike

variable {a b : Text} (hassign : a.contains 61 = b.contains 61) (ha : a.getLast? ≠ some 92)
  (hb : b.getLast? ≠ some 92)
include hassign

theorem contains_alike (w : Text) : (a ++ w).contains 61 = (b ++ w).contains 61 := by
  rw [List.contains_append, List.contains_append, hassign]

omit hassign in
theorem concat_alike (w : Text) (c : UInt8) : a ++ w ++ [c] = a ++ (w ++ [c]) := List.append_assoc ..

/-- What a byte does to two readers of an item: they stay alike, or the item is completed. -/
def StepsAlike (a b : Text) (c : UInt8) (ρ ρ' : Reader) : Prop :=
  (Alike a b (ρ.step c) (ρ'.step c) ∧ ρ.emit c = [] ∧ ρ'.emit c = []) ∨
    (ρ.step c = ρ'.step c ∧ ∃ x x', ρ.emit c = [x] ∧ ρ'.emit c = [x'] ∧ AlikeHead a b x x')

theorem stepsAlike_inside (c : UInt8) (w : Text) : StepsAlike a b c (inside (a ++ w)) (inside (b ++ w)) := by
  have hcontains := contains_alike hassign w
  unfold StepsAlike
  simp only [step, emit, enter, hcontains, concat_alike]
  cases hopen : Delimiter.ofOpener? c with
  | some d =>
    have hsemi : (c == 59) = false := by
      rw [beq_eq_false_iff_ne]
      rintro rfl
      cases hopen
    rw [hsemi]
    dsimp only
    split
    · exact .inl ⟨.body w 0, rfl, rfl⟩
    · exact .inl ⟨.nested (w ++ [c]) d 0, rfl, rfl⟩
  | none =>
    dsimp only
    split
    · refine .inr ⟨rfl, _, _, rfl, rfl, ?_⟩
      split
      · exact .none
      · exact .header w false
    · exact .inl ⟨.inside (w ++ [c]), rfl, rfl⟩

omit hassign in
theorem stepsAlike_nested (c : UInt8) (w : Text) (d : Delimiter) (depth : Nat) :
    StepsAlike a b c (nested (a ++ w) d depth) (nested (b ++ w) d depth) := by
  refine .inl ⟨?_, rfl, rfl⟩
  simp only [step, concat_alike]
  split
  · exact .nested (w ++ [c]) d (depth + 1)
  · split
    · cases depth with
      | zero => exact .inside (w ++ [c])
      | succ depth => exact .nested (w ++ [c]) d depth
    · exact .nested (w ++ [c]) d depth

omit hassign in
theorem stepsAlike_body (c : UInt8) (w : Text) (depth : Nat) :
    StepsAlike a b c (body (a ++ w) depth) (body (b ++ w) depth) := by
  unfold StepsAlike
  simp only [step, emit]
  by_cases hopen : c = 123
  · subst hopen
    exact .inl ⟨.body w (depth + 1), rfl, rfl⟩
  · by_cases hclose : c = 125
    · subst hclose
      cases depth with
      | zero => exact .inr ⟨rfl, _, _, rfl, rfl, .header w true⟩
      | succ depth => exact .inl ⟨.body w depth, rfl, rfl⟩
    · rw [beq_false_of_ne hopen, beq_false_of_ne hclose]
      exact .inl ⟨.body w depth, rfl, rfl⟩

include ha hb in
omit hassign in
theorem stepsAlike_line (c : UInt8) (w : Text) : StepsAlike a b c (line (a ++ w)) (line (b ++ w)) := by
  have hlast : ((a ++ w).getLast? != some 92) = ((b ++ w).getLast? != some 92) := by
    rw [List.getLast?_append, List.getLast?_append]
    cases w.getLast? with
    | some c => rfl
    | none => simpa using (bne_iff_ne.mpr ha).trans (bne_iff_ne.mpr hb).symm
  unfold StepsAlike
  simp only [step, emit, hlast, concat_alike]
  split
  · exact .inr ⟨rfl, _, _, rfl, rfl, .line w⟩
  · exact .inl ⟨.line (w ++ [c]), rfl, rfl⟩

include ha hb

theorem Alike.step (h : Alike a b ρ ρ') (c : UInt8) : StepsAlike a b c ρ ρ' := by
  cases h with
  | line w => exact stepsAlike_line ha hb c w
  | inside w => exact stepsAlike_inside hassign c w
  | nested w d depth => exact stepsAlike_nested c w d depth
  | body w depth => exact stepsAlike_body c w depth

/-- **Readers that are alike read the same behind their items.** -/
theorem Alike.heads (h : Alike a b ρ ρ') (t : Text) : (ρ.heads t = [] ∧ ρ'.heads t = []) ∨
      ∃ x x' rest, ρ.heads t = x :: rest ∧ ρ'.heads t = x' :: rest ∧ AlikeHead a b x x' := by
  induction t generalizing ρ ρ' with
  | nil =>
    cases h with
    | line w => exact .inr ⟨_, _, [], rfl, rfl, .line w⟩
    | inside w => exact .inl ⟨rfl, rfl⟩
    | nested w d depth => exact .inr ⟨_, _, [], rfl, rfl, .none⟩
    | body w depth => exact .inr ⟨_, _, [], rfl, rfl, .none⟩
  | cons c t ih =>
    have hcons : ∀ σ : Reader, σ.heads (c :: t) = σ.emit c ++ (σ.step c).heads t := fun σ =>
      (heads_append σ [c] t).trans (by rw [emitted, emitted, List.append_nil]; rfl)
    rw [hcons, hcons]
    rcases h.step hassign ha hb c with ⟨hstep, hemit, hemit'⟩ | ⟨hstep, x, x', hemit, hemit', hhead⟩
    · rw [hemit, hemit']
      exact ih hstep
    · rw [hemit, hemit', hstep]
      exact .inr ⟨x, x', _, rfl, rfl, hhead⟩

theorem Alike.isOpen (h : Alike a b ρ ρ') (t : Text) : (ρ.read t).isOpen = (ρ'.read t).isOpen := by
  induction t generalizing ρ ρ' with
  | nil => cases h <;> rfl
  | cons c t ih =>
    rcases h.step hassign ha hb c with ⟨hstep, -⟩ | ⟨hstep, -⟩
    · exact ih hstep
    · rw [read, read, hstep]

end Alike

end Reader

end Item

namespace Text

open Item

/-- What is read of the items of a masked text. -/
def heads (m : Text) : List (Option Head) := m.items.map (head? m)

end Text

end GlslToMetal
