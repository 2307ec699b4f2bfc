import GlslToMetal.Proofs.Signature.Layout

/-! The words of a parameter. Marks come first; of the other words, without the `&`s among them, the
last is the name and those before it are the type. So every byte that belongs to no mark and is no `&`
is found again in the parameter. -/

namespace GlslToMetal

open List Text

variable {r : Range} {t : Text}

/-- A word that may stand before the type of a parameter. -/
inductive Mark where
  | const
  | input
  | output
  | inOut
  | thread
  deriving DecidableEq, Repr

namespace Mark

def word : Mark → Text
  | const => "const"
  | input => "in"
  | output => "out"
  | inOut => "inout"
  | thread => "thread"

/-- How the mark says that the parameter is passed. -/
def qualifier? : Mark → Option Qualifier
  | const => none
  | input => some .input
  | output => some .output
  | inOut => some .inOut
  | thread => some .thread

theorem isWord (m : Mark) : m.word.IsWord := by
  apply isWordByte_of_isIdentifier
  cases m <;> decide

theorem takeQualifiers_cons (m : Mark) (rest : List Text) (q : Qualifier) (c : Bool) :
    Parameter.takeQualifiers q c (m.word :: rest) =
      Parameter.takeQualifiers (m.qualifier?.getD q) (c || m == const) rest := by
  cases m <;> cases c <;> rfl

theorem takeQualifiers_unmarked {rest : List Text}
    (hrest : ∀ w ∈ rest.head?, ∀ m : Mark, w ≠ m.word) (q : Qualifier)
    (c : Bool) : Parameter.takeQualifiers q c rest = (q, c, rest) := by
  cases rest with
  | nil => rfl
  | cons type rest =>
    have hne : ∀ m : Mark, (type == m.word) = false := fun m => beq_eq_false_iff_ne.mpr (hrest type rfl m)
    have hconst := hne .const
    have hinput := hne .input
    have houtput := hne .output
    have hinOut := hne .inOut
    have hthread := hne .thread
    simp only [word] at hconst hinput houtput hinOut hthread
    simp [Parameter.takeQualifiers, Parameter.qualifierWord?, hconst, hinput, houtput, hinOut, hthread]

/-- **The last of the marks before a type that says how the parameter is passed decides it.** -/
theorem takeQualifiers_append (marks : List Mark) {rest : List Text}
    (hrest : ∀ w ∈ rest.head?, ∀ m : Mark, w ≠ m.word) (q : Qualifier) (c : Bool) :
    Parameter.takeQualifiers q c (marks.map word ++ rest) =
      ((marks.filterMap qualifier?).getLast?.getD q, c || marks.contains const, rest) := by
  induction marks generalizing q c with
  | nil => rw [map_nil, nil_append, takeQualifiers_unmarked hrest, contains_nil, Bool.or_false]; rfl
  | cons m marks ih =>
    have hlast : ((m :: marks).filterMap qualifier?).getLast?.getD q =
        (marks.filterMap qualifier?).getLast?.getD (m.qualifier?.getD q) := by
      cases hq : m.qualifier? with
      | none => rw [filterMap_cons_none hq]; rfl
      | some q' => rw [filterMap_cons_some hq, getLast?_cons]; rfl
    rw [map_cons, cons_append, takeQualifiers_cons, ih, hlast, contains_cons, BEq.comm, Bool.or_assoc]

end Mark

theorem Text.strip_of_solid (hstart : StartsSolid t) (hend : EndsSolid t) : t.strip = t := by
  obtain ⟨b, hb, hblank⟩ := hstart
  obtain ⟨c, hc, hblank'⟩ := hend
  exact strip_eq_self_iff.mpr ⟨fun _ h => Option.mem_unique h hb ▸ hblank, fun _ h =>
    Option.mem_unique h hc ▸ hblank'⟩

theorem Text.unwords_cons_cons (v w : Text) (ws : List Text) :
    unwords (v :: w :: ws) = v ++ 32 :: unwords (w :: ws) := by
  simp [unwords, intercalate]

namespace Parameter

theorem declarator_of_not_mem {w : Text} (h : 91 ∉ w) : declarator w = (w, none) := by
  refine (declarator_cases w).resolve_right ?_
  rintro ⟨name, rest, rfl, -⟩
  exact h (mem_append_right _ mem_cons_self)

theorem declarator_append {name : Text} (h : 91 ∉ name) (rest : Text) :
    declarator (name ++ 91 :: rest) = (name, some (91 :: rest)) := by
  have hbracket : ∀ b ∈ name, (b != 91) = true := fun b hb => bne_iff_ne.2 fun heq => h (heq ▸ hb)
  have hname : (name ++ 91 :: rest).takeWhile (· != 91) = name := by
    rw [takeWhile_append_of_pos hbracket, takeWhile_cons_of_neg (by decide), append_nil]
  simp [declarator, hname]

theorem isSome_declarator_of_mem {w : Text} (h : 91 ∈ w) : (declarator w).2.isSome := by
  have hlength : (w.takeWhile (· != 91)).length ≠ w.length := by
    intro heq
    have hname := (List.takeWhile_prefix (· != 91)).eq_of_length heq
    simpa using takeWhile_eq_self_iff.1 hname 91 h
  simp [declarator, hlength]

theorem declared_concat {init : List Text} (hne : init ≠ []) (last : Text) :
    declared (init ++ [last]) = some (unwords init, declarator last) := by
  obtain ⟨a, init, rfl⟩ := exists_cons_of_ne_nil hne
  cases init with
  | nil => rfl
  | cons b init =>
    have hinit : ((a :: b :: init) ++ [last]).dropLast = a :: b :: init := dropLast_concat
    have hlast : ((a :: b :: init) ++ [last]).getLast (by simp) = last := getLast_concat
    simp only [cons_append] at hinit hlast
    simp only [cons_append, declared, hinit, hlast]

theorem ofWords?_eq_some {marks : List Mark} {rest : List Text}
    (hrest : ∀ w ∈ rest.head?, ∀ m : Mark, w ≠ m.word)
    {r : Range} {q : Parameter} :
    ofWords? (marks.map Mark.word ++ rest) r = some q ↔ marks.map Mark.word ++ rest ≠ [("void" : Text)] ∧
      declared (rest.filter (· != ("&" : Text))) = some (q.type, q.name, q.arraySuffix) ∧
      q.qualifier = (marks.filterMap Mark.qualifier?).getLast?.getD .unmarked ∧
      q.isConst = marks.contains .const ∧ q.isReference = rest.contains ("&" : Text) ∧ q.range = r := by
  obtain ⟨type, qualifier, name, isConst, isReference, suffix, range⟩ := q
  unfold ofWords?
  rw [Mark.takeQualifiers_append marks hrest]
  dsimp only
  constructor
  · intro h
    split at h
    · cases h
    · next hvoid =>
      obtain ⟨⟨t, n, s⟩, hdeclared, h⟩ := Option.bind_eq_some_iff.1 h
      cases h
      exact ⟨by simpa using hvoid, hdeclared, rfl, by simp, rfl, rfl⟩
  · rintro ⟨hvoid, hdeclared, rfl, rfl, rfl, rfl⟩
    rw [if_neg (by simpa using hvoid), hdeclared]
    simp

end Parameter

/-- The words of a parameter: marks, a type, an `&` or none, and a name with the brackets of an array
behind it or not. -/
structure PlainWords where
  marks : List Mark
  type : Text
  isReference : Bool
  name : Text
  /-- What stands between the first bracket and the last. -/
  size? : Option Text
  type_ne_word : ∀ m : Mark, type ≠ m.word
  isIdentifier_name : name.isIdentifier
  no_reference : 38 ∉ type ∧ ∀ size ∈ size?, 38 ∉ size

namespace PlainWords

variable (w : PlainWords)

def arraySuffix : Option Text := w.size?.map fun size => 91 :: (size ++ [93])

def last : Text := w.name ++ w.arraySuffix.getD []

def words : List Text :=
  w.marks.map Mark.word ++ w.type :: ((if w.isReference then [("&" : Text)] else []) ++ [w.last])

/-- What is read of the words. -/
def read (r : Range) : Parameter where
  type := w.type
  qualifier := (w.marks.filterMap Mark.qualifier?).getLast?.getD .unmarked
  name := w.name
  isConst := w.marks.contains .const
  isReference := w.isReference
  arraySuffix := w.arraySuffix
  range := r

theorem isWord_name : w.name.IsWord := isWordByte_of_isIdentifier w.isIdentifier_name

theorem not_mem_last : 38 ∉ w.last := by
  have hname : 38 ∉ w.name := w.isWord_name.not_mem rfl
  have hsize := w.no_reference.2
  unfold last arraySuffix
  cases hw : w.size? with
  | none => simpa using hname
  | some size => simp [hname, hsize size hw]

theorem declarator_last : Parameter.declarator w.last = (w.name, w.arraySuffix) := by
  have hname : 91 ∉ w.name := w.isWord_name.not_mem rfl
  unfold last arraySuffix
  cases w.size? with
  | none => simpa using Parameter.declarator_of_not_mem hname
  | some size => exact Parameter.declarator_append hname (size ++ [93])

theorem ofText?_eq (h : (Parameter.spaceReferences t).words = w.words) :
    Parameter.ofText? t r = some (w.read r) := by
  have htype : w.type ≠ ("&" : Text) := fun h => w.no_reference.1 (h ▸ mem_singleton_self _)
  have hlast : w.last ≠ ("&" : Text) := fun h => w.not_mem_last (h ▸ mem_singleton_self _)
  have hdeclared := Parameter.declared_concat (cons_ne_nil w.type []) w.last
  rw [declarator_last, unwords, intercalate_singleton] at hdeclared
  unfold Parameter.ofText?
  rw [h, words]
  refine (Parameter.ofWords?_eq_some ?_).2 ⟨fun h => ?_, ?_, rfl, rfl, ?_, rfl⟩
  · rintro _ ⟨⟩
    exact w.type_ne_word
  · have hlength := congrArg length h
    simp only [length_append, length_cons, length_nil] at hlength
    omega
  · refine (congrArg Parameter.declared ?_).trans hdeclared
    cases w.isReference <;> simp [htype, hlast]
  · unfold read
    cases w.isReference <;> simp [htype.symm, hlast.symm]

end PlainWords

end GlslToMetal
