import GlslToMetal.Proofs.Text.Ascii
import GlslToMetal.Text.Delimiter

/-! Texts with paired delimiters. A text whose delimiters of all kinds are properly nested is the
text of a `Nest`: bytes that are no delimiters, and pairs of delimiters around further such texts.
Matching a delimiter, which counts one kind only, then finds the other delimiter of its pair. -/

namespace GlslToMetal

open List

variable {d : Delimiter} {t : Text} {b : UInt8}

namespace Delimiter

/-- A byte that neither opens nor closes anything. -/
def plain (b : UInt8) : Bool := (ofOpener? b).isNone && (ofCloser? b).isNone

@[simp] theorem ofOpener?_opener (d : Delimiter) : ofOpener? d.opener = some d := by
  cases d <;> rfl

@[simp] theorem ofCloser?_closer (d : Delimiter) : ofCloser? d.closer = some d := by
  cases d <;> rfl

theorem eq_opener_of_ofOpener? (h : ofOpener? b = some d) : b = d.opener := by
  unfold ofOpener? at h
  split at h
  · cases h
    simp_all [opener]
  · split at h
    · cases h
      simp_all [opener]
    · split at h
      · cases h
        simp_all [opener]
      · cases h

theorem eq_closer_of_ofCloser? (h : ofCloser? b = some d) : b = d.closer := by
  unfold ofCloser? at h
  split at h
  · cases h
    simp_all [closer]
  · split at h
    · cases h
      simp_all [closer]
    · split at h
      · cases h
        simp_all [closer]
      · cases h

theorem ofOpener?_of_plain (h : plain b) : ofOpener? b = none := by
  simp only [plain, Bool.and_eq_true, Option.isNone_iff_eq_none] at h
  exact h.1

theorem ofCloser?_of_plain (h : plain b) : ofCloser? b = none := by
  simp only [plain, Bool.and_eq_true, Option.isNone_iff_eq_none] at h
  exact h.2

theorem ne_opener_of_plain (h : plain b) (d : Delimiter) : b ≠ d.opener := by
  rintro rfl
  simpa using ofOpener?_of_plain h

theorem ne_closer_of_plain (h : plain b) (d : Delimiter) : b ≠ d.closer := by
  rintro rfl
  simpa using ofCloser?_of_plain h

end Delimiter

/-- The delimiters of a text are properly nested inside some open ones, given innermost first. -/
def Text.nestedIn : List Delimiter → Text → Bool
  | stack, [] => stack.isEmpty
  | stack, b :: rest =>
    match Delimiter.ofOpener? b with
    | some d => nestedIn (d :: stack) rest
    | none =>
      match Delimiter.ofCloser? b with
      | none => nestedIn stack rest
      | some d =>
        match stack with
        | [] => false
        | e :: stack => d == e && nestedIn stack rest

/-- The delimiters of a text are properly nested. -/
def Text.isNested (t : Text) : Bool := t.nestedIn []

/-- A text with paired delimiters: bytes, and pairs of delimiters with what they enclose. -/
inductive Nest where
  | nil
  | byte (b : UInt8) (rest : Nest)
  | pair (d : Delimiter) (inner rest : Nest)

namespace Nest

/-- The bytes of a nest. -/
def text : Nest → Text
  | nil => []
  | byte b rest => b :: rest.text
  | pair d inner rest => d.opener :: (inner.text ++ d.closer :: rest.text)

/-- The bytes outside the pairs are no delimiters. -/
def Plain : Nest → Prop
  | nil => True
  | byte b rest => Delimiter.plain b ∧ rest.Plain
  | pair _ inner rest => inner.Plain ∧ rest.Plain

/-- One nest behind another. -/
def append : Nest → Nest → Nest
  | nil, t => t
  | byte b rest, t => byte b (rest.append t)
  | pair d inner rest, t => pair d inner (rest.append t)

instance : Append Nest := ⟨append⟩

/-- A nest of single bytes. -/
def ofText : Text → Nest
  | [] => nil
  | b :: rest => byte b (ofText rest)

@[simp] theorem nil_append (t : Nest) : nil ++ t = t := rfl

@[simp] theorem byte_append (b : UInt8) (s t : Nest) : byte b s ++ t = byte b (s ++ t) := rfl

@[simp] theorem pair_append (d : Delimiter) (c s t : Nest) : pair d c s ++ t = pair d c (s ++ t) :=
  rfl

@[simp] theorem append_nil (t : Nest) : t ++ nil = t := by
  induction t with
  | nil => rfl
  | byte b rest ih => rw [byte_append, ih]
  | pair d inner rest _ ih => rw [pair_append, ih]

theorem append_assoc (s t u : Nest) : s ++ t ++ u = s ++ (t ++ u) := by
  induction s with
  | nil => rfl
  | byte b rest ih => simp only [byte_append, ih]
  | pair d inner rest _ ih => simp only [pair_append, ih]

@[simp] theorem text_nil : nil.text = [] := rfl

@[simp] theorem text_byte (b : UInt8) (rest : Nest) : (byte b rest).text = b :: rest.text := rfl

@[simp] theorem text_pair (d : Delimiter) (inner rest : Nest) :
    (pair d inner rest).text = d.opener :: (inner.text ++ d.closer :: rest.text) := rfl

theorem length_text_pair (d : Delimiter) (inner rest : Nest) :
    (pair d inner rest).text.length = inner.text.length + 2 + rest.text.length := by
  simp only [text_pair, List.length_cons, List.length_append]
  omega

@[simp] theorem text_append (s t : Nest) : (s ++ t).text = s.text ++ t.text := by
  induction s with
  | nil => rfl
  | byte b rest ih => simp [ih]
  | pair d inner rest _ ih => simp [ih]

@[simp] theorem text_ofText (t : Text) : (ofText t).text = t := by
  induction t with
  | nil => rfl
  | cons b rest ih => simp [ofText, ih]

theorem ofText_append (s t : Text) : ofText (s ++ t) = ofText s ++ ofText t := by
  induction s with
  | nil => rfl
  | cons b rest ih => simp [ofText, ih]

@[simp] theorem plain_append {s t : Nest} : (s ++ t).Plain ↔ s.Plain ∧ t.Plain := by
  induction s with
  | nil => simp [Plain]
  | byte b rest ih => simp [Plain, ih, and_assoc]
  | pair d inner rest _ ih => simp [Plain, ih, and_assoc]

theorem plain_ofText (h : ∀ b ∈ t, Delimiter.plain b) : (ofText t).Plain := by
  induction t with
  | nil => trivial
  | cons b rest ih =>
    exact ⟨h b mem_cons_self, ih fun c hc => h c (mem_cons_of_mem _ hc)⟩

/-- Looking for a closer passes over a nest. -/
theorem toCloser_text (d : Delimiter) {t : Nest} (ht : t.Plain) (depth : Nat) (rest : Text) :
    d.toCloser depth (t.text ++ rest) = (d.toCloser depth rest).map (· + t.text.length) := by
  induction t generalizing depth rest with
  | nil => simp
  | byte b t ih =>
    have hopen := Delimiter.ne_opener_of_plain ht.1 d
    have hclose := Delimiter.ne_closer_of_plain ht.1 d
    simp [Delimiter.toCloser, hopen, hclose, ih ht.2, Function.comp_def, Nat.add_assoc]
  | pair e inner t ihInner ih =>
    have hcross : ∀ depth, d.toCloser depth (e.opener :: (inner.text ++ e.closer :: (t.text ++ rest)))
        = (d.toCloser depth rest).map (· + (inner.text.length + t.text.length + 2)) := by
      intro depth
      by_cases hd : e = d
      · subst hd
        have hne : e.closer ≠ e.opener := by cases e <;> decide
        simp [Delimiter.toCloser, ihInner ht.1, hne, ih ht.2, Function.comp_def]
        congr
        funext n
        omega
      · have h1 : e.opener ≠ d.opener := by cases e <;> cases d <;> first | decide | exact absurd rfl hd
        have h2 : e.opener ≠ d.closer := by cases e <;> cases d <;> decide
        have h3 : e.closer ≠ d.opener := by cases e <;> cases d <;> decide
        have h4 : e.closer ≠ d.closer := by cases e <;> cases d <;> first | decide | exact absurd rfl hd
        simp [Delimiter.toCloser, ihInner ht.1, h1, h2, h3, h4, ih ht.2, Function.comp_def]
        congr
        funext n
        omega
    simp only [text_pair, List.cons_append, List.append_assoc, hcross]
    congr
    funext n
    simp
    omega

/-- The closers of some open delimiters, the innermost first, each with a nest behind it. -/
def closing : List Delimiter → List Nest → Text
  | d :: ds, n :: ns => d.closer :: (n.text ++ closing ds ns)
  | _, _ => []

/-- What remains of a properly nested text inside some open delimiters is a nest for each of them
and one more. -/
theorem exists_of_nestedIn {stack : List Delimiter} (h : t.nestedIn stack) :
    ∃ (n : Nest) (ns : List Nest), n.Plain ∧ (∀ m ∈ ns, m.Plain) ∧ ns.length = stack.length ∧
      t = n.text ++ closing stack ns := by
  induction t generalizing stack with
  | nil =>
    cases stack with
    | nil => exact ⟨nil, [], trivial, by simp, rfl, rfl⟩
    | cons d ds => simp [Text.nestedIn] at h
  | cons b rest ih =>
    unfold Text.nestedIn at h
    split at h
    · next d hopen =>
      obtain ⟨inner, ns, hinner, hns, hlen, hrest⟩ := ih h
      obtain ⟨n, ns, rfl⟩ := exists_cons_of_length_eq_add_one hlen
      refine ⟨pair d inner n, ns, ⟨hinner, hns n mem_cons_self⟩,
        fun m hm => hns m (mem_cons_of_mem _ hm), by simpa using hlen, ?_⟩
      rw [Delimiter.eq_opener_of_ofOpener? hopen, hrest]
      simp [closing]
    · next hopen =>
      split at h
      · next hclose =>
        obtain ⟨n, ns, hn, hns, hlen, hrest⟩ := ih h
        refine ⟨byte b n, ns, ⟨by simp [Delimiter.plain, hopen, hclose], hn⟩, hns, hlen, ?_⟩
        rw [hrest]
        simp
      · next d hclose =>
        cases stack with
        | nil => simp at h
        | cons e ds =>
          simp only [Bool.and_eq_true, beq_iff_eq] at h
          obtain ⟨rfl, h⟩ := h
          obtain ⟨n, ns, hn, hns, hlen, hrest⟩ := ih h
          refine ⟨nil, n :: ns, trivial, ?_, by simp [hlen], ?_⟩
          · intro m hm
            rcases mem_cons.mp hm with rfl | hm
            · exact hn
            · exact hns m hm
          · rw [Delimiter.eq_closer_of_ofCloser? hclose, hrest]
            simp [closing]

theorem exists_of_isNested (h : t.isNested) : ∃ n : Nest, n.Plain ∧ n.text = t := by
  obtain ⟨n, ns, hn, -, hlen, ht⟩ := exists_of_nestedIn h
  rw [length_eq_zero_iff.mp hlen] at ht
  exact ⟨n, hn, by simpa [closing] using ht.symm⟩

theorem matching?_pair {pre post : Text} (d : Delimiter) {inner : Nest} (h : inner.Plain) :
    (pre ++ d.opener :: (inner.text ++ d.closer :: post)).matching? pre.length
      = some (pre.length + 1 + inner.text.length) := by
  have hself : d.closer ≠ d.opener := by cases d <;> decide
  unfold Text.matching?
  simp [toCloser_text d h, Delimiter.toCloser, hself]

end Nest

end GlslToMetal
