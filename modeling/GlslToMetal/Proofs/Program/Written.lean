import GlslToMetal.Proofs.Item.Reading
import GlslToMetal.Proofs.Parameter
import GlslToMetal.Proofs.Parameter.Rendering

/-! Functions as they are written, one on a line, and what is read of them. A parameter is written as
marks, a type and a name, with the size of an array behind the name; a definition has a body between
braces, which may be any text that leaves no brace open and holds no comment. Reading the lines gives
the functions back: the header of each is a text of its own, and the scan passes over the body to the
brace that closes it. -/

namespace GlslToMetal

open List Text

variable {i : Nat} {body : String} {before m rest source t : Text} {b : UInt8}

/-- A parameter as it is written. -/
structure WrittenParameter where
  marks : List Mark
  type : Text
  name : Text
  /-- The digits between the brackets behind the name of an array. -/
  size? : Option Text
  isIdentifier_type : type.isIdentifier
  type_ne_word : ∀ m : Mark, type ≠ m.word
  isIdentifier_name : name.isIdentifier
  all_isDigit : ∀ size ∈ size?, size.all isDigit

namespace WrittenParameter

variable (p : WrittenParameter)

def arraySuffix : Option Text := p.size?.map fun size => 91 :: (size ++ [93])

/-- The marks and the type, each with a space behind it. -/
def front : Text := p.marks.flatMap (fun m => m.word ++ [32]) ++ (p.type ++ [32])

/-- The name, with the size of an array. -/
def last : Text := p.name ++ p.arraySuffix.getD []

def text : Text := p.front ++ p.last

/-- The last mark that says how the parameter is passed decides it. -/
def qualifier : Qualifier := (p.marks.filterMap Mark.qualifier?).getLast?.getD .unmarked

/-- What is to be read of the parameter, but for its place. -/
def read : Parameter where
  type := p.type
  qualifier := p.qualifier
  name := p.name
  isConst := p.marks.contains .const
  isReference := false
  arraySuffix := p.arraySuffix
  range := ⟨0, 0⟩

/-- The colour that an entry point writes. -/
def isColor : Bool :=
  (p.type == ("vec4" : Text) || p.type == ("float4" : Text)) &&
    (p.qualifier == .output || p.qualifier == .inOut) && p.size?.isNone

/-- The coordinate that an entry point reads. -/
def isCoord : Bool :=
  (p.type == ("vec2" : Text) || p.type == ("float2" : Text)) &&
    (p.qualifier == .input || p.qualifier == .unmarked) && p.size?.isNone

theorem isColorOutput_read : Signature.isColorOutput p.read = p.isColor := by
  have hname : p.name.isEmpty = false :=
    isEmpty_eq_false_iff.mpr (isWordByte_of_isIdentifier p.isIdentifier_name).1
  simp [Signature.isColorOutput, read, isColor, arraySuffix, hname]

theorem isCoordInput_read : Signature.isCoordInput p.read = p.isCoord := by
  have hname : p.name.isEmpty = false :=
    isEmpty_eq_false_iff.mpr (isWordByte_of_isIdentifier p.isIdentifier_name).1
  simp [Signature.isCoordInput, read, isCoord, arraySuffix, hname]

theorem isWord_type : p.type.IsWord := isWordByte_of_isIdentifier p.isIdentifier_type

theorem isWord_name : p.name.IsWord := isWordByte_of_isIdentifier p.isIdentifier_name

theorem mem_front (h : b ∈ p.front) : isWordByte b ∨ b = 32 := by
  simp only [front, mem_append, mem_flatMap, mem_cons, not_mem_nil, or_false] at h
  rcases h with ⟨m, -, h | h⟩ | h | h
  · exact .inl (m.isWord.2 b h)
  · exact .inr h
  · exact .inl (p.isWord_type.2 b h)
  · exact .inr h

theorem isWordByte_size {size : Text} (hsize : size ∈ p.size?) (h : b ∈ size) : isWordByte b := by
  have hdigit := all_eq_true.mp (p.all_isDigit size hsize) b h
  simp [isWordByte, hdigit]

theorem mem_last (h : b ∈ p.last) : isWordByte b ∨ b = 91 ∨ b = 93 := by
  rcases mem_append.mp h with h | h
  · exact .inl (p.isWord_name.2 b h)
  · unfold arraySuffix at h
    cases hsize : p.size? with
    | none =>
      rw [hsize] at h
      cases h
    | some size =>
      rw [hsize] at h
      simp only [Option.map_some, Option.getD_some, mem_cons, mem_append, not_mem_nil, or_false] at h
      rcases h with h | h | h
      · exact .inr (.inl h)
      · exact .inl (p.isWordByte_size hsize h)
      · exact .inr (.inr h)

/-- The bytes of a parameter: those of words, blanks and brackets. -/
theorem mem_text (h : b ∈ p.text) : isWordByte b ∨ b ∈ ([32, 91, 93] : Text) := by
  rcases mem_append.mp h with h | h
  · exact (p.mem_front h).imp_right fun h => by rw [h]; decide
  · rcases p.mem_last h with h | rfl | rfl
    · exact .inl h
    · exact .inr (by decide)
    · exact .inr (by decide)

theorem solid_last : Solid p.last := by
  have hbyte : ∀ b ∈ p.last, (b < 128 ∧ b ≠ 11) ∧ isBlank b = false ∧ b ≠ 47 := by
    intro b hb
    rcases p.mem_last hb with h | rfl | rfl
    · exact ⟨isCode_of_isWordByte h, isBlank_of_isWordByte h, by rintro rfl; cases h⟩
    · decide
    · decide
  exact ⟨append_ne_nil_of_left_ne_nil p.isWord_name.1 _, fun b hb => (hbyte b hb).1,
    bare_of_not_mem fun hb => (hbyte _ hb).2.2 rfl, fun b hb => (hbyte b hb).2.1⟩

/-- Nothing in a parameter ends it: the brackets of an array are closed, and there is no comma. -/
theorem weight_text : 44 ∉ p.text ∧ weight p.text = 0 := by
  refine ⟨fun h => ?_, ?_⟩
  · rcases p.mem_text h with h | h <;> cases h
    all_goals contradiction
  have hfront : weight p.front = 0 := weight_of_plain fun b hb => by
    rcases p.mem_front hb with h | rfl
    · exact plain_of_isWordByte h
    · rfl
  have hname : weight p.name = 0 := weight_of_plain fun b hb => plain_of_isWordByte (p.isWord_name.2 b hb)
  unfold text last arraySuffix
  cases hsize : p.size? with
  | none => simp [hfront, hname]
  | some size =>
    have hdigits : weight size = 0 := weight_of_plain fun b hb =>
      plain_of_isWordByte (p.isWordByte_size hsize hb)
    simp [hfront, hname, hdigits, byteWeight, Delimiter.ofOpener?, Delimiter.ofCloser?]

/-- The words of the parameter. -/
def plain : PlainWords where
  marks := p.marks
  type := p.type
  name := p.name
  size? := p.size?
  isReference := false
  type_ne_word := p.type_ne_word
  isIdentifier_name := p.isIdentifier_name
  no_reference := ⟨p.isWord_type.not_mem rfl, fun _ hsize hb =>
    absurd (p.isWordByte_size hsize hb) (by decide)⟩

/-- **What is read of a parameter is what was written.** -/
theorem renders_text : Parameter.Renders p.text p.read := by
  have htext : p.text = p.plain.text := by
    simp [text, front, PlainWords.text, plain, last, PlainWords.last, arraySuffix,
    PlainWords.arraySuffix]
  rw [htext]
  exact PlainWords.renders p.isWord_type.solid p.solid_last

end WrittenParameter

theorem Text.mem_of_mem_intercalate {xs : List Text} (h : b ∈ t.intercalate xs) :
    b ∈ t ∨ ∃ x ∈ xs, b ∈ x := by
  induction xs with
  | nil => cases h
  | cons x xs ih =>
    cases xs with
    | nil => exact .inr ⟨x, mem_singleton_self x, by simpa using h⟩
    | cons y ys =>
      rw [intercalate_cons_cons, mem_append, mem_append] at h
      rcases h with (h | h) | h
      · exact .inr ⟨x, mem_cons_self, h⟩
      · exact .inl h
      · obtain h | ⟨z, hz, h⟩ := ih h
        · exact .inl h
        · exact .inr ⟨z, mem_cons_of_mem _ hz, h⟩

/-- Texts without commas whose delimiters balance are found again between the commas. -/
theorem Text.stretches_intercalate_of_not_mem {x z : Text} {xs : List Text} (hz : 44 ∉ z ∧ weight z = 0)
    (hx : 44 ∉ x ∧ weight x = 0) (hxs : ∀ x ∈ xs, 44 ∉ x ∧ weight x = 0) :
    stretches 0 ((44 :: z).intercalate (x :: xs)) = x :: xs.map (z ++ ·) := by
  induction xs generalizing x with
  | nil => rw [intercalate_singleton, stretches_eq_singleton hx.1, map_nil]
  | cons y ys ih =>
    obtain ⟨hy, hys⟩ := forall_mem_cons.mp hxs
    have hjoin : (44 :: z).intercalate (x :: y :: ys) =
        x ++ 44 :: (44 :: z).intercalate ((z ++ y) :: ys) := by
      cases ys <;> simp [intercalate]
    have hfirst : 44 ∉ z ++ y ∧ weight (z ++ y) = 0 := by simp [hz, hy]
    rw [hjoin, stretches_append_of_not_mem hx.1, hx.2, Int.add_zero, stretches, if_pos (by decide),
      ih hfirst hys, glue,
      append_nil, map_cons]

/-- **The parameters of a list are those that were written.** -/
theorem WrittenParameter.declaredFrom_list (i : Nat) (ps : List WrittenParameter) :
    (Parameter.declaredFrom i (stretches 0 (([44, 32] : Text).intercalate (ps.map text)))).map
      Parameter.bare =
      ps.map read := by
  have hread : (Parameter.ofText? · ⟨0, 0⟩) ∘ text = some ∘ read := funext fun p => p.renders_text.reads _
  have hstrip : ∀ p : WrittenParameter, p.text.strip = p.text := fun p =>
    strip_of_solid p.renders_text.first p.renders_text.last
  have hspace : ∀ p : WrittenParameter, strip (32 :: p.text) = p.text := fun p => by
    have hsame := strip_surround (a := [32]) (z := []) rfl p.text rfl
    rw [append_nil] at hsame
    exact hsame.trans (hstrip p)
  rw [Parameter.map_bare_declaredFrom]
  cases ps with
  | nil => rfl
  | cons p ps =>
    have htexts : (p.text :: (ps.map text).map ([32] ++ ·)).map strip = (p :: ps).map text := by
      simp [Function.comp_def, hstrip, hspace]
    rw [map_cons, stretches_intercalate_of_not_mem (by decide) p.weight_text
      (forall_mem_map.mpr fun q _ => q.weight_text),
      htexts, filterMap_map, hread, filterMap_eq_map]

open Item

/-- A body may stand between braces: it holds no comment and its braces are balanced. -/
structure Text.IsBody (t : Text) : Prop where
  line : ¬ [47, 47] <:+: t
  block : ¬ [47, 42] <:+: t
  balanced : State.bracesBehind? 0 t = some 0

theorem Text.IsBody.bare (h : t.IsBody) : Bare t := by
  refine isChain_iff_forall_rel_of_append_cons_cons.mpr ?_
  rintro a b l r rfl rfl
  exact ⟨fun hb => h.line ⟨l, r, by simp [hb]⟩, fun hb => h.block ⟨l, r, by simp [hb]⟩⟩

/-- A function as it is written: a definition if it has a body, and a prototype if not. -/
structure WrittenFunction where
  returnType : Text
  name : Text
  params : List WrittenParameter
  body? : Option String
  isIdentifier_returnType : returnType.isIdentifier
  returnType_not_mem : returnType ∉ Signature.nonTypeWords
  isIdentifier_name : name.isIdentifier
  name_not_mem : name ∉ Signature.nonTypeWords
  isBody : ∀ body ∈ body?, (body : Text).IsBody

namespace WrittenFunction

variable (f : WrittenFunction)

/-- What stands before the parameters. -/
def lead : Text := f.returnType ++ 32 :: f.name

/-- What stands before the `;` of a prototype or the brace of a definition. -/
def header : Text :=
  f.lead ++ 40 :: (([44, 32] : Text).intercalate (f.params.map WrittenParameter.text) ++
    41 :: if f.body?.isSome then [32] else [])

/-- The function on a line. -/
def line : Text :=
  f.header ++ match f.body? with
    | none => (";\n" : Text)
    | some body => ("\x7b " : Text) ++ (body : Text) ++ (" \x7d\n" : Text)

/-- The functions, one on a line. -/
def program (fs : List WrittenFunction) : Text := fs.flatMap line

/-- The functions with the offsets of their lines. -/
def located (i : Nat) : List WrittenFunction → List (Nat × WrittenFunction)
  | [] => []
  | f :: fs => (i, f) :: located (i + f.line.length) fs

/-- The function is read in `source` from the line at offset `i`. -/
structure ReadAs (source : Text) (i : Nat) (f : WrittenFunction) (g : Signature) : Prop where
  name : g.name = f.name
  returnType : g.returnType = f.returnType
  params : g.params.map Parameter.bare = f.params.map WrittenParameter.read
  range : g.range = ⟨i, i + f.line.length - 1⟩
  body? : g.body? = f.body?.map fun _ => ⟨i + f.header.length + 1, i + f.line.length - 2⟩
  body : ∀ r ∈ g.body?, ∀ body ∈ f.body?, source.slice r = .ok ((" " : Text) ++ (body : Text) ++ (" " : Text))

theorem isWord_returnType : f.returnType.IsWord := isWordByte_of_isIdentifier f.isIdentifier_returnType

theorem isWord_name : f.name.IsWord := isWordByte_of_isIdentifier f.isIdentifier_name

theorem mem_lead (h : b ∈ f.lead) : isWordByte b ∨ b = 32 := by
  rcases mem_append.mp h with h | h
  · exact .inl (f.isWord_returnType.2 b h)
  · rcases mem_cons.mp h with h | h
    · exact .inr h
    · exact .inl (f.isWord_name.2 b h)

theorem not_mem_lead (hb : isWordByte b = false) (hne : b ≠ 32) : b ∉ f.lead := by
  intro h
  rcases f.mem_lead h with hword | h
  · rw [hword] at hb
    cases hb
  · exact hne h

/-- What stands between the parentheses. -/
def list : Text := ([44, 32] : Text).intercalate (f.params.map WrittenParameter.text)

/-- What stands behind them. -/
def behind : Text := if f.body?.isSome then [32] else []

theorem mem_list (h : b ∈ f.list) : isWordByte b ∨ b ∈ ([32, 44, 91, 93] : Text) := by
  rcases mem_of_mem_intercalate h with h | ⟨x, hx, h⟩
  · exact .inr (subset_def.mp (by decide) h)
  · obtain ⟨p, -, rfl⟩ := mem_map.mp hx
    exact (p.mem_text h).imp_right (subset_def.mp (by decide))

theorem mem_behind (h : b ∈ f.behind) : b = 32 := by
  unfold behind at h
  split at h
  · exact mem_singleton.mp h
  · cases h

/-- The bytes of a header: those of words, blanks, commas and brackets of two kinds. -/
theorem mem_header (h : b ∈ f.header) : isWordByte b ∨ b ∈ ([32, 40, 41, 44, 91, 93] : Text) := by
  replace h : b ∈ f.lead ++ 40 :: (f.list ++ 41 :: f.behind) := h
  simp only [mem_append, mem_cons] at h
  rcases h with h | rfl | h | rfl | h
  · exact (f.mem_lead h).imp_right fun h => by rw [h]; decide
  · exact .inr (by decide)
  · exact (f.mem_list h).imp_right (subset_def.mp (by decide))
  · exact .inr (by decide)
  · rw [f.mem_behind h]
    exact .inr (by decide)

theorem not_mem_header (hb : isWordByte b = false) (hne : b ∉ ([32, 40, 41, 44, 91, 93] : Text)) :
    b ∉ f.header := by
  intro h
  rcases f.mem_header h with hword | h
  · rw [hword] at hb
    cases hb
  · exact hne h

theorem isCode_header : f.header.IsCode := by
  have hother : IsCode [32, 40, 41, 44, 91, 93] := by decide +kernel
  intro b hb
  rcases f.mem_header hb with h | h
  · exact isCode_of_isWordByte h
  · exact hother b h

theorem layout_header : Signature.Layout f.header f.lead f.list f.behind := by
  refine ⟨rfl, f.not_mem_lead rfl (by decide), Delimiter.behind?_of_not_mem (fun h => ?_) (fun h => ?_) 0⟩
  all_goals rcases f.mem_list h with h | h <;> revert h <;> decide

/-- A header is a run of code, in which no item ends. -/
theorem run_header : Run f.header := by
  have hplain : ∀ {t : Text}, (∀ b ∈ t, isWordByte b ∨ b = 32) → ∀ b ∈ t, Delimiter.plain b ∧ b ≠ 59 := by
    intro t ht b hb
    rcases ht b hb with h | rfl
    · exact ⟨plain_of_isWordByte h, by rintro rfl; cases h⟩
    · decide
  have hlead : Run f.lead := nil_append f.lead ▸ Run.nil.append_plain (hplain fun _ => f.mem_lead)
  have hlist := hlead.pair (d := .paren) nofun f.layout_header.closed
  have hall := hlist.append_plain (hplain fun _ hb => .inr (f.mem_behind hb))
  rwa [append_assoc, cons_append, append_assoc, singleton_append] at hall

theorem unread_lead : Signature.unread f.lead = false ∧ Signature.nameIn f.lead = f.name ∧
    Signature.typeIn f.lead = f.returnType := by
  obtain ⟨-, hname, htype⟩ := @wordBefore_of_append (f.returnType ++ [32]) f.name [] f.isWord_name rfl
    (fun b hb => by
      rw [getLast?_concat] at hb
      cases hb
      rfl)
  have hlead : f.returnType ++ [32] ++ f.name ++ [] = f.lead := by simp [lead]
  have hcode : IsCode (f.returnType ++ [32]) := forall_mem_append.mpr ⟨f.isWord_returnType.isCode, by simp⟩
  have hstrip : strip (f.returnType ++ [32]) = f.returnType := by
    have hsolid := strip_of_none f.isWord_returnType.not_isBlank
    exact (@strip_surround [] [32] rfl f.returnType rfl).trans hsolid
  rw [hlead] at hname htype
  have htype : Signature.typeIn f.lead = f.returnType := by
    rw [Signature.typeIn, htype, reverse_reverse, trim_of_isCode hcode, hstrip]
  refine ⟨?_, hname, htype⟩
  have hempty : f.returnType.isEmpty = false := isEmpty_eq_false_iff.mpr f.isWord_returnType.1
  simp [Signature.unread, Signature.nameIn, hname, htype, f.isIdentifier_name, hempty,
    f.returnType_not_mem, f.name_not_mem]

/-- **What is read of a header is what was written.** -/
theorem ofHeader?_header : ∃ g, Signature.ofHeader? f.header = .ok (some g) ∧ g.name = f.name ∧
    g.returnType = f.returnType ∧ g.params.map Parameter.bare = f.params.map WrittenParameter.read := by
  obtain ⟨hread, hname, htype⟩ := f.unread_lead
  have hbehind : f.behind.isWhite := by
    unfold behind
    split <;> decide
  obtain ⟨g, hg, hreads⟩ := f.layout_header.ofHeader? f.isCode_header.isAscii
  rw [hread, hbehind] at hg
  refine ⟨g, hg, hreads.name.trans hname, ?_, ?_⟩
  · have hword := f.isWord_returnType
    rw [hreads.returnType, htype,
      words_of_none hword.isCode hword.1 hword.not_isBlank]
    simp [unwords, intercalate]
  · rw [hreads.params, list, WrittenParameter.declaredFrom_list]

/-- What stands between the braces. -/
def inner (body : String) : Text := (" " : Text) ++ (body : Text) ++ (" " : Text)

theorem line_of_prototype (h : f.body? = none) : f.line = f.header ++ [59, newline] := by
  unfold line
  rw [h]
  rfl

theorem line_of_definition (h : f.body? = some body) :
    f.line = f.header ++ 123 :: (inner body ++ [125, newline]) := by
  have hopen : Text.ofString "\x7b " = 123 :: Text.ofString " " := rfl
  have hclose : Text.ofString " \x7d\n" = Text.ofString " " ++ [125, newline] := rfl
  unfold line inner
  rw [h]
  simp only [hopen, hclose, append_assoc, cons_append]

theorem maskUpTo_inner (h : f.body? = some body) (next : Option UInt8) :
    maskUpTo .code next (inner body) = (inner body, .code) := by
  have hspace : ∀ next, maskUpTo .code next (Text.ofString " ") = (Text.ofString " ", .code) := fun _ => rfl
  have hnext : Harmless ((Text.ofString " ").head?.or next) := ⟨nofun, nofun⟩
  unfold inner
  rw [maskUpTo_append, maskUpTo_append, hspace, (f.isBody body h).bare.maskUpTo hnext, hspace]

/-- A line is code, and it ends in code. -/
theorem maskUpTo_line (next : Option UInt8) : maskUpTo .code next f.line = (f.line, .code) := by
  have hheader : 47 ∉ f.header := f.not_mem_header rfl (by decide)
  cases hbody : f.body? with
  | none =>
    rw [f.line_of_prototype hbody]
    exact maskUpTo_code (by simp [hheader, newline]) next
  | some body =>
    have hsplit : f.line = (f.header ++ [123]) ++ (inner body ++ [125, newline]) := by
      rw [f.line_of_definition hbody]
      simp
    rw [hsplit, maskUpTo_append, maskUpTo_code (by simp [hheader]), maskUpTo_append, f.maskUpTo_inner hbody]
    rfl

theorem mask_program (fs : List WrittenFunction) : (program fs).mask = program fs := by
  induction fs with
  | nil => rfl
  | cons f fs ih =>
    rw [program, flatMap_cons, mask, maskFrom_append, maskUpTo_line, ← mask, ← program, ih]

/-- The item that a line makes. -/
def item (i : Nat) : Item :=
  match f.body? with
  | none => .statement i (i + f.header.length)
  | some body => .block i (i + f.header.length) (i + f.header.length + 1 + (inner body).length)
      (i + f.header.length + 2 + (inner body).length)

theorem exists_header_cons : ∃ b rest, f.header = b :: rest ∧ isWordByte b := by
  obtain ⟨b, rest, hb⟩ := exists_cons_of_ne_nil f.isWord_returnType.1
  exact ⟨b, _, by rw [header, lead, hb]; rfl, f.isWord_returnType.2 b (hb ▸ mem_cons_self)⟩

theorem header?_item (hm : m = before ++ (f.line ++ rest)) :
    Signature.header? m (f.item before.length) = some (Range.shift ⟨0, f.header.length⟩ before.length) := by
  unfold item
  cases hbody : f.body? with
  | none =>
    have hcut : m.cut ⟨before.length, before.length + f.header.length⟩ = f.header := by
      have := cut_append before f.header ([59, newline] ++ rest)
      rw [hm, f.line_of_prototype hbody]
      simpa using this
    have hassign : f.header.contains 61 = false := by
      rw [contains_eq_mem, decide_eq_false_iff_not]
      exact f.not_mem_header rfl (by decide)
    simp only [Signature.header?, hcut, hassign]
    simp [Range.shift, Nat.add_comm]
  | some body => simp [Signature.header?, Range.shift, Nat.add_comm]

theorem part_header (hm : m = before ++ (f.line ++ rest)) : m.Part before.length f.header := by
  obtain ⟨b, tail, hb, hword⟩ := f.exists_header_cons
  obtain ⟨c, post, hpost, hc⟩ : ∃ c post, f.line ++ rest = f.header ++ c :: post ∧ c < 128 := by
    cases hbody : f.body? with
    | none => exact ⟨59, newline :: rest, by simp [f.line_of_prototype hbody], by decide⟩
    | some body =>
      exact ⟨123, inner body ++ 125 :: newline :: rest, by simp [f.line_of_definition hbody], by decide⟩
  have hstart : m.drop before.length = f.header ++ c :: post := by rw [hm, drop_left, hpost]
  have hstop : m.drop (before.length + f.header.length) = c :: post := by
    rw [← drop_drop, hstart, drop_left]
  refine ⟨⟨c :: post, hstart⟩, ?_, ?_, isBoundary_of_drop hstop hc⟩
  · rw [hm, hpost]
    simp
  · refine isBoundary_of_drop (b := b) (r := tail ++ c :: post) ?_ ?_
    · rw [hstart, hb, cons_append]
    · exact (isCode_of_isWordByte hword).1

theorem slice_inner (hm : m = before ++ (f.line ++ rest))
    (hbody : f.body? = some body) :
    m.slice ⟨before.length + f.header.length + 1, before.length + f.header.length + 1 + (inner body).length⟩ =
      .ok (inner body) := by
  have hsplit : m = (before ++ f.header ++ [123]) ++ inner body ++ 125 :: newline :: rest := by
    rw [hm, f.line_of_definition hbody]
    simp
  have hlength : (before ++ f.header ++ [123]).length = before.length + f.header.length + 1 := by
    rw [length_append, length_append]
    rfl
  rw [← hlength, hsplit]
  refine slice_of_isBoundary
    (isBoundary_of_drop (b := 32) (r := (body : Text) ++ 32 :: 125 :: newline :: rest) ?_
    (by decide))
    (isBoundary_of_drop (b := 125) (r := newline :: rest) ?_ (by decide))
  · rw [append_assoc _ (inner body), drop_left, inner, append_assoc, append_assoc]
    rfl
  · rw [← length_append, drop_left]

/-- **What is read of a line is the function that was written.** -/
theorem ofItem?_item (hm : m = before ++ (f.line ++ rest)) :
    ∃ g, Signature.ofItem? m (f.item before.length) = .ok (some g) ∧ f.ReadAs m before.length g := by
  obtain ⟨g, hg, hname, htype, hparams⟩ := f.ofHeader?_header
  refine ⟨g.placed before.length (f.item before.length), ?_, ?_⟩
  · rw [Signature.ofItem?_eq (f.part_header hm) (f.header?_item hm), hg]
    rfl
  · have hbare : (g.params.map (·.shift before.length)).map Parameter.bare = g.params.map Parameter.bare := by
      rw [map_map]
      rfl
    refine ⟨hname, htype, hbare.trans hparams, ?_, ?_, ?_⟩
    · unfold item
      cases hbody : f.body? with
      | none =>
        simp [Signature.placed, Item.range, f.line_of_prototype hbody]
        omega
      | some body =>
        simp [Signature.placed, Item.range, f.line_of_definition hbody]
        omega
    · unfold item
      cases hbody : f.body? with
      | none => rfl
      | some body =>
        simp [Signature.placed, Item.body?, f.line_of_definition hbody]
        omega
    · intro r hr body hbody
      have hitem : (f.item before.length).body? = some r := hr
      unfold item at hitem
      rw [hbody] at hitem
      cases hitem
      exact f.slice_inner hm hbody

theorem head?_program (fs : List WrittenFunction) : ((program fs).dropWhile isBlank).head? ≠ some 59 := by
  cases fs with
  | nil => nofun
  | cons f fs =>
    obtain ⟨b, tail, hb, hword⟩ := f.exists_header_cons
    obtain ⟨more, hmore⟩ : ∃ more, program (f :: fs) = b :: more := by
      rw [program, flatMap_cons, line, hb]
      exact ⟨_, rfl⟩
    rw [hmore, dropWhile_cons_of_neg (by simp [isBlank_of_isWordByte hword])]
    rintro ⟨⟩
    cases hword

/-- **Each line of a program is an item.** -/
theorem laid_program (i : Nat) (fs : List WrittenFunction) :
    Laid i (program fs) ((located i fs).map fun x => x.2.item x.1) := by
  induction fs generalizing i with
  | nil => exact .run .nil begins_nil
  | cons f fs ih =>
    have hprogram : program (f :: fs) = f.line ++ program fs := flatMap_cons
    have hbegins : Begins f.header := by
      obtain ⟨b, tail, hb, hword⟩ := f.exists_header_cons
      exact hb ▸ begins_cons (isBlank_of_isWordByte hword) (by rintro rfl; cases hword) tail
    have hrest := ih (i + f.line.length)
    rw [located, map_cons, hprogram]
    cases hbody : f.body? with
    | none =>
      have hitem : f.item i = .statement i (i + f.header.length) := by rw [item, hbody]
      rw [f.line_of_prototype hbody] at hrest ⊢
      have hshaped := Shaped.statement (i := i) (t := newline :: program fs) f.run_header hbegins
      have hlaid := Laid.item hshaped (.blank rfl (by simpa [Nat.add_assoc] using hrest))
      simpa [hitem] using hlaid
    | some body =>
      have hbalanced : State.bracesBehind? 0 (inner body) = some 0 := by
        have hspace : ∀ depth, State.bracesBehind? depth (Text.ofString " ") = some depth := fun depth => rfl
        unfold inner
        rw [State.bracesBehind?_append, State.bracesBehind?_append, hspace, Option.bind_some,
          (f.isBody body hbody).balanced, Option.bind_some, hspace]
      have hitem : f.item i = .block i (i + f.header.length) (i + f.header.length + 1 + (inner body).length)
          (i + f.header.length + 2 + (inner body).length) := by rw [item, hbody]
      rw [f.line_of_definition hbody] at hrest ⊢
      have hshaped := @Shaped.block i (newline :: program fs) _ _ [] f.run_header hbegins
        (f.not_mem_header rfl (by decide)) (State.bracesBehind?_eq ▸ hbalanced) (.inl rfl)
        (semicolonTail_eq_zero_iff.mpr (head?_program fs))
      have hlaid := Laid.item hshaped (.blank rfl (by simpa [Nat.add_assoc] using hrest))
      simpa [hitem] using hlaid

/-- **The lines of a program are read one after another.** -/
theorem exists_functions (fs : List WrittenFunction) (before : Text) (hm : m = before ++ program fs) :
    ∃ gs, ((located before.length fs).map fun x => x.2.item x.1).mapM (Signature.ofItem? m) =
      .ok (gs.map some) ∧
      List.Forall₂ (fun x g => x.2.ReadAs m x.1 g) (located before.length fs) gs := by
  induction fs generalizing before with
  | nil => exact ⟨[], rfl, .nil⟩
  | cons f fs ih =>
    have hprogram : program (f :: fs) = f.line ++ program fs := flatMap_cons
    rw [hprogram] at hm
    obtain ⟨g, hg, hread⟩ := f.ofItem?_item hm
    obtain ⟨gs, hgs, hreads⟩ := ih (before ++ f.line) (by rw [hm, append_assoc])
    rw [length_append] at hgs hreads
    refine ⟨g :: gs, ?_, .cons hread hreads⟩
    rw [located, map_cons, mapM_cons, hg, hgs]
    rfl

/-- A definition in the shape of an entry point. -/
def isEntry : Bool :=
  f.body?.isSome && match f.params with
    | [color, coord] => f.returnType == ("void" : Text) && color.isColor && coord.isCoord
    | _ => false

variable {f}

theorem ReadAs.isEntry_eq {g : Signature} (h : f.ReadAs source i g) :
    (g.isDefinition && g.entryContract?.isSome) = f.isEntry := by
  have hdefinition : g.isDefinition = f.body?.isSome := by
    rw [Signature.isDefinition, h.body?, Option.isSome_map]
  rw [hdefinition, Signature.isSome_entryContract?, h.params, h.returnType, isEntry]
  match f.params with
  | [] => rfl
  | [_] => rfl
  | [color, coord] =>
    simp only [map_cons, map_nil, WrittenParameter.isColorOutput_read, WrittenParameter.isCoordInput_read]
  | _ :: _ :: _ :: _ => rfl

theorem findIdx?_eq {fs : List WrittenFunction} {gs : List Signature}
    (h : List.Forall₂ (fun x g => x.2.ReadAs source x.1 g) (located i fs) gs) :
    gs.findIdx? (fun g => g.isDefinition && g.entryContract?.isSome) = fs.findIdx? isEntry := by
  induction fs generalizing i gs with
  | nil =>
    cases h
    rfl
  | cons f fs ih =>
    obtain _ | ⟨hread, hreads⟩ := h
    rw [findIdx?_cons, findIdx?_cons, hread.isEntry_eq, ih hreads]

/-- **Functions that are written one on a line are read back as they were written**: in their order, with
their names, return types and parameters, and with what stands between the braces of a definition as its
body. The entry point is the first of the definitions that has the shape of one. -/
theorem functions_program (fs : List WrittenFunction) : ∃ gs, Program.functions (program fs) = .ok gs ∧
      List.Forall₂ (fun x g => x.2.ReadAs (program fs) x.1 g) (located 0 fs) gs ∧
      Program.entryPoint? gs = (fs.findIdx? isEntry).bind (gs[·]?) := by
  obtain ⟨gs, hgs, hreads⟩ := exists_functions fs [] (m := program fs) rfl
  refine ⟨gs, ?_, hreads, ?_⟩
  · rw [Program.functions, mask_program, show (program fs).items = _ from (laid_program 0 fs).scan]
    simp only [length_nil] at hgs
    rw [hgs]
    simp [bind, Except.bind, pure, Except.pure]
  · rw [Program.entryPoint?, find?_eq_bind_findIdx?_getElem?, findIdx?_eq hreads]

/-- A parameter with a size, `const in float w[4]`. -/
def weights : WrittenParameter where
  marks := [.const, .input]
  type := "float"
  name := "w"
  size? := some "4"
  isIdentifier_type := by decide +kernel
  type_ne_word m := by cases m <;> decide +kernel
  isIdentifier_name := by decide +kernel
  all_isDigit := by decide +kernel

def color : WrittenParameter where
  marks := [.output]
  type := "vec4"
  name := "c"
  size? := none
  isIdentifier_type := by decide +kernel
  type_ne_word m := by cases m <;> decide +kernel
  isIdentifier_name := by decide +kernel
  all_isDigit := nofun

def place : WrittenParameter where
  marks := [.input]
  type := "vec2"
  name := "p"
  size? := none
  isIdentifier_type := by decide +kernel
  type_ne_word m := by cases m <;> decide +kernel
  isIdentifier_name := by decide +kernel
  all_isDigit := nofun

def pick : WrittenFunction where
  returnType := "float"
  name := "pick"
  params := [weights]
  body? := none
  isIdentifier_returnType := by decide +kernel
  returnType_not_mem := by decide +kernel
  isIdentifier_name := by decide +kernel
  name_not_mem := by decide +kernel
  isBody := nofun

/-- An entry point with a block in its body. -/
def shade : WrittenFunction where
  returnType := "void"
  name := "mainImage"
  params := [color, place]
  body? := some "if (p.x > 0.) \x7b c = vec4(p, 0., 1.); \x7d"
  isIdentifier_returnType := by decide +kernel
  returnType_not_mem := by decide +kernel
  isIdentifier_name := by decide +kernel
  name_not_mem := by decide +kernel
  isBody := by
    rintro _ ⟨⟩
    exact ⟨by decide +kernel, by decide +kernel, by decide +kernel⟩

theorem functions_program_shade :
    program [pick, shade] = ("float pick(const in float w[4]);\n" ++
      "void mainImage(out vec4 c, in vec2 p) \x7b if (p.x > 0.) \x7b c = vec4(p, 0., 1.); \x7d \x7d\n" :
        String) ∧
    ∃ f g, Program.functions (program [pick, shade]) = .ok [f, g] ∧ Program.entryPoint? [f, g] = some g ∧
      f.name = "pick" ∧ f.params.map Parameter.bare = [weights.read] ∧ f.body? = none ∧
      g.name = "mainImage" ∧ g.params.map Parameter.bare = [color.read, place.read] ∧
      ∃ r, g.body? = some r ∧ (program [pick, shade]).slice r =
        .ok (" if (p.x > 0.) \x7b c = vec4(p, 0., 1.); \x7d " : Text) := by
  obtain ⟨gs, hgs, hreads, hentry⟩ := functions_program [pick, shade]
  cases hreads with
  | @cons _ f _ _ hpick hrest =>
    cases hrest with
    | @cons _ g _ _ hshade hrest =>
      cases hrest
      have hfirst : [pick, shade].findIdx? isEntry = some 1 := by decide +kernel
      rw [hfirst] at hentry
      have hbody := hshade.body?
      refine ⟨by decide +kernel, f, g, hgs, hentry, hpick.name, hpick.params, hpick.body?, hshade.name,
        hshade.params, _, hbody, (hshade.body _ hbody _ rfl).trans ?_⟩
      exact congrArg Except.ok (by decide +kernel)

end WrittenFunction

end GlslToMetal
