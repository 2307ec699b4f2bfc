import GlslToMetal.Lowering.Run
import GlslToMetal.Proofs.Extracted.Parts
import GlslToMetal.Proofs.Program
import GlslToMetal.Proofs.Signature.Header

/-! The fragment function of the generated program is its last item. What stands before it, the fixed
declarations and the preamble, is settled: it ends in code, between two items, so the scan reads the
headline as the beginning of an item whatever the preamble was. The lines between the braces end in
code too, and as many braces are closed in them as are opened, so the item ends at the last brace.
What the program gives to the preamble and to the body is settled and enclosable if the program is
complete and if trimming does not turn the beginning of an item into a preprocessor line. -/

namespace GlslToMetal.Fragment

open List Text Item

/-- The parameters of the fragment function. -/
def parameterTrees : List Nest :=
  [Nest.ofText "VertexOut vulpes_in " ++ .pair .bracket (.pair .bracket (Nest.ofText "stage_in") .nil) .nil,
    Nest.ofText " constant Uniforms& uniforms " ++
      .pair .bracket (.pair .bracket (Nest.ofText "buffer" ++ .pair .paren (Nest.ofText "0") .nil) .nil) .nil,
    Nest.ofText " texture2d<float> iChannel0 " ++
      .pair .bracket (.pair .bracket (Nest.ofText "texture" ++ .pair .paren (Nest.ofText "0") .nil)
        .nil) .nil]

def parameterList : Nest := Nest.join parameterTrees

/-- What stands before the brace of the fragment function. -/
def header (symbol : Text) : Text :=
  (("fragment float4 " : Text) ++ symbol) ++ 40 :: (parameterList.text ++ 41 :: [32])

theorem headline_eq (symbol : Text) : headline symbol = header symbol ++ [123, 10] := by
  unfold headline header
  simp only [parameterList, parameterTrees, stageIn, append_assoc, ofString, String.reduceToList]
  rfl

theorem plain_parameterList : parameterList.Plain := by
  have hplain : ∀ {w : Text}, w.all Delimiter.plain → (Nest.ofText w).Plain := fun hw =>
    Nest.plain_ofText (all_eq_true.mp hw)
  have hbuffer : ∀ w : Text, w.all Delimiter.plain → ∀ v : Text, v.all Delimiter.plain →
      (Nest.ofText w ++ .pair .paren (Nest.ofText v) .nil).Plain := fun w hw v hv =>
    Nest.plain_append.mpr ⟨hplain hw, hplain hv, trivial⟩
  have hfirst : ∀ {w : Text}, w.all Delimiter.plain → ∀ {t : Nest}, t.Plain →
      (Nest.ofText w ++ .pair .bracket (.pair .bracket t .nil) .nil).Plain := fun hw t ht =>
    Nest.plain_append.mpr ⟨hplain hw, ⟨ht, trivial⟩, trivial⟩
  refine Nest.plain_append.mpr ⟨hfirst (by decide +kernel) (hplain (by decide +kernel)), rfl, ?_⟩
  refine Nest.plain_append.mpr
    ⟨hfirst (by decide +kernel) (hbuffer _ (by decide +kernel) _ (by decide +kernel)), rfl, ?_⟩
  exact hfirst (by decide +kernel) (hbuffer _ (by decide +kernel) _ (by decide +kernel))

theorem run_header {symbol : Text} (h : symbol.isIdentifier) : Run (header symbol) ∧ 61 ∉ header symbol := by
  have hfirst : (Text.ofString "fragment float4 ").all (fun b => Delimiter.plain b && b != 59 &&
    b != 61) := by decide +kernel
  have hlist : 61 ∉ 40 :: (parameterList.text ++ 41 :: [32]) := by decide +kernel
  have hplain : ∀ b ∈ ("fragment float4 " : Text) ++ symbol, Delimiter.plain b ∧ b ≠ 59 ∧ b ≠ 61 := by
    intro b hb
    rcases mem_append.mp hb with hb | hb
    · simpa [and_assoc] using all_eq_true.mp hfirst b hb
    · exact (isWordByte_of_isIdentifier h).plain b hb
  have hrun := Run.nil.append_plain fun b hb => ⟨(hplain b hb).1, (hplain b hb).2.1⟩
  rw [nil_append] at hrun
  refine ⟨?_, ?_⟩
  · have hlist : Delimiter.paren.behind? 0 parameterList.text = some 0 := by decide +kernel
    have hpair := (hrun.pair (d := .paren) (by intro h; cases h) hlist).byte (b := 32) rfl (by decide)
    simpa [header, Delimiter.opener, Delimiter.closer] using hpair
  · rw [header, mem_append]
    rintro (hmem | hmem)
    · exact (hplain 61 hmem).2.2 rfl
    · exact hlist hmem

theorem commas_parameterList : parameterList.commas = parameterTrees := by
  refine Nest.commas_join (by simp [parameterTrees]) ?_
  have hpair : ∀ {w : Text}, 44 ∉ w →
    ∀ t : Nest, (Nest.ofText w ++ .pair .bracket t .nil).NoComma := fun hw t =>
    Nest.noComma_append.mpr ⟨Nest.noComma_ofText hw, trivial⟩
  simp only [parameterTrees, forall_mem_cons]
  exact ⟨hpair (by decide) _, hpair (by decide) _, hpair (by decide) _, by simp⟩

theorem length_parameters (i : Nat) : (parameterList.parameters i).length = 3 := by
  have hargs : parameterList.arguments = parameterTrees.map (·.text.strip) := by
    unfold Nest.arguments
    rw [commas_parameterList]
    rfl
  have hsome : ∀ arg ∈ parameterList.arguments,
      (Parameter.ofWords? (Parameter.spaceReferences arg).words ⟨0, 0⟩).isSome := by
    rw [hargs]
    decide +kernel
  have hlength : ((Nest.present (Nest.spans i parameterList.commas)).zip
      parameterList.arguments).length = 3 := by
    rw [commas_parameterList, hargs]
    rfl
  rw [← hlength]
  refine filterMap_length_eq_length.mpr fun ⟨r, arg⟩ hmem => ?_
  dsimp only
  rw [Parameter.ofWords?_eq, Option.isSome_map]
  exact hsome arg (of_mem_zip hmem).2

/-- **The header reads as a function of three parameters with the given name.** -/
theorem ofHeader?_header {symbol : Text} (h : symbol.isIdentifier)
    (hword : Signature.nonTypeWords.contains symbol = false) :
    ∃ f, Signature.ofHeader? (header symbol) = .ok (some f) ∧ f.name = symbol ∧ f.params.length = 3 := by
  have hl : 40 ∉ ("fragment float4 " : Text) ++ symbol := by
    rw [mem_append, not_or]
    exact ⟨by decide, (isWordByte_of_isIdentifier h).not_mem rfl⟩
  have hcode : IsCode (header symbol) := by
    have hlist : IsCode (40 :: (parameterList.text ++ 41 :: [32])) := by decide +kernel
    have hfirst : IsCode ("fragment float4 " : Text) := by decide +kernel
    intro b hb
    rcases mem_append.mp hb with hb | hb
    · rcases mem_append.mp hb with hb | hb
      · exact hfirst b hb
      · exact (isWordByte_of_isIdentifier h).isCode b hb
    · exact hlist b hb
  have hblanks : leadingBlanks (header symbol) = 0 := rfl
  obtain ⟨nameRange, hread⟩ := @Signature.ofItem?_list (header symbol) [] _ [] [32] parameterList
    plain_parameterList hl (by simp [header]) hcode (.block 0 (header symbol).length 0 0) (by
      rw [← header, hblanks]
      simp [Signature.header?])
  obtain ⟨-, hname, htype⟩ := @wordBefore_of_append ("fragment float4 " : Text) symbol []
    (isWordByte_of_isIdentifier h) rfl (fun b hb => by cases hb; rfl)
  rw [append_nil] at hname htype
  have hunnamed : Signature.unnamed (("fragment float4 " : Text) ++ symbol) = false := by
    simp only [Signature.unnamed, hname, htype, h, hword]
    rfl
  rw [hunnamed, hname] at hread
  exact ⟨_, hread, rfl, length_parameters _⟩

/-- What the parts of a program have to be for the fragment function to stand alone behind them. -/
structure Fits (e : Extracted) : Prop where
  preamble : Settled (if e.preamble.isEmpty then [] else e.preamble ++ ("\n\n" : Text))
  output : e.output.isIdentifier
  coord : e.coord.isIdentifier
  body : Enclosable (bodyLines e.body)

theorem settled_declarations : Settled declarations := by
  simp only [declarations, Ambient.all, Ambient.declaration, flatMap_cons, Sampling.samplerName]
  repeat rw [ofString_ofList]
  exact .of_newline (by decide +kernel) (by decide +kernel) (by decide +kernel)

theorem settled_modHelper : Settled (modHelper ++ ("\n" : Text)) := by
  unfold modHelper
  repeat rw [ofString_ofList]
  exact .of_newline (by decide +kernel) (by decide +kernel) (by decide +kernel)

/-- What stands before the fragment function. -/
def front (f : Fragment) (e : Extracted) : Text :=
  declarations ++ (if f.modulus = .exact then modHelper ++ ("\n" : Text) else []) ++
    (if e.preamble.isEmpty then [] else e.preamble ++ ("\n\n" : Text))

/-- What stands between the braces of the fragment function. -/
def inner (e : Extracted) : Text :=
  10 :: (aliases e ++ bodyLines e.body ++ (("    return " : Text) ++ e.output ++ (";\n" : Text)))

theorem source_eq (f : Fragment) (e : Extracted) :
    (f.assemble e).source = front f e ++ (header f.entrySymbol ++ 123 :: (inner e ++ [125, 10])) := by
  have hend : (Text.ofString ";\n\x7d\n") = (Text.ofString ";\n") ++ [125, 10] := rfl
  cases hmodulus : f.modulus <;>
    simp [assemble, headline_eq, front, inner, hend, hmodulus]

theorem settled_front (f : Fragment) {e : Extracted} (he : Fits e) : Settled (front f e) := by
  unfold front
  refine (settled_declarations.append ?_).append he.preamble
  split
  · exact settled_modHelper
  · exact settled_nil

theorem enclosable_of_isIdentifier {w : Text} (h : w.isIdentifier) : Enclosable w :=
  have hw := isWordByte_of_isIdentifier h
  enclosable_of_not_mem (hw.not_mem rfl) (hw.not_mem rfl) (hw.not_mem rfl)

theorem enclosable_inner {e : Extracted} (he : Fits e) : Enclosable (inner e) := by
  have hplain : ∀ t : Text, 47 ∉ t ∧ 123 ∉ t ∧ 125 ∉ t → Enclosable t := fun t ht =>
    enclosable_of_not_mem ht.1 ht.2.1 ht.2.2
  have hcoord := enclosable_of_isIdentifier he.coord
  have houtput := enclosable_of_isIdentifier he.output
  have hambient : Enclosable (Ambient.all.flatMap fun a => ("    " : Text) ++ a.declaration ++
      (" = uniforms." : Text) ++ a.name ++ (";\n" : Text)) := hplain _ (by decide +kernel)
  have haliases : Enclosable (aliases e) := by
    unfold aliases
    refine (((((((hambient.append ?_).append hcoord).append ?_).append ?_).append ?_).append ?_).append
      houtput).append ?_ <;> exact hplain _ (by decide +kernel)
  have hreturn : Enclosable (("    return " : Text) ++ e.output ++ (";\n" : Text)) :=
    ((hplain _ (by decide)).append houtput).append (hplain _ (by decide))
  exact (hplain [10] (by decide)).append ((haliases.append he.body).append hreturn)

section Parts

variable {f : Fragment} {e : Extracted} {opened closed : Nat}
  (hopened : opened = (front f e).length + (header f.entrySymbol).length)
  (hclosed : closed = opened + 1 + (inner e).length)
include hopened hclosed

theorem drop_source : (f.assemble e).source.drop closed = ("\x7d\n" : Text) := by
  have hsplit : (f.assemble e).source = (front f e ++ header f.entrySymbol ++ [123] ++ inner e) ++
      ("\x7d\n" : Text) := by
    rw [source_eq]
    simp only [append_assoc, cons_append, nil_append]
    rfl
  rw [hsplit, drop_left']
  simp only [length_append, length_singleton]
  omega

theorem cut_source : (f.assemble e).source.cut ⟨opened + 1, closed⟩ = inner e := by
  have hsplit : (f.assemble e).source = (front f e ++ header f.entrySymbol ++ [123]) ++ inner e ++
      ("\x7d\n" : Text) := by
    rw [source_eq]
    simp only [append_assoc, cons_append, nil_append]
    rfl
  have hcut := cut_append (front f e ++ header f.entrySymbol ++ [123]) (inner e) ("\x7d\n" : Text)
  rw [← hsplit] at hcut
  simp only [length_append, length_singleton] at hcut
  rwa [hclosed, hopened]

end Parts

section Assembled

variable (f : Fragment) {e : Extracted} (he : Fits e) (hsymbol : f.entrySymbol.isIdentifier)
include he hsymbol

theorem exists_mask : ∃ x, x.length = (inner e).length ∧ State.bracesBehind? 0 x = some 0 ∧
    (f.assemble e).source.mask =
      (front f e).mask ++ (header f.entrySymbol ++ 123 :: (x ++ [125, 10])) := by
  obtain ⟨x, hx, hbraces⟩ := enclosable_inner he (some 125)
  have hslash : 47 ∉ header f.entrySymbol ++ [123] := by
    have hlist : 47 ∉ 40 :: (parameterList.text ++ 41 :: [32]) ++ [123] := by decide +kernel
    have hfirst : 47 ∉ ("fragment float4 " : Text) := by decide
    rw [header, append_assoc, mem_append, mem_append]
    rintro ((h | h) | h)
    · exact hfirst h
    · exact (isWordByte_of_isIdentifier hsymbol).not_mem rfl h
    · exact hlist h
  refine ⟨x, (length_of_maskUpTo hx).symm, hbraces, ?_⟩
  have hsplit : header f.entrySymbol ++ 123 :: (inner e ++ [125, 10]) =
      (header f.entrySymbol ++ [123]) ++ (inner e ++ [125, 10]) := by simp
  rw [source_eq, (settled_front f he).mask_append, hsplit, mask, mask, maskFrom_code_append hslash,
    maskFrom_append, head?_cons, hx, append_assoc]
  rfl

/-- **The fragment function is the last item of the generated program**, and reads as a function. -/
theorem exists_last_block (hword : Signature.nonTypeWords.contains f.entrySymbol = false) :
    ∃ items opened closed g, (f.assemble e).source.mask.items =
        items ++ [.block (front f e).length opened closed (closed + 1)] ∧
      opened = (front f e).length + (header f.entrySymbol).length ∧
      closed = opened + 1 + (inner e).length ∧
      Signature.ofItem? (f.assemble e).source.mask (.block (front f e).length opened closed (closed + 1)) =
        .ok (some g) ∧ g.body? = some ⟨opened + 1, closed⟩ ∧ g.name = f.entrySymbol ∧ g.arity = 3 := by
  obtain ⟨x, hlength, hbraces, hmask⟩ := exists_mask f he hsymbol
  obtain ⟨rest, hhead⟩ : ∃ rest, header f.entrySymbol = 102 :: rest := ⟨_, rfl⟩
  obtain ⟨hrun, hassigned⟩ := run_header hsymbol
  obtain ⟨items, hitems⟩ :=
    items_of_block (settled_front f he).rest (hhead ▸ hrun) (by decide) (hhead ▸ hassigned)
    (State.bracesBehind?_eq ▸ hbraces)
  obtain ⟨g, hg, hname, hparams⟩ := ofHeader?_header hsymbol hword
  rw [← hhead, ← hmask, length_mask, hlength] at hitems
  have hdrop : (f.assemble e).source.mask.drop (front f e).length = header f.entrySymbol ++
      123 :: (x ++ [125, 10]) := by
    rw [hmask, drop_left' (length_mask _)]
  have hdrop' : (f.assemble e).source.mask.drop ((front f e).length + (header f.entrySymbol).length) =
      123 :: (x ++ [125, 10]) := by
    rw [← drop_drop, hdrop, drop_left]
  have hpart : Part (f.assemble e).source.mask (front f e).length (header f.entrySymbol) := by
    refine ⟨⟨_, hdrop⟩, ?_, isBoundary_of_drop (by rw [hdrop, hhead]; rfl) (by decide),
      isBoundary_of_drop hdrop' (by decide)⟩
    rw [hmask]
    simp only [length_append, length_mask]
    omega
  refine ⟨items, _, _, g.placed (front f e).length (.block (front f e).length
    ((front f e).length + (header f.entrySymbol).length)
    ((front f e).length + (header f.entrySymbol).length + 1 + (inner e).length)
    ((front f e).length + (header f.entrySymbol).length + 1 + (inner e).length + 1)),
    hitems, rfl, rfl, ?_, rfl, hname, ?_⟩
  · rw [Signature.ofItem?_eq hpart, hg]
    · rfl
    · simp [Signature.header?, Range.shift, Nat.add_comm]
  · rw [Signature.arity, Signature.placed, length_map, hparams]

end Assembled

theorem settled_piece {t : Text} (h : Closes t) :
    Settled (if t.isEmpty then [] else t ++ ("\n\n" : Text)) := by
  split
  · exact settled_nil
  · exact h.settled

theorem settled_join {s t : Text} (hs : Closes s) (ht : Closes t) :
    Settled (if (Extracted.join s t).isEmpty then [] else Extracted.join s t ++ ("\n\n" : Text)) := by
  by_cases hback : t.isEmpty
  · have hjoin : Extracted.join s t = s := if_pos hback
    rw [hjoin]
    exact settled_piece hs
  · by_cases hfront : s.isEmpty
    · have hjoin : Extracted.join s t = t := (if_neg hback).trans (if_pos hfront)
      rw [hjoin]
      exact settled_piece ht
    · have hjoin : Extracted.join s t = s ++ ("\n\n" : Text) ++ t := (if_neg hback).trans (if_neg hfront)
      have hne : ¬ (s ++ ("\n\n" : Text) ++ t).isEmpty := by simp_all
      rw [hjoin, if_neg hne, append_assoc]
      exact hs.settled.append ht.settled

end GlslToMetal.Fragment

namespace GlslToMetal

open Text Item

/-- A program whose code can be told apart: its block comments are closed, its code stands in items,
and every item ends. -/
structure Program.Complete (source : Text) : Prop where
  comments : source.placeAt source.length ≠ .block
  covered : ∀ i < source.mask.length, ∀ b ∈ source.mask[i]?, isBlank b = false →
    ∃ item ∈ source.mask.items, item.range.covers i
  terminated : ∀ item ∈ source.mask.items, item.isTerminated

/-- The bytes of a program are asked one by one, and not every byte that there is. -/
theorem Program.complete_of_all {source : Text} (hcomments : source.placeAt source.length ≠ .block)
    (hcovered : (List.range source.mask.length).all fun i => (source.mask[i]?).all fun b =>
      isBlank b || source.mask.items.any (·.range.covers i))
    (hterminated : source.mask.items.all (·.isTerminated)) : Program.Complete source where
  comments := hcomments
  covered i hi b hb hblank := by
    have hall := List.all_eq_true.mp hcovered i (List.mem_range.mpr hi)
    rw [Option.mem_def.mp hb, Option.all_some, hblank, Bool.false_or] at hall
    exact List.any_eq_true.mp hall
  terminated := List.all_eq_true.mp hterminated

namespace Extracted

/-- What is trimmed to be the end of the preamble: what stands behind the entry point, or the program
if it has none. -/
def remainder (source : Text) (functions : List Signature) : Text :=
  match found? functions with
  | none => source
  | some (f, _) => source.drop f.range.stop

theorem fits_fallback {cs : List Char} (h : Program.Complete (ofChars cs))
    (hexposes : Exposes (ofChars cs) = false) : Fragment.Fits (fallback (ofChars cs)) := by
  have hopen := isOpen_of_covered h.covered h.terminated
  have hplace : (maskUpTo .code none (ofChars cs)).2 ≠ .block := by
    rw [← placeAt_length]
    exact h.comments
  have houtput : Text.isIdentifier "fragColor" := by decide
  have hcoord : Text.isIdentifier "fragCoord" := by decide
  have hbody : (maskUpTo .code none (fallback []).body).2 = .code ∧
      State.bracesBehind? 0 (maskUpTo .code none (fallback []).body).1 = some 0 := by decide +kernel
  exact ⟨Fragment.settled_piece (closes_trim hplace rfl hopen hexposes), houtput, hcoord,
    Fragment.enclosable_bodyLines (Prod.ext rfl hbody.1) hbody.2⟩

/-- **A complete program is taken apart into parts that fit together again.** -/
theorem exists_fits {cs : List Char} {fs : List Signature} (hfs : Program.functions (ofChars cs) = .ok fs)
    (h : Program.Complete (ofChars cs))
    (hnames : ∀ f output coord body, found? fs = some (f, output, coord, body) →
      output.isIdentifier ∧ coord.isIdentifier)
    (hexposes : Exposes (remainder (ofChars cs) fs) = false) :
    ∃ ds e, extract (ofChars cs) = .ok (ds, e) ∧ Fragment.Fits e := by
  unfold remainder at hexposes
  simp only [extract, hfs, bind, Except.bind]
  cases hfound : found? fs with
  | none =>
    rw [hfound] at hexposes
    exact ⟨_, _, rfl, fits_fallback h hexposes⟩
  | some found =>
    obtain ⟨f, output, coord, body⟩ := found
    rw [hfound] at hexposes
    obtain ⟨hf, hbody, -⟩ := mem_of_found? hfound
    obtain ⟨start, opened, closed, stop, hrange, rfl, hitem⟩ := Signature.exists_block hfs hf hbody
    have hblock := isBlock_of_mem_items hitem
    obtain ⟨⟨bs, next, hbefore, hbeforeMask⟩, ⟨as, hafter, hdrop, hafterMask, hplace⟩,
      ms, es, hsource, hmasked, hbodyMask, hes⟩ := exists_parts hblock
    obtain ⟨houtput, hcoord⟩ := hnames f output coord _ hfound
    obtain ⟨body, x, hreturning, hmask, hbraces⟩ := exists_returning houtput hbodyMask
      (by rw [hes]; exact hblock.balanced)
    dsimp only at hexposes ⊢
    rw [hrange] at hexposes ⊢
    simp only [hbefore, hafter, hmasked, hsource, hreturning]
    refine ⟨_, _, rfl, ?_, houtput, hcoord, Fragment.enclosable_bodyLines hmask hbraces⟩
    refine Fragment.settled_join (closes_trimEnd (by rw [hbeforeMask]) ?_)
      (closes_trim (by rw [hplace]; exact h.comments) hblock.behind ?_ ?_)
    · rw [hbeforeMask]
      exact Reader.isOpen_of_isRest hblock.before
    · have hopen := isOpen_of_covered h.covered h.terminated
      rwa [← List.take_append_drop stop (ofChars cs).mask, Reader.read_append, ← hafterMask] at hopen
    · rw [hdrop]
      exact hexposes

end Extracted

namespace Fragment

/-- **The fragment function is the last item of the generated program, and nothing is cut off it or
put into it.** The program is any that can be told apart, except one in which trimming exposes a
preprocessor line. -/
theorem assemble_ends_in_fragment (s : String) {fs : List Signature}
    (hfs : Program.functions (ofString s) = .ok fs) (hcomplete : Program.Complete (ofString s))
    (hnames : ∀ f output coord body, Extracted.found? fs = some (f, output, coord, body) →
      output.isIdentifier ∧ coord.isIdentifier)
    (hexposes : Exposes (Extracted.remainder (ofString s) fs) = false) {symbol : String}
    (hsymbol : Lowering.isEntrySymbol symbol) (hword : (symbol : Text) ∉ Signature.nonTypeWords)
    (modulus : Modulus) :
    ∃ ds e, Extracted.extract (ofString s) = .ok (ds, e) ∧ ∃ items start opened closed f,
        (assemble ⟨symbol, modulus⟩ e).source.mask.items =
          items ++ [.block start opened closed (closed + 1)] ∧
        (assemble ⟨symbol, modulus⟩ e).source.drop closed = ("\x7d\n" : Text) ∧
        Signature.ofItem? (assemble ⟨symbol, modulus⟩ e).source.mask
          (.block start opened closed (closed + 1)) = .ok (some f) ∧
        f.body? = some ⟨opened + 1, closed⟩ ∧ f.name = symbol ∧ f.arity = 3 ∧
        (assemble ⟨symbol, modulus⟩ e).source.cut ⟨opened + 1, closed⟩ = ("\n" : Text) ++
          aliases e ++ bodyLines e.body ++
            (("    return " : Text) ++ e.output ++ (";\n" : Text)) := by
  obtain ⟨ds, e, hextract, he⟩ := @Extracted.exists_fits s.toList fs hfs hcomplete hnames hexposes
  simp only [Lowering.isEntrySymbol, Bool.and_eq_true] at hsymbol
  obtain ⟨items, opened, closed, f, hitems, hopened, hclosed, hread, hbody, hname, harity⟩ :=
    exists_last_block ⟨symbol, modulus⟩ he hsymbol.1 (by simpa using hword)
  refine ⟨ds, e, hextract, items, _, opened, closed, f, hitems, ?_, hread, hbody, hname, harity, ?_⟩
  · exact drop_source hopened hclosed
  · exact cut_source hopened hclosed

/-- An entry point with an unmatched brace before it, in it and behind it. -/
def commented : String :=
  "#define K \x7b\nvoid mainImage(out vec4 c, in vec2 p) \x7b\n" ++
    "  if (p.x > 0.) \x7b return /* \x7d */ ; \x7d\n\x7d\nfloat g; // \x7b"

theorem assemble_ends_in_fragment_commented :
    Program.functions (ofString commented) = .ok (Program.declared (ofString commented)) ∧
    Program.Complete (ofString commented) ∧
    (Extracted.found? (Program.declared (ofString commented))).isSome ∧
    ∃ ds e, Extracted.extract (ofString commented) = .ok (ds, e) ∧ ∃ items start opened closed f,
        (assemble ⟨"custom", .exact⟩ e).source.mask.items =
          items ++ [.block start opened closed (closed + 1)] ∧
        (assemble ⟨"custom", .exact⟩ e).source.drop closed = ("\x7d\n" : Text) ∧
        Signature.ofItem? (assemble ⟨"custom", .exact⟩ e).source.mask
          (.block start opened closed (closed + 1)) = .ok (some f) ∧
        f.body? = some ⟨opened + 1, closed⟩ ∧ f.name = ("custom" : Text) ∧ f.arity = 3 ∧
        (assemble ⟨"custom", .exact⟩ e).source.cut ⟨opened + 1, closed⟩ = ("\n" : Text) ++
          aliases e ++ bodyLines e.body ++
            (("    return " : Text) ++ e.output ++ (";\n" : Text)) := by
  have hfs : Program.functions (ofString commented) = .ok (Program.declared (ofString commented)) := by
    unfold commented
    rewrite [ofString_append]
    repeat rewrite [ofString_ofList]
    decide +kernel
  have hcomplete : Program.Complete (ofString commented) := by
    unfold commented
    rewrite [ofString_append]
    repeat rewrite [ofString_ofList]
    exact Program.complete_of_all (by decide +kernel) (by decide +kernel) (by decide +kernel)
  have hfound : (Extracted.found? (Program.declared (ofString commented))).isSome ∧
      ∀ found ∈ Extracted.found? (Program.declared (ofString commented)),
        found.2.1.isIdentifier ∧ found.2.2.1.isIdentifier := by
    unfold commented
    rewrite [ofString_append]
    repeat rewrite [ofString_ofList]
    decide +kernel
  have hexposes : Exposes (Extracted.remainder (ofString commented)
      (Program.declared (ofString commented))) = false := by
    unfold commented
    rewrite [ofString_append]
    repeat rewrite [ofString_ofList]
    decide +kernel
  exact ⟨hfs, hcomplete, hfound.1, assemble_ends_in_fragment commented hfs hcomplete
    (fun f output coord body h => hfound.2 _ h) hexposes (by decide) (by decide) .exact⟩

/-- A vertical tab before a `#`: the scan reads a statement, and trimming leaves a preprocessor line
that ends before the brace. -/
def tabbed : Text := "\x0b#(\n\x7b ) ;"

/-- **Trimming may expose a preprocessor line, and the fragment function is then part of an item that
never ends.** -/
theorem assemble_swallows_fragment :
    Program.functions tabbed = .ok [] ∧ Program.Complete tabbed ∧ Exposes tabbed ∧
    Extracted.extract tabbed = .ok ([Extracted.missingEntry], Extracted.fallback tabbed) ∧
    (assemble ⟨"custom", .exact⟩ (Extracted.fallback tabbed)).source.mask.items.getLast?.any
      (!·.isTerminated) := by
  refine ⟨by decide +kernel, Program.complete_of_all (by decide +kernel) (by decide +kernel)
    (by decide +kernel), by decide +kernel, by decide +kernel, ?_⟩
  simp only [assemble, declarations, modHelper, headline, aliases, Ambient.all, Ambient.declaration,
    List.flatMap_cons, Sampling.samplerName, stageIn, Extracted.fallback, tabbed]
  repeat rw [ofString_ofList]
  decide +kernel

end Fragment

end GlslToMetal
