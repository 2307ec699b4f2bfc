import GlslToMetal.Lowering.Sampling
import GlslToMetal.Proofs.Ambient.Threading
import GlslToMetal.Proofs.Text.Neat
import Mathlib.Data.List.Sort

/-! The sampling calls that are replaced, on the tree of a program. A walk over the tree finds them in
the order of their places. Whether a call is replaced shows in the tree, where comments are blank; what
it is called with is cut out of the program itself. -/

namespace GlslToMetal

variable {d : Delimiter} {f : Function} {args : List Text} {i : Nat} {inner : Nest} {r : Range}
  {left source t : Text}

namespace Sampling

open Text Nest

namespace Function

def all : List Function := [.texture, .texture2D, .textureLod]

/-- Whether the function takes `n` arguments behind the coordinate. -/
def takes : Function → Nat → Bool
  | .textureLod, n => n == 1
  | _, n => n == 0 || n == 1

/-- What the argument behind the coordinate means. -/
def mark : Function → Text
  | .textureLod => "level"
  | _ => "bias"

theorem mem_all (f : Function) : f ∈ all := by cases f <;> decide

theorem isWord_name (f : Function) :
    f.name.IsWord := by cases f <;> exact isWordByte_of_isIdentifier (by decide)

theorem nodup_names : (all.map name).Nodup := by decide

theorem name_inj {g : Function} : f.name = g.name → f = g := by cases f <;> cases g <;> decide

end Function

/-- The method call for a call of `f`, with the arguments of the call. -/
def methodCall (f : Function) : List Text → Text
  | surface :: coord :: extra => sample surface (coord :: extra.map (marked f.mark))
  | _ => []

theorem eq_methodCall {new : Text} (h : replacement? f args = some new) :
    new = methodCall f args ∧ ∃ surface coord extra, args = surface :: coord :: extra ∧
      surface.isIdentifier := by
  rcases args with - | ⟨surface, - | ⟨coord, - | ⟨level, - | ⟨more, rest⟩⟩⟩⟩ <;> cases f <;>
    simp_all [replacement?, methodCall, Function.mark]

theorem isSome_replacement? (f : Function) (args : List Text) : (replacement? f args).isSome =
      (args.head?.any Text.isIdentifier && (decide (2 ≤ args.length) && f.takes (args.length - 2))) := by
  rcases args with - | ⟨surface, - | ⟨coord, - | ⟨level, - | ⟨more, rest⟩⟩⟩⟩ <;> cases f <;>
    simp [replacement?, Function.takes, apply_ite Option.isSome]

/-- A sampling call that is replaced. -/
structure Sampled where
  range : Range
  function : Function
  args : List Text
  deriving DecidableEq, Repr

namespace Sampled

/-- The call of `f` at a place of a program, if it is replaced. -/
def ofCall? (source : Text) (f : Function) (call : Call) : Checked (Option Sampled) := do
  let some closeParen := call.closeParen? source.mask | return none
  let ranges ← source.mask.splitArgs call.openParen closeParen
  let args := (← ranges.mapM source.slice).map Text.trim
  return if (replacement? f args).isSome then some ⟨⟨call.nameRange.start, closeParen + 1⟩, f, args⟩ else none

/-- The calls of `f` that are replaced. -/
def allOf (source : Text) (f : Function) : Checked (List Sampled) := do
  let found ← (Call.sites source.mask f.name).mapM (ofCall? source f)
  return found.filterMap id

/-- One call begins no later than another. -/
def StartsBy (c d : Sampled) : Prop := c.range.start ≤ d.range.start

instance : DecidableRel StartsBy := fun c d => inferInstanceAs (Decidable (c.range.start ≤ d.range.start))

instance : Std.Total StartsBy := ⟨fun c d => Nat.le_total c.range.start d.range.start⟩

instance : IsTrans Sampled StartsBy := ⟨fun _ _ _ => Nat.le_trans⟩

/-- The calls of a program that are replaced, in the order of their places. -/
def all (source : Text) : Checked (List Sampled) := do
  let found ← Function.all.mapM (allOf source)
  return found.flatten.insertionSort StartsBy

/-- What replaces the call. -/
def edit (c : Sampled) : Edit := ⟨c.range, methodCall c.function c.args⟩

/-- One call stands in the arguments of another. -/
def encloses (c d : Sampled) : Bool := c.range.start < d.range.start && d.range.stop < c.range.stop

/-- How many of some calls a call stands in. -/
def depth (calls : List Sampled) (c : Sampled) : Nat := calls.countP (·.encloses c)

end Sampled

/-! The calls of a tree. -/

/-- The function whose call stands between two delimiters behind `left`, if the call is replaced. -/
def sampling? (left : Text) (d : Delimiter) (inner : Nest) : Option Function :=
  if d = .paren then
    Function.all.find? fun f => named? left == some f.name && (replacement? f inner.arguments).isSome
  else none

theorem sampling?_eq_some : sampling? left d inner = some f ↔
      d = .paren ∧ named? left = some f.name ∧ (replacement? f inner.arguments).isSome := by
  unfold sampling?
  split
  · next hd =>
    simp only [hd, true_and]
    constructor
    · intro h
      simpa using List.find?_some h
    · rintro ⟨hname, hsome⟩
      have hfound : (Function.all.find? fun f =>
          named? left == some f.name && (replacement? f inner.arguments).isSome).isSome :=
        List.find?_isSome.mpr ⟨f, f.mem_all, by simp [hname, hsome]⟩
      obtain ⟨g, hg⟩ := Option.isSome_iff_exists.mp hfound
      have hsame : named? left = some g.name := (by simpa using List.find?_some hg : _ ∧ _).1
      rw [hg, Function.name_inj (Option.some.inj (hsame.symm.trans hname))]
  · next hd => simp [hd]

/-- The arguments of the pieces of a list that is the text `x`. -/
def pieces : List Nest → Text → List Text
  | [], _ => []
  | s :: segs, x =>
    x.cut ⟨s.text.leadingBlanks, s.text.core.length⟩ :: pieces segs (x.drop (s.text.length + 1))

/-- The arguments in a list that is the text `x`. -/
def arguments (inner : Nest) (x : Text) : List Text :=
  if inner.text.all isBlank then [] else pieces (commas inner) x

/-- The call of a pair of delimiters at offset `i` of a program, behind `left`, if it is replaced. -/
def own? (source left : Text) (i : Nat) (d : Delimiter) (inner : Nest) : Option Sampled :=
  (sampling? left d inner).map fun f =>
    ⟨⟨i - leadingBlanks left - (wordBefore left).length, i + (inner.text.length + 2)⟩, f,
      arguments inner (source.drop (i + 1))⟩

/-- The calls that are replaced in a part of a program, at offset `i` and behind `left`. -/
def found (source left : Text) (i : Nat) : Nest → List Sampled
  | nil => []
  | byte b rest => found source (b :: left) (i + 1) rest
  | pair d inner rest =>
    (own? source left i d inner).toList ++
      (found source [] (i + 1) inner ++ found source [] (i + (inner.text.length + 2)) rest)

/-- The call of a list of a program. -/
def sampled? (source : Text) (p : Listed) : Option Sampled := own? source p.left p.openParen .paren p.inner

/-- The call of `f` at a list of a program, whether it is replaced or not. -/
def site (source : Text) (f : Function) (p : Listed) : Site :=
  ⟨⟨(Call.named f.name p.left p.openParen).nameRange.start, p.closeParen + 1⟩,
    replacement? f (arguments p.inner (source.drop (p.openParen + 1)))⟩

theorem filterMap_sampled? (source : Text) (t : Nest) (left : Text) (i : Nat) :
    (t.lists left i).filterMap (sampled? source) = found source left i t := by
  induction t generalizing left i with
  | nil => rfl
  | byte b rest ih => exact ih (b :: left) (i + 1)
  | pair d inner rest ihInner ihRest =>
    simp only [lists, found, List.filterMap_append, ihInner, ihRest]
    congr 1
    split
    · next hd =>
      subst hd
      simp only [List.filterMap_cons, List.filterMap_nil, sampled?]
      cases own? source left i .paren inner <;> rfl
    · next hd => rw [own?, sampling?, if_neg hd]; rfl

/-! The arguments of a list. -/

theorem cut_add (t : Text) (i a b : Nat) : t.cut ⟨i + a, i + b⟩ = cut (t.drop i) ⟨a, b⟩ := by
  simp only [cut, List.drop_drop, Nat.add_sub_add_left]

theorem map_cut_spans (t : Text) (i : Nat) (segs : List Nest) :
    (spans i segs).map t.cut = pieces segs (t.drop i) := by
  induction segs generalizing i with
  | nil => rfl
  | cons s segs ih => rw [spans, pieces, List.map_cons, ih, cut_add, List.drop_drop, Nat.add_assoc]

theorem map_cut_ranges (source : Text) (p : Listed) :
    p.ranges.map source.cut = arguments p.inner (source.drop (p.openParen + 1)) := by
  rw [Listed.ranges, present_spans, arguments]
  split
  · rfl
  · exact map_cut_spans _ _ _

/-- A part of the code without blanks at its ends begins and ends outside comments, with the bytes of
its masked copy. -/
theorem ends_cut_of_mask (hr : r.Within t.length) (h : (t.mask.cut r).strip = t.mask.cut r) :
    (t.cut r = [] ∧ t.mask.cut r = []) ∨ (t.placeAt r.start = .code ∧ t.placeAt r.stop = .code ∧
      (t.cut r).head? = (t.mask.cut r).head? ∧ (t.cut r).getLast? = (t.mask.cut r).getLast?) := by
  have hpart := maskUpTo_part hr.1 hr.2
  have hlength := length_of_maskUpTo hpart
  obtain ⟨hhead, hlast⟩ := strip_eq_self_iff.mp h
  have hfst : (maskUpTo (t.placeAt r.start) (t.drop r.stop).head? (t.cut r)).1 = t.mask.cut r := by rw [hpart]
  cases hmask : t.mask.cut r with
  | nil =>
    rw [hmask] at hlength
    exact .inl ⟨List.length_eq_zero_iff.mp hlength, rfl⟩
  | cons b w =>
    rw [hmask] at hhead hlast hfst
    obtain ⟨hstart, hfirst⟩ := solid_head (hhead b rfl) hfst
    obtain ⟨w', c, hw⟩ := (List.eq_nil_or_concat (b :: w)).resolve_left (List.cons_ne_nil _ _)
    rw [List.concat_eq_append] at hw
    obtain ⟨hstop, hfinal⟩ := solid_last (hlast c (by rw [hw]; simp)) (hfst.trans hw)
    rw [hpart] at hstop
    exact .inr ⟨hstart, hstop, hfirst, by rw [hfinal, hw]; simp⟩

theorem strip_cut_of_mask (hr : r.Within t.length) (h : (t.mask.cut r).strip = t.mask.cut r) :
    (t.cut r).strip = t.cut r := by
  rcases ends_cut_of_mask hr h with ⟨hnil, -⟩ | ⟨-, -, hhead, hlast⟩
  · rw [hnil]
    rfl
  · rw [strip_eq_self_iff] at h ⊢
    rwa [hhead, hlast]

/-- The text ends in code, and this is its masked copy. -/
def Masks (x y : Text) : Prop := x.mask = y ∧ EndsCode x

theorem masks_cut (hr : r.Within t.length)
    (h : (t.mask.cut r).strip = t.mask.cut r) : Masks (t.cut r) (t.mask.cut r) := by
  rcases ends_cut_of_mask hr h with ⟨hcut, hmask⟩ | ⟨hstart, hstop, -⟩
  · rw [hcut, hmask]
    exact ⟨rfl, rfl⟩
  · exact mask_cut hr.1 hr.2 hstart hstop

theorem isIdentifier_mask (t : Text) : t.mask.isIdentifier = t.isIdentifier := by
  rw [Bool.eq_iff_iff]
  constructor
  · intro h
    have hword := isWordByte_of_isIdentifier h
    have hsame := (eq_of_maskUpTo_solid (maskUpTo_eq_mask t) hword.not_isBlank hword.1).1
    rwa [← hsame] at h
  · intro h
    have hslash : 47 ∉ t := (isWordByte_of_isIdentifier h).not_mem (by decide)
    have hsame := maskFrom_code_append hslash []
    rw [List.append_nil] at hsame
    rwa [mask, hsame, maskFrom, List.append_nil]

theorem isSome_replacement?_masks {args' : List Text} (h : List.Forall₂ Masks args args') (f : Function) :
    (replacement? f args).isSome = (replacement? f args').isSome := by
  rw [isSome_replacement?, isSome_replacement?, h.length_eq]
  congr 1
  cases h with
  | nil => rfl
  | cons ha _ => simp [← ha.1, isIdentifier_mask]

section Listed

variable {source : Text} {t : Nest} (ht : t.Plain) (hcode : source.IsCode) (hmask : source.mask = t.text)
  {p : Listed} (hp : p ∈ t.lists [] 0)

include ht hcode hmask hp

/-- The arguments of a list are parts of the code without blanks at their ends. -/
theorem within_of_mem_ranges (hr : r ∈ p.ranges) :
    r.Within source.length ∧ (source.mask.cut r).strip = source.mask.cut r := by
  have hslices := mapM_slice_listed ht hp (hmask ▸ hcode.mask)
  obtain ⟨w, hw, hslice⟩ := exists_of_mem_left (Checked.forall₂_of_mapM hslices) hr
  obtain ⟨s, -, rfl⟩ := exists_of_mem_arguments hw
  obtain ⟨hle, hstop, hcut⟩ := of_slice hslice
  have hwithin : Range.Within _ _ := ⟨hle, hstop⟩
  rw [← hmask] at hwithin hcut
  exact ⟨length_mask source ▸ hwithin, by rw [hcut, strip_strip]⟩

theorem mapM_slice_ranges :
    p.ranges.mapM source.slice = .ok (arguments p.inner (source.drop (p.openParen + 1))) := by
  rw [← map_cut_ranges]
  exact mapM_eq_ok fun r hr => slice_of_within hcode.isAscii (within_of_mem_ranges ht hcode hmask hp hr).1

theorem map_trim_arguments : (arguments p.inner (source.drop (p.openParen + 1))).map Text.trim =
      arguments p.inner (source.drop (p.openParen + 1)) := by
  rw [← map_cut_ranges, List.map_map]
  refine List.map_congr_left fun r hr => ?_
  obtain ⟨hwithin, hstrip⟩ := within_of_mem_ranges ht hcode hmask hp hr
  rw [Function.comp_apply, trim_of_isCode (hcode.cut r)]
  exact strip_cut_of_mask hwithin hstrip

theorem arguments_mask : arguments p.inner (source.mask.drop (p.openParen + 1)) = p.inner.arguments := by
  have hslices := mapM_slice_listed ht hp (hmask ▸ hcode.mask)
  rw [← hmask, mapM_eq_ok fun r hr => slice_of_within hcode.isAscii.mask
    ((length_mask source).symm ▸ (within_of_mem_ranges ht hcode hmask hp hr).1)] at hslices
  rw [← map_cut_ranges]
  exact Except.ok.inj hslices

theorem masks_arguments :
    List.Forall₂ Masks (arguments p.inner (source.drop (p.openParen + 1))) p.inner.arguments := by
  rw [← arguments_mask ht hcode hmask hp, ← map_cut_ranges, ← map_cut_ranges, List.forall₂_map_left_iff,
    List.forall₂_map_right_iff, List.forall₂_same]
  intro r hr
  exact masks_cut (within_of_mem_ranges ht hcode hmask hp hr).1 (within_of_mem_ranges ht hcode hmask hp hr).2

theorem sampled?_of_named (hname : named? p.left = some f.name) : sampled? source p =
      if (replacement? f (arguments p.inner (source.drop (p.openParen + 1)))).isSome then
        some ⟨⟨(Call.named f.name p.left p.openParen).nameRange.start, p.closeParen + 1⟩, f,
          arguments p.inner (source.drop (p.openParen + 1))⟩
      else none := by
  have hword : wordBefore p.left = f.name := (named?_eq_some.mp hname).2.1
  have hclose : p.closeParen + 1 = p.openParen + (p.inner.text.length + 2) := by
    rw [Listed.closeParen]
    omega
  rw [isSome_replacement?_masks (masks_arguments ht hcode hmask hp), hclose]
  split
  · next hsome =>
    rw [sampled?, own?, sampling?_eq_some.mpr ⟨rfl, hname, hsome⟩, hword]
    rfl
  · next hnone =>
    have hsampling : sampling? p.left .paren p.inner = none := by
      rw [Option.eq_none_iff_forall_ne_some]
      intro g hg
      obtain ⟨-, hname', hsome⟩ := sampling?_eq_some.mp hg
      obtain rfl := Function.name_inj (Option.some.inj (hname'.symm.trans hname))
      exact hnone hsome
    rw [sampled?, own?, hsampling]
    rfl

theorem ofCall?_listed (hname : named? p.left = some f.name) :
    Sampled.ofCall? source f (Call.named f.name p.left p.openParen) = .ok (sampled? source p) := by
  rw [Sampled.ofCall?, sampled?_of_named ht hcode hmask hp hname]
  simp only [hmask, closeParen?_listed ht hp, splitArgs_listed ht hp,
    mapM_slice_ranges ht hcode hmask hp, bind,
    Except.bind, map_trim_arguments ht hcode hmask hp]
  rfl

theorem site?_listed (f : Function) :
    site? source f (Call.named f.name p.left p.openParen) = .ok (some (site source f p)) := by
  rw [site?]
  simp only [hmask, closeParen?_listed ht hp, splitArgs_listed ht hp,
    mapM_slice_ranges ht hcode hmask hp, bind,
    Except.bind, map_trim_arguments ht hcode hmask hp]
  rfl

theorem edit?_site (hname : named? p.left = some f.name) :
    (site source f p).replacement?.map (Edit.mk (site source f p).range) =
      (sampled? source p).map Sampled.edit := by
  rw [sampled?_of_named ht hcode hmask hp hname, site]
  cases hnew : replacement? f (arguments p.inner (source.drop (p.openParen + 1))) with
  | none => rfl
  | some new => simp [Sampled.edit, (eq_methodCall hnew).1]

end Listed

/-! The places of the calls. -/

theorem suffix_beforeWord (left : Text) : beforeWord left <:+ left :=
  (List.dropWhile_suffix isWordByte).trans (List.dropWhile_suffix isBlank)

theorem length_beforeWord (left : Text) :
    leadingBlanks left + (wordBefore left).length + (beforeWord left).length = left.length := by
  have hblanks : (left.takeWhile isBlank).length + (left.dropWhile isBlank).length = left.length := by
    rw [← List.length_append, List.takeWhile_append_dropWhile]
  have hword : ((left.dropWhile isBlank).takeWhile isWordByte).length +
      ((left.dropWhile isBlank).dropWhile isWordByte).length = (left.dropWhile isBlank).length := by
    rw [← List.length_append, List.takeWhile_append_dropWhile]
  rw [wordBefore, List.length_reverse, leadingBlanks, beforeWord]
  omega

theorem range_of_own? {c : Sampled}
    (hc : c ∈ (own? source left i d inner).toList) :
    i - left.length ≤ c.range.start ∧ c.range.start ≤ i ∧ c.range.stop = i + (inner.text.length + 2) := by
  rw [Option.mem_toList, own?, Option.map_eq_some_iff] at hc
  obtain ⟨f, -, rfl⟩ := hc
  have := length_beforeWord left
  refine ⟨?_, ?_, rfl⟩
  · simp only
    omega
  · simp only
    omega

theorem bounds_of_mem_found (hleft : left.length ≤ i) {t : Nest} {c : Sampled}
    (hc : c ∈ found source left i t) :
    i - left.length ≤ c.range.start ∧ c.range.start < c.range.stop ∧ c.range.stop ≤ i + t.text.length := by
  induction t generalizing left i with
  | nil => cases hc
  | byte b rest ih =>
    have := ih (by simpa using hleft) hc
    simp only [List.length_cons, text_byte] at this ⊢
    omega
  | pair d inner rest ihInner ihRest =>
    have hlength := length_text_pair d inner rest
    rw [found, List.mem_append, List.mem_append] at hc
    rcases hc with hc | hc | hc
    · have := range_of_own? hc
      omega
    · have := ihInner (Nat.zero_le _) hc
      simp only [List.length_nil] at this
      omega
    · have := ihRest (Nat.zero_le _) hc
      simp only [List.length_nil] at this
      omega

theorem bounds_inner {c : Sampled} (hc : c ∈ found source [] (i + 1) inner) :
    i + 1 ≤ c.range.start ∧ c.range.start < c.range.stop ∧ c.range.stop ≤ i + 1 + inner.text.length :=
  bounds_of_mem_found (Nat.zero_le _) hc

theorem bounds_rest {rest : Nest} {c : Sampled} (hc : c ∈ found source [] i rest) :
    i ≤ c.range.start ∧ c.range.start < c.range.stop :=
  have h := bounds_of_mem_found (Nat.zero_le _) hc
  ⟨h.1, h.2.1⟩

theorem pairwise_apart (source left : Text) (i : Nat) (t : Nest) :
    (found source left i t).Pairwise fun c e => c.range.stop ≤ e.range.start ∨ c.encloses e := by
  induction t generalizing left i with
  | nil => exact .nil
  | byte b rest ih => exact ih _ _
  | pair d inner rest ihInner ihRest =>
    rw [found, List.pairwise_append, List.pairwise_append]
    refine ⟨?_, ⟨ihInner _ _, ihRest _ _, ?_⟩, ?_⟩
    · cases own? source left i d inner <;> simp
    · intro c hc e he
      have := bounds_inner hc
      have := bounds_rest he
      exact .inl (by omega)
    · intro c hc e he
      have := range_of_own? hc
      rcases List.mem_append.mp he with he | he
      · have := bounds_inner he
        refine .inr ?_
        simp only [Sampled.encloses, Bool.and_eq_true, decide_eq_true_eq]
        omega
      · have := bounds_rest he
        exact .inl (by omega)

theorem pairwise_found (source : Text) {left : Text} {i : Nat} (hleft : left.length ≤ i) (t : Nest) :
    (found source left i t).Pairwise (·.range.start < ·.range.start) := by
  refine (pairwise_apart source left i t).imp_of_mem fun hc _ h => ?_
  have := bounds_of_mem_found hleft hc
  simp only [Sampled.encloses, Bool.and_eq_true, decide_eq_true_eq] at h
  omega

/-! The calls of a program are those of its tree. -/

theorem mem_names (f : Function) : f.name ∈ Function.all.map Function.name :=
  List.mem_map_of_mem f.mem_all

theorem perm_sampled? (source : Text) (t : Nest) {β : Type} (g : Sampled → β) :
    (Function.all.flatMap fun f =>
      ((t.lists [] 0).filter fun p => named? p.left == some f.name).filterMap fun p =>
      (sampled? source p).map g).Perm ((found source [] 0 t).map g) := by
  have hperm := perm_flatMap_filterMap Function.nodup_names (fun p => named? p.left)
    (fun p => (sampled? source p).map g) (t.lists [] 0) (by
      intro p _ y hy
      obtain ⟨c, hc, -⟩ := Option.map_eq_some_iff.mp hy
      rw [sampled?, own?] at hc
      obtain ⟨f, hf, -⟩ := Option.map_eq_some_iff.mp hc
      exact ⟨f.name, mem_names f, (sampling?_eq_some.mp hf).2.1⟩)
  rw [List.flatMap_map] at hperm
  rwa [← filterMap_sampled?, List.map_filterMap]

section Program

variable {source : Text} {t : Nest} (ht : t.Plain) (hcode : source.IsCode) (hmask : source.mask = t.text)

include ht hcode hmask

theorem allOf_eq (f : Function) : Sampled.allOf source f =
      .ok (((t.lists [] 0).filter fun p => named? p.left == some f.name).filterMap (sampled? source)) := by
  rw [Sampled.allOf, hmask, mapM_sites ht f.isWord_name fun p hp => ofCall?_listed ht hcode hmask hp]
  simp only [bind, Except.bind, pure, Except.pure, List.filterMap_map, Function.id_comp]

theorem sitesOf_eq (f : Function) :
    sitesOf source f = .ok
      (((t.lists [] 0).filter fun p => named? p.left == some f.name).map (site source f)) := by
  rw [sitesOf, hmask, mapM_sites ht f.isWord_name fun p hp _ => site?_listed ht hcode hmask hp f]
  simp only [bind, Except.bind, pure, Except.pure, List.filterMap_map, Function.id_comp,
    List.filterMap_eq_map']

theorem exists_sites :
    ∃ ss, sites source = .ok ss ∧ (edits ss).Perm ((found source [] 0 t).map Sampled.edit) := by
  have hsites : sites source = .ok (Function.all.flatMap fun f =>
      ((t.lists [] 0).filter fun p => named? p.left == some f.name).map (site source f)) := by
    have hread : Function.all.mapM (sitesOf source) = _ := mapM_eq_ok fun f _ => sitesOf_eq ht hcode hmask f
    rw [sites, ← Function.all, hread, List.flatMap]
    rfl
  refine ⟨_, hsites, ?_⟩
  refine .trans (.of_eq ?_) (perm_sampled? source t Sampled.edit)
  rw [edits, List.filterMap_flatMap]
  congr 1
  funext f
  rw [List.filterMap_map]
  refine List.filterMap_congr fun p hp => ?_
  rw [List.mem_filter, beq_iff_eq] at hp
  exact edit?_site ht hcode hmask hp.1 hp.2

/-- **The calls of a program that are replaced are those of its tree.** -/
theorem all_eq_found : Sampled.all source = .ok (found source [] 0 t) := by
  have hread : Function.all.mapM (Sampled.allOf source) = _ := mapM_eq_ok fun f _ => allOf_eq ht hcode hmask f
  rw [Sampled.all, hread]
  show Except.ok _ = Except.ok _
  congr 1
  have hperm := perm_sampled? source t id
  simp only [Option.map_id, List.map_id, id_eq] at hperm
  exact eq_of_perm_of_pairwise (·.range.start) ((List.perm_insertionSort _ _).trans hperm)
    (List.pairwise_insertionSort Sampled.StartsBy _) (pairwise_found source (Nat.le_refl 0) t)

end Program

end Sampling

end GlslToMetal
