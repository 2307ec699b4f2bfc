import GlslToMetal.Proofs.Lowering.Encoding
import GlslToMetal.Proofs.Signature.Layout
import GlslToMetal.Proofs.Text.Replacing
import GlslToMetal.Proofs.TypeName
import Mathlib.Data.List.Nodup

/-! Calls of built-in functions by their Metal names. Calls are renamed where they stand, so every
parenthesis has the same arguments behind it as before, and the name before it is the old one or the new
one. A call that is to be renamed therefore shows in the result by its new name, which is itself never
renamed: the result has nothing left to rename. -/

namespace GlslToMetal

open List Text

variable {e : Edit} {modulus : Modulus} {m n n' r source t t' target : Text}

namespace Text

/-- How many arguments stand behind an opening parenthesis that is closed. -/
def arity? (r : Text) : Option Nat :=
  (Delimiter.paren.toCloser 0 r).map fun n =>
    if (r.take n).all isBlank then 0 else (stretches 0 (r.take n)).length

theorem length_glue {s : Text} {xs : List Text} (h : xs ≠ []) : (glue s xs).length = xs.length := by
  cases xs with
  | nil => exact absurd rfl h
  | cons x xs => rfl

theorem arity?_eq_some {n : Nat} : r.arity? = some n ↔ ∃ s u, r = s ++ 41 :: u ∧ ParensClosed s ∧
      n = if s.all isBlank then 0 else (stretches 0 s).length := by
  unfold arity?
  rw [Option.map_eq_some_iff]
  constructor
  · rintro ⟨k, hk, rfl⟩
    obtain ⟨s, u, rfl, hs, rfl⟩ := Delimiter.toCloser_eq_some_iff.1 hk
    exact ⟨s, u, rfl, hs, by rw [take_left]⟩
  · rintro ⟨s, u, rfl, hs, rfl⟩
    exact ⟨s.length, Delimiter.toCloser_eq_some_iff.2 ⟨s, u, rfl, hs, rfl⟩, by rw [take_left]⟩

namespace Spelled

variable {R : Text → Text → Prop} {t t' : Text} (h : Spelled R t t')
include h

theorem behind? (d : Delimiter) (depth : Nat) : d.behind? depth t' = d.behind? depth t := by
  have hpass : ∀ {v : Text}, v.IsWord → ∀ (u : Text) (depth : Nat),
      d.behind? depth (v ++ u) = d.behind? depth u := by
    intro v hv u depth
    have hplain := fun b hb => plain_of_isWordByte (hv.2 b hb)
    rw [Delimiter.behind?_append, Delimiter.behind?_of_not_mem
      (fun hmem => Delimiter.ne_opener_of_plain (hplain _ hmem) d rfl)
      (fun hmem => Delimiter.ne_closer_of_plain (hplain _ hmem) d rfl), Option.bind_some]
  induction h generalizing depth with
  | nil => rfl
  | apart _ _ ih => simp only [Delimiter.behind?, ih]
  | word hw hw' _ _ _ ih => rw [hpass hw, hpass hw', ih]

theorem length_stretches (depth : Int) : (stretches depth t').length = (stretches depth t).length := by
  have hpass : ∀ {v : Text}, v.IsWord → ∀ (u : Text) (depth : Int),
      (stretches depth (v ++ u)).length = (stretches depth u).length := by
    intro v hv u depth
    rw [stretches_append_of_not_mem (hv.not_mem rfl), weight_of_plain fun b hb =>
      plain_of_isWordByte (hv.2 b hb),
      Int.add_zero, length_glue (stretches_ne_nil _ _)]
  induction h generalizing depth with
  | nil => rfl
  | apart _ _ ih =>
    simp only [stretches]
    split
    · rw [length_cons, length_cons, ih]
    · rw [length_glue (stretches_ne_nil _ _), length_glue (stretches_ne_nil _ _), ih]
  | word hw hw' _ _ _ ih => rw [hpass hw, hpass hw', ih]

theorem arity?_of_some {n : Nat} (hn : t.arity? = some n) : t'.arity? = some n := by
  obtain ⟨s, u, rfl, hclosed, rfl⟩ := arity?_eq_some.1 hn
  obtain ⟨s', u', rfl, hs, -⟩ := h.exists_of_append_cons (c := 41) rfl
  refine arity?_eq_some.2 ⟨s', u', rfl, (hs.behind? .paren 0).trans hclosed, ?_⟩
  rw [hs.length_stretches, hs.all_isBlank]

/-- **Replaced words leave every argument in place.** -/
theorem arity?_eq : t'.arity? = t.arity? := Option.ext fun _ => ⟨h.symm.arity?_of_some, h.arity?_of_some⟩

end Spelled

end Text

namespace Call

/-- How many arguments a call has between its parentheses, if they match. -/
def arity? (m : Text) (c : Call) : Option Nat :=
  (c.closeParen? m).bind fun close => (m.splitArgs c.openParen close).toOption.map length

theorem length_trimmed (i : Nat) (xs : List Text) : (trimmed i xs).length = xs.length := by
  induction xs generalizing i with
  | nil => rfl
  | cons x xs ih => rw [trimmed, length_cons, length_cons, ih]

theorem arity?_append (l r : Text) (range : Range) : arity? (l ++ 40 :: r) ⟨range, l.length⟩ = r.arity? := by
  unfold arity? closeParen?
  cases hclose : (l ++ 40 :: r).matching? l.length with
  | none =>
    refine (Option.eq_none_iff_forall_ne_some.2 fun n hn => ?_).symm
    obtain ⟨s, u, rfl, hs, -⟩ := arity?_eq_some.1 hn
    have hsome := (matching?_paren (l := l)).2 ⟨s, u, rfl, hs, rfl⟩
    rw [hclose] at hsome
    cases hsome
  | some close =>
    obtain ⟨s, u, rfl, hs, rfl⟩ := matching?_paren.1 hclose
    rw [Option.bind_some, splitArgs_list, arity?_eq_some.2 ⟨s, u, rfl, hs, rfl⟩]
    change some (length _) = some _
    split
    · rfl
    · rw [length_trimmed]

end Call

namespace Builtin

/-- The functions that are renamed wherever they are called, with their new names. -/
def table (modulus : Modulus) : List (Text × Text) := ("mod", modulus.functionName) :: renames

/-- The edit renames a call in a masked text. -/
def Renaming (modulus : Modulus) (m : Text) (e : Edit) : Prop :=
  (∃ line ∈ table modulus, ∃ c ∈ Call.sites m line.1, e = ⟨c.nameRange, line.2⟩) ∨
    ∃ c ∈ Call.sites m "atan", c.arity? m = some 2 ∧ e = ⟨c.nameRange, "atan2"⟩

/-- The names that are not called in the result, calls of `atan` with other than two arguments apart. -/
def oldNames : List Text := ["mod", "dFdx", "dFdy", "inversesqrt"]

/-- The names of the table, old and new, are identifiers, and no new name is an old one. -/
theorem names_spec (modulus : Modulus) :
    (∀ line ∈ table modulus, (table modulus).lookup line.1 = some line.2 ∧
    line.1 ∈ oldNames ∧ line.1 ≠ ("atan" : Text) ∧ line.1.isIdentifier ∧ line.2.isIdentifier ∧
      line.2 ∉ oldNames ∧
      line.2 ≠ ("atan" : Text) ∧ line.2 ≠ ("atan2" : Text)) ∧
    (∀ n ∈ oldNames, ((table modulus).lookup n).isSome ∧ n.isIdentifier) ∧
      (table modulus).Pairwise (·.2 ≠ ·.2) ∧
    ("atan" : Text) ∉ oldNames ∧ ("atan2" : Text) ∉ oldNames ∧ ("atan2" : Text) ≠ ("atan" : Text) := by
  cases modulus <;> decide +kernel

/-- What a function is called before arguments. -/
def newName (modulus : Modulus) (n r : Text) : Text :=
  if n = ("atan" : Text) then if r.arity? = some 2 then "atan2" else n else ((table modulus).lookup n).getD n

/-- The edit at an opening parenthesis. -/
def renaming? (modulus : Modulus) (o : Text × Text) : Option Edit :=
  (named? o.1).bind fun n =>
    if newName modulus n o.2 = n then none
    else some ⟨(Call.named n o.1 o.1.length).nameRange, newName modulus n o.2⟩

/-- The edits at the opening parentheses, in order. -/
def renamings (modulus : Modulus) (m : Text) : List Edit := (openings [] m).filterMap (renaming? modulus)

theorem renaming?_eq_some {o : Text × Text} :
    renaming? modulus o = some e ↔ ∃ n, named? o.1 = some n ∧ newName modulus n o.2 ≠ n ∧
      e = ⟨(Call.named n o.1 o.1.length).nameRange, newName modulus n o.2⟩ := by
  unfold renaming?
  rw [Option.bind_eq_some_iff]
  refine exists_congr fun n => and_congr_right fun _ => ?_
  split
  · next h => simp [h]
  · next h => simp [h, eq_comm]

theorem pairwise_renamings (modulus : Modulus) (m : Text) :
    (renamings modulus m).Pairwise (·.range.start < ·.range.start) := by
  unfold renamings
  rw [pairwise_filterMap]
  refine (pairwise_openings [] m).imp_of_mem fun {o o'} ho ho' hlt e he e' he' => ?_
  obtain ⟨n, -, -, rfl⟩ := renaming?_eq_some.1 he
  obtain ⟨n', hnamed, -, rfl⟩ := renaming?_eq_some.1 he'
  exact Nat.lt_of_le_of_lt (Call.start_named_le _ _ _) (Call.lt_start_of_opening ho ho' hlt hnamed)

/-- A function that is given a new name is in the table, or it is `atan` before two arguments. -/
theorem newName_cases (modulus : Modulus) (n r : Text) :
    (∃ line ∈ table modulus, n = line.1 ∧ newName modulus n r = line.2) ∨
      n = ("atan" : Text) ∧ r.arity? = some 2 ∧ newName modulus n r = ("atan2" : Text) ∨
      newName modulus n r = n ∧ n ∉ oldNames ∧ (n = ("atan" : Text) → r.arity? ≠ some 2) := by
  unfold newName
  by_cases hatan : n = ("atan" : Text)
  · rw [if_pos hatan]
    by_cases harity : r.arity? = some 2
    · exact .inr (.inl ⟨hatan, harity, if_pos harity⟩)
    · refine .inr (.inr ⟨if_neg harity, ?_, fun _ => harity⟩)
      rw [hatan]
      exact (names_spec modulus).2.2.2.1
  · rw [if_neg hatan]
    cases hlookup : (table modulus).lookup n with
    | some new =>
      obtain ⟨before, after, htable, -⟩ := lookup_eq_some_iff.1 hlookup
      exact .inl ⟨(n, new), by rw [htable]; simp, rfl, rfl⟩
    | none =>
      refine .inr (.inr ⟨rfl, fun hold => ?_, fun h => absurd h hatan⟩)
      have := ((names_spec modulus).2.1 n hold).1
      rw [hlookup] at this
      cases this

theorem newName_of_mem {line : Text × Text} (h : line ∈ table modulus) (r : Text) :
    newName modulus line.1 r = line.2 ∧ newName modulus line.1 r ≠ line.1 := by
  obtain ⟨hlookup, hold, hatan, -, -, hnew, -⟩ := (names_spec modulus).1 line h
  have hname : newName modulus line.1 r = line.2 := by rw [newName, if_neg hatan, hlookup, Option.getD_some]
  exact ⟨hname, fun heq => hnew (by rwa [← hname, heq])⟩

theorem newName_atan (h : r.arity? = some 2) : newName modulus "atan" r = ("atan2" : Text) := by
  rw [newName, if_pos rfl, if_pos h]

theorem mem_renamings : e ∈ renamings modulus m ↔ Renaming modulus m e := by
  have hatan : IsWord ("atan" : Text) := isWordByte_of_isIdentifier (by decide)
  unfold renamings Renaming
  rw [mem_filterMap]
  constructor
  · rintro ⟨o, ho, he⟩
    obtain ⟨n, hn, hne, rfl⟩ := renaming?_eq_some.1 he
    obtain ⟨x, rfl, hx⟩ := mem_openings.1 ho
    rw [append_nil] at hx
    have hsite : ∀ {k : Text}, n = k → Call.named n o.1 o.1.length ∈ Call.sites (x ++ 40 :: o.2) k := by
      rintro k rfl
      exact (Call.mem_sites (Call.isWord_of_named? hn)).2 ⟨x, o.2, rfl,
        by rwa [← hx], by rw [hx, length_reverse]⟩
    rcases newName_cases modulus n o.2 with ⟨line, hline, hname, hnew⟩ | ⟨hname, harity, hnew⟩ | ⟨hsame, -, -⟩
    · exact .inl ⟨line, hline, _, hsite hname, by rw [hnew]⟩
    · refine .inr ⟨_, hsite hname, ?_, by rw [hnew]⟩
      rw [hx, length_reverse]
      exact (Call.arity?_append x o.2 _).trans harity
    · exact absurd hsame hne
  · rintro (⟨line, hline, c, hc, rfl⟩ | ⟨c, hc, harity, rfl⟩)
    · obtain ⟨-, -, -, hidentifier, -⟩ := (names_spec modulus).1 line hline
      obtain ⟨l, r, rfl, hnamed, rfl⟩ := (Call.mem_sites (isWordByte_of_isIdentifier hidentifier)).1 hc
      obtain ⟨hnew, hne⟩ := newName_of_mem hline r
      exact ⟨(l.reverse, r), mem_openings.2 ⟨l, rfl, by simp⟩,
        renaming?_eq_some.2 ⟨line.1, hnamed, hne, by simp [hnew]⟩⟩
    · obtain ⟨l, r, rfl, hnamed, rfl⟩ := (Call.mem_sites hatan).1 hc
      have harity : Text.arity? r = some 2 := (Call.arity?_append l r _).symm.trans harity
      refine ⟨(l.reverse, r), mem_openings.2 ⟨l, rfl, by simp⟩, renaming?_eq_some.2 ⟨"atan", hnamed, ?_, ?_⟩⟩
      · rw [newName_atan harity]
        exact (names_spec modulus).2.2.2.2.2
      · simp [newName_atan harity]

theorem swapsWord_of_mem_renamings (h : e ∈ renamings modulus m) : e.SwapsWord m := by
  have hsite : ∀ {n new : Text} {c : Call}, c ∈ Call.sites m n → n.isIdentifier → new.isIdentifier →
      Edit.SwapsWord m ⟨c.nameRange, new⟩ := by
    intro n new c hc hn hnew
    obtain ⟨i, hi, hsite⟩ := mem_filterMap.1 hc
    obtain ⟨openParen, -, rfl⟩ := Option.map_eq_some_iff.1 hsite
    obtain ⟨l, r, hsplit, rfl, hl, hr⟩ := (mem_findWord (isWordByte_of_isIdentifier hn)).1 hi
    exact ⟨l, n, r, hsplit, hl, hr, rfl, hn, hnew⟩
  rcases mem_renamings.1 h with ⟨line, hline, c, hc, rfl⟩ | ⟨c, hc, -, rfl⟩
  · obtain ⟨-, -, -, hold, hnew, -⟩ := (names_spec modulus).1 line hline
    exact hsite hc hold hnew
  · exact hsite hc (by decide) (by decide)

/-- The parenthesis with the call before it renamed and its arguments in place. -/
def Renamed (modulus : Modulus) (o o' : Text × Text) : Prop :=
  named? o'.1 = (named? o.1).map (newName modulus · o.2) ∧ o'.2.arity? = o.2.arity?

/-- **What is called at each parenthesis of the text with its calls renamed.** -/
theorem forall₂_openings {m' : Text} (h : Edit.Replaces 0 m (renamings modulus m) m') :
    List.Forall₂ (Renamed modulus) (openings [] m) (openings [] m') := by
  have hmeets := @Edit.Replaces.openings _ _ _ _ h [] [] [] rfl (.nil 0) (.inl fun b hb => by cases hb)
  simp only [reverse_nil, nil_append] at hmeets
  refine ((forall₂_and_left _ _).2 ⟨fun o ho => ho, hmeets⟩).imp ?_
  rintro o o' ⟨ho, es₁, es₂, hes, hleft, hright⟩
  refine ⟨?_, hright.spelled.arity?_eq⟩
  have hnamed := hleft.named?
  rw [reverse_reverse, reverse_reverse, length_reverse] at hnamed
  rcases hnamed with ⟨hnone, hnone'⟩ | ⟨n, n', hn, hn', hkept | hmem⟩
  · rw [hnone, hnone', Option.map_none]
  · obtain ⟨rfl, hkept⟩ := hkept
    rw [hn, hn', Option.map_some, Option.some.injEq, eq_comm]
    by_contra hne
    have hedit : _ ∈ renamings modulus m := mem_filterMap.2 ⟨o, ho, renaming?_eq_some.2 ⟨n', hn, hne, rfl⟩⟩
    rw [hes] at hedit
    rcases mem_append.1 hedit with hedit | hedit
    · exact hkept _ hedit rfl
    · have hle := (hright.splices.bounds _ hedit).1
      have := Call.start_named_le n' o.1 o.1.length
      dsimp only at hle
      omega
  · have hedit : _ ∈ renamings modulus m := hes ▸ mem_append_left es₂ hmem
    obtain ⟨o₂, ho₂, hrenaming⟩ := mem_filterMap.1 hedit
    obtain ⟨k, hk, -, heq⟩ := renaming?_eq_some.1 hrenaming
    have hstart : (Call.named n o.1 o.1.length).nameRange.start =
        (Call.named k o₂.1 o₂.1.length).nameRange.start :=
      congrArg (·.range.start) heq
    obtain rfl : o₂ = o := by
      refine Call.eq_of_length ho₂ ho ?_
      rcases Nat.lt_trichotomy o₂.1.length o.1.length with hlt | heq | hlt
      · have := Call.lt_start_of_opening ho₂ ho hlt hn
        have := Call.start_named_le k o₂.1 o₂.1.length
        omega
      · exact heq
      · have := Call.lt_start_of_opening ho ho₂ hlt hk
        have := Call.start_named_le n o.1 o.1.length
        omega
    cases hn.symm.trans hk
    rw [hn, hn', Option.map_some]
    exact congrArg some (congrArg Edit.replacement heq)

theorem isBinary_eq {l : Text} (range : Range) :
    isBinary (l ++ 40 :: r) ⟨range, l.length⟩ = .ok (decide (Text.arity? r = some 2)) := by
  unfold isBinary Call.closeParen?
  cases hclose : (l ++ 40 :: r).matching? l.length with
  | none =>
    have harity := Call.arity?_append l r range
    rw [Call.arity?, Call.closeParen?, hclose, Option.bind_none] at harity
    rw [← harity]
    rfl
  | some close =>
    obtain ⟨s, u, rfl, hs, rfl⟩ := matching?_paren.1 hclose
    have harity := Call.arity?_append l (s ++ 41 :: u) range
    rw [Call.arity?, Call.closeParen?, hclose, Option.bind_some, splitArgs_list] at harity
    rw [← harity]
    dsimp only
    rw [splitArgs_list]
    generalize (if s.all isBlank then [] else trimmed (l.length + 1) (stretches 0 s)) = args
    exact congrArg Except.ok (Bool.eq_iff_iff.2 (by simp [Except.toOption]))

theorem filterM_eq {α : Type} {f : α → Checked Bool} {g : α → Bool} {xs : List α}
    (h : ∀ x ∈ xs, f x = .ok (g x)) :
    xs.filterM f = .ok (xs.filter g) := by
  have haux : ∀ acc, xs.filterAuxM f acc = .ok ((xs.filter g).reverse ++ acc) := by
    induction xs with
    | nil => exact fun acc => rfl
    | cons x xs ih =>
      intro acc
      obtain ⟨hx, hxs⟩ := forall_mem_cons.1 h
      rw [filterAuxM, hx]
      change filterAuxM f xs (cond (g x) (x :: acc) acc) = _
      rw [ih hxs]
      cases hg : g x <;> simp [hg]
  rw [filterM, haux]
  change Except.ok _ = Except.ok _
  simp

theorem renameArctangent_eq (m : Text) : renameArctangent m =
      .ok (((Call.sites m "atan").filter (·.arity? m = some 2)).map fun c => ⟨c.nameRange, "atan2"⟩) := by
  have hbinary : ∀ c ∈ Call.sites m "atan", isBinary m c = .ok (decide (c.arity? m = some 2)) := by
    intro c hc
    obtain ⟨l, r, rfl, -, rfl⟩ := (Call.mem_sites (isWordByte_of_isIdentifier (by decide))).1 hc
    exact (isBinary_eq _).trans
      (by rw [← Call.arity?_append l r (Call.named "atan" l.reverse l.length).nameRange]; rfl)
  unfold renameArctangent
  rw [filterM_eq hbinary]
  rfl

/-- The edits of the step. -/
def edits (modulus : Modulus) (m : Text) : List Edit :=
  rename m "mod" modulus.functionName ++ renames.flatMap (fun (old, new) => rename m old new) ++
    ((Call.sites m "atan").filter (·.arity? m = some 2)).map fun c => ⟨c.nameRange, "atan2"⟩

theorem mem_edits : e ∈ edits modulus m ↔ Renaming modulus m e := by
  simp only [edits, rename, Renaming, table, mem_append, mem_map, mem_flatMap, mem_cons,
    mem_filter, decide_eq_true_eq, exists_eq_left, or_and_right, exists_or, and_assoc, eq_comm (b := e)]

theorem nodup_sites (hne : n ≠ []) (m new : Text) {p : Call → Bool} :
    (((Call.sites m n).filter p).map fun c => (⟨c.nameRange, new⟩ : Edit)).Nodup := by
  refine List.Pairwise.map _ ?_ ((Call.pairwise_sites hne m).filter p)
  intro c d hlt heq
  have := congrArg (·.range.start) heq
  dsimp only at this
  omega

theorem nodup_edits (modulus : Modulus) (m : Text) : (edits modulus m).Nodup := by
  have hvalues := (names_spec modulus).2.2.1
  have hreplacement : ∀ {line : Text × Text} {e : Edit}, e ∈ rename m line.1 line.2 →
      e.replacement = line.2 := by
    intro line e he
    obtain ⟨c, -, rfl⟩ := mem_map.1 he
    rfl
  have htable : ((table modulus).flatMap fun line => rename m line.1 line.2).Nodup := by
    refine nodup_flatMap.2 ⟨fun line hline => ?_, hvalues.imp fun {a b} hne e ha hb => hne ?_⟩
    · have hidentifier := ((names_spec modulus).1 line hline).2.2.2.1
      simpa [rename] using nodup_sites (p := fun _ => true)
        (isWordByte_of_isIdentifier hidentifier).1 m line.2
    · rw [← hreplacement ha, hreplacement hb]
  have hedits : edits modulus m = ((table modulus).flatMap fun line => rename m line.1 line.2) ++
    ((Call.sites m "atan").filter (·.arity? m = some 2)).map fun c => ⟨c.nameRange, "atan2"⟩ := rfl
  rw [hedits]
  refine nodup_append.2 ⟨htable, nodup_sites (by decide) m _, fun e he f hf heq => ?_⟩
  obtain ⟨line, hline, he⟩ := mem_flatMap.1 he
  obtain ⟨c, -, rfl⟩ := mem_map.1 hf
  exact ((names_spec modulus).1 line hline).2.2.2.2.2.2.2 (by rw [← hreplacement he, heq])

theorem edits_perm (modulus : Modulus) (m : Text) : (edits modulus m).Perm (renamings modulus m) := by
  have hnodup : (renamings modulus m).Nodup := (pairwise_renamings modulus m).imp fun hlt heq => by
    rw [heq] at hlt
    exact Nat.lt_irrefl _ hlt
  exact (perm_ext_iff_of_nodup (nodup_edits modulus m) hnodup).2 fun e => mem_edits.trans mem_renamings.symm

end Builtin

namespace Edit.SwapsWord

variable {m : Text} {e : Edit} (h : e.SwapsWord m)
include h

theorem sits : e.Sits m e := by
  obtain ⟨l, w, r, hm, -, -, hrange, hold, hnew⟩ := h
  have hword := isWordByte_of_isIdentifier hnew
  have hslash : 47 ∉ e.replacement := hword.not_mem rfl
  refine ⟨rfl, ⟨l, w, r, hrange ▸ (isWordByte_of_isIdentifier hold).stands hm⟩, hword.1,
    (bare_of_not_mem hslash).maskUpTo (by decide), fun _ => ?_,
    fun hlast => absurd (mem_of_getLast? hlast) hslash⟩
  exact ⟨fun hhead => hslash (mem_of_mem_head? hhead), fun hhead =>
    hword.not_mem rfl (mem_of_mem_head? (a := 42) hhead)⟩

theorem isAscii : e.replacement.IsAscii := by
  obtain ⟨l, w, r, -, -, -, -, -, hnew⟩ := h
  exact (isWordByte_of_isIdentifier hnew).isCode.isAscii

theorem isBoundary (hm : m.Encoded) : m.isBoundary e.range.start ∧ m.isBoundary e.range.stop := by
  obtain ⟨l, w, r, rfl, -, -, hrange, hold, -⟩ := h
  obtain ⟨cs, hcs⟩ := hm
  have hword := isWordByte_of_isIdentifier hold
  rw [hrange]
  rw [hcs]
  exact TypeName.isBoundary_of_cut (by rw [← hcs, cut_append]) hword.1 hword.isCode.isAscii

end Edit.SwapsWord

namespace Builtin

/-- What the step reports of a masked text. -/
def reported (modulus : Modulus) (m : Text) : List Diagnostic :=
  if modulus = .approximate then approximated (Call.sites m "mod") else []

theorem lower_of_apply (h : Edit.apply (edits modulus source.mask) source = .ok target) :
    lower modulus source = .ok (reported modulus source.mask, target) := by
  have hedits : lower modulus source = (Edit.apply (edits modulus source.mask) source).map
      (reported modulus source.mask, ·) := by
    unfold lower
    dsimp only
    rw [renameArctangent_eq]
    cases modulus <;> rfl
  rw [hedits, h]
  rfl

/-- **Renaming calls leaves everything but the names of the calls.** -/
theorem lower_eq (modulus : Modulus) (h : source.Encoded) :
    ∃ target, lower modulus source = .ok (reported modulus source.mask, target) ∧
      Edit.Splices 0 source (renamings modulus source.mask) target ∧
      Edit.Replaces 0 source.mask (renamings modulus source.mask) target.mask := by
  have hswaps := fun e he => @swapsWord_of_mem_renamings e modulus source.mask he
  obtain ⟨m', hm'⟩ := Edit.exists_replaces hswaps (pairwise_renamings modulus source.mask)
  obtain ⟨target, happly, hsplices, rfl⟩ := hm'.splices.apply_unmasked
    (forall₂_same.2 fun e he => (hswaps e he).sits) (fun e he => (hswaps e he).isAscii)
    (fun e he => (hswaps e he).isBoundary h.mask) (edits_perm modulus source.mask)
  exact ⟨target, lower_of_apply happly, hsplices, hm'⟩

/-! Nothing is left to rename. -/

theorem Renamed.settled {o o' : Text × Text} (h : Renamed modulus o o')
    (hn' : named? o'.1 = some n') : n' ∉ oldNames ∧ (n' = ("atan" : Text) → o'.2.arity? ≠ some 2) := by
  obtain ⟨hnamed, harity⟩ := h
  obtain ⟨n, -, rfl⟩ := Option.map_eq_some_iff.1 (hnamed.symm.trans hn')
  rw [harity]
  rcases newName_cases modulus n o.2 with ⟨line, hline, -, hnew⟩ | ⟨-, -, hnew⟩ | ⟨hsame, hold, hatan⟩
  · obtain ⟨-, -, -, -, -, hold, hatan, -⟩ := (names_spec modulus).1 line hline
    rw [hnew]
    exact ⟨hold, fun h => absurd h hatan⟩
  · rw [hnew]
    exact ⟨(names_spec modulus).2.2.2.2.1, fun h => absurd h (names_spec modulus).2.2.2.2.2⟩
  · rw [hsame]
    exact ⟨hold, hatan⟩

section

variable {modulus : Modulus} {m m' : Text} (h : Edit.Replaces 0 m (renamings modulus m) m')
include h

theorem settled {o' : Text × Text} (ho' : o' ∈ openings [] m') (hn' : named? o'.1 = some n') :
    n' ∉ oldNames ∧ (n' = ("atan" : Text) → o'.2.arity? ≠ some 2) := by
  obtain ⟨o, -, hrenamed⟩ := exists_of_mem_right (forall₂_openings h) ho'
  exact hrenamed.settled hn'

/-- **Nothing is left to rename**, whatever is to stand for `mod`. -/
theorem renamings_eq_nil (modulus' : Modulus) : renamings modulus' m' = [] := by
  refine filterMap_eq_nil_iff.2 fun o' ho' => Option.eq_none_iff_forall_ne_some.2 fun e he => ?_
  obtain ⟨n, hn, hne, -⟩ := renaming?_eq_some.1 he
  obtain ⟨hold, hatan⟩ := settled h ho' hn
  rcases newName_cases modulus' n o'.2 with ⟨line, hline, rfl, -⟩ | ⟨heq, harity, -⟩ | ⟨hsame, -⟩
  · exact hold ((names_spec modulus').1 line hline).2.1
  · exact hatan heq harity
  · exact hne hsame

theorem sites_eq_nil (hn : n ∈ oldNames) : Call.sites m' n = [] := by
  rw [Call.sites_eq (isWordByte_of_isIdentifier ((names_spec modulus).2.1 n hn).2), map_eq_nil_iff,
    filter_eq_nil_iff]
  intro o' ho' hnamed
  exact (settled h ho' (by simpa using hnamed)).1 hn

theorem arity?_ne_two {c : Call} (hc : c ∈ Call.sites m' "atan") : c.arity? m' ≠ some 2 := by
  obtain ⟨l, r, rfl, hnamed, rfl⟩ := (Call.mem_sites (isWordByte_of_isIdentifier (by decide))).1 hc
  have harity := Call.arity?_append l r (Call.named "atan" l.reverse l.length).nameRange
  intro htwo
  have ho : (l.reverse, r) ∈ openings [] (l ++ 40 :: r) := mem_openings.2 ⟨l, rfl, by simp⟩
  exact (settled h ho hnamed).2 rfl (harity.symm.trans htwo)

omit h in
theorem length_filter_sites (m : Text) (k : Option Nat) :
    ((Call.sites m "atan").filter (·.arity? m = k)).length =
      ((openings [] m).filter fun o =>
        decide (named? o.1 = some ("atan" : Text) ∧ o.2.arity? = k)).length := by
  rw [Call.sites_eq (isWordByte_of_isIdentifier (by decide)), filter_map, length_map, filter_filter]
  congr 1
  refine filter_congr fun o ho => ?_
  obtain ⟨x, rfl, hx⟩ := mem_openings.1 ho
  rw [append_nil] at hx
  have harity := Call.arity?_append x o.2 (Call.named "atan" o.1 o.1.length).nameRange
  have hlength : x.length = o.1.length := by rw [hx, length_reverse]
  rw [hlength] at harity
  have harity' : (Call.named "atan" o.1 o.1.length).arity? (x ++ 40 :: o.2) = o.2.arity? := harity
  rw [Function.comp_apply, harity', Bool.eq_iff_iff]
  simp [and_comm]

theorem length_atan {k : Option Nat} (hk : k ≠ some 2) :
    ((Call.sites m' "atan").filter (·.arity? m' = k)).length =
      ((Call.sites m "atan").filter (·.arity? m = k)).length := by
  rw [length_filter_sites, length_filter_sites]
  refine ((rel_filter ?_ (forall₂_openings h)).length_eq).symm
  rintro o o' ⟨hnamed, harity⟩
  simp only [decide_eq_true_eq]
  rw [hnamed, harity, Option.map_eq_some_iff]
  refine and_congr_left fun hk' => ?_
  subst hk'
  constructor
  · intro hatan
    exact ⟨_, hatan, by rw [newName, if_pos rfl, if_neg hk]⟩
  · rintro ⟨n, hn, hnew⟩
    rcases newName_cases modulus n o.2 with ⟨line, hline, -, hname⟩ | ⟨-, harity, -⟩ | ⟨hsame, -, -⟩
    · exact absurd (hname.symm.trans hnew) ((names_spec modulus).1 line hline).2.2.2.2.2.2.1
    · exact absurd harity hk
    · rw [hn, ← hsame, hnew]

end

/-- **A second run, with either function for `mod`, changes nothing and reports nothing.** -/
theorem lower_again {ds : List Diagnostic} (hsource : source.Encoded)
    (h : lower modulus source = .ok (ds, target)) (modulus' : Modulus) :
    lower modulus' target = .ok ([], target) := by
  obtain ⟨target', hlower, -, hreplaces⟩ := lower_eq modulus hsource
  obtain ⟨rfl, rfl⟩ := Prod.mk.inj (Except.ok.inj (h.symm.trans hlower))
  have hencoded : target.Encoded := (kind_encoded.builtins hsource).1 _ h
  obtain ⟨again, hagain, hsplices, -⟩ := lower_eq modulus' hencoded
  rw [renamings_eq_nil hreplaces modulus'] at hsplices
  cases hsplices
  have hreported : reported modulus' target.mask = [] := by
    rw [reported, sites_eq_nil hreplaces (by decide)]
    cases modulus' <;> rfl
  rw [hagain, hreported]

end Builtin

end GlslToMetal
