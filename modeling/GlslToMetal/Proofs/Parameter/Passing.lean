import GlslToMetal.Proofs.Item.Reading
import GlslToMetal.Proofs.Parameter
import GlslToMetal.Proofs.Parameter.Rendering
import GlslToMetal.Proofs.Program

/-! Passing parameters: what the rewriting of parameters makes of the functions of a program. A text is
rewritten piece by piece, a parameter in its list, a list in its header, a header in its item, and each
piece keeps the bytes that divide it. So the items are found again, and their headers are read as they
were, with the parameters passed. -/

namespace GlslToMetal

open List Text

variable {b : UInt8} {i : Nat} {l m t x z : Text}

theorem Edit.Splices.append {i : Nat} {t t' u u' : Text} {es fs : List Edit} (h : Splices i t es t')
    (h' : Splices (i + t.length) u fs u') : Splices i (t ++ u) (es ++ fs) (t' ++ u') := by
  induction h with
  | keep => exact h'.prepend _
  | @edit i kept old new rest rest' es hne h ih =>
    have := @Edit.Splices.edit i kept old new (rest ++ u) (rest' ++ u') (es ++ fs) hne
      (ih (by simpa [Nat.add_assoc] using h'))
    simpa using this

/-- An item at offset `i`: its header, if it has one, is `y`, and its body stands in `w` behind it. -/
structure Item.Headed (opens : Bool) (inner? : Option Range) (y w : Text) (i : Nat) (item : Item) : Prop where
  body? : item.body? = inner?.map (·.shift (i + y.length))
  header? : ∀ {l t : Text}, l.length = i → Signature.header? (l ++ y ++ (w ++ t)) item =
    if opens then some ⟨i, i + y.length⟩ else none

/-- An item stays one if its header is respelled. -/
theorem Item.Shaped.respell {item : Item} (h : Shaped i t x item) :
    ∃ (y w : Text) (opens : Bool) (inner? : Option Range), x = y ++ w ∧ (∀ r ∈ inner?, r.Within w.length) ∧
      Headed opens inner? y w i item ∧ ∀ {y' : Text}, y'.head? = y.head? →
        y'.filter divides = y.filter divides → ∀ j,
        ∃ item', Headed opens inner? y' w j item' ∧ ∀ {t' : Text}, t'.head? = t.head? →
          (t'.dropWhile isBlank).head? = (t.dropWhile isBlank).head? → Shaped j t' (y' ++ w) item' := by
  have hbegins : ∀ {y y' : Text}, y'.head? = y.head? → Begins y → Begins y' := fun h hy => by rwa [Begins, h]
  cases h with
  | @directive x hx =>
    refine ⟨[], 35 :: x, false, none, rfl, nofun, ⟨rfl, fun _ => rfl⟩, fun {y'} hhead _ j => ?_⟩
    obtain rfl : y' = [] := head?_eq_none_iff.mp hhead
    exact ⟨.directive ⟨j, j + 1 + x.length⟩, ⟨rfl, fun _ => rfl⟩, fun hline _ =>
      .directive (directiveTail_before hline hx)⟩
  | @statement y hrun hy =>
    have hheaded : ∀ (y : Text) i,
      Headed (!y.contains 61) none y [59] i (.statement i (i + y.length)) := fun y i =>
      ⟨rfl, fun hl => by rw [← hl, Signature.header?, cut_append]; cases y.contains 61 <;> rfl⟩
    refine ⟨y, [59], !y.contains 61, none, rfl, nofun, hheaded y i, fun {y'} hhead hfilter j => ?_⟩
    have hsame : y'.contains 61 = y.contains 61 := by simp [mem_congr hfilter (by decide : divides 61)]
    exact ⟨_, hsame ▸ hheaded y' j, fun _ _ => .statement (hrun.of_filter hfilter) (hbegins hhead hy)⟩
  | @block y inner tail hrun hy hassigned hinner htail hlength =>
    have hheaded : ∀ (y : Text) i,
      Headed true (some ⟨1, 1 + inner.length⟩) y (123 :: (inner ++ 125 :: tail)) i (.block i
        (i + y.length) (i + y.length + 1 + inner.length)
          (i + y.length + 2 + inner.length + tail.length)) := fun y i =>
      ⟨by simp [Item.body?, Range.shift]; omega, fun hl => by rw [← hl]; rfl⟩
    refine ⟨y, _, true, some ⟨1, 1 + inner.length⟩, rfl, ?_, hheaded y i, fun {y'} hhead hfilter j =>
      ⟨_, hheaded y' j, fun _ hsemi => ?_⟩⟩
    · rintro _ ⟨⟩
      simp [Range.Within]; omega
    · exact (Shaped.block (hrun.of_filter hfilter) (hbegins hhead hy)
        (mt (mem_congr hfilter (by decide)).mp hassigned)
        hinner htail hlength).before (fun _ h => by cases h) hsemi.symm.trans

/-- The second function is the first with its parameters passed, but for its place and its body. -/
structure Signature.Passes (f g : Signature) : Prop where
  name : g.name = f.name
  returnType : g.returnType = f.returnType
  params : g.params.map Parameter.bare = f.params.map fun p => p.passed.bare

namespace Parameter

/-- The parameter is written in the masked text as marks, a type and a name. -/
def IsPlain (m : Text) (p : Parameter) : Prop :=
  ∃ w : PlainWords, w.isReference = false ∧ (spaceReferences (m.cut p.range)).words = w.words

/-- The text at offset `i` of a masked text, in which the parameters stand, becomes the other one. -/
structure Passes (m : Text) (i : Nat) (t : Text) (ps : List Parameter) (t' : Text) : Prop where
  splices : Edit.Splices i t (ps.filterMap edit?) t'
  sits : ∀ e ∈ ps.filterMap edit?, Edit.Sits m e e ∧ e.replacement.IsAscii
  isAscii : t'.IsAscii
  filter : t'.filter divides = t.filter divides

theorem Passes.keep {ps : List Parameter} (h : t.IsAscii) (hps : ps.filterMap edit? = []) :
    Passes m i t ps t :=
  ⟨hps ▸ .keep i t, hps ▸ forall_mem_nil _, h, rfl⟩

theorem Passes.append {t' u u' : Text} {ps qs : List Parameter} (h : Passes m i t ps t')
    (h' : Passes m (i + t.length) u qs u') : Passes m i (t ++ u) (ps ++ qs) (t' ++ u') where
  splices := filterMap_append ▸ h.splices.append h'.splices
  sits := filterMap_append ▸ forall_mem_append.mpr ⟨h.sits, h'.sits⟩
  isAscii := forall_mem_append.mpr ⟨h.isAscii, h'.isAscii⟩
  filter := by rw [filter_append, h.filter, h'.filter, filter_append]

/-- Texts with `b` before the first and a comma before each of the others. -/
def listed (b : UInt8) : List Text → Text
  | [] => []
  | x :: xs => b :: (x ++ listed 44 xs)

theorem listed_eq (b : UInt8) {xs : List Text} (hne : xs ≠ []) : listed b xs = b :: [44].intercalate xs := by
  induction xs generalizing b with
  | nil => exact absurd rfl hne
  | cons x xs ih =>
    cases xs with
    | nil => simp [listed]
    | cons y ys => rw [listed, ih 44 (cons_ne_nil _ _), intercalate_cons_cons, append_assoc, singleton_append]

section Masked

variable (hascii : m.IsAscii) (hbare : Bare m)
include hascii hbare

theorem passes_stretch (hm : m = l ++ x ++ z) (hl : l.getLast? ≠ some 47) {p? : Option Parameter}
    (hp? : ofText? x.strip ⟨l.length + x.leadingBlanks, l.length + x.core.length⟩ = p?)
    (hplain : ∀ p ∈ p?, IsPlain m p) :
    ∃ x', Passes m l.length x p?.toList x' ∧ ofText? x'.strip ⟨0, 0⟩ = p?.map fun p => p.passed.bare := by
  have hx : x.IsAscii := hascii.of_subset fun c hc => by simp [hm, hc]
  cases hedit : p?.bind edit? with
  | none =>
    have hsame : p?.map (fun p => p.passed.bare) = p?.map bare :=
      Option.map_congr fun p hp => by rw [passed_of_edit? (Option.bind_eq_none_iff.mp hedit p hp)]
    refine ⟨x, .keep hx (by cases p? <;> simp_all), ?_⟩
    rw [hsame, ← hp?, ofText?_eq x.strip ⟨_ + _, _⟩, Option.map_map]
    exact ofText?_eq _ _
  | some e =>
    obtain ⟨p, rfl, he⟩ := Option.bind_eq_some_iff.mp hedit
    obtain ⟨w, href, hwords⟩ := hplain p rfl
    have hrange : p.range = ⟨l.length + x.leadingBlanks, l.length + x.core.length⟩ := by
      rw [ofText?_eq] at hp?
      obtain ⟨q, -, rfl⟩ := Option.map_eq_some_iff.mp hp?
      rfl
    rw [hrange, hm, cut_trimmed] at hwords
    obtain rfl : w.read _ = p := Option.some.inj ((w.ofText?_eq hwords).symm.trans hp?)
    have hsolid : ¬ x.all isBlank := fun hblank => by simp [ofText?_of_blank hblank] at hp?
    obtain ⟨hsplit, hcore, hne⟩ := eq_strip_append hsolid
    have hm' : m = l ++ x.takeWhile isBlank ++ x.strip ++ (x.blankTail ++ z) := by
      conv_lhs => rw [hm, hsplit]
      simp
    have hpart : x.strip <:+: m := ⟨_, _, hm'.symm⟩
    obtain ⟨herange, hrenders, hfilter⟩ :=
      w.renders_edit (hascii.of_subset hpart.subset) (hbare.part hpart) hwords href he
    obtain ⟨range, new⟩ := e
    obtain rfl : range = _ := herange
    refine ⟨x.takeWhile isBlank ++ new ++ x.blankTail, ⟨?_, ?_, ?_, ?_⟩, ?_⟩
    · rw [Option.toList_some, filterMap_cons_some he, filterMap_nil, hcore, length_append, ← Nat.add_assoc]
      conv => arg 2; rw [hsplit]
      exact .edit hne (.keep _ _)
    · rw [Option.toList_some, filterMap_cons_some he, filterMap_nil, forall_mem_singleton]
      obtain ⟨hhead, hend⟩ := strip_eq_self_iff.mp (strip_strip x)
      refine ⟨⟨rfl, ⟨l ++ x.takeWhile isBlank, x.strip, x.blankTail ++ z, hm', ?_, ?_, ?_⟩, ?_,
        hrenders.bare.maskUpTo harmless_none, fun hbefore => ?_, fun hback => absurd hback hrenders.getLast⟩,
        hrenders.isCode.isAscii⟩
      · simp [hcore, leadingBlanks, Nat.add_assoc]
      · exact ⟨_, head?_eq_some_head hne, hhead _ (head?_eq_some_head hne)⟩
      · exact ⟨_, getLast?_eq_some_getLast hne, hend _ (getLast?_eq_some_getLast hne)⟩
      · rintro rfl
        obtain ⟨_, ⟨⟩, -⟩ := hrenders.first
      · have hat := before?_append (l ++ x.takeWhile isBlank) (x.strip ++ (x.blankTail ++ z))
        rw [← append_assoc, ← hm', length_append] at hat
        rw [leadingBlanks, hat, getLast?_append] at hbefore
        cases hblanks : (x.takeWhile isBlank).getLast? with
        | none => exact absurd (by simpa [hblanks] using hbefore) hl
        | some c =>
          rw [hblanks, Option.some_or, Option.some.injEq] at hbefore
          exact absurd (mem_takeWhile_imp (mem_of_getLast? hblanks)) (hbefore ▸ by decide)
    · exact forall_mem_append.mpr ⟨forall_mem_append.mpr ⟨hx.of_subset (takeWhile_sublist _).subset,
        hrenders.isCode.isAscii⟩, fun c hc => hx c (hsplit ▸ mem_append_right _ hc)⟩
    · conv_rhs => rw [hsplit]
      simp only [filter_append, hfilter]
    · rw [strip_surround all_takeWhile _ (all_blankTail x),
        strip_of_solid hrenders.first hrenders.last, hrenders.reads]
      rfl

theorem passes_listed (xs : List Text) {b : UInt8} {l : Text} (hm : m = l ++ listed b xs ++ z) (hb : b ≠ 47)
    (hplain : ∀ p ∈ declaredFrom (l.length + 1) xs, IsPlain m p) :
    ∃ xs', Passes m l.length (listed b xs) (declaredFrom (l.length + 1) xs) (listed b xs') ∧
      xs'.map (·.filter divides) = xs.map (·.filter divides) ∧
      (xs'.map strip).filterMap (ofText? · ⟨0, 0⟩) = (declaredFrom (l.length + 1) xs).map fun p =>
        p.passed.bare := by
  induction xs generalizing b l with
  | nil => exact ⟨[], .keep (forall_mem_nil _) rfl, rfl, rfl⟩
  | cons x xs ih =>
    have hlength : (l ++ [b]).length = l.length + 1 := by simp
    have hnext : (l ++ b :: x).length = l.length + 1 + x.length := by simp; omega
    rw [declaredFrom] at hplain ⊢
    obtain ⟨hfirst, hrest⟩ := forall_mem_append.mp hplain
    obtain ⟨x', hx', hread⟩ :=
      @passes_stretch (l ++ [b]) m x (listed 44 xs ++ z) hascii hbare (by simp [hm, listed])
      (by simpa using hb) _ rfl (by rw [hlength]; exact fun p hp => hfirst p (Option.mem_toList.mpr hp))
    obtain ⟨xs', hxs', hfilter, hreads⟩ :=
      @ih 44 (l ++ b :: x) (by simp [hm, listed]) (by decide) (hnext ▸ hrest)
    rw [hlength] at hx' hread
    rw [hnext] at hxs' hreads
    have hb' : Passes m l.length [b] [] [b] := .keep (hascii.of_subset (by simp [hm, listed])) rfl
    refine ⟨x' :: xs', hb'.append (hx'.append hxs'), ?_, ?_⟩
    · rw [map_cons, map_cons, hx'.filter, hfilter]
    · rw [map_cons, filterMap_cons, hread, hreads, map_append]
      cases ofText? x.strip ⟨l.length + 1 + x.leadingBlanks, l.length + 1 + x.core.length⟩ <;> rfl

/-- A header becomes another one, which reads as the function with its parameters passed wherever it
stands. -/
theorem passes_head {y : Text} {item : Item} {opens : Bool} (hm : m = l ++ y ++ z)
    (hheader : Signature.header? m item = if opens then some ⟨l.length, l.length + y.length⟩ else none)
    {f? : Option Signature} (hf : Signature.ofItem? m item = .ok f?)
    (hplain : ∀ f ∈ f?, ∀ p ∈ f.params, IsPlain m p) :
    ∃ y', Passes m l.length y (f?.toList.flatMap (·.params)) y' ∧ y'.head? = y.head? ∧
      ∀ {l' t' : Text} {item' : Item}, (l' ++ y' ++ t').IsAscii → Signature.header? (l' ++ y' ++ t') item' =
          (if opens then some ⟨l'.length, l'.length + y'.length⟩ else none) →
        ∃ f?', Signature.ofItem? (l' ++ y' ++ t') item' = .ok f?' ∧ Option.Rel Signature.Passes f? f?' := by
  have hy : y.IsAscii := hascii.of_subset fun c hc => by simp [hm, hc]
  cases opens with
  | false =>
    have hnone : ∀ {m : Text} {item : Item}, Signature.header? m item = none →
        Signature.ofItem? m item = .ok none :=
      fun h => by rw [Signature.ofItem?, h]; rfl
    obtain rfl := Except.ok.inj ((hnone hheader).symm.trans hf)
    exact ⟨y, .keep hy rfl, rfl, fun _ hheader' => ⟨none, hnone hheader', .none⟩⟩
  | true =>
    have hplaced : ∀ {l y z : Text} {item : Item}, (l ++ y ++ z).IsAscii →
        Signature.header? (l ++ y ++ z) item = some ⟨l.length, l.length + y.length⟩ →
        Signature.ofItem? (l ++ y ++ z) item =
          (Signature.ofHeader? y).map (Option.map (·.placed l.length item)) := by
      intro l y z item hascii hheader
      rw [Signature.ofItem?_of_header? hascii ⟨Nat.le_add_right _ _, by simp⟩ hheader, cut_append]
    subst hm
    rw [hplaced hascii hheader] at hf
    obtain ⟨g?, hg?, rfl⟩ := Checked.exists_of_map hf
    rcases Signature.ofHeader?_spec hy with ⟨hnone, -⟩ |
      ⟨g, lead, list, hsome, ⟨⟨behind, ⟨rfl, hfirst, hclosed⟩, hwhite⟩, hnamed⟩, hreads⟩
    · obtain rfl := Except.ok.inj (hnone.symm.trans hg?)
      exact ⟨y, .keep hy rfl, rfl, fun hascii' hheader' =>
        ⟨none, by rw [hplaced hascii' hheader', hnone]; rfl, .none⟩⟩
    · obtain rfl := Except.ok.inj (hsome.symm.trans hg?)
      have hlisted : listed 40 (stretches 0 list) = 40 :: list := by
        rw [listed_eq 40 (stretches_ne_nil 0 list), intercalate_stretches]
      have hparams : (g.placed l.length item).params =
          declaredFrom ((l ++ lead).length + 1) (stretches 0 list) := by
        simp only [Signature.placed, hreads.params, map_shift_declaredFrom, length_append]
        congr 1
        omega
      obtain ⟨xs, hpasses, hfilter, hpassed⟩ :=
        @passes_listed _ (41 :: behind ++ z) hascii hbare (stretches 0 list) 40
        (l ++ lead) (by rw [hlisted]; simp) (by decide) (hparams ▸ hplain _ rfl)
      have hne : xs ≠ [] := by
        rintro rfl
        exact stretches_ne_nil 0 list (map_eq_nil_iff.mp hfilter.symm)
      rw [hlisted, listed_eq 40 hne, ← hparams, length_append] at hpasses
      have hlist : ([44].intercalate xs).filter divides = list.filter divides := by
        simpa [divides] using hpasses.filter
      have hlead : Passes (l ++ (lead ++ 40 :: (list ++ 41 :: behind)) ++ z) l.length lead [] lead :=
        .keep (hy.of_subset (by simp)) rfl
      have hall := hlead.append
        (hpasses.append (.keep (hy.of_subset (IsSuffix.subset ⟨lead ++ 40 :: list, by simp⟩)) rfl :
        Passes _ _ (41 :: behind) [] (41 :: behind)))
      obtain ⟨g', hg', hreads'⟩ := @Signature.Layout.ofHeader? _ lead _ behind
        ⟨rfl, hfirst, (behind?_congr hlist .paren 0).trans hclosed⟩ hall.isAscii
      rw [hwhite, hnamed, if_neg (by simp)] at hg'
      refine ⟨_, by simpa using hall, by cases lead <;> rfl, fun {l' t' item'} hascii' hheader' =>
        ⟨some (g'.placed l'.length item'), by rw [hplaced hascii' hheader', hg']; rfl, .some ⟨?_, ?_, ?_⟩⟩⟩
      · exact hreads'.name.trans hreads.name.symm
      · exact hreads'.returnType.trans hreads.returnType.symm
      · rw [hparams, ← hpassed, Signature.placed, hreads'.params, map_shift_declaredFrom,
          map_bare_declaredFrom,
          stretches_intercalate hlist hfilter]

/-- The functions found in a text at offset `i` are found again in what the text becomes, wherever that
stands. With the masked text goes a text `s` of its length, the bodies in which stay what they are. -/
def FoundAgain (m : Text) (i : Nat) (t : Text) (found : List (Option Signature)) : Prop :=
  ∀ l l' sl sl' s : Text, l.length = i → m = l ++ t → l'.IsAscii → sl.length = i →
    sl'.length = l'.length → s.length = t.length →
    ∃ t' s' items' found', Item.Laid l'.length t' items' ∧ t'.head? = t.head? ∧
      (t'.dropWhile isBlank).head? = (t.dropWhile isBlank).head? ∧
      Passes m i t ((found.filterMap id).flatMap (·.params)) t' ∧
      Edit.Splices i s (((found.filterMap id).flatMap (·.params)).filterMap edit?) s' ∧
      s'.length = t'.length ∧ items'.mapM (Signature.ofItem? (l' ++ t')) = .ok found' ∧
      Forall₂ (fun f g => f.Passes g ∧ g.body?.map (sl' ++ s').cut = f.body?.map (sl ++ s).cut)
        (found.filterMap id) (found'.filterMap id)

omit hbare in
theorem FoundAgain.blank {b : UInt8} {found : List (Option Signature)} (hb : isBlank b)
    (h : FoundAgain m (i + 1) t found) : FoundAgain m i (b :: t) found := by
  intro l l' sl sl' s hl hm hl' hsl hsl' hs
  subst hl
  obtain ⟨c, s, rfl⟩ := exists_cons_of_length_eq_add_one hs
  obtain ⟨t', s', items', found', hlaid, -, hsemi, hpasses, hsplices, hlength, hread, hsame⟩ :=
    h (l ++ [b]) (l' ++ [b]) (sl ++ [c]) (sl' ++ [c]) s (by simp) (by simp [hm])
      (forall_mem_append.mpr ⟨hl', by simpa using hascii b (by simp [hm])⟩) (by simp [hsl])
      (by simp [hsl']) (by simpa using hs)
  have hkeep : Passes m l.length [b] [] [b] := .keep (hascii.of_subset (by simp [hm])) rfl
  simp only [append_assoc, singleton_append, length_append, length_singleton] at hlaid hread hsame
  exact ⟨b :: t', c :: s', items', found', .blank hb hlaid, rfl, by simpa [hb] using hsemi,
    hkeep.append hpasses, hsplices.prepend [c], by simp [hlength], hread, hsame⟩

omit hascii hbare in
theorem cut_shift_between {a b c w : Text} {n : Nat} {r : Range} (hn : a.length + b.length = n)
    (hr : r.stop ≤ w.length) : (a ++ (b ++ (w ++ c))).cut (r.shift n) = w.cut r := by
  have hdrop : (a ++ (b ++ (w ++ c))).drop n = w ++ c := by
    rw [← hn, ← length_append, ← append_assoc, drop_left]
  exact cut_shift_of_drop hdrop hr

omit hascii hbare in
/-- An item begins with a byte that is no blank. -/
theorem solid_of_shaped {x : Text} {item : Item} (h : Item.Shaped i t x item) :
    ∃ b, x.head? = some b ∧ isBlank b = false := by
  cases h with
  | directive => exact ⟨35, rfl, rfl⟩
  | @statement x _ hbegins | @block x _ _ _ hbegins =>
    cases x with
    | nil => exact ⟨_, rfl, rfl⟩
    | cons b x => exact ⟨b, rfl, (hbegins b rfl).1⟩

/-- **The step at an item**: its header becomes another one, and what stands behind the header stays. -/
theorem FoundAgain.item {x : Text} {item : Item} {f? : Option Signature}
    {fs : List (Option Signature)} (hshaped : Item.Shaped i t x item)
    (hf : Signature.ofItem? m item = .ok f?) (hplain : ∀ f ∈ f?, ∀ p ∈ f.params, IsPlain m p)
    (h : FoundAgain m (i + x.length) t fs) : FoundAgain m i (x ++ t) (f? :: fs) := by
  intro l l' sl sl' s hl hm hl' hsl hsl' hs
  subst hl
  obtain ⟨b, hb, hblank⟩ := solid_of_shaped hshaped
  obtain ⟨y, w, opens, inner?, rfl, hwithin, hheaded, hrespell⟩ := hshaped.respell
  have hm' : m = l ++ y ++ (w ++ t) := by simp [hm]
  obtain ⟨y', hpasses, hhead, hread⟩ := passes_head hascii hbare hm' (hm' ▸ hheaded.header? rfl) hf hplain
  obtain ⟨item', hheaded', hshaped'⟩ := hrespell hhead hpasses.filter l'.length
  obtain ⟨sy, sw, st, rfl, hsy, hsw, hst⟩ := exists_parts hs
  obtain ⟨sy', hsplicesY, hsylen⟩ := hpasses.splices.copy hsy (forall₂_same.2 fun _ _ => ⟨rfl, rfl⟩)
  have hkeep : Passes m (l.length + y.length) w [] w :=
    .keep (hascii.of_subset (IsInfix.subset ⟨l ++ y, t, by simp [hm]⟩)) rfl
  have hpiece := hpasses.append hkeep
  obtain ⟨t', s', items', found', hlaid, hhead', hsemi, hpasses', hsplices, hlength, hread', hsame⟩ :=
    h (l ++ (y ++ w)) (l' ++ (y' ++ w)) (sl ++ (sy ++ sw)) (sl' ++ (sy' ++ sw)) st (by simp)
      (by simp [hm]) (forall_mem_append.mpr ⟨hl', hpiece.isAscii⟩) (by simp [hsl, hsy, hsw])
      (by simp [hsl', hsylen, hsw]) hst
  have hwhole := hpiece.append hpasses'
  have hassoc : l' ++ y' ++ (w ++ t') = l' ++ (y' ++ w ++ t') := by simp
  obtain ⟨f?', hf', hrel⟩ :=
    hread (hassoc ▸ forall_mem_append.mpr ⟨hl', hwhole.isAscii⟩) (hheaded'.header? rfl)
  rw [append_assoc] at hread'
  rw [hassoc] at hf'
  rw [Outline.filterMap_id_cons]
  -- The item begins with the byte it began with, which is all that an item before it sees of it.
  have hb' : (y' ++ w).head? = some b := by rw [head?_append, hhead, ← head?_append, hb]
  have hfirst : ∀ {u v : Text}, u.head? = some b →
      (u ++ v).head? = some b ∧ ((u ++ v).dropWhile isBlank).head? = some b := by
    intro u v hu
    obtain ⟨u, rfl⟩ := head?_eq_some_iff.mp hu
    simp [hblank]
  refine ⟨y' ++ w ++ t', sy' ++ sw ++ s', item' :: items', f?' :: found', ?_, ?_, ?_, ?_, ?_, ?_, ?_, ?_⟩
  · exact .item (hshaped' hhead' hsemi) (by simpa using hlaid)
  · exact (hfirst hb').1.trans (hfirst hb).1.symm
  · exact (hfirst hb').2.trans (hfirst hb).2.symm
  · simpa [flatMap_append] using hwhole
  · have hmiddle := (hsplicesY.append (.keep _ sw)).append (by simpa [hsy, hsw, Nat.add_assoc] using hsplices)
    simpa [flatMap_append, filterMap_append] using hmiddle
  · simp [hsylen, hsw, hlength]
  · rw [mapM_cons, hf', hread']
    rfl
  · rw [Outline.filterMap_id_cons]
    simp only [append_assoc] at hsame ⊢
    cases hrel with
    | none => exact hsame
    | @some f g hfg =>
      refine .cons ⟨hfg, ?_⟩ hsame
      rw [(Signature.of_ofItem? hf').body?, hheaded'.body?, (Signature.of_ofItem? hf).body?, hheaded.body?]
      cases inner? with
      | none => rfl
      | some r =>
        -- The body stands behind a header of another length.
        have hstop : r.stop ≤ sw.length := hsw ▸ (hwithin r rfl).2
        exact congrArg some ((cut_shift_between (by rw [hsl', hsylen]) hstop).trans
          (cut_shift_between (by rw [hsl, hsy]) hstop).symm)

/-- **The functions of a text are found again in what the text becomes.** -/
theorem passes_laid {items : List Item} (h : Item.Laid i t items) {found : List (Option Signature)}
    (hfound : items.mapM (Signature.ofItem? m) = .ok found)
    (hplain : ∀ f ∈ found.filterMap id, ∀ p ∈ f.params, IsPlain m p) : FoundAgain m i t found := by
  induction h generalizing found with
  | blank hb _ ih => exact .blank hascii hb (ih hfound hplain)
  | item hshaped _ ih =>
    rw [mapM_cons] at hfound
    obtain ⟨f?, hf, hfound⟩ := Checked.exists_of_bind hfound
    obtain ⟨fs, hfs, hfound⟩ := Checked.exists_of_bind hfound
    obtain rfl := Except.ok.inj hfound
    rw [Outline.filterMap_id_cons] at hplain
    obtain ⟨hplain, hplains⟩ := forall_mem_append.mp hplain
    exact .item hascii hbare hshaped hf (fun f hf => hplain f (Option.mem_toList.mpr hf)) (ih hfs hplains)
  | @run i x hrun hbegins =>
    obtain rfl := Except.ok.inj hfound
    intro l l' sl sl' s hl hm hl' hsl hsl' hs
    exact ⟨x, s, [], [], .run hrun hbegins, rfl, rfl, .keep (hascii.of_subset (by simp [hm])) rfl,
      .keep i s, hs, rfl, .nil⟩
  | @unterminated i x t d hrun hbegins hclose =>
    obtain rfl := Except.ok.inj hfound
    intro l l' sl sl' s hl hm hl' hsl hsl' hs
    exact ⟨_, s, _, [none], .unterminated hrun hbegins hclose, rfl, rfl,
      .keep (hascii.of_subset (by simp [hm])) rfl, .keep i s, hs, rfl, .nil⟩

end Masked

theorem edit?_passed {p q : Parameter} (h : p.bare = q.passed.bare) : p.edit? = none := by
  have hbare : ∀ p : Parameter, p.bare.edit? = none → p.edit? = none := by
    rintro ⟨type, qualifier, name, isConst, isReference, suffix, range⟩
    cases qualifier <;> cases suffix <;> simp [edit?, bare]
  refine hbare p (h ▸ ?_)
  obtain ⟨type, qualifier, name, isConst, isReference, suffix, range⟩ := q
  cases qualifier <;> cases suffix <;> rfl

/-- The parameter is an output array, which cannot be passed by reference. -/
def isOutputArray (p : Parameter) : Bool :=
  (p.qualifier == .output || p.qualifier == .inOut) && p.arraySuffix.isSome

theorem filterMap_diagnostic? (function : Text) (ps : List Parameter) :
    ps.filterMap (diagnostic? function) = (ps.filter isOutputArray).map (outputArray function) := by
  induction ps with
  | nil => rfl
  | cons p ps ih =>
    rw [filterMap_cons, filter_cons, ih]
    unfold diagnostic? isOutputArray
    cases p.qualifier <;> cases p.arraySuffix <;> rfl

/-- **Rewriting the parameters of a program passes them, and changes nothing else of its functions.** -/
theorem lower_passes_parameters {source : Text} (h : source.IsAscii) {fs : List Signature}
    (hfs : Program.functions source = .ok fs) (hplain : ∀ f ∈ fs, ∀ p ∈ f.params, p.IsPlain source.mask) :
    ∃ text gs, lower source =
      .ok (fs.flatMap fun f => (f.params.filter isOutputArray).map (outputArray f.name), text) ∧
      Program.functions text = .ok gs ∧
      Forall₂ (fun f g => f.Passes g ∧ g.body?.map text.cut = f.body?.map source.cut) fs gs ∧
      lower text = .ok (gs.flatMap fun g =>
        (g.params.filter isOutputArray).map (outputArray g.name), text) := by
  obtain ⟨found, hfound, hfs'⟩ := Checked.exists_of_bind hfs
  obtain rfl := Except.ok.inj hfs'
  obtain ⟨m', s', items', found', hlaid, -, -, hpasses, hsplices, -, hread, hsame⟩ :=
    passes_laid h.mask (bare_mask source) (laid_items source.mask) hfound hplain [] [] [] [] source rfl
      rfl (forall_mem_nil _) rfl rfl (length_mask source).symm
  obtain ⟨text, happly, htext, rfl⟩ :=
    hpasses.splices.apply_unmasked (forall₂_same.2 fun e he => (hpasses.sits e he).1)
    (fun e he => (hpasses.sits e he).2) (fun e he => by
      have hbounds := hpasses.splices.bounds e he
      exact ⟨isBoundary_of_isAscii h.mask (by omega), isBoundary_of_isAscii h.mask (by omega)⟩) (.refl _)
  obtain rfl : s' = text := by
    have hfirst := @Edit.Splices.spliced _ _ _ _ hsplices [] rfl
    exact hfirst.symm.trans (@Edit.Splices.spliced _ _ _ _ htext [] rfl)
  have hgs : Program.functions s' = .ok (found'.filterMap id) := by
    rw [Program.functions, show s'.mask.items = items' from hlaid.scan]
    exact congrArg (· >>= _) hread
  have hnone : (found'.filterMap id).flatMap (fun g => g.params.filterMap edit?) = [] := by
    refine flatMap_eq_nil_iff.mpr fun g hg => filterMap_eq_nil_iff.mpr fun p hp => ?_
    obtain ⟨f, -, hfg, -⟩ := exists_of_mem_right hsame hg
    obtain ⟨q, -, hq⟩ := mem_map.mp (hfg.params ▸ mem_map_of_mem hp)
    exact edit?_passed hq.symm
  have hlower : ∀ {source text : Text} {fs : List Signature}, Program.functions source = .ok fs →
      Edit.apply (fs.flatMap fun f => f.params.filterMap edit?) source = .ok text →
      lower source = .ok (fs.flatMap fun f =>
        (f.params.filter isOutputArray).map (outputArray f.name), text) := by
    intro source text fs hfs happly
    simp only [lower, hfs, bind, Except.bind, happly, filterMap_diagnostic?]
    rfl
  rw [filterMap_flatMap] at happly
  refine ⟨s', found'.filterMap id, hlower hfs happly, hgs, hsame, hlower hgs ?_⟩
  rw [hnone, Edit.apply_eq_spliced (forall_mem_nil _)]
  rfl

def mixedProgram : Text := "void f(const in vec3 a, /* q */ out float v[2], inout T t) \x7bt;\x7d\n"

def mixedSignature : Signature where
  name := "f"
  returnType := "void"
  params := [⟨"vec3", .input, "a", true, false, none, ⟨7, 22⟩⟩,
    ⟨"float", .output, "v", false, false, some ("[2]" : Text), ⟨32, 46⟩⟩,
      ⟨"T", .inOut, "t", false, false, none, ⟨48, 57⟩⟩]
  range := ⟨0, 63⟩
  nameRange := ⟨5, 6⟩
  openParen := 6
  closeParen := 57
  body? := some ⟨60, 62⟩

theorem lower_passes_parameters_mixed : Program.functions mixedProgram = .ok [mixedSignature] ∧
    ∃ text gs, lower mixedProgram =
      .ok ((mixedSignature.params.filter isOutputArray).map (outputArray mixedSignature.name),
        text) ∧
      Program.functions text = .ok gs ∧
      Forall₂ (fun f g => f.Passes g ∧ g.body?.map text.cut = f.body?.map mixedProgram.cut)
        [mixedSignature] gs := by
  have hfs : Program.functions mixedProgram = .ok [mixedSignature] := by
    unfold mixedProgram mixedSignature
    repeat rw [ofString_ofList]
    decide +kernel
  have hplain : ∀ p ∈ mixedSignature.params, p.IsPlain mixedProgram.mask := by
    refine forall_mem_cons.mpr ⟨?_, forall_mem_cons.mpr ⟨?_, forall_mem_cons.mpr ⟨?_, forall_mem_nil _⟩⟩⟩
    · exact ⟨⟨[.const, .input], "vec3", false, "a", none, fun m =>
        by cases m <;> decide, by decide, by decide, nofun⟩,
        rfl, by decide +kernel⟩
    · exact ⟨⟨[.output], "float", false, "v", some ("2" : Text), fun m =>
        by cases m <;> decide, by decide, by decide,
        fun _ h => by cases h; decide⟩, rfl, by decide +kernel⟩
    · exact ⟨⟨[.inOut], "T", false, "t", none, fun m => by cases m <;> decide, by decide, by decide, nofun⟩,
        rfl, by decide +kernel⟩
  have hascii : mixedProgram.IsAscii := by decide +kernel
  obtain ⟨text, gs, hlower, hgs, hsame, -⟩ := lower_passes_parameters hascii hfs (by simpa using hplain)
  exact ⟨hfs, text, gs, by simpa using hlower, hgs, hsame⟩

end Parameter

end GlslToMetal
