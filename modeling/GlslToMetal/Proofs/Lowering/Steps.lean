import GlslToMetal.Lowering.Run
import GlslToMetal.Proofs.Lowering.Global
import GlslToMetal.Proofs.Signature.Header

/-! What the steps of lowering make of a program. Each step finds its edits by scanning the masked text
and puts in words of its own and parts of the program. So a program in ASCII stays in ASCII, and one in
UTF-8 in UTF-8. In ASCII all that a step cuts out lies inside the program, so the step returns; beyond
ASCII it may fail. -/

namespace GlslToMetal

open List Text

variable {a : Ambient} {ambients : List Ambient} {cs : List Char} {edits : List Edit}
  {args ts : List Text} {n : Nat}
  {overloads : Overloads} {p : Parameter} {r : Range} {users : List Nat} {masked new source t : Text}

namespace Checked

variable {α β : Type} {P : α → Prop} {Q : β → Prop} {total : Prop}

/-- What the computation returns, if it does, has the property. -/
def Yields (x : Checked α) (P : α → Prop) : Prop := ∀ a, x = .ok a → P a

theorem yields_pure {a : α} (h : P a) : Yields (pure a) P := by
  rintro _ ⟨⟩
  exact h

theorem yields_ok {a : α} (h : P a) : Yields (.ok a) P := yields_pure h

theorem Yields.bind {x : Checked α} {f : α → Checked β} (h : x.Yields P) (hf : ∀ a, P a → (f a).Yields Q) :
    (x >>= f).Yields Q := by
  intro b hb
  obtain ⟨a, rfl, hb⟩ := exists_of_bind hb
  exact hf a (h a rfl) b hb

theorem yields_self (x : Checked α) : x.Yields (x = .ok ·) := fun _ h => h

theorem yields_mapM {f : α → Checked β} {xs : List α} (h : ∀ x ∈ xs, (f x).Yields Q) :
    (xs.mapM f).Yields fun ys => ∀ y ∈ ys, Q y := by
  intro ys hys y hy
  obtain ⟨x, hx, hf⟩ := exists_of_mem_mapM hys hy
  exact h x hx y hf

/-- What the computation returns has the property, and if `total` holds it returns. -/
def Meets (total : Prop) (x : Checked α) (P : α → Prop) : Prop := x.Yields P ∧ (total → ∃ a, x = .ok a)

theorem meets_pure {a : α} (h : P a) : Meets total (pure a) P := ⟨yields_pure h, fun _ => ⟨a, rfl⟩⟩

theorem Meets.bind {x : Checked α} {f : α → Checked β} (h : x.Meets total P)
    (hf : ∀ a, P a → (f a).Meets total Q) : (x >>= f).Meets total Q := by
  refine ⟨h.1.bind fun a ha => (hf a ha).1, fun ht => ?_⟩
  obtain ⟨a, rfl⟩ := h.2 ht
  exact (hf a (h.1 a rfl)).2 ht

theorem Meets.mono {x : Checked α} {R : α → Prop} (h : x.Meets total P) (hR : ∀ a, P a → R a) :
    x.Meets total R :=
  ⟨fun a ha => hR a (h.1 a ha), h.2⟩

theorem Returns.meets {x : Checked α} (h : x.Returns P) : x.Meets total P := by
  obtain ⟨a, rfl, ha⟩ := h
  exact meets_pure ha

theorem Meets.returns_of {x : Checked α} (h : x.Meets total P) (ht : total) : x.Returns P := by
  obtain ⟨a, ha⟩ := h.2 ht
  exact ⟨a, ha, h.1 a ha⟩

theorem Meets.returns {x : Checked α} (h : x.Meets True P) : x.Returns P := h.returns_of trivial

theorem meets_mapM {f : α → Checked β} {xs : List α} (h : ∀ x ∈ xs, (f x).Meets total Q) :
    (xs.mapM f).Meets total fun ys => ∀ y ∈ ys, Q y := by
  refine ⟨yields_mapM fun x hx => (h x hx).1, fun ht => ?_⟩
  obtain ⟨ys, hys, -⟩ := returns_mapM fun x hx => (h x hx).returns_of ht
  exact ⟨ys, hys⟩

theorem meets_filterM {p : α → Checked Bool} {xs : List α} (h : ∀ x ∈ xs, (p x).Meets total fun _ => True) :
    (xs.filterM p).Meets total (· ⊆ xs) := by
  have haux : ∀ (xs acc : List α), (∀ x ∈ xs, (p x).Meets total fun _ => True) →
      (xs.filterAuxM p acc).Meets total fun ys => ∀ y ∈ ys, y ∈ xs ∨ y ∈ acc := by
    intro xs
    induction xs with
    | nil => exact fun acc _ => meets_pure fun y hy => .inr hy
    | cons x xs ih =>
      intro acc h
      refine (h x mem_cons_self).bind fun b _ => ?_
      refine (ih _ fun x hx => h x (mem_cons_of_mem _ hx)).mono fun ys hys y hy => ?_
      rcases hys y hy with hy | hy
      · exact .inl (mem_cons_of_mem _ hy)
      · cases b with
        | false => exact .inr hy
        | true => exact (mem_cons.mp hy).elim (fun hy => .inl (mem_cons.mpr (.inl hy))) .inr
  refine (haux xs [] h).bind fun ys hys => meets_pure fun y hy => ?_
  exact (hys y (mem_reverse.mp hy)).resolve_right not_mem_nil

end Checked

open Checked

/-- A span has the range that it was made for, if it is in a text of at most 32 bits. -/
theorem Span.range_ofRange (hr : r.Within n) (hn : n < 2 ^ 32) : (Span.ofRange r).range = r := by
  have hlo : r.start.toUInt32.toNat = r.start := Nat.mod_eq_of_lt (by have := hr.1; have := hr.2; omega)
  have hhi : r.stop.toUInt32.toNat = r.stop := Nat.mod_eq_of_lt (by have := hr.2; omega)
  simp only [Span.range, Span.ofRange, hlo, hhi]

/-- The name and the type of the value are of a kind. -/
structure Ambient.Made (Is : Text → Prop) (a : Ambient) : Prop where
  name : Is a.name
  type : Is a.type

/-- The edit puts in a text of a kind, and if `total` holds it can be made in a text of `n` bytes. -/
def Edit.Made (total : Prop) (Is : Text → Prop) (n : Nat) (e : Edit) : Prop :=
  (total → e.range.Within n) ∧ Is e.replacement

/-- A kind of texts whose parts are of the kind. If `total` holds, the parts can be cut out. -/
structure Text.Kind (total : Prop) (Is : Text → Prop) : Prop extends Closed Is where
  mask {t : Text} : Is t → Is t.mask
  chars {t : Text} {cs : List Char} : Is t → cs ⊆ t.chars → Is (ofChars cs)
  slice {t : Text} {r : Range} : Is t → (total → r.Within t.length) →
    (t.slice r).Meets total fun u => Is u ∧ u = t.cut r
  range {p : Pattern} {t : Text} {r : Range} : Is t → r ∈ p.ranges t → Is (t.cut r) ∧
    (total → r.Within t.length)
  functions {t : Text} : Is t → (Program.functions t).Meets total fun fs =>
    ∀ f ∈ fs, (total → f.Sound t.length) ∧ ∀ p ∈ f.params, p.Made Is

namespace Text.Kind

variable {total : Prop} {Is : Text → Prop} (k : Kind total Is)
include k

theorem trim (h : Is t) : Is t.trim :=
  k.chars h fun _ hc => (dropWhile_sublist _).subset (charsTrimEnd_subset _ hc)

theorem words (h : Is t) : ∀ w ∈ t.words, Is w := by
  intro w hw
  obtain ⟨cs, hcs, rfl⟩ := mem_map.mp hw
  exact k.chars h (mem_of_mem_charWords hcs)

theorem literal (h : cs.all (·.val < 128)) : Is (Text.ofString (String.ofList cs)) :=
  k.ascii (isAscii_ofList h)

/-! Edits. -/

theorem applyFrom (ht : Is t) (h : ∀ e ∈ edits, e.Made total Is t.length) {cursor : Nat}
    (hcursor : total → cursor ≤ t.length) : (Edit.applyFrom t cursor edits).Meets total Is := by
  induction edits generalizing cursor with
  | nil => exact (k.slice ht fun htotal => ⟨hcursor htotal, Nat.le_refl _⟩).mono fun _ hu => hu.1
  | cons e edits ih =>
    obtain ⟨⟨hwithin, hnew⟩, hedits⟩ := forall_mem_cons.mp h
    unfold Edit.applyFrom
    split
    · exact ih hedits hcursor
    · next hge =>
      have hkept : total → Range.Within t.length ⟨cursor, e.range.start⟩ := fun htotal =>
        ⟨Nat.not_lt.mp hge, Nat.le_trans (hwithin htotal).1 (hwithin htotal).2⟩
      refine (k.slice ht hkept).bind fun kept hkept => ?_
      refine (ih hedits fun htotal => (hwithin htotal).2).bind fun after hafter => ?_
      exact meets_pure (k.append (k.append hkept.1 hnew) hafter)

/-- **Edits that put in texts of a kind keep a text of the kind.** -/
theorem apply (ht : Is t) (h : ∀ e ∈ edits, e.Made total Is t.length) : (Edit.apply edits t).Meets total Is :=
  k.applyFrom ht (fun e he => h e ((Edit.ordered_perm edits).mem_iff.mp he)) fun _ => Nat.zero_le _

theorem codeEdits {p : Pattern} (h : Is source) {replacement : Text → Text}
    (hnew : ∀ t : Text, Is t → Is (replacement t)) :
    ∀ e ∈ p.codeEdits source replacement, e.Made total Is source.length := by
  intro e he
  obtain ⟨r, hr, rfl⟩ := mem_map.mp he
  obtain ⟨hcut, hwithin⟩ := k.range (k.mask h) hr
  rw [length_mask] at hwithin
  exact ⟨hwithin, hnew _ hcut⟩

/-! Directives and type names. -/

theorem remove {ps : List Pattern} (h : Is source) :
    (Directive.remove ps source).Meets total fun r => Is r.2 := by
  induction ps generalizing source with
  | nil => exact meets_pure h
  | cons p ps ih =>
    refine (k.apply h (k.codeEdits h fun _ _ => k.nil)).bind fun result hresult => ?_
    exact (ih hresult).bind fun r hr => meets_pure hr

theorem strip (h : Is source) : (Directive.strip source).Meets total fun r => Is r.2 :=
  (k.remove h).bind fun _ hr => meets_pure hr

theorem types (h : Is source) : (TypeName.lower source).Meets total Is := by
  refine k.apply h (k.codeEdits h fun word hword => ?_)
  have hall : ∀ t ∈ TypeName.all, (t.metal : Text).IsAscii := by decide +kernel
  unfold TypeName.toMetal
  cases ht : TypeName.ofGlsl? word with
  | none => exact hword
  | some t => exact k.ascii (hall t (mem_of_find?_eq_some ht))

/-! Sampling calls and built-in functions. -/

theorem sample {surface : Text} (hsurface : Is surface) (hargs : ∀ t ∈ args, Is t) :
    Is (Sampling.sample surface args) := by
  have hlist : ∀ t ∈ Sampling.samplerName :: args, Is t := forall_mem_cons.mpr ⟨k.literal (by decide), hargs⟩
  exact k.append (k.append (k.append hsurface (k.literal (by decide)))
    (k.intercalate (k.ascii (by decide)) hlist)) (k.ascii (by decide))

theorem marked {mark arg : Text} (hmark : Is mark) (harg : Is arg) : Is (Sampling.marked mark arg) :=
  k.append (k.append (k.append hmark (k.literal (by decide))) harg) (k.literal (by decide))

theorem replacement? {f : Sampling.Function} (h : ∀ t ∈ args, Is t) :
    ∀ new ∈ Sampling.replacement? f args, Is new := by
  intro new hnew
  cases args with
  | nil => cases hnew
  | cons surface rest =>
    obtain ⟨hsurface, hrest⟩ := forall_mem_cons.mp h
    simp only [Sampling.replacement?] at hnew
    split at hnew
    · split at hnew <;> cases hnew
      · obtain ⟨hcoord, hlevel⟩ := forall_mem_cons.mp hrest
        exact k.sample hsurface (forall_mem_cons.mpr ⟨hcoord,
          forall_mem_singleton.mpr (k.marked (k.literal (by decide)) (hlevel _ mem_cons_self))⟩)
      · exact k.sample hsurface hrest
      · obtain ⟨hcoord, hbias⟩ := forall_mem_cons.mp hrest
        exact k.sample hsurface (forall_mem_cons.mpr ⟨hcoord,
          forall_mem_singleton.mpr (k.marked (k.literal (by decide)) (hbias _ mem_cons_self))⟩)
    · cases hnew

theorem site? {f : Sampling.Function} (h : Is source) {call : Call}
    (hcall : call ∈ Call.sites source.mask f.name) :
    (Sampling.site? source f call).Meets total fun s? => ∀ s ∈ s?, s.range.Within source.length ∧
      ∀ new ∈ s.replacement?, Is new := by
  have hbounds := Call.bounds_of_mem_sites hcall
  unfold Sampling.site?
  split
  · next closeParen hclose =>
    have hparens := matching?_bounds hclose
    rw [length_mask] at hparens hbounds
    refine (returns_splitArgs (by rw [length_mask]; omega)).meets.bind fun args hargs => ?_
    replace hargs := hargs.1
    have hslice : ∀ r ∈ args, (source.slice r).Meets total Is := fun r hr =>
      (k.slice h fun _ => ⟨(hargs r hr).2.1, by have := hargs r hr; omega⟩).mono fun t ht => ht.1
    refine (meets_mapM hslice).bind fun texts htexts => meets_pure fun s hs => ?_
    cases hs
    refine ⟨⟨by dsimp only; omega, by dsimp only; omega⟩, k.replacement? fun t ht => ?_⟩
    obtain ⟨u, hu, rfl⟩ := mem_map.mp ht
    exact k.trim (htexts u hu)
  · exact meets_pure (by simp)

theorem sites (h : Is source) : (Sampling.sites source).Meets total fun found => ∀ s ∈ found,
    s.range.Within source.length ∧ ∀ new ∈ s.replacement?, Is new := by
  have hsites : ∀ f, (Sampling.sitesOf source f).Meets total fun found => ∀ s ∈ found,
      s.range.Within source.length ∧ ∀ new ∈ s.replacement?, Is new := by
    intro f
    refine (meets_mapM fun call hcall => k.site? h hcall).bind fun found hfound => ?_
    refine meets_pure fun s hs => ?_
    obtain ⟨s?, hs?, hs⟩ := mem_filterMap.mp hs
    exact hfound s? hs? s hs
  refine (meets_mapM fun f _ => hsites f).bind fun found hfound => meets_pure fun s hs => ?_
  obtain ⟨group, hgroup, hs⟩ := mem_flatten.mp hs
  exact hfound group hgroup s hs

theorem sampleEdits (h : Is source) : (Sampling.sites source).Meets total fun found =>
    ∀ e ∈ Sampling.edits found, e.Made total Is source.length := by
  refine (k.sites h).mono fun found hfound e he => ?_
  obtain ⟨s, hs, he⟩ := mem_filterMap.mp he
  obtain ⟨new, hnew, rfl⟩ := Option.map_eq_some_iff.mp he
  exact ⟨fun _ => (hfound s hs).1, (hfound s hs).2 new hnew⟩

theorem passes (h : Is source) : (Sampling.passes n source).Meets total Is := by
  induction n generalizing source with
  | zero => exact meets_pure h
  | succ n ih =>
    unfold Sampling.passes
    refine (k.sampleEdits h).bind fun found hfound => ?_
    dsimp only
    split
    · exact meets_pure h
    · exact (k.apply h hfound).bind fun result hresult => ih hresult

/-- The text of a report is cut out at the ends of its span, so the step returns if these can hold the
offsets of the program. -/
theorem sampling (h : Is source) (hsize : total → source.length < 2 ^ 32) :
    (Sampling.lower source).Meets total fun r => Is r.2 := by
  refine (k.sites h).bind fun found hfound => ?_
  have hreport : ∀ s ∈ found.filter (·.replacement?.isNone),
      (do return Sampling.unsupported (← source.slice (Span.ofRange s.range).range) s.range :
        Checked Diagnostic).Meets total fun _ => True := by
    intro s hs
    have hrange := (hfound s (mem_filter.mp hs).1).1
    refine (k.slice h fun htotal => ?_).bind fun _ _ => meets_pure trivial
    rwa [Span.range_ofRange hrange (hsize htotal)]
  refine (meets_mapM hreport).bind fun diagnostics _ => ?_
  exact (k.passes h).bind fun result hresult => meets_pure hresult

omit k in
theorem rename {old : Text} (hnew : Is new) :
    ∀ e ∈ Builtin.rename masked old new, e.Made total Is masked.length := by
  intro e he
  obtain ⟨c, hc, rfl⟩ := mem_map.mp he
  have hbounds := Call.bounds_of_mem_sites hc
  exact ⟨fun _ => ⟨hbounds.1, by dsimp only; omega⟩, hnew⟩

omit k in
theorem renameArctangent (masked : Text) :
    (Builtin.renameArctangent masked).Meets total (· ⊆ Builtin.rename masked "atan" "atan2") := by
  have hbinary : ∀ c ∈ Call.sites masked "atan", (Builtin.isBinary masked c).Meets total fun _ => True := by
    intro c hc
    unfold Builtin.isBinary
    split
    · exact meets_pure trivial
    · next closeParen hclose =>
      refine (returns_splitArgs (Nat.le_of_lt (matching?_bounds hclose).2)).meets.bind fun _ _ => ?_
      exact meets_pure trivial
  refine (meets_filterM hbinary).bind fun calls hcalls => meets_pure fun e he => ?_
  obtain ⟨c, hc, rfl⟩ := mem_map.mp he
  exact mem_map.mpr ⟨c, hcalls hc, rfl⟩

theorem builtins {modulus : Modulus} (h : Is source) :
    (Builtin.lower modulus source).Meets total fun r => Is r.2 := by
  refine (renameArctangent source.mask).bind fun arctangents harctangents => ?_
  refine (k.apply h fun e he => ?_).bind fun result hresult => meets_pure hresult
  rw [← length_mask source]
  rcases mem_append.mp he with he | he
  · rcases mem_append.mp he with he | he
    · exact rename (by cases modulus <;> exact k.literal (by decide)) e he
    · obtain ⟨⟨old, new⟩, hmem, he⟩ := mem_flatMap.mp he
      have hnew : ∀ p ∈ Builtin.renames, p.2.IsAscii := by decide +kernel
      exact rename (k.ascii (hnew _ hmem)) e he
  · exact rename (k.literal (by decide)) e (harctangents he)

/-! Global variables. -/

theorem constant (ht : Is t) {head : Global.Head} (h : head.From t.chars) {dims : Text}
    (hdims : head.dims? = some dims) : Is (head.constant dims) := by
  obtain ⟨type, typeDims, name, nameDims, hsublist, htype, htypeDims, hname, hnameDims⟩ := h
  have hfrom : ∀ ds, ds ⊆ type ++ typeDims ++ name ++ nameDims → Is (ofChars ds) :=
    fun ds hds => k.chars ht (List.Subset.trans hds hsublist.subset)
  have hdims : Is dims := by
    obtain ⟨hdims, -⟩ := Option.filter_eq_some_iff.mp hdims
    split at hdims <;> cases hdims
    · next d hd _ =>
      rw [hd, Option.getD_some] at htypeDims
      exact k.flatten (k.words (htypeDims ▸ hfrom _ (by grind)))
    · next d _ hd =>
      rw [hd, Option.getD_some] at hnameDims
      exact k.flatten (k.words (hnameDims ▸ hfrom _ (by grind)))
    · exact k.nil
  exact k.append (k.append (k.append (k.append (k.literal (by decide)) (htype ▸ hfrom _ (by grind)))
    (k.literal (by decide))) (hname ▸ hfrom _ (by grind))) hdims

theorem constructorEdit? (h : Is source) (hr : r.Within source.length) :
    (Global.constructorEdit? source r).Meets total fun e? => ∀ e ∈ e?, e.Made total Is source.length := by
  have hnone : (pure none : Checked (Option Edit)).Meets total fun e? =>
      ∀ e ∈ e?, e.Made total Is source.length :=
    meets_pure (by simp)
  refine (k.slice (k.mask h) fun _ => by rwa [length_mask]).bind fun content _ => ?_
  split
  · exact hnone
  dsimp only
  generalize r.start + (content.takeWhile (· != 40)).length = opened
  split
  · next closed hclosed =>
    split
    · exact hnone
    have hbounds := matching?_bounds hclosed
    rw [length_mask] at hbounds
    have hinside : Range.Within source.length ⟨opened + 1, closed⟩ := ⟨hbounds.1, Nat.le_of_lt hbounds.2⟩
    refine (k.slice h fun _ => hinside).bind fun inner hinner => meets_pure fun e he => ?_
    cases he
    exact ⟨fun _ => hr, k.append (k.append (k.ascii (by decide)) hinner.1) (k.ascii (by decide))⟩
  · exact hnone

theorem lowerItem (h : Is source) {item : Item} (hitem : item.Within source.length) :
    (Global.lowerItem source item).Meets total fun r => ∀ e ∈ r.2, e.Made total Is source.length := by
  have hnone : (pure ([], []) : Checked (List Diagnostic × List Edit)).Meets total
      fun r => ∀ e ∈ r.2, e.Made total Is source.length := meets_pure (by simp)
  cases item with
  | statement start semicolon =>
    unfold Global.lowerItem
    dsimp only
    generalize hequals : start +
      ((source.mask.cut ⟨start, semicolon⟩).takeWhile (· != 61)).length = equals
    split
    · exact hnone
    have hsemicolon : semicolon < source.length := hitem.2
    have hfront : Range.Within source.mask.length ⟨start, equals⟩ := by
      rw [length_mask]
      exact ⟨by dsimp only; omega, by dsimp only; omega⟩
    have hback : Range.Within source.mask.length ⟨equals + 1, semicolon⟩ := by
      rw [length_mask]
      exact ⟨by dsimp only; omega, by dsimp only; omega⟩
    refine (returns_trimRange hfront).meets.bind fun headRange hheadRange => ?_
    have hhead : headRange.Within source.mask.length :=
      ⟨hheadRange.le, Nat.le_trans hheadRange.stop_le hfront.2⟩
    refine (k.slice (k.mask h) fun _ => hhead).bind fun text htext => ?_
    split
    · next head hofChars =>
      split
      · exact hnone
      split
      · next dims hdims =>
        refine (returns_trimRange hback).meets.bind fun initializer hinit => ?_
        have hwithin : initializer.Within source.length := by
          rw [← length_mask]
          exact ⟨hinit.le, Nat.le_trans hinit.stop_le hback.2⟩
        refine (k.constructorEdit? h hwithin).bind fun constructor? hconstructor => ?_
        refine meets_pure (forall_mem_cons.mpr
          ⟨⟨fun _ => ?_, k.constant htext.1 (Global.of_head hofChars).1 hdims⟩, ?_⟩)
        · rwa [length_mask] at hhead
        · exact fun e he => hconstructor e (Option.mem_toList.mp he)
      · exact hnone
    · exact hnone
  | _ => exact hnone

theorem globals (h : Is source) : (Global.lower source).Meets total fun r => Is r.2 := by
  have hitem : ∀ item ∈ source.mask.items, (Global.lowerItem source item).Meets total _ := fun item hitem =>
    k.lowerItem h (by have := Item.within_of_mem_items hitem; rwa [length_mask] at this)
  refine (meets_mapM hitem).bind fun results hresults => ?_
  refine (k.apply h fun e he => ?_).bind fun result hresult => meets_pure hresult
  obtain ⟨r, hr, he⟩ := mem_flatMap.mp he
  exact hresults r hr e he

/-! Parameters. -/

theorem edit? (h : p.Made Is) (hrange : total → p.range.Within n) : ∀ e ∈ p.edit?, e.Made total Is n := by
  have hreference : Is p.asReference :=
    k.append (k.append (k.append (k.literal (by decide)) h.type) (k.literal (by decide))) h.name
  have hvalue : Is p.asValue := by
    refine k.append (k.append (k.append ?_ h.type) ?_) ?_
    · split
      · exact k.literal (by decide)
      · exact k.nil
    · split
      · exact k.nil
      · exact k.append (k.literal (by decide)) h.name
    · cases hsuffix : p.arraySuffix with
      | none => exact k.nil
      | some suffix => exact h.arraySuffix suffix hsuffix
  intro e he
  unfold Parameter.edit? at he
  split at he
  · obtain ⟨-, he⟩ := Option.ite_none_left_eq_some.mp he
    cases he
    exact ⟨hrange, hreference⟩
  · obtain ⟨-, he⟩ := Option.ite_none_left_eq_some.mp he
    cases he
    exact ⟨hrange, hreference⟩
  · cases he
    exact ⟨hrange, hvalue⟩
  · cases he
  · cases he

theorem parameters (h : Is source) : (Parameter.lower source).Meets total fun r => Is r.2 := by
  refine (k.functions h).bind fun functions hfunctions => ?_
  refine (k.apply h fun e he => ?_).bind fun result hresult => meets_pure hresult
  obtain ⟨f, hf, he⟩ := mem_flatMap.mp he
  obtain ⟨p, hp, he⟩ := mem_filterMap.mp he
  obtain ⟨hsound, hparams⟩ := hfunctions f hf
  exact k.edit? (hparams p hp) (fun htotal => (hsound htotal).param hp) e he

/-! Ambient values. -/

theorem discover (h : Is source) (ambients : List Ambient) :
    (Usage.discover source ambients).Meets total fun _ => True := by
  refine (k.functions h).bind fun functions hfunctions => ?_
  have huse : ∀ p ∈ functions.zipIdx, (Usage.ofFunction? source.mask ambients
      (Program.entryPoint? functions) p.1 p.2).Meets total fun _ => True := by
    rintro ⟨f, index⟩ hmem
    have hsound := (hfunctions f (fst_mem_of_mem_zipIdx hmem)).1
    unfold Usage.ofFunction?
    split
    · exact meets_pure trivial
    split
    · next body hbody =>
      have hwithin : total → body.Within source.mask.length := fun htotal => by
        rw [length_mask]
        exact (hsound htotal).body body hbody
      have hnames : (Usage.namesUsed source.mask ambients f body).Meets total fun _ => True :=
        (k.slice (k.mask h) hwithin).bind fun _ _ => meets_pure trivial
      exact hnames.bind fun names _ => meets_pure trivial
    · exact meets_pure trivial
  exact (meets_mapM huse).bind fun found _ => meets_pure trivial

theorem appendEdit {last? : Option Range} {openParen closeParen : Nat} (hnew : Is new)
    (h : total → (∀ r ∈ last?, r.stop ≤ n) ∧ openParen < closeParen ∧ closeParen ≤ n) :
    (Threading.append last? openParen closeParen new).Made total Is n := by
  unfold Threading.append
  split
  · next last =>
      exact ⟨fun htotal => ⟨Nat.le_refl _, (h htotal).1 last rfl⟩,
        k.append (k.literal (by decide)) hnew⟩
  · exact ⟨fun htotal => ⟨(h htotal).2.1, (h htotal).2.2⟩, hnew⟩

theorem declarationEdit? (ha : a.Made Is) {f : Signature} (hf : total → f.Sound n) :
    ∀ e ∈ Threading.declarationEdit? a f, e.Made total Is n := by
  intro e he
  obtain ⟨-, he⟩ := Option.ite_none_left_eq_some.mp he
  cases he
  refine k.appendEdit (k.append (k.append ha.type (k.literal (by decide))) ha.name) fun htotal =>
    ⟨fun r hr => ?_, (hf htotal).parens.1, Nat.le_of_lt (hf htotal).parens.2⟩
  obtain ⟨p, hp, rfl⟩ := Option.map_eq_some_iff.mp hr
  exact ((hf htotal).param (mem_of_getLast? hp)).2

theorem callEdit? (h : Is masked) (ha : a.Made Is) {name : Text} {c : Call}
    (hc : c ∈ Call.sites masked name) :
    (Threading.callEdit? masked a users overloads name c).Meets total fun e? =>
      ∀ e ∈ e?, e.Made total Is masked.length := by
  have hnone : (pure none : Checked (Option Edit)).Meets total fun e? =>
      ∀ e ∈ e?, e.Made total Is masked.length :=
    meets_pure (by simp)
  have hbounds := Call.bounds_of_mem_sites hc
  have hcall : (Threading.isCall masked c).Meets total fun _ => True :=
    (returns_previousWord (by omega)).meets.bind fun _ _ => meets_pure trivial
  refine hcall.bind fun called _ => ?_
  split
  · exact hnone
  split
  · next closeParen hclose =>
    have hparens := matching?_bounds hclose
    refine (returns_splitArgs (Nat.le_of_lt hparens.2)).meets.bind fun args hargs => ?_
    replace hargs := hargs.1
    have hwithin : ∀ r ∈ args, r.Within masked.length := fun r hr =>
      ⟨(hargs r hr).2.1, by have := hargs r hr; omega⟩
    have hslice : ∀ r ∈ args, (masked.slice r).Meets total fun _ => True := fun r hr =>
      (k.slice h fun _ => hwithin r hr).mono fun _ _ => trivial
    refine (meets_mapM hslice).bind fun texts _ => ?_
    dsimp only
    split
    · refine meets_pure fun e he => ?_
      cases he
      exact k.appendEdit ha.name fun _ => ⟨fun r hr => (hwithin r (mem_of_getLast? hr)).2, hparens.1,
        Nat.le_of_lt hparens.2⟩
    · exact hnone
  · exact hnone

theorem threadValue (h : Is source) (ha : a.Made Is) :
    (Threading.threadValue source a users overloads).Meets total Is := by
  refine (k.functions h).bind fun functions hfunctions => ?_
  have hcalls : ∀ name ∈ Threading.namesOf overloads users, (do
        let found ← (Call.sites source.mask name).mapM
          (Threading.callEdit? source.mask a users overloads name)
        return found.filterMap id : Checked (List Edit)).Meets total
        fun edits => ∀ e ∈ edits, e.Made total Is source.length := by
    intro name _
    refine (meets_mapM fun c hc => k.callEdit? (k.mask h) ha hc).bind fun found hfound => ?_
    refine meets_pure fun e he => ?_
    obtain ⟨e?, he?, he⟩ := mem_filterMap.mp he
    have := hfound e? he? e he
    rwa [length_mask] at this
  refine (meets_mapM hcalls).bind fun calls hcalls => k.apply h fun e he => ?_
  rcases mem_append.mp he with he | he
  · obtain ⟨⟨f, id⟩, hmem, he⟩ := mem_filterMap.mp he
    dsimp only at he
    split at he
    · exact k.declarationEdit? ha (hfunctions f (of_mem_zip hmem).1).1 e he
    · cases he
  · obtain ⟨edits, hedits, he⟩ := mem_flatten.mp he
    exact hcalls edits hedits e he

theorem round (ha : ∀ a ∈ ambients, a.Made Is) (h : Is source) :
    (Threading.round ambients source overloads).Meets total fun r => Is r.1 := by
  induction ambients generalizing source overloads with
  | nil => exact meets_pure h
  | cons a ambients ih =>
    obtain ⟨hfirst, hrest⟩ := forall_mem_cons.mp ha
    unfold Threading.round
    refine (k.discover h [a]).bind fun uses _ => ?_
    dsimp only
    split
    · exact ih hrest h
    · exact (k.threadValue h hfirst).bind fun threaded hthreaded => ih hrest hthreaded

theorem rounds (ha : ∀ a ∈ ambients, a.Made Is) (h : Is source) :
    (Threading.rounds ambients n source overloads).Meets total Is := by
  induction n generalizing source overloads with
  | zero => exact meets_pure h
  | succ n ih =>
    unfold Threading.rounds
    refine (k.discover h ambients).bind fun uses _ => ?_
    split
    · exact meets_pure h
    · exact (k.round ha h).bind fun r hr => ih hr

theorem threading {mode : Propagation} (ha : ∀ a ∈ ambients, a.Made Is) {maxRounds : Option Nat}
    (h : Is source) :
    (Threading.lower mode ambients maxRounds source).Meets total fun r => Is r.2 := by
  refine (k.functions h).bind fun functions _ => ?_
  refine (k.rounds ha h).bind fun result hresult => ?_
  refine (k.discover hresult ambients).bind fun uses _ => ?_
  have hreport : (Threading.report mode result uses).Meets total fun _ => True := by
    unfold Threading.report
    split
    · exact meets_pure trivial
    · exact (k.functions hresult).bind fun _ _ => meets_pure trivial
  exact hreport.bind fun diagnostics _ => meets_pure hresult

/-- **Every step makes a text of a kind of one.** -/
theorem lowerText {s : Lowering.Settings} (ha : ∀ a ∈ s.ambients, a.Made Is) (step : Step)
    (h : Is source) (hsize : total → step = .sampling → source.length < 2 ^ 32) :
    (Lowering.lowerText s step source).Meets total fun r => Is r.2 := by
  cases step with
  | directives => exact k.strip h
  | types => exact (k.types h).bind fun result hresult => meets_pure hresult
  | sampling => exact k.sampling h fun htotal => hsize htotal rfl
  | builtins => exact k.builtins h
  | globals => exact k.globals h
  | parameters => exact k.parameters h
  | ambients => exact k.threading ha h
  | entry => exact meets_pure h
  | assembly => exact meets_pure h

end Text.Kind

/-- **The texts in ASCII are a kind of texts**, from which every part can be cut out. -/
theorem Text.kind_isAscii : Kind True IsAscii where
  toClosed := closed_isAscii
  mask := IsAscii.mask
  chars := isAscii_ofChars
  slice h hr := (returns_slice h (hr trivial)).meets.mono fun u hu => ⟨hu ▸ h.cut _, hu⟩
  range h hr := ⟨h.cut _, fun _ => Pattern.within_of_mem_ranges h hr⟩
  functions h := (Program.returns_functions h).meets.mono fun fs hfs f hf => by
    refine ⟨fun _ => hfs f hf, fun p hp => ?_⟩
    obtain ⟨hascii, -⟩ := (hfs f hf).params p hp
    exact ⟨hascii.type, hascii.name, hascii.arraySuffix⟩

end GlslToMetal
