import GlslToMetal.Proofs.Ambient.Agreement
import GlslToMetal.Proofs.Ambient.Giving
import GlslToMetal.Proofs.Lowering.Total
import Mathlib.Data.Finset.Card
import Mathlib.Data.Finset.Prod

/-! Threading settles. A function that was given a value keeps it, so every round in which a function
lacks a value gives one to a definition that did not have it, and there are at most as many rounds as
there are pairs of a definition and a value. -/

namespace GlslToMetal

open List Text Item

variable {a : Ambient} {hs : List (Option Head)} {ambients : List Ambient}
  {functions : List Signature} {j : Nat}
  {overloads overloads' : Overloads} {f : Signature} {m source t target : Text}

namespace Usage

/-- The function uses the value and lacks it. -/
def Needs (source : Text) (functions : List Signature) (f : Signature) (a : Ambient) : Prop :=
  (Program.entryPoint? functions).any (·.range.start == f.range.start) = false ∧
    ∃ body, f.body? = some body ∧ f.hasParam a.name = false ∧ (source.mask.cut body).containsWord a.name

/-- The use that a function makes. -/
theorem ofFunction?_spec (hascii : source.IsAscii)
    (hf : f.Sound source.length) (ambients : List Ambient) (index : Nat) {x : Option Use}
    (hx : ofFunction? source.mask ambients (Program.entryPoint? functions) f index = .ok x) :
    (x = none ∧ ∀ a ∈ ambients, ¬ Needs source functions f a) ∨ ∃ u, x = some u ∧ u.index = index ∧
      u.ambients ≠ [] ∧
        ∀ name, name ∈ u.ambients ↔ ∃ a ∈ ambients, a.name = name ∧ Needs source functions f a := by
  unfold ofFunction? at hx
  split at hx
  · next hentry =>
    refine .inl ⟨(Except.ok.inj hx).symm, fun a _ hneeds => ?_⟩
    rw [hneeds.1] at hentry
    cases hentry
  · next hentry =>
    rw [Bool.not_eq_true] at hentry
    cases hbody : f.body? with
    | none =>
      rw [hbody] at hx
      refine .inl ⟨(Except.ok.inj hx).symm, fun a _ hneeds => ?_⟩
      obtain ⟨-, body, hbody', -⟩ := hneeds
      rw [hbody] at hbody'
      cases hbody'
    | some body =>
      rw [hbody] at hx
      obtain ⟨hle, hstop⟩ := hf.body body hbody
      have hslice := slice_of_isAscii hascii.mask hle (by rwa [length_mask])
      obtain ⟨names, hnames, hx⟩ := Checked.exists_of_bind hx
      unfold namesUsed at hnames
      rw [hslice] at hnames
      obtain rfl := Except.ok.inj hnames
      have hmem : ∀ name, name ∈ (ambients.filter fun a =>
          !f.hasParam a.name && (source.mask.cut body).containsWord a.name).foldl
            (fun names a => a.name.placeName names) [] ↔
          ∃ a ∈ ambients, a.name = name ∧ Needs source functions f a := by
        intro name
        rw [mem_foldl_placeName fun a : Ambient => a.name]
        constructor
        · rintro (hnil | ⟨a, ha, rfl⟩)
          · cases hnil
          · obtain ⟨ha, huse⟩ := mem_filter.mp ha
            rw [Bool.and_eq_true, Bool.not_eq_true'] at huse
            exact ⟨a, ha, rfl, hentry, body, hbody, huse.1, huse.2⟩
        · rintro ⟨a, ha, rfl, -, body', hbody', hlacks, huse⟩
          obtain rfl := Option.some.inj (hbody.symm.trans hbody')
          refine .inr ⟨a, mem_filter.mpr ⟨ha, ?_⟩, rfl⟩
          rw [hlacks, huse]
          rfl
      split at hx
      · next hempty =>
        refine .inl ⟨(Except.ok.inj hx).symm, fun a ha hneeds => ?_⟩
        have := (hmem a.name).mpr ⟨a, ha, rfl, hneeds⟩
        rw [isEmpty_iff.mp hempty] at this
        cases this
      · next hempty =>
        refine .inr ⟨_, (Except.ok.inj hx).symm, rfl, fun hnil => hempty (isEmpty_iff.mpr hnil), hmem⟩

/-- **The uses in a program** are those of the functions that need a value. -/
theorem discover_spec (hascii : source.IsAscii)
    (hfunctions : Program.functions source = .ok functions) (ambients : List Ambient) :
    ∃ uses, discover source ambients = .ok uses ∧
      (∀ u ∈ uses, u.ambients ≠ [] ∧ ∃ f, functions[u.index]? = some f ∧
        ∀ name ∈ u.ambients, ∃ a ∈ ambients, a.name = name ∧ Needs source functions f a) ∧
      ∀ (i : Nat) (f : Signature) (a : Ambient), functions[i]? = some f → a ∈ ambients →
        Needs source functions f a →
        ∃ u ∈ uses, u.index = i ∧ a.name ∈ u.ambients := by
  obtain ⟨uses, huses, -⟩ := (kind_isAscii.discover hascii ambients).returns
  refine ⟨uses, huses, ?_⟩
  obtain ⟨_, hfunctions', hbind⟩ := Checked.exists_of_bind huses
  obtain rfl := Except.ok.inj (hfunctions.symm.trans hfunctions')
  obtain ⟨found, hmap, hbind⟩ := Checked.exists_of_bind hbind
  obtain rfl := Except.ok.inj hbind
  have hfound := Checked.forall₂_of_mapM hmap
  obtain ⟨_, hfunctions', hsound⟩ := Program.returns_functions hascii
  obtain rfl := Except.ok.inj (hfunctions.symm.trans hfunctions')
  refine ⟨fun u hu => ?_, fun i f a hf ha hneeds => ?_⟩
  · obtain ⟨x, hx, rfl⟩ := mem_filterMap.mp (Use.mem_foldr_place.mp hu)
    obtain ⟨k, hk⟩ := mem_iff_getElem?.mp hx
    obtain ⟨⟨f, index⟩, hindex, hf⟩ := exists_getElem?_right hfound.flip hk
    have hmem := mem_zipIdx_iff_getElem?.mp (mem_of_getElem? hindex)
    rcases ofFunction?_spec hascii (hsound f (mem_of_getElem? hmem)) ambients index hf with
      ⟨hnone, -⟩ | ⟨u', hu', rfl, hne, hnames⟩
    · cases hnone
    · obtain rfl := Option.some.inj hu'
      exact ⟨hne, f, hmem, fun name hname => (hnames name).mp hname⟩
  · have hzip : functions.zipIdx[i]? = some (f, i) := by
      rw [getElem?_zipIdx, hf, Nat.zero_add]
      rfl
    obtain ⟨x, hx, hf'⟩ := exists_getElem?_right hfound hzip
    rcases ofFunction?_spec hascii (hsound f (mem_of_getElem? hf)) ambients i hf' with
      ⟨-, hnone⟩ | ⟨u, rfl, hindex, -, hnames⟩
    · exact absurd hneeds (hnone a ha)
    · refine ⟨u, Use.mem_foldr_place.mpr (mem_filterMap.mpr ⟨some u, mem_of_getElem? hx, rfl⟩), hindex, ?_⟩
      exact (hnames a.name).mpr ⟨a, ha, rfl, hneeds⟩

theorem discover_eq_nil_iff (hascii : source.IsAscii)
    (hfunctions : Program.functions source = .ok functions) (ambients : List Ambient) :
    discover source ambients = .ok [] ↔ ∀ f ∈ functions, ∀ a ∈ ambients, ¬ Needs source functions f a := by
  obtain ⟨uses, huses, hsome, hevery⟩ := discover_spec hascii hfunctions ambients
  rw [huses, Except.ok.injEq]
  constructor
  · rintro rfl f hf a ha hneeds
    obtain ⟨i, hi⟩ := mem_iff_getElem?.mp hf
    obtain ⟨u, hu, -⟩ := hevery i f a hi ha hneeds
    cases hu
  · intro hnone
    cases uses with
    | nil => rfl
    | cons u uses =>
      obtain ⟨hne, f, hf, hnames⟩ := hsome u mem_cons_self
      obtain ⟨name, hname⟩ := exists_mem_of_ne_nil _ hne
      obtain ⟨a, ha, -, hneeds⟩ := hnames name hname
      exact absurd hneeds (hnone f (mem_of_getElem? hf) a ha)

end Usage

namespace Item

theorem isFunction_eq {x y : Option Head} (h : Head.Grows x y)
    (hx : ∀ t isBlock, x = some (.header t isBlock) → t.IsAscii)
    (hy : ∀ t isBlock, y = some (.header t isBlock) → t.IsAscii) : isFunction x = isFunction y := by
  cases h with
  | none => rfl
  | line => rfl
  | @header t t' h isBlock =>
    rw [Bool.eq_iff_iff, isFunction_iff (hx t isBlock rfl), isFunction_iff (hy t' isBlock rfl)]
    constructor
    · rintro ⟨lead, list, hf⟩
      obtain ⟨lead', list', hf', -⟩ := h.forth hf
      exact ⟨lead', list', hf'⟩
    · rintro ⟨lead, list, hf⟩
      exact h.back hf

/-- **The functions of a program that grows stay where they are.** -/
theorem slots_eq {m' : Text} (hm : m.IsAscii) (hm' : m'.IsAscii)
    (h : List.Forall₂ Head.Grows m.heads m'.heads) :
    slots 0 m.heads = slots 0 m'.heads := by
  have hslots : ∀ {xs ys : List (Option Head)} (i : Nat),
    List.Forall₂ (fun x y => isFunction x = isFunction y) xs ys →
      slots i xs = slots i ys := by
    intro xs ys i h
    induction h generalizing i with
    | nil => rfl
    | cons hx _ ih => rw [slots, slots, hx, ih]
  refine hslots 0 ?_
  have hright := ((forall₂_and_left _ _).mpr ⟨fun y (hy : y ∈ m'.heads) => hy, h.flip⟩).flip
  have hboth := (forall₂_and_left _ _).mpr ⟨fun x (hx : x ∈ m.heads) => hx, hright⟩
  refine hboth.imp ?_
  rintro x y ⟨hx, hy, hgrows⟩
  refine isFunction_eq hgrows ?_ ?_
  · rintro t isBlock rfl
    exact hm.of_subset (subset_of_mem_heads hx)
  · rintro t isBlock rfl
    exact hm'.of_subset (subset_of_mem_heads hy)

/-- The item is a block with a header. -/
def isBlockAt (hs : List (Option Head)) (j : Nat) : Bool :=
  match hs[j]? with
  | some (some (.header _ isBlock)) => isBlock
  | _ => false

theorem isBlockAt_eq {hs' : List (Option Head)} (h : List.Forall₂ Head.Grows hs hs') :
    isBlockAt hs = isBlockAt hs' := by
  funext j
  unfold isBlockAt
  cases hj : hs[j]? with
  | none =>
    have : hs'[j]? = none := by
      rw [getElem?_eq_none_iff] at hj ⊢
      rwa [← h.length_eq]
    rw [this]
  | some x =>
    obtain ⟨y, hy, hgrows⟩ := exists_getElem?_right h hj
    rw [hy]
    cases hgrows with
    | none => rfl
    | line => rfl
    | header => rfl

/-- The positions of the definitions. -/
def definitions (hs : List (Option Head)) : List Nat := (slots 0 hs).filter (isBlockAt hs)

open scoped Classical in
/-- The definitions that own values, with the values. -/
noncomputable def owned (ambients : List Ambient) (hs : List (Option Head)) : Finset (Nat × Ambient) :=
  ((definitions hs).toFinset ×ˢ ambients.toFinset).filter fun p => Edit.OwnsAt p.2 hs p.1

theorem card_owned_le (ambients : List Ambient) (hs : List (Option Head)) :
    (owned ambients hs).card ≤ (definitions hs).length * ambients.length := by
  classical
  calc (owned ambients hs).card
      ≤ ((definitions hs).toFinset ×ˢ ambients.toFinset).card := Finset.card_filter_le _ _
    _ = (definitions hs).toFinset.card * ambients.toFinset.card := Finset.card_product _ _
    _ ≤ (definitions hs).length * ambients.length :=
        Nat.mul_le_mul (toFinset_card_le _) (toFinset_card_le _)

theorem mem_owned : (j, a) ∈ owned ambients hs ↔ j ∈ definitions hs ∧ a ∈ ambients ∧ Edit.OwnsAt a hs j := by
  classical
  rw [owned, Finset.mem_filter, Finset.mem_product, mem_toFinset, mem_toFinset, and_assoc]

section Grows

variable {m m' : Text} (hm : m.IsAscii) (hm' : m'.IsAscii) (h : List.Forall₂ Head.Grows m.heads m'.heads)
include hm hm' h

theorem definitions_eq : definitions m.heads = definitions m'.heads := by
  rw [definitions, definitions, slots_eq hm hm' h, isBlockAt_eq h]

/-- **Definitions keep what they own.** -/
theorem owned_subset (hambients : ∀ a ∈ ambients, a.Proper) :
    owned ambients m.heads ⊆ owned ambients m'.heads := by
  rintro ⟨j, a⟩ hmem
  obtain ⟨hj, ha, hown⟩ := mem_owned.mp hmem
  exact mem_owned.mpr ⟨definitions_eq hm hm' h ▸ hj, ha, hown.grows (hambients a ha) h⟩

theorem card_owned_lt (hambients : ∀ a ∈ ambients, a.Proper) (ha : a ∈ ambients)
    (hj : j ∈ definitions m.heads) (hlacks : ¬ Edit.OwnsAt a m.heads j) (hown : Edit.OwnsAt a m'.heads j) :
    (owned ambients m.heads).card < (owned ambients m'.heads).card := by
  refine Finset.card_lt_card
    (Finset.ssubset_iff_subset_ne.mpr ⟨owned_subset hm hm' h hambients, fun heq => ?_⟩)
  have hmem : (j, a) ∈ owned ambients m'.heads := mem_owned.mpr ⟨definitions_eq hm hm' h ▸ hj, ha, hown⟩
  rw [← heq] at hmem
  exact hlacks (mem_owned.mp hmem).2.2

end Grows

end Item

theorem Program.length_definitions (hascii : source.IsAscii)
    (hfunctions : Program.functions source = .ok functions) :
    (functions.filter (·.isDefinition)).length = (definitions source.mask.heads).length := by
  refine (forall₂_filter (Program.forall₂_located hascii hfunctions) ?_).length_eq
  rintro f j ⟨pre, lead, list, behind, isBlock, hf⟩
  rw [isBlockAt, hf.head, hf.isDefinition]

namespace Signature

theorem any_declaredFrom (ha : a.Proper) (i : Nat) {xs : List Text} {x : Text} (hx : x ∈ xs)
    (hown : x.strip = a.declaration) : (Parameter.declaredFrom i xs).any (·.name == a.name) := by
  have hbare : ((Parameter.declaredFrom i xs).map Parameter.bare).any (·.name == a.name) := by
    rw [Parameter.map_bare_declaredFrom]
    exact any_eq_true.mpr ⟨_, mem_filterMap.mpr ⟨_, mem_map_of_mem hx, hown ▸ ha.declared⟩,
      beq_self_eq_true _⟩
  rwa [any_map] at hbare

theorem LocatedAt.hasParam (h : f.LocatedAt m j) (ha : a.Proper)
    (hown : Edit.OwnsAt a m.heads j) : f.hasParam a.name := by
  obtain ⟨pre, lead, list, behind, isBlock, h⟩ := h
  obtain ⟨head, isBlock', lead', list', hhead, hf, x, hx, hdeclared⟩ := hown
  rw [h.head] at hhead
  obtain ⟨rfl, rfl⟩ := Head.header.inj (Option.some.inj (Option.some.inj hhead))
  obtain ⟨rfl, rfl⟩ := h.function.unique hf
  rw [Signature.hasParam, h.params]
  exact any_declaredFrom ha _ hx hdeclared

end Signature

namespace Threading

/-- What a round begins with and leaves. -/
structure Running (source : Text) (overloads : Overloads) : Prop where
  ascii : source.IsAscii
  backslash : 92 ∉ source.mask
  steady : ∀ x ∈ source.mask.heads, Head.Steady x
  words : ∀ v ∈ overloads.table, v.name.IsWord
  length : overloads.ofFunction.length = (slots 0 source.mask.heads).length

/-- One program has grown to another. -/
structure Grown (source target : Text) (overloads' : Overloads) : Prop where
  running : Running target overloads'
  grows : List.Forall₂ Head.Grows source.mask.heads target.mask.heads

theorem mem_users_of_mem {uses : List Use} {name : Text} {u : Use} (hu : u ∈ uses)
    (hname : name ∈ u.ambients) {id : Nat} (hid : overloads.ofFunction[u.index]? = some id) :
    id ∈ users uses name overloads := by
  unfold users Usage.usersOf
  rw [mem_eraseDups]
  exact mem_filterMap.mpr ⟨u, mem_filter.mpr ⟨hu, contains_iff_mem.mpr hname⟩, hid⟩

theorem words_thread (h : ∀ v ∈ overloads.table, v.name.IsWord) (ids : List Nat) (name : Text) :
    ∀ v ∈ (overloads.thread ids name).table, v.name.IsWord := by
  intro v hv
  obtain ⟨⟨w, id⟩, hw, rfl⟩ := mem_map.mp hv
  have := h w (fst_mem_of_mem_zipIdx hw)
  dsimp only
  split
  · exact this
  · exact this

theorem Grown.refl (h : Running source overloads) : Grown source source overloads :=
  ⟨h, forall₂_same.mpr fun x _ => .refl x⟩

theorem Grown.trans {target' : Text} (h : Grown source target overloads)
    (h' : Grown target target' overloads') : Grown source target' overloads' :=
  ⟨h'.running, Edit.forall₂_trans h.grows h'.grows⟩

section Rounds

variable {source : Text} {overloads : Overloads} (h : Running source overloads)
include h

/-- Where a value is used some function needs it. -/
theorem Running.exists_user (hfunctions : Program.functions source = .ok functions)
    {uses : List Use} (huses : Usage.discover source [a] = .ok uses) (hne : uses ≠ []) :
    ∃ (i : Nat) (f : Signature) (j id : Nat), functions[i]? = some f ∧
      (slots 0 source.mask.heads)[i]? = some j ∧
      overloads.ofFunction[i]? = some id ∧ id ∈ users uses a.name overloads ∧ f.hasParam a.name = false ∧
      j ∈ definitions source.mask.heads := by
  obtain ⟨_, huses', hsome, -⟩ := Usage.discover_spec h.ascii hfunctions [a]
  obtain rfl := Except.ok.inj (huses.symm.trans huses')
  obtain ⟨u, hu⟩ := exists_mem_of_ne_nil _ hne
  obtain ⟨hnonempty, f, hf, hnames⟩ := hsome u hu
  obtain ⟨name, hname⟩ := exists_mem_of_ne_nil _ hnonempty
  obtain ⟨b, hb, rfl, -, body, hbody, hlacks, -⟩ := hnames name hname
  obtain rfl := mem_singleton.mp hb
  obtain ⟨j, hj, hlocated⟩ := exists_getElem?_right (Program.forall₂_located h.ascii hfunctions) hf
  obtain ⟨id, hid⟩ : ∃ id, overloads.ofFunction[u.index]? = some id := by
    refine ⟨_, getElem?_eq_getElem ?_⟩
    rw [h.length]
    exact (List.getElem?_eq_some_iff.mp hj).1
  refine ⟨u.index, f, j, id, hf, hj, hid, mem_users_of_mem hu hname hid, hlacks,
    mem_filter.mpr ⟨mem_of_getElem? hj, ?_⟩⟩
  obtain ⟨pre, lead, list, behind, isBlock, hlocated⟩ := hlocated
  have hdefinition := hlocated.isDefinition
  rw [Signature.isDefinition, hbody] at hdefinition
  rw [isBlockAt, hlocated.head]
  exact hdefinition.symm

variable {ambients : List Ambient} (hambients : ∀ a ∈ ambients, a.Proper)
include hambients

/-- **A pass with users gives a value to a definition that lacked it.** -/
theorem Running.pass {a : Ambient} (ha : a ∈ ambients) {uses : List Use}
    (huses : Usage.discover source [a] = .ok uses) (hne : uses ≠ []) {target : Text}
    (htarget : threadValue source a (users uses a.name overloads) overloads = .ok target) :
    Grown source target (overloads.thread (users uses a.name overloads) a.name) ∧
      (owned ambients source.mask.heads).card < (owned ambients target.mask.heads).card := by
  have hproper := hambients a ha
  obtain ⟨functions, hfunctions, -⟩ := Program.returns_functions h.ascii
  obtain ⟨hascii, hback, hgrows, hgiven⟩ :=
    grows_threadValue h.ascii h.backslash h.steady hfunctions hproper h.words htarget
  have hm := h.ascii.mask
  refine ⟨⟨⟨hascii, hback, Edit.steady_of_grows hgrows h.steady, words_thread h.words _ _, ?_⟩, hgrows⟩, ?_⟩
  · rw [← slots_eq hm hascii.mask hgrows]
    exact h.length
  · obtain ⟨i, f, j, id, hf, hj, hid, huser, hlacks, hdefinition⟩ := h.exists_user hfunctions huses hne
    refine card_owned_lt hm hascii.mask hgrows hambients ha hdefinition (fun hown => ?_)
      (hgiven i f j id hf hj hid huser hlacks)
    obtain ⟨_, hj', hlocated⟩ := exists_getElem?_right (Program.forall₂_located h.ascii hfunctions) hf
    obtain rfl := Option.some.inj (hj.symm.trans hj')
    rw [hlocated.hasParam hproper hown] at hlacks
    cases hlacks

/-- A round gives a value to a definition that lacked it, unless there is nothing to do in it. -/
theorem Running.round {rest : List Ambient} (hrest : ∀ a ∈ rest, a ∈ ambients)
    (hround : round rest source overloads = .ok (target, overloads')) :
    Grown source target overloads' ∧
      ((owned ambients source.mask.heads).card < (owned ambients target.mask.heads).card ∨
        target = source ∧ ∀ a ∈ rest, Usage.discover source [a] = .ok []) := by
  induction rest generalizing source overloads with
  | nil =>
    cases hround
    exact ⟨.refl h, .inr ⟨rfl, nofun⟩⟩
  | cons a rest ih =>
    obtain ⟨ha, hrest⟩ := forall_mem_cons.mp hrest
    obtain ⟨functions, hfunctions, -⟩ := Program.returns_functions h.ascii
    unfold Threading.round at hround
    obtain ⟨uses, huses, hround⟩ := Checked.exists_of_bind hround
    by_cases hne : uses = []
    · subst hne
      obtain ⟨hgrown, hcase⟩ := ih h hrest hround
      refine ⟨hgrown, hcase.imp_right fun hcase => ⟨hcase.1, ?_⟩⟩
      exact forall_mem_cons.mpr ⟨huses, hcase.2⟩
    · obtain ⟨i, f, j, id, -, -, -, huser, -⟩ := h.exists_user hfunctions huses hne
      have hsome : (users uses a.name overloads).isEmpty = false := by
        rw [isEmpty_eq_false_iff]
        exact ne_nil_of_mem huser
      dsimp only at hround
      rw [hsome, if_neg Bool.false_ne_true] at hround
      obtain ⟨threaded, hthreaded, hround⟩ := Checked.exists_of_bind hround
      obtain ⟨hgrown, hlt⟩ := h.pass hambients ha huses hne hthreaded
      obtain ⟨hgrown', -⟩ := ih hgrown.running hrest hround
      refine ⟨hgrown.trans hgrown', .inl (Nat.lt_of_lt_of_le hlt (Finset.card_le_card ?_))⟩
      exact owned_subset hgrown.running.ascii.mask hgrown'.running.ascii.mask hgrown'.grows hambients

/-- **Rounds settle** when there are more of them than values that definitions can still get. -/
theorem Running.rounds {n : Nat} (hn : (definitions source.mask.heads).length * ambients.length <
      (owned ambients source.mask.heads).card + n)
    (hrounds : rounds ambients n source overloads = .ok target) :
    target.IsAscii ∧ Usage.discover target ambients = .ok [] := by
  induction n generalizing source overloads with
  | zero =>
    have := card_owned_le ambients source.mask.heads
    omega
  | succ n ih =>
    obtain ⟨functions, hfunctions, -⟩ := Program.returns_functions h.ascii
    unfold Threading.rounds at hrounds
    obtain ⟨uses, huses, hrounds⟩ := Checked.exists_of_bind hrounds
    by_cases hempty : uses = []
    · subst hempty
      cases hrounds
      exact ⟨h.ascii, huses⟩
    · have hsome : uses.isEmpty = false := by rwa [isEmpty_eq_false_iff]
      rw [hsome, if_neg Bool.false_ne_true] at hrounds
      obtain ⟨⟨next, overloads'⟩, hround, hrounds⟩ := Checked.exists_of_bind hrounds
      obtain ⟨hgrown, hlt | ⟨-, hnone⟩⟩ := h.round hambients (fun a ha => ha) hround
      · refine ih hgrown.running ?_ hrounds
        rw [← definitions_eq h.ascii.mask hgrown.running.ascii.mask hgrown.grows]
        omega
      · -- No pass had users, so no function needs any of the values.
        exfalso
        have hnil : Usage.discover source ambients = .ok [] := by
          refine (Usage.discover_eq_nil_iff h.ascii hfunctions ambients).mpr fun f hf a ha => ?_
          exact (Usage.discover_eq_nil_iff h.ascii hfunctions [a]).mp (hnone a ha) f hf a
            (mem_singleton_self a)
        exact hempty (Except.ok.inj (huses.symm.trans hnil))

end Rounds

/-- No prefix of the text closes more parentheses than it opens, and the text closes them all. -/
def Balanced (t : Text) : Prop := (∀ p, p <+: t → p.count 41 ≤ p.count 40) ∧ t.count 41 = t.count 40

theorem balanced_iff : Balanced t ↔ t.ParensClosed := by
  unfold Balanced ParensClosed
  rw [Delimiter.behind?_eq_some_iff]
  simp only [Nat.zero_add]
  rfl

/-- A program whose preprocessor lines are balanced and in which no parameter list closes delimiters that
it does not open or leaves some open. The heading of a function without parameters does not read as a call
of it, as the one of `float& f()` does. -/
structure Threadable (source : Text) (functions : List Signature) : Prop where
  ascii : source.IsAscii
  backslash : 92 ∉ source.mask
  directives : ∀ r, Item.directive r ∈ source.mask.items → Balanced (source.mask.cut r)
  lists : ∀ f ∈ functions, weight (source.mask.cut ⟨f.openParen + 1, f.closeParen⟩) = 0
  headings : ∀ f ∈ functions, f.closeParen = f.openParen + 1 → ∀ c ∈ Call.sites source.mask f.name,
    c.openParen = f.openParen → isCall source.mask c = .ok false

instance (t : Text) : Decidable (Balanced t) :=
  decidable_of_iff (Delimiter.paren.behind? 0 t = some 0) balanced_iff.symm

instance (source : Text) (functions : List Signature) : Decidable (Threadable source functions) :=
  decidable_of_iff
    (source.IsAscii ∧ 92 ∉ source.mask ∧
      (∀ item ∈ source.mask.items, item = .directive item.range → Balanced (source.mask.cut item.range)) ∧
      (∀ f ∈ functions, weight (source.mask.cut ⟨f.openParen + 1, f.closeParen⟩) = 0) ∧
      ∀ f ∈ functions, f.closeParen = f.openParen + 1 → ∀ c ∈ Call.sites source.mask f.name,
        c.openParen = f.openParen → isCall source.mask c = .ok false)
    ⟨fun h => ⟨h.1, h.2.1, fun _ hr => h.2.2.1 _ hr rfl, h.2.2.2.1, h.2.2.2.2⟩,
      fun h => ⟨h.ascii, h.backslash, fun _ hitem hdirective => h.directives _ (hdirective ▸ hitem),
        h.lists, h.headings⟩⟩

namespace Threadable

variable {source : Text} {functions : List Signature} (h : Threadable source functions)
  (hfunctions : Program.functions source = .ok functions)
include h hfunctions

/-- What is asked of the functions holds of their headers. -/
theorem steady_header {isBlock : Bool} (ht : some (.header t isBlock) ∈ source.mask.heads) :
    Signature.Steady t := by
  intro lead list hf
  obtain ⟨j, hj⟩ := mem_iff_getElem?.mp ht
  have hascii : t.IsAscii := h.ascii.mask.of_subset (subset_of_mem_heads ht)
  have hslot := mem_slots.mpr ⟨_, hj, (isFunction_iff hascii isBlock).mpr ⟨lead, list, hf⟩⟩
  obtain ⟨i, hi⟩ := mem_iff_getElem?.mp hslot
  obtain ⟨f, hf', pre, lead', list', behind, isBlock', hlocated⟩ :=
    exists_getElem?_right (Program.forall₂_located h.ascii hfunctions).flip hi
  have hmem := mem_of_getElem? hf'
  have hhead := hlocated.head
  rw [hj] at hhead
  obtain ⟨rfl, rfl⟩ := Head.header.inj (Option.some.inj (Option.some.inj hhead))
  obtain ⟨rfl, rfl⟩ := hlocated.function.unique hf
  obtain ⟨post, hm⟩ := hlocated.text
  refine ⟨?_, fun hnil => ?_⟩
  · have hcut : source.mask.cut ⟨f.openParen + 1, f.closeParen⟩ = list' := by
      have hsplit : source.mask = pre ++ lead' ++ [40] ++ list' ++ 41 :: (behind ++ post) := by
        rw [hm]
        simp
      have hlength : (pre ++ lead').length + 1 = (pre ++ lead' ++ [40]).length := by
        rw [← length_singleton, ← length_append]
      rw [hlocated.openParen, hlocated.closeParen, hsplit, hlength, cut_append]
    rw [← hcut]
    exact h.lists f hmem
  · subst hnil
    by_contra hcallee
    obtain ⟨n, hn⟩ := Option.ne_none_iff_exists'.mp hcallee
    have hwhole := hlocated.callee?_eq.trans hn
    unfold callee? at hn hwhole
    obtain ⟨-, hnamed⟩ := Option.ite_none_right_eq_some.mp hn
    obtain ⟨hmay, hnamed'⟩ := Option.ite_none_right_eq_some.mp hwhole
    obtain rfl : f.name = n := hlocated.name.trans (named?_eq_some.mp hnamed).2.1
    have hword := hlocated.isWord
    have hsite := (Call.mem_sites hword).mpr ⟨pre ++ lead', _, hm, hnamed', rfl⟩
    have hcall := h.headings f hmem (by rw [hlocated.openParen, hlocated.closeParen]; rfl) _ hsite
      hlocated.openParen.symm
    rw [hm, Call.isCall_named hword hnamed', hmay] at hcall
    cases hcall

theorem running : Running source (Overloads.collect functions) := by
  have hcovers := Overloads.covers_collect functions
  have hlocated := Program.forall₂_located h.ascii hfunctions
  refine ⟨h.ascii, h.backslash, fun x hx => ?_, fun v hv => ?_, hcovers.length.trans hlocated.length_eq⟩
  · rcases x with _ | ⟨t⟩ | ⟨t, isBlock⟩
    · trivial
    · obtain ⟨item, hitem, hhead⟩ := mem_map.mp hx
      obtain ⟨r, rfl, rfl⟩ := exists_of_head?_eq_line hhead
      exact balanced_iff.mp (h.directives r hitem)
    · exact h.steady_header hfunctions hx
  · obtain ⟨-, f, hf, hname, -⟩ := hcovers.origin v hv
    obtain ⟨i, hi⟩ := mem_iff_getElem?.mp hf
    obtain ⟨j, -, pre, lead, list, behind, isBlock, hf⟩ := exists_getElem?_right hlocated hi
    exact hname ▸ hf.isWord

end Threadable

theorem report_eq_nil_iff (hascii : source.IsAscii) {uses : List Use}
    (huses : Usage.discover source ambients = .ok uses) {mode : Propagation} {reports : List Diagnostic}
    (hreport : report mode source uses = .ok reports) : reports = [] ↔ uses = [] := by
  obtain ⟨functions, hfunctions, -⟩ := Program.returns_functions hascii
  obtain ⟨_, huses', hsome, -⟩ := Usage.discover_spec hascii hfunctions ambients
  obtain rfl := Except.ok.inj (huses.symm.trans huses')
  cases uses with
  | nil =>
    cases hreport
    exact iff_of_true rfl rfl
  | cons u uses =>
    obtain ⟨_, -, hreport⟩ := Checked.exists_of_bind hreport
    obtain rfl := Except.ok.inj hreport
    refine iff_of_false (fun hnil => ?_) (cons_ne_nil _ _)
    have := flatMap_eq_nil_iff.mp hnil u mem_cons_self
    exact (hsome u mem_cons_self).1 (map_eq_nil_iff.mp this)

/-- What a run returns: the program after its rounds, with the reports on it. -/
theorem exists_lower (hascii : source.IsAscii)
    (hfunctions : Program.functions source = .ok functions) (hambients : ∀ a ∈ ambients, a.IsAscii)
    (mode : Propagation) (maxRounds : Option Nat) :
    ∃ target uses reports,
      rounds ambients (roundLimit mode ambients maxRounds functions) source
        (Overloads.collect functions) = .ok target ∧
      target.IsAscii ∧ Usage.discover target ambients = .ok uses ∧
      lower mode ambients maxRounds source = .ok (reports, target) ∧ (reports = [] ↔ uses = []) := by
  obtain ⟨⟨reports, target⟩, hlower, htarget⟩ :
      (lower mode ambients maxRounds source).Returns fun r => r.2.IsAscii :=
    (kind_isAscii.threading (fun a ha => (hambients a ha).made) hascii).returns
  obtain ⟨_, hfunctions', hrest⟩ := Checked.exists_of_bind hlower
  obtain rfl := Except.ok.inj (hfunctions.symm.trans hfunctions')
  obtain ⟨target', hrounds, hrest⟩ := Checked.exists_of_bind hrest
  obtain ⟨uses, huses, hrest⟩ := Checked.exists_of_bind hrest
  obtain ⟨reports', hreport, hrest⟩ := Checked.exists_of_bind hrest
  obtain ⟨rfl, rfl⟩ := Prod.mk.inj (Except.ok.inj hrest)
  exact ⟨target', uses, reports', hrounds, htarget, huses, hlower, report_eq_nil_iff htarget huses hreport⟩

theorem rounds_of_discover_eq_nil (h : Usage.discover source ambients = .ok [])
    (n : Nat) (overloads : Overloads) : rounds ambients n source overloads = .ok source := by
  cases n with
  | zero => rfl
  | succ n =>
    unfold rounds
    rw [h]
    rfl

theorem rounds_succ_of_discover_eq_nil
    (hrounds : rounds ambients 1 source overloads = .ok target)
    (h : Usage.discover target ambients = .ok []) (n : Nat) :
    rounds ambients (n + 1) source overloads = .ok target := by
  unfold rounds at hrounds ⊢
  obtain ⟨uses, huses, hrounds⟩ := Checked.exists_of_bind hrounds
  rw [huses]
  cases uses with
  | nil => exact hrounds
  | cons u uses =>
    obtain ⟨⟨next, overloads'⟩, hround, hrounds⟩ := Checked.exists_of_bind hrounds
    obtain rfl := Except.ok.inj hrounds
    change (round ambients source overloads >>= fun r => rounds ambients n r.1 r.2) = _
    rw [hround]
    exact rounds_of_discover_eq_nil h n overloads'

/-- **Threading settles.** In transitive mode the rounds that are allowed by default always suffice: no
function lacks a value in the end, nothing is reported, and to thread the result again changes nothing. A
single hop gets there exactly when it reports nothing. -/
theorem lower_settles {source : Text} {functions : List Signature}
    (hfunctions : Program.functions source = .ok functions)
    (h : Threadable source functions) :
    ∃ target, lower .transitive Ambient.all none source = .ok ([], target) ∧
      Usage.discover target Ambient.all = .ok [] ∧
      lower .transitive Ambient.all none target = .ok ([], target) ∧
      ∃ reports hop, lower .singleHop Ambient.all none source = .ok (reports, hop) ∧
        (hop = target ↔ reports = []) := by
  have hproper : ∀ a ∈ Ambient.all, a.Proper := fun a ha => Ambient.proper_of_mem ha
  obtain ⟨target, uses, reports, hrounds, htarget, huses, hlower, hreports⟩ :=
    exists_lower h.ascii hfunctions Ambient.isAscii_all .transitive none
  have hlimit : (definitions source.mask.heads).length * Ambient.all.length <
      (owned Ambient.all source.mask.heads).card + roundLimit .transitive Ambient.all none functions := by
    rw [← Program.length_definitions h.ascii hfunctions, roundLimit, Option.getD_none]
    omega
  obtain ⟨-, hsettled⟩ := (h.running hfunctions).rounds hproper hlimit hrounds
  obtain rfl := Except.ok.inj (huses.symm.trans hsettled)
  obtain rfl := hreports.mpr rfl
  refine ⟨target, hlower, hsettled, ?_, ?_⟩
  · obtain ⟨functions', hfunctions', -⟩ := Program.returns_functions htarget
    obtain ⟨again, uses, reports, hrounds', -, huses', hlower', hreports'⟩ :=
      exists_lower htarget hfunctions' Ambient.isAscii_all .transitive none
    rw [rounds_of_discover_eq_nil hsettled] at hrounds'
    obtain rfl := Except.ok.inj hrounds'
    obtain rfl := Except.ok.inj (hsettled.symm.trans huses')
    rwa [hreports'.mpr rfl] at hlower'
  · obtain ⟨hop, uses, reports, hhop, -, hdiscover, hlower', hreports'⟩ :=
      exists_lower h.ascii hfunctions Ambient.isAscii_all .singleHop none
    refine ⟨reports, hop, hlower', ?_⟩
    rw [hreports']
    constructor
    · rintro rfl
      exact Except.ok.inj (hdiscover.symm.trans hsettled)
    · rintro rfl
      have := rounds_succ_of_discover_eq_nil hhop hdiscover
        ((functions.filter (·.isDefinition)).length * Ambient.all.length)
      exact Except.ok.inj (this.symm.trans hrounds)

/-- Calls that run against the order of the functions, overloads, and a body with a parenthesis too many. -/
def calledLater : Text :=
  (["#define TWICE(x) ((x) * 2.0)\n", "float wave(float, float[2]);\n",
    "float last() \x7b return outer(1.0); \x7d\n",
      "float outer(float x) \x7b return inner(x) * wave(x)); \x7d\n",
    "float inner(float x) \x7b return x * iTime * iResolution.y; \x7d\n",
    "float wave(float x) \x7b return TWICE(x) * iResolution.x; \x7d\n",
    "void mainImage(out vec4 c, in vec2 p) \x7b c = vec4(last()); \x7d\n"] : List Text).flatten

theorem lower_settles_calledLater : Program.functions calledLater = .ok (Program.declared calledLater) ∧
      Threadable calledLater (Program.declared calledLater) ∧
      ∃ target, lower .transitive Ambient.all none calledLater = .ok ([], target) ∧
        Usage.discover target Ambient.all = .ok [] ∧
          lower .transitive Ambient.all none target = .ok ([], target) ∧
        ∃ reports hop, lower .singleHop Ambient.all none calledLater = .ok (reports, hop) ∧
          (hop = target ↔ reports = []) := by
  have h : Program.functions calledLater = .ok (Program.declared calledLater) ∧
      Threadable calledLater (Program.declared calledLater) := by
    unfold calledLater
    repeat rw [ofString_ofList]
    decide +kernel
  exact ⟨h.1, h.2, lower_settles h.1 h.2⟩

/-- A list that closes a bracket which it does not open. -/
def strayBracket : Text := "float f(float a]) \x7b return iTime * iResolution.x; \x7d\n"

/-- The function with both values, three times over. -/
def repeatedValues : Text :=
  "float f(float a], float2 iResolution, float iTime, float2 iResolution, float iTime, " ++
    "float2 iResolution, float iTime) \x7b return iTime * iResolution.x; \x7d\n"

/-- **Values may be given again and again.** No comma counts behind the bracket, so no value is seen in
the list, and the rounds end with a report on the function that has both. -/
theorem lower_repeats_values :
    ∃ reports, lower .transitive Ambient.all none strayBracket = .ok (reports, repeatedValues) ∧
      reports ≠ [] ∧ Usage.discover repeatedValues Ambient.all ≠ .ok [] := by
  have h : ∃ r ∈ (lower .transitive Ambient.all none strayBracket).toOption, r.1 ≠ [] ∧
      Usage.discover r.2 Ambient.all ≠ .ok [] ∧ r.2 = repeatedValues := by
    unfold strayBracket repeatedValues
    repeat rw [ofString_ofList]
    decide +kernel
  obtain ⟨⟨reports, _⟩, hlower, hreports, hdiscover, rfl⟩ := h
  exact ⟨reports, Checked.eq_ok_of_mem hlower, hreports, hdiscover⟩

end Threading

end GlslToMetal
