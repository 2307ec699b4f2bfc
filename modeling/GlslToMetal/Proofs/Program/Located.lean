import GlslToMetal.Proofs.Ambient.Owning
import GlslToMetal.Proofs.Item.Heads

/-! The functions of a program and the items of which they are read. The functions are, in order, the
items whose headers are those of functions, so as long as every header stays that of a function or of
none, the position of a function tells its item. -/

namespace GlslToMetal

open List Text Item

namespace Signature

/-- The function is read of item `j`: the item has the header `lead(list)behind` and stands behind
`pre`. -/
structure Located (m : Text) (j : Nat) (f : Signature) (pre lead list behind : Text)
    (isBlock : Bool) : Prop where
  head : m.heads[j]? = some (some (.header (lead ++ 40 :: (list ++ 41 :: behind)) isBlock))
  function : IsFunction (lead ++ 40 :: (list ++ 41 :: behind)) lead list
  text : ∃ post, m = pre ++ lead ++ 40 :: (list ++ 41 :: (behind ++ post))
  name : f.name = nameIn lead
  openParen : f.openParen = (pre ++ lead).length
  closeParen : f.closeParen = (pre ++ lead).length + 1 + list.length
  params : f.params = Parameter.declaredFrom ((pre ++ lead).length + 1) (stretches 0 list)
  isDefinition : f.isDefinition = isBlock
  reader : ∀ s, s ≠ [] → s <+: lead ++ 40 :: (list ++ 41 :: behind) →
    (Reader.between.emitted (pre ++ s)).length = j ∧ (Reader.between.read (pre ++ s)).open? = some s

/-- The function is read of item `j`. -/
def LocatedAt (m : Text) (f : Signature) (j : Nat) : Prop :=
  ∃ pre lead list behind isBlock, Located m j f pre lead list behind isBlock

end Signature

namespace Item

/-- The item is a function. -/
def isFunction : Option Head → Bool
  | some (.header t _) =>
    match Signature.ofHeader? t with
    | .ok (some _) => true
    | _ => false
  | _ => false

/-- The positions of the functions among items from position `i` on. -/
def slots (i : Nat) : List (Option Head) → List Nat
  | [] => []
  | x :: rest => if isFunction x then i :: slots (i + 1) rest else slots (i + 1) rest

theorem pairwise_slots (i : Nat) (hs : List (Option Head)) :
    (slots i hs).Pairwise (· < ·) ∧ ∀ j ∈ slots i hs, i ≤ j := by
  induction hs generalizing i with
  | nil => exact ⟨.nil, nofun⟩
  | cons x hs ih =>
    obtain ⟨hpairwise, hle⟩ := ih (i + 1)
    rw [slots]
    split
    · refine ⟨pairwise_cons.mpr ⟨hle, hpairwise⟩, fun j hj => ?_⟩
      rcases mem_cons.mp hj with rfl | hj
      · exact Nat.le_refl _
      · exact Nat.le_of_succ_le (hle j hj)
    · exact ⟨hpairwise, fun j hj => Nat.le_of_succ_le (hle j hj)⟩

theorem mem_slots_add {i k : Nat} {hs : List (Option Head)} :
    i + k ∈ slots i hs ↔ ∃ x, hs[k]? = some x ∧ isFunction x := by
  induction hs generalizing i k with
  | nil => simp [slots]
  | cons x rest ih =>
    cases k with
    | zero =>
      have hnot : i ∉ slots (i + 1) rest :=
        fun hmem => Nat.not_succ_le_self i ((pairwise_slots _ rest).2 i hmem)
      rw [slots]
      split
      · next hx => simp [hx]
      · next hx => simp [hx, hnot]
    | succ k =>
      have hcons : i + (k + 1) ∈ slots i (x :: rest) ↔ i + 1 + k ∈ slots (i + 1) rest := by
        rw [slots, ← Nat.add_assoc, Nat.add_right_comm]
        split
        · rw [mem_cons, or_iff_right (by omega)]
        · rfl
      rw [hcons, ih, getElem?_cons_succ]

theorem mem_slots {j : Nat} {hs : List (Option Head)} :
    j ∈ slots 0 hs ↔ ∃ x, hs[j]? = some x ∧ isFunction x := by
  rw [← mem_slots_add (i := 0), Nat.zero_add]

theorem isFunction_iff {t : Text} (h : t.IsAscii) (isBlock : Bool) :
    isFunction (some (.header t isBlock)) ↔ ∃ lead list, Signature.IsFunction t lead list := by
  rcases Signature.ofHeader?_spec h with ⟨hnone, hnot⟩ | ⟨f, lead, list, hsome, hf, -⟩
  · rw [isFunction, hnone]
    refine ⟨nofun, ?_⟩
    rintro ⟨lead, list, hf⟩
    exact absurd hf (hnot lead list)
  · rw [isFunction, hsome]
    exact ⟨fun _ => ⟨lead, list, hf⟩, fun _ => rfl⟩

theorem head?_of_header? {m : Text} {item : Item} {r : Range} (h : Signature.header? m item = some r) :
    head? m item = some (.header (m.cut r) item.body?.isSome) := by
  cases item with
  | block start opened closed stop =>
    cases h
    rfl
  | statement start semicolon =>
    obtain ⟨hassign, hr⟩ := Option.ite_none_left_eq_some.mp h
    cases hr
    exact if_neg hassign
  | directive => cases h
  | unterminated => cases h

theorem exists_of_head?_eq_line {m t : Text} {item : Item} (h : head? m item = some (.line t)) :
    ∃ r, item = .directive r ∧ m.cut r = t := by
  cases item with
  | directive r =>
    cases h
    exact ⟨r, rfl, rfl⟩
  | statement =>
    rw [head?] at h
    split at h <;> cases h
  | block => cases h
  | unterminated => cases h

theorem isFunction_of_header?_eq_none {m : Text} {item : Item} (h : Signature.header? m item = none) :
    isFunction (head? m item) = false := by
  cases item with
  | block => cases h
  | statement start semicolon =>
    by_cases hassign : (m.cut ⟨start, semicolon⟩).contains 61
    · rw [head?, if_pos hassign]
      rfl
    · rw [Signature.header?, if_neg hassign] at h
      cases h
  | directive => rfl
  | unterminated => rfl

end Item

namespace Signature

/-- **What is read of an item.** -/
theorem locatedAt_ofItem? {m : Text} (hm : m.IsAscii) {before behind : List Item} {item : Item}
    (hitems : m.items = before ++ item :: behind) :
    (∃ f, ofItem? m item = .ok (some f) ∧ LocatedAt m f before.length ∧ isFunction (head? m item)) ∨
      ofItem? m item = .ok none ∧ isFunction (head? m item) = false := by
  cases hheader : header? m item with
  | none =>
    refine .inr ⟨?_, isFunction_of_header?_eq_none hheader⟩
    unfold ofItem?
    rw [hheader]
    rfl
  | some r =>
    have hitem : item ∈ m.items := by simp [hitems]
    have hwithin := header?_within (within_of_mem_items hitem) hheader
    obtain ⟨pre, post, htext, hpre, hreader⟩ := reader_in_header hitems hheader
    have hitem' : m.heads[before.length]? = some (head? m item) := by
      rw [heads, hitems, map_append, getElem?_append_right (by rw [length_map]), length_map, Nat.sub_self]
      rfl
    have hascii := hm.cut r
    rw [head?_of_header? hheader] at hitem' ⊢
    rw [ofItem?_of_header? hm hwithin hheader]
    generalize hhead : m.cut r = head at *
    rcases ofHeader?_spec hascii with ⟨hnone, hnot⟩ | ⟨g, lead, list, hg, hfunction, hreads⟩
    · refine .inr ⟨by rw [hnone]; rfl, ?_⟩
      rw [isFunction, hnone]
    · refine .inl ⟨g.placed r.start item,
        by rw [hg]; rfl, ?_, (isFunction_iff hascii _).mpr ⟨lead, list, hfunction⟩⟩
      obtain ⟨⟨behind', hlayout, -⟩, -⟩ := id hfunction
      obtain rfl := hlayout.eq
      have hlead : (pre ++ lead).length = lead.length + r.start := by rw [length_append, hpre, Nat.add_comm]
      refine ⟨pre, lead, list, behind', item.body?.isSome, hitem', hfunction, ⟨post, ?_⟩,
        hreads.name, ?_, ?_, ?_, rfl,
        fun s hs hbegins => ?_⟩
      · rw [htext]
        simp
      · rw [hlead]
        exact congrArg (· + r.start) hreads.openParen
      · rw [hlead]
        refine (congrArg (· + r.start) hreads.closeParen).trans ?_
        omega
      · refine (congrArg (map (·.shift r.start)) hreads.params).trans ?_
        rw [Parameter.map_shift_declaredFrom, hlead, Nat.add_right_comm]
      · obtain ⟨hemitted, hopen⟩ := hreader s hs hbegins
        exact ⟨by rw [hemitted, length_map], hopen⟩

theorem Located.lead_ne_nil {m : Text} {j : Nat} {f : Signature} {pre lead list behind : Text}
    {isBlock : Bool}
    (h : Located m j f pre lead list behind isBlock) : lead ≠ [] := by
  rintro rfl
  have := h.function.named
  cases this

theorem Located.isWord {m : Text} {j : Nat} {f : Signature} {pre lead list behind : Text} {isBlock : Bool}
    (h : Located m j f pre lead list behind isBlock) : f.name.IsWord := by
  have hnamed := h.function.named
  rw [unread, ← h.name] at hnamed
  simp only [Bool.or_eq_false_iff, Bool.not_eq_false'] at hnamed
  exact isWordByte_of_isIdentifier hnamed.1.1.1

/-- A function that is read of an earlier item stands before. -/
theorem LocatedAt.before {m : Text} {f g : Signature} {j k : Nat} (hf : LocatedAt m f j)
    (hg : LocatedAt m g k)
    (h : j < k) : f.closeParen < g.openParen := by
  obtain ⟨pre, lead, list, behind, isBlock, hf⟩ := hf
  obtain ⟨pre', lead', list', behind', isBlock', hg⟩ := hg
  obtain ⟨post, hm⟩ := hf.text
  obtain ⟨post', hm'⟩ := hg.text
  -- What is read up to the end of the one list is not yet what is read at the start of the other.
  obtain ⟨hcount, -⟩ := hf.reader (lead ++ 40 :: (list ++ [41])) (by simp) ⟨behind, by simp⟩
  obtain ⟨hcount', -⟩ := hg.reader (lead' ++ [40]) (by simp) ⟨list' ++ 41 :: behind', by simp⟩
  refine Nat.lt_of_not_le fun hle => ?_
  obtain ⟨more, hmore⟩ : pre' ++ (lead' ++ [40]) <+: pre ++ (lead ++ 40 :: (list ++ [41])) := by
    have hbegins' : pre' ++ (lead' ++ [40]) <+: m := ⟨list' ++ 41 :: (behind' ++ post'), by rw [hm']; simp⟩
    have hbegins : pre ++ (lead ++ 40 :: (list ++ [41])) <+: m := ⟨behind ++ post, by rw [hm]; simp⟩
    refine prefix_of_prefix_length_le hbegins' hbegins ?_
    rw [hf.closeParen, hg.openParen] at hle
    simp only [length_append, length_cons, length_nil] at hle ⊢
    omega
  have := congrArg length (Reader.emitted_append .between (pre' ++ (lead' ++ [40])) more)
  rw [hmore, length_append] at this
  omega

theorem forall₂_located {m : Text} (hm : m.IsAscii) {before behind : List Item}
    (hitems : m.items = before ++ behind)
    {found : List (Option Signature)} (hfound : behind.mapM (ofItem? m) = .ok found) :
    List.Forall₂ (LocatedAt m) (found.filterMap id) (slots before.length (behind.map (head? m))) := by
  replace hfound := Checked.forall₂_of_mapM hfound
  induction hfound generalizing before with
  | nil => exact .nil
  | @cons item x behind found hx _ ih =>
    have ih := @ih (before ++ [item]) (by rw [hitems]; simp)
    rw [length_append, length_singleton] at ih
    rw [map_cons, slots]
    rcases locatedAt_ofItem? hm hitems with ⟨f, hf, hlocated, hfunction⟩ | ⟨hnone, hfunction⟩
    · rw [hf] at hx
      cases hx
      rw [if_pos hfunction]
      exact .cons hlocated ih
    · rw [hnone] at hx
      cases hx
      rw [if_neg (by rw [hfunction]; decide)]
      exact ih

end Signature

/-- **The functions of a program are read of its items, in order.** -/
theorem Program.forall₂_located {source : Text} (h : source.IsAscii) {functions : List Signature}
    (hfunctions : Program.functions source = .ok functions) :
    List.Forall₂ (Signature.LocatedAt source.mask) functions (slots 0 source.mask.heads) := by
  obtain ⟨found, hfound, hfunctions⟩ := Checked.exists_of_bind hfunctions
  cases hfunctions
  exact Signature.forall₂_located h.mask (nil_append _).symm hfound

end GlslToMetal
