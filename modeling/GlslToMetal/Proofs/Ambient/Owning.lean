import GlslToMetal.Proofs.Ambient.Step
import GlslToMetal.Proofs.Signature.Layout

/-! Parameter lists that own a value. A list owns a value when one of its stretches is the declaration
of the value and nothing else. Whatever is put into a header before a parenthesis that closes, a
function stays one and its list keeps what it owns: what is put in begins with a comma that counts, or
lies in a stretch that owns nothing. -/

namespace GlslToMetal

open List Text

variable {behind head l lead lead' list list' s t u w x y : Text} {b : UInt8}

namespace Text

/-- A byte that neither delimits anything nor begins or ends an item. -/
def isInert (b : UInt8) : Bool := Delimiter.plain b && b != 59 && b != 61 && b != 35 && b != 92

def Inert (t : Text) : Prop := ∀ b ∈ t, isInert b

theorem Inert.append (hs : Inert s) (ht : Inert t) : Inert (s ++ t) := fun b hb =>
  (mem_append.mp hb).elim (hs b) (ht b)

theorem Inert.of_append {s t : Text} (h : Inert (s ++ t)) : Inert s ∧ Inert t :=
  ⟨fun b hb => h b (mem_append_left t hb), fun b hb => h b (mem_append_right s hb)⟩

theorem Inert.not_mem (h : Inert t) (hb : isInert b = false) : b ∉ t := by
  intro hmem
  rw [h b hmem] at hb
  cases hb

theorem Inert.plain (h : Inert t) : ∀ b ∈ t, Delimiter.plain b := by
  intro b hb
  have := h b hb
  simp only [isInert, Bool.and_eq_true] at this
  exact this.1.1.1.1

theorem Inert.weight (h : Inert t) : weight t = 0 := weight_of_plain h.plain

theorem Inert.behind? {d : Delimiter} (h : Inert t) (depth : Nat) : d.behind? depth t = some depth :=
  Delimiter.behind?_of_not_mem (h.not_mem (by cases d <;> rfl)) (h.not_mem (by cases d <;> rfl)) depth

theorem isInert_of_isWordByte (h : isWordByte b) : isInert b := by
  have hne : ∀ {c : UInt8}, isWordByte c = false → b ≠ c := by
    rintro c hc rfl
    rw [h] at hc
    cases hc
  simp only [isInert, Bool.and_eq_true, bne_iff_ne]
  exact ⟨⟨⟨⟨plain_of_isWordByte h, hne rfl⟩, hne rfl⟩, hne rfl⟩, hne rfl⟩

theorem inert_of_isBlank (h : t.all isBlank) : Inert t := by
  intro b hb
  have hblank := all_eq_true.mp h b hb
  simp only [isBlank, Bool.or_eq_true, beq_iff_eq] at hblank
  rcases hblank with (((rfl | rfl) | rfl) | rfl) | rfl <;> rfl

/-- The first stretch of the text is blank. -/
def LeadsBlank (t : Text) : Prop := ∃ s r, t = s ++ r ∧ s.all isBlank ∧ (r = [] ∨ r.head? = some 44)

theorem leadsBlank_of_all (h : t.all isBlank) : LeadsBlank t :=
  ⟨t, [], (append_nil t).symm, h, .inl rfl⟩

/-- The first stretch of a text that leads with blanks, up to its end or to a parenthesis that closes. -/
theorem exists_stretches_of_leadsBlank {z : Text} (hz : LeadsBlank z) (hy : y = [] ∨ y.head? = some 41) :
    ∃ s rest, stretches 0 (z ++ y) = s :: rest ∧ (s.all isBlank ∨ (41 ∈ s ∧ y ≠ [])) := by
  obtain ⟨z₁, z₂, rfl, hblank, hz₂⟩ := hz
  have hcomma : 44 ∉ z₁ := fun hmem => absurd (all_eq_true.mp hblank 44 hmem) (by decide)
  rw [append_assoc, stretches_append_of_not_mem hcomma, (inert_of_isBlank hblank).weight, Int.add_zero]
  rcases hz₂ with rfl | hz₂
  · rcases hy with rfl | hy
    · exact ⟨z₁, [], by simp [stretches, glue], .inl hblank⟩
    · obtain ⟨y', rfl⟩ := head?_eq_some_iff.mp hy
      obtain ⟨x, xs, hxs⟩ := exists_cons_of_ne_nil (stretches_ne_nil (0 + byteWeight 41) y')
      refine ⟨z₁ ++ 41 :: x, xs, ?_, .inr ⟨by simp, cons_ne_nil _ _⟩⟩
      rw [nil_append, stretches, if_neg (by decide), hxs]
      rfl
  · obtain ⟨z₃, rfl⟩ := head?_eq_some_iff.mp hz₂
    exact ⟨z₁, _, by rw [cons_append, stretches, if_pos (by decide), glue, append_nil], .inl hblank⟩

end Text

namespace Ambient

/-- A stretch of the list is the declaration of the value. -/
def OwnedBy (a : Ambient) (list : Text) : Prop := ∃ x ∈ stretches 0 list, x.strip = a.declaration

section Own

variable {a : Ambient} (ha : a.Proper)
include ha

theorem Proper.strip_ne (hb : b ∈ x) (hword : isWordByte b = false)
    (hblank : isBlank b = false) : x.strip ≠ a.declaration := by
  intro h
  refine ha.not_mem hword ?_ (h ▸ Nest.mem_strip hblank hb)
  rintro rfl
  cases hblank

/-- A stretch that holds such a byte owns nothing, so another may stand in its place. -/
theorem Proper.ownedBy_congr {init rest : List Text} {x' : Text} (hb : b ∈ x)
    (hword : isWordByte b = false) (hblank : isBlank b = false)
    (hlist : stretches 0 list = init ++ x :: rest) (hlist' : stretches 0 list' = init ++ x' :: rest)
    (h : a.OwnedBy list) : a.OwnedBy list' := by
  obtain ⟨y, hy, hown⟩ := h
  rw [hlist, mem_append, mem_cons] at hy
  refine ⟨y, ?_, hown⟩
  rw [hlist', mem_append, mem_cons]
  rcases hy with hy | rfl | hy
  · exact .inl hy
  · exact absurd hown (ha.strip_ne hb hword hblank)
  · exact .inr (.inr hy)

section Insert

variable {l z new : Text} (hz : Inert z) (hlead : LeadsBlank z) (hnew : Inert new) (hcomma : 44 ∉ new)
include hz hlead hnew hcomma

/-- **What begins with a comma is put in behind a stretch.** -/
theorem Proper.ownedBy_insert (hy : y = [] ∨ y.head? = some 41) (hl : y = [] → weight l = 0)
    (h : a.OwnedBy (l ++ (z ++ y))) : a.OwnedBy (l ++ (44 :: 32 :: (new ++ (z ++ y)))) := by
  obtain ⟨init, last, -, happend⟩ := stretches_append 0 l
  have hold := happend (z ++ y)
  have hnew' := happend (44 :: 32 :: (new ++ (z ++ y)))
  rw [Int.zero_add] at hold hnew'
  by_cases hweight : weight l = 0
  · -- The comma counts: the stretch before it ends there, and blanks are taken from its end.
    obtain ⟨s, rest, hs, hkind⟩ := exists_stretches_of_leadsBlank hlead hy
    have hspace : (44 : UInt8) ∉ 32 :: new := by simp [hcomma]
    have hplain : weight (32 :: new) = 0 := by
      rw [weight_cons, hnew.weight]
      rfl
    have hsplit := @stretches_append_of_not_mem 0 _ hspace (z ++ y)
    rw [hplain, Int.zero_add, hs, glue, cons_append] at hsplit
    rw [hweight, stretches, if_pos (by decide), hsplit, glue, append_nil] at hnew'
    rw [hweight, hs, glue] at hold
    obtain ⟨x, hx, hown⟩ := h
    rw [hold, mem_append, mem_cons] at hx
    rcases hx with hx | rfl | hx
    · exact ⟨x, by rw [hnew']; simp [hx], hown⟩
    · rcases hkind with hblank | ⟨hparen, -⟩
      · refine ⟨last, by rw [hnew']; simp, ?_⟩
        have := strip_surround (a := []) rfl last hblank
        rw [nil_append] at this
        rw [← this, hown]
      · exact absurd hown (ha.strip_ne (mem_append_right last hparen) rfl rfl)
    · exact ⟨x, by rw [hnew']; simp [hx], hown⟩
  · -- The comma does not count, and the stretch goes on to the parenthesis.
    obtain ⟨y', rfl⟩ : ∃ y', y = 41 :: y' := by
      rcases hy with rfl | hy
      · exact absurd (hl rfl) hweight
      · exact head?_eq_some_iff.mp hy
    obtain ⟨s, rest, hs⟩ := exists_cons_of_ne_nil (stretches_ne_nil (weight l) (41 :: y'))
    have hparen : 41 ∈ s := by
      obtain ⟨x, xs, hxs⟩ := exists_cons_of_ne_nil (stretches_ne_nil (weight l + byteWeight 41) y')
      rw [stretches, if_neg (by simp), hxs] at hs
      rw [← (cons.inj hs).1]
      exact mem_cons_self
    have hput : ∀ b ∈ (44 :: 32 :: new : Text), Delimiter.plain b := by
      intro b hb
      rcases mem_cons.mp hb with rfl | hb
      · rfl
      · rcases mem_cons.mp hb with rfl | hb
        · rfl
        · exact hnew.plain b hb
    have hmore := stretches_append_of_plain hweight hput (z ++ 41 :: y')
    rw [cons_append, cons_append] at hmore
    rw [hmore, stretches_append_of_plain hweight hz.plain, hs, glue, glue, glue] at hnew'
    rw [stretches_append_of_plain hweight hz.plain, hs, glue, glue] at hold
    exact ha.ownedBy_congr (b := 41) (by simp [hparen]) rfl rfl hold hnew' h

omit hz hnew hcomma in
/-- The declaration of a value that is put in is owned. -/
theorem Proper.ownedBy_inserted (hl : weight l = 0) :
    a.OwnedBy (l ++ (44 :: 32 :: (a.declaration ++ z))) := by
  obtain ⟨init, last, -, happend⟩ := stretches_append 0 l
  obtain ⟨s, rest, hs, hkind⟩ := exists_stretches_of_leadsBlank (y := []) hlead (.inl rfl)
  have hblank : s.all isBlank := hkind.resolve_right fun h => h.2 rfl
  have hspace : (44 : UInt8) ∉ 32 :: a.declaration := by simp [ha.not_mem (b := 44) rfl (by decide)]
  have hplain : weight (32 :: a.declaration) = 0 := by
    refine weight_of_plain fun b hb => ?_
    rcases mem_cons.mp hb with rfl | hb
    · rfl
    · rcases ha.bytes b hb with hb | rfl
      · exact plain_of_isWordByte hb
      · rfl
  have hsplit := @stretches_append_of_not_mem 0 _ hspace z
  rw [append_nil] at hs
  rw [hplain, Int.zero_add, hs, glue, cons_append] at hsplit
  have hlist := happend (44 :: 32 :: (a.declaration ++ z))
  rw [Int.zero_add, hl, stretches, if_pos (by decide), hsplit, glue, append_nil] at hlist
  refine ⟨32 :: a.declaration ++ s, by rw [hlist]; simp, ?_⟩
  have := strip_surround (a := [32]) rfl a.declaration hblank
  rwa [singleton_append, ha.stripped] at this

end Insert

section Fill

variable {z new : Text} (hlead : LeadsBlank z) (hnew : Inert new) (hcomma : 44 ∉ new)

include hnew hcomma in
/-- What replaces blanks behind a parenthesis lies in the stretch of the parenthesis. -/
theorem Proper.ownedBy_fill (hu : u.all isBlank) (y : Text) (h : a.OwnedBy (l ++ 40 :: (u ++ y))) :
    a.OwnedBy (l ++ 40 :: (new ++ y)) := by
  obtain ⟨init, last, -, happend⟩ := stretches_append 0 l
  have hold := happend (40 :: (u ++ y))
  have hnew' := happend (40 :: (new ++ y))
  have hcomma' : 44 ∉ u := fun hmem => absurd (all_eq_true.mp hu 44 hmem) (by decide)
  rw [stretches, if_neg (by simp), stretches_append_of_not_mem hcomma', (inert_of_isBlank hu).weight] at hold
  rw [stretches, if_neg (by simp), stretches_append_of_not_mem hcomma, hnew.weight] at hnew'
  obtain ⟨s, rest, hs⟩ := exists_cons_of_ne_nil
    (stretches_ne_nil (0 + weight l + byteWeight 40 + 0) y)
  rw [hs, glue, glue, glue] at hold hnew'
  exact ha.ownedBy_congr (b := 40) (by simp) rfl rfl hold hnew' h

include hlead in
omit ha in
theorem stretches_of_leadsBlank : ∃ s rest, stretches 0 z = s :: rest ∧ s.all isBlank := by
  obtain ⟨s, rest, hs, hkind⟩ := exists_stretches_of_leadsBlank (y := []) hlead (.inl rfl)
  rw [append_nil] at hs
  exact ⟨s, rest, hs, hkind.resolve_right fun h => h.2 rfl⟩

include hlead hnew hcomma in
omit ha in
/-- What replaces stretches that own nothing. -/
theorem ownedBy_replace (hu : Inert u) (hnone : ∀ x ∈ stretches 0 u, x.strip ≠ a.declaration)
    (h : a.OwnedBy (u ++ z)) : a.OwnedBy (new ++ z) := by
  obtain ⟨init, last, hlast, happend⟩ := stretches_append 0 u
  obtain ⟨s, rest, hs, hblank⟩ := stretches_of_leadsBlank hlead
  have hold := happend z
  rw [Int.zero_add, hu.weight, hs, glue] at hold
  have hnew' := @stretches_append_of_not_mem 0 _ hcomma z
  rw [hnew.weight, Int.zero_add, hs, glue] at hnew'
  obtain ⟨x, hx, hown⟩ := h
  rw [hold, mem_append, mem_cons] at hx
  rw [hlast] at hnone
  rcases hx with hx | rfl | hx
  · exact absurd hown (hnone x (by simp [hx]))
  · have := strip_surround (a := []) rfl last hblank
    rw [nil_append] at this
    exact absurd (this ▸ hown) (hnone last (by simp))
  · exact ⟨x, by rw [hnew']; simp [hx], hown⟩

include hlead in
theorem Proper.ownedBy_replaced : a.OwnedBy (a.declaration ++ z) := by
  obtain ⟨s, rest, hs, hblank⟩ := stretches_of_leadsBlank hlead
  have hplain : weight a.declaration = 0 := by
    refine weight_of_plain fun b hb => ?_
    rcases ha.bytes b hb with hb | rfl
    · exact plain_of_isWordByte hb
    · rfl
  have hlist := @stretches_append_of_not_mem 0 _ (ha.not_mem (b := 44) rfl (by decide)) z
  rw [hplain, Int.zero_add, hs, glue] at hlist
  refine ⟨a.declaration ++ s, by rw [hlist]; simp, ?_⟩
  have := strip_surround (a := []) rfl a.declaration hblank
  rwa [nil_append, ha.stripped] at this

end Fill

end Own

end Ambient

namespace Signature

theorem unread_append (h : (s ++ 41 :: t).IsAscii) :
    unread (s ++ 41 :: t) = (!(nameIn t).isIdentifier || nonTypeWords.contains (nameIn t)) := by
  have hstop : UpToStop t.reverse (s ++ 41 :: t).reverse := by
    have := UpToStop.append (.inl rfl : UpToStop t.reverse t.reverse) (b := 41) (by decide) s.reverse
    simpa using this
  have hname : nameIn (s ++ 41 :: t) = nameIn t := wordBefore_upToStop hstop
  have htype : 41 ∈ typeIn (s ++ 41 :: t) := by
    refine mem_trim (h.of_subset ?_) ?_ rfl
    · intro b hb
      rw [mem_reverse] at hb
      exact mem_reverse.mp ((dropWhile_sublist _).subset ((dropWhile_sublist _).subset hb))
    · rw [mem_reverse]
      unfold beforeWord
      refine mem_dropWhile_of_not (mem_dropWhile_of_not ?_ rfl) rfl
      simp
  have hnonempty : (typeIn (s ++ 41 :: t)).isEmpty = false := by
    rw [isEmpty_eq_false_iff]
    exact ne_nil_of_mem htype
  have hword : nonTypeWords.contains (typeIn (s ++ 41 :: t)) = false := by
    rw [contains_eq_mem, decide_eq_false_iff_not]
    intro hmem
    have hnone : ∀ w ∈ nonTypeWords, 41 ∉ w := by decide
    exact hnone _ hmem htype
  rw [unread, hname, hnonempty, hword, Bool.or_false, Bool.or_false]

/-- What stands before a parenthesis that closes is put in another's place: in the lead of a header, or in
its list. -/
inductive Put (a u v : Text) : Text → Text → Text → Text → Prop where
  | lead (w list : Text) : Put a u v (a ++ u ++ 41 :: w) list (a ++ v ++ 41 :: w) list
  | list {lead l : Text} (ha : a = lead ++ 40 :: l) (hlead : 40 ∉ lead) {y : Text}
    (hy : y = [] ∨ y.head? = some 41) : Put a u v lead (l ++ (u ++ y)) lead (l ++ (v ++ y))

theorem exists_of_append_eq (hu : Inert u) (h : u ++ 41 :: w = s ++ 41 :: t) :
    ∃ y, s = u ++ y ∧ 41 :: w = y ++ 41 :: t := by
  rcases append_eq_append_iff.mp h with ⟨y, hs, hy⟩ | ⟨y, hs, hy⟩
  · exact ⟨y, hs, hy⟩
  · cases y with
    | nil => exact ⟨[], by simpa using hs.symm, by simpa using hy.symm⟩
    | cons b y =>
      obtain ⟨rfl, -⟩ := cons.inj hy
      exact absurd (by simp [hs]) (hu.not_mem (b := 41) rfl)

theorem exists_list (hu : Inert u) (hascii : behind.IsAscii) (hwhite : behind.isWhite)
    (h : l ++ (u ++ 41 :: w) = list ++ 41 :: behind) :
    ∃ y, list = l ++ (u ++ y) ∧ 41 :: w = y ++ 41 :: behind := by
  rcases append_eq_append_iff.mp h with ⟨s, rfl, hs⟩ | ⟨s, rfl, hs⟩
  · obtain ⟨y, rfl, hy⟩ := exists_of_append_eq hu hs
    exact ⟨y, rfl, hy⟩
  · cases s with
    | nil =>
      obtain ⟨y, hnil, hy⟩ := exists_of_append_eq (s := []) hu hs.symm
      obtain ⟨rfl, rfl⟩ := append_eq_nil_iff.mp hnil.symm
      exact ⟨[], by simp, hy⟩
    | cons b s =>
      obtain ⟨rfl, rfl⟩ := cons.inj hs
      rw [isWhite_eq_false hascii (b := 41) (by simp) rfl] at hwhite
      cases hwhite

/-- **A function stays one** when something is put in before a parenthesis that closes. -/
theorem IsFunction.put {a v : Text} (hu : Inert u) (hv : Inert v)
    (hascii : (a ++ (u ++ 41 :: w)).IsAscii) (hascii' : (a ++ (v ++ 41 :: w)).IsAscii)
    (h : IsFunction (a ++ (u ++ 41 :: w)) lead list) :
    ∃ lead' list', IsFunction (a ++ (v ++ 41 :: w)) lead' list' ∧ Put a u v lead list lead' list' := by
  obtain ⟨⟨behind, ⟨heq, hfirst, hclosed⟩, hwhite⟩, hnamed⟩ := h
  have hbehind : behind.IsAscii := hascii.of_subset (by rw [heq]; intro b hb; simp [hb])
  by_cases hparen : 40 ∈ a
  · -- The parenthesis of the list stands before what is put in.
    obtain ⟨first, l, rfl, hfirst'⟩ := eq_append_cons_of_mem hparen
    have hlead := congrArg (takeWhile (· != 40)) heq
    rw [takeWhile_lead hfirst, append_assoc, cons_append, takeWhile_lead hfirst'] at hlead
    subst hlead
    rw [append_assoc, cons_append] at heq
    obtain ⟨y, rfl, hy⟩ := exists_list hu hbehind hwhite (cons.inj (append_cancel_left heq)).2
    have hy' : y = [] ∨ y.head? = some 41 := by
      cases y with
      | nil => exact .inl rfl
      | cons b y => exact .inr (congrArg some (cons.inj hy).1.symm)
    refine ⟨first, l ++ (v ++ y), ⟨⟨behind, ⟨?_, hfirst', ?_⟩, hwhite⟩, hnamed⟩, .list rfl hfirst' hy'⟩
    · rw [hy]
      simp
    · unfold ParensClosed at hclosed ⊢
      rw [Delimiter.behind?_append] at hclosed ⊢
      obtain ⟨k, hk, hmore⟩ := Option.bind_eq_some_iff.mp hclosed
      rw [Delimiter.behind?_append, hu.behind?] at hmore
      rw [hk, Option.bind_some, Delimiter.behind?_append, hv.behind?]
      exact hmore
  · -- The list stands behind, and what is put in is part of the return type.
    have hnone : ∀ {x : Text}, Inert x → 40 ∉ a ++ x ++ [41] := by
      intro x hx
      simp [hparen, hx.not_mem (b := 40) rfl]
    obtain ⟨w', rfl, hw⟩ : ∃ w', lead = a ++ u ++ 41 :: w' ∧ w = w' ++ 40 :: (list ++ 41 :: behind) := by
      have heq' : (a ++ u ++ [41]) ++ w = lead ++ 40 :: (list ++ 41 :: behind) := by
        rw [← heq]
        simp
      rcases append_eq_append_iff.mp heq' with ⟨s, hs, hw⟩ | ⟨s, hs, hw⟩
      · exact ⟨s, by rw [hs]; simp, hw⟩
      · cases s with
        | nil => exact ⟨[], by simpa using hs.symm, by simpa using hw.symm⟩
        | cons b s =>
          obtain ⟨rfl, -⟩ := cons.inj hw
          exact absurd (by rw [hs]; simp) (hnone hu)
    subst hw
    refine ⟨a ++ v ++ 41 :: w', list, ⟨⟨behind, ⟨by simp, ?_, hclosed⟩, hwhite⟩, ?_⟩, .lead w' list⟩
    · have := hnone hv
      simp only [mem_append, mem_cons, not_or] at this hfirst ⊢
      exact ⟨this.1, by decide, hfirst.2.2⟩
    · rw [unread_append (hascii'.of_subset (by intro b hb; simp at hb ⊢; tauto))]
      rwa [unread_append (hascii.of_subset (by intro b hb; simp at hb ⊢; tauto))] at hnamed

end Signature

end GlslToMetal
