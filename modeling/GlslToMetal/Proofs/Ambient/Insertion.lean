import GlslToMetal.Proofs.Ambient.Growing
import GlslToMetal.Proofs.Lowering.Steps
import GlslToMetal.Proofs.Text.Editing

/-! Edits that append to lists between parentheses. An edit puts something in behind the last element of
a list, or in place of a list without elements. Applied together such edits let everything that is
read of a program grow: the text is edited from its end on, one edit at a time, and what follows an edit
up to the parenthesis of its list is what may stand there. -/

namespace GlslToMetal

open List Text

variable {e : Edit} {xs ys : List (Option Head)} {es : List Edit} {j : Nat} {ρ : Reader}
  {a l m new r t u v y z : Text}

namespace Edit

/-- The edit puts `new` in behind an element of the list between parentheses behind `l`. -/
structure Inserts (m : Text) (e : Edit) (l t z r new : Text) : Prop where
  eq : m = l ++ 40 :: (t ++ (z ++ 41 :: r))
  closed : ParensClosed (t ++ z)
  solid : ¬ t.all isBlank
  place : EndsSolid t ∨ z = []
  inert : Inert z
  lead : LeadsBlank z
  fresh : Signature.Fresh new
  range : e.range = ⟨l.length + 1 + t.length, l.length + 1 + t.length⟩
  replacement : e.replacement = 44 :: 32 :: new

/-- The list `t` behind `l` is that of a header and owns nothing. -/
def Unowned (l t : Text) : Prop :=
  (∃ lead, (Item.Reader.between.read l).open? = some lead ∧ 40 ∉ lead) ∧
    ∀ a : Ambient, a.Proper → ∀ x ∈ stretches 0 t, x.strip ≠ a.declaration

/-- The edit puts `new` in place of the list `t` between parentheses behind `l`. -/
structure Fills (m : Text) (e : Edit) (l t r new : Text) : Prop where
  eq : m = l ++ 40 :: (t ++ 41 :: r)
  closed : ParensClosed t
  inert : Inert t
  empty : t.all isBlank ∨ Unowned l t
  fresh : Signature.Fresh new
  range : e.range = ⟨l.length + 1, l.length + 1 + t.length⟩
  replacement : e.replacement = new

/-- The edit appends to a list. -/
inductive Appends (m : Text) (e : Edit) : Prop where
  | insert {l t z r new : Text} (h : Inserts m e l t z r new)
  | fill {l t r new : Text} (h : Fills m e l t r new)

theorem inert_inj {w w' : Text} (hu : Inert u) (hv : Inert v) (h : u ++ 41 :: w = v ++ 41 :: w') :
    u = v ∧ w = w' := by
  obtain ⟨y, rfl, hy⟩ := Signature.exists_of_append_eq hu h
  cases y with
  | nil => exact ⟨(append_nil u).symm, (cons.inj hy).2⟩
  | cons b y =>
    obtain ⟨rfl, -⟩ := cons.inj hy
    exact absurd (by simp) (hv.not_mem (b := 41) rfl)

section Divide

variable {m : Text} {e : Edit}

theorem Inserts.divide (h : Inserts m e l t z r new) :
    m.take e.range.start = l ++ 40 :: t ∧ m.drop e.range.start = z ++ 41 :: r := by
  have hlength : e.range.start = (l ++ 40 :: t).length := by
    rw [h.range, length_append, length_cons]
    dsimp only
    omega
  have heq : m = (l ++ 40 :: t) ++ (z ++ 41 :: r) := by rw [h.eq]; simp
  exact ⟨by rw [hlength, heq, take_left], by rw [hlength, heq, drop_left]⟩

theorem Fills.divide (h : Fills m e l t r new) :
    m.take e.range.start = l ++ [40] ∧ m.drop e.range.start = t ++ 41 :: r ∧
      m.drop e.range.stop = 41 :: r := by
  have hstart : e.range.start = (l ++ [40]).length := by rw [h.range, length_append, length_singleton]
  have hstop : e.range.stop = (l ++ [40] ++ t).length := by
    rw [h.range, length_append, length_append, length_singleton]
  have heq : m = (l ++ [40]) ++ (t ++ 41 :: r) := by rw [h.eq]; simp
  have heq' : m = (l ++ [40] ++ t) ++ (41 :: r) := by rw [h.eq]; simp
  refine ⟨?_, ?_, ?_⟩
  · rw [hstart, heq, take_left]
  · rw [hstart, heq, drop_left]
  · rw [hstop, heq', drop_left]

theorem Inserts.cut_range (h : Inserts m e l t z r new) : m.cut e.range = [] := by
  rw [cut, h.range, Nat.sub_self, take_zero]

theorem Fills.cut_range (h : Fills m e l t r new) : m.cut e.range = t := by
  have hlength : e.range.stop - e.range.start = t.length := by
    rw [h.range]
    dsimp only
    omega
  rw [cut, h.divide.2.1, hlength, take_left]

theorem Appends.within (h : e.Appends m) : e.range.Within m.length := by
  cases h with
  | insert h =>
    rw [h.range, h.eq]
    refine ⟨Nat.le_refl _, ?_⟩
    simp only [length_append, length_cons]
    omega
  | fill h =>
    rw [h.range, h.eq]
    refine ⟨Nat.le_add_right _ _, ?_⟩
    simp only [length_append, length_cons]
    omega

end Divide

theorem LeadsBlank.comma {s : Text} (h : LeadsBlank (s ++ t)) (w : Text) : LeadsBlank (s ++ 44 :: w) := by
  obtain ⟨x, y, heq, hblank, hy⟩ := h
  rcases append_eq_append_iff.mp heq with ⟨u, rfl, -⟩ | ⟨u, rfl, hu⟩
  · rw [all_append, Bool.and_eq_true] at hblank
    exact ⟨s, 44 :: w, rfl, hblank.1, .inr rfl⟩
  · refine ⟨x, u ++ 44 :: w, append_assoc _ _ _, hblank, .inr ?_⟩
    cases u with
    | nil => rfl
    | cons b u =>
      rcases hy with rfl | hy
      · cases hu
      · rw [hu] at hy
        exact hy

theorem inert_comma (h : Inert t) : Inert (44 :: 32 :: t) := by
  intro b hb
  rcases mem_cons.mp hb with rfl | hb
  · rfl
  · rcases mem_cons.mp hb with rfl | hb
    · rfl
    · exact h b hb

/-- **What follows an edit up to the parenthesis of its list**, once the text behind it is edited. -/
theorem exists_tail {m : Text} {es : List Edit} {q : Nat} {z r : Text}
    (hdrop : m.drop q = z ++ 41 :: r) (hz : Inert z)
    (hlead : LeadsBlank z) (hinserts : ∀ e ∈ es, q ≤ e.range.start → e.range.start ≤ q + z.length →
      ∃ l t z r new, Inserts m e l t z r new) :
    ∃ z' r', spliced m q es = z' ++ 41 :: r' ∧ Inert z' ∧ LeadsBlank z' := by
  induction es generalizing q z r with
  | nil => exact ⟨z, r, hdrop, hz, hlead⟩
  | cons e es ih =>
    have hinserts' := fun f hf => hinserts f (mem_cons_of_mem e hf)
    rw [spliced]
    split
    · exact ih hdrop hz hlead hinserts'
    next hstart =>
    have hstart := Nat.not_lt.mp hstart
    by_cases hinside : e.range.start ≤ q + z.length
    · -- The edit lies before the parenthesis, so it puts in behind an element.
      obtain ⟨l, t, z', r', new, h⟩ := hinserts e mem_cons_self hstart hinside
      obtain ⟨z₁, z₂, rfl, hlength⟩ : ∃ z₁ z₂, z = z₁ ++ z₂ ∧ z₁.length = e.range.start - q :=
        ⟨_, _, (take_append_drop (e.range.start - q) z).symm, length_take_of_le (by omega)⟩
      have hcut : m.cut ⟨q, e.range.start⟩ = z₁ := by
        rw [cut, hdrop, append_assoc, ← hlength, take_left]
      have hdrop' : m.drop e.range.start = z₂ ++ 41 :: r := by
        have := congrArg (drop z₁.length) hdrop
        rwa [drop_drop, append_assoc, drop_left, hlength, Nat.add_sub_cancel' hstart] at this
      obtain ⟨hz₁, hz₂⟩ := hz.of_append
      obtain ⟨rfl, -⟩ := inert_inj hz₂ h.inert (hdrop'.symm.trans h.divide.2)
      have hstop : e.range.stop = e.range.start := by rw [h.range]
      rw [length_append] at hinserts'
      obtain ⟨z'', r'', hafter, hz'', -⟩ := ih hdrop' hz₂ h.lead
        (fun f hf hge hle => hinserts' f hf (by omega) (by omega))
      refine ⟨z₁ ++ 44 :: (32 :: new ++ z''), r'', ?_, hz₁.append ?_, LeadsBlank.comma hlead _⟩
      · rw [hcut, h.replacement, hstop, hafter]
        simp
      · exact inert_comma (h.fresh.inert.append hz'')
    · -- The edit lies behind the parenthesis.
      have hcut : m.cut ⟨q, e.range.start⟩ = z ++ 41 :: r.take (e.range.start - q - z.length - 1) := by
        have hlength : e.range.start - q - z.length = (e.range.start - q - z.length - 1) + 1 := by omega
        rw [cut, hdrop, take_append, take_of_length_le (by dsimp only; omega), hlength, take_succ_cons]
        rfl
      exact ⟨z, _, by rw [hcut, append_assoc, cons_append], hz, hlead⟩

/-- Two edits do not fill one empty list. -/
def Apart (m : Text) (e f : Edit) : Prop :=
  ∀ ⦃l t r new t' r' new' : Text⦄, Fills m e l t r new → Fills m f l t' r' new' → t ≠ []

/-- A text that ends with a parenthesis that opens, and goes on without parentheses. -/
theorem not_parensClosed (hu : Inert u) : ¬ ParensClosed (t ++ 40 :: u) := by
  intro h
  unfold ParensClosed at h
  rw [Delimiter.behind?_append] at h
  obtain ⟨k, -, hk⟩ := Option.bind_eq_some_iff.mp h
  have hstep : Delimiter.paren.behind? k (40 :: u) = Delimiter.paren.behind? (k + 1) u := rfl
  rw [hstep, hu.behind?] at hk
  cases hk

section After

variable {m : Text} {e f : Edit}

/-- Up to the parenthesis of a list no other list is filled. -/
theorem Inserts.inserts_of_le (h : Inserts m e l t z r new) (hf : f.Appends m)
    (hge : e.range.start ≤ f.range.start) (hle : f.range.start ≤ e.range.start + z.length) :
    ∃ l t z r new, Inserts m f l t z r new := by
  cases hf with
  | insert hf => exact ⟨_, _, _, _, _, hf⟩
  | @fill l' t' r' new' hf =>
    exfalso
    obtain ⟨htake, hdrop⟩ := h.divide
    obtain ⟨htake', hdrop', -⟩ := hf.divide
    obtain ⟨z₁, z₂, rfl, hlength⟩ : ∃ z₁ z₂, z = z₁ ++ z₂ ∧ z₁.length = f.range.start - e.range.start :=
      ⟨_, _, (take_append_drop (f.range.start - e.range.start) z).symm, length_take_of_le (by omega)⟩
    have hbefore : m.take f.range.start = l ++ 40 :: t ++ z₁ := by
      have : f.range.start = e.range.start + z₁.length := by omega
      rw [this, take_add, htake, hdrop, append_assoc z₁, take_left]
    obtain ⟨hz₁, hz₂⟩ := h.inert.of_append
    rcases eq_nil_or_concat z₁ with rfl | ⟨z₀, b, rfl⟩
    · -- What is filled would lie in the list, behind a parenthesis that is not closed.
      have hsame : f.range.start = e.range.start := by
        rw [length_nil] at hlength
        omega
      rw [hsame, hdrop, nil_append] at hdrop'
      obtain ⟨rfl, -⟩ := inert_inj hz₂ hf.inert hdrop'
      rw [hbefore, append_nil] at htake'
      rcases eq_nil_or_concat t with rfl | ⟨t₀, b, rfl⟩
      · exact h.solid rfl
      · rw [concat_eq_append, ← cons_append, ← append_assoc] at htake'
        obtain rfl : b = 40 := by simpa using (append_inj_right' htake' rfl)
        have hclosed := h.closed
        rw [concat_eq_append, append_assoc, nil_append, singleton_append] at hclosed
        exact not_parensClosed hz₂ hclosed
    · rw [hbefore, concat_eq_append, ← append_assoc] at htake'
      obtain rfl : b = 40 := by simpa using (append_inj_right' htake' rfl)
      exact hz₁.not_mem (b := 40) rfl (by simp)

theorem Fills.inserts_of_eq (h : Fills m e l t r new) (hf : f.Appends m) (hapart : Apart m e f)
    (heq : f.range.start = e.range.stop) : ∃ l t z r new, Inserts m f l t z r new := by
  cases hf with
  | insert hf => exact ⟨_, _, _, _, _, hf⟩
  | @fill l' t' r' new' hf =>
    exfalso
    obtain ⟨htake, -, -⟩ := hf.divide
    have hbefore : m.take f.range.start = l ++ [40] ++ t := by
      have heq' : m = (l ++ [40] ++ t) ++ (41 :: r) := by rw [h.eq]; simp
      have : f.range.start = (l ++ [40] ++ t).length := by
        rw [heq, h.range, length_append, length_append, length_singleton]
      rw [this, heq', take_left]
    rw [hbefore] at htake
    rcases eq_nil_or_concat t with rfl | ⟨t₀, b, rfl⟩
    · rw [append_nil] at htake
      obtain rfl := append_cancel_right htake
      exact hapart h hf rfl
    · rw [concat_eq_append, ← append_assoc] at htake
      obtain rfl : b = 40 := by simpa using (append_inj_right' htake rfl)
      exact h.inert.not_mem (b := 40) rfl (by simp)

theorem exists_after (hes : ∀ f ∈ e :: es, f.Appends m) (hapart : ∀ f ∈ es, Apart m e f) :
    ∃ z r, spliced m e.range.stop es = z ++ 41 :: r ∧ Inert z ∧ LeadsBlank z := by
  have hes' := fun f hf => hes f (mem_cons_of_mem e hf)
  cases hes e mem_cons_self with
  | insert h =>
    have hstop : e.range.stop = e.range.start := by rw [h.range]
    rw [hstop]
    exact exists_tail h.divide.2 h.inert h.lead fun f hf hge hle => h.inserts_of_le (hes' f hf) hge hle
  | fill h =>
    refine exists_tail (z := []) h.divide.2.2 nofun (leadsBlank_of_all rfl)
      fun f hf hge hle => h.inserts_of_eq (hes' f hf) (hapart f hf) ?_
    rw [length_nil] at hle
    omega

end After

end Edit

namespace Item.Reader

/-- What is read of a header grows by what is read. -/
theorem open?_step {b : UInt8} (h : (ρ.step b).open? = some a) : a = ρ.open?.getD [] ++ [b] := by
  have henter : ∀ {head : Text}, (enter head b).open? = some a → a = head ++ [b] := by
    intro head h
    unfold enter at h
    split at h
    · split at h
      · cases h
      · exact (Option.some.inj h).symm
    · split at h
      · cases h
      · exact (Option.some.inj h).symm
  have hbegin : (begin b).open? = some a → a = [b] := by
    intro h
    unfold begin at h
    split at h
    · cases h
    split at h
    · cases h
    · exact henter h
  cases ρ with
  | between => exact hbegin h
  | closed =>
    rw [step] at h
    split at h
    · cases h
    split at h
    · cases h
    · exact hbegin h
  | line t =>
    rw [step] at h
    split at h <;> cases h
  | inside head => exact henter h
  | nested head d depth =>
    cases depth <;> simp only [step] at h <;> split_ifs at h <;> exact (Option.some.inj h).symm
  | body head depth =>
    cases depth <;> simp only [step] at h <;> split_ifs at h <;> cases h

theorem line_of_step_paren (h : ρ.step 40 = line a) : ∃ a', a = a' ++ [40] := by
  cases ρ with
  | between => cases h
  | closed => cases h
  | line t =>
    obtain rfl : t ++ [40] = a := line.inj h
    exact ⟨t, rfl⟩
  | inside head => cases h
  | nested head d depth =>
    have hclose : ((40 : UInt8) == d.closer) = false := by cases d <;> rfl
    simp only [step, hclose, Bool.false_eq_true, if_false] at h
    split at h <;> cases h
  | body head depth => cases h

/-- A preprocessor line whose parentheses are closed does not end in one of their lists. -/
theorem newline_not_mem (ha : 92 ∉ a) (ht : Inert t)
    (hsteady : ∀ x ∈ (line (a ++ [40])).heads (t ++ y), Head.Steady x) : newline ∉ t := by
  intro hmem
  obtain ⟨t₁, t₂, rfl, hnone⟩ := eq_append_cons_of_mem hmem
  have ht₁ : Inert t₁ := ht.of_append.1
  obtain ⟨hread, hemitted⟩ := read_line hnone (a ++ [40])
  have hlast : (a ++ [40] ++ t₁).getLast? ≠ some 92 := by
    intro h
    have := mem_of_getLast? h
    simp only [mem_append, mem_singleton] at this
    rcases this with (hmem | hmem) | hmem
    · exact ha hmem
    · cases hmem
    · exact ht₁.not_mem (b := 92) rfl hmem
  have hline : some (.line (a ++ [40] ++ t₁)) ∈ (line (a ++ [40])).heads (t₁ ++ newline :: t₂ ++ y) := by
    rw [append_assoc, heads_append, hread, hemitted, nil_append]
    refine mem_append_left _ ?_
    rw [cons_append, emitted]
    refine mem_append_left _ ?_
    rw [emit, beq_self_eq_true, Bool.true_and, if_pos (bne_iff_ne.mpr hlast)]
    exact mem_singleton_self _
  have hclosed : ParensClosed (a ++ [40] ++ t₁) := hsteady _ hline
  rw [append_assoc, singleton_append] at hclosed
  exact Edit.not_parensClosed ht₁ hclosed

end Item.Reader

namespace Edit

open Item

/-- **A program grows by one edit**, with what follows it up to the parenthesis of its list. -/
theorem Appends.grows (h : e.Appends m) (hback : 92 ∉ m) (hz : Inert z)
    (hlead : LeadsBlank z) (hascii : IsAscii (m.take e.range.start ++ (m.cut e.range ++ (z ++ 41 :: r))))
    (hascii' : IsAscii (m.take e.range.start ++ (e.replacement ++ (z ++ 41 :: r))))
    (hsteady : ∀ x ∈ heads (m.take e.range.start ++ (m.cut e.range ++ (z ++ 41 :: r))), Head.Steady x) :
    List.Forall₂ Head.Grows (heads (m.take e.range.start ++ (m.cut e.range ++ (z ++ 41 :: r))))
      (heads (m.take e.range.start ++ (e.replacement ++ (z ++ 41 :: r)))) := by
  have hback' : 92 ∉ m.take e.range.start := fun hmem => hback (mem_of_mem_take hmem)
  cases h with
  | @insert l t z' r' new h =>
    have hline : newline ∉ (44 :: 32 :: new : Text) := by
      rw [mem_cons, mem_cons, not_or, not_or]
      exact ⟨by decide, by decide, h.fresh.line⟩
    rw [h.cut_range] at hascii hsteady ⊢
    rw [h.replacement] at hascii' ⊢
    refine grows_change hascii hascii' hback' nofun (inert_comma h.fresh.inert) hz
      nofun hline (fun a ha => ?_) hsteady
    exact .insert hz hlead h.fresh
  | @fill l t r' new h =>
    obtain ⟨htake, -, -⟩ := h.divide
    have hread : Reader.between.read (l ++ [40]) = (Reader.between.read l).step 40 := Reader.read_append _ _ _
    rw [h.cut_range] at hascii hsteady ⊢
    rw [h.replacement] at hascii' ⊢
    rw [htake] at hascii hascii' hsteady hback' ⊢
    refine grows_change hascii hascii' hback' h.inert h.fresh.inert hz (fun a ha => ?_) h.fresh.line
      (fun a ha => ?_)
      hsteady
    · have hsubset := subset_of_read_line ha
      obtain ⟨a', rfl⟩ := Reader.line_of_step_paren (hread ▸ ha)
      refine Reader.newline_not_mem (fun hmem => hback' (hsubset (mem_append_left _ hmem))) h.inert
        (y := z ++ 41 :: r) fun x hx => hsteady x ?_
      rw [heads_eq, Reader.heads_append, ha]
      exact mem_append_right _ hx
    · obtain rfl := Reader.open?_step (hread ▸ ha)
      rcases h.empty with hblank | ⟨⟨lead, hopen, hfirst⟩, hnone⟩
      · exact .fill rfl hblank hz hlead h.fresh
      · rw [hopen]
        exact .own rfl hfirst h.inert hnone hz hlead h.fresh

/-- The function of an item owns the value. -/
def OwnsAt (a : Ambient) (hs : List (Option Head)) (j : Nat) : Prop :=
  ∃ head isBlock lead list, hs[j]? = some (some (.header head isBlock)) ∧
    Signature.IsFunction head lead list ∧
    a.OwnedBy list

theorem OwnsAt.grows {a : Ambient} (ha : a.Proper) {hs hs' : List (Option Head)} (h : OwnsAt a hs j)
    (hgrows : List.Forall₂ Head.Grows hs hs') : OwnsAt a hs' j := by
  obtain ⟨head, isBlock, lead, list, hj, hf, hown⟩ := h
  obtain ⟨x', hj', hx⟩ := exists_getElem?_right hgrows hj
  cases hx with
  | header hhead =>
    obtain ⟨lead', list', hf', hkeeps⟩ := hhead.forth hf
    exact ⟨_, isBlock, lead', list', hj', hf', hkeeps.owned a ha hown⟩

/-- The edit gives the value to the function of an item. -/
structure Gives (m : Text) (a : Ambient) (j : Nat) (e : Edit) : Prop where
  edit : ∃ l lead t, ((∃ z r, Inserts m e l t z r a.declaration) ∨ t = [] ∧
    ∃ u r, Fills m e l u r a.declaration) ∧
    (Reader.between.read (m.take e.range.start)).open? = some (lead ++ 40 :: t) ∧ 40 ∉ lead
  count : (Reader.between.emitted (m.take e.range.start)).length = j
  function : ∃ head isBlock lead list, m.heads[j]? = some (some (.header head isBlock)) ∧
    Signature.IsFunction head lead list

/-- In the list of a function, before a parenthesis that closes, something is put in. -/
theorem exists_put {lead : Text} (hopen : ρ.open? = some (lead ++ 40 :: t)) (hfirst : 40 ∉ lead)
    (hclosed : ParensClosed t) (hu : Inert u) (hv : Inert v) (hv' : v.IsAscii) {head : Text}
    {isBlock : Bool} {rest : List (Option Head)}
    (hheads : ρ.heads (u ++ 41 :: r) = some (.header head isBlock) :: rest)
    (hascii : head.IsAscii) {lead' list' : Text} (hf : Signature.IsFunction head lead' list') :
    list' = t ++ u ∧ ∃ head', ρ.heads (v ++ 41 :: r) = some (.header head' isBlock) :: rest ∧
      Signature.IsFunction head' lead (t ++ v) := by
  rcases Reader.heads_open hopen hu hv r with ⟨hnil, -⟩ | ⟨x, x', rest', hx, hx', halike⟩
  · rw [hheads] at hnil
    cases hnil
  rw [hheads] at hx
  obtain ⟨rfl, rfl⟩ := cons.inj hx
  generalize hhead : some (Head.header head isBlock) = y at halike
  cases halike with
  | none => cases hhead
  | line => cases hhead
  | header w =>
    obtain ⟨rfl, rfl⟩ := Head.header.inj (Option.some.inj hhead)
    have hsplit : ∀ x : Text, lead ++ 40 :: t ++ (x ++ [41]) ++ w = lead ++ 40 :: t ++
        (x ++ 41 :: w) := fun x => by
      simp
    rw [hsplit] at hf hascii hx'
    have hascii' : IsAscii (lead ++ 40 :: t ++ (v ++ 41 :: w)) := by
      refine IsAscii.append (hascii.of_subset (subset_append_left _ _)) (hv'.append (hascii.of_subset ?_))
      exact fun b hb => mem_append_right _ (mem_append_right _ hb)
    obtain ⟨lead'', list'', hf', hput⟩ := hf.put hu hv hascii hascii'
    cases hput with
    | lead w' => obtain ⟨⟨behind, ⟨-, hnone, -⟩, -⟩, -⟩ := hf; exact absurd (by simp) hnone
    | @list _ l ha hfirst' y hy =>
      have hsame := congrArg (takeWhile (· != 40)) ha
      rw [Signature.takeWhile_lead hfirst, Signature.takeWhile_lead hfirst'] at hsame
      subst hsame
      obtain rfl := (cons.inj (append_cancel_left ha)).2
      obtain rfl : y = [] := by
        obtain ⟨⟨behind, ⟨-, -, hlist⟩, -⟩, -⟩ := hf
        unfold ParensClosed at hlist hclosed
        rw [Delimiter.behind?_append, hclosed] at hlist
        exact Signature.eq_nil_of_parensClosed hu hy hlist
      rw [append_nil] at hf' ⊢
      exact ⟨rfl, _, hx', hf'⟩

/-- **An edit gives the value.** -/
theorem Gives.ownsAt {a : Ambient} (ha : a.Proper) (h : e.Gives m a j)
    (hz : Inert z) (hlead : LeadsBlank z)
    (hascii : IsAscii (m.take e.range.start ++ (m.cut e.range ++ (z ++ 41 :: r))))
    (hascii' : IsAscii (m.take e.range.start ++ (e.replacement ++ (z ++ 41 :: r))))
    (hgrows : List.Forall₂ Head.Grows m.heads
      (heads (m.take e.range.start ++ (m.cut e.range ++ (z ++ 41 :: r)))))
    (hsteady : ∀ x ∈ heads (m.take e.range.start ++ (m.cut e.range ++ (z ++ 41 :: r))), Head.Steady x) :
    OwnsAt a (heads (m.take e.range.start ++ (e.replacement ++ (z ++ 41 :: r)))) j := by
  obtain ⟨⟨l, lead, t, hkind, hopen, hfirst⟩, rfl, ⟨head, isBlock, lead₀, list₀, hj, hf₀⟩⟩ := h
  have hheads : ∀ w : Text, heads (m.take e.range.start ++ w) =
      Reader.between.emitted (m.take e.range.start) ++
        (Reader.between.read (m.take e.range.start)).heads w := fun w =>
    (heads_eq _).trans (Reader.heads_append _ _ _)
  obtain ⟨x, hx, hgrow⟩ := exists_getElem?_right hgrows hj
  cases hgrow with
  | @header _ head₁ hhead =>
    obtain ⟨lead₁, list₁, hf, -⟩ := hhead.forth hf₀
    have hmem := mem_of_getElem? hx
    have hsteady₁ : Signature.Steady head₁ := hsteady _ hmem
    have hascii₁ := hascii.of_subset (subset_of_mem_heads hmem)
    rw [hheads, getElem?_append_right (Nat.le_refl _), Nat.sub_self, ← head?_eq_getElem?] at hx
    obtain ⟨rest, hrest⟩ := head?_eq_some_iff.mp hx
    have hput : ParensClosed t → Inert (m.cut e.range) → Inert e.replacement →
        (weight t = 0 → a.OwnedBy (t ++ (e.replacement ++ z))) →
        OwnsAt a (heads (m.take e.range.start ++ (e.replacement ++ (z ++ 41 :: r))))
          (Reader.between.emitted (m.take e.range.start)).length := by
      intro hclosed hcut hnew hown
      have hv' : IsAscii (e.replacement ++ z) := hascii'.of_subset fun b hb => by
        rcases mem_append.mp hb with hb | hb <;> simp [hb]
      rw [← append_assoc] at hrest
      obtain ⟨rfl, head', hhead', hf'⟩ :=
        exists_put hopen hfirst hclosed (hcut.append hz) (hnew.append hz) hv' hrest
        hascii₁ hf
      refine ⟨head', isBlock, lead, _, ?_, hf', hown ?_⟩
      · rw [hheads, getElem?_append_right (Nat.le_refl _), Nat.sub_self, ← append_assoc, hhead']
        rfl
      · have := (hsteady₁ _ _ hf).1
        rwa [weight_append, (hcut.append hz).weight, Int.add_zero] at this
    rcases hkind with ⟨z₀, r₀, h⟩ | ⟨rfl, u, r₀, h⟩
    · refine hput ?_ ?_ (h.replacement ▸ inert_comma h.fresh.inert) fun hweight => ?_
      · have := Reader.parensClosed_put (a := t) (v := []) (w := []) h.inert nofun (by simpa using h.closed)
        simpa using this
      · rw [h.cut_range]
        exact nofun
      · rw [h.replacement]
        exact ha.ownedBy_inserted hlead hweight
    · refine hput rfl ?_ (h.replacement ▸ h.fresh.inert) fun _ => ?_
      · rw [h.cut_range]
        exact h.inert
      · rw [h.replacement]
        exact ha.ownedBy_replaced hlead

theorem forall₂_trans {zs : List (Option Head)} (h : List.Forall₂ Head.Grows xs ys)
    (h' : List.Forall₂ Head.Grows ys zs) : List.Forall₂ Head.Grows xs zs := by
  induction h generalizing zs with
  | nil => exact h'
  | cons hx _ ih =>
    cases h' with
    | cons hy hrest => exact .cons (hx.trans hy) (ih hrest)

theorem steady_of_grows (h : List.Forall₂ Head.Grows xs ys)
    (hxs : ∀ x ∈ xs, Head.Steady x) : ∀ y ∈ ys, Head.Steady y := by
  intro y hy
  obtain ⟨j, hj⟩ := mem_iff_getElem?.mp hy
  obtain ⟨x, hx, hgrow⟩ := exists_getElem?_right h.flip hj
  exact (hxs x (mem_of_getElem? hx)).grows hgrow

theorem take_append_cut {i : Nat} (h : i ≤ j) : m.take i ++ m.cut ⟨i, j⟩ = m.take j := by
  have := take_add (l := m) (i := i) (j := j - i)
  rw [Nat.add_sub_cancel' h] at this
  exact this.symm

section Run

variable {m : Text} (hascii : m.IsAscii) (hback : 92 ∉ m) (hsteady : ∀ x ∈ m.heads, Head.Steady x)
include hascii hback hsteady

/-- **A program grows by edits that append to its lists**, and the functions get what they are given. -/
theorem grows_spliced {es : List Edit} (hes : ∀ e ∈ es, e.Appends m) (hnew : ∀ e ∈ es, e.replacement.IsAscii)
    (hapart : es.Pairwise (Apart m)) (c : Nat) :
    List.Forall₂ Head.Grows m.heads (heads (m.take c ++ spliced m c es)) ∧ ∀ a : Ambient, a.Proper →
      es.Pairwise (fun e f => (∃ j, Gives m a j f) → e.range.stop ≤ f.range.start) →
        ∀ e ∈ es, c ≤ e.range.start →
      ∀ j, Gives m a j e → OwnsAt a (heads (m.take c ++ spliced m c es)) j := by
  induction es generalizing c with
  | nil =>
    rw [spliced, take_append_drop]
    exact ⟨forall₂_same.mpr fun x _ => .refl x, fun _ _ _ e he => by cases he⟩
  | cons e es ih =>
    obtain ⟨hfirst, hrest⟩ := pairwise_cons.mp hapart
    have hwithin := (hes e mem_cons_self).within
    have ih := ih (fun f hf => hes f (mem_cons_of_mem _ hf)) (fun f hf => hnew f (mem_cons_of_mem _ hf)) hrest
    rw [spliced]
    by_cases hstart : e.range.start < c
    · rw [if_pos hstart]
      obtain ⟨hgrows, hgives⟩ := ih c
      refine ⟨hgrows, fun a ha hkept f hf hge j hj => ?_⟩
      rcases mem_cons.mp hf with rfl | hf
      · omega
      · exact hgives a ha (pairwise_cons.mp hkept).2 f hf hge j hj
    rw [if_neg hstart]
    have hstart := Nat.not_lt.mp hstart
    obtain ⟨z, r, hafter, hz, hlead⟩ := exists_after hes hfirst
    obtain ⟨hgrows, hgives⟩ := ih e.range.stop
    have hafter' : IsAscii (spliced m e.range.stop es) := by
      intro b hb
      rcases mem_spliced hb with hb | ⟨f, hf, hb⟩
      · exact hascii b hb
      · exact hnew f (mem_cons_of_mem _ hf) b hb
    rw [hafter] at hgrows hgives hafter' ⊢
    have hcur : m.take e.range.stop ++ (z ++ 41 :: r) = m.take e.range.start ++
        (m.cut e.range ++ (z ++ 41 :: r)) := by
      rw [← take_append_cut hwithin.1, append_assoc]
    have hnext : m.take c ++ (m.cut ⟨c, e.range.start⟩ ++ (e.replacement ++ (z ++ 41 :: r))) =
        m.take e.range.start ++ (e.replacement ++ (z ++ 41 :: r)) := by
      rw [← take_append_cut hstart, append_assoc]
    have htake : IsAscii (m.take e.range.start) := hascii.of_subset (take_subset _ _)
    have hascii₁ := htake.append ((hascii.cut e.range).append hafter')
    have hascii₂ := htake.append ((hnew e mem_cons_self).append hafter')
    rw [hcur] at hgrows hgives
    rw [hnext]
    have hsteady₁ := steady_of_grows hgrows hsteady
    have hstep := (hes e mem_cons_self).grows hback hz hlead hascii₁ hascii₂ hsteady₁
    refine ⟨forall₂_trans hgrows hstep, fun a ha hkept f hf hge j hj => ?_⟩
    obtain ⟨hkept₁, hkept₂⟩ := pairwise_cons.mp hkept
    rcases mem_cons.mp hf with rfl | hf
    · exact hj.ownsAt ha hz hlead hascii₁ hascii₂ hgrows hsteady₁
    · exact (hgives a ha hkept₂ f hf (hkept₁ f hf ⟨j, hj⟩) j hj).grows ha hstep

end Run

end Edit

end GlslToMetal
