import GlslToMetal.Proofs.Ambient.Slots
import GlslToMetal.Proofs.Ambient.Threading

/-! What a pass gives. The edits of a pass declare a value in functions and pass it in calls. No two of
them fill one list, and none takes out the place where a value is declared, so the pass lets all functions
grow and gives the value to every user that lacks it. -/

namespace GlslToMetal

open List Text Item

variable {a : Ambient} {e : Edit} {es : List Edit} {users : List Nat} {functions : List Signature} {j : Nat}
  {overloads : Overloads} {l m new s t : Text}

namespace Edit

theorem Appends.solid (h : e.Appends m) :
    EndsSolid (m.take e.range.start) ∨ StartsSolid (m.drop e.range.start) := by
  cases h with
  | @insert l t z r new h =>
    obtain ⟨htake, hdrop⟩ := h.divide
    rw [htake, hdrop]
    rcases h.place with hsolid | rfl
    · refine .inl ?_
      have := hsolid.append_left (l ++ [40])
      rwa [append_assoc, singleton_append] at this
    · exact .inr ⟨41, rfl, rfl⟩
  | fill h =>
    rw [h.divide.1]
    exact .inl ⟨40, getLast?_concat, rfl⟩

theorem Appends.le_of_blank {f : Edit} (he : e.Appends m) (hf : f.Appends m)
    (hblank : (m.cut f.range).all isBlank) (hlt : f.range.start < e.range.start) :
    f.range.stop ≤ e.range.start := by
  refine Nat.le_of_not_lt fun hstop => ?_
  have hwithin := hf.within.2
  -- The bytes on both sides of the start are taken out, so they are blank.
  have hbyte : ∀ {i : Nat} {b : UInt8}, m[i]? = some b → f.range.start ≤ i → i < f.range.stop →
      isBlank b := by
    intro i b hi hge hlt
    refine all_eq_true.mp hblank b (mem_of_getElem? (i := i - f.range.start) ?_)
    rw [cut, getElem?_take_of_lt (by omega), getElem?_drop, Nat.add_sub_cancel' hge, hi]
  rcases he.solid with ⟨b, hb, hsolid⟩ | ⟨b, hb, hsolid⟩
  · have hi : m[e.range.start - 1]? = some b := by
      rw [getLast?_eq_getElem?, length_take_of_le (by omega), getElem?_take_of_lt (by omega)] at hb
      exact hb
    rw [hbyte hi (by omega) (by omega)] at hsolid
    cases hsolid
  · have hi : m[e.range.start]? = some b := by
      rw [head?_drop] at hb
      exact hb
    rw [hbyte hi (by omega) hstop] at hsolid
    cases hsolid

/-- **What appends to a list of the mask stands in code.** -/
theorem Appends.inCode {all : List Edit} (h : e.Appends t.mask)
    (hbytes : ∀ b ∈ e.replacement, isWordByte b ∨ b = 32 ∨ b = 44) (hne : e.replacement ≠ []) :
    e.InCode t all := by
  have hwithin := h.within
  rw [length_mask] at hwithin
  have hnone : ∀ {c : UInt8}, isWordByte c = false → c ≠ 32 → c ≠ 44 → c ∉ e.replacement := by
    intro c hword hspace hcomma hmem
    rcases hbytes c hmem with h | h | h
    · rw [hword] at h
      cases h
    · exact hspace h
    · exact hcomma h
  have hslash : 47 ∉ e.replacement := hnone rfl (by decide) (by decide)
  have hmask := maskUpTo_code hslash none
  have hstart : t.placeAt e.range.start = .code := by
    rcases h.solid with ⟨b, hb, hsolid⟩ | ⟨b, hb, hsolid⟩
    · have hle : e.range.start ≤ t.mask.length := by
        rw [length_mask]
        exact Nat.le_trans hwithin.1 hwithin.2
      rw [Option.mem_def, getLast?_eq_getElem?, length_take_of_le hle] at hb
      have hpos : 0 < e.range.start := by
        refine Nat.pos_of_ne_zero fun hzero => ?_
        rw [hzero] at hb
        cases hb
      rw [getElem?_take_of_lt (by omega)] at hb
      have := (solid_at hb hsolid).2.2
      rwa [Nat.sub_add_cancel hpos] at this
    · rw [Option.mem_def, head?_drop] at hb
      exact (solid_at hb hsolid).2.1
  refine ⟨hwithin, fun b hb => ?_, hne, hstart, ?_,
    by rw [hmask], fun _ => ⟨fun hhead => ?_, fun hhead => ?_⟩, fun hlast => ?_⟩
  · rcases hbytes b hb with hword | rfl | rfl
    · exact (isCode_of_isWordByte hword).1
    · decide
    · decide
  · cases h with
    | insert h =>
      have hsame : e.range.stop = e.range.start := by rw [h.range]
      rw [hsame]
      exact hstart
    | fill h =>
      have hbyte : t.mask[e.range.stop]? = some 41 := by rw [← head?_drop, h.divide.2.2, head?_cons]
      exact (solid_at hbyte rfl).2.1
  · exact hslash (mem_of_mem_head? hhead)
  · exact hnone rfl (by decide) (by decide) (mem_of_mem_head? hhead)
  · have hself : e.replacement.mask = e.replacement :=
      (maskUpTo_none _ _).symm.trans (congrArg Prod.fst hmask)
    rw [hself] at hlast
    exact absurd (mem_of_getLast? hlast) hslash

theorem map_masked (h : ∀ e ∈ es, ∀ b ∈ e.replacement, isWordByte b ∨ b = 32 ∨ b = 44) :
    es.map masked = es := by
  have hself : es.map masked = es.map id := by
    refine map_congr_left fun e he => ?_
    have hslash : 47 ∉ e.replacement := fun hmem => by rcases h e he 47 hmem with h | h | h <;> cases h
    have hmask : e.replacement.mask = e.replacement :=
      (maskUpTo_none _ _).symm.trans (congrArg Prod.fst (maskUpTo_code hslash none))
    rw [masked, hmask, id]
  rw [hself, map_id]

theorem Appends.ne_nil (h : e.Appends m) : e.replacement ≠ [] := by
  cases h with
  | insert h =>
    rw [h.replacement]
    exact cons_ne_nil _ _
  | fill h =>
    rw [h.replacement]
    exact h.fresh.ne_nil

theorem Gives.appends (h : e.Gives m a j) : e.Appends m := by
  obtain ⟨l, lead, t, ⟨z, r, h⟩ | ⟨-, u, r, h⟩, -⟩ := h.edit
  · exact .insert h
  · exact .fill h

end Edit

/-- What an edit of a pass puts in: words and blanks, behind a comma or not. -/
theorem Ambient.Proper.of_mem_replacement (ha : a.Proper)
    (hnew : new = a.name ∨ new = a.declaration) (ht : t = new ∨ t = 44 :: 32 :: new) :
    ∀ b ∈ t, isWordByte b ∨ b = 32 ∨ b = 44 := by
  have hbytes : ∀ b ∈ new, isWordByte b ∨ b = 32 := by
    rcases hnew with rfl | rfl
    · exact fun b hb => .inl (ha.word.2 b hb)
    · exact ha.bytes
  intro b hb
  rcases ht with rfl | rfl
  · exact (hbytes b hb).imp_right .inl
  · rcases mem_cons.mp hb with rfl | hb
    · exact .inr (.inr rfl)
    · rcases mem_cons.mp hb with rfl | hb
      · exact .inr (.inl rfl)
      · exact (hbytes b hb).imp_right .inl

namespace Threading

/-- The edit declares the value in a function. -/
structure Declares (m : Text) (a : Ambient) (f : Signature) (j : Nat) (e : Edit) : Prop where
  located : f.LocatedAt m j
  edit : e = append (f.params.getLast?.map (·.range)) f.openParen f.closeParen a.declaration

section Declares

variable {m : Text} {a : Ambient} {f : Signature} {j : Nat} {e : Edit} (h : Declares m a f j e)
include h

theorem Declares.gives (hm : m.IsAscii) (ha : a.Proper) :
    e.Gives m a j ∧ f.openParen < e.range.start ∧ e.range.stop ≤ f.closeParen := by
  obtain ⟨pre, lead, list, behind, isBlock, hlocated⟩ := h.located
  exact hlocated.gives hm ha h.edit

/-- A function whose list is empty and that gets a value is not called by its own parenthesis. -/
theorem Declares.callee?_eq_none (hsteady : ∀ x ∈ m.heads, Head.Steady x) {r : Text}
    (hfills : e.Fills m l [] r new) : callee? l.reverse = none := by
  obtain ⟨pre, lead, list, behind, isBlock, hlocated⟩ := h.located
  have he := h.edit
  cases hlast : f.params.getLast? with
  | some p =>
    rw [hlast] at he
    have := hfills.replacement
    rw [he] at this
    exact absurd (by rw [← this]; exact mem_cons_self) hfills.fresh.comma
  | none =>
    rw [hlast] at he
    have hrange : e.range = ⟨f.openParen + 1, f.closeParen⟩ := by
      rw [he]
      rfl
    rw [hfills.range, hlocated.openParen, hlocated.closeParen] at hrange
    obtain ⟨hstart, hstop⟩ := Range.mk.inj hrange
    have hlist : list = [] := eq_nil_of_length_eq_zero (by rw [length_nil] at hstop; omega)
    subst hlist
    obtain ⟨post, htext⟩ := hlocated.text
    obtain ⟨rfl, -⟩ := append_inj (hfills.eq.symm.trans htext) (Nat.succ.inj hstart)
    rw [hlocated.callee?_eq]
    have hhead : Signature.Steady (lead ++ 40 :: ([] ++ 41 :: behind)) :=
      hsteady _ (mem_of_getElem? hlocated.head)
    exact (hhead lead [] hlocated.function).2 rfl

theorem Declares.replacement : e.replacement = a.declaration ∨ e.replacement = 44 :: 32 :: a.declaration := by
  rw [h.edit]
  cases f.params.getLast? with
  | none => exact .inl rfl
  | some p => exact .inr rfl

end Declares

/-- A call passes a name, so it declares nothing. -/
theorem Passes.not_gives (ha : a.Proper) (h : Passes m a l e) : ¬ e.Gives m a j := by
  intro hgives
  have hne : a.declaration ≠ a.name := by
    intro heq
    have hspace : (32 : UInt8) ∈ a.declaration := by
      unfold Ambient.declaration
      exact mem_append_left _ (mem_append_right _ (by decide))
    cases ha.word.2 32 (heq ▸ hspace)
  obtain ⟨l', lead, t, ⟨z, r, hinserts⟩ | ⟨-, u, r, hfills⟩, -⟩ := hgives.edit
  · rcases h.replacement with heq | heq
    · exact ha.fresh_name.comma (by rw [← heq, hinserts.replacement]; exact mem_cons_self)
    · rw [hinserts.replacement] at heq
      exact hne (cons.inj (cons.inj heq).2).2
  · rcases h.replacement with heq | heq
    · exact hne (hfills.replacement.symm.trans heq)
    · exact hfills.fresh.comma (by rw [← hfills.replacement, heq]; exact mem_cons_self)

section Edits

variable {m : Text} (hascii : m.IsAscii) (hback : 92 ∉ m) (hsteady : ∀ x ∈ m.heads, Head.Steady x)
  {a : Ambient}
  (ha : a.Proper) {declarations calls : List Edit} (hdeclares : ∀ e ∈ declarations, ∃ f j, Declares m a f j e)
  (hbefore : declarations.Pairwise (·.range.stop < ·.range.start))
  (hpasses : ∀ e ∈ calls, ∃ l, Passes m a l e)
  (hdistinct : calls.Pairwise fun e f => ∃ l l', l ≠ l' ∧ Passes m a l e ∧ Passes m a l' f)

section Apart

include hascii ha hdeclares

theorem appends_of_mem_declarations : ∀ e ∈ declarations, e.Appends m := by
  intro e he
  obtain ⟨f, j, h⟩ := hdeclares e he
  exact (h.gives hascii ha).1.appends

include hsteady hpasses hbefore hdistinct

/-- No two edits of a pass fill one empty list. -/
theorem pairwise_apart : (declarations ++ calls).Pairwise fun e f => e.Apart m f ∧ f.Apart m e := by
  have happends := appends_of_mem_declarations hascii ha hdeclares
  have hcall : ∀ e ∈ declarations, ∀ f ∈ calls, ∀ l r r' new new', e.Fills m l [] r new →
      f.Fills m l [] r' new' → False := by
    intro e he f hf l r r' new new' hfills hfills'
    obtain ⟨g, j, hg⟩ := hdeclares e he
    obtain ⟨l', hl'⟩ := hpasses f hf
    obtain rfl := hl'.eq_of_fills hfills'
    exact hl'.callee (hg.callee?_eq_none hsteady hfills)
  refine pairwise_append.mpr ⟨?_, ?_, ?_⟩
  · refine List.Pairwise.imp_of_mem (fun {e f} he hf hlt => ?_) hbefore
    have hle := (happends e he).within.1
    have hstart : ∀ l t r new t' r' new', e.Fills m l t r new → f.Fills m l t' r' new' → False := by
      intro l t r new t' r' new' h h'
      have := congrArg Range.start h.range
      have := congrArg Range.start h'.range
      dsimp only at *
      omega
    exact ⟨fun l t r new t' r' new' h h' => (hstart _ _ _ _ _ _ _ h h').elim,
      fun l t r new t' r' new' h h' => (hstart _ _ _ _ _ _ _ h' h).elim⟩
  · refine hdistinct.imp ?_
    rintro e f ⟨l, l', hne, hl, hl'⟩
    refine ⟨fun l₀ t r new t' r' new' h h' => ?_, fun l₀ t r new t' r' new' h h' => ?_⟩
    · exact absurd ((hl.eq_of_fills h).symm.trans (hl'.eq_of_fills h')) hne
    · exact absurd ((hl.eq_of_fills h').symm.trans (hl'.eq_of_fills h)) hne
  · intro e he f hf
    refine ⟨?_, ?_⟩
    · rintro l t r new t' r' new' h h' rfl
      have heq := h.eq.symm.trans h'.eq
      obtain ⟨rfl, -⟩ := Edit.inert_inj h.inert h'.inert (cons.inj (append_cancel_left heq)).2
      exact hcall e he f hf _ _ _ _ _ h h'
    · rintro l t r new t' r' new' h h' rfl
      have heq := h.eq.symm.trans h'.eq
      obtain ⟨rfl, -⟩ := Edit.inert_inj h.inert h'.inert (cons.inj (append_cancel_left heq)).2
      exact hcall e he f hf _ _ _ _ _ h' h

end Apart

include ha hdeclares hpasses

omit hascii in
theorem mem_replacement :
    ∀ e ∈ declarations ++ calls, ∀ b ∈ e.replacement, isWordByte b ∨ b = 32 ∨ b = 44 := by
  intro e he
  rcases mem_append.mp he with he | he
  · obtain ⟨f, j, h⟩ := hdeclares e he
    exact ha.of_mem_replacement (.inr rfl) h.replacement
  · obtain ⟨l, h⟩ := hpasses e he
    exact ha.of_mem_replacement (.inl rfl) h.replacement

include hascii

theorem appends_of_mem : ∀ e ∈ declarations ++ calls, e.Appends m := by
  intro e he
  rcases mem_append.mp he with he | he
  · exact appends_of_mem_declarations hascii ha hdeclares e he
  · obtain ⟨l, h⟩ := hpasses e he
    exact h.appends ha

include hbefore

/-- A declaration is not put in where another edit takes something out. -/
theorem pairwise_kept : (Edit.ordered (declarations ++ calls)).Pairwise fun e f =>
    (∃ j, f.Gives m a j) → e.range.stop ≤ f.range.start := by
  have happends := appends_of_mem hascii ha hdeclares hpasses
  have hcall : ∀ e ∈ calls, ¬ ∃ j, e.Gives m a j := by
    rintro e he ⟨j, hj⟩
    obtain ⟨l, h⟩ := hpasses e he
    exact h.not_gives ha hj
  -- What holds of two edits in any order, and of two in the order in which they were given.
  have hany : (declarations ++ calls).Pairwise fun e f =>
      ((∃ j, f.Gives m a j) → e.range.start < f.range.start → e.range.stop ≤ f.range.start) ∧
        ((∃ j, e.Gives m a j) → f.range.start < e.range.start → f.range.stop ≤ e.range.start) := by
    refine pairwise_append.mpr ⟨?_, ?_, ?_⟩
    · refine List.Pairwise.imp_of_mem (fun {e f} he hf hlt =>
        ⟨fun _ _ => Nat.le_of_lt hlt, fun _ hstart => ?_⟩) hbefore
      have := (happends e (mem_append_left _ he)).within.1
      omega
    · exact pairwise_of_forall_mem_list fun e he f hf =>
        ⟨fun h => absurd h (hcall f hf), fun h => absurd h (hcall e he)⟩
    · intro e he f hf
      obtain ⟨l, h⟩ := hpasses f hf
      exact ⟨fun h => absurd h (hcall f hf), fun _ => (happends e (mem_append_left _ he)).le_of_blank
        (happends f (mem_append_right _ hf)) h.all_cut⟩
  have horder : (declarations ++ calls).Pairwise fun e f => (∃ j, f.Gives m a j) →
      e.range.stop ≤ f.range.start := by
    refine pairwise_append.mpr ⟨?_, ?_, ?_⟩
    · refine hbefore.imp ?_
      intro e f hlt _
      exact Nat.le_of_lt hlt
    · exact pairwise_of_forall_mem_list fun e _ f hf h => absurd h (hcall f hf)
    · exact fun e _ f hf h => absurd h (hcall f hf)
  have hany' := ((Edit.ordered_perm (declarations ++ calls)).pairwise_iff fun {e f} h => ⟨h.2, h.1⟩).mpr hany
  refine (hany'.and (Edit.pairwise_ordered_stable horder)).imp ?_
  rintro e f ⟨⟨h, -⟩, hlt | ⟨-, h'⟩⟩ hgives
  · exact h hgives hlt
  · exact h' hgives

include hback hsteady hdistinct

/-- **A program grows by the edits of a pass**, and the functions get the value that is declared. -/
theorem grows_apply (hs : Edit.apply (declarations ++ calls) m = .ok s) :
    List.Forall₂ Head.Grows m.heads s.heads ∧
      ∀ e ∈ declarations, ∀ f j, Declares m a f j e → Edit.OwnsAt a s.heads j := by
  have hperm := Edit.ordered_perm (declarations ++ calls)
  have happends := appends_of_mem hascii ha hdeclares hpasses
  have hnew : ∀ e ∈ declarations ++ calls, e.replacement.IsAscii := by
    intro e he b hb
    rcases mem_replacement ha hdeclares hpasses e he b hb with hword | rfl | rfl
    · exact (isCode_of_isWordByte hword).1
    · decide
    · decide
  have hapart := (hperm.pairwise_iff fun {e f} h => ⟨h.2, h.1⟩).mpr
    (pairwise_apart hascii hsteady ha hdeclares hbefore hpasses hdistinct)
  obtain ⟨hgrows, hgives⟩ :=
    Edit.grows_spliced hascii hback hsteady (fun e he => happends e (hperm.mem_iff.mp he))
    (fun e he => hnew e (hperm.mem_iff.mp he)) (hapart.imp fun h => h.1) 0
  rw [Edit.apply_eq_spliced fun e he => Edit.cuts_of_isAscii hascii (happends e he).within] at hs
  obtain rfl := Except.ok.inj hs
  refine ⟨hgrows, fun e he f j h => ?_⟩
  exact hgives a ha (pairwise_kept hascii ha hdeclares hbefore hpasses) e
    (hperm.mem_iff.mpr (mem_append_left _ he)) (Nat.zero_le _) j (h.gives hascii ha).1

end Edits

end Threading

theorem pairwise_of_forall₂ {α β : Type} {p : α → β → Prop} {r : α → α → Prop} {r' : β → β → Prop}
    {xs : List α}
    {ys : List β} (h : List.Forall₂ p xs ys) (hys : ys.Pairwise r')
    (himp : ∀ {x x' y y'}, p x y → p x' y' → r' y y' → r x x') : xs.Pairwise r := by
  induction h with
  | nil => exact .nil
  | @cons x y xs ys hp hrest ih =>
    obtain ⟨hy, hys⟩ := pairwise_cons.mp hys
    refine pairwise_cons.mpr ⟨fun x' hx' => ?_, ih hys⟩
    obtain ⟨k, hk⟩ := mem_iff_getElem?.mp hx'
    obtain ⟨y', hy', hp'⟩ := exists_getElem?_right hrest hk
    exact himp hp hp' (hy y' (mem_of_getElem? hy'))

namespace Threading

/-- The edits of the calls of some names. -/
theorem exists_calls {names : List Text}
    (hwords : ∀ n ∈ names, n.IsWord) (hnodup : names.Nodup) {calls : List (List Edit)}
    (hcalls : names.mapM (fun n => do
      let found ← (Call.sites m n).mapM (callEdit? m a users overloads n)
      return found.filterMap id) = .ok calls) :
    (∀ e ∈ calls.flatten, ∃ l, Passes m a l e) ∧
      calls.flatten.Pairwise fun e f => ∃ l l', l ≠ l' ∧ Passes m a l e ∧ Passes m a l' f := by
  -- The edits of one name: each at its own parenthesis, behind that name.
  have hname : List.Forall₂ (fun n es => n.IsWord ∧
    (∀ e ∈ es, ∃ l, Passes m a l e ∧ named? l.reverse = some n) ∧
      List.Pairwise (fun e f => ∃ l l', l ≠ l' ∧ Passes m a l e ∧ Passes m a l' f) es) names calls := by
    refine List.Forall₂.imp ?_ (forall₂_and_left _ _ |>.mpr ⟨hwords, Checked.forall₂_of_mapM hcalls⟩)
    rintro n es ⟨hn, hes⟩
    obtain ⟨found, hfound, hes⟩ := Checked.exists_of_bind hes
    obtain rfl := Except.ok.inj hes
    have hsites := (forall₂_and_left _ _).mpr
      ⟨fun c (hc : c ∈ Call.sites m n) => hc, Checked.forall₂_of_mapM hfound⟩
    refine ⟨hn, fun e he => ?_, ?_⟩
    · obtain ⟨x, hx, rfl⟩ := mem_filterMap.mp he
      obtain ⟨k, hk⟩ := mem_iff_getElem?.mp hx
      obtain ⟨c, -, hc, he⟩ := exists_getElem?_right hsites.flip hk
      obtain ⟨l, hl, hnamed, -⟩ := passes_of_callEdit? hn hc he
      exact ⟨l, hl, hnamed⟩
    · refine pairwise_filterMap.mpr (pairwise_of_forall₂ hsites.flip (Call.pairwise_sites hn.1 m) ?_)
      rintro _ _ c c' ⟨hc, he⟩ ⟨hc', he'⟩ hlt e rfl e' rfl
      obtain ⟨l, hl, -, rfl⟩ := passes_of_callEdit? hn hc he
      obtain ⟨l', hl', -, rfl⟩ := passes_of_callEdit? hn hc' he'
      refine ⟨l, l', ?_, hl, hl'⟩
      rintro rfl
      exact Nat.lt_irrefl _ hlt
  refine ⟨fun e he => ?_, pairwise_flatten.mpr ⟨fun es hes => ?_, ?_⟩⟩
  · obtain ⟨es, hes, he⟩ := mem_flatten.mp he
    obtain ⟨k, hk⟩ := mem_iff_getElem?.mp hes
    obtain ⟨n, -, -, hpasses, -⟩ := exists_getElem?_right hname.flip hk
    obtain ⟨l, hl, -⟩ := hpasses e he
    exact ⟨l, hl⟩
  · obtain ⟨k, hk⟩ := mem_iff_getElem?.mp hes
    obtain ⟨n, -, -, -, hpairwise⟩ := exists_getElem?_right hname.flip hk
    exact hpairwise
  · refine pairwise_of_forall₂ hname.flip hnodup ?_
    rintro es es' n n' ⟨-, hes, -⟩ ⟨-, hes', -⟩ hne e he e' he'
    obtain ⟨l, hl, hnamed⟩ := hes e he
    obtain ⟨l', hl', hnamed'⟩ := hes' e' he'
    refine ⟨l, l', ?_, hl, hl'⟩
    rintro rfl
    exact hne (Option.some.inj (hnamed.symm.trans hnamed'))

/-- The edits of the declarations of some functions. -/
theorem exists_declarations (hm : m.IsAscii) {js : List Nat}
    (hlocated : List.Forall₂ (Signature.LocatedAt m) functions js) (hjs : js.Pairwise (· < ·))
    (ha : a.Proper) {ids : List Nat} {declarations : List Edit}
    (hdeclarations : declarations = (functions.zip ids).filterMap fun (f, id) =>
      if users.contains id then declarationEdit? a f else none) :
    (∀ e ∈ declarations, ∃ f j, Declares m a f j e) ∧ declarations.Pairwise (·.range.stop < ·.range.start) ∧
      ∀ (i : Nat) (f : Signature) (j id : Nat), functions[i]? = some f → js[i]? = some j → ids[i]? = some id →
        id ∈ users → f.hasParam a.name = false → ∃ e ∈ declarations, Declares m a f j e := by
  subst hdeclarations
  have hedit : ∀ {f : Signature} {id : Nat} {e : Edit},
    (if users.contains id then declarationEdit? a f else none) = some e →
      e = append (f.params.getLast?.map (·.range)) f.openParen f.closeParen a.declaration := by
    intro f id e he
    split at he
    · unfold declarationEdit? at he
      split at he
      · cases he
      · exact (Option.some.inj he).symm
    · cases he
  have hdeclares : ∀ {f : Signature} {id : Nat} {e : Edit}, (f, id) ∈ functions.zip ids →
      (if users.contains id then declarationEdit? a f else none) = some e → ∃ j, Declares m a f j e := by
    intro f id e hmem he
    obtain ⟨i, hi⟩ := mem_iff_getElem?.mp (of_mem_zip hmem).1
    obtain ⟨j, -, hj⟩ := exists_getElem?_right hlocated hi
    exact ⟨j, hj, hedit he⟩
  refine ⟨fun e he => ?_, ?_, fun i f j id hf hj hid huser hlacks => ?_⟩
  · obtain ⟨⟨f, id⟩, hmem, he⟩ := mem_filterMap.mp he
    exact ⟨f, hdeclares hmem he⟩
  · have hfunctions : functions.Pairwise (·.closeParen < ·.openParen) :=
      pairwise_of_forall₂ hlocated hjs fun hf hg hlt => hf.before hg hlt
    have hzip : (functions.zip ids).Pairwise fun x y => x.1.closeParen < y.1.openParen := by
      rw [pairwise_iff_getElem] at hfunctions ⊢
      intro i j hi hj hlt
      rw [length_zip] at hi hj
      rw [getElem_zip, getElem_zip]
      exact hfunctions i j (by omega) (by omega) hlt
    refine pairwise_filterMap.mpr (List.Pairwise.imp_of_mem ?_ hzip)
    rintro ⟨f, id⟩ ⟨g, id'⟩ hf hg hlt e he e' he'
    obtain ⟨j, hj⟩ := hdeclares hf he
    obtain ⟨j', hj'⟩ := hdeclares hg he'
    have hstop := (hj.gives hm ha).2.2
    have hstart := (hj'.gives hm ha).2.1
    dsimp only at hlt
    omega
  · obtain ⟨_, hj', hlocatedAt⟩ := exists_getElem?_right hlocated hf
    obtain rfl := Option.some.inj (hj.symm.trans hj')
    refine ⟨_, mem_filterMap.mpr ⟨(f, id), mem_of_getElem? (i := i) ?_, ?_⟩, hlocatedAt, rfl⟩
    · rw [getElem?_zip_eq_some]
      exact ⟨hf, hid⟩
    · dsimp only
      rw [if_pos (contains_iff_mem.mpr huser), declarationEdit?,
        if_neg (by rw [hlacks]; exact Bool.false_ne_true)]

/-- **A pass lets the functions of a program grow**, and gives the value to the users that lack it. -/
theorem grows_threadValue {source : Text} (hascii : source.IsAscii) (hback : 92 ∉ source.mask)
    (hsteady : ∀ x ∈ source.mask.heads, Head.Steady x)
    (hfunctions : Program.functions source = .ok functions) (ha : a.Proper)
    (hwords : ∀ v ∈ overloads.table, v.name.IsWord) {target : Text}
    (htarget : threadValue source a users overloads = .ok target) :
    target.IsAscii ∧ 92 ∉ target.mask ∧ List.Forall₂ Head.Grows source.mask.heads target.mask.heads ∧
      ∀ (i : Nat) (f : Signature) (j id : Nat), functions[i]? = some f →
        (slots 0 source.mask.heads)[i]? = some j →
        overloads.ofFunction[i]? = some id → id ∈ users → f.hasParam a.name = false →
        Edit.OwnsAt a target.mask.heads j := by
  unfold threadValue at htarget
  obtain ⟨_, hfunctions', htarget⟩ := Checked.exists_of_bind htarget
  obtain rfl := Except.ok.inj (hfunctions.symm.trans hfunctions')
  obtain ⟨calls, hcalls, htarget⟩ := Checked.exists_of_bind htarget
  obtain ⟨declarations, hdeclarations, htarget⟩ : ∃ declarations : List Edit,
      declarations = ((functions.zip overloads.ofFunction).filterMap fun (f, id) =>
        if users.contains id then declarationEdit? a f else none) ∧
      Edit.apply (declarations ++ calls.flatten) source = .ok target := ⟨_, rfl, htarget⟩
  have hm := hascii.mask
  have hnames : ∀ n ∈ namesOf overloads users, n.IsWord := by
    intro n hn
    obtain ⟨name, hname, rfl⟩ := ((mem_foldl_placeName (fun name => name) _ _ _).mp hn).resolve_left nofun
    obtain ⟨id, -, hid⟩ := mem_filterMap.mp hname
    obtain ⟨v, hv, rfl⟩ := Option.map_eq_some_iff.mp hid
    exact hwords v (mem_of_getElem? hv)
  obtain ⟨hpasses, hdistinct⟩ := exists_calls hnames (nodup_namesOf overloads users) hcalls
  obtain ⟨hdeclares, hbefore, hgiven⟩ := exists_declarations hm (Program.forall₂_located hascii hfunctions)
    (pairwise_slots 0 _).1 ha hdeclarations
  have happends := appends_of_mem hm ha hdeclares hpasses
  have hbytes := mem_replacement ha hdeclares hpasses
  have hcode : ∀ e ∈ declarations ++ calls.flatten,
    e.InCode source (declarations ++ calls.flatten) := fun e he =>
    (happends e he).inCode (hbytes e he) (happends e he).ne_nil
  obtain ⟨hmasked, -⟩ := Edit.apply_masked hascii hcode htarget
  rw [Edit.map_masked fun e he => hbytes e he] at hmasked
  obtain ⟨hgrows, hown⟩ := grows_apply hm hback hsteady ha hdeclares hbefore hpasses hdistinct hmasked
  refine ⟨?_, fun hmem => ?_, hgrows, fun i f j id hf hj hid huser hlacks => ?_⟩
  · exact (kind_isAscii.apply hascii fun e he =>
      ⟨fun _ => (hcode e he).within, (hcode e he).ascii⟩).1 _ htarget
  · have hperm := Edit.ordered_perm (declarations ++ calls.flatten)
    rw [Edit.apply_eq_spliced fun e he => Edit.cuts_of_isAscii hm (happends e he).within] at hmasked
    rw [← Except.ok.inj hmasked] at hmem
    rcases Edit.mem_spliced hmem with hmem | ⟨e, he, hmem⟩
    · exact hback hmem
    · rcases hbytes e (hperm.mem_iff.mp he) 92 hmem with h | h | h <;> cases h
  · obtain ⟨e, he, h⟩ := hgiven i f j id hf hj hid huser hlacks
    exact hown e he f j h

end Threading

end GlslToMetal
