import GlslToMetal.Proofs.Ambient.Insertion
import GlslToMetal.Proofs.Program.Located

/-! Where values are put in. A value is declared behind the last parameter of a function, and passed
behind the last argument of a call. What stands between that element and the parenthesis that closes the
list holds nothing but blanks, or declares nothing. -/

namespace GlslToMetal

open List Text

variable {a : Ambient} {isBlock : Bool} {e : Edit} {words xs : List Text} {j : Nat} {r : Range} {ρ : Reader}
  {f : Signature} {behind lead list m pre : Text} {b : UInt8}

namespace Text

/-- The last of some texts with commas between them ends before blanks, or where the texts end. -/
theorem exists_last_trimmed (i : Nat) (hne : xs ≠ []) :
    ∃ t z r, [44].intercalate xs = t ++ z ∧ z.all isBlank ∧ (EndsSolid t ∨ z = []) ∧
      (trimmed i xs).getLast? = some r ∧ r.stop = i + t.length := by
  induction xs generalizing i with
  | nil => exact absurd rfl hne
  | cons x xs ih =>
    cases xs with
    | nil =>
      refine ⟨x.core, x.blankTail, _, ?_, all_blankTail x, ?_, rfl, rfl⟩
      · rw [intercalate_singleton, core_append_blankTail]
      · by_cases hblank : x.all isBlank
        · exact .inr (if_pos hblank)
        · exact .inl (endsSolid_core hblank)
    | cons y ys =>
      obtain ⟨t, z, r, ht, hz, hplace, hlast, hstop⟩ := ih (i + x.length + 1) (cons_ne_nil y ys)
      refine ⟨x ++ 44 :: t, z, r, ?_, hz, ?_, ?_, ?_⟩
      · rw [intercalate_cons_cons, ht]
        simp
      · refine hplace.imp_left fun hsolid => ?_
        have := hsolid.append_left (x ++ [44])
        simpa using this
      · rw [trimmed, getLast?_cons, hlast]
        rfl
      · rw [hstop, length_append, length_cons]
        omega

end Text

namespace Parameter

/-- Words that declare nothing alone. -/
def idleWords : List Text := ["void", "const", "in", "out", "inout", "thread", "&"]

theorem mem_idleWords_of_takeQualifiers {q : Qualifier} {c : Bool}
    (h : (takeQualifiers q c words).2.2.filter (· != ("&" : Text)) = []) : ∀ w ∈ words, w ∈ idleWords := by
  induction words generalizing q c with
  | nil => exact nofun
  | cons word rest ih =>
    unfold takeQualifiers at h
    split at h
    · next hconst =>
      rw [beq_iff_eq] at hconst
      intro w hw
      rcases mem_cons.mp hw with rfl | hw
      · rw [hconst]
        decide
      · exact ih h w hw
    · split at h
      · next q' hq =>
        intro w hw
        rcases mem_cons.mp hw with rfl | hw
        · unfold qualifierWord? at hq
          simp only [beq_iff_eq] at hq
          split at hq
          · next hw => rw [hw]; decide
          split at hq
          · next hw => rw [hw]; decide
          split at hq
          · next hw => rw [hw]; decide
          split at hq
          · next hw => rw [hw]; decide
          · cases hq
        · exact ih h w hw
      · intro w hw
        have := filter_eq_nil_iff.mp h w hw
        simp only [bne_iff_ne, ne_eq, Decidable.not_not] at this
        rw [this]
        decide

theorem mem_idleWords (h : ofWords? words r = none) : ∀ w ∈ words, w ∈ idleWords := by
  unfold ofWords? at h
  split at h
  · next hvoid =>
    rw [beq_iff_eq] at hvoid
    rw [hvoid]
    decide
  · simp only [bind, Option.bind_eq_none_iff] at h
    refine mem_idleWords_of_takeQualifiers (q := .unmarked) (c := false) ?_
    cases hrest : (takeQualifiers .unmarked false words).2.2.filter (· != ("&" : Text)) with
    | nil => rfl
    | cons w rest =>
      rw [hrest] at h
      cases rest with
      | nil => cases h _ rfl
      | cons w' rest => cases h _ rfl

/-- **What declares nothing delimits nothing.** -/
theorem inert_of_ofText?_eq_none {x : Text} (hx : x.IsAscii) (h : ofText? x.strip r = none) : Inert x := by
  intro b hb
  by_cases hblank : isBlank b
  · exact inert_of_isBlank (t := [b]) (by simpa using hblank) b (mem_singleton_self b)
  by_cases href : b = 38
  · rw [href]
    rfl
  by_cases hwhite : isWhiteByte b
  · have hlt := hx b hb
    simp only [isWhiteByte, Bool.or_eq_true, decide_eq_true_eq, beq_iff_eq] at hwhite
    rcases hwhite with (hwide | hwhite) | rfl
    · exact absurd hlt (UInt8.not_lt.mpr hwide)
    · exact absurd hwhite hblank
    · rfl
  have hstrip : b ∈ x.strip := Nest.mem_strip (by simpa using hblank) hb
  have hspaced : b ∈ spaceReferences x.strip := by
    refine mem_flatMap.mpr ⟨b, hstrip, ?_⟩
    rw [if_neg (by simpa using href)]
    exact mem_singleton_self b
  have hascii := isAscii_spaceReferences (hx.of_subset (strip_sublist x).subset)
  obtain ⟨w, hw, hbw⟩ := mem_words hascii hspaced (by simpa using hwhite)
  have hidle : ∀ w ∈ idleWords, w.all isInert := by decide +kernel
  exact all_eq_true.mp (hidle w (mem_idleWords h w hw)) b hbw

/-- **Behind the last parameter of a list** stand elements that declare nothing. -/
theorem exists_last_declared (i : Nat) (hne : xs ≠ []) (hascii : ∀ x ∈ xs, x.IsAscii) :
    (declaredFrom i xs = [] ∧ Inert ([44].intercalate xs) ∧ ∀ x ∈ xs, ofText? x.strip ⟨0, 0⟩ = none) ∨
      ∃ t z p, [44].intercalate xs = t ++ z ∧ EndsSolid t ∧ Inert z ∧ LeadsBlank z ∧
        (declaredFrom i xs).getLast? = some p ∧ p.range.stop = i + t.length := by
  induction xs generalizing i with
  | nil => exact absurd rfl hne
  | cons x xs ih =>
    have hx := hascii x mem_cons_self
    have hsame := ofText?_eq x.strip ⟨i + x.leadingBlanks, i + x.core.length⟩
    have hsolid : ∀ {p}, ofText? x.strip ⟨0, 0⟩ = some p → EndsSolid x.core := by
      intro p hp
      refine endsSolid_core fun hblank => ?_
      rw [ofText?_of_blank hblank] at hp
      cases hp
    cases xs with
    | nil =>
      rw [intercalate_singleton, declaredFrom, declaredFrom, append_nil, hsame]
      cases hp : ofText? x.strip ⟨0, 0⟩ with
      | none =>
        refine .inl ⟨rfl, inert_of_ofText?_eq_none hx hp, fun y hy => ?_⟩
        rw [mem_singleton.mp hy, hp]
      | some p =>
        refine .inr ⟨x.core, x.blankTail, _, (core_append_blankTail x).symm, hsolid hp, ?_, ?_, rfl, rfl⟩
        · exact inert_of_isBlank (all_blankTail x)
        · exact leadsBlank_of_all (all_blankTail x)
    | cons y ys =>
      have hcomma : Inert [44] := fun b hb => by rw [mem_singleton.mp hb]; rfl
      rw [intercalate_cons_cons, declaredFrom, hsame]
      rcases ih (i + x.length + 1) (cons_ne_nil y ys) fun z hz => hascii z (mem_cons_of_mem _ hz) with
        ⟨hnil, hinert, hnone⟩ | ⟨t, z, p, ht, hend, hz, hlead, hlast, hstop⟩
      · rw [hnil, append_nil]
        cases hp : ofText? x.strip ⟨0, 0⟩ with
        | none =>
          refine .inl ⟨rfl, ((inert_of_ofText?_eq_none hx hp).append hcomma).append hinert, fun w hw => ?_⟩
          rcases mem_cons.mp hw with rfl | hw
          · exact hp
          · exact hnone w hw
        | some p =>
          refine .inr ⟨x.core, x.blankTail ++ ([44] ++ [44].intercalate (y :: ys)), _, ?_,
            hsolid hp, ?_, ?_, rfl, rfl⟩
          · rw [← append_assoc x.core, core_append_blankTail, append_assoc]
          · exact (inert_of_isBlank (all_blankTail x)).append (hcomma.append hinert)
          · exact ⟨_, _, rfl, all_blankTail x, .inr rfl⟩
      · refine .inr ⟨x ++ 44 :: t, z, p, ?_, ?_, hz, hlead, ?_, ?_⟩
        · rw [ht]
          simp
        · have := hend.append_left (x ++ [44])
          simpa using this
        · rw [getLast?_append, hlast]
          rfl
        · rw [hstop, length_append, length_cons]
          omega

end Parameter

namespace Threading

section Append

variable {m l t r new : Text} (hm : m = l ++ 40 :: (t ++ 41 :: r)) (hclosed : ParensClosed t)
  (hnew : Signature.Fresh new)
include hm hclosed hnew

/-- **What is passed in a call** is appended to its arguments. -/
theorem appends_call : (append (if t.all isBlank then [] else trimmed (l.length + 1) (stretches 0 t)).getLast?
    l.length (l.length + 1 + t.length) new).Appends m := by
  by_cases hblank : t.all isBlank
  · rw [if_pos hblank]
    exact .fill ⟨hm, hclosed, inert_of_isBlank hblank, .inl hblank, hnew, rfl, rfl⟩
  · obtain ⟨t₁, z, range, ht, hz, hplace, hlast, hstop⟩ :=
      exists_last_trimmed (l.length + 1) (stretches_ne_nil 0 t)
    rw [intercalate_stretches] at ht
    subst ht
    rw [if_neg hblank, hlast]
    refine .insert (l := l) (t := t₁) (z := z) (r := r) ⟨by rw [hm, append_assoc], hclosed, ?_, hplace,
      inert_of_isBlank hz, leadsBlank_of_all hz, hnew, ?_, rfl⟩
    · intro hblank'
      exact hblank (by rw [all_append, hblank', hz]; rfl)
    · simp only [append, Edit.insert, hstop]

end Append

end Threading

theorem Ambient.Proper.fresh_declaration (ha : a.Proper) : Signature.Fresh a.declaration where
  inert := by
    intro b hb
    rcases ha.bytes b hb with hword | rfl
    · exact isInert_of_isWordByte hword
    · rfl
  comma := ha.not_mem rfl (by decide)
  line := ha.not_mem rfl (by decide)
  ne_nil := ha.nonempty

theorem Ambient.Proper.fresh_name (ha : a.Proper) : Signature.Fresh a.name where
  inert := fun b hb => isInert_of_isWordByte (ha.word.2 b hb)
  comma := fun hmem => by cases ha.word.2 44 hmem
  line := fun hmem => by cases ha.word.2 newline hmem
  ne_nil := ha.word.1

/-- **What is declared** is appended to the parameters of a function. -/
theorem Signature.Located.gives (hm : m.IsAscii) (h : f.Located m j pre lead list behind isBlock)
    (ha : a.Proper)
    (he : e = Threading.append (f.params.getLast?.map (·.range)) f.openParen f.closeParen a.declaration) :
    e.Gives m a j ∧ f.openParen < e.range.start ∧ e.range.stop ≤ f.closeParen := by
  obtain ⟨post, htext⟩ := h.text
  obtain ⟨⟨_, ⟨-, hfirst, hclosed⟩, -⟩, -⟩ := h.function
  have hlist : list.IsAscii := hm.of_subset fun b hb => by rw [htext]; simp [hb]
  have hfunction : ∃ head isBlock lead list, m.heads[j]? = some (some (.header head isBlock)) ∧
      IsFunction head lead list := ⟨_, _, _, _, h.head, h.function⟩
  have hstretches : ∀ x ∈ stretches 0 list, x.IsAscii :=
    fun x hx => hlist.of_subset (subset_of_mem_stretches hx)
  -- What the reader has behind a prefix of the header.
  have hread : ∀ {s : Text}, s ≠ [] → s <+: lead ++ 40 :: (list ++ 41 :: behind) →
    m.take e.range.start = pre ++ s →
      (Item.Reader.between.read (m.take e.range.start)).open? = some s ∧
        (Item.Reader.between.emitted (m.take e.range.start)).length = j := by
    intro s hs hbegins htake
    rw [htake]
    exact (h.reader s hs hbegins).symm
  rw [h.params, h.openParen, h.closeParen] at he
  rw [h.openParen, h.closeParen]
  rcases Parameter.exists_last_declared ((pre ++ lead).length + 1) (stretches_ne_nil 0 list) hstretches with
    ⟨hnil, hinert, hnone⟩ | ⟨t, z, p, ht, hend, hz, hlead, hlast, hstop⟩
  · rw [intercalate_stretches] at hinert
    rw [hnil] at he
    subst he
    have hfills : Edit.Fills m
      (Threading.append none (pre ++ lead).length ((pre ++ lead).length + 1 + list.length)
        a.declaration) (pre ++ lead) list (behind ++ post) a.declaration := by
      refine ⟨htext, hclosed, hinert,
        .inr ⟨⟨lead, (h.reader lead h.lead_ne_nil (prefix_append _ _)).2, hfirst⟩,
        fun b hb x hx heq => ?_⟩, ha.fresh_declaration, rfl, rfl⟩
      have := hnone x hx
      rw [heq, hb.declared] at this
      cases this
    obtain ⟨hopen, hcount⟩ := hread (s := lead ++ [40]) (by simp) ⟨list ++ 41 :: behind, by simp⟩
      (by rw [← append_assoc]; exact hfills.divide.1)
    exact ⟨⟨⟨pre ++ lead, lead, [], .inr ⟨rfl, list, behind ++ post, hfills⟩, hopen, hfirst⟩,
      hcount, hfunction⟩,
      Nat.lt_succ_self _, Nat.le_refl _⟩
  · rw [intercalate_stretches] at ht
    subst ht
    have hinserts : Edit.Inserts m e (pre ++ lead) t z (behind ++ post) a.declaration := by
      rw [he, hlast]
      refine ⟨by rw [htext,
        append_assoc t], hclosed, fun hblank => ?_, .inl hend, hz, hlead, ha.fresh_declaration, ?_,
        rfl⟩
      · obtain ⟨b, hb, hsolid⟩ := hend
        rw [all_eq_true.mp hblank b (mem_of_getLast? hb)] at hsolid
        cases hsolid
      · simp only [Threading.append, Option.map_some, Edit.insert, hstop]
    obtain ⟨hopen, hcount⟩ := hread (s := lead ++ 40 :: t) (by simp) ⟨z ++ 41 :: behind, by simp⟩
      (by rw [← append_assoc]; exact hinserts.divide.1)
    refine ⟨⟨⟨pre ++ lead, lead, t, .inl ⟨z, behind ++ post, hinserts⟩, hopen, hfirst⟩, hcount,
      hfunction⟩, ?_, ?_⟩
    · rw [hinserts.range]
      dsimp only
      omega
    · rw [hinserts.range]
      simp only [length_append]
      omega

namespace Item.Reader

theorem open?_ne_nil (t : Text) : (between.read t).open? ≠ some [] := by
  rcases eq_nil_or_concat t with rfl | ⟨s, b, rfl⟩
  · exact nofun
  · rw [concat_eq_append, read_append]
    intro h
    exact absurd (open?_step h) (by simp)

theorem isRest_of_step (hρ : ρ.open? ≠ some []) (h : (ρ.step b).open? = some [b]) : ρ.isRest := by
  have hnil : ρ.open?.getD [] = [] := append_cancel_right ((open?_step h).symm.trans (nil_append _).symm)
  cases ρ with
  | between => rfl
  | closed => rfl
  | inside head => exact absurd (congrArg some hnil) hρ
  | nested head d depth => exact absurd (congrArg some hnil) hρ
  | line t =>
    rw [step] at h
    split at h <;> cases h
  | body head depth =>
    cases depth <;> simp only [step] at h <;> split_ifs at h <;> cases h

/-- Where no item is open no word ends. -/
theorem isWordByte_of_isRest_step (h : (ρ.step b).isRest) : isWordByte b = false := by
  rcases cases_of_isRest_step h with hblank | rfl | rfl
  · exact isWordByte_of_isBlank hblank
  · rfl
  · rfl

end Item.Reader

/-- Whether a function's own parenthesis reads as that of a call shows in its header. -/
theorem Signature.Located.callee?_eq (h : f.Located m j pre lead list behind isBlock) :
    callee? (pre ++ lead).reverse = callee? lead.reverse := by
  obtain ⟨b, rest, hlead⟩ := exists_cons_of_ne_nil h.lead_ne_nil
  rw [reverse_append]
  refine callee?_append (fun c hc => ?_) fun hblank => ?_
  · rw [head?_reverse] at hc
    obtain ⟨pre', rfl⟩ := getLast?_eq_some_iff.mp hc
    have hopen := (h.reader [b] (cons_ne_nil _ _) ⟨rest ++ 40 :: (list ++ 41 :: behind),
      by rw [hlead]; simp⟩).2
    rw [Item.Reader.read_append] at hopen
    have hrest := Item.Reader.isRest_of_step (Item.Reader.open?_ne_nil _) hopen
    rw [Item.Reader.read_append] at hrest
    exact Item.Reader.isWordByte_of_isRest_step hrest
  · -- A header without a return type is that of no function.
    have hnamed := h.function.named
    have hreverse : (beforeWord lead.reverse).reverse.all isBlank := by simpa using hblank
    have hascii : IsAscii ((beforeWord lead.reverse).reverse ++ []) := fun b hb =>
      lt_of_isBlank (all_eq_true.mp hreverse b (by simpa using hb))
    have htype : typeIn lead = [] := by
      have := trim_append_left hreverse hascii
      rwa [append_nil] at this
    rw [unread, htype] at hnamed
    simp at hnamed


namespace Threading

/-- The edit passes the value in the call whose parenthesis stands behind `l`. -/
structure Passes (m : Text) (a : Ambient) (l : Text) (e : Edit) : Prop where
  callee : callee? l.reverse ≠ none
  edit : ∃ t r, m = l ++ 40 :: (t ++ 41 :: r) ∧ ParensClosed t ∧
    e = append (if t.all isBlank then [] else trimmed (l.length + 1) (stretches 0 t)).getLast? l.length
      (l.length + 1 + t.length) a.name

section Passes

variable {m : Text} {a : Ambient} {l : Text} {e : Edit} (h : Passes m a l e)
include h

theorem Passes.appends (ha : a.Proper) : e.Appends m := by
  obtain ⟨t, r, hm, hclosed, rfl⟩ := h.edit
  exact appends_call hm hclosed ha.fresh_name

theorem Passes.replacement : e.replacement = a.name ∨ e.replacement = 44 :: 32 :: a.name := by
  obtain ⟨t, r, -, -, rfl⟩ := h.edit
  cases (if t.all isBlank then [] else trimmed (l.length + 1) (stretches 0 t)).getLast? with
  | none => exact .inl rfl
  | some range => exact .inr rfl

theorem Passes.all_cut : (m.cut e.range).all isBlank := by
  obtain ⟨t, r, hm, -, rfl⟩ := h.edit
  by_cases hblank : t.all isBlank
  · rw [if_pos hblank]
    have hcut := cut_append (l ++ [40]) t (41 :: r)
    rw [length_append, length_singleton] at hcut
    have hm' : m = l ++ [40] ++ t ++ 41 :: r := by rw [hm]; simp
    change (m.cut ⟨l.length + 1, l.length + 1 + t.length⟩).all isBlank
    rwa [hm', hcut]
  · obtain ⟨-, -, range, -, -, -, hlast, -⟩ := exists_last_trimmed (l.length + 1) (stretches_ne_nil 0 t)
    rw [if_neg hblank, hlast, append, Edit.insert, cut, Nat.sub_self, take_zero]
    rfl

theorem Passes.eq_of_fills {l' t' r' new : Text} (hfills : e.Fills m l' t' r' new) : l' = l := by
  obtain ⟨t, r, hm, hclosed, he⟩ := h.edit
  have hlength : e.range.start = l.length + 1 := by
    by_cases hblank : t.all isBlank
    · rw [if_pos hblank] at he
      rw [he]
      rfl
    · -- Behind an argument nothing is filled.
      exfalso
      obtain ⟨t₁, z, range, ht, -, -, hlast, -⟩ := exists_last_trimmed (l.length + 1) (stretches_ne_nil 0 t)
      rw [if_neg hblank, hlast] at he
      have := hfills.replacement
      rw [he] at this
      exact hfills.fresh.comma (by rw [← this]; exact mem_cons_self)
  have hlength' := congrArg Range.start hfills.range
  rw [hlength] at hlength'
  exact (append_inj (hfills.eq.symm.trans hm) (Nat.succ.inj hlength').symm).1

end Passes

/-- **The edit at a call.** -/
theorem passes_of_callEdit? {users : List Nat} {overloads : Overloads} {n : Text}
    (hn : n.IsWord) {c : Call} (hc : c ∈ Call.sites m n)
    (he : callEdit? m a users overloads n c = .ok (some e)) :
    ∃ l, Passes m a l e ∧ named? l.reverse = some n ∧ c = Call.named n l.reverse l.length := by
  obtain ⟨l, rest, rfl, hnamed, rfl⟩ := (Call.mem_sites hn).mp hc
  refine ⟨l, ?_, hnamed, rfl⟩
  unfold callEdit? at he
  rw [Call.isCall_named hn hnamed] at he
  obtain ⟨may, hmay, he⟩ := Checked.exists_of_bind he
  obtain rfl := Except.ok.inj hmay
  cases hmay : mayCall l.reverse with
  | false =>
    rw [hmay] at he
    cases he
  | true =>
    simp only [hmay, Bool.not_true, Bool.false_eq_true, if_false] at he
    cases hclose : (Call.named n l.reverse l.length).closeParen? (l ++ 40 :: rest) with
    | none =>
      rw [hclose] at he
      cases he
    | some closeParen =>
      obtain ⟨t, r, rfl, hclosed, rfl⟩ := matching?_paren.mp hclose
      have hargs := splitArgs_list l t r 40 41
      rw [hclose] at he
      obtain ⟨args, hargs', he⟩ := Checked.exists_of_bind he
      obtain rfl := Except.ok.inj (hargs.symm.trans hargs')
      obtain ⟨texts, -, he⟩ := Checked.exists_of_bind he
      refine ⟨by rw [callee?, hmay, if_pos rfl, hnamed]; exact Option.some_ne_none n, t, r, rfl, hclosed, ?_⟩
      split at he
      · exact (Option.some.inj (Except.ok.inj he)).symm
      · cases he

end Threading

end GlslToMetal
