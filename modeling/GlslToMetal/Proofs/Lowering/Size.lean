import Mathlib.Algebra.Order.BigOperators.Group.List
import Mathlib.Data.List.Flatten
import GlslToMetal.Proofs.Lowering.Encoding

/-! How a program grows while it is lowered. Bytes have weights, and a step makes a text no heavier if
no edit puts in more than it takes out. By length, only the new spelling of types counts before the
sampling calls are rewritten. By delimiters, only sampling calls add anything: a bias or a level of
detail is put in parentheses, so in a pass a call with three arguments gains as many delimiters as it
has commas. -/

namespace GlslToMetal

open List Text Checked Unicode

variable {w w' : UInt8 → Nat} {edits : List Edit} {n : Nat} {r : Range} {s source t u : Text}

namespace Text

/-- The weights of the bytes together. -/
def weigh (w : UInt8 → Nat) (t : Text) : Nat := (t.map w).sum

@[simp] theorem weigh_nil : weigh w [] = 0 := rfl

@[simp] theorem weigh_cons (b : UInt8) (t : Text) : weigh w (b :: t) = w b + weigh w t := by
  simp [weigh]

@[simp] theorem weigh_append (s t : Text) : weigh w (s ++ t) = weigh w s + weigh w t := by
  simp [weigh]

theorem weigh_const (n : Nat) (t : Text) : weigh (fun _ => n) t = n * t.length := by
  rw [weigh, map_const', sum_replicate_nat, Nat.mul_comm]

theorem weigh_flatten (ts : List Text) : weigh w ts.flatten = (ts.map (weigh w)).sum := by
  rw [weigh, map_flatten, sum_flatten, map_map]
  rfl

theorem weigh_le_of_forall₂ {R : UInt8 → UInt8 → Prop} (hR : ∀ a b, R a b → w b ≤ w' a)
    (h : List.Forall₂ R t s) : weigh w s ≤ weigh w' t :=
  (forall₂_map_left_iff.mpr (forall₂_map_right_iff.mpr (h.flip.imp fun b a => hR a b))).sum_le_sum

theorem weigh_mono (hw : ∀ b, w b ≤ w' b) (t : Text) : weigh w t ≤ weigh w' t :=
  sum_le_sum fun b _ => hw b

theorem sum_le_of_sublist {α : Type} {f : α → Nat} {xs ys : List α} (h : List.Sublist xs ys) :
    (xs.map f).sum ≤ (ys.map f).sum :=
  (h.map f).sum_le_sum fun _ _ => Nat.zero_le _

theorem weigh_le_of_sublist (h : List.Sublist s t) : weigh w s ≤ weigh w t := sum_le_of_sublist h

theorem cut_sublist (t : Text) (r : Range) : List.Sublist (t.cut r) t :=
  (take_sublist _ _).trans (drop_sublist _ _)

theorem weigh_cut (h : r.start ≤ r.stop) :
    weigh w (t.drop r.start) = weigh w (t.cut r) + weigh w (t.drop r.stop) := by
  rw [drop_start h, weigh_append]

theorem weigh_cut_split {i j k : Nat} (hij : i ≤ j) (hjk : j ≤ k) :
    weigh w (t.cut ⟨i, k⟩) = weigh w (t.cut ⟨i, j⟩) + weigh w (t.cut ⟨j, k⟩) := by
  rw [← cut_append_cut t hij hjk, weigh_append]

/-- A byte of the masked text is the byte of the text, or a space. -/
theorem forall₂_mask (t : Text) : List.Forall₂ (fun b m => m = b ∨ m = 32) t t.mask := by
  unfold mask
  generalize Place.code = p
  induction t generalizing p with
  | nil => exact .nil
  | cons b t ih =>
    rw [maskFrom_cons]
    exact .cons (maskByte_fst p b t.head?) (ih _)

theorem weigh_mask_cut_le (hw : ∀ b, w 32 ≤ w b) (t : Text) (r : Range) :
    weigh w (t.mask.cut r) ≤ weigh w (t.cut r) := by
  refine weigh_le_of_forall₂ ?_ (forall₂_take _ (forall₂_drop _ t.forall₂_mask))
  rintro a b (rfl | rfl)
  · exact Nat.le_refl _
  · exact hw a

/-! Texts that are read from the characters of a text. -/

theorem weigh_ofChars_le {a b : List Char} (h : List.Sublist a b) :
    weigh w (ofChars a) ≤ weigh w (ofChars b) :=
  weigh_le_of_sublist (h.flatMap _)

theorem weigh_ofChars_chars (h : t.IsAscii) : weigh w (ofChars t.chars) = weigh w t := by
  rw [chars_of_isAscii h, ofChars_map_charOf h]

theorem weigh_trim_le (h : t.IsAscii) : weigh w t.trim ≤ weigh w t := by
  rw [← weigh_ofChars_chars h]
  refine weigh_ofChars_le (List.Sublist.trans ?_ (dropWhile_sublist Unicode.isWhiteSpace))
  rw [← reverse_sublist, charsTrimEnd, reverse_reverse]
  exact dropWhile_sublist _

theorem flatten_words (cs : List Char) :
    (words (ofChars cs)).flatten = ofChars (cs.filter (!isWhiteSpace ·)) := by
  rw [words, chars_ofChars, ← flatten_charWords]
  generalize charWords cs = ws
  induction ws with
  | nil => rfl
  | cons word ws ih => rw [map_cons, flatten_cons, flatten_cons, ih, ofChars_append]

theorem weigh_words_le (cs : List Char) :
    weigh w (words (ofChars cs)).flatten ≤ weigh w (ofChars cs) := by
  rw [flatten_words]
  exact weigh_ofChars_le filter_sublist

end Text

/-! Edits. -/

/-- The edit puts in no more than it takes out. -/
def Edit.Light (w w' : UInt8 → Nat) (t : Text) (e : Edit) : Prop :=
  e.range.start ≤ e.range.stop ∧ weigh w e.replacement ≤ weigh w' (t.cut e.range)

theorem Edit.light_of_eq_zero {e : Edit} (hrange : e.range.start ≤ e.range.stop)
    (h : weigh w e.replacement = 0) : e.Light w w' t := ⟨hrange, h ▸ Nat.zero_le _⟩

theorem Edit.weigh_applyFrom (hw : ∀ b, w b ≤ w' b) (h : ∀ e ∈ edits, e.Light w w' t)
    (cursor : Nat) : (applyFrom t cursor edits).Yields (weigh w · ≤ weigh w' (t.drop cursor)) := by
  induction edits generalizing cursor with
  | nil =>
    intro u hu
    obtain ⟨hle, -, rfl⟩ := of_slice hu
    refine Nat.le_trans (weigh_mono hw _) (weigh_le_of_sublist (take_sublist _ _))
  | cons e edits ih =>
    obtain ⟨⟨hrange, hlight⟩, hedits⟩ := forall_mem_cons.mp h
    unfold applyFrom
    split
    · exact ih hedits cursor
    · intro u hu
      obtain ⟨kept, hkept, hu⟩ := exists_of_bind hu
      obtain ⟨after, hafter, hu⟩ := exists_of_bind hu
      obtain ⟨hcursor, -, rfl⟩ := of_slice hkept
      cases hu
      have hrest := ih hedits _ after hafter
      have hfirst := weigh_mono hw (t.cut ⟨cursor, e.range.start⟩)
      rw [weigh_cut (r := ⟨cursor, e.range.start⟩) hcursor, weigh_cut hrange, weigh_append,
        weigh_append]
      omega

/-- **Edits that put in no more than they take out make a text no heavier.** -/
theorem Edit.weigh_apply (hw : ∀ b, w b ≤ w' b) (h : ∀ e ∈ edits, e.Light w w' t) :
    (apply edits t).Yields (weigh w · ≤ weigh w' t) :=
  Edit.weigh_applyFrom hw (fun e he => h e ((Edit.ordered_perm edits).mem_iff.mp he)) 0

theorem Pattern.light_codeEdits {p : Pattern} (h : source.IsAscii) (hspace : ∀ b, w' 32 ≤ w' b)
    {new : Text → Text} (hnew : ∀ t, weigh w (new t) ≤ weigh w' t) :
    ∀ e ∈ p.codeEdits source new, e.Light w w' source := by
  intro e he
  obtain ⟨r, hr, rfl⟩ := mem_map.mp he
  exact ⟨(within_of_mem_ranges h.mask hr).1,
    Nat.le_trans (hnew _) (weigh_mask_cut_le hspace source r)⟩

/-! Directives and type names. -/

theorem Directive.weigh_remove (hspace : ∀ b, w 32 ≤ w b) {ps : List Pattern} (h : source.IsAscii) :
    (remove ps source).Yields fun r => weigh w r.2 ≤ weigh w source := by
  induction ps generalizing source with
  | nil => exact yields_pure (Nat.le_refl _)
  | cons p ps ih =>
    intro r hr
    obtain ⟨result, hresult, hr⟩ := exists_of_bind hr
    obtain ⟨⟨count, last⟩, hlast, hr⟩ := exists_of_bind hr
    cases hr
    have hascii := (kind_isAscii.apply h (kind_isAscii.codeEdits h fun _ _ => kind_isAscii.nil)).1
      result hresult
    have hlight : ∀ e ∈ p.codeEdits source fun _ => [], e.Light w w source :=
      Pattern.light_codeEdits h hspace fun _ => Nat.zero_le _
    exact Nat.le_trans (ih hascii (count, last) hlast)
      (Edit.weigh_apply (fun _ => Nat.le_refl _) hlight result hresult)

theorem Directive.weigh_strip (hspace : ∀ b, w 32 ≤ w b) (h : source.IsAscii) :
    (strip source).Yields fun r => weigh w r.2 ≤ weigh w source :=
  Yields.bind (Directive.weigh_remove hspace h) fun _ hr => yields_pure hr

theorem TypeName.weigh_lower (hw : ∀ b, w b ≤ w' b) (hspace : ∀ b, w' 32 ≤ w' b)
    (hmetal : ∀ t ∈ all, weigh w (t.metal : Text) ≤ weigh w' (t.glsl : Text))
    (h : source.IsAscii) : (lower source).Yields (weigh w · ≤ weigh w' source) := by
  refine Edit.weigh_apply hw (Pattern.light_codeEdits h hspace fun word => ?_)
  unfold toMetal
  cases ht : ofGlsl? word with
  | none => exact weigh_mono hw word
  | some t =>
    have hword : word = (t.glsl : Text) := by simpa using find?_some ht
    rw [hword]
    exact hmetal t (mem_of_find?_eq_some ht)

theorem Directive.length_strip (h : source.IsAscii) :
    (strip source).Yields fun r => r.2.length ≤ source.length := by
  have hstrip := Directive.weigh_strip (w := fun _ => 1) (fun _ => Nat.le_refl _) h
  simpa only [weigh_const, Nat.one_mul] using hstrip

/-- The new name of a type is at most twice as long as the old. -/
theorem TypeName.length_lower (h : source.IsAscii) :
    (lower source).Yields (·.length ≤ 2 * source.length) := by
  have hlower : (lower source).Yields (weigh (fun _ => 1) · ≤ weigh (fun _ => 2) source) :=
    TypeName.weigh_lower (by simp) (fun _ => Nat.le_refl _) (by decide +kernel) h
  simpa only [weigh_const, Nat.one_mul] using hlower

/-! Delimiters. -/

/-- The weight of a byte where `n` more delimiters may be put in for each comma: one for a delimiter,
and `n` for a comma. -/
def load (n : Nat) (b : UInt8) : Nat :=
  if (Delimiter.ofOpener? b).isSome || (Delimiter.ofCloser? b).isSome then 1
  else if b = 44 then n else 0

theorem load_mono {m : Nat} (h : m ≤ n) (b : UInt8) : load m b ≤ load n b := by
  unfold load
  split
  · exact Nat.le_refl _
  split
  · exact h
  · exact Nat.le_refl _

theorem load_space (n : Nat) (b : UInt8) : load n 32 ≤ load n b := Nat.zero_le _

theorem load_opener (n : Nat) (d : Delimiter) : load n d.opener = 1 := by cases d <;> rfl

theorem load_closer (n : Nat) (d : Delimiter) : load n d.closer = 1 := by cases d <;> rfl

theorem load_le (hn : 1 ≤ n) (b : UInt8) : load n b ≤ n := by
  unfold load
  split
  · exact hn
  split
  · exact Nat.le_refl _
  · exact Nat.zero_le _

theorem weigh_load_le (hn : 1 ≤ n) (t : Text) : weigh (load n) t ≤ n * t.length := by
  induction t with
  | nil => exact Nat.zero_le _
  | cons b t ih =>
    have := load_le hn b
    rw [weigh_cons, length_cons, Nat.mul_succ]
    omega

/-- Without a comma a text has the weight of its delimiters. -/
theorem weigh_load_of_not_mem (h : 44 ∉ t) : weigh (load n) t = weigh (load 0) t := by
  unfold weigh
  congr 1
  refine map_congr_left fun b hb => ?_
  have hcomma : b ≠ 44 := fun heq => h (heq ▸ hb)
  rw [load, load, if_neg hcomma, if_neg hcomma]

/-- The depth of a text is at most the number of its delimiters. -/
theorem natAbs_weight_le (t : Text) : t.weight.natAbs ≤ weigh (load 0) t := by
  induction t with
  | nil => exact Nat.le_refl _
  | cons b t ih =>
    have hbyte : (byteWeight b).natAbs ≤ load 0 b := by
      unfold byteWeight load
      split
      · next h => simp [h]
      split
      · next h => simp [h]
      · exact Nat.zero_le _
    rw [weight_cons, weigh_cons]
    omega

/-- What stands between a delimiter and the one that closes it weighs two less than the whole. -/
theorem weigh_matching? {opened closed : Nat} (h : source.mask.matching? opened = some closed) :
    weigh (load n) (source.cut ⟨opened, closed + 1⟩) =
      weigh (load n) (source.cut ⟨opened + 1, closed⟩) + 2 := by
  obtain ⟨d, hopen⟩ := exists_opener_of_matching? h
  have hclose := closer_of_matching? hopen h
  have hlt : opened + 1 ≤ closed := (matching?_bounds h).1
  have hopened := (solid_at hopen (by cases d <;> rfl)).1
  have hclosed := (solid_at hclose (by cases d <;> rfl)).1
  rw [cut_of_getElem? hopened (Nat.lt_succ_of_lt hlt), weigh_cons, load_opener,
    weigh_cut_split hlt (Nat.le_add_right closed 1), cut_of_getElem? hclosed (Nat.lt_succ_self closed),
    weigh_cons, load_closer, show source.cut ⟨closed + 1, closed + 1⟩ = [] by simp [cut],
    weigh_nil]
  omega

/-! Sampling calls. -/

/-- What is between the parentheses of a list are its arguments and the commas between them, in a text
that has the same commas. -/
theorem Text.Arranged.weigh_le {opened closed i : Nat} {args : List Range}
    (h : Arranged t opened closed i args) (hu : ∀ k : Nat, t[k]? = some 44 → u[k]? = some 44) :
    (args.map fun r => weigh w (u.cut r)).sum + (args.length - 1) * w 44 ≤
      weigh w (u.cut ⟨i, closed⟩) := by
  have hinside : ∀ {i k : Nat} {r : Range}, Trims t ⟨i, k⟩ r →
      weigh w (u.cut r) ≤ weigh w (u.cut ⟨i, k⟩) := by
    intro i k r htrims
    have hfront := weigh_cut_split (w := w) (t := u) htrims.start_le
      (Nat.le_trans htrims.le htrims.stop_le)
    have hback := weigh_cut_split (w := w) (t := u) htrims.le htrims.stop_le
    exact Nat.le_trans (Nat.le_add_right _ _) (hback ▸ Nat.le_trans (Nat.le_add_left _ _) hfront.ge)
  induction h with
  | last htrims => simpa using hinside htrims
  | @cons i k r rest htrims _ hk hsep hrest ih =>
    have hik : i ≤ k := Nat.le_trans htrims.start_le (Nat.le_trans htrims.le htrims.stop_le)
    have hcomma : u[k]? = some 44 := by
      rw [separates, Bool.and_eq_true, beq_iff_eq] at hsep
      exact hu k hsep.1
    have hfirst := hinside htrims
    obtain ⟨m, hm⟩ : ∃ m, rest.length = m + 1 := by cases hrest <;> exact ⟨_, rfl⟩
    rw [hm, Nat.add_sub_cancel] at ih
    rw [weigh_cut_split hik (Nat.le_of_lt hk), cut_of_getElem? hcomma hk, weigh_cons, map_cons,
      sum_cons, length_cons, Nat.add_sub_cancel, hm, Nat.succ_mul]
    omega

namespace Sampling

/-- A method call has the arguments of the call that it replaces; a third one is put in parentheses. -/
theorem weigh_replacement? {f : Function} {args : List Text} {new : Text}
    (h : replacement? f args = some new) :
    weigh (load n) new ≤ (args.map (weigh (load n))).sum + (args.length - 1) * (n + 1) + 2 := by
  have hword : ∀ {t : Text} {k : Nat}, 44 ∉ t ∧ weigh (load 0) t = k → weigh (load n) t = k :=
    fun h => (weigh_load_of_not_mem h.1).trans h.2
  have hsample : weigh (load n) (".sample(" : Text) = 1 := hword (by rw [ofString_ofList]; decide)
  have hsampler : weigh (load n) samplerName = 0 := by
    unfold samplerName
    exact hword (by rw [ofString_ofList]; decide)
  have hopen : weigh (load n) ("(" : Text) = 1 := hword (by rw [ofString_ofList]; decide)
  have hclose : weigh (load n) (")" : Text) = 1 := hword (by rw [ofString_ofList]; decide)
  have hlevel : weigh (load n) ("level" : Text) = 0 := hword (by rw [ofString_ofList]; decide)
  have hbias : weigh (load n) ("bias" : Text) = 0 := hword (by rw [ofString_ofList]; decide)
  have hseparator : load n 44 = n ∧ load n 32 = 0 := ⟨rfl, rfl⟩
  cases args with
  | nil => cases h
  | cons surface rest =>
    simp only [replacement?] at h
    split at h
    · split at h <;> cases h <;>
        simp [sample, marked, intercalate, hsample, hsampler, hopen, hclose, hlevel, hbias,
          hseparator] <;> omega
    · cases h

theorem weigh_trims_le {args : List Range} {texts : List Text} (h : source.IsAscii)
    (hw : ∀ b, w b ≤ w' b) (htexts : args.mapM source.slice = .ok texts) :
    ((texts.map Text.trim).map (weigh w)).sum ≤ (args.map fun r => weigh w' (source.cut r)).sum := by
  have hall := forall₂_of_mapM htexts
  clear htexts
  induction hall with
  | nil => exact Nat.le_refl _
  | @cons r text args texts hslice _ ih =>
    obtain ⟨-, -, rfl⟩ := of_slice hslice
    rw [map_cons, map_cons, map_cons, sum_cons, sum_cons]
    exact Nat.add_le_add (Nat.le_trans (weigh_trim_le (h.cut r)) (weigh_mono hw _)) ih

/-- **A pass puts in no more delimiters than there are commas in the calls that it rewrites.** -/
theorem light_site? {f : Function} (h : source.IsAscii) {call : Call}
    (hcall : call ∈ Call.sites source.mask f.name) :
    (site? source f call).Yields fun s? => ∀ s ∈ s?, ∀ new ∈ s.replacement?,
      (Edit.mk s.range new).Light (load n) (load (n + 1)) source := by
  obtain ⟨hstart, hname, -⟩ := Call.bounds_of_mem_sites hcall
  unfold site?
  split
  · next closed hclosed =>
    intro s? hs? s hs new hnew
    obtain ⟨args, hargs, hs?⟩ := exists_of_bind hs?
    obtain ⟨texts, htexts, hs?⟩ := exists_of_bind hs?
    cases hs?
    cases hs
    obtain ⟨hlt, hlength⟩ := matching?_bounds hclosed
    obtain ⟨found, hfound, hsplit⟩ := splitArgs_arranged hlt (Nat.le_of_lt hlength)
    rw [← Except.ok.inj (hsplit.symm.trans hargs)] at htexts
    split at htexts
    · cases htexts
      cases hnew
    · have hcount := (forall₂_of_mapM htexts).length_eq
      have hinside := hfound.weigh_le (w := load (n + 1)) (u := source)
        fun k hk => (solid_at hk (by decide)).1
      have htrims := weigh_trims_le h (load_mono (Nat.le_add_right n 1)) htexts
      have hnew := weigh_replacement? (n := n) hnew
      have hparens := weigh_matching? (n := n + 1) hclosed
      have hcall := weigh_cut_split (w := load (n + 1)) (t := source) (Nat.le_trans hstart hname)
        (Nat.le_succ_of_le (Nat.le_of_lt hlt))
      refine ⟨by dsimp only; omega, ?_⟩
      rw [length_map, ← hcount] at hnew
      rw [show load (n + 1) 44 = n + 1 from rfl] at hinside
      dsimp only
      rw [hcall, hparens]
      omega
  · exact yields_pure (by simp)

theorem light_edits (h : source.IsAscii) : (sites source).Yields fun found =>
    ∀ e ∈ Sampling.edits found, e.Light (load n) (load (n + 1)) source := by
  intro found hfound e he
  obtain ⟨s, hs, he⟩ := mem_filterMap.mp he
  obtain ⟨new, hnew, rfl⟩ := Option.map_eq_some_iff.mp he
  obtain ⟨groups, hgroups, hfound⟩ := exists_of_bind hfound
  cases hfound
  obtain ⟨group, hgroup, hs⟩ := mem_flatten.mp hs
  obtain ⟨f, -, hgroup⟩ := exists_of_mem_mapM hgroups hgroup
  obtain ⟨found, hfound, hgroup⟩ := exists_of_bind hgroup
  cases hgroup
  obtain ⟨s?, hs?, hs⟩ := mem_filterMap.mp hs
  obtain ⟨call, hcall, hsite⟩ := exists_of_mem_mapM hfound hs?
  exact light_site? h hcall s? hsite s hs new hnew

theorem weigh_passes (h : source.IsAscii) {k : Nat} :
    (passes k source).Yields (weigh (load n) · ≤ weigh (load (n + k)) source) := by
  induction k generalizing source with
  | zero => exact yields_pure (Nat.le_refl _)
  | succ k ih =>
    intro target htarget
    obtain ⟨found, hfound, htarget⟩ := exists_of_bind htarget
    dsimp only at htarget
    split at htarget
    · cases htarget
      exact weigh_mono (load_mono (Nat.le_add_right n _)) source
    · obtain ⟨result, hresult, htarget⟩ := exists_of_bind htarget
      have hmade := (kind_isAscii.sampleEdits h).1 found hfound
      have hascii := (kind_isAscii.apply h hmade).1 result hresult
      refine Nat.le_trans (ih hascii target htarget) ?_
      exact Edit.weigh_apply (load_mono (Nat.le_succ _)) (light_edits h found hfound) result hresult

/-- **Eight passes put in at most eight delimiters for each comma.** -/
theorem weigh_lower (h : source.IsAscii) :
    (lower source).Yields fun r => weigh (load 0) r.2 ≤ weigh (load maxPasses) source := by
  intro r hr
  obtain ⟨found, -, hr⟩ := exists_of_bind hr
  obtain ⟨diagnostics, -, hr⟩ := exists_of_bind hr
  obtain ⟨target, htarget, hr⟩ := exists_of_bind hr
  cases hr
  have := weigh_passes (n := 0) h target htarget
  rwa [Nat.zero_add] at this

end Sampling

/-! Built-in functions. -/

theorem Builtin.light_rename {masked old new : Text} (hnew : weigh w new = 0) :
    ∀ e ∈ rename masked old new, e.Light w w t := by
  intro e he
  obtain ⟨c, hc, rfl⟩ := mem_map.mp he
  exact Edit.light_of_eq_zero (Call.bounds_of_mem_sites hc).1 hnew

theorem Builtin.weigh_lower {modulus : Modulus} :
    (lower modulus source).Yields fun r => weigh (load 0) r.2 ≤ weigh (load 0) source := by
  intro r hr
  obtain ⟨arctangents, harctangents, hr⟩ := exists_of_bind hr
  obtain ⟨result, hresult, hr⟩ := exists_of_bind hr
  cases hr
  refine Edit.weigh_apply (fun _ => Nat.le_refl _) (fun e he => ?_) result hresult
  rcases mem_append.mp he with he | he
  · rcases mem_append.mp he with he | he
    · exact light_rename (by cases modulus <;> rw [Modulus.functionName, ofString_ofList] <;> rfl) e he
    · obtain ⟨⟨old, new⟩, hmem, he⟩ := mem_flatMap.mp he
      have hnew : ∀ p ∈ renames, weigh (load 0) p.2 = 0 := by
        decide +kernel
      exact light_rename (hnew _ hmem) e he
  · have hatan := (@Kind.renameArctangent False source.mask).1 _ harctangents
    exact light_rename (by rw [ofString_ofList]; rfl) e (hatan he)

/-! Global variables. -/

namespace Global

/-- A declaration in the `constant` address space has the words of the one that it replaces. -/
theorem weigh_constant {head : Head} {cs : List Char} (h : head.From cs) {dims : Text}
    (hdims : head.dims? = some dims) :
    weigh (load 0) (head.constant dims) ≤ weigh (load 0) (ofChars cs) := by
  obtain ⟨type, typeDims, name, nameDims, hsublist, htype, htypeDims, hname, hnameDims⟩ := h
  refine Nat.le_trans ?_ (weigh_ofChars_le hsublist)
  have hmoved : weigh (load 0) dims ≤
      weigh (load 0) (ofChars typeDims) + weigh (load 0) (ofChars nameDims) := by
    obtain ⟨hdims, -⟩ := Option.filter_eq_some_iff.mp hdims
    split at hdims <;> cases hdims
    · next d hd _ =>
      rw [hd, Option.getD_some] at htypeDims
      rw [htypeDims]
      exact Nat.le_add_right_of_le (weigh_words_le typeDims)
    · next d _ hd =>
      rw [hd, Option.getD_some] at hnameDims
      rw [hnameDims]
      exact Nat.le_add_left_of_le (weigh_words_le nameDims)
    · exact Nat.zero_le _
  have hkeyword : weigh (load 0) ("constant " : Text) = 0 := by rw [ofString_ofList]; rfl
  have hspace : weigh (load 0) (" " : Text) = 0 := by rw [ofString_ofList]; rfl
  simp only [Head.constant, weigh_append, ofChars_append, htype, hname, hkeyword, hspace]
  omega

theorem light_constructorEdit? :
    (constructorEdit? source r).Yields fun e? => ∀ e ∈ e?, e.Light (load 0) (load 0) source := by
  have hnone : (pure none : Checked (Option Edit)).Yields fun e? =>
      ∀ e ∈ e?, e.Light (load 0) (load 0) source := yields_pure (by simp)
  refine Yields.bind (yields_self _) fun content hcontent => ?_
  obtain ⟨hr, -, -⟩ := of_slice hcontent
  split
  · exact hnone
  dsimp only
  generalize hopened : r.start + (content.takeWhile (· != 40)).length = opened
  split
  · next closed hclosed =>
    split
    · exact hnone
    next hstop =>
    refine Yields.bind (yields_self _) fun inner hinner => yields_pure fun e he => ?_
    obtain ⟨-, -, rfl⟩ := of_slice hinner
    cases he
    have hlt := (matching?_bounds hclosed).1
    have hclose : closed + 1 = r.stop := by simpa using hstop
    have hparens := weigh_matching? (n := 0) hclosed
    have hwhole := weigh_cut_split (w := load 0) (t := source) (i := r.start) (j := opened)
      (k := closed + 1) (by omega) (by omega)
    have hbraces : load 0 123 = 1 ∧ load 0 125 = 1 := ⟨rfl, rfl⟩
    refine ⟨hr, ?_⟩
    rw [show source.cut r = source.cut ⟨r.start, closed + 1⟩ by rw [hclose]]
    simp only [weigh_append, weigh_cons, weigh_nil, hbraces]
    omega
  · exact hnone

theorem light_lowerItem (h : source.IsAscii) (item : Item) :
    (lowerItem source item).Yields fun r => ∀ e ∈ r.2, e.Light (load 0) (load 0) source := by
  have hnone : (pure ([], []) : Checked (List Diagnostic × List Edit)).Yields
      fun r => ∀ e ∈ r.2, e.Light (load 0) (load 0) source := yields_pure (by simp)
  cases item with
  | statement start semicolon =>
    unfold lowerItem
    dsimp only
    split
    · exact hnone
    refine Yields.bind (yields_self _) fun headRange _ => ?_
    refine Yields.bind (yields_self _) fun text htext => ?_
    obtain ⟨hordered, -, rfl⟩ := of_slice htext
    split
    · next head hhead =>
      split
      · exact hnone
      split
      · next dims hdims =>
        refine Yields.bind (yields_self _) fun initializer _ => ?_
        refine Yields.bind light_constructorEdit? fun constructor? hconstructor => ?_
        refine yields_pure (forall_mem_cons.mpr ⟨⟨hordered, ?_⟩, ?_⟩)
        · have hconstant := weigh_constant (of_head hhead).1 hdims
          rw [weigh_ofChars_chars (h.mask.cut headRange)] at hconstant
          exact Nat.le_trans hconstant (weigh_mask_cut_le (load_space 0) source headRange)
        · exact fun e he => hconstructor e (Option.mem_toList.mp he)
      · exact hnone
    · exact hnone
  | _ => exact hnone

theorem weigh_lower (h : source.IsAscii) :
    (lower source).Yields fun r => weigh (load 0) r.2 ≤ weigh (load 0) source := by
  refine Yields.bind (yields_mapM fun item _ => light_lowerItem h item) fun results hresults => ?_
  refine Yields.bind (Edit.weigh_apply (fun _ => Nat.le_refl _) fun e he => ?_)
    fun _ hresult => yields_pure hresult
  obtain ⟨r, hr, he⟩ := mem_flatMap.mp he
  exact hresults r hr e he

end Global

/-! Parameters. -/

namespace Parameter

theorem weigh_unwords (ws : List Text) :
    weigh (load 0) (unwords ws) = (ws.map (weigh (load 0))).sum := by
  match ws with
  | [] => rfl
  | [word] => simp [unwords]
  | word :: next :: ws =>
    have ih := weigh_unwords (next :: ws)
    rw [unwords] at ih ⊢
    rw [intercalate_cons_cons, weigh_append, weigh_append, ih, map_cons, sum_cons]
    rfl

theorem weigh_declarator (word : Text) :
    weigh w (declarator word).1 + weigh w ((declarator word).2.getD []) = weigh w word := by
  rcases declarator_cases word with hword | ⟨name, rest, rfl, hword⟩ <;> rw [hword]
  · rfl
  · rw [weigh_append, Option.getD_some]

/-- The texts of a parameter are made of the words that declare it. -/
theorem weigh_declared {words : List Text} {type name : Text} {suffix : Option Text}
    (h : declared words = some (type, name, suffix)) :
    weigh (load 0) type + weigh (load 0) name + weigh (load 0) (suffix.getD []) =
      (words.map (weigh (load 0))).sum := by
  match words, h with
  | [only], h =>
    cases h
    simp
  | first :: second :: rest, h =>
    obtain ⟨front, last, hwords⟩ := (eq_nil_or_concat (first :: second :: rest)).resolve_left nofun
    have hlast : (first :: second :: rest).getLast (cons_ne_nil _ _) = last := by simp [hwords]
    have hfront : (first :: second :: rest).dropLast = front := by simp [hwords]
    have hsuffix := weigh_declarator (w := load 0) last
    unfold declared at h
    simp only [hlast, hfront, Option.some.injEq, Prod.mk.injEq] at h
    obtain ⟨rfl, hdeclarator⟩ := h
    rw [hdeclarator] at hsuffix
    rw [hwords, concat_eq_append, map_append, sum_append, map_singleton, sum_singleton, ← hsuffix,
      weigh_unwords, Nat.add_assoc]

theorem weigh_spaceReferences (t : Text) : weigh (load 0) (spaceReferences t) = weigh (load 0) t := by
  induction t with
  | nil => rfl
  | cons b t ih =>
    rw [spaceReferences, flatMap_cons, ← spaceReferences, weigh_append, ih, weigh_cons]
    split
    · next h => rw [beq_iff_eq.mp h]; rfl
    · rfl

theorem weigh_ofRange? {masked : Text} {p : Parameter} (h : masked.IsAscii)
    (hp : ofRange? masked r = .ok (some p)) :
    weigh (load 0) p.type + weigh (load 0) p.name + weigh (load 0) (p.arraySuffix.getD []) ≤
      weigh (load 0) (masked.cut r) := by
  obtain ⟨text, htext, hp⟩ := exists_of_bind hp
  obtain ⟨-, -, rfl⟩ := of_slice htext
  replace hp := Except.ok.inj hp
  unfold ofWords? at hp
  split at hp
  · cases hp
  obtain ⟨⟨type, name, suffix⟩, hdeclared, hp⟩ := Option.bind_eq_some_iff.mp hp
  cases hp
  rw [weigh_declared hdeclared, ← weigh_spaceReferences,
    ← ofChars_map_charOf (isAscii_spaceReferences (h.cut r))]
  refine Nat.le_trans ?_ (weigh_words_le _)
  rw [weigh_flatten]
  exact sum_le_of_sublist (filter_sublist.trans (takeQualifiers_sublist _ _ _))

/-- The edit of a parameter weighs no more than the parameter. -/
theorem light_edit? {p : Parameter} (h : source.IsAscii)
    (hp : ofRange? source.mask p.range = .ok (some p)) :
    ∀ e ∈ p.edit?, e.Light (load 0) (load 0) source := by
  obtain ⟨text, htext, -⟩ := exists_of_bind hp
  have hle := Nat.le_trans (weigh_ofRange? h.mask hp)
    (weigh_mask_cut_le (load_space 0) source p.range)
  have hthread : weigh (load 0) ("thread " : Text) = 0 := by rw [ofString_ofList]; rfl
  have hreference : weigh (load 0) ("& " : Text) = 0 := by rw [ofString_ofList]; rfl
  have hconst : weigh (load 0) ("const " : Text) = 0 := by rw [ofString_ofList]; rfl
  have hspace : weigh (load 0) (" " : Text) = 0 := by rw [ofString_ofList]; rfl
  have hlight : ∀ new ∈ [p.asReference, p.asValue],
      (Edit.mk p.range new).Light (load 0) (load 0) source := by
    refine forall_mem_cons.mpr ⟨⟨(of_slice htext).1, ?_⟩, forall_mem_singleton.mpr
      ⟨(of_slice htext).1, ?_⟩⟩
    · simp only [asReference, weigh_append, hthread, hreference]
      omega
    · have hname : weigh (load 0) (if p.name.isEmpty then [] else (" " : Text) ++ p.name) =
          weigh (load 0) p.name := by
        split
        · next hempty => rw [isEmpty_iff.mp hempty]
        · rw [weigh_append, hspace, Nat.zero_add]
      have hqualifier : weigh (load 0) (if p.isConst then ("const " : Text) else []) = 0 := by
        split
        · exact hconst
        · rfl
      simp only [asValue, weigh_append, hqualifier, hname]
      omega
  intro e he
  unfold edit? at he
  split at he
  · obtain ⟨-, he⟩ := Option.ite_none_left_eq_some.mp he
    cases he
    exact hlight _ (by simp)
  · obtain ⟨-, he⟩ := Option.ite_none_left_eq_some.mp he
    cases he
    exact hlight _ (by simp)
  · cases he
    exact hlight _ (by simp)
  · cases he
  · cases he

theorem weigh_lower (h : source.IsAscii) :
    (lower source).Yields fun r => weigh (load 0) r.2 ≤ weigh (load 0) source := by
  refine Yields.bind (Program.yields_functions source) fun functions hfunctions => ?_
  refine Yields.bind (Edit.weigh_apply (fun _ => Nat.le_refl _) fun e he => ?_)
    fun _ hresult => yields_pure hresult
  obtain ⟨f, hf, he⟩ := mem_flatMap.mp he
  obtain ⟨p, hp, he⟩ := mem_filterMap.mp he
  exact light_edit? h ((hfunctions f hf).2.2 p hp) e he

end Parameter

/-! Ambient values. -/

/-- The declaration of the value holds no delimiters. -/
def Ambient.Plain (a : Ambient) : Prop := weigh (load 0) a.declaration = 0

namespace Threading

variable {a : Ambient} {ambients : List Ambient} {overloads : Overloads} {users : List Nat}

theorem light_append {last? : Option Range} {openParen closeParen : Nat} {new : Text}
    (h : openParen < closeParen) (hnew : weigh (load 0) new = 0) :
    (Threading.append last? openParen closeParen new).Light (load 0) (load 0) t := by
  unfold Threading.append
  split
  · refine Edit.light_of_eq_zero (Nat.le_refl _) ?_
    have hseparator : weigh (load 0) (", " : Text) = 0 := by rw [ofString_ofList]; rfl
    exact (weigh_append _ _).trans (by rw [hseparator, hnew])
  · exact Edit.light_of_eq_zero h hnew

theorem light_callEdit? {masked name : Text} {c : Call} (ha : weigh (load 0) a.name = 0) :
    (callEdit? masked a users overloads name c).Yields fun e? =>
      ∀ e ∈ e?, e.Light (load 0) (load 0) t := by
  have hnone : (pure none : Checked (Option Edit)).Yields fun e? =>
      ∀ e ∈ e?, e.Light (load 0) (load 0) t := yields_pure (by simp)
  refine Yields.bind (yields_self _) fun called _ => ?_
  split
  · exact hnone
  split
  · next closeParen hclose =>
    refine Yields.bind (yields_self _) fun args _ => ?_
    refine Yields.bind (yields_self _) fun texts _ => ?_
    dsimp only
    split
    · refine yields_pure fun e he => ?_
      cases he
      exact light_append (matching?_bounds hclose).1 ha
    · exact hnone
  · exact hnone

theorem weigh_threadValue (h : source.IsAscii) (ha : a.Plain) :
    (threadValue source a users overloads).Yields (weigh (load 0) · ≤ weigh (load 0) source) := by
  have hname : weigh (load 0) a.name = 0 := by
    rw [Ambient.Plain, Ambient.declaration, weigh_append] at ha
    exact Nat.eq_zero_of_add_eq_zero_left ha
  refine Yields.bind (kind_isAscii.functions h).1 fun functions hfunctions => ?_
  refine Yields.bind (yields_self _) fun calls hcalls => ?_
  refine Edit.weigh_apply (fun _ => Nat.le_refl _) fun e he => ?_
  rcases mem_append.mp he with he | he
  · obtain ⟨⟨f, id⟩, hmem, he⟩ := mem_filterMap.mp he
    dsimp only at he
    split at he
    · obtain ⟨-, he⟩ := Option.ite_none_left_eq_some.mp he
      cases he
      exact light_append ((hfunctions f (of_mem_zip hmem).1).1 trivial).parens.1 ha
    · cases he
  · obtain ⟨edits, hedits, he⟩ := mem_flatten.mp he
    obtain ⟨name, -, hedits⟩ := exists_of_mem_mapM hcalls hedits
    obtain ⟨found, hfound, hedits⟩ := exists_of_bind hedits
    cases hedits
    obtain ⟨e?, he?, he⟩ := mem_filterMap.mp he
    obtain ⟨c, -, hc⟩ := exists_of_mem_mapM hfound he?
    exact light_callEdit? hname e? hc e he

theorem weigh_round (hmade : ∀ a ∈ ambients, a.Made IsAscii) (ha : ∀ a ∈ ambients, a.Plain)
    (h : source.IsAscii) : (round ambients source overloads).Yields fun r =>
      weigh (load 0) r.1 ≤ weigh (load 0) source := by
  induction ambients generalizing source overloads with
  | nil => exact yields_pure (Nat.le_refl _)
  | cons a ambients ih =>
    obtain ⟨hfirst, hmade⟩ := forall_mem_cons.mp hmade
    obtain ⟨hplain, ha⟩ := forall_mem_cons.mp ha
    refine Yields.bind (yields_self _) fun uses _ => ?_
    dsimp only
    split
    · exact ih hmade ha h
    · intro r hr
      obtain ⟨threaded, hthreaded, hr⟩ := exists_of_bind hr
      have hascii := (kind_isAscii.threadValue h hfirst).1 threaded hthreaded
      exact Nat.le_trans (ih hmade ha hascii r hr) (weigh_threadValue h hplain threaded hthreaded)

theorem weigh_rounds (hmade : ∀ a ∈ ambients, a.Made IsAscii) (ha : ∀ a ∈ ambients, a.Plain)
    (h : source.IsAscii) : (rounds ambients n source overloads).Yields
      (weigh (load 0) · ≤ weigh (load 0) source) := by
  induction n generalizing source overloads with
  | zero => exact yields_pure (Nat.le_refl _)
  | succ n ih =>
    refine Yields.bind (yields_self _) fun uses _ => ?_
    split
    · exact yields_pure (Nat.le_refl _)
    · intro target htarget
      obtain ⟨⟨next, after⟩, hround, htarget⟩ := exists_of_bind htarget
      have hascii := (kind_isAscii.round hmade h).1 (next, after) hround
      exact Nat.le_trans (ih hascii target htarget) (weigh_round hmade ha h (next, after) hround)

theorem weigh_lower {mode : Propagation} {maxRounds : Option Nat}
    (hmade : ∀ a ∈ ambients, a.Made IsAscii) (ha : ∀ a ∈ ambients, a.Plain) (h : source.IsAscii) :
    (lower mode ambients maxRounds source).Yields fun r =>
      weigh (load 0) r.2 ≤ weigh (load 0) source := by
  refine Yields.bind (yields_self _) fun functions _ => ?_
  refine Yields.bind (weigh_rounds hmade ha h) fun result hresult => ?_
  refine Yields.bind (yields_self _) fun uses _ => ?_
  exact Yields.bind (yields_self _) fun diagnostics _ => yields_pure hresult

end Threading

/-- **Behind the sampling calls no step puts in a delimiter** that it does not take out. -/
theorem Lowering.weigh_lowerText {s : Settings} (hmade : ∀ a ∈ s.ambients, a.Made IsAscii)
    (ha : ∀ a ∈ s.ambients, a.Plain) {step : Step}
    (hstep : step ∈ [Step.builtins, .globals, .parameters, .ambients]) (h : source.IsAscii) :
    (lowerText s step source).Yields fun r => weigh (load 0) r.2 ≤ weigh (load 0) source := by
  simp only [mem_cons, not_mem_nil, or_false] at hstep
  rcases hstep with rfl | rfl | rfl | rfl
  · exact Builtin.weigh_lower
  · exact Global.weigh_lower h
  · exact Parameter.weigh_lower h
  · exact Threading.weigh_lower hmade ha h

end GlslToMetal
