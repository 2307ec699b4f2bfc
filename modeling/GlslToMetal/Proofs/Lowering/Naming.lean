import GlslToMetal.Proofs.Builtin

/-! Types and functions by their Metal names. A renamed call changes no token that spells a type: the
tokens of the text are bounded by characters that stand between its words, which stay, and no new name
of a function is part of the name of a type. So a program whose types and functions have their Metal
names is left as it is by both steps. -/

namespace GlslToMetal

open List Text
open Unicode (isWordChar)

variable {c : Char} {cs : List Char} {modulus : Modulus} {g r s : Text}

namespace Text.Spelled

variable {R : Text → Text → Prop}

theorem exists_of_gap (h : Spelled R (g ++ r) s) (hg : ∀ b ∈ g, isWordByte b = false) :
    ∃ r', s = g ++ r' ∧ Spelled R r r' := by
  induction g generalizing s with
  | nil => exact ⟨s, rfl, h⟩
  | cons b g ih =>
    obtain ⟨hb, hg⟩ := forall_mem_cons.1 hg
    obtain ⟨a', t', rfl, ha, ht⟩ := exists_of_append_cons (a := []) h hb
    obtain ⟨r', rfl, hr⟩ := ih ht hg
    exact ⟨r', by simp [ha.eq_nil], hr⟩

theorem exists_of_append_gap {a : Text} (h : Spelled R (a ++ (g ++ r)) s) (hg : ∀ b ∈ g, isWordByte b = false)
    (hne : g ≠ []) : ∃ a' r', s = a' ++ (g ++ r') ∧ Spelled R a a' ∧ Spelled R r r' := by
  obtain ⟨b, g, rfl⟩ := exists_cons_of_ne_nil hne
  obtain ⟨hb, hg⟩ := forall_mem_cons.1 hg
  obtain ⟨a', t', rfl, ha, ht⟩ := exists_of_append_cons h hb
  obtain ⟨r', rfl, hr⟩ := ht.exists_of_gap hg
  exact ⟨a', r', rfl, ha, hr⟩

end Text.Spelled

namespace Pattern

theorem eq_none_of_matchesFrom {p : Pattern} {before : Option Char} {i : Nat} {x y : List Char}
    (h : matchesFrom p before i 0 (x ++ y) = []) (hne : y ≠ []) : p (x.getLast?.or before) y = none := by
  induction x generalizing before i with
  | nil =>
    obtain ⟨c, y, rfl⟩ := exists_cons_of_ne_nil hne
    simp only [nil_append, matchesFrom] at h
    split at h
    · next hnone => simpa using hnone
    · cases h
  | cons c x ih =>
    simp only [cons_append, matchesFrom] at h
    split at h
    · rw [getLast?_cons_or]
      exact ih h
    · cases h

end Pattern

namespace TypeName

open Pattern

/-- A token of the characters spells a type. -/
def Spells (cs : List Char) : Prop :=
  ∃ a g z, cs = a ++ (g ++ z) ∧ (renamed? g).isSome ∧ a.getLast?.any isWordChar = false ∧
    z.head?.any isWordChar = false

theorem advances_pattern : pattern.Advances := by
  intro before cs tail h
  obtain ⟨-, -, g, hg, rfl⟩ := pattern_eq_some h
  obtain ⟨new, hnew⟩ := Option.isSome_iff_exists.1 hg
  exact ⟨g, rfl, (line_of_renamed? hnew).ne_nil⟩

theorem ranges_eq_nil_iff (cs : List Char) : pattern.ranges (ofChars cs) = [] ↔ ¬ Spells cs := by
  unfold Pattern.ranges
  rw [chars_ofChars]
  constructor
  · rintro h ⟨a, g, z, rfl, hg, ha, hz⟩
    obtain ⟨new, hnew⟩ := Option.isSome_iff_exists.1 hg
    have hnone := eq_none_of_matchesFrom h (append_ne_nil_of_left_ne_nil (line_of_renamed? hnew).ne_nil z)
    rw [Option.or_none] at hnone
    have hsome := isSome_pattern ha hg hz
    rw [hnone] at hsome
    cases hsome
  · intro h
    refine eq_nil_iff_forall_not_mem.2 fun r hr => h ?_
    obtain ⟨a, b, c, rfl, hb, -⟩ := (advances_pattern.matches none 0 cs).exists_of_mem hr
    rw [Option.or_none] at hb
    obtain ⟨ha, hc, g, hg, hsplit⟩ := pattern_eq_some hb
    exact ⟨a, g, c, by rw [append_assoc, hsplit], hg, ha, hc⟩

theorem utf8EncodeChar_ne_nil (c : Char) : String.utf8EncodeChar c ≠ [] := by
  obtain ⟨first, tail, hbytes, -⟩ := exists_utf8EncodeChar c
  rw [hbytes]
  exact cons_ne_nil first tail

theorem ofChars_singleton (c : Char) : ofChars [c] = String.utf8EncodeChar c := append_nil _

theorem isWordByte_of_isWordChar (hc : isWordChar c = false) :
    ∀ b ∈ String.utf8EncodeChar c, isWordByte b = false := by
  intro b hb
  by_contra hword
  have hword : isWordByte b := by simpa using hword
  have hlt := lt_of_isWordByte hword
  rw [← ofChars_singleton] at hb
  rw [← mem_singleton.1 (charOf_mem_of_ofChars hlt hb), isWordChar_charOf hlt, hword] at hc
  cases hc

theorem exists_cons_of_ofChars {y : Text} (h : ofChars cs = String.utf8EncodeChar c ++ y) :
    ∃ ds, cs = c :: ds ∧ y = ofChars ds := by
  have hcs : cs = c :: y.chars := by
    rw [← chars_ofChars cs, h, chars, decodeFrom_utf8EncodeChar]
    rfl
  rw [hcs, ofChars_cons, append_cancel_left_eq] at h
  exact ⟨y.chars, hcs, h.symm⟩

theorem not_isContinuation_head (c : Char) (y : Text) :
    ∀ b ∈ (String.utf8EncodeChar c ++ y).head?, isContinuation b = false := by
  obtain ⟨first, tail, hbytes, hfirst, -, -⟩ := exists_utf8EncodeChar c
  rw [hbytes]
  rintro b ⟨⟩
  exact hfirst

theorem exists_concat_of_ofChars {x : Text} (h : ofChars cs = x ++ String.utf8EncodeChar c) :
    ∃ ds, cs = ds ++ [c] := by
  rw [← append_nil (String.utf8EncodeChar c)] at h
  obtain ⟨a, z, rfl, -, hz⟩ := exists_ofChars_append h (.inr (not_isContinuation_head c []))
  obtain ⟨ds, rfl, hds⟩ := exists_cons_of_ofChars hz.symm
  obtain rfl : ds = [] := by
    by_contra hne
    exact ofChars_ne_nil hne hds.symm
  exact ⟨a, rfl⟩

/-- **A text whose words are respelled spells a type only if it did before**, or if a new spelling is
that of a type. -/
theorem Spells.of_spelled {R : Text → Text → Prop} {ds : List Char} (h : Spelled R (ofChars cs) (ofChars ds))
    (hR : ∀ {g : List Char} {w : Text}, (renamed? g).isSome → ¬ R (ofChars g) w) (hcs : Spells cs) :
    Spells ds := by
  obtain ⟨a, g, z, rfl, hg, ha, hz⟩ := hcs
  obtain ⟨new, hnew⟩ := Option.isSome_iff_exists.1 hg
  have hword : IsWord (ofChars g) := by
    obtain ⟨hne, hall⟩ := (line_of_renamed? hnew).isWord
    exact ⟨hne, all_eq_true.1 hall⟩
  have hends : EndsWord (ofChars a) := by
    rcases eq_nil_or_concat a with rfl | ⟨a, c, rfl⟩
    · exact fun b hb => by cases hb
    · rw [concat_eq_append, getLast?_concat, Option.any_some] at ha
      intro b hb
      rw [concat_eq_append, ofChars_append, ofChars_singleton,
        getLast?_append_of_ne_nil _ (utf8EncodeChar_ne_nil c)] at hb
      exact isWordByte_of_isWordChar ha b (mem_of_getLast? hb)
  -- What stands behind the token begins with the same character.
  obtain ⟨x, z', hds, hx, hz'⟩ : ∃ x z', ofChars ds = x ++ ofChars z' ∧ Spelled R (ofChars a ++ ofChars g) x ∧
      z'.head?.any isWordChar = false := by
    rw [ofChars_append, ofChars_append, ← append_assoc] at h
    cases z with
    | nil => exact ⟨ofChars ds, [], by simp [ofChars], by simpa [ofChars] using h, rfl⟩
    | cons c z =>
      rw [head?_cons, Option.any_some] at hz
      obtain ⟨x, r, hds, hx, -⟩ :=
        h.exists_of_append_gap (isWordByte_of_isWordChar hz) (utf8EncodeChar_ne_nil c)
      obtain ⟨p, q, -, -, hq⟩ := exists_ofChars_append hds (.inr (not_isContinuation_head c r))
      obtain ⟨q, rfl, -⟩ := exists_cons_of_ofChars hq.symm
      exact ⟨x, c :: q, hds.trans (by rw [hq]), hx, hz⟩
  obtain ⟨p, w, rfl, hp, hw⟩ := hx.exists_of_append_word hends hword
  obtain rfl := hw.resolve_right (hR hg)
  -- What stands before it ends with the same character.
  have hfirst : ∀ b ∈ (ofChars g ++ ofChars z').head?, isContinuation b = false := by
    intro b hb
    rw [head?_append_of_ne_nil _ hword.1] at hb
    exact isContinuation_of_lt (isCode_of_isWordByte (hword.2 b (mem_of_mem_head? hb))).1
  obtain ⟨a', -, -, rfl, -⟩ := exists_ofChars_append (hds.trans (append_assoc _ _ _)) (.inr hfirst)
  refine ⟨a', g, z', ?_, hg, ?_, hz'⟩
  · exact ofChars_injective (by simpa [ofChars_append] using hds)
  · rcases eq_nil_or_concat a with rfl | ⟨a, c, rfl⟩
    · obtain rfl : a' = [] := by
        by_contra hne
        exact ofChars_ne_nil hne hp.eq_nil
      rfl
    · rw [concat_eq_append, ofChars_append, ofChars_singleton, ← append_nil (String.utf8EncodeChar c)] at hp
      rw [concat_eq_append, getLast?_concat, Option.any_some] at ha
      obtain ⟨q, r, hq, -, hr⟩ :=
        hp.exists_of_append_gap (isWordByte_of_isWordChar ha) (utf8EncodeChar_ne_nil c)
      rw [hr.eq_nil, append_nil] at hq
      obtain ⟨b, rfl⟩ := exists_concat_of_ofChars hq
      rw [getLast?_concat, Option.any_some, ha]

end TypeName

namespace Builtin

theorem replacement_ne {m : Text} {e : Edit} (he : e ∈ renamings modulus m) {g : List Char}
    (hg : (TypeName.renamed? g).isSome) : ofChars g ≠ e.replacement := by
  have htable : ∀ line ∈ table modulus, TypeName.renamed? line.2.chars = none := by
    cases modulus <;> decide +kernel
  have hnone : TypeName.renamed? e.replacement.chars = none := by
    rcases mem_renamings.1 he with ⟨line, hline, c, -, rfl⟩ | ⟨c, -, -, rfl⟩
    · exact htable line hline
    · exact (by decide +kernel : TypeName.renamed? (chars "atan2") = none)
  intro heq
  rw [← heq, chars_ofChars] at hnone
  rw [hnone] at hg
  cases hg

/-- **Types that have their Metal names keep them when calls are renamed.** -/
theorem lower_typed {u v : Text} {ds : List Diagnostic} (hu : u.Encoded)
    (htyped : TypeName.pattern.ranges u.mask = []) (h : lower modulus u = .ok (ds, v)) :
    TypeName.lower v = .ok v := by
  obtain ⟨target, hlower, -, hreplaces⟩ := lower_eq modulus hu
  obtain ⟨rfl, rfl⟩ := Prod.mk.inj (Except.ok.inj (h.symm.trans hlower))
  obtain ⟨cs, hcs⟩ := hu.mask
  obtain ⟨cs', hcs'⟩ : v.mask.Encoded := Encoded.mask ((kind_encoded.builtins hu).1 _ h)
  rw [hcs] at htyped
  refine TypeName.lower_of_ranges ?_
  rw [hcs', TypeName.ranges_eq_nil_iff]
  -- Read backwards, only new names of functions are respelled.
  have hspelled : Spelled (fun new _ => ∃ e ∈ renamings modulus u.mask, new = e.replacement) v.mask u.mask :=
    (hreplaces.respelled fun e he _ _ => ⟨e, he, rfl⟩).symm
  rw [hcs, hcs'] at hspelled
  refine fun hspells => (TypeName.ranges_eq_nil_iff cs).1 htyped (hspells.of_spelled hspelled ?_)
  rintro g - hg ⟨e, he, heq⟩
  exact replacement_ne (hcs ▸ he) hg heq

/-- **Calls of built-in functions are renamed once, and all of them.** -/
theorem lower_renames_calls (modulus : Modulus) (source : String) :
    ∃ ds target es, lower modulus source = .ok (ds, target) ∧
      (∀ n ∈ oldNames, Call.sites target.mask n = []) ∧
      (∀ c ∈ Call.sites target.mask "atan", c.arity? target.mask ≠ some 2) ∧
      (∀ k, k ≠ some 2 → ((Call.sites target.mask "atan").filter (·.arity? target.mask = k)).length =
        ((Call.sites (Text.ofString source).mask "atan").filter
          (·.arity? (Text.ofString source).mask = k)).length) ∧
      Edit.Splices 0 source es target ∧ Edit.Splices 0 (Text.ofString source).mask es target.mask ∧
      (∀ e, e ∈ es ↔ Renaming modulus (Text.ofString source).mask e) ∧
      (∀ modulus', lower modulus' target = .ok ([], target)) ∧
      ∃ typed ds' named, TypeName.lower source = .ok typed ∧ lower modulus typed = .ok (ds', named) ∧
        TypeName.lower named = .ok named ∧ ∀ modulus', lower modulus' named = .ok ([], named) := by
  have hsource := encoded_ofString source
  obtain ⟨target, hlower, hsplices, hreplaces⟩ := lower_eq modulus hsource
  obtain ⟨ms, hmask⟩ : (ofChars source.toList).mask.Encoded := hsource.mask
  have htyped := TypeName.lower_ofChars hmask
  have hencoded := (kind_encoded.types hsource).1 _ htyped
  obtain ⟨named, hnamed, -, -⟩ := lower_eq modulus hencoded
  refine ⟨_, target, _, hlower, fun n => sites_eq_nil hreplaces, fun c => arity?_ne_two hreplaces,
    fun k => length_atan hreplaces, hsplices, hreplaces.splices, fun e => mem_renamings,
      lower_again hsource hlower,
    _, _, named, htyped, hnamed, lower_typed hencoded ?_ hnamed, lower_again hencoded hnamed⟩
  rw [TypeName.mask_respell hmask, TypeName.ranges_rename]

end Builtin

end GlslToMetal
