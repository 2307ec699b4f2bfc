import GlslToMetal.Proofs.Text.Bounds
import GlslToMetal.Proofs.Text.Removal

/-! The matches of a pattern, as a division of the characters: what stands before a match, the match,
and what stands behind it, in which the next match is found. -/

namespace GlslToMetal.Pattern

open List Text

variable {b c cs rest : List Char} {rs : List Range} {i : Nat} {before : Option Char}

theorem literal_eq_some {word : String} (h : literal word cs = some rest) : cs = word.toList ++ rest := by
  obtain ⟨hstarts, h⟩ := Option.ite_none_right_eq_some.mp h
  cases h
  rw [← String.length_toList]
  exact (prefix_iff_eq_append.mp (List.isPrefixOf_iff_prefix.mp hstarts)).symm

theorem oneOf_eq_some {words : List String} (h : oneOf words cs = some rest) :
    ∃ word ∈ words, cs = word.toList ++ rest := by
  obtain ⟨word, hword, h⟩ := exists_of_findSome?_eq_some h
  exact ⟨word, hword, literal_eq_some h⟩

theorem char_eq_some {p : Char → Bool} (h : char p cs = some rest) : ∃ c, cs = c :: rest ∧ p c := by
  cases cs with
  | nil => cases h
  | cons c cs =>
    obtain ⟨hc, h⟩ := Option.ite_none_right_eq_some.mp h
    cases h
    exact ⟨c, rfl, hc⟩

theorem run_eq_some {p : Char → Bool} (h : run p cs = some rest) : ∃ b, cs = b ++ rest := by
  obtain ⟨mid, hmid, rfl⟩ := Option.map_eq_some_iff.mp h
  obtain ⟨c, rfl, -⟩ := char_eq_some hmid
  exact ⟨c :: mid.takeWhile p, by rw [cons_append, takeWhile_append_dropWhile]⟩

theorem wordEnd_eq_some (h : wordEnd cs = some rest) : rest = cs := by
  obtain ⟨-, h⟩ := Option.ite_none_left_eq_some.mp h
  cases h
  rfl

/-- A pattern gives what stands behind at least one character. -/
def Advances (p : Pattern) : Prop :=
  ∀ before cs tail, p before cs = some tail → ∃ b, cs = b ++ tail ∧ b ≠ []

/-- No match begins in the characters `b`, which `c` follows. -/
def Misses (p : Pattern) (before : Option Char) (b c : List Char) : Prop :=
  ∀ x y, b = x ++ y → y ≠ [] → p (x.getLast?.or before) (y ++ c) = none

/-- The ranges divide characters that start at byte `i` and have the character `before` before
them: each is a match, no other one begins before it, and the next one is found behind it. -/
inductive Matches (p : Pattern) : Option Char → Nat → List Char → List Range → Prop where
  | nil {before : Option Char} {i : Nat} {cs : List Char} : Misses p before cs [] → Matches p before i cs []
  | cons {before : Option Char} {i : Nat} {a b c : List Char} {rs : List Range} :
      Misses p before a (b ++ c) → b ≠ [] → p (a.getLast?.or before) (b ++ c) = some c →
      Matches p b.getLast? (i + width a + width b) c rs →
      Matches p before i (a ++ b ++ c) (⟨i + width a, i + width a + width b⟩ :: rs)

theorem getLast?_cons_or (c : Char) (a : List Char) (before : Option Char) :
    (c :: a).getLast?.or before = a.getLast?.or (some c) := by
  cases a with
  | nil => rfl
  | cons d a => simp [getLast?_cons]

theorem misses_nil {p : Pattern} : Misses p before [] c := fun _ _ h hne =>
  absurd (append_eq_nil_iff.1 h.symm).2 hne

theorem Misses.cons {p : Pattern} {d : Char} (h : Misses p (some d) b c)
    (hnone : p before (d :: (b ++ c)) = none) :
    Misses p before (d :: b) c := by
  intro x y hxy hy
  cases x with
  | nil =>
    obtain rfl : d :: b = y := hxy
    exact hnone
  | cons e x =>
    obtain ⟨rfl, rfl⟩ := cons.inj hxy
    rw [getLast?_cons_or]
    exact h x y rfl hy

theorem Misses.append {p : Pattern} {a : List Char} (ha : Misses p before a (b ++ c))
    (hb : Misses p (a.getLast?.or before) b c) : Misses p before (a ++ b) c := by
  intro x y hxy hy
  rcases append_eq_append_iff.1 hxy with ⟨u, rfl, rfl⟩ | ⟨u, rfl, rfl⟩
  · rw [getLast?_append, Option.or_assoc]
    exact hb u y rfl hy
  · rcases eq_or_ne u [] with rfl | hu
    · simpa using hb [] b rfl hy
    · simpa using ha x u rfl hu

theorem Matches.prepend {p : Pattern} {d : Char} (hnone : p before (d :: cs) = none)
    (h : Matches p (some d) (i + d.utf8Size) cs rs) : Matches p before i (d :: cs) rs := by
  cases h with
  | nil hmisses => exact .nil (hmisses.cons (by rwa [append_nil]))
  | @cons _ _ a b c rs hmisses hb hp hrest =>
    have hwidth : i + d.utf8Size + width a = i + width (d :: a) := Nat.add_assoc _ _ _
    rw [← getLast?_cons_or d a before] at hp
    rw [hwidth] at hrest ⊢
    exact .cons (hmisses.cons (by rwa [← append_assoc])) hb hp hrest

theorem matchesFrom_skip (p : Pattern) (before : Option Char) (i : Nat) (b c : List Char) :
    matchesFrom p before i b.length (b ++ c) = matchesFrom p (b.getLast?.or before) (i + width b) 0 c := by
  induction b generalizing before i with
  | nil => rfl
  | cons d b ih => rw [cons_append, length_cons, matchesFrom, ih, getLast?_cons_or, width, Nat.add_assoc]

theorem matchesFrom_of_none {p : Pattern} (h : Misses p before b c) :
    matchesFrom p before i 0 (b ++ c) = matchesFrom p (b.getLast?.or before) (i + width b) 0 c := by
  induction b generalizing before i with
  | nil => rfl
  | cons d b ih =>
    have hnone : p before (d :: (b ++ c)) = none := h [] (d :: b) rfl (cons_ne_nil _ _)
    rw [cons_append, matchesFrom, hnone, getLast?_cons_or, width, ← Nat.add_assoc]
    refine ih fun x y hb hy => ?_
    rw [← getLast?_cons_or]
    exact h (d :: x) y (congrArg (d :: ·) hb) hy

theorem matchesFrom_of_some {p : Pattern} (hne : b ≠ []) (h : p before (b ++ c) = some c) :
    matchesFrom p before i 0 (b ++ c) = ⟨i, i + width b⟩ :: matchesFrom p (b.getLast?.or before)
      (i + width b) 0 c := by
  obtain ⟨d, b, rfl⟩ := exists_cons_of_ne_nil hne
  have hlength : (b ++ c).length + 1 - c.length = b.length + 1 := by
    rw [length_append]
    omega
  have htake : (d :: (b ++ c)).take (b.length + 1) = d :: b := by simp
  rw [cons_append] at h ⊢
  rw [matchesFrom, h]
  dsimp only
  rw [hlength, htake, Nat.add_sub_cancel, matchesFrom_skip, getLast?_cons_or, width, Nat.add_assoc]

/-- **The ranges that a search finds divide the characters.** -/
theorem Advances.matches {p : Pattern} (hp : p.Advances) (before : Option Char) (i : Nat) (cs : List Char) :
    Matches p before i cs (matchesFrom p before i 0 cs) := by
  -- A match skips to what it leaves, so the induction is on the number of characters.
  induction hn : cs.length using Nat.strong_induction_on generalizing before i cs with
  | _ n ih =>
    cases cs with
    | nil => exact .nil misses_nil
    | cons c cs =>
      cases hmatch : p before (c :: cs) with
      | none =>
        rw [matchesFrom, hmatch]
        exact .prepend hmatch (ih cs.length (by simp [← hn]) _ _ cs rfl)
      | some tail =>
        obtain ⟨b, hb, hne⟩ := hp before (c :: cs) tail hmatch
        rw [hb] at hmatch hn ⊢
        rw [matchesFrom_of_some hne hmatch, getLast?_eq_some_getLast hne, Option.some_or,
          ← getLast?_eq_some_getLast hne]
        have hpos := length_pos_iff.2 hne
        exact @Matches.cons p before i [] b tail _ misses_nil hne hmatch
          (ih tail.length (by rw [← hn, length_append]; omega) _ _ tail rfl)

/-- No match begins inside another, behind its first character. -/
def Apart (p : Pattern) : Prop := ∀ before b c, p before (b ++ c) = some c →
  ∀ x y, b = x ++ y → x ≠ [] → y ≠ [] → p (x.getLast?.or before) (y ++ c) = none

theorem Matches.exists_of_mem {p : Pattern} (h : Matches p before i cs rs) {r : Range} (hr : r ∈ rs) :
    ∃ a b c, cs = a ++ b ++ c ∧ p (a.getLast?.or before) (b ++ c) = some c ∧
      r = ⟨i + width a, i + width a + width b⟩ := by
  induction h with
  | nil => cases hr
  | @cons before i a b c rs _ hne hmatch _ ih =>
    rcases mem_cons.mp hr with rfl | hr
    · exact ⟨a, b, c, rfl, hmatch, rfl⟩
    · obtain ⟨a', b', c', rfl, hmatch', rfl⟩ := ih hr
      refine ⟨a ++ b ++ a', b', c', by simp, ?_, by simp only [width_append, Nat.add_assoc]⟩
      have hlast : (a ++ b ++ a').getLast?.or before = a'.getLast?.or b.getLast? := by
        rw [getLast?_append, getLast?_append, getLast?_eq_some_getLast hne, Option.some_or,
          Option.or_assoc, Option.some_or]
      rwa [hlast]

/-- A match starts at the start of a line or with no space, not with a newline, and ends at the end
of a line or before no space. -/
def Anchors (p : Pattern) : Prop :=
  ∀ before cs tail, p before cs = some tail → ∃ b, cs = b ++ tail ∧ b ≠ [] ∧
    (before.all (· == '\n') ∨ b.head? ≠ some ' ') ∧ b.head? ≠ some '\n' ∧
    (tail = [] ∨ b.getLast? = some '\n' ∨ tail.head? ≠ some ' ')

theorem Anchors.advances {p : Pattern} (h : p.Anchors) : p.Advances := by
  intro before cs tail hmatch
  obtain ⟨b, hcs, hne, -⟩ := h before cs tail hmatch
  exact ⟨b, hcs, hne⟩

theorem Matches.divided {p : Pattern} (h : Matches p before i cs rs) : Divided i (ofChars cs) rs := by
  induction h with
  | nil => exact .nil
  | cons _ _ _ _ ih =>
    rw [ofChars_append, ofChars_append, ← length_ofChars, ← length_ofChars] at *
    exact .cons ih

theorem head?_ofChars {c : Char} {cs : List Char} : ∃ b, (ofChars (c :: cs)).head? = some b ∧
    isContinuation b = false ∧ (b < 128 → c = charOf b) := by
  obtain ⟨b, tail, hc, hb, hascii, -⟩ := exists_utf8EncodeChar c
  refine ⟨b, by rw [ofChars_cons, hc]; rfl, hb, fun hlt => ?_⟩
  rw [hascii hlt] at hc
  exact eq_charOf hlt hc

theorem getLast?_ofChars_newline (h : cs.getLast? = some '\n') : (ofChars cs).getLast? = some newline := by
  obtain ⟨cs, rfl⟩ := getLast?_eq_some_iff.mp h
  rw [ofChars_append, getLast?_append]
  rfl

section

variable {t : Text} {x y : List Char} (h : t.mask = ofChars (x ++ y))
include h

theorem isBoundary_mask : t.mask.isBoundary (width x) := by
  rw [h, ofChars_append, ← length_ofChars]
  exact isBoundary_ofChars _ _

theorem before?_mask_newline (hlast : x.getLast? = some '\n') : before? t.mask (width x) = some newline := by
  rw [h, ofChars_append, ← length_ofChars, before?_append]
  exact getLast?_ofChars_newline hlast

theorem getElem?_mask_width : t.mask[width x]? = (ofChars y).head? := by
  rw [h, ofChars_append, ← length_ofChars, getElem?_append_right (Nat.le_refl _), Nat.sub_self,
    head?_eq_getElem?]

theorem exists_unspaced (hne : y ≠ []) (hhead : y.head? ≠ some ' ') : ∃ b ∈ t.mask[width x]?, b ≠ 32 := by
  rw [getElem?_mask_width h]
  cases y with
  | nil => exact absurd rfl hne
  | cons c y =>
    obtain ⟨b, hb, -, hascii⟩ := @head?_ofChars c y
    refine ⟨b, hb, ?_⟩
    rintro rfl
    exact hhead (congrArg some (hascii (by decide)))

theorem getElem?_mask_ne_newline (hhead : y.head? ≠ some '\n') : t.mask[width x]? ≠ some newline := by
  rw [getElem?_mask_width h]
  cases y with
  | nil => exact nofun
  | cons c y =>
    obtain ⟨b, hb, -, hascii⟩ := @head?_ofChars c y
    rw [hb]
    rintro ⟨⟩
    exact hhead (congrArg some (hascii (by decide)))

end

/-- **The matches in the mask of a text are anchored in the text.** -/
theorem Matches.anchored {p : Pattern} (hp : p.Anchors) {t : Text} {before : Option Char} {i : Nat}
    {cs : List Char} {rs : List Range} (h : Matches p before i cs rs) {pre : List Char}
    (hbefore : before = pre.getLast?) (hi : i = width pre) (ht : t.mask = ofChars (pre ++ cs)) :
    ∀ r ∈ rs, Anchored t r ∧ t.mask.isBoundary r.start ∧ t.mask.isBoundary r.stop := by
  induction h generalizing pre with
  | nil => simp
  | @cons before i a b c rs _ hne hmatch _ ih =>
    subst hbefore hi
    obtain ⟨b', hb', -, hstart, hsolid, hstop⟩ := hp _ _ _ hmatch
    obtain rfl := append_cancel_right hb'
    have hlast : a.getLast?.or pre.getLast? = (pre ++ a).getLast? := getLast?_append.symm
    rw [hlast] at hstart
    have hfront : t.mask = ofChars ((pre ++ a) ++ (b ++ c)) := by rw [ht]; simp only [append_assoc]
    have hback : t.mask = ofChars ((pre ++ a ++ b) ++ c) := by rw [ht]; simp only [append_assoc]
    have hfrontWidth : width (pre ++ a) = width pre + width a := width_append _ _
    have hbackWidth : width (pre ++ a ++ b) = width pre + width a + width b := by
      rw [width_append, hfrontWidth]
    have hbackLast : (pre ++ a ++ b).getLast? = b.getLast? := by
      rw [getLast?_append, getLast?_eq_some_getLast hne]
      rfl
    have hhead : (b ++ c).head? = b.head? := by
      cases b with
      | nil => exact absurd rfl hne
      | cons d b => rfl
    refine forall_mem_cons.mpr ⟨⟨⟨?_, ?_, ?_⟩, ?_, ?_⟩, ih hbackLast.symm hbackWidth.symm hback⟩
    · rw [← hfrontWidth]
      rcases hstart with hline | hspace
      · cases hbefore : (pre ++ a).getLast? with
        | none =>
          rw [getLast?_eq_none_iff.mp hbefore]
          exact .inl rfl
        | some d =>
          rw [hbefore, Option.all_some, beq_iff_eq] at hline
          exact .inr (.inl (before?_mask_newline hfront (hline ▸ hbefore)))
      · exact .inr (.inr (exists_unspaced hfront (by simp [hne]) (hhead ▸ hspace)))
    · rw [← hfrontWidth]
      exact getElem?_mask_ne_newline hfront (hhead ▸ hsolid)
    · rw [← hbackWidth]
      by_cases hc : c = []
      · refine .inl ?_
        rw [← length_mask, hback, hc, append_nil, length_ofChars]
      · rcases hstop with hnil | hnewline | hspace
        · exact absurd hnil hc
        · exact .inr (.inl (before?_mask_newline hback (hbackLast.trans hnewline)))
        · exact .inr (.inr (exists_unspaced hback hc hspace))
    · rw [← hfrontWidth]
      exact isBoundary_mask hfront
    · rw [← hbackWidth]
      exact isBoundary_mask hback

/-- **The matches of a pattern can be taken out of a text in UTF-8**, and leave one. -/
theorem Anchors.apply_codeEdits {p : Pattern} (hp : p.Anchors) {t : Text} {ds : List Char}
    (ht : t = ofChars ds) :
    Divided 0 t (p.ranges t.mask) ∧ (∀ r ∈ p.ranges t.mask, Anchored t r) ∧
      Edit.apply (p.codeEdits t fun _ => []) t = .ok (t.without (p.ranges t.mask)) ∧
      ∃ es, t.without (p.ranges t.mask) = ofChars es := by
  obtain ⟨cs, hcs⟩ := exists_maskFrom_ofChars (Place.fits_code (ofChars ds).head?)
  have hmask : t.mask = ofChars cs := by rw [ht, mask, hcs]
  have hranges : p.ranges t.mask = matchesFrom p none 0 0 cs := by
    rw [ranges, hmask, chars_ofChars]
  have hmatches := hp.advances.matches none 0 cs
  rw [← hranges] at hmatches
  have hdivided : Divided 0 t (p.ranges t.mask) :=
    hmatches.divided.of_length (by rw [← hmask, length_mask])
  have hanchored := @Matches.anchored p hp t none 0 cs _ hmatches [] rfl rfl hmask
  have hboundary : ∀ r ∈ p.ranges t.mask, t.isBoundary r.start ∧ t.isBoundary r.stop := by
    intro r hr
    obtain ⟨hanchor, hstart, hstop⟩ := hanchored r hr
    have hbounds := hdivided.bounds r hr
    refine ⟨isBoundary_of_mask ht (by omega) hstart ?_, isBoundary_of_mask ht (by omega) hstop ?_⟩
    · exact hanchor.start.imp_right .inr
    · exact .inr hanchor.stop
  exact ⟨hdivided, fun r hr => (hanchored r hr).1, hdivided.apply ht hboundary⟩

end GlslToMetal.Pattern
