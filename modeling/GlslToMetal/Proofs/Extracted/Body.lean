import GlslToMetal.Fragment
import GlslToMetal.Proofs.Item.Trimming
import GlslToMetal.Proofs.Pattern
import GlslToMetal.Proofs.Text.Cutting

/-! The body of an entry point. A bare return is found in the masked body, from the code of its first
byte to the code of its `;`, so what replaces it leaves every comment around it as it is, and the
braces of the body stay balanced. -/

namespace GlslToMetal

open List Text Item

variable {cs : List Char} {before : Option Char} {next : Option UInt8} {t : Text}

namespace Extracted

open Pattern Unicode

theorem bareReturn_eq_some {tail : List Char} (h : bareReturn before cs = some tail) : atWordStart before ∧
    ∃ ws, cs = 'r' :: ("eturn".toList ++ ws ++ [';']) ++ tail ∧ ∀ c ∈ ws, isWhiteSpace c := by
  obtain ⟨u, hbefore, h⟩ := Option.bind_eq_some_iff.mp h
  obtain ⟨rest, hrest, h⟩ := Option.bind_eq_some_iff.mp h
  obtain ⟨c, hc, hsemi⟩ := char_eq_some h
  refine ⟨(Option.guard_eq_some' u).1 hbefore, rest.takeWhile isWhiteSpace, ?_, fun c hc =>
    mem_takeWhile_imp hc⟩
  have hsplit := takeWhile_append_dropWhile (p := isWhiteSpace) (l := rest)
  rw [hc, beq_iff_eq.mp hsemi] at hsplit
  rw [literal_eq_some hrest]
  conv => lhs; rw [← hsplit]
  simp [append_assoc]

theorem advances_bareReturn : Advances bareReturn := by
  intro before cs tail h
  obtain ⟨-, ws, hcs, -⟩ := bareReturn_eq_some h
  exact ⟨_, hcs, by simp⟩

theorem bareReturn_append {ws : List Char} (hbefore : atWordStart before)
    (hws : ∀ c ∈ ws, isWhiteSpace c) (tail : List Char) :
    bareReturn before ('r' :: ("eturn".toList ++ ws ++ [';']) ++ tail) = some tail := by
  have hliteral : literal "return" ('r' :: ("eturn".toList ++ ws ++ [';']) ++ tail) =
      some (ws ++ ';' :: tail) := by
    simp [literal, show "return".length = 6 from rfl]
  have hwhite : isWhiteSpace ';' = false := by decide
  rw [bareReturn, hliteral]
  simp [guard, hbefore, dropWhile_append_of_pos hws, hwhite, char]

/-- A word that begins like `return` is no part of a bare return before it, so what comes behind its
beginning decides nothing about a match there. -/
theorem misses_of_word {a z : List Char} (h : Misses bareReturn before a ('r' :: 'e' :: z)) (z' : List Char) :
    Misses bareReturn before a ('r' :: 'e' :: z') := by
  intro x y ha hy
  rw [Option.eq_none_iff_forall_ne_some]
  intro tail hmatch
  obtain ⟨hbefore, ws, hcs, hws⟩ := bareReturn_eq_some hmatch
  have hr : 'r' ∉ ws ++ [';'] := by simpa using fun h => absurd (hws _ h) (by decide)
  obtain ⟨u, rfl⟩ : ∃ u, y = 'r' :: ("eturn".toList ++ ws ++ [';']) ++ u := by
    rcases append_eq_append_iff.1 hcs with ⟨u, hu, htail⟩ | ⟨u, hu, -⟩
    · cases u with
      | nil => exact ⟨[], by rw [hu, append_nil, append_nil]⟩
      | cons d u =>
        -- The word would have to begin inside the bare return, behind its first character.
        obtain ⟨rfl, htail⟩ := cons.inj htail
        obtain ⟨c, y, rfl⟩ := exists_cons_of_ne_nil hy
        rw [cons_append, append_assoc] at hu
        obtain ⟨-, hu⟩ := cons.inj hu
        rcases y with - | ⟨_, - | ⟨_, - | ⟨_, - | ⟨_, - | ⟨_, y⟩⟩⟩⟩⟩ <;> simp at hu
        · obtain ⟨-, -, -, rfl⟩ := hu
          simp at htail
        · exact absurd (hu.2.2.2.2.2 ▸ by simp) hr
    · exact ⟨u, hu⟩
  have hnone := h x _ ha hy
  rw [append_assoc, bareReturn_append hbefore hws] at hnone
  cases hnone

/-- The bytes of a bare return: code at both ends, and no braces. -/
theorem ofChars_bareReturn {ws : List Char} (hws : ∀ c ∈ ws, isWhiteSpace c) :
    ∃ x, ofChars ('r' :: ("eturn".toList ++ ws ++ [';'])) = 114 :: (x ++ [59]) ∧
      ∀ depth, State.bracesBehind? depth (114 :: (x ++ [59])) = some depth := by
  refine ⟨ofChars "eturn".toList ++ ofChars ws, ?_, fun depth => ?_⟩
  · rw [ofChars_cons, ofChars_append, ofChars_append]
    rfl
  · have hword : ofChars "eturn".toList = [101, 116, 117, 114, 110] := rfl
    have hbrace : ∀ b, isWhiteByte b = false → b ∉ ofChars ws := fun b hb hmem => by
      rw [isWhiteByte_of_mem hws b hmem] at hb
      cases hb
    refine State.bracesBehind?_of_not_mem ?_ ?_ depth
    · rw [hword]
      simp [hbrace 123 rfl]
    · rw [hword]
      simp [hbrace 125 rfl]

/-- A text that may stand in place of a bare return. -/
structure Replaces (new : Text) : Prop where
  head : new.head? = some 114
  slash : 47 ∉ new
  braces : 123 ∉ new ∧ 125 ∉ new

/-- **Bare returns can be replaced**: the comments stay where they are, and so do the braces. -/
theorem exists_filled {new : Text} (hnew : Replaces new) {i : Nat}
    {rs : List Range} (h : Matches bareReturn before i cs rs) {p p' : Text.Place}
    {ds : List Char} (ht : t = ofChars ds) (hmask : maskUpTo p next t = (ofChars cs, p')) :
    ∃ t' x, Filled new i t rs t' ∧ maskUpTo p next t' = (x, p') ∧
      (∀ depth, State.bracesBehind? depth x = State.bracesBehind? depth (ofChars cs)) ∧
      (∀ r ∈ rs, t.isBoundary (r.start - i) ∧ t.isBoundary (r.stop - i)) ∧
      ∀ ns, new = ofChars ('r' :: 'e' :: ns) → ns.getLast? = some ';' →
        (∀ before z, Misses bareReturn before ('r' :: 'e' :: ns) z) → ∃ xs, x = ofChars xs ∧
          Misses bareReturn before xs [] := by
  induction h generalizing p t ds with
  | nil hmisses => exact ⟨t, _, .nil, hmask, fun _ => rfl, by simp, fun _ _ _ _ => ⟨_, rfl, hmisses⟩⟩
  | @cons before i a b c rs hmisses hne hmatch hrest ih =>
    obtain ⟨-, ws, hb, hws⟩ := bareReturn_eq_some hmatch
    obtain rfl := append_cancel_right hb
    obtain ⟨x, hx, hbraces⟩ := ofChars_bareReturn hws
    rw [ofChars_append, ofChars_append, hx, append_assoc] at hmask
    obtain ⟨ta, u, q, rfl, hta, hu⟩ := exists_of_maskUpTo hmask
    obtain ⟨tb, tc, q', rfl, htb, htc⟩ := exists_of_maskUpTo hu
    obtain ⟨rfl, hhead⟩ := solid_head (by decide) (congrArg Prod.fst htb)
    obtain ⟨hq', hlast⟩ := @solid_last _ _ _ (114 :: x) 59 (by decide) (congrArg Prod.fst htb)
    rw [htb] at hq'
    subst hq'
    obtain ⟨d₁, d₂, rfl, rfl, hd₂⟩ := exists_ofChars_append ht.symm
      (.inr (by rw [head?_append, hhead, Option.some_or]; decide +kernel))
    obtain ⟨d₃, d₄, rfl, rfl, rfl⟩ := exists_ofChars_append hd₂.symm (.inl (by rw [hlast]; decide +kernel))
    obtain ⟨tc', xc, hfilled, hmask', hdepth, hbounds, hnone⟩ := ih rfl htc
    have ha : width a = (ofChars d₁).length := by
      rw [← length_ofChars, ← length_of_maskUpTo hta]
    have hb : width ('r' :: ("eturn".toList ++ ws ++ [';'])) = (ofChars d₃).length := by
      rw [← length_ofChars, hx, ← length_of_maskUpTo htb]
    rw [ha, hb] at hfilled hbounds ⊢
    refine ⟨ofChars d₁ ++ new ++ tc', ofChars a ++ (new ++ xc), ?_, ?_, fun depth => ?_, ?_,
      fun ns hns hlast' hmissesNew => ?_⟩
    · rw [← append_assoc]
      exact .cons hfilled
    · have hsame : ((new ++ tc').head?.or next) = ((ofChars d₃ ++ ofChars d₄).head?.or next) := by
        rw [head?_append, head?_append, hnew.head, hhead]
        rfl
      rw [append_assoc, maskUpTo_append, hsame, hta, maskUpTo_append, maskUpTo_code hnew.slash, hmask']
    · rw [ofChars_append, ofChars_append, hx, append_assoc]
      simp only [State.bracesBehind?_append]
      congr 1
      funext depth
      rw [State.bracesBehind?_of_not_mem hnew.braces.1 hnew.braces.2, hbraces]
      exact hdepth depth
    · refine forall_mem_cons.mpr ⟨⟨?_, ?_⟩, fun r hr => ?_⟩
      · rw [Nat.add_sub_cancel_left, ← ofChars_append]
        exact isBoundary_ofChars _ _
      · rw [Nat.add_assoc, Nat.add_sub_cancel_left, ← append_assoc, ← length_append]
        exact isBoundary_ofChars _ _
      · obtain ⟨hle, hle', -⟩ := hfilled.divided.bounds r hr
        have hshift : ∀ {j : Nat}, i + (ofChars d₁).length + (ofChars d₃).length ≤ j →
            j - i = (ofChars d₁ ++ ofChars d₃).length +
              (j - (i + (ofChars d₁).length + (ofChars d₃).length)) := by
          intro j hj
          rw [length_append]
          omega
        rw [← append_assoc, hshift hle, hshift (Nat.le_trans hle hle')]
        exact ⟨isBoundary_append (hbounds r hr).1, isBoundary_append (hbounds r hr).2⟩
    · obtain ⟨xs, rfl, hxs⟩ := hnone ns hns hlast' hmissesNew
      refine ⟨a ++ ('r' :: 'e' :: ns ++ xs), by rw [hns, ← ofChars_append, ← ofChars_append], ?_⟩
      refine .append ?_ (.append (hmissesNew _ _) ?_)
      · exact misses_of_word hmisses _
      · have hold : ('r' :: ("eturn".toList ++ ws ++ [';'])).getLast? = some ';' := by simp [getLast?_cons]
        rwa [getLast?_cons_or, getLast?_cons_or, hlast', Option.some_or, ← hold]

end Extracted

/-- The text may stand between braces: it leaves no comment and no brace open, and closes none. -/
def Text.Enclosable (t : Text) : Prop :=
  ∀ next, ∃ x, maskUpTo .code next t = (x, .code) ∧ State.bracesBehind? 0 x = some 0

theorem Text.Enclosable.append {s : Text} (hs : Enclosable s) (ht : Enclosable t) : Enclosable (s ++ t) := by
  intro next
  obtain ⟨x, hx, hbraces⟩ := hs (t.head?.or next)
  obtain ⟨y, hy, hbraces'⟩ := ht next
  refine ⟨x ++ y, ?_, ?_⟩
  · rw [maskUpTo_append, hx, hy]
  · rw [State.bracesBehind?_append, hbraces]
    exact hbraces'

theorem Text.enclosable_of_not_mem (hslash : 47 ∉ t) (hopen : 123 ∉ t) (hclose : 125 ∉ t) : Enclosable t :=
  fun next => ⟨t, maskUpTo_code hslash next, State.bracesBehind?_of_not_mem hopen hclose 0⟩

theorem Fragment.exists_trimNewlines (t : Text) :
    ∃ z z', t = z ++ (trimNewlines t ++ z') ∧ (∀ b ∈ z, b = newline) ∧ ∀ b ∈ z', b = newline := by
  refine ⟨t.takeWhile (· == newline), ((t.dropWhile (· == newline)).reverse.takeWhile (· == newline)).reverse,
    ?_, fun b hb => ?_, fun b hb => ?_⟩
  · rw [trimNewlines, ← reverse_append, takeWhile_append_dropWhile, reverse_reverse,
      takeWhile_append_dropWhile]
  · have := mem_takeWhile_imp hb
    exact beq_iff_eq.mp this
  · have := mem_takeWhile_imp (mem_reverse.mp hb)
    exact beq_iff_eq.mp this

/-- **The lines of a body may stand between braces if the body does.** -/
theorem Fragment.enclosable_bodyLines {x : Text}
    (hmask : maskUpTo .code next t = (x, .code)) (hbraces : State.bracesBehind? 0 x = some 0) :
    Enclosable (bodyLines t) := by
  obtain ⟨z, z', ht, hz, hz'⟩ := exists_trimNewlines t
  have hwhite : ∀ {y : Text}, (∀ b ∈ y, b = newline) → ∀ b ∈ y, isWhiteByte b := fun h b hb => by
    rw [h b hb]
    rfl
  have hneutral : ∀ {y : Text}, (∀ b ∈ y, isWhiteByte b) →
      ∀ depth, State.bracesBehind? depth y = some depth :=
    fun h => State.bracesBehind?_of_not_mem (fun hmem => by cases h _ hmem) (fun hmem => by cases h _ hmem)
  have hslash : 47 ∉ z := fun h => by cases hz 47 h
  rw [ht, maskUpTo_append, maskUpTo_code hslash, Prod.mk.injEq] at hmask
  obtain ⟨rfl, hplace⟩ := hmask
  obtain ⟨hend, y, hy, hwhite'⟩ := maskUpTo_white (hwhite hz') (.inl hplace)
  rw [hy, State.bracesBehind?_append, hneutral (hwhite hz)] at hbraces
  unfold bodyLines
  split
  · exact enclosable_of_not_mem (by simp) (by simp) (by simp)
  · intro next
    have hline : (Text.ofString "\n") = [newline] := rfl
    refine ⟨(maskUpTo .code (some newline) (trimNewlines t)).1 ++ [newline], ?_, ?_⟩
    · rw [hline, maskUpTo_append, head?_cons, Option.some_or]
      rcases hend with hp | hp <;> rw [hp] <;> rfl
    · rw [Option.bind_some, State.bracesBehind?_append] at hbraces
      cases hdepth : State.bracesBehind? 0 (maskUpTo .code (some newline) (trimNewlines t)).1 with
      | none =>
        rw [hdepth] at hbraces
        cases hbraces
      | some depth =>
        rw [hdepth, Option.bind_some, hneutral hwhite'] at hbraces
        rw [State.bracesBehind?_append, hdepth]
        exact hbraces

end GlslToMetal
