import GlslToMetal.Proofs.Item.Partition
import GlslToMetal.Proofs.Lowering.Directive
import GlslToMetal.Proofs.Text.Standing

/-! Directives that are taken out, line by line. The scan for items reads a backslash before a newline
as part of the directive; the search for what to take out ends at the first newline. So of a directive
that begins its line, the first line is taken out exactly if its keyword says so, and what a backslash
continues it with is read as a line of its own. -/

namespace GlslToMetal

open List Text Unicode

variable {before : Option Char} {c : Char} {cs line pre tail x y z : List Char} {i k : Nat} {p : Pattern}

namespace Pattern

theorem TakesLines.eq_none (hp : p.TakesLines) (hx : '\n' ∉ x) (hne : x ≠ []) (before : Option Char)
    (cs : List Char) :
    p (x.getLast?.or before) cs = none := by
  rw [Option.eq_none_iff_forall_ne_some]
  intro tail h
  have hlast := (hp _ _ _ h).1
  rw [getLast?_eq_some_getLast hne, Option.some_or, Option.all_some, beq_iff_eq] at hlast
  exact hx (hlast ▸ getLast_mem hne)

theorem TakesLines.matchesFrom_line (hp : p.TakesLines) (hline : '\n' ∉ line.dropLast)
    (h : p before (line ++ cs) = none) :
    matchesFrom p before i 0 (line ++ cs) =
      matchesFrom p (line.getLast?.or before) (i + width line) 0 cs := by
  refine matchesFrom_of_none fun x y hxy hy => ?_
  by_cases hx : x = []
  · subst hx
    rw [nil_append] at hxy
    subst hxy
    exact h
  · rw [hxy, dropLast_append_of_ne_nil hy, mem_append, not_or] at hline
    exact hp.eq_none hline.1 hx before _

theorem eq_of_append_newline (hx : '\n' ∉ x) (hy : '\n' ∉ y)
    (h : x ++ '\n' :: tail = y ++ '\n' :: z) : x = y ∧ tail = z := by
  rcases append_eq_append_iff.1 h with ⟨u, rfl, hu⟩ | ⟨u, rfl, hu⟩
  all_goals cases u with
  | nil => simp_all
  | cons d u =>
    obtain ⟨rfl, -⟩ := cons.inj hu
    simp at hx hy

/-- The search goes through whole lines, and what it finds in them ends with them. -/
theorem TakesLines.matchesFrom_lines (hp : p.TakesLines) (hpre : pre = [] ∨ pre.getLast? = some '\n')
    (hbefore : before.all (· == '\n')) (y : List Char) :
    ∃ rs, (∀ r ∈ rs, r.stop ≤ i + width pre) ∧
      matchesFrom p before i 0 (pre ++ y) = rs ++ matchesFrom p (pre.getLast?.or before)
        (i + width pre) 0 y := by
  induction hn : pre.length using Nat.strong_induction_on generalizing before i pre with
  | _ n ih =>
    rcases exists_first (· == '\n') pre with hnone | ⟨line, c, rest, rfl, hc, hfirst⟩
    · rcases hpre with rfl | hlast
      · exact ⟨[], forall_mem_nil _, rfl⟩
      · exact absurd (hnone '\n' (mem_of_getLast? hlast)) (by decide)
    · obtain rfl := beq_iff_eq.1 hc
      have hline : '\n' ∉ line := fun hmem => absurd (hfirst _ hmem) (by decide)
      have hrest : rest = [] ∨ rest.getLast? = some '\n' := by
        rcases hpre with hnil | hlast
        · simp at hnil
        · rcases eq_or_ne rest [] with hnil | hne
          · exact .inl hnil
          · rw [getLast?_append, getLast?_cons, getLast?_eq_some_getLast hne] at hlast
            rw [getLast?_eq_some_getLast hne]
            exact .inr hlast
      obtain ⟨rs, hstop, hrs⟩ := @ih rest.length (by rw [← hn]; simp; omega) (some '\n')
        rest (i + width (line ++ ['\n'])) hrest rfl rfl
      have hwidth : i + width (line ++ ['\n']) + width rest = i + width (line ++ '\n' :: rest) := by
        simp only [width_append, width]
        omega
      have hlast : (line ++ '\n' :: rest).getLast?.or before = rest.getLast?.or (some '\n') := by
        rw [append_cons, getLast?_append, getLast?_concat, Option.or_assoc, Option.some_or]
      have hsplit : line ++ '\n' :: rest ++ y = line ++ ['\n'] ++ (rest ++ y) := by simp
      rw [hwidth] at hstop hrs
      rw [hlast, hsplit]
      cases hmatch : p before (line ++ ['\n'] ++ (rest ++ y)) with
      | none =>
        refine ⟨rs, hstop, ?_⟩
        have hthrough := hp.matchesFrom_line (i := i) (by rwa [dropLast_concat]) hmatch
        rw [getLast?_concat, Option.some_or] at hthrough
        rw [hthrough, hrs]
      | some tail =>
        obtain rfl : rest ++ y = tail := by
          obtain ⟨-, l, -, hl, hsplit | ⟨hsplit, -⟩⟩ := hp _ _ _ hmatch
          · rw [append_assoc, singleton_append] at hsplit
            exact (eq_of_append_newline hline hl hsplit).2
          · exact absurd (hsplit ▸ by simp) hl
        refine ⟨⟨i, i + width (line ++ ['\n'])⟩ :: rs, forall_mem_cons.2 ⟨?_, hstop⟩, ?_⟩
        · rw [← hwidth]
          exact Nat.le_add_right _ _
        · rw [matchesFrom_of_some (by simp) hmatch, getLast?_concat, Option.some_or, hrs, cons_append]

/-- **A byte of a line is taken out exactly if a match begins with the line.** -/
theorem TakesLines.covers_line (hp : p.TakesLines) (hpre : pre = [] ∨ pre.getLast? = some '\n')
    (hline : '\n' ∉ line)
    (hz : z = [] ∨ z.head? = some '\n') (hk : width pre ≤ k) (hk' : k < width pre + width line) :
    (matchesFrom p none 0 0 (pre ++ (line ++ z))).any (·.covers k) = (p pre.getLast? (line ++ z)).isSome := by
  obtain ⟨rs, hstop, hrs⟩ := @TakesLines.matchesFrom_lines none pre 0 p hp hpre rfl (line ++ z)
  have hbefore : rs.any (·.covers k) = false := by
    rw [any_eq_false]
    intro r hr hcovers
    have := hstop r hr
    have := (Range.covers_iff.1 hcovers).2
    omega
  rw [hrs, any_append, hbefore, Bool.false_or, Option.or_none, Nat.zero_add]
  cases hmatch : p pre.getLast? (line ++ z) with
  | none =>
    rw [hp.matchesFrom_line (fun h => hline ((dropLast_sublist line).subset h)) hmatch,
      Option.isSome_none, any_eq_false]
    intro r hr hcovers
    have := ((hp.anchors.advances.matches _ _ z).divided.bounds r hr).1
    have := (Range.covers_iff.1 hcovers).1
    omega
  | some tail =>
    obtain ⟨b, hsplit, hle, hne⟩ : ∃ b, line ++ z = b ++ tail ∧ width line ≤ width b ∧ b ≠ [] := by
      obtain ⟨-, l, hne, hl, hsplit | ⟨hsplit, rfl⟩⟩ := hp _ _ _ hmatch
      · refine ⟨l ++ ['\n'], by simp [hsplit], ?_, by simp⟩
        rcases hz with rfl | hz
        · exact absurd (append_nil line ▸ hsplit ▸ by simp) hline
        · obtain ⟨z, rfl⟩ := head?_eq_some_iff.1 hz
          rw [(eq_of_append_newline hline hl hsplit).1, width_append]
          exact Nat.le_add_right _ _
      · exact ⟨line ++ z, by simp, by rw [width_append]; exact Nat.le_add_right _ _, hsplit ▸ hne⟩
    rw [hsplit] at hmatch ⊢
    rw [matchesFrom_of_some hne hmatch, any_cons, Range.covers_iff.2 ⟨hk, by dsimp only; omega⟩]
    rfl

end Pattern

namespace Directive

open Pattern

/-- The directives that are taken out. -/
def names : List (List Char) := ["version".toList, "extension".toList, "pragma".toList]

/-- The keyword of a directive, from what stands behind its `#`. -/
def keyword (cs : List Char) : List Char := (cs.dropWhile isInlineBlank).takeWhile isWordChar

/-- A keyword is one of the names, or no name ends there. -/
theorem isSome_name_iff : ((oneOf ["version", "extension", "pragma"] cs).bind wordEnd).isSome ↔
    cs.takeWhile isWordChar ∈ names := by
  constructor
  · intro h
    obtain ⟨rest', h⟩ := Option.isSome_iff_exists.1 h
    obtain ⟨rest, hword, hend⟩ := Option.bind_eq_some_iff.1 h
    obtain ⟨word, hmem, rfl⟩ := oneOf_eq_some hword
    have hword : ∀ word ∈ ["version", "extension", "pragma"], word.toList.all isWordChar ∧
        word.toList ∈ names := by
      decide
    obtain ⟨hall, hname⟩ := hword word hmem
    have hrest : rest.takeWhile isWordChar = [] := by
      cases rest with
      | nil => rfl
      | cons c rest =>
        rw [takeWhile_cons_of_neg]
        simpa using (Option.ite_none_left_eq_some.1 hend).1
    rwa [takeWhile_append_of_pos (fun c hc => all_eq_true.1 hall c hc), hrest, append_nil]
  · intro h
    have hsplit := takeWhile_append_dropWhile (p := isWordChar) (l := cs)
    have hend : wordEnd (cs.dropWhile isWordChar) = some (cs.dropWhile isWordChar) := by
      refine if_neg ?_
      have := head?_dropWhile_not isWordChar cs
      cases hrest : cs.dropWhile isWordChar with
      | nil => simp
      | cons c rest => simpa [hrest] using this
    generalize cs.dropWhile isWordChar = rest at hsplit hend
    rw [← hsplit]
    simp only [names, mem_cons, not_mem_nil, or_false] at h
    rcases h with h | h | h <;> rw [h] <;> exact congrArg Option.isSome hend

theorem isSome_directiveLine (hbefore : before.all (· == '\n')) {blanks : List Char}
    (hblanks : ∀ c ∈ blanks, isInlineBlank c)
    (cs : List Char) : (directiveLine before (blanks ++ '#' :: cs)).isSome ↔ keyword cs ∈ names := by
  have hsharp : char (· == '#') ((blanks ++ '#' :: cs).dropWhile isInlineBlank) = some cs := by
    rw [dropWhile_append_of_pos hblanks]
    rfl
  rw [keyword, ← isSome_name_iff]
  simp only [directiveLine, bind, hsharp, hbefore, guard, if_true, pure, Option.bind_some]
  cases oneOf ["version", "extension", "pragma"] (cs.dropWhile isInlineBlank) with
  | none => rfl
  | some rest => cases hend : wordEnd rest <;> simp [hend]

/-- The keyword of the directive at a byte of a masked text. -/
def keywordAt (m : Text) (a : Nat) : List Char := keyword (chars (m.drop (a + 1)))

/-- Only spaces and tabs stand between a byte and the start of its line. -/
def BeginsLine (m : Text) (a : Nat) : Prop :=
  ∃ pre blanks, m.take a = ofChars (pre ++ blanks) ∧ (pre = [] ∨ pre.getLast? = some '\n') ∧
    ∀ c ∈ blanks, isInlineBlank c

/-- In the first line of a directive, every byte is in a match exactly if the keyword is one of the names. -/
theorem covers_directive {m : Text} {a : Nat} (hm : m = ofChars cs) (ha : m[a]? = some 35)
    (hbegins : BeginsLine m a)
    (hk : a ≤ k) (hlt : k < m.length) (hfirst : newline ∉ m.cut ⟨a, k + 1⟩) :
    (directiveLine.ranges m).any (·.covers k) ↔ keywordAt m a ∈ names := by
  obtain ⟨hstart, hsharp⟩ := List.getElem?_eq_some_iff.1 ha
  have hsplit : m = m.take a ++ 35 :: m.drop (a + 1) := by
    rw [← hsharp, ← drop_eq_getElem_cons, take_append_drop]
  obtain ⟨x, y, hcs, hx, hy⟩ := exists_of_ofChars_eq (by decide) (hm.symm.trans hsplit)
  obtain ⟨pre, blanks, hpre, hline, hblanks⟩ := hbegins
  obtain rfl : x = pre ++ blanks := ofChars_injective (hx.symm.trans hpre)
  have hwidth : width pre + width blanks = a := by
    rw [← width_append, ← length_ofChars, ← hpre, length_take, Nat.min_eq_left hstart.le]
  -- The line of the directive ends at the first newline behind its `#`.
  let line := blanks ++ '#' :: y.takeWhile (· != '\n')
  have hnewline : '\n' ∉ line := by
    have hblanks : '\n' ∉ blanks := fun h => absurd (hblanks _ h) (by decide)
    have hmore : '\n' ∉ y.takeWhile (· != '\n') := fun h => absurd (mem_takeWhile_imp h) (by decide)
    simp [line, hblanks, hmore]
  have hwhole : cs = pre ++ (line ++ y.dropWhile (· != '\n')) := by
    rw [hcs]
    simp only [line, append_assoc, cons_append, takeWhile_append_dropWhile]
    rfl
  have hhead := head?_dropWhile_not (· != '\n') y
  have hz : y.dropWhile (· != '\n') = [] ∨ (y.dropWhile (· != '\n')).head? = some '\n' := by
    cases hdrop : y.dropWhile (· != '\n') with
    | nil => exact .inl rfl
    | cons c z => exact .inr (by simpa [hdrop] using hhead)
  have hk' : k < width pre + width line := by
    rw [← width_append, ← length_ofChars]
    by_contra hge
    rw [hwhole, ← append_assoc, ofChars_append] at hm
    rcases hz with hz | hz
    · rw [hm, hz, show ofChars [] = [] from rfl, append_nil] at hlt
      exact hge hlt
    · obtain ⟨z, hz⟩ := head?_eq_some_iff.1 hz
      have hend : m[(ofChars (pre ++ line)).length]? = some newline := by
        rw [hm, hz, getElem?_append_right (Nat.le_refl _), Nat.sub_self]
        rfl
      have hle : a ≤ (ofChars (pre ++ line)).length := by
        rw [length_ofChars, width_append, width_append]
        omega
      refine hfirst (@mem_of_getElem? _ _ ((ofChars (pre ++ line)).length - a) _ ?_)
      rw [cut, getElem?_take, if_pos (by dsimp only; omega), getElem?_drop, Nat.add_sub_of_le hle, hend]
  have hbefore : pre.getLast?.all (· == '\n') := by
    rcases hline with rfl | hlast
    · rfl
    · rw [hlast]
      rfl
  have hchars : chars (m.drop (a + 1)) = y := by rw [hy, chars_ofChars]
  rw [Pattern.ranges, hm, chars_ofChars, hwhole,
    takesLines_directiveLine.covers_line hline hnewline hz (by omega) hk',
    ← hwhole, ← hm, keywordAt, hchars]
  simp only [line, append_assoc, cons_append, takeWhile_append_dropWhile]
  exact isSome_directiveLine hbefore hblanks y

/-- **The first line of a directive is taken out if its keyword says so, and kept if not.** Stripping
always returns, and begins by taking out the matches of the directive pattern. A byte in the first line
of a directive that begins its line is in one of them exactly if the keyword is `version`, `extension`
or `pragma`: a directive that no backslash continues is taken out whole, or none of it is. -/
theorem strip_takes_directive_lines (s : String) :
    ∃ diagnostics count r, strip (ofString s) = .ok (diagnostics, r) ∧
      remove [precisionStatement, precisionQualifier]
        ((ofString s).without (directiveLine.ranges (ofString s).mask)) = .ok (count, r) ∧
      ∀ d, .directive d ∈ (ofString s).mask.items → BeginsLine (ofString s).mask d.start →
        ∀ k, d.covers k → newline ∉ (ofString s).mask.cut ⟨d.start, k + 1⟩ →
          ((directiveLine.ranges (ofString s).mask).any (·.covers k) ↔
            keywordAt (ofString s).mask d.start ∈ names) := by
  obtain ⟨-, -, happly, es, hes⟩ :=
    takesLines_directiveLine.anchors.apply_codeEdits (rfl : ofString s = ofChars s.toList)
  obtain ⟨count, r, hremove, -⟩ := exists_remove (forall_mem_cons.2 ⟨anchors_precisionStatement,
    forall_mem_singleton.2 anchors_precisionQualifier⟩) hes
  let total := (directiveLine.codeEdits (ofString s) fun _ => []).length + count
  refine ⟨if total == 0 then [] else [removed total], count, r, ?_, hremove, ?_⟩
  · have hfirst : remove [directiveLine, precisionStatement, precisionQualifier] (ofString s) =
        .ok (total, r) := by
      rw [remove, happly]
      simp only [bind, Except.bind, hremove]
      rfl
    rw [strip, hfirst]
    rfl
  · intro d hd hbegins k hk hfirst
    obtain ⟨ds, hds⟩ := exists_maskFrom_ofChars (Place.fits_code (ofString s).head?)
    have hlaid := laid_items (ofString s).mask
    have hsharp : (ofString s).mask[d.start]? = some 35 := @Item.Laid.marked _ _ _ hlaid [] rfl _ hd
    have hbounds : d.stop ≤ 0 + (ofString s).mask.length := (hlaid.bounds _ hd).2.2
    obtain ⟨hge, hlt⟩ := Range.covers_iff.1 hk
    exact covers_directive hds hsharp hbegins hge (by omega) hfirst

/-- A program whose first directive is taken out, and whose second is kept. -/
def headed : String := "#version 300 es\n#define A 1\n"

theorem strip_takes_directive_lines_headed : (directiveLine.ranges (ofString headed).mask).any (·.covers 9) ∧
      (directiveLine.ranges (ofString headed).mask).any (·.covers 24) = false := by
  obtain ⟨-, -, -, -, -, h⟩ := strip_takes_directive_lines headed
  have hnone : BeginsLine (ofString headed).mask 0 := ⟨[], [], rfl, .inl rfl, forall_mem_nil _⟩
  have hline : BeginsLine (ofString headed).mask 16 :=
    ⟨"#version 300 es\n".toList, [], by decide +kernel, .inr rfl, forall_mem_nil _⟩
  refine ⟨(h ⟨0, 15⟩ (by decide +kernel) hnone 9 rfl (by decide +kernel)).2 (by decide +kernel), ?_⟩
  rw [← Bool.not_eq_true, h ⟨16, 27⟩ (by decide +kernel) hline 24 rfl (by decide +kernel)]
  decide +kernel

/-- A byte of code of a directive that is to be taken out is left. -/
def Leaves (s : String) : Prop :=
  ∃ diagnostics r d b, strip (ofString s) = .ok (diagnostics, r) ∧ .directive d ∈ (ofString s).mask.items ∧
    keywordAt (ofString s).mask d.start ∈ names ∧ isBlank b = false ∧
    count b ((ofString s).mask.without [d]) < count b r.mask

/-- A byte of code of a directive that is to be kept is lost. -/
def Loses (s : String) : Prop :=
  ∃ diagnostics r d b, strip (ofString s) = .ok (diagnostics, r) ∧ .directive d ∈ (ofString s).mask.items ∧
    keywordAt (ofString s).mask d.start ∉ names ∧ isBlank b = false ∧
    count b r.mask < count b ((ofString s).mask.cut d)

/-- What a backslash continues a directive with is read as a line of its own: it stays where the
directive is taken out, and where it looks like a directive to take out, it is lost. -/
theorem strip_misreads_continued :
    Leaves "#pragma a \\\n b\nfloat c;\n" ∧ Loses "#define A \\\n#version 300\n" := by
  constructor
  · exact ⟨[removed 1], ofString " b\nfloat c;\n", ⟨0, 14⟩, 98, by decide +kernel⟩
  · exact ⟨[removed 1], ofString "#define A \\\n", ⟨0, 24⟩, 118, by decide +kernel⟩

end Directive

end GlslToMetal
