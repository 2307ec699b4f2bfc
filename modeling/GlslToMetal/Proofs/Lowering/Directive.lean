import GlslToMetal.Lowering.Directive
import GlslToMetal.Proofs.Pattern

/-! Taking directives out of a program. Each pattern is looked for in the masked text and its matches
are taken out of the text, so a match may cover a part of a comment. Where no match covers one end of
a block comment without the other, and none brings a `/` before a `/` or a `*`, what is left reads as
it did: its mask is the mask of the program without the matches. Where a match does, code becomes
comment or comment becomes code. -/

namespace GlslToMetal

open List Text

namespace Pattern

theorem head?_dropWhile_isInlineBlank (cs : List Char) : (cs.dropWhile isInlineBlank).head? ≠ some ' ' := by
  intro h
  exact absurd (not_of_mem_head?_dropWhile h) (by decide)

/-- A match is a line with its newline, or the last line. -/
def TakesLines (p : Pattern) : Prop :=
  ∀ before cs tail, p before cs = some tail → before.all (· == '\n') ∧
    ∃ line ≠ [], '\n' ∉ line ∧ (cs = line ++ '\n' :: tail ∨ cs = line ∧ tail = [])

theorem TakesLines.anchors {p : Pattern} (hp : p.TakesLines) : p.Anchors := by
  intro before cs tail h
  obtain ⟨hbefore, line, hne, hline, hsplit⟩ := hp _ _ _ h
  have hhead : line.head? ≠ some '\n' := fun h => hline (mem_of_head? h)
  rcases hsplit with rfl | ⟨rfl, rfl⟩
  · refine ⟨line ++ ['\n'], by simp, by simp, .inl hbefore, ?_, .inr (.inl getLast?_concat)⟩
    rwa [head?_append_of_ne_nil _ hne]
  · exact ⟨cs, by simp, hne, .inl hbefore, hhead, .inl rfl⟩

end Pattern

namespace Directive

open Pattern Unicode

theorem anchors_word {word rest tail : List Char} {before : Option Char} (hne : word ≠ [])
    (hspace : word.head? ≠ some ' ') (hnewline : word.head? ≠ some '\n') {mid : List Char}
    (hrest : rest = mid ++ tail)
    (htail : tail = [] ∨ (word ++ mid).getLast? = some '\n' ∨ tail.head? ≠ some ' ') :
    ∃ b, word ++ rest = b ++ tail ∧ b ≠ [] ∧ (before.all (· == '\n') ∨ b.head? ≠ some ' ') ∧
      b.head? ≠ some '\n' ∧
      (tail = [] ∨ b.getLast? = some '\n' ∨ tail.head? ≠ some ' ') := by
  have hhead : (word ++ mid).head? = word.head? := by
    cases word with
    | nil => exact absurd rfl hne
    | cons c word => rfl
  exact ⟨word ++ mid, by
    rw [hrest, append_assoc], by simp [hne], .inr (hhead ▸ hspace), hhead ▸ hnewline, htail⟩

theorem anchors_precisionQualifier : Anchors precisionQualifier := by
  intro before cs tail h
  unfold precisionQualifier at h
  obtain ⟨-, -, h⟩ := Option.bind_eq_some_iff.mp h
  obtain ⟨rest, hrest, h⟩ := Option.bind_eq_some_iff.mp h
  obtain ⟨rest', hend, h⟩ := Option.bind_eq_some_iff.mp h
  have htail := Option.some.inj h
  obtain rfl := wordEnd_eq_some hend
  obtain rfl := htail
  obtain ⟨word, hword, rfl⟩ := oneOf_eq_some hrest
  have hwords : ∀ word ∈ precisions, word.toList ≠ [] ∧ word.toList.head? ≠ some ' ' ∧
      word.toList.head? ≠ some '\n' := by decide
  obtain ⟨hne, hspace, hnewline⟩ := hwords word hword
  exact anchors_word hne hspace hnewline takeWhile_append_dropWhile.symm
    (.inr (.inr (head?_dropWhile_isInlineBlank _)))

theorem anchors_precisionStatement : Anchors precisionStatement := by
  intro before cs tail h
  unfold precisionStatement at h
  obtain ⟨-, -, h⟩ := Option.bind_eq_some_iff.mp h
  obtain ⟨rest, hword, h⟩ := Option.bind_eq_some_iff.mp h
  obtain ⟨rest₁, hblanks, h⟩ := Option.bind_eq_some_iff.mp h
  obtain ⟨rest₂, hprecision, h⟩ := Option.bind_eq_some_iff.mp h
  obtain ⟨rest₃, hblanks', h⟩ := Option.bind_eq_some_iff.mp h
  obtain ⟨rest₄, htype, h⟩ := Option.bind_eq_some_iff.mp h
  obtain ⟨rest₅, hsemicolon, h⟩ := Option.bind_eq_some_iff.mp h
  have htail := Option.some.inj h
  have hinner : ∃ mid, rest = mid ++ rest₅.dropWhile isInlineBlank := by
    obtain ⟨b₁, rfl⟩ := run_eq_some hblanks
    obtain ⟨word, -, rfl⟩ := oneOf_eq_some hprecision
    obtain ⟨b₂, rfl⟩ := run_eq_some hblanks'
    obtain ⟨b₃, rfl⟩ := run_eq_some htype
    obtain ⟨c, hc, -⟩ := char_eq_some hsemicolon
    refine ⟨b₁ ++ word.toList ++ b₂ ++ b₃ ++ rest₄.takeWhile isWhiteSpace ++
      c :: rest₅.takeWhile isInlineBlank, ?_⟩
    have hrest₄ : rest₄ = rest₄.takeWhile isWhiteSpace ++ c :: rest₅ := by
      rw [← hc, takeWhile_append_dropWhile]
    have hrest₅ : rest₅ = rest₅.takeWhile isInlineBlank ++ rest₅.dropWhile isInlineBlank :=
      takeWhile_append_dropWhile.symm
    calc b₁ ++ (word.toList ++ (b₂ ++ (b₃ ++ rest₄)))
        = b₁ ++ word.toList ++ b₂ ++ b₃ ++ (rest₄.takeWhile isWhiteSpace ++ c :: rest₅) := by
          rw [← hrest₄]
          simp only [append_assoc]
      _ = _ := by
          rw [hrest₅]
          simp
  obtain ⟨mid, hmid⟩ := hinner
  rw [literal_eq_some hword]
  have hleft := head?_dropWhile_isInlineBlank rest₅
  generalize rest₅.dropWhile isInlineBlank = left at htail hmid hleft
  by_cases hnewline : left.head? = some '\n'
  · obtain ⟨left, rfl⟩ := head?_eq_some_iff.mp hnewline
    obtain rfl : left = tail := htail
    have hrest : rest = (mid ++ ['\n']) ++ left := by rw [hmid, append_assoc, singleton_append]
    refine anchors_word (by decide) (by decide) (by decide) hrest (.inr (.inl ?_))
    rw [← append_assoc, getLast?_append]
    rfl
  · rw [if_neg (by simpa using hnewline)] at htail
    exact anchors_word (by decide) (by decide) (by decide) (htail ▸ hmid) (.inr (.inr (htail ▸ hleft)))

theorem takesLines_directiveLine : TakesLines directiveLine := by
  intro before cs tail h
  unfold directiveLine at h
  obtain ⟨u, hbefore, h⟩ := Option.bind_eq_some_iff.1 h
  obtain ⟨rest, hsharp, h⟩ := Option.bind_eq_some_iff.1 h
  obtain ⟨rest₁, hword, h⟩ := Option.bind_eq_some_iff.1 h
  obtain ⟨rest₂, hend, h⟩ := Option.bind_eq_some_iff.1 h
  obtain ⟨c, hsharp, hc⟩ := char_eq_some hsharp
  obtain rfl := beq_iff_eq.1 hc
  obtain ⟨word, hmem, hword⟩ := oneOf_eq_some hword
  have htail := Option.some.inj h
  rw [wordEnd_eq_some hend] at htail
  subst htail
  have hblanks : ∀ cs : List Char, '\n' ∉ cs.takeWhile isInlineBlank := fun cs hmem =>
    absurd (mem_takeWhile_imp hmem) (by decide)
  have hnames : '\n' ∉ word.toList :=
    (by decide : ∀ word ∈ ["version", "extension", "pragma"], '\n' ∉ word.toList) word hmem
  have hline : '\n' ∉ rest₁.takeWhile (· != '\n') := fun hmem => absurd (mem_takeWhile_imp hmem) (by decide)
  have hsplit : cs = cs.takeWhile isInlineBlank ++ '#' :: (rest.takeWhile isInlineBlank ++
      (word.toList ++ (rest₁.takeWhile (· != '\n') ++ rest₁.dropWhile (· != '\n')))) := by
    rw [takeWhile_append_dropWhile, ← hword, takeWhile_append_dropWhile, ← hsharp, takeWhile_append_dropWhile]
  refine ⟨(Option.guard_eq_some' u).1 hbefore,
    cs.takeWhile isInlineBlank ++ '#' :: (rest.takeWhile isInlineBlank ++
    (word.toList ++ rest₁.takeWhile (· != '\n'))), by simp, by simp [hblanks, hnames, hline], ?_⟩
  have hhead := head?_dropWhile_not (· != '\n') rest₁
  cases hdrop : rest₁.dropWhile (· != '\n') with
  | nil => exact .inr ⟨by simpa [hdrop] using hsplit, rfl⟩
  | cons d z =>
    obtain rfl : d = '\n' := by simpa [hdrop] using hhead
    exact .inl (by simpa [hdrop] using hsplit)

/-! Taking the matches of several patterns out, one after the other. -/

/-- What is left of a text when the matches of each pattern in turn are taken out. The matches are
those in `masked`, from which they are taken out too. -/
def erase : List Pattern → Text → Text → Text
  | [], _, t => t
  | p :: rest, masked, t => erase rest (masked.without (p.ranges masked)) (t.without (p.ranges masked))

/-- Every match of each pattern in turn can be taken out: it covers both ends of a block comment or
none, and brings no `/` of the code before a `/` or a `*`. -/
def Undisturbed : List Pattern → Text → Prop
  | [], _ => True
  | p :: rest, t => (∀ r ∈ p.ranges t.mask, Separable t (p.ranges t.mask) r) ∧
      Undisturbed rest (t.without (p.ranges t.mask))

instance : (ps : List Pattern) → (t : Text) → Decidable (Undisturbed ps t)
  | [], _ => inferInstanceAs (Decidable True)
  | p :: rest, t =>
    have := instDecidableUndisturbed rest (t.without (p.ranges t.mask))
    inferInstanceAs (Decidable ((∀ r ∈ p.ranges t.mask, Separable t (p.ranges t.mask) r) ∧
      Undisturbed rest (t.without (p.ranges t.mask))))

/-- Removing directives gives back what is left, and what is left reads as it did. -/
theorem exists_remove {ps : List Pattern} (hps : ∀ p ∈ ps, Anchors p) {t : Text} {ds : List Char}
    (ht : t = ofChars ds) :
    ∃ count r, remove ps t = .ok (count, r) ∧ (Undisturbed ps t →
      r = erase ps t.mask t ∧ r.mask = erase ps t.mask t.mask) := by
  induction ps generalizing t ds with
  | nil => exact ⟨0, t, rfl, fun _ => ⟨rfl, rfl⟩⟩
  | cons p ps ih =>
    obtain ⟨hp, hps⟩ := forall_mem_cons.mp hps
    obtain ⟨hdivided, hanchored, happly, es, hes⟩ := hp.apply_codeEdits ht
    obtain ⟨count, r, hremove, hr⟩ := ih hps hes
    refine ⟨(p.codeEdits t fun _ => []).length + count, r, ?_, fun h => ?_⟩
    · simp only [remove, happly, bind, Except.bind, hremove]
      rfl
    · have hr := hr h.2
      rwa [mask_without hdivided hanchored h.1] at hr

/-- The patterns of what is taken out of a program. -/
def patterns : List Pattern := [directiveLine, precisionStatement, precisionQualifier]

/-- **Where its matches do not disturb comments, stripping directives keeps code apart from
comments.** Stripping a program always returns. If every match covers both ends of a block comment or
none, and brings no `/` of the code before a `/` or a `*`, then the bytes that are left are code or
comment as they were: the mask of what is left is the mask of the program without the matches. -/
theorem strip_keeps_comments (s : String) : ∃ diagnostics r, strip (ofString s) = .ok (diagnostics, r) ∧
      (Undisturbed patterns (ofString s) → r = erase patterns (ofString s).mask (ofString s) ∧
          r.mask = erase patterns (ofString s).mask (ofString s).mask) := by
  have hps : ∀ p ∈ patterns, Anchors p := by
    rintro p (_ | ⟨_, _ | ⟨_, _ | ⟨_, ⟨⟩⟩⟩⟩)
    · exact takesLines_directiveLine.anchors
    · exact anchors_precisionStatement
    · exact anchors_precisionQualifier
  obtain ⟨count, r, hremove, hr⟩ := @exists_remove patterns hps (ofString s) s.toList rfl
  refine ⟨if count == 0 then [] else [removed count], r, ?_, hr⟩
  rw [patterns] at hremove
  simp only [strip, bind, Except.bind, hremove]
  rfl

/-- A program with comments before, inside and behind what is taken out. -/
def commented : String :=
  "#version 300 es // v\nprecision highp float; /* p */\n/* c */ highp float f(mediump vec2 p) " ++
    "\x7b return p.x / /* d\n */ 2.0; \x7d\n"

theorem strip_keeps_comments_commented : Undisturbed patterns (ofString commented) ∧
      ∃ diagnostics r, strip (ofString commented) = .ok (diagnostics, r) ∧
        r = erase patterns (ofString commented).mask (ofString commented) ∧
        r.mask = erase patterns (ofString commented).mask (ofString commented).mask := by
  have hundisturbed : Undisturbed patterns (ofString commented) := by decide +kernel
  obtain ⟨diagnostics, r, hstrip, hr⟩ := strip_keeps_comments commented
  exact ⟨hundisturbed, diagnostics, r, hstrip, hr hundisturbed⟩

/-- Stripping the program leaves other code than the code of the program without the matches. -/
def Disturbs (s : String) : Prop :=
  ∃ diagnostics r, strip (ofString s) = .ok (diagnostics, r) ∧ r.mask.filter (!isBlank ·) ≠
      (erase patterns (ofString s).mask (ofString s).mask).filter (!isBlank ·)

/-- A match that takes the beginning of a comment with it turns the comment into code, one that takes
the end with it turns code into a comment, and so does one between the bytes of a mark. -/
theorem strip_disturbs_comments :
    Disturbs "highp /* a\n b */ float c;\n" ∧ Disturbs "/* a\n b */ #version 300\nfloat c;\n" ∧
      Disturbs "c = a /highp / b;\n" := by
  refine ⟨?_, ?_, ?_⟩
  · exact ⟨[removed 1], ofString "\n b */ float c;\n", by decide +kernel, by decide +kernel⟩
  · exact ⟨[removed 1], ofString "/* a\nfloat c;\n", by decide +kernel, by decide +kernel⟩
  · exact ⟨[removed 1], ofString "c = a // b;\n", by decide +kernel, by decide +kernel⟩

end Directive

end GlslToMetal
