import GlslToMetal.Proofs.Ambient.Pass
import GlslToMetal.Proofs.Parameter
import GlslToMetal.Proofs.Program

/-! Threading one value through a program, on its outline. The functions that gain the value get a
parameter, and every other tree of the program is walked. The new text is the text of the new
outline, and it declares the same functions. -/

namespace GlslToMetal

open List Text Nest

variable {a : Ambient} {d : Declaration} {t : Nest} {p : Piece} {new : Text} {b : UInt8}

/-- A declaration that threading understands: it does not read as a call, and nothing in the parameter
list is between parentheses. -/
structure Declaration.Simple (d : Declaration) : Prop where
  callee : Text.callee? (d.heading.lead.context []) = none
  params : 40 ∉ d.heading.params.text

theorem Nest.eq_of_declaration? (h : t.declaration? = some d) :
    t.heading? = some d.heading ∧ 40 ∉ d.heading.lead.text ∧ d.heading.behind.text.all isBlank ∧
      Signature.unnamed d.heading.lead.text = false ∧
      d.name = wordBefore d.heading.lead.text.reverse ∧
      d.type = strip (beforeWord d.heading.lead.text.reverse).reverse := by
  unfold declaration? at h
  obtain ⟨g, hg, h⟩ := Option.bind_eq_some_iff.mp h
  split at h
  · cases h
  · next hcond =>
    cases h
    simp only [Bool.or_eq_true, contains_eq_mem, decide_eq_true_eq, Bool.not_eq_true', not_or,
      Bool.not_eq_false, Bool.not_eq_true] at hcond
    exact ⟨hg, hcond.1.1, hcond.1.2, hcond.2, rfl, rfl⟩

theorem Piece.eq_of_declaration? (h : p.declaration? = some d) :
    p.head.declaration? = some d ∧ (p.body? = none → 61 ∉ p.head.text) := by
  unfold Piece.declaration? at h
  split at h
  · cases h
  · next hcond =>
    refine ⟨h, ?_⟩
    intro hbody
    simpa [hbody] using hcond

/-- A declaration with a return type of one identifier is no call. -/
theorem Declaration.callee?_of_isIdentifier (hd : d.type.isIdentifier)
    (h : t.declaration? = some d) : Text.callee? (d.heading.lead.context []) = none := by
  obtain ⟨-, -, -, hnamed, -, htype⟩ := eq_of_declaration? h
  have hup := @upToStop_context [] [] (.inl rfl) d.heading.lead
  rw [List.append_nil] at hup
  rw [← callee?_upToStop hup]
  have hword := isWordByte_of_isIdentifier hd
  generalize hT : (beforeWord d.heading.lead.text.reverse).reverse = T at htype
  have hbefore : beforeWord d.heading.lead.text.reverse = T.reverse := by
    rw [← hT, reverse_reverse]
  have hblank : ¬ T.all isBlank := by
    intro hall
    rw [strip_of_all hall] at htype
    exact hword.1 htype
  have hprevious : wordBefore T.reverse = d.type := by
    rw [(wordBefore_eq hblank).1, ← htype, takeWhile_eq_self_iff.mpr (by
      intro b hb
      exact hword.2 b (mem_reverse.mp hb)), reverse_reverse]
  have hcalled : Threading.callWords.contains d.type = false := by
    have hsub : ∀ w ∈ Threading.callWords, w ∈ Signature.nonTypeWords := by decide
    have hnot : d.type ∉ Signature.nonTypeWords := by
      simp only [Signature.unnamed, ← htype, hT, Bool.or_eq_false_iff, contains_eq_mem,
        decide_eq_false_iff_not] at hnamed
      exact hnamed.1.2
    rw [contains_eq_mem, decide_eq_false_iff_not]
    exact fun hmem => hnot (hsub _ hmem)
  have hmay : mayCall d.heading.lead.text.reverse = false := by
    unfold mayCall
    rw [hbefore, hprevious, hcalled]
    simp [hword.1]
  rw [Text.callee?, hmay]
  rfl

/-! The head of a piece whose parameter list changes, and one that is walked. -/

theorem Nest.heading?_replace {h : Heading} (hh : t.heading? = some h) (params : Nest) :
    (h.lead ++ pair .paren params h.behind).heading? = some { h with params } := by
  rw [heading?_append (heading?_lead hh), heading?, if_pos rfl, Option.map_some, append_nil]

section Walked

variable (meant : Text → List Text → Bool) (new : Text)

theorem Nest.heading?_pass {t : Nest} (left : Text) :
    (t.heading? = none → (t.pass meant new left).heading? = none) ∧
      ∀ h, t.heading? = some h → ∃ params, (t.pass meant new left).heading? =
        some ⟨h.lead.pass meant new left, params, h.behind.pass meant new []⟩ := by
  induction t generalizing left with
  | nil => simp [heading?, pass]
  | byte b rest ih =>
    obtain ⟨hnone, hsome⟩ := ih (b :: left)
    constructor
    · intro h
      simp only [heading?, Option.map_eq_none_iff] at h
      simp [pass, heading?, hnone h]
    · intro h hh
      obtain ⟨g, hg, rfl⟩ := Option.map_eq_some_iff.mp hh
      obtain ⟨params, hpass⟩ := hsome g hg
      exact ⟨params, by simp [pass, heading?, hpass]⟩
  | pair d inner rest _ ih =>
    obtain ⟨hnone, hsome⟩ := ih []
    by_cases hd : d = .paren
    · subst hd
      constructor
      · intro h
        simp [heading?] at h
      · intro h hh
        simp only [heading?, if_true, Option.some.injEq] at hh
        subst hh
        exact ⟨_, by simp [pass, heading?]; rfl⟩
    · constructor
      · intro h
        simp only [heading?, hd, if_false, Option.map_eq_none_iff] at h
        simp [pass, heading?, hd, hnone h]
      · intro h hh
        simp only [heading?, hd, if_false] at hh
        obtain ⟨g, hg, rfl⟩ := Option.map_eq_some_iff.mp hh
        obtain ⟨params, hpass⟩ := hsome g hg
        refine ⟨params, ?_⟩
        simp [pass, heading?, hd, hpass, isMeant]

variable {new} (hnew : new.IsWord)
include hnew

theorem Nest.declaration?_pass (h : t.declaration? = none) (left : Text) :
    (t.pass meant new left).declaration? = none := by
  obtain ⟨hnone, hsome⟩ := @heading?_pass meant new t left
  cases hg : t.heading? with
  | none => simp [declaration?, hnone hg]
  | some g =>
    obtain ⟨params, hpass⟩ := hsome g hg
    simp only [declaration?, hg, Option.bind_some] at h
    split at h
    · next hcond =>
      simp only [declaration?, hpass, Option.bind_some, all_isBlank_pass]
      rw [if_pos]
      by_cases hparen : 40 ∈ g.lead.text
      · have := (@mem_pass 40 rfl (by decide) meant new (hnew.not_mem rfl) g.lead left).mpr hparen
        simp [this]
      · rwa [pass_of_not_mem hparen]
    · cases h

theorem Nest.passes_pass {assigned : Bool} (h : t.Passes assigned) (left : Text) :
    (t.pass meant new left).Passes assigned := by
  have hassign : 61 ∉ new := hnew.not_mem rfl
  induction t generalizing assigned left with
  | nil => trivial
  | byte b rest ih => exact ⟨h.1, ih h.2 _⟩
  | pair d inner rest ihInner ihRest =>
    refine ⟨h.1, ?_⟩
    have hcontains : contains (if isMeant meant left d inner then
          appendArg new (inner.pass meant new []) else inner.pass meant new []).text 61 =
        contains inner.text 61 := by
      rw [contains_eq_mem, contains_eq_mem, decide_eq_decide]
      split
      · rw [mem_appendArg rfl (by decide) hassign, mem_pass rfl (by decide) hassign]
      · rw [mem_pass rfl (by decide) hassign]
    rw [hcontains]
    exact ihRest h.2 _

end Walked

/-! Values whose declarations read back. -/

namespace Ambient

/-- The parameter that the declaration of a value makes. -/
def parameter (a : Ambient) : Parameter where
  type := a.type
  qualifier := .unmarked
  name := a.name
  isConst := false
  isReference := false
  arraySuffix := none
  range := ⟨0, 0⟩

/-- The value has a name, and its declaration is read as a parameter of that name. -/
structure Proper (a : Ambient) : Prop where
  word : a.name.IsWord
  bytes : ∀ b ∈ a.declaration, isWordByte b ∨ b = 32
  stripped : a.declaration.strip = a.declaration
  nonempty : a.declaration ≠ []
  declared : Parameter.ofText? a.declaration ⟨0, 0⟩ = some a.parameter

theorem proper_of_mem (h : a ∈ all) : a.Proper := by
  simp only [all, mem_cons, not_mem_nil, or_false] at h
  rcases h with rfl | rfl
  · exact ⟨⟨by decide, by decide +kernel⟩, by decide +kernel, by decide, by decide, by decide⟩
  · exact ⟨⟨by decide, by decide +kernel⟩, by decide +kernel, by decide, by decide, by decide⟩

theorem Proper.not_mem (ha : a.Proper) (hword : isWordByte b = false)
    (hspace : b ≠ 32) : b ∉ a.declaration := by
  intro hmem
  rcases ha.bytes b hmem with h | h
  · rw [hword] at h
    cases h
  · exact hspace h

theorem Proper.insertable (ha : a.Proper) : Insertable a.declaration := by
  refine ⟨ha.nonempty, ha.not_mem rfl (by decide), ha.not_mem rfl (by decide), ?_⟩
  intro b hb
  rcases ha.bytes b hb with h | rfl
  · exact isCode_of_isWordByte h
  · decide

end Ambient

theorem Nest.mem_appendParam (h : b ∈ (appendParam new t).text) : b ∈ t.text ∨ b ∈ new ∨ b = 44 ∨ b = 32 := by
  have hsplit := splitDeclared_append (commas t)
  unfold appendParam at h
  dsimp only at h
  generalize (splitDeclared (commas t)).1 = front at hsplit h
  generalize (splitDeclared (commas t)).2 = behind at hsplit h
  split at h
  · rw [text_ofText] at h
    exact .inr (.inl h)
  · next hempty =>
    have hne : front ≠ [] := by simpa using hempty
    have ht := join_commas t
    rw [← hsplit, join_append_remainder hne, ← upToLast_append front] at ht
    rw [join_append_remainder (extendLast_ne_nil new front), join_extendLast new hne] at h
    rw [← ht]
    simp only [text_append, text_byte, text_ofText, mem_append, mem_cons] at h ⊢
    grind

theorem Nest.plain_appendParam (hnew : ∀ b ∈ new, Delimiter.plain b)
    (ht : t.Plain) : (appendParam new t).Plain := by
  have hword : (ofText new).Plain := plain_ofText hnew
  have hsplit := splitDeclared_append (commas t)
  unfold appendParam
  dsimp only
  generalize (splitDeclared (commas t)).1 = front at hsplit ⊢
  generalize (splitDeclared (commas t)).2 = behind at hsplit ⊢
  split
  · exact hword
  · next hempty =>
    have hne : front ≠ [] := by simpa using hempty
    have hjoin := join_commas t
    rw [← hsplit, join_append_remainder hne, ← upToLast_append front] at hjoin
    rw [← hjoin, plain_append, plain_append] at ht
    rw [join_append_remainder (extendLast_ne_nil new front), join_extendLast new hne, plain_append,
      plain_append]
    refine ⟨⟨ht.1.1, by decide, by decide, ?_⟩, ht.2⟩
    rw [ofText_append, plain_append]
    exact ⟨hword, ht.1.2⟩

/-- The declaration with one more parameter, or as it is. -/
def Declaration.gain (new : Text) (gains : Bool) (d : Declaration) : Declaration :=
  if gains then { d with heading := { d.heading with params := appendParam new d.heading.params } }
  else d

/-- The piece with a value threaded through it. -/
def Piece.thread (meant : Text → List Text → Bool) (a : Ambient) (gains : Bool) (p : Piece) : Piece where
  head :=
    match p.declaration? with
    | none => p.head.pass meant a.name []
    | some d =>
      let h := (d.gain a.declaration gains).heading
      h.lead ++ pair .paren h.params h.behind
  body? := p.body?.map (·.pass meant a.name [])

section Threaded

variable (meant : Text → List Text → Bool) (gains : Bool)

theorem Declaration.lead_gain (new : Text) (d : Declaration) :
    (d.gain new gains).heading.lead = d.heading.lead ∧
      (d.gain new gains).heading.behind = d.heading.behind ∧ (d.gain new gains).name = d.name ∧
      (d.gain new gains).type = d.type := by
  unfold Declaration.gain
  split <;> exact ⟨rfl, rfl, rfl, rfl⟩

theorem Piece.not_mem_head (hproper : p.Proper false)
    (hd : p.declaration? = some d) : 61 ∉ p.head.text := by
  cases hbody : p.body? with
  | none => exact (eq_of_declaration? hd).2 hbody
  | some body => exact (hproper.2 (by simp [hbody])).2

theorem Piece.text_head (hd : p.declaration? = some d) : p.head.text = d.heading.lead.text ++
      40 :: (d.heading.params.text ++ 41 :: d.heading.behind.text) := by
  have h := eq_of_heading? (Nest.eq_of_declaration? (eq_of_declaration? hd).1).1
  conv => lhs; rw [h]
  simp [Delimiter.opener, Delimiter.closer]

theorem Piece.head_thread (hd : p.declaration? = some d) : (p.thread meant a gains).head = d.heading.lead ++
      pair .paren (d.gain a.declaration gains).heading.params d.heading.behind := by
  obtain ⟨hlead, hbehind, -, -⟩ := d.lead_gain gains a.declaration
  simp only [thread, hd, hlead, hbehind]

variable {a : Ambient} (ha : a.Proper)
include ha

theorem Declaration.not_mem_gain (hword : isWordByte b = false) (hspace : b ≠ 32)
    (hcomma : b ≠ 44) (h : b ∉ d.heading.params.text) :
    b ∉ (d.gain a.declaration gains).heading.params.text := by
  unfold Declaration.gain
  split
  · intro hmem
    rcases mem_appendParam hmem with hmem | hmem | hmem | hmem
    · exact h hmem
    · exact ha.not_mem hword hspace hmem
    · exact hcomma hmem
    · exact hspace hmem
  · exact h

theorem Piece.not_mem_head_thread (hword : isWordByte b = false)
    (hblank : isBlank b = false) (hcomma : b ≠ 44) (h : b ∉ p.head.text) :
    b ∉ (p.thread meant a gains).head.text := by
  have hspace : b ≠ 32 := by
    rintro rfl
    exact absurd hblank (by decide)
  have hname : b ∉ a.name := fun hmem => by
    rw [ha.word.2 b hmem] at hword
    cases hword
  cases hd : p.declaration? with
  | none =>
    simp only [thread, hd]
    rwa [mem_pass hblank hcomma hname]
  | some d =>
    rw [head_thread meant gains hd]
    rw [text_head hd] at h
    simp only [mem_append, mem_cons, not_or] at h
    have hparams := d.not_mem_gain gains ha hword hspace hcomma h.2.2.1
    simp [Delimiter.opener, Delimiter.closer, h, hparams]

/-- The threaded piece declares what the piece declares, with the new parameter. -/
theorem Piece.declaration?_thread (hproper : p.Proper false) :
    (p.thread meant a gains).declaration? = p.declaration?.map (·.gain a.declaration gains) := by
  cases hd : p.declaration? with
  | none =>
    have hhead : (p.thread meant a gains).head = p.head.pass meant a.name [] := by
      simp only [thread, hd]
    have hassign : 61 ∉ a.name := ha.word.not_mem rfl
    unfold Piece.declaration? at hd ⊢
    rw [hhead, Option.map_none]
    split at hd
    · next hcond =>
      rw [if_pos]
      simp only [Bool.and_eq_true, contains_eq_mem, decide_eq_true_eq] at hcond ⊢
      refine ⟨by simpa [thread] using hcond.1, ?_⟩
      exact (mem_pass rfl (by decide) hassign p.head []).mpr hcond.2
    · rw [declaration?_pass meant ha.word hd, ite_self]
  | some d =>
    have hassign := not_mem_head_thread meant gains ha rfl rfl (by decide) (not_mem_head hproper hd)
    obtain ⟨hheading, hparen, hblank, hnamed, hname, htype⟩ :=
      Nest.eq_of_declaration? (eq_of_declaration? hd).1
    have hdecl : (p.thread meant a gains).head.declaration? = some (d.gain a.declaration gains) := by
      rw [head_thread meant gains hd]
      simp only [Nest.declaration?, heading?_replace hheading, Option.bind_some]
      rw [if_neg (by simp [hparen, hblank, hnamed])]
      unfold Declaration.gain
      rw [← hname, ← htype]
      split <;> rfl
    rw [Option.map_some, ← hdecl, Piece.declaration?, if_neg]
    simp [hassign]

theorem Piece.proper_thread (hproper : p.Proper false) : (p.thread meant a gains).Proper false := by
  refine ⟨?_, ?_⟩
  · cases hd : p.declaration? with
    | none =>
      simp only [thread, hd]
      exact passes_pass meant ha.word hproper.1 []
    | some d =>
      have hassign := not_mem_head hproper hd
      have hpasses := hproper.1
      rw [text_head hd] at hassign
      rw [eq_of_heading? (Nest.eq_of_declaration? (eq_of_declaration? hd).1).1, passes_append] at hpasses
      simp only [mem_append, mem_cons, not_or] at hassign
      have hparams := d.not_mem_gain gains ha rfl (by decide) (by decide) hassign.2.2.1
      rw [head_thread meant gains hd, passes_append]
      refine ⟨hpasses.1, fun h => (by cases h), ?_⟩
      have htail := hpasses.2.2
      simp only [contains_eq_mem, hassign, hparams, decide_false, Bool.or_false] at htail ⊢
      exact htail
  · intro hbody
    refine ⟨rfl, not_mem_head_thread meant gains ha rfl rfl (by decide) (hproper.2 ?_).2⟩
    simpa [thread] using hbody

theorem Piece.plain_thread (hhead : p.head.Plain) (hbody : ∀ b ∈ p.body?, b.Plain) :
    (p.thread meant a gains).head.Plain ∧ ∀ b ∈ (p.thread meant a gains).body?, b.Plain := by
  refine ⟨?_, ?_⟩
  · cases hd : p.declaration? with
    | none =>
      simp only [thread, hd]
      exact plain_pass meant ha.word hhead []
    | some d =>
      have hplain := hhead
      rw [eq_of_heading? (Nest.eq_of_declaration? (eq_of_declaration? hd).1).1, plain_append] at hplain
      rw [head_thread meant gains hd, plain_append]
      refine ⟨hplain.1, ?_, hplain.2.2⟩
      unfold Declaration.gain
      split
      · refine plain_appendParam ?_ hplain.2.1
        intro b hb
        rcases ha.bytes b hb with h | rfl
        · exact plain_of_isWordByte h
        · decide
      · exact hplain.2.1
  · intro b hb
    simp only [thread, Option.mem_def, Option.map_eq_some_iff] at hb
    obtain ⟨body, hp, rfl⟩ := hb
    exact plain_pass meant ha.word (hbody body hp) []

end Threaded

end GlslToMetal
