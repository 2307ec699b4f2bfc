import GlslToMetal.Program
import GlslToMetal.Proofs.Item.Laid
import GlslToMetal.Proofs.Text.Bounds

/-! The functions of a program in ASCII. Whatever the program is, its functions can be read, and
their offsets lie inside the program: the parameter list and the body inside the item, and every
parameter between the parentheses. -/

namespace GlslToMetal

open List Text Checked

variable {item : Item} {words : List Text} {p : Parameter} {r : Range} {f : Signature} {m source t : Text}

namespace Text

/-- A kind of texts to which the texts in ASCII belong: they can be joined, and split before a byte in
ASCII. -/
structure Closed (Is : Text → Prop) : Prop where
  ascii {t : Text} : t.IsAscii → Is t
  append {s t : Text} : Is s → Is t → Is (s ++ t)
  split {s t : Text} {b : UInt8} : b < 128 → Is (s ++ b :: t) → Is s ∧ Is (b :: t)

theorem closed_isAscii : Closed IsAscii where
  ascii h := h
  append := IsAscii.append
  split _ h := ⟨h.of_subset (subset_append_left _ _), h.of_subset (subset_append_right _ _)⟩

namespace Closed

variable {Is : Text → Prop} (k : Closed Is) {ts : List Text}
include k

theorem nil : Is [] := k.ascii (by simp [IsAscii])

theorem flatten (h : ∀ t ∈ ts, Is t) : Is ts.flatten := by
  induction ts with
  | nil => exact k.nil
  | cons t ts ih =>
    obtain ⟨ht, hts⟩ := forall_mem_cons.mp h
    exact k.append ht (ih hts)

theorem intercalate {sep : Text} (hsep : Is sep) (h : ∀ t ∈ ts, Is t) : Is (sep.intercalate ts) := by
  unfold List.intercalate
  induction ts with
  | nil => exact k.nil
  | cons t ts ih =>
    obtain ⟨ht, hts⟩ := forall_mem_cons.mp h
    cases ts with
    | nil => simpa using ht
    | cons u ts => exact k.append ht (k.append hsep (ih hts))

end Closed

end Text

namespace Parameter

/-- The texts of the parameter are of a kind. -/
structure Made (Is : Text → Prop) (p : Parameter) : Prop where
  type : Is p.type
  name : Is p.name
  arraySuffix : ∀ t ∈ p.arraySuffix, Is t

/-- The texts of the parameter are in ASCII. -/
structure IsAscii (p : Parameter) : Prop where
  type : p.type.IsAscii
  name : p.name.IsAscii
  arraySuffix : ∀ t ∈ p.arraySuffix, t.IsAscii

theorem declarator_cases (word : Text) : declarator word = (word, none) ∨
      ∃ name rest, word = name ++ 91 :: rest ∧ declarator word = (name, some (91 :: rest)) := by
  have hsplit : word.takeWhile (· != 91) ++ word.dropWhile (· != 91) = word := takeWhile_append_dropWhile
  have hhead := head?_dropWhile_not (· != 91) word
  unfold declarator
  generalize word.takeWhile (· != 91) = name, word.dropWhile (· != 91) = behind at hsplit hhead
  subst hsplit
  cases behind with
  | nil => simp
  | cons b rest =>
    simp only [head?_cons, bne_eq_false_iff_eq] at hhead
    subst hhead
    exact .inr ⟨name, rest, rfl, by simp⟩

theorem takeQualifiers_sublist (q : Qualifier) (c : Bool) (words : List Text) :
    List.Sublist (takeQualifiers q c words).2.2 words := by
  induction words generalizing q c with
  | nil => exact Sublist.refl _
  | cons word rest ih =>
    unfold takeQualifiers
    split
    · exact (ih _ _).cons _
    split
    · exact (ih _ _).cons _
    · exact Sublist.refl _

theorem made_declarator {Is : Text → Prop} (k : Closed Is) {word : Text} (h : Is word) :
    Is (declarator word).1 ∧ ∀ t ∈ (declarator word).2, Is t := by
  rcases declarator_cases word with hword | ⟨name, rest, rfl, hword⟩
  · rw [hword]
    exact ⟨h, by simp⟩
  · obtain ⟨hname, hrest⟩ := k.split (by decide) h
    rw [hword]
    exact ⟨hname, fun t ht => Option.mem_some.mp ht ▸ hrest⟩

theorem made_declared {Is : Text → Prop} (k : Closed Is) (h : ∀ w ∈ words, Is w) {type name : Text}
    {suffix : Option Text} (hdeclared : declared words = some (type, name, suffix)) :
    Is type ∧ Is name ∧ ∀ t ∈ suffix, Is t := by
  match words, hdeclared with
  | [only], hdeclared =>
    cases hdeclared
    exact ⟨h _ mem_cons_self, k.nil, by simp⟩
  | first :: second :: rest, hdeclared =>
    have hlast := h _ (getLast_mem (cons_ne_nil first (second :: rest)))
    cases hdeclared
    exact ⟨k.intercalate (k.ascii (by simp [Text.IsAscii])) fun w hw => h w ((dropLast_sublist _).subset hw),
      made_declarator k hlast⟩

theorem made_ofWords? {Is : Text → Prop} (k : Closed Is) (h : ∀ w ∈ words, Is w)
    (hp : ofWords? words r = some p) :
    p.Made Is ∧ p.range = r := by
  unfold ofWords? at hp
  split at hp
  · cases hp
  simp only [bind, Option.bind_eq_some_iff] at hp
  obtain ⟨⟨type, name, suffix⟩, hdeclared, hp⟩ := hp
  cases hp
  have hrest : ∀ w ∈ (takeQualifiers .unmarked false words).2.2.filter (· != ("&" : Text)), Is w :=
    fun w hw => h w ((takeQualifiers_sublist _ _ _).subset (mem_filter.mp hw).1)
  obtain ⟨htype, hname, hsuffix⟩ := made_declared k hrest hdeclared
  exact ⟨⟨htype, hname, hsuffix⟩, rfl⟩

theorem spaceReferences_of_not_mem (h : 38 ∉ t) : spaceReferences t = t := by
  unfold spaceReferences
  induction t with
  | nil => rfl
  | cons b t ih =>
    rw [mem_cons, not_or] at h
    have hb : (b == 38) = false := beq_eq_false_iff_ne.mpr (Ne.symm h.1)
    rw [flatMap_cons, ih h.2, hb]
    rfl

theorem isAscii_spaceReferences (h : t.IsAscii) : (spaceReferences t).IsAscii := by
  intro b hb
  obtain ⟨a, ha, hb⟩ := mem_flatMap.mp hb
  split at hb
  · rw [mem_cons, mem_cons, mem_singleton] at hb
    rcases hb with rfl | rfl | rfl <;> decide
  · rw [mem_singleton.mp hb]
    exact h a ha

theorem returns_ofRange? (hm : m.IsAscii) (hr : r.Within m.length) :
    (ofRange? m r).Returns fun p? => ∀ p ∈ p?, p.IsAscii ∧ p.range = r := by
  refine (returns_slice hm hr).bind fun source hsource => returns_pure fun p hp => ?_
  subst hsource
  obtain ⟨hmade, hrange⟩ := made_ofWords? closed_isAscii (isAscii_spaceReferences (hm.cut r)).words hp
  exact ⟨⟨hmade.type, hmade.name, hmade.arraySuffix⟩, hrange⟩

end Parameter

namespace Signature

/-- The offsets of a function are in order and not beyond `n`, and its parameters are in ASCII. -/
structure Sound (n : Nat) (f : Signature) : Prop where
  range : f.range.Within n
  nameRange : f.nameRange.Within n
  parens : f.openParen < f.closeParen ∧ f.closeParen < n
  params : ∀ p ∈ f.params, p.IsAscii ∧
    f.openParen < p.range.start ∧ p.range.start ≤ p.range.stop ∧ p.range.stop ≤ f.closeParen
  body : ∀ r ∈ f.body?, r.Within n

theorem Sound.param {n : Nat} (h : f.Sound n) (hp : p ∈ f.params) : p.range.Within n := by
  have := (h.params p hp).2
  have := h.parens
  exact ⟨by omega, by omega⟩

theorem header?_within (h : item.Within m.length)
    (hr : header? m item = some r) : r.Within m.length := by
  cases item with
  | block start opened closed stop =>
    cases hr
    exact ⟨h.1, by have := h.2; dsimp only; omega⟩
  | statement start semicolon =>
    obtain ⟨-, hr⟩ := Option.ite_none_left_eq_some.mp hr
    cases hr
    exact ⟨h.1, Nat.le_of_lt h.2⟩
  | _ => cases hr

theorem nameOffset_le (t : Text) : nameOffset t ≤ t.length := by
  unfold nameOffset
  have hwide := (dropWhile_sublist (l := t.reverse.dropWhile isWordByte) isContinuation).length_le
  have hword := (dropWhile_sublist (l := t.reverse) isWordByte).length_le
  rw [length_reverse] at hword
  omega

/-- How a function is read from an item of a text. -/
structure ReadFrom (m : Text) (item : Item) (f : Signature) : Prop where
  range : f.range = item.range
  body? : f.body? = item.body?
  name : m.slice f.nameRange = .ok f.name
  identifier : f.name.isIdentifier
  allowed : nonTypeWords.contains f.name = false
  closes : m.matching? f.openParen = some f.closeParen
  params : ∃ args found, m.splitArgs f.openParen f.closeParen = .ok args ∧
    args.mapM (Parameter.ofRange? m) = .ok found ∧ f.params = found.filterMap id
  header : ∃ header lead behind whole, header? m item = some header ∧
    f.openParen = header.start + ((m.cut header).takeWhile (· != 40)).length ∧ f.openParen < header.stop ∧
    f.closeParen < header.stop ∧ m.slice ⟨f.closeParen + 1, header.stop⟩ = .ok behind ∧ behind.isWhite ∧
    m.trimRange ⟨header.start, f.openParen⟩ = .ok lead ∧ m.slice lead = .ok whole ∧
    f.nameRange = ⟨lead.start + nameOffset whole, lead.stop⟩

theorem of_ofItem? (h : ofItem? m item = .ok (some f)) : f.ReadFrom m item := by
  unfold ofItem? at h
  split at h
  · next header hheader =>
    dsimp only at h
    split at h
    · cases h
    next hopen =>
    split at h
    · next closeParen hclose =>
      split at h
      · cases h
      next hbehind =>
      obtain ⟨behind, hslice, h⟩ := exists_of_bind h
      split at h
      · cases h
      next hwhite =>
      obtain ⟨lead, hlead, h⟩ := exists_of_bind h
      obtain ⟨whole, hwhole, h⟩ := exists_of_bind h
      obtain ⟨name, hname, h⟩ := exists_of_bind h
      obtain ⟨type, -, h⟩ := exists_of_bind h
      split at h
      · cases h
      next hnamed =>
      obtain ⟨args, hargs, h⟩ := exists_of_bind h
      obtain ⟨found, hfound, h⟩ := exists_of_bind h
      cases h
      simp only [Bool.not_eq_true, Bool.or_eq_false_iff, Bool.not_eq_false'] at hnamed hwhite
      exact ⟨rfl, rfl, hname, hnamed.1.1.1, hnamed.2, hclose, ⟨args, found, hargs, hfound, rfl⟩,
        header, lead, behind, whole,
        hheader, rfl, Nat.lt_of_not_le hopen, Nat.lt_of_not_le hbehind, hslice, hwhite, hlead, hwhole, rfl⟩
    · cases h
  · cases h

/-- **An item of a text in ASCII can be read as a function**, and the function lies inside it. -/
theorem returns_ofItem? (hm : m.IsAscii) (hitem : item.Within m.length) :
    (ofItem? m item).Returns fun f? => ∀ f ∈ f?, f.Sound m.length := by
  have hnone : (pure none : Checked (Option Signature)).Returns fun f? => ∀ f ∈ f?, f.Sound m.length :=
    returns_pure (by simp)
  unfold ofItem?
  split
  · next header hheader =>
    have hheader := header?_within hitem hheader
    dsimp only
    generalize hopen : header.start + ((m.cut header).takeWhile (· != 40)).length = openParen
    split
    · exact hnone
    split
    · next closeParen hclose =>
      split
      · exact hnone
      next hbehind =>
      have hparens := matching?_bounds hclose
      have htail : Range.Within m.length ⟨closeParen + 1, header.stop⟩ :=
        ⟨by dsimp only; omega, hheader.2⟩
      refine (returns_slice hm htail).bind fun tail _ => ?_
      split
      · exact hnone
      have hfront : Range.Within m.length ⟨header.start, openParen⟩ :=
        ⟨by dsimp only; omega, by dsimp only; omega⟩
      refine (returns_trimRange hfront).bind fun lead hlead => ?_
      have hwithin : lead.Within m.length := ⟨hlead.le, Nat.le_trans hlead.stop_le hfront.2⟩
      refine (returns_slice hm hwithin).bind fun text htext => ?_
      have hname : Range.Within m.length ⟨lead.start + nameOffset text, lead.stop⟩ := by
        have := nameOffset_le text
        have := length_cut_le m lead
        have := hlead.le
        rw [htext] at *
        exact ⟨by dsimp only; omega, hwithin.2⟩
      refine (returns_slice hm hname).bind fun name _ => ?_
      have htype : Range.Within m.length ⟨lead.start, lead.start + nameOffset text⟩ :=
        ⟨Nat.le_add_right _ _, Nat.le_trans hname.1 hname.2⟩
      refine (returns_slice hm htype).bind fun type _ => ?_
      split
      · exact hnone
      refine (returns_splitArgs (Nat.le_of_lt hparens.2)).bind fun args hargs => ?_
      have hparam : ∀ r ∈ args, (Parameter.ofRange? m r).Returns fun p? => ∀ p ∈ p?, p.IsAscii ∧
          openParen < p.range.start ∧ p.range.start ≤ p.range.stop ∧ p.range.stop ≤ closeParen := by
        intro r hr
        have hbounds := hargs.1 r hr
        refine (Parameter.returns_ofRange? hm ⟨hbounds.2.1, by omega⟩).mono fun p? h p hp => ?_
        obtain ⟨hascii, rfl⟩ := h p hp
        exact ⟨hascii, hbounds⟩
      refine (returns_mapM hparam).bind fun params hparams => returns_pure fun f hf => ?_
      cases hf
      refine ⟨hitem.range, hname, hparens, fun p hp => ?_, hitem.body?⟩
      obtain ⟨p?, hp?, hp⟩ := mem_filterMap.mp hp
      exact hparams p? hp? p hp
    · exact hnone
  · exact hnone

end Signature

/-- **The functions of a program in ASCII can be read**, and lie inside the program. -/
theorem Program.returns_functions (h : source.IsAscii) :
    (functions source).Returns fun fs => ∀ f ∈ fs, f.Sound source.length := by
  have hitem : ∀ item ∈ source.mask.items, (Signature.ofItem? source.mask item).Returns _ :=
    fun item hitem => Signature.returns_ofItem? h.mask (Item.within_of_mem_items hitem)
  refine (returns_mapM hitem).bind fun found hfound => returns_pure fun f hf => ?_
  obtain ⟨f?, hf?, hf⟩ := mem_filterMap.mp hf
  have := hfound f? hf? f hf
  rwa [length_mask] at this

/-- What a function of a program is read from: an item of the masked program. -/
theorem Program.exists_ofItem? {fs : List Signature} (h : functions source = .ok fs)
    (hf : f ∈ fs) : ∃ item ∈ source.mask.items, Signature.ofItem? source.mask item = .ok (some f) := by
  obtain ⟨found, hfound, hfs⟩ := exists_of_bind h
  rw [← Except.ok.inj hfs] at hf
  obtain ⟨f?, hf?, rfl⟩ := mem_filterMap.mp hf
  exact exists_of_mem_mapM hfound hf?

end GlslToMetal
