import GlslToMetal.Proofs.Item.Partition

/-! Where the parts of a function stand. The name, the list and the body of a function are found by
scans of parts of the program, and their offsets agree: the parts stand in the function in their order,
and the functions in the program. This holds of every program whose functions can be read. -/

namespace GlslToMetal

open List Text Checked

variable {f : Signature} {item : Item} {m : Text} {p : Parameter}

theorem Parameter.lt_of_ofRange? (h : ofRange? m p.range = .ok (some p)) : p.range.start < p.range.stop := by
  obtain ⟨source, hsource, hp⟩ := exists_of_bind h
  obtain ⟨hle, -, rfl⟩ := of_slice hsource
  refine Nat.lt_of_le_of_ne hle fun heq => ?_
  rw [cut, heq, Nat.sub_self] at hp
  cases hp

namespace Signature

/-- The parts of a function, as they are read from the masked text, stand in their order: the name right
before the list, the parameters one behind another in the list, and a body or a `;` behind it. -/
structure Coherent (m : Text) (f : Signature) : Prop where
  start : f.range.start ≤ f.nameRange.start
  name : f.nameRange.start < f.nameRange.stop ∧ m.slice f.nameRange = .ok f.name
  allowed : f.name.isIdentifier ∧ f.name ∉ nonTypeWords
  gap : f.nameRange.stop ≤ f.openParen ∧ (m.cut ⟨f.nameRange.stop, f.openParen⟩).all isBlank
  parens : f.openParen < f.closeParen ∧ m[f.openParen]? = some 40 ∧ m[f.closeParen]? = some 41 ∧
    m.matching? f.openParen = some f.closeParen
  params : ∀ p ∈ f.params, f.openParen < p.range.start ∧ p.range.start < p.range.stop ∧
    p.range.stop ≤ f.closeParen
  apart : f.params.Pairwise (·.range.stop < ·.range.start)
  body : ∀ body ∈ f.body?, f.closeParen < body.start - 1 ∧ m[body.start - 1]? = some 123 ∧
    (m.cut ⟨f.closeParen + 1, body.start - 1⟩).isWhite ∧ body.start ≤ body.stop ∧ body.stop < f.range.stop
  prototype : f.body? = none → f.closeParen < f.range.stop - 1
  stop : f.range.stop ≤ m.length

theorem ReadFrom.params_range (h : f.ReadFrom m item) :
    (∀ p ∈ f.params, f.openParen < p.range.start ∧ p.range.start < p.range.stop ∧
      p.range.stop ≤ f.closeParen) ∧
      f.params.Pairwise (·.range.stop < ·.range.start) := by
  obtain ⟨args, found, hargs, hfound, hparams⟩ := h.params
  obtain ⟨_, hargs', hbounds, hapart⟩ :=
    @returns_splitArgs f.closeParen f.openParen m (Nat.le_of_lt (matching?_bounds h.closes).2)
  obtain rfl := Except.ok.inj (hargs.symm.trans hargs')
  have hsub : f.params.map (·.range) <+ args.map id := hparams ▸ sublist_of_mapM hfound fun r p =>
    Parameter.range_of_ofRange?
  rw [map_id] at hsub
  refine ⟨fun p hp => ?_, pairwise_map.mp (hapart.sublist hsub)⟩
  obtain ⟨hopen, -, hclose⟩ := hbounds p.range (hsub.subset (mem_map_of_mem hp))
  rw [hparams] at hp
  obtain ⟨p?, hp?, rfl⟩ := mem_filterMap.mp hp
  obtain ⟨r, -, hr⟩ := exists_of_mem_mapM hfound hp?
  have hrange := Parameter.range_of_ofRange? hr
  exact ⟨hopen, Parameter.lt_of_ofRange? (hrange ▸ hr), hclose⟩

theorem paren_of_takeWhile {i : Nat} {r : Range} (hr : r.Within m.length)
    (hi : i = r.start + ((m.cut r).takeWhile (· != 40)).length) (hlt : i < r.stop) : m[i]? = some 40 := by
  obtain ⟨pre, x, post, rfl, rfl⟩ := exists_of_within hr
  rw [cut_append] at hi
  subst hi
  replace hlt := Nat.lt_of_add_lt_add_left hlt
  rw [append_assoc, getElem?_append_right (Nat.le_add_right _ _), Nat.add_sub_cancel_left,
    getElem?_append_left hlt]
  clear hr
  induction x with
  | nil => cases hlt
  | cons b x ih =>
    by_cases hb : b = 40
    · simp [hb]
    · simp only [takeWhile_cons, bne_iff_ne.mpr hb, if_true, length_cons, Nat.succ_lt_succ_iff] at hlt ⊢
      exact ih hlt

theorem ReadFrom.coherent (h : f.ReadFrom m item) (hitem : item ∈ m.items) : f.Coherent m := by
  obtain ⟨header, lead, behind, whole, hheader, hopen, hopen', hclose, hbehind, hwhite, hlead,
    hwhole, hname⟩ := h.header
  have hwithin := Item.within_of_mem_items hitem
  have hmarked : item.Marked ([] ++ m) := (laid_items m).marked rfl item hitem
  have hheaderIn := header?_within hwithin hheader
  obtain ⟨-, -, rfl⟩ := of_slice hbehind
  obtain ⟨hnameLe, -, hnameCut⟩ := of_slice h.name
  obtain ⟨_, hlead', htrims⟩ := @returns_trimRange ⟨header.start, f.openParen⟩ m
    ⟨by dsimp only; omega, Nat.le_trans (Nat.le_of_lt hopen') hheaderIn.2⟩
  obtain rfl := Except.ok.inj (hlead.symm.trans hlead')
  have hparen := paren_of_takeWhile hheaderIn hopen hopen'
  have hnamed : f.nameRange.start ≠ f.nameRange.stop := by
    intro heq
    have hidentifier := h.identifier
    rw [← hnameCut, cut, heq, Nat.sub_self] at hidentifier
    cases hidentifier
  have hleadLe := htrims.start_le
  rw [hname] at hnameLe hnamed
  refine ⟨?_, ⟨by rw [hname]; exact Nat.lt_of_le_of_ne hnameLe hnamed, h.name⟩,
    ⟨h.identifier, by simpa using h.allowed⟩,
    by rw [hname]; exact ⟨htrims.stop_le, htrims.behind⟩,
    ⟨(matching?_bounds h.closes).1, hparen, @closer_of_matching? .paren _ _ _ hparen h.closes, h.closes⟩,
    h.params_range.1, h.params_range.2, ?_, ?_, h.range ▸ hwithin.range.2⟩
  · rw [h.range, hname]
    cases item with
    | block start opened closed stop =>
      cases hheader
      exact Nat.le_trans hleadLe (Nat.le_add_right _ _)
    | statement start semicolon =>
      obtain ⟨-, hheader⟩ := Option.ite_none_left_eq_some.mp hheader
      cases hheader
      exact Nat.le_trans hleadLe (Nat.le_add_right _ _)
    | _ => cases hheader
  · rw [h.body?, h.range]
    cases item with
    | block start opened closed stop =>
      cases hheader
      rintro _ ⟨⟩
      exact ⟨hclose, hmarked.2.1, hwhite, hwithin.2.1, hwithin.2.2.1⟩
    | _ => exact fun _ hbody => by cases hbody
  · rw [h.body?, h.range]
    cases item with
    | statement start semicolon =>
      obtain ⟨-, hheader⟩ := Option.ite_none_left_eq_some.mp hheader
      cases hheader
      exact fun _ => hclose
    | block => exact fun hbody => by cases hbody
    | _ => cases hheader

end Signature

/-- **The parts of the functions of a program stand where they are said to**, and the functions stand
one behind another. -/
theorem Program.functions_coherent {fs : List Signature} {source : Text} (h : functions source = .ok fs) :
    (∀ f ∈ fs, f.Coherent source.mask) ∧
      fs.Pairwise fun f g => f.range.start < g.range.start ∧ f.range.stop ≤ g.range.start := by
  refine ⟨fun f hf => ?_, ?_⟩
  · obtain ⟨item, hitem, hof⟩ := exists_ofItem? h hf
    exact (Signature.of_ofItem? hof).coherent hitem
  · obtain ⟨found, hfound, hfs⟩ := exists_of_bind h
    obtain rfl := Except.ok.inj hfs
    have hitems : (source.mask.items.map Item.range).Pairwise fun r s =>
        r.start < s.start ∧ r.stop ≤ s.start :=
      pairwise_map.mpr (laid_items source.mask).pairwise
    exact pairwise_map.mp
      (hitems.sublist (sublist_of_mapM hfound fun item f hof => (Signature.of_ofItem? hof).range))

/-- A prototype and a definition, with comments around the names, an empty list and a parameter without
a name. -/
theorem Program.functions_coherent_commented :
    let source : Text := "float /* é */ f (in vec2, float[2] b) ; void g/**/( )\n\x7b\x7d"
    ∃ fs, functions source = .ok fs ∧ fs.length = 2 ∧ (∀ f ∈ fs, f.Coherent source.mask) ∧
      fs.Pairwise fun f g => f.range.start < g.range.start ∧ f.range.stop ≤ g.range.start := by
  intro source
  have hlength : (functions source).map length = .ok 2 := by
    simp only [source]
    rw [ofString_ofList]
    decide +kernel
  cases hfs : functions source with
  | error => rw [hfs] at hlength; cases hlength
  | ok fs =>
    rw [hfs] at hlength
    exact ⟨fs, rfl, Except.ok.inj hlength, functions_coherent hfs⟩

end GlslToMetal
