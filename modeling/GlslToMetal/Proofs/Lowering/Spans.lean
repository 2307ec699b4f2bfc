import GlslToMetal.Proofs.Ambient.Usage
import GlslToMetal.Proofs.Lowering.Encoding
import GlslToMetal.Proofs.Lowering.Total
import GlslToMetal.Proofs.Text.Standing

/-! Where diagnostics point. A step finds what it reports in the masked text that it reads, so the span
of a diagnostic lies in that text and what the diagnostic names stands there as a whole word; threading
reports on the text that it has made. Only where the steps before have left the text as it was up to the
end of the span does the span point at the same place of the program that was given. -/

namespace GlslToMetal

open List Text Checked Unicode

variable {d : Diagnostic} {ambients : List Ambient} {cs n rest : List Char} {semicolon start : Nat}
  {source t : Text}

namespace Diagnostic

/-- What the message of a diagnostic names: a global, a parameter or a function. -/
inductive Names : Diagnostic → Text → Prop where
  | global (name : Text) (range : Range) : Names (Global.promoted name range) name
  | parameter (function : Text) (p : Parameter) : Names (Parameter.outputArray function p) p.name
  | function (mode : Propagation) (name ambient : Text) (range? : Option Range) :
      Names (Threading.unthreaded mode name ambient range?) name

/-- The codes of the diagnostics that name something. -/
def namingCodes : List String := ["mutable-global-promoted", "array-out-parameter", "transitive-uniform-use"]

/-- The diagnostic is one of the step, made for a range of the text in which what it names stands. -/
structure Marks (d : Diagnostic) (step : Step) (t : Text) : Prop where
  context : d.sourceContext = some step.name
  range : ∀ s, d.span = some s → ∃ r, s = Span.ofRange r ∧ r.Within t.length ∧
    (d.code.any namingCodes.contains → ∃ name, d.Names name ∧ (t.cut r).HasWord name)

/-- The span lies in the text, and what the diagnostic names stands there as a whole word. -/
structure PointsInto (d : Diagnostic) (s : Span) (t : Text) : Prop where
  ordered : s.lo ≤ s.hi
  inside : s.hi.toNat ≤ t.length
  named : d.code.any namingCodes.contains → ∃ name, d.Names name ∧ (t.cut s.range).HasWord name ∧
    (name.isIdentifier → (t.cut s.range).containsWord name)

theorem Marks.pointsInto {step : Step} (h : d.Marks step t) {s : Span}
    (hs : d.span = some s) (ht : t.length < 2 ^ 32) : d.PointsInto s t := by
  obtain ⟨r, rfl, ⟨hordered, hinside⟩, hnamed⟩ := h.range s hs
  have hrange : (Span.ofRange r).range = r := Span.range_ofRange ⟨hordered, hinside⟩ ht
  have hlo : (Span.ofRange r).lo.toNat = r.start := congrArg Range.start hrange
  have hhi : (Span.ofRange r).hi.toNat = r.stop := congrArg Range.stop hrange
  refine ⟨?_, ?_, fun hcode => ?_⟩
  · rwa [UInt32.le_iff_toNat_le, hlo, hhi]
  · rwa [hhi]
  · obtain ⟨name, hname, hword⟩ := hnamed hcode
    rw [hrange]
    refine ⟨name, hname, hword, fun hidentifier => ?_⟩
    exact (hasWord_iff_containsWord (isWordByte_of_isIdentifier hidentifier)).mp hword

theorem PointsInto.of_take {s : Span} (h : d.PointsInto s t)
    (htake : source.take s.hi.toNat = t.take s.hi.toNat) :
    d.PointsInto s source ∧ s.lineColumn source = s.lineColumn t := by
  have hordered : s.lo.toNat ≤ s.hi.toNat := UInt32.le_iff_toNat_le.mp h.ordered
  have hinside : s.hi.toNat ≤ source.length := by
    have hlength := congrArg length htake
    have := h.inside
    rw [length_take, length_take] at hlength
    omega
  have hcut : source.cut s.range = t.cut s.range := by
    unfold cut Span.range
    dsimp only
    rw [← drop_take, ← drop_take, htake]
  refine ⟨⟨h.ordered, hinside, hcut ▸ h.named⟩, ?_⟩
  have hbefore : source.take s.lo.toNat = t.take s.lo.toNat := by
    have := congrArg (take s.lo.toNat) htake
    rwa [take_take, take_take, Nat.min_eq_left hordered] at this
  unfold Span.lineColumn
  rw [hbefore]

end Diagnostic

theorem Directive.yields_spans (source : Text) :
    (strip source).Yields fun r => ∀ d ∈ r.1, d.Marks .directives source := by
  refine (yields_self _).bind fun found _ => yields_pure fun d hd => ?_
  dsimp only at hd
  split at hd
  · cases hd
  · rw [mem_singleton.mp hd]
    exact ⟨rfl, nofun⟩

theorem Builtin.yields_spans (modulus : Modulus) (source : Text) :
    (lower modulus source).Yields fun r => ∀ d ∈ r.1, d.Marks .builtins source := by
  refine (yields_self _).bind fun edits _ => ?_
  refine (yields_self _).bind fun result _ => yields_pure fun d hd => ?_
  cases modulus with
  | exact => cases hd
  | approximate =>
    dsimp only at hd
    unfold approximated at hd
    split at hd
    · cases hd
    · next first rest hsites =>
      obtain rfl := mem_singleton.mp hd
      have hbounds := Call.bounds_of_mem_sites (hsites ▸ mem_cons_self : first ∈ Call.sites source.mask "mod")
      rw [length_mask] at hbounds
      refine ⟨rfl, fun s hs =>
        ⟨first.nameRange, (Option.some.inj hs).symm, ⟨hbounds.1, by omega⟩, fun hcode => ?_⟩⟩
      have hcode : Diagnostic.namingCodes.contains "approximate-mod" := hcode
      exact absurd hcode (by decide)

theorem Span.ofRange_range (s : Span) : Span.ofRange s.range = s :=
  congrArg₂ Span.mk (UInt32.ofNat_toNat) (UInt32.ofNat_toNat)

theorem Sampling.yields_spans (h : source.Encoded) :
    (lower source).Yields fun r => ∀ d ∈ r.1, d.Marks .sampling source := by
  refine (yields_self _).bind fun found _ => ?_
  have hdiagnostic : ∀ site : Site,
      (do return unsupported (← source.slice (Span.ofRange site.range).range) site.range :
        Checked Diagnostic).Yields (·.Marks .sampling source) := by
    intro site
    refine (h.slice _).bind fun call hcall => yields_pure ⟨rfl, fun s hs => ?_⟩
    refine ⟨(Span.ofRange site.range).range,
      (Option.some.inj hs).symm.trans (Span.ofRange_range _).symm, hcall.2.2,
      fun hcode => ?_⟩
    have hcode : Diagnostic.namingCodes.contains "unsupported-texture-call" := hcode
    exact absurd hcode (by decide)
  refine (yields_mapM fun site _ => hdiagnostic site).bind fun diagnostics hdiagnostics => ?_
  exact (yields_self _).bind fun result _ => yields_pure hdiagnostics

theorem Usage.yields_discover (source : Text) (ambients : List Ambient) :
    (discover source ambients).Yields fun uses => ∀ u ∈ uses,
      ∃ fs f, Program.functions source = .ok fs ∧ fs[u.index]? = some f ∧ f.name = u.name := by
  refine (yields_self _).bind fun fs hfs => ?_
  have huse : ∀ x ∈ fs.zipIdx, (ofFunction? source.mask ambients (Program.entryPoint? fs) x.1 x.2).Yields
      fun u? => ∀ u ∈ u?, ∃ f, fs[u.index]? = some f ∧ f.name = u.name := by
    rintro ⟨f, index⟩ hmem
    dsimp only
    unfold ofFunction?
    split
    · exact yields_pure fun u hu => by cases hu
    split
    · refine (yields_self _).bind fun names _ => yields_pure fun u hu => ?_
      obtain ⟨-, hu⟩ := Option.ite_none_left_eq_some.mp hu
      cases hu
      exact ⟨f, mem_zipIdx_iff_getElem?.mp hmem, rfl⟩
    · exact yields_pure fun u hu => by cases hu
  refine (yields_mapM huse).bind fun found hfound => yields_pure fun u hu => ?_
  obtain ⟨u?, hu?, hu⟩ := mem_filterMap.mp (Use.mem_foldr_place.mp hu)
  obtain ⟨f, hf, hname⟩ := hfound u? hu? u hu
  exact ⟨fs, f, hfs, hf, hname⟩

theorem Threading.yields_report {mode : Propagation} (h : source.Encoded)
    {uses : List Use} (huses : Usage.discover source ambients = .ok uses) :
    (report mode source uses).Yields fun ds => ∀ d ∈ ds, d.Marks .ambients source := by
  unfold report
  split
  · exact yields_pure nofun
  refine (yields_self _).bind fun fs hfs => yields_pure fun d hd => ?_
  obtain ⟨u, hu, hd⟩ := mem_flatMap.mp hd
  obtain ⟨a, -, rfl⟩ := mem_map.mp hd
  refine ⟨rfl, fun s hs => ?_⟩
  obtain ⟨fs', f, hfs', hf, hname⟩ := Usage.yields_discover source ambients uses huses u hu
  cases hfs.symm.trans hfs'
  obtain ⟨hslice, hidentifier, -⟩ := Program.yields_functions source fs hfs f (mem_of_getElem? hf)
  obtain ⟨-, hcut, hordered, hinside⟩ := h.mask.slice _ _ hslice
  rw [length_mask] at hinside
  have hspan : s = Span.ofRange f.nameRange := by
    simp only [unthreaded, hf, Option.map_some] at hs
    exact (Option.some.inj hs).symm
  refine ⟨f.nameRange, hspan, ⟨hordered, hinside⟩, fun _ => ⟨u.name, .function mode u.name a _, ?_⟩⟩
  have hword := isWordByte_of_isIdentifier hidentifier
  rw [← hname]
  refine hasWord_of_mask hordered hinside (l := []) (z := []) (by simpa using hcut.symm) hword.not_isBlank
    hword.1 nofun nofun

theorem Threading.yields_spans {mode : Propagation} (ha : ∀ a ∈ ambients, a.Made Text.Encoded)
    {maxRounds : Option Nat} (h : source.Encoded) :
    (lower mode ambients maxRounds source).Yields fun r => ∀ d ∈ r.1, d.Marks .ambients r.2 := by
  refine (yields_self _).bind fun functions _ => ?_
  refine (kind_encoded.rounds ha h).1.bind fun result hresult => ?_
  refine (yields_self _).bind fun uses huses => ?_
  exact (yields_report hresult huses).bind fun ds hds => yields_pure hds

namespace Parameter

theorem exists_of_declared {words : List Text} {type name : Text} {suffix : Option Text}
    (h : declared words = some (type, name, suffix)) (hsuffix : suffix.isSome) :
    ∃ rest, name ++ 91 :: rest ∈ words := by
  match words, h with
  | [only], h =>
    cases h
    cases hsuffix
  | first :: second :: rest, h =>
    have hlast := getLast_mem (cons_ne_nil first (second :: rest))
    have hdeclarator : declarator ((first :: second :: rest).getLast (cons_ne_nil _ _)) = (name, suffix) :=
      congrArg Prod.snd (Option.some.inj h)
    rcases declarator_cases ((first :: second :: rest).getLast (cons_ne_nil _ _)) with
      hnone | ⟨n, behind, hsplit, hsome⟩
    · cases hnone.symm.trans hdeclarator
      cases hsuffix
    · cases hsome.symm.trans hdeclarator
      exact ⟨behind, hsplit ▸ hlast⟩

/-- **The name of an array parameter stands in its range.** -/
theorem hasWord_name (h : source.Encoded) {r : Range} {p : Parameter}
    (hp : ofRange? source.mask r = .ok (some p)) (harray : p.arraySuffix.isSome) :
    r.Within source.length ∧ (source.cut r).HasWord p.name := by
  unfold ofRange? at hp
  cases hslice : source.mask.slice r with
  | error => rw [hslice] at hp; cases hp
  | ok u =>
    obtain ⟨⟨cs, hcs⟩, hcut, hordered, hinside⟩ := h.mask.slice r u hslice
    rw [length_mask] at hinside
    refine ⟨⟨hordered, hinside⟩, ?_⟩
    rw [hslice] at hp
    have hp : ofWords? (spaceReferences u).words r = some p := Except.ok.inj hp
    unfold ofWords? at hp
    split at hp
    · cases hp
    simp only [bind, Option.bind_eq_some_iff] at hp
    obtain ⟨⟨type, name, suffix⟩, hdeclared, hp⟩ := hp
    cases hp
    obtain ⟨rest, hword⟩ := exists_of_declared hdeclared harray
    obtain ⟨hword, hne⟩ := mem_filter.mp hword
    have hword := (takeQualifiers_sublist _ _ _).subset hword
    rw [words, hcs, spaceReferences_ofChars, chars_ofChars] at hword
    obtain ⟨w, hw, hwname⟩ := mem_map.mp hword
    rcases exists_of_mem_charWords_spaced hw with rfl | ⟨a, z, rfl, ha, hz, hsolid⟩
    · exact absurd (hwname.symm ▸ rfl : name ++ 91 :: rest = ("&" : Text)) (by simpa using hne)
    have hsplit : source.mask.cut r = ofChars a ++ (name ++ [91]) ++ (rest ++ ofChars z) := by
      rw [← hcut, hcs, ofChars_append, ofChars_append, hwname]
      simp
    have hblank : ∀ b ∈ name ++ [91], isBlank b = false := by
      intro b hb
      have hclear : ∀ c, isBlank c → charOf c ∉ w := by
        intro c hc hmem
        have hspace := isWhiteSpace_of_isBlank hc
        rw [hsolid _ hmem] at hspace
        cases hspace
      refine solid_ofChars hclear b ?_
      rw [hwname]
      rcases mem_append.mp hb with hb | hb
      · exact mem_append_left _ hb
      · rw [mem_singleton.mp hb]
        simp
    have hends : EndsWord (ofChars a) := endsWord_ofChars fun c hc =>
      (ha c hc).elim charApart_of_isWhiteSpace fun hc => charApart_of_eq (b := 38) (by decide) hc rfl
    obtain ⟨l', z', hcut', hl', -⟩ := exists_of_mask hordered hinside hsplit hblank (by simp) hends
    refine ⟨l', 91 :: z', by simp [hcut'], hl', ?_⟩
    rintro _ ⟨⟩
    rfl

theorem yields_spans (h : source.Encoded) :
    (lower source).Yields fun r => ∀ d ∈ r.1, d.Marks .parameters source := by
  refine (Program.yields_functions source).bind fun functions hfunctions => ?_
  refine (yields_self _).bind fun result _ => yields_pure fun d hd => ?_
  obtain ⟨f, hf, hd⟩ := mem_flatMap.mp hd
  obtain ⟨p, hp, hd⟩ := mem_filterMap.mp hd
  obtain ⟨harray, rfl⟩ : p.arraySuffix.isSome ∧ d = outputArray f.name p := by
    unfold diagnostic? at hd
    split at hd
    · obtain ⟨harray, hd⟩ := Option.ite_none_right_eq_some.mp hd
      exact ⟨harray, (Option.some.inj hd).symm⟩
    · obtain ⟨harray, hd⟩ := Option.ite_none_right_eq_some.mp hd
      exact ⟨harray, (Option.some.inj hd).symm⟩
    · cases hd
  obtain ⟨hwithin, hword⟩ := hasWord_name h ((hfunctions f hf).2.2 p hp) harray
  exact ⟨rfl, fun s hs =>
    ⟨p.range, (Option.some.inj hs).symm, hwithin, fun _ => ⟨p.name, .parameter f.name p, hword⟩⟩⟩

end Parameter

namespace Global

theorem solid_name (h : ∀ c ∈ n, isNameStart c ∨ isWordChar c) : ∀ b ∈ ofChars n, isBlank b = false := by
  have hblanks : ∀ b : UInt8, isBlank b → isNameStart (charOf b) = false ∧ isWordChar (charOf b) = false := by
    intro b hb
    simp only [isBlank, Bool.or_eq_true, beq_iff_eq] at hb
    rcases hb with (((rfl | rfl) | rfl) | rfl) | rfl <;> decide
  refine solid_ofChars fun b hb hmem => ?_
  obtain ⟨hstart, hword⟩ := hblanks b hb
  rcases h _ hmem with h | h
  · rw [hstart] at h
    cases h
  · rw [hword] at h
    cases h

theorem endsWord_append {l r : Text} (hr : EndsWord r) (hne : r ≠ []) : EndsWord (l ++ r) := by
  intro b hb
  obtain ⟨r, c, rfl⟩ := (eq_nil_or_concat r).resolve_left hne
  rw [getLast?_append, concat_eq_append, getLast?_concat] at hb
  exact hr b (by rw [concat_eq_append, getLast?_concat]; exact hb)

/-- What an initialised declaration is: what stands before its `=`, and the rest. -/
theorem exists_of_equals {m : Text} (hordered : start ≤ semicolon) (hinside : semicolon < m.length)
    (hequals : ¬ semicolon ≤ start + ((m.cut ⟨start, semicolon⟩).takeWhile (· != 61)).length) :
    ∃ more, m.cut ⟨start, semicolon + 1⟩ = (m.cut ⟨start, semicolon⟩).takeWhile (· != 61) ++ 61 :: more := by
  have hlength : (m.cut ⟨start, semicolon⟩).length = semicolon - start := by
    simp only [cut, length_take, length_drop]
    omega
  obtain ⟨b, more, hsplit, hb⟩ :=
      exists_leading (p := (· != 61)) (t := m.cut ⟨start, semicolon⟩) fun hall => hequals <| by
    rw [takeWhile_eq_self_iff.mpr (all_eq_true.mp hall), hlength]
    omega
  obtain rfl : b = 61 := by simpa using hb
  refine ⟨more ++ m.cut ⟨semicolon, semicolon + 1⟩, ?_⟩
  rw [← cut_append_cut m hordered (Nat.le_succ _)]
  conv => lhs; rw [hsplit]
  simp

/-- **The name of an initialised global stands in its declaration as a word of its own.** -/
theorem hasWord_name (h : source.Encoded) (hordered : start ≤ semicolon)
    (hinside : semicolon < source.length)
    (hequals : ¬ semicolon ≤ start + ((source.mask.cut ⟨start, semicolon⟩).takeWhile (· != 61)).length)
    {headRange : Range} {content : Text} {head : Head}
    (hrange : source.mask.trimRange ⟨start,
      start + ((source.mask.cut ⟨start, semicolon⟩).takeWhile (· != 61)).length⟩ = .ok headRange)
    (hcontent : source.mask.slice headRange = .ok content) (hhead : Head.ofChars? content.chars = some head) :
    (source.cut ⟨start, semicolon + 1⟩).HasWord head.name := by
  obtain ⟨⟨cs, hcs⟩, hcut, -⟩ := h.mask.slice headRange content hcontent
  obtain ⟨more, hmore⟩ := exists_of_equals hordered (by rwa [length_mask]) hequals
  generalize (source.mask.cut ⟨start, semicolon⟩).takeWhile (· != 61) = before at hrange hmore
  have hmask : source.mask = source.mask.take start ++ before ++
      (61 :: more ++ source.mask.drop (semicolon + 1)) := by
    conv => lhs; rw [← take_append_drop start source.mask]
    rw [@drop_start _ ⟨start, semicolon + 1⟩ (by dsimp only; omega), hmore]
    simp
  have hlength : (source.mask.take start).length = start := by
    rw [length_take_of_le]
    rw [length_mask]
    omega
  have htrim := trimRange_append (source.mask.take start) before
    (61 :: more ++ source.mask.drop (semicolon + 1))
  have hstrip := cut_trimmed (source.mask.take start) before (61 :: more ++ source.mask.drop (semicolon + 1))
  rw [← hmask, hlength] at htrim hstrip
  obtain rfl := Except.ok.inj (hrange.symm.trans htrim)
  rw [hcs, chars_ofChars] at hhead
  obtain ⟨a, c, n, z, rfl, hname, hn, hword, hspace, hz⟩ := (of_head hhead).2
  have hstrip : strip before = ofChars (a ++ c :: n ++ z) := by rw [← hstrip, ← hcut, hcs]
  have hblank : ¬ before.all isBlank := by
    intro hall
    rw [strip_of_all hall] at hstrip
    exact ofChars_ne_nil (by simp) hstrip.symm
  obtain ⟨hbefore, -, -⟩ := eq_strip_append hblank
  have hsplit : source.mask.cut ⟨start, semicolon + 1⟩ = (before.takeWhile isBlank ++ ofChars (a ++ [c])) ++
      ofChars n ++ (ofChars z ++ (blankTail before ++ 61 :: more)) := by
    rw [hmore]
    conv => lhs; rw [hbefore, hstrip]
    simp [ofChars_append, ofChars_cons, show ofChars [] = [] from rfl]
  have hends : EndsWord (before.takeWhile isBlank ++ ofChars (a ++ [c])) := by
    refine endsWord_append (endsWord_ofChars fun d hd => ?_) (ofChars_ne_nil (by simp))
    rw [getLast?_concat] at hd
    cases hd
    exact charApart_of_isWhiteSpace hspace
  have hapart : StartsApart (ofChars z ++ (blankTail before ++ 61 :: more)) := by
    cases z with
    | nil => exact @startsApart_append (blankTail before) _ (all_blankTail before) (by rintro _ ⟨⟩; rfl)
    | cons d z =>
      intro b hb
      refine @startsApart_ofChars (d :: z) (fun e he => ?_) b ?_
      · exact (hz e he).elim charApart_of_isWhiteSpace fun he => charApart_of_eq (b := 91) (by decide) he rfl
      · obtain ⟨first, hfirst, -⟩ := @Pattern.head?_ofChars d z
        rw [head?_append, hfirst] at hb
        rw [hfirst]
        exact hb
  rw [hname]
  exact hasWord_of_mask (by dsimp only; omega) (by dsimp only; omega) hsplit (solid_name hword)
    (ofChars_ne_nil hn)
    hends hapart

theorem yields_lowerItem_spans (h : source.Encoded) {item : Item} (hitem : item ∈ source.mask.items) :
    (lowerItem source item).Yields fun r => ∀ d ∈ r.1, d.Marks .globals source := by
  have hnone : (pure ([], []) : Checked (List Diagnostic × List Edit)).Yields
      fun r => ∀ d ∈ r.1, d.Marks .globals source := yields_pure nofun
  unfold lowerItem
  split
  · next start semicolon =>
    have hwithin := Item.within_of_mem_items hitem
    rw [length_mask] at hwithin
    dsimp only
    split
    · exact hnone
    next hequals =>
    refine (yields_self _).bind fun headRange hrange => ?_
    refine (yields_self _).bind fun content hcontent => ?_
    split
    · next head hhead =>
      split
      · exact hnone
      split
      · refine (yields_self _).bind fun initializer _ => ?_
        refine (yields_self _).bind fun e? _ => yields_pure fun d hd => ?_
        dsimp only at hd
        split at hd
        · cases hd
        obtain rfl := mem_singleton.mp hd
        refine ⟨rfl, fun s hs => ?_⟩
        refine ⟨⟨start, semicolon + 1⟩, (Option.some.inj hs).symm, ⟨Nat.le_succ_of_le hwithin.1, hwithin.2⟩,
          fun _ => ⟨head.name, .global _ _, ?_⟩⟩
        exact hasWord_name h hwithin.1 hwithin.2 hequals hrange hcontent hhead
      · exact hnone
    · exact hnone
  · exact hnone

theorem yields_spans (h : source.Encoded) :
    (lower source).Yields fun r => ∀ d ∈ r.1, d.Marks .globals source := by
  refine (yields_mapM fun item hitem => yields_lowerItem_spans h hitem).bind fun results hresults => ?_
  refine (yields_self _).bind fun result _ => yields_pure fun d hd => ?_
  obtain ⟨r, hr, hd⟩ := mem_flatMap.mp hd
  exact hresults r hr d hd

/-- The word `const` before a name only is taken for its type: the declaration keeps the word and is
warned about. -/
theorem lower_warns_untyped_const :
    lower "const x = 1;\n" = .ok ([promoted "x" ⟨0, 12⟩], "constant const x = 1;\n") := by
  repeat rw [ofString_ofList]
  decide +kernel

end Global

theorem Extracted.yields_extract_spans (source : Text) :
    (extract source).Yields fun r => ∀ d ∈ r.1, d.span = none := by
  refine (yields_self _).bind fun functions _ => ?_
  split
  · refine yields_pure fun d hd => ?_
    rw [mem_singleton.mp hd]
    rfl
  · refine (yields_self _).bind fun before _ => ?_
    refine (yields_self _).bind fun after _ => ?_
    refine (yields_self _).bind fun maskedBody _ => ?_
    refine (yields_self _).bind fun sourceBody _ => ?_
    exact (yields_self _).bind fun body _ => yields_pure nofun

namespace Lowering

theorem lowerAll_concat (s : Settings) (steps : List Step) (step : Step) (source : Text) :
    lowerAll s (steps ++ [step]) source = (do
      let t ← lowerAll s steps source
      return (← lowerText s step t).2) := by
  unfold lowerAll
  rw [foldlM_append]
  simp

/-- The steps on text as a pipeline. -/
def textPipeline (s : Settings) (steps : List Step) : Pipeline Text Text :=
  steps.foldl (fun p step => p.optional (textStage step (lowerText s step))) Pipeline.empty

/-- The steps that the options leave in. -/
def enabled (o : Pipeline.Options) (steps : List Step) : List Step := steps.filter (o.enables ·.name)

/-- **What a run of steps on text has said was said by the steps**, each on what the steps before it
have made. -/
theorem exists_of_run {s : Settings} {o : Pipeline.Options} {steps : List Step}
    {result : Except StageError Text} {t : Pipeline.Trace}
    (h : (textPipeline s steps).run o source {} = .ok (result, t)) :
    (∃ u, result = .ok u ∧ lowerAll s (enabled o steps) source = .ok u) ∧
      ∀ d ∈ t.journal.items, ∃ before step after v r, steps = before ++ step :: after ∧ o.enables step.name ∧
        lowerAll s (enabled o before) source = .ok v ∧ lowerText s step v = .ok r ∧ d ∈ r.1 := by
  induction steps using reverseRecOn generalizing result t with
  | nil =>
    cases h
    exact ⟨⟨source, rfl, rfl⟩, nofun⟩
  | append_singleton steps step ih =>
    have hpipeline : textPipeline s (steps ++ [step]) =
        (textPipeline s steps).optional (textStage step (lowerText s step)) := by
      simp [textPipeline]
    rw [hpipeline, Pipeline.run] at h
    obtain ⟨⟨mid, t'⟩, hfront, h⟩ := exists_of_bind h
    obtain ⟨⟨u, rfl, hu⟩, hsaid⟩ := ih hfront
    have hsaid' : ∀ d ∈ t'.journal.items, ∃ before step' after v r, steps ++ [step] =
      before ++ step' :: after ∧
        o.enables step'.name ∧ lowerAll s (enabled o before) source = .ok v ∧
          lowerText s step' v = .ok r ∧ d ∈ r.1 := by
      intro d hd
      obtain ⟨before, step', after, v, r, rfl, hrest⟩ := hsaid d hd
      exact ⟨before, step', after ++ [step], v, r, by simp, hrest⟩
    by_cases hstep : o.enables step.name
    · have hrun : Pipeline.runStage o (textStage step (lowerText s step)) u t' = .ok (result, t) := by
        rw [← h]
        exact (if_pos hstep).symm
      have henabled : enabled o (steps ++ [step]) = enabled o steps ++ [step] := by simp [enabled, hstep]
      obtain ⟨diagnostics, made, hmade, hitems, hresult⟩ := Pipeline.exists_of_runStage hrun
      obtain ⟨r, hr, hpair⟩ := exists_of_bind hmade
      cases hpair
      refine ⟨⟨r.2, hresult, ?_⟩, fun d hd => ?_⟩
      · rw [henabled, lowerAll_concat, hu]
        simp only [bind, Except.bind, hr]
        rfl
      · rw [hitems, mem_append] at hd
        rcases hd with hd | hd
        · exact hsaid' d hd
        · exact ⟨steps, step, [], u, r, rfl, hstep, hu, hr, hd⟩
    · have hskip : (.ok u, t'.append [Pipeline.skipped step.name]) = (result, t) := by
        refine Except.ok.inj (Eq.trans ?_ h)
        exact (if_neg hstep).symm
      have henabled : enabled o (steps ++ [step]) = enabled o steps := by simp [enabled, hstep]
      cases hskip
      exact ⟨⟨u, rfl, henabled ▸ hu⟩, hsaid'⟩

/-- Every step on text marks the text that it reads, and the step that threads ambient values the text
that it makes. -/
theorem yields_spans {s : Settings} (ha : ∀ a ∈ s.ambients, a.Made Text.Encoded) (step : Step)
    (h : source.Encoded) :
    (lowerText s step source).Yields fun r =>
      ∀ d ∈ r.1, d.Marks step (if step = .ambients then r.2 else source) := by
  cases step with
  | directives => exact Directive.yields_spans source
  | types => exact (yields_self _).bind fun result _ => yields_pure nofun
  | sampling => exact Sampling.yields_spans h
  | builtins => exact Builtin.yields_spans s.modulus source
  | globals => exact Global.yields_spans h
  | parameters => exact Parameter.yields_spans h
  | ambients => exact Threading.yields_spans ha h
  | entry => exact yields_pure nofun
  | assembly => exact yields_pure nofun

theorem yields_lowerAll {s : Settings} (ha : ∀ a ∈ s.ambients, a.Made Text.Encoded) (steps : List Step)
    (h : source.Encoded) : (lowerAll s steps source).Yields Encoded := by
  unfold lowerAll
  induction steps generalizing source with
  | nil => exact yields_pure h
  | cons step steps ih =>
    rw [foldlM_cons]
    refine Yields.bind (P := Encoded) ?_ fun t ht => ih ht
    exact (kind_encoded.lowerText ha step h nofun).1.bind fun r hr => yields_pure hr

/-- The steps that have made the text that the diagnostics of a step are about: those before it, and the
step itself if it threads ambient values. -/
def surveyed (step : Step) : List Step :=
  if step = .ambients then textSteps else textSteps.takeWhile (· != step)

theorem surveyed_eq {before after : List Step} {step : Step} (h : textSteps = before ++ step :: after) :
    surveyed step = if step = .ambients then before ++ [step] else before := by
  have hnodup : textSteps.Nodup := by decide
  have hbefore : textSteps.takeWhile (· != step) = before := by
    rw [h, nodup_append] at hnodup
    rw [h, takeWhile_append_of_pos, takeWhile_cons_of_neg (by simp), append_nil]
    intro other hother
    simpa using hnodup.2.2 other hother step mem_cons_self
  unfold surveyed
  split
  · next hambients =>
    subst hambients
    have hsix : before.length = 6 := by
      rw [← hbefore]
      rfl
    have hseven : before.length + (after.length + 1) = 7 := by
      rw [← length_cons, ← length_append, ← h]
      rfl
    have hafter : after = [] := length_eq_zero_iff.mp (by omega)
    rw [h, hafter]
  · exact hbefore

/-- What a diagnostic of a run with a span was made for. -/
theorem Lowerer.exists_marks {l : Lowerer} (hsource : source.Encoded) {output : Output}
    (h : l.lower source = .ok (.ok output)) (hd : d ∈ output.diagnostics) (hspan : d.span ≠ none) :
    ∃ step t, lowerAll l.settings (enabled l.options.pipeline (surveyed step)) source = .ok t ∧
      d.Marks step t := by
  have hambients : ∀ a ∈ l.settings.ambients, a.Made Text.Encoded := by
    have hall : l.settings.ambients = [.resolution, .time] := rfl
    rw [hall]
    simp only [mem_cons, not_mem_nil, or_false, forall_eq_or_imp, forall_eq]
    exact ⟨⟨encoded_ofString _, encoded_ofString _⟩, encoded_ofString _, encoded_ofString _⟩
  obtain ⟨trace, hrun, hitems⟩ := exists_run_of_lower h
  obtain ⟨extracted, t₁, said₁, hentry, hassembly, hitems₁⟩ := Pipeline.exists_of_run_stage hrun
  obtain ⟨text, t₂, said₂, htext, hextract, hitems₂⟩ := Pipeline.exists_of_run_stage hentry
  rw [hitems, hitems₁, hitems₂, mem_append, mem_append] at hd
  rcases hd with (hd | hd) | hd
  · obtain ⟨-, hsaid⟩ := exists_of_run htext
    obtain ⟨before, step, after, v, r, hsteps, henabled, hv, hr, hd⟩ := hsaid d hd
    have hencoded := yields_lowerAll hambients _ hsource v hv
    have hmarks := yields_spans hambients step hencoded r hr d hd
    refine ⟨step, _, ?_, hmarks⟩
    rw [surveyed_eq hsteps]
    split
    · have hconcat : enabled l.options.pipeline (before ++ [step]) =
          enabled l.options.pipeline before ++ [step] := by
        simp [enabled, henabled]
      rw [hconcat, lowerAll_concat, settings, hv]
      simp only [bind, Except.bind, hr]
      rfl
    · exact hv
  · have hnone : (entryStage.run text t₂.journal).Yields fun r => ∀ d ∈ r.1, d.span = none :=
      (Extracted.yields_extract_spans text).bind fun r hr => yields_pure hr
    exact absurd (hnone _ hextract d hd) hspan
  · rw [← (Prod.mk.inj (Except.ok.inj hassembly)).1] at hd
    cases hd

/-- What a lowerer says about a program that it lowers. -/
def Lowerer.said? (l : Lowerer) (source : Text) : Option (List Diagnostic) :=
  match l.lower source with
  | .ok (.ok output) => some output.diagnostics
  | _ => none

theorem Lowerer.exists_of_said? {l : Lowerer} (h : (l.said? source).any (·.contains d)) :
    ∃ output, l.lower source = .ok (.ok output) ∧ d ∈ output.diagnostics := by
  unfold said? at h
  split at h
  · next output hlower => exact ⟨output, hlower, contains_iff_mem.mp h⟩
  · cases h

/-- **Where the span of a diagnostic points.** It lies in the text that its step has read, or has made
if it threads ambient values, and what the diagnostic names stands there as a word of its own. It points
at the same in the program that was given, and its line and column are the same, if the two texts agree
up to the end of the span. -/
theorem Lowerer.lower_pointsInto {l : Lowerer} {source : String} {output : Output}
    (h : l.lower source = .ok (.ok output)) {d : Diagnostic} (hd : d ∈ output.diagnostics) {s : Span}
    (hs : d.span = some s) :
    ∃ step t, d.sourceContext = some step.name ∧
      lowerAll l.settings (enabled l.options.pipeline (surveyed step)) source = .ok t ∧
      (t.length < 2 ^ 32 → d.PointsInto s t ∧ ((source : Text).take s.hi.toNat = t.take s.hi.toNat →
          d.PointsInto s source ∧ s.lineColumn source = s.lineColumn t)) := by
  obtain ⟨step, t, ht, hmarks⟩ := exists_marks (encoded_ofString source) h hd (by simp [hs])
  refine ⟨step, t, hmarks.context, ht, fun hlength => ?_⟩
  have hpoints := hmarks.pointsInto hs hlength
  exact ⟨hpoints, hpoints.of_take⟩

/-- A program that lowering leaves as it is up to the end of its global. -/
def untouched : String := "float speed = 2.0;\n"

theorem Lowerer.lower_pointsInto_untouched : ∃ output, (⟨{}⟩ : Lowerer).lower untouched = .ok (.ok output) ∧
      Global.promoted "speed" ⟨0, 18⟩ ∈ output.diagnostics ∧
      (Global.promoted "speed" ⟨0, 18⟩).PointsInto ⟨0, 18⟩ untouched := by
  have hsaid : ((⟨{}⟩ : Lowerer).said? untouched).any (·.contains (Global.promoted "speed" ⟨0, 18⟩)) := by
    decide +kernel
  obtain ⟨output, hlower, hmem⟩ := exists_of_said? hsaid
  refine ⟨output, hlower, hmem, ?_⟩
  obtain ⟨step, t, hcontext, ht, hpoints⟩ := lower_pointsInto hlower hmem rfl
  have hstep : step = .globals := by
    have hname : some Step.globals.name = some step.name := hcontext
    cases step <;> first | rfl | exact absurd hname (by decide)
  subst hstep
  have hsame : lowerAll (⟨{}⟩ : Lowerer).settings (enabled {} (surveyed .globals)) untouched =
      .ok (untouched : Text) := by
    decide +kernel
  obtain rfl := Except.ok.inj (hsame.symm.trans ht)
  exact ((hpoints (by decide +kernel)).2 rfl).1

/-- A program whose global stands behind a directive. -/
def behindDirective : String := "#version 300\nfloat speed = 2.0;\n"

/-- A program that grows as its types are spelled anew. -/
def growing : String := "vec2 a = vec2(1.0);\n"

/-- In the program that was given, the span of a diagnostic may miss what the diagnostic names, and it
may reach beyond the end. -/
theorem Lowerer.lower_points_elsewhere :
    (∃ output, (⟨{}⟩ : Lowerer).lower behindDirective = .ok (.ok output) ∧
      Global.promoted "speed" ⟨0, 18⟩ ∈ output.diagnostics ∧
      ((behindDirective : Text).cut ⟨0, 18⟩).containsWord "speed" = false) ∧
    ∃ output, (⟨{}⟩ : Lowerer).lower growing = .ok (.ok output) ∧
      Global.promoted "a" ⟨0, 23⟩ ∈ output.diagnostics ∧ (growing : Text).length < 23 := by
  have hdirective : ((⟨{}⟩ : Lowerer).said? behindDirective).any
      (·.contains (Global.promoted "speed" ⟨0, 18⟩)) := by decide +kernel
  have hgrowing : ((⟨{}⟩ : Lowerer).said? growing).any (·.contains (Global.promoted "a" ⟨0, 23⟩)) := by
    decide +kernel
  obtain ⟨output, hlower, hmem⟩ := exists_of_said? hdirective
  obtain ⟨output', hlower', hmem'⟩ := exists_of_said? hgrowing
  exact ⟨⟨output, hlower, hmem, by decide +kernel⟩, output', hlower', hmem', by decide +kernel⟩

end Lowering

end GlslToMetal
