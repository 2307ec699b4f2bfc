import GlslToMetal.Proofs.Lowering.Steps
import GlslToMetal.Proofs.Text.Cutting

/-! Every step of lowering makes a text in UTF-8 of one. A step may fail on a program beyond ASCII, but
the edits that it makes are cut between characters, and what it puts in is made of characters: of the
words and slices of the program, and of words of its own. -/

namespace GlslToMetal

open List Text Checked

variable {p : Parameter} {r : Range} {m s t : Text}

namespace Text

/-- The text is the bytes of some characters. -/
def Encoded (t : Text) : Prop := ∃ cs, t = ofChars cs

theorem encoded_ofChars (cs : List Char) : (ofChars cs).Encoded := ⟨cs, rfl⟩

theorem encoded_ofString (s : String) : (Text.ofString s).Encoded := ⟨s.toList, rfl⟩

theorem Encoded.append (hs : s.Encoded) (ht : t.Encoded) : (s ++ t).Encoded := by
  obtain ⟨a, rfl⟩ := hs
  obtain ⟨b, rfl⟩ := ht
  exact ⟨a ++ b, (ofChars_append a b).symm⟩

theorem encoded_of_mem_words {w : Text} (h : w ∈ t.words) : w.Encoded := by
  obtain ⟨cs, -, rfl⟩ := mem_map.mp h
  exact encoded_ofChars cs

theorem Encoded.mask (h : t.Encoded) : t.mask.Encoded := by
  obtain ⟨cs, rfl⟩ := h
  exact exists_maskFrom_ofChars (Place.fits_code _)

theorem Encoded.slice (h : t.Encoded) (r : Range) :
    (t.slice r).Yields fun u => u.Encoded ∧ u = t.cut r ∧ r.start ≤ r.stop ∧ r.stop ≤ t.length := by
  obtain ⟨cs, rfl⟩ := h
  unfold Text.slice
  split
  · nofun
  split
  · nofun
  split
  · next hordered hinside hbounds =>
    rw [Bool.and_eq_true] at hbounds
    exact yields_ok ⟨exists_ofChars_cut (Nat.le_of_not_lt hordered) (Nat.le_of_not_lt hinside)
      hbounds.1 hbounds.2,
      rfl, Nat.le_of_not_lt hordered, Nat.le_of_not_lt hinside⟩
  · nofun

theorem Encoded.split {r : Text} {b : UInt8} (h : (s ++ b :: r).Encoded) (hb : b < 128) :
    s.Encoded ∧ Encoded (b :: r) := by
  obtain ⟨cs, hcs⟩ := h
  obtain ⟨a, z, -, rfl, rfl⟩ := exists_of_ofChars_eq hb hcs.symm
  refine ⟨encoded_ofChars a, charOf b :: z, ?_⟩
  rw [ofChars_cons, utf8EncodeChar_charOf hb]
  rfl

end Text

theorem Pattern.encoded_cut {p : Pattern} (h : t.Encoded) (hr : r ∈ p.ranges t) : (t.cut r).Encoded := by
  obtain ⟨cs, rfl⟩ := h
  unfold ranges at hr
  rw [chars_ofChars] at hr
  obtain ⟨a, b, c, rfl, rfl⟩ := exists_of_mem_matchesFrom hr
  rw [ofChars_append, ofChars_append, Nat.zero_add, ← length_ofChars, ← length_ofChars, cut_append]
  exact encoded_ofChars b

theorem Program.yields_functions (source : Text) :
    (functions source).Yields fun fs => ∀ f ∈ fs, source.mask.slice f.nameRange = .ok f.name ∧
      f.name.isIdentifier ∧
      ∀ p ∈ f.params, Parameter.ofRange? source.mask p.range = .ok (some p) := by
  intro fs hfs f hf
  obtain ⟨item, -, hitem⟩ := exists_ofItem? hfs hf
  have hread := Signature.of_ofItem? hitem
  obtain ⟨args, found, -, hfound, hparams⟩ := hread.params
  refine ⟨hread.name, hread.identifier, fun p hp => ?_⟩
  rw [hparams] at hp
  obtain ⟨p?, hp?, rfl⟩ := mem_filterMap.mp hp
  obtain ⟨r, -, hr⟩ := exists_of_mem_mapM hfound hp?
  rw [Parameter.range_of_ofRange? hr]
  exact hr

theorem Text.closed_encoded : Closed Encoded where
  ascii h := ⟨_, (ofChars_map_charOf h).symm⟩
  append := Encoded.append
  split hb h := h.split hb

/-- **The texts in UTF-8 are a kind of texts**, from which not every part can be cut out. -/
theorem Text.kind_encoded : Kind False Encoded where
  toClosed := closed_encoded
  mask := Encoded.mask
  chars _ _ := encoded_ofChars _
  slice h _ := ⟨fun u hu => ⟨(h.slice _ u hu).1, (h.slice _ u hu).2.1⟩, False.elim⟩
  range h hr := ⟨Pattern.encoded_cut h hr, False.elim⟩
  functions _ := by
    refine ⟨fun fs hfs f hf => ⟨False.elim, fun p hp => ?_⟩, False.elim⟩
    obtain ⟨source, -, hsource⟩ := exists_of_bind ((Program.yields_functions _ fs hfs f hf).2.2 p hp)
    exact (Parameter.made_ofWords? closed_encoded (fun w hw => encoded_of_mem_words hw)
      (Except.ok.inj hsource)).1

end GlslToMetal
