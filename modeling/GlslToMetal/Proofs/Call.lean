import GlslToMetal.Ambient.Threading
import GlslToMetal.Proofs.Checked
import GlslToMetal.Proofs.Text.Arguments
import GlslToMetal.Proofs.Text.Word

/-! Calls on the tree of a text. Whether a parenthesis is a call, and of what, depends on what
stands before it, back to the nearest byte that is no blank, no dot and no identifier byte. So a
walk over the tree that carries the bytes before it, and forgets them at every delimiter, finds the
same calls as the search for the name over the whole text. -/

namespace GlslToMetal

variable {i : Nat} {t : Nest} {l left n r whole z : Text} {b : UInt8}

namespace Text

/-- A byte beyond which nothing decides about a call. -/
def isStop (b : UInt8) : Bool := !isBlank b && !isWordByte b && b != 46

/-- The text is the part of the other, read backwards, up to a stop. -/
def UpToStop (left whole : Text) : Prop :=
  whole = left ∨ ∃ b beyond, isStop b ∧ whole = left ++ b :: beyond

theorem UpToStop.cons {left whole : Text} (h : UpToStop left whole) (b : UInt8) :
    UpToStop (b :: left) (b :: whole) := by
  rcases h with rfl | ⟨c, beyond, hc, rfl⟩
  · exact .inl rfl
  · exact .inr ⟨c, beyond, hc, rfl⟩

theorem UpToStop.stop (hb : isStop b) (beyond : Text) : UpToStop [] (b :: beyond) :=
  .inr ⟨b, beyond, hb, rfl⟩

theorem UpToStop.append (h : UpToStop left whole) (hb : isStop b)
    (beyond : Text) : UpToStop left (whole ++ b :: beyond) := by
  rcases h with rfl | ⟨c, more, hc, rfl⟩
  · exact .inr ⟨b, beyond, hb, rfl⟩
  · exact .inr ⟨c, more ++ b :: beyond, hc, by simp⟩

section Stop

variable {left whole : Text}

theorem wordBefore_upToStop (h : UpToStop left whole) : wordBefore whole = wordBefore left := by
  rcases h with rfl | ⟨b, beyond, hb, rfl⟩
  · rfl
  · simp only [isStop, Bool.and_eq_true, Bool.not_eq_true', bne_iff_ne] at hb
    unfold wordBefore
    rw [dropWhile_append_cons hb.1.1, takeWhile_append_cons hb.1.2]

theorem beforeWord_upToStop (h : UpToStop left whole) : UpToStop (beforeWord left) (beforeWord whole) := by
  rcases h with rfl | ⟨b, beyond, hb, rfl⟩
  · exact .inl rfl
  · refine .inr ⟨b, beyond, hb, ?_⟩
    simp only [isStop, Bool.and_eq_true, Bool.not_eq_true', bne_iff_ne] at hb
    unfold beforeWord
    rw [dropWhile_append_cons hb.1.1, dropWhile_append_cons hb.1.2]

theorem head?_upToStop (h : UpToStop left whole) : whole.head? = some 46 ↔ left.head? = some 46 := by
  rcases h with rfl | ⟨b, beyond, hb, rfl⟩
  · rfl
  · simp only [isStop, Bool.and_eq_true, bne_iff_ne] at hb
    cases left with
    | nil => simp [hb.2]
    | cons c left => simp

end Stop

/-- The word before a parenthesis, unless it names a member. -/
def named? (left : Text) : Option Text :=
  if (wordBefore left).isEmpty || (beforeWord left).head? == some 46 then none
  else some (wordBefore left)

/-- What stands before the word lets it be called. -/
def mayCall (left : Text) : Bool :=
  (wordBefore (beforeWord left)).isEmpty ||
    Threading.callWords.contains (wordBefore (beforeWord left))

/-- The function that a parenthesis behind the text calls. -/
def callee? (left : Text) : Option Text := if mayCall left then named? left else none

theorem named?_upToStop (h : UpToStop left whole) : named? whole = named? left := by
  have hhead := head?_upToStop (beforeWord_upToStop h)
  unfold named?
  simp only [wordBefore_upToStop h, Bool.or_eq_true, beq_iff_eq, hhead]

theorem mayCall_upToStop (h : UpToStop left whole) : mayCall whole = mayCall left := by
  unfold mayCall
  rw [wordBefore_upToStop (beforeWord_upToStop h)]

theorem callee?_upToStop (h : UpToStop left whole) : callee? whole = callee? left := by
  unfold callee?
  rw [mayCall_upToStop h, named?_upToStop h]

/-- Behind a byte that is not part of a word, what is called shows in a text with something before the
name. -/
theorem callee?_append {beyond : Text} (hbeyond : ∀ b ∈ beyond.head?, isWordByte b = false)
    (hleft : ¬ (beforeWord left).all isBlank) : callee? (left ++ beyond) = callee? left := by
  have hdrop : ∀ {p : UInt8 → Bool} {x : Text}, x.dropWhile p ≠ [] →
      (x ++ beyond).dropWhile p = x.dropWhile p ++ beyond := fun {p x} hx => by
    rw [List.dropWhile_append, if_neg (by simpa using hx)]
  have htake : ∀ {x : Text}, (x ++ beyond).takeWhile isWordByte = x.takeWhile isWordByte := fun {x} => by
    rw [List.takeWhile_append]
    split
    · next hall =>
      have hnone : beyond.takeWhile isWordByte = [] := by
        cases beyond with
        | nil => rfl
        | cons b beyond => rw [List.takeWhile_cons_of_neg (by rw [hbeyond b rfl]; exact Bool.false_ne_true)]
      rw [hnone, List.append_nil]
      exact ((List.takeWhile_prefix _).eq_of_length hall).symm
    · rfl
  have hbefore : beforeWord left ≠ [] := by
    rintro hnil
    exact hleft (by rw [hnil]; rfl)
  have hblank : left.dropWhile isBlank ≠ [] := by
    rintro hnil
    exact hbefore (by rw [beforeWord, hnil]; rfl)
  have hsolid : (beforeWord left).dropWhile isBlank ≠ [] := fun hnil => hleft (by simpa using hnil)
  have hword : wordBefore (left ++ beyond) = wordBefore left := by
    rw [wordBefore, wordBefore, hdrop hblank, htake]
  have hrest : beforeWord (left ++ beyond) = beforeWord left ++ beyond := by
    rw [beforeWord, hdrop hblank, hdrop hbefore]
    rfl
  have hword' : wordBefore (beforeWord left ++ beyond) = wordBefore (beforeWord left) := by
    rw [wordBefore, wordBefore, hdrop hsolid, htake]
  have hhead : (beforeWord left ++ beyond).head? = (beforeWord left).head? := by
    rw [List.head?_append]
    obtain ⟨b, rest, hcons⟩ := List.exists_cons_of_ne_nil hbefore
    rw [hcons]
    rfl
  rw [callee?, callee?, mayCall, mayCall, named?, named?, hword, hrest, hword', hhead]

theorem isStop_opener (d : Delimiter) : isStop d.opener := by cases d <;> decide

theorem isStop_closer (d : Delimiter) : isStop d.closer := by cases d <;> decide

theorem named?_eq_some :
    named? left = some n ↔ n ≠ [] ∧ wordBefore left = n ∧ (beforeWord left).head? ≠ some 46 := by
  unfold named?
  split
  · next h =>
    simp only [Bool.or_eq_true, List.isEmpty_iff, beq_iff_eq] at h
    constructor
    · intro hn
      cases hn
    · rintro ⟨hne, hword, hdot⟩
      rcases h with h | h
      · exact absurd (hword.symm.trans h) hne
      · exact absurd h hdot
  · next h =>
    simp only [Bool.or_eq_true, List.isEmpty_iff, beq_iff_eq, not_or] at h
    constructor
    · intro hn
      cases hn
      exact ⟨h.1, rfl, h.2⟩
    · rintro ⟨-, rfl, -⟩
      rfl

/-- What stands before each opening parenthesis of a text, read backwards, and what stands behind it. -/
def openings (left : Text) : Text → List (Text × Text)
  | [] => []
  | b :: t => if b == 40 then (left, t) :: openings (b :: left) t else openings (b :: left) t

theorem mem_openings {t : Text} {o : Text × Text} :
    o ∈ openings left t ↔ ∃ x, t = x ++ 40 :: o.2 ∧ o.1 = x.reverse ++ left := by
  induction t generalizing left with
  | nil => simp [openings]
  | cons b t ih =>
    have hsplit : (∃ x, b :: t = x ++ 40 :: o.2 ∧ o.1 = x.reverse ++ left) ↔
        (b = 40 ∧ o = (left, t)) ∨ ∃ x, t = x ++ 40 :: o.2 ∧ o.1 = x.reverse ++ b :: left := by
      constructor
      · rintro ⟨x, hx, ho⟩
        cases x with
        | nil =>
          obtain ⟨rfl, rfl⟩ := List.cons.inj hx
          exact .inl ⟨rfl, Prod.ext ho rfl⟩
        | cons c x =>
          obtain ⟨rfl, rfl⟩ := List.cons.inj hx
          exact .inr ⟨x, rfl, by simp [ho]⟩
      · rintro (⟨rfl, rfl⟩ | ⟨x, rfl, ho⟩)
        · exact ⟨[], rfl, rfl⟩
        · exact ⟨b :: x, rfl, by simp [ho]⟩
    rw [hsplit, ← ih, openings]
    split
    · next hb => simp [beq_iff_eq.mp hb]
    · next hb => simp [show b ≠ 40 by simpa using hb]

theorem openings_append (left s t : Text) : openings left (s ++ t) =
    (openings left s).map (fun o => (o.1, o.2 ++ t)) ++ openings (s.reverse ++ left) t := by
  induction s generalizing left with
  | nil => rfl
  | cons b s ih =>
    rw [List.cons_append, openings, openings, ih, List.reverse_cons, List.append_assoc]
    split <;> rfl

theorem pairwise_openings (left t : Text) : (openings left t).Pairwise (·.1.length < ·.1.length) := by
  induction t generalizing left with
  | nil => exact .nil
  | cons b t ih =>
    rw [openings]
    split
    · refine .cons (fun o ho => ?_) (ih _)
      obtain ⟨x, -, hx⟩ := mem_openings.mp ho
      simp [hx]
      omega
    · exact ih _

end Text

theorem eq_of_mem_iff_of_pairwise {α : Type} (key : α → Nat) {xs ys : List α}
    (hxs : xs.Pairwise (key · < key ·)) (hys : ys.Pairwise (key · < key ·))
    (hmem : ∀ a, a ∈ xs ↔ a ∈ ys) : xs = ys := by
  have hnodup : ∀ {zs : List α}, zs.Pairwise (key · < key ·) → zs.Nodup := by
    intro zs hzs
    refine hzs.imp ?_
    rintro a b hlt rfl
    omega
  refine List.Perm.eq_of_pairwise ?_ hxs hys
    ((List.perm_ext_iff_of_nodup (hnodup hxs) (hnodup hys)).mpr hmem)
  intro a b _ _ hab hba
  omega

namespace Call

open List Text

/-- The call of `name` whose parenthesis stands behind `left`. -/
def named (name left : Text) (openParen : Nat) : Call :=
  ⟨⟨openParen - leadingBlanks left - name.length, openParen - leadingBlanks left⟩, openParen⟩

theorem named_upToStop (h : UpToStop left whole) (n : Text) (openParen : Nat) :
    named n whole openParen = named n left openParen := by
  have hlead : leadingBlanks whole = leadingBlanks left := by
    rcases h with rfl | ⟨b, beyond, hb, rfl⟩
    · rfl
    · simp only [isStop, Bool.and_eq_true, Bool.not_eq_true'] at hb
      unfold leadingBlanks
      rw [takeWhile_append_cons hb.1.1]
  unfold named
  rw [hlead]

theorem nextNonBlank?_append (pre : Text) (hz : z.all isBlank)
    (hb : isBlank b = false) (r : Text) :
    (pre ++ (z ++ b :: r)).nextNonBlank? pre.length = some (pre ++ z).length := by
  have hlead : leadingBlanks (z ++ b :: r) = z.length := by
    unfold leadingBlanks
    rw [takeWhile_append_of_pos (all_eq_true.mp hz)]
    simp [hb]
  unfold nextNonBlank?
  simp [hlead]

theorem nextNonBlank?_of_all (pre : Text) (hz : z.all isBlank) :
    (pre ++ z).nextNonBlank? pre.length = none := by
  unfold nextNonBlank?
  simp [leadingBlanks_of_all hz]

theorem openParen?_eq_some {o : Nat} : openParen? (l ++ n ++ r) ⟨l.length, l.length + n.length⟩ = some o ↔
      l.getLast? ≠ some 46 ∧ ∃ z r', r = z ++ 40 :: r' ∧ z.all isBlank ∧ o = (l ++ n ++ z).length := by
  have hbefore : (l ++ n ++ r).before? l.length = l.getLast? := by
    rw [append_assoc]
    exact before?_append l (n ++ r)
  unfold openParen?
  simp only [hbefore, beq_iff_eq]
  split
  · next hdot => simp [hdot]
  · next hdot =>
    rw [← length_append]
    simp only [ne_eq, hdot, not_false_eq_true, true_and, Option.filter_eq_some_iff, beq_iff_eq]
    constructor
    · rintro ⟨hnext, hparen⟩
      by_cases hall : r.all isBlank
      · rw [nextNonBlank?_of_all _ hall] at hnext
        cases hnext
      · obtain ⟨b, r', hsplit, hb⟩ := exists_leading hall
        have hblank : (r.takeWhile isBlank).all isBlank := all_takeWhile
        generalize r.takeWhile isBlank = z at hsplit hblank
        subst hsplit
        rw [nextNonBlank?_append _ hblank hb] at hnext
        cases hnext
        rw [← append_assoc, getElem?_append_right (by simp)] at hparen
        simp at hparen
        subst hparen
        exact ⟨z, r', rfl, hblank, rfl⟩
    · rintro ⟨z, r', rfl, hz, rfl⟩
      refine ⟨nextNonBlank?_append _ hz (by decide) r', ?_⟩
      rw [← append_assoc, getElem?_append_right (by simp)]
      simp

theorem named_append (hn : n.IsWord) (hz : z.all isBlank) (hl : EndsWord l) :
    named n (l ++ n ++ z).reverse (l ++ n ++ z).length =
      ⟨⟨l.length, l.length + n.length⟩, (l ++ n ++ z).length⟩ := by
  unfold named
  rw [(wordBefore_of_append hn hz hl).1]
  congr 2
  · simp only [length_append]
    omega
  · simp only [length_append]
    omega

theorem lt_start_of_named {l' r' : Text} (hn : n.IsWord) (htext : l ++ 40 :: r = l' ++ 40 :: r')
    (hlen : l.length < l'.length) (hnamed : named? l'.reverse = some n) :
    l.length < (named n l'.reverse l'.length).nameRange.start := by
  obtain ⟨-, hword, -⟩ := named?_eq_some.mp hnamed
  obtain ⟨z, hl', hz, hends⟩ := exists_wordBefore l'
  rw [hword] at hl'
  generalize (beforeWord l'.reverse).reverse = front at hl' hends
  have hparen : l'[l.length]? = some 40 := by
    have := congrArg (·[l.length]?) htext
    simp only [getElem?_append_right (Nat.le_refl _), Nat.sub_self, getElem?_cons_zero,
      getElem?_append_left hlen] at this
    exact this.symm
  subst hl'
  rw [named_append hn hz hends]
  show l.length < front.length
  by_contra hge
  rw [append_assoc, getElem?_append_right (by omega)] at hparen
  rcases mem_append.mp (mem_of_getElem? hparen) with hmem | hmem
  · exact absurd (hn.2 40 hmem) (by decide)
  · exact absurd (all_eq_true.mp hz 40 hmem) (by decide)

theorem pairwise_sites (hne : n ≠ []) (m : Text) :
    (sites m n).Pairwise (·.nameRange.start < ·.nameRange.start) := by
  unfold sites
  rw [pairwise_filterMap]
  refine (pairwise_findWord hne m).imp ?_
  intro i j hlt c hc d hd
  simp only [Option.map_eq_some_iff] at hc hd
  obtain ⟨-, -, rfl⟩ := hc
  obtain ⟨-, -, rfl⟩ := hd
  exact hlt

/-- The calls of a name that the search finds, by the parentheses of the text. -/
theorem mem_sites {m : Text} (hn : n.IsWord) {c : Call} : c ∈ sites m n ↔
      ∃ l r, m = l ++ 40 :: r ∧ named? l.reverse = some n ∧ c = named n l.reverse l.length := by
  unfold sites
  simp only [mem_filterMap, Option.map_eq_some_iff]
  constructor
  · rintro ⟨i, hi, o, hparen, rfl⟩
    obtain ⟨l, r, rfl, rfl, hl, hr⟩ := (mem_findWord hn).mp hi
    obtain ⟨hdot, z, r', rfl, hz, rfl⟩ := openParen?_eq_some.mp hparen
    obtain ⟨-, hword, hbefore⟩ := wordBefore_of_append hn hz hl
    refine ⟨l ++ n ++ z, r', by simp, ?_, (named_append hn hz hl).symm⟩
    refine named?_eq_some.mpr ⟨hn.1, hword, ?_⟩
    rwa [hbefore, head?_reverse]
  · rintro ⟨l, r, rfl, hnamed, rfl⟩
    obtain ⟨-, hword, hdot⟩ := named?_eq_some.mp hnamed
    obtain ⟨z, hl, hz, hends⟩ := exists_wordBefore l
    rw [hword] at hl
    generalize hfront : (beforeWord l.reverse).reverse = front at hl hends
    subst hl
    have hstarts : StartsApart (z ++ 40 :: r) := startsApart_append hz (by rintro _ ⟨⟩; rfl)
    refine ⟨front.length, (mem_findWord hn).mpr ⟨front, z ++ 40 :: r, by simp, rfl, hends, hstarts⟩,
      (front ++ n ++ z).length, ?_, (named_append hn hz hends).symm⟩
    rw [append_assoc (front ++ n)]
    refine openParen?_eq_some.mpr ⟨?_, z, r, rfl, hz, rfl⟩
    rwa [← hfront, getLast?_reverse]

theorem isWord_of_named? {left : Text} (h : named? left = some n) : n.IsWord := by
  obtain ⟨hne, rfl, -⟩ := named?_eq_some.1 h
  exact ⟨hne, fun b hb => mem_takeWhile_imp (mem_reverse.1 hb)⟩

section

variable {m : Text} {o o' : Text × Text} (ho : o ∈ openings [] m) (ho' : o' ∈ openings [] m)
include ho ho'

theorem eq_of_length (h : o.1.length = o'.1.length) : o = o' := by
  obtain ⟨x, rfl, hx⟩ := mem_openings.1 ho
  obtain ⟨x', hm, hx'⟩ := mem_openings.1 ho'
  rw [append_nil] at hx hx'
  obtain ⟨rfl, htail⟩ := append_inj hm (by simpa [hx, hx'] using h)
  exact Prod.ext (hx.trans hx'.symm) (cons.inj htail).2

theorem lt_start_of_opening (hlt : o.1.length < o'.1.length) (hnamed : named? o'.1 = some n) :
    o.1.length < (named n o'.1 o'.1.length).nameRange.start := by
  obtain ⟨x, rfl, hx⟩ := mem_openings.1 ho
  obtain ⟨x', hm, hx'⟩ := mem_openings.1 ho'
  rw [append_nil] at hx hx'
  rw [hx, hx', length_reverse, length_reverse] at hlt
  rw [hx'] at hnamed
  have := lt_start_of_named (isWord_of_named? hnamed) hm hlt hnamed
  simpa [hx, hx'] using this

end

theorem start_named_le (n left : Text) (k : Nat) : (named n left k).nameRange.start ≤ k :=
  Nat.le_trans (Nat.sub_le _ _) (Nat.sub_le _ _)

/-- **The calls of a function, found at the parentheses of a text.** -/
theorem sites_eq (hn : n.IsWord) (m : Text) :
    sites m n = ((openings [] m).filter (named? ·.1 == some n)).map fun o => named n o.1 o.1.length := by
  refine eq_of_mem_iff_of_pairwise (·.nameRange.start) (pairwise_sites hn.1 m) ?_ fun c => ?_
  · rw [pairwise_map]
    refine ((pairwise_openings [] m).filter _).imp_of_mem fun {o o'} ho ho' hlt => ?_
    obtain ⟨ho, -⟩ := mem_filter.1 ho
    obtain ⟨ho', hnamed⟩ := mem_filter.1 ho'
    exact Nat.lt_of_le_of_lt (start_named_le _ _ _) (lt_start_of_opening ho ho' hlt (by simpa using hnamed))
  · rw [mem_sites hn, mem_map]
    constructor
    · rintro ⟨l, r, rfl, hnamed, rfl⟩
      exact ⟨(l.reverse, r), mem_filter.2 ⟨mem_openings.2 ⟨l, rfl, by simp⟩, by simpa using hnamed⟩, by simp⟩
    · rintro ⟨⟨l, r⟩, ho, rfl⟩
      obtain ⟨ho, hnamed⟩ := mem_filter.1 ho
      obtain ⟨x, rfl, hl⟩ := mem_openings.1 ho
      simp only [append_nil] at hl
      exact ⟨x, r, rfl, by simpa [hl] using hnamed, by simp [hl]⟩

theorem isCall_named (hn : n.IsWord) (hnamed : named? l.reverse = some n) (r : Text) :
    Threading.isCall (l ++ 40 :: r) (named n l.reverse l.length) = .ok (mayCall l.reverse) := by
  obtain ⟨-, hword, -⟩ := named?_eq_some.mp hnamed
  obtain ⟨z, hsplit, hz, hends⟩ := exists_wordBefore l
  unfold mayCall
  rw [hword] at hsplit
  generalize hfront : beforeWord l.reverse = front at hsplit hends
  have hstart : (named n l.reverse l.length).nameRange.start = front.reverse.length := by
    rw [hsplit, named_append hn hz hends]
  have htext : l ++ 40 :: r = front.reverse ++ (n ++ z ++ 40 :: r) := by
    rw [hsplit]
    simp
  unfold Threading.isCall
  rw [hstart, htext, previousWord_append, reverse_reverse]
  by_cases hempty : (wordBefore front).isEmpty
  · simp [hempty]
  · simp [hempty]

end Call

/-- A call of one of the users, by name and arguments. -/
def Overloads.means (overloads : Overloads) (users : List Nat) (name : Text) (args : List Text) : Bool :=
  (overloads.resolve? name args).any users.contains

/-- The texts of the arguments of a call as threading reads them, unless a name is declared here or
the parenthesis is never closed. -/
def Call.arguments? (masked : Text) (c : Call) : Checked (Option (List Text)) := do
  if !(← Threading.isCall masked c) then return none
  let some closeParen := c.closeParen? masked | return none
  let args ← masked.splitArgs c.openParen closeParen
  return some ((← args.mapM masked.slice).map Text.trim)

/-- The argument lists of the calls of `name`, in order. -/
def Call.argumentLists (masked name : Text) : Checked (List (List Text)) := do
  let found ← (Call.sites masked name).mapM (Call.arguments? masked)
  return found.filterMap id

namespace Nest

/-- A list between parentheses: what stands before it, read backwards up to a stop, where its
parenthesis stands, and what it holds. -/
structure Listed where
  left : Text
  openParen : Nat
  inner : Nest

/-- The lists between parentheses of a tree that starts at offset `i` behind `left`, in order. -/
def lists (left : Text) (i : Nat) : Nest → List Listed
  | nil => []
  | byte b rest => rest.lists (b :: left) (i + 1)
  | pair d inner rest =>
    (if d = .paren then [⟨left, i, inner⟩] else []) ++
      (inner.lists [] (i + 1) ++ rest.lists [] (i + (inner.text.length + 2)))

/-- The list stands at an opening parenthesis of a text. -/
structure Listed.At (p : Listed) (o : Text × Text) : Prop where
  left : Text.UpToStop p.left o.1
  openParen : p.openParen = o.1.length
  plain : p.inner.Plain
  inner : ∃ r, o.2 = p.inner.text ++ 41 :: r

/-- **The lists of a tree stand at the parentheses of its text.** -/
theorem forall₂_openings (ht : t.Plain) (hleft : Text.UpToStop left whole) (hi : whole.length = i) :
    List.Forall₂ Listed.At (t.lists left i) (Text.openings whole t.text) := by
  induction t generalizing left whole i with
  | nil => exact .nil
  | byte b rest ih =>
    rw [text_byte, Text.openings,
      if_neg (c := b == 40) (mt beq_iff_eq.mp (Delimiter.ne_opener_of_plain ht.1 .paren))]
    exact ih ht.2 (hleft.cons b) (by rw [List.length_cons, hi])
  | pair d inner rest ihInner ihRest =>
    have hinner := @ihInner (i + 1) [] (d.opener :: whole) ht.1 (.stop (Text.isStop_opener d) whole)
      (by simp [hi])
    have hrest := @ihRest (i + (inner.text.length + 2)) [] _ ht.2
      (.stop (Text.isStop_closer d) (inner.text.reverse ++ d.opener :: whole)) (by simp [← hi]; omega)
    have hextend : List.Forall₂ Listed.At (inner.lists [] (i + 1))
      ((Text.openings (d.opener :: whole) inner.text).map
        fun o => (o.1, o.2 ++ d.closer :: rest.text)) := by
      refine List.forall₂_map_right_iff.mpr (hinner.imp ?_)
      rintro p o ⟨hup, hopen, hplain, r, hr⟩
      exact ⟨hup, hopen, hplain, r ++ d.closer :: rest.text, by simp [hr]⟩
    have hcloser : (d.closer == 40) = false := by cases d <;> rfl
    have hall := List.rel_append hextend hrest
    rw [text_pair, Text.openings, Text.openings_append, Text.openings, hcloser,
      if_neg Bool.false_ne_true, lists]
    cases d with
    | paren => exact .cons ⟨hleft, hi.symm, ht.1, rest.text, rfl⟩ hall
    | brace | bracket => exact hall

/-- A list of the tree is a list of its text. -/
theorem exists_of_mem_lists (ht : t.Plain) {p : Listed} (hp : p ∈ t.lists [] 0) :
    p.inner.Plain ∧ ∃ l r, t.text = l ++ 40 :: (p.inner.text ++ 41 :: r) ∧
      p.openParen = l.length ∧ Text.UpToStop p.left l.reverse := by
  obtain ⟨o, ho, hup, hopen, hplain, r, hr⟩ := exists_of_mem_left (forall₂_openings ht (.inl rfl) rfl) hp
  obtain ⟨l, htext, hl⟩ := Text.mem_openings.mp ho
  rw [List.append_nil] at hl
  exact ⟨hplain, l, r, hr ▸ htext, by rw [hopen, hl, List.length_reverse], hl ▸ hup⟩

/-- **The search for calls and the walk over the tree agree**: the calls of a name are the lists of
the tree behind that name, in order. -/
theorem sites_text (ht : t.Plain) (hn : n.IsWord) : Call.sites t.text n =
      ((t.lists [] 0).filter fun p => Text.named? p.left == some n).map
        fun p => Call.named n p.left p.openParen := by
  have hall : List.Forall₂ Listed.At (t.lists [] 0) (Text.openings [] t.text) :=
    forall₂_openings ht (.inl rfl) rfl
  have hcalls := forall₂_filter (q := fun o => Text.named? o.1 == some n) (p := fun p =>
    Text.named? p.left == some n)
    hall fun h => by rw [Text.named?_upToStop h.left]
  rw [Call.sites_eq hn, ← List.forall₂_eq_eq_eq, List.forall₂_map_left_iff, List.forall₂_map_right_iff]
  exact hcalls.flip.imp fun o p h => by rw [Call.named_upToStop h.left, h.openParen]

namespace Listed

/-- The ranges of the arguments of a list. -/
def ranges (p : Listed) : List Range := present (spans (p.openParen + 1) (commas p.inner))

def closeParen (p : Listed) : Nat := p.openParen + 1 + p.inner.text.length

end Listed

section Site

variable {t : Nest} (ht : t.Plain) {p : Listed} (hp : p ∈ t.lists [] 0)
include ht hp

theorem isCall_listed (hn : n.IsWord) (hnamed : Text.named? p.left = some n) :
    Threading.isCall t.text (Call.named n p.left p.openParen) = .ok (Text.mayCall p.left) := by
  obtain ⟨-, l, r, hl, hpo, hpl⟩ := exists_of_mem_lists ht hp
  rw [← Text.named?_upToStop hpl] at hnamed
  rw [← Call.named_upToStop hpl, hpo, ← Text.mayCall_upToStop hpl, hl]
  exact Call.isCall_named hn hnamed _

theorem closeParen?_listed (n : Text) :
    (Call.named n p.left p.openParen).closeParen? t.text = some p.closeParen := by
  obtain ⟨hplain, l, r, hl, hpo, -⟩ := exists_of_mem_lists ht hp
  rw [Call.closeParen?, Call.named, Listed.closeParen, hl, hpo]
  exact matching?_pair .paren hplain

theorem splitArgs_listed (n : Text) :
    t.text.splitArgs (Call.named n p.left p.openParen).openParen p.closeParen = .ok p.ranges := by
  obtain ⟨hplain, l, r, hl, hpo, -⟩ := exists_of_mem_lists ht hp
  rw [Call.named, Listed.ranges, Listed.closeParen, hl, hpo]
  exact splitArgs_pair hplain 40 41

theorem mapM_slice_listed (hcode : t.text.IsCode) : p.ranges.mapM t.text.slice = .ok p.inner.arguments := by
  obtain ⟨-, l, r, hl, hpo, -⟩ := exists_of_mem_lists ht hp
  unfold Listed.ranges
  rw [hl] at hcode ⊢
  rw [hpo]
  exact mapM_slice_present hcode.isAscii

theorem isCode_listed (hcode : t.text.IsCode) : p.inner.text.IsCode := by
  obtain ⟨-, l, r, hl, -, -⟩ := exists_of_mem_lists ht hp
  rw [hl] at hcode
  intro b hb
  exact hcode b (by simp [hb])

end Site

/-- The edit that threading makes at a list of the tree: the value is appended when the list is the
argument list of a call that means one of the users. -/
def Listed.edit? (meant : Text → List Text → Bool) (new : Text) (p : Listed) : Option Edit :=
  if (Text.callee? p.left).any (meant · p.inner.arguments) then
    some (Threading.append p.ranges.getLast? p.openParen p.closeParen new)
  else none

theorem callEdit?_listed (ht : t.Plain) (hcode : t.text.IsCode) {p : Listed}
    (hp : p ∈ t.lists [] 0) (hn : n.IsWord) (hnamed : Text.named? p.left = some n)
    (ambient : Ambient) (users : List Nat) (overloads : Overloads) :
    Threading.callEdit? t.text ambient users overloads n (Call.named n p.left p.openParen) =
      .ok (p.edit? (Overloads.means overloads users) ambient.name) := by
  unfold Threading.callEdit? Listed.edit? Text.callee?
  simp only [isCall_listed ht hp hn hnamed]
  by_cases hmay : Text.mayCall p.left
  · have htexts := mapM_slice_listed ht hp hcode
    have htrim := map_trim_arguments (isCode_listed ht hp hcode)
    simp only [hmay, closeParen?_listed ht hp, hnamed, if_true, Option.any_some, bind, Except.bind,
      splitArgs_listed ht hp, htexts, htrim, Overloads.means, Bool.not_true, Bool.false_eq_true,
        if_false, pure, Except.pure]
    split
    · rfl
    · rfl
  · simp [hmay, bind, Except.bind, pure, Except.pure]

theorem mapM_eq_ok {α β ε : Type} {f : α → Except ε β} {g : α → β} {xs : List α}
    (h : ∀ x ∈ xs, f x = .ok (g x)) : xs.mapM f = .ok (xs.map g) := by
  induction xs with
  | nil => rfl
  | cons x xs ih =>
    rw [List.mapM_cons, h x List.mem_cons_self, ih fun y hy => h y (List.mem_cons_of_mem _ hy)]
    rfl

theorem mapM_sites {β : Type} {f : Call → Checked β} {g : Listed → β} (ht : t.Plain) (hn : n.IsWord)
    (h : ∀ p ∈ t.lists [] 0, Text.named? p.left = some n → f (Call.named n p.left p.openParen) = .ok (g p)) :
    (Call.sites t.text n).mapM f =
      .ok (((t.lists [] 0).filter fun p => Text.named? p.left == some n).map g) := by
  rw [sites_text ht hn, List.mapM_map]
  refine mapM_eq_ok fun p hp => ?_
  rw [List.mem_filter, beq_iff_eq] at hp
  exact h p hp.1 hp.2


/-- The calls of a tree behind `left`, by name and arguments, in order. -/
def calls (left : Text) : Nest → List (Text × List Text)
  | nil => []
  | byte b rest => rest.calls (b :: left)
  | pair d inner rest =>
    (if d = .paren then ((Text.callee? left).map (·, inner.arguments)).toList else []) ++
      (inner.calls [] ++ rest.calls [])

theorem filterMap_lists (t : Nest) (left : Text) (i : Nat) :
    (t.lists left i).filterMap (fun p => (Text.callee? p.left).map (·, p.inner.arguments)) =
      t.calls left := by
  induction t generalizing left i with
  | nil => rfl
  | byte b rest ih => exact ih _ _
  | pair d inner rest ihInner ihRest =>
    simp only [lists, calls, List.filterMap_append, ihInner, ihRest]
    congr 1
    split
    · cases hcallee : Text.callee? left <;> simp [hcallee]
    · rfl

/-- The argument lists of the calls of a name. -/
def callsOf (n : Text) (t : Nest) : List (List Text) :=
  (t.calls []).filterMap fun c => if c.1 = n then some c.2 else none

theorem argumentLists_text (ht : t.Plain) (hcode : t.text.IsCode)
    (hn : n.IsWord) : Call.argumentLists t.text n = .ok (t.callsOf n) := by
  have hread := mapM_sites (f := Call.arguments? t.text)
    (g := fun p => if Text.mayCall p.left then some p.inner.arguments else none) ht hn fun p hp hnamed => by
      unfold Call.arguments?
      simp only [isCall_listed ht hp hn hnamed, bind, Except.bind, closeParen?_listed ht hp,
        splitArgs_listed ht hp,
        mapM_slice_listed ht hp hcode, map_trim_arguments (isCode_listed ht hp hcode)]
      cases Text.mayCall p.left <;> rfl
  rw [Call.argumentLists, hread]
  show Except.ok _ = Except.ok _
  congr 1
  unfold callsOf
  rw [← filterMap_lists t [] 0, List.filterMap_filterMap, List.filterMap_map, List.filterMap_filter]
  congr 1
  funext p
  unfold Text.callee?
  cases hmay : Text.mayCall p.left with
  | true => cases hnamed : Text.named? p.left <;> simp [hmay]
  | false => simp [hmay]

end Nest

end GlslToMetal
