import GlslToMetal.Proofs.Checked
import GlslToMetal.Proofs.Outline
import GlslToMetal.Proofs.Text.Matching

/-! What the scan of a text finds: items one behind the other, each with the text that it is. The text
may be any bytes: a delimiter that is never closed makes the rest of the text one item, and a stray
closer is code like any other. -/

namespace GlslToMetal

open List Text

variable {b : UInt8} {d : Delimiter} {i n : Nat} {item : Item} {items : List Item} {t x : Text}

namespace Item

/-- Code in which no item ends: outside of delimiters that are closed there is no `;`, no bracket opens,
and a brace opens only in an initialiser, behind an `=`. -/
inductive Run : Text → Prop where
  | nil : Run []
  | byte {x : Text} {b : UInt8} : Run x → Delimiter.ofOpener? b = none → b ≠ 59 → Run (x ++ [b])
  | pair {x inner : Text} {d : Delimiter} : Run x → (d = .brace → 61 ∈ x) → d.behind? 0 inner = some 0 →
      Run (x ++ d.opener :: (inner ++ [d.closer]))

/-- What belongs to a block behind its brace: nothing, or blanks and a `;`. -/
def EndsBlock (t : Text) : Prop := t = [] ∨ ∃ z, z.all isBlank ∧ t = z ++ [59]

/-- Neither a blank nor a `#` stands first, so what begins here is an item and no preprocessor line. -/
def Begins (x : Text) : Prop := ∀ b ∈ x.head?, isBlank b = false ∧ b ≠ 35

/-- The item that a text at offset `i` is, if `t` stands behind it. -/
inductive Shaped (i : Nat) (t : Text) : Text → Item → Prop where
  | directive {x : Text} : directiveTail 35 (x ++ t) = x.length →
    Shaped i t (35 :: x) (.directive ⟨i, i + 1 + x.length⟩)
  | statement {x : Text} : Run x → Begins x → Shaped i t (x ++ [59]) (.statement i (i + x.length))
  | block {x inner tail : Text} : Run x → Begins x → 61 ∉ x →
    Delimiter.brace.behind? 0 inner = some 0 → EndsBlock tail →
      semicolonTail (tail ++ t) = tail.length → Shaped i t (x ++ 123 :: (inner ++ 125 :: tail))
        (.block i (i + x.length) (i + x.length + 1 + inner.length)
          (i + x.length + 2 + inner.length + tail.length))

/-- The items of the text that begins at offset `i`, one behind the other. -/
inductive Laid : Nat → Text → List Item → Prop where
  | blank {i : Nat} {b : UInt8} {t : Text} {items : List Item} : isBlank b → Laid (i + 1) t items →
    Laid i (b :: t) items
  | item {i : Nat} {x t : Text} {item : Item} {items : List Item} : Shaped i t x item →
    Laid (i + x.length) t items →
      Laid i (x ++ t) (item :: items)
  | run {i : Nat} {x : Text} : Run x → Begins x → Laid i x []
  | unterminated {i : Nat} {x t : Text} {d : Delimiter} : Run x → Begins x → d.toCloser 0 t = none →
      Laid i (x ++ d.opener :: t) [.unterminated i (i + (x ++ d.opener :: t).length)]

/-! Every text is laid out so. -/

theorem begins_nil : Begins [] := nofun

theorem begins_cons (hb : isBlank b = false) (hhash : b ≠ 35) (t : Text) : Begins (b :: t) := by
  rintro _ ⟨⟩
  exact ⟨hb, hhash⟩

theorem begins_opener (d : Delimiter) (t : Text) : Begins (d.opener :: t) := by
  cases d <;> exact begins_cons rfl (by decide) t

theorem Begins.append {s : Text} (hs : Begins s) (ht : Begins t) : Begins (s ++ t) := by
  cases s with
  | nil => exact ht
  | cons b s => exact hs

theorem Begins.of_append {s : Text} (h : Begins (s ++ t)) : Begins s := by
  cases s with
  | nil => exact begins_nil
  | cons b s => exact h

theorem contains_concat (t : Text) (b : UInt8) : (t ++ [b]).contains 61 = (t.contains 61 || b == 61) := by
  rw [contains_append, contains_cons, contains_nil, Bool.or_false, BEq.comm]

theorem contains_pair (x inner : Text) (d : Delimiter) :
    (x ++ d.opener :: (inner ++ [d.closer])).contains 61 =
    (x.contains 61 || inner.contains 61) := by
  have hopener : (61 == d.opener) = false := by cases d <;> rfl
  have hcloser : (61 == d.closer) = false := by cases d <;> rfl
  rw [contains_append, contains_cons, contains_append, contains_cons, hopener, hcloser,
    contains_nil, Bool.false_or,
    Bool.or_false, Bool.or_false]

theorem directiveTail_le (last : UInt8) (t : Text) : directiveTail last t ≤ t.length := by
  induction t generalizing last with
  | nil => exact Nat.le_refl _
  | cons b t ih =>
    unfold directiveTail
    split
    · exact Nat.zero_le _
    · exact Nat.succ_le_succ (ih b)

theorem Run.append_plain (hx : Run x) (h : ∀ b ∈ t, Delimiter.plain b ∧ b ≠ 59) : Run (x ++ t) := by
  induction t generalizing x with
  | nil => rwa [append_nil]
  | cons b t ih =>
    obtain ⟨hplain, hsemi⟩ := h b mem_cons_self
    rw [append_cons]
    exact ih (hx.byte (Delimiter.ofOpener?_of_plain hplain) hsemi) fun c hc => h c (mem_cons_of_mem _ hc)

/-- Where a run of code ends: at the end of the text, at a `;`, at a delimiter that nothing closes, or
at a body. -/
inductive Stops (x : Text) : Text → Prop where
  | nil : Stops x []
  | semicolon (t : Text) : Stops x (59 :: t)
  | unclosed {d : Delimiter} {t : Text} : d.toCloser 0 t = none → Stops x (d.opener :: t)
  | body {inner t : Text} : 61 ∉ x → Delimiter.brace.behind? 0 inner = some 0 →
    Stops x (123 :: (inner ++ 125 :: t))

/-- A run of code goes on as long as it can. The induction is on the length of what is left, since
delimiters are passed over whole. -/
theorem exists_run (n : Nat) {t x : Text} (ht : t.length ≤ n) (hx : Run x) :
    ∃ y rest, x ++ t = y ++ rest ∧ Run y ∧ Stops y rest := by
  induction n generalizing t x with
  | zero =>
    obtain rfl := length_eq_zero_iff.1 (Nat.le_zero.1 ht)
    exact ⟨x, [], rfl, hx, .nil⟩
  | succ n ih =>
    cases t with
    | nil => exact ⟨x, [], rfl, hx, .nil⟩
    | cons b t =>
      replace ht : t.length ≤ n := Nat.succ_le_succ_iff.1 ht
      cases hopen : Delimiter.ofOpener? b with
      | none =>
        by_cases hb : b = 59
        · subst hb
          exact ⟨x, _, rfl, hx, .semicolon t⟩
        · obtain ⟨y, rest, heq, hy⟩ := ih ht (hx.byte hopen hb)
          exact ⟨y, rest, by rw [← heq, append_assoc, singleton_append], hy⟩
      | some d =>
        obtain rfl := Delimiter.eq_opener_of_ofOpener? hopen
        cases hclose : d.toCloser 0 t with
        | none => exact ⟨x, _, rfl, hx, .unclosed hclose⟩
        | some k =>
          obtain ⟨inner, rest, rfl, hinner, -⟩ := Delimiter.toCloser_eq_some_iff.1 hclose
          by_cases hbody : d = .brace ∧ 61 ∉ x
          · obtain ⟨rfl, hassigned⟩ := hbody
            exact ⟨x, _, rfl, hx, .body hassigned hinner⟩
          · rw [length_append, length_cons] at ht
            obtain ⟨y, rest, heq, hy⟩ :=
              @ih rest _ (by omega) (hx.pair (fun hd => by simpa [hd] using hbody) hinner)
            exact ⟨y, rest, by rw [← heq]; simp, hy⟩

theorem exists_endsBlock (t : Text) :
    ∃ tail rest, t = tail ++ rest ∧ EndsBlock tail ∧ semicolonTail t = tail.length := by
  rcases semicolonTail_cases t with ⟨z, rest, rfl, hz, hlength⟩ | ⟨-, hlength⟩
  · exact ⟨z ++ [59], rest, by simp, .inr ⟨z, hz, rfl⟩, by simpa using hlength⟩
  · exact ⟨[], t, rfl, .inl rfl, hlength⟩

theorem exists_laid (n : Nat) {t : Text} (ht : t.length ≤ n) (i : Nat) : ∃ items, Laid i t items := by
  induction n generalizing t i with
  | zero =>
    obtain rfl := length_eq_zero_iff.1 (Nat.le_zero.1 ht)
    exact ⟨[], .run .nil begins_nil⟩
  | succ n ih =>
    cases t with
    | nil => exact ⟨[], .run .nil begins_nil⟩
    | cons b t =>
      have ht' : t.length ≤ n := Nat.succ_le_succ_iff.1 ht
      by_cases hblank : isBlank b
      · obtain ⟨items, hitems⟩ := ih ht' (i + 1)
        exact ⟨items, .blank hblank hitems⟩
      by_cases hhash : b = 35
      · subst hhash
        have hlength : (t.take (directiveTail 35 t)).length = directiveTail 35 t :=
          length_take_of_le (directiveTail_le 35 t)
        have hsplit := take_append_drop (directiveTail 35 t) t
        generalize t.take (directiveTail 35 t) = x at hlength hsplit
        obtain ⟨items, hitems⟩ :=
          @ih (t.drop (directiveTail 35 t)) (by rw [length_drop]; omega) (i + (35 :: x).length)
        have hlaid := Laid.item (.directive (by rw [hsplit, hlength])) hitems
        rw [cons_append, hsplit] at hlaid
        exact ⟨_, hlaid⟩
      obtain ⟨y, rest, heq, hy, hstops⟩ := exists_run (n + 1) ht .nil
      rw [nil_append] at heq
      have hbegins : Begins (y ++ rest) := heq ▸ begins_cons (by simpa using hblank) hhash t
      rw [heq] at ht ⊢
      rw [length_append] at ht
      cases hstops with
      | nil => exact ⟨[], by rw [append_nil]; exact .run hy hbegins.of_append⟩
      | semicolon r =>
        obtain ⟨items, hitems⟩ := @ih r (by rw [length_cons] at ht; omega) (i + (y ++ [59]).length)
        exact ⟨_, by rw [← singleton_append,
          ← append_assoc]; exact .item (.statement hy hbegins.of_append) hitems⟩
      | unclosed hclose => exact ⟨_, .unterminated hy hbegins.of_append hclose⟩
      | @body inner r hassigned hinner =>
        obtain ⟨tail, r, rfl, htail, hlength⟩ := exists_endsBlock r
        simp only [length_cons, length_append] at ht
        obtain ⟨items, hitems⟩ := @ih r (by omega) (i + (y ++ 123 :: (inner ++ 125 :: tail)).length)
        have hlaid := Laid.item (.block hy hbegins.of_append hassigned hinner htail hlength) hitems
        exact ⟨_, by simpa using hlaid⟩

/-! The scan finds what is laid out. -/

theorem Run.scan (hx : Run x) (start i : Nat) (rest : Text) :
    Item.scan (.inside start false) i 0 (x ++ rest) =
    Item.scan (.inside start (x.contains 61)) (i + x.length) 0 rest := by
  induction hx generalizing rest with
  | nil => rfl
  | @byte x b _ hopen hb ih =>
    rw [append_assoc, ih, singleton_append, scan_byte _ _ _ hopen hb, contains_concat,
      length_append, length_singleton,
      Nat.add_assoc]
  | @pair x inner d _ hd hinner ih =>
    have hclose : d.toCloser 0 (inner ++ d.closer :: rest) = some inner.length :=
      Delimiter.toCloser_eq_some_iff.2 ⟨inner, rest, rfl, hinner, rfl⟩
    have hlength : i + x.length + (inner.length + 2) =
        i + (x ++ d.opener :: (inner ++ [d.closer])).length := by
      simp only [length_append, length_cons, length_nil]
      omega
    rw [append_assoc, cons_append, ih, append_assoc, singleton_append,
      scan_pair _ _ _ hclose (by simpa using hd),
      contains_pair, hlength]

theorem Run.scan_between (hx : Run x) {rest : Text} (hbegins : Begins (x ++ rest)) (i : Nat) :
    Item.scan .between i 0 (x ++ rest) = Item.scan (.inside i (x.contains 61)) (i + x.length) 0 rest := by
  rw [← hx.scan]
  cases hsplit : x ++ rest with
  | nil => rfl
  | cons b t =>
    rw [hsplit] at hbegins
    exact scan_enter (hbegins b rfl).1 (hbegins b rfl).2 i t

theorem Shaped.scan (h : Shaped i t x item) :
    Item.scan .between i 0 (x ++ t) = item :: Item.scan .between (i + x.length) 0 t := by
  cases h with
  | @directive x hx =>
    have hskip := scan_skip .between (i + 1) x t
    rw [foldl_pass_between] at hskip
    have hscan : Item.scan .between i 0 (35 :: (x ++ t)) =
      .directive ⟨i, i + 1 + directiveTail 35 (x ++ t)⟩ ::
        Item.scan .between (i + 1) (directiveTail 35 (x ++ t)) (x ++ t) := rfl
    rw [cons_append, hscan, hx, hskip, length_cons, Nat.add_comm x.length, Nat.add_assoc]
  | statement hx hbegins =>
    rw [append_assoc, singleton_append,
      hx.scan_between (hbegins.append (begins_cons rfl (by decide) _)), scan_semicolon,
      length_append, length_singleton, Nat.add_assoc]
  | @block x inner tail hx hbegins hassigned hinner _ htail =>
    have hclose : Delimiter.brace.toCloser 0 (inner ++ 125 :: (tail ++ t)) = some inner.length :=
      Delimiter.toCloser_eq_some_iff.2 ⟨inner, tail ++ t, rfl, hinner, rfl⟩
    have hlength : i + x.length + 2 + inner.length + tail.length =
        i + (x ++ 123 :: (inner ++ 125 :: tail)).length := by
      simp only [length_append, length_cons]
      omega
    have hsplit : x ++ 123 :: (inner ++ 125 :: tail) ++ t =
      x ++ 123 :: (inner ++ 125 :: (tail ++ t)) := by simp
    have hcontains : x.contains 61 = false := by simpa using hassigned
    rw [hsplit, hx.scan_between (hbegins.append (begins_cons rfl (by decide) _)), hcontains,
      scan_enclosed _ _ _ hclose, htail,
      drop_left, hlength]

theorem Laid.scan (h : Laid i t items) : Item.scan .between i 0 t = items := by
  induction h with
  | blank hb _ ih => rw [scan_blank hb, ih]
  | item hshaped _ ih => rw [hshaped.scan, ih]
  | @run i x hx hbegins =>
    have hscan := hx.scan_between ((append_nil x).symm ▸ hbegins) i
    rwa [append_nil] at hscan
  | @unterminated i x t d hx hbegins hclose =>
    rw [hx.scan_between (hbegins.append (begins_opener d t))]
    unfold Item.scan
    simp [hclose, Place.enter]
    omega

/-! What items that are laid out say about the text. -/

theorem Shaped.range (h : Shaped i t x item) : item.range = ⟨i, i + x.length⟩ ∧ 0 < x.length := by
  cases h with
  | directive => exact ⟨by simp [Item.range]; omega, by simp⟩
  | statement => exact ⟨by simp [Item.range]; omega, by simp⟩
  | block => exact ⟨by simp [Item.range]; omega, by simp only [length_append, length_cons]; omega⟩

/-- The `#`, the `;` and the braces of an item stand in the text where it has them, and the braces match. -/
def Marked (t : Text) : Item → Prop
  | .directive r => t[r.start]? = some 35
  | .statement _ semicolon => t[semicolon]? = some 59
  | .block start opened closed stop => start ≤ opened ∧ t[opened]? = some 123 ∧ t[closed]? = some 125 ∧
      t.matching? opened = some closed ∧ closed < stop ∧ EndsBlock (t.cut ⟨closed + 1, stop⟩)
  | _ => True

theorem Shaped.marked (h : Shaped i t x item) {pre : Text} (hpre : pre.length = i) :
    item.Marked (pre ++ (x ++ t)) := by
  subst hpre
  cases h with
  | directive => simp [Marked]
  | statement => simp [Marked]
  | @block x inner tail _ _ _ hinner htail =>
    have hclose : Delimiter.brace.toCloser 0 (inner ++ 125 :: (tail ++ t)) = some inner.length :=
      Delimiter.toCloser_eq_some_iff.2 ⟨inner, tail ++ t, rfl, hinner, rfl⟩
    have hdrop : (pre ++ (x ++ 123 :: (inner ++ 125 :: tail) ++ t)).drop (pre.length + x.length) =
        123 :: (inner ++ 125 :: (tail ++ t)) := by
      rw [← length_append, append_assoc, ← append_assoc, drop_left]
      simp
    have hget : ∀ j, (pre ++ (x ++ 123 :: (inner ++ 125 :: tail) ++ t))[pre.length + x.length + j]? =
        (123 :: (inner ++ 125 :: (tail ++ t)))[j]? := fun j => by rw [← hdrop, getElem?_drop]
    refine ⟨Nat.le_add_right _ _, hget 0, ?_, ?_, by omega, ?_⟩
    · have hcloser := hget (inner.length + 1)
      rw [getElem?_cons_succ, getElem?_append_right (Nat.le_refl _), Nat.sub_self] at hcloser
      rwa [show pre.length + x.length + (inner.length + 1) = pre.length + x.length + 1 +
        inner.length by omega] at hcloser
    · unfold matching?
      rw [hdrop]
      exact Option.bind_eq_some_iff.2 ⟨.brace, rfl, Option.bind_eq_some_iff.2 ⟨inner.length, hclose, rfl⟩⟩
    · have hcut := cut_append (pre ++ x ++ 123 :: (inner ++ [125])) tail t
      have hlength : (pre ++ x ++ 123 :: (inner ++ [125])).length = pre.length + x.length + 1 +
          inner.length + 1 := by
        simp only [length_append, length_cons, length_nil]
        omega
      rw [hlength] at hcut
      have hsame : pre ++ (x ++ 123 :: (inner ++ 125 :: tail) ++ t) =
          pre ++ x ++ 123 :: (inner ++ [125]) ++ tail ++ t := by
        simp
      rwa [hsame, show pre.length + x.length + 2 + inner.length = pre.length + x.length + 1 +
        inner.length + 1 by omega,
        hcut]

theorem Laid.marked (h : Laid i t items) {pre : Text} (hpre : pre.length = i) :
    ∀ item ∈ items, item.Marked (pre ++ t) := by
  induction h generalizing pre with
  | @blank i b t items _ _ ih =>
    have := @ih (pre ++ [b]) (by rw [length_append, hpre]; rfl)
    rwa [append_assoc, singleton_append] at this
  | @item i x t item items hshaped _ ih =>
    have := @ih (pre ++ x) (by rw [length_append, hpre])
    rw [append_assoc] at this
    exact forall_mem_cons.2 ⟨hshaped.marked hpre, this⟩
  | run => exact forall_mem_nil _
  | unterminated => exact forall_mem_singleton.2 trivial

/-- The offsets of an item are in order and not beyond `n`. -/
def Within (n : Nat) : Item → Prop
  | directive r => r.Within n
  | statement start semicolon => start ≤ semicolon ∧ semicolon < n
  | block start opened closed stop =>
    start ≤ opened ∧ opened < closed ∧ closed < stop ∧ stop ≤ n
  | unterminated start stop => start ≤ stop ∧ stop ≤ n

theorem Within.mono {k : Nat} (h : item.Within n) (hle : n ≤ k) : item.Within k := by
  cases item with
  | directive => exact ⟨h.1, Nat.le_trans h.2 hle⟩
  | statement => exact ⟨h.1, Nat.lt_of_lt_of_le h.2 hle⟩
  | block => exact ⟨h.1, h.2.1, h.2.2.1, Nat.le_trans h.2.2.2 hle⟩
  | unterminated => exact ⟨h.1, Nat.le_trans h.2 hle⟩

theorem Shaped.within (h : Shaped i t x item) : item.Within (i + x.length) := by
  cases h <;> simp only [Within, Range.Within, length_append, length_cons, length_nil] <;> omega

theorem Laid.within (h : Laid i t items) : ∀ item ∈ items, item.Within (i + t.length) := by
  induction h with
  | blank _ _ ih => exact fun item hitem => (ih item hitem).mono (by rw [length_cons]; omega)
  | item hshaped _ ih =>
    rw [length_append, ← Nat.add_assoc]
    exact forall_mem_cons.2 ⟨hshaped.within.mono (Nat.le_add_right _ _), ih⟩
  | run => exact forall_mem_nil _
  | unterminated => exact forall_mem_singleton.2 ⟨Nat.le_add_right _ _, Nat.le_refl _⟩

theorem Within.range (h : item.Within n) : item.range.Within n := by
  cases item with
  | directive r => exact h
  | statement start semicolon => exact ⟨Nat.le_succ_of_le h.1, h.2⟩
  | block start opened closed stop =>
    exact ⟨by have := h.1; have := h.2; dsimp only [Item.range]; omega, h.2.2.2⟩
  | unterminated start stop => exact h

theorem Within.body? (h : item.Within n) : ∀ r ∈ item.body?, r.Within n := by
  intro r hr
  cases item with
  | block start opened closed stop =>
    cases hr
    exact ⟨h.2.1, by have := h.2.2; dsimp only; omega⟩
  | _ => cases hr

end Item

theorem Text.laid_items (t : Text) : Item.Laid 0 t t.items := by
  obtain ⟨items, hitems⟩ := Item.exists_laid t.length (Nat.le_refl _) 0
  rwa [show t.items = items from hitems.scan]

theorem Item.within_of_mem_items (h : item ∈ t.items) : item.Within t.length := by
  have := t.laid_items.within item h
  rwa [Nat.zero_add] at this

end GlslToMetal
