import GlslToMetal.Proofs.Item.Heads
import GlslToMetal.Proofs.Text.Removal

/-! Reading a text whose items are laid out. A reader takes in a run of code byte by byte, and gives
what is read of an item at its end, or for a preprocessor line at the newline behind it. So behind any
part of a text it has given the items that are complete, and remembers the header that has begun. -/

namespace GlslToMetal

open List Text

variable {b : UInt8} {d : Delimiter} {done : List (Option Item.Head)} {i k n : Nat} {item : Item}
  {items : List Item}
  {ρ : Item.Reader} {pre s t x : Text}

theorem Delimiter.behind?_byte (h : d.behind? k [b] = some n) :
    (b = d.opener ∧ n = k + 1) ∨ (b = d.closer ∧ k = n + 1) ∨
    (b ≠ d.opener ∧ b ≠ d.closer ∧ n = k) := by
  simp only [behind?] at h
  split at h
  · next hopen => exact .inl ⟨beq_iff_eq.mp hopen, (Option.some.inj h).symm⟩
  · next hopen =>
    split at h
    · next hclose =>
      cases k with
      | zero => cases h
      | succ k => exact .inr (.inl ⟨beq_iff_eq.mp hclose, congrArg (· + 1) (Option.some.inj h)⟩)
    · next hclose => exact .inr (.inr ⟨by simpa using hopen, by simpa using hclose, (Option.some.inj h).symm⟩)

namespace Item.State

/-- How many braces are open behind a text, if `depth` are before it and none closes more. -/
def bracesBehind? (depth : Nat) : Text → Option Nat
  | [] => some depth
  | b :: t =>
    if b == 123 then bracesBehind? (depth + 1) t
    else if b == 125 then
      match depth with
      | 0 => none
      | depth + 1 => bracesBehind? depth t
    else bracesBehind? depth t

theorem bracesBehind?_eq : bracesBehind? = Delimiter.brace.behind? := by
  funext depth t
  induction t generalizing depth with
  | nil => rfl
  | cons b t ih =>
    simp only [bracesBehind?, Delimiter.behind?, ih]
    rfl

theorem bracesBehind?_append (depth : Nat) (s t : Text) :
    bracesBehind? depth (s ++ t) = (bracesBehind? depth s).bind (bracesBehind? · t) :=
  bracesBehind?_eq ▸ Delimiter.brace.behind?_append depth s t

theorem bracesBehind?_of_not_mem (hopen : 123 ∉ t) (hclose : 125 ∉ t) (depth : Nat) :
    bracesBehind? depth t = some depth :=
  bracesBehind?_eq ▸ Delimiter.behind?_of_not_mem hopen hclose depth

end Item.State

/-- Every delimiter in the item is closed. -/
def Item.isTerminated : Item → Bool
  | .unterminated .. => false
  | _ => true

namespace Item.Reader

/-- Where a byte only lengthens what is remembered and counts the delimiters that are open, a text does. -/
theorem read_behind {f : Text → Nat → Reader}
    (hf : ∀ {a : Text} {b : UInt8} {k n : Nat}, d.behind? k [b] = some n →
      (f a k).step b = f (a ++ [b]) n ∧ (f a k).emit b = []) (h : d.behind? k t = some n) (a : Text) :
    (f a k).read t = f (a ++ t) n ∧ (f a k).emitted t = [] := by
  induction t generalizing k a with
  | nil =>
    cases h
    exact ⟨by rw [append_nil]; rfl, rfl⟩
  | cons b t ih =>
    rw [← singleton_append, Delimiter.behind?_append] at h
    obtain ⟨j, hb, ht⟩ := Option.bind_eq_some_iff.mp h
    obtain ⟨hstep, hemit⟩ := hf (a := a) hb
    obtain ⟨hread, hemitted⟩ := ih ht (a ++ [b])
    rw [read, emitted, hstep, hread, hemitted, hemit]
    exact ⟨by simp, rfl⟩

theorem read_nested (h : d.behind? k t = some n) (a : Text) :
    (nested a d k).read t = nested (a ++ t) d n ∧ (nested a d k).emitted t = [] := by
  refine read_behind (f := (nested · d ·)) (fun {a b k n} hb => ⟨?_, rfl⟩) h a
  rcases Delimiter.behind?_byte hb with ⟨rfl, rfl⟩ | ⟨rfl, rfl⟩ | ⟨hopen, hclose, rfl⟩
  · simp [step]
  · simp [step, d.closer_ne_opener]
  · simp [step, hopen, hclose]

theorem read_body (h : Delimiter.brace.behind? k t = some n) (a : Text) :
    (body a k).read t = body a n ∧ (body a k).emitted t = [] := by
  refine read_behind (f := fun _ k => body a k) (fun {_ b k n} hb => ?_) h []
  rcases Delimiter.behind?_byte hb with ⟨rfl, rfl⟩ | ⟨rfl, rfl⟩ | ⟨hopen, hclose, rfl⟩
  · exact ⟨rfl, rfl⟩
  · exact ⟨rfl, rfl⟩
  · simp only [Delimiter.opener, Delimiter.closer] at hopen hclose
    simp [step, emit, hopen, hclose]

theorem read_pair {inner : Text} (hd : d = .brace → 61 ∈ s) (hinner : d.behind? 0 inner = some 0) :
    (inside s).read (d.opener :: (inner ++ [d.closer])) = inside (s ++ d.opener :: (inner ++ [d.closer])) ∧
      ∀ u, u <+: d.opener :: (inner ++ [d.closer]) → (inside s).emitted u = [] ∧
        ((inside s).read u).open? = some (s ++ u) := by
  have hstep : (inside s).step d.opener = nested (s ++ [d.opener]) d 0 := by simpa [step, enter] using hd
  have hemit : (inside s).emit d.opener = [] := by cases d <;> rfl
  have hne := d.closer_ne_opener
  have hclose : (inside s).read (d.opener :: (inner ++ [d.closer])) =
      inside (s ++ d.opener :: (inner ++ [d.closer])) := by
    rw [read, hstep, read_append, (read_nested hinner _).1]
    simp [read, step, hne]
  refine ⟨hclose, fun u hu => ?_⟩
  rcases prefix_cons_iff.mp hu with rfl | ⟨v, rfl, hv⟩
  · exact ⟨rfl, by simp [read, open?]⟩
  rcases prefix_concat_iff.mp hv with rfl | ⟨w, rfl⟩
  · refine ⟨?_, by rw [hclose]; rfl⟩
    rw [emitted, hstep, hemit, emitted_append, (read_nested hinner _).1, (read_nested hinner _).2]
    rfl
  · rw [Delimiter.behind?_append] at hinner
    obtain ⟨k, hk, -⟩ := Option.bind_eq_some_iff.mp hinner
    obtain ⟨hread, hemitted⟩ := read_nested hk (s ++ [d.opener])
    rw [emitted, read, hstep, hemit, hread, hemitted]
    exact ⟨rfl, by simp [open?]⟩

/-- **A run of code is read as one header**, and so is every part of it. -/
theorem read_run (hx : Run x) (a : Text) : (inside a).read x = inside (a ++ x) ∧
    ∀ u, u <+: x → (inside a).emitted u = [] ∧ ((inside a).read u).open? = some (a ++ u) := by
  induction hx with
  | nil =>
    refine ⟨by rw [append_nil]; rfl, fun u hu => ?_⟩
    rw [prefix_nil.mp hu, append_nil]
    exact ⟨rfl, rfl⟩
  | @byte x b _ hopen hb ih =>
    obtain ⟨hread, hparts⟩ := ih
    have hstep : (inside (a ++ x)).step b = inside (a ++ (x ++ [b])) ∧ (inside (a ++ x)).emit b = [] := by
      simp [step, emit, enter, hopen, hb]
    have hlast : (inside a).read (x ++ [b]) = inside (a ++ (x ++ [b])) := by
      rw [read_append, hread]
      exact hstep.1
    refine ⟨hlast, fun u hu => ?_⟩
    rcases prefix_concat_iff.mp hu with rfl | hu
    · refine ⟨?_, by rw [hlast]; rfl⟩
      rw [emitted_append, (hparts x (prefix_refl x)).1, hread, emitted, hstep.2]
      rfl
    · exact hparts u hu
  | @pair x inner d _ hd hinner ih =>
    obtain ⟨hread, hparts⟩ := ih
    obtain ⟨hpair, hparts'⟩ := @read_pair d (a ++ x) inner (fun h => mem_append_right a (hd h)) hinner
    refine ⟨by rw [read_append, hread, hpair, append_assoc], fun u hu => ?_⟩
    rcases le_total u.length x.length with hle | hle
    · exact hparts u (prefix_of_prefix_length_le hu (prefix_append _ _) hle)
    · obtain ⟨v, rfl⟩ := prefix_of_prefix_length_le (prefix_append _ _) hu hle
      obtain ⟨hemitted, hopen⟩ := hparts' v ((prefix_append_right_inj x).mp hu)
      rw [emitted_append, read_append, (hparts x (prefix_refl x)).1, hread, hemitted, hopen, append_assoc]
      exact ⟨rfl, rfl⟩

/-- A delimiter that nothing closes leaves its item open. -/
theorem read_unclosed (hx : Run x) (h : d.toCloser 0 t = none) :
    (inside []).emitted (x ++ d.opener :: t) = [] ∧
    ((inside []).read (x ++ d.opener :: t)).finish = [none] ∧
      ((inside []).read (x ++ d.opener :: t)).isRest = false := by
  obtain ⟨hread, hparts⟩ := read_run hx []
  obtain ⟨k, hk⟩ : ∃ k, d.behind? 0 t = some k := by
    have := d.isSome_toCloser 0 t
    rw [h, eq_comm, Option.isSome_none, Option.isNone_eq_false_iff] at this
    exact Option.isSome_iff_exists.mp this
  have hemit : (inside x).emit d.opener = [] := by cases d <;> rfl
  rw [emitted_append, read_append, hread, (hparts x (prefix_refl x)).1, nil_append, nil_append,
    read, emitted, hemit]
  by_cases hbody : d = .brace ∧ 61 ∉ x
  · obtain ⟨rfl, hassigned⟩ := hbody
    have hstep : (inside x).step Delimiter.brace.opener = body x 0 := by simp [step, enter, hassigned]
    rw [hstep, (read_body hk x).1, (read_body hk x).2]
    exact ⟨rfl, rfl, rfl⟩
  · have hstep : (inside x).step d.opener = nested (x ++ [d.opener]) d 0 := by simpa [step, enter] using hbody
    rw [hstep, (read_nested hk _).1, (read_nested hk _).2]
    exact ⟨rfl, rfl, rfl⟩

/-- The reader stands between two items, before `t`, and has still to give `done`. -/
inductive Resumes : Reader → List (Option Head) → Text → Prop where
  | between (t : Text) : Resumes between [] t
  | closed {t : Text} : (t.dropWhile isBlank).head? ≠ some 59 → Resumes closed [] t
  | line {x t : Text} : (∀ b ∈ t.head?, b = newline ∧ x.getLast? ≠ some 92) →
    Resumes (line x) [some (.line x)] t

theorem read_blanks (hρ : ρ.isRest) (ht : t.all isBlank) : ρ.read t = ρ ∧ ρ.emitted t = [] := by
  induction t with
  | nil => exact ⟨rfl, rfl⟩
  | cons b t ih =>
    rw [all_cons, Bool.and_eq_true] at ht
    have hsemi : b ≠ 59 := by
      rintro rfl
      cases ht.1
    have hstep : ρ.step b = ρ ∧ ρ.emit b = [] := by
      cases ρ with
      | between => simp [step, begin, emit, ht.1, hsemi]
      | closed => simp [step, emit, ht.1]
      | _ => cases hρ
    rw [read, emitted, hstep.1, hstep.2]
    exact ih ht.2

theorem Resumes.blank (h : Resumes ρ done (b :: t)) (hb : isBlank b) :
    ∃ done', Resumes (ρ.step b) done' t ∧ ρ.emit b ++ done' = done := by
  have hsemi : b ≠ 59 := by
    rintro rfl
    cases hb
  cases h with
  | between => exact ⟨[], by simpa [step, begin, hb] using .between t, by simp [emit, hsemi]⟩
  | closed h =>
    rw [dropWhile_cons_of_pos hb] at h
    exact ⟨[], by simpa [step, hb] using .closed h, rfl⟩
  | line h =>
    obtain ⟨rfl, hlast⟩ := h b rfl
    exact ⟨[], by simpa [step, hlast] using .between t, by simp [emit, hlast]⟩

/-- An item that begins where another is complete is read as what is inside of one. -/
theorem Resumes.begins (h : Resumes ρ done (s ++ t)) (hs : Begins s) (hne : s ≠ []) :
    done = [] ∧ ρ.isRest ∧ ρ.read s = (inside []).read s ∧ ρ.emitted s = (inside []).emitted s := by
  obtain ⟨b, s, rfl⟩ := exists_cons_of_ne_nil hne
  obtain ⟨hblank, hhash⟩ := hs b rfl
  have hinside : ∀ {σ : Reader}, σ.step b = (inside []).step b → σ.emit b = (inside []).emit b →
      σ.read (b :: s) = (inside []).read (b :: s) ∧ σ.emitted (b :: s) = (inside []).emitted (b :: s) := by
    intro σ hstep hemit
    exact ⟨congrArg (Reader.read · s) hstep, by rw [emitted, emitted, hstep, hemit]⟩
  cases h with
  | between => exact ⟨rfl, rfl, hinside (by simp [step, begin, hblank, hhash]) rfl⟩
  | closed h =>
    have hsemi : b ≠ 59 := by simpa [hblank] using h
    exact ⟨rfl, rfl, hinside (by simp [step, begin, hblank, hhash, hsemi]) (by simp [emit, hsemi])⟩
  | line h =>
    rw [(h b rfl).1] at hblank
    cases hblank

theorem Resumes.isRest (h : Resumes ρ [] t) : ρ.isRest := by
  cases h <;> rfl

theorem Resumes.eq_nil (h : Resumes ρ done t) (hρ : ρ.isRest) : done = [] := by
  cases h with
  | line => cases hρ
  | _ => rfl

theorem Resumes.isOpen (h : Resumes ρ done t) : ρ.isOpen = false := by
  cases h <;> rfl

theorem Resumes.of_isRest (hρ : ρ.isRest) (h : (t.dropWhile isBlank).head? ≠ some 59) : Resumes ρ [] t := by
  cases ρ with
  | between => exact .between t
  | closed => exact .closed h
  | _ => cases hρ

theorem isOpen_of_isRest (hρ : ρ.isRest) : ρ.isOpen = false := by
  cases ρ <;> first | rfl | cases hρ

theorem read_of_isRest (hρ : ρ.isRest) (t : Text) :
    (ρ.read t).isOpen = (between.read t).isOpen ∧ (ρ.read t).isRest = (between.read t).isRest := by
  by_cases hblank : t.all isBlank
  · rw [(read_blanks hρ hblank).1, (read_blanks rfl hblank).1]
    cases ρ with
    | between => exact ⟨rfl, rfl⟩
    | closed => exact ⟨rfl, rfl⟩
    | _ => cases hρ
  · obtain ⟨b, r, ht, hb⟩ := exists_leading hblank
    have hstep : ρ.step b = between.step b := by
      cases ρ with
      | between => rfl
      | closed =>
        by_cases hsemi : b = 59
        · subst hsemi
          rfl
        · simp [step, hb, hsemi]
      | _ => cases hρ
    rw [ht, read_append, read_append, (read_blanks hρ all_takeWhile).1,
      (read_blanks rfl all_takeWhile).1, read, read, hstep]
    exact ⟨rfl, rfl⟩

/-- Items end at blanks, at semicolons and at braces. -/
theorem cases_of_isRest_step (h : (ρ.step b).isRest) : isBlank b ∨ b = 59 ∨ b = 125 := by
  have henter : ∀ {head : Text}, (enter head b).isRest → b = 59 := by
    intro head h
    simp only [enter] at h
    repeat' split at h
    all_goals first | exact beq_iff_eq.mp ‹_› | cases h
  have hbegin : (begin b).isRest → isBlank b ∨ b = 59 ∨ b = 125 := by
    intro h
    simp only [begin] at h
    repeat' split at h
    · exact .inl ‹_›
    · cases h
    · exact .inr (.inl (henter h))
  cases ρ with
  | between => exact hbegin h
  | closed =>
    simp only [step] at h
    repeat' split at h
    · exact .inl ‹_›
    · exact .inr (.inl (beq_iff_eq.mp ‹_›))
    · exact hbegin h
  | line x =>
    simp only [step] at h
    split at h
    · rename_i hline
      rw [beq_iff_eq.mp (Bool.and_eq_true_iff.mp hline).1]
      exact .inl rfl
    · cases h
  | inside => exact .inr (.inl (henter h))
  | nested =>
    simp only [step] at h
    repeat' split at h
    all_goals cases h
  | body =>
    simp only [step] at h
    repeat' split at h
    all_goals first | exact .inr (.inr (beq_iff_eq.mp ‹_›)) | cases h

theorem isOpen_read (hρ : ρ.isOpen) (ht : ∀ b ∈ t, Delimiter.plain b ∧ b ≠ 59) : (ρ.read t).isOpen := by
  induction t generalizing ρ with
  | nil => exact hρ
  | cons b t ih =>
    refine ih ?_ fun c hc => ht c (mem_cons_of_mem _ hc)
    obtain ⟨hplain, hsemi⟩ := ht b mem_cons_self
    cases ρ with
    | inside head => simp [step, enter, Delimiter.ofOpener?_of_plain hplain, hsemi, isOpen]
    | nested head d depth =>
      simp [step, Delimiter.ne_opener_of_plain hplain, Delimiter.ne_closer_of_plain hplain, isOpen]
    | body head depth =>
      have hopen := Delimiter.ne_opener_of_plain hplain .brace
      have hclose := Delimiter.ne_closer_of_plain hplain .brace
      simp only [Delimiter.opener, Delimiter.closer] at hopen hclose
      simp [step, hopen, hclose, isOpen]
    | _ => cases hρ

theorem read_directive {last : UInt8} {a : Text} (ha : a.getLast? = some last)
    (h : directiveTail last (x ++ t) = x.length) :
    (line a).read x = line (a ++ x) ∧ (line a).emitted x = [] ∧
      ∀ b ∈ t.head?, b = newline ∧ (a ++ x).getLast? ≠ some 92 := by
  induction x generalizing a last with
  | nil =>
    refine ⟨by rw [append_nil]; rfl, rfl, fun b hb => ?_⟩
    obtain ⟨t, rfl⟩ := head?_eq_some_iff.mp hb
    rw [nil_append, directiveTail] at h
    split at h
    · next hend => simpa [ha] using hend
    · cases h
  | cons b x ih =>
    rw [cons_append, directiveTail] at h
    split at h
    · cases h
    · next hend =>
      obtain ⟨hread, hemitted, hbehind⟩ := @ih b (a ++ [b]) getLast?_concat (Nat.succ.inj h)
      have hend' : (b == newline && a.getLast? != some 92) = false := by simpa [ha] using hend
      rw [append_assoc, singleton_append] at hread hbehind
      simp only [read, emitted, step, emit, hend', Bool.false_eq_true, if_false]
      exact ⟨hread, hemitted, hbehind⟩

end Item.Reader

namespace Item

open Reader

/-- What is read of an item behind its end. -/
def late (m : Text) : Item → List (Option Head)
  | directive r => [some (.line (m.cut r))]
  | _ => []

/-- **What is read of an item** is given at its end, or behind it. -/
theorem Shaped.read (h : Shaped i t x item) (hρ : Resumes ρ done (x ++ t)) (hpre : pre.length = i) :
    done = [] ∧ Resumes (ρ.read x) (item.late (pre ++ (x ++ t))) t ∧
      ρ.emitted x ++ item.late (pre ++ (x ++ t)) = [head? (pre ++ (x ++ t)) item] := by
  subst hpre
  cases h with
  | @directive x hx =>
    have hcut := cut_append pre (35 :: x) t
    rw [length_cons, Nat.add_comm x.length, ← Nat.add_assoc, append_assoc] at hcut
    obtain ⟨hread, hemitted, hbehind⟩ := @read_directive t x 35 [35] rfl hx
    have hrest : ρ.step 35 = .line [35] ∧ ρ.emit 35 = [] ∧ done = [] := by
      cases hρ with
      | between => exact ⟨rfl, rfl, rfl⟩
      | closed => exact ⟨rfl, rfl, rfl⟩
      | line h => cases (h 35 rfl).1
    rw [head?, late, hcut, Reader.read, emitted, hrest.1, hrest.2.1, hread, hemitted]
    exact ⟨hrest.2.2, .line hbehind, rfl⟩
  | @statement x hx hbegins =>
    have hcut := cut_append pre x ([59] ++ t)
    obtain ⟨rfl, -, hread, hemitted⟩ := hρ.begins (hbegins.append (begins_cons rfl (by decide) [])) (by simp)
    obtain ⟨hrun, hparts⟩ := read_run hx []
    refine ⟨rfl, ?_, ?_⟩
    · rw [hread, read_append, hrun]
      exact .between t
    · rw [hemitted, emitted_append, (hparts x (prefix_refl x)).1, hrun, append_assoc x, head?,
        ← append_assoc, hcut]
      simp [emitted, emit, late]
  | @block x inner tail hx hbegins hassigned hinner htail hsemi =>
    have hcut := cut_append pre x (123 :: (inner ++ 125 :: tail) ++ t)
    obtain ⟨rfl, -, hread, hemitted⟩ := hρ.begins (hbegins.append (begins_cons rfl (by decide) _)) (by simp)
    obtain ⟨hrun, hparts⟩ := read_run hx []
    have hbody := read_body hinner x
    have hbrace : Delimiter.ofOpener? 123 = some .brace := rfl
    have hopen : (inside x).step 123 = .body x 0 := by simp [step, enter, hassigned, hbrace]
    have hbehind : Resumes (Reader.closed.read tail) [] t ∧ Reader.closed.emitted tail = [] := by
      rcases htail with rfl | ⟨z, hz, rfl⟩
      · exact ⟨.closed (semicolonTail_eq_zero_iff.mp hsemi), rfl⟩
      · obtain ⟨hblanks, hnone⟩ := @read_blanks .closed z rfl hz
        rw [read_append, emitted_append, hblanks, hnone]
        exact ⟨.between t, rfl⟩
    rw [nil_append] at hrun
    refine ⟨rfl, ?_, ?_⟩
    · rw [hread, read_append, hrun, Reader.read, hopen, read_append, hbody.1]
      exact hbehind.1
    · have hemit : (Reader.body x 0).emitted (125 :: tail) = [some (.header x true)] := by
        rw [emitted]
        exact congrArg (some (Head.header x true) :: ·) hbehind.2
      rw [hemitted, emitted_append, (hparts x (prefix_refl x)).1, hrun, append_assoc x, head?,
        ← append_assoc, hcut, emitted, hopen,
        emitted_append, hbody.1, hbody.2, hemit]
      rfl

theorem add_length_cons (i : Nat) (b : UInt8) (t : Text) : i + (b :: t).length = i + 1 + t.length := by
  rw [length_cons, Nat.add_comm t.length, Nat.add_assoc]

theorem Laid.heads (h : Laid i t items) (hρ : Resumes ρ done t) (hpre : pre.length = i) :
    ρ.heads t = done ++ items.map (head? (pre ++ t)) := by
  induction h generalizing ρ done pre with
  | @blank i b t items hb _ ih =>
    obtain ⟨done', hstep, rfl⟩ := hρ.blank hb
    have hheads := @ih _ _ (pre ++ [b]) hstep (by rw [length_append, hpre]; rfl)
    rw [append_assoc, singleton_append] at hheads
    rw [append_assoc, ← hheads, ← singleton_append, heads_append, emitted, emitted, append_nil]
    rfl
  | @item i x t item items hshaped _ ih =>
    obtain ⟨rfl, hread, hgiven⟩ := hshaped.read hρ hpre
    have hheads := @ih _ _ (pre ++ x) hread (by rw [length_append, hpre])
    rw [append_assoc] at hheads
    rw [heads_append, hheads, ← append_assoc, hgiven]
    rfl
  | @run i x hx hbegins =>
    by_cases hne : x = []
    · subst hne
      cases hρ <;> rfl
    · obtain ⟨rfl, -, hread, hemitted⟩ := @Resumes.begins _ _ x [] (by rwa [append_nil]) hbegins hne
      rw [Reader.heads, hread, hemitted, (read_run hx []).1, ((read_run hx []).2 x (prefix_refl x)).1]
      rfl
  | @unterminated i x t d hx hbegins hclose =>
    obtain ⟨rfl, -, hread, hemitted⟩ := @Resumes.begins _ _ (x ++ d.opener :: t) [] (by rwa [append_nil])
      (hbegins.append (begins_opener d t)) (by simp)
    obtain ⟨hnone, hfinish, -⟩ := read_unclosed hx hclose
    rw [Reader.heads, hread, hemitted, hnone, hfinish]
    rfl

/-- **Before an item a reader has given the items before it**, and rests. -/
theorem Laid.split (h : Laid i t items) (hρ : Resumes ρ done t) (hpre : pre.length = i)
    {before behind : List Item}
    (hitems : items = before ++ item :: behind) (hitem : item.isTerminated) :
    ∃ u x v, t = u ++ (x ++ v) ∧ Shaped (i + u.length) v x item ∧ Resumes (ρ.read u) [] (x ++ v) ∧
      ρ.emitted u = done ++ before.map (head? (pre ++ t)) := by
  induction h generalizing ρ done pre before with
  | @blank i b t items hb _ ih =>
    obtain ⟨done', hstep, rfl⟩ := hρ.blank hb
    obtain ⟨u, x, v, rfl, hshaped, hread, hemitted⟩ :=
      @ih _ _ (pre ++ [b]) hstep (by rw [length_append, hpre]; rfl) _ hitems
    rw [append_assoc, singleton_append] at hemitted
    exact ⟨b :: u, x, v, rfl, by rwa [add_length_cons], hread, by rw [emitted, hemitted, append_assoc]⟩
  | @item i x t next items hshaped _ ih =>
    obtain ⟨rfl, hread, hgiven⟩ := hshaped.read hρ hpre
    cases before with
    | nil =>
      obtain ⟨rfl, rfl⟩ := cons.inj hitems
      exact ⟨[], x, t, rfl, hshaped, hρ, rfl⟩
    | cons first before =>
      obtain ⟨rfl, hrest⟩ := cons.inj hitems
      obtain ⟨u, y, v, rfl, hshaped', hread', hemitted⟩ :=
        @ih _ _ (pre ++ x) hread (by rw [length_append, hpre]) _ hrest
      rw [append_assoc] at hemitted
      refine ⟨x ++ u, y, v,
        by rw [append_assoc], by rwa [length_append, ← Nat.add_assoc], by rwa [read_append], ?_⟩
      rw [emitted_append, hemitted, ← append_assoc, hgiven]
      rfl
  | run => exact absurd hitems (by simp)
  | unterminated =>
    cases before with
    | nil =>
      cases (cons.inj hitems).1
      cases hitem
    | cons first before => exact absurd hitems (by simp)

theorem Shaped.header {m : Text} {r : Range} (h : Shaped i t x item)
    (hr : Signature.header? m item = some r) :
    ∃ y w, x = y ++ w ∧ Run y ∧ Begins y ∧ r = ⟨i, i + y.length⟩ := by
  cases h with
  | directive => cases hr
  | statement hx hbegins =>
    obtain ⟨-, hr⟩ := Option.ite_none_left_eq_some.mp hr
    exact ⟨_, _, rfl, hx, hbegins, (Option.some.inj hr).symm⟩
  | block hx hbegins => exact ⟨_, _, rfl, hx, hbegins, (Option.some.inj hr).symm⟩

theorem Laid.isOpen (h : Laid i t items) (hρ : Resumes ρ done t) (hpre : pre.length = i)
    (hcovered : ∀ k b, t[k]? = some b → isBlank b = false → ∃ item ∈ items, item.range.covers (i + k))
    (hterminated : ∀ item ∈ items, item.isTerminated) : (ρ.read t).isOpen = false := by
  induction h generalizing ρ done pre with
  | @blank i b t items hb _ ih =>
    obtain ⟨done', hstep, -⟩ := hρ.blank hb
    refine @ih _ _ (pre ++ [b]) hstep (by rw [length_append, hpre]; rfl) (fun k c hk hc => ?_) hterminated
    have := hcovered (k + 1) c hk hc
    rwa [Nat.add_comm k, ← Nat.add_assoc] at this
  | @item i x t next items hshaped _ ih =>
    obtain ⟨-, hread, -⟩ := hshaped.read hρ hpre
    rw [read_append]
    refine @ih _ _ (pre ++ x) hread (by rw [length_append, hpre]) (fun k b hk hb => ?_)
      (forall_mem_cons.mp hterminated).2
    obtain ⟨item, hitem, hcovers⟩ :=
      hcovered (x.length + k) b
      (by rwa [getElem?_append_right (Nat.le_add_right _ _), Nat.add_sub_cancel_left]) hb
    rw [← Nat.add_assoc] at hcovers
    rcases mem_cons.mp hitem with rfl | hitem
    · rw [hshaped.range.1, Range.covers_iff] at hcovers
      dsimp only at hcovers
      omega
    · exact ⟨item, hitem, hcovers⟩
  | @run i x hx hbegins =>
    cases x with
    | nil => exact hρ.isOpen
    | cons b x =>
      obtain ⟨item, hitem, -⟩ := hcovered 0 b rfl (hbegins b rfl).1
      cases hitem
  | unterminated => cases hterminated _ (mem_singleton_self _)

theorem directiveTail_before {t' : Text} (hhead : t'.head? = t.head?) {last : UInt8}
    (h : directiveTail last (x ++ t) = x.length) : directiveTail last (x ++ t') = x.length := by
  induction x generalizing last with
  | nil =>
    cases t with
    | nil => rw [head?_eq_none_iff.mp hhead]; rfl
    | cons b t =>
      obtain ⟨t', rfl⟩ := head?_eq_some_iff.mp hhead
      simp only [nil_append, directiveTail] at h ⊢
      split at h
      · next hend => rw [if_pos hend]; rfl
      · cases h
  | cons b x ih =>
    simp only [cons_append, directiveTail] at h ⊢
    split at h
    · cases h
    · next hend => rw [if_neg hend, ih (Nat.succ.inj h)]; rfl

/-- What stands behind an item may be another text that does not go on with it. -/
theorem Shaped.before {t' : Text} (h : Shaped i t x item)
    (hline : ∀ r, item = .directive r → t'.head? = t.head?)
    (hsemi : (t'.dropWhile isBlank).head? = some 59 → (t.dropWhile isBlank).head? = some 59) :
    Shaped i t' x item := by
  cases h with
  | directive hx => exact .directive (directiveTail_before (hline _ rfl) hx)
  | statement hx hbegins => exact .statement hx hbegins
  | block hx hbegins hassigned hinner htail hlength =>
    refine .block hx hbegins hassigned hinner htail ?_
    rcases htail with rfl | ⟨z, hz, rfl⟩
    · exact semicolonTail_eq_zero_iff.mpr fun h => semicolonTail_eq_zero_iff.mp hlength (hsemi h)
    · rw [append_assoc, singleton_append, semicolonTail_append_cons hz, length_append]
      rfl

/-- **The items of a text at whose end none is open**, and of what stands behind it. -/
theorem Laid.append (h : Laid i s items) (hρ : Resumes ρ done s) (hpre : pre.length = i)
    (hrest : (ρ.read s).isRest)
    {items' : List Item} (ht : Laid (i + s.length) t items') (hbegins : Begins t)
    (hsemi : t.head? ≠ some 59) :
    Laid i (s ++ t) (items ++ items') := by
  induction h generalizing ρ done pre with
  | @blank i b s items hb _ ih =>
    obtain ⟨done', hstep, -⟩ := hρ.blank hb
    rw [add_length_cons] at ht
    exact .blank hb (@ih _ _ (pre ++ [b]) hstep (by rw [length_append, hpre]; rfl) hrest ht)
  | @item i x s item items hshaped _ ih =>
    obtain ⟨-, hread, -⟩ := hshaped.read hρ hpre
    rw [read_append] at hrest
    rw [length_append, ← Nat.add_assoc] at ht
    rw [append_assoc]
    refine .item (hshaped.before (fun r hr => ?_) fun h => ?_)
      (@ih _ _ (pre ++ x) hread (by rw [length_append, hpre]) hrest ht)
    · cases s with
      | nil =>
        rw [hr] at hread
        cases hread.eq_nil hrest
      | cons b s => rfl
    · rw [dropWhile_append] at h
      split at h
      · cases t with
        | nil => cases h
        | cons b t =>
          rw [dropWhile_cons_of_neg (by simp [(hbegins b rfl).1])] at h
          exact absurd h hsemi
      · next hne =>
        rwa [head?_append_of_ne_nil _ (by simpa using hne)] at h
  | @run i x hx hbegins' =>
    cases x with
    | nil => exact ht
    | cons b x =>
      obtain ⟨-, -, hread, -⟩ := @Resumes.begins _ _ (b :: x) [] (by rwa [append_nil]) hbegins' (by simp)
      rw [hread, (read_run hx []).1] at hrest
      cases hrest
  | @unterminated i x s d hx hbegins' hclose =>
    obtain ⟨-, -, hread, -⟩ := @Resumes.begins _ _ (x ++ d.opener :: s) [] (by rwa [append_nil])
      (hbegins'.append (begins_opener d s)) (by simp)
    rw [hread, (read_unclosed hx hclose).2.2] at hrest
    cases hrest

end Item

namespace Text

open Item

/-- **What is read of the items is what a reader gives.** -/
theorem heads_eq (t : Text) : t.heads = Reader.between.heads t :=
  ((laid_items t).heads (.between t) length_nil).symm

/-- **In the header of an item a reader has the items before it and the header so far.** -/
theorem reader_in_header {before behind : List Item} {m : Text} {r : Range}
    (hitems : m.items = before ++ item :: behind)
    (hr : Signature.header? m item = some r) :
    ∃ pre post, m = pre ++ (m.cut r ++ post) ∧ pre.length = r.start ∧ ∀ s, s ≠ [] → s <+: m.cut r →
      Reader.between.emitted (pre ++ s) = before.map (head? m) ∧
        (Reader.between.read (pre ++ s)).open? = some s := by
  have hterminated : item.isTerminated := by
    cases item with
    | unterminated => cases hr
    | _ => rfl
  obtain ⟨u, x, v, hm, hshaped, hread, hemitted⟩ :=
    (laid_items m).split (.between m) length_nil hitems hterminated
  obtain ⟨y, w, rfl, hy, hbegins, rfl⟩ := hshaped.header hr
  rw [append_assoc] at hm hread
  have hcut : m.cut ⟨0 + u.length, 0 + u.length + y.length⟩ = y := by
    rw [hm, Nat.zero_add, ← append_assoc, cut_append]
  rw [hcut]
  refine ⟨u, w ++ v, hm, (Nat.zero_add _).symm, fun s hs hprefix => ?_⟩
  obtain ⟨z, rfl⟩ := id hprefix
  rw [append_assoc] at hread
  obtain ⟨-, -, hread', hemitted'⟩ := hread.begins hbegins.of_append hs
  obtain ⟨hnone, hopen⟩ := (Reader.read_run hy []).2 s hprefix
  rw [Reader.emitted_append, Reader.read_append, hemitted, hread', hemitted', hnone, hopen]
  exact ⟨append_nil _, rfl⟩

/-- A block of a text. -/
structure IsBlock (t : Text) (start opened closed stop : Nat) : Prop where
  before : (Reader.between.read (t.take start)).isRest
  solid : ∃ b ∈ t[start]?, isBlank b = false
  order : start ≤ opened ∧ opened < closed ∧ closed < stop ∧ stop ≤ t.length
  opener : t[opened]? = some 123
  closer : t[closed]? = some 125
  balanced : State.bracesBehind? 0 (t.cut ⟨opened + 1, closed⟩) = some 0
  last : t[stop - 1]? = some 125 ∨ t[stop - 1]? = some 59
  behind : (Reader.between.read (t.take stop)).isRest

/-- **A block of the items is one of the text.** -/
theorem isBlock_of_mem_items {s o c e : Nat} (h : Item.block s o c e ∈ t.items) : IsBlock t s o c e := by
  obtain ⟨before, behind, hitems⟩ := append_of_mem h
  obtain ⟨u, x, v, ht, hshaped, hread, -⟩ := (laid_items t).split (.between t) length_nil hitems rfl
  obtain ⟨-, hopener, hcloser, -⟩ := (laid_items t).marked length_nil _ h
  obtain ⟨-, hread', -⟩ := hshaped.read hread (Nat.zero_add u.length).symm
  rw [← Reader.read_append] at hread'
  have hwithin := within_of_mem_items h
  cases hshaped with
  | @block y inner tail _ hbegins _ hinner htail _ =>
    have hcut := cut_append (u ++ y ++ [123]) inner (125 :: tail ++ v)
    have hstop : 0 + u.length + y.length + 2 + inner.length + tail.length =
        (u ++ (y ++ 123 :: (inner ++ 125 :: tail))).length := by
      simp only [length_append, length_cons]
      omega
    have hsplit : t = u ++ y ++ [123] ++ inner ++ (125 :: tail ++ v) := by rw [ht]; simp
    rw [← hsplit, length_append, length_append, length_singleton] at hcut
    rw [← append_assoc] at ht
    rw [hstop, Nat.zero_add] at hwithin ⊢
    refine ⟨?_, ?_, hwithin, Nat.zero_add u.length ▸ hopener, Nat.zero_add u.length ▸ hcloser, ?_, ?_, ?_⟩
    · rw [ht, append_assoc, take_left]
      exact hread.isRest
    · obtain ⟨b, z, hz⟩ := exists_cons_of_ne_nil (show y ++ 123 :: (inner ++ 125 :: tail) ≠ [] by simp)
      refine ⟨b, by rw [ht, hz]; simp, ?_⟩
      have := hbegins.append (begins_cons (b := 123) rfl (by decide) (inner ++ 125 :: tail))
      rw [hz] at this
      exact (this b rfl).1
    · rw [hcut, State.bracesBehind?_eq, hinner]
    · rw [ht, getElem?_append_left (by simp), ← getLast?_eq_getElem?]
      rcases htail with rfl | ⟨z, -, rfl⟩
      · exact .inl (by simp [getLast?_cons])
      · exact .inr (by simp [getLast?_append, getLast?_cons])
    · rw [ht, take_left]
      exact hread'.isRest

/-- **A text whose code is all in items, each of them terminated, ends outside of items.** -/
theorem isOpen_of_covered
    (hcovered : ∀ i < t.length, ∀ b ∈ t[i]?, isBlank b = false → ∃ item ∈ t.items, item.range.covers i)
    (hterminated : ∀ item ∈ t.items, item.isTerminated) : (Reader.between.read t).isOpen = false := by
  refine (laid_items t).isOpen (.between t) length_nil (fun k b hk hb => ?_) hterminated
  rw [Nat.zero_add]
  exact hcovered k (List.getElem?_eq_some_iff.mp hk).1 b hk hb

/-- **A block behind which nothing stands but a newline is the last item.** -/
theorem items_of_block {front head inner : Text} (hfront : (Reader.between.read front).isRest)
    (hhead : Run (b :: head))
    (hb : isBlank b = false ∧ b ≠ 35 ∧ b ≠ 59) (hassigned : 61 ∉ b :: head)
    (hinner : Delimiter.brace.behind? 0 inner = some 0) :
    ∃ items, (front ++ (b :: head ++ 123 :: (inner ++ [125, 10]))).items =
      items ++ [.block front.length (front.length + (b :: head).length)
        (front.length + (b :: head).length + 1 + inner.length)
          (front.length + (b :: head).length + 1 + inner.length + 1)] := by
  have hbegins : ∀ t, Begins (b :: t) := begins_cons hb.1 hb.2.1
  have hblock : Laid (0 + front.length) (b :: head ++ 123 :: (inner ++ [125]) ++ [10]) _ :=
    .item (.block hhead (hbegins _) hassigned hinner (.inl rfl) rfl) (.blank rfl (.run .nil begins_nil))
  have hlaid := (laid_items front).append (.between front) length_nil hfront hblock (hbegins _)
    (by simpa using hb.2.2)
  have hsplit : b :: head ++ 123 :: (inner ++ [125]) ++ [10] =
    b :: head ++ 123 :: (inner ++ [125, 10]) := by simp
  rw [hsplit] at hlaid
  have hstop : front.length + (b :: head).length + 2 + inner.length + 0 =
      front.length + (b :: head).length + 1 + inner.length + 1 := by omega
  rw [Nat.zero_add, length_nil, hstop] at hlaid
  exact ⟨front.items, hlaid.scan⟩

end Text

end GlslToMetal
