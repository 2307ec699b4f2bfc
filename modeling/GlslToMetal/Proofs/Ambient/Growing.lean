import GlslToMetal.Proofs.Ambient.Owning
import GlslToMetal.Proofs.Item.Reading
import Mathlib.Data.List.Induction

/-! What is put into a program before a parenthesis that closes. Reading goes on behind it as before, so
only the header in which it lies is read with another text, and that header keeps what it owns. -/

namespace GlslToMetal

open Text

variable {ρ : Reader} {a head head' lead s t u v w x y : Text}

namespace Item.Reader

theorem read_line (hline : newline ∉ t) (a : Text) :
    (line a).read t = line (a ++ t) ∧ (line a).emitted t = [] := by
  induction t generalizing a with
  | nil => exact ⟨by rw [List.append_nil]; rfl, rfl⟩
  | cons b t ih =>
    have hb : b ≠ newline := fun h => hline (h ▸ List.mem_cons_self)
    obtain ⟨hread, hemitted⟩ := ih (fun h => hline (List.mem_cons_of_mem _ h)) (a ++ [b])
    simp [read, emitted, step, emit, hb, hread, hemitted]

section Inert

variable {t : Text} (ht : Inert t)
include ht

theorem run_of_inert : Run t :=
  List.nil_append t ▸ Run.nil.append_plain fun b hb => ⟨ht.plain b hb, by rintro rfl; exact ht.not_mem rfl hb⟩

theorem read_inside (a : Text) : (inside a).read t = inside (a ++ t) ∧ (inside a).emitted t = [] :=
  have h := read_run (run_of_inert ht) a
  ⟨h.1, (h.2 t List.prefix_rfl).1⟩

/-- Where no item is open one begins, behind blanks. -/
theorem read_rest (hρ : ρ.isRest) :
    ρ.read (t ++ [41]) = inside (t.dropWhile isBlank ++ [41]) ∧ ρ.emitted (t ++ [41]) = [] := by
  have hdrop : Inert (t.dropWhile isBlank) := fun b hb => ht b ((List.dropWhile_sublist _).subset hb)
  have hrun : Run (t.dropWhile isBlank ++ [41]) := (run_of_inert hdrop).byte rfl (by decide)
  have hfirst : ∀ b ∈ (t.dropWhile isBlank ++ [41]).head?, isBlank b = false ∧ b ≠ 35 ∧ b ≠ 59 := by
    intro b hb
    cases hsolid : t.dropWhile isBlank with
    | nil =>
      rw [hsolid] at hb
      cases hb
      decide
    | cons c u =>
      have hne : ∀ {e : UInt8}, isInert e = false → c ≠ e := by
        rintro e he rfl
        exact hdrop.not_mem he (by simp [hsolid])
      have hc : isBlank c = false := not_of_mem_head?_dropWhile (by rw [hsolid]; rfl)
      rw [hsolid] at hb
      cases hb
      exact ⟨hc, hne rfl, hne rfl⟩
  have hbegins : Begins (t.dropWhile isBlank ++ [41]) := fun b hb => ⟨(hfirst b hb).1, (hfirst b hb).2.1⟩
  have hresumes : Resumes ρ [] (t.dropWhile isBlank ++ [41] ++ []) := by
    refine .of_isRest hρ ?_
    rw [List.append_nil]
    cases hx : t.dropWhile isBlank ++ [41] with
    | nil => simp at hx
    | cons c u =>
      obtain ⟨hblank, -, hsemi⟩ := hfirst c (by simp [hx])
      simp [hblank, hsemi]
  obtain ⟨-, -, hread, hemitted⟩ := hresumes.begins hbegins (by simp)
  obtain ⟨hread', hparts⟩ := read_run hrun []
  obtain ⟨hblanks, hblanks'⟩ := read_blanks hρ (t := t.takeWhile isBlank) List.all_takeWhile
  have hsplit : t ++ [41] = t.takeWhile isBlank ++ (t.dropWhile isBlank ++ [41]) := by
    rw [← List.append_assoc, List.takeWhile_append_dropWhile]
  rw [hsplit, read_append, emitted_append, hblanks, hblanks', hread, hemitted, hread',
    (hparts _ List.prefix_rfl).1]
  exact ⟨rfl, rfl⟩

end Inert

theorem exists_step_nested (d : Delimiter) (depth : Nat) :
    ∃ f : Text → Reader, (∀ a, (nested a d depth).step 41 = f (a ++ [41])) ∧
      ∀ a b, Alike a b (f a) (f b) := by
  have hnested : ∀ k, ∀ a b, Alike a b (nested a d k) (nested b d k) := fun k a b => by
    simpa using Alike.nested (a := a) (b := b) [] d k
  have hinside : ∀ a b, Alike a b (inside a) (inside b) := fun a b => by
    simpa using Alike.inside (a := a) (b := b) []
  cases d with
  | brace => exact ⟨_, fun a => rfl, hnested depth⟩
  | bracket => exact ⟨_, fun a => rfl, hnested depth⟩
  | paren =>
    cases depth with
    | zero => exact ⟨_, fun a => rfl, hinside⟩
    | succ depth => exact ⟨_, fun a => rfl, hnested depth⟩

/-- In a header two texts up to a parenthesis that closes are read alike. -/
theorem alike_open (h : ρ.open? = some a) (ht : Inert t) (hs : Inert s) :
    Alike (a ++ (t ++ [41])) (a ++ (s ++ [41])) (ρ.read (t ++ [41])) (ρ.read (s ++ [41])) ∧
      ρ.emitted (t ++ [41]) = [] ∧ ρ.emitted (s ++ [41]) = [] := by
  cases ρ with
  | inside b =>
    cases h
    have hread : ∀ {x : Text}, Inert x → (inside a).read (x ++ [41]) = inside (a ++ (x ++ [41]) ++ []) ∧
        (inside a).emitted (x ++ [41]) = [] := by
      intro x hx
      obtain ⟨hread, hemitted⟩ := read_inside hx a
      have hstep : (inside (a ++ x)).step 41 = inside (a ++ x ++ [41]) := rfl
      rw [read_append, emitted_append, hread, hemitted]
      exact ⟨by rw [List.append_nil, ← List.append_assoc]; exact hstep, rfl⟩
    rw [(hread ht).1, (hread hs).1]
    exact ⟨.inside [], (hread ht).2, (hread hs).2⟩
  | nested b d depth =>
    cases h
    have hemitted : ∀ {x : Text}, Inert x → (nested a d depth).emitted (x ++ [41]) = [] := by
      intro x hx
      obtain ⟨hread, hemitted⟩ := read_nested (hx.behind? depth) a
      rw [emitted_append, hread, hemitted]
      rfl
    refine ⟨?_, hemitted ht, hemitted hs⟩
    obtain ⟨f, hstep, halike⟩ := exists_step_nested d depth
    rw [read_append, read_append, (read_nested (ht.behind? depth) a).1,
      (read_nested (hs.behind? depth) a).1, read, read, read, read,
      hstep, hstep, List.append_assoc, List.append_assoc]
    exact halike _ _
  | between => cases h
  | line => cases h
  | body => cases h
  | closed => cases h

end Item.Reader

namespace Signature

/-- What a function keeps when its header changes: the values that its list owns, the balance of its
delimiters, and, if its list is still empty, whether its name reads as that of a call. -/
structure Keeps (lead list lead' list' : Text) : Prop where
  owned : ∀ a : Ambient, a.Proper → a.OwnedBy list → a.OwnedBy list'
  weight : weight list' = weight list
  heading : list' = [] → list = [] ∧ callee? lead'.reverse = callee? lead.reverse

/-- One header is a function if the other is, and keeps what the other has. -/
structure Grows (head head' : Text) : Prop where
  forth : ∀ {lead list : Text}, IsFunction head lead list →
    ∃ lead' list', IsFunction head' lead' list' ∧ Keeps lead list lead' list'
  back : ∀ {lead' list' : Text}, IsFunction head' lead' list' → ∃ lead list, IsFunction head lead list

theorem Keeps.refl (lead list : Text) : Keeps lead list lead list :=
  ⟨fun _ _ h => h, rfl, fun h => ⟨h, rfl⟩⟩

theorem Keeps.trans {list lead' list' lead'' list'' : Text} (h : Keeps lead list lead' list')
    (h' : Keeps lead' list' lead'' list'') : Keeps lead list lead'' list'' := by
  refine ⟨fun a ha hown => h'.owned a ha (h.owned a ha hown), h'.weight.trans h.weight, fun hnil => ?_⟩
  obtain ⟨hnil', hcallee'⟩ := h'.heading hnil
  obtain ⟨hnil'', hcallee⟩ := h.heading hnil'
  exact ⟨hnil'', hcallee'.trans hcallee⟩

theorem Grows.refl (head : Text) : Grows head head :=
  ⟨fun h => ⟨_, _, h, .refl _ _⟩, fun h => ⟨_, _, h⟩⟩

theorem Grows.trans {head'' : Text} (h : Grows head head') (h' : Grows head' head'') : Grows head head'' := by
  refine ⟨fun hf => ?_, fun hf => ?_⟩
  · obtain ⟨lead', list', hf', hkeeps⟩ := h.forth hf
    obtain ⟨lead'', list'', hf'', hkeeps'⟩ := h'.forth hf'
    exact ⟨lead'', list'', hf'', hkeeps.trans hkeeps'⟩
  · obtain ⟨lead', list', hf'⟩ := h'.back hf
    exact h.back hf'

/-- Every function has a list whose delimiters balance, and none with an empty list has a name that reads
as that of a call. -/
def Steady (head : Text) : Prop :=
  ∀ lead list, IsFunction head lead list → weight list = 0 ∧ (list = [] → callee? lead.reverse = none)

theorem Steady.grows (h : Steady head) (hgrows : Grows head head') : Steady head' := by
  intro lead' list' hf'
  obtain ⟨lead, list, hf⟩ := hgrows.back hf'
  obtain ⟨hweight, hcallee⟩ := h lead list hf
  obtain ⟨lead'', list'', hf'', hkeeps⟩ := hgrows.forth hf
  obtain ⟨rfl, rfl⟩ := hf'.unique hf''
  refine ⟨hkeeps.weight.trans hweight, fun hnil => ?_⟩
  obtain ⟨hnil', hsame⟩ := hkeeps.heading hnil
  exact hsame.trans (hcallee hnil')

/-- A text that may be put in. -/
structure Fresh (new : Text) : Prop where
  inert : Inert new
  comma : 44 ∉ new
  line : newline ∉ new
  ne_nil : new ≠ []

/-- What may be put behind the text `a` of a header, before a parenthesis that closes: `v` for `u`. -/
inductive Change (a : Text) : Text → Text → Prop where
  /-- In the lead, where anything may stand. -/
  | lead {u v : Text} (ha : 40 ∉ a) (hu : Inert u) (hv : Inert v) : Change a u v
  /-- Behind an element of a list. -/
  | insert {z new : Text} (hz : Inert z) (hlead : LeadsBlank z) (hnew : Fresh new) :
    Change a z (44 :: 32 :: (new ++ z))
  /-- In a list of blanks. -/
  | fill {a' t z new : Text} (ha : a = a' ++ [40]) (ht : t.all isBlank) (hz : Inert z) (hlead : LeadsBlank z)
    (hnew : Fresh new) : Change a (t ++ z) (new ++ z)
  /-- In the list of the header itself, if it owns nothing. -/
  | own {lead t z new : Text} (ha : a = lead ++ [40]) (hfirst : 40 ∉ lead) (ht : Inert t)
    (hnone : ∀ a : Ambient, a.Proper → ∀ x ∈ stretches 0 t, x.strip ≠ a.declaration) (hz : Inert z)
    (hlead : LeadsBlank z) (hnew : Fresh new) : Change a (t ++ z) (new ++ z)

theorem Change.inert (h : Change a u v) : Inert u ∧ Inert v := by
  cases h with
  | lead ha hu hv => exact ⟨hu, hv⟩
  | insert hz hlead hnew =>
    refine ⟨hz, fun b hb => ?_⟩
    rcases List.mem_cons.mp hb with rfl | hb
    · rfl
    · rcases List.mem_cons.mp hb with rfl | hb
      · rfl
      · exact (hnew.inert.append hz) b hb
  | fill ha ht hz hlead hnew => exact ⟨(inert_of_isBlank ht).append hz, hnew.inert.append hz⟩
  | own ha hfirst ht hnone hz hlead hnew => exact ⟨ht.append hz, hnew.inert.append hz⟩

/-- A list that begins where a text without parentheses does ends with the text. -/
theorem eq_nil_of_parensClosed (hu : Inert u) (hy : y = [] ∨ y.head? = some 41)
    (h : ParensClosed (u ++ y)) : y = [] := by
  refine hy.resolve_right fun hhead => ?_
  obtain ⟨y', rfl⟩ := List.head?_eq_some_iff.mp hhead
  unfold ParensClosed at h
  rw [Delimiter.behind?_append, hu.behind?] at h
  cases h

/-- **What is put into a header leaves what its list owns.** -/
theorem Change.owned (h : Change a u v) {l : Text} (ha : a = lead ++ 40 :: l) (hfirst : 40 ∉ lead)
    (hy : y = [] ∨ y.head? = some 41) (hclosed : ParensClosed (l ++ (u ++ y)))
    (hweight : weight (l ++ (u ++ y)) = 0) {b : Ambient} (hb : b.Proper) (hown : b.OwnedBy (l ++ (u ++ y))) :
    b.OwnedBy (l ++ (v ++ y)) := by
  cases h with
  | lead hnone => exact absurd (by simp [ha]) hnone
  | insert hz hlead hnew =>
    have := hb.ownedBy_insert hz hlead hnew.inert hnew.comma hy (fun hnil => ?_) hown
    · simpa using this
    · subst hnil
      rwa [weight_append, List.append_nil, hz.weight, Int.add_zero] at hweight
  | @fill a' t z new ha' ht hz hlead hnew =>
    rw [ha'] at ha
    rcases List.eq_nil_or_concat l with rfl | ⟨l', c, rfl⟩
    · obtain rfl := eq_nil_of_parensClosed ((inert_of_isBlank ht).append hz) hy hclosed
      have hnone : ∀ x ∈ stretches 0 t, x.strip ≠ b.declaration := by
        have hcomma : 44 ∉ t := fun hmem => absurd (List.all_eq_true.mp ht 44 hmem) (by decide)
        intro x hx
        rw [stretches_eq_singleton hcomma, List.mem_singleton] at hx
        rw [hx, strip_of_all ht]
        exact Ne.symm hb.nonempty
      rw [List.nil_append, List.append_nil] at hown ⊢
      exact Ambient.ownedBy_replace hlead hnew.inert hnew.comma (inert_of_isBlank ht) hnone hown
    · have hlast := congrArg List.getLast? ha
      rw [List.getLast?_concat, List.concat_eq_append, ← List.cons_append, ← List.append_assoc,
        List.getLast?_concat] at hlast
      obtain rfl := Option.some.inj hlast
      have hlist : ∀ w : Text, l'.concat 40 ++ (w ++ z ++ y) = l' ++ 40 :: (w ++ (z ++ y)) := fun w => by simp
      rw [hlist] at hown ⊢
      exact hb.ownedBy_fill hnew.inert hnew.comma ht (z ++ y) hown
  | @own lead' t z new ha' hfirst' ht hnone hz hlead hnew =>
    have hnil : l = [] := by
      have := congrArg (List.takeWhile (· != 40)) (ha.symm.trans ha')
      rw [takeWhile_lead hfirst, takeWhile_lead hfirst'] at this
      rw [this] at ha
      rw [ha] at ha'
      exact (List.cons.inj (List.append_cancel_left ha')).2
    subst hnil
    obtain rfl := eq_nil_of_parensClosed (ht.append hz) hy hclosed
    rw [List.nil_append, List.append_nil] at hown ⊢
    exact Ambient.ownedBy_replace hlead hnew.inert hnew.comma ht (hnone b hb) hown

theorem Change.ne_nil (h : Change a u v) (ha : 40 ∈ a) : v ≠ [] := by
  cases h with
  | lead hnone => exact absurd ha hnone
  | insert => exact nofun
  | fill ha' ht hz hlead hnew => exact List.append_ne_nil_of_left_ne_nil hnew.ne_nil _
  | own ha' hfirst ht hnone hz hlead hnew => exact List.append_ne_nil_of_left_ne_nil hnew.ne_nil _

/-- **A header grows by what is put in before a parenthesis that closes.** -/
theorem Change.grows (h : Change a u v) (hascii : (a ++ (u ++ 41 :: w)).IsAscii)
    (hascii' : (a ++ (v ++ 41 :: w)).IsAscii) (hsteady : Steady (a ++ (u ++ 41 :: w))) :
    Grows (a ++ (u ++ 41 :: w)) (a ++ (v ++ 41 :: w)) := by
  obtain ⟨hu, hv⟩ := h.inert
  refine ⟨fun hf => ?_, fun hf => ?_⟩
  · obtain ⟨lead', list', hf', hput⟩ := hf.put hu hv hascii hascii'
    refine ⟨lead', list', hf', ?_⟩
    cases hput with
    | lead w' list =>
      refine ⟨fun _ _ hown => hown, rfl, fun hnil => ⟨hnil, ?_⟩⟩
      have hcallee : ∀ x : Text, callee? (a ++ x ++ 41 :: w').reverse = callee? w'.reverse := by
        intro x
        have := UpToStop.append (.inl rfl : UpToStop w'.reverse w'.reverse) (b := 41) (by decide)
          (a ++ x).reverse
        rw [← callee?_upToStop this]
        simp
      rw [hcallee, hcallee]
    | @list _ l ha hfirst y hy =>
      have hweight := (hsteady _ _ hf).1
      obtain ⟨⟨behind, ⟨-, -, hclosed⟩, -⟩, -⟩ := hf
      refine ⟨fun b hb hown => h.owned ha hfirst hy hclosed hweight hb hown, ?_, fun hnil => ?_⟩
      · simp only [weight_append, hu.weight, hv.weight]
      · have hparen : 40 ∈ a := by simp [ha]
        have := (List.append_eq_nil_iff.mp (List.append_eq_nil_iff.mp hnil).2).1
        exact absurd this (h.ne_nil hparen)
  · obtain ⟨lead, list, hf', -⟩ := hf.put hv hu hascii' hascii
    exact ⟨lead, list, hf'⟩

end Signature

namespace Item

namespace Head

/-- What holds of every header and every preprocessor line of a program. -/
def Steady : Option Head → Prop
  | none => True
  | some (.line t) => t.ParensClosed
  | some (.header t _) => Signature.Steady t

/-- What is read grows. -/
inductive Grows : Option Head → Option Head → Prop where
  | none : Grows none none
  | line {t t' : Text} (h : t.ParensClosed → t'.ParensClosed) : Grows (some (.line t)) (some (.line t'))
  | header {t t' : Text} (h : Signature.Grows t t') (isBlock : Bool) :
    Grows (some (.header t isBlock)) (some (.header t' isBlock))

theorem Grows.refl (x : Option Head) : Grows x x := by
  rcases x with _ | ⟨t⟩ | ⟨t, isBlock⟩
  · exact .none
  · exact .line id
  · exact .header (.refl t) isBlock

theorem Grows.trans {x y z : Option Head} (h : Grows x y) (h' : Grows y z) : Grows x z := by
  cases h with
  | none => exact h'
  | line h =>
    cases h' with
    | line h' => exact .line (h' ∘ h)
  | header h isBlock =>
    cases h' with
    | header h' => exact .header (h.trans h') isBlock

theorem Steady.grows {x y : Option Head} (h : Steady x) (hgrows : Grows x y) : Steady y := by
  cases hgrows with
  | none => exact h
  | line hline => exact hline h
  | header hheader isBlock => exact Signature.Steady.grows h hheader

end Head

namespace Reader

/-- What is read in the header of an item, up to a parenthesis that closes, decides its text alone. -/
theorem heads_open (h : ρ.open? = some a) (hu : Inert u) (hv : Inert v)
    (r : Text) :
    (ρ.heads (u ++ 41 :: r) = [] ∧ ρ.heads (v ++ 41 :: r) = []) ∨
      ∃ x x' rest, ρ.heads (u ++ 41 :: r) = x :: rest ∧ ρ.heads (v ++ 41 :: r) = x' :: rest ∧
        AlikeHead (a ++ (u ++ [41])) (a ++ (v ++ [41])) x x' := by
  obtain ⟨halike, hemitted, hemitted'⟩ := alike_open h hu hv
  have hassign : (a ++ (u ++ [41])).contains 61 = (a ++ (v ++ [41])).contains 61 := by
    have hnone : ∀ {x : Text}, Inert x → x.contains 61 = false := fun {x} hx => by
      rw [List.contains_eq_mem, decide_eq_false_iff_not]
      exact hx.not_mem rfl
    simp only [List.contains_append, hnone hu, hnone hv]
  have hlast : ∀ x : Text, (a ++ (x ++ [41])).getLast? ≠ some 92 := fun x => by
    rw [← List.append_assoc, List.getLast?_concat]
    decide
  have hsplit : ∀ x : Text, x ++ 41 :: r = x ++ [41] ++ r := fun x => by simp
  rw [hsplit, hsplit, heads_append, heads_append, hemitted, hemitted']
  exact halike.heads hassign (hlast u) (hlast v) r

theorem heads_body (ht : Inert t) (a : Text) (depth : Nat) (r : Text) :
    (body a depth).heads (t ++ 41 :: r) = (body a depth).heads r := by
  have hnone : Delimiter.brace.behind? depth (t ++ [41]) = some depth := by
    rw [Delimiter.behind?_append, ht.behind?]
    rfl
  obtain ⟨hread, hemitted⟩ := read_body hnone a
  have hsplit : t ++ 41 :: r = t ++ [41] ++ r := by simp
  rw [hsplit, heads_append, hread, hemitted, List.nil_append]

theorem heads_rest (hρ : ρ.isRest) (ht : Inert t) (r : Text) :
    ρ.heads (t ++ 41 :: r) = (inside []).heads (t.dropWhile isBlank ++ 41 :: r) := by
  have hdrop : Inert (t.dropWhile isBlank) := fun b hb => ht b ((List.dropWhile_sublist _).subset hb)
  obtain ⟨hread, hemitted⟩ := read_rest ht hρ
  obtain ⟨hread', hemitted'⟩ := read_inside hdrop []
  have hsplit : ∀ x : Text, x ++ 41 :: r = x ++ [41] ++ r := fun x => by simp
  rw [hsplit, hsplit, heads_append, heads_append, hread, hemitted, read_append, emitted_append,
    hread', hemitted']
  rfl

theorem exists_heads_line (a t : Text) : ∃ w rest, (line a).heads t = some (.line (a ++ w)) :: rest := by
  induction t generalizing a with
  | nil => exact ⟨[], [], by rw [List.append_nil]; rfl⟩
  | cons b t ih =>
    have hcons : (line a).heads (b :: t) = (line a).emit b ++ ((line a).step b).heads t :=
      (heads_append (line a) [b] t).trans (by rw [emitted, emitted, List.append_nil]; rfl)
    rw [hcons]
    simp only [emit, step]
    split
    · exact ⟨[], _, by rw [List.append_nil]; rfl⟩
    · obtain ⟨w, rest, hw⟩ := ih (a ++ [b])
      exact ⟨b :: w, rest, by rw [hw]; simp⟩

/-- A preprocessor line goes on behind what is put in. -/
theorem heads_line (ha : 92 ∉ a) (ht : Inert t) (hs : Inert s) (hline : newline ∉ t)
    (hline' : newline ∉ s) (y : Text) :
    ∃ w rest, (line a).heads (t ++ y) = some (.line (a ++ t ++ w)) :: rest ∧
      (line a).heads (s ++ y) = some (.line (a ++ s ++ w)) :: rest := by
  obtain ⟨hread, hemitted⟩ := read_line hline a
  obtain ⟨hread', hemitted'⟩ := read_line hline' a
  have hnone : ∀ {w : Text}, Inert w → (a ++ w).contains 61 = a.contains 61 ∧
      (a ++ w).getLast? ≠ some 92 := by
    intro w hw
    refine ⟨?_, fun hlast => ?_⟩
    · rw [List.contains_append, List.contains_eq_mem _ w,
        decide_eq_false (hw.not_mem (b := 61) rfl), Bool.or_false]
    · rcases List.mem_append.mp (List.mem_of_getLast? hlast) with hmem | hmem
      · exact ha hmem
      · exact hw.not_mem rfl hmem
  have halike : Alike (a ++ t) (a ++ s) (line (a ++ t)) (line (a ++ s)) := by
    simpa using Alike.line (a := a ++ t) (b := a ++ s) []
  have hheads := halike.heads ((hnone ht).1.trans (hnone hs).1.symm) (hnone ht).2 (hnone hs).2 y
  rw [heads_append, heads_append (line a) s, hread, hread', hemitted, hemitted', List.nil_append,
    List.nil_append]
  obtain ⟨w, rest, hfirst⟩ := exists_heads_line (a ++ t) y
  rcases hheads with ⟨hnil, -⟩ | ⟨x, x', rest', hx, hx', hhead⟩
  · rw [hfirst] at hnil
    cases hnil
  · cases hhead with
    | line w' => exact ⟨w', rest', hx, hx'⟩
    | none =>
      rw [hfirst] at hx
      cases hx
    | header =>
      rw [hfirst] at hx
      cases hx

theorem parensClosed_put (hu : Inert u) (hv : Inert v) (h : ParensClosed (a ++ u ++ w)) :
    ParensClosed (a ++ v ++ w) := by
  unfold ParensClosed at h ⊢
  rw [Delimiter.behind?_append, Delimiter.behind?_append] at h ⊢
  cases hk : Delimiter.paren.behind? 0 a with
  | none =>
    rw [hk] at h
    cases h
  | some k =>
    rw [hk, Option.bind_some, hu.behind?] at h
    rw [Option.bind_some, hv.behind?]
    exact h

end Reader

end Item

namespace Text

open Item

theorem subset_of_mem_heads {m t : Text} {isBlock : Bool} (h : some (.header t isBlock) ∈ m.heads) :
    t ⊆ m := by
  obtain ⟨item, -, hitem⟩ := List.mem_map.mp h
  have hcut : ∀ r : Range, m.cut r ⊆ m := fun r b hb => List.mem_of_mem_drop (List.mem_of_mem_take hb)
  cases item with
  | directive r => cases hitem
  | unterminated start stop => cases hitem
  | block start opened closed stop =>
    cases hitem
    exact hcut _
  | statement start semicolon =>
    simp only [head?] at hitem
    split at hitem
    · cases hitem
    · cases hitem
      exact hcut _

theorem subset_of_read_line (h : Reader.between.read x = .line a) : a ⊆ x := by
  induction x using List.reverseRecOn generalizing a with
  | nil => cases h
  | append_singleton x b ih =>
    have hbegin : Reader.begin b = .line a → a ⊆ x ++ [b] := by
      intro h
      simp only [Reader.begin, Reader.enter] at h
      repeat' split at h
      all_goals cases h
      exact List.subset_append_right x [b]
    rw [Reader.read_append] at h
    cases hρ : Reader.between.read x with
    | between => exact hbegin (by rwa [hρ] at h)
    | line c =>
      simp only [hρ, Reader.read, Reader.step] at h
      split at h
      · cases h
      · cases h
        exact List.append_subset.mpr ⟨List.Subset.trans (ih hρ) (List.subset_append_left x [b]),
          List.subset_append_right x [b]⟩
    | closed =>
      simp only [hρ, Reader.read, Reader.step] at h
      repeat' split at h
      · cases h
      · cases h
      · exact hbegin h
    | _ =>
      simp only [hρ, Reader.read, Reader.step, Reader.enter] at h
      repeat' split at h
      all_goals cases h

/-- **What is put in before a parenthesis that closes** lets what is read grow. -/
theorem grows_change {z r : Text} (hascii : (x ++ (t ++ (z ++ 41 :: r))).IsAscii)
    (hascii' : (x ++ (s ++ (z ++ 41 :: r))).IsAscii) (hback : 92 ∉ x) (ht : Inert t) (hs : Inert s)
    (hz : Inert z)
    (hline : ∀ a, Reader.between.read x = .line a → newline ∉ t) (hline' : newline ∉ s)
    (hopen : ∀ a, (Reader.between.read x).open? = some a → Signature.Change a (t ++ z) (s ++ z))
    (hsteady : ∀ y ∈ heads (x ++ (t ++ (z ++ 41 :: r))), Head.Steady y) :
    List.Forall₂ Head.Grows (heads (x ++ (t ++ (z ++ 41 :: r)))) (heads (x ++ (s ++ (z ++ 41 :: r)))) := by
  have hsubset := fun {y : Text} {b : Bool} => @subset_of_mem_heads (x ++ (t ++ (z ++ 41 :: r))) y b
  have hsubset' := fun {y : Text} {b : Bool} => @subset_of_mem_heads (x ++ (s ++ (z ++ 41 :: r))) y b
  have hheads : ∀ w : Text,
    heads (x ++ w) = Reader.between.emitted x ++ (Reader.between.read x).heads w := fun w =>
    (heads_eq _).trans (Reader.heads_append _ _ _)
  rw [hheads] at hsteady hsubset hsubset'
  rw [hheads, hheads]
  have hsame : ∀ xs : List (Option Head), List.Forall₂ Head.Grows xs xs := fun xs =>
    List.forall₂_same.mpr fun y _ => .refl y
  refine List.rel_append (hsame _) ?_
  generalize hρ : Reader.between.read x = ρ at *
  -- Two readers of one header, with another text in it.
  have hheader : ∀ {a u v : Text} {y y' : Option Head} {rest : List (Option Head)}, Signature.Change a u v →
      ρ.heads (t ++ (z ++ 41 :: r)) = y :: rest → ρ.heads (s ++ (z ++ 41 :: r)) = y' :: rest →
      Reader.AlikeHead (a ++ (u ++ [41])) (a ++ (v ++ [41])) y y' → Head.Grows y y' := by
    intro a u v y y' rest hchange hy hy' halike
    obtain ⟨hu, hv⟩ := hchange.inert
    have hsplit : ∀ x w : Text, a ++ (x ++ [41]) ++ w = a ++ (x ++ 41 :: w) := fun x w => by simp
    cases halike with
    | none => exact .none
    | line w =>
      rw [hsplit, hsplit, ← List.append_assoc, ← List.append_assoc]
      exact .line (Reader.parensClosed_put hu hv)
    | header w isBlock =>
      rw [hsplit] at hy hy' ⊢
      rw [hsplit]
      have hmem : some (.header (a ++ (u ++ 41 :: w)) isBlock) ∈
          Reader.between.emitted x ++ ρ.heads (t ++ (z ++ 41 :: r)) := by simp [hy]
      have hmem' : some (.header (a ++ (v ++ 41 :: w)) isBlock) ∈
          Reader.between.emitted x ++ ρ.heads (s ++ (z ++ 41 :: r)) := by simp [hy']
      exact .header (hchange.grows (hascii.of_subset (hsubset hmem)) (hascii'.of_subset (hsubset' hmem'))
        (hsteady _ hmem)) isBlock
  have hput : ∀ w : Text, w ++ (z ++ 41 :: r) = w ++ z ++ 41 :: r := fun w => by simp
  have hopened : ∀ {a u v : Text}, Signature.Change a u v → (∃ σ : Reader, σ.open? = some a ∧
      ρ.heads (t ++ (z ++ 41 :: r)) = σ.heads (u ++ 41 :: r) ∧
        ρ.heads (s ++ (z ++ 41 :: r)) = σ.heads (v ++ 41 :: r)) →
      List.Forall₂ Head.Grows (ρ.heads (t ++ (z ++ 41 :: r))) (ρ.heads (s ++ (z ++ 41 :: r))) := by
    rintro a u v hchange ⟨σ, hσ, hu, hv⟩
    rcases Reader.heads_open hσ hchange.inert.1 hchange.inert.2 r with ⟨hnil, hnil'⟩ |
      ⟨y, y', rest, hy, hy', halike⟩
    · rw [hu, hv, hnil, hnil']
      exact .nil
    · have := hheader hchange (hu.trans hy) (hv.trans hy') halike
      rw [hu, hv, hy, hy']
      exact .cons this (hsame rest)
  -- Where no item is open one begins, and what is put in is part of its lead.
  have hbegin : ρ.isRest →
      List.Forall₂ Head.Grows (ρ.heads (t ++ (z ++ 41 :: r))) (ρ.heads (s ++ (z ++ 41 :: r))) := by
    intro hrest
    have hdrop : ∀ {w : Text}, Inert w → Inert (w.dropWhile isBlank) := fun {w} hw b hb =>
      hw b ((List.dropWhile_sublist _).subset hb)
    refine hopened (.lead (a := []) nofun (hdrop (ht.append hz)) (hdrop (hs.append hz)))
      ⟨.inside [], rfl, ?_, ?_⟩
    · rw [hput, Reader.heads_rest hrest (ht.append hz)]
    · rw [hput, Reader.heads_rest hrest (hs.append hz)]
  cases hkind : ρ.open? with
  | some a => exact hopened (hopen a hkind) ⟨ρ, hkind, by rw [hput], by rw [hput]⟩
  | none =>
    cases ρ with
    | inside => cases hkind
    | nested => cases hkind
    | between => exact hbegin rfl
    | closed => exact hbegin rfl
    | body a depth =>
      rw [hput, hput, Reader.heads_body (ht.append hz), Reader.heads_body (hs.append hz)]
      exact hsame _
    | line a =>
      have ha : 92 ∉ a := fun hmem => hback (subset_of_read_line hρ hmem)
      obtain ⟨w, rest, hcur, hnext⟩ := Reader.heads_line ha ht hs (hline a rfl) hline' (z ++ 41 :: r)
      rw [hcur, hnext]
      exact .cons (.line (Reader.parensClosed_put ht hs)) (hsame rest)

end Text

end GlslToMetal
