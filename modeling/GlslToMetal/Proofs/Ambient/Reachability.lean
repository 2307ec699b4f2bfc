import GlslToMetal.Proofs.Ambient.Agreement

/-! Threading to the end gives a function exactly the values that it reaches through calls. In a run,
a body names a value if it named it at first or calls a function that has been given the value. So
what a function is given, it reaches; and once no function wants a value, what it reaches it has been
given. Every round before that gives some definition a value, which bounds the number of rounds. -/

namespace GlslToMetal.Threading.Phase

open List Text Nest

variable {a : Ambient} {ambients : List Ambient} {rs rs' : List Routine} {i : Nat} {body : Nest} {σ : Phase}
  {r r' : Routine} {m n : Text}

/-- A name reaches a value: a definition of the name, other than the entry point, names the value, or
calls a name that reaches it. -/
inductive Reaches (σ₀ : Phase) (a : Ambient) : Text → Prop where
  | names {i : Nat} {r : Routine} {body : Nest} (hr : σ₀.routines[i]? = some r)
      (hentry : Routine.entry? σ₀.routines ≠ some i) (hbody : r.body? = some body)
      (hname : a.name ∈ runs body.text) : Reaches σ₀ a r.name
  | calls {i : Nat} {r : Routine} {body : Nest} {c : Text × List Text}
      (hr : σ₀.routines[i]? = some r) (hentry : Routine.entry? σ₀.routines ≠ some i)
      (hbody : r.body? = some body) (hc : c ∈ body.calls []) (hreaches : Reaches σ₀ a c.1) :
      Reaches σ₀ a r.name

/-- The first phase of a program in which names are enough to follow calls and to tell the entry
point. -/
structure Linked (ambients : List Ambient) (σ₀ : Phase) : Prop where
  valid : σ₀.Valid
  unthreaded : ∀ v ∈ σ₀.overloads.table, v.threaded = []
  covered : ∀ {i : Nat} {r : Routine}, σ₀.routines[i]? = some r → ∃ id v,
    σ₀.overloads.ofFunction[i]? = some id ∧ σ₀.overloads.table[id]? = some v ∧ v.name = r.name ∧
      v.arity = r.params.length
  distinct : σ₀.overloads.Distinct
  unique : ∀ {id id' : Nat} {v v' : Overload}, σ₀.overloads.table[id]? = some v →
    σ₀.overloads.table[id']? = some v' → v.name = v'.name → id = id'
  free : ∀ r ∈ σ₀.routines, ∀ a ∈ ambients, r.hasParam a.name = false
  counts : ∀ c ∈ σ₀.calls, ∀ v ∈ σ₀.overloads.table, v.name = c.1 → v.arity = c.2.length
  entry : ∀ {k i : Nat} {r r' : Routine}, Routine.entry? σ₀.routines = some k →
    σ₀.routines[k]? = some r → σ₀.routines[i]? = some r' → r'.name = r.name → i = k
  output : ∀ {i : Nat} {r : Routine}, σ₀.routines[i]? = some r →
    Routine.entry? σ₀.routines ≠ some i → r.awaitsCoord = false

/-- A body since the first phase: it names a value if it named it at first or calls a function that
has been given the value. -/
structure BodyAgrees (ambients : List Ambient) (σ₀ : Phase) (given : Nat → List Ambient)
    (body₀ body : Nest) : Prop where
  calls : List.Forall₂ (fun c₀ c => ∃ values, CallGains ambients σ₀ given c₀ c values)
    (body₀.calls []) (body.calls [])
  names : ∀ a ∈ ambients, a.name ∈ runs body.text ↔ a.name ∈ runs body₀.text ∨
    ∃ c ∈ body₀.calls [], ∃ (id : Nat) (v : Overload), σ₀.overloads.table[id]? = some v ∧
      v.name = c.1 ∧ a ∈ given id

/-- What holds in a run of a linked program. -/
structure Propagates (ambients : List Ambient) (σ₀ σ : Phase) (given : Nat → List Ambient) : Prop
    extends Given ambients σ₀ σ given where
  entry : Routine.entry? σ.routines = Routine.entry? σ₀.routines
  exempt : ∀ {k id : Nat}, Routine.entry? σ₀.routines = some k →
    σ₀.overloads.ofFunction[k]? = some id → given id = []
  bodies : ∀ {i : Nat} {r₀ r : Routine} {body₀ : Nest}, σ₀.routines[i]? = some r₀ →
    σ.routines[i]? = some r → r₀.body? = some body₀ →
    ∃ body, r.body? = some body ∧ BodyAgrees ambients σ₀ given body₀ body
  sound : ∀ {id : Nat} {v : Overload} {a : Ambient}, σ₀.overloads.table[id]? = some v →
    a ∈ given id → Reaches σ₀ a v.name

section Linked

variable {ambients : List Ambient} {σ₀ : Phase} (h₀ : Linked ambients σ₀)
include h₀

theorem Linked.unmistakable {c : Text × List Text} (hc : c ∈ σ₀.calls) : Unmistakable ambients σ₀ c := by
  intro v hv hname hlt
  have := h₀.counts c hc v hv hname
  omega

theorem Linked.propagates_initial : Propagates ambients σ₀ σ₀ fun _ => [] where
  toGiven := given_initial ambients h₀.valid h₀.unthreaded
  entry := rfl
  exempt := fun _ _ => rfl
  bodies := by
    intro i r₀ r body₀ hr₀ hr hbody
    rw [hr₀] at hr
    cases hr
    refine ⟨body₀, hbody, forall₂_same.mpr fun c _ => ⟨[], callGains_nil ambients σ₀ c⟩, ?_⟩
    intro a _
    simp
  sound := by
    intro id v a _ ha
    cases ha

variable (hambients : Ambient.Family ambients) {σ : Phase} {given : Nat → List Ambient}
include hambients

/-- Threading a value keeps what is known of a body. -/
theorem Given.bodyAgrees (h : Given ambients σ₀ σ given) (ha : a ∈ ambients)
    {body₀ : Nest} (hcalls : ∀ c ∈ body₀.calls [], c ∈ σ₀.calls)
    (hbody : BodyAgrees ambients σ₀ given body₀ body) :
    BodyAgrees ambients σ₀ (σ.give a given) body₀ (body.pass (σ.meant a) a.name []) where
  calls := by
    refine forall₂_comp ?_ hbody.calls (calls_pass (σ.meant a) (hambients.proper a ha).word body [])
    rintro c₀ c c' ⟨values, hgains⟩ hcalled
    exact ⟨_, h.callGains hambients h₀.distinct ha hgains hcalled⟩
  names := by
    have hany : (body.calls []).any (fun c => σ.meant a c.1 c.2) ↔
        ∃ c ∈ body₀.calls [], ∃ (id : Nat) (v : Overload), σ₀.overloads.table[id]? = some v ∧
          v.name = c.1 ∧ id ∈ σ.users a := by
      rw [any_eq_true]
      constructor
      · rintro ⟨c, hc, hmeant⟩
        obtain ⟨c₀, hc₀, values, hext, -⟩ := exists_of_mem_right hbody.calls hc
        unfold meant Overloads.means at hmeant
        obtain ⟨id, hid, huser⟩ := (Option.any_eq_true _ _).mp hmeant
        obtain ⟨w, hw, haccepts, -⟩ := Overloads.resolve?_spec hid
        rw [h.table, Option.map_eq_some_iff] at hw
        obtain ⟨v, hv, rfl⟩ := hw
        simp only [Overloads.accepts, Bool.and_eq_true, beq_iff_eq] at haccepts
        exact ⟨c₀, hc₀, id, v, hv, haccepts.1.1.trans hext.1, contains_iff_mem.mp huser⟩
      · rintro ⟨c₀, hc₀, id, v, hv, hname, huser⟩
        obtain ⟨c, hc, values, hgains⟩ := exists_of_mem_left hbody.calls hc₀
        have hmem := hcalls c₀ hc₀
        refine ⟨c, hc, ?_⟩
        rw [h.meant_eq hambients h₀.distinct (h₀.unmistakable hmem) hv hname
          (h₀.counts c₀ hmem v (mem_of_getElem? hv) hname) hgains]
        exact contains_iff_mem.mpr huser
    intro b hb
    have hpass := mem_runs_pass (σ.meant a) (hambients.proper a ha).word body [] [] b.name
    simp only [List.nil_append] at hpass
    have hsame : b.name = a.name ↔ b = a :=
      ⟨hambients.distinct b hb a ha, fun heq => heq ▸ rfl⟩
    have hgive : ∀ id, b ∈ σ.give a given id ↔ b ∈ given id ∨ (b = a ∧ id ∈ σ.users a) := by
      intro id
      unfold give
      split
      · next huser => simp [contains_iff_mem.mp huser]
      · next huser =>
        have : id ∉ σ.users a := fun hid => huser (contains_iff_mem.mpr hid)
        simp [this]
    rw [hpass, hbody.names b hb, hany, hsame]
    simp only [hgive]
    grind

omit hambients in
/-- The entry point stays where it is as long as it is given nothing. -/
theorem Given.entry?_eq (h : Given ambients σ₀ σ given)
    (hexempt : ∀ {k id : Nat}, Routine.entry? σ₀.routines = some k →
      σ₀.overloads.ofFunction[k]? = some id → given id = []) :
    Routine.entry? σ.routines = Routine.entry? σ₀.routines := by
  refine Routine.entry?_eq h.length ?_
  intro i r₀ r hr₀ hr hle
  obtain ⟨id, v, hid, -⟩ := h₀.covered hr₀
  obtain ⟨r', hr', hgrown⟩ := h.routines hr₀ hid
  rw [hr] at hr'
  cases hr'
  rw [Bool.eq_iff_iff, hgrown.isEntry_iff]
  by_cases hentry : Routine.entry? σ₀.routines = some i
  · rw [hexempt hentry hid]
    simp
  · have hnot : r₀.isEntry = false := by
      cases hk : Routine.entry? σ₀.routines with
      | none => exact findIdx?_eq_none_iff.mp hk r₀ (mem_of_getElem? hr₀)
      | some k =>
        have hne : i ≠ k := fun heq => hentry (heq ▸ hk)
        exact Routine.isEntry_of_lt hk (Nat.lt_of_le_of_ne (hle k hk) hne) hr₀
    rw [hnot, h₀.output hr₀ hentry]
    simp

/-- A routine that wants a value is a definition other than the entry point whose body names the
value, and whose overload has not been given it. -/
theorem Propagates.wants_iff (h : Propagates ambients σ₀ σ given) (ha : a ∈ ambients)
    : Routine.wants σ.routines a.name i ↔ ∃ r₀ body₀ id v, σ₀.routines[i]? = some r₀ ∧
      Routine.entry? σ₀.routines ≠ some i ∧
        r₀.body? = some body₀ ∧ σ₀.overloads.ofFunction[i]? = some id ∧
        σ₀.overloads.table[id]? = some v ∧ v.name = r₀.name ∧ a ∉ given id ∧
        (a.name ∈ runs body₀.text ∨ ∃ c ∈ body₀.calls [], ∃ (id : Nat) (v : Overload),
          σ₀.overloads.table[id]? = some v ∧ v.name = c.1 ∧ a ∈ given id) := by
  have hword := (hambients.proper a ha).word
  rw [Routine.wants_iff, h.entry]
  constructor
  · rintro ⟨hentry, r, hr, hlacks⟩
    have hlt : i < σ₀.routines.length := h.length ▸ (List.getElem?_eq_some_iff.mp hr).1
    have hr₀ := getElem?_eq_getElem hlt
    obtain ⟨id, v, hid, hv, hname, -⟩ := h₀.covered hr₀
    unfold Routine.lacks at hlacks
    rw [Bool.and_eq_true, Bool.not_eq_true', Option.any_eq_true] at hlacks
    obtain ⟨hparam, body, hbody, hcontains⟩ := hlacks
    obtain ⟨r', hr', hgrown⟩ := h.routines hr₀ hid
    rw [hr] at hr'
    cases hr'
    have hdef := hgrown.definition
    rw [hbody, Option.isSome_some] at hdef
    obtain ⟨body₀, hbody₀⟩ := Option.isSome_iff_exists.mp hdef.symm
    obtain ⟨body', hbody', hagrees⟩ := h.bodies hr₀ hr hbody₀
    rw [hbody] at hbody'
    cases hbody'
    refine ⟨_, body₀, id, v, hr₀, hentry, hbody₀, hid, hv, hname, ?_, ?_⟩
    · rw [← h.hasParam_iff hambients h₀.free hr hid ha, hparam]
      simp
    · rw [← hagrees.names a ha]
      exact (containsWord_iff_mem_runs hword).mp hcontains
  · rintro ⟨r₀, body₀, id, v, hr₀, hentry, hbody₀, hid, -, -, hnot, hnames⟩
    obtain ⟨r, hr, hgrown⟩ := h.routines hr₀ hid
    obtain ⟨body, hbody, hagrees⟩ := h.bodies hr₀ hr hbody₀
    refine ⟨hentry, r, hr, ?_⟩
    unfold Routine.lacks
    rw [Bool.and_eq_true, Bool.not_eq_true', Option.any_eq_true, Bool.eq_false_iff, Ne,
      h.hasParam_iff hambients h₀.free hr hid ha]
    exact ⟨hnot, body, hbody, (containsWord_iff_mem_runs hword).mpr ((hagrees.names a ha).mpr hnames)⟩

/-- **Threading a value propagates it.** -/
theorem Propagates.thread (h : Propagates ambients σ₀ σ given) (ha : a ∈ ambients) :
    Propagates ambients σ₀ (σ.thread a) (σ.give a given) := by
  have hgiven := h.toGiven.thread hambients h₀.free ha
  have hexempt : ∀ {k id : Nat}, Routine.entry? σ₀.routines = some k →
      σ₀.overloads.ofFunction[k]? = some id → σ.give a given id = [] := by
    intro k id hk hid
    have hnot : (σ.users a).contains id = false := by
      rw [Bool.eq_false_iff, Ne, contains_iff_mem]
      intro huser
      obtain ⟨i, hwants, hi⟩ := mem_users.mp huser
      obtain ⟨r₀, -, id', v, hr₀, hentry, -, hid', hv, hname, -⟩ :=
        (h.wants_iff h₀ hambients ha).mp hwants
      rw [h.ofFunction, hid'] at hi
      cases hi
      have hrk := getElem?_eq_getElem (findIdx?_eq_some_iff_getElem.mp hk).1
      obtain ⟨id'', v', hid'', hv', hname', -⟩ := h₀.covered hrk
      rw [hid] at hid''
      cases hid''
      rw [hv] at hv'
      cases hv'
      rw [h₀.entry hk hrk hr₀ (hname.symm.trans hname')] at hentry
      exact hentry hk
    unfold give
    rw [hnot]
    exact h.exempt hk hid
  refine { hgiven with entry := ?_, exempt := hexempt, bodies := ?_, sound := ?_ }
  · exact hgiven.entry?_eq h₀ hexempt
  · intro i r₀ r' body₀ hr₀ hr' hbody₀
    obtain ⟨id, -, hid, -⟩ := h₀.covered hr₀
    obtain ⟨r, hr, -⟩ := h.routines hr₀ hid
    obtain ⟨body, hbody, hagrees⟩ := h.bodies hr₀ hr hbody₀
    rw [h.valid.getElem?_routines_thread (hambients.proper a ha) hr (h.ofFunction ▸ hid)] at hr'
    cases hr'
    refine ⟨body.pass (σ.meant a) a.name [], ?_, h.bodyAgrees h₀ hambients ha (fun c hc =>
      Outline.mem_calls (mem_of_getElem? hr₀) hbody₀ hc) hagrees⟩
    unfold Routine.thread
    rw [hbody]
    rfl
  · intro id v b hv hb
    unfold give at hb
    split at hb
    · next huser =>
      rcases mem_append.mp hb with hb | hb
      · exact h.sound hv hb
      · rw [mem_singleton] at hb
        subst hb
        obtain ⟨i, hwants, hi⟩ := mem_users.mp (contains_iff_mem.mp huser)
        obtain ⟨r₀, body₀, id', v', hr₀, hentry, hbody₀, hid', hv', hname, -, hnames⟩ :=
          (h.wants_iff h₀ hambients ha).mp hwants
        rw [h.ofFunction, hid'] at hi
        cases hi
        rw [hv] at hv'
        cases hv'
        rw [hname]
        rcases hnames with hnames | ⟨c, hc, id', v', hv', hname', hgiven'⟩
        · exact .names hr₀ hentry hbody₀ hnames
        · exact .calls hr₀ hentry hbody₀ hc (hname' ▸ h.sound hv' hgiven')
    · exact h.sound hv hb

omit hambients in
/-- A name that reaches a value is the name of an overload. -/
theorem Linked.exists_overload (h : Reaches σ₀ a n) :
    ∃ (id : Nat) (v : Overload), σ₀.overloads.table[id]? = some v ∧ v.name = n := by
  cases h with
  | names hr =>
    obtain ⟨id, v, -, hv, hname, -⟩ := h₀.covered hr
    exact ⟨id, v, hv, hname⟩
  | calls hr =>
    obtain ⟨id, v, -, hv, hname, -⟩ := h₀.covered hr
    exact ⟨id, v, hv, hname⟩

/-- **Once no routine wants a value, what a name reaches it has been given.** -/
theorem Propagates.complete (h : Propagates ambients σ₀ σ given) (ha : a ∈ ambients)
    (hsettled : ∀ i, Routine.wants σ.routines a.name i = false) (hn : Reaches σ₀ a n) :
    ∀ {id : Nat} {v : Overload}, σ₀.overloads.table[id]? = some v → v.name = n → a ∈ given id := by
  have hgiven : ∀ {i : Nat} {r₀ : Routine} {body₀ : Nest}, σ₀.routines[i]? = some r₀ →
      Routine.entry? σ₀.routines ≠ some i → r₀.body? = some body₀ →
      (a.name ∈ runs body₀.text ∨ ∃ c ∈ body₀.calls [], ∃ (id : Nat) (v : Overload),
        σ₀.overloads.table[id]? = some v ∧ v.name = c.1 ∧ a ∈ given id) →
      ∀ {id : Nat} {v : Overload}, σ₀.overloads.table[id]? = some v → v.name = r₀.name → a ∈ given id := by
    intro i r₀ body₀ hr₀ hentry hbody₀ hnames id v hv hname
    obtain ⟨id', v', hid', hv', hname', -⟩ := h₀.covered hr₀
    rw [h₀.unique hv hv' (hname.trans hname'.symm)]
    by_contra hnot
    have hwants := (h.wants_iff h₀ hambients ha).mpr
      ⟨r₀, body₀, id', v', hr₀, hentry, hbody₀, hid', hv', hname', hnot, hnames⟩
    rw [hsettled i] at hwants
    cases hwants
  induction hn with
  | names hr hentry hbody hname => exact hgiven hr hentry hbody (.inl hname)
  | calls hr hentry hbody hc hreaches ih =>
    obtain ⟨id, v, hv, hname⟩ := h₀.exists_overload hreaches
    intro id' v' hv' hname'
    exact hgiven hr hentry hbody (.inr ⟨_, hc, id, v, hv, hname, ih hv hname⟩) hv' hname'

/-! Every round gives some definition a value. -/

theorem Propagates.wants_thread (h : Propagates ambients σ₀ σ given) {b : Ambient}
    (ha : a ∈ ambients) (hb : b ∈ ambients) (hne : a ≠ b)
    (hwants : Routine.wants σ.routines a.name i) : Routine.wants (σ.thread b).routines a.name i := by
  have hmono : ∀ id, a ∈ given id → a ∈ σ.give b given id := by
    intro id hmem
    unfold give
    split
    · exact mem_append_left _ hmem
    · exact hmem
  have hnot : ∀ id, a ∉ given id → a ∉ σ.give b given id := by
    intro id hmem
    unfold give
    split
    · simp [hmem, hne]
    · exact hmem
  rw [h.wants_iff h₀ hambients ha] at hwants
  rw [(h.thread h₀ hambients hb).wants_iff h₀ hambients ha]
  obtain ⟨r₀, body₀, id, v, hr₀, hentry, hbody₀, hid, hv, hname, hmem, hnames⟩ := hwants
  refine ⟨r₀, body₀, id, v, hr₀, hentry, hbody₀, hid, hv, hname, hnot id hmem, ?_⟩
  rcases hnames with hnames | ⟨c, hc, id', v', hv', hname', hmem'⟩
  · exact .inl hnames
  · exact .inr ⟨c, hc, id', v', hv', hname', hmono id' hmem'⟩

theorem Propagates.hasParam_of_wants (h : Propagates ambients σ₀ σ given)
    (ha : a ∈ ambients) (hwants : Routine.wants σ.routines a.name i)
    (hr : (σ.thread a).routines[i]? = some r) : r.hasParam a.name := by
  obtain ⟨-, -, id, -, -, -, -, hid, -⟩ := (h.wants_iff h₀ hambients ha).mp hwants
  have huser : id ∈ σ.users a := mem_users.mpr ⟨i, hwants, h.ofFunction ▸ hid⟩
  rw [(h.toGiven.thread hambients h₀.free ha).hasParam_iff hambients h₀.free hr hid ha]
  unfold give
  rw [if_pos (contains_iff_mem.mpr huser)]
  exact mem_append_right _ (mem_singleton_self a)

end Linked

/-- How many values a definition has; a prototype does not count. -/
def valueCount (ambients : List Ambient) (r : Routine) : Nat :=
  if r.body?.isSome then (ambients.filter fun a => r.hasParam a.name).length else 0

theorem valueCount_le (ambients : List Ambient)
    (h : r.GrownBy ambients r') :
    valueCount ambients r ≤ valueCount ambients r' := by
  unfold valueCount
  rw [h.definition]
  split
  · exact (monotone_filter_right ambients fun a => h.hasParam).length_le
  · exact Nat.le_refl 0

theorem valueCount_lt (h : r.GrownBy ambients r')
    (hdef : r.body?.isSome) (ha : a ∈ ambients) (hnot : r.hasParam a.name = false)
    (hhas : r'.hasParam a.name) : valueCount ambients r < valueCount ambients r' := by
  unfold valueCount
  rw [h.definition, if_pos hdef, if_pos hdef]
  have hsub := monotone_filter_right ambients fun (a : Ambient) (ha : r.hasParam a.name) =>
    h.hasParam ha
  refine Nat.lt_of_not_le fun hle => ?_
  have hmem : a ∈ ambients.filter fun a => r'.hasParam a.name := mem_filter.mpr ⟨ha, hhas⟩
  rw [← hsub.eq_of_length_le hle, mem_filter, hnot] at hmem
  cases hmem.2

/-- How many values the definitions have in all. -/
def total (ambients : List Ambient) : List Routine → Nat
  | [] => 0
  | r :: rs => valueCount ambients r + total ambients rs

theorem total_le_of_grownBy (ambients : List Ambient)
    (h : List.Forall₂ (Routine.GrownBy ambients) rs rs') : total ambients rs ≤ total ambients rs' := by
  induction h with
  | nil => exact Nat.le_refl _
  | cons hr _ ih =>
    rw [total, total]
    exact Nat.add_le_add (valueCount_le ambients hr) ih

theorem total_lt_of_grownBy (h : List.Forall₂ (Routine.GrownBy ambients) rs rs') (hr : rs[i]? = some r)
    (hr' : rs'[i]? = some r') (hlt : valueCount ambients r < valueCount ambients r') :
    total ambients rs < total ambients rs' := by
  induction h generalizing i with
  | nil => simp at hr
  | cons hx hrest ih =>
    have htail := total_le_of_grownBy ambients hrest
    have hhead := valueCount_le ambients hx
    rw [total, total]
    cases i with
    | zero =>
      cases hr
      cases hr'
      omega
    | succ i =>
      have := ih (by simpa using hr) (by simpa using hr')
      omega

theorem total_le (ambients : List Ambient) (rs : List Routine) :
    total ambients rs ≤ (rs.filter (·.body?.isSome)).length * ambients.length := by
  induction rs with
  | nil => exact Nat.zero_le _
  | cons r rs ih =>
    rw [total, valueCount, filter_cons]
    split
    · have hle := length_filter_le (fun a => r.hasParam a.name) ambients
      rw [length_cons, Nat.succ_mul]
      omega
    · omega

section Rounds

variable {ambients : List Ambient} {σ₀ : Phase} (h₀ : Linked ambients σ₀)
  (hambients : Ambient.Family ambients)
include h₀ hambients

theorem Propagates.round {xs : List Ambient} (hxs : ∀ a ∈ xs, a ∈ ambients)
    {given : Nat → List Ambient} (h : Propagates ambients σ₀ σ given) :
    (∃ given', Propagates ambients σ₀ (σ.round xs) given') ∧
      List.Forall₂ (Routine.GrownBy ambients) σ.routines (σ.round xs).routines ∧
      ∀ a ∈ xs, ∀ i r, Routine.wants σ.routines a.name i → (σ.round xs).routines[i]? = some r →
        r.hasParam a.name := by
  induction xs generalizing σ given with
  | nil => exact ⟨⟨given, h⟩, forall₂_same.mpr fun r _ => .refl r, by simp⟩
  | cons b xs ih =>
    have hb := hxs b mem_cons_self
    obtain ⟨hprop, hgrown, hgains⟩ := ih (fun a ha => hxs a (mem_cons_of_mem b ha))
      (h.thread h₀ hambients hb)
    refine ⟨hprop, forall₂_comp Routine.GrownBy.trans (h.valid.grownBy hambients.proper hb) hgrown, ?_⟩
    intro a ha i r hwants hr
    by_cases hab : a = b
    · subst hab
      obtain ⟨r', hr', hgrown'⟩ := exists_getElem?_right hgrown.flip hr
      exact Routine.GrownBy.hasParam hgrown' (h.hasParam_of_wants h₀ hambients hb hwants hr')
    · have ha' : a ∈ xs := (mem_cons.mp ha).resolve_left hab
      exact hgains a ha' i r (h.wants_thread h₀ hambients (hxs a ha) hb hab hwants) hr

/-- **A round before the last gives some definition a value.** -/
theorem Propagates.total_lt_round {given : Nat → List Ambient}
    (h : Propagates ambients σ₀ σ given) (hunsettled : ¬ σ.settled ambients) :
    total ambients σ.routines < total ambients (σ.round ambients).routines := by
  rw [settled_iff] at hunsettled
  simp only [not_forall, Bool.not_eq_false] at hunsettled
  obtain ⟨a, ha, i, hwants⟩ := hunsettled
  obtain ⟨-, hgrown, hgains⟩ := h.round h₀ hambients (fun a ha => ha)
  obtain ⟨-, r, hr, hlacks⟩ := Routine.wants_iff.mp hwants
  obtain ⟨r', hr', hgrown'⟩ := exists_getElem?_right hgrown hr
  unfold Routine.lacks at hlacks
  rw [Bool.and_eq_true, Bool.not_eq_true', Option.any_eq_true] at hlacks
  obtain ⟨hnot, body, hbody, -⟩ := hlacks
  exact total_lt_of_grownBy hgrown hr hr'
    (valueCount_lt hgrown' (by rw [hbody]; rfl) ha hnot (hgains a ha i r' hwants hr'))

/-- **The rounds suffice**: with one more round than definitions can gain values, the last phase is
settled. -/
theorem Propagates.settled_rounds {given : Nat → List Ambient}
    (h : Propagates ambients σ₀ σ given) {n : Nat}
    (hn : (σ.routines.filter (·.body?.isSome)).length * ambients.length < total ambients σ.routines + n) :
    (σ.rounds ambients n).settled ambients ∧
      ∃ given', Propagates ambients σ₀ (σ.rounds ambients n) given' := by
  induction n generalizing σ given with
  | zero =>
    have := total_le ambients σ.routines
    omega
  | succ n ih =>
    unfold rounds
    split
    · next hsettled => exact ⟨hsettled, given, h⟩
    · next hunsettled =>
      obtain ⟨⟨given', hprop⟩, hgrown, -⟩ := h.round h₀ hambients (fun a ha => ha)
      have hlt := h.total_lt_round h₀ hambients hunsettled
      refine ih hprop ?_
      rw [← (forall₂_filter hgrown Routine.GrownBy.definition).length_eq]
      omega

end Rounds

end GlslToMetal.Threading.Phase

namespace GlslToMetal

open Text Nest Threading

/-- A name reaches a value in a program: a definition of the name, other than the entry point, holds
the name of the value as a whole word in its body, or its body calls a name that reaches it. -/
inductive Threading.Reaches (source : Text) (functions : List Signature) (a : Ambient) : Text → Prop
    where
  | names {f : Signature} {body : Range} (hf : f ∈ functions)
      (hentry : Program.entryPoint? functions ≠ some f) (hbody : f.body? = some body)
      (hname : (source.mask.cut body).containsWord a.name) : Reaches source functions a f.name
  | calls {f : Signature} {body : Range} {n : Text} {lists : List (List Text)} (hf : f ∈ functions)
      (hentry : Program.entryPoint? functions ≠ some f) (hbody : f.body? = some body)
      (hcalls : Call.argumentLists (source.mask.cut body) n = .ok lists) (hsome : lists ≠ [])
      (hreaches : Reaches source functions a n) : Reaches source functions a f.name

/-- The programs in which names are enough to follow calls and to tell the entry point: calls of
declared names pass as many arguments as the name has parameters, the name of the entry point is its
own, and no other definition would be an entry point with a coordinate behind its parameter. -/
structure Threading.Traceable (source : Text) (functions : List Signature) : Prop
    extends Uniform source functions where
  counts : ∀ f ∈ functions, ∀ lists, Call.argumentLists source.mask f.name = .ok lists →
    ∀ args ∈ lists, args.length = f.arity
  entry : ∀ e, Program.entryPoint? functions = some e → ∀ f ∈ functions, f.name = e.name → f = e
  output : ∀ f ∈ functions, Program.entryPoint? functions ≠ some f → f.isDefinition →
    f.returnType = ("void" : Text) → ∀ p, f.params = [p] → Signature.isColorOutput p = false

theorem Signature.Matches.exists_tree {m : Text} {f : Signature} {r : Routine} (h : f.Matches m r)
    {range : Range} (hrange : f.body? = some range) :
    ∃ body, r.body? = some body ∧ m.cut range = body.text := by
  obtain ⟨body, hbody, hslice⟩ := h.body range hrange
  exact ⟨body, hbody, (Text.of_slice hslice).2.2⟩

theorem Signature.Matches.exists_range {m : Text} {f : Signature} {r : Routine} (h : f.Matches m r)
    {body : Nest} (hbody : r.body? = some body) :
    ∃ range, f.body? = some range ∧ m.cut range = body.text := by
  have hdef := h.definition
  rw [hbody, Signature.isDefinition, Option.isSome_some, Option.isSome_iff_exists] at hdef
  obtain ⟨range, hrange⟩ := hdef
  obtain ⟨body', hbody', hcut⟩ := h.exists_tree hrange
  rw [hbody] at hbody'
  cases hbody'
  exact ⟨range, hrange, hcut⟩

theorem Nest.mem_callsOf {t : Nest} {args : List Text} : args ∈ t.callsOf n ↔ (n, args) ∈ t.calls [] := by
  unfold callsOf
  rw [List.mem_filterMap]
  constructor
  · rintro ⟨c, hc, heq⟩
    split at heq
    · next hname =>
      cases heq
      exact hname ▸ hc
    · cases heq
  · intro hc
    exact ⟨(n, args), hc, if_pos rfl⟩

section Traceable

variable {source : Text} {o : Outline} (ho : Represents source o)
include ho

theorem Represents.body {r : Routine} (hr : r ∈ o.routines) {body : Nest} (hbody : r.body? = some body) :
    body.Plain ∧ body.text.IsCode := by
  obtain ⟨p, hp, hr⟩ := List.mem_filterMap.mp hr
  obtain ⟨d, -, rfl⟩ := Option.map_eq_some_iff.mp hr
  have hbody' : p.body? = some body := hbody
  refine ⟨(ho.sound.plain.1 p hp).2 body hbody', ?_⟩
  intro b hb
  refine ho.sound.code b ?_
  rw [Outline.text_nest, List.mem_append, List.mem_flatMap]
  refine .inl ⟨p, hp, ?_⟩
  rw [Piece.text, Piece.ending, hbody']
  simp [hb]

variable {functions : List Signature} (hfunctions : Program.functions source = .ok functions)
include hfunctions

theorem Represents.linked (h : Traceable source functions) :
    (Phase.initial o functions).Linked Ambient.all := by
  have hcovers := Overloads.covers_collect functions
  have hmatches := ho.matches hfunctions
  have hstart := ho.starts hfunctions
  have hdistinct : (Phase.initial o functions).overloads.Distinct := hcovers.distinct
  refine ⟨ho.valid_initial hfunctions, fun v hv => (hcovers.origin v hv).1, ?_, hdistinct, ?_,
    ho.free_initial hfunctions h.free, ?_, ?_, ?_⟩
  · intro i r hr
    obtain ⟨f, hf, hmatch⟩ := exists_getElem?_right hmatches.flip hr
    obtain ⟨id, hid, hv⟩ := hcovers.entered hf
    exact ⟨id, _, hid, hv, hmatch.name, hmatch.arity⟩
  · intro id id' v v' hv hv' hname
    obtain ⟨-, f, hf, hfname, hfarity⟩ := hcovers.origin v (List.mem_of_getElem? hv)
    obtain ⟨-, g, hg, hgname, hgarity⟩ := hcovers.origin v' (List.mem_of_getElem? hv')
    have := h.arities f hf g hg (by rw [hfname, hname, hgname])
    exact hdistinct.eq hv hv' hname (by omega)
  · intro c hc v hv hname
    obtain ⟨-, f, hf, hfname, hfarity⟩ := hcovers.origin v hv
    obtain ⟨r, hr, hmatch⟩ := exists_of_mem_left hmatches hf
    have hlists := ho.argumentLists (n := f.name) (hmatch.name ▸ Outline.isWord_name hr)
    have hmem : c.2 ∈ o.nest.callsOf f.name := by
      rw [mem_callsOf, hfname, hname]
      exact hc
    rw [← hfarity, h.counts f hf _ hlists c.2 hmem]
  · intro k i r r' hk hr hr' hname
    obtain ⟨e, he, hmatch⟩ := exists_getElem?_right hmatches.flip hr
    obtain ⟨f, hf, hmatch'⟩ := exists_getElem?_right hmatches.flip hr'
    have hentry := (entryPoint?_eq_some_iff hmatches hstart he).mpr hk
    have hsame := h.entry e hentry f (List.mem_of_getElem? hf) (by rw [hmatch'.name, hname, hmatch.name])
    exact eq_of_start hstart hf he (hsame ▸ rfl)
  · intro i r hr hentry
    obtain ⟨f, hf, hmatch⟩ := exists_getElem?_right hmatches.flip hr
    have hnot : Program.entryPoint? functions ≠ some f := fun hfe =>
      hentry ((entryPoint?_eq_some_iff hmatches hstart hf).mp hfe)
    rw [Bool.eq_false_iff]
    intro hawaits
    unfold Routine.awaitsCoord at hawaits
    rw [← hmatch.definition, ← hmatch.returnType, ← hmatch.params] at hawaits
    simp only [Bool.and_eq_true, beq_iff_eq] at hawaits
    obtain ⟨⟨hdef, htype⟩, hshape⟩ := hawaits
    match hparams : f.params with
    | [] => simp [hparams] at hshape
    | [p] =>
      have := h.output f (List.mem_of_getElem? hf) hnot hdef htype p hparams
      rw [hparams, List.map_singleton] at hshape
      simp only [Signature.isColorOutput_bare, this] at hshape
      cases hshape
    | _ :: _ :: _ => simp [hparams] at hshape

theorem Represents.reaches_iff {a : Ambient} (ha : a.Proper) {n : Text} :
    (Phase.initial o functions).Reaches a n ↔ Reaches source functions a n := by
  have hmatches := ho.matches hfunctions
  have hstart := ho.starts hfunctions
  have hword : ∀ {n : Text}, (Phase.initial o functions).Reaches a n → n.IsWord := by
    intro n hn
    cases hn with
    | names hr => exact Outline.isWord_name (List.mem_of_getElem? hr)
    | calls hr => exact Outline.isWord_name (List.mem_of_getElem? hr)
  constructor
  · intro hreaches
    induction hreaches with
    | @names i r body hr hentry hbody hname =>
      obtain ⟨f, hf, hmatch⟩ := exists_getElem?_right hmatches.flip hr
      obtain ⟨range, hrange, hcut⟩ := hmatch.exists_range hbody
      rw [← hmatch.name]
      refine .names (List.mem_of_getElem? hf) ?_ hrange ?_
      · rwa [Ne, entryPoint?_eq_some_iff hmatches hstart hf]
      · rw [hcut]
        exact (containsWord_iff_mem_runs ha.word).mpr hname
    | @calls i r body c hr hentry hbody hc hreaches ih =>
      obtain ⟨f, hf, hmatch⟩ := exists_getElem?_right hmatches.flip hr
      obtain ⟨range, hrange, hcut⟩ := hmatch.exists_range hbody
      obtain ⟨hplain, hcode⟩ := ho.body (List.mem_of_getElem? hr) hbody
      rw [← hmatch.name]
      refine .calls (List.mem_of_getElem? hf) ?_ hrange
        (hcut ▸ argumentLists_text hplain hcode (hword hreaches)) ?_ ih
      · rwa [Ne, entryPoint?_eq_some_iff hmatches hstart hf]
      · exact List.ne_nil_of_mem (mem_callsOf.mpr hc)
  · intro hreaches
    induction hreaches with
    | @names f range hf hentry hrange hname =>
      obtain ⟨i, hi⟩ := List.mem_iff_getElem?.mp hf
      obtain ⟨r, hr, hmatch⟩ := exists_getElem?_right hmatches hi
      obtain ⟨body, hbody, hcut⟩ := hmatch.exists_tree hrange
      rw [hmatch.name]
      refine .names hr ?_ hbody ?_
      · rwa [Ne, ← entryPoint?_eq_some_iff hmatches hstart hi]
      · rw [← containsWord_iff_mem_runs ha.word, ← hcut]
        exact hname
    | @calls f range n lists hf hentry hrange hcalls hsome _ ih =>
      obtain ⟨i, hi⟩ := List.mem_iff_getElem?.mp hf
      obtain ⟨r, hr, hmatch⟩ := exists_getElem?_right hmatches hi
      obtain ⟨body, hbody, hcut⟩ := hmatch.exists_tree hrange
      obtain ⟨hplain, hcode⟩ := ho.body (List.mem_of_getElem? hr) hbody
      rw [hcut, argumentLists_text hplain hcode (hword ih)] at hcalls
      cases hcalls
      obtain ⟨args, hargs⟩ := List.exists_mem_of_ne_nil _ hsome
      rw [hmatch.name]
      refine .calls hr ?_ hbody (mem_callsOf.mp hargs) ih
      rwa [Ne, ← entryPoint?_eq_some_iff hmatches hstart hi]

end Traceable

/-- **Threading to the end is reachability.** In the transitive mode, without a limit on the rounds,
every function but the entry point gains a parameter for exactly the values that its name reaches. -/
theorem Threading.lower_transitive_iff_reaches {source : Text} {functions : List Signature}
    (hfunctions : Program.functions source = .ok functions) (h : Traceable source functions) :
    ∃ reports target functions', lower .transitive Ambient.all none source = .ok (reports, target) ∧
      Program.functions target = .ok functions' ∧
      List.Forall₂ (fun f f' => Program.entryPoint? functions ≠ some f →
        ∃ gained : List Ambient, gained.Nodup ∧
          f'.params.map Parameter.bare = f.params.map Parameter.bare ++ gained.map (·.parameter) ∧
          ∀ a ∈ Ambient.all, a ∈ gained ↔ Reaches source functions a f.name) functions functions' := by
  obtain ⟨o, ho⟩ := h.toRegular.represents hfunctions
  have hfamily := Ambient.family_all
  have hlinked := ho.linked hfunctions h
  obtain ⟨reports, target, hlower, hof⟩ := ho.lower hfunctions hfamily.proper .transitive none
  obtain ⟨functions', hfunctions', hmatches', -, -⟩ := hof.represents.functions
  have hmatches := ho.matches hfunctions
  have hlimit : ((Phase.initial o functions).routines.filter (·.body?.isSome)).length *
      Ambient.all.length < Phase.total Ambient.all (Phase.initial o functions).routines +
        roundLimit .transitive Ambient.all none functions := by
    rw [← (forall₂_filter hmatches fun hmatch => hmatch.definition.symm).length_eq]
    exact Nat.lt_of_lt_of_le (Nat.lt_succ_self _) (Nat.le_add_left _ _)
  obtain ⟨hsettled, given, hprop⟩ := (hlinked.propagates_initial).settled_rounds hlinked hfamily hlimit
  refine ⟨reports, target, functions', hlower, hfunctions', ?_⟩
  refine (hprop.declarations ho hfunctions hmatches').imp ?_
  rintro f f' ⟨id, hv, -, -, -, hparams⟩ _
  refine ⟨given id, hprop.nodup id, hparams, ?_⟩
  intro a ha
  rw [← ho.reaches_iff hfunctions (hfamily.proper a ha)]
  constructor
  · exact fun hgiven => hprop.sound hv hgiven
  · intro hreaches
    exact hprop.complete hlinked hfamily ha (Phase.settled_iff.mp hsettled a ha) hreaches hv rfl

/-- Two functions that call each other, one of which reaches a value, one that reaches none, and an
entry point. -/
def Threading.mutualCalls : Text :=
  (["float even(float x);\n", "float leaf(float x) { return x * iTime; }\n",
    "float odd(float x) { return even(x); }\n", "float even(float x) { return odd(leaf(x)); }\n",
    "float flat(float x) { return x; }\n",
    "void mainImage(out vec4 c, in vec2 p) { c = vec4(even(flat(p.x))); }\n"] : List Text).flatten

theorem Threading.traceable_mutualCalls : Program.functions mutualCalls = .ok (Program.declared mutualCalls) ∧
    Traceable mutualCalls (Program.declared mutualCalls) := by
  have h : Program.functions mutualCalls = .ok (Program.declared mutualCalls) ∧
      Uniform mutualCalls (Program.declared mutualCalls) ∧
      ∀ f ∈ (Program.declared mutualCalls), (∀ lists ∈ (Call.argumentLists mutualCalls.mask f.name).toOption,
          ∀ args ∈ lists, args.length = f.arity) ∧
        (∀ e ∈ Program.entryPoint? (Program.declared mutualCalls), f.name = e.name → f = e) ∧
        (f.returnType = ("void" : Text) → f.arity ≠ 1) := by
    unfold mutualCalls
    repeat rw [ofString_ofList]
    decide +kernel
  obtain ⟨hfunctions, huniform, h⟩ := h
  refine ⟨hfunctions, ⟨huniform, ?_, ?_, ?_⟩⟩
  · intro f hf lists hlists
    exact (h f hf).1 lists (by rw [hlists]; rfl)
  · intro e he f hf
    exact (h f hf).2.1 e he
  · intro f hf _ _ htype p hp
    refine absurd ?_ ((h f hf).2.2 htype)
    rw [Signature.arity, hp]
    rfl

/-- The name of a function, and the types and the names of its parameters. -/
def Signature.typedNames (f : Signature) : Text × List (Text × Text) :=
  (f.name, f.params.map fun p => (p.type, p.name))

namespace Threading

/-- The functions of the program with what they take, after threading. -/
def mutualTypedNames : List (Text × List (Text × Text)) :=
  [("even", [("float", "x"), ("float", "iTime")]), ("leaf", [("float", "x"), ("float", "iTime")]),
    ("odd", [("float", "x"), ("float", "iTime")]), ("even", [("float", "x"), ("float", "iTime")]),
    ("flat", [("float", "x")]), ("mainImage", [("vec4", "c"), ("vec2", "p")])]

theorem typedNames_mutualCalls : (Program.declared mutualCalls).map Signature.typedNames =
      mutualTypedNames.map (fun x => (x.1, x.2.filter (·.2 != ("iTime" : Text)))) ∧
    (Program.entryPoint? (Program.declared mutualCalls)).map Signature.name = some ("mainImage" : Text) ∧
    ∃ r ∈ (lower .transitive Ambient.all none mutualCalls).toOption,
      ∃ fs ∈ (Program.functions r.2).toOption, fs.map Signature.typedNames = mutualTypedNames := by
  unfold mutualCalls mutualTypedNames
  repeat rw [Text.ofString_ofList]
  decide +kernel

/-- A function takes the value after threading if and only if its name reaches it. -/
theorem reaches_iff_mem_typedNames {source : Text} {functions functions' : List Signature} {i : Nat}
    {n : Text} {old new : List (Text × Text)} {a : Ambient} (ha : a ∈ Ambient.all)
    (h : List.Forall₂ (fun f f' => Program.entryPoint? functions ≠ some f →
      ∃ gained : List Ambient, gained.Nodup ∧
        f'.params.map Parameter.bare = f.params.map Parameter.bare ++ gained.map (·.parameter) ∧
        ∀ a ∈ Ambient.all, a ∈ gained ↔ Reaches source functions a f.name) functions functions')
    (hold : (functions.map Signature.typedNames)[i]? = some (n, old))
    (hnew : (functions'.map Signature.typedNames)[i]? = some (n, old ++ new))
    (hentry : (Program.entryPoint? functions).map Signature.name ≠ some n) :
    Reaches source functions a n ↔ (a.type, a.name) ∈ new := by
  rw [List.getElem?_map, Option.map_eq_some_iff] at hold hnew
  obtain ⟨f, hf, hnames⟩ := hold
  obtain ⟨f', hf', hnames'⟩ := hnew
  obtain ⟨g, hg, hgained⟩ := exists_getElem?_right h hf
  obtain rfl : f' = g := Option.some.inj (hf'.symm.trans hg)
  obtain ⟨hname, hparams⟩ := Prod.mk.inj hnames
  obtain ⟨gained, -, hbare, hreaches⟩ := hgained fun he => hentry (by rw [he, ← hname]; rfl)
  have hpairs := congrArg (List.map fun p => (p.type, p.name)) hbare
  rw [List.map_append, List.map_map, List.map_map, List.map_map] at hpairs
  have hadded : old ++ new = old ++ gained.map fun a => (a.type, a.name) := by
    rw [← (Prod.mk.inj hnames').2, ← hparams]
    exact hpairs
  rw [List.append_cancel_left hadded, ← hname, ← hreaches a ha, List.mem_map]
  constructor
  · exact fun hmem => ⟨a, hmem, rfl⟩
  · rintro ⟨⟨name, type⟩, hmem, heq⟩
    obtain ⟨rfl, rfl⟩ := Prod.mk.inj heq
    exact hmem

theorem lower_transitive_iff_reaches_mutualCalls : ∃ reports target functions',
    lower .transitive Ambient.all none mutualCalls = .ok (reports, target) ∧
      Program.functions target = .ok functions' ∧ functions'.map Signature.typedNames = mutualTypedNames ∧
      Reaches mutualCalls (Program.declared mutualCalls) .time "even" ∧
      Reaches mutualCalls (Program.declared mutualCalls) .time "odd" ∧
      Reaches mutualCalls (Program.declared mutualCalls) .time "leaf" ∧
      ¬ Reaches mutualCalls (Program.declared mutualCalls) .time "flat" := by
  obtain ⟨reports, target, functions', hlower, hfunctions', hall⟩ :=
    lower_transitive_iff_reaches traceable_mutualCalls.1 traceable_mutualCalls.2
  obtain ⟨hold, hentry, r, hr, fs, hfs, hnew⟩ := typedNames_mutualCalls
  obtain rfl : r = (reports, target) := Except.ok.inj ((Checked.eq_ok_of_mem hr).symm.trans hlower)
  obtain rfl : fs = functions' := Except.ok.inj ((Checked.eq_ok_of_mem hfs).symm.trans hfunctions')
  have hreach : ∀ (i : Nat) {n : Text} (old new : List (Text × Text)),
      (mutualTypedNames.map fun x => (x.1, x.2.filter (·.2 != ("iTime" : Text))))[i]? = some (n, old) →
      mutualTypedNames[i]? = some (n, old ++ new) → n ≠ "mainImage" →
      (Reaches mutualCalls (Program.declared mutualCalls) .time n ↔
        (Ambient.time.type, Ambient.time.name) ∈ new) := by
    intro i n old new hi hi' hn
    refine reaches_iff_mem_typedNames (by decide +kernel) hall (by rwa [hold]) (by rwa [hnew]) ?_
    rw [hentry]
    exact fun heq => hn (Option.some.inj heq).symm
  refine ⟨reports, target, fs, hlower, hfunctions', hnew, ?_, ?_, ?_, ?_⟩
  · exact (hreach 0 [("float", "x")] [("float", "iTime")] (by decide +kernel)
      (by decide +kernel) (by decide +kernel)).mpr (by decide +kernel)
  · exact (hreach 2 [("float", "x")] [("float", "iTime")] (by decide +kernel)
      (by decide +kernel) (by decide +kernel)).mpr (by decide +kernel)
  · exact (hreach 1 [("float", "x")] [("float", "iTime")] (by decide +kernel)
      (by decide +kernel) (by decide +kernel)).mpr (by decide +kernel)
  · exact (hreach 4 [("float", "x")] [] (by decide +kernel)
      (by decide +kernel) (by decide +kernel)).not.mpr (by decide +kernel)

end Threading

end GlslToMetal
