import GlslToMetal.Proofs.Ambient.Threading

/-! Runs of threading, on outlines. A phase is an outline with the overloads of its functions.
Threading a value, a round and a run are functions on phases, and what they do to the text of a
program is what they do to its outline. -/

namespace GlslToMetal

open List Text Nest

variable {a : Ambient} {ambients : List Ambient} {functions : List Signature} {o : Outline} {σ : Phase}
  {source : Text}

/-! Threading a value that nobody wants changes nothing. -/

section Never

variable {meant : Text → List Text → Bool} (hnever : ∀ n args, meant n args = false)
include hnever

theorem Nest.pass_never (new : Text) (t : Nest) (left : Text) : t.pass meant new left = t := by
  induction t generalizing left with
  | nil => rfl
  | byte b rest ih => rw [pass, ih]
  | pair d inner rest ihInner ihRest =>
    have hnot : isMeant meant left d inner = false := by simp [isMeant, hnever]
    rw [pass, hnot, ihInner, ihRest]
    rfl

theorem Piece.thread_never (a : Ambient) (p : Piece) : p.thread meant a false = p := by
  obtain ⟨head, body?⟩ := p
  unfold thread
  congr 1
  · cases hd : Piece.declaration? ⟨head, body?⟩ with
    | none => exact pass_never hnever a.name head []
    | some d => exact (eq_of_heading? (Nest.eq_of_declaration? (eq_of_declaration? hd).1).1).symm
  · cases body? with
    | none => rfl
    | some body => exact congrArg some (pass_never hnever a.name body [])

theorem Outline.thread_never (a : Ambient) {gains : List Bool} (hgains : ∀ g ∈ gains, g = false)
    (o : Outline) : o.thread meant a gains = o := by
  obtain ⟨pieces, rest⟩ := o
  unfold thread
  rw [pass_never hnever]
  congr 1
  dsimp only
  induction pieces generalizing gains with
  | nil => rfl
  | cons p pieces ih =>
    unfold threadPieces
    split
    · rw [Piece.thread_never hnever, ih hgains]
    · have hhead : gains.headD false = false := by
        cases gains with
        | nil => rfl
        | cons g gains => exact hgains g mem_cons_self
      rw [hhead, Piece.thread_never hnever, ih fun g hg => hgains g (mem_of_mem_tail hg)]

end Never

theorem Overloads.thread_nil (o : Overloads) (ambient : Text) : o.thread [] ambient = o := by
  obtain ⟨ofFunction, table⟩ := o
  unfold thread
  congr 1
  refine ext_getElem? ?_
  intro id
  have := getElem?_thread ⟨ofFunction, table⟩ [] ambient id
  unfold thread at this
  rw [this]
  simp

/-- An outline with the overloads of its functions. -/
structure Threading.Phase where
  outline : Outline
  overloads : Overloads

namespace Threading.Phase

def routines (σ : Phase) : List Routine := σ.outline.routines

/-- The overloads of the routines that want a value. -/
def users (σ : Phase) (a : Ambient) : List Nat :=
  (range σ.routines.length).filterMap fun i =>
    if Routine.wants σ.routines a.name i then σ.overloads.ofFunction[i]? else none

/-- The calls that are to pass a value. -/
def meant (σ : Phase) (a : Ambient) : Text → List Text → Bool := σ.overloads.means (σ.users a)

/-- Threads a value into the overloads that want it. -/
def thread (σ : Phase) (a : Ambient) : Phase :=
  ⟨σ.outline.thread (σ.meant a) a (Routine.gains a (σ.users a) σ.overloads σ.routines),
    σ.overloads.thread (σ.users a) a.name⟩

def round (ambients : List Ambient) (σ : Phase) : Phase := ambients.foldl thread σ

/-- No routine wants a value. -/
def settled (ambients : List Ambient) (σ : Phase) : Bool :=
  ambients.all fun a => (range σ.routines.length).all fun i => !Routine.wants σ.routines a.name i

/-- At most `n` rounds, up to the first phase that is settled. -/
def rounds (ambients : List Ambient) : Nat → Phase → Phase
  | 0, σ => σ
  | n + 1, σ => if σ.settled ambients then σ else rounds ambients n (σ.round ambients)

theorem mem_users {id : Nat} : id ∈ σ.users a ↔
      ∃ i, Routine.wants σ.routines a.name i ∧ σ.overloads.ofFunction[i]? = some id := by
  unfold users
  rw [mem_filterMap]
  constructor
  · rintro ⟨i, -, hi⟩
    split at hi
    · next hwants => exact ⟨i, hwants, hi⟩
    · cases hi
  · rintro ⟨i, hwants, hid⟩
    obtain ⟨-, r, hr, -⟩ := Routine.wants_iff.mp hwants
    exact ⟨i, List.mem_range.mpr (List.getElem?_eq_some_iff.mp hr).1, by rw [if_pos hwants, hid]⟩

theorem settled_iff :
    σ.settled ambients ↔ ∀ a ∈ ambients, ∀ i, Routine.wants σ.routines a.name i = false := by
  unfold settled
  simp only [all_eq_true, mem_range, Bool.not_eq_true']
  refine forall_congr' fun a => forall_congr' fun _ => ?_
  constructor
  · intro h i
    by_cases hi : i < σ.routines.length
    · exact h i hi
    · unfold Routine.wants
      rw [getElem?_eq_none (Nat.le_of_not_lt hi)]
      simp
  · exact fun h i _ => h i

theorem rounds_induction {P : Phase → Prop}
    (hstep : ∀ σ, ∀ a ∈ ambients, P σ → P (σ.thread a)) (h : P σ) (n : Nat) :
    P (σ.rounds ambients n) := by
  have hround : ∀ (xs : List Ambient), (∀ a ∈ xs, a ∈ ambients) → ∀ σ, P σ → P (σ.round xs) := by
    intro xs hxs
    induction xs with
    | nil => exact fun σ h => h
    | cons a xs ih =>
      intro σ h
      exact ih (fun b hb => hxs b (mem_cons_of_mem a hb)) _
        (hstep σ a (hxs a mem_cons_self) h)
  induction n generalizing σ with
  | zero => exact h
  | succ n ih =>
    unfold rounds
    split
    · exact h
    · exact ih (hround ambients (fun a ha => ha) σ h)

theorem thread_of_users_nil (h : σ.users a = []) : σ.thread a = σ := by
  have hnever : ∀ n args, σ.meant a n args = false := by
    intro n args
    unfold meant Overloads.means
    rw [h]
    cases σ.overloads.resolve? n args <;> rfl
  unfold thread
  rw [Outline.thread_never hnever, h, Overloads.thread_nil]
  intro g hg
  unfold Routine.gains at hg
  obtain ⟨x, -, rfl⟩ := mem_map.mp hg
  rw [h]
  rfl

/-! What a run does to a text. -/

/-- The phase of a program text. -/
structure Of (σ : Phase) (source : Text) : Prop where
  represents : Represents source σ.outline
  words : ∀ v ∈ σ.overloads.table, v.name.IsWord

theorem words_thread (h : ∀ v ∈ σ.overloads.table, v.name.IsWord) (a : Ambient) :
    ∀ v ∈ (σ.thread a).overloads.table, v.name.IsWord := by
  intro v hv
  obtain ⟨id, hid⟩ := mem_iff_getElem?.mp hv
  unfold thread at hid
  rw [Overloads.getElem?_thread, Option.map_eq_some_iff] at hid
  obtain ⟨w, hw, rfl⟩ := hid
  have := h w (mem_of_getElem? hw)
  split
  · exact this
  · exact this

theorem contains_users (h : σ.Of source) {uses : List Use}
    (huses : Usage.discover source [a] = .ok uses) :
    (Threading.users uses a.name σ.overloads).contains = (σ.users a).contains := by
  funext id
  rw [Bool.eq_iff_iff, contains_eq_mem, contains_eq_mem, decide_eq_true_eq, decide_eq_true_eq, mem_users]
  exact h.represents.mem_users huses

theorem thread_congr {users users' : List Nat} (h : users.contains = users'.contains)
    (overloads : Overloads) (a : Ambient) (routines : List Routine) :
    overloads.means users = overloads.means users' ∧
      Routine.gains a users overloads routines = Routine.gains a users' overloads routines ∧
      overloads.thread users a.name = overloads.thread users' a.name := by
  refine ⟨?_, ?_, ?_⟩
  · funext n args
    unfold Overloads.means
    rw [h]
  · unfold Routine.gains
    rw [h]
  · unfold Overloads.thread
    rw [h]

/-- **A pass over a text is a pass over its phase.** -/
theorem Of.pass {a : Ambient} (ha : a.Proper) {source : Text} {σ : Phase} (h : σ.Of source) :
    ∃ uses, Usage.discover source [a] = .ok uses ∧
      (Threading.users uses a.name σ.overloads).contains = (σ.users a).contains ∧
      ((Threading.users uses a.name σ.overloads).isEmpty → σ.thread a = σ) ∧
      ∃ target, threadValue source a (Threading.users uses a.name σ.overloads) σ.overloads = .ok target ∧
        σ.overloads.thread (Threading.users uses a.name σ.overloads) a.name = (σ.thread a).overloads ∧
        (σ.thread a).Of target := by
  obtain ⟨uses, huses, -⟩ := h.represents.discover [a]
  have hcontains := contains_users h huses
  refine ⟨uses, huses, hcontains, ?_, ?_⟩
  · intro hempty
    refine thread_of_users_nil (eq_nil_iff_forall_not_mem.mpr ?_)
    intro id hid
    have := congrFun hcontains id
    rw [isEmpty_iff.mp hempty, contains_iff_mem.mpr hid] at this
    cases this
  · obtain ⟨target, htarget, hrepresents⟩ := h.represents.threadValue ha
      (Threading.users uses a.name σ.overloads) h.words
    obtain ⟨hmeans, hgains, hthread⟩ := thread_congr hcontains σ.overloads a σ.outline.routines
    rw [hmeans, hgains] at hrepresents
    exact ⟨target, htarget, hthread, hrepresents, words_thread h.words a⟩

theorem Of.round (hambients : ∀ a ∈ ambients, a.Proper)
    (h : σ.Of source) :
    ∃ target, Threading.round ambients source σ.overloads = .ok (target, (σ.round ambients).overloads) ∧
      (σ.round ambients).Of target := by
  induction ambients generalizing source σ with
  | nil => exact ⟨source, rfl, h⟩
  | cons a rest ih =>
    have hrest := fun b hb => hambients b (mem_cons_of_mem a hb)
    obtain ⟨uses, huses, -, hempty, target, htarget, hthread, hof⟩ := h.pass (hambients a mem_cons_self)
    have hround : σ.round (a :: rest) = (σ.thread a).round rest := rfl
    unfold Threading.round
    simp only [huses, bind, Except.bind]
    split
    · next hnone =>
      rw [hround, hempty hnone]
      exact ih hrest h
    · rw [htarget, hthread]
      exact ih hrest hof

theorem Of.settled (h : σ.Of source) (ambients : List Ambient) :
    ∃ uses, Usage.discover source ambients = .ok uses ∧ (uses.isEmpty ↔ σ.settled ambients) := by
  obtain ⟨uses, huses, -⟩ := h.represents.discover ambients
  refine ⟨uses, huses, ?_⟩
  rw [settled_iff]
  exact h.represents.discover_isEmpty huses

theorem Of.rounds (hambients : ∀ a ∈ ambients, a.Proper)
    (h : σ.Of source) (n : Nat) :
    ∃ target, Threading.rounds ambients n source σ.overloads = .ok target ∧
      (σ.rounds ambients n).Of target := by
  induction n generalizing source σ with
  | zero => exact ⟨source, rfl, h⟩
  | succ n ih =>
    obtain ⟨uses, huses, hsettled⟩ := h.settled ambients
    unfold Threading.rounds Phase.rounds
    simp only [huses, bind, Except.bind]
    by_cases hempty : σ.settled ambients
    · rw [if_pos hempty, if_pos (hsettled.mpr hempty)]
      exact ⟨source, rfl, h⟩
    · rw [if_neg hempty, if_neg fun hc => hempty (hsettled.mp hc)]
      obtain ⟨target, htarget, hof⟩ := h.round hambients
      rw [htarget]
      exact ih hof

end Threading.Phase

open Threading

theorem Outline.isWord_name {r : Routine} (hr : r ∈ o.routines) : r.name.IsWord := by
  obtain ⟨p, hp, hr⟩ := mem_filterMap.mp hr
  obtain ⟨d, hd, rfl⟩ := Option.map_eq_some_iff.mp hr
  obtain ⟨-, -, -, hnamed, hname, -⟩ := Nest.eq_of_declaration? (Piece.eq_of_declaration? hd).1
  refine isWordByte_of_isIdentifier ?_
  simp only [Signature.unnamed, Bool.or_eq_false_iff, Bool.not_eq_false'] at hnamed
  rw [hname]
  exact hnamed.1.1.1

/-- The phase before a run. -/
def Threading.Phase.initial (o : Outline) (functions : List Signature) : Phase :=
  ⟨o, Overloads.collect functions⟩

theorem Represents.initial (h : Represents source o)
    (hfunctions : Program.functions source = .ok functions) :
    (Phase.initial o functions).Of source := by
  refine ⟨h, ?_⟩
  intro v hv
  obtain ⟨found, hfound, hmatches, -, -⟩ := h.functions
  rw [hfunctions] at hfound
  cases hfound
  obtain ⟨-, f, hf, hname, -⟩ := (Overloads.covers_collect functions).origin v hv
  obtain ⟨r, hr, hmatch⟩ := exists_of_mem_left hmatches hf
  rw [← hname, hmatch.name]
  exact Outline.isWord_name hr

/-- **Threading a program is a run of its phase.** -/
theorem Represents.lower (h : Represents source o)
    (hfunctions : Program.functions source = .ok functions)
    (hambients : ∀ a ∈ ambients, a.Proper) (mode : Propagation)
    (maxRounds : Option Nat) :
    ∃ reports target, Threading.lower mode ambients maxRounds source = .ok (reports, target) ∧
      ((Phase.initial o functions).rounds ambients
        (roundLimit mode ambients maxRounds functions)).Of target := by
  obtain ⟨target, htarget, hof⟩ := (h.initial hfunctions).rounds hambients
    (roundLimit mode ambients maxRounds functions)
  obtain ⟨uses, huses, -⟩ := hof.represents.discover ambients
  obtain ⟨found, hfound, -, -, -⟩ := hof.represents.functions
  have htarget' : rounds ambients (roundLimit mode ambients maxRounds functions) source
      (Overloads.collect functions) = .ok target := htarget
  have hreport : ∃ reports, report mode target uses = .ok reports := by
    unfold report
    split
    · exact ⟨_, rfl⟩
    · rw [hfound]
      exact ⟨_, rfl⟩
  obtain ⟨reports, hreport⟩ := hreport
  refine ⟨reports, target, ?_, hof⟩
  unfold Threading.lower
  simp only [hfunctions, bind, Except.bind, htarget', huses, hreport]
  rfl

end GlslToMetal
