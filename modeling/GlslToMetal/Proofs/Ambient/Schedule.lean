import GlslToMetal.Proofs.Ambient.Given

/-! The passes of a run, and what they do to one call. An overload gets the values of the passes that
it uses. A call gets those of the passes that use the overload it is taken for, and this need not be
the overload it was written for: once a value is threaded, an overload with fewer parameters accepts
the calls that pass this value by hand. -/

namespace GlslToMetal

open List Text Nest Threading

variable {args args' : List Text} {σ : Phase} {name source : Text}

namespace Threading

/-- A pass over a program: a value and the overloads that it is threaded into. -/
structure Pass where
  value : Ambient
  users : List Nat

/-- The passes of a round. -/
def roundPasses : List Ambient → Text → Overloads → Checked (List Pass)
  | [], _, _ => return []
  | a :: rest, source, overloads => do
    let users := users (← Usage.discover source [a]) a.name overloads
    if users.isEmpty then roundPasses rest source overloads
    else
      let threaded ← threadValue source a users overloads
      return ⟨a, users⟩ :: (← roundPasses rest threaded (overloads.thread users a.name))

/-- The passes of at most `n` rounds. -/
def passes (ambients : List Ambient) : Nat → Text → Overloads → Checked (List Pass)
  | 0, _, _ => return []
  | n + 1, source, overloads => do
    if (← Usage.discover source ambients).isEmpty then return []
    let (next, nextOverloads) ← round ambients source overloads
    return (← roundPasses ambients source overloads) ++ (← passes ambients n next nextOverloads)

/-- The passes by which values are threaded through a program. -/
def schedule (mode : Propagation) (ambients : List Ambient) (maxRounds : Option Nat)
    (source : Text) : Checked (List Pass) := do
  let functions ← Program.functions source
  passes ambients (roundLimit mode ambients maxRounds functions) source (Overloads.collect functions)

namespace Pass

/-- The values that an overload is given. -/
def given (ps : List Pass) (id : Nat) : List Ambient :=
  (ps.filter (·.users.contains id)).map (·.value)

/-- The overloads after some passes. -/
def after (overloads : Overloads) (ps : List Pass) : Overloads :=
  ps.foldl (fun o p => o.thread p.users p.value.name) overloads

/-- What one more pass does to a call that passes some values already. -/
def follow (name : Text) (args : List Text) (s : Overloads × List Ambient) (p : Pass) :
    Overloads × List Ambient :=
  (s.1.thread p.users p.value.name,
    if s.1.means p.users name (args ++ s.2.map (·.name)) then s.2 ++ [p.value] else s.2)

/-- The values that a call passes behind its arguments after some passes: in each of them it gets the
value if it is taken for a call of a user. -/
def passed (overloads : Overloads) (name : Text) (args : List Text) (ps : List Pass) : List Ambient :=
  (ps.foldl (follow name args) (overloads, [])).2

/-- The values that the declarations of a name with a number of parameters are given. -/
def gained (overloads : Overloads) (ps : List Pass) (name : Text) (arity : Nat) : List Ambient :=
  (overloads.find? name arity).elim [] (given ps)

theorem gained_eq {overloads : Overloads} {arity id : Nat}
    (h : overloads.find? name arity = some id) (ps : List Pass) :
    gained overloads ps name arity = given ps id := by
  unfold gained
  rw [h]
  rfl

theorem given_concat (ps : List Pass) (p : Pass) (id : Nat) :
    given (ps ++ [p]) id = if p.users.contains id then given ps id ++ [p.value] else given ps id := by
  unfold given
  rw [filter_append, map_append]
  split <;> simp_all

theorem after_concat (overloads : Overloads) (ps : List Pass) (p : Pass) :
    after overloads (ps ++ [p]) = (after overloads ps).thread p.users p.value.name := by
  unfold after
  rw [foldl_append]
  rfl

theorem foldl_follow_fst (name : Text) (args : List Text) (s : Overloads × List Ambient)
    (ps : List Pass) : (ps.foldl (follow name args) s).1 = after s.1 ps := by
  induction ps generalizing s with
  | nil => rfl
  | cons p ps ih => exact ih (follow name args s p)

theorem passed_concat (overloads : Overloads) (name : Text) (args : List Text) (ps : List Pass)
    (p : Pass) :
    passed overloads name args (ps ++ [p]) = if (after overloads ps).means p.users name
          (args ++ (passed overloads name args ps).map (·.name)) then
        passed overloads name args ps ++ [p.value]
      else passed overloads name args ps := by
  unfold passed
  rw [foldl_append, ← foldl_follow_fst name args (overloads, []) ps]
  rfl

end Pass

end Threading

/-! What a call means depends on its words only. -/

theorem evolved_symm {s t : Text} (h : Evolved s t) : Evolved t s := by
  unfold Evolved at *
  grind

theorem Overloads.resolve?_congr {o : Overloads}
    (h : ∀ v ∈ o.table, accepts v name args = accepts v name args') :
    o.resolve? name args = o.resolve? name args' := by
  rw [resolve?_eq, resolve?_eq]
  congr 1
  refine foldl_ext _ _ _ fun best x hx => ?_
  unfold better
  rw [h x.1 (mem_of_getElem? (mk_mem_zipIdx_iff_getElem?.mp hx))]

theorem Overloads.accepts_evolved {v : Overload} (hv : ∀ t ∈ v.threaded, t.IsWord) (name : Text)
    (h : List.Forall₂ Evolved args args') :
    accepts v name args = accepts v name args' := by
  have hdrop : ∀ {xs ys : List Text}, List.Forall₂ Evolved xs ys → xs.drop v.arity = v.threaded →
      ys.drop v.arity = v.threaded := by
    intro xs ys hxy hxs
    have hbehind := forall₂_drop v.arity hxy
    rw [hxs] at hbehind
    exact Phase.eq_of_forall₂_evolved hbehind hv
  unfold accepts
  rw [h.length_eq]
  congr 1
  rw [Bool.eq_iff_iff, beq_iff_eq, beq_iff_eq]
  exact ⟨hdrop h, hdrop (h.flip.imp fun _ _ => evolved_symm)⟩

namespace Threading.Phase

/-- A phase after some passes since the first one: declarations and calls have what the passes gave
to them. -/
structure Follows (ambients : List Ambient) (σ₀ σ : Phase) (ps : List Pass) : Prop
    extends Given ambients σ₀ σ (Pass.given ps) where
  overloads : σ.overloads = Pass.after σ₀.overloads ps
  calls : List.Forall₂ (fun c₀ c => CallGains ambients σ₀ (Pass.given ps) c₀ c
    (Pass.passed σ₀.overloads c₀.1 c₀.2 ps)) σ₀.calls σ.calls

section Step

variable {ambients : List Ambient} (hambients : Ambient.Family ambients) {σ₀ σ : Phase}

theorem follows_initial (hvalid : σ₀.Valid) (hnone : ∀ v ∈ σ₀.overloads.table, v.threaded = []) :
    Follows ambients σ₀ σ₀ [] where
  toGiven := given_initial ambients hvalid hnone
  overloads := rfl
  calls := forall₂_same.mpr fun c _ => callGains_nil ambients σ₀ c

include hambients

/-- A call is taken for the overload that its words tell, whatever its other arguments become. -/
theorem Given.resolve?_evolved {given : Nat → List Ambient} (h : Given ambients σ₀ σ given)
    (name : Text) (hargs : List.Forall₂ Evolved args args') :
    σ.overloads.resolve? name args = σ.overloads.resolve? name args' := by
  refine Overloads.resolve?_congr fun v hv => Overloads.accepts_evolved ?_ name hargs
  obtain ⟨id, hid⟩ := mem_iff_getElem?.mp hv
  rw [h.table, Option.map_eq_some_iff] at hid
  obtain ⟨w, -, rfl⟩ := hid
  intro t ht
  obtain ⟨a, ha, rfl⟩ := mem_map.mp ht
  exact (hambients.proper a (h.subset id a ha)).word

/-- **One more pass.** -/
theorem Follows.thread (hdistinct : σ₀.overloads.Distinct)
    (hfree : ∀ r ∈ σ₀.routines, ∀ a ∈ ambients, r.hasParam a.name = false) {ps : List Pass}
    (h : Follows ambients σ₀ σ ps) {a : Ambient} (ha : a ∈ ambients) {users : List Nat}
    (husers : users.contains = (σ.users a).contains) :
    Follows ambients σ₀ (σ.thread a) (ps ++ [⟨a, users⟩]) := by
  have hgive : Pass.given (ps ++ [⟨a, users⟩]) = σ.give a (Pass.given ps) := by
    funext id
    rw [Pass.given_concat, husers]
    rfl
  obtain ⟨hmeans, -, hthread⟩ := thread_congr husers σ.overloads a σ.routines
  refine ⟨?_, ?_, ?_⟩
  · rw [hgive]
    exact h.toGiven.thread hambients hfree ha
  · rw [Pass.after_concat, ← h.overloads]
    exact hthread.symm
  · rw [hgive]
    refine forall₂_comp ?_ h.calls (h.valid.calls_thread (hambients.proper a ha))
    intro c₀ c c' hc hcalled
    have hmeant : σ.meant a c.1 c.2 = (Pass.after σ₀.overloads ps).means users c₀.1
        (c₀.2 ++ (Pass.passed σ₀.overloads c₀.1 c₀.2 ps).map (·.name)) := by
      obtain ⟨hname, args, hargs, hlist⟩ := hc.extended
      rw [← h.overloads, meant, ← hmeans, hname, hlist]
      unfold Overloads.means
      rw [h.resolve?_evolved hambients c₀.1
        (rel_append hargs (forall₂_same.mpr fun _ _ => .inl rfl))]
    rw [Pass.passed_concat, ← hmeant]
    exact h.callGains hambients hdistinct ha hc hcalled

end Step

section Run

variable {ambients : List Ambient} (hambients : Ambient.Family ambients) {σ₀ : Phase}
  (hdistinct : σ₀.overloads.Distinct)
  (hfree : ∀ r ∈ σ₀.routines, ∀ a ∈ ambients, r.hasParam a.name = false)
include hambients hdistinct hfree

theorem Follows.round {xs : List Ambient} (hxs : ∀ a ∈ xs, a ∈ ambients)
    (hof : σ.Of source) {ps : List Pass} (h : Follows ambients σ₀ σ ps) :
    ∃ qs, roundPasses xs source σ.overloads = .ok qs ∧ (qs.map (·.value)).Sublist xs ∧
      Follows ambients σ₀ (σ.round xs) (ps ++ qs) := by
  induction xs generalizing σ source ps with
  | nil => exact ⟨[], rfl, .slnil, by rwa [List.append_nil]⟩
  | cons a xs ih =>
    have hrest := fun b hb => hxs b (mem_cons_of_mem a hb)
    have ha := hxs a mem_cons_self
    obtain ⟨uses, huses, hcontains, hempty, target, htarget, hthread, hof'⟩ :=
      hof.pass (hambients.proper a ha)
    have hround : σ.round (a :: xs) = (σ.thread a).round xs := rfl
    unfold roundPasses
    simp only [huses, bind, Except.bind]
    split
    · next hnone =>
      rw [hround, hempty hnone]
      obtain ⟨qs, hqs, hvalues, hfollows⟩ := ih hrest hof h
      exact ⟨qs, hqs, hvalues.cons a, hfollows⟩
    · obtain ⟨qs, hqs, hvalues, hfollows⟩ :=
        ih hrest hof' (h.thread hambients hdistinct hfree ha hcontains)
      rw [htarget, hthread]
      simp only [hqs]
      refine ⟨_, rfl, hvalues.cons_cons a, ?_⟩
      rwa [List.append_assoc] at hfollows

theorem Follows.rounds (hof : σ.Of source) {ps : List Pass}
    (h : Follows ambients σ₀ σ ps) (n : Nat) :
    ∃ qs, passes ambients n source σ.overloads = .ok qs ∧ (n = 1 → (qs.map (·.value)).Sublist ambients) ∧
      Follows ambients σ₀ (σ.rounds ambients n) (ps ++ qs) := by
  induction n generalizing σ source ps with
  | zero => exact ⟨[], rfl, fun _ => List.nil_sublist ambients, by rwa [List.append_nil]⟩
  | succ n ih =>
    obtain ⟨uses, huses, hsettled⟩ := hof.settled ambients
    unfold passes Phase.rounds
    simp only [huses, bind, Except.bind]
    by_cases hempty : σ.settled ambients
    · rw [if_pos hempty, if_pos (hsettled.mpr hempty)]
      exact ⟨[], rfl, fun _ => List.nil_sublist ambients, by rwa [List.append_nil]⟩
    · rw [if_neg hempty, if_neg fun hc => hempty (hsettled.mp hc)]
      obtain ⟨target, htarget, hof'⟩ := hof.round hambients.proper
      obtain ⟨qs, hqs, hvalues, hfollows⟩ :=
        h.round hambients hdistinct hfree (fun a ha => ha) hof
      obtain ⟨qs', hqs', -, hfollows'⟩ := ih hof' hfollows
      simp only [htarget, hqs, hqs']
      refine ⟨_, rfl, ?_, ?_⟩
      · intro hn
        obtain rfl : n = 0 := by omega
        cases hqs'
        rwa [List.append_nil]
      · rwa [List.append_assoc] at hfollows'

end Run

end Threading.Phase

/-- **The passes of a program account for its declarations and its calls.** -/
theorem Represents.schedule {o : Outline} (h : Represents source o)
    {functions : List Signature} (hfunctions : Program.functions source = .ok functions)
    {ambients : List Ambient} (hambients : Ambient.Family ambients)
    (hfree : ∀ f ∈ functions, ∀ a ∈ ambients, f.hasParam a.name = false) (mode : Propagation)
    (maxRounds : Option Nat) :
    ∃ ps, schedule mode ambients maxRounds source = .ok ps ∧
      (mode = .singleHop → (ps.map (·.value)).Sublist ambients) ∧
      Phase.Follows ambients (Phase.initial o functions) ((Phase.initial o functions).rounds ambients
        (roundLimit mode ambients maxRounds functions)) ps := by
  have hcovers := Overloads.covers_collect functions
  have hdistinct : (Phase.initial o functions).overloads.Distinct := hcovers.distinct
  obtain ⟨ps, hps, hvalues, hfollows⟩ := Phase.Follows.rounds hambients hdistinct
    (h.free_initial hfunctions hfree) (h.initial hfunctions)
    (Phase.follows_initial (h.valid_initial hfunctions) fun v hv => (hcovers.origin v hv).1)
    (roundLimit mode ambients maxRounds functions)
  refine ⟨ps, ?_, ?_, hfollows⟩
  · unfold Threading.schedule
    simp only [hfunctions, bind, Except.bind]
    exact hps
  · rintro rfl
    exact hvalues rfl

end GlslToMetal
