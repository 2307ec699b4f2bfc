import GlslToMetal.Proofs.Ambient.Agreement

/-! The overloads that calls mean, when one name is declared with several numbers of parameters. A
call keeps step with its overload as long as it is taken for a call of it, or of one that is given the
same values. It may be taken for another when its last arguments are names of values: once these are
threaded into an overload that lacks them, the call reads as an extended call of that one. -/

namespace GlslToMetal

open List Text Nest Threading

variable {a b : Ambient} {users : List Nat} {o : Overloads} {name : Text}

namespace Overloads

/-- The first value that is threaded is the only one that an overload has then. -/
theorem getElem?_thread_unthreaded (hnone : ∀ v ∈ o.table, v.threaded = [])
    (ids : List Nat) (ambient : Text) (id : Nat) :
    (o.thread ids ambient).table[id]? =
      o.table[id]?.map fun v => ⟨v.name, v.arity, if ids.contains id then [ambient] else []⟩ := by
  rw [getElem?_thread]
  cases hv : o.table[id]? with
  | none => rfl
  | some v =>
    have hthreaded := hnone v (mem_of_getElem? hv)
    obtain ⟨name, arity, threaded⟩ := v
    dsimp only at hthreaded
    subst hthreaded
    simp only [Option.map_some]
    split <;> rfl

theorem Distinct.thread_unthreaded (h : o.Distinct)
    (hnone : ∀ v ∈ o.table, v.threaded = []) (ids : List Nat) (ambient : Text) :
    (o.thread ids ambient).Distinct := by
  refine h.of_table ?_
  intro id w hw
  rw [getElem?_thread_unthreaded hnone, Option.map_eq_some_iff] at hw
  obtain ⟨v, hv, rfl⟩ := hw
  exact ⟨v, hv, rfl, rfl⟩

end Overloads

namespace Threading.Pass

/-- A call that two passes in turn lead astray. Its last argument is the first value; the overload
with one parameter less gets this value and its own overload does not, so it is taken for a call of
the former; and the second value goes to one of the two only. -/
def Strays (a b : Ambient) (gained : Nat → List Ambient) (args : List Text) : Prop :=
  ∃ first, args = first ++ [a.name] ∧ a ∈ gained first.length ∧ a ∉ gained args.length ∧
    ¬ (b ∈ gained first.length ↔ b ∈ gained args.length)

theorem mem_given_pair (hne : a ≠ b) (us vs : List Nat) (i : Nat) :
    (a ∈ given [⟨a, us⟩, ⟨b, vs⟩] i ↔ us.contains i) ∧
      (b ∈ given [⟨a, us⟩, ⟨b, vs⟩] i ↔ vs.contains i) := by
  unfold given
  simp only [filter_cons, filter_nil]
  constructor <;> split <;> split <;> simp_all [eq_comm]

theorem mem_of_mem_gained {ps : List Pass} {k : Nat} {x : Ambient}
    (h : x ∈ gained o ps name k) : x ∈ ps.map (·.value) := by
  cases hi : o.find? name k with
  | none => simp [gained, hi] at h
  | some i =>
    rw [gained_eq hi, given, mem_map] at h
    obtain ⟨p, hp, rfl⟩ := h
    exact mem_map_of_mem (mem_of_mem_filter hp)

theorem Strays.mem_values {ps : List Pass}
    {args : List Text} (h : Strays a b (gained o ps name) args) :
    a ∈ ps.map (·.value) ∧ b ∈ ps.map (·.value) := by
  obtain ⟨first, -, ha, -, hb⟩ := h
  refine ⟨mem_of_mem_gained ha, ?_⟩
  by_contra hnot
  exact hb (iff_of_false (fun h => hnot (mem_of_mem_gained h)) fun h => hnot (mem_of_mem_gained h))

section TwoPasses

variable {o : Overloads} (hdistinct : o.Distinct) (hnone : ∀ v ∈ o.table, v.threaded = [])
  {name : Text}
include hdistinct hnone

/-- After one pass, an overload accepts a call of its name with as many arguments as it has
parameters by then, if the last is the value when it got the value. -/
theorem resolve?_thread (users : List Nat) (n : Text) {args' : List Text} {id' : Nat} {v : Overload}
    (hv : o.table[id']? = some v) (hname : v.name = name)
    (hargs : args'.drop v.arity = if users.contains id' then [n] else [])
    (hlen : v.arity + (if users.contains id' then [n] else []).length = args'.length)
    (hleast : ∀ {id'' : Nat} {w : Overload}, o.table[id'']? = some w → w.name = name →
      w.arity < v.arity → users.contains id'' → args'.drop w.arity = [n] → False) :
    (o.thread users n).resolve? name args' = some id' := by
  have htable := Overloads.getElem?_thread_unthreaded hnone users n
  refine (hdistinct.thread_unthreaded hnone users n).resolve? (by rw [htable, hv]; rfl) ?_ ?_
  · simp only [Overloads.accepts, Bool.and_eq_true, beq_iff_eq]
    exact ⟨⟨hname, hlen⟩, hargs⟩
  · intro w hw haccepts
    obtain ⟨id'', hid''⟩ := mem_iff_getElem?.mp hw
    rw [htable, Option.map_eq_some_iff] at hid''
    obtain ⟨w, hw', rfl⟩ := hid''
    simp only [Overloads.accepts, Bool.and_eq_true, beq_iff_eq] at haccepts
    obtain ⟨⟨hwname, hwlen⟩, hwargs⟩ := haccepts
    by_contra hlt
    rw [Nat.not_le] at hlt
    by_cases huser : users.contains id''
    · rw [if_pos huser] at hwargs
      exact hleast hw' hwname hlt huser hwargs
    · rw [if_neg huser] at hwlen
      dsimp only [length_nil] at hwlen hlt
      omega

variable {args : List Text} {id : Nat} (hid : o.find? name args.length = some id)
include hid

/-- Before anything is threaded, a call means the overload with as many parameters. -/
theorem resolve?_unthreaded : o.resolve? name args = some id := by
  obtain ⟨v, hv, rfl, harity⟩ := hdistinct.find?_eq_some_iff.mp hid
  have hlen : ∀ w ∈ o.table, Overloads.accepts w v.name args ↔ v.name = w.name ∧ w.arity = args.length := by
    intro w hw
    simp only [Overloads.accepts, hnone w hw, Bool.and_eq_true, beq_iff_eq, length_nil,
      Nat.add_zero, drop_eq_nil_iff]
    constructor
    · rintro ⟨⟨hname, harity⟩, -⟩
      exact ⟨hname.symm, harity⟩
    · rintro ⟨hname, harity⟩
      exact ⟨⟨hname.symm, harity⟩, Nat.le_of_eq harity.symm⟩
  have hmem := mem_of_getElem? hv
  refine hdistinct.resolve? hv ((hlen v hmem).mpr ⟨rfl, harity⟩) ?_
  intro w hw haccepts
  rw [harity, ((hlen w hw).mp haccepts).2]

theorem passed_singleton (p : Pass) : passed o name args [p] = given [p] id := by
  have := passed_concat o name args [] p
  rw [List.nil_append] at this
  rw [this]
  have hgiven := given_concat [] p id
  rw [List.nil_append] at hgiven
  rw [hgiven]
  simp [passed, given, after, Overloads.means, resolve?_unthreaded hdistinct hnone hid]

theorem resolve?_of_user (n : Text) (huser : users.contains id) :
    (o.thread users n).resolve? name (args ++ [n]) = some id := by
  obtain ⟨v, hv, hname, harity⟩ := hdistinct.find?_eq_some_iff.mp hid
  refine resolve?_thread hdistinct hnone users n hv hname ?_ ?_ ?_
  · rw [if_pos huser, harity, drop_left]
  · rw [if_pos huser, harity, length_append]
  · intro id' w _ _ hlt _ hdrop
    have := congrArg length hdrop
    rw [length_drop, length_append, length_singleton] at this
    omega

theorem resolve?_of_not_user {n : Text} (huser : users.contains id = false)
    (hfree : ∀ {first : List Text} {id' : Nat}, args = first ++ [n] →
      o.find? name first.length = some id' → users.contains id' = false) :
    (o.thread users n).resolve? name args = some id := by
  obtain ⟨v, hv, hname, harity⟩ := hdistinct.find?_eq_some_iff.mp hid
  refine resolve?_thread hdistinct hnone users n hv hname ?_ ?_ ?_
  · rw [huser, if_neg Bool.false_ne_true, harity, drop_length]
  · rw [huser, if_neg Bool.false_ne_true, harity, length_nil, Nat.add_zero]
  · intro id' w hw hwname hlt hcaptor hdrop
    have hargs : args = args.take w.arity ++ [n] := by rw [← hdrop, take_append_drop]
    have hlen : (args.take w.arity).length = w.arity := length_take_of_le (by omega)
    have := hfree hargs (hdistinct.find?_eq_some_iff.mpr ⟨w, hw, hwname, hlen.symm⟩)
    rw [hcaptor] at this
    cases this

/-- After two passes, a call has as many values as its overload if the overload that it was taken for
in the second got the second value with its own. -/
theorem length_passed_pair {a b : Ambient} {us vs : List Nat} {i : Nat}
    (hi : (o.thread us a.name).resolve? name (args ++ (given [⟨a, us⟩] id).map (·.name)) = some i) :
    (passed o name args [⟨a, us⟩, ⟨b, vs⟩]).length = (given [⟨a, us⟩, ⟨b, vs⟩] id).length ↔
      vs.contains i = vs.contains id := by
  have hpassed := passed_concat o name args [⟨a, us⟩] ⟨b, vs⟩
  have hgiven := given_concat [⟨a, us⟩] ⟨b, vs⟩ id
  have hmeans : (after o [⟨a, us⟩]).means vs name (args ++ (given [⟨a, us⟩] id).map (·.name)) =
      vs.contains i := by
    unfold Overloads.means
    exact congrArg (Option.any vs.contains) hi
  rw [passed_singleton hdistinct hnone hid, hmeans] at hpassed
  rw [singleton_append] at hpassed hgiven
  rw [hpassed, hgiven]
  cases vs.contains i <;> cases vs.contains id <;> simp

theorem length_passed_pair_iff (hne : a ≠ b) (us vs : List Nat) :
    (passed o name args [⟨a, us⟩, ⟨b, vs⟩]).length = (given [⟨a, us⟩, ⟨b, vs⟩] id).length ↔
      ¬ Strays a b (gained o [⟨a, us⟩, ⟨b, vs⟩] name) args := by
  have hgained : ∀ {k i : Nat}, o.find? name k = some i →
    (a ∈ gained o [⟨a, us⟩, ⟨b, vs⟩] name k ↔ us.contains i) ∧
        (b ∈ gained o [⟨a, us⟩, ⟨b, vs⟩] name k ↔ vs.contains i) := by
    intro k i hi
    rw [gained_eq hi]
    exact mem_given_pair hne us vs i
  have hlength := @length_passed_pair o hdistinct hnone name args id hid a b us vs
  have hgiven := given_concat [] ⟨a, us⟩ id
  rw [List.nil_append] at hgiven
  rw [hgiven] at hlength
  cases huser : us.contains id with
  | true =>
    rw [if_pos huser] at hlength
    rw [hlength (resolve?_of_user hdistinct hnone hid a.name huser)]
    refine iff_of_true rfl ?_
    rintro ⟨first, -, -, hnot, -⟩
    exact hnot ((hgained hid).1.mpr huser)
  | false =>
    simp only [huser, Bool.false_eq_true, if_false] at hlength
    by_cases hcaptor : ∃ first id', args = first ++ [a.name] ∧
      o.find? name first.length = some id' ∧ us.contains id'
    · obtain ⟨first, id', rfl, hid', hcaptor⟩ := hcaptor
      have hresolve := resolve?_of_user hdistinct hnone hid' a.name hcaptor
      rw [hlength (by simpa [given] using hresolve), Bool.eq_iff_iff, ← (hgained hid').2, ← (hgained hid).2]
      constructor
      · rintro hsame ⟨first', hfirst, -, -, hdiffers⟩
        rw [← append_cancel_right hfirst] at hdiffers
        exact hdiffers hsame
      · intro hkept
        by_contra hdiffers
        refine hkept ⟨first, rfl, (hgained hid').1.mpr hcaptor, ?_, hdiffers⟩
        rw [(hgained hid).1, huser]
        exact Bool.false_ne_true
    · have hresolve := resolve?_of_not_user (n := a.name) hdistinct hnone hid huser (by
        intro first id' hargs hid'
        by_contra hnot
        exact hcaptor ⟨first, id', hargs, hid', by simpa using hnot⟩)
      rw [hlength (by simpa [given] using hresolve)]
      refine iff_of_true rfl ?_
      rintro ⟨first, hargs, hmem, -, -⟩
      cases hid' : o.find? name first.length with
      | none => simp [gained, hid'] at hmem
      | some id' => exact hcaptor ⟨first, id', hargs, hid', (hgained hid').1.mp hmem⟩

/-- **At most two passes** leave a call with as many values as its overload got, unless it strays. -/
theorem length_passed_iff (hne : a ≠ b) {ps : List Pass}
    (hps : (ps.map (·.value)).Sublist [a, b]) :
    (passed o name args ps).length = (given ps id).length ↔ ¬ Strays a b (gained o ps name) args := by
  match ps, hps with
  | [], _ => exact iff_of_true rfl fun h => not_mem_nil h.mem_values.1
  | [p], _ =>
    refine iff_of_true (by rw [passed_singleton hdistinct hnone hid]) fun h => hne ?_
    obtain ⟨ha, hb⟩ := h.mem_values
    exact (mem_singleton.mp ha).trans (mem_singleton.mp hb).symm
  | [p, q], hps =>
    obtain ⟨x, us⟩ := p
    obtain ⟨y, vs⟩ := q
    have heq := hps.eq_of_length rfl
    simp only [map_cons, map_nil, cons.injEq, and_true] at heq
    obtain ⟨rfl, rfl⟩ := heq
    exact length_passed_pair_iff hdistinct hnone hid hne us vs
  | _ :: _ :: _ :: _, hps =>
    have := hps.length_le
    simp at this

end TwoPasses

end Threading.Pass

/-- A call that cannot be taken for a call with fewer parameters of a declared function of its name:
not all further arguments are names of values. -/
def Threading.Unmistakable (functions : List Signature) (name : Text) (args : List Text) : Prop :=
  ∀ g ∈ functions, g.name = name → g.arity < args.length →
    ∃ x ∈ args.drop g.arity, ∀ a ∈ Ambient.all, x ≠ a.name

/-- A call passes as many further arguments as the declarations of its overload have gained
parameters. -/
def Threading.KeepsTarget (gained : Nat → List Ambient) (args args' : List Text) : Prop :=
  args'.length = args.length + (gained args.length).length

/-- What the passes of a run tell of a threaded program. The declarations of a name with a number of
parameters gain the same ones. A call keeps its target if the passes in which it is taken for a call of
a user are as many as those that use its overload. It does so if it cannot be mistaken. After a single
hop it does so unless it strays. -/
structure Threading.TargetsTold (mode : Propagation) (source target : Text)
    (functions functions' : List Signature) (ps : List Pass) : Prop where
  declarations : List.Forall₂ (fun f f' => f'.name = f.name ∧
    f'.params.map Parameter.bare = f.params.map Parameter.bare ++
      (Pass.gained (Overloads.collect functions) ps f.name f.arity).map (·.parameter))
    functions functions'
  calls : ∀ f ∈ functions, ∃ calls calls', Call.argumentLists source.mask f.name = .ok calls ∧
    Call.argumentLists target.mask f.name = .ok calls' ∧
    List.Forall₂ (fun args args' => args.length = f.arity →
      (KeepsTarget (Pass.gained (Overloads.collect functions) ps f.name) args args' ↔
        (Pass.passed (Overloads.collect functions) f.name args ps).length =
          (Pass.gained (Overloads.collect functions) ps f.name args.length).length) ∧
      (Unmistakable functions f.name args →
        KeepsTarget (Pass.gained (Overloads.collect functions) ps f.name) args args') ∧
      (mode = .singleHop → (KeepsTarget (Pass.gained (Overloads.collect functions) ps f.name) args args' ↔
          ¬ Pass.Strays Ambient.resolution Ambient.time
            (Pass.gained (Overloads.collect functions) ps f.name) args)))
      calls calls'

/-- **When calls keep their targets**, in either mode and for every limit. -/
theorem Threading.lower_keepsTarget_iff {source : Text} {functions : List Signature}
    (hfunctions : Program.functions source = .ok functions) (h : Unshadowed source functions)
    (mode : Propagation) (maxRounds : Option Nat) :
    ∃ reports target functions' ps, lower mode Ambient.all maxRounds source = .ok (reports, target) ∧
      Program.functions target = .ok functions' ∧
      schedule mode Ambient.all maxRounds source = .ok ps ∧
      TargetsTold mode source target functions functions' ps := by
  obtain ⟨o, ho⟩ := h.toRegular.represents hfunctions
  have hfamily := Ambient.family_all
  obtain ⟨reports, target, hlower, hof⟩ := ho.lower hfunctions hfamily.proper mode maxRounds
  obtain ⟨ps, hps, hvalues, hfollows⟩ := ho.schedule hfunctions hfamily h.free mode maxRounds
  obtain ⟨functions', hfunctions', hmatches', -, -⟩ := hof.represents.functions
  have hcovers := Overloads.covers_collect functions
  refine ⟨reports, target, functions', ps, hlower, hfunctions', hps, ?_, ?_⟩
  · refine (hfollows.declarations ho hfunctions hmatches').imp ?_
    rintro f f' ⟨id, hv, hname, -, -, hparams⟩
    rw [Pass.gained_eq (hcovers.distinct.find?_eq_some_iff.mpr ⟨_, hv, rfl, rfl⟩)]
    exact ⟨hname, hparams⟩
  · intro f hf
    obtain ⟨i, hi⟩ := mem_iff_getElem?.mp hf
    obtain ⟨id, -, hv⟩ := hcovers.entered hi
    obtain ⟨calls, calls', hcalls, hcalls', hgains⟩ := hfollows.argumentLists ho hfunctions hof hf
    refine ⟨calls, calls', hcalls, hcalls', hgains.imp ?_⟩
    intro args args' hgains hlen
    have hid : (Overloads.collect functions).find? f.name args.length = some id :=
      hcovers.distinct.find?_eq_some_iff.mpr ⟨_, hv, rfl, hlen.symm⟩
    have hkeeps : KeepsTarget (Pass.gained (Overloads.collect functions) ps f.name) args args' ↔
        (Pass.passed (Overloads.collect functions) f.name args ps).length = (Pass.given ps id).length := by
      unfold KeepsTarget
      rw [Pass.gained_eq hid, hgains.extended.length, Nat.add_left_cancel_iff]
    refine ⟨by rw [hkeeps, Pass.gained_eq hid], ?_, ?_⟩
    · intro hclear
      rw [hkeeps, hgains.agreed ?_ hv rfl hlen.symm]
      intro v hv' hname hlt
      obtain ⟨-, g, hg, hgname, hgarity⟩ := hcovers.origin v hv'
      rw [← hgarity] at hlt ⊢
      exact hclear g hg (hgname.trans hname) hlt
    · intro hmode
      rw [hkeeps]
      exact Pass.length_passed_iff hcovers.distinct (fun v hv => (hcovers.origin v hv).1) hid
        (by decide) (hvalues hmode)

/-- Two overloads of which one uses the resolution and the other the time, and a call of the latter
that passes the resolution by hand. -/
def Threading.handPassed : Text :=
  (["float f(float a) { return a * iResolution.x; }\n",
    "float f(float a, vec2 b) { return a + b.x * iTime; }\n",
    "void mainImage(out vec4 c, in vec2 p) { c = vec4(f(p.x, iResolution)); }\n"] :
    List Text).flatten

theorem Threading.lower_keepsTarget_iff_handPassed : ∃ reports target functions' ps,
      lower .transitive Ambient.all none handPassed = .ok (reports, target) ∧
      Program.functions target = .ok functions' ∧
      schedule .transitive Ambient.all none handPassed = .ok ps ∧
      TargetsTold .transitive handPassed target (Program.declared handPassed) functions' ps := by
  have h : Program.functions handPassed = .ok (Program.declared handPassed) ∧
      Unshadowed handPassed (Program.declared handPassed) := by
    unfold handPassed
    repeat rw [ofString_ofList]
    decide +kernel
  exact lower_keepsTarget_iff h.1 h.2 .transitive none

/-- **Calls do not always keep their targets.** The first function gains the resolution, and the call
of the second is taken for a call of the first from then on. It does not get the time, which the
second function gains. -/
theorem Threading.lower_loses_target : ∃ reports target functions',
      lower .singleHop Ambient.all none handPassed = .ok (reports, target) ∧
      Program.functions target = .ok functions' ∧
      (Program.declared handPassed).map (·.name) = ["f", "f", "mainImage"] ∧
      (Program.declared handPassed).map (·.arity) = [1, 2, 2] ∧
      functions'.map (·.arity) = [2, 3, 2] ∧
      Call.argumentLists handPassed.mask "f" = .ok [["p.x", "iResolution"]] ∧
      Call.argumentLists target.mask "f" = .ok [["p.x", "iResolution"]] := by
  refine exists_lower_of_mem ?_
  unfold handPassed
  repeat rw [ofString_ofList]
  decide +kernel

end GlslToMetal
