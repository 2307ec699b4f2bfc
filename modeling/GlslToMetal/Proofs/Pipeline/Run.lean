import GlslToMetal.Pipeline.Run
import GlslToMetal.Proofs.Checked
import GlslToMetal.Proofs.Pipeline.Journal
import Mathlib.Data.List.DropRight

/-! What a run of a pipeline does. The stages that are not disabled are a list, and a run is the run
of this list from its first stage on: each stage takes what the one before it made and finds the
journal that the ones before it left, and the first one that fails ends it. What a run says is what
the stages said that it came to. -/

namespace GlslToMetal

open List Pipeline

/-- Stages one behind the other, the first one in front. -/
inductive Stages : Type → Type → Type 1 where
  | nil {α : Type} : Stages α α
  | cons {α β γ : Type} (s : Stage α β) (rest : Stages β γ) : Stages α γ

/-- A stage that a run came to, and what it pushed. -/
structure Visit where
  stage : String
  pushed : List Diagnostic

/-- The journal behind some visits: what they pushed is in it, and none of it is left to log. -/
def Pipeline.Journal.behind (j : Journal) (visits : List Visit) : Journal :=
  visits.foldl (fun j v => (j.pushAll v.pushed).flushed) j

/-- The visits of a run, and how it ended: with a result, or with the failure of its last visit. -/
abbrev Course (α : Type) := List Visit × Except StageError α

/-- Goes on with what was made and with the journal behind the visits; after a failure nothing more
is visited. -/
def Course.andThen {α β : Type} (c : Course α) (j : Journal)
    (next : α → Journal → Checked (Course β)) : Checked (Course β) :=
  match c.2 with
  | .error e => .ok (c.1, .error e)
  | .ok a => (next a (j.behind c.1)).map fun r => (c.1 ++ r.1, r.2)

/-- The visit of a stage. An error keeps its message and carries the name of the stage, whatever name
it had. -/
def Stage.visit {α β : Type} (s : Stage α β) (a : α) (j : Journal) : Checked (Course β) :=
  (s.run a j).map fun r => ([⟨s.name, r.1⟩], r.2.mapError fun e => ⟨s.name, e.message⟩)

namespace Stages

variable {α β γ : Type}

def append {α β γ : Type} : Stages α β → Stages β γ → Stages α γ
  | nil, more => more
  | cons s rest, more => cons s (rest.append more)

def names {α β : Type} : Stages α β → List String
  | nil => []
  | cons s rest => s.name :: rest.names

/-- Runs the stages from the first one on, up to the first that fails. -/
def run {α β : Type} : Stages α β → α → Journal → Checked (Course β)
  | nil, a, _ => .ok ([], .ok a)
  | cons s rest, a, j => s.visit a j >>= (·.andThen j rest.run)

/-- The stages before some stage run to their end, and this stage fails. What stands behind it has no
part in that. -/
def FailsAt (l : Stages α γ) (a : α) (j : Journal) (visits : List Visit) (e : StageError) : Prop :=
  ∃ (β δ : Type) (before : Stages α β) (s : Stage β δ) (behind : Stages δ γ)
    (earlier : List Visit) (b : β) (pushed : List Diagnostic) (inner : StageError),
    l = before.append (cons s behind) ∧ before.run a j = .ok (earlier, .ok b) ∧
      s.run b (j.behind earlier) = .ok (pushed, .error inner) ∧
      visits = earlier ++ [⟨s.name, pushed⟩] ∧ e = ⟨s.name, inner.message⟩

end Stages

theorem Stage.visit_cases {α β : Type} (s : Stage α β) (a : α) (j : Journal) :
    (∃ f, s.run a j = .error f ∧ s.visit a j = .error f) ∨
    (∃ pushed e, s.run a j = .ok (pushed, .error e) ∧
      s.visit a j = .ok ([⟨s.name, pushed⟩], .error ⟨s.name, e.message⟩)) ∨
    ∃ pushed b, s.run a j = .ok (pushed, .ok b) ∧
      s.visit a j = .ok ([⟨s.name, pushed⟩], .ok b) := by
  unfold visit
  cases hs : s.run a j with
  | error f => exact .inl ⟨f, rfl, rfl⟩
  | ok r =>
    obtain ⟨pushed, made⟩ := r
    cases made with
    | error e => exact .inr (.inl ⟨pushed, e, rfl, rfl⟩)
    | ok b => exact .inr (.inr ⟨pushed, b, rfl, rfl⟩)

namespace Pipeline.Journal

theorem behind_append (j : Journal) (visits later : List Visit) :
    j.behind (visits ++ later) = (j.behind visits).behind later := foldl_append

theorem items_behind (j : Journal) (visits : List Visit) :
    (j.behind visits).items = j.items ++ visits.flatMap Visit.pushed := by
  induction visits generalizing j with
  | nil => exact (append_nil _).symm
  | cons v visits ih =>
    refine (ih _).trans ?_
    rw [items_flushed, items_pushAll, flatMap_cons, append_assoc]

theorem fresh_behind {j : Journal} (h : j.fresh = []) (visits : List Visit) :
    (j.behind visits).fresh = [] := by
  induction visits generalizing j with
  | nil => exact h
  | cons v visits ih => exact ih (fresh_flushed _)

end Pipeline.Journal

namespace Stages

variable {α β γ : Type}

theorem append_nil (l : Stages α β) : l.append nil = l := by
  induction l with
  | nil => rfl
  | cons s rest ih => rw [append, ih]

/-- **A run of two lists** is a run of the first and, if it made something, a run of the second. -/
theorem run_append (l : Stages α β) (more : Stages β γ) (a : α) (j : Journal) :
    (l.append more).run a j = l.run a j >>= (·.andThen j more.run) := by
  induction l generalizing j with
  | nil =>
    change more.run a j = (more.run a j).map fun r => ([] ++ r.1, r.2)
    cases more.run a j <;> rfl
  | cons s rest ih =>
    rw [append, run, run]
    rcases s.visit_cases a j with ⟨f, -, hs⟩ | ⟨pushed, e, -, hs⟩ | ⟨pushed, b, -, hs⟩
    · rw [hs]
      rfl
    · rw [hs]
      rfl
    · rw [hs]
      change ((rest.append more).run b (j.behind _)).map _ =
        ((rest.run b (j.behind _)).map _) >>= _
      rw [ih]
      cases rest.run b (j.behind [⟨s.name, pushed⟩]) with
      | error f => rfl
      | ok r =>
        obtain ⟨visits, made⟩ := r
        cases made with
        | error e => rfl
        | ok c =>
          change ((more.run c ((j.behind _).behind visits)).map _).map _ =
            (more.run c (j.behind (_ ++ visits))).map _
          rw [← Journal.behind_append]
          cases more.run c (j.behind ([⟨s.name, pushed⟩] ++ visits)) <;> rfl

theorem map_stage_of_run {l : Stages α β} {a : α} {j : Journal} {visits : List Visit} {b : β}
    (h : l.run a j = .ok (visits, .ok b)) : visits.map Visit.stage = l.names := by
  induction l generalizing j visits with
  | nil =>
    cases h
    rfl
  | cons s rest ih =>
    rw [run] at h
    rcases s.visit_cases a j with ⟨f, -, hs⟩ | ⟨pushed, e, -, hs⟩ | ⟨pushed, c, -, hs⟩
    · rw [hs] at h
      cases h
    · rw [hs] at h
      cases h
    · rw [hs] at h
      obtain ⟨⟨later, made⟩, hrest, h⟩ := Checked.exists_of_map h
      cases h
      exact congrArg (s.name :: ·) (ih hrest)

/-- **A run that fails** has come to the stage that failed and to no stage behind it. -/
theorem run_eq_error_iff {l : Stages α β} {a : α} {j : Journal} {visits : List Visit}
    {e : StageError} : l.run a j = .ok (visits, .error e) ↔ l.FailsAt a j visits e := by
  constructor
  · intro h
    induction l generalizing j visits with
    | nil => cases h
    | cons s rest ih =>
      rw [run] at h
      rcases s.visit_cases a j with ⟨f, -, hs⟩ | ⟨pushed, inner, hrun, hs⟩ | ⟨pushed, c, hrun, hs⟩
      · rw [hs] at h
        cases h
      · rw [hs] at h
        cases h
        exact ⟨_, _, nil, s, rest, [], a, pushed, inner, rfl, rfl, hrun, rfl, rfl⟩
      · rw [hs] at h
        obtain ⟨⟨later, made⟩, hrest, h⟩ := Checked.exists_of_map h
        cases h
        obtain ⟨_, _, before, t, behind, earlier, b, told, inner, rfl, hbefore, ht, rfl, he⟩ :=
          ih hrest
        refine ⟨_, _, cons s before, t, behind, ⟨s.name, pushed⟩ :: earlier, b, told, inner, rfl,
          ?_, ht, rfl, he⟩
        rw [run, hs]
        change (before.run c (j.behind _)).map _ = _
        rw [hbefore]
        rfl
  · rintro ⟨_, _, before, s, behind, earlier, b, pushed, inner, rfl, hbefore, hs, rfl, rfl⟩
    rw [run_append, hbefore]
    change ((cons s behind).run b (j.behind earlier)).map _ = _
    rw [run, Stage.visit, hs]
    rfl

end Stages

/-- The lines of a visit: what its stage pushed, under the name of the stage. -/
def Visit.events (o : Pipeline.Options) (v : Visit) : List Event :=
  Diagnostic.events o.display (some v.stage) v.pushed

namespace Pipeline

variable {α β γ : Type}

/-- The stages that are left in: all of them, but the optional ones whose names are disabled. -/
def kept {α β : Type} (o : Options) : Pipeline α β → Stages α β
  | .empty => .nil
  | .stage front s => (front.kept o).append (.cons s .nil)
  | .optional front s =>
    if s.name ∈ o.disabledStages then front.kept o else (front.kept o).append (.cons s .nil)

theorem Options.enables_iff {o : Options} {stage : String} :
    o.enables stage ↔ stage ∉ o.disabledStages := by
  simp [Options.enables]

/-- The diagnostic lines of a log. All other events are the runner's own and name their stage. -/
def Trace.lines (t : Trace) : List Event := t.log.filter (·.stage.isNone)

/-- What some visits add to a trace. The log keeps up with them if nothing was left unlogged before. -/
structure Adds (o : Options) (t : Trace) (visits : List Visit) (t' : Trace) : Prop where
  journal : t'.journal = t.journal.behind visits
  lines : t.journal.fresh = [] → t'.lines = t.lines ++ visits.flatMap (Visit.events o)

namespace Adds

variable {o : Options} {t t' t'' : Trace} {visits later : List Visit}

theorem refl (o : Options) (t : Trace) : Adds o t [] t :=
  ⟨rfl, fun _ => (append_nil _).symm⟩

theorem trans (h : Adds o t visits t') (h' : Adds o t' later t'') :
    Adds o t (visits ++ later) t'' where
  journal := by rw [h'.journal, h.journal, Journal.behind_append]
  lines hfresh := by
    have hfresh' : t'.journal.fresh = [] := h.journal ▸ Journal.fresh_behind hfresh visits
    rw [h'.lines hfresh', h.lines hfresh, append_assoc, flatMap_append]

theorem append (h : Adds o t visits t') {events : List Event}
    (hevents : ∀ e ∈ events, e.stage ≠ none) : Adds o t visits (t'.append events) where
  journal := h.journal
  lines hfresh := by
    have hnone : events.filter (·.stage.isNone) = [] :=
      filter_eq_nil_iff.2 fun e he hstage => hevents e he (Option.isNone_iff_eq_none.1 hstage)
    rw [← h.lines hfresh, Trace.lines, Trace.append, filter_append, hnone, append_nil, ← Trace.lines]

end Adds

theorem stage_of_mem_diagnosticEvents {display : Display} {fallback : Option String}
    {ds : List Diagnostic} {e : Event} (h : e ∈ Diagnostic.events display fallback ds) :
    e.stage = none := by
  induction ds with
  | nil => cases h
  | cons d ds ih =>
    rw [Diagnostic.events] at h
    split at h
    · exact ih h
    · rcases mem_append.1 h with h | h
      · obtain ⟨line, -, rfl⟩ := mem_map.1 h
        rfl
      · exact ih h

/-- **One stage**: what it pushes goes to the items and, when nothing else is pending, alone to the
log. -/
theorem adds_flush (o : Options) (t : Trace) (v : Visit) :
    Adds o t [v] (Trace.flush { t with journal := t.journal.pushAll v.pushed } v.stage o) where
  journal := rfl
  lines hfresh := by
    have hpending : (t.journal.pushAll v.pushed).fresh = v.pushed := by
      rw [Journal.fresh_pushAll, hfresh, nil_append]
    have hnew : (v.events o).filter (·.stage.isNone) = v.events o :=
      filter_eq_self.2 fun e he => Option.isNone_iff_eq_none.2 (stage_of_mem_diagnosticEvents he)
    rw [Trace.lines, Trace.flush, filter_append, Journal.flushEvents, hpending, ← Visit.events,
      hnew, flatMap_singleton]
    rfl

/-- A run from a trace follows a course: it faults with it, or ends as it does and adds what its
visits add. -/
def Follows (o : Options) (t : Trace) (course : Checked (Course β))
    (run : Checked (Except StageError β × Trace)) : Prop :=
  match course with
  | .error f => run = .error f
  | .ok c => ∃ t', run = .ok (c.2, t') ∧ Adds o t c.1 t'

theorem Follows.map_eq {o : Options} {t : Trace} {course : Checked (Course β)}
    {run : Checked (Except StageError β × Trace)} (h : Follows o t course run) {τ : Type}
    {f : Except StageError β × Trace → τ} {g : Course β → τ}
    (hfg : ∀ c t', Adds o t c.1 t' → f (c.2, t') = g c) : run.map f = course.map g := by
  cases course with
  | error e =>
    cases h
    rfl
  | ok c =>
    obtain ⟨t', rfl, hadds⟩ := h
    exact congrArg Except.ok (hfg c t' hadds)

theorem follows_runStage (o : Options) (s : Stage α β) (a : α) (t : Trace) :
    Follows o t ((Stages.cons s .nil).run a t.journal) (runStage o s a t) := by
  rw [Stages.run, runStage]
  rcases s.visit_cases a t.journal with ⟨f, hrun, hs⟩ | ⟨pushed, e, hrun, hs⟩ | ⟨pushed, b, hrun, hs⟩
  · rw [hrun, hs]
    rfl
  · rw [hrun, hs]
    exact ⟨_, rfl, adds_flush o t ⟨s.name, pushed⟩⟩
  · rw [hrun, hs]
    refine ⟨_, rfl, (adds_flush o t ⟨s.name, pushed⟩).append fun e he => ?_⟩
    unfold snapshotEvents at he
    split at he
    · obtain ⟨text, -, rfl⟩ := mem_map.1 he
      exact Option.some_ne_none _
    · cases he

/-- Goes on where a run made something. -/
def proceed (next : β → Trace → Checked (Except StageError γ × Trace)) :
    Except StageError β × Trace → Checked (Except StageError γ × Trace)
  | (.ok b, t) => next b t
  | (.error e, t) => .ok (.error e, t)

theorem Follows.andThen {o : Options} {t : Trace} {course : Checked (Course β)}
    {run : Checked (Except StageError β × Trace)} (h : Follows o t course run)
    {more : β → Journal → Checked (Course γ)}
    {next : β → Trace → Checked (Except StageError γ × Trace)}
    (hnext : ∀ b t, Follows o t (more b t.journal) (next b t)) :
    Follows o t (course >>= (·.andThen t.journal more)) (run >>= proceed next) := by
  cases course with
  | error f =>
    cases h
    rfl
  | ok c =>
    obtain ⟨visits, made⟩ := c
    obtain ⟨t', rfl, hadds⟩ := h
    cases made with
    | error e => exact ⟨t', rfl, hadds⟩
    | ok b =>
      change Follows o t ((more b (t.journal.behind visits)).map _) (next b t')
      have hmore := hnext b t'
      rw [hadds.journal] at hmore
      cases hb : more b (t.journal.behind visits) with
      | error f =>
        rw [hb] at hmore
        exact hmore
      | ok c =>
        rw [hb] at hmore
        obtain ⟨t'', hrun, hlater⟩ := hmore
        exact ⟨t'', hrun, hadds.trans hlater⟩

/-- **A run of a pipeline** is a run of the stages that are left in. -/
theorem follows_run (o : Options) (p : Pipeline α β) (a : α) (t : Trace) :
    Follows o t ((p.kept o).run a t.journal) (p.run o a t) := by
  induction p generalizing t with
  | empty => exact ⟨t, rfl, Adds.refl o t⟩
  | stage front s ih =>
    have hrun : (front.stage s).run o a t = front.run o a t >>= proceed (runStage o s) := rfl
    rw [kept, Stages.run_append, hrun]
    exact (ih t).andThen (follows_runStage o s)
  | optional front s ih =>
    by_cases hs : s.name ∈ o.disabledStages
    · have hrun : (front.optional s).run o a t =
          front.run o a t >>= proceed fun b t => .ok (.ok b, t.append [skipped s.name]) := by
        rw [run]
        simp only [Options.enables_iff, hs, not_true_eq_false, if_false]
        rfl
      rw [kept, if_pos hs, ← (front.kept o).append_nil, Stages.run_append, hrun]
      refine (ih t).andThen fun b t => ⟨_, rfl, (Adds.refl o t).append fun e he => ?_⟩
      rw [mem_singleton.1 he]
      exact Option.some_ne_none _
    · have hrun : (front.optional s).run o a t =
          front.run o a t >>= proceed (runStage o s) := by
        rw [run]
        simp only [Options.enables_iff, hs, not_false_eq_true, if_true]
        rfl
      rw [kept, if_neg hs, Stages.run_append, hrun]
      exact (ih t).andThen (follows_runStage o s)

/-- **Disabled stages are left out, and a failure is contained**: a run ends as the run of the stages
that are left in, with what these pushed behind the items that were there. Either it comes to all of
them, or the first that fails is the last one that runs, and the error has its name and the message
that it gave. -/
theorem run_eq_run_kept (p : Pipeline α β) (o : Options) (a : α) (t : Trace) :
    ((p.run o a t).map fun r => (r.1, r.2.journal.items)) =
        ((p.kept o).run a t.journal).map
          (fun c => (c.2, t.journal.items ++ c.1.flatMap Visit.pushed)) ∧
      (∀ visits b, (p.kept o).run a t.journal = .ok (visits, .ok b) →
        visits.map Visit.stage = (p.kept o).names) ∧
      ∀ visits e, (p.kept o).run a t.journal = .ok (visits, .error e) ↔
        (p.kept o).FailsAt a t.journal visits e := by
  refine ⟨(follows_run o p a t).map_eq fun c t' hadds => ?_, fun _ _ => Stages.map_stage_of_run,
    fun _ _ => Stages.run_eq_error_iff⟩
  rw [hadds.journal, Journal.items_behind]

end Pipeline

end GlslToMetal
