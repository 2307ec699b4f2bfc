import GlslToMetal.Pipeline.Journal

/-! A journal over its operations. Pushing adds to the diagnostics that are pending and flushing hands
these to the log, so what was handed to the log and what is pending are always the diagnostics in the
order in which they were pushed. -/

namespace GlslToMetal.Pipeline.Journal

open List

theorem pushAll_eq (j : Journal) (ds : List Diagnostic) :
    j.pushAll ds = ⟨j.items ++ ds, j.pending + ds.length⟩ := by
  unfold pushAll
  induction ds generalizing j with
  | nil => simp
  | cons d ds ih =>
    rw [foldl_cons, ih]
    simp [push, Nat.add_assoc, Nat.add_comm 1]

@[simp] theorem items_pushAll (j : Journal) (ds : List Diagnostic) :
    (j.pushAll ds).items = j.items ++ ds := by
  rw [pushAll_eq]

@[simp] theorem items_flushed (j : Journal) : j.flushed.items = j.items := rfl

@[simp] theorem pending_flushed (j : Journal) : j.flushed.pending = 0 := rfl

theorem fresh_flushed (j : Journal) : j.flushed.fresh = [] := by
  rw [fresh, items_flushed, pending_flushed, Nat.sub_zero, drop_length]

/-- What was pending stays pending, and what is pushed comes behind it. -/
theorem fresh_pushAll (j : Journal) (ds : List Diagnostic) : (j.pushAll ds).fresh = j.fresh ++ ds := by
  have hstart : j.items.length + ds.length - (j.pending + ds.length) = j.items.length - j.pending := by omega
  rw [pushAll_eq, fresh, length_append, hstart, drop_append_of_le_length (Nat.sub_le _ _), ← fresh]

/-- What can be done to a journal. -/
inductive Operation where
  | push (d : Diagnostic)
  /-- Logs what is pending, under the name of a stage. -/
  | flush (stage : String) (o : Options)

namespace Operation

def apply (j : Journal) : Operation → Journal
  | push d => j.push d
  | flush _ _ => j.flushed

end Operation

/-- The journal behind some operations. -/
def after (j : Journal) (ops : List Operation) : Journal := ops.foldl Operation.apply j

end GlslToMetal.Pipeline.Journal
