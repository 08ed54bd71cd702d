import Tpool.Concurrency.System

/-!
# Recording a run

- `System.observe`: a transition system together with a record that each of its steps extends. No step reads the record.
- `Reachable.observed`: every run can be recorded. `Reachable.forget`: a recorded run is a run.
- `Precedes`: what comes before what in a record that is a list.
-/

namespace Concurrency.System

variable {σ α η : Type*}

/-- The system whose steps also write the record: `note s a h` is the record after the step `a` from `s`. -/
def observe (M : System σ α) (h : η) (note : σ → α → η → η) : System (σ × η) α where
  init := (M.init, h)
  step s a := (M.step s.1 a).map fun s' => (s', note s.1 a s.2)

variable {M : System σ α} {h0 : η} {note : σ → α → η → η} {ok : σ → α → Prop}

theorem observe_step {s s' : σ × η} {a : α} (h : (M.observe h0 note).step s a = some s') :
    M.step s.1 a = some s'.1 ∧ s'.2 = note s.1 a s.2 := by
  obtain ⟨t, ht, rfl⟩ := Option.map_eq_some_iff.mp h
  exact ⟨ht, rfl⟩

/-- A recorded run is a run. -/
theorem Reachable.forget {s : σ × η} (h : (M.observe h0 note).Reachable (fun s => ok s.1) s) : M.Reachable ok s.1 := by
  refine h.induct (I := fun s => M.Reachable ok s.1) Reachable.init ?_
  intro s a s' _ ha hs ih
  exact ih.step ha (observe_step hs).1

/-- A recorded run is a run, whatever its side condition says of the record. -/
theorem Reachable.forget_any {ok : σ × η → α → Prop} {s : σ × η} (h : (M.observe h0 note).Reachable ok s) :
    M.Reachable Anything s.1 :=
  (show (M.observe h0 note).Reachable (fun s => Anything s.1) s from h.any).forget

/-- Every run can be recorded. -/
theorem Reachable.observed {s : σ} (h : M.Reachable ok s) :
    ∃ r, (M.observe h0 note).Reachable (fun s => ok s.1) (s, r) := by
  refine h.induct (I := fun s => ∃ r, (M.observe h0 note).Reachable (fun s => ok s.1) (s, r))
    ⟨h0, Reachable.init⟩ ?_
  rintro s a s' _ ha hs ⟨r, hr⟩
  exact ⟨note s a r, hr.step (a := a) ha (by simp [observe, hs])⟩

end Concurrency.System

namespace Concurrency

variable {η : Type*}

/-- Before every `x` of the log there is something with `p`. -/
def Precedes (p : η → Prop) (x : η) (log : List η) : Prop :=
  ∀ before after, log = before ++ x :: after → ∃ y ∈ before, p y

variable {p : η → Prop} {x : η} {log new : List η}

theorem Precedes.nil : Precedes p x [] := fun before after h => by simp at h

/-- The log goes on. -/
theorem Precedes.append (h : Precedes p x log) (hn : (∃ y ∈ log, p y) ∨ x ∉ new) : Precedes p x (log ++ new) := by
  intro before after heq
  rcases List.append_eq_append_iff.mp heq with ⟨l, rfl, rfl⟩ | ⟨l, rfl, hl⟩
  · obtain ⟨y, hy, hp⟩ := hn.resolve_right (by simp)
    exact ⟨y, List.mem_append_left _ hy, hp⟩
  · cases l with
    | nil =>
      rw [List.nil_append] at hl
      subst hl
      simpa using hn
    | cons y l =>
      cases hl
      exact h before l rfl

end Concurrency
