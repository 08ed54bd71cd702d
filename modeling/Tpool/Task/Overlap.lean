import Mathlib.Logic.Function.Basic
import Tpool.Task.TaskBase

/-!
# Runs of one task that overlap

- `Runners`: a task and, for each of those that may be in its `Run`, where it is there.
- `Runners.Separate`: a runner makes its check only when no other is between its own check and its last write.
- `Truthful`: at most one runner is between those two, its `DoRun` shows in the state, and once the task is cancelled,
  or is about to be, none is. Steps of separate runners keep it (`Truthful.run`), and so do those who call, cancel and
  leave (`Truthful.frame`).
-/

namespace Tpool.TaskBase

/-- Between the check that lets `Run` go on and its write of `FINISHED`. -/
def RunPC.active : RunPC → Bool
  | .setRunning | .doRun | .setFinished => true
  | _ => false

/-- A task and where each of `R` is in its `Run`, if it is. -/
structure Runners (R W : Type*) where
  task : TaskBase W
  pc : R → Option RunPC

variable {R W : Type*}

namespace Runners

/-- `r` does not make its check while another is active. -/
def Separate (x : Runners R W) (r : R) : Prop :=
  x.pc r = some .checkCancellation → ∀ r', r' ≠ r → ∀ p, x.pc r' = some p → p.active = false

/-- No step of `Run`: runners that are not active come to its beginning or leave, and the request stays. -/
structure Frame (x x' : Runners R W) : Prop where
  state : x'.task.state = x.task.state
  isRequestCancel : x.task.isRequestCancel = true → x'.task.isRequestCancel = true
  pc : ∀ r, x'.pc r = x.pc r ∨
    (∀ p, x.pc r = some p → p.active = false) ∧ ∀ p, x'.pc r = some p → p = .checkCancellation

/-- The runner `r` moves to `p` and leaves the task in `b`. -/
def goto [DecidableEq R] (x : Runners R W) (r : R) (b : TaskBase W) (p : RunPC) : Runners R W :=
  ⟨b, Function.update x.pc r (some p)⟩

end Runners

/-- What the state says is so. -/
structure Truthful (x : Runners R W) : Prop where
  one : ∀ r r' p p', x.pc r = some p → x.pc r' = some p' → p.active = true → p'.active = true → r = r'
  running : ∀ r, x.pc r = some .doRun ∨ x.pc r = some .setFinished → x.task.state = .running
  cancelled : (x.task.state = .cancelled ∨ ∃ r, x.pc r = some .setCancelled) →
    x.task.isRequestCancel = true ∧ ∀ r p, x.pc r = some p → p.active = false

variable {x x' : Runners R W}

theorem Truthful.frame (hi : Truthful x) (h : x.Frame x') : Truthful x' := by
  have hpc : ∀ {r p}, x'.pc r = some p → p ≠ .checkCancellation → x.pc r = some p := by
    intro r p hp hne
    rcases h.pc r with heq | ⟨-, hnew⟩
    · rw [← heq]; exact hp
    · exact absurd (hnew p hp) hne
  have hactive : ∀ {r p}, x'.pc r = some p → p.active = true → x.pc r = some p := by
    intro r p hp ha
    refine hpc hp ?_
    rintro rfl
    cases ha
  constructor
  · intro r r' p p' hp hp' ha ha'
    exact hi.one r r' p p' (hactive hp ha) (hactive hp' ha') ha ha'
  · intro r hr
    rw [h.state]
    exact hi.running r (hr.imp (fun h => hpc h (by simp)) fun h => hpc h (by simp))
  · intro hc
    rw [h.state] at hc
    obtain ⟨hf, hnone⟩ := hi.cancelled (hc.imp_right fun ⟨r, hr⟩ => ⟨r, hpc hr (by simp)⟩)
    refine ⟨h.isRequestCancel hf, fun r p hp => ?_⟩
    by_contra ha
    rw [Bool.not_eq_false] at ha
    have := hnone r p (hactive hp ha)
    rw [ha] at this; cases this

variable {r : R} {b b' : TaskBase W} {e : Exit} {p p' : RunPC}

/-- A step to where `Run` is active comes from its check or from where it was active. -/
theorem run_active (h : b.run p e = some (b', p')) (ha : p'.active = true) :
    p = .checkCancellation ∨ p.active = true := by
  rcases run_cases h with ⟨rfl, -, -⟩ | ⟨-, -, rfl⟩ | ⟨-, -, rfl⟩ | ⟨-, -, rfl⟩
    | ⟨-, ⟨rfl, -⟩ | ⟨rfl, -⟩ | ⟨-, rfl | rfl⟩⟩
  · exact Or.inr rfl
  · cases ha
  · cases ha
  · cases ha
  · exact Or.inl rfl
  · exact Or.inr rfl
  · cases ha
  · cases ha

/-- While a runner is active, or makes its check, no other is active. -/
theorem Truthful.alone (hi : Truthful x) (hp : x.pc r = some p) (hsep : x.Separate r)
    (h : p = .checkCancellation ∨ p.active = true) {r' : R} (hr' : r' ≠ r) {q : RunPC} (hq : x.pc r' = some q) :
    q.active = false := by
  rcases h with rfl | ha
  · exact hsep hp r' hr' q hq
  · by_contra hqa
    exact hr' (hi.one r' r q p hq hp (by simpa using hqa) ha)

/-- Once cancelled, a task stays so. -/
theorem Truthful.run_keeps (hi : Truthful x) (hp : x.pc r = some p) (h : x.task.run p e = some (b, p'))
    (hc : x.task.state = .cancelled) : b.state = .cancelled := by
  have hinactive := (hi.cancelled (Or.inl hc)).2 r p hp
  rcases run_cases h with ⟨rfl, -, -⟩ | ⟨rfl, -, -⟩ | ⟨-, rfl, -⟩ | ⟨-, rfl, -⟩ | ⟨rfl, -⟩
  · cases hinactive
  · cases hinactive
  · rfl
  · exact hc
  · exact hc

section Run

variable [DecidableEq R]

theorem Runners.goto_self (x : Runners R W) (r : R) (b : TaskBase W) (p : RunPC) : (x.goto r b p).pc r = some p := by
  simp [goto]

theorem Runners.goto_of_ne (x : Runners R W) {r r' : R} (b : TaskBase W) (p : RunPC) (h : r' ≠ r) :
    (x.goto r b p).pc r' = x.pc r' := by
  simp [goto, h]

/-- A runner that stops being active leaves nobody active, when no other was. -/
theorem Runners.goto_inactive (hp' : p'.active = false)
    (hother : ∀ r', r' ≠ r → ∀ q, x.pc r' = some q → q.active = false) (r' : R) (q : RunPC)
    (hq : (x.goto r b p').pc r' = some q) : q.active = false := by
  by_cases hr : r' = r
  · subst hr
    rw [Runners.goto_self] at hq
    cases hq
    exact hp'
  · rw [Runners.goto_of_ne x b p' hr] at hq
    exact hother r' hr q hq

/-- What the state says of those who are active, after a step of `r`. -/
theorem Truthful.run_running (hi : Truthful x) (hp : x.pc r = some p) (hsep : x.Separate r)
    (h : x.task.run p e = some (b, p')) (r' : R)
    (hr' : (x.goto r b p').pc r' = some .doRun ∨ (x.goto r b p').pc r' = some .setFinished) : b.state = .running := by
  by_cases hr : r' = r
  · subst hr
    simp only [Runners.goto_self, Option.some.injEq] at hr'
    rcases run_cases h with ⟨-, rfl, -⟩ | ⟨-, -, rfl⟩ | ⟨-, -, rfl⟩ | ⟨-, -, rfl⟩
      | ⟨rfl, ⟨-, rfl⟩ | ⟨rfl, -⟩ | ⟨-, rfl | rfl⟩⟩
    · rfl
    · simp at hr'
    · simp at hr'
    · simp at hr'
    · split at hr' <;> simp at hr'
    · exact hi.running r' (Or.inl hp)
    · simp at hr'
    · simp at hr'
  · simp only [Runners.goto_of_ne x b p' hr] at hr'
    have hrun := hi.running r' hr'
    -- the other is active, so `r` is neither about to finish nor about to be cancelled
    have hactive : ∃ q, x.pc r' = some q ∧ q.active = true := by
      rcases hr' with h | h
      · exact ⟨_, h, rfl⟩
      · exact ⟨_, h, rfl⟩
    obtain ⟨q, hq, ha⟩ := hactive
    rcases run_cases h with ⟨-, rfl, -⟩ | ⟨rfl, -, -⟩ | ⟨rfl, -, -⟩ | ⟨-, rfl, -⟩ | ⟨rfl, -⟩
    · rfl
    · have := hi.alone hp hsep (Or.inr rfl) hr hq
      rw [ha] at this; cases this
    · have := (hi.cancelled (Or.inr ⟨r, hp⟩)).2 r' q hq
      rw [ha] at this; cases this
    · exact hrun
    · exact hrun

/-- What holds once the task is cancelled or about to be, after a step of `r`. -/
theorem Truthful.run_cancelled (hi : Truthful x) (hp : x.pc r = some p) (hsep : x.Separate r)
    (h : x.task.run p e = some (b, p'))
    (hc : b.state = .cancelled ∨ ∃ r', (x.goto r b p').pc r' = some .setCancelled) :
    b.isRequestCancel = true ∧ ∀ r' q, (x.goto r b p').pc r' = some q → q.active = false := by
  have hflag := run_isRequestCancel h
  have hold : p' ≠ .setCancelled → (∃ r', (x.goto r b p').pc r' = some .setCancelled) →
      ∃ r', x.pc r' = some .setCancelled := by
    rintro hne ⟨r', hr'⟩
    by_cases hr : r' = r
    · subst hr
      rw [Runners.goto_self, Option.some.injEq] at hr'
      exact absurd hr' hne
    · rw [Runners.goto_of_ne x b p' hr] at hr'
      exact ⟨r', hr'⟩
  -- an active runner is not where the task is cancelled or about to be
  have hnot : p.active = true → ¬ (x.task.state = .cancelled ∨ ∃ r', x.pc r' = some .setCancelled) := by
    intro ha hx
    have := (hi.cancelled hx).2 r p hp
    rw [ha] at this; cases this
  have hkeep : p'.active = false → (x.task.state = .cancelled ∨ ∃ r', x.pc r' = some .setCancelled) →
      b.isRequestCancel = true ∧ ∀ r' q, (x.goto r b p').pc r' = some q → q.active = false := fun hp' hx =>
    ⟨hflag ▸ (hi.cancelled hx).1, Runners.goto_inactive hp' fun r' _ q hq => (hi.cancelled hx).2 r' q hq⟩
  rcases run_cases h with ⟨rfl, rfl, rfl⟩ | ⟨rfl, rfl, rfl⟩ | ⟨rfl, -, rfl⟩ | ⟨rfl, rfl, rfl⟩ |
    ⟨rfl, ⟨rfl, rfl⟩ | ⟨rfl, rfl | ⟨rfl, hf⟩ | rfl⟩ | ⟨rfl, rfl | rfl⟩⟩
  · rcases hc with hc | hc
    · cases hc
    · exact absurd (Or.inr (hold (by simp) hc)) (hnot rfl)
  · rcases hc with hc | hc
    · cases hc
    · exact absurd (Or.inr (hold (by simp) hc)) (hnot rfl)
  · exact hkeep rfl (Or.inr ⟨r, hp⟩)
  · exact hkeep rfl (hc.imp_right (hold (by simp)))
  · cases hf : x.task.isRequestCancel with
    | true =>
      refine ⟨rfl, Runners.goto_inactive (by simp [RunPC.active]) fun r' hr' q hq => ?_⟩
      exact hi.alone hp hsep (Or.inl rfl) hr' hq
    | false =>
      have := (hi.cancelled (hc.imp_right (hold (by simp [hf])))).1
      rw [hf] at this; cases this
  · exact absurd (hc.imp_right (hold (by simp))) (hnot rfl)
  · refine ⟨hf, Runners.goto_inactive rfl fun r' hr' q hq => ?_⟩
    exact hi.alone hp hsep (Or.inr rfl) hr' hq
  · exact absurd (hc.imp_right (hold (by simp))) (hnot rfl)
  · exact hkeep rfl (hc.imp_right (hold (by simp)))
  · exact hkeep rfl (hc.imp_right (hold (by simp)))

/-- A step of a runner that is separate. -/
theorem Truthful.run (hi : Truthful x) (hp : x.pc r = some p) (hsep : x.Separate r)
    (h : x.task.run p e = some (b, p')) : Truthful (x.goto r b p') := by
  constructor
  · intro r₁ r₂ p₁ p₂ h₁ h₂ a₁ a₂
    have hother : p'.active = true → ∀ r', r' ≠ r → ∀ q, x.pc r' = some q → q.active = false := fun ha r' hr' q hq =>
      hi.alone hp hsep (run_active h ha) hr' hq
    by_cases e₁ : r₁ = r <;> by_cases e₂ : r₂ = r
    · rw [e₁, e₂]
    · subst e₁
      rw [Runners.goto_self] at h₁
      rw [Runners.goto_of_ne x b p' e₂] at h₂
      cases h₁
      rw [hother a₁ r₂ e₂ p₂ h₂] at a₂; cases a₂
    · subst e₂
      rw [Runners.goto_self] at h₂
      rw [Runners.goto_of_ne x b p' e₁] at h₁
      cases h₂
      rw [hother a₂ r₁ e₁ p₁ h₁] at a₁; cases a₁
    · rw [Runners.goto_of_ne x b p' e₁] at h₁
      rw [Runners.goto_of_ne x b p' e₂] at h₂
      exact hi.one r₁ r₂ p₁ p₂ h₁ h₂ a₁ a₂
  · exact hi.run_running hp hsep h
  · exact hi.run_cancelled hp hsep h

end Run

end Tpool.TaskBase
