import Mathlib.Data.Finset.Basic

/-!
# TaskBase

- `TaskBase`: the state, the cancel request, and the threads blocked on `m_cancelCondition` that nobody has notified.
- `run` and `cancel`: one atomic section of `TaskBase::Run` and of `TaskBase::Cancel` / `CancelAsync`, by program
  counter. The user's code (`DoRun`, `OnCancel`, `OnCallCancel`) is a point where the counter stays until the code is
  left, in any of the ways of `Exit`.
-/

namespace Tpool

inductive TaskBase.State
  | init
  | running
  | finished
  | cancelled
  deriving DecidableEq

/-- A task; `Tid` are the threads that may wait for it. -/
structure TaskBase (Tid : Type*) where
  state : TaskBase.State
  isRequestCancel : Bool
  waiters : Finset Tid

/-- How the user's code is left: it returns, `CheckCancellation` throws, or something else is thrown. -/
inductive Exit
  | ret
  | cancel
  | other
  deriving DecidableEq

namespace TaskBase

variable {Tid : Type*}

def new : TaskBase Tid := ⟨.init, false, ∅⟩

/-- "Stop" means finished or cancelled. -/
def isStopState (b : TaskBase Tid) : Bool := b.state == .finished || b.state == .cancelled

def setState (b : TaskBase Tid) (state : State) : TaskBase Tid := { b with state }

/-- Where a thread is in `Run`; `raised` when an exception has left it. -/
inductive RunPC
  | checkCancellation
  | setRunning
  | doRun
  | setFinished
  | setCancelled
  | onCancel
  | notify
  | ret
  | raised
  deriving DecidableEq

/-- One step of `Run`. Of what leaves `DoRun` only the exception of `CheckCancellation` is caught, and that one is
thrown only when a cancel has been requested; nothing thrown by `OnCancel` is caught. -/
def run (b : TaskBase Tid) : RunPC → Exit → Option (TaskBase Tid × RunPC)
  -- check before running the task
  | .checkCancellation, _ => some (b, if b.isRequestCancel then .setCancelled else .setRunning)
  | .setRunning, _ => some (b.setState .running, .doRun)
  | .doRun, .ret => some (b, .setFinished)
  | .doRun, .cancel => if b.isRequestCancel then some (b, .setCancelled) else none
  | .doRun, .other => some (b, .raised)
  | .setFinished, _ => some (b.setState .finished, .notify)
  | .setCancelled, _ => some (b.setState .cancelled, .onCancel)
  | .onCancel, .ret => some (b, .notify)
  | .onCancel, .cancel | .onCancel, .other => some (b, .raised)
  -- wake up the waiting threads that is cancelling this task
  | .notify, _ => some ({ b with waiters := if b.isRequestCancel then ∅ else b.waiters }, .ret)
  | .ret, _ | .raised, _ => none

/-- Where a thread is in `Cancel` or `CancelAsync`. -/
inductive CancelPC
  | setFlag
  | onCallCancel
  | wait
  | blocked
  | ret
  | raised
  deriving DecidableEq

section Cancel

variable [DecidableEq Tid]

/-- Reading the state under the lock: return, or block. -/
def awaitStop (b : TaskBase Tid) (t : Tid) : TaskBase Tid × CancelPC :=
  if b.isStopState then (b, .ret) else ({ b with waiters := insert t b.waiters }, .blocked)

/-- One step of `CancelAsync` or of `Cancel`, which goes on to wait until the task is cancelled. -/
def cancel (async : Bool) (b : TaskBase Tid) (t : Tid) : CancelPC → Exit → Option (TaskBase Tid × CancelPC)
  | .setFlag, _ => some ({ b with isRequestCancel := true }, .onCallCancel)
  | .onCallCancel, .ret => some (b, if async then .ret else .wait)
  | .onCallCancel, .cancel | .onCallCancel, .other => some (b, .raised)
  | .wait, _ => some (b.awaitStop t)
  | .blocked, _ => if t ∈ b.waiters then none else some (b.awaitStop t)
  | .ret, _ | .raised, _ => none

/-- A waiter wakes by itself. -/
def wake (b : TaskBase Tid) (t : Tid) : Option (TaskBase Tid) :=
  if t ∈ b.waiters then some { b with waiters := b.waiters.erase t } else none

@[simp] theorem awaitStop_state (b : TaskBase Tid) (t : Tid) : (b.awaitStop t).1.state = b.state := by
  unfold awaitStop; split <;> rfl

@[simp] theorem awaitStop_isRequestCancel (b : TaskBase Tid) (t : Tid) :
    (b.awaitStop t).1.isRequestCancel = b.isRequestCancel := by
  unfold awaitStop; split <;> rfl

/-- The wait is over only when the task has stopped. -/
theorem awaitStop_ret {b : TaskBase Tid} {t : Tid} (h : (b.awaitStop t).2 = .ret) : b.isStopState = true := by
  unfold awaitStop at h
  split at h
  · assumption
  · cases h

/-- What a step of `Cancel` or `CancelAsync` can do. -/
theorem cancel_cases {async : Bool} {b b' : TaskBase Tid} {t : Tid} {p p' : CancelPC} {e : Exit}
    (h : b.cancel async t p e = some (b', p')) :
    (p = .setFlag ∧ b' = { b with isRequestCancel := true } ∧ p' = .onCallCancel) ∨
    (p = .onCallCancel ∧ b' = b ∧ (p' = if async then .ret else .wait)) ∨
    (p = .onCallCancel ∧ b' = b ∧ p' = .raised) ∨
    ((p = .wait ∨ p = .blocked ∧ t ∉ b.waiters) ∧ (b', p') = b.awaitStop t) := by
  cases p with
  | setFlag => cases h; exact Or.inl ⟨rfl, rfl, rfl⟩
  | onCallCancel =>
    cases e with
    | ret => cases h; exact Or.inr (Or.inl ⟨rfl, rfl, rfl⟩)
    | cancel | other => cases h; exact Or.inr (Or.inr (Or.inl ⟨rfl, rfl, rfl⟩))
  | wait => exact Or.inr (Or.inr (Or.inr ⟨Or.inl rfl, (Option.some.inj h).symm⟩))
  | blocked =>
    simp only [cancel] at h
    split at h
    · cases h
    · rename_i ht
      exact Or.inr (Or.inr (Or.inr ⟨Or.inr ⟨rfl, ht⟩, (Option.some.inj h).symm⟩))
  | ret => cases h
  | raised => cases h

/-- Neither `Cancel` nor `CancelAsync` changes the state, or takes a request back. -/
theorem cancel_keeps {async : Bool} {b b' : TaskBase Tid} {t : Tid} {p p' : CancelPC} {e : Exit}
    (h : b.cancel async t p e = some (b', p')) :
    b'.state = b.state ∧ (b.isRequestCancel = true → b'.isRequestCancel = true) := by
  rcases cancel_cases h with ⟨-, rfl, -⟩ | ⟨-, rfl, -⟩ | ⟨-, rfl, -⟩ | ⟨-, hb⟩
  · exact ⟨rfl, fun _ => rfl⟩
  · exact ⟨rfl, id⟩
  · exact ⟨rfl, id⟩
  · obtain rfl : b' = (b.awaitStop t).1 := congrArg Prod.fst hb
    exact ⟨awaitStop_state b t, fun h => by rw [awaitStop_isRequestCancel, h]⟩

end Cancel

/-- What a step of `Run` can do to the task. -/
theorem run_cases {b b' : TaskBase Tid} {p p' : RunPC} {e : Exit} (h : b.run p e = some (b', p')) :
    (p = .setRunning ∧ b' = b.setState .running ∧ p' = .doRun) ∨
    (p = .setFinished ∧ b' = b.setState .finished ∧ p' = .notify) ∨
    (p = .setCancelled ∧ b' = b.setState .cancelled ∧ p' = .onCancel) ∨
    (p = .notify ∧ b' = { b with waiters := if b.isRequestCancel then ∅ else b.waiters } ∧ p' = .ret) ∨
    (b' = b ∧ ((p = .checkCancellation ∧ p' = if b.isRequestCancel then .setCancelled else .setRunning) ∨
      (p = .doRun ∧ (p' = .setFinished ∨ (p' = .setCancelled ∧ b.isRequestCancel = true) ∨ p' = .raised)) ∨
      (p = .onCancel ∧ (p' = .notify ∨ p' = .raised)))) := by
  cases p with
  | checkCancellation => cases h; simp
  | setRunning => cases h; simp
  | doRun =>
    cases e with
    | ret => cases h; simp
    | cancel =>
      simp only [run] at h
      split at h <;> cases h
      simp [*]
    | other => cases h; simp
  | setFinished => cases h; simp
  | setCancelled => cases h; simp
  | onCancel => cases e <;> cases h <;> simp
  | notify => cases h; simp
  | ret => cases h
  | raised => cases h

theorem run_isRequestCancel {b b' : TaskBase Tid} {p p' : RunPC} {e : Exit} (h : b.run p e = some (b', p')) :
    b'.isRequestCancel = b.isRequestCancel := by
  rcases run_cases h with ⟨-, rfl, -⟩ | ⟨-, rfl, -⟩ | ⟨-, rfl, -⟩ | ⟨-, rfl, -⟩ | ⟨rfl, -⟩ <;> rfl

/-- A thread that found the cancel requested does not get to `DoRun`. -/
theorem run_cancelled {b b' : TaskBase Tid} {p p' : RunPC} {e : Exit} (h : b.run p e = some (b', p'))
    (hf : b.isRequestCancel = true) (hp : p ≠ .setRunning ∧ p ≠ .doRun ∧ p ≠ .setFinished) :
    p' ≠ .setRunning ∧ p' ≠ .doRun ∧ p' ≠ .setFinished := by
  obtain ⟨h1, h2, h3⟩ := hp
  rcases run_cases h with ⟨h, -⟩ | ⟨h, -⟩ | ⟨-, -, rfl⟩ | ⟨-, -, rfl⟩ | ⟨-, ⟨-, rfl⟩ | ⟨h, -⟩ | ⟨-, rfl | rfl⟩⟩
  · exact absurd h h1
  · exact absurd h h3
  · simp
  · simp
  · simp [hf]
  · exact absurd h h2
  · simp
  · simp

/-- An exception leaves `Run` only from the user's code. -/
theorem run_raised {b b' : TaskBase Tid} {p : RunPC} {e : Exit} (h : b.run p e = some (b', .raised)) :
    (p = .doRun ∧ e = .other) ∨ (p = .onCancel ∧ e ≠ .ret) := by
  cases p with
  | doRun =>
    cases e with
    | ret => cases h
    | cancel => simp only [run] at h; split at h <;> cases h
    | other => exact Or.inl ⟨rfl, rfl⟩
  | onCancel => cases e <;> simp_all [run]
  | checkCancellation => simp only [run] at h; split at h <;> cases h
  | _ => simp [run] at h

end TaskBase

end Tpool
