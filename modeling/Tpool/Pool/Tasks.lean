import Tpool.Pool.Simulation

/-!
# What happens to the tasks of the pool

- `Keeps`: a cancel once requested stays requested, and the timer tasks stay with what they work on.
- `TimerSound`: the timer thread calls `Run` of a user's task only after its cancel was requested, so it never gets to
  the `DoRun` of one.
-/

namespace Tpool.FixedThreadPool

open Concurrency Tpool.Core

variable {n : Nat} {Cl T : Type*} {isEndTask : T → Bool}

/-- Requests to cancel a task, and what the timer tasks are for, are kept. -/
structure Keeps (s s' : FixedThreadPool n Cl T) : Prop where
  isRequestCancel : ∀ t, (s.task t).isRequestCancel = true → (s'.task t).isRequestCancel = true
  timerTasks : Timer.SameTasks s.timerTasks s'.timerTasks

/-- The timer thread runs only tasks whose cancel was requested. -/
def TimerSound (s : FixedThreadPool n Cl T) : Prop :=
  ∀ tm id p, s.timer = some tm → tm.pc = .doRun id (.run p) →
    (p ≠ .setRunning ∧ p ≠ .doRun ∧ p ≠ .setFinished) ∧
      ∃ task, s.timerTasks[id]? = some task ∧ (s.task task.task).isRequestCancel = true

section Keeps

variable {s s' : FixedThreadPool n Cl T}

/-- The tasks are as they were. -/
theorem Keeps.of_eq (h1 : s'.task = s.task) (h2 : Timer.SameTasks s.timerTasks s'.timerTasks) : Keeps s s' :=
  ⟨fun t h => by rw [h1]; exact h, h2⟩

variable [DecidableEq T]

/-- One task changes, and its cancel stays requested. -/
theorem Keeps.of_task {t : T} {b : TaskBase Cl} (h : (s.task t).isRequestCancel = true → b.isRequestCancel = true)
    (h1 : s'.task = Function.update s.task t b) (h2 : s'.timerTasks = s.timerTasks) : Keeps s s' := by
  refine ⟨fun u hu => ?_, by rw [h2]; exact .refl⟩
  rw [h1]
  by_cases hut : u = t
  · subst hut; simpa using h hu
  · simpa [hut] using hu

theorem WorkerStep.keeps {i : Fin n} {e : Exit} (h : WorkerStep isEndTask i e s s') : Keeps s s' := by
  cases h with
  | thread h =>
    cases h with
    | run hpc hr => exact .of_task (fun h => (TaskBase.run_isRequestCancel hr).trans h) rfl rfl
    | _ => exact .of_eq rfl .refl
  | count | notLast | last => exact .of_eq rfl .refl

theorem TimerStep.keeps (h : TimerStep s s') : Keeps s s' := by
  cases h with
  | own htm hw => exact .of_eq rfl hw.sameTasks
  | move | caught => exact .of_eq rfl .refl
  | run htm hpc ht hr => exact .of_task (fun h => (TaskBase.run_isRequestCancel hr).trans h) rfl rfl
  | cancelAsync htm hpc ht => exact .of_eq rfl (.set ht rfl)
  | leave htm hpc hd ht => exact .of_eq rfl (.set ht rfl)
  | push htm hpc ht => exact .of_eq rfl (.set ht rfl)

variable [DecidableEq Cl]

theorem ClientStep.keeps {c : Cl} (h : ClientStep c s s') : Keeps s s' := by
  cases h with
  | makeTimer => exact .of_eq rfl (.append _)
  | setDeadline hpc ht | setInterval hpc ht => exact .of_eq rfl (.set ht rfl)
  | @cancelRunningTask j t =>
    exact .of_task (t := t) (b := { s.task t with isRequestCancel := true }) (fun _ => rfl) rfl rfl
  | cancelTask hpc hb => exact .of_task (TaskBase.cancel_keeps hb).2 rfl rfl
  | _ => exact .of_eq rfl .refl

theorem wakeStep_keeps (w : Wake n Cl T) : Keeps s (s.wakeStep w) := by
  cases w with
  | task t c =>
    exact .of_task (t := t) (b := { s.task t with waiters := (s.task t).waiters.erase c }) id rfl rfl
  | _ => exact .of_eq rfl .refl

theorem PoolStep.keeps {a : Action n Cl T} (h : PoolStep isEndTask s a s') : Keeps s s' := by
  cases h with
  | start | started | constructed | call => exact .of_eq rfl .refl
  | client _ hs => exact hs.keeps
  | worker hs => exact hs.keeps
  | timer _ hs => exact hs.keeps
  | wake w => exact wakeStep_keeps w

/-- A client leaves the timer thread where it is, or creates it. -/
theorem ClientStep.timer {c : Cl} (h : ClientStep c s s') {tm' : Timer Cl ThreadPoolTimerTask.PC}
    (htm' : s'.timer = some tm') : tm'.pc = .setRunning ∨ ∃ tm, s.timer = some tm ∧ tm'.pc = tm.pc := by
  cases h with
  | makeTimer =>
    cases htm : s.timer with
    | none => simp only [htm, Option.getD_none, Option.some.injEq] at htm'; subst htm'; exact Or.inl rfl
    | some tm => simp only [htm, Option.getD_some, Option.some.injEq] at htm'; subst htm'; exact Or.inr ⟨tm, rfl, rfl⟩
  | pushTask _ _ htm | cancelTimer htm | clearTimer htm | waitTimer htm =>
    cases htm'
    exact Or.inr ⟨_, htm, rfl⟩
  | _ => exact Or.inr ⟨tm', htm', rfl⟩

omit [DecidableEq T] [DecidableEq Cl] in
/-- Whoever leaves the timer thread where it is keeps it. -/
theorem TimerSound.frame (hi : TimerSound s) (hk : Keeps s s')
    (htm : ∀ tm', s'.timer = some tm' → tm'.pc = .setRunning ∨ ∃ tm, s.timer = some tm ∧ tm'.pc = tm.pc) :
    TimerSound s' := by
  intro tm' id p htm' hpc'
  rcases htm tm' htm' with h | ⟨tm, htm, h⟩
  · rw [h] at hpc'; cases hpc'
  · obtain ⟨hp, task, ht, hf⟩ := hi tm id p htm (h ▸ hpc')
    obtain ⟨task', ht', heq⟩ := hk.timerTasks id task ht
    exact ⟨hp, task', ht', heq ▸ hk.isRequestCancel _ hf⟩

omit [DecidableEq Cl] in
theorem TimerSound.timer (hi : TimerSound s) (h : TimerStep s s') : TimerSound s' := by
  cases h with
  | own htm hw =>
    intro tm' id p htm' hpc'
    cases htm'
    have := hw.doRun hpc'
    cases this
  | @move tm id task d d' htm hpc ht hm =>
    intro tm' id' p htm' hpc'
    cases htm'
    simp only [Timer.goto, Timer.PC.doRun.injEq] at hpc'
    obtain ⟨rfl, rfl⟩ := hpc'
    cases hm with
    | cancelled hf => exact ⟨by simp, task, ht, hf⟩
  | @run tm id task q e b q' htm hpc ht hr =>
    intro tm' id' p htm' hpc'
    cases htm'
    simp only [Timer.goto, Timer.PC.doRun.injEq, ThreadPoolTimerTask.PC.run.injEq] at hpc'
    obtain ⟨rfl, rfl⟩ := hpc'
    obtain ⟨hq, task', ht', hf⟩ := hi tm id q htm hpc
    rw [ht] at ht'
    cases ht'
    refine ⟨TaskBase.run_cancelled hr hf hq, task, ht, ?_⟩
    show (Function.update s.task task.task b task.task).isRequestCancel = true
    rw [Function.update_self, TaskBase.run_isRequestCancel hr]
    exact hf
  | caught htm hpc | cancelAsync htm hpc ht | leave htm hpc hd ht | push htm hpc ht =>
    intro tm' id' p htm' hpc'
    cases htm'
    simp [Timer.goto] at hpc'

theorem Reachable.timerSound {ok : FixedThreadPool n Cl T → Action n Cl T → Prop}
    (h : (system n Cl isEndTask).Reachable ok s) : TimerSound s := by
  refine h.induct (fun tm id p htm => by cases htm) fun s a s' hr _ hs hi => ?_
  cases step_cases hs with
  | start hk hc => exact hi.frame (.of_eq rfl .refl) fun tm h => Or.inr ⟨tm, h, rfl⟩
  | started hc hk => exact hi.frame (.of_eq rfl .refl) fun tm h => Or.inr ⟨tm, h, rfl⟩
  | constructed hc => exact hi.frame (.of_eq rfl .refl) fun tm h => Or.inr ⟨tm, h, rfl⟩
  | call hc hidle => exact hi.frame (.of_eq rfl .refl) fun tm h => Or.inr ⟨tm, h, rfl⟩
  | client hidle hs => exact hi.frame hs.keeps fun tm h => hs.timer h
  | worker hs => exact hi.frame hs.keeps fun tm h => Or.inr ⟨tm, hs.rest.2.2.1.symm.trans h, rfl⟩
  | timer htm hs => exact hi.timer hs
  | wake w =>
    refine hi.frame (wakeStep_keeps w) fun tm' htm' => Or.inr ?_
    cases w with
    | timer | timerThread c =>
      obtain ⟨tm, htm, rfl⟩ := Option.map_eq_some_iff.mp htm'
      exact ⟨tm, htm, rfl⟩
    | _ => exact ⟨tm', htm', rfl⟩

end Keeps

end Tpool.FixedThreadPool
