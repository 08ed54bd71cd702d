import Tpool.Pool.FixedThreadPool
import Tpool.Task.FutureTask

/-!
# AddFutureTask

- `FunctorFutureTask`: a future task whose `Call` is a functor. `getResult_yields`: once it has been run, `GetResult`
  yields what the functor returned.
- `makeFunctorFutureTask` calls itself with the arguments that it was given; `addFutureTask` calls it first.
- `addFutureTask_never`: no functor and no pool for which `addFutureTask` returns.
-/

namespace Tpool

open Concurrency Concurrency.Monitor

/-! ## What a future yields -/

namespace FutureTask

variable {Tid R : Type*}

/-- Every `Call` returns `value`. -/
def Returns (value : R) (_ : FutureTask Tid R) : Action Tid R → Prop
  | .step _ _ v => v = value
  | _ => True

/-- Each `GetResult` that has returned gave `value`, and once the task has been run nobody waits for it. -/
def Yields (value : R) (s : FutureTask Tid R) : Prop :=
  (∀ p t r q, s.monitor.log = p ++ (t, .getResult, r) :: q → r = some (.value value)) ∧
    (s.monitor.data.completed ≠ [] → s.monitor.waiting () = ∅)

/-- A `DoRun` whose `Call` returns `value`, or another method. -/
def Method.returns (value : R) (m : Method R) : Prop := ∀ v, m = .doRun v → v = value

section Yields

variable [DecidableEq Tid] {init value : R} {s s' : FutureTask Tid R} {a : Action Tid R}

/-- A `DoRun` is called in a step, with what its `Call` will return. -/
theorem step_calls (h : s.step a = some s') : s'.monitor = s.monitor ∨
    ∃ b, Monitor.next code s.monitor b = some s'.monitor ∧ ∀ t v, b = .call t (.doRun v) → ∃ e, a = .step t e v := by
  cases a with
  | call t c =>
    simp only [step] at h
    split at h
    · obtain ⟨th, hth, rfl⟩ := Option.map_eq_some_iff.mp h
      exact Or.inl rfl
    · cases h
  | get t attempt =>
    simp only [step] at h
    split at h
    · refine Or.inr ⟨_, (monitorStep_cases h).1, fun u v hb => ?_⟩
      cases attempt <;> simp at hb
    · cases h
  | wakeCancel t =>
    obtain ⟨th, hth, rfl⟩ := Option.map_eq_some_iff.mp h
    exact Or.inl rfl
  | wakeResult t => exact Or.inr ⟨_, (monitorStep_cases h).1, by simp⟩
  | step t e value =>
    simp only [step] at h
    split at h
    · split at h
      · refine Or.inr ⟨_, (monitorStep_cases h).1, ?_⟩
        rintro u v ⟨⟩
        exact ⟨e, rfl⟩
      · exact Or.inl (taskStep_cases h).2
    · split at h
      · cases h
      · obtain ⟨s1, h1, rfl⟩ := Option.map_eq_some_iff.mp h
        exact Or.inr ⟨_, (monitorStep_cases h1).1, by simp⟩
    · obtain ⟨s1, h1, h2⟩ := Option.bind_eq_some_iff.mp h
      refine Or.inr ⟨.step t false, ?_, by simp⟩
      rw [(taskStep_cases h2).2]
      exact (monitorStep_cases h1).1
    · exact Or.inr ⟨_, (monitorStep_cases h).1, by simp⟩

theorem Reachable.calls (h : (system Tid init).Reachable (Returns value) s) :
    Monitor.Calls (Method.returns value) s.monitor := by
  refine h.induct (I := fun s => Monitor.Calls (Method.returns value) s.monitor) ⟨?_, ?_⟩ fun s a s' _ hok hs hi => ?_
  · simp [system, Monitor.system, PC.method]
  · simp [system, Monitor.system]
  · rcases step_calls hs with hm | ⟨b, hm, hb⟩
    · rwa [hm]
    · refine hi.next hm fun t m hcall v hv => ?_
      obtain ⟨e, rfl⟩ := hb t v (by rw [hcall, hv])
      exact hok

/-- **`GetResult` yields what the `Call` returned**, if every `Call` returns that. -/
theorem Reachable.yields (h : (system Tid init).Reachable (Returns value) s) : s.Yields value := by
  have hp := Reachable.proved h
  have hv : Verified (@Consistent Tid R init) (Free init) code := verified
  have hlogged : Logged s.monitor.log := hv.logged (fun hf => hf.logged) free_new (Reachable.monitor h)
  refine ⟨fun p t r q hlog => ?_, fun hne => ?_⟩
  · obtain ⟨v, hlast, rfl⟩ := (hlogged p _ q hlog).1 rfl
    have hmem : v ∈ FutureTask.calls p := List.mem_of_getLast? hlast
    obtain ⟨c, hc, hm⟩ := List.mem_filterMap.mp hmem
    have hmethod : c.2.1 = .doRun v := by
      split at hm
      · rename_i hc2
        rw [hc2, Option.some.inj hm]
      · cases hm
    have hreturns : c.2.1.returns value := by
      refine (Reachable.calls h).log c ?_
      rw [hlog]
      exact List.mem_append_left _ hc
    rw [hreturns v hmethod]
  · by_contra hw
    exact hne ((hp.always hv).waits (Finset.nonempty_iff_ne_empty.mpr hw))

end Yields

end FutureTask

/-! ## The factory, and the pool -/

/-- A `FunctorFutureTask<T, Func>`. -/
structure FunctorFutureTask (Func : Type*) where
  functor : Func
  deriving DecidableEq

variable {Func R Cl : Type*} {n : ℕ}

/-- `FunctorFutureTask::Call`, where `operator` is the `operator()` of the functors. -/
def FunctorFutureTask.call (operator : Func → R) (task : FunctorFutureTask Func) : R := operator task.functor

/-- `MakeFunctorFutureTask<T, Func>(f)`, if no more than `depth` calls of it are in progress at a time. -/
def makeFunctorFutureTask : ℕ → Func → Option (FunctorFutureTask Func)
  | 0, _ => none
  | depth + 1, f => makeFunctorFutureTask depth f

namespace FixedThreadPool

/-- `DoAddTask(task)` of a task that is not null, without interruption. -/
def doAddTask {T : Type*} (s : FixedThreadPool n Cl T) (task : T) : FixedThreadPool n Cl T × Option T :=
  if s.isRequestStop then (s, none)
  else ({ s with taskQueue := s.taskQueue.push (.task task), accepted := s.accepted ++ [task] }, some task)

/-- `AddFutureTask<T>(f)`, where the factory has no more than `depth` calls in progress at a time. -/
def addFutureTask (depth : ℕ) (s : FixedThreadPool n Cl (FunctorFutureTask Func)) (f : Func) :
    Option (FixedThreadPool n Cl (FunctorFutureTask Func) × FunctorFutureTask Func) :=
  (makeFunctorFutureTask depth f).map fun task => ((s.doAddTask task).1, task)

/-- `AddFutureTask` returns, one task is in the queue more, which is the future that it returned, and that future yields
what the functor returns. -/
def AddsOneFuture (operator : Func → R) (s : FixedThreadPool n Cl (FunctorFutureTask Func)) (f : Func) : Prop :=
  ∃ depth s' task, s.addFutureTask depth f = some (s', task) ∧ s'.taskQueue = s.taskQueue.push (.task task) ∧
    ∀ (Tid : Type) [DecidableEq Tid] (init : R) (future : FutureTask Tid R),
      (FutureTask.system Tid init).Reachable (FutureTask.Returns (task.call operator)) future →
      future.Yields (operator f)

/-- `DoAddTask` is what a client does that calls `AddTask` and is not interrupted. -/
theorem doAddTask_reaches {T : Type*} [DecidableEq Cl] [DecidableEq T] {isEndTask : T → Bool}
    {s : FixedThreadPool n Cl T}
    {c : Cl} {task : T} (hctor : s.ctor = .done) (hc : s.client c = .idle) :
    (system n Cl isEndTask).Reaches Anything s (s.doAddTask task).1 := by
  have hgoto : ∀ pc pc', (s.goto c pc).goto c pc' = s.goto c pc' :=
    fun pc pc' => by simp only [goto, Function.update_idem]
  have hself : s.goto c .idle = s := by rw [goto, ← hc, Function.update_eq_self]
  have hpc : ∀ pc, (s.goto c pc).client c = pc := fun pc => Function.update_self ..
  have hcall : (system n Cl isEndTask).step s (.call c (.addTask (some task))) =
      some (s.goto c (.addTask (some task))) := by
    simp only [system, step, hctor, hc]
    rfl
  by_cases hstop : s.isRequestStop = true
  · have hrefuse : (system n Cl isEndTask).step (s.goto c (.addTask (some task))) (.client c ⟨.ret, 0, 0⟩) =
        some s := by
      simp only [system, step, clientStep, hpc, hgoto, hself]
      exact if_pos hstop
    rw [doAddTask, if_pos hstop]
    exact Relation.ReflTransGen.head ⟨_, trivial, hcall⟩ (.single ⟨_, trivial, hrefuse⟩)
  · have haccept : (system n Cl isEndTask).step (s.goto c (.addTask (some task))) (.client c ⟨.ret, 0, 0⟩) =
        some (s.goto c (.push task)) := by
      simp only [system, step, clientStep, hpc, hgoto]
      exact if_neg hstop
    have hpush : (system n Cl isEndTask).step (s.goto c (.push task)) (.client c ⟨.ret, 0, 0⟩) =
        some { s with taskQueue := s.taskQueue.push (.task task), accepted := s.accepted ++ [task] } := by
      simp only [system, step, clientStep, hpc, hgoto, hself]
      rfl
    rw [doAddTask, if_neg hstop]
    exact Relation.ReflTransGen.head ⟨_, trivial, hcall⟩ (.head ⟨_, trivial, haccept⟩ (.single ⟨_, trivial, hpush⟩))

/-- The factory never returns. -/
theorem makeFunctorFutureTask_eq_none (depth : ℕ) (f : Func) : makeFunctorFutureTask depth f = none := by
  induction depth with
  | zero => rfl
  | succ depth ih => exact ih

/-- **`AddFutureTask` never returns**, for no functor and no pool, so it adds no future. -/
theorem addFutureTask_never (operator : Func → R) (s : FixedThreadPool n Cl (FunctorFutureTask Func)) (f : Func) :
    (∀ depth, s.addFutureTask depth f = none) ∧ ¬ s.AddsOneFuture operator f := by
  have hnone : ∀ depth, s.addFutureTask depth f = none := fun depth => by
    rw [addFutureTask, makeFunctorFutureTask_eq_none]
    rfl
  refine ⟨hnone, ?_⟩
  rintro ⟨depth, s', task, hadd, -⟩
  rw [hnone] at hadd
  cases hadd

/-- A running pool with one worker, to which a functor is added that returns `7`. -/
theorem adds_no_future : ∃ s : FixedThreadPool 1 Unit (FunctorFutureTask Unit),
    (system 1 Unit fun _ => false).Reachable Anything s ∧ s.state = .running ∧ s.isRequestStop = false ∧
    ¬ s.AddsOneFuture (fun _ => 7) () := by
  obtain ⟨s, hs, hp⟩ := System.reachable_of_exec (system 1 Unit fun _ : FunctorFutureTask Unit => false) Anything
    (List.replicate 3 .construct) (fun s => decide (s.state = .running ∧ s.isRequestStop = false)) (by decide)
  obtain ⟨hrunning, hstop⟩ := of_decide_eq_true hp
  refine ⟨s, hs, hrunning, hstop, ?_⟩
  rintro ⟨depth, s', task, hadd, -⟩
  rw [addFutureTask, makeFunctorFutureTask_eq_none] at hadd
  cases hadd

end FixedThreadPool

end Tpool
