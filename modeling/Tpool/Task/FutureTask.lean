import Tpool.Concurrency.Blocked
import Tpool.Task.Barrier

/-!
# FutureTask

- `FutureTask.Data`, `body`: the result, whether it was returned, and the methods that lock `m_resultCondition`:
  `DoRun`, which calls `Call` under the lock, `GetResult` and `TryGetResult`. `completed` records the values that the
  `Call`s have returned; no method reads it.
- `FutureTask`: the threads that run and cancel the task (`TaskBase.Threads`) together with this monitor; `DoRun` is
  where the two meet. `Reachable.result`: every run of the whole is a run of the monitor.
- `delivers`: what is read is what the last completed `Call` returned. `getResult_settled`: a task that has stopped
  leaves no one in `GetResult`, if its `Run` found no request and its `Call` returned. `cancelled_strands` is a run
  where it does.
-/

namespace Tpool

open Concurrency Concurrency.Monitor

namespace FutureTask

variable {Tid R : Type*}

/-! ## The result and its condition variable -/

structure Data (R : Type*) where
  result : R
  isResultReturned : Bool
  completed : List R

/-- `doRun value`: a `DoRun` whose `Call` returns `value`, if it returns. -/
inductive Method (R : Type*)
  | getResult
  | doRun (value : R)
  | tryGetResult

/-- What a method returns; `notReady` is the exception of `TryGetResult`. -/
inductive Ret (R : Type*)
  | void
  | value (r : R)
  | notReady
  deriving DecidableEq

abbrev Body (R : Type*) := List (Stmt Unit (Data R) (Ret R))

def getResult : Body R :=
  [.waitWhile () fun d _ => !d.isResultReturned, .act false fun d _ => some (d, .value d.result)]

def doRun (value : R) : Body R :=
  [.notifyAllIf () fun d => !d.isResultReturned,
   .act true fun d x => some ({ d with result := value, completed := d.completed ++ [value] }, x),
   .act false fun d x => some ({ d with isResultReturned := true }, x)]

def tryGetResult : Body R :=
  [.returnIf (fun d => !d.isResultReturned) .notReady, .act false fun d _ => some (d, .value d.result)]

def body : Method R → Body R
  | .getResult => getResult
  | .doRun value => doRun value
  | .tryGetResult => tryGetResult

def code : Code (Method R) Unit (Data R) (Ret R) := ⟨body, .void⟩

/-- The values of the `DoRun`s that have returned. -/
def calls (lg : Log Tid (Method R) (Ret R)) : List R :=
  lg.filterMap fun c => match c.2 with
    | (.doRun value, some _) => some value
    | _ => none

/-- What `TryGetResult` gives when the `Call`s have returned `values`. -/
def attempt (values : List R) : Ret R := match values.getLast? with
  | none => .notReady
  | some r => .value r

section Monitor

/-- What holds at every point: the result is that of the last `Call`, and nobody waits for a result that is there. -/
structure Consistent (init : R) (d : Data R) (w : Waiting Tid Unit) : Prop where
  result : d.result = d.completed.getLast?.getD init
  waits : (w ()).Nonempty → d.completed = []

/-- What the calls that have returned saw. -/
def Logged (lg : Log Tid (Method R) (Ret R)) : Prop :=
  lg.Each fun p c => (c.2.1 = .getResult → ∃ r, (calls p).getLast? = some r ∧ c.2.2 = some (.value r)) ∧
    (c.2.1 = .tryGetResult → c.2.2 = some (attempt (calls p)))

/-- What holds while the lock is free. -/
structure Free (init : R) (d : Data R) (w : Waiting Tid Unit) (lg : Log Tid (Method R) (Ret R)) : Prop where
  consistent : Consistent init d w
  returned : d.isResultReturned = true ↔ d.completed ≠ []
  completed : d.completed = calls lg
  logged : Logged lg

variable {init : R} {d : Data R} {w w' : Waiting Tid Unit} {lg : Log Tid (Method R) (Ret R)} {t : Tid}

@[simp] theorem calls_append (m : Method R) (r : Option (Ret R)) : calls (lg ++ [(t, m, r)]) =
    calls lg ++ calls [(t, m, r)] := by simp [calls]

theorem calls_append_of_not (m : Method R) (r : Option (Ret R)) (h : ∀ value, m ≠ .doRun value) :
    calls (lg ++ [(t, m, r)]) = calls lg := by
  cases m with
  | doRun value => exact absurd rfl (h value)
  | getResult | tryGetResult => simp [calls]

theorem Consistent.mono (h : Consistent init d w) (hw : w' ≤ w) : Consistent init d w' :=
  ⟨h.result, fun hne => h.waits (hne.mono (hw ()))⟩

/-- A result that is there is read. -/
theorem Free.read (h : Free init d w lg) (hr : d.isResultReturned = true) :
    (calls lg).getLast? = some d.result := by
  have hne := h.returned.mp hr
  have hres := h.consistent.result
  rw [← h.completed]
  cases hl : d.completed.getLast? with
  | none => exact absurd (List.getLast?_eq_none_iff.mp hl) hne
  | some r => rw [hres, hl]; rfl

theorem free_new : Free init ⟨init, false, []⟩ (fun _ => ∅) ([] : Log Tid (Method R) (Ret R)) :=
  ⟨⟨rfl, fun hne => by simp at hne⟩, by simp, rfl, .nil⟩

variable [DecidableEq Tid]

/-- **The methods keep the resource invariant.** -/
theorem verified : Verified (@Consistent Tid R init) (Free init) code where
  always h := h.consistent
  always_wake hw h := h.mono hw
  free_wake hw h := ⟨h.consistent.mono hw, h.returned, h.completed, h.logged⟩
  body t m d w lg h := by
    cases m with
    | getResult =>
      refine ⟨h, fun d w lg h => ?_⟩
      split
      · rename_i hr
        refine ⟨⟨h.consistent.result, fun _ => ?_⟩, h.returned, h.completed, h.logged⟩
        exact not_not.mp (h.returned.not.mp (by simpa using hr))
      · rename_i hr
        have hr : d.isResultReturned = true := by simpa using hr
        refine ⟨h.consistent, by simp, _, _, rfl, h.consistent, h.returned, ?_, h.logged.append ⟨fun _ => ?_, by simp⟩⟩
        · rw [calls_append_of_not _ _ (by simp)]
          exact h.completed
        · exact ⟨d.result, h.read hr, rfl⟩
    | doRun value =>
      have hthrow : ∀ w', w' ≤ w → Free init d w' (lg ++ [(t, .doRun value, none)]) := fun w' hw =>
        ⟨h.consistent.mono hw, h.returned, by simpa [calls] using h.completed, h.logged.append ⟨by simp, by simp⟩⟩
      -- whether it notifies or not, `DoRun` goes on with nobody waiting
      have hwait : (if (!d.isResultReturned) = true then w.clear () else w) () = ∅ := by
        split
        · simp
        · rename_i hr
          by_contra hne
          have := h.consistent.waits (Finset.nonempty_iff_ne_empty.mpr hne)
          exact h.returned.mp (by simpa using hr) this
      have hle : (if (!d.isResultReturned) = true then w.clear () else w) ≤ w := by
        split
        · exact w.clear_le ()
        · exact le_rfl
      have hnew : Consistent init { d with result := value, completed := d.completed ++ [value] }
          (if (!d.isResultReturned) = true then w.clear () else w) :=
        ⟨by simp, fun hne => absurd hne (by rw [hwait]; exact Finset.not_nonempty_empty)⟩
      refine ⟨h.consistent, h.consistent.mono hle, fun _ => hthrow _ hle, _, _, rfl, hnew, by simp, _, _, rfl,
        ⟨hnew.result, hnew.waits⟩, by simp, ?_, h.logged.append ⟨by simp, by simp⟩⟩
      rw [calls_append, ← h.completed]
      rfl
    | tryGetResult =>
      refine ⟨h.consistent, ?_⟩
      split
      · rename_i hr
        have hnone : d.completed = [] := not_not.mp (h.returned.not.mp (by simpa using hr))
        refine ⟨h.consistent, h.returned, ?_, h.logged.append ⟨by simp, fun _ => ?_⟩⟩
        · rw [calls_append_of_not _ _ (by simp)]
          exact h.completed
        · rw [← h.completed, hnone]
          rfl
      · rename_i hr
        have hr : d.isResultReturned = true := by simpa using hr
        refine ⟨h.consistent, by simp, _, _, rfl, h.consistent, h.returned, ?_, h.logged.append ⟨by simp, fun _ => ?_⟩⟩
        · rw [calls_append_of_not _ _ (by simp)]
          exact h.completed
        · simp [attempt, h.read hr]

end Monitor

/-! ## The task -/

/-- What a move is: a call of `Run`, `Cancel` or `CancelAsync`, a call of `GetResult` or of `TryGetResult`, a step of a
thread, or a waiter that wakes. A step says how user code is left, and what `Call` will return. -/
inductive Action (Tid R : Type*)
  | call (t : Tid) (c : TaskBase.Call)
  | get (t : Tid) (attempt : Bool)
  | step (t : Tid) (e : Exit) (value : R)
  | wakeCancel (t : Tid)
  | wakeResult (t : Tid)

end FutureTask

/-- A future task and the threads `Tid` that use it; `exit` is how the `Call` of a thread was left. -/
structure FutureTask (Tid R : Type*) where
  threads : TaskBase.Threads Tid
  monitor : Monitor.State Tid (FutureTask.Method R) Unit (FutureTask.Data R) (FutureTask.Ret R)
  exit : Tid → Exit

namespace FutureTask

variable {Tid R : Type*}

section Step

variable [DecidableEq Tid]

/-- The thread `t` takes a step in the task. -/
def taskStep (s : FutureTask Tid R) (t : Tid) (e : Exit) : Option (FutureTask Tid R) :=
  (TaskBase.step s.threads (.step t e)).map fun threads => { s with threads }

/-- A move of the monitor. -/
def monitorStep (s : FutureTask Tid R) (a : Monitor.Action Tid (Method R) Unit) : Option (FutureTask Tid R) :=
  (Monitor.next code s.monitor a).map fun monitor => { s with monitor }

def step (s : FutureTask Tid R) : Action Tid R → Option (FutureTask Tid R)
  | .call t c => match s.monitor.pc t with
    | .idle => (TaskBase.step s.threads (.call t c)).map fun threads => { s with threads }
    | _ => none
  | .get t attempt => match s.threads.pc t with
    | .idle => s.monitorStep (.call t (if attempt then .tryGetResult else .getResult))
    | _ => none
  | .wakeCancel t => (TaskBase.step s.threads (.wake t)).map fun threads => { s with threads }
  | .wakeResult t => s.monitorStep (.wake () t)
  | .step t e value => match s.monitor.pc t with
    | .idle => match s.threads.pc t with
      | .run .doRun => s.monitorStep (.call t (.doRun value))
      | _ => s.taskStep t e
    | .body (.doRun _) _ _ =>
      -- `CheckCancellation` throws in `Call` only when a cancel was requested
      if e = .cancel ∧ s.threads.task.isRequestCancel = false then none
      else (s.monitorStep (.step t (decide (e ≠ .ret)))).map fun s => { s with exit := Function.update s.exit t e }
    | .leave (.doRun _) r =>
      (s.monitorStep (.step t false)).bind fun s' => s'.taskStep t (if r.isSome then .ret else s.exit t)
    | _ => s.monitorStep (.step t false)

/-- A new task, with whatever is in `m_result`. -/
def system (Tid : Type*) [DecidableEq Tid] (init : R) : System (FutureTask Tid R) (Action Tid R) where
  init := ⟨(TaskBase.system Tid).init, (Monitor.system code ⟨init, false, []⟩).init, fun _ => .ret⟩
  step := step

/-- The thread is in `DoRun`, under the lock. -/
def inDoRun : Monitor.PC (Method R) Unit (Data R) (Ret R) → Bool
  | .body (.doRun _) _ _ => true
  | _ => false

/-- The `Run`s find no request, and their `Call`s return. -/
def Completes (s : FutureTask Tid R) : Action Tid R → Prop
  | .step t e _ => (s.threads.pc t = .run .checkCancellation → s.threads.task.isRequestCancel = false) ∧
      (inDoRun (s.monitor.pc t) = true → e = .ret)
  | _ => True

instance (s : FutureTask Tid R) : ∀ a, Decidable (Completes s a)
  | .step t e _ => inferInstanceAs (Decidable ((s.threads.pc t = .run .checkCancellation →
      s.threads.task.isRequestCancel = false) ∧ (inDoRun (s.monitor.pc t) = true → e = .ret)))
  | .call _ _ | .get _ _ | .wakeCancel _ | .wakeResult _ => isTrue trivial

end Step

/-! ## The steps -/

section Steps

variable [DecidableEq Tid] {init : R} {s s' : FutureTask Tid R} {a : Action Tid R}
  {ok : FutureTask Tid R → Action Tid R → Prop}

theorem monitorStep_cases {b : Monitor.Action Tid (Method R) Unit} (h : s.monitorStep b = some s') :
    Monitor.next code s.monitor b = some s'.monitor ∧ s'.threads = s.threads ∧ s'.exit = s.exit := by
  obtain ⟨m, hm, rfl⟩ := Option.map_eq_some_iff.mp h
  exact ⟨hm, rfl, rfl⟩

theorem taskStep_cases {t : Tid} {e : Exit} (h : s.taskStep t e = some s') :
    TaskBase.step s.threads (.step t e) = some s'.threads ∧ s'.monitor = s.monitor := by
  obtain ⟨th, hth, rfl⟩ := Option.map_eq_some_iff.mp h
  exact ⟨hth, rfl⟩

/-- A move of the monitor throws only where `Call` does. -/
def MonitorMove (s : FutureTask Tid R) (a : Action Tid R) (b : Monitor.Action Tid (Method R) Unit) : Prop :=
  ∀ t, b = .step t true → ∃ e value, a = .step t e value ∧ inDoRun (s.monitor.pc t) = true ∧ e ≠ .ret

/-- A move of the task is one of `a`, and leaves `DoRun` only when the monitor does; it returns when that does. -/
def TaskMove (s : FutureTask Tid R) (a : Action Tid R) (b : TaskBase.Action Tid) : Prop :=
  ∀ t e, b = .step t e → (∃ e' value, a = .step t e' value) ∧
    (s.threads.pc t = .run .doRun → ∃ value r, s.monitor.pc t = .leave (.doRun value) r ∧ (r ≠ none → e = .ret))

/-- What a move does to the monitor and to the task. -/
theorem step_cases (h : s.step a = some s') :
    (s'.monitor = s.monitor ∨ ∃ b, Monitor.next code s.monitor b = some s'.monitor ∧ s.MonitorMove a b) ∧
    (s'.threads = s.threads ∨ ∃ b, TaskBase.step s.threads b = some s'.threads ∧ s.TaskMove a b) := by
  cases a with
  | call t c =>
    simp only [step] at h
    split at h
    · obtain ⟨th, hth, rfl⟩ := Option.map_eq_some_iff.mp h
      exact ⟨Or.inl rfl, Or.inr ⟨_, hth, nofun⟩⟩
    · cases h
  | get t attempt =>
    simp only [step] at h
    split at h
    · obtain ⟨hm, hth, -⟩ := monitorStep_cases h
      exact ⟨Or.inr ⟨_, hm, nofun⟩, Or.inl hth⟩
    · cases h
  | wakeCancel t =>
    obtain ⟨th, hth, rfl⟩ := Option.map_eq_some_iff.mp h
    exact ⟨Or.inl rfl, Or.inr ⟨_, hth, nofun⟩⟩
  | wakeResult t =>
    obtain ⟨hm, hth, -⟩ := monitorStep_cases h
    exact ⟨Or.inr ⟨_, hm, nofun⟩, Or.inl hth⟩
  | step t e value =>
    simp only [step] at h
    split at h
    · rename_i hpc
      split at h
      · obtain ⟨hm, hth, -⟩ := monitorStep_cases h
        exact ⟨Or.inr ⟨_, hm, nofun⟩, Or.inl hth⟩
      · rename_i hne
        obtain ⟨hth, hm⟩ := taskStep_cases h
        refine ⟨Or.inl hm, Or.inr ⟨_, hth, ?_⟩⟩
        rintro u e' ⟨⟩
        exact ⟨⟨e, value, rfl⟩, fun hu => absurd hu (hne)⟩
    · rename_i hpc
      split at h
      · cases h
      · obtain ⟨s1, h1, rfl⟩ := Option.map_eq_some_iff.mp h
        obtain ⟨hm, hth, -⟩ := monitorStep_cases h1
        refine ⟨Or.inr ⟨_, hm, ?_⟩, Or.inl hth⟩
        intro u hu
        obtain ⟨rfl, he⟩ : t = u ∧ decide (e ≠ .ret) = true := by simpa using hu
        exact ⟨e, value, rfl, by rw [hpc]; rfl, by simpa using he⟩
    · rename_i r hpc
      obtain ⟨s1, h1, h2⟩ := Option.bind_eq_some_iff.mp h
      obtain ⟨hm, hth, -⟩ := monitorStep_cases h1
      obtain ⟨hth2, hm2⟩ := taskStep_cases h2
      refine ⟨Or.inr ⟨.step t false, by rw [hm2]; exact hm, nofun⟩, Or.inr ⟨_, by rw [← hth]; exact hth2, ?_⟩⟩
      rintro u e' ⟨⟩
      refine ⟨⟨e, value, rfl⟩, fun _ => ⟨_, r, hpc, fun hr => ?_⟩⟩
      rw [if_pos (Option.isSome_iff_ne_none.mpr hr)]
    · obtain ⟨hm, hth, -⟩ := monitorStep_cases h
      exact ⟨Or.inr ⟨_, hm, nofun⟩, Or.inl hth⟩

/-- A run of the whole is a run of its monitor. -/
theorem Reachable.monitor (h : (system Tid init).Reachable ok s) :
    (Monitor.system code ⟨init, false, []⟩).Reachable Anything s.monitor := by
  refine h.induct (I := fun s => (Monitor.system code ⟨init, false, []⟩).Reachable Anything s.monitor)
    System.Reachable.init ?_
  intro s a s' _ _ hs ih
  rcases (step_cases hs).1 with hm | ⟨b, hm, -⟩
  · rwa [hm]
  · exact ih.step trivial hm

theorem Reachable.proved (h : (system Tid init).Reachable ok s) :
    Proved (@Consistent Tid R init) (Free init) s.monitor := verified.sound free_new (Reachable.monitor h)

/-- A `Call` that throws leaves the result as it was. -/
theorem step_throws {t : Tid} {e : Exit} {value : R} (hin : inDoRun (s.monitor.pc t) = true) (he : e ≠ .ret)
    (h : s.step (.step t e value) = some s') : s'.monitor.data = s.monitor.data := by
  cases hpc : s.monitor.pc t with
  | idle | enter | blocked | leave => rw [hpc] at hin; cases hin
  | body m rest x =>
    cases m with
    | getResult | tryGetResult => rw [hpc] at hin; cases hin
    | doRun v =>
      simp only [step, hpc] at h
      split at h
      · cases h
      · obtain ⟨s1, h1, rfl⟩ := Option.map_eq_some_iff.mp h
        rw [decide_eq_true he] at h1
        exact next_throws (monitorStep_cases h1).1

/-- **A future task delivers the value that was computed**: the result is always that of the last `Call` that completed;
`GetResult` and `TryGetResult` read that value, or find that no `Call` has completed; nobody is blocked for a result
that is there; and a `Call` that throws leaves the result alone. -/
theorem delivers (h : (system Tid init).Reachable Anything s) :
    s.monitor.data.result = s.monitor.data.completed.getLast?.getD init ∧
    (s.monitor.owner = none → s.monitor.data.completed = calls s.monitor.log) ∧
    (∀ p t r q, s.monitor.log = p ++ (t, .getResult, r) :: q →
      ∃ v, (calls p).getLast? = some v ∧ r = some (.value v)) ∧
    (∀ p t r q, s.monitor.log = p ++ (t, .tryGetResult, r) :: q → r = some (attempt (calls p))) ∧
    ((s.monitor.waiting ()).Nonempty → s.monitor.data.completed = []) ∧
    (∀ t e value s', inDoRun (s.monitor.pc t) = true → e ≠ .ret → s.step (.step t e value) = some s' →
      s'.monitor.data = s.monitor.data) := by
  have hp := Reachable.proved h
  have hc := hp.always verified
  have hv : Verified (@Consistent Tid R init) (Free init) code := verified
  have hl : Logged s.monitor.log := hv.logged (fun hf => hf.logged) free_new (Reachable.monitor h)
  exact ⟨hc.result, fun ho => (hp.free ho).completed, fun p t r q he => (hl p _ q he).1 rfl,
    fun p t r q he => (hl p _ q he).2 rfl, hc.waits, fun t e value s' => step_throws⟩

/-- A thread waits for a result that another one computes. -/
theorem delivers_run : ∃ s : FutureTask (Fin 2) ℕ, s.monitor.data.completed = [7] ∧ s.monitor.data.result = 7 ∧
    s.monitor.log.length = 2 ∧ ∀ p t r q, s.monitor.log = p ++ (t, .getResult, r) :: q →
      ∃ v, (calls p).getLast? = some v ∧ r = some (.value v) := by
  obtain ⟨s, hs, hp⟩ := System.reachable_of_exec (system (Fin 2) 0) Anything
    ([.get 0 false] ++ List.replicate 2 (.step 0 .ret 0) ++ [.call 1 .run] ++ List.replicate 12 (.step 1 .ret 7) ++
      List.replicate 5 (.step 0 .ret 0)) (fun s => s.monitor.data.completed == [7] && s.monitor.log.length == 2)
    (by decide +kernel)
  simp only [Bool.and_eq_true, beq_iff_eq] at hp
  obtain ⟨hresult, -, hget, -⟩ := delivers hs
  rw [hp.1] at hresult
  exact ⟨s, hp.1, hresult, hp.2, hget⟩

/-! ## A task that stops -/

/-- From where a `Run` gets to the point before it writes that the task is finished, or cancelled, and who writes it. -/
structure Stops (th : TaskBase.Threads Tid) (b : TaskBase.Action Tid) (th' : TaskBase.Threads Tid) : Prop where
  finishing : ∀ u, th'.pc u = .run .setFinished →
    th.pc u = .run .setFinished ∨ ∃ e, b = .step u e ∧ th.pc u = .run .doRun
  cancelling : ∀ u, th'.pc u = .run .setCancelled → th.pc u = .run .setCancelled ∨ ∃ e, b = .step u e ∧
    ((th.pc u = .run .checkCancellation ∧ th.task.isRequestCancel = true) ∨ (th.pc u = .run .doRun ∧ e ≠ .ret))
  finished : th'.task.state = .finished → th.task.state = .finished ∨ ∃ u, th.pc u = .run .setFinished
  cancelled : th'.task.state = .cancelled → th.task.state = .cancelled ∨ ∃ u, th.pc u = .run .setCancelled

theorem task_stops {th th' : TaskBase.Threads Tid} {b : TaskBase.Action Tid} (h : TaskBase.step th b = some th') :
    Stops th b th' := by
  -- a move of the thread `t` to `p` that leaves the task in `x`
  have key : ∀ {t p x}, th'.pc = Function.update th.pc t p → th'.task = x →
      (p = .run .setFinished → ∃ e, b = .step t e ∧ th.pc t = .run .doRun) →
      (p = .run .setCancelled → ∃ e, b = .step t e ∧
        ((th.pc t = .run .checkCancellation ∧ th.task.isRequestCancel = true) ∨ (th.pc t = .run .doRun ∧ e ≠ .ret))) →
      (x.state = .finished → th.task.state = .finished ∨ th.pc t = .run .setFinished) →
      (x.state = .cancelled → th.task.state = .cancelled ∨ th.pc t = .run .setCancelled) → Stops th b th' := by
    intro t p x hpc htask hf hc hsf hsc
    refine ⟨fun u hu => ?_, fun u hu => ?_, fun hs => ?_, fun hs => ?_⟩
    · rw [hpc] at hu
      by_cases hut : u = t
      · subst hut
        rw [Function.update_self] at hu
        exact Or.inr (hf hu)
      · rw [Function.update_of_ne hut] at hu
        exact Or.inl hu
    · rw [hpc] at hu
      by_cases hut : u = t
      · subst hut
        rw [Function.update_self] at hu
        exact Or.inr (hc hu)
      · rw [Function.update_of_ne hut] at hu
        exact Or.inl hu
    · rw [htask] at hs
      exact (hsf hs).imp_right fun h => ⟨t, h⟩
    · rw [htask] at hs
      exact (hsc hs).imp_right fun h => ⟨t, h⟩
  rcases TaskBase.step_cases h with ⟨t, c, rfl, -, rfl⟩ | ⟨t, e, rfl, -, rfl⟩ | ⟨t, e, async, rfl, -, rfl⟩ |
    ⟨t, e, p, x, p', rfl, hp, hr, rfl⟩ | ⟨t, e, async, p, x, p', rfl, -, hr, rfl⟩ | ⟨t, rfl, rfl⟩
  · exact key rfl rfl (by cases c <;> simp [TaskBase.Call.start]) (by cases c <;> simp [TaskBase.Call.start]) Or.inl
      Or.inl
  · exact key rfl rfl (by simp) (by simp) Or.inl Or.inl
  · exact key rfl rfl (by simp) (by simp) Or.inl Or.inl
  · rcases TaskBase.run_cases hr with ⟨-, rfl, rfl⟩ | ⟨rfl, rfl, rfl⟩ | ⟨rfl, rfl, rfl⟩ | ⟨-, rfl, rfl⟩ |
      ⟨rfl, ⟨rfl, hp'⟩ | ⟨rfl, hp'⟩ | ⟨-, hp'⟩⟩
    · refine key rfl rfl (by simp) (by simp) ?_ ?_ <;> simp [TaskBase.Threads.goto, TaskBase.setState]
    · refine key rfl rfl (by simp) (by simp) (fun _ => Or.inr hp) ?_
      simp [TaskBase.Threads.goto, TaskBase.setState]
    · refine key rfl rfl (by simp) (by simp) ?_ fun _ => Or.inr hp
      simp [TaskBase.Threads.goto, TaskBase.setState]
    · exact key rfl rfl (by simp) (by simp) Or.inl Or.inl
    · -- `Run` checks for a request
      refine key rfl rfl (fun he => ?_) (fun he => ⟨e, rfl, Or.inl ⟨hp, ?_⟩⟩) Or.inl Or.inl
      · rw [hp'] at he
        split at he <;> cases he
      · by_contra hf
        rw [hp', if_neg hf] at he
        cases he
    · -- `DoRun` is over
      refine key rfl rfl (fun _ => ⟨e, rfl, hp⟩) (fun he => ⟨e, rfl, Or.inr ⟨hp, ?_⟩⟩) Or.inl Or.inl
      rintro rfl
      simp only [TaskBase.run, Option.some.injEq, Prod.mk.injEq] at hr
      rw [← hr.2] at he
      cases he
    · rcases hp' with rfl | rfl <;> exact key rfl rfl (by simp) (by simp) Or.inl Or.inl
  · have hkeep := (TaskBase.cancel_keeps hr).1
    exact key rfl rfl (by simp) (by simp) (fun hs => Or.inl (hkeep ▸ hs)) fun hs => Or.inl (hkeep ▸ hs)
  · exact ⟨fun _ => Or.inl, fun _ => Or.inl, Or.inl, Or.inl⟩

/-- In a run in which every `Run` completes, nothing leaves `DoRun` by an exception, and the task stops only with a
result. -/
structure Settles (s : FutureTask Tid R) : Prop where
  returns : ∀ t value, s.monitor.pc t ≠ .leave (.doRun value) none
  finishing : ∀ t, s.threads.pc t = .run .setFinished → s.monitor.data.completed ≠ []
  finished : s.threads.task.state = .finished → s.monitor.data.completed ≠ []
  cancelling : ∀ t, s.threads.pc t ≠ .run .setCancelled
  cancelled : s.threads.task.state ≠ .cancelled

/-- No move takes a completed `Call` back. -/
theorem completed_mono (h : (system Tid init).Reachable ok s) (hs : s.step a = some s')
    (hne : s.monitor.data.completed ≠ []) : s'.monitor.data.completed ≠ [] := by
  rcases (step_cases hs).1 with hm | ⟨b, hm, -⟩
  · rwa [hm]
  · refine next_data (R := fun d d' : Data R => d.completed ≠ [] → d'.completed ≠ []) (fun _ => id) ?_
      (Reachable.monitor h) hm hne
    intro m throws g hg d x d' x' hd
    cases m with
    | getResult | tryGetResult =>
      obtain ⟨rfl, rfl⟩ : throws = false ∧ g = fun d _ => some (d, .value d.result) := by
        simpa [code, body, getResult, tryGetResult] using hg
      cases hd
      exact id
    | doRun value =>
      simp only [code, body, doRun, List.mem_cons, reduceCtorEq, Stmt.act.injEq, List.not_mem_nil, or_false,
        false_or] at hg
      rcases hg with ⟨rfl, rfl⟩ | ⟨rfl, rfl⟩
      · cases hd
        simp
      · cases hd
        exact id

theorem Reachable.settles (h : (system Tid init).Reachable Completes s) : Settles s := by
  refine h.induct (I := Settles) ⟨?_, ?_, ?_, ?_, ?_⟩ ?_
  · simp [system, Monitor.system]
  · simp [system, TaskBase.system]
  · simp [system, TaskBase.system, TaskBase.new]
  · simp [system, TaskBase.system]
  · simp [system, TaskBase.system, TaskBase.new]
  intro s a s' hr hok hs hi
  obtain ⟨hmon, htask⟩ := step_cases hs
  -- a move of the task leaves the monitor's points alone when it leaves `DoRun`, and then a `Call` has completed
  have hleave : ∀ t value r, s.monitor.pc t = .leave (.doRun value) r → r ≠ none ∧ s.monitor.data.completed ≠ [] := by
    intro t value r hpc
    cases r with
    | none => exact absurd hpc (hi.returns t value)
    | some x =>
      refine ⟨by simp, ?_⟩
      rw [((Reachable.proved hr).leave t _ _ hpc).completed]
      simp [calls]
  have hmono := completed_mono hr hs
  have hreturns : ∀ t value, s'.monitor.pc t ≠ .leave (.doRun value) none := by
    intro t value hpc
    rcases hmon with hm | ⟨b, hm, hmove⟩
    · rw [hm] at hpc
      exact hi.returns t value hpc
    · rcases next_leave_none hm hpc with hpc | rfl
      · exact hi.returns t value hpc
      · obtain ⟨e, v, rfl, hin, he⟩ := hmove t rfl
        exact he (hok.2 hin)
  rcases htask with hth | ⟨b, hth, hmove⟩
  · exact ⟨hreturns, fun t ht => hmono (hi.finishing t (by rwa [hth] at ht)),
      fun hf => hmono (hi.finished (by rwa [hth] at hf)), fun t ht => hi.cancelling t (by rwa [hth] at ht),
      fun hc => hi.cancelled (by rwa [hth] at hc)⟩
  · obtain ⟨hfinishing, hcancelling, hfinished, hcancelled⟩ := task_stops hth
    refine ⟨hreturns, fun t ht => ?_, fun hf => ?_, fun t ht => ?_, fun hc => ?_⟩
    · rcases hfinishing t ht with ht | ⟨e, rfl, hdo⟩
      · exact hmono (hi.finishing t ht)
      · obtain ⟨-, hdo'⟩ := hmove t e rfl
        obtain ⟨value, r, hpc, -⟩ := hdo' hdo
        exact hmono (hleave t value r hpc).2
    · rcases hfinished hf with hf | ⟨t, ht⟩
      · exact hmono (hi.finished hf)
      · exact hmono (hi.finishing t ht)
    · rcases hcancelling t ht with ht | ⟨e, rfl, ⟨hcheck, hreq⟩ | ⟨hdo, he⟩⟩
      · exact hi.cancelling t ht
      · obtain ⟨⟨e', value, rfl⟩, -⟩ := hmove t e rfl
        rw [hok.1 hcheck] at hreq
        cases hreq
      · obtain ⟨-, hdo'⟩ := hmove t e rfl
        obtain ⟨value, r, hpc, hret⟩ := hdo' hdo
        exact he (hret (hleave t value r hpc).1)
    · rcases hcancelled hc with hc | ⟨t, ht⟩
      · exact hi.cancelled hc
      · exact hi.cancelling t ht

/-- **`GetResult` does not outlive its task**, in the runs in which every `Run` finds no request and its `Call`
returns. -/
theorem getResult_settled (h : (system Tid init).Reachable Completes s) (hstop : s.threads.task.isStopState = true) :
    s.monitor.waiting () = ∅ := by
  have hi := Reachable.settles h
  have hfin : s.threads.task.state = .finished := by
    have hc := hi.cancelled
    cases hst : s.threads.task.state <;> simp_all [TaskBase.isStopState]
  by_contra hne
  have hc := (Reachable.proved h).always verified
  exact hi.finished hfin (hc.waits (Finset.nonempty_iff_ne_empty.mpr hne))

theorem getResult_settled_run : ∃ s : FutureTask (Fin 2) ℕ, s.threads.task.state = .finished ∧ s.threads.pc 1 = .idle ∧
    s.monitor.waiting () = ∅ := by
  obtain ⟨s, hs, hp⟩ := System.reachable_of_exec (system (Fin 2) 0) Completes
    ([.get 0 false] ++ List.replicate 2 (.step 0 .ret 0) ++ [.call 1 .run] ++ List.replicate 12 (.step 1 .ret 7))
    (fun s => s.threads.task.state == .finished && s.threads.pc 1 == .idle) (by decide +kernel)
  simp only [Bool.and_eq_true, beq_iff_eq] at hp
  exact ⟨s, hp.1, hp.2, getResult_settled hs (by simp [TaskBase.isStopState, hp.1])⟩

/-- The task was cancelled and the `Run` of `t` is over, but `u` is blocked in `GetResult`. -/
def Stranded (s : FutureTask Tid R) (t u : Tid) : Prop :=
  s.threads.task.state = .cancelled ∧ s.threads.pc t = .idle ∧ u ∈ s.monitor.waiting ()

instance (s : FutureTask Tid R) (t u : Tid) : Decidable (s.Stranded t u) :=
  inferInstanceAs (Decidable (s.threads.task.state = .cancelled ∧ s.threads.pc t = .idle ∧ u ∈ s.monitor.waiting ()))

theorem stranded_of_any {o : Option (FutureTask Tid R)} {t u : Tid}
    (h : o.any (fun s => decide (s.Stranded t u)) = true) : ∃ s, o = some s ∧ s.Stranded t u := by
  obtain ⟨s, hs, hp⟩ := (Option.any_eq_true _ _).mp h
  exact ⟨s, hs, of_decide_eq_true hp⟩

/-- A thread waits for the result; the task is cancelled, then run. -/
def cancelledBefore : List (Action (Fin 2) ℕ) :=
  .get 0 false :: List.replicate 2 (.step 0 .ret 0) ++ .call 1 .cancelAsync :: List.replicate 3 (.step 1 .ret 0) ++
    .call 1 .run :: List.replicate 5 (.step 1 .ret 0)

/-- A thread waits for the result; the task is run, and cancelled in `Call`, which `CheckCancellation` leaves. -/
def cancelledDuring : List (Action (Fin 3) ℕ) :=
  .get 0 false :: List.replicate 2 (.step 0 .ret 0) ++ .call 1 .run :: List.replicate 5 (.step 1 .ret 0) ++
    [.call 2 .cancelAsync, .step 2 .ret 0, .step 1 .cancel 0] ++ List.replicate 5 (.step 1 .ret 0) ++
    List.replicate 2 (.step 0 .ret 0)

/-- **A cancelled task strands those who wait for its result**: when the cancel was requested before the task was run,
and when the exception of `CheckCancellation` leaves its `Call`. In both runs the one `Run` is over. -/
theorem cancelled_strands :
    (∃ s, (system (Fin 2) 0).exec Anything (system (Fin 2) 0).init cancelledBefore = some s ∧ s.Stranded 1 0) ∧
    ∃ s, (system (Fin 3) 0).exec Anything (system (Fin 3) 0).init cancelledDuring = some s ∧ s.Stranded 1 0 :=
  ⟨stranded_of_any (by decide +kernel), stranded_of_any (by decide +kernel)⟩

end Steps

end FutureTask

end Tpool
