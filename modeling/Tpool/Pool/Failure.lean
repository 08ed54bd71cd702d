import Tpool.Pool.Graceful

/-!
# Failing tasks

An exception that `Run` does not catch ends the work function of the worker, and the finish action counts the worker as
stopped. So does an `EndTask` that a user submits.

- `keepsLoop`: the steps that do neither, unless a stop was requested before.
- `alive`: in the runs of such steps all workers are in their loop until a stop is requested. `loses_loop`: every other
  step costs a worker its loop.
-/

namespace Tpool

open Concurrency Tpool.Core

/-- A user's `EndTask` is in `m_runningTask` where the worker looks at it. -/
def WorkerThread.meetsEndTask {Cl T : Type*} (isEndTask : T → Bool) (w : WorkerThread Cl T) : Bool :=
  match w.pc, w.runningTask with
  | .dispatch _, some (.task t) => isEndTask t
  | _, _ => false

namespace FixedThreadPool

variable {n : Nat} {Cl T : Type*} [DecidableEq Cl] [DecidableEq T] {isEndTask : T → Bool}
  {s s' : FixedThreadPool n Cl T}

/-- While no stop was requested, the step lets no exception but that of `CheckCancellation` out of the user's code and
does not take up a user's `EndTask`. -/
def keepsLoop (isEndTask : T → Bool) (s : FixedThreadPool n Cl T) : Action n Cl T → Bool
  | .worker i e => s.isRequestStop || ((s.threads i).pc.exits e && !(s.threads i).meetsEndTask isEndTask)
  | _ => true

/-- All workers are in their work loop, and the pool is not finished. -/
structure Alive (s : FixedThreadPool n Cl T) : Prop where
  inLoop : ∀ i, (s.threads i).pc.hasLeft = false
  present : s.ctor = .done → ∀ i, (s.threads i).pc ≠ .absent
  state : s.state ≠ .finished

/-- Before a stop is requested no worker has left, or is about to because of an exception. -/
def InLoop (s : FixedThreadPool n Cl T) : Prop :=
  s.isRequestStop = false → ∀ i, (s.threads i).pc.why = none ∧ ∀ k t, (s.threads i).pc ≠ .run k t .raised

/-- Before a stop is requested none of the pool's own `EndTask`s is in a worker's hand. -/
theorem Reachable.no_endTask {ok : FixedThreadPool n Cl T → Action n Cl T → Prop}
    (h : (system n Cl isEndTask).Reachable ok s) (hreq : s.isRequestStop = false) {i : Fin n} {k : Nat}
    (hpc : (s.threads i).pc = .dispatch k) : (s.threads i).runningTask ≠ some .endTask := by
  intro hrun
  have hheld := (Reachable.shape h i).holds
  rw [hpc] at hheld
  obtain ⟨item, h1, h2⟩ := hheld
  rw [hrun] at h1
  cases h1
  have hpos : 0 < s.view.endsPushed := List.countP_pos_iff.mpr ⟨_, List.mem_of_getElem? h2, rfl⟩
  have := (Reachable.view h).begun.ends_pos hpos
  rw [show s.view.isRequestStop = s.isRequestStop from rfl, hreq] at this
  cases this

theorem Reachable.inLoop (h : (system n Cl isEndTask).Reachable (fun s a => s.keepsLoop isEndTask a = true) s) :
    InLoop s := by
  refine h.induct (fun _ i => ⟨rfl, by simp [system, new, WorkerThread.absent]⟩) fun s a s' hr ha hs hi => ?_
  have hframe : ∀ {s'}, Frame s s' → InLoop s' := by
    intro s' hf hreq i
    rw [(hf.threads i).1]
    exact hi (Bool.eq_false_iff.mpr fun h => by rw [hf.isRequestStop h] at hreq; cases hreq) i
  cases step_cases hs with
  | @start k hk hc =>
    intro hreq i
    by_cases hik : i = ⟨k, hk⟩
    · subst hik; simp [setThread, WorkerThread.PC.why]
    · simpa [setThread, hik] using hi hreq i
  | started | constructed | call => exact hi
  | client hidle hs => exact hframe hs.frame
  | @worker i e s' hs =>
    intro hreq j
    have hreq : s.isRequestStop = false := hs.rest.2.2.2.2.1.symm.trans hreq
    by_cases hji : j = i
    · subst hji
      obtain ⟨hin, hnot⟩ := hi hreq j
      simp only [keepsLoop, hreq, Bool.false_or, Bool.and_eq_true, Bool.not_eq_true'] at ha
      obtain ⟨hexit, hend⟩ := ha
      refine ⟨Option.eq_none_iff_forall_ne_some.mpr fun why hwhy => ?_, fun k t hraised => ?_⟩
      · rcases hs.leaves hwhy with hold | ⟨-, hf⟩ | ⟨k, item, -, hpc, hrun, he⟩ | ⟨k, t, -, hraised⟩
        · rw [hin] at hold; cases hold
        · -- nobody was asked to cancel
          have := (Reachable.view hr).begun.unflagged hreq j
          rw [show s.view.isRequestCancel j = true from hf] at this
          cases this
        · cases item with
          | endTask => exact Reachable.no_endTask hr hreq hpc hrun
          | task t =>
            simp only [WorkerThread.meetsEndTask, hpc, hrun] at hend
            rw [show isEndTask t = true from he] at hend
            cases hend
        · exact hnot k t hraised
      · rcases hs.raises hraised with ⟨hpc, he⟩ | ⟨hpc, he⟩ <;> simp [WorkerThread.PC.exits, hpc, he] at hexit
    · rw [hs.others j hji]; exact hi hreq j
  | timer htm hs => exact hframe hs.frame
  | wake w => exact hframe (wakeStep_frame w)

/-- **A failing task costs a worker, and nothing else does.** When every step of a run keeps the loop, all workers are
in their work loop in every state in which no stop was requested. -/
theorem alive (h : (system n Cl isEndTask).Reachable (fun s a => s.keepsLoop isEndTask a = true) s)
    (hreq : s.isRequestStop = false) : Alive s := by
  have hin := Reachable.inLoop h hreq
  refine ⟨fun i => by rw [WorkerThread.PC.hasLeft, (hin i).1]; rfl, fun hctor i habs => ?_, fun hf => ?_⟩
  · obtain ⟨k, -, hk⟩ := (Reachable.built h i).mp habs
    rw [hctor] at hk
    cases hk
  · have hpos := ((Reachable.view h).counted.finished hf).1
    obtain ⟨why, p, hwhy, -⟩ := WorkerThread.PC.left_of_counted (counted_of_finished h hf ⟨0, hpos⟩)
    rw [(hin ⟨0, hpos⟩).1] at hwhy
    cases hwhy

/-- An exception that has left `Run` ends the loop with the next step. -/
theorem raised_leaves (isEndTask : T → Bool) {i : Fin n} {k : Nat} {t : T} (hpc : (s.threads i).pc = .run k t .raised) :
    ∃ s', (system n Cl isEndTask).step s (.worker i .ret) = some s' ∧ s'.isRequestStop = s.isRequestStop ∧
      (s'.threads i).pc.hasLeft = true := by
  refine ⟨s.setWorld i { s.world i with worker := (s.threads i).goto (.finishAction (.escaped k)) }, ?_, rfl, ?_⟩
  · simp [system, step, workerStep, WorkerThread.step, world, hpc]
  · rw [setWorld_threads_self]; rfl

/-- **Every other step costs a worker its loop**, at once or with its next step, and no stop was requested. -/
theorem loses_loop {i : Fin n} {e : Exit} (hs : (system n Cl isEndTask).step s (.worker i e) = some s')
    (hk : s.keepsLoop isEndTask (.worker i e) = false) : s'.isRequestStop = false ∧
    ((s'.threads i).pc.hasLeft = true ∨ ∃ s'', (system n Cl isEndTask).step s' (.worker i .ret) = some s'' ∧
      s''.isRequestStop = false ∧ (s''.threads i).pc.hasLeft = true) := by
  simp only [keepsLoop, Bool.or_eq_false_iff, Bool.and_eq_false_iff, Bool.not_eq_false'] at hk
  obtain ⟨hreq, hk⟩ := hk
  have hreq' : s'.isRequestStop = false := by
    cases step_cases hs with
    | worker hs => exact hs.rest.2.2.2.2.1.trans hreq
  have hraised : ∀ {k t}, (s'.threads i).pc = .run k t .raised →
      ∃ s'', (system n Cl isEndTask).step s' (.worker i .ret) = some s'' ∧
        s''.isRequestStop = false ∧ (s''.threads i).pc.hasLeft = true := by
    intro k t hpc
    obtain ⟨s'', h1, h2, h3⟩ := raised_leaves isEndTask hpc
    exact ⟨s'', h1, h2.trans hreq', h3⟩
  refine ⟨hreq', ?_⟩
  rcases hk with hexit | hend
  · cases hpc : (s.threads i).pc with
    | run k t p =>
      simp only [WorkerThread.PC.exits, hpc] at hexit
      refine Or.inr (hraised (k := k) (t := t) ?_)
      cases p with
      | doRun =>
        obtain rfl : e = .other := by simpa using hexit
        simp only [system, step, workerStep, WorkerThread.step, world, hpc, TaskBase.run, Option.map_some,
          Option.some.injEq] at hs
        subst hs
        simp [WorkerThread.goto]
      | onCancel =>
        simp only [system, step, workerStep, WorkerThread.step, world, hpc] at hs
        cases e with
        | ret => cases hexit
        | cancel | other =>
          simp only [TaskBase.run, Option.map_some, Option.some.injEq] at hs
          subst hs
          simp [WorkerThread.goto]
      | _ => cases hexit
    | _ => simp [WorkerThread.PC.exits, hpc] at hexit
  · unfold WorkerThread.meetsEndTask at hend
    split at hend
    · rename_i k t hpc hrun
      simp only [system, step, workerStep, WorkerThread.step, world, hpc, hrun, hend, if_true, Option.map_some,
        Option.some.injEq] at hs
      subst hs
      exact Or.inl (by rw [setWorld_threads_self]; rfl)
    · cases hend

/-- A task that throws: the only worker of the pool has gone, and the pool is finished. -/
theorem not_alive : ¬ ∀ s, (system 1 Unit fun _ : Unit => false).Reachable Anything s → s.isRequestStop = false →
    Alive s := by
  intro hall
  obtain ⟨s, hr, hs⟩ := System.reachable_of_exec (system 1 Unit fun _ : Unit => false) Anything
    (List.replicate 3 .construct ++ [.call () (.addTask (some ()))] ++ List.replicate 2 (.client () ⟨.ret, 0, 0⟩) ++
      List.replicate 10 (.worker 0 .ret) ++ [.worker 0 .other] ++ List.replicate 4 (.worker 0 .ret))
    (fun s => !s.isRequestStop && s.state == .finished) (by decide)
  simp only [Bool.and_eq_true, Bool.not_eq_true', beq_iff_eq] at hs
  exact (hall s hr hs.1).state hs.2

/-- A task that returns, in a pool that goes on. -/
theorem alive_run : ∃ s : FixedThreadPool 1 Unit Unit, s.runs = [(0, .start 0), (0, .stop 0)] ∧ s.Alive := by
  obtain ⟨s, hr, hs⟩ := System.reachable_of_exec (system 1 Unit fun _ : Unit => false)
    (fun s a => s.keepsLoop (fun _ => false) a = true)
    (List.replicate 3 .construct ++ [.call () (.addTask (some ()))] ++ List.replicate 2 (.client () ⟨.ret, 0, 0⟩) ++
      List.replicate 14 (.worker 0 .ret))
    (fun s => !s.isRequestStop && s.runs == [(0, .start 0), (0, .stop 0)]) (by decide)
  simp only [Bool.and_eq_true, Bool.not_eq_true', beq_iff_eq] at hs
  exact ⟨s, hs.2, alive hr hs.1⟩

end FixedThreadPool

end Tpool
