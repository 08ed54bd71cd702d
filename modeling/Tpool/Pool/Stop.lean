import Tpool.Pool.Tasks

/-!
# Stopping the pool

- `quiescent`: once a call of `Stop` or of `StopNow` has returned, no `DoRun` of a user's task is in progress, ever.
- `endTask_accounting`: the `EndTask`s that `StopAsync` pushes are enough for the workers that are left, so that none of
  them is blocked in `Pop` and no caller of `StopNow` is blocked behind one that is.
- `stop_never_hangs_iff`: a pool all of whose workers have terminated after a stop was requested is finished, unless it
  was constructed without workers.
-/

namespace Tpool.FixedThreadPool

open Concurrency Tpool.Core

variable {n : Nat} {Cl T : Type*} [DecidableEq Cl] [DecidableEq T] {isEndTask : T → Bool}
  {ok : FixedThreadPool n Cl T → Action n Cl T → Prop} {s s' : FixedThreadPool n Cl T}

/-! ## Quiescence -/

/-- A `DoRun` of a user's task is in progress, on a worker or on the timer thread. -/
def DoRunInProgress (s : FixedThreadPool n Cl T) : Prop :=
  (∃ i k t, (s.threads i).pc = .run k t .doRun) ∨ ∃ tm id, s.timer = some tm ∧ tm.pc = .doRun id (.run .doRun)

/-- A call of `Stop` or of `StopNow` has returned. -/
def HasReturned (s : FixedThreadPool n Cl T) : Prop := s.stopReturned = true ∨ s.stopNowReturned = true

omit [DecidableEq Cl] [DecidableEq T] in
theorem HasReturned.mono (h : HasReturned s) (h1 : s.stopReturned = true → s'.stopReturned = true)
    (h2 : s.stopNowReturned = true → s'.stopNowReturned = true) : HasReturned s' := h.imp h1 h2

/-- Calls that have returned stay so. -/
theorem PoolStep.hasReturned {a : Action n Cl T} (hs : PoolStep isEndTask s a s') (h : HasReturned s) :
    HasReturned s' := by
  cases hs with
  | client hidle hs =>
    cases hs with
    | unlockState => exact Or.inl rfl
    | stopNowReturned => exact Or.inr rfl
    | _ => exact h
  | worker hs =>
    obtain ⟨-, -, -, -, -, -, -, -, h1, h2, -⟩ := hs.rest
    exact h.mono h1.trans h2.trans
  | timer htm hs => cases hs <;> exact h
  | wake w => cases w <;> exact h
  | start | started | constructed | call => exact h

/-- Where a worker is that was counted. -/
theorem counted_of_finished (h : (system n Cl isEndTask).Reachable ok s) (hf : s.state = .finished) (i : Fin n) :
    (s.threads i).pc.view.counted = true :=
  (Reachable.view h).counted.all hf i

/-- When a call of `Stop` or of `StopNow` has returned every worker has left its work function. -/
theorem Reachable.left (h : (system n Cl isEndTask).Reachable ok s) (hret : HasReturned s) (i : Fin n) :
    ∃ why p, (s.threads i).pc.why = some why ∧ (s.threads i).pc.view = .left why p := by
  have ho := Reachable.outline h
  rcases hret with hret | hret
  · exact WorkerThread.PC.left_of_counted (counted_of_finished h (ho.stopReturned hret) i)
  · have hterm := (Reachable.shape h i).finished.mp (ho.stopNowReturned hret i)
    refine WorkerThread.PC.left_of_counted ?_
    cases hpc : (s.threads i).pc <;> rw [hpc] at hterm <;> first | rfl | cases hterm

theorem Reachable.not_running (h : (system n Cl isEndTask).Reachable ok s) (hret : HasReturned s) (i : Fin n) (k : Nat)
    (t : T) (p : TaskBase.RunPC) : (s.threads i).pc ≠ .run k t p := by
  intro hpc
  obtain ⟨why, -, hwhy, -⟩ := Reachable.left h hret i
  rw [hpc] at hwhy
  cases hwhy

/-- **Quiescence after a stop.** -/
theorem quiescent (h : (system n Cl isEndTask).Reachable Anything s) (hret : HasReturned s)
    (hrun : (system n Cl isEndTask).Reaches Anything s s') : ¬ s'.DoRunInProgress := by
  have h' := h.reaches hrun
  have hret' : HasReturned s' := hrun.keeps (fun _ _ _ _ hs => (step_cases hs).hasReturned) hret
  rintro (⟨i, k, t, hpc⟩ | ⟨tm, id, htm, hpc⟩)
  · exact Reachable.not_running h' hret' i k t .doRun hpc
  · exact (Reachable.timerSound h' tm id .doRun htm hpc).1.2.1 rfl

/-- A client adds a task and stops the pool, the worker runs the task and leaves, and `Stop` returns. -/
def stopRun : List (Action 1 Unit Unit) :=
  List.replicate 3 .construct ++ List.replicate 5 (.worker 0 .ret) ++
    [.call () (.addTask (some ())), .client () ⟨.ret, 0, 0⟩, .client () ⟨.ret, 0, 0⟩, .call () .stop] ++
    List.replicate 5 (.client () ⟨.ret, 0, 0⟩) ++ List.replicate 18 (.worker 0 .ret) ++
    List.replicate 3 (.client () ⟨.ret, 0, 0⟩)

theorem quiescent_stopRun : ∃ s : FixedThreadPool 1 Unit Unit,
    (system 1 Unit fun _ => false).Reachable Anything s ∧ s.HasReturned ∧ ¬ s.DoRunInProgress := by
  obtain ⟨s, hr, hs⟩ := System.reachable_of_exec (system 1 Unit fun _ : Unit => false) Anything stopRun
    (fun s => s.stopReturned && s.runs == [(0, .start 0), (0, .stop 0)]) (by decide)
  have hret : s.HasReturned := Or.inl (Bool.and_eq_true_iff.mp hs).1
  exact ⟨s, hr, hret, quiescent hr hret .refl⟩

/-! ## The `EndTask`s -/

/-- A worker that is blocked in `Pop` and not notified. -/
def Blocked (s : FixedThreadPool n Cl T) (i : Fin n) : Prop := (s.threads i).pc = .blocked ∧ i ∈ s.taskQueue.waiting

omit [DecidableEq Cl] [DecidableEq T] in
/-- An abstract worker may take an end item when its worker may. -/
theorem mayTake_view (hi : Shape isEndTask s) (i : Fin n) :
    (s.view.worker i).mayTake s.taskQueue.pushes = (s.threads i).mayTake := by
  have hheld := (hi i).holds
  show (s.threads i).pc.view.mayTake s.taskQueue.pushes = _
  cases hpc : (s.threads i).pc with
  | unlock k | recheck k | dispatch k =>
    rw [hpc] at hheld
    obtain ⟨item, h1, h2⟩ := hheld
    simp [WorkerThread.PC.view, Worker.mayTake, WorkerThread.mayTake, hpc, h1, h2]
  | _ => simp [WorkerThread.PC.view, Worker.mayTake, WorkerThread.mayTake, hpc]

/-- When the winner has pushed its `EndTask`s there is one for each worker that may still take one. -/
theorem Reachable.ends_left (h : (system n Cl isEndTask).Reachable ok s) (hp : s.endTasksPushed = true) :
    (Finset.univ.filter fun i => (s.threads i).mayTake = true).card ≤ s.taskQueue.elems.countP Item.isStop := by
  have hends : s.endsPushed = n := by
    cases Reachable.winning h with
    | nobody _ _ hno => rw [hp] at hno; cases hno
    | pushing _ _ _ _ hno => rw [hp] at hno; cases hno
    | pushed _ hends => exact hends
  have heq : (Finset.univ.filter fun i => (s.threads i).mayTake = true) =
      Finset.univ.filter fun i => (s.view.worker i).mayTake s.taskQueue.pushes = true :=
    Finset.filter_congr fun i _ => by rw [mayTake_view (Reachable.shape h)]
  rw [heq]
  exact (Reachable.view h).served.ends_left hends

/-- Then nobody is blocked in `Pop`. -/
theorem Reachable.not_blocked (h : (system n Cl isEndTask).Reachable ok s) (hp : s.endTasksPushed = true) (i : Fin n) :
    ¬ s.Blocked i := by
  rintro ⟨hpc, hwait⟩
  have hempty : s.taskQueue.elems = [] := s.taskQueue.waiting_empty ⟨i, hwait⟩
  have hle := Reachable.ends_left h hp
  rw [hempty, List.countP_nil, Nat.le_zero, Finset.card_eq_zero, Finset.filter_eq_empty_iff] at hle
  exact hle (Finset.mem_univ i) (by simp [WorkerThread.mayTake, hpc])

/-- **Accounting for the `EndTask`s.** One caller wins the compare-and-set and at most `n` `EndTask`s are pushed; when
the winner has pushed them, the queue holds one for every worker that may still take one, so none is blocked in `Pop`
and no `StopNow` waits for the guard of one that is. -/
theorem endTask_accounting (h : (system n Cl isEndTask).Reachable Anything s) :
    s.wins ≤ 1 ∧ s.endsPushed ≤ n ∧ (s.endTasksPushed = true →
      (Finset.univ.filter fun i => (s.threads i).mayTake = true).card ≤ s.taskQueue.elems.countP Item.isStop ∧
      (∀ i, ¬ s.Blocked i) ∧
      ∀ c j, s.client c = .lockRunningTask j → ∀ hj : j < n,
        ¬ ((s.threads ⟨j, hj⟩).runningTaskGuard = .worker ∧ s.Blocked ⟨j, hj⟩)) := by
  have hb := (Reachable.view h).begun
  refine ⟨?_, hb.ends_le, fun hp => ⟨Reachable.ends_left h hp, Reachable.not_blocked h hp, fun c j _ hj hblock =>
    Reachable.not_blocked h hp _ hblock.2⟩⟩
  rw [show s.wins = if s.isRequestStop then 1 else 0 from hb.wins]
  split <;> omega

/-- After the push loop of a run: one `EndTask` for the worker that holds the task. -/
theorem endTask_accounting_stopRun : ∃ s : FixedThreadPool 1 Unit Unit, s.endTasksPushed = true ∧ s.wins ≤ 1 ∧
    s.endsPushed ≤ 1 ∧ (Finset.univ.filter fun i => (s.threads i).mayTake = true).card ≤
      s.taskQueue.elems.countP Item.isStop := by
  obtain ⟨s, hr, hs⟩ := System.reachable_of_exec (system 1 Unit fun _ : Unit => false) Anything (stopRun.take 17)
    (fun s => s.endTasksPushed && (s.threads 0).mayTake) (by decide)
  have hp : s.endTasksPushed = true := (Bool.and_eq_true_iff.mp hs).1
  obtain ⟨h1, h2, h3⟩ := endTask_accounting hr
  exact ⟨s, hp, h1, h2, (h3 hp).1⟩

/-! ## The end of the pool -/

/-- The pool is finished only when every worker has left its work function and was counted once; and when a stop was
requested and all of them have terminated it is finished, and nobody is blocked in `Stop`. -/
structure StopSound (s : FixedThreadPool n Cl T) : Prop where
  finished : s.state = .finished → ∀ i, (s.threads i).pc.hasLeft = true ∧ s.stopped.count i = 1
  terminated : s.isRequestStop = true → (∀ i, (s.threads i).pc.isTerminated = true) →
    s.state = .finished ∧ ∀ c, s.client c = .blockedFinished → c ∉ s.stateWaiters

theorem Reachable.stopSound (h : (system n Cl isEndTask).Reachable ok s) (h0 : 0 < n) : StopSound s := by
  have hv := Reachable.view h
  refine ⟨fun hf i => ?_, fun hr ht => ?_⟩
  · have hall := hv.counted.all hf i
    have honce := hv.counted.once i
    rw [hall, if_pos rfl] at honce
    refine ⟨?_, honce⟩
    obtain ⟨why, p, hwhy, -⟩ := WorkerThread.PC.left_of_counted hall
    rw [WorkerThread.PC.hasLeft, hwhy]
    rfl
  · have hterm : ∀ i, ∃ why, s.view.worker i = .left why .terminated := by
      intro i
      have := ht i
      cases hpc : (s.threads i).pc with
      | terminated why => exact ⟨why, congrArg WorkerThread.PC.view hpc⟩
      | _ => rw [hpc] at this; cases this
    obtain ⟨hfin, hnone⟩ := hv.finished h0 hterm
    refine ⟨hfin, fun c _ hc => ?_⟩
    rw [show s.stateWaiters = ∅ from hnone] at hc
    exact absurd hc (Finset.notMem_empty c)

/-- Without workers nobody finishes the pool. -/
theorem unfinished (Cl : Type*) [DecidableEq Cl] [Inhabited Cl] (isEndTask : T → Bool) :
    ∃ s, (system 0 Cl isEndTask).Reachable Anything s ∧ s.isRequestStop = true ∧ s.state ≠ .finished := by
  have hr : (system 0 Cl isEndTask).Reachable Anything
      ({ new 0 Cl T with ctor := .done, state := .running } : FixedThreadPool 0 Cl T) :=
    ((System.Reachable.init).step trivial (a := .construct) rfl).step trivial (a := .construct) rfl
  obtain ⟨s, hs, hpc, hreq, hstate⟩ : ∃ s, (system 0 Cl isEndTask).Reachable Anything s ∧
      s.client default = .compareAndSet .async ∧ s.isRequestStop = false ∧ s.state = .running :=
    ⟨_, hr.step trivial (a := .call default .stopAsync) rfl, by simp [goto, Method.start], rfl, rfl⟩
  have hwin : (system 0 Cl isEndTask).step s (.client default ⟨.ret, 0, 0⟩) =
      some { s.goto default (.timerStarted .async) with isRequestStop := true, wins := s.wins + 1 } := by
    simp [system, step, clientStep, hpc, hreq]
  exact ⟨_, hs.step trivial hwin, rfl, by simp [goto, hstate]⟩

/-- **`Stop` never hangs on a pool whose workers are gone, exactly when the pool has workers.** -/
theorem stop_never_hangs_iff [Inhabited Cl] :
    (∀ s, (system n Cl isEndTask).Reachable Anything s → StopSound s) ↔ 0 < n := by
  constructor
  · intro hall
    rcases Nat.eq_zero_or_pos n with rfl | h0
    · obtain ⟨s, hr, hreq, hne⟩ := unfinished Cl isEndTask
      exact absurd ((hall s hr).terminated hreq fun i => i.elim0).1 hne
    · exact h0
  · exact fun h0 s hr => Reachable.stopSound hr h0

/-- `Stop` on a pool that was constructed without workers. -/
theorem stop_hangs : ¬ ∀ s, (system 0 Unit fun _ : Unit => false).Reachable Anything s → StopSound s := by
  intro hall
  obtain ⟨s, hr, hs⟩ := System.reachable_of_exec (system 0 Unit fun _ : Unit => false) Anything
    ([.construct, .construct, .call () .stop] ++ List.replicate 4 (.client () ⟨.ret, 0, 0⟩))
    (fun s => s.isRequestStop && (s.state != .finished) && decide (() ∈ s.stateWaiters)) (by decide)
  simp only [Bool.and_eq_true, bne_iff_ne, ne_eq] at hs
  exact hs.1.2 ((hall s hr).terminated hs.1.1 fun i => i.elim0).1

end Tpool.FixedThreadPool
