import Tpool.Pool.Calls
import Tpool.Pool.Served

/-!
# The pool does what the abstract pool does

- `view_step`: what a step of the pool shows of the abstract pool is one move, or nothing.
- `Reachable.view`: so a run of the pool shows a run of the abstract pool, and what holds of the latter holds of the
  former.
-/

namespace Tpool.FixedThreadPool

open Concurrency Tpool.Core

variable {n : Nat} {Cl T : Type*} {isEndTask : T → Bool}

/-- Nothing is to be seen, or a move of the abstract pool. -/
def Shows [DecidableEq Cl] (isEndTask : T → Bool) (v v' : Core n Cl T) : Prop := v' = v ∨ Core.Step isEndTask v v'

section View

variable {s s' : FixedThreadPool n Cl T} {i : Fin n}

/-- A worker changes and its request to cancel does not. -/
theorem view_setWorld {w : WorkerThread.World Cl T (Fin n)}
    (h : w.worker.thread.isRequestCancel = (s.threads i).thread.isRequestCancel) :
    (s.setWorld i w).view = { s.view.setWorker i w.worker.pc.view with queue := w.queue, runs := w.runs } := by
  have hworker : (fun j => (Function.update s.threads i w.worker j).pc.view) =
      Function.update (fun j => (s.threads j).pc.view) i w.worker.pc.view := by
    funext j
    by_cases hj : j = i
    · subst hj; simp
    · simp [hj]
  have hflag : (fun j => (Function.update s.threads i w.worker j).thread.isRequestCancel) =
      fun j => (s.threads j).thread.isRequestCancel := by
    funext j
    by_cases hj : j = i
    · subst hj; simpa using h
    · simp [hj]
  simp only [view, setWorld, setThread, setWorker, hworker, hflag]

theorem view_setThread {w : WorkerThread Cl T}
    (h : w.thread.isRequestCancel = (s.threads i).thread.isRequestCancel) :
    (s.setThread i w).view = s.view.setWorker i w.pc.view :=
  view_setWorld (w := ⟨w, s.taskQueue, s.task, s.runs, s.returned⟩) h

/-- A worker changes in `NotifyWhenThreadsStop`. -/
theorem view_notify {w : WorkerThread Cl T} (h : w.thread.isRequestCancel = (s.threads i).thread.isRequestCancel)
    (stopped : List (Fin n)) (state : PoolState) (stateWaiters : Finset Cl) :
    ({ s.setThread i w with stopped, state, stateWaiters } : FixedThreadPool n Cl T).view =
      { s.view.setWorker i w.pc.view with incs := stopped, state, stateWaiters } :=
  congrArg (fun v : Core n Cl T => { v with incs := stopped, state, stateWaiters }) (view_setThread h)

/-- The abstract worker stays where it is. -/
theorem setWorker_self {v : Core n Cl T} {w : Worker} (h : w = v.worker i) : v.setWorker i w = v := by
  subst h
  simp [setWorker]

/-- Nothing of a worker changes that shows. -/
theorem view_setThread_same {w : WorkerThread Cl T} (h1 : w.pc = (s.threads i).pc)
    (h2 : w.thread.isRequestCancel = (s.threads i).thread.isRequestCancel) : (s.setThread i w).view = s.view := by
  rw [view_setThread h2]
  exact setWorker_self (congrArg WorkerThread.PC.view h1)

/-- A worker is asked to cancel. -/
theorem view_cancelAsync :
    (s.setThread i { s.threads i with thread := (s.threads i).thread.cancelAsync }).view =
      { s.view with isRequestCancel := Function.update s.view.isRequestCancel i true } := by
  have hworker : (fun j => (Function.update s.threads i
      { s.threads i with thread := (s.threads i).thread.cancelAsync } j).pc.view) = fun j => (s.threads j).pc.view := by
    funext j
    by_cases hj : j = i
    · subst hj; simp
    · simp [hj]
  have hflag : (fun j => (Function.update s.threads i
      { s.threads i with thread := (s.threads i).thread.cancelAsync } j).thread.isRequestCancel) =
      Function.update (fun j => (s.threads j).thread.isRequestCancel) i true := by
    funext j
    by_cases hj : j = i
    · subst hj; simp [CancelableThread.cancelAsync]
    · simp [hj]
  simp only [view, setThread, hworker, hflag]

variable [DecidableEq Cl]

theorem view_goto (c : Cl) (pc : ClientPC T) : (s.goto c pc).view = s.view := rfl

variable [DecidableEq T]

/-- The steps of a worker. -/
theorem WorkerStep.shows {e : Exit} (hi : Shape isEndTask s) (h : WorkerStep isEndTask i e s s') :
    Shows isEndTask s.view s'.view := by
  have hw : ∀ {pc}, (s.threads i).pc = pc → s.view.worker i = pc.view := fun h => congrArg WorkerThread.PC.view h
  -- the item in the worker's hand is the one at the position it has taken
  have hheld : ∀ {k}, (s.threads i).pc = .dispatch k → ∃ item, (s.threads i).runningTask = some item ∧
      s.taskQueue.pushes[k]? = some item := by
    intro k hpc
    have h := (hi i).holds
    rw [hpc] at h
    exact h
  cases h with
  | @count why hpc =>
    have hv := view_notify (s := s) (i := i) (w := (s.threads i).goto (.notifyStop why (s.stopped.length + 1))) rfl
      (s.stopped ++ [i]) s.state s.stateWaiters
    exact Or.inr (hv ▸ .count (hw hpc))
  | notLast hpc hc =>
    rw [view_setThread (by rfl)]
    exact Or.inr (.skip (hw hpc) hc)
  | @last why c hpc hc hg =>
    have hv := view_notify (s := s) (i := i) (w := (s.threads i).goto (.notifyFinished why)) rfl
      s.stopped .finished (if s.isRequestStop then ∅ else s.stateWaiters)
    exact Or.inr (hv ▸ .finish (hw hpc) hc)
  | thread h =>
    cases h with
    | setRunning hpc | enter hpc | check hpc | unlock hpc | recheck hpc | run hpc =>
      rw [view_setWorld (by rfl)]
      exact Or.inl (setWorker_self (hw hpc).symm)
    | cancelled hpc hf =>
      rw [view_setWorld (by rfl)]
      have hw : s.view.worker i = .looping := by rcases hpc with hpc | hpc <;> exact hw hpc
      exact Or.inr (.cancelled hw hf)
    | lock hpc hg =>
      rw [view_setWorld (by rfl)]
      exact Or.inr (.take (hw hpc))
    | pop hpc hpop =>
      rw [view_setWorld (by rfl)]
      have hw : s.view.worker i = .popping := by rcases hpc with hpc | ⟨hpc, -⟩ <;> exact hw hpc
      have hnot : i ∉ s.taskQueue.waiting := by
        rcases hpc with hpc | ⟨-, hnot⟩
        · intro h
          have := (hi i).waiting h
          rw [show (s.threads i).pc = .pop from hpc] at this
          cases this
        · exact hnot
      exact Or.inr (.pop hw hnot hpop)
    | block he hpc =>
      rw [view_setWorld (by rfl)]
      have hw : s.view.worker i = .popping := by rcases hpc with hpc | hpc <;> exact hw hpc
      refine Or.inr ?_
      show Core.Step isEndTask s.view { s.view.setWorker i .popping with queue := s.taskQueue.block i he }
      rw [setWorker_self hw.symm]
      exact .block he hw
    | dropped hpc hf =>
      rw [view_setWorld (by rfl)]
      exact Or.inr (.dropped (hw hpc) hf)
    | null hpc ht =>
      obtain ⟨item, hitem, -⟩ := hheld hpc
      rw [show (s.threads i).runningTask = none from ht] at hitem
      cases hitem
    | ended hpc ht he =>
      obtain ⟨item, hitem, hget⟩ := hheld hpc
      obtain rfl := Option.some.inj (ht.symm.trans hitem)
      rw [view_setWorld (by rfl)]
      exact Or.inr (.ended (hw hpc) hget he)
    | start hpc ht he =>
      obtain ⟨item, hitem, hget⟩ := hheld hpc
      obtain rfl := Option.some.inj (ht.symm.trans hitem)
      rw [view_setWorld (by rfl)]
      exact Or.inr (.start (hw hpc) hget he)
    | stop hpc =>
      rw [view_setWorld (by rfl)]
      exact Or.inr (.stop (hw hpc))
    | escape hpc =>
      rw [view_setWorld (by rfl)]
      exact Or.inr (.escape (hw hpc))
    | notifyFinished hpc =>
      rw [view_setWorld (by rfl)]
      exact Or.inr (.terminate (hw hpc))

/-- The steps of the clients. -/
theorem ClientStep.shows {c : Cl} (hctor : s.ctor = .done) (hi : Outline s) (hwin : Winning s) (h : ClientStep c s s') :
    Shows isEndTask s.view s'.view := by
  have hcon : s.view.constructed = true := by simp [view, hctor]
  have ha := hi.asserts c
  cases h with
  | push hpc => exact Or.inr (.push _ hcon)
  | win hpc hr => exact Or.inr (.cas hcon hr)
  | @pushEndTask k j hpc hj =>
    rw [hpc] at ha
    refine Or.inr (.pushEnd ha ?_)
    cases hwin with
    | nobody _ _ _ h => have := h c; rw [hpc] at this; cases this
    | pushed _ _ _ h => have := h c; rw [hpc] at this; cases this
    | pushing c' i _ hends _ _ hpush hnone =>
      have hcc : c = c' := by
        by_contra hne
        have := hnone c hne
        rw [hpc] at this
        cases this
      subst hcc
      rw [hpc] at hpush
      cases hpush
      exact lt_of_eq_of_lt hends hj
  | join hpc hg hs =>
    have ha : s.isRequestStop = true := by rcases hpc with hpc | ⟨hpc, -⟩ <;> rw [hpc] at ha <;> exact ha
    exact Or.inr (.join c ha hs)
  | @cancelThread j pc' hj hpc =>
    have ha : s.isRequestStop = true := by
      rcases hpc with ⟨hpc, -⟩ | ⟨hpc, -⟩ <;> rw [hpc] at ha
      · exact ha
      · exact ha.1
    rw [view_goto, view_cancelAsync]
    exact Or.inr (.requestCancel ⟨j, hj⟩ ha)
  | lockRunningTask hj | unlockRunningTask hj =>
    rw [view_goto, view_setThread_same (by rfl) (by rfl)]
    exact Or.inl rfl
  | waitThread hj =>
    rw [view_goto, view_setThread_same (by rfl) (CancelableThread.awaitFinished_isRequestCancel _ _)]
    exact Or.inl rfl
  | _ => exact Or.inl rfl

/-- The steps of the timer thread. -/
theorem TimerStep.shows (hctor : s.ctor = .done) (h : TimerStep s s') : Shows isEndTask s.view s'.view := by
  cases h with
  | push => exact Or.inr (.push _ (by simp [view, hctor]))
  | _ => exact Or.inl rfl

/-- Someone wakes. -/
theorem wakeStep_shows (w : Wake n Cl T) : Shows isEndTask s.view (s.wakeStep w).view := by
  cases w with
  | worker i => exact Or.inr (.wakeWorker i)
  | state c => exact Or.inr (.wakeState c)
  | thread i c => exact Or.inl (view_setThread_same rfl rfl)
  | _ => exact Or.inl rfl

/-- **What a step of the pool shows is a move of the abstract pool, or nothing.** -/
theorem view_step {ok : FixedThreadPool n Cl T → Action n Cl T → Prop} {a : Action n Cl T}
    (hr : (system n Cl isEndTask).Reachable ok s) (hv : Core.Reachable isEndTask s.view)
    (hs : (system n Cl isEndTask).step s a = some s') : Shows isEndTask s.view s'.view := by
  have hcon : s.ctor ≠ .done → s.view.constructed = false := fun h => by simpa [view] using h
  cases step_cases hs with
  | @start k hk hc =>
    have hnot := hcon (by simp [hc])
    have habs : (s.threads ⟨k, hk⟩).pc = .absent := (Reachable.built hr ⟨k, hk⟩).mpr ⟨k, le_rfl, hc⟩
    have hflag : s.view.isRequestCancel ⟨k, hk⟩ = false := hv.begun.unflagged (hv.begun.fresh hnot).2.1 _
    have hnew := view_setThread (s := s) (i := ⟨k, hk⟩) (w := ⟨.new, none, .free, .setRunning⟩) hflag.symm
    have heq : ({ s.setThread ⟨k, hk⟩ ⟨.new, none, .free, .setRunning⟩ with ctor := .starting (k + 1) } :
        FixedThreadPool n Cl T).view = s.view.setWorker ⟨k, hk⟩ .looping := by
      calc _ = { (s.setThread ⟨k, hk⟩ ⟨.new, none, .free, .setRunning⟩).view with constructed := false } := rfl
        _ = { s.view.setWorker ⟨k, hk⟩ .looping with constructed := false } := by rw [hnew]; rfl
        _ = s.view.setWorker ⟨k, hk⟩ .looping := by rw [← hnot]; rfl
    rw [heq]
    exact Or.inr (.create (congrArg WorkerThread.PC.view habs) hnot)
  | started hc hk =>
    exact Or.inl (by simp [view, hc])
  | constructed hc =>
    have hpresent : ∀ i, s.view.worker i ≠ .absent := by
      intro i habs
      have := (Reachable.built hr i).mp (by cases hpc : (s.threads i).pc <;> simp_all [view, WorkerThread.PC.view])
      obtain ⟨k, -, hk⟩ := this
      rw [hc] at hk
      cases hk
    exact Or.inr (.construct hpresent (hcon (by simp [hc])))
  | call hc hidle => exact Or.inl rfl
  | @client c i s' hidle hs =>
    have hctor : s.ctor = .done := by
      by_contra hne
      exact hidle ((Reachable.quiet hr hne).1 c)
    exact hs.shows hctor (Reachable.outline hr) (Reachable.winning hr)
  | worker hs => exact hs.shows (Reachable.shape hr)
  | timer htm hs =>
    have hctor : s.ctor = .done := by
      by_contra hne
      exact htm (Reachable.quiet hr hne).2.1
    exact hs.shows hctor
  | wake w => exact wakeStep_shows w

/-- **A run of the pool shows a run of the abstract pool.** -/
theorem Reachable.view {ok : FixedThreadPool n Cl T → Action n Cl T → Prop}
    (h : (system n Cl isEndTask).Reachable ok s) : Core.Reachable isEndTask s.view := by
  have hinit : Core.Reachable isEndTask (FixedThreadPool.view (new n Cl T)) := Relation.ReflTransGen.refl
  refine h.induct (I := fun s => Core.Reachable isEndTask s.view) hinit fun s a s' hr _ hs hv => ?_
  rcases view_step hr hv hs with heq | hstep
  · rw [heq]; exact hv
  · exact hv.tail hstep

end View

end Tpool.FixedThreadPool
