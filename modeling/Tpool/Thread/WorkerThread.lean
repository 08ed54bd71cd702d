import Tpool.Pool.Core
import Tpool.Task.TaskBase
import Tpool.Thread.CancelableThread

/-!
# WorkerThread

- `WorkerThread`: the thread, `m_runningTask` and its guard, and where the thread is: in `ThreadFunction`, in
  `WorkFunction` and `GetTaskFromTaskQueue`, in the `Run` of a task, or in what follows.
- `step`: one step of the thread. What a step may touch besides the worker is the task queue and the task it runs
  (`World`). The finish action belongs to whoever has created the worker, so there is no step from it here.
- `Step`, `step_cases`: what a step can do. `view`: the worker of the abstract pool.
-/

namespace Tpool

open Tpool.Core

/-- Who holds `m_runningTaskGuard`. -/
inductive Guard (Cl : Type*)
  | free
  | worker
  | client (c : Cl)
  deriving DecidableEq

/-- Where a worker thread is; `k` is the position of the item in `m_runningTask`. -/
inductive WorkerThread.PC (T : Type*)
  | absent
  -- ThreadFunction, before the work function
  | setRunning
  | checkCancellation
  -- WorkFunction
  | check
  | lock
  | pop
  | blocked
  | unlock (k : Nat)
  | recheck (k : Nat)
  | dispatch (k : Nat)
  | run (k : Nat) (t : T) (p : TaskBase.RunPC)
  -- ThreadFunction, after the work function
  | finishAction (why : Why)
  | notifyStop (why : Why) (stoppedThreadNum : Nat)
  | notifyFinished (why : Why)
  | terminated (why : Why)

/-- A worker and its thread. -/
structure WorkerThread (Cl T : Type*) where
  thread : CancelableThread Cl
  runningTask : Option (Item T)
  runningTaskGuard : Guard Cl
  pc : WorkerThread.PC T

namespace WorkerThread

variable {Cl T W : Type*}

/-- Before the constructor. -/
def absent : WorkerThread Cl T := ⟨.new, none, .free, .absent⟩

def goto (w : WorkerThread Cl T) (pc : PC T) : WorkerThread Cl T := { w with pc }

/-- What a worker works on: the queue, the tasks, and the record of what was run, and of the tasks whose `DoRun` has
returned. -/
structure World (Cl T W : Type*) where
  worker : WorkerThread Cl T
  queue : TaskQueue (Item T) W
  task : T → TaskBase Cl
  runs : List (W × Event)
  returned : List T

/-- The record after a step of `Run`. -/
def note (returned : List T) (t : T) : TaskBase.RunPC → Exit → List T
  | .doRun, .ret => returned ++ [t]
  | _, _ => returned

section Step

variable [DecidableEq T] [DecidableEq W]

/-- `m_runningTask = m_taskQueue->Pop()`, by the worker `i`, or blocking. -/
def getTaskFromTaskQueue (i : W) (s : World Cl T W) : World Cl T W := match h : s.queue.pop i with
  | some (k, item, queue) =>
    { s with queue, worker := { s.worker with runningTask := some item, pc := .unlock k } }
  | none => { s with queue := s.queue.block i (TaskQueue.pop_eq_none.mp h), worker := s.worker.goto .blocked }

/-- One step of the worker `i`. -/
def step (isEndTask : T → Bool) (i : W) (e : Exit) (s : World Cl T W) : Option (World Cl T W) :=
  let w := s.worker
  match w.pc with
  | .absent => none
  | .setRunning => some { s with worker := { w with thread := w.thread.setRunning, pc := .checkCancellation } }
  | .checkCancellation =>
    some { s with worker := w.goto (if w.thread.isRequestCancel then .finishAction .cancelled else .check) }
  -- 1. check cancel request
  | .check => some { s with worker := w.goto (if w.thread.isRequestCancel then .finishAction .cancelled else .lock) }
  -- 2. fetch task from task queue
  | .lock => match w.runningTaskGuard with
    | .free => some { s with worker := { w with runningTaskGuard := .worker, pc := .pop } }
    | _ => none
  | .pop => some (getTaskFromTaskQueue i s)
  | .blocked => if i ∈ s.queue.waiting then none else some (getTaskFromTaskQueue i s)
  | .unlock k => some { s with worker := { w with runningTaskGuard := .free, pc := .recheck k } }
  -- 2.5. check cancel request again
  | .recheck k =>
    some { s with worker := w.goto (if w.thread.isRequestCancel then .finishAction (.dropped k) else .dispatch k) }
  -- 3. perform the task
  | .dispatch k => match w.runningTask with
    | none => some { s with worker := w.goto .check }
    | some .endTask => some { s with worker := w.goto (.finishAction (.endTask k)) }
    | some (.task t) =>
      if isEndTask t then some { s with worker := w.goto (.finishAction (.endTask k)) }
      else some { s with worker := w.goto (.run k t .checkCancellation), runs := s.runs ++ [(i, .start k)] }
  | .run k _ .ret => some { s with worker := w.goto .check, runs := s.runs ++ [(i, .stop k)] }
  -- an exception that Run does not catch leaves the work function
  | .run k _ .raised => some { s with worker := w.goto (.finishAction (.escaped k)) }
  | .run k t p => ((s.task t).run p e).map fun (b, p') =>
    { s with worker := w.goto (.run k t p'), task := Function.update s.task t b, returned := note s.returned t p e }
  | .finishAction _ | .notifyStop _ _ => none
  | .notifyFinished why => some { s with worker := { w with thread := w.thread.notifyFinished, pc := .terminated why } }
  | .terminated _ => none

end Step

/-! ## What a step can do -/

section Steps

variable [DecidableEq T] [DecidableEq W] (isEndTask : T → Bool) (i : W) (e : Exit)

/-- A step of the worker `i`, by what it does; `e` is how user code is left. -/
inductive Step (s : World Cl T W) : World Cl T W → Prop
  | setRunning : s.worker.pc = .setRunning →
      Step s { s with worker := { s.worker with thread := s.worker.thread.setRunning, pc := .checkCancellation } }
  | enter : s.worker.pc = .checkCancellation → s.worker.thread.isRequestCancel = false →
      Step s { s with worker := s.worker.goto .check }
  | check : s.worker.pc = .check → s.worker.thread.isRequestCancel = false →
      Step s { s with worker := s.worker.goto .lock }
  | cancelled : s.worker.pc = .checkCancellation ∨ s.worker.pc = .check → s.worker.thread.isRequestCancel = true →
      Step s { s with worker := s.worker.goto (.finishAction .cancelled) }
  | lock : s.worker.pc = .lock → s.worker.runningTaskGuard = .free →
      Step s { s with worker := { s.worker with runningTaskGuard := .worker, pc := .pop } }
  | pop {k item queue} : s.worker.pc = .pop ∨ s.worker.pc = .blocked ∧ i ∉ s.queue.waiting →
      s.queue.pop i = some (k, item, queue) →
      Step s { s with queue, worker := { s.worker with runningTask := some item, pc := .unlock k } }
  | block (h : s.queue.elems = []) : s.worker.pc = .pop ∨ s.worker.pc = .blocked →
      Step s { s with queue := s.queue.block i h, worker := s.worker.goto .blocked }
  | unlock {k} : s.worker.pc = .unlock k →
      Step s { s with worker := { s.worker with runningTaskGuard := .free, pc := .recheck k } }
  | recheck {k} : s.worker.pc = .recheck k → s.worker.thread.isRequestCancel = false →
      Step s { s with worker := s.worker.goto (.dispatch k) }
  | dropped {k} : s.worker.pc = .recheck k → s.worker.thread.isRequestCancel = true →
      Step s { s with worker := s.worker.goto (.finishAction (.dropped k)) }
  | null {k} : s.worker.pc = .dispatch k → s.worker.runningTask = none →
      Step s { s with worker := s.worker.goto .check }
  | ended {k item} : s.worker.pc = .dispatch k → s.worker.runningTask = some item → item.isEnd isEndTask = true →
      Step s { s with worker := s.worker.goto (.finishAction (.endTask k)) }
  | start {k t} : s.worker.pc = .dispatch k → s.worker.runningTask = some (.task t) → isEndTask t = false →
      Step s { s with worker := s.worker.goto (.run k t .checkCancellation), runs := s.runs ++ [(i, .start k)] }
  | run {k t p b p'} : s.worker.pc = .run k t p → (s.task t).run p e = some (b, p') →
      Step s { s with
        worker := s.worker.goto (.run k t p'), task := Function.update s.task t b, returned := note s.returned t p e }
  | stop {k t} : s.worker.pc = .run k t .ret →
      Step s { s with worker := s.worker.goto .check, runs := s.runs ++ [(i, .stop k)] }
  | escape {k t} : s.worker.pc = .run k t .raised →
      Step s { s with worker := s.worker.goto (.finishAction (.escaped k)) }
  | notifyFinished {why} : s.worker.pc = .notifyFinished why →
      Step s { s with worker := { s.worker with thread := s.worker.thread.notifyFinished, pc := .terminated why } }

variable {isEndTask i e} {s s' : World Cl T W}

/-- Popping takes an item, or blocks. -/
theorem step_getTask (h : s.worker.pc = .pop ∨ s.worker.pc = .blocked ∧ i ∉ s.queue.waiting) :
    Step isEndTask i e s (getTaskFromTaskQueue i s) := by
  unfold getTaskFromTaskQueue
  split
  · exact .pop h ‹_›
  · exact .block _ (h.imp id And.left)

/-- **What a step of the worker can do.** -/
theorem step_cases (h : step isEndTask i e s = some s') : Step isEndTask i e s s' := by
  cases hpc : s.worker.pc with
  | absent | finishAction | notifyStop | terminated => simp [step, hpc] at h
  | setRunning => simp only [step, hpc, Option.some.injEq] at h; subst h; exact .setRunning hpc
  | checkCancellation =>
    simp only [step, hpc, Option.some.injEq] at h
    subst h
    cases hf : s.worker.thread.isRequestCancel with
    | true => exact .cancelled (Or.inl hpc) hf
    | false => exact .enter hpc hf
  | check =>
    simp only [step, hpc, Option.some.injEq] at h
    subst h
    cases hf : s.worker.thread.isRequestCancel with
    | true => exact .cancelled (Or.inr hpc) hf
    | false => exact .check hpc hf
  | lock =>
    simp only [step, hpc] at h
    split at h <;> cases h
    exact .lock hpc ‹_›
  | pop => simp only [step, hpc, Option.some.injEq] at h; subst h; exact step_getTask (Or.inl hpc)
  | blocked =>
    simp only [step, hpc] at h
    split at h <;> cases h
    exact step_getTask (Or.inr ⟨hpc, ‹_›⟩)
  | unlock k => simp only [step, hpc, Option.some.injEq] at h; subst h; exact .unlock hpc
  | recheck k =>
    simp only [step, hpc, Option.some.injEq] at h
    subst h
    cases hf : s.worker.thread.isRequestCancel with
    | true => exact .dropped hpc hf
    | false => exact .recheck hpc hf
  | dispatch k =>
    simp only [step, hpc] at h
    split at h
    · cases h; exact .null hpc ‹_›
    · cases h; exact .ended hpc ‹_› rfl
    · split at h <;> cases h
      · exact .ended hpc ‹_› ‹_›
      · exact .start hpc ‹_› (by simpa using ‹¬ isEndTask _ = true›)
  | run k t p =>
    by_cases hret : p = .ret
    · subst hret; simp only [step, hpc, Option.some.injEq] at h; subst h; exact .stop hpc
    · by_cases hraised : p = .raised
      · subst hraised; simp only [step, hpc, Option.some.injEq] at h; subst h; exact .escape hpc
      · have h : ((s.task t).run p e).map (fun r =>
            (⟨s.worker.goto (.run k t r.2), s.queue, Function.update s.task t r.1, s.runs, note s.returned t p e⟩ :
              World Cl T W)) =
              some s' := by
          cases p <;> simp_all [step]
        obtain ⟨⟨b, p'⟩, hr, rfl⟩ := Option.map_eq_some_iff.mp h
        exact .run hpc hr
  | notifyFinished why => simp only [step, hpc, Option.some.injEq] at h; subst h; exact .notifyFinished hpc

end Steps

/-! ## What holds of a worker between its steps -/

section Sound

variable (isEndTask : T → Bool)

/-- Whoever has taken an item has it in `m_runningTask`, and runs it if it is a task. -/
def PC.Holds (pushes : List (Item T)) (runningTask : Option (Item T)) : PC T → Prop
  | .unlock k | .recheck k | .dispatch k => ∃ item, runningTask = some item ∧ pushes[k]? = some item
  | .run k t _ => pushes[k]? = some (.task t) ∧ isEndTask t = false
  | _ => True

def PC.isTerminated : PC T → Bool
  | .terminated _ => true
  | _ => false

/-- Why the work function was left, if it was. -/
def PC.why : PC T → Option Why
  | .finishAction why | .notifyStop why _ | .notifyFinished why | .terminated why => some why
  | _ => none

/-- Out of the work function. -/
def PC.hasLeft (pc : PC T) : Bool := pc.why.isSome

/-- In its loop, and without one of the pool's `EndTask`s in its hand. -/
def mayTake (w : WorkerThread Cl T) : Bool := match w.pc with
  | .finishAction _ | .notifyStop _ _ | .notifyFinished _ | .terminated _ => false
  | .unlock _ | .recheck _ | .dispatch _ => !w.runningTask.any Item.isStop
  | _ => true

/-- A worker holds what it has taken, waits in `Pop` only where it blocks there, and its thread is finished when it has
terminated. -/
structure Sound (q : TaskQueue (Item T) W) (i : W) (w : WorkerThread Cl T) : Prop where
  holds : w.pc.Holds isEndTask q.pushes w.runningTask
  waiting : i ∈ q.waiting → w.pc = .blocked
  finished : w.thread.state = .finished ↔ w.pc.isTerminated = true

variable {isEndTask} {q q' : TaskQueue (Item T) W} {i : W} {w w' : WorkerThread Cl T}

theorem PC.Holds.append {pushes pushes' : List (Item T)} {runningTask : Option (Item T)} {pc : PC T}
    (h : pc.Holds isEndTask pushes runningTask) (hp : pushes <+: pushes') : pc.Holds isEndTask pushes' runningTask := by
  cases pc with
  | unlock k | recheck k | dispatch k => obtain ⟨item, h1, h2⟩ := h; exact ⟨item, h1, getElem?_grow hp h2⟩
  | run k t p => exact ⟨getElem?_grow hp h.1, h.2⟩
  | _ => trivial

/-- It goes on holding when others push, and when its thread is asked to cancel or waited for. -/
theorem Sound.frame (hw : w.Sound isEndTask q i) (hpc : w'.pc = w.pc) (ht : w'.runningTask = w.runningTask)
    (hs : w'.thread.state = w.thread.state) (hq : q.pushes <+: q'.pushes) (hwait : i ∈ q'.waiting → i ∈ q.waiting) :
    w'.Sound isEndTask q' i := by
  refine ⟨?_, fun h => ?_, ?_⟩
  · rw [hpc, ht]; exact hw.holds.append hq
  · rw [hpc]; exact hw.waiting (hwait h)
  · rw [hs, hpc]; exact hw.finished

/-- A worker that does not block moves to where it holds nothing that it did not hold. -/
theorem Sound.goto (hw : w.Sound isEndTask q i) (pc : PC T) (hpc : w.pc ≠ .blocked)
    (hh : pc.Holds isEndTask q.pushes w.runningTask) (ht : pc.isTerminated = w.pc.isTerminated) :
    (w.goto pc).Sound isEndTask q i :=
  ⟨hh, fun h => absurd (hw.waiting h) hpc, by rw [show (w.goto pc).pc = pc from rfl, ht]; exact hw.finished⟩

variable [DecidableEq T] [DecidableEq W] {e : Exit} {s s' : World Cl T W}

/-- A step of a worker keeps what holds of it. -/
theorem Sound.step (hw : s.worker.Sound isEndTask s.queue i) (h : Step isEndTask i e s s') :
    s'.worker.Sound isEndTask s'.queue i := by
  have hheld := hw.holds
  cases h with
  | setRunning hpc =>
    have := hw.goto .checkCancellation (by simp [hpc]) trivial (by rw [hpc]; rfl)
    exact ⟨trivial, this.waiting, ⟨by simp [CancelableThread.setRunning], by simp [PC.isTerminated]⟩⟩
  | enter hpc | check hpc => exact hw.goto _ (by simp [hpc]) trivial (by rw [hpc]; rfl)
  | cancelled hpc =>
    rcases hpc with hpc | hpc
    · exact hw.goto _ (by simp [hpc]) trivial (by rw [hpc]; rfl)
    · exact hw.goto _ (by simp [hpc]) trivial (by rw [hpc]; rfl)
  | lock hpc =>
    have := hw.goto .pop (by simp [hpc]) trivial (by rw [hpc]; rfl)
    exact ⟨this.holds, this.waiting, this.finished⟩
  | @pop k item q' hpc hpop =>
    obtain ⟨-, hget, hpushes, -, hwait, -⟩ := TaskQueue.pop_spec hpop
    have hterm : s.worker.pc.isTerminated = false := by rcases hpc with hpc | ⟨hpc, -⟩ <;> rw [hpc] <;> rfl
    refine ⟨⟨item, rfl, hpushes ▸ hget⟩, fun h => ?_, hw.finished.trans (by rw [hterm]; rfl)⟩
    rw [hwait] at h
    rcases hpc with hpc | ⟨-, hnot⟩
    · have := hw.waiting h; rw [hpc] at this; cases this
    · exact absurd h hnot
  | block he hpc =>
    have hterm : s.worker.pc.isTerminated = false := by rcases hpc with hpc | hpc <;> rw [hpc] <;> rfl
    exact ⟨trivial, fun _ => rfl, hw.finished.trans (by rw [hterm]; rfl)⟩
  | unlock hpc =>
    rw [hpc] at hheld
    have := hw.goto (.recheck _) (by simp [hpc]) hheld (by rw [hpc]; rfl)
    exact ⟨this.holds, this.waiting, this.finished⟩
  | recheck hpc => rw [hpc] at hheld; exact hw.goto _ (by simp [hpc]) hheld (by rw [hpc]; rfl)
  | dropped hpc | ended hpc | null hpc => exact hw.goto _ (by simp [hpc]) trivial (by rw [hpc]; rfl)
  | start hpc ht he =>
    rw [hpc] at hheld
    obtain ⟨item, h1, h2⟩ := hheld
    rw [ht] at h1
    cases h1
    exact hw.goto _ (by simp [hpc]) ⟨h2, he⟩ (by rw [hpc]; rfl)
  | run hpc hr => rw [hpc] at hheld; exact hw.goto _ (by simp [hpc]) hheld (by rw [hpc]; rfl)
  | stop hpc | escape hpc => exact hw.goto _ (by simp [hpc]) trivial (by rw [hpc]; rfl)
  | notifyFinished hpc =>
    refine ⟨trivial, fun h => ?_, ⟨fun _ => rfl, fun _ => rfl⟩⟩
    have := hw.waiting h
    rw [hpc] at this
    cases this

/-- Only a worker that is there and has not terminated makes a step, and it stays there. -/
theorem Step.present (h : Step isEndTask i e s s') :
    s.worker.pc ≠ .absent ∧ s.worker.pc.isTerminated = false ∧ s'.worker.pc ≠ .absent := by
  cases h with
  | cancelled hpc | block _ hpc => rcases hpc with hpc | hpc <;> simp [WorkerThread.goto, PC.isTerminated, hpc]
  | pop hpc => rcases hpc with hpc | ⟨hpc, -⟩ <;> simp [PC.isTerminated, hpc]
  | _ => simp_all [WorkerThread.goto, PC.isTerminated]

/-- A worker leaves its loop when it is cancelled, when it holds an `EndTask`, and when a `Run` has let an exception
out. -/
theorem Step.leaves (h : Step isEndTask i e s s') {why : Why} (hw : s'.worker.pc.why = some why) :
    s.worker.pc.why = some why ∨
    ((why = .cancelled ∨ ∃ k, why = .dropped k) ∧ s.worker.thread.isRequestCancel = true) ∨
    (∃ k item, why = .endTask k ∧ s.worker.pc = .dispatch k ∧ s.worker.runningTask = some item ∧
      item.isEnd isEndTask = true) ∨
    ∃ k t, why = .escaped k ∧ s.worker.pc = .run k t .raised := by
  cases h with
  | cancelled hpc hf => cases hw; exact Or.inr (Or.inl ⟨Or.inl rfl, hf⟩)
  | dropped hpc hf => cases hw; exact Or.inr (Or.inl ⟨Or.inr ⟨_, rfl⟩, hf⟩)
  | ended hpc ht he => cases hw; exact Or.inr (Or.inr (Or.inl ⟨_, _, rfl, hpc, ht, he⟩))
  | escape hpc => cases hw; exact Or.inr (Or.inr (Or.inr ⟨_, _, rfl, hpc⟩))
  | notifyFinished hpc => cases hw; exact Or.inl (by rw [hpc]; rfl)
  | _ => cases hw

/-- An exception leaves a `Run` from the user's code. -/
theorem Step.raises (h : Step isEndTask i e s s') {k : Nat} {t : T} (hw : s'.worker.pc = .run k t .raised) :
    (s.worker.pc = .run k t .doRun ∧ e = .other) ∨ (s.worker.pc = .run k t .onCancel ∧ e ≠ .ret) := by
  cases h with
  | run hpc hr =>
    cases hw
    rcases TaskBase.run_raised hr with ⟨rfl, he⟩ | ⟨rfl, he⟩
    · exact Or.inl ⟨hpc, he⟩
    · exact Or.inr ⟨hpc, he⟩
  | _ => cases hw

/-- A step of one worker leaves the others where they are in the queue. -/
theorem Step.others (h : Step isEndTask i e s s') :
    s'.queue.pushes = s.queue.pushes ∧ ∀ j ≠ i, j ∈ s'.queue.waiting → j ∈ s.queue.waiting := by
  cases h with
  | pop hpc hpop =>
    obtain ⟨-, -, hpushes, -, hwait, -⟩ := TaskQueue.pop_spec hpop
    exact ⟨hpushes, fun j _ hj => hwait ▸ hj⟩
  | block he hpc => exact ⟨rfl, fun j hj h => (Finset.mem_insert.mp h).resolve_left hj⟩
  | _ => exact ⟨rfl, fun j _ hj => hj⟩

end Sound

/-- The worker of the abstract pool. -/
def PC.view : PC T → Worker
  | .absent => .absent
  | .setRunning | .checkCancellation | .check | .lock => .looping
  | .pop | .blocked => .popping
  | .unlock k | .recheck k | .dispatch k => .holding k
  | .run k _ _ => .running k
  | .finishAction why => .left why .counting
  | .notifyStop why c => .left why (.counted c)
  | .notifyFinished why => .left why .finishing
  | .terminated why => .left why .terminated

/-- A worker that was counted has left its work function. -/
theorem PC.left_of_counted {pc : PC T} (h : pc.view.counted = true) :
    ∃ why p, pc.why = some why ∧ pc.view = .left why p := by
  cases pc with
  | notifyStop | notifyFinished | terminated => exact ⟨_, _, rfl, rfl⟩
  | _ => cases h

end WorkerThread

end Tpool
