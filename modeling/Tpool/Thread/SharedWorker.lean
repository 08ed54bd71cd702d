import Mathlib.Data.List.ReduceOption
import Tpool.Concurrency.System
import Tpool.Queue.TaskQueue
import Tpool.Task.Cancellers
import Tpool.Thread.WorkerThread

/-!
# A worker and those who use it

- `SharedWorker`: a `WorkerThread` on a task queue that others push to and pop from, the tasks, and where every client
  is in its call. An item is a pointer to a task, which may be null. `taken`, `passed` and `settled` record what the
  worker has removed from the queue, what it has passed to `Run`, and what state these runs have set at their end.
- `workerStep`, `clientStep`: one step of the worker, and of a client's call of `Push`, `Cancel`, `CancelAsync`,
  `CancelNow`, of `Run`, `Cancel` or `CancelAsync` of a task.
- `Accounts`: what the three records say at each point of the worker's code. `dropped_at_most_one`: a worker that has
  left its loop has run all it took but possibly the last, which it drops when it was asked to cancel.
-/

namespace Tpool

open Concurrency

/-- Where the worker is; see `WorkerThread.PC`. -/
inductive SharedWorker.PC (T : Type*)
  -- ThreadFunction, before the work function
  | setRunning
  | checkCancellation
  -- WorkFunction
  | check
  | lock
  | pop
  | blocked
  | unlock
  | recheck
  | dispatch
  | run (t : T) (p : TaskBase.RunPC)
  -- ThreadFunction, after the work function
  | finishAction
  | notifyFinished
  | terminated
  deriving DecidableEq

/-- What a client may call. -/
inductive SharedWorker.Method (T : Type*)
  | push (task : Option T)
  | cancel
  | cancelAsync
  | cancelNow
  | runTask (t : T)
  | cancelTask (t : T) (async : Bool)

/-- Where a client is in its call. -/
inductive SharedWorker.ClientPC (T : Type*)
  | idle
  | push (task : Option T)
  -- CancelNow
  | lockRunningTask
  | cancelRunningTask
  | onCallCancel
  | unlockRunningTask (raised : Bool)
  -- CancelableThread::CancelAsync, CancelableThread::Cancel
  | cancelThread (async : Bool)
  | waitThread
  | blockedThread
  -- TaskBase
  | runTask (t : T) (p : TaskBase.RunPC)
  | cancelTask (t : T) (async : Bool) (p : TaskBase.CancelPC)
  deriving DecidableEq

/-- Who pops from the queue. -/
inductive SharedWorker.Popper
  | worker
  | others
  deriving DecidableEq

/-- A worker that the clients `Cl` use for the tasks `T`. -/
structure SharedWorker (Cl T : Type*) where
  thread : CancelableThread Cl
  runningTask : Option T
  runningTaskGuard : Guard Cl
  pc : SharedWorker.PC T
  taskQueue : TaskQueue (Option T) SharedWorker.Popper
  task : T → TaskBase Cl
  client : Cl → SharedWorker.ClientPC T
  taken : List (Option T)
  passed : List T
  settled : List (T × TaskBase.State)

namespace SharedWorker

variable {Cl T : Type*}

/-- The worker has just been constructed. -/
def new (Cl T : Type*) : SharedWorker Cl T where
  thread := .new
  runningTask := none
  runningTaskGuard := .free
  pc := .setRunning
  taskQueue := .new
  task _ := .new
  client _ := .idle
  taken := []
  passed := []
  settled := []

/-- `Run` writes its last state. -/
def settles : TaskBase.RunPC → Bool
  | .setFinished | .setCancelled => true
  | _ => false

inductive Wake (Cl T : Type*)
  | worker
  | thread (c : Cl)
  | task (t : T) (c : Cl)

/-- A move: a client calls or takes a step, the worker does, someone else pops from the queue, or a waiter wakes by
itself. -/
inductive Action (Cl T : Type*)
  | call (c : Cl) (m : Method T)
  | client (c : Cl) (e : Exit)
  | worker (e : Exit)
  | take
  | wake (w : Wake Cl T)

section Step

variable [DecidableEq Cl] [DecidableEq T] (isEndTask : T → Bool) (s : SharedWorker Cl T)

def goto (pc : PC T) : SharedWorker Cl T := { s with pc }

def gotoClient (c : Cl) (pc : ClientPC T) : SharedWorker Cl T := { s with client := Function.update s.client c pc }

def setTask (t : T) (b : TaskBase Cl) : SharedWorker Cl T := { s with task := Function.update s.task t b }

/-- `m_runningTask = m_taskQueue->Pop()`, or blocking. -/
def getTaskFromTaskQueue : SharedWorker Cl T := match h : s.taskQueue.pop Popper.worker with
  | some (_, item, taskQueue) => { s with taskQueue, runningTask := item, pc := .unlock, taken := s.taken ++ [item] }
  | none => { s with taskQueue := s.taskQueue.block .worker (TaskQueue.pop_eq_none.mp h), pc := .blocked }

/-- One step of the worker; its finish action returns. -/
def workerStep (e : Exit) : Option (SharedWorker Cl T) := match s.pc with
  | .setRunning => some { s with thread := s.thread.setRunning, pc := .checkCancellation }
  | .checkCancellation => some (s.goto (if s.thread.isRequestCancel then .finishAction else .check))
  -- 1. check cancel request
  | .check => some (s.goto (if s.thread.isRequestCancel then .finishAction else .lock))
  -- 2. fetch task from task queue
  | .lock => if s.runningTaskGuard = .free then some { s with runningTaskGuard := .worker, pc := .pop } else none
  | .pop => some s.getTaskFromTaskQueue
  | .blocked => if Popper.worker ∈ s.taskQueue.waiting then none else some s.getTaskFromTaskQueue
  | .unlock => some { s with runningTaskGuard := .free, pc := .recheck }
  -- 2.5. check cancel request again
  | .recheck => some (s.goto (if s.thread.isRequestCancel then .finishAction else .dispatch))
  -- 3. perform the task
  | .dispatch => match s.runningTask with
    | none => some (s.goto .check)
    | some t =>
      if isEndTask t then some (s.goto .finishAction)
      else some { s with pc := .run t .checkCancellation, passed := s.passed ++ [t] }
  | .run _ .ret => some (s.goto .check)
  -- an exception that Run does not catch leaves the work function
  | .run _ .raised => some (s.goto .finishAction)
  | .run t p => ((s.task t).run p e).map fun (b, p') =>
    { s.setTask t b with
      pc := .run t p', settled := if settles p then s.settled ++ [(t, b.state)] else s.settled }
  | .finishAction => some (s.goto .notifyFinished)
  | .notifyFinished => some { s with thread := s.thread.notifyFinished, pc := .terminated }
  | .terminated => none

def Method.start : Method T → ClientPC T
  | .push task => .push task
  | .cancel => .cancelThread false
  | .cancelAsync => .cancelThread true
  | .cancelNow => .lockRunningTask
  | .runTask t => .runTask t .checkCancellation
  | .cancelTask t async => .cancelTask t async .setFlag

/-- `c` reads the state of the thread in `Cancel`. -/
def awaitThread (c : Cl) : SharedWorker Cl T :=
  { s.gotoClient c (if (s.thread.awaitFinished c).2 then .idle else .blockedThread) with
    thread := (s.thread.awaitFinished c).1 }

/-- One step of the call of `c`. -/
def clientStep (c : Cl) (e : Exit) : Option (SharedWorker Cl T) := match s.client c with
  | .idle => none
  | .push task => some { s.gotoClient c .idle with taskQueue := s.taskQueue.push task }
  -- CancelNow
  | .lockRunningTask =>
    if s.runningTaskGuard = .free then some { s.gotoClient c .cancelRunningTask with runningTaskGuard := .client c }
    else none
  | .cancelRunningTask => match s.runningTask with
    | some t => some ((s.setTask t { s.task t with isRequestCancel := true }).gotoClient c .onCallCancel)
    | none => some (s.gotoClient c (.unlockRunningTask false))
  | .onCallCancel => some (s.gotoClient c (.unlockRunningTask (e ≠ .ret)))
  | .unlockRunningTask raised =>
    some { s.gotoClient c (if raised then .idle else .cancelThread false) with runningTaskGuard := .free }
  -- CancelableThread::CancelAsync, CancelableThread::Cancel
  | .cancelThread async =>
    some { s.gotoClient c (if async then .idle else .waitThread) with thread := s.thread.cancelAsync }
  | .waitThread => some (s.awaitThread c)
  | .blockedThread => if c ∈ s.thread.waiters then none else some (s.awaitThread c)
  -- TaskBase
  | .runTask _ .ret | .runTask _ .raised | .cancelTask _ _ .ret | .cancelTask _ _ .raised => some (s.gotoClient c .idle)
  | .runTask t p => ((s.task t).run p e).map fun (b, p') => (s.setTask t b).gotoClient c (.runTask t p')
  | .cancelTask t async p => ((s.task t).cancel async c p e).map fun (b, p') =>
    (s.setTask t b).gotoClient c (.cancelTask t async p')

def wakeStep : Wake Cl T → SharedWorker Cl T
  | .worker => { s with taskQueue := s.taskQueue.wake .worker }
  | .thread c => { s with thread := s.thread.wake c }
  | .task t c => s.setTask t { s.task t with waiters := (s.task t).waiters.erase c }

def step : Action Cl T → Option (SharedWorker Cl T)
  | .call c m => if s.client c = .idle then some (s.gotoClient c m.start) else none
  | .client c e => s.clientStep c e
  | .worker e => s.workerStep isEndTask e
  | .take => (s.taskQueue.pop .others).map fun (_, _, taskQueue) => { s with taskQueue }
  | .wake w => some (s.wakeStep w)

end Step

/-- A worker on a queue of its own and any number of clients; `isEndTask` tells which tasks are of the class
`EndTask`. -/
def system (Cl : Type*) {T : Type*} [DecidableEq Cl] [DecidableEq T] (isEndTask : T → Bool) :
    System (SharedWorker Cl T) (Action Cl T) := ⟨new Cl T, fun s a => s.step isEndTask a⟩

/-! ## What a step can do -/

section Steps

variable {isEndTask : T → Bool} {s s' : SharedWorker Cl T}

/-- The worker moves on and does nothing else. -/
inductive Move (isEndTask : T → Bool) (s : SharedWorker Cl T) : PC T → PC T → Prop
  | enter : s.thread.isRequestCancel = false → Move isEndTask s .checkCancellation .check
  | check : s.thread.isRequestCancel = false → Move isEndTask s .check .lock
  | cancelled {pc} : pc = .checkCancellation ∨ pc = .check → s.thread.isRequestCancel = true →
      Move isEndTask s pc .finishAction
  | recheck : s.thread.isRequestCancel = false → Move isEndTask s .recheck .dispatch
  | dropped : s.thread.isRequestCancel = true → Move isEndTask s .recheck .finishAction
  | null : s.runningTask = none → Move isEndTask s .dispatch .check
  | ended {t} : s.runningTask = some t → isEndTask t = true → Move isEndTask s .dispatch .finishAction
  | hasRun {t} : Move isEndTask s (.run t .ret) .check
  | escape {t} : Move isEndTask s (.run t .raised) .finishAction
  | finished : Move isEndTask s .finishAction .notifyFinished

variable [DecidableEq T]

/-- A step of the worker, by what it does; `e` is how user code is left. -/
inductive WorkerStep (isEndTask : T → Bool) (e : Exit) (s : SharedWorker Cl T) : SharedWorker Cl T → Prop
  | move {pc pc'} : s.pc = pc → Move isEndTask s pc pc' → WorkerStep isEndTask e s (s.goto pc')
  | setRunning : s.pc = .setRunning →
      WorkerStep isEndTask e s { s with thread := s.thread.setRunning, pc := .checkCancellation }
  | lock : s.pc = .lock → s.runningTaskGuard = .free →
      WorkerStep isEndTask e s { s with runningTaskGuard := .worker, pc := .pop }
  | pop {k item taskQueue} : s.pc = .pop ∨ s.pc = .blocked ∧ Popper.worker ∉ s.taskQueue.waiting →
      s.taskQueue.pop .worker = some (k, item, taskQueue) →
      WorkerStep isEndTask e s
        { s with taskQueue, runningTask := item, pc := .unlock, taken := s.taken ++ [item] }
  | block (h : s.taskQueue.elems = []) : s.pc = .pop ∨ s.pc = .blocked →
      WorkerStep isEndTask e s { s with taskQueue := s.taskQueue.block .worker h, pc := .blocked }
  | unlock : s.pc = .unlock → WorkerStep isEndTask e s { s with runningTaskGuard := .free, pc := .recheck }
  | start {t} : s.pc = .dispatch → s.runningTask = some t → isEndTask t = false →
      WorkerStep isEndTask e s { s with pc := .run t .checkCancellation, passed := s.passed ++ [t] }
  | run {t p b p'} : s.pc = .run t p → (s.task t).run p e = some (b, p') →
      WorkerStep isEndTask e s { s.setTask t b with
        pc := .run t p', settled := if settles p then s.settled ++ [(t, b.state)] else s.settled }
  | notifyFinished : s.pc = .notifyFinished →
      WorkerStep isEndTask e s { s with thread := s.thread.notifyFinished, pc := .terminated }

variable [DecidableEq Cl] {e : Exit} {c : Cl}

omit [DecidableEq Cl] in
theorem getTask_cases (h : s.pc = .pop ∨ s.pc = .blocked ∧ Popper.worker ∉ s.taskQueue.waiting) :
    WorkerStep isEndTask e s s.getTaskFromTaskQueue := by
  unfold getTaskFromTaskQueue
  split
  · exact .pop h ‹_›
  · exact .block _ (h.imp id And.left)

/-- **What a step of the worker can do.** -/
theorem workerStep_cases (h : s.workerStep isEndTask e = some s') : WorkerStep isEndTask e s s' := by
  cases hpc : s.pc with
  | setRunning => simp only [workerStep, hpc, Option.some.injEq] at h; subst h; exact .setRunning hpc
  | checkCancellation =>
    simp only [workerStep, hpc, Option.some.injEq] at h
    subst h
    cases hf : s.thread.isRequestCancel with
    | true => exact .move hpc (.cancelled (Or.inl rfl) hf)
    | false => exact .move hpc (.enter hf)
  | check =>
    simp only [workerStep, hpc, Option.some.injEq] at h
    subst h
    cases hf : s.thread.isRequestCancel with
    | true => exact .move hpc (.cancelled (Or.inr rfl) hf)
    | false => exact .move hpc (.check hf)
  | lock =>
    simp only [workerStep, hpc] at h
    split at h <;> cases h
    exact .lock hpc ‹_›
  | pop => simp only [workerStep, hpc, Option.some.injEq] at h; subst h; exact getTask_cases (Or.inl hpc)
  | blocked =>
    simp only [workerStep, hpc] at h
    split at h <;> cases h
    exact getTask_cases (Or.inr ⟨hpc, ‹_›⟩)
  | unlock => simp only [workerStep, hpc, Option.some.injEq] at h; subst h; exact .unlock hpc
  | recheck =>
    simp only [workerStep, hpc, Option.some.injEq] at h
    subst h
    cases hf : s.thread.isRequestCancel with
    | true => exact .move hpc (.dropped hf)
    | false => exact .move hpc (.recheck hf)
  | dispatch =>
    simp only [workerStep, hpc] at h
    split at h
    · cases h; exact .move hpc (.null ‹_›)
    · split at h <;> cases h
      · exact .move hpc (.ended ‹_› ‹_›)
      · exact .start hpc ‹_› (by simpa using ‹¬ isEndTask _ = true›)
  | run t p =>
    by_cases hret : p = .ret
    · subst hret; simp only [workerStep, hpc, Option.some.injEq] at h; subst h; exact .move hpc .hasRun
    · by_cases hraised : p = .raised
      · subst hraised; simp only [workerStep, hpc, Option.some.injEq] at h; subst h; exact .move hpc .escape
      · have h : ((s.task t).run p e).map (fun r => ({ s.setTask t r.1 with
            pc := .run t r.2, settled := if settles p then s.settled ++ [(t, r.1.state)] else s.settled } :
              SharedWorker Cl T)) = some s' := by
          cases p <;> simp_all [workerStep]
        obtain ⟨⟨b, p'⟩, hr, rfl⟩ := Option.map_eq_some_iff.mp h
        exact .run hpc hr
  | finishAction => simp only [workerStep, hpc, Option.some.injEq] at h; subst h; exact .move hpc .finished
  | notifyFinished => simp only [workerStep, hpc, Option.some.injEq] at h; subst h; exact .notifyFinished hpc
  | terminated => simp [workerStep, hpc] at h

/-- The worker is left where it is, with what it has taken and run. -/
structure Frame (s s' : SharedWorker Cl T) : Prop where
  pc : s'.pc = s.pc
  runningTask : s'.runningTask = s.runningTask
  taken : s'.taken = s.taken
  passed : s'.passed = s.passed
  settled : s'.settled = s.settled
  isRequestCancel : s.thread.isRequestCancel = true → s'.thread.isRequestCancel = true

theorem clientStep_frame (h : s.clientStep c e = some s') : Frame s s' := by
  unfold clientStep at h
  split at h
  · cases h
  · cases h; exact ⟨rfl, rfl, rfl, rfl, rfl, id⟩
  · split at h <;> cases h
    exact ⟨rfl, rfl, rfl, rfl, rfl, id⟩
  · split at h <;> cases h
    · exact ⟨rfl, rfl, rfl, rfl, rfl, id⟩
    · exact ⟨rfl, rfl, rfl, rfl, rfl, id⟩
  · cases h; exact ⟨rfl, rfl, rfl, rfl, rfl, id⟩
  · cases h; exact ⟨rfl, rfl, rfl, rfl, rfl, id⟩
  · cases h; exact ⟨rfl, rfl, rfl, rfl, rfl, fun _ => rfl⟩
  · cases h; exact ⟨rfl, rfl, rfl, rfl, rfl, fun hf => by simpa [awaitThread] using hf⟩
  · split at h <;> cases h
    exact ⟨rfl, rfl, rfl, rfl, rfl, fun hf => by simpa [awaitThread] using hf⟩
  · cases h; exact ⟨rfl, rfl, rfl, rfl, rfl, id⟩
  · cases h; exact ⟨rfl, rfl, rfl, rfl, rfl, id⟩
  · cases h; exact ⟨rfl, rfl, rfl, rfl, rfl, id⟩
  · cases h; exact ⟨rfl, rfl, rfl, rfl, rfl, id⟩
  · obtain ⟨-, -, rfl⟩ := Option.map_eq_some_iff.mp h; exact ⟨rfl, rfl, rfl, rfl, rfl, id⟩
  · obtain ⟨-, -, rfl⟩ := Option.map_eq_some_iff.mp h; exact ⟨rfl, rfl, rfl, rfl, rfl, id⟩

/-- A step of the worker, or one that leaves it where it is. -/
theorem step_cases {a : Action Cl T} (h : (system Cl isEndTask).step s a = some s') :
    (∃ e, a = .worker e ∧ WorkerStep isEndTask e s s') ∨ Frame s s' := by
  cases a with
  | call c m =>
    simp only [system, step] at h
    split at h <;> cases h
    exact Or.inr ⟨rfl, rfl, rfl, rfl, rfl, id⟩
  | client c e => exact Or.inr (clientStep_frame h)
  | worker e => exact Or.inl ⟨e, rfl, workerStep_cases h⟩
  | take =>
    obtain ⟨x, -, rfl⟩ := Option.map_eq_some_iff.mp h
    exact Or.inr ⟨rfl, rfl, rfl, rfl, rfl, id⟩
  | wake w =>
    cases h
    cases w <;> exact Or.inr ⟨rfl, rfl, rfl, rfl, rfl, id⟩

end Steps

/-! ## What the worker has taken and run -/

section Accounts

variable {isEndTask : T → Bool} {s s' : SharedWorker Cl T}

/-- The tasks among the items: not null, and not of the class `EndTask`. -/
def toRun (isEndTask : T → Bool) (items : List (Option T)) : List T := items.reduceOption.filter fun t => !isEndTask t

/-- What a worker has to run of one more item. -/
theorem toRun_snoc (items : List (Option T)) (item : Option T) : toRun isEndTask (items ++ [item]) =
    toRun isEndTask items ++ (item.filter fun t => !isEndTask t).toList := by
  cases item with
  | none => simp [toRun, List.reduceOption_append]
  | some t =>
    by_cases ht : isEndTask t = true
    · simp [toRun, List.reduceOption_append, ht]
    · simp [toRun, List.reduceOption_append, ht, Option.filter]


/-- What the records say where the worker is. -/
def PC.Accounts (isEndTask : T → Bool) (s : SharedWorker Cl T) : PC T → Prop
  | .unlock | .recheck | .dispatch => s.settled.map Prod.fst = s.passed ∧
      ∃ before, s.taken = before ++ [s.runningTask] ∧ toRun isEndTask before = s.passed
  | .run t p => s.settled.map Prod.fst ++ (if p.publishes then [t] else []) = s.passed ∧
      toRun isEndTask s.taken = s.passed
  | .finishAction | .notifyFinished | .terminated => s.settled.map Prod.fst = s.passed ∧
      (toRun isEndTask s.taken = s.passed ∨ s.thread.isRequestCancel = true ∧ ∃ before t, s.taken = before ++ [some t] ∧
        isEndTask t = false ∧ toRun isEndTask before = s.passed)
  | _ => s.settled.map Prod.fst = s.passed ∧ toRun isEndTask s.taken = s.passed

/-- The records are right where the worker is, and only last states are recorded. -/
structure Accounted (isEndTask : T → Bool) (s : SharedWorker Cl T) : Prop where
  accounts : s.pc.Accounts isEndTask s
  stopped : ∀ x ∈ s.settled, x.2 = .finished ∨ x.2 = .cancelled

theorem Accounted.frame (hi : Accounted isEndTask s) (h : Frame s s') : Accounted isEndTask s' := by
  constructor
  · have ha := hi.accounts
    rw [h.pc]
    cases hpc : s.pc with
    | finishAction | notifyFinished | terminated =>
      rw [hpc] at ha
      simp only [PC.Accounts, h.taken, h.passed, h.settled]
      exact ⟨ha.1, ha.2.imp id (And.imp h.isRequestCancel id)⟩
    | _ => simpa only [hpc, PC.Accounts, h.runningTask, h.taken, h.passed, h.settled] using ha
  · rw [h.settled]
    exact hi.stopped

/-- Out of the work function. -/
def PC.hasLeft : PC T → Bool
  | .finishAction | .notifyFinished | .terminated => true
  | _ => false

/-- Where the worker is in the `DoRun` of a task. -/
def PC.inDoRun : PC T → Bool
  | .run _ .doRun => true
  | _ => false

/-- `DoRun` returns or throws through `CheckCancellation`, on the worker. -/
def Tame (s : SharedWorker Cl T) : Action Cl T → Prop
  | .worker e => s.pc.inDoRun = true → e ≠ .other
  | _ => True

instance (s : SharedWorker Cl T) (a : Action Cl T) : Decidable (Tame s a) := match a with
  | .worker e => inferInstanceAs (Decidable (s.pc.inDoRun = true → e ≠ .other))
  | .call _ _ | .client _ _ | .take | .wake _ => isTrue trivial

/-- `Run` goes on to publish, or writes its last state, or has done so. -/
theorem run_settles {b b' : TaskBase Cl} {p p' : TaskBase.RunPC} {e : Exit} (h : b.run p e = some (b', p'))
    (he : p = .doRun → e ≠ .other) :
    (p.publishes = true ∧ p'.publishes = true ∧ settles p = false) ∨
    (p.publishes = true ∧ p'.publishes = false ∧ settles p = true ∧ (b'.state = .finished ∨ b'.state = .cancelled)) ∨
    (p.publishes = false ∧ p'.publishes = false ∧ settles p = false) := by
  rcases TaskBase.run_cases h with ⟨rfl, -, rfl⟩ | ⟨rfl, rfl, rfl⟩ | ⟨rfl, rfl, rfl⟩ | ⟨rfl, -, rfl⟩ |
    ⟨-, ⟨rfl, rfl⟩ | ⟨rfl, rfl | ⟨rfl, -⟩ | rfl⟩ | ⟨rfl, rfl | rfl⟩⟩
  · exact Or.inl ⟨rfl, rfl, rfl⟩
  · exact Or.inr (Or.inl ⟨rfl, rfl, rfl, Or.inl rfl⟩)
  · exact Or.inr (Or.inl ⟨rfl, rfl, rfl, Or.inr rfl⟩)
  · exact Or.inr (Or.inr ⟨rfl, rfl, rfl⟩)
  · left
    refine ⟨rfl, ?_, rfl⟩
    split <;> rfl
  · exact Or.inl ⟨rfl, rfl, rfl⟩
  · exact Or.inl ⟨rfl, rfl, rfl⟩
  · rcases TaskBase.run_raised h with ⟨-, ho⟩ | ⟨hp, -⟩
    · exact absurd ho (he rfl)
    · cases hp
  · exact Or.inr (Or.inr ⟨rfl, rfl, rfl⟩)
  · exact Or.inr (Or.inr ⟨rfl, rfl, rfl⟩)

/-- The worker moves on. -/
theorem Accounted.move (hi : Accounted isEndTask s) {pc pc' : PC T} (hpc : s.pc = pc) (h : Move isEndTask s pc pc') :
    Accounted isEndTask (s.goto pc') := by
  refine ⟨?_, hi.stopped⟩
  have ha := hi.accounts
  rw [hpc] at ha
  cases h with
  | enter | check | finished | recheck => exact ha
  | cancelled hpc =>
    rcases hpc with rfl | rfl
    · exact ⟨ha.1, Or.inl ha.2⟩
    · exact ⟨ha.1, Or.inl ha.2⟩
  | dropped hf =>
    obtain ⟨hs, before, ht, hb⟩ := ha
    refine ⟨hs, ?_⟩
    cases hr : s.runningTask with
    | none =>
      left
      show toRun isEndTask s.taken = s.passed
      rw [ht, hr, toRun_snoc, hb]
      exact List.append_nil _
    | some t =>
      by_cases hend : isEndTask t = true
      · left
        show toRun isEndTask s.taken = s.passed
        rw [ht, hr, toRun_snoc, hb]
        simp [hend]
      · right
        exact ⟨hf, before, t, by rw [← hr]; exact ht, by simpa using hend, hb⟩
  | null hr =>
    obtain ⟨hs, before, ht, hb⟩ := ha
    refine ⟨hs, ?_⟩
    show toRun isEndTask s.taken = s.passed
    rw [ht, hr, toRun_snoc, hb]
    exact List.append_nil _
  | ended hr hend =>
    obtain ⟨hs, before, ht, hb⟩ := ha
    refine ⟨hs, Or.inl ?_⟩
    show toRun isEndTask s.taken = s.passed
    rw [ht, hr, toRun_snoc, hb]
    simp [hend]
  | hasRun => exact ⟨(List.append_nil _).symm.trans ha.1, ha.2⟩
  | escape => exact ⟨(List.append_nil _).symm.trans ha.1, Or.inl ha.2⟩

variable [DecidableEq T] {e : Exit}

theorem Accounted.worker (hi : Accounted isEndTask s) (hok : Tame s (.worker e)) (h : WorkerStep isEndTask e s s') :
    Accounted isEndTask s' := by
  have ha := hi.accounts
  cases h with
  | move hpc hm => exact hi.move hpc hm
  | setRunning hpc | lock hpc => rw [hpc] at ha; exact ⟨ha, hi.stopped⟩
  | pop hpc _ =>
    have ha : s.settled.map Prod.fst = s.passed ∧ toRun isEndTask s.taken = s.passed := by
      rcases hpc with hpc | ⟨hpc, -⟩
      · rw [hpc] at ha; exact ha
      · rw [hpc] at ha; exact ha
    exact ⟨⟨ha.1, s.taken, rfl, ha.2⟩, hi.stopped⟩
  | block _ hpc =>
    rcases hpc with hpc | hpc
    · rw [hpc] at ha; exact ⟨ha, hi.stopped⟩
    · rw [hpc] at ha; exact ⟨ha, hi.stopped⟩
  | unlock hpc => rw [hpc] at ha; exact ⟨ha, hi.stopped⟩
  | @start t hpc hr hend =>
    rw [hpc] at ha
    obtain ⟨hs, before, ht, hb⟩ := ha
    refine ⟨⟨?_, ?_⟩, hi.stopped⟩
    · show s.settled.map Prod.fst ++ [t] = s.passed ++ [t]
      rw [hs]
    · show toRun isEndTask s.taken = s.passed ++ [t]
      rw [ht, hr, toRun_snoc, hb]
      simp [hend]
  | @run t p b p' hpc hr =>
    rw [hpc] at ha
    obtain ⟨hs, ht⟩ := ha
    have hother : p = .doRun → e ≠ .other := fun hp => hok (by rw [hpc, hp]; rfl)
    rcases run_settles hr hother with ⟨hp, hp', hn⟩ | ⟨hp, hp', hn, hb⟩ | ⟨hp, hp', hn⟩
    · rw [hp] at hs
      refine ⟨⟨?_, ht⟩, ?_⟩
      · simpa [hn, hp', setTask] using hs
      · simpa [hn, setTask] using hi.stopped
    · rw [hp] at hs
      refine ⟨⟨?_, ht⟩, ?_⟩
      · simpa [hn, hp', setTask] using hs
      · intro x hx
        simp only [hn, if_true] at hx
        rcases List.mem_append.mp hx with hx | hx
        · exact hi.stopped x hx
        · rw [List.mem_singleton.mp hx]; exact hb
    · rw [hp] at hs
      refine ⟨⟨?_, ht⟩, ?_⟩
      · simpa [hn, hp', setTask] using hs
      · simpa [hn, setTask] using hi.stopped
  | notifyFinished hpc => rw [hpc] at ha; exact ⟨ha, hi.stopped⟩

variable [DecidableEq Cl]

theorem Reachable.accounted (h : (system Cl isEndTask).Reachable Tame s) : Accounted isEndTask s := by
  refine h.induct (I := Accounted isEndTask) ?_ ?_
  · exact ⟨⟨rfl, rfl⟩, by simp [system, new]⟩
  · intro s a s' _ hok hs hi
    rcases step_cases hs with ⟨e, rfl, h⟩ | h
    · exact hi.worker hok h
    · exact hi.frame h

/-- **A worker drops one task at most.** From the step with which it leaves its loop, and so when it has terminated, a
worker has passed to `Run` every task it took, in the order in which it took them, except possibly the last item it
took, for which it was asked to cancel by then; and every `Run` has set the state to `FINISHED` or `CANCELLED`. -/
theorem dropped_at_most_one (h : (system Cl isEndTask).Reachable Tame s) (hleft : s.pc.hasLeft = true) :
    s.settled.map Prod.fst = s.passed ∧ (∀ x ∈ s.settled, x.2 = .finished ∨ x.2 = .cancelled) ∧
    (toRun isEndTask s.taken = s.passed ∨ s.thread.isRequestCancel = true ∧ ∃ before t, s.taken = before ++ [some t] ∧
      isEndTask t = false ∧ toRun isEndTask before = s.passed) := by
  have hi := Reachable.accounted h
  have ha := hi.accounts
  cases hpc : s.pc with
  | finishAction | notifyFinished | terminated =>
    rw [hpc] at ha
    exact ⟨ha.1, hi.stopped, ha.2⟩
  | _ => rw [hpc] at hleft; cases hleft

/-- A worker that is asked to cancel while it runs the first of two tasks. -/
theorem dropped_at_most_one_run : ∃ s : SharedWorker Unit Bool, s.pc = .terminated ∧ s.passed = [true] ∧
    s.settled.map Prod.fst = s.passed := by
  obtain ⟨s, hs, hp⟩ := System.reachable_of_exec (system Unit fun _ : Bool => false) Tame
    ([.call () (.push (some true)), .client () .ret, .call () (.push (some false)), .client () .ret] ++
      List.replicate 10 (.worker .ret) ++ [.call () .cancelAsync, .client () .ret] ++ List.replicate 7 (.worker .ret))
    (fun s => s.pc == .terminated && s.passed == [true]) (by decide)
  simp only [Bool.and_eq_true, beq_iff_eq] at hp
  exact ⟨s, hp.1, hp.2, (dropped_at_most_one hs (by rw [hp.1]; rfl)).1⟩

/-- **A worker drops a task it took**, when it is asked to cancel between the `Pop` and its second check. -/
theorem drops_task : ∃ s, (system Unit fun _ : Unit => false).Reachable Tame s ∧ s.pc = .terminated ∧
    s.taken = [some ()] ∧ s.passed = [] ∧ (s.task ()).state = .init := by
  obtain ⟨s, hs, hp⟩ := System.reachable_of_exec (system Unit fun _ : Unit => false) Tame
    ([.call () (.push (some ())), .client () .ret] ++ List.replicate 6 (.worker .ret) ++
      [.call () .cancelAsync, .client () .ret] ++ List.replicate 3 (.worker .ret))
    (fun s => s.pc == .terminated && (s.taken == [some ()] && (s.passed == [] && (s.task ()).state == .init)))
    (by decide)
  simp only [Bool.and_eq_true, beq_iff_eq] at hp
  exact ⟨s, hs, hp⟩

end Accounts

end SharedWorker

end Tpool
