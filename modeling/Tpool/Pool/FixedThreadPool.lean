import Tpool.Concurrency.System
import Tpool.Thread.Timer
import Tpool.Thread.WorkerThread

/-!
# FixedThreadPool

- `FixedThreadPool`: the members of the pool, the tasks, and where the constructor and every client are. The last fields
  record what has happened: what was run, who has won the request to stop, which calls have returned.
- `workerStep`, `timerStep`, `clientStep`: one step of a worker, of the timer thread, and of a client's call. Sections
  under one lock are one step, except those that block, that call user code or that keep the lock while they wait for
  another.
- `system`: the pool, with a constructor that starts the workers, any number of clients that call anything in any order
  once it has returned, and waiters that may wake by themselves.
-/

namespace Tpool

open Concurrency Tpool.Core

/-- Where the timer thread is in `ThreadPoolTimerTask::DoRun`. -/
inductive ThreadPoolTimerTask.PC
  | isRequestCancel
  | run (p : TaskBase.RunPC)
  | cancelAsync
  | checkCancellation
  | addTask
  | push
  deriving DecidableEq

namespace FixedThreadPool

/-- The constructor: `k` workers are started, all are, or it has returned. -/
inductive Ctor
  | starting (k : Nat)
  | setRunning
  | done
  deriving DecidableEq

/-- `RunLater` or `RunEvery`, with its arguments. -/
inductive Submit
  | later (delay_in_ms : TimeValue)
  | every (interval_in_ms : TimeValue) (is_run_now : Bool)

/-- The call that stops the pool. -/
inductive Stopper
  | async
  | stop
  | now
  deriving DecidableEq

/-- What a client may call; `none` is the null task. -/
inductive Method (T : Type*)
  | addTask (task : Option T)
  | addTimerTask (task : Option T) (delay_in_ms : TimeValue)
  | addIntervalTask (task : Option T) (period_in_ms : TimeValue) (is_run_now : Bool)
  | stop
  | stopAsync
  | stopNow
  | cancel (t : T)
  | cancelAsync (t : T)

/-- Where a client is in its call. -/
inductive ClientPC (T : Type*)
  | idle
  -- DoAddTask
  | addTask (task : Option T)
  | push (t : T)
  -- DoAddTimerTask, DoAddIntervalTask
  | addTimerTask (task : Option T) (how : Submit)
  | makeTimer (t : T) (how : Submit)
  -- Timer::DoRunLater, Timer::DoRunEvery
  | submit (id : Nat) (how : Submit)
  | getDeadline (id : Nat) (how : Submit) (now : TimeValue)
  | setDeadline (id : Nat) (how : Submit) (now : TimeValue)
  | setInterval (id : Nat) (interval : TimeValue)
  | pushTask (id : Nat)
  -- StopAsync
  | compareAndSet (k : Stopper)
  | timerStarted (k : Stopper)
  | timerCancelAsync (k : Stopper)
  | timerClear (k : Stopper)
  | pushEndTask (k : Stopper) (i : Nat)
  -- Stop
  | waitFinished
  | blockedFinished
  | unlockState
  -- StopNow
  | cancelAsync (i : Nat)
  | lockRunningTask (i : Nat)
  | cancelRunningTask (i : Nat)
  | onCallCancel (i : Nat)
  | unlockRunningTask (i : Nat) (raised : Bool)
  | cancelThread (i : Nat)
  | waitThread (i : Nat)
  | blockedThread (i : Nat)
  -- Timer::Stop, at the end of Stop and StopNow
  | isTimerStarted (k : Stopper)
  | stopTimerAsync (k : Stopper)
  | clearTimer (k : Stopper)
  | cancelTimer (k : Stopper)
  | waitTimer (k : Stopper)
  | blockedTimer (k : Stopper)
  -- TaskBase::Cancel, TaskBase::CancelAsync
  | cancelTask (t : T) (async : Bool) (p : TaskBase.CancelPC)

end FixedThreadPool

open FixedThreadPool

/-- A pool with `n` workers, used by the clients `Cl` for the tasks `T`. `stopped` are the workers that have incremented
`m_stoppedThreadNum`, which is its length. -/
structure FixedThreadPool (n : Nat) (Cl T : Type*) where
  taskQueue : TaskQueue (Item T) (Fin n)
  stopped : List (Fin n)
  state : PoolState
  stateGuard : Option Cl
  stateWaiters : Finset Cl
  isRequestStop : Bool
  threads : Fin n → WorkerThread Cl T
  timer : Option (Timer Cl ThreadPoolTimerTask.PC)
  timerTasks : List (TimerTask Cl T)
  task : T → TaskBase Cl
  ctor : Ctor
  client : Cl → ClientPC T
  runs : List (Fin n × Event)
  returned : List T
  wins : Nat
  endTasksPushed : Bool
  accepted : List T
  stopReturned : Bool
  stopNowReturned : Bool

namespace FixedThreadPool

variable {n : Nat} {Cl T : Type*}

/-- Before the constructor. -/
def new (n : Nat) (Cl T : Type*) : FixedThreadPool n Cl T where
  taskQueue := .new
  stopped := []
  state := .init
  stateGuard := none
  stateWaiters := ∅
  isRequestStop := false
  threads _ := .absent
  timer := none
  timerTasks := []
  task _ := .new
  ctor := .starting 0
  client _ := .idle
  runs := []
  returned := []
  wins := 0
  endTasksPushed := false
  accepted := []
  stopReturned := false
  stopNowReturned := false

inductive Wake (n : Nat) (Cl T : Type*)
  | worker (i : Fin n)
  | state (c : Cl)
  | thread (i : Fin n) (c : Cl)
  | timer
  | timerThread (c : Cl)
  | task (t : T) (c : Cl)

inductive Action (n : Nat) (Cl T : Type*)
  | construct
  | call (c : Cl) (m : Method T)
  | client (c : Cl) (i : Input)
  | worker (i : Fin n) (e : Exit)
  | timer (i : Input)
  | wake (w : Wake n Cl T)

section Step

variable [DecidableEq Cl] [DecidableEq T] (isEndTask : T → Bool) (s : FixedThreadPool n Cl T)

def setThread (i : Fin n) (w : WorkerThread Cl T) : FixedThreadPool n Cl T :=
  { s with threads := Function.update s.threads i w }

def setTask (t : T) (b : TaskBase Cl) : FixedThreadPool n Cl T := { s with task := Function.update s.task t b }

def setTimer (tm : Timer Cl ThreadPoolTimerTask.PC) : FixedThreadPool n Cl T := { s with timer := some tm }

def goto (c : Cl) (pc : ClientPC T) : FixedThreadPool n Cl T := { s with client := Function.update s.client c pc }

/-! ## The constructor -/

def constructStep : Option (FixedThreadPool n Cl T) := match s.ctor with
  | .starting k =>
    if h : k < n then
      some { s.setThread ⟨k, h⟩ ⟨.new, none, .free, .setRunning⟩ with ctor := .starting (k + 1) }
    else some { s with ctor := .setRunning }
  | .setRunning => some { s with ctor := .done, state := .running }
  | .done => none

/-! ## The workers -/

/-- What a worker works on. -/
def world (i : Fin n) : WorkerThread.World Cl T (Fin n) := ⟨s.threads i, s.taskQueue, s.task, s.runs, s.returned⟩

def setWorld (i : Fin n) (w : WorkerThread.World Cl T (Fin n)) : FixedThreadPool n Cl T :=
  { s.setThread i w.worker with taskQueue := w.queue, task := w.task, runs := w.runs, returned := w.returned }

/-- One step of a worker; its finish action is `NotifyWhenThreadsStop`. -/
def workerStep (i : Fin n) (e : Exit) : Option (FixedThreadPool n Cl T) := match (s.threads i).pc with
  | .finishAction why => some { s.setThread i ((s.threads i).goto (.notifyStop why (s.stopped.length + 1))) with
      stopped := s.stopped ++ [i] }
  | .notifyStop why stoppedThreadNum =>
    if n ≤ stoppedThreadNum then
      if s.stateGuard = none then some { s.setThread i ((s.threads i).goto (.notifyFinished why)) with
          state := .finished, stateWaiters := if s.isRequestStop then ∅ else s.stateWaiters }
      else none
    else some (s.setThread i ((s.threads i).goto (.notifyFinished why)))
  | _ => (WorkerThread.step isEndTask i e (s.world i)).map fun w => s.setWorld i w

/-! ## The timer thread -/

def setTimerWorld (w : Timer.World Cl T ThreadPoolTimerTask.PC) : FixedThreadPool n Cl T :=
  { s with timer := some w.timer, timerTasks := w.timerTasks }

/-- `ThreadPoolTimerTask::DoRun` of the task `id`, at `d`. -/
def doRunStep (tm : Timer Cl ThreadPoolTimerTask.PC) (id : Nat) (task : TimerTask Cl T) (e : Exit) :
    ThreadPoolTimerTask.PC → Option (FixedThreadPool n Cl T)
  | .isRequestCancel => some (s.setTimer (tm.goto (.doRun id
      (if (s.task task.task).isRequestCancel then .run .checkCancellation else .addTask))))
  | .run .ret => some (s.setTimer (tm.goto (.doRun id .cancelAsync)))
  | .run .raised => (Timer.leaveDoRun id .other ⟨tm, s.timerTasks⟩).map s.setTimerWorld
  -- to make the task to cancelled state; what CheckCancellation throws in OnCancel is caught by the Run of the timer
  -- task
  | .run p =>
    if p = .onCancel ∧ e = .cancel then some (s.setTimer (tm.goto (.run id .setCancelled)))
    else ((s.task task.task).run p e).map fun (b, p') =>
      { (s.setTask task.task b).setTimer (tm.goto (.doRun id (.run p'))) with
        returned := WorkerThread.note s.returned task.task p e }
  | .cancelAsync => some { s.setTimer (tm.goto (.doRun id .checkCancellation)) with
      timerTasks := s.timerTasks.set id { task with base := { task.base with isRequestCancel := true } } }
  | .checkCancellation =>
    (Timer.leaveDoRun id (if task.base.isRequestCancel then .cancel else .ret) ⟨tm, s.timerTasks⟩).map s.setTimerWorld
  | .addTask => some (s.setTimer (tm.goto (.doRun id (if s.isRequestStop then .cancelAsync else .push))))
  | .push => (Timer.leaveDoRun id .ret ⟨tm, s.timerTasks⟩).map fun w =>
    { s.setTimerWorld w with taskQueue := s.taskQueue.push (.task task.task) }

/-- One step of the timer thread. -/
def timerStep (i : Input) : Option (FixedThreadPool n Cl T) := match s.timer with
  | none => none
  | some tm => match tm.pc with
    | .doRun id d => match s.timerTasks[id]? with
      | none => none
      | some task => s.doRunStep tm id task i.exit d
    | _ => (Timer.step .isRequestCancel i ⟨tm, s.timerTasks⟩).map s.setTimerWorld

/-! ## The clients -/

/-- Where a call starts. -/
def Method.start : Method T → ClientPC T
  | .addTask task => .addTask task
  | .addTimerTask task delay_in_ms => .addTimerTask task (.later delay_in_ms)
  | .addIntervalTask task period_in_ms is_run_now => .addTimerTask task (.every period_in_ms is_run_now)
  | .stop => .compareAndSet .stop
  | .stopAsync => .compareAndSet .async
  | .stopNow => .compareAndSet .now
  | .cancel t => .cancelTask t false .setFlag
  | .cancelAsync t => .cancelTask t true .setFlag

/-- What follows `StopAsync`. -/
def Stopper.afterAsync : Stopper → ClientPC T
  | .async => .idle
  | .stop => .waitFinished
  | .now => .cancelAsync 0

/-- The end of `Stop` and of `StopNow`, after the timer was stopped. -/
def leaveStop (c : Cl) : Stopper → FixedThreadPool n Cl T
  | .now => { s.goto c .idle with stopNowReturned := true }
  | _ => s.goto c .unlockState

/-- A section under `m_queue_guard` of the timer. -/
def withTimerQueue (f : List Nat → List Nat) (c : Cl) (pc : ClientPC T) : Option (FixedThreadPool n Cl T) :=
  match s.timer with
  | none => none
  | some tm => (tm.setQueue (f tm.queue)).map fun tm => (s.setTimer tm).goto c pc

/-- The deadline that `RunLater` or `RunEvery` gives to a task at `now`. -/
def Submit.deadline (now : TimeValue) : Submit → TimeValue
  | .later delay_in_ms => now + delay_in_ms
  | .every interval_in_ms is_run_now => if is_run_now then now else now + interval_in_ms

/-- `c` reads the state of the pool in `Stop`: it keeps the guard when the pool is finished, or blocks. -/
def awaitPool (c : Cl) : Option (FixedThreadPool n Cl T) :=
  if s.stateGuard = none then
    if s.state = .finished then some { s.goto c (.isTimerStarted .stop) with stateGuard := some c }
    else some { s.goto c .blockedFinished with stateWaiters := insert c s.stateWaiters }
  else none

/-- `c` reads the state of the `i`-th thread in `Cancel`. -/
def awaitThread (c : Cl) (i : Fin n) : FixedThreadPool n Cl T :=
  let (thread, finished) := (s.threads i).thread.awaitFinished c
  (s.setThread i { s.threads i with thread }).goto c (if finished then .lockRunningTask (i + 1) else .blockedThread i)

/-- `c` reads the state of the timer thread in `Cancel`. -/
def awaitTimer (c : Cl) (k : Stopper) (tm : Timer Cl ThreadPoolTimerTask.PC) : FixedThreadPool n Cl T :=
  let (thread, finished) := tm.thread.awaitFinished c
  if finished then (s.setTimer { tm with thread }).leaveStop c k
  else (s.setTimer { tm with thread }).goto c (.blockedTimer k)

/-- One step of the call of `c`. -/
def clientStep (c : Cl) (i : Input) : Option (FixedThreadPool n Cl T) := match s.client c with
  | .idle => none
  -- DoAddTask
  | .addTask task =>
    if s.isRequestStop then some (s.goto c .idle)
    else match task with
      | none => some (s.goto c .idle)
      | some t => some (s.goto c (.push t))
  | .push t => some { s.goto c .idle with
      taskQueue := s.taskQueue.push (.task t), accepted := s.accepted ++ [t] }
  -- DoAddTimerTask, DoAddIntervalTask
  | .addTimerTask task how =>
    if s.isRequestStop then some (s.goto c .idle)
    else match task with
      | none => some (s.goto c .idle)
      | some t => some (s.goto c (.makeTimer t how))
  | .makeTimer t how => some { s.goto c (.submit s.timerTasks.length how) with
      timerTasks := s.timerTasks ++ [⟨.new, 0, 0, t⟩], timer := some (s.timer.getD .new) }
  | .submit id how => match s.timer with
    | none => none
    | some tm =>
      if tm.thread.isRequestCancel then some (s.goto c .idle) else some (s.goto c (.getDeadline id how i.now))
  -- a task having been put in the timer cannot be put again
  | .getDeadline id how now => (s.timerTasks[id]?).map fun task =>
    if task.deadline ≠ 0 then s.goto c .idle else s.goto c (.setDeadline id how now)
  | .setDeadline id how now => (s.timerTasks[id]?).map fun task =>
    { s.goto c (match how with
        | .later _ => .pushTask id
        | .every interval_in_ms _ => .setInterval id interval_in_ms) with
      timerTasks := s.timerTasks.set id { task with deadline := how.deadline now } }
  | .setInterval id interval => (s.timerTasks[id]?).map fun task =>
    { s.goto c (.pushTask id) with timerTasks := s.timerTasks.set id { task with interval } }
  | .pushTask id => match s.timerTasks[id]? with
    | none => none
    | some task => (s.withTimerQueue (· ++ [id]) c .idle).map fun s => { s with accepted := s.accepted ++ [task.task] }
  -- StopAsync
  | .compareAndSet k =>
    if s.isRequestStop then some (s.goto c k.afterAsync)
    else some { s.goto c (.timerStarted k) with isRequestStop := true, wins := s.wins + 1 }
  | .timerStarted k => some (s.goto c (if s.timer.isSome then .timerCancelAsync k else .pushEndTask k 0))
  | .timerCancelAsync k => s.timer.map fun tm =>
    (s.setTimer { tm with thread := tm.thread.cancelAsync }).goto c (.timerClear k)
  | .timerClear k => s.withTimerQueue (fun _ => []) c (.pushEndTask k 0)
  | .pushEndTask k j =>
    if j < n then some { s.goto c (.pushEndTask k (j + 1)) with taskQueue := s.taskQueue.push .endTask }
    else some { s.goto c k.afterAsync with endTasksPushed := true }
  -- Stop: wait until all worker threads stop
  | .waitFinished => s.awaitPool c
  | .blockedFinished => if c ∈ s.stateWaiters then none else s.awaitPool c
  | .unlockState => some { s.goto c .idle with stateGuard := none, stopReturned := true }
  -- StopNow
  | .cancelAsync j =>
    if h : j < n then
      let w := s.threads ⟨j, h⟩
      some ((s.setThread ⟨j, h⟩ { w with thread := w.thread.cancelAsync }).goto c (.cancelAsync (j + 1)))
    else some (s.goto c (.lockRunningTask 0))
  -- CancelNow
  | .lockRunningTask j =>
    if h : j < n then
      let w := s.threads ⟨j, h⟩
      match w.runningTaskGuard with
      | .free => some ((s.setThread ⟨j, h⟩ { w with runningTaskGuard := .client c }).goto c (.cancelRunningTask j))
      | _ => none
    else some (s.goto c (.isTimerStarted .now))
  | .cancelRunningTask j =>
    if h : j < n then match (s.threads ⟨j, h⟩).runningTask with
      | some (.task t) =>
        some ((s.setTask t { s.task t with isRequestCancel := true }).goto c (.onCallCancel j))
      | _ => some (s.goto c (.unlockRunningTask j false))
    else none
  | .onCallCancel j => some (s.goto c (.unlockRunningTask j (i.exit ≠ .ret)))
  | .unlockRunningTask j raised =>
    if h : j < n then
      some ((s.setThread ⟨j, h⟩ { s.threads ⟨j, h⟩ with runningTaskGuard := .free }).goto c
        (if raised then .idle else .cancelThread j))
    else none
  | .cancelThread j =>
    if h : j < n then
      let w := s.threads ⟨j, h⟩
      some ((s.setThread ⟨j, h⟩ { w with thread := w.thread.cancelAsync }).goto c (.waitThread j))
    else none
  | .waitThread j => if h : j < n then some (s.awaitThread c ⟨j, h⟩) else none
  | .blockedThread j =>
    if h : j < n then if c ∈ (s.threads ⟨j, h⟩).thread.waiters then none else some (s.awaitThread c ⟨j, h⟩) else none
  -- wait timer thread to stop
  | .isTimerStarted k => some (if s.timer.isSome then s.goto c (.stopTimerAsync k) else s.leaveStop c k)
  | .stopTimerAsync k => s.timer.map fun tm =>
    (s.setTimer { tm with thread := tm.thread.cancelAsync }).goto c (.clearTimer k)
  | .clearTimer k => s.withTimerQueue (fun _ => []) c (.cancelTimer k)
  | .cancelTimer k => s.timer.map fun tm =>
    (s.setTimer { tm with thread := tm.thread.cancelAsync }).goto c (.waitTimer k)
  | .waitTimer k => s.timer.map fun tm => s.awaitTimer c k tm
  | .blockedTimer k => s.timer.bind fun tm => if c ∈ tm.thread.waiters then none else some (s.awaitTimer c k tm)
  -- TaskBase::Cancel, TaskBase::CancelAsync
  | .cancelTask _ _ .ret | .cancelTask _ _ .raised => some (s.goto c .idle)
  | .cancelTask t async p => ((s.task t).cancel async c p i.exit).map fun (b, p') =>
    (s.setTask t b).goto c (.cancelTask t async p')

/-! ## The system -/

/-- Someone who waits wakes by itself. -/
def wakeStep : Wake n Cl T → FixedThreadPool n Cl T
  | .worker i => { s with taskQueue := s.taskQueue.wake i }
  | .state c => { s with stateWaiters := s.stateWaiters.erase c }
  | .thread i c => s.setThread i { s.threads i with thread := (s.threads i).thread.wake c }
  | .timer => { s with timer := s.timer.map fun tm => { tm with waiting := false } }
  | .timerThread c => { s with timer := s.timer.map fun tm => { tm with thread := tm.thread.wake c } }
  | .task t c => s.setTask t { s.task t with waiters := (s.task t).waiters.erase c }

def step : Action n Cl T → Option (FixedThreadPool n Cl T)
  | .construct => s.constructStep
  | .call c m => match s.ctor, s.client c with
    | .done, .idle => some (s.goto c m.start)
    | _, _ => none
  | .client c i => s.clientStep c i
  | .worker i e => s.workerStep isEndTask i e
  | .timer i => s.timerStep i
  | .wake w => some (s.wakeStep w)

end Step

/-- The pool with `n` workers; `isEndTask` tells which of the tasks are of the class `EndTask`. -/
def system (n : Nat) (Cl : Type*) {T : Type*} [DecidableEq Cl] [DecidableEq T] (isEndTask : T → Bool) :
    System (FixedThreadPool n Cl T) (Action n Cl T) :=
  ⟨new n Cl T, fun s a => s.step isEndTask a⟩

/-- The abstract pool. -/
def view (s : FixedThreadPool n Cl T) : Core n Cl T where
  queue := s.taskQueue
  worker i := (s.threads i).pc.view
  isRequestCancel i := (s.threads i).thread.isRequestCancel
  incs := s.stopped
  state := s.state
  stateWaiters := s.stateWaiters
  isRequestStop := s.isRequestStop
  wins := s.wins
  constructed := s.ctor == .done
  runs := s.runs

end FixedThreadPool

end Tpool
