import Mathlib.Data.Nat.Basic
import Tpool.Concurrency.System
import Tpool.Structures.PriorityQueue
import Tpool.Task.TaskBase
import Tpool.Thread.CancelableThread
import Tpool.Thread.Timer

/-!
# A timer and those who use it

- `SharedTimer`: the timer thread, its queue, whether it is blocked on the condition of the queue and not notified, the
  timer tasks with their deadlines and intervals, and where every client is in its call. `Record`: what has happened.
- `timerStep`, `clientStep`: one step of the timer thread, and of a client's call of `RunLater`, `RunEvery`,
  `StopAsync`, `Stop`, of `Run`, `Cancel` or `CancelAsync` of a task. The code of a task that uses the timer is a client
  as well.
- The timer thread holds `m_queue_guard` at some points of its code (`PC.locked`); a client's section under this lock is
  one step. `timerStep_cases`, `clientStep_cases`: what a step can do.
-/

namespace Tpool

open Concurrency Structures

namespace SharedTimer

/-- `RunLater` or `RunEvery`, with its arguments. -/
inductive Submission
  | later (delay_in_ms : TimeValue)
  | every (interval_in_ms : TimeValue) (is_run_now : Bool)
  deriving DecidableEq

/-- The deadline that a submission gives to a task at `now`. -/
def Submission.deadline (now : TimeValue) : Submission → TimeValue
  | .later delay_in_ms => now + delay_in_ms
  | .every interval_in_ms is_run_now => if is_run_now then now else now + interval_in_ms

/-- Why a task leaves the queue: it was found cancelled, or with a cancel requested, or it is due and not to be run
again. -/
inductive Why
  | cancelled
  | requested (now : TimeValue)
  | due (now : TimeValue)
  deriving DecidableEq

/-- Where the timer thread is; `now` is what the clock has shown to it in the same turn of its loop. -/
inductive PC (T : Type*)
  -- CancelableThread::ThreadFunction
  | setRunning
  | checkCancellation
  -- Timer::ThreadFunction
  | lock
  | isEmpty
  | checkEmpty
  | wait
  | blocked
  | check
  | getMin
  | getCurrentTime (t : T)
  | getDeadline (t : T) (now : TimeValue)
  | isCancelled (t : T) (now deadline : TimeValue)
  | isRequestCancel (t : T) (now deadline : TimeValue)
  | compare (t : T) (now deadline : TimeValue)
  | isIntervalTask (t : T) (now : TimeValue)
  | getInterval (t : T) (now : TimeValue)
  | setDeadline (t : T) (now interval : TimeValue)
  | popMinAndPush (t : T) (now : TimeValue)
  | popMin (t : T) (why : Why)
  | timedWait (deadline : TimeValue)
  | timedBlocked (deadline : TimeValue)
  | unlock (fired : Option (T × TimeValue))
  | leave
  | run (t : T) (now : TimeValue) (p : TaskBase.RunPC)
  -- CancelableThread::ThreadFunction
  | notifyFinished
  | terminated
  deriving DecidableEq

/-- The points at which the timer thread holds `m_queue_guard`. -/
def PC.locked {T : Type*} : PC T → Bool
  | .setRunning | .checkCancellation | .lock | .blocked | .timedBlocked _ | .run _ _ _ | .notifyFinished
  | .terminated => false
  | _ => true

inductive Method (T : Type*)
  | submit (t : T) (how : Submission)
  | stopAsync
  | stop
  | runTask (t : T)
  | cancelTask (t : T) (async : Bool)

/-- Where a client is in its call. -/
inductive ClientPC (T : Type*)
  | idle
  -- DoRunLater, DoRunEvery
  | getCurrentTime (t : T) (how : Submission)
  | isRequestCancel (t : T) (how : Submission) (now : TimeValue)
  | getDeadline (t : T) (how : Submission) (now : TimeValue)
  | setDeadline (t : T) (how : Submission) (now : TimeValue)
  | setInterval (t : T) (how : Submission) (now interval : TimeValue)
  | pushTask (t : T) (how : Submission) (now : TimeValue)
  -- StopAsync, at the beginning of Stop as well
  | cancelAsync (stop : Bool)
  | clear (stop : Bool)
  -- CancelableThread::Cancel, at the end of Stop
  | cancelThread
  | waitThread
  | blockedThread
  -- TaskBase
  | runTask (t : T) (p : TaskBase.RunPC)
  | cancelTask (t : T) (async : Bool) (p : TaskBase.CancelPC)
  deriving DecidableEq

/-- What has happened: the tasks passed to a submission; those accepted, with what the clock had shown to the call;
those that have left the queue, by why; those passed to `Run` by the timer thread; the `DoRun`s it has started, with
what the clock had shown; whether a `StopAsync` has completed and a `Stop` has returned; which calls began after a
`StopAsync` had completed; what the submissions have returned; and what the clock has shown last. -/
structure Record (Cl T : Type*) where
  submitted : List T
  accepted : List (T × TimeValue × Submission)
  fired : List T
  removed : List T
  cleared : List T
  runs : List T
  started : List (T × TimeValue)
  stopAsyncDone : Bool
  stopReturned : Bool
  late : Cl → Bool
  returned : Cl → Option Bool
  clock : TimeValue

end SharedTimer

open SharedTimer

/-- A timer that the clients `Cl` use for the tasks `T`. -/
structure SharedTimer (Cl T : Type*) where
  thread : CancelableThread Cl
  queue : List T
  waiting : Bool
  pc : SharedTimer.PC T
  base : T → TaskBase Cl
  deadline : T → TimeValue
  interval : T → TimeValue
  client : Cl → ClientPC T
  record : Record Cl T

namespace SharedTimer

variable {Cl T : Type*}

/-- The timer has just been constructed. -/
def new (Cl T : Type*) : SharedTimer Cl T where
  thread := .new
  queue := []
  waiting := false
  pc := .setRunning
  base _ := .new
  deadline _ := 0
  interval _ := 0
  client _ := .idle
  record := ⟨[], [], [], [], [], [], [], false, false, fun _ => false, fun _ => none, 0⟩

/-- What a step takes from outside: how user code is left, and what the clock shows. -/
structure Input where
  exit : Exit
  now : TimeValue

inductive Wake (Cl T : Type*)
  | timer
  | thread (c : Cl)
  | task (t : T) (c : Cl)

inductive Action (Cl T : Type*)
  | call (c : Cl) (m : Method T)
  | client (c : Cl) (i : Input)
  | timer (i : Input)
  | wake (w : Wake Cl T)

section Step

variable [DecidableEq Cl] [DecidableEq T] (heap : PriorityQueue T Nat) (s : SharedTimer Cl T)

def goto (pc : PC T) : SharedTimer Cl T := { s with pc }

def gotoClient (c : Cl) (pc : ClientPC T) : SharedTimer Cl T := { s with client := Function.update s.client c pc }

def setBase (t : T) (b : TaskBase Cl) : SharedTimer Cl T := { s with base := Function.update s.base t b }

/-- `CompareTimerTask` orders the queue by the deadlines. -/
def key (t : T) : Nat := (s.deadline t).toNat

/-! ## The timer thread -/

/-- `PopMin`, with what is recorded of it. -/
def popMin (u : T) : Why → SharedTimer Cl T
  | .due _ => { s with queue := heap.pop s.key s.queue, record := { s.record with fired := s.record.fired ++ [u] } }
  | _ => { s with queue := heap.pop s.key s.queue, record := { s.record with removed := s.record.removed ++ [u] } }

/-- The task is run when it is due, and when its cancel was requested. -/
def Why.fired (t : T) : Why → Option (T × TimeValue)
  | .cancelled => none
  | .requested now | .due now => some (t, now)

/-- One step of the timer thread. -/
def timerStep (i : Input) : Option (SharedTimer Cl T) := match s.pc with
  | .setRunning => some { s with thread := s.thread.setRunning, pc := .checkCancellation }
  | .checkCancellation => some (s.goto (if s.thread.isRequestCancel then .notifyFinished else .lock))
  | .lock => some (s.goto .isEmpty)
  | .isEmpty => some (s.goto (if s.queue.isEmpty then .checkEmpty else .check))
  | .checkEmpty => some (s.goto (if s.thread.isRequestCancel then .leave else .wait))
  | .wait => some { s with waiting := true, pc := .blocked }
  | .blocked => if s.waiting then none else some (s.goto .isEmpty)
  | .check => some (s.goto (if s.thread.isRequestCancel then .leave else .getMin))
  | .getMin => s.queue.head?.map fun t => s.goto (.getCurrentTime t)
  | .getCurrentTime t => some { s.goto (.getDeadline t i.now) with record := { s.record with clock := i.now } }
  | .getDeadline t now => some (s.goto (.isCancelled t now (s.deadline t)))
  | .isCancelled t now deadline =>
    some (s.goto (if (s.base t).state = .cancelled then .popMin t .cancelled else .isRequestCancel t now deadline))
  | .isRequestCancel t now deadline =>
    some (s.goto (if (s.base t).isRequestCancel then .popMin t (.requested now) else .compare t now deadline))
  | .compare t now deadline => some (s.goto (if deadline ≤ now then .isIntervalTask t now else .timedWait deadline))
  | .isIntervalTask t now => some (s.goto (if 0 < s.interval t then .getInterval t now else .popMin t (.due now)))
  | .getInterval t now => some (s.goto (.setDeadline t now (s.interval t)))
  | .setDeadline t now interval =>
    some { s.goto (.popMinAndPush t now) with deadline := Function.update s.deadline t (now + interval) }
  | .popMinAndPush t now => s.queue.head?.map fun u =>
    { s.goto (.unlock (some (t, now))) with queue := heap.push s.key (heap.pop s.key s.queue) u }
  | .popMin t why => s.queue.head?.map fun u => (s.popMin heap u why).goto (.unlock (why.fired t))
  | .timedWait deadline => some { s with waiting := true, pc := .timedBlocked deadline }
  -- notified, or timed out
  | .timedBlocked _ => some { s with waiting := false, pc := .unlock none }
  | .unlock none => some (s.goto .lock)
  | .unlock (some (t, now)) =>
    some { s.goto (.run t now .checkCancellation) with record := { s.record with runs := s.record.runs ++ [t] } }
  -- the exit exception unlocks
  | .leave => some (s.goto .notifyFinished)
  | .run _ _ .ret => some (s.goto .lock)
  -- an exception that Run does not catch leaves the thread function
  | .run _ _ .raised => some (s.goto .notifyFinished)
  | .run t now p => ((s.base t).run p i.exit).map fun (b, p') =>
    { (s.setBase t b).goto (.run t now p') with
      record := if p' = .doRun then { s.record with started := s.record.started ++ [(t, now)] } else s.record }
  | .notifyFinished => some { s with thread := s.thread.notifyFinished, pc := .terminated }
  | .terminated => none

/-! ## The clients -/

def Method.start : Method T → ClientPC T
  | .submit t how => .getCurrentTime t how
  | .stopAsync => .cancelAsync false
  | .stop => .cancelAsync true
  | .runTask t => .runTask t .checkCancellation
  | .cancelTask t async => .cancelTask t async .setFlag

/-- The call `m` of `c` begins. -/
def call (c : Cl) (m : Method T) : SharedTimer Cl T :=
  { s.gotoClient c m.start with
    record := match m with
      | .submit t _ => { s.record with
          submitted := s.record.submitted ++ [t]
          late := Function.update s.record.late c s.record.stopAsyncDone
          returned := Function.update s.record.returned c none }
      | _ => { s.record with late := Function.update s.record.late c false } }

/-- A submission of `c` returns false. -/
def refuse (c : Cl) : SharedTimer Cl T :=
  { s.gotoClient c .idle with
    record := { s.record with returned := Function.update s.record.returned c (some false) } }

/-- `c` reads the state of the thread in `Cancel`. -/
def awaitThread (c : Cl) : SharedTimer Cl T :=
  if s.thread.state = .finished then { s.gotoClient c .idle with record := { s.record with stopReturned := true } }
  else { s.gotoClient c .blockedThread with thread := (s.thread.awaitFinished c).1 }

/-- One step of the call of `c`. -/
def clientStep (c : Cl) (i : Input) : Option (SharedTimer Cl T) := match s.client c with
  | .idle => none
  -- DoRunLater, DoRunEvery
  | .getCurrentTime t how =>
    some { s.gotoClient c (.isRequestCancel t how i.now) with record := { s.record with clock := i.now } }
  | .isRequestCancel t how now =>
    some (if s.thread.isRequestCancel then s.refuse c else s.gotoClient c (.getDeadline t how now))
  -- a task having been put in the timer cannot be put again
  | .getDeadline t how now =>
    some (if s.deadline t ≠ 0 then s.refuse c else s.gotoClient c (.setDeadline t how now))
  | .setDeadline t how now =>
    some { s.gotoClient c (match how with
        | .later _ => .pushTask t how now
        | .every interval_in_ms _ => .setInterval t how now interval_in_ms) with
      deadline := Function.update s.deadline t (how.deadline now) }
  | .setInterval t how now interval =>
    some { s.gotoClient c (.pushTask t how now) with interval := Function.update s.interval t interval }
  | .pushTask t how now =>
    if s.pc.locked then none
    else some { s.gotoClient c .idle with
      queue := heap.push s.key s.queue t
      waiting := false
      record := { s.record with
        accepted := s.record.accepted ++ [(t, now, how)]
        returned := Function.update s.record.returned c (some true) } }
  -- StopAsync
  | .cancelAsync stop => some { s.gotoClient c (.clear stop) with thread := s.thread.cancelAsync }
  | .clear stop =>
    if s.pc.locked then none
    else some { s.gotoClient c (if stop then .cancelThread else .idle) with
      queue := []
      waiting := false
      record := { s.record with cleared := s.record.cleared ++ s.queue, stopAsyncDone := true } }
  -- CancelableThread::Cancel
  | .cancelThread => some { s.gotoClient c .waitThread with thread := s.thread.cancelAsync }
  | .waitThread => some (s.awaitThread c)
  | .blockedThread => if c ∈ s.thread.waiters then none else some (s.awaitThread c)
  -- TaskBase
  | .runTask _ .ret | .runTask _ .raised | .cancelTask _ _ .ret | .cancelTask _ _ .raised => some (s.gotoClient c .idle)
  | .runTask t p => ((s.base t).run p i.exit).map fun (b, p') => (s.setBase t b).gotoClient c (.runTask t p')
  | .cancelTask t async p => ((s.base t).cancel async c p i.exit).map fun (b, p') =>
    (s.setBase t b).gotoClient c (.cancelTask t async p')

/-! ## The system -/

def wakeStep : Wake Cl T → SharedTimer Cl T
  | .timer => { s with waiting := false }
  | .thread c => { s with thread := s.thread.wake c }
  | .task t c => s.setBase t { s.base t with waiters := (s.base t).waiters.erase c }

def step : Action Cl T → Option (SharedTimer Cl T)
  | .call c m => if s.client c = .idle then some (s.call c m) else none
  | .client c i => s.clientStep heap c i
  | .timer i => s.timerStep heap i
  | .wake w => some (s.wakeStep w)

end Step

/-- A timer whose queue is `heap`, and any number of clients. -/
def system (Cl : Type*) {T : Type*} [DecidableEq Cl] [DecidableEq T] (heap : PriorityQueue T Nat) :
    System (SharedTimer Cl T) (Action Cl T) := ⟨new Cl T, fun s a => s.step heap a⟩

/-! ## What a step can do -/

section Steps

variable {heap : PriorityQueue T Nat} {s s' : SharedTimer Cl T}

/-- The timer thread moves on and does nothing else. -/
inductive Move (s : SharedTimer Cl T) : PC T → PC T → Prop
  | enter : s.thread.isRequestCancel = false → Move s .checkCancellation .lock
  | cancelled : s.thread.isRequestCancel = true → Move s .checkCancellation .notifyFinished
  | lock : Move s .lock .isEmpty
  | empty : s.queue = [] → Move s .isEmpty .checkEmpty
  | nonempty : s.queue ≠ [] → Move s .isEmpty .check
  | exit {pc} : pc = .checkEmpty ∨ pc = .check → s.thread.isRequestCancel = true → Move s pc .leave
  | checkEmpty : s.thread.isRequestCancel = false → Move s .checkEmpty .wait
  | wake : s.waiting = false → Move s .blocked .isEmpty
  | check : s.thread.isRequestCancel = false → Move s .check .getMin
  | getMin {t} : s.queue.head? = some t → Move s .getMin (.getCurrentTime t)
  | getDeadline {t now} : Move s (.getDeadline t now) (.isCancelled t now (s.deadline t))
  | isCancelled {t now deadline} : (s.base t).state = .cancelled →
      Move s (.isCancelled t now deadline) (.popMin t .cancelled)
  | notCancelled {t now deadline} : (s.base t).state ≠ .cancelled →
      Move s (.isCancelled t now deadline) (.isRequestCancel t now deadline)
  | requested {t now deadline} : (s.base t).isRequestCancel = true →
      Move s (.isRequestCancel t now deadline) (.popMin t (.requested now))
  | notRequested {t now deadline} : (s.base t).isRequestCancel = false →
      Move s (.isRequestCancel t now deadline) (.compare t now deadline)
  | due {t now deadline} : deadline ≤ now → Move s (.compare t now deadline) (.isIntervalTask t now)
  | early {t now deadline} : ¬ deadline ≤ now → Move s (.compare t now deadline) (.timedWait deadline)
  | interval {t now} : 0 < s.interval t → Move s (.isIntervalTask t now) (.getInterval t now)
  | oneShot {t now} : ¬ 0 < s.interval t → Move s (.isIntervalTask t now) (.popMin t (.due now))
  | getInterval {t now} : Move s (.getInterval t now) (.setDeadline t now (s.interval t))
  | unlock : Move s (.unlock none) .lock
  | leave : Move s .leave .notifyFinished
  | hasRun {t now} : Move s (.run t now .ret) .lock
  | hasRaised {t now} : Move s (.run t now .raised) .notifyFinished

theorem cons_of_head? {u : T} (h : s.queue.head? = some u) : ∃ rest, s.queue = u :: rest :=
  ⟨s.queue.tail, List.eq_cons_of_mem_head? h⟩

variable [DecidableEq T]

/-- A step of the timer thread, by what it does. -/
inductive TimerStep (heap : PriorityQueue T Nat) (i : Input) (s : SharedTimer Cl T) : SharedTimer Cl T → Prop
  | move {pc pc'} : s.pc = pc → Move s pc pc' → TimerStep heap i s (s.goto pc')
  | setRunning : s.pc = .setRunning →
      TimerStep heap i s { s with thread := s.thread.setRunning, pc := .checkCancellation }
  | wait : s.pc = .wait → TimerStep heap i s { s with waiting := true, pc := .blocked }
  | readClock {t} : s.pc = .getCurrentTime t →
      TimerStep heap i s { s.goto (.getDeadline t i.now) with record := { s.record with clock := i.now } }
  | setDeadline {t now interval} : s.pc = .setDeadline t now interval →
      TimerStep heap i s
        { s.goto (.popMinAndPush t now) with deadline := Function.update s.deadline t (now + interval) }
  | again {t now u rest} : s.pc = .popMinAndPush t now → s.queue = u :: rest →
      TimerStep heap i s
        { s.goto (.unlock (some (t, now))) with queue := heap.push s.key (heap.pop s.key s.queue) u }
  | popMin {t why u rest} : s.pc = .popMin t why → s.queue = u :: rest →
      TimerStep heap i s ((s.popMin heap u why).goto (.unlock (why.fired t)))
  | timedWait {deadline} : s.pc = .timedWait deadline →
      TimerStep heap i s { s with waiting := true, pc := .timedBlocked deadline }
  | awake {deadline} : s.pc = .timedBlocked deadline →
      TimerStep heap i s { s with waiting := false, pc := .unlock none }
  | start {t now} : s.pc = .unlock (some (t, now)) →
      TimerStep heap i s
        { s.goto (.run t now .checkCancellation) with record := { s.record with runs := s.record.runs ++ [t] } }
  | run {t now p b p'} : s.pc = .run t now p → (s.base t).run p i.exit = some (b, p') →
      TimerStep heap i s { (s.setBase t b).goto (.run t now p') with
        record := if p' = .doRun then { s.record with started := s.record.started ++ [(t, now)] } else s.record }
  | notifyFinished : s.pc = .notifyFinished →
      TimerStep heap i s { s with thread := s.thread.notifyFinished, pc := .terminated }

/-- **What a step of the timer thread can do.** -/
theorem timerStep_cases {i : Input} (h : s.timerStep heap i = some s') : TimerStep heap i s s' := by
  cases hpc : s.pc with
  | setRunning => simp only [timerStep, hpc, Option.some.injEq] at h; subst h; exact .setRunning hpc
  | checkCancellation =>
    simp only [timerStep, hpc, Option.some.injEq] at h
    subst h
    cases hf : s.thread.isRequestCancel with
    | true => exact .move hpc (.cancelled hf)
    | false => exact .move hpc (.enter hf)
  | lock => simp only [timerStep, hpc, Option.some.injEq] at h; subst h; exact .move hpc .lock
  | isEmpty =>
    simp only [timerStep, hpc, Option.some.injEq] at h
    subst h
    by_cases hq : s.queue = []
    · rw [if_pos (by simp [hq])]; exact .move hpc (.empty hq)
    · rw [if_neg (by simpa using hq)]; exact .move hpc (.nonempty hq)
  | checkEmpty =>
    simp only [timerStep, hpc, Option.some.injEq] at h
    subst h
    cases hf : s.thread.isRequestCancel with
    | true => exact .move hpc (.exit (Or.inl rfl) hf)
    | false => exact .move hpc (.checkEmpty hf)
  | wait => simp only [timerStep, hpc, Option.some.injEq] at h; subst h; exact .wait hpc
  | blocked =>
    simp only [timerStep, hpc] at h
    split at h <;> cases h
    exact .move hpc (.wake (by simpa using ‹¬ _ = true›))
  | check =>
    simp only [timerStep, hpc, Option.some.injEq] at h
    subst h
    cases hf : s.thread.isRequestCancel with
    | true => exact .move hpc (.exit (Or.inr rfl) hf)
    | false => exact .move hpc (.check hf)
  | getMin =>
    simp only [timerStep, hpc] at h
    obtain ⟨t, ht, rfl⟩ := Option.map_eq_some_iff.mp h
    exact .move hpc (.getMin ht)
  | getCurrentTime t => simp only [timerStep, hpc, Option.some.injEq] at h; subst h; exact .readClock hpc
  | getDeadline t now => simp only [timerStep, hpc, Option.some.injEq] at h; subst h; exact .move hpc .getDeadline
  | isCancelled t now deadline =>
    simp only [timerStep, hpc, Option.some.injEq] at h
    subst h
    split
    · exact .move hpc (.isCancelled ‹_›)
    · exact .move hpc (.notCancelled ‹_›)
  | isRequestCancel t now deadline =>
    simp only [timerStep, hpc, Option.some.injEq] at h
    subst h
    split
    · exact .move hpc (.requested ‹_›)
    · exact .move hpc (.notRequested (by simpa using ‹¬ _ = true›))
  | compare t now deadline =>
    simp only [timerStep, hpc, Option.some.injEq] at h
    subst h
    split
    · exact .move hpc (.due ‹_›)
    · exact .move hpc (.early ‹_›)
  | isIntervalTask t now =>
    simp only [timerStep, hpc, Option.some.injEq] at h
    subst h
    split
    · exact .move hpc (.interval ‹_›)
    · exact .move hpc (.oneShot ‹_›)
  | getInterval t now => simp only [timerStep, hpc, Option.some.injEq] at h; subst h; exact .move hpc .getInterval
  | setDeadline t now interval => simp only [timerStep, hpc, Option.some.injEq] at h; subst h; exact .setDeadline hpc
  | popMinAndPush t now =>
    simp only [timerStep, hpc] at h
    obtain ⟨u, hu, rfl⟩ := Option.map_eq_some_iff.mp h
    obtain ⟨rest, hq⟩ := cons_of_head? hu
    exact .again hpc hq
  | popMin t why =>
    simp only [timerStep, hpc] at h
    obtain ⟨u, hu, rfl⟩ := Option.map_eq_some_iff.mp h
    obtain ⟨rest, hq⟩ := cons_of_head? hu
    exact .popMin hpc hq
  | timedWait deadline => simp only [timerStep, hpc, Option.some.injEq] at h; subst h; exact .timedWait hpc
  | timedBlocked deadline => simp only [timerStep, hpc, Option.some.injEq] at h; subst h; exact .awake hpc
  | unlock fired =>
    cases fired with
    | none => simp only [timerStep, hpc, Option.some.injEq] at h; subst h; exact .move hpc .unlock
    | some x => simp only [timerStep, hpc, Option.some.injEq] at h; subst h; exact .start hpc
  | leave => simp only [timerStep, hpc, Option.some.injEq] at h; subst h; exact .move hpc .leave
  | run t now p =>
    by_cases hret : p = .ret
    · subst hret; simp only [timerStep, hpc, Option.some.injEq] at h; subst h; exact .move hpc .hasRun
    · by_cases hraised : p = .raised
      · subst hraised; simp only [timerStep, hpc, Option.some.injEq] at h; subst h; exact .move hpc .hasRaised
      · have h : ((s.base t).run p i.exit).map (fun r => ({ (s.setBase t r.1).goto (.run t now r.2) with
            record := if r.2 = .doRun then { s.record with started := s.record.started ++ [(t, now)] } else s.record } :
              SharedTimer Cl T)) = some s' := by
          cases p <;> simp_all [timerStep]
        obtain ⟨⟨b, p'⟩, hr, rfl⟩ := Option.map_eq_some_iff.mp h
        exact .run hpc hr
  | notifyFinished => simp only [timerStep, hpc, Option.some.injEq] at h; subst h; exact .notifyFinished hpc
  | terminated => simp [timerStep, hpc] at h

variable [DecidableEq Cl]

/-- A call moves on and does nothing else. -/
inductive Silent (s : SharedTimer Cl T) : ClientPC T → ClientPC T → Prop
  | notRequested {t how now} : s.thread.isRequestCancel = false →
      Silent s (.isRequestCancel t how now) (.getDeadline t how now)
  | putOnce {t how now} : s.deadline t = 0 → Silent s (.getDeadline t how now) (.setDeadline t how now)
  | hasRun {t p} : p = .ret ∨ p = .raised → Silent s (.runTask t p) .idle
  | hasCancelled {t async p} : p = .ret ∨ p = .raised → Silent s (.cancelTask t async p) .idle

/-- A step of the call of `c`, by what it does. -/
inductive ClientStep (heap : PriorityQueue T Nat) (c : Cl) (i : Input) (s : SharedTimer Cl T) : SharedTimer Cl T → Prop
  | silent {pc pc'} : s.client c = pc → Silent s pc pc' → ClientStep heap c i s (s.gotoClient c pc')
  | readClock {t how} : s.client c = .getCurrentTime t how →
      ClientStep heap c i s
        { s.gotoClient c (.isRequestCancel t how i.now) with record := { s.record with clock := i.now } }
  | refuse {t how now} : s.client c = .isRequestCancel t how now ∧ s.thread.isRequestCancel = true ∨
      s.client c = .getDeadline t how now ∧ s.deadline t ≠ 0 → ClientStep heap c i s (s.refuse c)
  | setDeadline {t how now pc'} : s.client c = .setDeadline t how now →
      (pc' = .pushTask t how now ∧ (∃ d, how = .later d) ∨
        ∃ p b, how = .every p b ∧ pc' = .setInterval t how now p) →
      ClientStep heap c i s
        { s.gotoClient c pc' with deadline := Function.update s.deadline t (how.deadline now) }
  | setInterval {t how now interval} : s.client c = .setInterval t how now interval →
      ClientStep heap c i s
        { s.gotoClient c (.pushTask t how now) with interval := Function.update s.interval t interval }
  | pushTask {t how now} : s.client c = .pushTask t how now → s.pc.locked = false →
      ClientStep heap c i s { s.gotoClient c .idle with
        queue := heap.push s.key s.queue t
        waiting := false
        record := { s.record with
          accepted := s.record.accepted ++ [(t, now, how)]
          returned := Function.update s.record.returned c (some true) } }
  | cancelAsync {pc'} : s.client c = .cancelThread ∧ pc' = .waitThread ∨
      (∃ stop, s.client c = .cancelAsync stop ∧ pc' = .clear stop) →
      ClientStep heap c i s { s.gotoClient c pc' with thread := s.thread.cancelAsync }
  | clear {stop} : s.client c = .clear stop → s.pc.locked = false →
      ClientStep heap c i s { s.gotoClient c (if stop then .cancelThread else .idle) with
        queue := []
        waiting := false
        record := { s.record with cleared := s.record.cleared ++ s.queue, stopAsyncDone := true } }
  | stopped : s.client c = .waitThread ∨ s.client c = .blockedThread → s.thread.state = .finished →
      ClientStep heap c i s { s.gotoClient c .idle with record := { s.record with stopReturned := true } }
  | block : s.client c = .waitThread ∨ s.client c = .blockedThread → s.thread.state ≠ .finished →
      ClientStep heap c i s { s.gotoClient c .blockedThread with thread := (s.thread.awaitFinished c).1 }
  | runTask {t p b p'} : s.client c = .runTask t p → (s.base t).run p i.exit = some (b, p') →
      ClientStep heap c i s ((s.setBase t b).gotoClient c (.runTask t p'))
  | cancelTask {t async p b p'} : s.client c = .cancelTask t async p →
      (s.base t).cancel async c p i.exit = some (b, p') →
      ClientStep heap c i s ((s.setBase t b).gotoClient c (.cancelTask t async p'))

theorem awaitThread_cases {c : Cl} {i : Input} (h : s.client c = .waitThread ∨ s.client c = .blockedThread) :
    ClientStep heap c i s (s.awaitThread c) := by
  unfold awaitThread
  split
  · exact .stopped h ‹_›
  · exact .block h ‹_›

/-- **What a step of a call can do.** -/
theorem clientStep_cases {c : Cl} {i : Input} (h : s.clientStep heap c i = some s') : ClientStep heap c i s s' := by
  cases hpc : s.client c with
  | idle => simp [clientStep, hpc] at h
  | getCurrentTime t how => simp only [clientStep, hpc, Option.some.injEq] at h; subst h; exact .readClock hpc
  | isRequestCancel t how now =>
    simp only [clientStep, hpc, Option.some.injEq] at h
    subst h
    split
    · exact .refuse (Or.inl ⟨hpc, ‹_›⟩)
    · exact .silent hpc (.notRequested (by simpa using ‹¬ _ = true›))
  | getDeadline t how now =>
    simp only [clientStep, hpc, Option.some.injEq] at h
    subst h
    by_cases hd : s.deadline t = 0
    · rw [if_neg (by simpa using hd)]; exact .silent hpc (.putOnce hd)
    · rw [if_pos hd]; exact .refuse (Or.inr ⟨hpc, hd⟩)
  | setDeadline t how now =>
    simp only [clientStep, hpc, Option.some.injEq] at h
    subst h
    refine .setDeadline hpc ?_
    cases how with
    | later d => exact Or.inl ⟨rfl, d, rfl⟩
    | every p b => exact Or.inr ⟨p, b, rfl, rfl⟩
  | setInterval t how now interval =>
    simp only [clientStep, hpc, Option.some.injEq] at h; subst h; exact .setInterval hpc
  | pushTask t how now =>
    simp only [clientStep, hpc] at h
    split at h <;> cases h
    exact .pushTask hpc (by simpa using ‹¬ _ = true›)
  | cancelAsync stop =>
    simp only [clientStep, hpc, Option.some.injEq] at h; subst h; exact .cancelAsync (Or.inr ⟨stop, hpc, rfl⟩)
  | clear stop =>
    simp only [clientStep, hpc] at h
    split at h <;> cases h
    exact .clear hpc (by simpa using ‹¬ _ = true›)
  | cancelThread => simp only [clientStep, hpc, Option.some.injEq] at h; subst h; exact .cancelAsync (Or.inl ⟨hpc, rfl⟩)
  | waitThread => simp only [clientStep, hpc, Option.some.injEq] at h; subst h; exact awaitThread_cases (Or.inl hpc)
  | blockedThread =>
    simp only [clientStep, hpc] at h
    split at h <;> cases h
    exact awaitThread_cases (Or.inr hpc)
  | runTask t p =>
    by_cases hp : p = .ret ∨ p = .raised
    · have h : some (s.gotoClient c .idle) = some s' := by rcases hp with rfl | rfl <;> simpa [clientStep, hpc] using h
      cases h
      exact .silent hpc (.hasRun hp)
    · have h : ((s.base t).run p i.exit).map (fun r => (s.setBase t r.1).gotoClient c (.runTask t r.2)) = some s' := by
        cases p <;> simp_all [clientStep]
      obtain ⟨⟨b, p'⟩, hb, rfl⟩ := Option.map_eq_some_iff.mp h
      exact .runTask hpc hb
  | cancelTask t async p =>
    by_cases hp : p = .ret ∨ p = .raised
    · have h : some (s.gotoClient c .idle) = some s' := by rcases hp with rfl | rfl <;> simpa [clientStep, hpc] using h
      cases h
      exact .silent hpc (.hasCancelled hp)
    · have h : ((s.base t).cancel async c p i.exit).map
          (fun r => (s.setBase t r.1).gotoClient c (.cancelTask t async r.2)) = some s' := by
        cases p <;> simp_all [clientStep]
      obtain ⟨⟨b, p'⟩, hb, rfl⟩ := Option.map_eq_some_iff.mp h
      exact .cancelTask hpc hb

/-- A step of the timer, by who makes it. -/
inductive Steps (heap : PriorityQueue T Nat) (s : SharedTimer Cl T) : Action Cl T → SharedTimer Cl T → Prop
  | call {c m} : s.client c = .idle → Steps heap s (.call c m) (s.call c m)
  | client {c i s'} : ClientStep heap c i s s' → Steps heap s (.client c i) s'
  | timer {i s'} : TimerStep heap i s s' → Steps heap s (.timer i) s'
  | wake (w : Wake Cl T) : Steps heap s (.wake w) (s.wakeStep w)

/-- **What a step can do.** -/
theorem step_cases {a : Action Cl T} (h : (system Cl heap).step s a = some s') : Steps heap s a s' := by
  cases a with
  | call c m =>
    simp only [system, step] at h
    split at h <;> cases h
    exact .call ‹_›
  | client c i => exact .client (clientStep_cases h)
  | timer i => exact .timer (timerStep_cases h)
  | wake w => cases h; exact .wake w

end Steps

end SharedTimer

end Tpool
