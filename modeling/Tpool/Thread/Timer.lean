import Tpool.Task.TaskBase
import Tpool.Thread.CancelableThread

/-!
# Timer

- `TimerTask`: a task with its deadline and interval; `Timer`: the timer thread, its queue of tasks by index, and where
  the thread is. The thread keeps `m_queue_guard` from one step to the next (`locked`); the sections of the other
  threads are single steps that need it free.
- `step`: one step of the timer thread. The clock is read from outside, as is the choice among equal deadlines. What
  `DoRun` does belongs to whoever has defined the tasks, so there is no step from it here.
- `Step`, `step_cases`: what a step can do.
-/

namespace Tpool

/-- Milliseconds, `unsigned long long`. -/
abbrev TimeValue := UInt64

/-- A timer task; `task` is what its `DoRun` works on. -/
structure TimerTask (Cl T : Type*) where
  base : TaskBase Cl
  deadline : TimeValue
  interval : TimeValue
  task : T

/-- Where the timer thread is; `D` are the points of a `DoRun`. -/
inductive Timer.PC (D : Type*)
  -- CancelableThread::ThreadFunction
  | setRunning
  | checkCancellation
  -- Timer::ThreadFunction
  | lock
  | isEmpty
  | checkEmpty
  | wait
  | check
  | getMin
  | isCancelled (id : Nat) (now deadline : TimeValue)
  | isRequestCancel (id : Nat) (now deadline : TimeValue)
  | fire (id : Nat) (now deadline : TimeValue)
  | timedWait
  | unlock (fired : Option Nat)
  | leave
  | run (id : Nat) (p : TaskBase.RunPC)
  | doRun (id : Nat) (d : D)
  -- CancelableThread::ThreadFunction
  | notifyFinished
  | terminated

/-- A timer; `waiting` when its thread is blocked on the condition of the queue and not notified. -/
structure Timer (Cl D : Type*) where
  thread : CancelableThread Cl
  queue : List Nat
  locked : Bool
  waiting : Bool
  pc : Timer.PC D

/-- What a step takes from outside: how user code is left, what the clock shows, which of the smallest is on top. -/
structure Input where
  exit : Exit
  now : TimeValue
  pick : Nat

namespace Timer

variable {Cl T D : Type*}

def new : Timer Cl D := ⟨.new, [], false, false, .setRunning⟩

def goto (tm : Timer Cl D) (pc : PC D) : Timer Cl D := { tm with pc }

/-- The timer and the timer tasks there are. -/
structure World (Cl T D : Type*) where
  timer : Timer Cl D
  timerTasks : List (TimerTask Cl T)

/-- No queued task has a smaller deadline. -/
def isMin (s : World Cl T D) (task : TimerTask Cl T) : Bool :=
  s.timer.queue.all fun id => (s.timerTasks[id]?).all fun other => task.deadline ≤ other.deadline

/-- The task on top of the queue: one with the smallest deadline. -/
def getMin (s : World Cl T D) (pick : Nat) : Option (Nat × TimerTask Cl T) :=
  s.timer.queue[pick]?.bind fun id => (s.timerTasks[id]?).bind fun task =>
    if isMin s task then some (id, task) else none

/-- One step of the timer thread; `start` is where a `DoRun` begins. -/
def step (start : D) (i : Input) (s : World Cl T D) : Option (World Cl T D) :=
  let tm := s.timer
  match tm.pc with
  | .setRunning => some { s with timer := { tm with thread := tm.thread.setRunning, pc := .checkCancellation } }
  | .checkCancellation =>
    some { s with timer := tm.goto (if tm.thread.isRequestCancel then .notifyFinished else .lock) }
  | .lock => some { s with timer := { tm with locked := true, pc := .isEmpty } }
  | .isEmpty => some { s with timer := tm.goto (if tm.queue.isEmpty then .checkEmpty else .check) }
  | .checkEmpty =>
    if tm.thread.isRequestCancel then some { s with timer := tm.goto .leave }
    else some { s with timer := { tm with locked := false, waiting := true, pc := .wait } }
  | .wait => if tm.waiting then none else some { s with timer := { tm with locked := true, pc := .isEmpty } }
  | .check => some { s with timer := tm.goto (if tm.thread.isRequestCancel then .leave else .getMin) }
  | .getMin => (getMin s i.pick).map fun (id, task) => { s with timer := tm.goto (.isCancelled id i.now task.deadline) }
  | .isCancelled id now deadline => (s.timerTasks[id]?).map fun task =>
    if task.base.state = .cancelled then { s with timer := { tm with queue := tm.queue.erase id, pc := .unlock none } }
    else { s with timer := tm.goto (.isRequestCancel id now deadline) }
  | .isRequestCancel id now deadline => (s.timerTasks[id]?).map fun task =>
    if task.base.isRequestCancel then
      { s with timer := { tm with queue := tm.queue.erase id, pc := .unlock (some id) } }
    else { s with timer := tm.goto (.fire id now deadline) }
  | .fire id now deadline => (s.timerTasks[id]?).map fun task =>
    if deadline ≤ now then
      if 0 < task.interval then
        { timer := { tm with queue := tm.queue.erase id ++ [id], pc := .unlock (some id) }
          timerTasks := s.timerTasks.set id { task with deadline := now + task.interval } }
      else { s with timer := { tm with queue := tm.queue.erase id, pc := .unlock (some id) } }
    else { s with timer := { tm with locked := false, waiting := true, pc := .timedWait } }
  -- notified, or timed out
  | .timedWait => some { s with timer := { tm with locked := true, waiting := false, pc := .unlock none } }
  | .unlock fired =>
    some { s with timer := { tm with locked := false, pc := fired.elim .lock fun id => .run id .checkCancellation } }
  -- the exit exception unlocks
  | .leave => some { s with timer := { tm with locked := false, pc := .notifyFinished } }
  | .run _ .ret => some { s with timer := tm.goto .lock }
  | .run _ .raised => some { s with timer := tm.goto .notifyFinished }
  -- the default OnCancel returns
  | .run id p => (s.timerTasks[id]?).bind fun task => (task.base.run p .ret).map fun (b, p') =>
    { timer := tm.goto (if p' = .doRun then .doRun id start else .run id p')
      timerTasks := s.timerTasks.set id { task with base := b } }
  | .doRun _ _ => none
  | .notifyFinished => some { s with timer := { tm with thread := tm.thread.notifyFinished, pc := .terminated } }
  | .terminated => none

/-- `DoRun` of the task `id` is left. -/
def leaveDoRun (id : Nat) (e : Exit) (s : World Cl T D) : Option (World Cl T D) :=
  (s.timerTasks[id]?).bind fun task => (task.base.run .doRun e).map fun (b, p) =>
    { timer := s.timer.goto (.run id p), timerTasks := s.timerTasks.set id { task with base := b } }

/-- A section of another thread under `m_queue_guard`: the queue changes and the timer thread is notified. -/
def setQueue (tm : Timer Cl D) (queue : List Nat) : Option (Timer Cl D) :=
  if tm.locked then none else some { tm with queue, waiting := false }

/-! ## What a step can do -/

/-- The timer thread moves on and does nothing else. -/
inductive Move (i : Input) (s : World Cl T D) : PC D → PC D → Prop
  | enter : s.timer.thread.isRequestCancel = false → Move i s .checkCancellation .lock
  | cancelled : s.timer.thread.isRequestCancel = true → Move i s .checkCancellation .notifyFinished
  | empty : s.timer.queue = [] → Move i s .isEmpty .checkEmpty
  | nonempty : s.timer.queue ≠ [] → Move i s .isEmpty .check
  | leaveEmpty : s.timer.thread.isRequestCancel = true → Move i s .checkEmpty .leave
  | leave : s.timer.thread.isRequestCancel = true → Move i s .check .leave
  | check : s.timer.thread.isRequestCancel = false → Move i s .check .getMin
  | getMin {id task} : getMin s i.pick = some (id, task) → Move i s .getMin (.isCancelled id i.now task.deadline)
  | notCancelled {id now deadline task} : s.timerTasks[id]? = some task → task.base.state ≠ .cancelled →
      Move i s (.isCancelled id now deadline) (.isRequestCancel id now deadline)
  | notRequested {id now deadline task} : s.timerTasks[id]? = some task → task.base.isRequestCancel = false →
      Move i s (.isRequestCancel id now deadline) (.fire id now deadline)
  | hasRun {id} : Move i s (.run id .ret) .lock
  | hasRaised {id} : Move i s (.run id .raised) .notifyFinished

/-- The task `id` leaves the queue; `fired` when it is run then. -/
inductive Popped (s : World Cl T D) (id : Nat) : PC D → Option Nat → Prop
  | cancelled {now deadline task} : s.timerTasks[id]? = some task → task.base.state = .cancelled →
      Popped s id (.isCancelled id now deadline) none
  | requested {now deadline task} : s.timerTasks[id]? = some task → task.base.isRequestCancel = true →
      Popped s id (.isRequestCancel id now deadline) (some id)
  | due {now deadline task} : s.timerTasks[id]? = some task → deadline ≤ now → ¬ 0 < task.interval →
      Popped s id (.fire id now deadline) (some id)

/-- A step of the timer thread, by what it does. -/
inductive Step (start : D) (i : Input) (s : World Cl T D) : World Cl T D → Prop
  | setRunning : s.timer.pc = .setRunning →
      Step start i s { s with timer := { s.timer with thread := s.timer.thread.setRunning, pc := .checkCancellation } }
  | move {pc pc'} : s.timer.pc = pc → Move i s pc pc' → Step start i s { s with timer := s.timer.goto pc' }
  | lock : s.timer.pc = .lock → Step start i s { s with timer := { s.timer with locked := true, pc := .isEmpty } }
  | wait : s.timer.pc = .checkEmpty → s.timer.thread.isRequestCancel = false →
      Step start i s { s with timer := { s.timer with locked := false, waiting := true, pc := .wait } }
  | wake : s.timer.pc = .wait → s.timer.waiting = false →
      Step start i s { s with timer := { s.timer with locked := true, pc := .isEmpty } }
  | pop {id pc fired} : s.timer.pc = pc → Popped s id pc fired →
      Step start i s { s with timer := { s.timer with queue := s.timer.queue.erase id, pc := .unlock fired } }
  | again {id now deadline task} : s.timer.pc = .fire id now deadline → s.timerTasks[id]? = some task → deadline ≤ now →
      0 < task.interval →
      Step start i s ⟨{ s.timer with queue := s.timer.queue.erase id ++ [id], pc := .unlock (some id) },
        s.timerTasks.set id { task with deadline := now + task.interval }⟩
  | sleep {id now deadline} : s.timer.pc = .fire id now deadline → ¬ deadline ≤ now →
      Step start i s { s with timer := { s.timer with locked := false, waiting := true, pc := .timedWait } }
  | awake : s.timer.pc = .timedWait →
      Step start i s { s with timer := { s.timer with locked := true, waiting := false, pc := .unlock none } }
  | unlock {fired} : s.timer.pc = .unlock fired →
      Step start i s { s with timer := { s.timer with
        locked := false, pc := fired.elim .lock fun id => .run id .checkCancellation } }
  | leave : s.timer.pc = .leave →
      Step start i s { s with timer := { s.timer with locked := false, pc := .notifyFinished } }
  | run {id p task b p'} : s.timer.pc = .run id p → s.timerTasks[id]? = some task →
      task.base.run p .ret = some (b, p') →
      Step start i s ⟨s.timer.goto (if p' = .doRun then .doRun id start else .run id p'),
        s.timerTasks.set id { task with base := b }⟩
  | notifyFinished : s.timer.pc = .notifyFinished →
      Step start i s { s with timer := { s.timer with thread := s.timer.thread.notifyFinished, pc := .terminated } }

/-- **What a step of the timer thread can do.** -/
theorem step_cases {start : D} {i : Input} {s s' : World Cl T D} (h : step start i s = some s') :
    Step start i s s' := by
  cases hpc : s.timer.pc with
  | setRunning => simp only [step, hpc, Option.some.injEq] at h; subst h; exact .setRunning hpc
  | checkCancellation =>
    simp only [step, hpc, Option.some.injEq] at h
    subst h
    cases hf : s.timer.thread.isRequestCancel with
    | true => exact .move hpc (.cancelled hf)
    | false => exact .move hpc (.enter hf)
  | lock => simp only [step, hpc, Option.some.injEq] at h; subst h; exact .lock hpc
  | isEmpty =>
    simp only [step, hpc, Option.some.injEq] at h
    subst h
    by_cases hq : s.timer.queue = []
    · rw [if_pos (by simp [hq])]; exact .move hpc (.empty hq)
    · rw [if_neg (by simpa using hq)]; exact .move hpc (.nonempty hq)
  | checkEmpty =>
    simp only [step, hpc] at h
    split at h <;> cases h
    · exact .move hpc (.leaveEmpty ‹_›)
    · exact .wait hpc (by simpa using ‹¬ _ = true›)
  | wait =>
    simp only [step, hpc] at h
    split at h <;> cases h
    exact .wake hpc (by simpa using ‹¬ _ = true›)
  | check =>
    simp only [step, hpc, Option.some.injEq] at h
    subst h
    cases hf : s.timer.thread.isRequestCancel with
    | true => exact .move hpc (.leave hf)
    | false => exact .move hpc (.check hf)
  | getMin =>
    simp only [step, hpc] at h
    obtain ⟨⟨id, task⟩, hm, rfl⟩ := Option.map_eq_some_iff.mp h
    exact .move hpc (.getMin hm)
  | isCancelled id now deadline =>
    simp only [step, hpc] at h
    obtain ⟨task, ht, rfl⟩ := Option.map_eq_some_iff.mp h
    split
    · exact .pop hpc (.cancelled ht ‹_›)
    · exact .move hpc (.notCancelled ht ‹_›)
  | isRequestCancel id now deadline =>
    simp only [step, hpc] at h
    obtain ⟨task, ht, rfl⟩ := Option.map_eq_some_iff.mp h
    split
    · exact .pop hpc (.requested ht ‹_›)
    · exact .move hpc (.notRequested ht (by simpa using ‹¬ _ = true›))
  | fire id now deadline =>
    simp only [step, hpc] at h
    obtain ⟨task, ht, rfl⟩ := Option.map_eq_some_iff.mp h
    split
    · split
      · exact .again hpc ht ‹_› ‹_›
      · exact .pop hpc (.due ht ‹_› ‹_›)
    · exact .sleep hpc ‹_›
  | timedWait => simp only [step, hpc, Option.some.injEq] at h; subst h; exact .awake hpc
  | unlock fired => simp only [step, hpc, Option.some.injEq] at h; subst h; exact .unlock hpc
  | leave => simp only [step, hpc, Option.some.injEq] at h; subst h; exact .leave hpc
  | run id p =>
    by_cases hret : p = .ret
    · subst hret; simp only [step, hpc, Option.some.injEq] at h; subst h; exact .move hpc .hasRun
    · by_cases hraised : p = .raised
      · subst hraised; simp only [step, hpc, Option.some.injEq] at h; subst h; exact .move hpc .hasRaised
      · have h : ((s.timerTasks[id]?).bind fun task => (task.base.run p .ret).map fun r =>
            (⟨s.timer.goto (if r.2 = .doRun then .doRun id start else .run id r.2),
              s.timerTasks.set id { task with base := r.1 }⟩ : World Cl T D)) = some s' := by
          cases p <;> simp_all [step]
        obtain ⟨task, ht, h⟩ := Option.bind_eq_some_iff.mp h
        obtain ⟨⟨b, p'⟩, hr, rfl⟩ := Option.map_eq_some_iff.mp h
        exact .run hpc ht hr
  | notifyFinished => simp only [step, hpc, Option.some.injEq] at h; subst h; exact .notifyFinished hpc
  | doRun | terminated => simp [step, hpc] at h

/-! ## The timer tasks -/

/-- The timer tasks there are stay with what they work on. -/
def SameTasks (ts ts' : List (TimerTask Cl T)) : Prop :=
  ∀ (id : Nat) task, ts[id]? = some task → ∃ task' : TimerTask Cl T, ts'[id]? = some task' ∧ task'.task = task.task

section SameTasks

variable {ts : List (TimerTask Cl T)}

theorem SameTasks.refl : SameTasks ts ts := fun _ task h => ⟨task, h, rfl⟩

theorem SameTasks.append (x : TimerTask Cl T) : SameTasks ts (ts ++ [x]) := fun _ task h =>
  ⟨task, by rw [List.getElem?_append_left (List.getElem?_eq_some_iff.mp h).1, h], rfl⟩

theorem SameTasks.set {id : Nat} {old new : TimerTask Cl T} (h : ts[id]? = some old) (hn : new.task = old.task) :
    SameTasks ts (ts.set id new) := by
  intro j task hj
  by_cases hji : id = j
  · subst hji
    rw [h] at hj
    cases hj
    exact ⟨new, by rw [List.getElem?_set_self (List.getElem?_eq_some_iff.mp h).1], hn⟩
  · exact ⟨task, by rw [List.getElem?_set_ne hji, hj], rfl⟩

theorem Step.sameTasks {start : D} {i : Input} {s s' : World Cl T D} (h : Step start i s s') :
    SameTasks s.timerTasks s'.timerTasks := by
  cases h with
  | again _ ht => exact .set ht rfl
  | run _ ht => exact .set ht rfl
  | _ => exact .refl

/-- The timer thread gets to a `DoRun` only at its beginning. -/
theorem Step.doRun {start : D} {i : Input} {s s' : World Cl T D} (h : Step start i s s') {id : Nat} {d : D}
    (hpc : s'.timer.pc = .doRun id d) : d = start := by
  cases h with
  | move _ hm => cases hm <;> simp [goto] at hpc
  | @unlock fired => cases fired <;> simp at hpc
  | @run id' p task b p' _ _ hr =>
    simp only [goto] at hpc
    split at hpc
    · simp only [PC.doRun.injEq] at hpc; exact hpc.2.symm
    · cases hpc
  | _ => simp at hpc

end SameTasks

end Timer

end Tpool
