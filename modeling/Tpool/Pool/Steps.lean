import Tpool.Pool.FixedThreadPool

/-!
# What a step of the pool can do

- `Silent`, `ClientStep`: the steps of a client's call, by what they do to the pool; a silent one only moves the call
  on.
- `TimerStep`: the steps of the timer thread, of which only those of `ThreadPoolTimerTask::DoRun` touch the pool.
- `WorkerStep`: the steps of a worker, those of its thread and those of `NotifyWhenThreadsStop`.
- `PoolStep`: all of them. `clientStep_cases`, `timerStep_cases`, `workerStep_cases`, `step_cases`: there are no others.
-/

namespace Tpool.FixedThreadPool

open Tpool.Core

variable {n : Nat} {Cl T : Type*} [DecidableEq T]

/-! ## The clients -/

section Client

variable [DecidableEq Cl]

/-- A call moves on and does nothing else. -/
inductive Silent (s : FixedThreadPool n Cl T) : ClientPC T → ClientPC T → Prop
  | refused {task} : s.isRequestStop = true ∨ task = none → Silent s (.addTask task) .idle
  | accepted {t} : s.isRequestStop = false → Silent s (.addTask (some t)) (.push t)
  | refusedTimer {task how} : s.isRequestStop = true ∨ task = none → Silent s (.addTimerTask task how) .idle
  | acceptedTimer {t how} : s.isRequestStop = false → Silent s (.addTimerTask (some t) how) (.makeTimer t how)
  | notSubmitted {id how tm} : s.timer = some tm → tm.thread.isRequestCancel = true → Silent s (.submit id how) .idle
  | submitted {id how tm now} : s.timer = some tm → tm.thread.isRequestCancel = false →
      Silent s (.submit id how) (.getDeadline id how now)
  | putTwice {id how now task} : s.timerTasks[id]? = some task → task.deadline ≠ 0 →
      Silent s (.getDeadline id how now) .idle
  | putOnce {id how now task} : s.timerTasks[id]? = some task → task.deadline = 0 →
      Silent s (.getDeadline id how now) (.setDeadline id how now)
  | lost {k} : s.isRequestStop = true → Silent s (.compareAndSet k) k.afterAsync
  | timerStarted {k} : s.timer.isSome = true → Silent s (.timerStarted k) (.timerCancelAsync k)
  | noTimer {k} : s.timer = none → Silent s (.timerStarted k) (.pushEndTask k 0)
  | cancelledAll {j} : n ≤ j → Silent s (.cancelAsync j) (.lockRunningTask 0)
  | stoppedAll {j} : n ≤ j → Silent s (.lockRunningTask j) (.isTimerStarted .now)
  | noTask {j} (h : j < n) : (∀ t, (s.threads ⟨j, h⟩).runningTask ≠ some (.task t)) →
      Silent s (.cancelRunningTask j) (.unlockRunningTask j false)
  | onCallCancel {j raised} : Silent s (.onCallCancel j) (.unlockRunningTask j raised)
  | threadFinished {j} (h : j < n) {pc} : pc = .waitThread j ∨ pc = .blockedThread j →
      (s.threads ⟨j, h⟩).thread.state = .finished → Silent s pc (.lockRunningTask (j + 1))
  | stopTimer {k} : s.timer.isSome = true → Silent s (.isTimerStarted k) (.stopTimerAsync k)
  | noTimerToStop {k} : s.timer = none → k ≠ .now → Silent s (.isTimerStarted k) .unlockState
  | timerFinished {k tm pc} : pc = .waitTimer k ∨ pc = .blockedTimer k → s.timer = some tm →
      tm.thread.state = .finished → k ≠ .now → Silent s pc .unlockState
  | cancelReturned {t async p} : p = .ret ∨ p = .raised → Silent s (.cancelTask t async p) .idle

/-- A step of the call of `c`, by what it does. -/
inductive ClientStep (c : Cl) (s : FixedThreadPool n Cl T) : FixedThreadPool n Cl T → Prop
  | silent {pc pc'} : s.client c = pc → Silent s pc pc' → ClientStep c s (s.goto c pc')
  | push {t} : s.client c = .push t →
      ClientStep c s { s.goto c .idle with taskQueue := s.taskQueue.push (.task t), accepted := s.accepted ++ [t] }
  | makeTimer {t how} : s.client c = .makeTimer t how →
      ClientStep c s { s.goto c (.submit s.timerTasks.length how) with
        timerTasks := s.timerTasks ++ [⟨.new, 0, 0, t⟩], timer := some (s.timer.getD .new) }
  | setDeadline {id how now task pc'} : s.client c = .setDeadline id how now → s.timerTasks[id]? = some task →
      pc' = .pushTask id ∨ (∃ interval, pc' = .setInterval id interval) →
      ClientStep c s { s.goto c pc' with
        timerTasks := s.timerTasks.set id { task with deadline := how.deadline now } }
  | setInterval {id interval task} : s.client c = .setInterval id interval → s.timerTasks[id]? = some task →
      ClientStep c s { s.goto c (.pushTask id) with timerTasks := s.timerTasks.set id { task with interval } }
  | pushTask {id task tm} : s.client c = .pushTask id → s.timerTasks[id]? = some task → s.timer = some tm →
      tm.locked = false →
      ClientStep c s { (s.setTimer { tm with queue := tm.queue ++ [id], waiting := false }).goto c .idle with
        accepted := s.accepted ++ [task.task] }
  | win {k} : s.client c = .compareAndSet k → s.isRequestStop = false →
      ClientStep c s { s.goto c (.timerStarted k) with isRequestStop := true, wins := s.wins + 1 }
  | pushEndTask {k j} : s.client c = .pushEndTask k j → j < n →
      ClientStep c s { s.goto c (.pushEndTask k (j + 1)) with taskQueue := s.taskQueue.push .endTask }
  | pushedAll {k j} : s.client c = .pushEndTask k j → n ≤ j →
      ClientStep c s { s.goto c k.afterAsync with endTasksPushed := true }
  | finished : s.client c = .waitFinished ∨ s.client c = .blockedFinished ∧ c ∉ s.stateWaiters →
      s.stateGuard = none → s.state = .finished →
      ClientStep c s { s.goto c (.isTimerStarted .stop) with stateGuard := some c }
  | join : s.client c = .waitFinished ∨ s.client c = .blockedFinished ∧ c ∉ s.stateWaiters →
      s.stateGuard = none → s.state ≠ .finished →
      ClientStep c s { s.goto c .blockedFinished with stateWaiters := insert c s.stateWaiters }
  | unlockState : s.client c = .unlockState →
      ClientStep c s { s.goto c .idle with stateGuard := none, stopReturned := true }
  | cancelThread {j pc'} (h : j < n) : s.client c = .cancelAsync j ∧ pc' = .cancelAsync (j + 1) ∨
        s.client c = .cancelThread j ∧ pc' = .waitThread j →
      ClientStep c s ((s.setThread ⟨j, h⟩ { s.threads ⟨j, h⟩ with
        thread := (s.threads ⟨j, h⟩).thread.cancelAsync }).goto c pc')
  | lockRunningTask {j} (h : j < n) : s.client c = .lockRunningTask j →
      (s.threads ⟨j, h⟩).runningTaskGuard = .free →
      ClientStep c s ((s.setThread ⟨j, h⟩ { s.threads ⟨j, h⟩ with runningTaskGuard := .client c }).goto c
        (.cancelRunningTask j))
  | cancelRunningTask {j t} (h : j < n) : s.client c = .cancelRunningTask j →
      (s.threads ⟨j, h⟩).runningTask = some (.task t) →
      ClientStep c s ((s.setTask t { s.task t with isRequestCancel := true }).goto c (.onCallCancel j))
  | unlockRunningTask {j raised} (h : j < n) : s.client c = .unlockRunningTask j raised →
      ClientStep c s ((s.setThread ⟨j, h⟩ { s.threads ⟨j, h⟩ with runningTaskGuard := .free }).goto c
        (if raised then .idle else .cancelThread j))
  | waitThread {j} (h : j < n) : s.client c = .waitThread j ∨
        s.client c = .blockedThread j ∧ c ∉ (s.threads ⟨j, h⟩).thread.waiters →
      ClientStep c s ((s.setThread ⟨j, h⟩ { s.threads ⟨j, h⟩ with
        thread := ((s.threads ⟨j, h⟩).thread.awaitFinished c).1 }).goto c (.blockedThread j))
  | stopNowReturned {pc} : s.client c = pc →
      pc = .isTimerStarted .now ∨ pc = .waitTimer .now ∨ pc = .blockedTimer .now →
      ClientStep c s { s.goto c .idle with stopNowReturned := true }
  | cancelTimer {k pc' tm} : s.timer = some tm →
      s.client c = .timerCancelAsync k ∧ pc' = .timerClear k ∨ s.client c = .stopTimerAsync k ∧ pc' = .clearTimer k ∨
        s.client c = .cancelTimer k ∧ pc' = .waitTimer k →
      ClientStep c s ((s.setTimer { tm with thread := tm.thread.cancelAsync }).goto c pc')
  | clearTimer {k pc' tm} : s.timer = some tm → tm.locked = false →
      s.client c = .timerClear k ∧ pc' = .pushEndTask k 0 ∨ s.client c = .clearTimer k ∧ pc' = .cancelTimer k →
      ClientStep c s ((s.setTimer { tm with queue := [], waiting := false }).goto c pc')
  | waitTimer {k tm} : s.timer = some tm →
      s.client c = .waitTimer k ∨ s.client c = .blockedTimer k ∧ c ∉ tm.thread.waiters →
      ClientStep c s ((s.setTimer { tm with thread := (tm.thread.awaitFinished c).1 }).goto c (.blockedTimer k))
  | cancelTask {t async p e b p'} : s.client c = .cancelTask t async p → (s.task t).cancel async c p e = some (b, p') →
      ClientStep c s ((s.setTask t b).goto c (.cancelTask t async p'))

variable {s s' : FixedThreadPool n Cl T} {c : Cl} {i : Input}

omit [DecidableEq Cl] [DecidableEq T] in
/-- Nothing changes when a thread is set to what it is. -/
theorem setThread_self (j : Fin n) : s.setThread j (s.threads j) = s := by
  simp only [setThread, Function.update_eq_self]

/-- `Stop` goes on or blocks. -/
theorem awaitPool_cases (hpc : s.client c = .waitFinished ∨ s.client c = .blockedFinished ∧ c ∉ s.stateWaiters)
    (h : s.awaitPool c = some s') : ClientStep c s s' := by
  unfold awaitPool at h
  split at h
  · split at h <;> cases h
    · exact .finished hpc ‹_› ‹_›
    · exact .join hpc ‹_› ‹_›
  · cases h

/-- The wait for a thread goes on or blocks. -/
theorem awaitThread_cases {j : Nat} (hj : j < n)
    (hpc : s.client c = .waitThread j ∨ s.client c = .blockedThread j ∧ c ∉ (s.threads ⟨j, hj⟩).thread.waiters) :
    ClientStep c s (s.awaitThread c ⟨j, hj⟩) := by
  by_cases hf : (s.threads ⟨j, hj⟩).thread.state = .finished
  · have heq : s.awaitThread c ⟨j, hj⟩ = s.goto c (.lockRunningTask (j + 1)) := by
      simp only [awaitThread, CancelableThread.awaitFinished, hf, if_true]
      rw [setThread_self]
    rw [heq]
    exact .silent rfl (.threadFinished hj (hpc.imp_right And.left) hf)
  · have heq : s.awaitThread c ⟨j, hj⟩ = (s.setThread ⟨j, hj⟩ { s.threads ⟨j, hj⟩ with
        thread := ((s.threads ⟨j, hj⟩).thread.awaitFinished c).1 }).goto c (.blockedThread j) := by
      simp only [awaitThread, CancelableThread.awaitFinished, hf, if_false, Bool.false_eq_true]
    rw [heq]
    exact .waitThread hj hpc

/-- The end of a call that stops the pool. -/
theorem leaveStop_cases {pc : ClientPC T} {k : Stopper} (hc : s.client c = pc)
    (hpc : pc = .isTimerStarted k ∨ pc = .waitTimer k ∨ pc = .blockedTimer k)
    (hs : k ≠ .now → Silent s pc .unlockState) : ClientStep c s (s.leaveStop c k) := by
  cases k with
  | now => exact .stopNowReturned hc hpc
  | async => exact .silent hc (hs (by simp))
  | stop => exact .silent hc (hs (by simp))

/-- The wait for the timer thread goes on or blocks. -/
theorem awaitTimer_cases {k : Stopper} {tm : Timer Cl ThreadPoolTimerTask.PC} (htm : s.timer = some tm)
    (hpc : s.client c = .waitTimer k ∨ s.client c = .blockedTimer k ∧ c ∉ tm.thread.waiters) :
    ClientStep c s (s.awaitTimer c k tm) := by
  by_cases hf : tm.thread.state = .finished
  · have heq : s.awaitTimer c k tm = s.leaveStop c k := by
      simp only [awaitTimer, CancelableThread.awaitFinished, hf, if_true]
      rw [show s.setTimer { tm with thread := tm.thread } = s by simp only [setTimer, ← htm]]
    rw [heq]
    have hpc := hpc.imp_right And.left
    exact leaveStop_cases rfl (Or.inr hpc) (.timerFinished hpc htm hf)
  · have heq : s.awaitTimer c k tm =
        (s.setTimer { tm with thread := (tm.thread.awaitFinished c).1 }).goto c (.blockedTimer k) := by
      simp only [awaitTimer, CancelableThread.awaitFinished, hf, if_false, Bool.false_eq_true]
    rw [heq]
    exact .waitTimer htm hpc

omit [DecidableEq T] in
/-- A section under the lock of the timer queue. -/
theorem withTimerQueue_cases {f : List Nat → List Nat} {pc : ClientPC T} (h : s.withTimerQueue f c pc = some s') :
    ∃ tm, s.timer = some tm ∧ tm.locked = false ∧
      s' = (s.setTimer { tm with queue := f tm.queue, waiting := false }).goto c pc := by
  unfold withTimerQueue at h
  split at h
  · cases h
  · rename_i tm htm
    obtain ⟨tm', htm', rfl⟩ := Option.map_eq_some_iff.mp h
    unfold Timer.setQueue at htm'
    split at htm' <;> cases htm'
    exact ⟨tm, htm, by simpa using ‹¬ tm.locked = true›, rfl⟩

/-- **What a step of a call can do.** -/
theorem clientStep_cases (h : s.clientStep c i = some s') : ClientStep c s s' := by
  cases hpc : s.client c with
  | idle => simp [clientStep, hpc] at h
  | addTask task =>
    simp only [clientStep, hpc] at h
    split at h
    · cases h; exact .silent hpc (.refused (Or.inl ‹_›))
    · rename_i hr
      cases task with
      | none => cases h; exact .silent hpc (.refused (Or.inr rfl))
      | some t => cases h; exact .silent hpc (.accepted (by simpa using hr))
  | push t => simp only [clientStep, hpc, Option.some.injEq] at h; subst h; exact .push hpc
  | addTimerTask task how =>
    simp only [clientStep, hpc] at h
    split at h
    · cases h; exact .silent hpc (.refusedTimer (Or.inl ‹_›))
    · rename_i hr
      cases task with
      | none => cases h; exact .silent hpc (.refusedTimer (Or.inr rfl))
      | some t => cases h; exact .silent hpc (.acceptedTimer (by simpa using hr))
  | makeTimer t how => simp only [clientStep, hpc, Option.some.injEq] at h; subst h; exact .makeTimer hpc
  | submit id how =>
    simp only [clientStep, hpc] at h
    split at h
    · cases h
    · split at h <;> cases h
      · exact .silent hpc (.notSubmitted ‹_› ‹_›)
      · exact .silent hpc (.submitted ‹_› (by simpa using ‹¬ _ = true›))
  | getDeadline id how now =>
    simp only [clientStep, hpc] at h
    obtain ⟨task, ht, rfl⟩ := Option.map_eq_some_iff.mp h
    by_cases hd : task.deadline = 0
    · rw [if_neg (by simpa using hd)]; exact .silent hpc (.putOnce ht hd)
    · rw [if_pos hd]; exact .silent hpc (.putTwice ht hd)
  | setDeadline id how now =>
    simp only [clientStep, hpc] at h
    obtain ⟨task, ht, rfl⟩ := Option.map_eq_some_iff.mp h
    refine .setDeadline hpc ht ?_
    cases how with
    | later delay => exact Or.inl rfl
    | every interval now => exact Or.inr ⟨interval, rfl⟩
  | setInterval id interval =>
    simp only [clientStep, hpc] at h
    obtain ⟨task, ht, rfl⟩ := Option.map_eq_some_iff.mp h
    exact .setInterval hpc ht
  | pushTask id =>
    simp only [clientStep, hpc] at h
    split at h
    · cases h
    · rename_i task ht
      obtain ⟨s1, h1, rfl⟩ := Option.map_eq_some_iff.mp h
      obtain ⟨tm, htm, hl, rfl⟩ := withTimerQueue_cases h1
      exact .pushTask hpc ht htm hl
  | compareAndSet k =>
    simp only [clientStep, hpc] at h
    split at h <;> cases h
    · exact .silent hpc (.lost ‹_›)
    · exact .win hpc (by simpa using ‹¬ _ = true›)
  | timerStarted k =>
    simp only [clientStep, hpc, Option.some.injEq] at h
    subst h
    cases htm : s.timer with
    | none => exact .silent hpc (.noTimer htm)
    | some tm => exact .silent hpc (.timerStarted (by simp [htm]))
  | timerCancelAsync k =>
    simp only [clientStep, hpc] at h
    obtain ⟨tm, htm, rfl⟩ := Option.map_eq_some_iff.mp h
    exact .cancelTimer htm (Or.inl ⟨hpc, rfl⟩)
  | timerClear k =>
    simp only [clientStep, hpc] at h
    obtain ⟨tm, htm, hl, rfl⟩ := withTimerQueue_cases h
    exact .clearTimer htm hl (Or.inl ⟨hpc, rfl⟩)
  | pushEndTask k j =>
    simp only [clientStep, hpc] at h
    split at h <;> cases h
    · exact .pushEndTask hpc ‹_›
    · exact .pushedAll hpc (by omega)
  | waitFinished => simp only [clientStep, hpc] at h; exact awaitPool_cases (Or.inl hpc) h
  | blockedFinished =>
    simp only [clientStep, hpc] at h
    split at h
    · cases h
    · exact awaitPool_cases (Or.inr ⟨hpc, ‹_›⟩) h
  | unlockState => simp only [clientStep, hpc, Option.some.injEq] at h; subst h; exact .unlockState hpc
  | cancelAsync j =>
    simp only [clientStep, hpc] at h
    split at h <;> cases h
    · exact .cancelThread ‹_› (Or.inl ⟨hpc, rfl⟩)
    · exact .silent hpc (.cancelledAll (by omega))
  | lockRunningTask j =>
    simp only [clientStep, hpc] at h
    split at h
    · split at h <;> cases h
      exact .lockRunningTask ‹_› hpc ‹_›
    · cases h; exact .silent hpc (.stoppedAll (by omega))
  | cancelRunningTask j =>
    simp only [clientStep, hpc] at h
    split at h
    · rename_i hj
      split at h <;> cases h
      · exact .cancelRunningTask hj hpc ‹_›
      · rename_i hno
        exact .silent hpc (.noTask hj fun t ht => hno t ht)
    · cases h
  | onCallCancel j => simp only [clientStep, hpc, Option.some.injEq] at h; subst h; exact .silent hpc .onCallCancel
  | unlockRunningTask j raised =>
    simp only [clientStep, hpc] at h
    split at h <;> cases h
    exact .unlockRunningTask ‹_› hpc
  | cancelThread j =>
    simp only [clientStep, hpc] at h
    split at h <;> cases h
    exact .cancelThread ‹_› (Or.inr ⟨hpc, rfl⟩)
  | waitThread j =>
    simp only [clientStep, hpc] at h
    split at h <;> cases h
    exact awaitThread_cases ‹_› (Or.inl hpc)
  | blockedThread j =>
    simp only [clientStep, hpc] at h
    split at h
    · split at h <;> cases h
      exact awaitThread_cases ‹_› (Or.inr ⟨hpc, ‹_›⟩)
    · cases h
  | isTimerStarted k =>
    simp only [clientStep, hpc, Option.some.injEq] at h
    subst h
    cases htm : s.timer with
    | none => exact leaveStop_cases hpc (Or.inl rfl) (.noTimerToStop htm)
    | some tm => exact .silent hpc (.stopTimer (by simp [htm]))
  | stopTimerAsync k =>
    simp only [clientStep, hpc] at h
    obtain ⟨tm, htm, rfl⟩ := Option.map_eq_some_iff.mp h
    exact .cancelTimer htm (Or.inr (Or.inl ⟨hpc, rfl⟩))
  | clearTimer k =>
    simp only [clientStep, hpc] at h
    obtain ⟨tm, htm, hl, rfl⟩ := withTimerQueue_cases h
    exact .clearTimer htm hl (Or.inr ⟨hpc, rfl⟩)
  | cancelTimer k =>
    simp only [clientStep, hpc] at h
    obtain ⟨tm, htm, rfl⟩ := Option.map_eq_some_iff.mp h
    exact .cancelTimer htm (Or.inr (Or.inr ⟨hpc, rfl⟩))
  | waitTimer k =>
    simp only [clientStep, hpc] at h
    obtain ⟨tm, htm, rfl⟩ := Option.map_eq_some_iff.mp h
    exact awaitTimer_cases htm (Or.inl hpc)
  | blockedTimer k =>
    simp only [clientStep, hpc] at h
    obtain ⟨tm, htm, h⟩ := Option.bind_eq_some_iff.mp h
    split at h <;> cases h
    exact awaitTimer_cases htm (Or.inr ⟨hpc, ‹_›⟩)
  | cancelTask t async p =>
    by_cases hp : p = .ret ∨ p = .raised
    · have h : some (s.goto c .idle) = some s' := by rcases hp with rfl | rfl <;> simpa [clientStep, hpc] using h
      cases h
      exact .silent hpc (.cancelReturned hp)
    · have h : ((s.task t).cancel async c p i.exit).map (fun r => (s.setTask t r.1).goto c (.cancelTask t async r.2)) =
          some s' := by
        cases p <;> simp_all [clientStep]
      obtain ⟨⟨b, p'⟩, hb, rfl⟩ := Option.map_eq_some_iff.mp h
      exact .cancelTask hpc hb

end Client

/-! ## The timer thread -/

/-- `ThreadPoolTimerTask::DoRun` of a task, given by what it works on, moves on and does nothing else. -/
inductive DoRunMove (s : FixedThreadPool n Cl T) (t : T) : ThreadPoolTimerTask.PC → ThreadPoolTimerTask.PC → Prop
  | cancelled : (s.task t).isRequestCancel = true → DoRunMove s t .isRequestCancel (.run .checkCancellation)
  | notCancelled : (s.task t).isRequestCancel = false → DoRunMove s t .isRequestCancel .addTask
  | hasRun : DoRunMove s t (.run .ret) .cancelAsync
  | refused : s.isRequestStop = true → DoRunMove s t .addTask .cancelAsync
  | accepted : s.isRequestStop = false → DoRunMove s t .addTask .push

/-- A step of the timer thread, by what it does. -/
inductive TimerStep (s : FixedThreadPool n Cl T) : FixedThreadPool n Cl T → Prop
  | own {tm i w} : s.timer = some tm → Timer.Step .isRequestCancel i ⟨tm, s.timerTasks⟩ w →
      TimerStep s (s.setTimerWorld w)
  | move {tm id task d d'} : s.timer = some tm → tm.pc = .doRun id d → s.timerTasks[id]? = some task →
      DoRunMove s task.task d d' → TimerStep s (s.setTimer (tm.goto (.doRun id d')))
  | run {tm id task p e b p'} : s.timer = some tm → tm.pc = .doRun id (.run p) → s.timerTasks[id]? = some task →
      (s.task task.task).run p e = some (b, p') →
      TimerStep s { (s.setTask task.task b).setTimer (tm.goto (.doRun id (.run p'))) with
        returned := WorkerThread.note s.returned task.task p e }
  | caught {tm id} : s.timer = some tm → tm.pc = .doRun id (.run .onCancel) →
      TimerStep s (s.setTimer (tm.goto (.run id .setCancelled)))
  | cancelAsync {tm id task} : s.timer = some tm → tm.pc = .doRun id .cancelAsync → s.timerTasks[id]? = some task →
      TimerStep s { s.setTimer (tm.goto (.doRun id .checkCancellation)) with
        timerTasks := s.timerTasks.set id { task with base := { task.base with isRequestCancel := true } } }
  | leave {tm id task d e b p} : s.timer = some tm → tm.pc = .doRun id d → d = .run .raised ∨ d = .checkCancellation →
      s.timerTasks[id]? = some task → task.base.run .doRun e = some (b, p) →
      TimerStep s { s.setTimer (tm.goto (.run id p)) with timerTasks := s.timerTasks.set id { task with base := b } }
  | push {tm id task b p} : s.timer = some tm → tm.pc = .doRun id .push → s.timerTasks[id]? = some task →
      task.base.run .doRun .ret = some (b, p) →
      TimerStep s { s.setTimer (tm.goto (.run id p)) with
        timerTasks := s.timerTasks.set id { task with base := b }, taskQueue := s.taskQueue.push (.task task.task) }

section Timer

variable {s s' : FixedThreadPool n Cl T} {tm : Timer Cl ThreadPoolTimerTask.PC} {id : Nat} {task : TimerTask Cl T}

omit [DecidableEq T] in
theorem leaveDoRun_cases {e : Exit} {w : Timer.World Cl T ThreadPoolTimerTask.PC} (ht : s.timerTasks[id]? = some task)
    (h : Timer.leaveDoRun id e ⟨tm, s.timerTasks⟩ = some w) : ∃ b p, task.base.run .doRun e = some (b, p) ∧
      w = ⟨tm.goto (.run id p), s.timerTasks.set id { task with base := b }⟩ := by
  simp only [Timer.leaveDoRun, ht, Option.bind_some] at h
  obtain ⟨⟨b, p⟩, hr, rfl⟩ := Option.map_eq_some_iff.mp h
  exact ⟨b, p, hr, rfl⟩

/-- What a step of `DoRun` can do. -/
theorem doRunStep_cases {d : ThreadPoolTimerTask.PC} {e : Exit} (htm : s.timer = some tm) (hpc : tm.pc = .doRun id d)
    (ht : s.timerTasks[id]? = some task) (h : s.doRunStep tm id task e d = some s') : TimerStep s s' := by
  cases d with
  | isRequestCancel =>
    simp only [doRunStep, Option.some.injEq] at h
    subst h
    cases hf : (s.task task.task).isRequestCancel with
    | true => exact .move htm hpc ht (.cancelled hf)
    | false => exact .move htm hpc ht (.notCancelled hf)
  | run p =>
    by_cases hret : p = .ret
    · subst hret
      simp only [doRunStep, Option.some.injEq] at h
      subst h
      exact .move htm hpc ht .hasRun
    · by_cases hraised : p = .raised
      · subst hraised
        obtain ⟨w, hw, rfl⟩ := Option.map_eq_some_iff.mp (by simpa only [doRunStep] using h)
        obtain ⟨b, p, hr, rfl⟩ := leaveDoRun_cases ht hw
        exact .leave htm hpc (Or.inl rfl) ht hr
      · have h : (if p = .onCancel ∧ e = .cancel then some (s.setTimer (tm.goto (.run id .setCancelled)))
            else ((s.task task.task).run p e).map fun r =>
              { (s.setTask task.task r.1).setTimer (tm.goto (.doRun id (.run r.2))) with
                returned := WorkerThread.note s.returned task.task p e }) = some s' := by
          cases p <;> simp_all [doRunStep]
        by_cases hcaught : p = .onCancel ∧ e = .cancel
        · rw [if_pos hcaught, Option.some.injEq] at h
          subst h
          exact .caught htm (hcaught.1 ▸ hpc)
        · rw [if_neg hcaught] at h
          obtain ⟨⟨b, p'⟩, hr, rfl⟩ := Option.map_eq_some_iff.mp h
          exact .run htm hpc ht hr
  | cancelAsync => simp only [doRunStep, Option.some.injEq] at h; subst h; exact .cancelAsync htm hpc ht
  | checkCancellation =>
    obtain ⟨w, hw, rfl⟩ := Option.map_eq_some_iff.mp (by simpa only [doRunStep] using h)
    obtain ⟨b, p, hr, rfl⟩ := leaveDoRun_cases ht hw
    exact .leave htm hpc (Or.inr rfl) ht hr
  | addTask =>
    simp only [doRunStep, Option.some.injEq] at h
    subst h
    cases hf : s.isRequestStop with
    | true => exact .move htm hpc ht (.refused hf)
    | false => exact .move htm hpc ht (.accepted hf)
  | push =>
    obtain ⟨w, hw, rfl⟩ := Option.map_eq_some_iff.mp (by simpa only [doRunStep] using h)
    obtain ⟨b, p, hr, rfl⟩ := leaveDoRun_cases ht hw
    exact .push htm hpc ht hr

/-- **What a step of the timer thread can do.** -/
theorem timerStep_cases {i : Input} (h : s.timerStep i = some s') : TimerStep s s' := by
  unfold timerStep at h
  split at h
  · cases h
  · rename_i tm htm
    split at h
    · rename_i id d hpc
      split at h
      · cases h
      · exact doRunStep_cases htm hpc ‹_› h
    · obtain ⟨w, hw, rfl⟩ := Option.map_eq_some_iff.mp h
      exact .own htm (Timer.step_cases hw)

end Timer

/-! ## The workers -/

/-- A step of the worker `i`, by what it does; `e` is how user code is left. -/
inductive WorkerStep (isEndTask : T → Bool) (i : Fin n) (e : Exit) (s : FixedThreadPool n Cl T) :
    FixedThreadPool n Cl T → Prop
  | thread {w} : WorkerThread.Step isEndTask i e (s.world i) w → WorkerStep isEndTask i e s (s.setWorld i w)
  | count {why} : (s.threads i).pc = .finishAction why →
      WorkerStep isEndTask i e s { s.setThread i ((s.threads i).goto (.notifyStop why (s.stopped.length + 1))) with
        stopped := s.stopped ++ [i] }
  | notLast {why c} : (s.threads i).pc = .notifyStop why c → c < n →
      WorkerStep isEndTask i e s (s.setThread i ((s.threads i).goto (.notifyFinished why)))
  | last {why c} : (s.threads i).pc = .notifyStop why c → n ≤ c → s.stateGuard = none →
      WorkerStep isEndTask i e s { s.setThread i ((s.threads i).goto (.notifyFinished why)) with
        state := .finished, stateWaiters := if s.isRequestStop then ∅ else s.stateWaiters }

/-- **What a step of a worker can do.** -/
theorem workerStep_cases {isEndTask : T → Bool} {s s' : FixedThreadPool n Cl T} {i : Fin n} {e : Exit}
    (h : s.workerStep isEndTask i e = some s') : WorkerStep isEndTask i e s s' := by
  unfold workerStep at h
  split at h
  · cases h; exact .count ‹_›
  · split at h
    · split at h <;> cases h
      exact .last ‹_› ‹_› ‹_›
    · cases h
      exact .notLast ‹_› (by omega)
  · obtain ⟨w, hw, rfl⟩ := Option.map_eq_some_iff.mp h
    exact .thread (WorkerThread.step_cases hw)

/-! ## The pool -/

variable [DecidableEq Cl]

/-- A step of the pool, by who makes it. -/
inductive PoolStep (isEndTask : T → Bool) (s : FixedThreadPool n Cl T) :
    Action n Cl T → FixedThreadPool n Cl T → Prop
  | start {k} (h : k < n) : s.ctor = .starting k →
      PoolStep isEndTask s .construct
      { s.setThread ⟨k, h⟩ ⟨.new, none, .free, .setRunning⟩ with ctor := .starting (k + 1) }
  | started {k} : s.ctor = .starting k → n ≤ k → PoolStep isEndTask s .construct { s with ctor := .setRunning }
  | constructed : s.ctor = .setRunning → PoolStep isEndTask s .construct { s with ctor := .done, state := .running }
  | call {c m} : s.ctor = .done → s.client c = .idle → PoolStep isEndTask s (.call c m) (s.goto c m.start)
  | client {c i s'} : s.client c ≠ .idle → ClientStep c s s' → PoolStep isEndTask s (.client c i) s'
  | worker {i e s'} : WorkerStep isEndTask i e s s' → PoolStep isEndTask s (.worker i e) s'
  | timer {i s'} : s.timer ≠ none → TimerStep s s' → PoolStep isEndTask s (.timer i) s'
  | wake (w : Wake n Cl T) : PoolStep isEndTask s (.wake w) (s.wakeStep w)

/-- **What a step of the pool can do.** -/
theorem step_cases {isEndTask : T → Bool} {s s' : FixedThreadPool n Cl T} {a : Action n Cl T}
    (h : (system n Cl isEndTask).step s a = some s') : PoolStep isEndTask s a s' := by
  cases a with
  | construct =>
    simp only [system, step, constructStep] at h
    split at h
    · split at h <;> cases h
      · exact .start ‹_› ‹_›
      · exact .started ‹_› (by omega)
    · cases h; exact .constructed ‹_›
    · cases h
  | call c m =>
    simp only [system, step] at h
    split at h <;> cases h
    exact .call ‹_› ‹_›
  | client c i =>
    refine .client (fun hidle => ?_) (clientStep_cases h)
    simp [system, step, clientStep, hidle] at h
  | worker i e => exact .worker (workerStep_cases h)
  | timer i =>
    refine .timer (fun hnone => ?_) (timerStep_cases h)
    simp [system, step, timerStep, hnone] at h
  | wake w => cases h; exact .wake w

end Tpool.FixedThreadPool
