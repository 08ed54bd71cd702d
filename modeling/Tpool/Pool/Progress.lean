import Mathlib.Data.Finset.Max
import Tpool.Pool.Stop
import Tpool.Pool.Waiting

/-!
# The pool never deadlocks

- `Timer.Live.moves`, `workerStep_moves`, `ClientPC.Stuck`: where a thread cannot go on.
- `AtRest`: nobody has anything to do. The workers sleep on an empty queue or have ended, the timer thread sleeps on an
  empty queue or has ended, and every client has returned, or is in `Cancel` of a task that has not come to its end.
- `Unheld`, `Unhindered`: the threads may go on as their code says. The user's code is left at some point and does not
  wait for the pool.
- `never_stuck`: in every reachable state some thread can make a step, or the pool is at rest. No stop and no submission
  is ever stuck, whatever the others do, and a cancel only where its task never comes to its end.
-/

namespace Tpool

open Concurrency

/-! ## The timer thread -/

namespace Timer

variable {Cl T D : Type*} {start : D} {w : World Cl T D}

/-- A queue that has a task has one on top. -/
theorem Live.exists_getMin (hi : Live w) (hq : w.timer.queue ≠ []) : ∃ pick r, getMin w pick = some r := by
  let deadline (id : Nat) : Nat := ((w.timerTasks[id]?).map fun task => task.deadline.toNat).getD 0
  obtain ⟨id, hid, hmin⟩ := w.timer.queue.toFinset.exists_min_image deadline (List.toFinset_nonempty_iff _ |>.mpr hq)
  obtain ⟨task, ht⟩ := hi.queue id (List.mem_toFinset.mp hid)
  obtain ⟨pick, hpick⟩ := List.mem_iff_getElem?.mp (List.mem_toFinset.mp hid)
  have hall : isMin w task = true := by
    refine List.all_eq_true.mpr fun j hj => ?_
    obtain ⟨other, ho⟩ := hi.queue j hj
    have := hmin j (List.mem_toFinset.mpr hj)
    simp only [deadline, ht, ho, Option.map_some, Option.getD_some] at this
    simpa [ho] using UInt64.le_iff_toNat_le.mpr this
  exact ⟨pick, (id, task), by simp [getMin, hpick, ht, hall]⟩

/-- Where the timer thread goes on by itself. -/
def PC.goesOn (waiting : Bool) : PC D → Bool
  | .wait => !waiting
  | .doRun _ _ | .terminated => false
  | _ => true

/-- It does. -/
theorem Live.enabled (hi : Live w) (start : D) (hpc : w.timer.pc.goesOn w.timer.waiting = true) :
    ∃ i w', i.exit = .ret ∧ Timer.step start i w = some w' := by
  have htask := hi.task
  cases h : w.timer.pc with
  | setRunning | checkCancellation | lock | isEmpty | check | timedWait | unlock | leave | notifyFinished =>
    exact ⟨⟨.ret, 0, 0⟩, _, rfl, by simp only [Timer.step, h]; rfl⟩
  | checkEmpty =>
    refine ⟨⟨.ret, 0, 0⟩, ?_⟩
    simp only [Timer.step, h]
    split <;> exact ⟨_, trivial, rfl⟩
  | wait =>
    rw [h] at hpc
    refine ⟨⟨.ret, 0, 0⟩, ?_⟩
    simp only [Timer.step, h]
    rw [if_neg (by simpa [PC.goesOn] using hpc)]
    exact ⟨_, trivial, rfl⟩
  | getMin =>
    obtain ⟨pick, r, hr⟩ := hi.exists_getMin (hi.nonempty (Or.inr h))
    exact ⟨⟨.ret, 0, pick⟩, _, rfl, by simp only [Timer.step, h, hr]; rfl⟩
  | isCancelled id now deadline | isRequestCancel id now deadline | fire id now deadline =>
    rw [h] at htask
    obtain ⟨task, ht⟩ := htask id rfl
    exact ⟨⟨.ret, 0, 0⟩, _, rfl, by simp only [Timer.step, h, ht]; rfl⟩
  | run id p =>
    rw [h] at htask
    obtain ⟨task, ht⟩ := htask id rfl
    refine ⟨⟨.ret, 0, 0⟩, ?_⟩
    cases p <;> simp only [Timer.step, h, ht, Option.bind_some, TaskBase.run] <;> exact ⟨_, trivial, rfl⟩
  | doRun | terminated => rw [h] at hpc; cases hpc

end Timer

namespace FixedThreadPool

variable {n : Nat} {Cl T : Type*} [DecidableEq Cl] [DecidableEq T] {isEndTask : T → Bool}
  {s s' : FixedThreadPool n Cl T} {c : Cl} {i : Fin n}

/-- What a thread of the program does, but for a new call; nobody wakes by itself. -/
def Action.isProgress : Action n Cl T → Bool
  | .call _ _ | .wake _ => false
  | _ => true

/-- The timer thread and the clients may go on as their code says, when the user's code returns. -/
structure Unheld (ok : FixedThreadPool n Cl T → Action n Cl T → Prop) : Prop where
  timer : ∀ s i, i.exit = .ret → ok s (.timer i)
  client : ∀ s c i, i.exit = .ret → ok s (.client c i)

/-- And so may the workers. -/
structure Unhindered (ok : FixedThreadPool n Cl T → Action n Cl T → Prop) : Prop extends Unheld ok where
  worker : ∀ s i, ok s (.worker i .ret)

omit [DecidableEq Cl] [DecidableEq T] in
theorem unhindered_anything : Unhindered (Anything : FixedThreadPool n Cl T → Action n Cl T → Prop) where
  timer _ _ _ := trivial
  client _ _ _ _ := trivial
  worker _ _ := trivial

/-- Some thread can make a step that the user's code allows. -/
def CanMove (isEndTask : T → Bool) (ok : FixedThreadPool n Cl T → Action n Cl T → Prop)
    (s : FixedThreadPool n Cl T) : Prop :=
  ∃ a s', a.isProgress = true ∧ ok s a ∧ (system n Cl isEndTask).step s a = some s'

/-! ## Where each thread goes on -/

/-- The timer thread sleeps with no time limit. -/
def TimerSleeps (s : FixedThreadPool n Cl T) : Prop := ∀ tm, s.timer = some tm →
  tm.pc = .terminated ∨ tm.pc = .wait ∧ tm.waiting = true

omit [DecidableEq Cl] in
theorem doRunStep_enabled (tm : Timer Cl ThreadPoolTimerTask.PC) {id : Nat} {task : TimerTask Cl T}
    (ht : s.timerTasks[id]? = some task) (d : ThreadPoolTimerTask.PC) :
    ∃ s', s.doRunStep tm id task .ret d = some s' := by
  cases d with
  | isRequestCancel | cancelAsync | addTask => exact ⟨_, rfl⟩
  | run p =>
    cases p with
    | ret => exact ⟨_, rfl⟩
    | raised => exact ⟨_, by simp only [doRunStep, Timer.leaveDoRun, ht]; rfl⟩
    | _ => exact ⟨_, rfl⟩
  | checkCancellation =>
    cases hf : task.base.isRequestCancel <;>
      simp only [doRunStep, Timer.leaveDoRun, ht, hf, Option.bind_some, TaskBase.run] <;> exact ⟨_, rfl⟩
  | push => exact ⟨_, by simp only [doRunStep, Timer.leaveDoRun, ht]; rfl⟩

omit [DecidableEq Cl] in
/-- The timer thread is stuck only where it sleeps with no time limit. -/
theorem timerStep_enabled (hi : Waits s) : TimerSleeps s ∨ ∃ i s', i.exit = .ret ∧ s.timerStep i = some s' := by
  cases htm : s.timer with
  | none => exact Or.inl fun tm h => by rw [htm] at h; cases h
  | some tm =>
    have hlive := hi.timer tm htm
    by_cases hon : tm.pc.goesOn tm.waiting = true
    · obtain ⟨i, w, hexit, hw⟩ := hlive.enabled .isRequestCancel hon
      refine Or.inr ⟨i, s.setTimerWorld w, hexit, ?_⟩
      have hno : ∀ id d, tm.pc ≠ .doRun id d := by
        rintro id d h
        rw [h] at hon
        cases hon
      unfold timerStep
      rw [htm]
      cases hpc : tm.pc with
      | doRun id d => exact absurd hpc (hno id d)
      | _ => simp only [hw, hpc, Option.map_some]
    · cases hpc : tm.pc with
      | doRun id d =>
        have htask := hlive.task
        rw [show Timer.World.timer _ = tm from rfl, hpc] at htask
        obtain ⟨task, ht⟩ := htask id rfl
        obtain ⟨s', hs⟩ := doRunStep_enabled tm ht d
        refine Or.inr ⟨⟨.ret, 0, 0⟩, s', rfl, ?_⟩
        simp only [timerStep, htm, hpc, ht]
        exact hs
      | terminated => exact Or.inl fun tm' h => by rw [htm] at h; cases h; exact Or.inl hpc
      | wait =>
        rw [hpc] at hon
        exact Or.inl fun tm' h => by rw [htm] at h; cases h; exact Or.inr ⟨hpc, by simpa [Timer.PC.goesOn] using hon⟩
      | _ => rw [hpc] at hon; exact absurd rfl hon

/-- Where a worker cannot go on. -/
def WorkerStuck (s : FixedThreadPool n Cl T) (i : Fin n) : Prop := match (s.threads i).pc with
  | .absent => True
  | .lock => (s.threads i).runningTaskGuard ≠ .free
  | .blocked => i ∈ s.taskQueue.waiting
  | .notifyStop _ c => n ≤ c ∧ s.stateGuard ≠ none
  | .terminated _ => True
  | _ => False

omit [DecidableEq Cl] in
theorem workerStep_enabled (isEndTask : T → Bool) (h : ¬ s.WorkerStuck i) :
    ∃ s', s.workerStep isEndTask i .ret = some s' := by
  unfold WorkerStuck at h
  cases hpc : (s.threads i).pc with
  | absent | terminated => rw [hpc] at h; exact absurd trivial h
  | setRunning | checkCancellation | check | pop | unlock | recheck | notifyFinished =>
    exact ⟨_, by simp only [workerStep, hpc, WorkerThread.step, world]; rfl⟩
  | lock =>
    rw [hpc] at h
    have hfree : (s.threads i).runningTaskGuard = .free := by simpa using h
    exact ⟨_, by simp only [workerStep, hpc, WorkerThread.step, world, hfree]; rfl⟩
  | blocked =>
    rw [hpc] at h
    have hnot : i ∉ (s.world i).queue.waiting := h
    have hstep : WorkerThread.step isEndTask i .ret (s.world i) =
        some (WorkerThread.getTaskFromTaskQueue i (s.world i)) := by
      simp only [WorkerThread.step, show (s.world i).worker.pc = .blocked from hpc]
      exact if_neg hnot
    exact ⟨_, by simp only [workerStep, hpc, hstep]; rfl⟩
  | dispatch k =>
    simp only [workerStep, hpc, WorkerThread.step, world]
    split
    · exact ⟨_, rfl⟩
    · exact ⟨_, rfl⟩
    · split <;> exact ⟨_, rfl⟩
  | run k t p =>
    cases p <;> exact ⟨_, by simp only [workerStep, hpc, WorkerThread.step, world, TaskBase.run]; rfl⟩
  | finishAction => exact ⟨_, by simp only [workerStep, hpc]; rfl⟩
  | notifyStop why c =>
    rw [hpc] at h
    simp only [workerStep, hpc]
    split
    · rename_i hc
      have hg : s.stateGuard = none := by simpa [hc] using h
      rw [if_pos hg]
      exact ⟨_, rfl⟩
    · exact ⟨_, rfl⟩

/-- Where a client cannot go on. -/
def ClientStuck (s : FixedThreadPool n Cl T) (c : Cl) : Prop := match s.client c with
  | .idle => True
  | .pushTask _ | .timerClear _ | .clearTimer _ => ∃ tm, s.timer = some tm ∧ tm.locked = true
  | .waitFinished => s.stateGuard ≠ none
  | .blockedFinished => c ∈ s.stateWaiters ∨ s.stateGuard ≠ none
  | .lockRunningTask j => ∃ h : j < n, (s.threads ⟨j, h⟩).runningTaskGuard ≠ .free
  | .blockedThread j => ∃ h : j < n, c ∈ (s.threads ⟨j, h⟩).thread.waiters
  | .blockedTimer _ => ∃ tm, s.timer = some tm ∧ c ∈ tm.thread.waiters
  | .cancelTask t _ .blocked => c ∈ (s.task t).waiters
  | _ => False

omit [DecidableEq T] in
theorem withTimerQueue_enabled (f : List Nat → List Nat) (c : Cl) (pc : ClientPC T) (ht : s.timer.isSome = true)
    (h : ¬ ∃ tm, s.timer = some tm ∧ tm.locked = true) : ∃ s', s.withTimerQueue f c pc = some s' := by
  obtain ⟨tm, htm⟩ := Option.isSome_iff_exists.mp ht
  have hl : tm.locked = false := by simpa [htm] using h
  exact ⟨_, by simp only [withTimerQueue, htm, Timer.setQueue, hl]; rfl⟩

omit [DecidableEq T] in
theorem awaitPool_enabled (h : s.stateGuard = none) : ∃ s', s.awaitPool c = some s' := by
  unfold awaitPool
  rw [if_pos h]
  split <;> exact ⟨_, rfl⟩

theorem clientStep_enabled (hi : s.PlacedAt (s.client c)) (h : ¬ s.ClientStuck c) :
    ∃ s', s.clientStep c ⟨.ret, 0, 0⟩ = some s' := by
  unfold ClientStuck at h
  cases hpc : s.client c with
  | idle => rw [hpc] at h; exact absurd trivial h
  | push | makeTimer | timerStarted | unlockState | onCallCancel | isTimerStarted =>
    exact ⟨_, by simp only [clientStep, hpc]; rfl⟩
  | addTask task | addTimerTask task how =>
    simp only [clientStep, hpc]
    split
    · exact ⟨_, rfl⟩
    · split <;> exact ⟨_, rfl⟩
  | compareAndSet k | pushEndTask k j => simp only [clientStep, hpc]; split <;> exact ⟨_, rfl⟩
  | cancelAsync j => simp only [clientStep, hpc]; split <;> exact ⟨_, rfl⟩
  | submit id how =>
    rw [hpc] at hi
    obtain ⟨tm, htm⟩ := Option.isSome_iff_exists.mp hi.1
    simp only [clientStep, hpc, htm]
    split <;> exact ⟨_, rfl⟩
  | getDeadline id how now | setDeadline id how now | setInterval id interval =>
    rw [hpc] at hi
    obtain ⟨task, ht⟩ := hi.2
    exact ⟨_, by simp only [clientStep, hpc, ht]; rfl⟩
  | pushTask id =>
    rw [hpc] at hi h
    obtain ⟨task, ht⟩ := hi.2
    obtain ⟨s', hs'⟩ := withTimerQueue_enabled (· ++ [id]) c .idle hi.1 h
    exact ⟨_, by simp only [clientStep, hpc, ht, hs']; rfl⟩
  | timerCancelAsync k | stopTimerAsync k | cancelTimer k | waitTimer k =>
    rw [hpc] at hi
    obtain ⟨tm, htm⟩ := Option.isSome_iff_exists.mp hi
    exact ⟨_, by simp only [clientStep, hpc, htm]; rfl⟩
  | timerClear k | clearTimer k =>
    rw [hpc] at hi h
    simp only [clientStep, hpc]
    exact withTimerQueue_enabled _ c _ hi h
  | waitFinished =>
    rw [hpc] at h
    simp only [clientStep, hpc]
    exact awaitPool_enabled (by simpa using h)
  | blockedFinished =>
    rw [hpc] at h
    obtain ⟨h1, h2⟩ := not_or.mp h
    simp only [clientStep, hpc]
    rw [if_neg h1]
    exact awaitPool_enabled (by simpa using h2)
  | lockRunningTask j =>
    rw [hpc] at h
    simp only [clientStep, hpc]
    split
    · rename_i hj
      have hfree : (s.threads ⟨j, hj⟩).runningTaskGuard = .free := by simpa [hj] using h
      simp only [hfree]
      exact ⟨_, rfl⟩
    · exact ⟨_, rfl⟩
  | cancelRunningTask j =>
    rw [hpc] at hi
    have hj : j < n := hi
    simp only [clientStep, hpc]
    rw [dif_pos hj]
    split <;> exact ⟨_, rfl⟩
  | unlockRunningTask j raised =>
    rw [hpc] at hi
    have hj : j < n := hi
    simp only [clientStep, hpc]
    rw [dif_pos hj]
    exact ⟨_, rfl⟩
  | cancelThread j | waitThread j =>
    rw [hpc] at hi
    have hj : j < n := hi
    simp only [clientStep, hpc]
    rw [dif_pos hj]
    exact ⟨_, rfl⟩
  | blockedThread j =>
    rw [hpc] at hi h
    have hj : j < n := hi
    have hnot : c ∉ (s.threads ⟨j, hj⟩).thread.waiters := fun hc => h ⟨hj, hc⟩
    simp only [clientStep, hpc]
    rw [dif_pos hj, if_neg hnot]
    exact ⟨_, rfl⟩
  | blockedTimer k =>
    rw [hpc] at hi h
    obtain ⟨tm, htm⟩ := Option.isSome_iff_exists.mp hi
    have hnot : c ∉ tm.thread.waiters := fun hc => h ⟨tm, htm, hc⟩
    simp only [clientStep, hpc, htm, Option.bind_some]
    rw [if_neg hnot]
    exact ⟨_, rfl⟩
  | cancelTask t async p =>
    rw [hpc] at h
    cases p with
    | blocked =>
      have hnot : c ∉ (s.task t).waiters := h
      simp only [clientStep, hpc, TaskBase.cancel]
      rw [if_neg hnot]
      exact ⟨_, rfl⟩
    | _ => exact ⟨_, by simp only [clientStep, hpc, TaskBase.cancel]; rfl⟩

/-! ## Nobody can make a step -/

/-- Nobody has anything to do: every worker sleeps in `Pop` or has ended, and when a stop was requested all have; the
timer thread sleeps or has ended; the queues that are waited on are empty; and every client has returned, but for those
that wait in `Cancel` of a task. -/
structure AtRest (s : FixedThreadPool n Cl T) : Prop where
  constructed : s.ctor = .done
  worker : ∀ i, (s.threads i).pc.isTerminated = true ∨ s.Blocked i
  taskQueue : ∀ i, s.Blocked i → s.taskQueue.elems = []
  timer : ∀ tm, s.timer = some tm → tm.pc = .terminated ∨ tm.pc = .wait ∧ tm.waiting = true ∧ tm.queue = []
  stopped : s.isRequestStop = true → s.state = .finished ∧ ∀ i, (s.threads i).pc.isTerminated = true
  client : ∀ c, s.client c = .idle ∨ ∃ t, s.client c = .cancelTask t false .blocked ∧ c ∈ (s.task t).waiters

section Stuck

/-- No thread can make a step. -/
structure Stuck (s : FixedThreadPool n Cl T) : Prop where
  constructed : s.ctor = .done
  worker : ∀ i, s.WorkerStuck i
  timer : s.TimerSleeps
  client : ∀ c, s.ClientStuck c

variable {ok : FixedThreadPool n Cl T → Action n Cl T → Prop}

/-- A thread that is not stuck goes on when the user's code it may be in returns. -/
theorem stuck_of_not_canMove (hok : Unhindered ok) (hi : Waits s) (hctor : s.ctor = .done)
    (h : ¬ CanMove isEndTask ok s) : Stuck s := by
  have none : ∀ {a s'}, a.isProgress = true → ok s a → (system n Cl isEndTask).step s a ≠ some s' := fun ha hoka hs =>
    h ⟨_, _, ha, hoka, hs⟩
  refine ⟨hctor, fun i => ?_, ?_, fun c => ?_⟩
  · by_contra hno
    obtain ⟨s', hs⟩ := workerStep_enabled isEndTask hno
    exact none (a := .worker i .ret) rfl (hok.worker s i) hs
  · rcases timerStep_enabled hi with hsleeps | ⟨i, s', hexit, hs⟩
    · exact hsleeps
    · exact absurd hs (none (a := .timer i) rfl (hok.timer s i hexit))
  · by_contra hno
    obtain ⟨s', hs⟩ := clientStep_enabled (hi.placed c) hno
    exact none (a := .client c ⟨.ret, 0, 0⟩) rfl (hok.client s c _ rfl) hs

omit [DecidableEq Cl] [DecidableEq T] in
/-- The timer thread does not have the lock of its queue. -/
theorem Stuck.unlocked (hs : Stuck s) (hi : Waits s) : ¬ ∃ tm, s.timer = some tm ∧ tm.locked = true := by
  rintro ⟨tm, htm, hl⟩
  have hlocked := (hi.timer tm htm).locked
  rcases hs.timer tm htm with hpc | ⟨hpc, -⟩ <;> simp [hl, hpc, Timer.PC.locked] at hlocked

omit [DecidableEq Cl] [DecidableEq T] in
/-- So nobody is about to clear its queue, -/
theorem Stuck.clears (hs : Stuck s) (hi : Waits s) (c : Cl) : (s.client c).clears = false := by
  have hstuck := hs.client c
  unfold ClientStuck at hstuck
  cases hpc : s.client c with
  | timerClear k | clearTimer k => rw [hpc] at hstuck; exact absurd hstuck (hs.unlocked hi)
  | _ => rfl

omit [DecidableEq Cl] [DecidableEq T] in
/-- and nobody waits for the end of the timer thread. -/
theorem Stuck.not_blockedTimer (hs : Stuck s) (hi : Waits s) (c : Cl) (k : Stopper) : s.client c ≠ .blockedTimer k := by
  intro hpc
  have hstuck := hs.client c
  unfold ClientStuck at hstuck
  rw [hpc] at hstuck
  obtain ⟨tm, htm, hc⟩ := hstuck
  have hflag := hi.asks tm htm c (by rw [hpc]; rfl)
  rcases hs.timer tm htm with hover | ⟨hwait, hasleep⟩
  · rw [show tm.thread.waiters = ∅ from (hi.timer tm htm).heeded.notified hover] at hc
    exact absurd hc (Finset.notMem_empty c)
  · obtain ⟨d, hd⟩ := hi.woken tm htm hwait hasleep hflag
    rw [hs.clears hi d] at hd
    cases hd

omit [DecidableEq Cl] [DecidableEq T] in
/-- The guard of the state is free, since who owns it could go on. -/
theorem Stuck.stateFree (hs : Stuck s) (hi : Waits s) (hh : Held s) : s.stateGuard = none := by
  by_contra hne
  obtain ⟨c, hc⟩ := Option.ne_none_iff_exists'.mp hne
  have hholds := hh.state c hc
  have hclears := hs.clears hi c
  have hstuck := hs.client c
  unfold ClientStuck at hstuck
  cases hpc : s.client c with
  | isTimerStarted | stopTimerAsync | cancelTimer | waitTimer | unlockState => rw [hpc] at hstuck; exact hstuck
  | clearTimer k => rw [hpc] at hclears; cases hclears
  | blockedTimer k => exact hs.not_blockedTimer hi c k hpc
  | _ => rw [hpc] at hholds; cases hholds

omit [DecidableEq Cl] [DecidableEq T] in
/-- No client owns the guard of a worker. -/
theorem Stuck.notOwned (hs : Stuck s) (hh : Held s) (i : Fin n) (c : Cl) :
    (s.threads i).runningTaskGuard ≠ .client c := by
  intro hown
  have hguards := hh.client c i hown
  have hstuck := hs.client c
  unfold ClientStuck at hstuck
  cases hpc : s.client c with
  | cancelRunningTask | onCallCancel | unlockRunningTask => rw [hpc] at hstuck; exact hstuck
  | _ => rw [hpc] at hguards; cases hguards

omit [DecidableEq Cl] [DecidableEq T] in
/-- So a worker owns its own, or nobody does. -/
theorem Stuck.free (hs : Stuck s) (hh : Held s) (hpc : (s.threads i).pc.guards = false) :
    (s.threads i).runningTaskGuard = .free := by
  cases hg : (s.threads i).runningTaskGuard with
  | free => rfl
  | worker =>
    rw [hh.worker i hg] at hpc
    cases hpc
  | client c => exact absurd hg (hs.notOwned hh i c)

omit [DecidableEq Cl] [DecidableEq T] in
/-- Every worker sleeps in `Pop`, or has ended. -/
theorem Stuck.worker_rests (hs : Stuck s) (hi : Waits s) (hh : Held s) (hb : Built s) (i : Fin n) :
    (s.threads i).pc.isTerminated = true ∨ s.Blocked i := by
  have hstuck := hs.worker i
  unfold WorkerStuck at hstuck
  cases hpc : (s.threads i).pc with
  | absent =>
    obtain ⟨k, -, hk⟩ := (hb i).mp hpc
    rw [hs.constructed] at hk
    cases hk
  | lock =>
    rw [hpc] at hstuck
    exact absurd (hs.free hh (by rw [hpc]; rfl)) hstuck
  | blocked =>
    rw [hpc] at hstuck
    exact Or.inr ⟨hpc, hstuck⟩
  | notifyStop why c =>
    rw [hpc] at hstuck
    exact absurd (hs.stateFree hi hh) hstuck.2
  | terminated => exact Or.inl rfl
  | _ => rw [hpc] at hstuck; exact hstuck.elim

/-- When a stop was requested its winner has pushed the `EndTask`s, so that no worker sleeps. -/
theorem Stuck.ended (hs : Stuck s) (h : (system n Cl isEndTask).Reachable ok s) (hr : s.isRequestStop = true)
    (i : Fin n) : (s.threads i).pc.isTerminated = true := by
  have hi := Reachable.waits h
  refine (hs.worker_rests hi (Reachable.held h) (Reachable.built h) i).resolve_right (Reachable.not_blocked h ?_ i)
  cases Reachable.winning h with
  | nobody hno => rw [hr] at hno; cases hno
  | pushed _ _ hp => exact hp
  | pushing c j _ _ _ _ hpush =>
    have hstuck := hs.client c
    unfold ClientStuck at hstuck
    have hclears := hs.clears hi c
    cases hpc : s.client c with
    | timerStarted | timerCancelAsync | pushEndTask => rw [hpc] at hstuck; exact hstuck.elim
    | timerClear k => rw [hpc] at hclears; cases hclears
    | _ => rw [hpc] at hpush; cases hpush

end Stuck

/-- A pool at rest stays so. -/
theorem AtRest.not_canMove (hr : AtRest s) : ¬ CanMove isEndTask ok s := by
  rintro ⟨a, s', ha, -, hs⟩
  cases a with
  | construct => simp [system, step, constructStep, hr.constructed] at hs
  | call | wake => cases ha
  | client c i =>
    rcases hr.client c with hpc | ⟨t, hpc, hc⟩
    · simp [system, step, clientStep, hpc] at hs
    · simp [system, step, clientStep, hpc, TaskBase.cancel, hc] at hs
  | worker i e =>
    rcases hr.worker i with hterm | ⟨hpc, hwait⟩
    · cases hpc : (s.threads i).pc with
      | terminated why => simp [system, step, workerStep, hpc, WorkerThread.step, world] at hs
      | _ => rw [hpc] at hterm; cases hterm
    · simp [system, step, workerStep, hpc, WorkerThread.step, world, hwait] at hs
  | timer i =>
    cases htm : s.timer with
    | none => simp [system, step, timerStep, htm] at hs
    | some tm =>
      rcases hr.timer tm htm with hpc | ⟨hpc, hw, -⟩
      · simp [system, step, timerStep, htm, hpc, Timer.step] at hs
      · simp [system, step, timerStep, htm, hpc, hw, Timer.step] at hs

omit [DecidableEq Cl] [DecidableEq T] in
/-- A stopped pool without a timer is at rest when its workers have ended and nobody is in a call. -/
theorem AtRest.of_ended (hctor : s.ctor = .done) (htm : s.timer = none) (hstate : s.state = .finished)
    (hworker : ∀ i, (s.threads i).pc.isTerminated = true) (hclient : ∀ c, s.client c = .idle) : AtRest s := by
  refine ⟨hctor, fun i => Or.inl (hworker i), fun i hb => ?_, by simp [htm], fun _ => ⟨hstate, hworker⟩, fun c =>
    Or.inl (hclient c)⟩
  have := hworker i
  rw [hb.1] at this
  cases this

/-- Outside of every call. -/
def ClientPC.isIdle : ClientPC T → Bool
  | .idle => true
  | _ => false

omit [DecidableEq Cl] [DecidableEq T] in
theorem ClientPC.isIdle_iff {pc : ClientPC T} : pc.isIdle = true ↔ pc = .idle := by
  cases pc <;> simp [isIdle]

end FixedThreadPool

end Tpool
