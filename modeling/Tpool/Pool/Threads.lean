import Tpool.Pool.Steps
import Tpool.Thread.SharedWorker
import Tpool.Thread.TimerQueue

/-!
# The threads of a pool and the threads alone

The code of a worker and that of the timer thread stand twice: in a pool (`WorkerThread.step`, `Timer.step`) and between
any clients (`SharedWorker.workerStep`, `SharedTimer.timerStep`).

- `SharedWorker.Shows`: the worker alone is where the worker of a pool is. `workerStep_rel`: from there both make the
  same step, or none. `FixedThreadPool.workerStep_shows`: so each step of a worker of a pool is one of the worker alone,
  or one of those of its finish action.
- `SharedTimer.Shows`: the same for the timer, whose model in a pool is coarser. `timerStep_shows`: each step of the
  timer alone is a step of the coarse one, or none. `pushTask_shows`, `clear_shows`: and so are the sections of the
  other threads.
-/

namespace Tpool

open Concurrency Structures

/-! ## The worker -/

namespace SharedWorker

variable {Cl T W : Type*}

/-- Where a worker of a pool is in the code of the worker alone, which leaves out the positions of the items and takes
the pool's finish action as one step. -/
def PC.of : WorkerThread.PC T → Option (PC (Item T))
  | .absent => none
  | .setRunning => some .setRunning
  | .checkCancellation => some .checkCancellation
  | .check => some .check
  | .lock => some .lock
  | .pop => some .pop
  | .blocked => some .blocked
  | .unlock _ => some .unlock
  | .recheck _ => some .recheck
  | .dispatch _ => some .dispatch
  | .run _ t p => some (.run (.task t) p)
  | .finishAction _ | .notifyStop _ _ => some .finishAction
  | .notifyFinished _ => some .notifyFinished
  | .terminated _ => some .terminated

/-- The worker alone is where the worker `i` of the pool is, with the same queue and the same tasks. -/
structure Shows (i : W) (s : SharedWorker Cl (Item T)) (w : WorkerThread.World Cl T W) : Prop where
  pc : PC.of w.worker.pc = some s.pc
  thread : s.thread = w.worker.thread
  runningTask : s.runningTask = w.worker.runningTask
  runningTaskGuard : s.runningTaskGuard = w.worker.runningTaskGuard
  elems : s.taskQueue.elems = w.queue.elems.map some
  waiting : .worker ∈ s.taskQueue.waiting ↔ i ∈ w.queue.waiting
  task : ∀ t, s.task (.task t) = w.task t

/-- A worker that has just been constructed. -/
theorem shows_new (i : W) : Shows i (new Cl (Item T))
    ⟨{ WorkerThread.absent with pc := .setRunning }, .new, fun _ => .new, [], []⟩ :=
  ⟨rfl, rfl, rfl, rfl, rfl, by simp [new, TaskQueue.new], fun _ => rfl⟩

section Worker

variable {isEndTask : T → Bool} {i : W} {e : Exit} {s s' : SharedWorker Cl (Item T)} {w w' : WorkerThread.World Cl T W}

/-- Both threads move on and do nothing else. -/
theorem Shows.goto (h : Shows i s w) {pc : PC (Item T)} {pc' : WorkerThread.PC T} (hpc : PC.of pc' = some pc) :
    Shows i (s.goto pc) { w with worker := w.worker.goto pc' } :=
  ⟨hpc, h.thread, h.runningTask, h.runningTaskGuard, h.elems, h.waiting, h.task⟩

theorem Shows.at (h : Shows i s w) {pc : WorkerThread.PC T} {pc' : PC (Item T)} (hw : w.worker.pc = pc)
    (hof : PC.of pc = some pc') : s.pc = pc' := by
  have hshown := h.pc
  rw [hw, hof] at hshown
  exact (Option.some.inj hshown).symm

variable [DecidableEq W]

/-- `Pop` finds the same item, or blocks, in both. -/
theorem Shows.getTaskFromTaskQueue (h : Shows i s w) :
    Shows i s.getTaskFromTaskQueue (WorkerThread.getTaskFromTaskQueue i w) := by
  have helems := h.elems
  unfold SharedWorker.getTaskFromTaskQueue WorkerThread.getTaskFromTaskQueue
  split <;> split
  · rename_i hs _ _ _ hw
    obtain ⟨-, -, -, -, hwait, hcons⟩ := TaskQueue.pop_spec hs
    obtain ⟨-, -, -, -, hwait', hcons'⟩ := TaskQueue.pop_spec hw
    rw [hcons, hcons'] at helems
    obtain ⟨hitem, hrest⟩ := List.cons.inj helems
    exact ⟨rfl, h.thread, hitem, h.runningTaskGuard, hrest, by rw [hwait, hwait']; exact h.waiting, h.task⟩
  · rename_i hs hw
    rw [TaskQueue.pop_eq_none.mp hw] at helems
    rw [TaskQueue.pop_eq_none.mpr helems] at hs
    cases hs
  · rename_i hs _ _ _ hw
    obtain ⟨-, -, -, -, -, hcons⟩ := TaskQueue.pop_spec hw
    rw [TaskQueue.pop_eq_none.mp hs, hcons] at helems
    cases helems
  · exact ⟨rfl, h.thread, h.runningTask, h.runningTaskGuard, helems, by simp [TaskQueue.block], h.task⟩

variable [DecidableEq Cl] [DecidableEq T]

/-- A step of the `Run` of the task. -/
theorem Shows.run (h : Shows i s w) {k : Nat} {t : T} {p : TaskBase.RunPC} (hw : w.worker.pc = .run k t p)
    (hret : p ≠ .ret) (hraised : p ≠ .raised) :
    Option.Rel (Shows i) (s.workerStep (Item.isEnd isEndTask) e) (WorkerThread.step isEndTask i e w) := by
  have hs : s.pc = .run (.task t) p := h.at hw rfl
  have hleft : s.workerStep (Item.isEnd isEndTask) e = ((s.task (.task t)).run p e).map fun r =>
      { s.setTask (.task t) r.1 with
        pc := .run (.task t) r.2, settled := if settles p then s.settled ++ [(Item.task t, r.1.state)]
        else s.settled } := by
    cases p <;> simp_all [workerStep]
  have hright : WorkerThread.step isEndTask i e w = ((w.task t).run p e).map fun r =>
      { w with
        worker := w.worker.goto (.run k t r.2), task := Function.update w.task t r.1,
        returned := WorkerThread.note w.returned t p e } := by
    cases p <;> simp_all [WorkerThread.step]
  rw [hleft, hright, h.task t]
  cases (w.task t).run p e with
  | none => exact .none
  | some r =>
    refine .some ⟨rfl, h.thread, h.runningTask, h.runningTaskGuard, h.elems, h.waiting, fun u => ?_⟩
    by_cases hu : u = t
    · subst hu
      simp [setTask]
    · simp [setTask, hu, h.task]

/-- **The worker alone and the worker of the pool make the same steps**, until the finish action. -/
theorem workerStep_rel (h : Shows i s w) (hfinish : s.pc ≠ .finishAction) :
    Option.Rel (Shows i) (s.workerStep (Item.isEnd isEndTask) e) (WorkerThread.step isEndTask i e w) := by
  have hthread := h.thread
  cases hw : w.worker.pc with
  | absent =>
    have hshown := h.pc
    rw [hw] at hshown
    cases hshown
  | finishAction | notifyStop => exact absurd (h.at hw rfl) hfinish
  | terminated =>
    have hs : s.pc = .terminated := h.at hw rfl
    simp only [workerStep, WorkerThread.step, hs, hw]
    exact .none
  | setRunning =>
    have hs : s.pc = .setRunning := h.at hw rfl
    simp only [workerStep, WorkerThread.step, hs, hw]
    exact .some ⟨rfl, congrArg CancelableThread.setRunning hthread, h.runningTask, h.runningTaskGuard, h.elems,
        h.waiting, h.task⟩
  | notifyFinished =>
    have hs : s.pc = .notifyFinished := h.at hw rfl
    simp only [workerStep, WorkerThread.step, hs, hw]
    exact .some ⟨rfl, congrArg CancelableThread.notifyFinished hthread, h.runningTask, h.runningTaskGuard, h.elems,
        h.waiting, h.task⟩
  | checkCancellation =>
    have hs : s.pc = .checkCancellation := h.at hw rfl
    simp only [workerStep, WorkerThread.step, hs, hw, hthread]
    exact .some (h.goto (by split <;> rfl))
  | check =>
    have hs : s.pc = .check := h.at hw rfl
    simp only [workerStep, WorkerThread.step, hs, hw, hthread]
    exact .some (h.goto (by split <;> rfl))
  | recheck k =>
    have hs : s.pc = .recheck := h.at hw rfl
    simp only [workerStep, WorkerThread.step, hs, hw, hthread]
    exact .some (h.goto (by split <;> rfl))
  | lock =>
    have hs : s.pc = .lock := h.at hw rfl
    simp only [workerStep, WorkerThread.step, hs, hw, h.runningTaskGuard]
    cases w.worker.runningTaskGuard with
    | free => exact .some ⟨rfl, hthread, h.runningTask, rfl, h.elems, h.waiting, h.task⟩
    | worker | client => exact .none
  | pop =>
    have hs : s.pc = .pop := h.at hw rfl
    simp only [workerStep, WorkerThread.step, hs, hw]
    exact .some h.getTaskFromTaskQueue
  | blocked =>
    have hs : s.pc = .blocked := h.at hw rfl
    simp only [workerStep, WorkerThread.step, hs, hw, h.waiting]
    split
    · exact .none
    · exact .some h.getTaskFromTaskQueue
  | unlock k =>
    have hs : s.pc = .unlock := h.at hw rfl
    simp only [workerStep, WorkerThread.step, hs, hw]
    exact .some ⟨rfl, hthread, h.runningTask, rfl, h.elems, h.waiting, h.task⟩
  | dispatch k =>
    have hs : s.pc = .dispatch := h.at hw rfl
    simp only [workerStep, WorkerThread.step, hs, hw, h.runningTask]
    cases hitem : w.worker.runningTask with
    | none => exact .some (h.goto rfl)
    | some item =>
      cases item with
      | endTask => exact .some (h.goto rfl)
      | task t =>
        cases hend : isEndTask t with
        | true =>
          simp only [Item.isEnd, hend, if_true]
          exact .some (h.goto rfl)
        | false =>
          simp only [Item.isEnd, hend, Bool.false_eq_true, if_false]
          exact .some ⟨rfl, hthread, hitem.symm, h.runningTaskGuard, h.elems, h.waiting, h.task⟩
  | run k t p =>
    have hs : s.pc = .run (.task t) p := h.at hw rfl
    cases p with
    | ret =>
      simp only [workerStep, WorkerThread.step, hs, hw]
      exact .some ⟨rfl, hthread, h.runningTask, h.runningTaskGuard, h.elems, h.waiting, h.task⟩
    | raised =>
      simp only [workerStep, WorkerThread.step, hs, hw]
      exact .some (h.goto rfl)
    | _ => exact h.run hw (by simp) (by simp)

end Worker

end SharedWorker

section Pool

variable {n : Nat} {Cl T : Type*} [DecidableEq Cl] [DecidableEq T] {isEndTask : T → Bool} {i : Fin n} {e : Exit}
  {s : SharedWorker Cl (Item T)} {p p' : FixedThreadPool n Cl T}

omit [DecidableEq Cl] [DecidableEq T] in
theorem FixedThreadPool.world_setThread {w : WorkerThread Cl T} {stopped : List (Fin n)} {state : PoolState}
    {stateWaiters : Finset Cl} :
    { p.setThread i w with stopped, state, stateWaiters }.world i = { p.world i with worker := w } := by
  simp [world, setThread]

omit [DecidableEq Cl] [DecidableEq T] in
theorem FixedThreadPool.world_setWorld {w : WorkerThread.World Cl T (Fin n)} : (p.setWorld i w).world i = w := by
  simp [world, setWorld, setThread]

/-- **Each step of a worker of the pool is a step of the worker alone**, or one of those that the finish action
takes. -/
theorem FixedThreadPool.workerStep_shows (h : s.Shows i (p.world i)) (hs : p.workerStep isEndTask i e = some p') :
    s.Shows i (p'.world i) ∨
      ∃ s', s.workerStep (Item.isEnd isEndTask) e = some s' ∧ s'.Shows i (p'.world i) := by
  unfold workerStep at hs
  split at hs
  · rename_i why hpc
    cases hs
    have hfinish : s.pc = .finishAction := h.at hpc rfl
    have hstays : (s.goto s.pc).Shows i { p.world i with
        worker := (p.world i).worker.goto (.notifyStop why (p.stopped.length + 1)) } := h.goto (by rw [hfinish]; rfl)
    left
    rw [world_setThread]
    exact hstays
  · rename_i why c hpc
    have hfinish : s.pc = .finishAction := h.at hpc rfl
    have hreturns : s.workerStep (Item.isEnd isEndTask) e = some (s.goto .notifyFinished) := by
      simp only [SharedWorker.workerStep, hfinish]
    refine Or.inr ⟨_, hreturns, ?_⟩
    split at hs
    · split at hs <;> cases hs
      rw [world_setThread]
      exact h.goto rfl
    · cases hs
      exact world_setThread (p := p) ▸ h.goto rfl
  · rename_i hno hno'
    obtain ⟨w, hw, rfl⟩ := Option.map_eq_some_iff.mp hs
    have hfinish : s.pc ≠ .finishAction := fun hpc => by
      have hshown := h.pc
      rw [hpc] at hshown
      cases hworker : (p.threads i).pc with
      | finishAction why => exact hno why hworker
      | notifyStop why c => exact hno' why c hworker
      | _ => rw [show (p.world i).worker.pc = _ from hworker] at hshown; cases hshown
    have hrel : Option.Rel (SharedWorker.Shows i) (s.workerStep (Item.isEnd isEndTask) e)
        (WorkerThread.step isEndTask i e (p.world i)) := SharedWorker.workerStep_rel h hfinish
    rw [hw] at hrel
    rw [world_setWorld]
    cases hstep : s.workerStep (Item.isEnd isEndTask) e with
    | none => rw [hstep] at hrel; cases hrel
    | some s' =>
      rw [hstep] at hrel
      cases hrel with
      | some hshows => exact Or.inr ⟨s', rfl, hshows⟩

end Pool

/-! ## The timer -/

namespace SharedTimer

variable {Cl T D : Type*}

/-- The timer of a pool has released the lock with its decision to wait. -/
def PC.released : PC T → Bool
  | .wait | .timedWait _ => true
  | _ => false

/-- The timer of a pool has popped the top with its decision. -/
def PC.pops : PC T → Bool
  | .popMin _ _ => true
  | _ => false

theorem PC.released_of_unlocked {pc : PC T} (h : pc.locked = false) : pc.released = false := by
  cases pc <;> first | rfl | cases h

theorem PC.pops_of_unlocked {pc : PC T} (h : pc.locked = false) : pc.pops = false := by
  cases pc <;> first | rfl | cases h

/-- Where the timer thread of a pool is in the code of the timer alone: it reads the clock and the deadline in one step,
and decides and pops, or decides and waits, in one. -/
inductive Beside : PC Nat → Timer.PC D → Prop
  | setRunning : Beside .setRunning .setRunning
  | checkCancellation : Beside .checkCancellation .checkCancellation
  | lock : Beside .lock .lock
  | isEmpty : Beside .isEmpty .isEmpty
  | checkEmpty : Beside .checkEmpty .checkEmpty
  | wait : Beside .wait .wait
  | blocked : Beside .blocked .wait
  | check : Beside .check .check
  | getMin : Beside .getMin .getMin
  | getCurrentTime {id} : Beside (.getCurrentTime id) .getMin
  | getDeadline {id now} : Beside (.getDeadline id now) .getMin
  | isCancelled {id now deadline} : Beside (.isCancelled id now deadline) (.isCancelled id now deadline)
  | isRequestCancel {id now deadline} : Beside (.isRequestCancel id now deadline) (.isRequestCancel id now deadline)
  | compare {id now deadline} : Beside (.compare id now deadline) (.fire id now deadline)
  | isIntervalTask {id now deadline} : deadline ≤ now → Beside (.isIntervalTask id now) (.fire id now deadline)
  | getInterval {id now deadline} : deadline ≤ now → Beside (.getInterval id now) (.fire id now deadline)
  | setDeadline {id now deadline interval} : deadline ≤ now →
      Beside (.setDeadline id now interval) (.fire id now deadline)
  | popMinAndPush {id now} : Beside (.popMinAndPush id now) (.unlock (some id))
  | popMin {id why} : Beside (.popMin id why) (.unlock ((why.fired id).map Prod.fst))
  | timedWait {deadline} : Beside (.timedWait deadline) .timedWait
  | timedBlocked {deadline} : Beside (.timedBlocked deadline) .timedWait
  | unlock {fired} : Beside (.unlock fired) (.unlock (fired.map Prod.fst))
  | leave : Beside .leave .leave
  | run {id now p} : p ≠ .doRun → Beside (.run id now p) (.run id p)
  | doRun {id now d} : Beside (.run id now .doRun) (.doRun id d)
  | notifyFinished : Beside .notifyFinished .notifyFinished
  | terminated : Beside .terminated .terminated

/-- The timer alone is where the timer of the pool is, with the same tasks in the queue. -/
structure Shows (s : SharedTimer Cl Nat) (w : Timer.World Cl T D) : Prop where
  pc : Beside s.pc w.timer.pc
  thread : s.thread = w.timer.thread
  locked : w.timer.locked = (s.pc.locked && !s.pc.released)
  waiting : w.timer.waiting = (s.waiting || s.pc.released)
  queue : (if s.pc.pops then s.queue.tail else s.queue).Perm w.timer.queue
  task : ∀ id task, w.timerTasks[id]? = some task →
    s.base id = task.base ∧ s.deadline id = task.deadline ∧ s.interval id = task.interval
  known : ∀ id, id ∈ s.queue ∨ s.pc.task = some id → ∃ task, w.timerTasks[id]? = some task
  again : ∀ id, s.pc.again = some id → 0 < s.interval id
  interval : ∀ id now interval, s.pc = .setDeadline id now interval → s.interval id = interval

/-- A timer that has just been constructed. -/
theorem shows_new : Shows (new Cl Nat) (⟨.new, []⟩ : Timer.World Cl T D) := by
  refine ⟨.setRunning, rfl, rfl, rfl, .nil, fun id task ht => ?_, fun id hid => ?_, fun _ ha => (by cases ha),
    fun _ _ _ hi => (by cases hi)⟩
  · simp at ht
  · rcases hid with hid | hid <;> cases hid

section Timer

variable {heap : PriorityQueue Nat Nat} {s s' : SharedTimer Cl Nat} {w : Timer.World Cl T D} {pc pc' : PC Nat}
  {i : Input}
  {start : D}

/-- The timer thread gets from `pc` to `pc'`, and that of the pool does what that takes. -/
theorem Shows.turn (h : Shows s w) (hpc : s.pc = pc) {tm : Timer Cl D} (hb : Beside pc' tm.pc)
    (hthread : tm.thread = w.timer.thread) (hlocked : tm.locked = (pc'.locked && !pc'.released))
    (hwaiting : tm.waiting = (s.waiting || pc'.released))
    (hqueue : (if pc'.pops then s.queue.tail else s.queue).Perm tm.queue)
    (htask : ∀ id, pc'.task = some id → id ∈ s.queue ∨ pc.task = some id)
    (hagain : ∀ id, pc'.again = some id → 0 < s.interval id)
    (hinterval : ∀ id now interval, pc' = .setDeadline id now interval → s.interval id = interval) :
    Shows (s.goto pc') { w with timer := tm } := by
  refine ⟨hb, h.thread.trans hthread.symm, hlocked, hwaiting, hqueue, h.task, fun id hid => h.known id ?_, hagain,
      hinterval⟩
  rcases hid with hid | hid
  · exact Or.inl hid
  · exact (htask id hid).imp_right fun ht => by rw [hpc]; exact ht

/-- The same where no interval is in play and no task is taken. -/
theorem Shows.quiet (h : Shows s w) (hpc : s.pc = pc) {tm : Timer Cl D} (hb : Beside pc' tm.pc)
    (hthread : tm.thread = w.timer.thread) (hlocked : tm.locked = (pc'.locked && !pc'.released))
    (hwaiting : tm.waiting = (s.waiting || pc'.released))
    (hqueue : (if pc'.pops then s.queue.tail else s.queue).Perm tm.queue) (htask : pc'.task = none ∨ pc'.task = pc.task)
    (hagain : pc'.again = none) : Shows (s.goto pc') { w with timer := tm } := by
  refine h.turn hpc hb hthread hlocked hwaiting hqueue (fun id hid => ?_) (fun id hid => ?_)
    fun id now interval hi => ?_
  · rcases htask with ht | ht
    · rw [ht] at hid
      cases hid
    · exact Or.inr (ht.symm.trans hid)
  · rw [hagain] at hid
    cases hid
  · rw [hi] at hagain
    cases hagain

/-- The timer of the pool stays where it is. -/
theorem Shows.stays (h : Shows s w) (hpc : s.pc = pc) (hb : Beside pc' w.timer.pc) (hlocked : pc'.locked = pc.locked)
    (hreleased : pc'.released = pc.released) (hpops : pc'.pops = pc.pops)
    (htask : ∀ id, pc'.task = some id → id ∈ s.queue ∨ pc.task = some id)
    (hagain : ∀ id, pc'.again = some id → 0 < s.interval id)
    (hinterval : ∀ id now interval, pc' = .setDeadline id now interval → s.interval id = interval) :
    Shows (s.goto pc') w := by
  subst hpc
  exact h.turn rfl hb rfl (by rw [hlocked, hreleased]; exact h.locked) (by rw [hreleased]; exact h.waiting)
    (by rw [hpops]; exact h.queue) htask hagain hinterval

/-- Both threads move on and do nothing else. -/
theorem Shows.move (h : Shows s w) (hpc : s.pc = pc) {tm : Timer.PC D} (hb : Beside pc' tm)
    (hlocked : pc'.locked = pc.locked) (hreleased : pc'.released = pc.released) (hpops : pc'.pops = pc.pops)
    (htask : pc'.task = none ∨ pc'.task = pc.task) (hagain : pc'.again = none) :
    Shows (s.goto pc') { w with timer := w.timer.goto tm } := by
  subst hpc
  exact h.quiet rfl hb rfl (by rw [hlocked, hreleased]; exact h.locked) (by rw [hreleased]; exact h.waiting)
    (by rw [hpops]; exact h.queue) htask hagain

/-- The timer of the pool makes no step, or one. -/
def Follows (start : D) (s' : SharedTimer Cl Nat) (w : Timer.World Cl T D) : Prop :=
  Shows s' w ∨ ∃ i w', Timer.step start i w = some w' ∧ Shows s' w'

/-- The top of the queue is a smallest task for the pool as well. -/
theorem Shows.getMin (h : Shows s w) (ho : Ordered s) (hr : s.pc.rearmed = false) (hp : s.pc.pops = false) {id : Nat}
    (hid : s.pc.min? = some id) {task : TimerTask Cl T} (ht : w.timerTasks[id]? = some task) :
    ∃ pick, Timer.getMin w pick = some (id, task) := by
  have hqueue := h.queue
  rw [hp] at hqueue
  have hmem : id ∈ w.timer.queue := hqueue.mem_iff.mp (List.mem_of_mem_head? (ho.head id hid))
  obtain ⟨pick, hpick⟩ := List.mem_iff_getElem?.mp hmem
  have hall : Timer.isMin w task = true := by
    refine List.all_eq_true.mpr fun u hu => ?_
    have hu : u ∈ s.queue := hqueue.mem_iff.mpr hu
    obtain ⟨other, hother⟩ := h.known u (Or.inl hu)
    have hle := ho.min hr hid hu
    rw [(h.task id task ht).2.1, (h.task u other hother).2.1] at hle
    simpa [hother] using hle
  exact ⟨pick, by simp [Timer.getMin, hpick, ht, hall]⟩

/-- The pool pops what the timer alone is going to pop. -/
theorem Shows.erase (h : Shows s w) (ho : Ordered s) (hp : s.pc.pops = false) {id : Nat} (hid : s.pc.min? = some id) :
    s.queue.tail.Perm (w.timer.queue.erase id) := by
  have hqueue := h.queue
  rw [hp] at hqueue
  obtain ⟨rest, hrest⟩ := cons_of_head? (ho.head id hid)
  have herase := hqueue.erase id
  simp only [Bool.false_eq_true, if_false, hrest, List.erase_cons_head] at herase
  rw [hrest]
  exact herase

/-- The pool pops with the decision. -/
theorem Shows.pop (h : Shows s w) (ho : Ordered s) (hpc : s.pc = pc) (hl : pc.locked = true) (hw : pc.released = false)
    (hp : pc.pops = false) {id : Nat} {why : Why} (hid : pc.min? = some id) {fired : Option Nat}
    (hf : fired = (why.fired id).map Prod.fst) : Shows (s.goto (.popMin id why))
      (⟨{ w.timer with queue := w.timer.queue.erase id, pc := .unlock fired }, w.timerTasks⟩ : Timer.World Cl T D) := by
  subst hpc
  subst hf
  have hlocked := h.locked
  have hwaiting := h.waiting
  rw [hl, hw] at hlocked
  rw [hw] at hwaiting
  have htask : s.pc.task = some id := PC.task_of_min? hid
  exact h.quiet rfl .popMin rfl hlocked hwaiting (h.erase ho hp hid) (Or.inr htask.symm) rfl

/-- The timer thread moves on. -/
theorem Shows.moves (h : Shows s w) (ho : Ordered s) (hpc : s.pc = pc) (hm : Move s pc pc') :
    Follows start (s.goto pc') w := by
  obtain ⟨tm, htm⟩ : ∃ tm, w.timer.pc = tm := ⟨_, rfl⟩
  have hb := h.pc
  have hlocked := h.locked
  have hwaiting := h.waiting
  have hqueue := h.queue
  rw [hpc] at hlocked hwaiting hqueue
  rw [hpc, htm] at hb
  have hflag : w.timer.thread.isRequestCancel = s.thread.isRequestCancel := by rw [h.thread]
  have hknown : ∀ id, pc.task = some id → ∃ task, w.timerTasks[id]? = some task := fun id hid =>
    h.known id (Or.inr (by rw [hpc]; exact hid))
  cases hm with
  | enter hf =>
    cases hb
    exact Or.inr ⟨⟨.ret, 0, 0⟩, _, by simp [Timer.step, htm, hflag, hf], h.move hpc .lock rfl rfl rfl (Or.inl rfl) rfl⟩
  | cancelled hf =>
    cases hb
    exact Or.inr ⟨⟨.ret, 0, 0⟩, _, by simp [Timer.step, htm, hflag, hf],
      h.move hpc .notifyFinished rfl rfl rfl (Or.inl rfl) rfl⟩
  | lock =>
    cases hb
    exact Or.inr ⟨⟨.ret, 0, 0⟩, { w with timer := { w.timer with locked := true, pc := .isEmpty } },
      by simp only [Timer.step, htm], h.quiet hpc .isEmpty rfl rfl hwaiting hqueue (Or.inl rfl) rfl⟩
  | empty hq =>
    cases hb
    have hempty : w.timer.queue = [] := (hq ▸ hqueue : ([] : List Nat).Perm w.timer.queue).nil_eq.symm
    exact Or.inr ⟨⟨.ret, 0, 0⟩, _, by simp [Timer.step, htm, hempty],
      h.move hpc .checkEmpty rfl rfl rfl (Or.inl rfl) rfl⟩
  | nonempty hq =>
    cases hb
    have hnonempty : w.timer.queue ≠ [] := fun hempty => hq (List.Perm.eq_nil (hempty ▸ hqueue))
    exact Or.inr ⟨⟨.ret, 0, 0⟩, _, by simp [Timer.step, htm, hnonempty], h.move hpc .check rfl rfl rfl (Or.inl rfl) rfl⟩
  | exit hcheck hf =>
    rcases hcheck with rfl | rfl
    · cases hb
      exact Or.inr ⟨⟨.ret, 0, 0⟩, _, by simp only [Timer.step, htm, hflag, hf, if_true],
        h.move hpc .leave rfl rfl rfl (Or.inl rfl) rfl⟩
    · cases hb
      exact Or.inr ⟨⟨.ret, 0, 0⟩, _, by simp only [Timer.step, htm, hflag, hf, if_true],
        h.move hpc .leave rfl rfl rfl (Or.inl rfl) rfl⟩
  | checkEmpty hf =>
    cases hb
    refine Or.inr ⟨⟨.ret, 0, 0⟩, { w with timer := { w.timer with locked := false, waiting := true, pc := .wait } },
      by simp [Timer.step, htm, hflag, hf], h.quiet hpc .wait rfl rfl ?_ hqueue (Or.inl rfl) rfl⟩
    exact (Bool.or_true _).symm
  | wake hf =>
    cases hb
    have hawake : w.timer.waiting = false := by rw [hwaiting, hf]; rfl
    exact Or.inr ⟨⟨.ret, 0, 0⟩, { w with timer := { w.timer with locked := true, pc := .isEmpty } },
      by simp [Timer.step, htm, hawake], h.quiet hpc .isEmpty rfl rfl hwaiting hqueue (Or.inl rfl) rfl⟩
  | check hf =>
    cases hb
    exact Or.inr
      ⟨⟨.ret, 0, 0⟩, _, by simp [Timer.step, htm, hflag, hf], h.move hpc .getMin rfl rfl rfl (Or.inl rfl) rfl⟩
  | getMin hq =>
    cases hb
    refine Or.inl (h.stays hpc (htm ▸ .getCurrentTime) rfl rfl rfl (fun id hid => ?_) (fun _ ha => by cases ha)
      fun _ _ _ hi => by cases hi)
    cases hid
    exact Or.inl (List.mem_of_mem_head? hq)
  | @getDeadline id now =>
    cases hb
    obtain ⟨task, ht⟩ := hknown id rfl
    obtain ⟨pick, hpick⟩ := h.getMin ho (by rw [hpc]; rfl) (by rw [hpc]; rfl) (by rw [hpc]; rfl) ht
    refine Or.inr ⟨⟨.ret, now, pick⟩, _, by simp only [Timer.step, htm, hpick, Option.map_some]; rfl, ?_⟩
    rw [(h.task id task ht).2.1]
    exact h.move hpc .isCancelled rfl rfl rfl (Or.inr rfl) rfl
  | @isCancelled id now deadline hc =>
    cases hb
    obtain ⟨task, ht⟩ := hknown id rfl
    rw [(h.task id task ht).1] at hc
    exact Or.inr ⟨⟨.ret, 0, 0⟩, _, by simp only [Timer.step, htm, ht, Option.map_some, hc, if_true]; rfl,
      h.pop ho hpc rfl rfl rfl rfl rfl⟩
  | @notCancelled id now deadline hc =>
    cases hb
    obtain ⟨task, ht⟩ := hknown id rfl
    rw [(h.task id task ht).1] at hc
    exact Or.inr ⟨⟨.ret, 0, 0⟩, _, by simp only [Timer.step, htm, ht, Option.map_some, hc, if_false],
      h.move hpc .isRequestCancel rfl rfl rfl (Or.inr rfl) rfl⟩
  | @requested id now deadline hc =>
    cases hb
    obtain ⟨task, ht⟩ := hknown id rfl
    rw [(h.task id task ht).1] at hc
    exact Or.inr ⟨⟨.ret, 0, 0⟩, _, by simp only [Timer.step, htm, ht, Option.map_some, hc, if_true]; rfl,
      h.pop ho hpc rfl rfl rfl rfl rfl⟩
  | @notRequested id now deadline hc =>
    cases hb
    obtain ⟨task, ht⟩ := hknown id rfl
    rw [(h.task id task ht).1] at hc
    exact Or.inr
      ⟨⟨.ret, 0, 0⟩, _, by simp only [Timer.step, htm, ht, Option.map_some, hc, Bool.false_eq_true, if_false],
      h.move hpc .compare rfl rfl rfl (Or.inr rfl) rfl⟩
  | due hdue =>
    cases hb
    exact Or.inl
      (h.stays hpc (htm ▸ .isIntervalTask hdue) rfl rfl rfl (fun _ hid => Or.inr hid) (fun _ ha => by cases ha)
      fun _ _ _ hi => by cases hi)
  | @early id now deadline hearly =>
    cases hb
    obtain ⟨task, ht⟩ := hknown id rfl
    refine Or.inr
      ⟨⟨.ret, 0, 0⟩, { w with timer := { w.timer with locked := false, waiting := true, pc := .timedWait } },
      by simp only [Timer.step, htm, ht, Option.map_some, hearly, if_false],
      h.quiet hpc .timedWait rfl rfl ?_ hqueue (Or.inl rfl) rfl⟩
    exact (Bool.or_true _).symm
  | interval hpos =>
    cases hb with
    | isIntervalTask hdue =>
      refine Or.inl (h.stays hpc (htm ▸ .getInterval hdue) rfl rfl rfl (fun _ hid => Or.inr hid) (fun id ha => ?_)
        fun _ _ _ hi => by cases hi)
      cases ha
      exact hpos
  | @oneShot id now hzero =>
    cases hb with
    | isIntervalTask hdue =>
      obtain ⟨task, ht⟩ := hknown id rfl
      rw [(h.task id task ht).2.2] at hzero
      exact Or.inr
        ⟨⟨.ret, 0, 0⟩, _, by simp only [Timer.step, htm, ht, Option.map_some, hdue, hzero, if_true, if_false]; rfl,
        h.pop ho hpc rfl rfl rfl rfl rfl⟩
  | @getInterval id now =>
    cases hb with
    | getInterval hdue =>
      refine Or.inl (h.stays hpc (htm ▸ .setDeadline hdue) rfl rfl rfl (fun _ hid => Or.inr hid) (fun u ha => ?_)
        fun u now interval hi => ?_)
      · cases ha
        exact h.again id (by rw [hpc]; rfl)
      · cases hi
        rfl
  | unlock =>
    cases hb
    exact Or.inr ⟨⟨.ret, 0, 0⟩, { w with timer := { w.timer with locked := false, pc := .lock } },
      by simp only [Timer.step, htm, Option.map_none, Option.elim_none],
      h.quiet hpc .lock rfl rfl hwaiting hqueue (Or.inl rfl) rfl⟩
  | leave =>
    cases hb
    exact Or.inr ⟨⟨.ret, 0, 0⟩, { w with timer := { w.timer with locked := false, pc := .notifyFinished } },
      by simp only [Timer.step, htm], h.quiet hpc .notifyFinished rfl rfl hwaiting hqueue (Or.inl rfl) rfl⟩
  | hasRun =>
    cases hb
    exact Or.inr ⟨⟨.ret, 0, 0⟩, _, by simp only [Timer.step, htm], h.move hpc .lock rfl rfl rfl (Or.inl rfl) rfl⟩
  | hasRaised =>
    cases hb
    exact Or.inr ⟨⟨.ret, 0, 0⟩, _, by simp only [Timer.step, htm],
      h.move hpc .notifyFinished rfl rfl rfl (Or.inl rfl) rfl⟩

/-- The clients and what is recorded are not shown. -/
theorem Shows.aside (h : Shows s w) (client : Cl → ClientPC Nat) (record : Record Cl Nat) :
    Shows { s with client, record } w :=
  ⟨h.pc, h.thread, h.locked, h.waiting, h.queue, h.task, h.known, h.again, h.interval⟩

/-- The timer alone has popped as well. -/
theorem Shows.popped (h : Shows s w) (hl : s.pc.locked = true) (hw : s.pc.released = false) {queue : List Nat}
    {fired : Option (Nat × TimeValue)} (hpc : w.timer.pc = .unlock (fired.map Prod.fst))
    (hqueue : queue.Perm w.timer.queue) (hsub : ∀ id ∈ queue, id ∈ s.queue)
    (hfired : ∀ id now, fired = some (id, now) → s.pc.task = some id) :
    Shows { s.goto (.unlock fired) with queue } w := by
  have hlocked := h.locked
  have hwaiting := h.waiting
  rw [hl, hw] at hlocked
  rw [hw] at hwaiting
  refine ⟨hpc ▸ .unlock, h.thread, hlocked, hwaiting, hqueue, h.task, fun id hid => h.known id ?_,
    fun _ ha => (by cases ha), fun _ _ _ hi => (by cases hi)⟩
  rcases hid with hid | hid
  · exact Or.inl (hsub id hid)
  · cases fired with
    | none => cases hid
    | some x =>
      cases hid
      exact Or.inr (hfired x.1 x.2 rfl)

/-- The deadline of the top is written, and the timer of the pool has popped and pushed. -/
theorem Shows.rearm (h : Shows s w) (ho : Ordered s) {id : Nat} {now interval : TimeValue}
    (hpc : s.pc = .setDeadline id now interval) : Follows start
      { s.goto (.popMinAndPush id now) with deadline := Function.update s.deadline id (now + interval) } w := by
  obtain ⟨tm, htm⟩ : ∃ tm, w.timer.pc = tm := ⟨_, rfl⟩
  have hb := h.pc
  rw [hpc, htm] at hb
  cases hb with
  | @setDeadline _ _ deadline _ hdue =>
    have hlocked := h.locked
    have hwaiting := h.waiting
    have hqueue := h.queue
    rw [hpc] at hlocked hwaiting hqueue
    have hknown : ∀ u, u ∈ s.queue ∨ u = id → ∃ task, w.timerTasks[u]? = some task := fun u hu =>
      h.known u (hu.imp_right fun hu => by rw [hpc, hu]; rfl)
    obtain ⟨task, ht⟩ := hknown id (Or.inr rfl)
    have hinterval : task.interval = interval := (h.task id task ht).2.2.symm.trans (h.interval id now interval hpc)
    have hpos : 0 < s.interval id := h.again id (by rw [hpc]; rfl)
    have hstep : Timer.step start ⟨.ret, 0, 0⟩ w = some
        ⟨{ w.timer with queue := w.timer.queue.erase id ++ [id], pc := .unlock (some id) },
          w.timerTasks.set id { task with deadline := now + interval }⟩ := by
      rw [(h.task id task ht).2.2, hinterval] at hpos
      simp only [Timer.step, htm, ht, Option.map_some, hdue, hpos, if_true, hinterval]
    have hmem : id ∈ w.timer.queue := hqueue.mem_iff.mp (List.mem_of_mem_head? (ho.head id (by rw [hpc]; rfl)))
    have hperm : s.queue.Perm (w.timer.queue.erase id ++ [id]) :=
      hqueue.trans ((List.perm_cons_erase hmem).trans (List.perm_append_singleton id _).symm)
    refine Or.inr ⟨_, _, hstep, .popMinAndPush, h.thread, hlocked, hwaiting, hperm, fun u other hu => ?_,
        fun u hu => ?_,
      fun u ha => ?_, fun _ _ _ hi => by cases hi⟩
    · by_cases hui : id = u
      · subst hui
        rw [List.getElem?_set_self (List.getElem?_eq_some_iff.mp ht).1] at hu
        cases hu
        exact ⟨(h.task id task ht).1, Function.update_self _ _ _, (h.task id task ht).2.2⟩
      · rw [List.getElem?_set_ne hui] at hu
        obtain ⟨hbase, hdeadline, hint⟩ := h.task u other hu
        exact ⟨hbase, (Function.update_of_ne (Ne.symm hui) _ _).trans hdeadline, hint⟩
    · obtain ⟨other, hother⟩ := hknown u (hu.imp_right fun hu => by cases hu; rfl)
      by_cases hui : id = u
      · subst hui
        exact ⟨_, List.getElem?_set_self (List.getElem?_eq_some_iff.mp ht).1⟩
      · exact ⟨other, by rw [List.getElem?_set_ne hui, hother]⟩
    · cases ha
      exact hpos

/-- One step of `Run` by the timer thread. -/
theorem Shows.run (h : Shows s w) {id : Nat} {now : TimeValue} {p p' : TaskBase.RunPC} {b : TaskBase Cl}
    (hpc : s.pc = .run id now p) {task : TimerTask Cl T} (ht : w.timerTasks[id]? = some task) {tm : Timer.PC D}
    (hb : Beside (.run id now p') tm) : Shows ((s.setBase id b).goto (.run id now p'))
      ⟨w.timer.goto tm, w.timerTasks.set id { task with base := b }⟩ := by
  have hlocked := h.locked
  have hwaiting := h.waiting
  have hqueue := h.queue
  rw [hpc] at hlocked hwaiting hqueue
  refine ⟨hb, h.thread, hlocked, hwaiting, hqueue, fun u other hu => ?_, fun u hu => ?_, fun _ ha => (by cases ha),
    fun _ _ _ hi => (by cases hi)⟩
  · by_cases hui : id = u
    · subst hui
      rw [List.getElem?_set_self (List.getElem?_eq_some_iff.mp ht).1] at hu
      cases hu
      exact ⟨Function.update_self _ _ _, (h.task id task ht).2⟩
    · rw [List.getElem?_set_ne hui] at hu
      obtain ⟨hbase, hrest⟩ := h.task u other hu
      exact ⟨(Function.update_of_ne (Ne.symm hui) _ _).trans hbase, hrest⟩
  · obtain ⟨other, hother⟩ := h.known u (hu.imp_right fun hu => by rw [hpc]; exact hu)
    by_cases hui : id = u
    · subst hui
      exact ⟨_, List.getElem?_set_self (List.getElem?_eq_some_iff.mp ht).1⟩
    · exact ⟨other, by rw [List.getElem?_set_ne hui, hother]⟩

/-- How `OnCancel` is left does not matter to the rest of `Run`. -/
theorem run_exit {b : TaskBase Cl} {p : TaskBase.RunPC} (hdo : p ≠ .doRun) {e : Exit} (he : p = .onCancel → e = .ret) :
    b.run p e = b.run p .ret := by
  cases p with
  | doRun => exact absurd rfl hdo
  | onCancel => rw [he rfl]
  | _ => rfl

theorem step_run {id : Nat} {p p' : TaskBase.RunPC} {b : TaskBase Cl} {task : TimerTask Cl T} {j : Tpool.Input}
    (hpc : w.timer.pc = .run id p) (ht : w.timerTasks[id]? = some task) (hr : task.base.run p .ret = some (b, p')) :
    Timer.step start j w = some
      ⟨w.timer.goto (if p' = .doRun then .doRun id start else .run id p'),
        w.timerTasks.set id { task with base := b }⟩ := by
  cases p with
  | ret | raised => cases hr
  | _ => simp only [Timer.step, hpc, ht, Option.bind_some, hr, Option.map_some]

/-- The timer thread gets to where it has no task, and the tasks and the queue stay. -/
theorem Shows.next (h : Shows s w) {tm : Timer Cl D} (hb : Beside s'.pc tm.pc) (hthread : s'.thread = tm.thread)
    (hlocked : tm.locked = (s'.pc.locked && !s'.pc.released)) (hwaiting : tm.waiting = (s'.waiting || s'.pc.released))
    (hqueue : (if s'.pc.pops then s'.queue.tail else s'.queue).Perm tm.queue)
    (hsame : s'.base = s.base ∧ s'.deadline = s.deadline ∧ s'.interval = s.interval ∧ s'.queue = s.queue)
    (htask : s'.pc.task = none) (hagain : s'.pc.again = none) : Shows s' { w with timer := tm } := by
  obtain ⟨hbase, hdeadline, hinterval, hq⟩ := hsame
  refine ⟨hb, hthread, hlocked, hwaiting, hqueue, ?_, fun id hid => ?_, fun id ha => ?_, fun id now interval hi => ?_⟩
  · rw [hbase, hdeadline, hinterval]
    exact h.task
  · rw [htask, hq] at hid
    exact h.known id (hid.imp_right fun hid => by cases hid)
  · rw [hagain] at ha
    cases ha
  · rw [hi] at hagain
    cases hagain

/-- **Each step of the timer alone is a step of the timer of a pool, or of the `DoRun` it is in, or none**: the pool's
model takes several steps at once. The queue is in order, as in every run that submits each task once, and the default
`OnCancel` returns. -/
theorem timerStep_shows (h : Shows s w) (ho : Ordered s) (hs : s.timerStep heap i = some s')
    (hret : ∀ id now, s.pc = .run id now .onCancel → i.exit = .ret) : Follows start s' w ∨
      ∃ id now w', s.pc = .run id now .doRun ∧ Timer.leaveDoRun id i.exit w = some w' ∧ Shows s' w' := by
  obtain ⟨tm, htm⟩ : ∃ tm, w.timer.pc = tm := ⟨_, rfl⟩
  have hb := h.pc
  have hlocked := h.locked
  have hwaiting := h.waiting
  have hqueue := h.queue
  have hknown := h.known
  -- a step of the timer of the pool
  have one {j : Tpool.Input} {w' : Timer.World Cl T D} (hj : Timer.step start j w = some w') (hw : Shows s' w') :
      Follows start s' w ∨
        ∃ id now w', s.pc = .run id now .doRun ∧ Timer.leaveDoRun id i.exit w = some w' ∧ Shows s' w' :=
    Or.inl (Or.inr ⟨j, w', hj, hw⟩)
  cases timerStep_cases hs with
  | move hpc hm => exact Or.inl (h.moves ho hpc hm)
  | setRunning hpc =>
    rw [hpc] at hlocked hwaiting hqueue
    rw [hpc, htm] at hb
    cases hb
    have hshows : Shows { s with thread := s.thread.setRunning, pc := .checkCancellation }
        { w with timer := { w.timer with thread := w.timer.thread.setRunning, pc := .checkCancellation } } :=
      h.next .checkCancellation (congrArg CancelableThread.setRunning h.thread) hlocked hwaiting hqueue
        ⟨rfl, rfl, rfl, rfl⟩ rfl rfl
    exact one (j := ⟨.ret, 0, 0⟩) (by simp only [Timer.step, htm]) hshows
  | wait hpc =>
    rw [hpc] at hlocked hwaiting hqueue
    rw [hpc, htm] at hb
    cases hb
    rw [show (s.waiting || PC.released (.wait : PC Nat)) = true from Bool.or_true _] at hwaiting
    exact Or.inl (Or.inl (h.next (htm ▸ .blocked) h.thread hlocked hwaiting hqueue ⟨rfl, rfl, rfl, rfl⟩ rfl rfl))
  | @readClock id hpc =>
    rw [hpc, htm] at hb
    cases hb
    have hstays : Shows (s.goto (.getDeadline id i.now)) w := h.stays hpc (htm ▸ .getDeadline) rfl rfl rfl
      (fun _ hid => Or.inr hid) (fun _ ha => by cases ha) fun _ _ _ hi => by cases hi
    exact Or.inl (Or.inl (hstays.aside _ _))
  | setDeadline hpc => exact Or.inl (h.rearm ho hpc)
  | @again id now u rest hpc hq =>
    rw [hpc, htm] at hb
    cases hb
    have hpop : (heap.pop s.key s.queue).Perm s.queue.tail := heap.pop_perm s.key s.queue
    have hcons : u :: s.queue.tail = s.queue := by rw [hq, List.tail_cons]
    have hperm : (heap.push s.key (heap.pop s.key s.queue) u).Perm s.queue :=
      (heap.push_perm _ _ _).trans ((hpop.cons u).trans (List.Perm.of_eq hcons))
    rw [hpc] at hqueue
    have hpopped : Shows { s.goto (.unlock (some (id, now))) with
        queue := heap.push s.key (heap.pop s.key s.queue) u } w := by
      refine h.popped (by rw [hpc]; rfl) (by rw [hpc]; rfl) htm (hperm.trans hqueue)
        (fun v hv => hperm.mem_iff.mp hv) fun v now' hv => ?_
      cases hv
      rw [hpc]
      rfl
    exact Or.inl (Or.inl hpopped)
  | @popMin id why u rest hpc hq =>
    rw [hpc, htm] at hb
    cases hb
    have hperm := heap.pop_perm s.key s.queue
    rw [hpc] at hqueue
    have hpopped : Shows { s.goto (.unlock (why.fired id)) with queue := heap.pop s.key s.queue } w := by
      refine h.popped (by rw [hpc]; rfl) (by rw [hpc]; rfl) htm (hperm.trans hqueue)
        (fun v hv => List.mem_of_mem_tail (hperm.mem_iff.mp hv)) fun v now hv => ?_
      cases why <;> cases hv <;> rw [hpc] <;> rfl
    cases why <;> exact Or.inl (Or.inl (hpopped.aside _ _))
  | @timedWait deadline hpc =>
    rw [hpc] at hlocked hwaiting hqueue
    rw [hpc, htm] at hb
    cases hb
    rw [show (s.waiting || PC.released (.timedWait deadline : PC Nat)) = true from Bool.or_true _] at hwaiting
    exact Or.inl (Or.inl (h.next (htm ▸ .timedBlocked) h.thread hlocked hwaiting hqueue ⟨rfl, rfl, rfl, rfl⟩ rfl rfl))
  | awake hpc =>
    rw [hpc] at hqueue
    rw [hpc, htm] at hb
    cases hb
    have hshows : Shows { s with waiting := false, pc := .unlock none }
        { w with timer := { w.timer with locked := true, waiting := false, pc := .unlock none } } :=
      h.next .unlock h.thread rfl rfl hqueue ⟨rfl, rfl, rfl, rfl⟩ rfl rfl
    exact one (j := ⟨.ret, 0, 0⟩) (by simp only [Timer.step, htm]) hshows
  | @start id now hpc =>
    rw [hpc] at hwaiting hqueue
    rw [hpc, htm] at hb
    cases hb
    have hrun : Shows (s.goto (.run id now .checkCancellation))
        { w with timer := { w.timer with locked := false, pc := .run id .checkCancellation } } :=
      h.quiet hpc (.run (by decide)) rfl rfl hwaiting hqueue (Or.inr rfl) rfl
    exact one (j := ⟨.ret, 0, 0⟩) (by simp only [Timer.step, htm]; rfl) (hrun.aside _ _)
  | @run id now p b p' hpc hr =>
    obtain ⟨task, ht⟩ := hknown id (Or.inr (by rw [hpc]; rfl))
    rw [(h.task id task ht).1] at hr
    rw [hpc, htm] at hb
    cases hb with
    | run hdo =>
      rw [run_exit hdo fun hp => hret id now (hp ▸ hpc)] at hr
      have hstep :
        Timer.step start ⟨.ret, 0, 0⟩ w = some ⟨w.timer.goto (if p' = .doRun then .doRun id start else .run id p'),
          w.timerTasks.set id { task with base := b }⟩ := step_run htm ht hr
      by_cases hdo' : p' = .doRun
      · rw [if_pos hdo'] at hstep
        exact one hstep ((h.run hpc ht (hdo' ▸ .doRun)).aside _ _)
      · rw [if_neg hdo'] at hstep
        exact one hstep ((h.run hpc ht (.run hdo')).aside _ _)
    | doRun =>
      refine Or.inr ⟨id, now, _, hpc, ?_, (h.run hpc ht (b := b) (.run ?_)).aside _ _⟩
      · simp only [Timer.leaveDoRun, ht, Option.bind_some, hr, Option.map_some]
      · rintro rfl
        cases he : i.exit <;> simp [TaskBase.run, he] at hr
  | notifyFinished hpc =>
    rw [hpc] at hlocked hwaiting hqueue
    rw [hpc, htm] at hb
    cases hb
    have hshows : Shows { s with thread := s.thread.notifyFinished, pc := .terminated }
        { w with timer := { w.timer with thread := w.timer.thread.notifyFinished, pc := .terminated } } :=
      h.next .terminated (congrArg CancelableThread.notifyFinished h.thread) hlocked hwaiting hqueue
        ⟨rfl, rfl, rfl, rfl⟩ rfl rfl
    exact one (j := ⟨.ret, 0, 0⟩) (by simp only [Timer.step, htm]) hshows

/-- **A section of another thread under `m_queue_guard`** is one of the pool's model. -/
theorem Shows.setQueue (h : Shows s w) (hl : s.pc.locked = false) {queue queue' : List Nat} (hperm : queue.Perm queue')
    (hknown : ∀ id ∈ queue, ∃ task, w.timerTasks[id]? = some task) : ∃ tm, w.timer.setQueue queue' = some tm ∧
      Shows { s with queue, waiting := false } { w with timer := tm } := by
  have hlocked := h.locked
  rw [hl] at hlocked
  have hfree : w.timer.locked = false := hlocked
  refine ⟨{ w.timer with queue := queue', waiting := false }, by simp [Timer.setQueue, hfree], h.pc, h.thread, h.locked,
    ?_, ?_, h.task, fun id hid => ?_, h.again, h.interval⟩
  · exact (by rw [PC.released_of_unlocked hl]; rfl : false = (false || s.pc.released))
  · show (if s.pc.pops then queue.tail else queue).Perm queue'
    rw [PC.pops_of_unlocked hl]
    exact hperm
  · rcases hid with hid | hid
    · exact hknown id hid
    · exact h.known id (Or.inr hid)

variable [DecidableEq Cl] {c : Cl} {id : Nat} {how : Submission} {now : TimeValue} {stop : Bool}

/-- `PushTask`, in a submission. -/
theorem pushTask_shows (h : Shows s w) (hc : s.client c = .pushTask id how now) (hs : s.clientStep heap c i = some s')
    {task : TimerTask Cl T} (ht : w.timerTasks[id]? = some task) :
    ∃ tm, w.timer.setQueue (w.timer.queue ++ [id]) = some tm ∧ Shows s' { w with timer := tm } := by
  simp only [clientStep, hc] at hs
  split at hs <;> cases hs
  rename_i hl
  have hl : s.pc.locked = false := by simpa using hl
  have hqueue := h.queue
  rw [PC.pops_of_unlocked hl] at hqueue
  have hpush : (heap.push s.key s.queue id).Perm (id :: s.queue) := heap.push_perm _ _ _
  have hperm : (heap.push s.key s.queue id).Perm (w.timer.queue ++ [id]) :=
    hpush.trans ((hqueue.cons id).trans (List.perm_append_singleton id _).symm)
  obtain ⟨tm, htm, hshows⟩ := h.setQueue hl hperm fun u hu => by
    rcases List.mem_cons.mp (hpush.mem_iff.mp hu) with rfl | hu
    · exact ⟨task, ht⟩
    · exact h.known u (Or.inl hu)
  exact ⟨tm, htm, hshows.aside _ _⟩

/-- `Clear`, in `StopAsync`. -/
theorem clear_shows (h : Shows s w) (hc : s.client c = .clear stop) (hs : s.clientStep heap c i = some s') :
    ∃ tm, w.timer.setQueue [] = some tm ∧ Shows s' { w with timer := tm } := by
  simp only [clientStep, hc] at hs
  split at hs <;> cases hs
  rename_i hl
  have hl : s.pc.locked = false := by simpa using hl
  obtain ⟨tm, htm, hshows⟩ := h.setQueue hl List.Perm.nil fun u hu => by cases hu
  exact ⟨tm, htm, hshows.aside _ _⟩

end Timer

end SharedTimer

end Tpool
