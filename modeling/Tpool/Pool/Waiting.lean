import Tpool.Pool.StopNow

/-!
# Who holds a lock, and who waits for what

- `Held`: whoever owns the guard of the state, or the guard of a worker, stands in a section under it.
- `Placed`: every call is at a worker, a timer and a timer task that are there.
- `TimerLive`: the timer thread has `m_queue_guard` where it needs it; it sleeps with no time limit only on an empty
  queue; and one that was asked to cancel is about to be woken.
- `Heeding`: whoever waits for the end of a worker's thread has asked for it.
-/

namespace Tpool

open Concurrency

/-! ## The timer thread and its queue -/

namespace Timer

variable {Cl T D : Type*}

/-- The timer thread has `m_queue_guard`. -/
def PC.locked : PC D → Bool
  | .isEmpty | .checkEmpty | .check | .getMin | .isCancelled _ _ _ | .isRequestCancel _ _ _ | .fire _ _ _ | .unlock _
  | .leave => true
  | _ => false

/-- The task that the timer thread works on. -/
def PC.task : PC D → Option Nat
  | .isCancelled id _ _ | .isRequestCancel id _ _ | .fire id _ _ | .run id _ | .doRun id _ => some id
  | .unlock fired => fired
  | _ => none

/-- There is such a timer task. -/
def HasTask (ts : List (TimerTask Cl T)) (id : Nat) : Prop := ∃ task, ts[id]? = some task

/-- The timer thread holds the lock where it needs it, looks for the first task of a queue that has one, and sleeps with
no time limit on an empty queue; what it works on is there. -/
structure Live (w : World Cl T D) : Prop where
  locked : w.timer.locked = w.timer.pc.locked
  queue : ∀ id ∈ w.timer.queue, HasTask w.timerTasks id
  task : ∀ id, w.timer.pc.task = some id → HasTask w.timerTasks id
  nonempty : w.timer.pc = .check ∨ w.timer.pc = .getMin → w.timer.queue ≠ []
  empty : w.timer.pc = .checkEmpty → w.timer.queue = []
  asleep : w.timer.pc = .wait → w.timer.waiting = true → w.timer.queue = []
  heeded : w.timer.thread.Heeded (w.timer.pc = .terminated)

variable {start : D} {i : Input} {w w' : World Cl T D} {ts ts' : List (TimerTask Cl T)} {id : Nat}

theorem SameTasks.hasTask (h : SameTasks ts ts') (hid : HasTask ts id) : HasTask ts' id := by
  obtain ⟨task, ht⟩ := hid
  obtain ⟨task', ht', -⟩ := h id task ht
  exact ⟨task', ht'⟩

theorem Live.new : Live (⟨Timer.new, ts⟩ : World Cl T D) where
  locked := rfl
  queue := by simp [Timer.new]
  task := by simp [Timer.new, PC.task]
  nonempty := by simp [Timer.new]
  empty := by simp [Timer.new]
  asleep := by simp [Timer.new]
  heeded := by simpa [Timer.new] using CancelableThread.Heeded.new

/-- The timer tasks stay, and the timer is as it was. -/
theorem Live.tasks (hi : Live w) (hts : SameTasks w.timerTasks ts') : Live ⟨w.timer, ts'⟩ :=
  ⟨hi.locked, fun id h => hts.hasTask (hi.queue id h), fun id h => hts.hasTask (hi.task id h), hi.nonempty, hi.empty,
    hi.asleep, hi.heeded⟩

/-- Another thread asks for the end of the timer thread, waits for it, or wakes. -/
theorem Live.thread (hi : Live w) {thread : CancelableThread Cl} (ht : thread.Heeded (w.timer.pc = .terminated)) :
    Live ⟨{ w.timer with thread }, w.timerTasks⟩ :=
  ⟨hi.locked, hi.queue, hi.task, hi.nonempty, hi.empty, hi.asleep, ht⟩

/-- Another thread changes the queue, while the timer thread does not have the lock, and wakes it. -/
theorem Live.setQueue (hi : Live w) (hl : w.timer.locked = false) {queue : List Nat}
    (hq : ∀ id ∈ queue, HasTask w.timerTasks id) : Live ⟨{ w.timer with queue, waiting := false }, w.timerTasks⟩ := by
  have hpc : w.timer.pc.locked = false := hi.locked.symm.trans hl
  refine ⟨hi.locked, hq, hi.task, fun h => ?_, fun h => ?_, fun _ h => absurd h Bool.false_ne_true, hi.heeded⟩
  · rcases h with h | h <;> rw [show w.timer.pc = _ from h] at hpc <;> cases hpc
  · rw [show w.timer.pc = _ from h] at hpc
    cases hpc

theorem Live.wake (hi : Live w) : Live ⟨{ w.timer with waiting := false }, w.timerTasks⟩ :=
  ⟨hi.locked, hi.queue, hi.task, hi.nonempty, hi.empty, fun _ h => absurd h Bool.false_ne_true, hi.heeded⟩

/-- Outside the lock the timer thread goes on with the same task. -/
theorem Live.goto (hi : Live w) {pc : PC D} (hpc : w.timer.pc.task = some id) (hl : w.timer.pc.locked = false)
    (htask : pc.task = some id) (hlocked : pc.locked = false) (hts : SameTasks w.timerTasks ts') :
    Live ⟨w.timer.goto pc, ts'⟩ := by
  have hno : ∀ pc', pc'.task = none → pc ≠ pc' := by
    rintro pc' h rfl
    rw [htask] at h
    cases h
  have hover : w.timer.pc ≠ .terminated := by
    intro h
    rw [h] at hpc
    cases hpc
  refine ⟨?_, fun j h => hts.hasTask (hi.queue j h), fun j h => ?_, fun h => ?_, fun h => absurd h (hno _ rfl),
    fun h => absurd h (hno _ rfl), ?_⟩
  · rw [Timer.goto, hi.locked, hl, hlocked]
  · have hj : pc.task = some j := h
    rw [htask, Option.some.injEq] at hj
    exact hj ▸ hts.hasTask (hi.task id hpc)
  · exact h.elim (fun h => absurd h (hno _ rfl)) fun h => absurd h (hno _ rfl)
  · have := hi.heeded
    simp only [hover] at this
    simpa [Timer.goto, hno .terminated rfl] using this

/-- The timer thread moves on and does not change what is asked of it. -/
theorem Live.move (hi : Live w) {pc : PC D} {queue : List Nat} {locked waiting : Bool}
    (hpc : w.timer.pc ≠ .terminated) (hover : pc ≠ .terminated) (hl : locked = pc.locked)
    (hq : ∀ id ∈ queue, HasTask ts' id) (ht : ∀ id, pc.task = some id → HasTask ts' id)
    (hne : pc = .check ∨ pc = .getMin → queue ≠ []) (he : pc = .checkEmpty → queue = [])
    (hs : pc = .wait → waiting = true → queue = []) :
    Live ⟨⟨w.timer.thread, queue, locked, waiting, pc⟩, ts'⟩ :=
  ⟨hl, hq, ht, hne, he, hs, by simpa [hpc, hover] using hi.heeded⟩

theorem Move.ne_terminated {pc pc' : PC D} (h : Move i w pc pc') : pc ≠ .terminated ∧ pc' ≠ .terminated := by
  cases h <;> simp

theorem Popped.ne_terminated {pc : PC D} {fired : Option Nat} (h : Popped w id pc fired) : pc ≠ .terminated := by
  cases h <;> simp

/-- A task that is fired is there. -/
theorem Popped.hasTask {pc : PC D} {fired : Option Nat} (h : Popped w id pc fired) {j : Nat} (hj : fired = some j) :
    HasTask w.timerTasks j := by
  cases h with
  | cancelled => cases hj
  | requested ht | due ht => cases hj; exact ⟨_, ht⟩

/-- The timer thread moves on. -/
theorem Live.moves (hi : Live w) {pc pc' : PC D} (hpc : w.timer.pc = pc) (h : Move i w pc pc') :
    Live ⟨w.timer.goto pc', w.timerTasks⟩ := by
  obtain ⟨h1, h2⟩ := h.ne_terminated
  have hl := hi.locked
  have htask := hi.task
  rw [hpc] at hl htask
  refine hi.move (hpc ▸ h1) h2 ?_ hi.queue (fun j hj => ?_) (fun hor => ?_) (fun heq => ?_) (fun heq => ?_)
  · cases h <;> exact hl
  · cases h with
    | getMin hm =>
      simp only [PC.task, Option.some.injEq] at hj
      subst hj
      obtain ⟨id, -, hm⟩ := Option.bind_eq_some_iff.mp hm
      obtain ⟨task, ht, hm⟩ := Option.bind_eq_some_iff.mp hm
      split at hm <;> cases hm
      exact ⟨_, ht⟩
    | notCancelled ht | notRequested ht => exact htask j hj
    | _ => cases hj
  · cases h with
    | nonempty hq => exact hq
    | check => exact hi.nonempty (Or.inl hpc)
    | _ => rcases hor with hor | hor <;> cases hor
  · cases h with
    | empty hq => exact hq
    | _ => cases heq
  · cases h <;> cases heq

/-- **A step of the timer thread keeps it.** -/
theorem Live.step (hi : Live w) (h : Step start i w w') : Live w' := by
  have hover : ∀ {pc}, w.timer.pc = pc → pc ≠ .terminated → w.timer.thread.Heeded False := by
    rintro pc rfl h
    simpa [h] using hi.heeded
  cases h with
  | setRunning hpc =>
    have hl : w.timer.locked = false := by rw [hi.locked, hpc]; rfl
    exact ⟨hl, hi.queue, by simp [PC.task], by simp, by simp, by simp, by
      simpa using CancelableThread.Heeded.setRunning (hover hpc (by simp)) not_false⟩
  | notifyFinished hpc =>
    have hl : w.timer.locked = false := by rw [hi.locked, hpc]; rfl
    exact ⟨hl, hi.queue, by simp [PC.task], by simp, by simp, by simp, by
      simpa using (hover hpc (by simp)).notifyFinished trivial⟩
  | move hpc hm => exact hi.moves hpc hm
  | lock hpc => exact hi.move (by simp [hpc]) (by simp) rfl hi.queue (by simp [PC.task]) (by simp) (by simp) (by simp)
  | wait hpc =>
    refine hi.move (by simp [hpc]) (by simp) rfl hi.queue (by simp [PC.task]) (by simp) (by simp) fun _ _ => ?_
    exact hi.empty hpc
  | wake hpc => exact hi.move (by simp [hpc]) (by simp) rfl hi.queue (by simp [PC.task]) (by simp) (by simp) (by simp)
  | @pop id pc fired hpc hp =>
    have hl : w.timer.locked = true := by rw [hi.locked, hpc]; cases hp <;> rfl
    exact hi.move (hpc ▸ hp.ne_terminated) (by simp) hl (fun j hj => hi.queue j (List.mem_of_mem_erase hj))
      (fun j hj => hp.hasTask hj) (by simp) (by simp) (by simp)
  | @again id now deadline task hpc ht =>
    have hl : w.timer.locked = true := by rw [hi.locked, hpc]; rfl
    have hts : SameTasks w.timerTasks (w.timerTasks.set id { task with deadline := now + task.interval }) :=
      .set ht rfl
    have hid := hts.hasTask ⟨task, ht⟩
    refine hi.move (by simp [hpc]) (by simp) hl (fun j hj => ?_) (fun j hj => ?_) (by simp) (by simp) (by simp)
    · rcases List.mem_append.mp hj with hj | hj
      · exact hts.hasTask (hi.queue j (List.mem_of_mem_erase hj))
      · rw [List.mem_singleton.mp hj]
        exact hid
    · cases hj
      exact hid
  | sleep hpc => exact hi.move (by simp [hpc]) (by simp) rfl hi.queue (by simp [PC.task]) (by simp) (by simp) (by simp)
  | awake hpc => exact hi.move (by simp [hpc]) (by simp) rfl hi.queue (by simp [PC.task]) (by simp) (by simp) (by simp)
  | @unlock fired hpc =>
    have htask := hi.task
    rw [hpc] at htask
    cases fired with
    | none => exact hi.move (by simp [hpc]) (by simp) rfl hi.queue (by simp [PC.task]) (by simp) (by simp) (by simp)
    | some id =>
      exact hi.move (by simp [hpc]) (by simp) rfl hi.queue (fun j hj => htask j hj) (by simp) (by simp) (by simp)
  | leave hpc => exact hi.move (by simp [hpc]) (by simp) rfl hi.queue (by simp [PC.task]) (by simp) (by simp) (by simp)
  | @run id p task b p' hpc ht hr =>
    have hts : SameTasks w.timerTasks (w.timerTasks.set id { task with base := b }) := .set ht rfl
    by_cases hp : p' = .doRun
    · rw [if_pos hp]
      exact hi.goto (by rw [hpc]; rfl) (by rw [hpc]; rfl) rfl rfl hts
    · rw [if_neg hp]
      exact hi.goto (by rw [hpc]; rfl) (by rw [hpc]; rfl) rfl rfl hts

/-- A request to cancel is neither made nor taken back by the timer thread, and it goes to sleep only without one. -/
theorem Step.flag (h : Step start i w w') :
    w'.timer.thread.isRequestCancel = w.timer.thread.isRequestCancel ∧
      (w'.timer.pc = .wait → w.timer.thread.isRequestCancel = false) := by
  cases h with
  | wait _ hf => exact ⟨rfl, fun _ => hf⟩
  | move _ hm => exact ⟨rfl, fun hpc => by cases hm <;> cases hpc⟩
  | @unlock fired => exact ⟨rfl, fun hpc => by cases fired <;> cases hpc⟩
  | run => exact ⟨rfl, fun hpc => by simp only [Timer.goto] at hpc; split at hpc <;> cases hpc⟩
  | _ => exact ⟨rfl, fun hpc => by cases hpc⟩

end Timer

namespace FixedThreadPool

variable {n : Nat} {Cl T : Type*} {isEndTask : T → Bool}

/-! ## The guards -/

section Held

/-- A client keeps the guard of the state while it stops the timer. -/
def ClientPC.holdsState : ClientPC T → Bool
  | .isTimerStarted k | .stopTimerAsync k | .clearTimer k | .cancelTimer k | .waitTimer k | .blockedTimer k => k != .now
  | .unlockState => true
  | _ => false

/-- Whoever owns a guard stands in a section under it. -/
structure Held (s : FixedThreadPool n Cl T) : Prop where
  state : ∀ c, s.stateGuard = some c → (s.client c).holdsState = true
  worker : ∀ i, (s.threads i).runningTaskGuard = .worker → (s.threads i).pc.guards = true
  client : ∀ c (i : Fin n), (s.threads i).runningTaskGuard = .client c → (s.client c).guards i = true

variable [DecidableEq Cl] [DecidableEq T] {s s' : FixedThreadPool n Cl T} {c : Cl} {i : Fin n} {e : Exit}

omit [DecidableEq Cl] [DecidableEq T] in
theorem Silent.holdsState {pc pc' : ClientPC T} (h : Silent s pc pc') (hpc : pc.holdsState = true) :
    pc'.holdsState = true := by
  cases h with
  | stopTimer => exact hpc
  | noTimerToStop | timerFinished => rfl
  | threadFinished _ hor => rcases hor with rfl | rfl <;> cases hpc
  | _ => cases hpc

/-- A client that owns the guard of the state keeps it, or gives it back. -/
theorem ClientStep.holdsState (h : ClientStep c s s') (hpc : (s.client c).holdsState = true) :
    (s'.client c).holdsState = true ∨ s'.stateGuard = none := by
  have move : ∀ {pc}, s'.client c = pc → pc.holdsState = true → (s'.client c).holdsState = true ∨
      s'.stateGuard = none := by
    rintro pc rfl h
    exact Or.inl h
  cases h with
  | silent hc hs => exact move (Function.update_self ..) (hs.holdsState (hc ▸ hpc))
  | unlockState => exact Or.inr rfl
  | cancelTimer _ hc =>
    rcases hc with ⟨hc, rfl⟩ | ⟨hc, rfl⟩ | ⟨hc, rfl⟩ <;> rw [hc] at hpc
    · cases hpc
    · exact move (Function.update_self ..) hpc
    · exact move (Function.update_self ..) hpc
  | clearTimer _ _ hc =>
    rcases hc with ⟨hc, rfl⟩ | ⟨hc, rfl⟩ <;> rw [hc] at hpc
    · cases hpc
    · exact move (Function.update_self ..) hpc
  | waitTimer _ hc => rcases hc with hc | ⟨hc, -⟩ <;> rw [hc] at hpc <;> exact move (Function.update_self ..) hpc
  | stopNowReturned hc hor => rw [hc] at hpc; rcases hor with rfl | rfl | rfl <;> cases hpc
  | finished hc | join hc | waitThread _ hc => rcases hc with hc | ⟨hc, -⟩ <;> rw [hc] at hpc <;> cases hpc
  | cancelThread _ hc => rcases hc with ⟨hc, -⟩ | ⟨hc, -⟩ <;> rw [hc] at hpc <;> cases hpc
  | push hc | makeTimer hc | setDeadline hc | setInterval hc | pushTask hc | win hc | pushEndTask hc | pushedAll hc
  | lockRunningTask _ hc | cancelRunningTask _ hc | unlockRunningTask _ hc | cancelTask hc => rw [hc] at hpc; cases hpc

/-- The guard of the state stays where it is, or passes from or to the client that moves. -/
theorem ClientStep.stateGuard (h : ClientStep c s s') : s'.stateGuard = s.stateGuard ∨ s'.stateGuard = none ∨
    (s'.stateGuard = some c ∧ (s'.client c).holdsState = true) := by
  cases h with
  | finished => exact Or.inr (Or.inr ⟨rfl, by simp [goto, ClientPC.holdsState]⟩)
  | unlockState => exact Or.inr (Or.inl rfl)
  | _ => exact Or.inl rfl

/-- A client that owns the guard of a worker keeps it, or gives it back. -/
theorem ClientStep.guardsOrFrees (h : ClientStep c s s') (hpc : (s.client c).guards i = true) :
    (s'.client c).guards i = true ∨ (s'.threads i).runningTaskGuard = .free := by
  have move : ∀ {pc}, s'.client c = pc → pc.guards i = true →
      (s'.client c).guards i = true ∨ (s'.threads i).runningTaskGuard = .free := by
    rintro pc rfl h
    exact Or.inl h
  cases h with
  | @silent pc pc' hc hs =>
    rw [hc] at hpc
    cases hs with
    | noTask | onCallCancel => exact move (Function.update_self ..) hpc
    | threadFinished _ hor | timerFinished hor => rcases hor with rfl | rfl <;> cases hpc
    | _ => cases hpc
  | cancelRunningTask _ hc => rw [hc] at hpc; exact move (Function.update_self ..) hpc
  | @unlockRunningTask j raised hj hc =>
    rw [hc] at hpc
    right
    obtain rfl : ⟨j, hj⟩ = i := Fin.ext (by simpa [ClientPC.guards] using hpc)
    simp [goto]
  | finished hc | join hc | waitThread _ hc | waitTimer _ hc =>
    rcases hc with hc | ⟨hc, -⟩ <;> rw [hc] at hpc <;> cases hpc
  | cancelThread _ hc | clearTimer _ _ hc => rcases hc with ⟨hc, -⟩ | ⟨hc, -⟩ <;> rw [hc] at hpc <;> cases hpc
  | cancelTimer _ hc => rcases hc with ⟨hc, -⟩ | ⟨hc, -⟩ | ⟨hc, -⟩ <;> rw [hc] at hpc <;> cases hpc
  | stopNowReturned hc hor => rw [hc] at hpc; rcases hor with rfl | rfl | rfl <;> cases hpc
  | push hc | makeTimer hc | setDeadline hc | setInterval hc | pushTask hc | win hc | pushEndTask hc | pushedAll hc
  | unlockState hc | lockRunningTask _ hc | cancelTask hc => rw [hc] at hpc; cases hpc

/-- A client has just taken the guard of a worker, or owned it before. -/
theorem ClientStep.takes (h : ClientStep c s s') {d : Cl} (hg : (s'.threads i).runningTaskGuard = .client d) :
    (s.threads i).runningTaskGuard = .client d ∨ (d = c ∧ (s'.client c).guards i = true) := by
  have hset : ∀ {j : Fin n} {w : WorkerThread Cl T} {pc : ClientPC T},
      w.runningTaskGuard = (s.threads j).runningTaskGuard →
      (((s.setThread j w).goto c pc).threads i).runningTaskGuard = .client d →
      (s.threads i).runningTaskGuard = .client d := by
    intro j w pc hw hg
    by_cases hij : i = j
    · subst hij
      simpa [goto, hw] using hg
    · simpa [goto, hij] using hg
  cases h with
  | cancelThread hj | waitThread hj => exact Or.inl (hset (by rfl) hg)
  | @lockRunningTask j hj hpc hfree =>
    by_cases hij : i = ⟨j, hj⟩
    · subst hij
      right
      exact ⟨by simpa [goto, eq_comm] using hg, by simp [goto, ClientPC.guards]⟩
    · left
      simpa [goto, hij] using hg
  | @unlockRunningTask j raised hj hpc =>
    left
    by_cases hij : i = ⟨j, hj⟩
    · subst hij
      simp [goto] at hg
    · simpa [goto, hij] using hg
  | _ => exact Or.inl hg

theorem Held.clientStep (hi : Held s) (h : ClientStep c s s') : Held s' := by
  refine ⟨fun d hd => ?_, fun i hg => ?_, fun d i hg => ?_⟩
  · rcases h.stateGuard with heq | hnone | ⟨hc, hpc⟩
    · have hold := hi.state d (heq ▸ hd)
      by_cases hdc : d = c
      · subst hdc
        exact (h.holdsState hold).elim id fun hnone => by rw [hnone] at hd; cases hd
      · rw [h.others d hdc]
        exact hold
    · rw [hnone] at hd
      cases hd
    · rw [hc, Option.some.injEq] at hd
      exact hd ▸ hpc
  · rw [(h.frame.threads i).1]
    refine hi.worker i ?_
    rcases h.guard i with heq | ⟨-, hnew⟩ | ⟨hheld, -⟩
    · rw [← heq, hg]
    · rw [hg] at hnew
      cases hnew
    · by_contra hne
      rcases h.guardsOrFrees hheld with hkeep | hfree
      · rcases h.guard i with heq | ⟨-, hnew⟩ | ⟨-, hleft⟩
        · exact hne (heq ▸ hg)
        · rw [hg] at hnew
          cases hnew
        · rw [hleft] at hkeep
          cases hkeep
      · rw [hg] at hfree
        cases hfree
  · rcases h.takes hg with hold | ⟨rfl, hnew⟩
    · by_cases hdc : d = c
      · subst hdc
        exact (h.guardsOrFrees (hi.client d i hold)).elim id fun hfree => by rw [hg] at hfree; cases hfree
      · rw [h.others d hdc]
        exact hi.client d i hold
    · exact hnew

omit [DecidableEq Cl] in
/-- A worker that owns its guard after a step is in a section under it. -/
theorem WorkerStep.guardsOfTaken (h : WorkerStep isEndTask i e s s') (hg : (s'.threads i).runningTaskGuard = .worker)
    (hi : ∀ i, (s.threads i).runningTaskGuard = .worker → (s.threads i).pc.guards = true) :
    (s'.threads i).pc.guards = true := by
  rcases h.guard with ⟨heq, hsame⟩ | ⟨hfree, hnew⟩ | ⟨-, hleft, -⟩
  · rw [hsame]
    exact hi i (heq ▸ hg)
  · cases h with
    | thread h =>
      simp only [setWorld_threads_self] at hnew ⊢
      cases h with
      | lock => rfl
      | unlock => cases hnew
      | pop | block => rfl
      | _ => exact absurd (hfree.symm.trans hnew) (by simp)
    | count | notLast | last =>
      simp only [setThread, Function.update_self, WorkerThread.goto] at hnew
      exact absurd (hfree.symm.trans hnew) (by simp)
  · rw [hleft] at hg
    cases hg

omit [DecidableEq Cl] in
theorem Held.workerStep (hi : Held s) (h : WorkerStep isEndTask i e s s') : Held s' := by
  have hclient := h.rest.2.1
  have hstate : s'.stateGuard = s.stateGuard := by cases h <;> rfl
  refine ⟨fun d hd => ?_, fun j hg => ?_, fun d j hg => ?_⟩
  · rw [hclient]
    exact hi.state d (hstate ▸ hd)
  · by_cases hji : j = i
    · subst hji
      exact h.guardsOfTaken hg hi.worker
    · rw [h.others j hji] at hg ⊢
      exact hi.worker j hg
  · rw [hclient]
    refine hi.client d j ?_
    by_cases hji : j = i
    · subst hji
      rcases h.guard with ⟨heq, -⟩ | ⟨-, hnew⟩ | ⟨-, hfree, -⟩
      · exact heq ▸ hg
      · rw [hg] at hnew
        cases hnew
      · rw [hg] at hfree
        cases hfree
    · exact h.others j hji ▸ hg

omit [DecidableEq Cl] [DecidableEq T] in
/-- The guards, and those who hold them, stay where they are. -/
theorem Held.frame (hi : Held s) (hs : s'.stateGuard = s.stateGuard)
    (hw : ∀ i, (s'.threads i).runningTaskGuard = (s.threads i).runningTaskGuard ∧
      (s'.threads i).pc = (s.threads i).pc)
    (hc : ∀ c, s'.client c = s.client c ∨ s.client c = .idle) : Held s' := by
  have hidle : ∀ c, (∃ i : Fin n, (s.client c).guards i = true) ∨ (s.client c).holdsState = true →
      s'.client c = s.client c := by
    intro c h
    refine (hc c).resolve_right fun hidle => ?_
    rw [hidle] at h
    rcases h with ⟨_, h⟩ | h <;> cases h
  refine ⟨fun d hd => ?_, fun i hg => ?_, fun d i hg => ?_⟩
  · have := hi.state d (hs ▸ hd)
    rw [hidle d (Or.inr this)]
    exact this
  · rw [(hw i).1] at hg
    rw [(hw i).2]
    exact hi.worker i hg
  · rw [(hw i).1] at hg
    have := hi.client d i hg
    rw [hidle d (Or.inl ⟨i, this⟩)]
    exact this

omit [DecidableEq Cl] in
theorem Held.timerStep (hi : Held s) (h : TimerStep s s') : Held s' :=
  hi.frame (by cases h <;> rfl) (fun i => ⟨by cases h <;> rfl, (h.frame.threads i).1⟩) fun c =>
  Or.inl (by rw [h.client])

theorem Held.wakeStep (hi : Held s) (w : Wake n Cl T) : Held (s.wakeStep w) := by
  refine hi.frame (by cases w <;> rfl) (fun i => ⟨?_, ((wakeStep_frame w).threads i).1⟩) fun c =>
    Or.inl (by cases w <;> rfl)
  cases w with
  | thread j c =>
    by_cases hij : i = j
    · subst hij
      simp [FixedThreadPool.wakeStep]
    · simp [FixedThreadPool.wakeStep, hij]
  | _ => rfl

theorem Reachable.held {ok : FixedThreadPool n Cl T → Action n Cl T → Prop}
    (h : (system n Cl isEndTask).Reachable ok s) : Held s := by
  refine h.induct (I := Held) ?_ fun s a s' hr _ hs hi => ?_
  · exact ⟨by simp [system, new], by simp [system, new, WorkerThread.absent], by
        simp [system, new, WorkerThread.absent]⟩
  · cases step_cases hs with
    | @start k hk hc =>
      refine ⟨hi.state, fun i hg => ?_, fun c i hg => ?_⟩
      · by_cases hik : i = ⟨k, hk⟩
        · subst hik
          simp at hg
        · simp only [setThread_threads_of_ne _ hik] at hg ⊢
          exact hi.worker i hg
      · by_cases hik : i = ⟨k, hk⟩
        · subst hik
          simp at hg
        · simp only [setThread_threads_of_ne _ hik] at hg
          exact hi.client c i hg
    | started | constructed => exact ⟨hi.state, hi.worker, hi.client⟩
    | @call c m hctor hidle =>
      refine hi.frame rfl (fun _ => ⟨rfl, rfl⟩) fun d => ?_
      by_cases hdc : d = c
      · exact Or.inr (hdc ▸ hidle)
      · exact Or.inl (by simp [goto, hdc])
    | client hidle hs => exact hi.clientStep hs
    | worker hs => exact hi.workerStep hs
    | timer htm hs => exact hi.timerStep hs
    | wake w => exact hi.wakeStep w

end Held

/-! ## The timer and its clients -/

section Waits

/-- The worker, the timer and the timer task that a call works on are there, and `CancelAsync` does not wait. -/
def PlacedAt (s : FixedThreadPool n Cl T) : ClientPC T → Prop
  | .submit id _ | .getDeadline id _ _ | .setDeadline id _ _ | .setInterval id _ | .pushTask id =>
    s.timer.isSome = true ∧ Timer.HasTask s.timerTasks id
  | .timerCancelAsync _ | .timerClear _ | .stopTimerAsync _ | .clearTimer _ | .cancelTimer _ | .waitTimer _
  | .blockedTimer _ => s.timer.isSome = true
  | .cancelRunningTask j | .onCallCancel j | .unlockRunningTask j _ | .cancelThread j | .waitThread j
  | .blockedThread j => j < n
  | .cancelTask _ async p => async = true → p ≠ .wait ∧ p ≠ .blocked
  | _ => True

/-- A client has asked the timer thread to cancel. -/
def ClientPC.asksTimer : ClientPC T → Bool
  | .timerClear _ | .clearTimer _ | .cancelTimer _ | .waitTimer _ | .blockedTimer _ => true
  | _ => false

/-- A client is about to clear the queue of the timer, which wakes its thread. -/
def ClientPC.clears : ClientPC T → Bool
  | .timerClear _ | .clearTimer _ => true
  | _ => false

/-- Every call is at what is there; the timer thread can go on, or sleeps on an empty queue; whoever waits for its end
has asked for it; and if it sleeps then somebody is about to wake it. -/
structure Waits (s : FixedThreadPool n Cl T) : Prop where
  placed : ∀ c, s.PlacedAt (s.client c)
  timer : ∀ tm, s.timer = some tm → Timer.Live ⟨tm, s.timerTasks⟩
  asks : ∀ tm, s.timer = some tm → ∀ c, (s.client c).asksTimer = true → tm.thread.isRequestCancel = true
  woken : ∀ tm, s.timer = some tm → tm.pc = .wait → tm.waiting = true → tm.thread.isRequestCancel = true →
    ∃ c, (s.client c).clears = true

variable {s s' : FixedThreadPool n Cl T} {c : Cl} {i : Fin n} {e : Exit}

theorem PlacedAt.mono {pc : ClientPC T} (h : s.PlacedAt pc) (ht : s.timer.isSome = true → s'.timer.isSome = true)
    (hts : Timer.SameTasks s.timerTasks s'.timerTasks) : s'.PlacedAt pc := by
  cases pc with
  | submit | getDeadline | setDeadline | setInterval | pushTask => exact ⟨ht h.1, hts.hasTask h.2⟩
  | timerCancelAsync | timerClear | stopTimerAsync | clearTimer | cancelTimer | waitTimer | blockedTimer => exact ht h
  | _ => exact h

/-- Whoever has asked the timer thread to cancel has one. -/
theorem PlacedAt.timer_of_asks {pc : ClientPC T} (h : s.PlacedAt pc) (hpc : pc.asksTimer = true) :
    s.timer.isSome = true := by
  cases pc with
  | timerClear | clearTimer | cancelTimer | waitTimer | blockedTimer => exact h
  | _ => cases hpc

theorem Silent.placed {pc pc' : ClientPC T} (h : Silent s pc pc') (hp : s.PlacedAt pc) : s.PlacedAt pc' := by
  cases h with
  | @lost k => cases k <;> trivial
  | submitted | putOnce | noTask | onCallCancel => exact hp
  | timerStarted ht | stopTimer ht => exact ht
  | _ => trivial

theorem Silent.asksTimer {pc pc' : ClientPC T} (h : Silent s pc pc') : pc'.asksTimer = false := by
  cases h with
  | @lost k => cases k <;> rfl
  | _ => rfl

theorem Silent.clears {pc pc' : ClientPC T} (h : Silent s pc pc') : pc.clears = false := by
  cases h with
  | threadFinished _ hor | timerFinished hor => rcases hor with rfl | rfl <;> rfl
  | _ => rfl

variable [DecidableEq Cl] [DecidableEq T]

/-- A step of a call leaves the timer, and the timer tasks. -/
theorem ClientStep.timerStays (h : ClientStep c s s') (ht : s.timer.isSome = true) : s'.timer.isSome = true := by
  cases h with
  | makeTimer | pushTask | cancelTimer | clearTimer | waitTimer => rfl
  | _ => exact ht

theorem ClientStep.placed (h : ClientStep c s s') (hp : s.PlacedAt (s.client c)) : s'.PlacedAt (s'.client c) := by
  have move : ∀ {pc}, s'.client c = pc → s.PlacedAt pc → s'.PlacedAt (s'.client c) := by
    rintro pc rfl hpc
    exact hpc.mono h.timerStays h.keeps.timerTasks
  have none : ∀ {pc}, s'.client c = pc → s'.PlacedAt pc → s'.PlacedAt (s'.client c) := by
    rintro pc rfl hpc
    exact hpc
  cases h with
  | silent hc hs => rw [hc] at hp; exact move (Function.update_self ..) (hs.placed hp)
  | makeTimer hc => exact none (Function.update_self ..) ⟨rfl, ⟨_, List.getElem?_concat_length⟩⟩
  | setDeadline hc _ hor =>
    rw [hc] at hp
    rcases hor with rfl | ⟨_, rfl⟩ <;> exact move (Function.update_self ..) hp
  | setInterval hc => rw [hc] at hp; exact move (Function.update_self ..) hp
  | @pushedAll k => cases k <;> exact none (Function.update_self ..) trivial
  | cancelThread hj hor =>
    rcases hor with ⟨-, rfl⟩ | ⟨-, rfl⟩
    · exact none (Function.update_self ..) trivial
    · exact none (Function.update_self ..) hj
  | lockRunningTask hj | cancelRunningTask hj | waitThread hj => exact none (Function.update_self ..) hj
  | @unlockRunningTask j raised hj =>
    cases raised
    · exact none (Function.update_self ..) hj
    · exact none (Function.update_self ..) trivial
  | cancelTimer htm hor =>
    rcases hor with ⟨-, rfl⟩ | ⟨-, rfl⟩ | ⟨-, rfl⟩ <;> exact none (Function.update_self ..) rfl
  | clearTimer htm _ hor =>
    rcases hor with ⟨-, rfl⟩ | ⟨-, rfl⟩
    · exact none (Function.update_self ..) trivial
    · exact none (Function.update_self ..) rfl
  | waitTimer => exact none (Function.update_self ..) rfl
  | @cancelTask t async p e b p' hc hb =>
    rw [hc] at hp
    refine none (Function.update_self ..) fun hasync => ?_
    rcases TaskBase.cancel_cases hb with ⟨-, -, rfl⟩ | ⟨-, -, rfl⟩ | ⟨-, -, rfl⟩ | ⟨hor, -⟩
    · simp
    · simp [hasync]
    · simp
    · rcases hor with hor | ⟨hor, -⟩
      · exact absurd hor (hp hasync).1
      · exact absurd hor (hp hasync).2
  | _ => exact none (Function.update_self ..) trivial

/-- What a client does to the timer. -/
inductive TimerMove (c : Cl) (s s' : FixedThreadPool n Cl T) (tm : Timer Cl ThreadPoolTimerTask.PC) :
    Timer Cl ThreadPoolTimerTask.PC → Prop
  | same : (s.client c).clears = false → ((s'.client c).asksTimer = true → (s.client c).asksTimer = true) →
      TimerMove c s s' tm tm
  | setQueue {queue} : tm.locked = false → (∀ id ∈ queue, id ∈ tm.queue ∨ Timer.HasTask s.timerTasks id) →
      ((s'.client c).asksTimer = true → (s.client c).asksTimer = true) →
      TimerMove c s s' tm { tm with queue, waiting := false }
  | cancelAsync : (s.client c).clears = false → (s'.client c).clears = true ∨ (s.client c).asksTimer = true →
      TimerMove c s s' tm { tm with thread := tm.thread.cancelAsync }
  | await : (s.client c).asksTimer = true → (s.client c).clears = false →
      TimerMove c s s' tm { tm with thread := (tm.thread.awaitFinished c).1 }

/-- A client makes the timer, or moves the one there is. -/
theorem ClientStep.timerMove (h : ClientStep c s s') {tm' : Timer Cl ThreadPoolTimerTask.PC}
    (htm' : s'.timer = some tm') :
    (s.timer = none ∧ tm' = .new ∧ (s'.client c).asksTimer = false) ∨
      ∃ tm, s.timer = some tm ∧ TimerMove c s s' tm tm' := by
  have same : ∀ {pc pc'}, s.client c = pc → s'.client c = pc' → pc.clears = false → pc'.asksTimer = false →
      s'.timer = s.timer → (s.timer = none ∧ tm' = .new ∧ (s'.client c).asksTimer = false) ∨
        ∃ tm, s.timer = some tm ∧ TimerMove c s s' tm tm' := by
    rintro pc pc' rfl rfl h1 h2 heq
    exact Or.inr ⟨tm', heq ▸ htm', .same h1 fun h => by rw [h2] at h; cases h⟩
  cases h with
  | silent hc hs => exact same hc (Function.update_self ..) hs.clears hs.asksTimer rfl
  | makeTimer hc =>
    cases htm : s.timer with
    | none =>
      simp only [htm, Option.getD_none, Option.some.injEq] at htm'
      exact Or.inl ⟨rfl, htm'.symm, by simp [goto, ClientPC.asksTimer]⟩
    | some tm =>
      simp only [htm, Option.getD_some, Option.some.injEq] at htm'
      subst htm'
      exact Or.inr ⟨tm, rfl, .same (by rw [hc]; rfl) (by simp [goto, ClientPC.asksTimer])⟩
  | @pushTask id task tm hc ht htm hl =>
    cases htm'
    refine Or.inr ⟨tm, htm, .setQueue hl (fun j hj => ?_) (by simp [goto, ClientPC.asksTimer])⟩
    rcases List.mem_append.mp hj with hj | hj
    · exact Or.inl hj
    · rw [List.mem_singleton.mp hj]
      exact Or.inr ⟨task, ht⟩
  | @cancelTimer k pc' tm htm hor =>
    cases htm'
    rcases hor with ⟨hc, rfl⟩ | ⟨hc, rfl⟩ | ⟨hc, rfl⟩
    · exact Or.inr ⟨tm, htm, .cancelAsync (by rw [hc]; rfl) (Or.inl (by simp [goto, ClientPC.clears]))⟩
    · exact Or.inr ⟨tm, htm, .cancelAsync (by rw [hc]; rfl) (Or.inl (by simp [goto, ClientPC.clears]))⟩
    · exact Or.inr ⟨tm, htm, .cancelAsync (by rw [hc]; rfl) (Or.inr (by rw [hc]; rfl))⟩
  | @clearTimer k pc' tm htm hl hor =>
    cases htm'
    have hasks : (s.client c).asksTimer = true := by rcases hor with ⟨hc, -⟩ | ⟨hc, -⟩ <;> rw [hc] <;> rfl
    exact Or.inr ⟨tm, htm, .setQueue hl (fun j hj => absurd hj List.not_mem_nil) fun _ => hasks⟩
  | @waitTimer k tm htm hor =>
    cases htm'
    rcases hor with hc | ⟨hc, -⟩ <;> exact Or.inr ⟨tm, htm, .await (by rw [hc]; rfl) (by rw [hc]; rfl)⟩
  | setDeadline hc _ hor => rcases hor with rfl | ⟨_, rfl⟩ <;> exact same hc (Function.update_self ..) rfl rfl rfl
  | finished hor | join hor | waitThread _ hor =>
    rcases hor with hc | ⟨hc, -⟩ <;> exact same hc (Function.update_self ..) rfl rfl rfl
  | cancelThread _ hor =>
    rcases hor with ⟨hc, rfl⟩ | ⟨hc, rfl⟩ <;> exact same hc (Function.update_self ..) rfl rfl rfl
  | stopNowReturned hc hor => rcases hor with rfl | rfl | rfl <;> exact same hc (Function.update_self ..) rfl rfl rfl
  | @pushedAll k j hc => cases k <;> exact same hc (Function.update_self ..) rfl rfl rfl
  | @unlockRunningTask j raised _ hc => cases raised <;> exact same hc (Function.update_self ..) rfl rfl rfl
  | push hc | setInterval hc | win hc | pushEndTask hc | unlockState hc | lockRunningTask _ hc | cancelRunningTask _ hc
  | cancelTask hc => exact same hc (Function.update_self ..) rfl rfl rfl

theorem Waits.clientStep (hi : Waits s) (h : ClientStep c s s') : Waits s' := by
  have hts := h.keeps.timerTasks
  -- whoever else asks or clears goes on doing so
  have other : ∀ {d}, d ≠ c → s'.client d = s.client d := fun hd => h.others _ hd
  refine ⟨fun d => ?_, fun tm' htm' => ?_, fun tm' htm' d hd => ?_, fun tm' htm' hpc hw hf => ?_⟩
  · by_cases hdc : d = c
    · subst hdc
      exact h.placed (hi.placed d)
    · rw [other hdc]
      exact (hi.placed d).mono h.timerStays hts
  · rcases h.timerMove htm' with ⟨-, rfl, -⟩ | ⟨tm, htm, hm⟩
    · exact .new
    · have hlive := hi.timer tm htm
      refine Timer.Live.tasks (w := ⟨tm', s.timerTasks⟩) ?_ hts
      cases hm with
      | same => exact hlive
      | setQueue hl hq => exact hlive.setQueue hl fun j hj => (hq j hj).elim (hlive.queue j) id
      | cancelAsync => exact hlive.thread hlive.heeded.cancelAsync
      | await hc => exact hlive.thread (hlive.heeded.awaitFinished (hi.asks tm htm c hc))
  · rcases h.timerMove htm' with ⟨hnone, -, hc⟩ | ⟨tm, htm, hm⟩
    · by_cases hdc : d = c
      · rw [hdc, hc] at hd
        cases hd
      · have := (hi.placed d).timer_of_asks (other hdc ▸ hd)
        rw [hnone] at this
        cases this
    · have hold : (d = c → (s.client c).asksTimer = true) → tm.thread.isRequestCancel = true := by
        intro hself
        by_cases hdc : d = c
        · exact hi.asks tm htm c (hself hdc)
        · exact hi.asks tm htm d (other hdc ▸ hd)
      cases hm with
      | same _ hc | setQueue _ _ hc => exact hold fun hdc => hc (hdc ▸ hd)
      | cancelAsync => rfl
      | await hc => simpa using hold fun _ => hc
  · rcases h.timerMove htm' with ⟨-, rfl, -⟩ | ⟨tm, htm, hm⟩
    · cases hpc
    · have hold : (s.client c).clears = false → tm.pc = .wait → tm.waiting = true → tm.thread.isRequestCancel = true →
          ∃ d, (s'.client d).clears = true := by
        intro hc hpc hw hf
        obtain ⟨d, hd⟩ := hi.woken tm htm hpc hw hf
        refine ⟨d, ?_⟩
        rwa [other]
        rintro rfl
        rw [hc] at hd
        cases hd
      cases hm with
      | same hc => exact hold hc hpc hw hf
      | setQueue => cases hw
      | cancelAsync hc hor =>
        rcases hor with hnew | hasks
        · exact ⟨c, hnew⟩
        · exact hold hc hpc hw (hi.asks tm htm c hasks)
      | await _ hc => exact hold hc hpc hw (by simpa using hf)

omit [DecidableEq Cl] [DecidableEq T] in
/-- The clients stay where they are, but for one that comes from nowhere, and the timer thread is as it was. -/
theorem Waits.frame (hi : Waits s) (ht : s'.timer = s.timer) (hts : Timer.SameTasks s.timerTasks s'.timerTasks)
    (hp : ∀ c, s'.client c = s.client c ∨ (s.client c).clears = false ∧ s'.PlacedAt (s'.client c) ∧
      (s'.client c).asksTimer = false) : Waits s' := by
  refine ⟨fun c => ?_, fun tm htm => ?_, fun tm htm c hc => ?_, fun tm htm hpc hw hf => ?_⟩
  · rcases hp c with heq | ⟨-, h, -⟩
    · rw [heq]
      exact (hi.placed c).mono (by rw [ht]; exact id) hts
    · exact h
  · exact (hi.timer tm (ht ▸ htm)).tasks hts
  · rcases hp c with heq | ⟨-, -, h⟩
    · exact hi.asks tm (ht ▸ htm) c (heq ▸ hc)
    · rw [h] at hc
      cases hc
  · obtain ⟨c, hc⟩ := hi.woken tm (ht ▸ htm) hpc hw hf
    refine ⟨c, ?_⟩
    rcases hp c with heq | ⟨hnot, -⟩
    · rw [heq]
      exact hc
    · rw [hnot] at hc
      cases hc

omit [DecidableEq Cl] in
theorem Waits.workerStep (hi : Waits s) (h : WorkerStep isEndTask i e s s') : Waits s' := by
  obtain ⟨-, hc, ht, hts, -⟩ := h.rest
  exact hi.frame ht (hts ▸ .refl) fun c => Or.inl (by rw [hc])

omit [DecidableEq Cl] in
/-- What a step of the timer thread does to it. -/
theorem TimerStep.live (h : TimerStep s s') (hi : ∀ tm, s.timer = some tm → Timer.Live ⟨tm, s.timerTasks⟩) :
    ∃ tm tm', s.timer = some tm ∧ s'.timer = some tm' ∧ Timer.Live ⟨tm', s'.timerTasks⟩ ∧
      tm'.thread.isRequestCancel = tm.thread.isRequestCancel ∧
      (tm'.pc = .wait → tm.thread.isRequestCancel = false) := by
  have hts := h.keeps.timerTasks
  cases h with
  | @own tm i w htm hw => exact ⟨tm, w.timer, htm, rfl, (hi tm htm).step hw, hw.flag.1, hw.flag.2⟩
  | @move tm id task d d' htm hpc | @run tm id task p e b p' htm hpc | @cancelAsync tm id task htm hpc
  | @push tm id task b p htm hpc | @caught tm id htm hpc =>
    have hon : tm.pc.task = some id ∧ tm.pc.locked = false := by rw [hpc]; exact ⟨rfl, rfl⟩
    exact ⟨tm, _, htm, rfl, (hi tm htm).goto hon.1 hon.2 rfl rfl hts, rfl, fun h => by cases h⟩
  | @leave tm id task d e b p htm hpc =>
    have hon : tm.pc.task = some id ∧ tm.pc.locked = false := by rw [hpc]; exact ⟨rfl, rfl⟩
    exact ⟨tm, _, htm, rfl, (hi tm htm).goto hon.1 hon.2 rfl rfl hts, rfl, fun h => by cases h⟩

omit [DecidableEq Cl] in
theorem Waits.timerStep (hi : Waits s) (h : TimerStep s s') : Waits s' := by
  obtain ⟨tm, tm', htm, htm', hlive, hflag, hwait⟩ := h.live hi.timer
  have hc := h.client
  refine ⟨fun c => ?_, fun t ht => ?_, fun t ht c hasks => ?_, fun t ht hpc hw hf => ?_⟩
  · rw [hc]
    exact (hi.placed c).mono (fun _ => by rw [htm']; rfl) h.keeps.timerTasks
  · rw [htm', Option.some.injEq] at ht
    exact ht ▸ hlive
  · rw [htm', Option.some.injEq] at ht
    rw [← ht, hflag]
    exact hi.asks tm htm c (hc ▸ hasks)
  · rw [htm', Option.some.injEq] at ht
    rw [← ht, hflag, hwait (ht ▸ hpc)] at hf
    cases hf

theorem Waits.wakeStep (hi : Waits s) (w : Wake n Cl T) : Waits (s.wakeStep w) := by
  have same : ∀ s' : FixedThreadPool n Cl T, s'.timer = s.timer → s'.timerTasks = s.timerTasks →
      s'.client = s.client → Waits s' := fun s' h1 h2 h3 =>
    hi.frame h1 (h2 ▸ .refl) fun c => Or.inl (by rw [h3])
  cases w with
  | timer =>
    refine ⟨fun c => (hi.placed c).mono (by simp [FixedThreadPool.wakeStep]) .refl, fun tm' htm' => ?_,
      fun tm' htm' c hc => ?_, fun tm' htm' hpc hw => ?_⟩
    all_goals obtain ⟨tm, htm, rfl⟩ := Option.map_eq_some_iff.mp htm'
    · exact (hi.timer tm htm).wake
    · exact hi.asks tm htm c hc
    · cases hw
  | timerThread d =>
    refine ⟨fun c => (hi.placed c).mono (by simp [FixedThreadPool.wakeStep]) .refl, fun tm' htm' => ?_,
      fun tm' htm' c hc => ?_, fun tm' htm' hpc hw hf => ?_⟩
    all_goals obtain ⟨tm, htm, rfl⟩ := Option.map_eq_some_iff.mp htm'
    · exact (hi.timer tm htm).thread ((hi.timer tm htm).heeded.wake d)
    · exact hi.asks tm htm c hc
    · exact hi.woken tm htm hpc hw hf
  | _ => exact same _ rfl rfl rfl

theorem Reachable.waits {ok : FixedThreadPool n Cl T → Action n Cl T → Prop}
    (h : (system n Cl isEndTask).Reachable ok s) : Waits s := by
  refine h.induct (I := Waits) ?_ fun s a s' hr _ hs hi => ?_
  · exact ⟨fun _ => trivial, fun tm h => (by cases h), fun tm h => (by cases h), fun tm h => (by cases h)⟩
  · cases step_cases hs with
    | start | started | constructed => exact hi.frame rfl .refl fun _ => Or.inl rfl
    | @call c m hctor hidle =>
      refine hi.frame rfl .refl fun d => ?_
      by_cases hdc : d = c
      · subst hdc
        right
        refine ⟨by rw [hidle]; rfl, ?_, ?_⟩
        all_goals
          rw [show (s.goto d m.start).client d = m.start by simp [goto]]
          cases m <;> simp [Method.start, PlacedAt, ClientPC.asksTimer]
      · exact Or.inl (by simp [goto, hdc])
    | client hidle hs => exact hi.clientStep hs
    | worker hs => exact hi.workerStep hs
    | timer htm hs => exact hi.timerStep hs
    | wake w => exact hi.wakeStep w

end Waits

/-! ## The end of a worker's thread -/

section Heeding

/-- Whoever waits for the end of a worker's thread has asked for it, and nobody is left behind when it comes. -/
def Heeding (s : FixedThreadPool n Cl T) : Prop :=
  ∀ i, (s.threads i).thread.Heeded ((s.threads i).pc.isTerminated = true)

variable [DecidableEq Cl] [DecidableEq T] {s s' : FixedThreadPool n Cl T} {c : Cl} {i : Fin n} {e : Exit}

omit [DecidableEq Cl] [DecidableEq T] in
theorem Heeding.setThread (hi : Heeding s) {w : WorkerThread Cl T} (hw : w.thread.Heeded (w.pc.isTerminated = true)) :
    Heeding (s.setThread i w) := by
  intro j
  by_cases hji : j = i
  · subst hji
    simpa using hw
  · simpa [hji] using hi j

theorem Heeding.clientStep (hi : Heeding s) (hs : Stopping s) (h : ClientStep c s s') : Heeding s' := by
  have set : ∀ {j : Fin n} {w : WorkerThread Cl T} {pc : ClientPC T}, w.thread.Heeded (w.pc.isTerminated = true) →
      Heeding ((s.setThread j w).goto c pc) := fun hw => hi.setThread hw
  cases h with
  | cancelThread hj => exact set (hi ⟨_, hj⟩).cancelAsync
  | lockRunningTask hj | unlockRunningTask hj => exact set (hi ⟨_, hj⟩)
  | @waitThread j hj hor =>
    refine set ((hi ⟨j, hj⟩).awaitFinished (hs.asked c ⟨j, hj⟩ ?_))
    rcases hor with hc | ⟨hc, -⟩ <;> rw [hc] <;> exact hj
  | _ => exact hi

omit [DecidableEq Cl] in
theorem Heeding.workerStep (hi : Heeding s) (h : WorkerStep isEndTask i e s s') : Heeding s' := by
  intro j
  by_cases hji : j = i
  · subst hji
    have hnot := h.present.2.1
    have hold := hi j
    rw [hnot] at hold
    cases h with
    | count | notLast | last =>
      simpa [FixedThreadPool.setThread, WorkerThread.goto, WorkerThread.PC.isTerminated] using hold
    | thread h =>
      rw [setWorld_threads_self]
      cases h with
      | setRunning => exact hold.setRunning (by simp [WorkerThread.PC.isTerminated])
      | notifyFinished => exact hold.notifyFinished rfl
      | _ => exact hold
  · rw [h.others j hji]
    exact hi j

omit [DecidableEq Cl] [DecidableEq T] in
theorem Heeding.of_eq (hi : Heeding s) (h : s'.threads = s.threads) : Heeding s' := fun i => h ▸ hi i

omit [DecidableEq Cl] in
theorem TimerStep.threads (h : TimerStep s s') : s'.threads = s.threads := by cases h <;> rfl

theorem Heeding.wakeStep (hi : Heeding s) (w : Wake n Cl T) : Heeding (s.wakeStep w) := by
  cases w with
  | thread i c => exact hi.setThread ((hi i).wake c)
  | _ => exact hi

theorem Reachable.heeding {ok : FixedThreadPool n Cl T → Action n Cl T → Prop}
    (h : (system n Cl isEndTask).Reachable ok s) : Heeding s := by
  refine h.induct (I := Heeding) ?_ fun s a s' hr _ hs hi => ?_
  · intro i
    simpa [system, new, WorkerThread.absent, WorkerThread.PC.isTerminated] using CancelableThread.Heeded.new
  · cases step_cases hs with
    | @start k hk hc =>
      have := hi.setThread (i := ⟨k, hk⟩) (w := ⟨.new, none, .free, .setRunning⟩)
        (by simpa [WorkerThread.PC.isTerminated] using CancelableThread.Heeded.new)
      exact this
    | started | constructed | call => exact hi
    | client hidle hs => exact hi.clientStep (Reachable.stopping hr) hs
    | worker hs => exact hi.workerStep hs
    | timer htm hs => exact hi.of_eq hs.threads
    | wake w => exact hi.wakeStep w

end Heeding

end FixedThreadPool

end Tpool
