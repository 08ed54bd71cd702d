import Tpool.Concurrency.Fair
import Tpool.Pool.Progress

/-!
# How far each thread of the pool has to go

- `Party`: the workers, the timer thread and the clients; a step of one leaves the others where they are
  (`PoolStep.worker_pc`, `PoolStep.timer_pc`, `PoolStep.client_pc`).
- `rank`: how many steps are left to a worker until it pops again, to a timer thread that was asked to cancel until it
  has ended, and to a call until it returns. A step lowers it, unless it waits again (`WorkerStep.lowers`,
  `TimerStep.lowers`, `clientStep_lowers`).
-/

namespace Tpool

open Concurrency

/-! ## The ranks -/

/-- In `TaskBase::Run`. -/
def TaskBase.RunPC.rank : TaskBase.RunPC → Nat
  | .ret | .raised => 0
  | .notify => 1
  | .onCancel => 2
  | .setFinished | .setCancelled => 3
  | .doRun => 4
  | .setRunning => 5
  | .checkCancellation => 6

/-- In `TaskBase::Cancel`. -/
def TaskBase.CancelPC.rank : TaskBase.CancelPC → Nat
  | .ret | .raised => 0
  | .blocked => 1
  | .wait => 2
  | .onCallCancel => 3
  | .setFlag => 4

namespace TaskBase

variable {Tid : Type*} {b b' : TaskBase Tid}

theorem run_lowers {p p' : RunPC} {e : Exit} (h : b.run p e = some (b', p')) : p'.rank < p.rank := by
  rcases run_cases h with ⟨rfl, -, rfl⟩ | ⟨rfl, -, rfl⟩ | ⟨rfl, -, rfl⟩ | ⟨rfl, -, rfl⟩ |
    ⟨-, ⟨rfl, rfl⟩ | ⟨rfl, rfl | ⟨rfl, -⟩ | rfl⟩ | ⟨rfl, rfl | rfl⟩⟩
  case inr.inr.inr.inr.inl => split <;> decide
  all_goals decide

theorem cancel_lowers [DecidableEq Tid] {async : Bool} {t : Tid} {p p' : CancelPC} {e : Exit}
    (h : b.cancel async t p e = some (b', p')) : p'.rank < p.rank ∨ p = .blocked := by
  rcases cancel_cases h with ⟨rfl, -, rfl⟩ | ⟨rfl, -, rfl⟩ | ⟨rfl, -, rfl⟩ | ⟨rfl | ⟨rfl, -⟩, hb⟩
  · exact Or.inl (by decide)
  · exact Or.inl (by cases async <;> decide)
  · exact Or.inl (by decide)
  · obtain rfl : p' = (b.awaitStop t).2 := congrArg Prod.snd hb
    left
    unfold awaitStop
    split
    · exact Nat.zero_lt_succ 1
    · exact Nat.lt_succ_self 1
  · exact Or.inr rfl

end TaskBase

/-- Of a worker, until it pops, and behind its loop. -/
def WorkerThread.PC.rank {T : Type*} : WorkerThread.PC T → Nat
  | .absent | .terminated _ => 0
  | .notifyFinished _ => 1
  | .notifyStop _ _ => 2
  | .finishAction _ => 3
  | .pop | .blocked => 4
  | .lock => 5
  | .check => 6
  | .run _ _ p => 7 + p.rank
  | .dispatch _ => 14
  | .recheck _ => 15
  | .unlock _ => 16
  | .checkCancellation => 17
  | .setRunning => 18

/-- In `ThreadPoolTimerTask::DoRun`. -/
def ThreadPoolTimerTask.PC.rank : ThreadPoolTimerTask.PC → Nat
  | .checkCancellation | .push => 0
  | .cancelAsync => 1
  | .addTask => 2
  | .run p => 2 + p.rank
  | .isRequestCancel => 9

namespace Timer

/-- Of the timer thread, until it has ended; one that was not asked to cancel goes back from `check` to `getMin`. -/
def PC.rank : PC ThreadPoolTimerTask.PC → Nat
  | .terminated => 0
  | .notifyFinished => 1
  | .leave => 2
  | .check | .checkEmpty => 3
  | .isEmpty => 4
  | .lock | .wait => 5
  | .run _ p => if p.rank < 5 then 6 + p.rank else 35 + p.rank
  | .doRun _ d => 11 + d.rank
  | .unlock _ => 42
  | .timedWait => 43
  | .fire _ _ _ => 44
  | .isRequestCancel _ _ _ => 45
  | .isCancelled _ _ _ => 46
  | .getMin => 47
  | .checkCancellation => 48
  | .setRunning => 49

/-- Of the timer thread, until it gives `m_queue_guard` back. -/
def PC.toUnlock {D : Type*} : PC D → Nat
  | .isEmpty => 6
  | .check | .checkEmpty => 5
  | .getMin => 4
  | .isCancelled _ _ _ => 3
  | .isRequestCancel _ _ _ => 2
  | .fire _ _ _ => 1
  | _ => 0

variable {Cl T : Type*} {i : Input} {w w' : World Cl T ThreadPoolTimerTask.PC}

/-- A step of a timer thread that was asked to cancel lowers its rank. -/
theorem Step.lowers (h : Step .isRequestCancel i w w') (hf : w.timer.thread.isRequestCancel = true) :
    w'.timer.pc.rank < w.timer.pc.rank := by
  cases h with
  | move hpc hm =>
    rw [hpc]
    cases hm with
    | enter hn | check hn => rw [hf] at hn; cases hn
    | _ => simp [goto, PC.rank, TaskBase.RunPC.rank]
  | wait _ hn => rw [hf] at hn; cases hn
  | pop hpc hp =>
    rw [hpc]
    cases hp <;> simp [PC.rank]
  | @unlock fired hpc =>
    rw [hpc]
    cases fired <;> simp [PC.rank, TaskBase.RunPC.rank]
  | @run id p task b p' hpc ht hr =>
    have hlt := TaskBase.run_lowers hr
    simp only [hpc, goto]
    split
    · rename_i hp
      subst hp
      have hp : ¬ p.rank < 5 := by
        have : 4 < p.rank := hlt
        omega
      simp only [PC.rank, if_neg hp, ThreadPoolTimerTask.PC.rank]
      omega
    · simp only [PC.rank]
      split <;> split <;> omega
  | setRunning hpc | lock hpc | wake hpc | again hpc | sleep hpc | awake hpc | leave hpc | notifyFinished hpc =>
    simp [hpc, PC.rank]

/-- A step under `m_queue_guard` gives this back, or comes closer to that. -/
theorem Step.lowersLocked (h : Step .isRequestCancel i w w') (hl : w.timer.pc.locked = true)
    (hl' : w'.timer.pc.locked = true) : w'.timer.pc.toUnlock < w.timer.pc.toUnlock := by
  cases h with
  | move hpc hm =>
    rw [hpc] at hl ⊢
    cases hm with
    | enter | cancelled | hasRun | hasRaised => cases hl
    | _ => simp [goto, PC.toUnlock]
  | pop hpc hp =>
    rw [hpc]
    cases hp <;> simp [PC.toUnlock]
  | @unlock fired hpc => cases fired <;> cases hl'
  | run hpc => rw [hpc] at hl; cases hl
  | again hpc => simp [hpc, PC.toUnlock]
  | setRunning hpc | lock hpc | wake hpc | awake hpc | notifyFinished hpc => rw [hpc] at hl; cases hl
  | wait | sleep | leave => cases hl'

end Timer

namespace FixedThreadPool

variable {n : Nat} {Cl T : Type*}

/-- Of a call, until it returns, in a pool of `n` workers. -/
def ClientPC.rank (n : Nat) : ClientPC T → Nat
  | .idle => 0
  | .push _ => 1
  | .addTask _ => 2
  | .pushTask _ => 1
  | .setInterval _ _ => 2
  | .setDeadline _ _ _ => 3
  | .getDeadline _ _ _ => 4
  | .submit _ _ => 5
  | .makeTimer _ _ => 6
  | .addTimerTask _ _ => 7
  | .unlockState => 1
  | .blockedTimer _ => 2
  | .waitTimer _ => 3
  | .cancelTimer _ => 4
  | .clearTimer _ => 5
  | .stopTimerAsync _ => 6
  | .isTimerStarted _ => 7
  | .blockedFinished => 8
  | .waitFinished => 9
  | .blockedThread j => 2 + 7 * (n - j)
  | .waitThread j => 3 + 7 * (n - j)
  | .cancelThread j => 4 + 7 * (n - j)
  | .unlockRunningTask j _ => 5 + 7 * (n - j)
  | .onCallCancel j => 6 + 7 * (n - j)
  | .cancelRunningTask j => 7 + 7 * (n - j)
  | .lockRunningTask j => 8 + 7 * (n - j)
  | .cancelAsync j => 9 + 7 * n + (n - j)
  | .pushEndTask _ j => 10 + 8 * n + (n - j)
  | .timerClear _ => 11 + 9 * n
  | .timerCancelAsync _ => 12 + 9 * n
  | .timerStarted _ => 13 + 9 * n
  | .compareAndSet _ => 14 + 9 * n
  | .cancelTask _ _ p => 1 + p.rank

/-- The call waits for the end of something. -/
def ClientPC.isBlocked : ClientPC T → Bool
  | .blockedThread _ | .blockedFinished | .blockedTimer _ | .cancelTask _ _ .blocked => true
  | _ => false

/-- The call waits for the end of what has not come to it. -/
def Awaits (s : FixedThreadPool n Cl T) : ClientPC T → Prop
  | .blockedThread j => ∃ h : j < n, (s.threads ⟨j, h⟩).thread.state ≠ .finished
  | .blockedFinished => s.state ≠ .finished
  | .blockedTimer _ => ∃ tm, s.timer = some tm ∧ tm.thread.state ≠ .finished
  | .cancelTask _ _ .blocked => True
  | _ => False

variable {isEndTask : T → Bool} {s s' : FixedThreadPool n Cl T} {c : Cl} {i : Fin n} {e : Exit}

/-! ## The workers -/

section Worker

/-- Who is about to pop may take an `EndTask`. -/
theorem mayTake_of_rank {w : WorkerThread Cl T} (h : w.pc.rank = 4) : w.mayTake = true := by
  unfold WorkerThread.mayTake
  cases hpc : w.pc with
  | finishAction | notifyStop | notifyFinished | terminated | unlock | recheck | dispatch => rw [hpc] at h; cases h
  | _ => rfl

variable [DecidableEq T]

/-- A step of a worker lowers its rank, or pops, or blocks. -/
theorem WorkerStep.lowers (h : WorkerStep isEndTask i e s s') :
    (s'.taskQueue.pops = s.taskQueue.pops ∧ (s'.threads i).pc.rank < (s.threads i).pc.rank) ∨
    (s'.taskQueue.pops = s.taskQueue.pops ++ [i] ∧ (s.threads i).pc.rank = 4 ∧ (s'.threads i).pc.rank = 16) ∨
    (s'.taskQueue.pops = s.taskQueue.pops ∧ s'.Blocked i ∧ s.taskQueue.elems = []) := by
  cases h with
  | count hpc | notLast hpc | last hpc =>
    exact Or.inl ⟨rfl, by simp [setThread, WorkerThread.goto, hpc, WorkerThread.PC.rank]⟩
  | thread h =>
    have hpc : (s.threads i).pc = (s.world i).worker.pc := rfl
    simp only [setWorld_threads_self, setWorld_taskQueue, hpc]
    cases h with
    | pop hpc hpop =>
      obtain ⟨-, -, -, hpops, -⟩ := TaskQueue.pop_spec hpop
      exact Or.inr (Or.inl ⟨hpops, by rcases hpc with hpc | ⟨hpc, -⟩ <;> rw [hpc] <;> rfl, rfl⟩)
    | block he hpc =>
      refine Or.inr (Or.inr ⟨rfl, ⟨?_, ?_⟩, he⟩)
      · simp [WorkerThread.goto]
      · simp [TaskQueue.block]
    | cancelled hpc =>
      refine Or.inl ⟨rfl, ?_⟩
      rcases hpc with hpc | hpc <;> rw [hpc] <;> simp [WorkerThread.goto, WorkerThread.PC.rank]
    | @run k t p b p' hpc hr =>
      have := TaskBase.run_lowers hr
      exact Or.inl ⟨rfl, by rw [hpc]; simpa [WorkerThread.goto, WorkerThread.PC.rank] using this⟩
    | setRunning hpc | enter hpc | check hpc | lock hpc | unlock hpc | recheck hpc | dropped hpc | null hpc | ended hpc
    | start hpc | stop hpc | escape hpc | notifyFinished hpc =>
      exact Or.inl ⟨rfl, by rw [hpc]; simp [WorkerThread.goto, WorkerThread.PC.rank, TaskBase.RunPC.rank]⟩

end Worker

/-! ## The timer thread -/

section Timer

variable [DecidableEq T]

/-- A step of the timer thread lowers its rank, if it was asked to cancel; and under `m_queue_guard` it gives this back,
or comes closer to that. -/
theorem TimerStep.lowers (h : TimerStep s s') : ∃ tm tm', s.timer = some tm ∧ s'.timer = some tm' ∧
    (tm.thread.isRequestCancel = true → tm'.pc.rank < tm.pc.rank) ∧
    (tm.pc.locked = true → tm'.pc.locked = true → tm'.pc.toUnlock < tm.pc.toUnlock) := by
  -- outside the lock only the rank matters
  have doRun : ∀ {tm tm' : Timer Cl ThreadPoolTimerTask.PC} {id d}, s.timer = some tm → s'.timer = some tm' →
      tm.pc = .doRun id d → tm'.pc.rank < (Timer.PC.doRun id d).rank → ∃ tm tm', s.timer = some tm ∧
      s'.timer = some tm' ∧
        (tm.thread.isRequestCancel = true → tm'.pc.rank < tm.pc.rank) ∧
        (tm.pc.locked = true → tm'.pc.locked = true → tm'.pc.toUnlock < tm.pc.toUnlock) := by
    intro tm tm' id d htm htm' hpc hlt
    exact ⟨tm, tm', htm, htm', fun _ => hpc ▸ hlt, fun hl => by rw [hpc] at hl; cases hl⟩
  have left : ∀ {p : TaskBase.RunPC} {id j : Nat} {d : ThreadPoolTimerTask.PC}, p.rank < TaskBase.RunPC.doRun.rank →
      (Timer.PC.run id p).rank < (Timer.PC.doRun j d).rank := by
    intro p id j d hp
    have hp : p.rank < 4 := hp
    simp only [Timer.PC.rank]
    split <;> omega
  cases h with
  | own htm hw => exact ⟨_, _, htm, rfl, hw.lowers, hw.lowersLocked⟩
  | move htm hpc ht hm =>
    refine doRun htm rfl hpc ?_
    cases hm <;> simp [Timer.goto, Timer.PC.rank, ThreadPoolTimerTask.PC.rank, TaskBase.RunPC.rank]
  | run htm hpc ht hr =>
    refine doRun htm rfl hpc ?_
    simpa [Timer.goto, Timer.PC.rank, ThreadPoolTimerTask.PC.rank] using TaskBase.run_lowers hr
  | caught htm hpc => exact doRun htm rfl hpc (left (by decide))
  | cancelAsync htm hpc ht =>
    refine doRun htm rfl hpc ?_
    simp [Timer.goto, Timer.PC.rank, ThreadPoolTimerTask.PC.rank]
  | leave htm hpc _ ht hr | push htm hpc ht hr => exact doRun htm rfl hpc (left (TaskBase.run_lowers hr))

end Timer

/-! ## The clients -/

section Client

variable [DecidableEq Cl] [DecidableEq T]

omit [DecidableEq T] in
theorem rank_afterAsync (k : Stopper) (j : Nat) :
    (k.afterAsync : ClientPC T).rank n < (ClientPC.pushEndTask k j : ClientPC T).rank n := by
  cases k <;> simp only [Stopper.afterAsync, ClientPC.rank] <;> omega

omit [DecidableEq Cl] [DecidableEq T] in
theorem Silent.lowers {pc pc' : ClientPC T} (h : Silent s pc pc') : pc'.rank n < pc.rank n := by
  cases h with
  | @lost k =>
    refine (rank_afterAsync k n).trans ?_
    simp only [ClientPC.rank]
    omega
  | @threadFinished j hj pc hpc => rcases hpc with rfl | rfl <;> simp only [ClientPC.rank] <;> omega
  | timerFinished hpc => rcases hpc with rfl | rfl <;> simp only [ClientPC.rank] <;> omega
  | _ => simp only [ClientPC.rank]; omega

/-- A step of a call lowers its rank, unless it waits already. -/
theorem ClientStep.lowers (h : ClientStep c s s') :
    (s'.client c).rank n < (s.client c).rank n ∨ (s.client c).isBlocked = true := by
  have move : ∀ {pc pc'}, s.client c = pc → s'.client c = pc' → pc'.rank n < pc.rank n →
      (s'.client c).rank n < (s.client c).rank n ∨ (s.client c).isBlocked = true := by
    rintro pc pc' rfl rfl h
    exact Or.inl h
  cases h with
  | silent hc hs => exact move hc (Function.update_self ..) hs.lowers
  | setDeadline hc _ hor =>
    rcases hor with rfl | ⟨_, rfl⟩ <;> exact move hc (Function.update_self ..) (by simp [ClientPC.rank])
  | pushedAll hc => exact move hc (Function.update_self ..) (rank_afterAsync ..)
  | finished hor | join hor =>
    rcases hor with hc | ⟨hc, -⟩
    · exact move hc (Function.update_self ..) (by simp [ClientPC.rank])
    · exact Or.inr (by rw [hc]; rfl)
  | waitThread _ hor | waitTimer _ hor =>
    rcases hor with hc | ⟨hc, -⟩
    · exact move hc (Function.update_self ..) (by simp [ClientPC.rank])
    · exact Or.inr (by rw [hc]; rfl)
  | cancelThread _ hor =>
    rcases hor with ⟨hc, rfl⟩ | ⟨hc, rfl⟩ <;>
      exact move hc (Function.update_self ..) (by simp only [ClientPC.rank]; omega)
  | unlockRunningTask _ hc =>
    refine move hc (Function.update_self ..) ?_
    split <;> simp only [ClientPC.rank] <;> omega
  | cancelTimer _ hor =>
    rcases hor with ⟨hc, rfl⟩ | ⟨hc, rfl⟩ | ⟨hc, rfl⟩ <;>
      exact move hc (Function.update_self ..) (by simp [ClientPC.rank])
  | clearTimer _ _ hor =>
    rcases hor with ⟨hc, rfl⟩ | ⟨hc, rfl⟩ <;>
      exact move hc (Function.update_self ..) (by simp only [ClientPC.rank]; omega)
  | stopNowReturned hc hor =>
    rcases hor with rfl | rfl | rfl <;> exact move hc (Function.update_self ..) (by simp [ClientPC.rank])
  | @cancelTask t async p e b p' hc hb =>
    rcases TaskBase.cancel_lowers hb with hlt | rfl
    · exact move hc (Function.update_self ..) (by simpa [ClientPC.rank] using hlt)
    · exact Or.inr (by rw [hc]; rfl)
  | push hc | makeTimer hc | setInterval hc | pushTask hc | win hc | unlockState hc | pushEndTask hc
  | lockRunningTask _ hc | cancelRunningTask _ hc =>
    exact move hc (Function.update_self ..) (by simp only [ClientPC.rank]; omega)

/-- A step of a call lowers its rank, unless it waits for the end of what has not come to it. -/
theorem clientStep_lowers {i : Input} (h : s.clientStep c i = some s') :
    (s'.client c).rank n < (s.client c).rank n ∨ s.Awaits (s.client c) := by
  rcases (clientStep_cases h).lowers with hlt | hblocked
  · exact Or.inl hlt
  cases hpc : s.client c with
  | blockedFinished =>
    by_cases hf : s.state = .finished
    · simp only [clientStep, hpc, awaitPool, hf, if_true] at h
      split at h
      · cases h
      · split at h <;> cases h
        exact Or.inl (by simp [goto, ClientPC.rank])
    · exact Or.inr hf
  | blockedThread j =>
    simp only [clientStep, hpc] at h
    split at h
    · rename_i hj
      by_cases hf : (s.threads ⟨j, hj⟩).thread.state = .finished
      · split at h <;> cases h
        left
        simp only [awaitThread, CancelableThread.awaitFinished, hf, if_true, goto, Function.update_self, ClientPC.rank]
        omega
      · exact Or.inr ⟨hj, hf⟩
    · cases h
  | blockedTimer k =>
    simp only [clientStep, hpc] at h
    obtain ⟨tm, htm, h⟩ := Option.bind_eq_some_iff.mp h
    by_cases hf : tm.thread.state = .finished
    · split at h <;> cases h
      left
      simp only [awaitTimer, CancelableThread.awaitFinished, hf, if_true]
      cases k <;> simp [leaveStop, goto, ClientPC.rank]
    · exact Or.inr ⟨tm, htm, hf⟩
  | cancelTask t async p =>
    rw [hpc] at hblocked
    cases p with
    | blocked => exact Or.inr trivial
    | _ => cases hblocked
  | _ => rw [hpc] at hblocked; cases hblocked

end Client

/-! ## The parties -/

/-- Who makes steps in the pool, once it is constructed. -/
inductive Party (n : Nat) (Cl : Type*)
  | worker (i : Fin n)
  | timer
  | client (c : Cl)
  deriving DecidableEq

/-- Who takes an action. Nobody has to construct the pool or to call, and nobody wakes by itself. -/
def Action.party : Action n Cl T → Option (Party n Cl)
  | .worker i _ => some (.worker i)
  | .timer _ => some .timer
  | .client c _ => some (.client c)
  | _ => none

section Party

variable [DecidableEq Cl] [DecidableEq T] {ok : FixedThreadPool n Cl T → Action n Cl T → Prop} {a : Action n Cl T}

/-- The party can make a step. -/
abbrev CanGo (isEndTask : T → Bool) (ok : FixedThreadPool n Cl T → Action n Cl T → Prop) (p : Party n Cl)
    (s : FixedThreadPool n Cl T) : Prop := (system n Cl isEndTask).Enabled ok Action.party p s

theorem workerStuck (hok : ok s (.worker i .ret)) (h : ¬ CanGo isEndTask ok (.worker i) s) : s.WorkerStuck i := by
  by_contra hno
  obtain ⟨s', hs⟩ := workerStep_enabled isEndTask hno
  exact h ⟨.worker i .ret, s', rfl, hok, hs⟩

theorem Unheld.timerSleeps (hok : Unheld ok) (hi : Waits s) (h : ¬ CanGo isEndTask ok .timer s) :
    s.TimerSleeps := by
  rcases timerStep_enabled hi with hsleeps | ⟨i, s', hexit, hs⟩
  · exact hsleeps
  · exact absurd ⟨.timer i, s', rfl, hok.timer s i hexit, hs⟩ h

theorem Unheld.clientStuck (hok : Unheld ok) (hi : Waits s) (h : ¬ CanGo isEndTask ok (.client c) s) :
    s.ClientStuck c := by
  by_contra hno
  obtain ⟨s', hs⟩ := clientStep_enabled (hi.placed c) hno
  exact h ⟨.client c ⟨.ret, 0, 0⟩, s', rfl, hok.client s c _ rfl, hs⟩

/-- Only a worker moves itself. -/
theorem PoolStep.worker_pc (h : PoolStep isEndTask s a s') (hctor : s.ctor = .done) (i : Fin n) :
    (s'.threads i).pc = (s.threads i).pc ∨ a.party = some (.worker i) := by
  cases h with
  | start _ hc | started hc | constructed hc => rw [hctor] at hc; cases hc
  | call => exact Or.inl rfl
  | client _ hs => exact Or.inl (hs.frame.threads i).1
  | @worker j e s' hs =>
    by_cases hij : i = j
    · exact Or.inr (by rw [hij]; rfl)
    · exact Or.inl (by rw [hs.others i hij])
  | timer _ hs => exact Or.inl (hs.frame.threads i).1
  | wake w => exact Or.inl ((wakeStep_frame w).threads i).1

/-- Only a client moves its call, or begins one. -/
theorem PoolStep.client_pc (h : PoolStep isEndTask s a s') (c : Cl) :
    s'.client c = s.client c ∨ s.client c = .idle ∨ a.party = some (.client c) := by
  cases h with
  | start | started | constructed => exact Or.inl rfl
  | @call d m _ hidle =>
    by_cases hcd : c = d
    · exact Or.inr (Or.inl (hcd ▸ hidle))
    · exact Or.inl (by simp [goto, hcd])
  | @client d i s' _ hs =>
    by_cases hcd : c = d
    · exact Or.inr (Or.inr (by rw [hcd]; rfl))
    · exact Or.inl (hs.others c hcd)
  | worker hs => exact Or.inl (by rw [hs.rest.2.1])
  | timer _ hs => exact Or.inl (by rw [hs.client])
  | wake w => exact Or.inl (by cases w <;> rfl)

/-- Only the timer thread moves itself, and what it was asked it stays asked. -/
theorem PoolStep.timer_pc (h : PoolStep isEndTask s a s') (hi : Waits s) {tm : Timer Cl ThreadPoolTimerTask.PC}
    (htm : s.timer = some tm) : ∃ tm', s'.timer = some tm' ∧ (tm'.pc = tm.pc ∨ a.party = some .timer) ∧
      (tm.thread.isRequestCancel = true → tm'.thread.isRequestCancel = true) := by
  cases h with
  | start | started | constructed | call => exact ⟨tm, htm, Or.inl rfl, id⟩
  | @client c i s' _ hs =>
    obtain ⟨tm', htm'⟩ := Option.isSome_iff_exists.mp (hs.timerStays (by rw [htm]; rfl))
    rcases hs.timerMove htm' with ⟨hnone, -⟩ | ⟨tm₁, htm₁, hm⟩
    · rw [htm] at hnone
      cases hnone
    · rw [htm] at htm₁
      cases htm₁
      refine ⟨tm', htm', ?_⟩
      cases hm with
      | same | setQueue => exact ⟨Or.inl rfl, id⟩
      | cancelAsync => exact ⟨Or.inl rfl, fun _ => rfl⟩
      | await => exact ⟨Or.inl rfl, fun hf => by simpa using hf⟩
  | worker hs => exact ⟨tm, hs.rest.2.2.1.trans htm, Or.inl rfl, id⟩
  | timer _ hs =>
    obtain ⟨tm₁, tm', htm₁, htm', -, hflag, -⟩ := hs.live hi.timer
    rw [htm] at htm₁
    cases htm₁
    exact ⟨tm', htm', Or.inr rfl, fun hf => hflag.trans hf⟩
  | wake w =>
    cases w with
    | timer => exact ⟨{ tm with waiting := false }, by simp [wakeStep, htm], Or.inl rfl, id⟩
    | timerThread c => exact ⟨{ tm with thread := tm.thread.wake c }, by simp [wakeStep, htm], Or.inl rfl, id⟩
    | _ => exact ⟨tm, htm, Or.inl rfl, id⟩

/-- What was pushed and popped stays so, and only workers pop. -/
theorem PoolStep.pops (h : PoolStep isEndTask s a s') : s.taskQueue.pushes <+: s'.taskQueue.pushes ∧
    (s'.taskQueue.pops = s.taskQueue.pops ∨ ∃ i, s'.taskQueue.pops = s.taskQueue.pops ++ [i]) := by
  cases h with
  | start | started | constructed | call => exact ⟨List.prefix_refl _, Or.inl rfl⟩
  | client _ hs => exact ⟨hs.frame.pushes, Or.inl (by cases hs <;> rfl)⟩
  | worker hs =>
    refine ⟨by rw [hs.rest.2.2.2.2.2.2.2.2.2.2], ?_⟩
    rcases hs.lowers with ⟨heq, -⟩ | ⟨heq, -⟩ | ⟨heq, -⟩
    · exact Or.inl heq
    · exact Or.inr ⟨_, heq⟩
    · exact Or.inl heq
  | timer _ hs => exact ⟨hs.frame.pushes, Or.inl (by cases hs <;> rfl)⟩
  | wake w => exact ⟨(wakeStep_frame w).pushes, Or.inl (by cases w <;> rfl)⟩

/-- How far a worker has to go before it pops the item at `k`, or behind it. -/
def workerRank (s : FixedThreadPool n Cl T) (k : Nat) (i : Fin n) : Nat :=
  19 * (k - s.taskQueue.pops.length) + (s.threads i).pc.rank

/-- A worker that neither pops from behind `k` nor blocks lowers its rank, which nobody raises. -/
theorem step_lowers_worker (h : (system n Cl isEndTask).step s a = some s') (hctor : s.ctor = .done) {k : Nat}
    (hpop : (s.threads i).pc.rank = 4 → s.taskQueue.pops.length < k) (hno : s.taskQueue.elems = [] → ¬ s'.Blocked i) :
    s'.workerRank k i ≤ s.workerRank k i ∧
      (a.party = some (.worker i) → s'.workerRank k i < s.workerRank k i) := by
  unfold workerRank
  by_cases hp : a.party = some (.worker i)
  · cases a with
    | worker j e =>
      cases hp
      rcases (workerStep_cases h).lowers with ⟨heq, hlt⟩ | ⟨heq, hpc, hpc'⟩ | ⟨-, hb, he⟩
      · rw [heq]
        exact ⟨by omega, fun _ => by omega⟩
      · have hk := hpop hpc
        rw [heq, hpc, hpc', List.length_append, List.length_singleton]
        exact ⟨by omega, fun _ => by omega⟩
      · exact absurd hb (hno he)
    | _ => cases hp
  · rw [((step_cases h).worker_pc hctor i).resolve_right hp]
    refine ⟨?_, fun h => absurd h hp⟩
    rcases (step_cases h).pops.2 with heq | ⟨j, heq⟩
    · rw [heq]
    · rw [heq, List.length_append, List.length_singleton]
      omega

/-- A call that waits for nothing lowers its rank, which nobody raises. -/
theorem step_lowers_client (h : (system n Cl isEndTask).step s a = some s') (hidle : s.client c ≠ .idle)
    (hw : ¬ s.Awaits (s.client c)) : (s'.client c).rank n ≤ (s.client c).rank n ∧
      (a.party = some (.client c) → (s'.client c).rank n < (s.client c).rank n) := by
  by_cases hp : a.party = some (.client c)
  · cases a with
    | client d i =>
      cases hp
      have hlt := (clientStep_lowers h).resolve_right hw
      exact ⟨hlt.le, fun _ => hlt⟩
    | _ => cases hp
  · rcases (step_cases h).client_pc c with heq | hnot | hnot
    · exact ⟨by rw [heq], fun h => absurd h hp⟩
    · exact absurd hnot hidle
    · exact absurd hnot hp

/-- How far the timer thread has to go, by the rank `f` of where it is. -/
def timerRank (s : FixedThreadPool n Cl T) (f : Timer.PC ThreadPoolTimerTask.PC → Nat) : Nat :=
  s.timer.elim 0 fun tm => f tm.pc

/-- The timer thread was asked to cancel. -/
def TimerAsked (s : FixedThreadPool n Cl T) : Prop := ∃ tm, s.timer = some tm ∧ tm.thread.isRequestCancel = true

/-- The timer thread has `m_queue_guard`. -/
def TimerLocked (s : FixedThreadPool n Cl T) : Prop := ∃ tm, s.timer = some tm ∧ tm.locked = true

/-- Nobody raises the rank of where the timer thread is. -/
theorem timerRank_le (h : (system n Cl isEndTask).step s a = some s') (hi : Waits s) (ht : s.timer.isSome = true)
    {f : Timer.PC ThreadPoolTimerTask.PC → Nat} (hown : TimerStep s s' → s'.timerRank f < s.timerRank f) :
    s'.timerRank f ≤ s.timerRank f ∧ (a.party = some .timer → s'.timerRank f < s.timerRank f) := by
  by_cases hp : a.party = some .timer
  · cases a with
    | timer i =>
      have hlt := hown (timerStep_cases h)
      exact ⟨hlt.le, fun _ => hlt⟩
    | _ => cases hp
  · obtain ⟨tm, htm⟩ := Option.isSome_iff_exists.mp ht
    obtain ⟨tm', htm', hpc, -⟩ := (step_cases h).timer_pc hi htm
    refine ⟨?_, fun h => absurd h hp⟩
    simp only [timerRank, htm, htm', Option.elim_some, hpc.resolve_right hp, le_refl]

/-- A timer thread that was asked to cancel lowers its rank. -/
theorem step_lowers_timer (h : (system n Cl isEndTask).step s a = some s') (hi : Waits s) (hasked : s.TimerAsked) :
    s'.timerRank Timer.PC.rank ≤ s.timerRank Timer.PC.rank ∧
      (a.party = some .timer → s'.timerRank Timer.PC.rank < s.timerRank Timer.PC.rank) := by
  obtain ⟨tm, htm, hf⟩ := hasked
  refine timerRank_le h hi (by rw [htm]; rfl) fun hs => ?_
  obtain ⟨tm₁, tm', htm₁, htm', hlt, -⟩ := hs.lowers
  cases htm.symm.trans htm₁
  simpa only [timerRank, htm, htm', Option.elim_some] using hlt hf

/-- So does one that has `m_queue_guard` before and after the step. -/
theorem step_lowers_locked (h : (system n Cl isEndTask).step s a = some s') (hi : Waits s) (hi' : Waits s')
    (hl : s.TimerLocked) (hl' : s'.TimerLocked) : s'.timerRank Timer.PC.toUnlock ≤ s.timerRank Timer.PC.toUnlock ∧
      (a.party = some .timer → s'.timerRank Timer.PC.toUnlock < s.timerRank Timer.PC.toUnlock) := by
  obtain ⟨tm, htm, hl⟩ := hl
  obtain ⟨tm', htm', hl'⟩ := hl'
  refine timerRank_le h hi (by rw [htm]; rfl) fun hs => ?_
  obtain ⟨tm₁, tm₁', htm₁, htm₁', -, hlt⟩ := hs.lowers
  cases htm.symm.trans htm₁
  cases htm'.symm.trans htm₁'
  have hlocked := (hi.timer tm htm).locked
  have hlocked' := (hi'.timer tm' htm').locked
  simpa only [timerRank, htm, htm', Option.elim_some] using hlt (hlocked.symm.trans hl) (hlocked'.symm.trans hl')

end Party

end FixedThreadPool

end Tpool
