import Tpool.Pool.Stop

/-!
# Graceful shutdown

- `exits`, `Contained`: when every `DoRun` returns or leaves by the exception of `CheckCancellation`, and every
  `OnCancel` returns, no worker loses its loop to an exception.
- `NeverNow`: when nobody calls `StopNow` no worker is asked to cancel.
- `graceful`: then, when a call of `Stop` has returned, every task pushed before the first `EndTask` was run once, by
  one worker, and to the end; by a single worker in the order of the pushes.
-/

namespace Tpool

open Concurrency Tpool.Core

/-- The user's code that the step runs, if it does, is left as it may be: `DoRun` returns or throws what
`CheckCancellation` throws, `OnCancel` returns. -/
def WorkerThread.PC.exits {T : Type*} (pc : WorkerThread.PC T) (e : Exit) : Bool := match pc with
  | .run _ _ .doRun => e != .other
  | .run _ _ .onCancel => e == .ret
  | _ => true

namespace FixedThreadPool

variable {n : Nat} {Cl T : Type*} [DecidableEq Cl] [DecidableEq T] {isEndTask : T → Bool}
  {ok : FixedThreadPool n Cl T → Action n Cl T → Prop} {s s' : FixedThreadPool n Cl T}

/-! ## Exceptions -/

/-- The step leaves the user's code as it may be left. -/
def exits (s : FixedThreadPool n Cl T) : Action n Cl T → Bool
  | .worker i e => (s.threads i).pc.exits e
  | _ => true

/-- No exception leaves a `Run` on a worker. -/
def Contained (s : FixedThreadPool n Cl T) : Prop :=
  ∀ i, (∀ k t, (s.threads i).pc ≠ .run k t .raised) ∧ ∀ k, (s.threads i).pc.why ≠ some (.escaped k)

omit [DecidableEq Cl] in
/-- Why a worker leaves its loop. -/
theorem WorkerStep.leaves {i : Fin n} {e : Exit} (h : WorkerStep isEndTask i e s s') {why : Why}
    (hw : (s'.threads i).pc.why = some why) :
    (s.threads i).pc.why = some why ∨
    ((why = .cancelled ∨ ∃ k, why = .dropped k) ∧ (s.threads i).thread.isRequestCancel = true) ∨
    (∃ k item, why = .endTask k ∧ (s.threads i).pc = .dispatch k ∧ (s.threads i).runningTask = some item ∧
      item.isEnd isEndTask = true) ∨
    ∃ k t, why = .escaped k ∧ (s.threads i).pc = .run k t .raised := by
  cases h with
  | thread h => rw [setWorld_threads_self] at hw; exact h.leaves hw
  | count hpc | notLast hpc | last hpc =>
    simp only [setThread, Function.update_self] at hw
    exact Or.inl (by rw [hpc]; exact hw)

omit [DecidableEq Cl] in
/-- From where an exception leaves a `Run`. -/
theorem WorkerStep.raises {i : Fin n} {e : Exit} (h : WorkerStep isEndTask i e s s') {k : Nat} {t : T}
    (hw : (s'.threads i).pc = .run k t .raised) :
    ((s.threads i).pc = .run k t .doRun ∧ e = .other) ∨ ((s.threads i).pc = .run k t .onCancel ∧ e ≠ .ret) := by
  cases h with
  | thread h => rw [setWorld_threads_self] at hw; exact h.raises hw
  | count hpc | notLast hpc | last hpc => simp [setThread, WorkerThread.goto] at hw

/-- A step that leaves the user's code as it may be left lets no exception out. -/
theorem Contained.step {a : Action n Cl T} (hi : Contained s) (hexit : s.exits a = true)
    (hs : PoolStep isEndTask s a s') : Contained s' := by
  have hframe : ∀ {s'}, Frame s s' → Contained s' := fun hf i => by rw [(hf.threads i).1]; exact hi i
  cases hs with
  | @start k hk hc =>
    intro i
    by_cases hik : i = ⟨k, hk⟩
    · subst hik; simp [setThread, WorkerThread.PC.why]
    · simpa [setThread, hik] using hi i
  | started | constructed | call => exact hi
  | client hidle hs => exact hframe hs.frame
  | @worker i e s' hs =>
    intro j
    by_cases hji : j = i
    · subst hji
      refine ⟨fun k t hraised => ?_, fun k hwhy => ?_⟩
      · rcases hs.raises hraised with ⟨hpc, he⟩ | ⟨hpc, he⟩
        · simp [exits, WorkerThread.PC.exits, hpc, he] at hexit
        · simp [exits, WorkerThread.PC.exits, hpc, he] at hexit
      · rcases hs.leaves hwhy with hold | ⟨hc | ⟨_, hc⟩, -⟩ | ⟨_, _, hc, -⟩ | ⟨l, t, -, hraised⟩
        · exact (hi j).2 k hold
        · cases hc
        · cases hc
        · cases hc
        · exact (hi j).1 l t hraised
    · rw [hs.others j hji]; exact hi j
  | timer htm hs => exact hframe hs.frame
  | wake w => exact hframe (wakeStep_frame w)

omit [DecidableEq Cl] [DecidableEq T] in
theorem Contained.new : Contained (.new n Cl T) := fun i => by
  simp [FixedThreadPool.new, WorkerThread.absent, WorkerThread.PC.why]

theorem Reachable.contained (hok : ∀ s a, ok s a → s.exits a = true) (h : (system n Cl isEndTask).Reachable ok s) :
    Contained s :=
  h.induct .new fun s a _ _ ha hs hi => hi.step (hok s a ha) (step_cases hs)

/-! ## Without `StopNow` -/

/-- The call that stops the pool in which a client is. -/
def ClientPC.stopper : ClientPC T → Option Stopper
  | .compareAndSet k | .timerStarted k | .timerCancelAsync k | .timerClear k | .pushEndTask k _ | .isTimerStarted k
  | .stopTimerAsync k | .clearTimer k | .cancelTimer k | .waitTimer k | .blockedTimer k => some k
  | .waitFinished | .blockedFinished | .unlockState => some .stop
  | .cancelAsync _ | .lockRunningTask _ | .cancelRunningTask _ | .onCallCancel _ | .unlockRunningTask _ _
  | .cancelThread _ | .waitThread _ | .blockedThread _ => some .now
  | _ => none

/-- Nobody is in `StopNow` and no worker was asked to cancel. -/
def NeverNow (s : FixedThreadPool n Cl T) : Prop :=
  (∀ c, (s.client c).stopper ≠ some .now) ∧ ∀ i, (s.threads i).thread.isRequestCancel = false

omit [DecidableEq T] in
theorem stopper_afterAsync {k : Stopper} (h : (k.afterAsync : ClientPC T).stopper = some .now) : k = .now := by
  cases k with
  | now => rfl
  | async | stop => cases h

omit [DecidableEq Cl] [DecidableEq T] in
theorem Silent.stopper {pc pc' : ClientPC T} (h : Silent s pc pc') (hn : pc'.stopper = some .now) :
    pc.stopper = some .now := by
  cases h with
  | lost => rw [stopper_afterAsync hn]; rfl
  | threadFinished _ hpc => rcases hpc with rfl | rfl <;> rfl
  | timerFinished | noTimerToStop => cases hn
  | _ => exact hn

/-- Nobody gets into `StopNow` but by calling it. -/
theorem ClientStep.stopper {c : Cl} (h : ClientStep c s s') (hn : (s'.client c).stopper = some .now) :
    (s.client c).stopper = some .now := by
  cases h with
  | silent hpc hs => simp only [goto, Function.update_self] at hn; rw [hpc]; exact hs.stopper hn
  | pushedAll hpc =>
    simp only [goto, Function.update_self] at hn
    rw [hpc, stopper_afterAsync hn]
    rfl
  | setDeadline _ _ hpc' => rcases hpc' with rfl | ⟨_, rfl⟩ <;> simp [goto, ClientPC.stopper] at hn
  | cancelThread _ hpc => rcases hpc with ⟨hpc, -⟩ | ⟨hpc, -⟩ <;> rw [hpc] <;> rfl
  | cancelTimer _ hpc =>
    rcases hpc with ⟨hpc, rfl⟩ | ⟨hpc, rfl⟩ | ⟨hpc, rfl⟩ <;>
      simpa [goto, setTimer, ClientPC.stopper, hpc] using hn
  | clearTimer _ _ hpc =>
    rcases hpc with ⟨hpc, rfl⟩ | ⟨hpc, rfl⟩ <;> simpa [goto, setTimer, ClientPC.stopper, hpc] using hn
  | waitTimer _ hpc =>
    rcases hpc with hpc | ⟨hpc, -⟩ <;> simpa [goto, setTimer, ClientPC.stopper, hpc] using hn
  | waitThread _ hpc => rcases hpc with hpc | ⟨hpc, -⟩ <;> rw [hpc] <;> rfl
  | lockRunningTask _ hpc | cancelRunningTask _ hpc | unlockRunningTask _ hpc => rw [hpc]; rfl
  | win hpc | pushEndTask hpc => simpa [goto, ClientPC.stopper, hpc] using hn
  | push | makeTimer | setInterval | pushTask | finished | join | unlockState | stopNowReturned | cancelTask =>
    simp [goto, setTimer, setTask, ClientPC.stopper] at hn

/-- Only `StopNow` asks a worker to cancel. -/
theorem ClientStep.flags {c : Cl} (h : ClientStep c s s') (hn : (s.client c).stopper ≠ some .now) (i : Fin n) :
    (s'.threads i).thread.isRequestCancel = (s.threads i).thread.isRequestCancel := by
  have hset : ∀ {j : Fin n} {w : WorkerThread Cl T},
      w.thread.isRequestCancel = (s.threads j).thread.isRequestCancel →
      ((s.setThread j w).threads i).thread.isRequestCancel = (s.threads i).thread.isRequestCancel := by
    intro j w hw
    by_cases hij : i = j
    · subst hij; simpa using hw
    · simp [hij]
  cases h with
  | cancelThread _ hpc =>
    rcases hpc with ⟨hpc, -⟩ | ⟨hpc, -⟩ <;> rw [hpc] at hn <;> exact absurd rfl hn
  | lockRunningTask | unlockRunningTask => exact hset (by rfl)
  | waitThread => exact hset (CancelableThread.awaitFinished_isRequestCancel _ _)
  | _ => rfl

omit [DecidableEq Cl] in
theorem WorkerStep.flags {i : Fin n} {e : Exit} (h : WorkerStep isEndTask i e s s') (j : Fin n) :
    (s'.threads j).thread.isRequestCancel = (s.threads j).thread.isRequestCancel := by
  by_cases hji : j = i
  · subst hji
    cases h with
    | thread h => rw [setWorld_threads_self]; cases h <;> rfl
    | count | notLast | last => simp [setThread, WorkerThread.goto]
  · rw [h.others j hji]

/-- A step that does not call `StopNow` keeps it so. -/
theorem NeverNow.step {a : Action n Cl T} (hi : NeverNow s) (hcall : ∀ c, a ≠ .call c .stopNow)
    (hs : PoolStep isEndTask s a s') : NeverNow s' := by
  obtain ⟨hc, hf⟩ := hi
  cases hs with
  | @start k hk hctor =>
    refine ⟨hc, fun i => ?_⟩
    by_cases hik : i = ⟨k, hk⟩
    · subst hik; simp [setThread, CancelableThread.new]
    · simpa [setThread, hik] using hf i
  | started | constructed => exact ⟨hc, hf⟩
  | @call c m hctor hidle =>
    refine ⟨fun c' => ?_, hf⟩
    by_cases hcc : c' = c
    · subst hcc
      cases m with
      | stopNow => exact absurd rfl (hcall c')
      | _ => simp [goto, Method.start, ClientPC.stopper]
    · simpa [goto, hcc] using hc c'
  | @client c i s' hidle hs =>
    refine ⟨fun c' hn => ?_, fun i => (hs.flags (hc c) i).trans (hf i)⟩
    by_cases hcc : c' = c
    · subst hcc; exact hc c' (hs.stopper hn)
    · rw [hs.others c' hcc] at hn; exact hc c' hn
  | worker hs => exact ⟨by rw [hs.rest.2.1]; exact hc, fun i => (hs.flags i).trans (hf i)⟩
  | timer htm hs => exact ⟨by rw [hs.client]; exact hc, fun i => by cases hs <;> exact hf i⟩
  | wake w =>
    refine ⟨by cases w <;> exact hc, fun i => ?_⟩
    cases w with
    | thread j c =>
      by_cases hij : i = j
      · subst hij; simpa [wakeStep, CancelableThread.wake] using hf i
      · simpa [wakeStep, hij] using hf i
    | _ => exact hf i

omit [DecidableEq Cl] [DecidableEq T] in
theorem NeverNow.new : NeverNow (.new n Cl T) :=
  ⟨fun _ => by simp [FixedThreadPool.new, ClientPC.stopper], fun _ => rfl⟩

theorem Reachable.neverNow (hok : ∀ s c, ¬ ok s (.call c .stopNow)) (h : (system n Cl isEndTask).Reachable ok s) :
    NeverNow s := by
  refine h.induct .new fun s a _ _ ha hs hi => hi.step (fun c => ?_) (step_cases hs)
  rintro rfl
  exact hok s c ha

/-! ## Graceful shutdown -/

/-- Nobody calls `StopNow`, and the user's code is left as it may be. -/
def calm (s : FixedThreadPool n Cl T) : Action n Cl T → Bool
  | .call _ .stopNow => false
  | a => s.exits a

/-- The item at the position `j` and those before it are tasks, and no `EndTask`s. -/
def BeforeEnd (isEndTask : T → Bool) (s : FixedThreadPool n Cl T) (j : Nat) : Prop :=
  ∀ l ≤ j, ∃ t, s.taskQueue.pushes[l]? = some (.task t) ∧ isEndTask t = false

omit [DecidableEq Cl] [DecidableEq T] in
theorem calm_exits {a : Action n Cl T} (h : s.calm a = true) : s.exits a = true := by
  cases a with
  | call c m => rfl
  | _ => exact h

/-- In a stopped pool every worker has left with an end item, when none was cancelled or lost a task. -/
theorem Reachable.allEnded (h : (system n Cl isEndTask).Reachable ok s) (hc : Contained s)
    (hflag : ∀ i, (s.threads i).thread.isRequestCancel = false) (hret : HasReturned s) : AllEnded s.view := by
  intro i
  obtain ⟨why, p, hwhy, hview⟩ := Reachable.left h hret i
  have hnot : ¬ (why = .cancelled ∨ ∃ k, why = .dropped k) := by
    intro hw
    have := (Reachable.view h).flagged i why p hview hw
    rw [show s.view.isRequestCancel i = false from hflag i] at this
    cases this
  cases why with
  | endTask k => exact ⟨k, p, hview⟩
  | cancelled => exact absurd (Or.inl rfl) hnot
  | dropped k => exact absurd (Or.inr ⟨k, rfl⟩) hnot
  | escaped k => exact absurd hwhy ((hc i).2 k)

/-- **Graceful shutdown loses and duplicates nothing.** When a call of `Stop` has returned, every task pushed before the
first `EndTask` was passed to `Run` once, by one worker, and that `Run` has ended; a single worker has run exactly
these, one after the other, in the order of the pushes. -/
theorem graceful (h : (system n Cl isEndTask).Reachable (fun s a => s.calm a = true) s) (hret : s.stopReturned = true) :
    (∀ j, s.BeforeEnd isEndTask j → ∃ w, s.runs.count (w, .start j) = 1 ∧ s.runs.count (w, .stop j) = 1 ∧
      ∀ w' ≠ w, (w', .start j) ∉ s.runs ∧ (w', .stop j) ∉ s.runs) ∧
    (n = 1 → ∃ k, (∀ j, j < k ↔ s.BeforeEnd isEndTask j) ∧
      s.runs.map Prod.snd = (List.range k).flatMap fun j => [.start j, .stop j]) := by
  have hfin := (Reachable.outline h).stopReturned hret
  have hserved := (Reachable.view h).served
  have hall := Reachable.allEnded h (Reachable.contained (fun _ _ => calm_exits) h)
    (Reachable.neverNow (by simp [calm]) h).2 (Or.inl hret)
  refine ⟨fun j hj => hserved.run_once hall ((Reachable.view h).counted.finished hfin).1 hj, ?_⟩
  rintro rfl
  obtain ⟨k, hbefore, ⟨x, hx, hend⟩, hruns⟩ := hserved.in_order hall
  refine ⟨k, fun j => ⟨fun hj l hl => hbefore l (by omega), fun hj => ?_⟩, ?_⟩
  · by_contra hle
    obtain ⟨t, ht, hno⟩ := hj k (by omega)
    rw [show s.taskQueue.pushes[k]? = some x from hx] at ht
    cases ht
    simp [Item.isEnd, hno] at hend
  · rw [show s.runs = _ from hruns, List.map_flatMap]
    rfl

theorem graceful_stopRun : ∃ s : FixedThreadPool 1 Unit Unit, s.BeforeEnd (fun _ => false) 0 ∧
    ∃ w, s.runs.count (w, .start 0) = 1 ∧ s.runs.count (w, .stop 0) = 1 := by
  obtain ⟨s, hr, hs⟩ := System.reachable_of_exec (system 1 Unit fun _ : Unit => false) (fun s a => s.calm a = true)
    stopRun (fun s => s.stopReturned && s.taskQueue.pushes[0]? == some (.task ())) (by decide)
  obtain ⟨hret, hpush⟩ := Bool.and_eq_true_iff.mp hs
  have hbefore : s.BeforeEnd (fun _ => false) 0 := fun l hl => ⟨(), by
    obtain rfl : l = 0 := by omega
    exact ⟨by simpa using hpush, rfl⟩⟩
  obtain ⟨w, h1, h2, -⟩ := (graceful hr hret).1 0 hbefore
  exact ⟨s, hbefore, w, h1, h2⟩

end FixedThreadPool

end Tpool
