import Tpool.Pool.Fair
import Tpool.Pool.Graceful

/-!
# What comes to pass in the pool

In a fair run everybody who can make a step again and again makes one again and again; the user's code, which is one
step, is thereby left at some point.

- `often_unlocked`, `often_notOwned`, `often_stateFree`: no lock is held for ever.
- `finally_expired`, `finally_endTasksPushed`, `worker_ends`: a timer thread that was asked to cancel ends, who has won
  the stop pushes all `EndTask`s, and a worker that neither sleeps nor pops for ever ends.
- `stop_ends`, `call_returns`: after a stop the pool comes to its end, and every call returns, but for a `Cancel` of a
  task.
-/

namespace Tpool.FixedThreadPool

open Concurrency Tpool.Core System

variable {n : Nat} {Cl T : Type*} [DecidableEq Cl] [DecidableEq T] {isEndTask : T → Bool}
  {ok : FixedThreadPool n Cl T → Action n Cl T → Prop} {s s' : FixedThreadPool n Cl T} {a : Action n Cl T} {c : Cl}
  {i : Fin n} {r : (system n Cl isEndTask).Run ok}

/-! ## Calls that wait for nothing -/

/-- A call that waits for nothing and does not return comes to where it is stuck. -/
theorem client_settles (hok : Unheld ok) (hf : r.Fair Action.party)
    (h : r.Finally fun s => s.client c ≠ .idle ∧ ¬ s.Awaits (s.client c)) :
    ∃ pc, r.Finally fun s => s.client c = pc ∧ s.ClientStuck c := by
  have hdone := hf.settles (.client c) (fun s => (s.client c).rank n) h fun s a s' _ _ hs h _ =>
    step_lowers_client hs h.1 h.2
  obtain ⟨pc, hpc⟩ := Run.Finally.choose
    (J := fun pc s => s.client c = pc ∧ s.client c ≠ .idle ∧ ¬ CanGo isEndTask ok (.client c) s)
    ((h.and hdone).mono fun s _ h => ⟨_, rfl, h.1.1, h.2⟩) fun pc s a s' _ ha hs h hsome => by
      obtain ⟨-, -, hne, hno⟩ := hsome
      refine ⟨?_, hne, hno⟩
      rcases (step_cases hs).client_pc c with heq | hidle | hp
      · exact heq.trans h.1
      · exact absurd hidle h.2.1
      · exact absurd ⟨a, s', hp, ha, hs⟩ h.2.2
  exact ⟨pc, hpc.mono fun s hr h => ⟨h.1, hok.clientStuck (Reachable.waits hr) h.2.2⟩⟩

/-! ## The timer thread -/

section Timer

/-- A timer thread that was asked to cancel has ended. -/
def Expired (s : FixedThreadPool n Cl T) : Prop :=
  ∀ tm, s.timer = some tm → tm.thread.isRequestCancel = true → tm.pc = .terminated

omit [DecidableEq Cl] [DecidableEq T] in
/-- Whoever waits for its end then does not wait for long. -/
theorem Expired.over (he : Expired s) (hi : Waits s) (hc : (s.client c).asksTimer = true)
    {tm : Timer Cl ThreadPoolTimerTask.PC} (htm : s.timer = some tm) :
    tm.thread.state = .finished ∧ tm.thread.waiters = ∅ := by
  have hover := he tm htm (hi.asks tm htm c hc)
  have hheeded := (hi.timer tm htm).heeded
  exact ⟨hheeded.state.mpr hover, hheeded.notified hover⟩

/-- The timer thread gives its lock back again and again. -/
theorem often_unlocked (hok : Unheld ok) (hf : r.Fair Action.party) : r.Often fun s => ¬ s.TimerLocked := by
  refine Run.often_not fun hlocked => ?_
  have hdone := hf.settles .timer (fun s => s.timerRank Timer.PC.toUnlock) hlocked fun s a s' hr ha hs hl hl' =>
    step_lowers_locked hs (Reachable.waits hr) (Reachable.waits (hr.step ha hs)) hl hl'
  obtain ⟨k, -, ⟨tm, htm, hl⟩, hnot⟩ := (hlocked.and hdone).exists 0
  have hi := Reachable.waits (r.reachable k)
  have hpc := (hi.timer tm htm).locked
  rcases hok.timerSleeps hi hnot tm htm with hover | ⟨hwait, -⟩
  · simp [hl, hover, Timer.PC.locked] at hpc
  · simp [hl, hwait, Timer.PC.locked] at hpc

theorem stable_timerAsked : (system n Cl isEndTask).Stable ok TimerAsked := by
  rintro s a s' hr - hs ⟨tm, htm, hf⟩
  obtain ⟨tm', htm', -, hf'⟩ := (step_cases hs).timer_pc (Reachable.waits hr) htm
  exact ⟨tm', htm', hf' hf⟩

/-- The timer thread was asked to cancel and sleeps with no time limit. -/
def Overslept (s : FixedThreadPool n Cl T) : Prop :=
  ∃ tm, s.timer = some tm ∧ tm.pc = .wait ∧ tm.waiting = true ∧ tm.thread.isRequestCancel = true

/-- Clearing the queue wakes the timer thread. -/
theorem step_wakes (h : (system n Cl isEndTask).step s a = some s') (hi : Waits s) (hc : (s.client c).clears = true)
    (hs' : s'.Overslept) : a.party ≠ some (.client c) := by
  intro hp
  cases a with
  | client d i =>
    cases hp
    obtain ⟨tm', htm', -, hw, -⟩ := hs'
    rcases (clientStep_cases h).timerMove htm' with ⟨hnone, -⟩ | ⟨tm, -, hm⟩
    · have hasks : (s.client c).asksTimer = true := by
        cases hpc : s.client c <;> rw [hpc] at hc <;> first | rfl | cases hc
      have := (hi.placed c).timer_of_asks hasks
      rw [hnone] at this
      cases this
    · cases hm with
      | setQueue => cases hw
      | same hno | cancelAsync hno | await _ hno => rw [hc] at hno; cases hno
  | _ => cases hp

/-- Whoever is about to clear the queue does so. -/
theorem not_overslept (hok : Unheld ok) (hf : r.Fair Action.party) : ¬ r.Finally Overslept := by
  intro hslept
  obtain ⟨c, hc⟩ := Run.Finally.choose (J := fun c s => s.Overslept ∧ (s.client c).clears = true)
    (hslept.mono fun s hr ⟨tm, htm, hpc, hw, hf⟩ => by
      obtain ⟨c, hc⟩ := (Reachable.waits hr).woken tm htm hpc hw hf
      exact ⟨c, ⟨tm, htm, hpc, hw, hf⟩, hc⟩)
    fun c s a s' hr _ hs h hsome => by
      obtain ⟨-, hs', -⟩ := hsome
      refine ⟨hs', ?_⟩
      rcases (step_cases hs).client_pc c with heq | hidle | hp
      · rw [heq, h.2]
      · rw [hidle] at h
        cases h.2
      · exact absurd hp (step_wakes hs (Reachable.waits hr) h.2 hs')
  have hdone := hf.settles (.client c) (fun _ => 0) hc fun s a s' hr _ hs h h' =>
    ⟨le_rfl, fun hp => absurd hp (step_wakes hs (Reachable.waits hr) h.2 h'.1)⟩
  obtain ⟨k, -, ⟨⟨tm, htm, hpc, -⟩, hclears⟩, hnot⟩ := (hc.and hdone).exists 0
  have hi := Reachable.waits (r.reachable k)
  have hlocked := (hi.timer tm htm).locked
  have hstuck := hok.clientStuck hi hnot
  unfold ClientStuck at hstuck
  cases hc : (r.state k).client c with
  | timerClear | clearTimer =>
    rw [hc] at hstuck
    obtain ⟨tm', htm', hl⟩ := hstuck
    cases htm.symm.trans htm'
    simp [hl, hpc, Timer.PC.locked] at hlocked
  | _ => rw [hc] at hclears; cases hclears

/-- **A timer thread that was asked to cancel ends.** -/
theorem finally_expired (hok : Unheld ok) (hf : r.Fair Action.party) : r.Finally Expired := by
  by_cases hasked : ∃ k, (r.state k).TimerAsked
  · obtain ⟨k, hk⟩ := hasked
    have hasked := Run.finally_of stable_timerAsked hk
    have hdone := hf.settles .timer (fun s => s.timerRank Timer.PC.rank) hasked fun s a s' hr _ hs hi _ =>
      step_lowers_timer hs (Reachable.waits hr) hi
    obtain ⟨pc, hpc⟩ := Run.Finally.choose
      (J := fun pc s => (∃ tm, s.timer = some tm ∧ tm.pc = pc) ∧ s.TimerAsked ∧ ¬ CanGo isEndTask ok .timer s)
      ((hasked.and hdone).mono fun s _ h => by
        obtain ⟨tm, htm, hf⟩ := h.1
        exact ⟨_, ⟨tm, htm, rfl⟩, h⟩)
      fun pc s a s' hr ha hs h hsome => by
        obtain ⟨⟨tm, htm, rfl⟩, -, hno⟩ := h
        obtain ⟨tm', htm', hpc, -⟩ := (step_cases hs).timer_pc (Reachable.waits hr) htm
        obtain ⟨-, -, h'⟩ := hsome
        exact ⟨⟨tm', htm', hpc.resolve_right fun hp => hno ⟨a, s', hp, ha, hs⟩⟩, h'⟩
    by_cases hover : pc = .terminated
    · refine hpc.mono fun s _ h tm htm _ => ?_
      obtain ⟨⟨tm', htm', hpc⟩, -⟩ := h
      cases htm.symm.trans htm'
      exact hpc.trans hover
    · refine absurd (hpc.mono fun s hr h => ?_) (not_overslept hok hf)
      obtain ⟨⟨tm, htm, rfl⟩, ⟨tm', htm', hf⟩, hnot⟩ := h
      cases htm.symm.trans htm'
      obtain ⟨hwait, hw⟩ := (hok.timerSleeps (Reachable.waits hr) hnot tm htm).resolve_left hover
      exact ⟨tm, htm, hwait, hw, hf⟩
  · exact Run.finally_always fun k tm htm hf => absurd ⟨k, tm, htm, hf⟩ hasked

end Timer

/-! ## The guards -/

section Guards

/-- Nobody keeps the guard of a worker in `CancelNow`. -/
theorem often_notOwned (hok : Unheld ok) (hf : r.Fair Action.party) (i : Fin n) :
    r.Often fun s => ¬ ∃ c, (s.threads i).runningTaskGuard = .client c := by
  refine Run.often_not fun howned => ?_
  obtain ⟨c, hc⟩ := Run.Finally.choose (J := fun c s => (s.client c).guards i = true)
    (howned.mono fun s hr ⟨c, hc⟩ => ⟨c, (Reachable.held hr).client c i hc⟩)
    fun c s a s' hr ha hs h hsome => by
      obtain ⟨d, hd⟩ := hsome
      rcases (step_cases hs).client_pc c with heq | hidle | hp
      · rw [heq, h]
      · rw [hidle] at h
        cases h
      · cases a with
        | client c' i' =>
          cases hp
          refine ((clientStep_cases hs).guardsOrFrees h).resolve_right fun hfree => ?_
          rw [(Reachable.guards (hr.step ha hs)).client d i hd] at hfree
          cases hfree
        | _ => cases hp
  have hpc : ∀ {pc : ClientPC T}, pc.guards i = true → pc ≠ .idle ∧ ∀ s : FixedThreadPool n Cl T, ¬ s.Awaits pc := by
    intro pc h
    cases pc with
    | cancelRunningTask | onCallCancel | unlockRunningTask => exact ⟨by simp, fun _ => id⟩
    | _ => cases h
  obtain ⟨pc, hstuck⟩ := client_settles hok hf (hc.mono fun s _ h => ⟨(hpc h).1, (hpc h).2 s⟩)
  obtain ⟨k, -, hguards, -, hstuck⟩ := (hc.and hstuck).exists 0
  unfold ClientStuck at hstuck
  cases hpc : (r.state k).client c with
  | cancelRunningTask | onCallCancel | unlockRunningTask => rw [hpc] at hstuck; exact hstuck
  | _ => rw [hpc] at hguards; cases hguards

/-- The guard of the state passes to who finds it free, or from who gives it back. -/
theorem PoolStep.stateGuard (h : PoolStep isEndTask s a s') :
    s'.stateGuard = s.stateGuard ∨ s'.stateGuard = none ∨ s.stateGuard = none := by
  cases h with
  | start | started | constructed | call => exact Or.inl rfl
  | client _ hs =>
    cases hs with
    | finished _ hfree => exact Or.inr (Or.inr hfree)
    | unlockState => exact Or.inr (Or.inl rfl)
    | _ => exact Or.inl rfl
  | worker hs => exact Or.inl (by cases hs <;> rfl)
  | timer _ hs => exact Or.inl (by cases hs <;> rfl)
  | wake w => exact Or.inl (by cases w <;> rfl)

/-- Nobody keeps the guard of the state in `Stop`. -/
theorem often_stateFree (hok : Unheld ok) (hf : r.Fair Action.party) : r.Often fun s =>
    ¬ ∃ c, s.stateGuard = some c := by
  refine Run.often_not fun howned => ?_
  obtain ⟨c, hc⟩ := howned.choose fun c s a s' _ _ hs h hsome => by
    obtain ⟨d, hd⟩ := hsome
    rcases (step_cases hs).stateGuard with heq | hnone | hnone
    · rw [heq, h]
    · rw [hnone] at hd
      cases hd
    · rw [hnone] at h
      cases h
  have hc := (hc.and (finally_expired hok hf)).mono fun s hr h => And.intro ((Reachable.held hr).state c h.1) h.2
  obtain ⟨pc, hstuck⟩ := client_settles (c := c) hok hf (hc.mono fun s hr ⟨hholds, hexpired⟩ => by
    refine ⟨fun hidle => (by rw [hidle] at hholds; cases hholds), fun hw => ?_⟩
    cases hpc : s.client c with
    | blockedTimer k =>
      rw [hpc] at hw
      obtain ⟨tm, htm, hne⟩ := hw
      exact hne (hexpired.over (Reachable.waits hr) (c := c) (by rw [hpc]; rfl) htm).1
    | blockedThread | blockedFinished | cancelTask => rw [hpc] at hholds; cases hholds
    | _ => rw [hpc] at hw; exact hw)
  obtain ⟨k, hfree, ⟨hholds, hexpired⟩, -, hstuck⟩ := (often_unlocked hok hf).with (hc.and hstuck)
  unfold ClientStuck at hstuck
  cases hpc : (r.state k).client c with
  | clearTimer => rw [hpc] at hstuck; exact hfree hstuck
  | blockedTimer =>
    rw [hpc] at hstuck
    obtain ⟨tm, htm, hmem⟩ := hstuck
    rw [(hexpired.over (Reachable.waits (r.reachable k)) (c := c) (by rw [hpc]; rfl) htm).2] at hmem
    exact Finset.notMem_empty c hmem
  | isTimerStarted | stopTimerAsync | cancelTimer | waitTimer | unlockState => rw [hpc] at hstuck; exact hstuck
  | _ => rw [hpc] at hholds; cases hholds

end Guards

/-! ## The workers -/

section Worker

theorem stable_ctor : (system n Cl isEndTask).Stable ok fun s => s.ctor = .done := by
  intro s a s' _ _ hs h
  cases step_cases hs with
  | start _ hc | started hc => rw [h] at hc; cases hc
  | constructed => rfl
  | call => exact h
  | client _ hs => exact hs.frame.ctor.trans h
  | worker hs => exact hs.rest.1.trans h
  | timer _ hs => exact hs.frame.ctor.trans h
  | wake w => exact (wakeStep_frame w).ctor.trans h

/-- The worker is there and may go on, pops nothing behind `k`, and does not sleep. -/
structure Awake (ok : FixedThreadPool n Cl T → Action n Cl T → Prop) (k : Nat) (i : Fin n)
    (s : FixedThreadPool n Cl T) : Prop where
  ctor : s.ctor = .done
  goes : ok s (.worker i .ret)
  pops : (s.threads i).pc.rank = 4 → s.taskQueue.pops.length < k
  waiting : ¬ s.Blocked i

/-- **A worker that does not sleep and does not pop for ever ends.** -/
theorem worker_ends (hok : Unheld ok) (hf : r.Fair Action.party) {k : Nat} (h : r.Finally (Awake ok k i)) :
    r.Finally fun s => (s.threads i).pc.isTerminated = true := by
  have hdone := hf.settles (.worker i) (fun s => s.workerRank k i) h fun s a s' _ _ hs h h' =>
    step_lowers_worker hs h.ctor h.pops fun _ => h'.waiting
  obtain ⟨pc, hpc⟩ := Run.Finally.choose
    (J := fun pc s => (s.threads i).pc = pc ∧ Awake ok k i s ∧ ¬ CanGo isEndTask ok (.worker i) s)
    ((h.and hdone).mono fun s _ h => ⟨_, rfl, h⟩) fun pc s a s' _ ha hs h hsome => by
      obtain ⟨rfl, hawake, hno⟩ := h
      obtain ⟨-, -, h'⟩ := hsome
      exact ⟨((step_cases hs).worker_pc hawake.ctor i).resolve_right fun hp => hno ⟨a, s', hp, ha, hs⟩, h'⟩
  cases hover : pc.isTerminated with
  | true => exact hpc.mono fun s _ h => by rw [h.1, hover]
  | false =>
    exfalso
    -- what it is stuck before is free again and again
    have hstuck := hpc.mono fun s hr h => And.intro h (workerStuck h.2.1.goes h.2.2)
    obtain ⟨j, hnot, ⟨hj, hawake, -⟩, hstuckj⟩ := (often_notOwned hok hf i).with hstuck
    obtain ⟨l, hfree, ⟨hl, -⟩, hstuckl⟩ := (often_stateFree hok hf).with hstuck
    unfold WorkerStuck at hstuckj hstuckl
    rw [hj] at hstuckj
    rw [hl] at hstuckl
    cases pc with
    | absent =>
      obtain ⟨m, -, hm⟩ := (Reachable.built (r.reachable j) i).mp hj
      rw [hawake.ctor] at hm
      cases hm
    | lock =>
      cases hg : ((r.state j).threads i).runningTaskGuard with
      | free => exact hstuckj hg
      | client c => exact hnot ⟨c, hg⟩
      | worker =>
        have := (Reachable.held (r.reachable j)).worker i hg
        rw [hj] at this
        cases this
    | blocked => exact hawake.waiting ⟨hj, hstuckj⟩
    | notifyStop why m => exact hfree (Option.ne_none_iff_exists'.mp hstuckl.2)
    | terminated why => cases hover
    | _ => exact hstuckj

end Worker

/-! ## A calm run -/

section Calm

omit [DecidableEq Cl] [DecidableEq T] in
theorem unhindered_calm : Unhindered fun (s : FixedThreadPool n Cl T) a => s.calm a = true where
  worker s i := by
    simp only [calm, exits, WorkerThread.PC.exits]
    split <;> rfl
  timer _ _ _ := rfl
  client _ _ _ _ := rfl

section Evaluated

variable {T : Type} [DecidableEq T] {isEndTask : T → Bool} {ok : FixedThreadPool 1 Unit T → Action 1 Unit T → Prop}
  [∀ s a, Decidable (ok s a)] {as : List (Action 1 Unit T)}

/-- The pool was stopped, has no timer, and its client is in no call. -/
def hasEnded (s : FixedThreadPool 1 Unit T) : Bool :=
  decide (s.ctor = .done) && s.timer.isNone && decide (s.state = .finished) &&
    (s.threads (Fin.last 0)).pc.isTerminated &&
    (s.client ()).isIdle

/-- A run that was evaluated to the end of the pool is fair. -/
theorem exists_run_ended (h : ((system 1 Unit isEndTask).exec ok (.new 1 Unit T) as).any hasEnded = true) :
    ∃ r : (system 1 Unit isEndTask).Run ok, r.Fair Action.party ∧
      ∀ k, (system 1 Unit isEndTask).exec ok (.new 1 Unit T) (as.take k) = some (r.state k) := by
  obtain ⟨s, hs, hend⟩ := (Option.any_eq_true ..).mp h
  simp only [hasEnded, Bool.and_eq_true, decide_eq_true_eq, Option.isNone_iff_eq_none] at hend
  obtain ⟨⟨⟨⟨hctor, htm⟩, hstate⟩, hterm⟩, hidle⟩ := hend
  have hrest : AtRest s := .of_ended hctor htm hstate (fun i => Subsingleton.elim i 0 ▸ hterm) fun _ =>
    ClientPC.isIdle_iff.mp hidle
  refine exists_run hs fun p => ?_
  rintro ⟨a, s', hp, hoka, hs'⟩
  have hstill : ¬ CanMove isEndTask ok s := hrest.not_canMove
  refine hstill ⟨a, s', ?_, hoka, hs'⟩
  cases a with
  | call | wake => cases hp
  | _ => rfl

end Evaluated

/-- A client adds a task and stops the pool, until nobody has anything to do. -/
def restRun : List (Action 1 Unit Unit) := stopRun ++ [.worker (Fin.last 0) .ret]

theorem exists_restRun : ∃ r : (system 1 Unit fun _ : Unit => false).Run (fun s a => s.calm a = true),
    r.Fair Action.party ∧ ∀ k, (system 1 Unit fun _ : Unit => false).exec (fun s a => s.calm a = true)
    (.new 1 Unit Unit)
      (restRun.take k) = some (r.state k) :=
  exists_run_ended (by decide)

end Calm

/-! ## The end of the pool -/

section Stop

theorem stable_isRequestStop : (system n Cl isEndTask).Stable ok fun s => s.isRequestStop = true := by
  intro s a s' _ _ hs h
  cases step_cases hs with
  | start | started | constructed | call => exact h
  | client _ hs => exact hs.frame.isRequestStop h
  | worker hs => exact hs.rest.2.2.2.2.1.trans h
  | timer _ hs => exact hs.frame.isRequestStop h
  | wake w => exact (wakeStep_frame w).isRequestStop h

/-- A call in the push loop stays there, or leaves it with everything pushed. -/
theorem step_pushing (h : (system n Cl isEndTask).step s a = some s') (hp : (s.client c).pushing.isSome = true)
    (hno : s'.endTasksPushed = false) : (s'.client c).pushing.isSome = true := by
  rcases (step_cases h).client_pc c with heq | hidle | hparty
  · rw [heq, hp]
  · rw [hidle] at hp
    cases hp
  · cases a with
    | client d i =>
      cases hparty
      cases (clientStep_cases h).pushStep with
      | same _ _ _ heq => rw [heq, hp]
      | win _ _ _ _ heq | push _ _ _ _ _ _ heq => rw [heq]; rfl
      | leave _ _ _ _ _ hpushed => rw [hno] at hpushed; cases hpushed
    | _ => cases hparty

theorem stable_endTasksPushed : (system n Cl isEndTask).Stable ok fun s => s.endTasksPushed = true := by
  intro s a s' _ _ hs h
  cases step_cases hs with
  | start | started | constructed | call => exact h
  | client _ hs =>
    cases hs with
    | pushedAll => rfl
    | _ => exact h
  | worker hs => exact hs.rest.2.2.2.2.2.2.1.trans h
  | timer _ hs => cases hs <;> exact h
  | wake w => cases w <;> exact h

/-- **Who has won the stop pushes all `EndTask`s.** -/
theorem finally_endTasksPushed (hok : Unhindered ok) (hf : r.Fair Action.party) :
    r.Finally fun s => s.isRequestStop = true → s.endTasksPushed = true := by
  by_contra hno
  have hnever : r.Finally fun s => s.endTasksPushed = false := Run.finally_always fun k => by
    simpa using Run.never stable_endTasksPushed (fun h => hno (h.mono fun _ _ hp _ => hp)) k
  obtain ⟨k, hk⟩ : ∃ k, (r.state k).isRequestStop = true := by
    by_contra hnone
    exact hno (Run.finally_always fun k hk => absurd ⟨k, hk⟩ hnone)
  have hpushing : r.Finally fun s => ∃ c, s.endTasksPushed = false ∧ (s.client c).pushing.isSome = true := by
    refine ((Run.finally_of stable_isRequestStop hk).and hnever).mono fun s hr h => ?_
    cases Reachable.winning hr with
    | nobody hnot => rw [h.1] at hnot; cases hnot
    | pushing c j _ _ _ _ hc => exact ⟨c, h.2, by rw [hc]; rfl⟩
    | pushed _ _ hp => rw [h.2] at hp; cases hp
  obtain ⟨c, hc⟩ := hpushing.choose fun c s a s' _ _ hs h hsome => by
    obtain ⟨-, hnot, -⟩ := hsome
    exact ⟨hnot, step_pushing hs h.2 hnot⟩
  have hpc : ∀ {pc : ClientPC T}, pc.pushing.isSome = true →
      pc ≠ .idle ∧ ∀ s : FixedThreadPool n Cl T, ¬ s.Awaits pc := by
    intro pc h
    cases pc with
    | timerStarted | timerCancelAsync | timerClear | pushEndTask => exact ⟨by simp, fun _ => id⟩
    | _ => cases h
  obtain ⟨pc, hstuck⟩ := client_settles hok.toUnheld hf (hc.mono fun s _ h => ⟨(hpc h.2).1, (hpc h.2).2 s⟩)
  obtain ⟨k, hfree, ⟨-, hpushing⟩, -, hstuck⟩ := (often_unlocked hok.toUnheld hf).with (hc.and hstuck)
  unfold ClientStuck at hstuck
  cases hpc : (r.state k).client c with
  | timerClear => rw [hpc] at hstuck; exact hfree hstuck
  | timerStarted | timerCancelAsync | pushEndTask => rw [hpc] at hstuck; exact hstuck
  | _ => rw [hpc] at hpushing; cases hpushing

/-- All `EndTask`s are among the first `k` items. -/
def PushedBy (k : Nat) (s : FixedThreadPool n Cl T) : Prop :=
  s.ctor = .done ∧ s.endTasksPushed = true ∧ n ≤ (s.taskQueue.pushes.take k).countP Item.isStop

theorem stable_pushedBy (k : Nat) : (system n Cl isEndTask).Stable ok (PushedBy k) := by
  intro s a s' hr ha hs ⟨h1, h2, h3⟩
  refine ⟨stable_ctor s a s' hr ha hs h1, stable_endTasksPushed s a s' hr ha hs h2, h3.trans ?_⟩
  exact (((step_cases hs).pops.1.take k).sublist).countP_le

/-- When all were pushed, they were pushed by then. -/
theorem exists_pushedBy (h : (system n Cl isEndTask).Reachable ok s) (hp : s.endTasksPushed = true) :
    ∃ k, PushedBy k s := by
  cases Reachable.winning h with
  | nobody _ _ hno | pushing _ _ _ _ hno => rw [hp] at hno; cases hno
  | pushed hreq hends =>
    refine ⟨s.taskQueue.pushes.length, ?_, hp, ?_⟩
    · by_contra hctor
      have hfresh := ((Reachable.view h).begun.fresh (by simpa [view] using hctor)).2.1
      rw [show s.view.isRequestStop = true from hreq] at hfresh
      cases hfresh
    · rw [List.take_length]
      exact hends.ge

/-- Whoever may still take an `EndTask` has not come to the last of them. -/
theorem PushedBy.lt {k : Nat} (hp : PushedBy k s) (h : (system n Cl isEndTask).Reachable ok s)
    (hi : (s.threads i).mayTake = true) : s.taskQueue.pops.length < k := by
  by_contra hle
  have hends := Reachable.ends_left h hp.2.1
  have htotal : s.endsPushed ≤ n := (Reachable.view h).begun.ends_le
  have hsplit : s.endsPushed = (s.taskQueue.pushes.take k).countP Item.isStop +
      (s.taskQueue.pushes.drop k).countP Item.isStop := by
    rw [← List.countP_append, List.take_append_drop]
    rfl
  have hrest : s.taskQueue.elems.countP Item.isStop ≤ (s.taskQueue.pushes.drop k).countP Item.isStop := by
    rw [s.taskQueue.elems_eq]
    exact (List.drop_sublist_drop_left _ (not_lt.mp hle)).countP_le
  have hone : 0 < (Finset.univ.filter fun i => (s.threads i).mayTake = true).card :=
    Finset.card_pos.mpr ⟨i, Finset.mem_filter.mpr ⟨Finset.mem_univ i, hi⟩⟩
  have := hp.2.2
  omega

theorem PushedBy.awake (hok : Unhindered ok) {k : Nat} (hp : PushedBy k s)
    (h : (system n Cl isEndTask).Reachable ok s) (i : Fin n) : Awake ok k i s :=
  ⟨hp.1, hok.worker s i, fun hpc => hp.lt h (mayTake_of_rank hpc), Reachable.not_blocked h hp.2.1 i⟩

/-- The pool has come to its end. -/
structure Over (s : FixedThreadPool n Cl T) : Prop where
  finished : s.state = .finished
  worker : ∀ i, (s.threads i).pc.isTerminated = true

/-- **A pool that was asked to stop comes to its end.** -/
theorem finally_over (hok : Unhindered ok) (hf : r.Fair Action.party) (h0 : 0 < n) :
    r.Finally fun s => s.isRequestStop = true → s.Over := by
  by_cases hreq : ∃ k, (r.state k).isRequestStop = true
  · obtain ⟨k, hk⟩ := hreq
    have hreq := Run.finally_of stable_isRequestStop hk
    obtain ⟨j, -, hpushed, hj⟩ := ((finally_endTasksPushed hok hf).and hreq).exists 0
    obtain ⟨m, hm⟩ := exists_pushedBy (r.reachable j) (hpushed hj)
    have hall := Run.finally_all fun i => worker_ends hok.toUnheld hf (i := i)
      ((Run.finally_of (stable_pushedBy m) hm).mono fun s hr h => h.awake hok hr i)
    exact (hall.and hreq).mono fun s hr h _ => ⟨((Reachable.stopSound hr h0).terminated h.2 h.1).1, h.1⟩
  · exact Run.finally_always fun k hk => absurd ⟨k, hk⟩ hreq

/-- **After a stop the pool comes to its end**, and so does its timer thread, if it was asked to. -/
theorem stop_ends (hok : Unhindered ok) (hf : r.Fair Action.party) (h0 : 0 < n) :
    r.Finally fun s => (s.isRequestStop = true → s.Over) ∧ s.Expired :=
  (finally_over hok hf h0).and (finally_expired hok.toUnheld hf)

theorem stop_ends_restRun : ∃ r : (system 1 Unit fun _ : Unit => false).Run fun s a => s.calm a = true,
    r.Fair Action.party ∧ (r.state 13).isRequestStop = true ∧
      r.Finally fun s => (s.isRequestStop = true → s.Over) ∧ s.Expired := by
  obtain ⟨r, hf, hr⟩ := exists_restRun
  exact ⟨r, hf, check_run hr (k := 13) (p := fun s => s.isRequestStop) (by decide),
    stop_ends unhindered_calm hf Nat.one_pos⟩

end Stop

/-! ## The calls -/

section Calls

/-- In `Cancel` of a task. -/
def ClientPC.cancels : ClientPC T → Bool
  | .cancelTask _ async _ => !async
  | _ => false

omit [DecidableEq Cl] [DecidableEq T] in
theorem Silent.cancels {pc pc' : ClientPC T} (h : Silent s pc pc') : pc'.cancels = false := by
  cases h with
  | @lost k => cases k <;> rfl
  | _ => rfl

/-- Nobody gets into `Cancel` of a task but by calling it. -/
theorem ClientStep.cancels (h : ClientStep c s s') (hc : (s.client c).cancels = false) :
    (s'.client c).cancels = false := by
  have move : ∀ {pc}, s'.client c = pc → pc.cancels = false → (s'.client c).cancels = false := by
    rintro pc rfl h
    exact h
  cases h with
  | silent _ hs => exact move (Function.update_self ..) hs.cancels
  | @pushedAll k => cases k <;> exact move (Function.update_self ..) rfl
  | setDeadline _ _ hor => rcases hor with rfl | ⟨_, rfl⟩ <;> exact move (Function.update_self ..) rfl
  | @unlockRunningTask _ raised => cases raised <;> exact move (Function.update_self ..) rfl
  | cancelThread _ hor | clearTimer _ _ hor =>
    rcases hor with ⟨-, rfl⟩ | ⟨-, rfl⟩ <;> exact move (Function.update_self ..) rfl
  | cancelTimer _ hor => rcases hor with ⟨-, rfl⟩ | ⟨-, rfl⟩ | ⟨-, rfl⟩ <;> exact move (Function.update_self ..) rfl
  | cancelTask hpc =>
    rw [hpc] at hc
    exact move (Function.update_self ..) hc
  | _ => exact move (Function.update_self ..) rfl

/-- In a call, but not in `Cancel` of a task. -/
def InCall (c : Cl) (s : FixedThreadPool n Cl T) : Prop := s.client c ≠ .idle ∧ (s.client c).cancels = false

/-- It stays there until it returns. -/
theorem step_inCall (h : (system n Cl isEndTask).step s a = some s') (hc : InCall c s) (hidle : s'.client c ≠ .idle) :
    InCall c s' := by
  refine ⟨hidle, ?_⟩
  rcases (step_cases h).client_pc c with heq | hnot | hp
  · rw [heq, hc.2]
  · exact absurd hnot hc.1
  · cases a with
    | client d i =>
      cases hp
      exact (clientStep_cases h).cancels hc.2
    | _ => cases hp

/-- When the timer thread has ended, and the workers after a stop, no other call waits. -/
theorem not_awaits (h : (system n Cl isEndTask).Reachable ok s) (he : Expired s) (ho : s.isRequestStop = true → s.Over)
    (hc : (s.client c).cancels = false) : ¬ s.Awaits (s.client c) := by
  have hi := Reachable.waits h
  have hasserts := (Reachable.outline h).asserts c
  have hplaced := hi.placed c
  intro hw
  cases hpc : s.client c with
  | blockedThread j =>
    rw [hpc] at hw hasserts
    obtain ⟨hj, hne⟩ := hw
    exact hne ((Reachable.heeding h ⟨j, hj⟩).state.mpr ((ho hasserts.1).worker ⟨j, hj⟩))
  | blockedFinished =>
    rw [hpc] at hw hasserts
    exact hw (ho hasserts).finished
  | blockedTimer k =>
    rw [hpc] at hw
    obtain ⟨tm, htm, hne⟩ := hw
    exact hne (he.over hi (c := c) (by rw [hpc]; rfl) htm).1
  | cancelTask t async p =>
    rw [hpc] at hw hc hplaced
    have hasync : async = true := by simpa [ClientPC.cancels] using hc
    cases p with
    | blocked => exact (hplaced hasync).2 rfl
    | _ => exact hw
  | _ => rw [hpc] at hw; exact hw

omit [DecidableEq Cl] [DecidableEq T] in
theorem not_guards_of_terminated {pc : WorkerThread.PC T} (h : pc.isTerminated = true) : pc.guards = false := by
  cases pc <;> first | rfl | cases h

/-- **Every call returns**, but for a `Cancel` of a task, which waits for the end of this. -/
theorem call_returns (hok : Unhindered ok) (hf : r.Fair Action.party) (h0 : 0 < n) (c : Cl) (k : Nat)
    (hc : ((r.state k).client c).cancels = false) : ∃ j ≥ k, (r.state j).client c = .idle := by
  by_contra hno
  have hbusy : ∀ j ≥ k, (r.state j).client c ≠ .idle := fun j hj h => hno ⟨j, hj, h⟩
  have hcall : r.Finally (InCall c) := Filter.eventually_atTop.mpr ⟨k, fun j hj =>
    Run.stays (J := InCall c) ⟨hbusy k le_rfl, hc⟩ hbusy (fun _ _ _ _ _ => step_inCall) hj⟩
  have hend := (finally_expired hok.toUnheld hf).and (finally_over hok hf h0)
  obtain ⟨pc, hstuck⟩ := client_settles hok.toUnheld hf ((hcall.and hend).mono fun s hr h =>
    ⟨h.1.1, not_awaits hr h.2.1 h.2.2 h.1.2⟩)
  -- what it is stuck before is free again and again
  have hall := hstuck.and (hcall.and hend)
  obtain ⟨j, hunlocked, ⟨hj, hstuckj⟩, hcallj, hexpired, hover⟩ := (often_unlocked hok.toUnheld hf).with hall
  obtain ⟨l, hfree, ⟨hl, hstuckl⟩, -, -, hoverl⟩ := (often_stateFree hok.toUnheld hf).with hall
  have hasserts := (Reachable.outline (r.reachable j)).asserts c
  have hassertsl := (Reachable.outline (r.reachable l)).asserts c
  unfold ClientStuck at hstuckj hstuckl
  rw [hj] at hstuckj hasserts
  rw [hl] at hstuckl hassertsl
  cases pc with
  | idle => exact hcallj.1 hj
  | pushTask | timerClear | clearTimer => exact hunlocked hstuckj
  | waitFinished => exact hfree (Option.ne_none_iff_exists'.mp hstuckl)
  | blockedFinished =>
    refine hfree (Option.ne_none_iff_exists'.mp (hstuckl.resolve_left ?_))
    exact ((Reachable.stopSound (r.reachable l) h0).terminated hassertsl (hoverl hassertsl).worker).2 c hl
  | lockRunningTask m =>
    obtain ⟨hm, -⟩ := hstuckj
    obtain ⟨q, hnot, ⟨hq, hstuckq⟩, -, -, hoverq⟩ := (often_notOwned hok.toUnheld hf ⟨m, hm⟩).with hall
    unfold ClientStuck at hstuckq
    have hassertsq := (Reachable.outline (r.reachable q)).asserts c
    rw [hq] at hstuckq hassertsq
    obtain ⟨_, hg⟩ := hstuckq
    have hterm := (hoverq hassertsq.1).worker ⟨m, hm⟩
    cases hown : ((r.state q).threads ⟨m, hm⟩).runningTaskGuard with
    | free => exact hg hown
    | client d => exact hnot ⟨d, hown⟩
    | worker =>
      have hguards := (Reachable.held (r.reachable q)).worker ⟨m, hm⟩ hown
      rw [not_guards_of_terminated hterm] at hguards
      cases hguards
  | blockedThread m =>
    obtain ⟨hm, hmem⟩ := hstuckj
    rw [(Reachable.heeding (r.reachable j) ⟨m, hm⟩).notified ((hover hasserts.1).worker ⟨m, hm⟩)] at hmem
    exact Finset.notMem_empty c hmem
  | blockedTimer =>
    obtain ⟨tm, htm, hmem⟩ := hstuckj
    rw [(hexpired.over (Reachable.waits (r.reachable j)) (c := c) (by rw [hj]; rfl) htm).2] at hmem
    exact Finset.notMem_empty c hmem
  | cancelTask t async p =>
    have hasync : async = true := by
      have := hcallj.2
      rw [hj] at this
      simpa [ClientPC.cancels] using this
    have hplaced := (Reachable.waits (r.reachable j)).placed c
    rw [hj] at hplaced
    cases p with
    | blocked => exact (hplaced hasync).2 rfl
    | _ => exact hstuckj
  | _ => exact hstuckj

/-- The client is in `Stop`, and returns. -/
theorem call_returns_restRun : ∃ r : (system 1 Unit fun _ : Unit => false).Run fun s a => s.calm a = true,
    r.Fair Action.party ∧ (r.state 15).client () ≠ .idle ∧ ∃ j ≥ 15, (r.state j).client () = .idle := by
  obtain ⟨r, hf, hr⟩ := exists_restRun
  have hcheck := check_run hr (k := 15) (p := fun s => !(s.client ()).isIdle && !(s.client ()).cancels) (by decide)
  simp only [Bool.and_eq_true, Bool.not_eq_true'] at hcheck
  refine ⟨r, hf, fun h => ?_, call_returns unhindered_calm hf Nat.one_pos () 15 hcheck.2⟩
  rw [h] at hcheck
  cases hcheck.1

end Calls

end Tpool.FixedThreadPool
