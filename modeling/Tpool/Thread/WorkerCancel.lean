import Mathlib.Data.Fintype.Basic
import Tpool.Thread.WorkerClients

/-!
# Cancelling a worker

- `CancelsAwake`: nobody is in `Cancel` or `CancelNow` while the worker is blocked in `Pop`. `cancel_progress`: then
  somebody moves.
- `falls_asleep`: where the worker is blocked, those who cancel it come to a stop. `cancel_deadlock`: a run in which
  they do.
-/

namespace Tpool.SharedWorker

open Concurrency

variable {Cl T : Type*} {isEndTask : T → Bool} {s s' : SharedWorker Cl T}

/-! ## Cancelling a worker that is awake -/

/-- In `Cancel` or `CancelNow`. -/
def ClientPC.inCancel : ClientPC T → Bool
  | .lockRunningTask | .cancelRunningTask | .onCallCancel | .unlockRunningTask _ | .cancelThread false | .waitThread
  | .blockedThread => true
  | _ => false

section Awake

variable [DecidableEq Cl] [DecidableEq T]

/-- The worker is blocked in `Pop`, and nobody has notified it. -/
def Asleep (s : SharedWorker Cl T) : Prop := s.pc = .blocked ∧ Popper.worker ∈ s.taskQueue.waiting

/-- The step that the worker makes here blocks it in `Pop`. -/
def FallsAsleep (s : SharedWorker Cl T) : Prop :=
  (s.pc = .pop ∨ s.pc = .blocked ∧ Popper.worker ∉ s.taskQueue.waiting) ∧ s.taskQueue.elems = []

/-- The user's code returns. -/
def Returns (_ : SharedWorker Cl T) : Action Cl T → Prop
  | .worker e | .client _ e => e = .ret
  | .call _ _ | .take | .wake _ => True

/-- The worker blocks in `Pop` only while nobody is in `Cancel` or `CancelNow`, and nobody calls them while it is
blocked there; the user's code returns. -/
def CancelsAwake (s : SharedWorker Cl T) (a : Action Cl T) : Prop :=
  Returns s a ∧ match a with
    | .worker _ => s.FallsAsleep → ∀ c, (s.client c).inCancel = false
    | .call _ m => m.start.inCancel = true → ¬ s.Asleep
    | .client _ _ | .take | .wake _ => True

variable {e : Exit} {c : Cl}

omit [DecidableEq T] [DecidableEq Cl] in
theorem Idles.inCancel {pc pc' : ClientPC T} (h : Idles pc pc') : pc'.inCancel = false := by cases h <;> rfl

omit [DecidableEq T] in
/-- A client gets into `Cancel` or `CancelNow` only by a call of it. -/
theorem ClientStep.inCancel (h : ClientStep c s s') :
    ∀ d, (s'.client d).inCancel = true → (s.client d).inCancel = true := by
  have hgo : ∀ (pc : ClientPC T), (pc.inCancel = true → (s.client c).inCancel = true) →
      ∀ d, ((s.gotoClient c pc).client d).inCancel = true → (s.client d).inCancel = true := by
    intro pc hpc d hd
    by_cases hdc : d = c
    · subst hdc
      exact hpc (by simpa [gotoClient] using hd)
    · simpa [gotoClient, Function.update_of_ne hdc] using hd
  cases h with
  | idles hpc hm => exact hgo _ fun h => by rw [hm.inCancel] at h; cases h
  | lock hpc => exact hgo _ fun _ => by rw [hpc]; rfl
  | @guarded pc pc' task hpc hg =>
    refine hgo _ fun _ => ?_
    rw [hpc]
    cases pc <;> first | rfl | cases hg
  | unlock hpc => exact hgo _ fun _ => by rw [hpc]; rfl
  | @cancelThread async hpc =>
    refine hgo _ fun h => ?_
    rw [hpc]
    cases async with
    | true => cases h
    | false => rfl
  | awaitThread hpc => exact hgo _ fun _ => by rcases hpc with hpc | ⟨hpc, -⟩ <;> rw [hpc] <;> rfl

omit [DecidableEq T] in
/-- A client's step leaves the worker where it is, and does not block it. -/
theorem ClientStep.awake (h : ClientStep c s s') (ha : s'.Asleep) : s.Asleep := by
  cases h with
  | idles _ _ hw => exact ⟨ha.1, hw ha.2⟩
  | _ => exact ha

omit [DecidableEq Cl] in
/-- The worker gets to sleep by the step that blocks it. -/
theorem WorkerStep.awake (h : WorkerStep isEndTask e s s') (ha : s'.Asleep) : s.FallsAsleep ∨ s.Asleep := by
  obtain ⟨hpc, hw⟩ := ha
  cases h with
  | move _ hm => cases hm <;> cases hpc
  | block hq hs =>
    rcases hs with hs | hs
    · exact Or.inl ⟨Or.inl hs, hq⟩
    · by_cases hin : Popper.worker ∈ s.taskQueue.waiting
      · exact Or.inr ⟨hs, hin⟩
      · exact Or.inl ⟨Or.inr ⟨hs, hin⟩, hq⟩
  | _ => cases hpc

/-- Nobody cancels a worker that sleeps. -/
theorem Reachable.awake (h : (system Cl isEndTask).Reachable CancelsAwake s) :
    s.Asleep → ∀ c, (s.client c).inCancel = false := by
  refine h.induct (I := fun s => s.Asleep → ∀ c, (s.client c).inCancel = false) ?_ ?_
  · intro _ c
    rfl
  · intro s a s' _ hok hs hi ha d
    by_contra hd
    have hd : (s'.client d).inCancel = true := by simpa using hd
    cases a with
    | call c m =>
      simp only [system, step] at hs
      split at hs <;> cases hs
      by_cases hdc : d = c
      · exact hok.2 (by simpa [gotoClient, hdc] using hd) ha
      · have := hi ha d
        rw [show (s.client d).inCancel = true by simpa [gotoClient, Function.update_of_ne hdc] using hd] at this
        cases this
    | client c e =>
      have hstep := clientStep_cases hs
      have := hi (hstep.awake ha) d
      rw [hstep.inCancel d hd] at this
      cases this
    | worker e =>
      have hstep := workerStep_cases hs
      have hclient : s'.client = s.client := by cases hstep <;> rfl
      rw [hclient] at hd
      rcases hstep.awake ha with hfalls | ha
      · rw [hok.2 hfalls d] at hd
        cases hd
      · rw [hi ha d] at hd
        cases hd
    | take =>
      obtain ⟨⟨k, x, q⟩, hq, rfl⟩ := Option.map_eq_some_iff.mp hs
      have hw : q.waiting = s.taskQueue.waiting := (TaskQueue.pop_spec hq).2.2.2.2.1
      have := hi ⟨ha.1, hw ▸ ha.2⟩ d
      rw [show (s.client d).inCancel = true from hd] at this
      cases this
    | wake w =>
      cases hs
      cases w with
      | worker =>
        have := ha.2
        simp [wakeStep, TaskQueue.wake] at this
      | thread | task =>
        have := hi ha d
        rw [show (s.client d).inCancel = true from hd] at this
        cases this

/-- A worker that is awake and does not wait for the guard takes its next step. -/
theorem worker_moves (isEndTask : T → Bool) (ha : ¬ s.Asleep) (ht : s.pc ≠ .terminated)
    (hl : s.pc = .lock → s.runningTaskGuard = .free) : ∃ s', s.workerStep isEndTask .ret = some s' := by
  cases hpc : s.pc with
  | terminated => exact absurd hpc ht
  | lock => exact ⟨_, by simp only [workerStep, hpc, hl hpc, if_true]; rfl⟩
  | blocked =>
    have hw : Popper.worker ∉ s.taskQueue.waiting := fun hw => ha ⟨hpc, hw⟩
    exact ⟨_, by simp only [workerStep, hpc, hw, if_false]; rfl⟩
  | dispatch =>
    cases hr : s.runningTask with
    | none => exact ⟨_, by simp only [workerStep, hpc, hr]; rfl⟩
    | some t =>
      cases ht : isEndTask t with
      | true => exact ⟨_, by simp only [workerStep, hpc, hr, ht, if_true]; rfl⟩
      | false => exact ⟨_, by simp only [workerStep, hpc, hr, ht, Bool.false_eq_true, if_false]; rfl⟩
  | run t p => cases p <;> simp [workerStep, hpc, TaskBase.run]
  | _ => simp [workerStep, hpc]

/-- Where somebody who cancels has to wait. -/
def ClientPC.Waits (s : SharedWorker Cl T) (c : Cl) : ClientPC T → Prop
  | .lockRunningTask => s.runningTaskGuard ≠ .free
  | .blockedThread => c ∈ s.thread.waiters
  | _ => False

/-- Somebody who cancels, and does not have to wait, takes the next step. -/
theorem client_moves (hc : (s.client c).inCancel = true) (hw : ¬ (s.client c).Waits s c) :
    ∃ s', s.clientStep c .ret = some s' := by
  cases hpc : s.client c with
  | lockRunningTask =>
    have hfree : s.runningTaskGuard = .free := by
      rw [hpc] at hw
      exact not_not.mp hw
    exact ⟨_, by simp only [clientStep, hpc, hfree, if_true]; rfl⟩
  | blockedThread =>
    have hout : c ∉ s.thread.waiters := by rwa [hpc] at hw
    exact ⟨_, by simp only [clientStep, hpc, hout, if_false]; rfl⟩
  | cancelRunningTask => cases hr : s.runningTask <;> simp [clientStep, hpc, hr]
  | onCallCancel | unlockRunningTask | cancelThread | waitThread => simp [clientStep, hpc]
  | idle | push | runTask | cancelTask => rw [hpc] at hc; cases hc

/-- **Cancelling a worker does not deadlock**, if nobody is in `Cancel` or `CancelNow` while the worker is blocked in
`Pop`. -/
theorem cancel_progress (h : (system Cl isEndTask).Reachable CancelsAwake s) (hc : (s.client c).inCancel = true) :
    (∃ s', s.workerStep isEndTask .ret = some s') ∨
      ∃ d, (s.client d).inCancel = true ∧ ∃ s', s.clientStep d .ret = some s' := by
  have hg := Reachable.guards h
  have hf := Reachable.finishes h
  have ha : ¬ s.Asleep := by
    intro ha
    rw [Reachable.awake h ha c] at hc
    cases hc
  -- who holds the guard moves
  have hholder : ∀ d, s.runningTaskGuard = .client d → ∃ d, (s.client d).inCancel = true ∧
      ∃ s', s.clientStep d .ret = some s' := by
    intro d hd
    have hguards := (hg.client d).mp hd
    refine ⟨d, ?_, client_moves ?_ ?_⟩
    · cases hpc : s.client d <;> rw [hpc] at hguards <;> first | rfl | cases hguards
    · cases hpc : s.client d <;> rw [hpc] at hguards <;> first | rfl | cases hguards
    · intro hw
      cases hpc : s.client d <;> rw [hpc] at hguards hw <;> first | exact hw | cases hguards
  by_cases ht : s.pc = .terminated
  · right
    by_cases hw : (s.client c).Waits s c
    · cases hpc : s.client c with
      | lockRunningTask =>
        cases hr : s.runningTaskGuard with
        | free => rw [hpc] at hw; exact absurd hr hw
        | client d => exact hholder d hr
        | worker =>
          have := hg.worker.mp hr
          rw [ht] at this
          cases this
      | blockedThread =>
        rw [hpc] at hw
        have hw : c ∈ s.thread.waiters := hw
        rw [hf.notified ht] at hw
        cases hw
      | _ => rw [hpc] at hw; exact hw.elim
    · exact ⟨c, hc, client_moves hc hw⟩
  · by_cases hl : s.pc = .lock → s.runningTaskGuard = .free
    · exact Or.inl (worker_moves isEndTask ha ht hl)
    · right
      obtain ⟨hl, hr⟩ := Classical.not_imp.mp hl
      cases hr' : s.runningTaskGuard with
      | free => exact absurd hr' hr
      | client d => exact hholder d hr'
      | worker =>
        have := hg.worker.mp hr'
        rw [hl] at this
        cases this

end Awake

/-! ## Cancelling a worker that sleeps -/

section Deadlock

variable [DecidableEq Cl] [DecidableEq T] {c : Cl}

/-- Somebody is in `Cancel` or `CancelNow`, and neither the worker nor anybody there can take a step. -/
structure Deadlock (isEndTask : T → Bool) (s : SharedWorker Cl T) : Prop where
  cancelling : ∃ c, (s.client c).inCancel = true
  worker : ∀ e, s.workerStep isEndTask e = none
  client : ∀ c e, (s.client c).inCancel = true → s.clientStep c e = none

/-- A step of somebody in `Cancel` or `CancelNow`. -/
def ByCanceller (s : SharedWorker Cl T) (a : Action Cl T) : Prop :=
  ∃ c, a = .client c .ret ∧ (s.client c).inCancel = true

omit [DecidableEq T] in
/-- The wait for a thread that has not finished. -/
theorem awaitThread_blocks (hf : s.thread.state ≠ .finished) : s.awaitThread c =
    { s.gotoClient c .blockedThread with thread := { s.thread with waiters := insert c s.thread.waiters } } := by
  simp [awaitThread, CancelableThread.awaitFinished, hf]

/-- Only the client `c` has moved, and it has come to a stop. -/
structure ComesToWait (isEndTask : T → Bool) (c : Cl) (s s' : SharedWorker Cl T) : Prop where
  reaches : (system Cl isEndTask).Reaches ByCanceller s s'
  asleep : s'.Asleep
  guard : s'.runningTaskGuard = s.runningTaskGuard
  waiters : s.thread.waiters ⊆ s'.thread.waiters
  others : ∀ d, d ≠ c → s'.client d = s.client d
  inCancel : (s'.client c).inCancel = true
  waits : (s'.client c).Waits s' c

/-- Who cancels a worker that sleeps comes to a stop. -/
theorem comes_to_wait (h : (system Cl isEndTask).Reachable Anything s) (ha : s.Asleep)
    (hc : (s.client c).inCancel = true) : ∃ s', ComesToWait isEndTask c s s' := by
  have hguard : s.runningTaskGuard = .worker := (Reachable.guards h).worker.mpr (by rw [ha.1]; rfl)
  have hfin : s.thread.state ≠ .finished := by
    intro hf
    have := (Reachable.finishes h).state.mp hf
    rw [ha.1] at this
    cases this
  have hstay : (s.client c).Waits s c → ∃ s', ComesToWait isEndTask c s s' :=
    fun hw => ⟨s, .refl, ha, rfl, subset_rfl, fun _ _ => rfl, hc, hw⟩
  -- the wait, from a state in which only `c` has moved
  have hwait : ∀ u : SharedWorker Cl T, (system Cl isEndTask).Reaches ByCanceller s u → (u.client c).inCancel = true →
      u.pc = s.pc → u.taskQueue = s.taskQueue → u.runningTaskGuard = s.runningTaskGuard →
      u.thread.state = s.thread.state → u.thread.waiters = s.thread.waiters → (∀ d, d ≠ c → u.client d = s.client d) →
      u.clientStep c .ret = some (u.awaitThread c) → ∃ s', ComesToWait isEndTask c s s' := by
    intro u hr hin hpc hq hg hstate hwaiters hother hstep
    rw [awaitThread_blocks (by rw [hstate]; exact hfin)] at hstep
    refine ⟨_, hr.tail ⟨_, ⟨c, rfl, hin⟩, hstep⟩, ⟨hpc.trans ha.1, ?_⟩, hg, ?_, ?_, ?_, ?_⟩
    · rw [show ({ u.gotoClient c .blockedThread with thread := _ } : SharedWorker Cl T).taskQueue = s.taskQueue from hq]
      exact ha.2
    · rw [← hwaiters]
      exact Finset.subset_insert _ _
    · intro d hd
      exact (Function.update_of_ne hd _ _).trans (hother d hd)
    · simp [gotoClient, ClientPC.inCancel]
    · simp [gotoClient, ClientPC.Waits]
  cases hpc : s.client c with
  | lockRunningTask => exact hstay (by rw [hpc]; simp [ClientPC.Waits, hguard])
  | cancelRunningTask | onCallCancel | unlockRunningTask =>
    have := ((Reachable.guards h).client c).mpr (by rw [hpc]; rfl)
    rw [hguard] at this
    cases this
  | cancelThread async =>
    have hasync : async = false := by
      rw [hpc] at hc
      cases async with
      | true => cases hc
      | false => rfl
    subst hasync
    have hstep : (system Cl isEndTask).step s (.client c .ret) =
        some { s.gotoClient c .waitThread with thread := s.thread.cancelAsync } := by
      simp [system, step, clientStep, hpc]
    refine hwait _ (.single ⟨_, ⟨c, rfl, hc⟩, hstep⟩) (by simp [gotoClient, ClientPC.inCancel]) rfl rfl rfl rfl
      rfl ?_ ?_
    · intro d hd
      exact Function.update_of_ne hd _ _
    · simp [clientStep, gotoClient]
  | waitThread =>
    exact hwait s .refl hc rfl rfl rfl rfl rfl (fun _ _ => rfl) (by simp only [clientStep, hpc])
  | blockedThread =>
    by_cases hin : c ∈ s.thread.waiters
    · exact hstay (by rw [hpc]; exact hin)
    · exact hwait s .refl hc rfl rfl rfl rfl rfl (fun _ _ => rfl) (by simp only [clientStep, hpc, hin, if_false])
  | _ => rw [hpc] at hc; cases hc

/-- Finitely many clients are in a call. -/
theorem Reachable.finitely_many (h : (system Cl isEndTask).Reachable Anything s) :
    ∃ F : Finset Cl, ∀ c ∉ F, s.client c = .idle := by
  refine h.induct (I := fun s => ∃ F : Finset Cl, ∀ c ∉ F, s.client c = .idle) ⟨∅, fun _ _ => rfl⟩ ?_
  rintro s a s' - - hs ⟨F, hF⟩
  have hmove : ∀ c, (∀ d, d ≠ c → s'.client d = s.client d) → ∃ F : Finset Cl, ∀ c ∉ F, s'.client c = .idle := by
    intro c hother
    refine ⟨insert c F, fun d hd => ?_⟩
    obtain ⟨hdc, hd⟩ := not_or.mp (mt Finset.mem_insert.mpr hd)
    rw [hother d hdc]
    exact hF d hd
  cases a with
  | call c m =>
    simp only [system, step] at hs
    split at hs <;> cases hs
    exact hmove c fun d hd => Function.update_of_ne hd _ _
  | client c e => exact hmove c (by cases clientStep_cases hs <;> exact fun d hd => Function.update_of_ne hd _ _)
  | worker e =>
    have hclient : s'.client = s.client := by cases workerStep_cases hs <;> rfl
    exact ⟨F, by rwa [hclient]⟩
  | take =>
    obtain ⟨x, -, rfl⟩ := Option.map_eq_some_iff.mp hs
    exact ⟨F, hF⟩
  | wake w => cases hs; cases w <;> exact ⟨F, hF⟩

/-- **Who cancels a worker that sleeps deadlocks with it.** -/
theorem falls_asleep (h : (system Cl isEndTask).Reachable Anything s) (ha : s.Asleep)
    (hc : (s.client c).inCancel = true) :
    ∃ s', (system Cl isEndTask).Reaches ByCanceller s s' ∧ Deadlock isEndTask s' := by
  obtain ⟨F, hF⟩ := Reachable.finitely_many h
  -- one after the other they come to a stop
  have hall : ∀ F : Finset Cl, ∀ s, (system Cl isEndTask).Reachable Anything s → s.Asleep →
      (s.client c).inCancel = true → (∀ d ∉ F, (s.client d).inCancel = true → (s.client d).Waits s d) →
      ∃ s', (system Cl isEndTask).Reaches ByCanceller s s' ∧ s'.Asleep ∧ (s'.client c).inCancel = true ∧
        ∀ d, (s'.client d).inCancel = true → (s'.client d).Waits s' d := by
    intro F
    induction F using Finset.induction_on with
    | empty => exact fun s _ ha hc hw => ⟨s, .refl, ha, hc, fun d => hw d (by simp)⟩
    | insert d F _ ih =>
      intro s h ha hc hw
      by_cases hd : (s.client d).inCancel = true
      · obtain ⟨u, hu⟩ := comes_to_wait h ha hd
        have hcu : (u.client c).inCancel = true := by
          by_cases hcd : c = d
          · rw [hcd]; exact hu.inCancel
          · rw [hu.others c hcd]; exact hc
        have hwu : ∀ v ∉ F, (u.client v).inCancel = true → (u.client v).Waits u v := by
          intro v hv hinv
          by_cases hvd : v = d
          · rw [hvd]; exact hu.waits
          · rw [hu.others v hvd] at hinv ⊢
            have hwv := hw v (by simp [hvd, hv]) hinv
            cases hpc : s.client v with
            | lockRunningTask => rw [hpc] at hwv; exact fun hg => hwv (hu.guard ▸ hg)
            | blockedThread => rw [hpc] at hwv; exact hu.waiters hwv
            | _ => rw [hpc] at hwv; exact hwv
        have hru : (system Cl isEndTask).Reachable Anything u :=
          h.reaches (Relation.ReflTransGen.mono (fun _ _ ⟨a, _, hs⟩ => ⟨a, trivial, hs⟩) _ _ hu.reaches)
        obtain ⟨s', hr', hs'⟩ := ih u hru hu.asleep hcu hwu
        exact ⟨s', hu.reaches.trans hr', hs'⟩
      · refine ih s h ha hc fun v hv hinv => ?_
        refine hw v (fun hm => ?_) hinv
        rcases Finset.mem_insert.mp hm with rfl | hm
        · exact hd hinv
        · exact hv hm
  obtain ⟨s', hr, ha', hc', hw⟩ := hall F s h ha hc fun d hd hin => by rw [hF d hd] at hin; cases hin
  refine ⟨s', hr, ⟨c, hc'⟩, fun e => ?_, fun d e hd => ?_⟩
  · simp only [workerStep, ha'.1, ha'.2, if_true]
  · have hw := hw d hd
    cases hpc : s'.client d with
    | lockRunningTask =>
      rw [hpc] at hw
      simp only [clientStep, hpc]
      exact if_neg hw
    | blockedThread =>
      rw [hpc] at hw
      simp only [clientStep, hpc]
      exact if_pos hw
    | _ => rw [hpc] at hw; exact hw.elim

end Deadlock

/-! ## Runs -/

section Evaluated

variable [DecidableEq T] [Fintype Cl]

instance (s : SharedWorker Cl T) : Decidable s.Asleep :=
  inferInstanceAs (Decidable (s.pc = .blocked ∧ Popper.worker ∈ s.taskQueue.waiting))

instance (s : SharedWorker Cl T) : Decidable s.FallsAsleep :=
  inferInstanceAs (Decidable ((s.pc = .pop ∨ s.pc = .blocked ∧ Popper.worker ∉ s.taskQueue.waiting) ∧
    s.taskQueue.elems = []))

instance (s : SharedWorker Cl T) (a : Action Cl T) : Decidable (Returns s a) := match a with
  | .worker e | .client _ e => inferInstanceAs (Decidable (e = .ret))
  | .call _ _ | .take | .wake _ => isTrue trivial

instance (s : SharedWorker Cl T) (a : Action Cl T) : Decidable (CancelsAwake s a) := match a with
  | .worker e => inferInstanceAs (Decidable (e = .ret ∧ (s.FallsAsleep → ∀ c, (s.client c).inCancel = false)))
  | .call _ m => inferInstanceAs (Decidable (True ∧ (m.start.inCancel = true → ¬ s.Asleep)))
  | .client _ e => inferInstanceAs (Decidable (e = .ret ∧ True))
  | .take | .wake _ => inferInstanceAs (Decidable (True ∧ True))

end Evaluated

/-- A worker that is cancelled while it runs a task. -/
theorem cancel_progress_run : ∃ s : SharedWorker Unit Unit, s.client () = .blockedThread ∧ () ∈ s.thread.waiters ∧
    ((∃ s', s.workerStep (fun _ => false) .ret = some s') ∨
      ∃ d, (s.client d).inCancel = true ∧ ∃ s', s.clientStep d .ret = some s') := by
  obtain ⟨s, hs, hp⟩ := System.reachable_of_exec (system Unit fun _ : Unit => false) CancelsAwake
    ([.call () (.push (some ())), .client () .ret] ++ List.replicate 9 (.worker .ret) ++
      [.call () .cancel, .client () .ret, .client () .ret])
    (fun s => s.client () == .blockedThread && decide (() ∈ s.thread.waiters)) (by decide)
  obtain ⟨hpc, hw⟩ := by simpa only [Bool.and_eq_true, beq_iff_eq, decide_eq_true_eq] using hp
  exact ⟨s, hpc, hw, cancel_progress (c := ()) hs (by rw [hpc]; rfl)⟩

/-- **Cancelling a worker deadlocks**, when the worker is blocked in `Pop`. -/
theorem cancel_deadlock : ∃ s : SharedWorker Unit Unit,
    (system Unit fun _ : Unit => false).Reachable Returns s ∧ Deadlock (fun _ => false) s := by
  obtain ⟨s, hs, hp⟩ := System.reachable_of_exec (system Unit fun _ : Unit => false) Returns
    (List.replicate 5 (.worker .ret) ++ [.call () .cancel, .client () .ret, .client () .ret])
    (fun s => decide s.Asleep && (s.client () == .blockedThread && decide (() ∈ s.thread.waiters))) (by decide)
  obtain ⟨⟨hpc, hw⟩, hc, hin⟩ := by simpa only [Bool.and_eq_true, beq_iff_eq, decide_eq_true_eq] using hp
  refine ⟨s, hs, ⟨(), by rw [hc]; rfl⟩, fun e => ?_, fun _ e _ => ?_⟩
  · simp only [workerStep, hpc, hw, if_true]
  · simp only [clientStep, hc, hin, if_true]

end Tpool.SharedWorker
