import Tpool.Thread.SharedWorker

/-!
# Those who use a worker

- `ClientStep`: what a client's step does to the guard, the thread and the queue.
- `Guards`: who holds `m_runningTaskGuard`, by where the worker and the clients are.
- `Finishes`: who waits for the end of the thread has asked for it, and nobody waits for a thread that has finished.
-/

namespace Tpool.SharedWorker

open Concurrency

variable {Cl T : Type*} {isEndTask : T → Bool} {s s' : SharedWorker Cl T}

/-! ## The steps of the clients -/

/-- A client holds `m_runningTaskGuard`. -/
def ClientPC.guards : ClientPC T → Bool
  | .cancelRunningTask | .onCallCancel | .unlockRunningTask _ => true
  | _ => false

/-- The worker holds it. -/
def PC.guards : PC T → Bool
  | .pop | .blocked | .unlock => true
  | _ => false

section Steps

variable [DecidableEq Cl] [DecidableEq T] {c : Cl} {e : Exit}

/-- A client moves on in a call where it neither holds the guard nor uses the thread. -/
inductive Idles : ClientPC T → ClientPC T → Prop
  | push {task} : Idles (.push task) .idle
  | hasRun {t p} : Idles (.runTask t p) .idle
  | run {t p p'} : Idles (.runTask t p) (.runTask t p')
  | hasCancelled {t async p} : Idles (.cancelTask t async p) .idle
  | cancel {t async p p'} : Idles (.cancelTask t async p) (.cancelTask t async p')

/-- A step of the client `c`, by what it does to the guard and the thread. -/
inductive ClientStep (c : Cl) (s : SharedWorker Cl T) : SharedWorker Cl T → Prop
  | idles {pc pc' taskQueue task} : s.client c = pc → Idles pc pc' →
      (Popper.worker ∈ taskQueue.waiting → Popper.worker ∈ s.taskQueue.waiting) →
      ClientStep c s { s.gotoClient c pc' with taskQueue, task }
  | lock : s.client c = .lockRunningTask → s.runningTaskGuard = .free →
      ClientStep c s { s.gotoClient c .cancelRunningTask with runningTaskGuard := .client c }
  | guarded {pc pc' task} : s.client c = pc → pc.guards = true → pc'.guards = true →
      ClientStep c s { s.gotoClient c pc' with task }
  | unlock {raised} : s.client c = .unlockRunningTask raised →
      ClientStep c s { s.gotoClient c (if raised then .idle else .cancelThread false) with runningTaskGuard := .free }
  | cancelThread {async} : s.client c = .cancelThread async →
      ClientStep c s { s.gotoClient c (if async then .idle else .waitThread) with thread := s.thread.cancelAsync }
  | awaitThread : s.client c = .waitThread ∨ s.client c = .blockedThread ∧ c ∉ s.thread.waiters →
      ClientStep c s (s.awaitThread c)

theorem clientStep_cases (h : s.clientStep c e = some s') : ClientStep c s s' := by
  cases hpc : s.client c with
  | idle => simp [clientStep, hpc] at h
  | push task =>
    simp only [clientStep, hpc, Option.some.injEq] at h
    subst h
    refine .idles hpc .push ?_
    intro hw
    by_cases hq : s.taskQueue.elems.isEmpty = true
    · simp [TaskQueue.push, hq] at hw
    · simpa [TaskQueue.push, hq] using hw
  | lockRunningTask =>
    simp only [clientStep, hpc] at h
    split at h <;> cases h
    exact .lock hpc ‹_›
  | cancelRunningTask =>
    simp only [clientStep, hpc] at h
    split at h <;> cases h
    · exact .guarded hpc rfl rfl
    · exact .guarded hpc rfl rfl
  | onCallCancel => simp only [clientStep, hpc, Option.some.injEq] at h; subst h; exact .guarded hpc rfl rfl
  | unlockRunningTask raised => simp only [clientStep, hpc, Option.some.injEq] at h; subst h; exact .unlock hpc
  | cancelThread async => simp only [clientStep, hpc, Option.some.injEq] at h; subst h; exact .cancelThread hpc
  | waitThread => simp only [clientStep, hpc, Option.some.injEq] at h; subst h; exact .awaitThread (Or.inl hpc)
  | blockedThread =>
    simp only [clientStep, hpc] at h
    split at h <;> cases h
    exact .awaitThread (Or.inr ⟨hpc, ‹_›⟩)
  | runTask t p =>
    by_cases hp : p = .ret ∨ p = .raised
    · have h : s' = s.gotoClient c .idle := by rcases hp with rfl | rfl <;> simpa [clientStep, hpc] using h.symm
      subst h
      exact .idles hpc .hasRun id
    · have h : ((s.task t).run p e).map (fun r => (s.setTask t r.1).gotoClient c (.runTask t r.2)) = some s' := by
        cases p <;> simp_all [clientStep]
      obtain ⟨⟨b, p'⟩, -, rfl⟩ := Option.map_eq_some_iff.mp h
      exact .idles hpc .run id
  | cancelTask t async p =>
    by_cases hp : p = .ret ∨ p = .raised
    · have h : s' = s.gotoClient c .idle := by rcases hp with rfl | rfl <;> simpa [clientStep, hpc] using h.symm
      subst h
      exact .idles hpc .hasCancelled id
    · have h : ((s.task t).cancel async c p e).map
          (fun r => (s.setTask t r.1).gotoClient c (.cancelTask t async r.2)) = some s' := by
        cases p <;> simp_all [clientStep]
      obtain ⟨⟨b, p'⟩, -, rfl⟩ := Option.map_eq_some_iff.mp h
      exact .idles hpc .cancel id

end Steps

/-! ## The guard and the end of the thread -/

section Guards

/-- The guard is held by whoever stands in one of its sections. -/
structure Guards (s : SharedWorker Cl T) : Prop where
  worker : s.runningTaskGuard = .worker ↔ s.pc.guards = true
  client : ∀ c, s.runningTaskGuard = .client c ↔ (s.client c).guards = true

variable [DecidableEq T] {e : Exit}

omit [DecidableEq T] in
theorem Move.guards {pc pc' : PC T} (h : Move isEndTask s pc pc') : pc'.guards = pc.guards := by
  cases h with
  | cancelled hpc => rcases hpc with rfl | rfl <;> rfl
  | _ => rfl

theorem Guards.workerStep (hi : Guards s) (h : WorkerStep isEndTask e s s') : Guards s' := by
  have hstay : ∀ {s' : SharedWorker Cl T}, s'.pc.guards = s.pc.guards → s'.runningTaskGuard = s.runningTaskGuard →
      s'.client = s.client → Guards s' := by
    intro s' hpc hguard hclient
    refine ⟨?_, ?_⟩
    · rw [hguard, hpc]
      exact hi.worker
    · rw [hguard, hclient]
      exact hi.client
  cases h with
  | move hpc hm => exact hstay (by rw [hpc]; exact hm.guards) rfl rfl
  | setRunning hpc | start hpc | run hpc | notifyFinished hpc => exact hstay (by rw [hpc]; rfl) rfl rfl
  | pop hpc => rcases hpc with hpc | ⟨hpc, -⟩ <;> exact hstay (by rw [hpc]; rfl) rfl rfl
  | block _ hpc => rcases hpc with hpc | hpc <;> exact hstay (by simp [hpc, PC.guards]) rfl rfl
  | lock hpc hfree =>
    refine ⟨by simp [PC.guards], fun c => ?_⟩
    rw [← hi.client c, hfree]
    simp
  | unlock hpc =>
    have hworker : s.runningTaskGuard = .worker := hi.worker.mpr (by rw [hpc]; rfl)
    refine ⟨by simp [PC.guards], fun c => ?_⟩
    rw [← hi.client c, hworker]
    simp

variable [DecidableEq Cl] {c : Cl}

omit [DecidableEq T] in
/-- A client moves on, and the guard with it. -/
theorem Guards.goto (hi : Guards s) {pc : ClientPC T} (hpc : s'.pc = s.pc)
    (hc : s'.client = Function.update s.client c pc)
    (hg : s'.runningTaskGuard = s.runningTaskGuard ∧ (s.client c).guards = pc.guards ∨
      s.runningTaskGuard = .free ∧ s'.runningTaskGuard = .client c ∧ pc.guards = true ∨
      (s.client c).guards = true ∧ s'.runningTaskGuard = .free ∧ pc.guards = false) : Guards s' := by
  have hself : s'.client c = pc := by rw [hc, Function.update_self]
  have hother : ∀ d, d ≠ c → s'.client d = s.client d := fun d hd => by rw [hc, Function.update_of_ne hd]
  rcases hg with ⟨hg, hsame⟩ | ⟨hfree, hg, htakes⟩ | ⟨hheld, hg, hleaves⟩
  · refine ⟨by rw [hg, hpc]; exact hi.worker, fun d => ?_⟩
    by_cases hd : d = c
    · rw [hd, hg, hself, ← hsame]
      exact hi.client c
    · rw [hg, hother d hd]
      exact hi.client d
  · refine ⟨?_, fun d => ?_⟩
    · rw [hg, hpc, ← hi.worker, hfree]
      simp
    · by_cases hd : d = c
      · rw [hd, hg, hself]
        simp [htakes]
      · rw [hg, hother d hd, ← hi.client d, hfree]
        simp [Ne.symm hd]
  · have hclient : s.runningTaskGuard = .client c := (hi.client c).mpr hheld
    refine ⟨?_, fun d => ?_⟩
    · rw [hg, hpc, ← hi.worker, hclient]
      simp
    · by_cases hd : d = c
      · rw [hd, hg, hself]
        simp [hleaves]
      · rw [hg, hother d hd, ← hi.client d, hclient]
        simp [Ne.symm hd]

omit [DecidableEq T] in
theorem Guards.clientStep (hi : Guards s) (h : ClientStep c s s') : Guards s' := by
  cases h with
  | idles hpc hm => exact hi.goto rfl rfl (Or.inl ⟨rfl, by rw [hpc]; cases hm <;> rfl⟩)
  | lock hpc hfree => exact hi.goto rfl rfl (Or.inr (Or.inl ⟨hfree, rfl, rfl⟩))
  | guarded hpc hg hg' => exact hi.goto rfl rfl (Or.inl ⟨rfl, by rw [hpc, hg, hg']⟩)
  | @unlock raised hpc =>
    exact hi.goto rfl rfl (Or.inr (Or.inr ⟨by rw [hpc]; rfl, rfl, by cases raised <;> rfl⟩))
  | @cancelThread async hpc => exact hi.goto rfl rfl (Or.inl ⟨rfl, by rw [hpc]; cases async <;> rfl⟩)
  | awaitThread hpc =>
    refine hi.goto rfl rfl (Or.inl ⟨rfl, ?_⟩)
    rcases hpc with hpc | ⟨hpc, -⟩ <;> rw [hpc] <;> split <;> rfl

theorem Reachable.guards {ok : SharedWorker Cl T → Action Cl T → Prop} (h : (system Cl isEndTask).Reachable ok s) :
    Guards s := by
  refine h.induct (I := Guards) ?_ ?_
  · exact ⟨by simp [system, new, PC.guards], by simp [system, new, ClientPC.guards]⟩
  · intro s a s' _ _ hs hi
    cases a with
    | call c m =>
      simp only [system, step] at hs
      split at hs <;> cases hs
      exact hi.goto rfl rfl (Or.inl ⟨rfl, by rw [‹s.client c = _›]; cases m <;> rfl⟩)
    | client c e => exact hi.clientStep (clientStep_cases hs)
    | worker e => exact hi.workerStep (workerStep_cases hs)
    | take =>
      obtain ⟨x, -, rfl⟩ := Option.map_eq_some_iff.mp hs
      exact ⟨hi.worker, hi.client⟩
    | wake w => cases hs; cases w <;> exact ⟨hi.worker, hi.client⟩

end Guards

section Finishes

/-- A client has asked for the end of the thread and waits for it. -/
def ClientPC.waits : ClientPC T → Bool
  | .waitThread | .blockedThread => true
  | _ => false

/-- The state tells whether the worker has terminated; who waits for that has asked for it, and has been notified. -/
def Finishes (s : SharedWorker Cl T) : Prop :=
  s.thread.Awaited (s.pc = .terminated) (fun c => (s.client c).waits = true) fun c => s.client c = .blockedThread

variable [DecidableEq T] {e : Exit}

theorem Finishes.workerStep (hi : Finishes s) (h : WorkerStep isEndTask e s s') : Finishes s' := by
  have hstay : ∀ {s' : SharedWorker Cl T}, s'.pc ≠ .terminated → s.pc ≠ .terminated → s'.thread = s.thread →
      s'.client = s.client → Finishes s' := by
    intro s' hpc' hpc hthread hclient
    unfold Finishes
    rw [hthread, hclient]
    exact hi.frame ⟨fun h => absurd h hpc', fun h => absurd h hpc⟩ (fun _ => id) fun _ => id
  cases h with
  | move hpc hm =>
    refine hstay ?_ ?_ rfl rfl
    · cases hm <;> simp [SharedWorker.goto]
    · rw [hpc]
      cases hm with
      | cancelled h => rcases h with rfl | rfl <;> simp
      | _ => simp
  | setRunning => exact hi.setRunning (by simp)
  | lock hpc | unlock hpc | start hpc | run hpc => exact hstay (by simp) (by simp [hpc]) rfl rfl
  | pop hpc => rcases hpc with hpc | ⟨hpc, -⟩ <;> exact hstay (by simp) (by simp [hpc]) rfl rfl
  | block _ hpc => rcases hpc with hpc | hpc <;> exact hstay (by simp) (by simp [hpc]) rfl rfl
  | notifyFinished => exact hi.notifyFinished rfl fun c hc => by rw [hc]; rfl

variable [DecidableEq Cl] {c : Cl}

omit [DecidableEq T] in
/-- A client moves on, and the thread is left as it is. -/
theorem Finishes.goto (hi : Finishes s) {pc : ClientPC T} (hpc : s'.pc = s.pc) (ht : s'.thread = s.thread)
    (hc : s'.client = Function.update s.client c pc) (hold : s.client c ≠ .blockedThread) (hnew : pc.waits = false) :
    Finishes s' := by
  unfold Finishes
  rw [ht, hc, hpc]
  refine hi.frame Iff.rfl ?_ ?_
  · intro d hd
    by_cases hdc : d = c
    · rw [hdc, Function.update_self, hnew] at hd
      cases hd
    · rwa [Function.update_of_ne hdc] at hd
  · intro d hd
    have hdc : d ≠ c := by
      rintro rfl
      exact hold hd
    rwa [Function.update_of_ne hdc]

omit [DecidableEq T] in
theorem Finishes.clientStep (hi : Finishes s) (h : ClientStep c s s') : Finishes s' := by
  cases h with
  | idles hpc hm => exact hi.goto rfl rfl rfl (by rw [hpc]; cases hm <;> simp) (by cases hm <;> rfl)
  | lock hpc => exact hi.goto rfl rfl rfl (by simp [hpc]) rfl
  | @guarded pc pc' task hpc hg hg' =>
    refine hi.goto rfl rfl rfl ?_ ?_
    · rw [hpc]
      rintro rfl
      cases hg
    · cases pc' <;> first | rfl | cases hg'
  | @unlock raised hpc => exact hi.goto rfl rfl rfl (by simp [hpc]) (by cases raised <;> rfl)
  | @cancelThread async hpc =>
    refine hi.cancelAsync ?_
    intro d hd
    have hdc : d ≠ c := by
      rintro rfl
      rw [hd] at hpc
      cases hpc
    exact (Function.update_of_ne hdc _ _).trans hd
  | awaitThread hpc =>
    refine hi.awaitFinished (c := c) ?_ ?_ ?_
    · rcases hpc with hpc | ⟨hpc, -⟩ <;> rw [hpc] <;> rfl
    · intro d hdc hd
      exact (Function.update_of_ne hdc _ _).trans hd
    · intro hf
      simp [awaitThread, gotoClient, CancelableThread.awaitFinished, hf]

theorem Reachable.finishes {ok : SharedWorker Cl T → Action Cl T → Prop} (h : (system Cl isEndTask).Reachable ok s) :
    Finishes s := by
  refine h.induct (I := Finishes) ?_ ?_
  · exact CancelableThread.Awaited.new.frame (by simp [system, new]) (by simp [system, new, ClientPC.waits]) fun _ =>
      False.elim
  · intro s a s' _ _ hs hi
    cases a with
    | call c m =>
      simp only [system, step] at hs
      split at hs <;> cases hs
      rename_i hidle
      exact hi.goto rfl rfl rfl (by simp [hidle]) (by cases m <;> rfl)
    | client c e => exact hi.clientStep (clientStep_cases hs)
    | worker e => exact hi.workerStep (workerStep_cases hs)
    | take =>
      obtain ⟨x, -, rfl⟩ := Option.map_eq_some_iff.mp hs
      exact hi
    | wake w =>
      cases hs
      cases w with
      | worker | task => exact hi
      | thread c => exact hi.wake c

end Finishes

end Tpool.SharedWorker
