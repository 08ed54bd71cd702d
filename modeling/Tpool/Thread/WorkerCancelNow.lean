import Tpool.Concurrency.Observe
import Tpool.Thread.WorkerClients

/-!
# What CancelNow cancels

- `recorded`: the worker with two marks, that a `CancelNow` has released `m_runningTaskGuard`, and that the worker has
  fetched since. `Marked`: the task that a `CancelNow` found was asked to cancel, and the worker has no other task until
  it fetches again.
- `cancelNow_asks`: a worker that is not overtaken runs only tasks that were asked to cancel. `Overtakes`: between the
  release and the request to the thread, the worker fetches another task and gets past its second check.
- `overtaken_runs`: then it runs that task. `cancelNow_overtaken`: a run in which `CancelNow` waits for it.
-/

namespace Tpool.SharedWorker

open Concurrency

variable {Cl T : Type*} {isEndTask : T → Bool} {s s' : SharedWorker Cl T}

/-! ## Requests are kept -/

section Requests

variable [DecidableEq Cl] [DecidableEq T] {c : Cl} {e : Exit} {t u : T}

omit [DecidableEq Cl] in
/-- One task changes, and its cancel stays requested. -/
theorem setTask_requested {b : TaskBase Cl} (hb : (s.task u).isRequestCancel = true → b.isRequestCancel = true)
    (ht : (s.task t).isRequestCancel = true) : ((s.setTask u b).task t).isRequestCancel = true := by
  by_cases htu : t = u
  · subst htu
    simpa [setTask] using hb ht
  · simpa [setTask, htu] using ht

/-- No client takes a request back. -/
theorem clientStep_requested (h : s.clientStep c e = some s') (ht : (s.task t).isRequestCancel = true) :
    (s'.task t).isRequestCancel = true := by
  unfold clientStep at h
  split at h
  · cases h
  · cases h; exact ht
  · split at h <;> cases h
    exact ht
  · split at h <;> cases h
    · exact setTask_requested (fun _ => rfl) ht
    · exact ht
  · cases h; exact ht
  · cases h; exact ht
  · cases h; exact ht
  · cases h; exact ht
  · split at h <;> cases h
    exact ht
  · cases h; exact ht
  · cases h; exact ht
  · cases h; exact ht
  · cases h; exact ht
  · obtain ⟨⟨b, p'⟩, hr, rfl⟩ := Option.map_eq_some_iff.mp h
    exact setTask_requested (fun h => (TaskBase.run_isRequestCancel hr).trans h) ht
  · obtain ⟨⟨b, p'⟩, hr, rfl⟩ := Option.map_eq_some_iff.mp h
    exact setTask_requested (TaskBase.cancel_keeps hr).2 ht

omit [DecidableEq Cl] in
theorem WorkerStep.requested (h : WorkerStep isEndTask e s s') (ht : (s.task t).isRequestCancel = true) :
    (s'.task t).isRequestCancel = true := by
  cases h with
  | run hpc hr => exact setTask_requested (fun h => (TaskBase.run_isRequestCancel hr).trans h) ht
  | _ => exact ht

end Requests

/-! ## The two marks -/

/-- A `CancelNow` has released the guard; the worker has fetched since. -/
structure Release where
  released : Bool
  late : Bool
  deriving DecidableEq

/-- The marks after a step. -/
def Release.note (s : SharedWorker Cl T) : Action Cl T → Release → Release
  | .client c _, r => match s.client c with
    | .unlockRunningTask _ => { r with released := true }
    | _ => r
  | .worker _, r => match s.pc with
    | .lock => { r with late := r.released }
    | _ => r
  | .call _ _, r | .take, r | .wake _, r => r

/-- The worker with the two marks. -/
def recorded (Cl : Type*) {T : Type*} [DecidableEq Cl] [DecidableEq T] (isEndTask : T → Bool) :
    System (SharedWorker Cl T × Release) (Action Cl T) := (system Cl isEndTask).observe ⟨false, false⟩ Release.note

/-- The task that was fetched, if it is a user's, was asked to cancel. -/
def Asked (isEndTask : T → Bool) (s : SharedWorker Cl T) : Prop :=
  ∀ t ∈ s.runningTask, isEndTask t = false → (s.task t).isRequestCancel = true

/-- `CancelNow` has been at `m_runningTask` and still holds the guard. -/
def ClientPC.hasMarked : ClientPC T → Bool
  | .onCallCancel | .unlockRunningTask _ => true
  | _ => false

/-- The worker is past its second check. -/
def PC.started : PC T → Bool
  | .dispatch | .run _ _ => true
  | _ => false

/-- The worker passes its second check, as its thread was not asked to cancel, with a user's task that it fetched after
a `CancelNow` released the guard and that nobody asked to cancel. -/
def Overtakes (isEndTask : T → Bool) (x : SharedWorker Cl T × Release) : Prop :=
  x.1.pc = .recheck ∧ x.1.thread.isRequestCancel = false ∧ x.2.late = true ∧
    ∃ t ∈ x.1.runningTask, isEndTask t = false ∧ (x.1.task t).isRequestCancel = false

instance [DecidableEq T] (x : SharedWorker Cl T × Release) : Decidable (Overtakes isEndTask x) :=
  inferInstanceAs (Decidable (x.1.pc = .recheck ∧ x.1.thread.isRequestCancel = false ∧ x.2.late = true ∧
    ∃ t ∈ x.1.runningTask, isEndTask t = false ∧ (x.1.task t).isRequestCancel = false))

/-- The worker does not overtake `CancelNow`. -/
def NotOvertaken (isEndTask : T → Bool) (x : SharedWorker Cl T × Release) : Action Cl T → Prop
  | .worker _ => ¬ Overtakes isEndTask x
  | .call _ _ | .client _ _ | .take | .wake _ => True

instance [DecidableEq T] (x : SharedWorker Cl T × Release) (a : Action Cl T) : Decidable (NotOvertaken isEndTask x a) :=
  match a with
  | .worker _ => inferInstanceAs (Decidable (¬ Overtakes isEndTask x))
  | .call _ _ | .client _ _ | .take | .wake _ => isTrue trivial

/-- What the worker has at each point after a `CancelNow` has released the guard. -/
structure Marked (isEndTask : T → Bool) (x : SharedWorker Cl T × Release) : Prop where
  marked : ∀ c, (x.1.client c).hasMarked = true → Asked isEndTask x.1
  running : ∀ t p, x.1.pc = .run t p → x.1.runningTask = some t ∧ isEndTask t = false
  fetching : x.1.pc.guards = true → x.2.late = x.2.released
  fetched : x.2.released = true → x.2.late = false → x.1.pc = .recheck → Asked isEndTask x.1
  started : x.2.released = true → x.1.pc.started = true → Asked isEndTask x.1

section Marked

variable [DecidableEq Cl] [DecidableEq T] {c : Cl} {e : Exit} {r : Release}

omit [DecidableEq Cl] [DecidableEq T] in
theorem Asked.frame (hi : Asked isEndTask s) (hr : s'.runningTask = s.runningTask)
    (hk : ∀ t, (s.task t).isRequestCancel = true → (s'.task t).isRequestCancel = true) : Asked isEndTask s' := by
  intro t ht hu
  rw [hr] at ht
  exact hk t (hi t ht hu)

/-- `CancelNow` gets to where it has marked the task by marking it. -/
theorem clientStep_marks (h : s.clientStep c e = some s') {d : Cl} (hd : (s'.client d).hasMarked = true) :
    (s.client d).hasMarked = true ∨ Asked isEndTask s' := by
  by_cases hdc : d = c
  · subst hdc
    cases hpc : s.client d with
    | cancelRunningTask =>
      right
      simp only [clientStep, hpc] at h
      split at h <;> cases h
      · rename_i t ht
        intro u hu _
        obtain rfl : t = u := by simpa [gotoClient, setTask, ht] using hu
        simp [gotoClient, setTask]
      · rename_i hnone
        intro u hu _
        simp [gotoClient, hnone] at hu
    | onCallCancel | unlockRunningTask => exact Or.inl rfl
    | _ =>
      have hstep := clientStep_cases h
      exfalso
      cases hstep with
      | @idles _ _ _ _ _ hm => cases hm <;> simp [gotoClient, ClientPC.hasMarked] at hd
      | lock => simp [gotoClient, ClientPC.hasMarked] at hd
      | guarded hp hg => rw [hpc] at hp; subst hp; cases hg
      | unlock hp => rw [hpc] at hp; cases hp
      | @cancelThread async => cases async <;> simp [gotoClient, ClientPC.hasMarked] at hd
      | awaitThread =>
        simp only [awaitThread, gotoClient, Function.update_self] at hd
        split at hd <;> cases hd
  · have hother : s'.client d = s.client d := by
      cases clientStep_cases h <;> exact Function.update_of_ne hdc _ _
    rw [hother] at hd
    exact Or.inl hd

theorem Marked.client (hi : Marked isEndTask (s, r)) (hg : Guards s) (h : s.clientStep c e = some s') :
    Marked isEndTask (s', Release.note s (.client c e) r) := by
  have hf := clientStep_frame h
  have hkeep : Asked isEndTask s → Asked isEndTask s' := fun ha =>
    ha.frame hf.runningTask fun _ => clientStep_requested h
  have hmarked : ∀ d, (s'.client d).hasMarked = true → Asked isEndTask s' := fun d hd =>
    (clientStep_marks h hd).elim (fun hd => hkeep (hi.marked d hd)) id
  have hrunning : ∀ t p, s'.pc = .run t p → s'.runningTask = some t ∧ isEndTask t = false := by
    rw [hf.pc, hf.runningTask]
    exact hi.running
  by_cases hu : ∃ raised, s.client c = .unlockRunningTask raised
  · obtain ⟨raised, hu⟩ := hu
    have ha : Asked isEndTask s' := hkeep (hi.marked c (by rw [hu]; rfl))
    refine ⟨hmarked, hrunning, fun hpc => ?_, fun _ _ _ => ha, fun _ _ => ha⟩
    -- the client holds the guard, so the worker does not
    have hclient : s.runningTaskGuard = .client c := (hg.client c).mpr (by rw [hu]; rfl)
    have hworker : s.runningTaskGuard = .worker := hg.worker.mpr (by rw [← hf.pc]; exact hpc)
    rw [hclient] at hworker
    cases hworker
  · have hr : Release.note s (.client c e) r = r := by
      simp only [Release.note]
      split
      · exact absurd ⟨_, ‹_›⟩ hu
      · rfl
    rw [hr]
    refine ⟨hmarked, hrunning, ?_, ?_, ?_⟩
    · exact fun hpc => hi.fetching (by rw [← hf.pc]; exact hpc)
    · exact fun h1 h2 hpc => hkeep (hi.fetched h1 h2 (by rw [← hf.pc]; exact hpc))
    · exact fun h1 hpc => hkeep (hi.started h1 (by rw [← hf.pc]; exact hpc))

omit [DecidableEq Cl] in
theorem Marked.worker (hi : Marked isEndTask (s, r)) (hg : Guards s)
    (hok : ¬ Overtakes isEndTask (s, r)) (h : WorkerStep isEndTask e s s') :
    Marked isEndTask (s', Release.note s (.worker e) r) := by
  have hr : s.pc ≠ .lock → Release.note s (.worker e) r = r := by
    intro hpc
    cases hp : s.pc <;> simp_all [Release.note]
  -- nobody has marked the task and not yet released the guard while the worker holds it
  have hnone : s.pc.guards = true → ∀ c, (s.client c).hasMarked = false := by
    intro hpc c
    by_contra hc
    have hclient : s.runningTaskGuard = .client c := (hg.client c).mpr (by
      cases hp : s.client c <;> simp_all [ClientPC.hasMarked, ClientPC.guards])
    rw [hg.worker.mpr hpc] at hclient
    cases hclient
  cases h with
  | @move pc pc' hpc hm =>
    have hlock : s.pc ≠ .lock := by
      rw [hpc]
      cases hm with
      | cancelled h => rcases h with rfl | rfl <;> simp
      | _ => simp
    rw [hr hlock]
    cases hm with
    | recheck hf =>
      refine ⟨hi.marked, by simp [goto], by simp [goto, PC.guards], by simp [goto], fun h1 _ t ht hu => ?_⟩
      by_cases hl : r.late = true
      · by_contra hreq
        exact hok ⟨hpc, hf, hl, t, ht, hu, by simpa [goto] using hreq⟩
      · exact hi.fetched h1 (by simpa using hl) hpc t ht hu
    | _ => exact ⟨hi.marked, by simp [goto], by simp [goto, PC.guards], by simp [goto], by simp [goto, PC.started]⟩
  | setRunning hpc =>
    rw [hr (by rw [hpc]; simp)]
    exact ⟨hi.marked, by simp, by simp [PC.guards], by simp, by simp [PC.started]⟩
  | lock hpc hfree =>
    simp only [Release.note, hpc]
    exact ⟨hi.marked, by simp, fun _ => rfl, by simp, by simp [PC.started]⟩
  | pop hpc hq =>
    have hguards : s.pc.guards = true := by rcases hpc with hpc | ⟨hpc, -⟩ <;> rw [hpc] <;> rfl
    rw [hr (by rintro hl; rw [hl] at hguards; cases hguards)]
    refine ⟨fun c hc => ?_, by simp, fun _ => hi.fetching hguards, by simp, by simp [PC.started]⟩
    have hc : (s.client c).hasMarked = true := hc
    rw [hnone hguards c] at hc
    cases hc
  | block hq hpc =>
    have hguards : s.pc.guards = true := by rcases hpc with hpc | hpc <;> rw [hpc] <;> rfl
    rw [hr (by rintro hl; rw [hl] at hguards; cases hguards)]
    exact ⟨hi.marked, by simp, fun _ => hi.fetching hguards, by simp, by simp [PC.started]⟩
  | unlock hpc =>
    have hlate := hi.fetching (by rw [hpc]; rfl)
    rw [hr (by rw [hpc]; simp)]
    refine ⟨hi.marked, by simp, by simp [PC.guards], fun h1 h2 _ => ?_, by simp [PC.started]⟩
    rw [hlate] at h2
    rw [h1] at h2
    cases h2
  | start hpc ht hu =>
    rw [hr (by rw [hpc]; simp)]
    refine ⟨hi.marked, ?_, by simp [PC.guards], by simp, fun h1 _ => hi.started h1 (by rw [hpc]; rfl)⟩
    rintro t p hrun
    cases hrun
    exact ⟨ht, hu⟩
  | @run t p b p' hpc hb =>
    rw [hr (by rw [hpc]; simp)]
    have hkeep : Asked isEndTask s → Asked isEndTask { s.setTask t b with
        pc := .run t p', settled := if settles p then s.settled ++ [(t, b.state)] else s.settled } := fun ha =>
      ha.frame rfl fun _ => setTask_requested fun h => (TaskBase.run_isRequestCancel hb).trans h
    refine ⟨fun c hc => hkeep (hi.marked c hc), ?_, by simp [PC.guards], by simp, fun h1 _ => ?_⟩
    · rintro u q hrun
      cases hrun
      exact hi.running t p hpc
    · exact hkeep (hi.started h1 (by rw [hpc]; rfl))
  | notifyFinished hpc =>
    rw [hr (by rw [hpc]; simp)]
    exact ⟨hi.marked, by simp, by simp [PC.guards], by simp, by simp [PC.started]⟩

theorem Reachable.marked {x : SharedWorker Cl T × Release}
    (h : (recorded Cl isEndTask).Reachable (NotOvertaken isEndTask) x) : Marked isEndTask x := by
  refine h.induct (I := Marked isEndTask) ?_ ?_
  · constructor <;> simp [recorded, System.observe, system, new, ClientPC.hasMarked]
  · rintro ⟨s, r⟩ a ⟨s', r'⟩ hx hok hs hi
    have hg : Guards s := Reachable.guards (System.Reachable.forget_any hx)
    obtain ⟨hs, hr⟩ := System.observe_step hs
    obtain rfl : r' = Release.note s a r := hr
    have hframe : ∀ {s' : SharedWorker Cl T}, (∀ d, (s'.client d).hasMarked = true → (s.client d).hasMarked = true) →
        s'.pc = s.pc → s'.runningTask = s.runningTask →
        (∀ t, (s'.task t).isRequestCancel = (s.task t).isRequestCancel) →
        Marked isEndTask (s', r) := by
      intro s' hc hpc hrt ht
      have hkeep : Asked isEndTask s → Asked isEndTask s' := fun ha => ha.frame hrt fun t h => (ht t).trans h
      refine ⟨fun d hd => hkeep (hi.marked d (hc d hd)), ?_, ?_, ?_, ?_⟩
      · rw [hpc, hrt]
        exact hi.running
      · rw [hpc]
        exact hi.fetching
      · rw [hpc]
        exact fun h1 h2 h3 => hkeep (hi.fetched h1 h2 h3)
      · rw [hpc]
        exact fun h1 h2 => hkeep (hi.started h1 h2)
    cases a with
    | call c m =>
      simp only [system, step] at hs
      split at hs <;> cases hs
      refine hframe (fun d hd => ?_) rfl rfl fun _ => rfl
      by_cases hdc : d = c
      · rw [hdc] at hd
        cases m <;> simp [gotoClient, Method.start, ClientPC.hasMarked] at hd
      · rwa [show (s.gotoClient c m.start).client d = s.client d from Function.update_of_ne hdc _ _] at hd
    | client c e => exact hi.client hg hs
    | worker e => exact hi.worker hg hok (workerStep_cases hs)
    | take =>
      obtain ⟨x, -, rfl⟩ := Option.map_eq_some_iff.mp hs
      exact hframe (fun _ => id) rfl rfl fun _ => rfl
    | wake w =>
      cases hs
      refine hframe (fun _ hd => by cases w <;> exact hd) (by cases w <;> rfl) (by cases w <;> rfl) fun t => ?_
      cases w with
      | worker | thread => rfl
      | task u c =>
        by_cases htu : t = u
        · subst htu
          simp [setTask]
        · simp [setTask, htu]

/-- **What CancelNow cancels.** Once a `CancelNow` has released `m_runningTaskGuard`, a worker that does not overtake it
executes only tasks that were asked to cancel. -/
theorem cancelNow_asks {x : SharedWorker Cl T × Release}
    (h : (recorded Cl isEndTask).Reachable (NotOvertaken isEndTask) x) (hr : x.2.released = true) {t : T}
    {p : TaskBase.RunPC} (hp : x.1.pc = .run t p) : (x.1.task t).isRequestCancel = true := by
  have hi := Reachable.marked h
  obtain ⟨ht, hu⟩ := hi.running t p hp
  exact hi.started hr (by rw [hp]; rfl) t ht hu

/-- A `CancelNow` waits for the worker while this one still executes the task it had. -/
theorem cancelNow_asks_run : ∃ x : SharedWorker Unit Bool × Release, x.1.client () = .blockedThread ∧
    x.1.pc = .run true .doRun ∧ (x.1.task true).isRequestCancel = true := by
  obtain ⟨x, hx, hp⟩ := System.reachable_of_exec (recorded Unit fun _ : Bool => false) (NotOvertaken fun _ => false)
    ([.call () (.push (some true)), .client () .ret] ++ List.replicate 10 (.worker .ret) ++ [.call () .cancelNow] ++
      List.replicate 6 (.client () .ret))
    (fun x => x.2.released && (x.1.client () == .blockedThread && x.1.pc == .run true .doRun)) (by decide)
  simp only [Bool.and_eq_true, beq_iff_eq] at hp
  exact ⟨x, hp.2.1, hp.2.2, cancelNow_asks hx hp.1 hp.2.2⟩

/-- The worker has fetched since a release only if there was one. -/
theorem Reachable.released {x : SharedWorker Cl T × Release} (h : (recorded Cl isEndTask).Reachable Anything x) :
    x.2.late = true → x.2.released = true := by
  refine h.induct (I := fun x => x.2.late = true → x.2.released = true) (by simp [recorded, System.observe]) ?_
  rintro ⟨s, r⟩ a ⟨s', r'⟩ - - hs hi
  obtain ⟨-, hr⟩ := System.observe_step hs
  obtain rfl : r' = Release.note s a r := hr
  cases a with
  | client c e =>
    simp only [Release.note]
    split
    · exact fun _ => rfl
    · exact hi
  | worker e =>
    simp only [Release.note]
    split
    · exact id
    · exact hi
  | _ => exact hi

/-- A worker that overtakes `CancelNow` goes on to execute a task that nobody asked to cancel. -/
theorem overtaken_runs {x : SharedWorker Cl T × Release} (h : (recorded Cl isEndTask).Reachable Anything x)
    (ho : Overtakes isEndTask x) : ∃ x' t, (recorded Cl isEndTask).Reachable Anything x' ∧ x'.2.released = true ∧
      x'.1.pc = .run t .checkCancellation ∧ (x'.1.task t).isRequestCancel = false := by
  obtain ⟨s, r⟩ := x
  obtain ⟨hpc, hf, hl, t, ht, hu, hreq⟩ := ho
  simp only at hpc hf ht hreq
  have hreleased : r.released = true := Reachable.released h hl
  have hrecheck : (recorded Cl isEndTask).step (s, r) (.worker .ret) = some (s.goto .dispatch, r) := by
    simp [recorded, System.observe, system, step, workerStep, hpc, hf, Release.note]
  have hdispatch : (recorded Cl isEndTask).step (s.goto .dispatch, r) (.worker .ret) =
      some ({ s with pc := .run t .checkCancellation, passed := s.passed ++ [t] }, r) := by
    simp [recorded, System.observe, system, step, workerStep, goto, Option.mem_def.mp ht, hu, Release.note]
  exact ⟨_, t, (h.step trivial hrecheck).step trivial hdispatch, hreleased, rfl, hreq⟩

/-- **CancelNow waits for a task that nobody asked to cancel.** The worker ends the task that `CancelNow` has marked,
and gets past both checks with the next one before the request to its thread. -/
theorem cancelNow_overtaken : ∃ x, (recorded Unit fun _ : Bool => false).Reachable Anything x ∧ x.2.released = true ∧
    x.1.client () = .blockedThread ∧ x.1.pc = .run false .doRun ∧ (x.1.task false).isRequestCancel = false := by
  obtain ⟨x, hx, hp⟩ := System.reachable_of_exec (recorded Unit fun _ : Bool => false) Anything
    ([.call () (.push (some true)), .client () .ret, .call () (.push (some false)), .client () .ret] ++
      List.replicate 10 (.worker .ret) ++ [.call () .cancelNow] ++ List.replicate 4 (.client () .ret) ++
      List.replicate 12 (.worker .ret) ++ List.replicate 2 (.client () .ret))
    (fun x => x.2.released && (x.1.client () == .blockedThread &&
      (x.1.pc == .run false .doRun && !(x.1.task false).isRequestCancel))) (by decide)
  simp only [Bool.and_eq_true, beq_iff_eq, Bool.not_eq_true'] at hp
  exact ⟨x, hx, hp⟩

end Marked

end Tpool.SharedWorker
