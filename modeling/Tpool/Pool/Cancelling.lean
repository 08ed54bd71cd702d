import Tpool.Pool.EveryTask
import Tpool.Pool.OneTask

/-!
# Cancel returns

- `mild`: a calm step in which also what the timer thread runs of a user's task leaves no `Run` by an exception.
- `not_always_inRun`: nobody is in the `Run` of a task for ever; so nobody keeps for ever what only a `Run` does
  (`nobody_forever`): to write that the task has stopped, and to notify who waits for it.
- `finally_flag`, `finally_inactive`, `finally_taskStopped`, `finally_awake`: what a `Cancel` that did not return would
  find from some point on, one after the other.
- `cancel_returns`: a `Cancel` of a task that was pushed before the first `EndTask` returns, when no task whose result
  is waited for is asked to cancel before it has one.
-/

namespace Tpool

open Concurrency

namespace TaskBase

variable {Tid : Type*} [DecidableEq Tid] {t : Tid} {e : Exit} {b b' : TaskBase Tid} {p p' : PC}

/-- How far a thread has to go in its call. -/
def PC.rank : PC → Nat
  | .idle => 0
  | .run p => p.rank
  | .cancel _ p => p.rank

/-- Between the check of `Run` and its write of `FINISHED`. -/
def PC.active : PC → Bool
  | .run p => p.active
  | _ => false

theorem PC.inRun_of_active (h : p.active = true) : p.inRun = true := by
  cases p <;> first | rfl | cases h

theorem PC.inRun_of_publishes (h : p.publishes = true) : p.inRun = true := by
  cases p <;> first | rfl | cases h

theorem PC.inRun_of_notifies (h : p.notifies = true) : p.inRun = true := by
  cases p <;> first | rfl | cases h

/-- Whoever stays in `Run` goes on in it. -/
theorem Hop.lowers (h : Hop t e b b' p p') (hp : p.inRun = true) (hp' : p'.inRun = true) : p'.rank < p.rank := by
  cases h with
  | run hr => exact run_lowers hr
  | stay | call | request | requested => cases hp
  | leave | escape => cases hp'
  | cancel | returned => cases hp

/-- A request is not taken back. -/
theorem Hop.isRequestCancel (h : Hop t e b b' p p') (hf : b.isRequestCancel = true) : b'.isRequestCancel = true := by
  cases h with
  | run hr => exact (run_isRequestCancel hr).trans hf
  | cancel hc => exact (cancel_keeps hc).2 hf
  | request => rfl
  | _ => exact hf

/-- Behind a request nobody gets to be active. -/
theorem Hop.inactive (h : Hop t e b b' p p') (hf : b.isRequestCancel = true) (hp : p.active = false) :
    p'.active = false := by
  cases h with
  | call m => cases m <;> rfl
  | @run b' q q' hr =>
    have hq : q ≠ .setRunning ∧ q ≠ .doRun ∧ q ≠ .setFinished := by
      refine ⟨?_, ?_, ?_⟩ <;> rintro rfl <;> cases hp
    obtain ⟨h1, h2, h3⟩ := run_cancelled hr hf hq
    cases q' <;> first | rfl | exact absurd rfl h1 | exact absurd rfl h2 | exact absurd rfl h3
  | _ => rfl

/-- Who is not active leaves a stopped task stopped. -/
theorem Hop.isStopState (h : Hop t e b b' p p') (hp : p.active = false) (hb : b.isStopState = true) :
    b'.isStopState = true := by
  cases h with
  | run hr =>
    rcases run_cases hr with ⟨rfl, -⟩ | ⟨rfl, -⟩ | ⟨-, rfl, -⟩ | ⟨-, rfl, -⟩ | ⟨rfl, -⟩
    · cases hp
    · cases hp
    · rfl
    · exact hb
    · exact hb
  | cancel hc =>
    rw [TaskBase.isStopState, (cancel_keeps hc).1]
    exact hb
  | _ => exact hb

/-- Nobody begins to wait for a stopped task. -/
theorem Hop.waiters (h : Hop t e b b' p p') (hb : b.isStopState = true) : b'.waiters ⊆ b.waiters := by
  cases h with
  | run hr => exact run_waiters hr
  | cancel hc =>
    rcases cancel_cases hc with ⟨-, rfl, -⟩ | ⟨-, rfl, -⟩ | ⟨-, rfl, -⟩ | ⟨-, heq⟩
    · exact Finset.Subset.refl _
    · exact Finset.Subset.refl _
    · exact Finset.Subset.refl _
    · rw [awaitStop, if_pos hb] at heq
      cases heq
      exact Finset.Subset.refl _
  | _ => exact Finset.Subset.refl _

/-- Who is going to write that the task has stopped does so, or is still going to. -/
theorem Hop.publishes (h : Hop t e b b' p p') (hesc : p.escapes e = false) (hp : p.publishes = true) :
    b'.isStopState = true ∨ p'.publishes = true := by
  cases h with
  | run hr =>
    rcases run_publishes hr with h | h | ⟨h, -⟩ | h
    · exact Or.inr h
    · exact Or.inl h
    · cases hp.symm.trans h
    · cases h.symm.trans hesc
  | leave hq => rcases hq with rfl | rfl <;> cases hp
  | _ => cases hp

/-- Who is going to notify those who wait does so, or is still going to. -/
theorem Hop.notifies (h : Hop t e b b' p p') (hesc : p.escapes e = false) (hf : b.isRequestCancel = true)
    (hp : p.notifies = true) : b'.waiters = ∅ ∨ p'.notifies = true := by
  cases h with
  | run hr =>
    rcases run_notifies hr with h | h | h
    · exact Or.inr h
    · exact Or.inl (h hf)
    · cases h.symm.trans hesc
  | leave hq => rcases hq with rfl | rfl <;> cases hp
  | escape he =>
    subst he
    cases hesc
  | _ => cases hp

/-- A `Cancel` of a stopped task does not wait. -/
theorem Hop.lowers_cancel (h : Hop t e b b' p p') (hb : b.isStopState = true) {q q' : CancelPC} {async async' : Bool}
    (hp : p = .cancel async q) (hp' : p' = .cancel async' q') : p'.rank < p.rank := by
  cases h with
  | cancel hc =>
    rcases cancel_lowers hc with hlt | rfl
    · exact hlt
    · rcases cancel_cases hc with ⟨h, -⟩ | ⟨h, -⟩ | ⟨h, -⟩ | ⟨-, heq⟩
      · cases h
      · cases h
      · cases h
      · rw [awaitStop, if_pos hb] at heq
        cases heq
        exact Nat.one_pos
  | returned | requested => cases hp'
  | _ => cases hp

end TaskBase

namespace FixedThreadPool

open Tpool.Core System TaskBase

variable {n : Nat} {Cl T : Type*} [DecidableEq Cl] [DecidableEq T] {isEndTask : T → Bool}
  {ok : FixedThreadPool n Cl T → Action n Cl T → Prop} {s s' : FixedThreadPool n Cl T} {a : Action n Cl T} {c : Cl}
  {i : Fin n} {t : T} {r : (system n Cl isEndTask).Run ok}

/-! ## Mild steps -/

/-- A calm step; and what the timer thread runs of a user's task, if it does, leaves no `Run` by an exception. -/
def mild (s : FixedThreadPool n Cl T) : Action n Cl T → Bool
  | .timer i => s.timer.all fun tm => match tm.pc with
    | .doRun _ (.run p) => !p.escapes i.exit
    | _ => true
  | a => s.calm a

section Mild

omit [DecidableEq Cl] [DecidableEq T] in
theorem mild_calm (h : s.mild a = true) : s.calm a = true := by
  cases a with
  | timer => rfl
  | _ => exact h

omit [DecidableEq Cl] in
/-- No exception leaves a `Run` in a mild step. -/
theorem mild_leaves (h : s.mild a = true) {q : Party n Cl} {e : Exit} (hl : a.leaves = some (q, e)) (t : T) :
    (s.does t q).escapes e = false := by
  cases a with
  | worker i e =>
    cases hl
    simp only [does]
    cases hpc : (s.threads i).pc with
    | run k u p =>
      by_cases hut : u = t
      · have hexits : (WorkerThread.PC.run k u p).exits e = true := hpc ▸ h
        simp only [WorkerThread.PC.runs, if_pos hut, Option.elim_some, PC.escapes]
        cases p <;> cases e <;> first | rfl | cases hexits
      · simp only [WorkerThread.PC.runs, if_neg hut]
        rfl
    | _ => rfl
  | timer i =>
    cases hl
    simp only [does]
    cases hr : s.timerRuns t with
    | none => rfl
    | some p =>
      obtain ⟨tm, htm, hp⟩ := Option.bind_eq_some_iff.mp hr
      cases hpc : tm.pc with
      | doRun id d =>
        cases d with
        | run q =>
          simp only [hpc] at hp
          obtain ⟨task, -, hp⟩ := Option.bind_eq_some_iff.mp hp
          split at hp <;> cases hp
          simpa [mild, htm, hpc, PC.escapes] using h
        | _ => simp [hpc] at hp
      | _ => simp [hpc] at hp
  | _ => cases hl

/-- What one thread does with the task in a mild step, in which no exception leaves a `Run`. -/
theorem step_does (hok : ∀ s a, ok s a → s.mild a = true) (hr : (system n Cl isEndTask).Reachable ok s) (ha : ok s a)
    (hs : (system n Cl isEndTask).step s a = some s') (t : T) (q : Party n Cl) : s'.does t q = s.does t q ∨
    ∃ e, (s.does t q).escapes e = false ∧
      Hop q e ((s.task t).rename (Party.clients n Cl)) ((s'.task t).rename (Party.clients n Cl)) (s.does t q)
        (s'.does t q) := by
  rcases ((step_cases hs).seen hr hs t).thread q with ⟨heq, -⟩ | ⟨e, hleaves, hop⟩
  · exact Or.inl heq
  · refine Or.inr ⟨e, ?_, hop⟩
    cases hesc : (s.does t q).escapes e with
    | false => rfl
    | true => exact hesc.symm.trans (mild_leaves (hok s a ha) (hleaves hesc) t)

end Mild

/-! ## Nobody is in `Run` for ever -/

section Run

omit [DecidableEq Cl] in
/-- Only workers and the timer thread run tasks. -/
theorem does_client_inRun (s : FixedThreadPool n Cl T) (t : T) (c : Cl) : (s.does t (.client c)).inRun = false := by
  simp only [does, clientDoes]
  split
  · split <;> rfl
  · split
    · split <;> rfl
    · rfl
  · rfl

/-- **Nobody is in the `Run` of a task for ever**, when the workers that run it may go on. -/
theorem not_always_inRun (hok : Unheld ok) (hf : r.Fair Action.party)
    (hgo : ∀ i, r.Finally fun s => (s.does t (.worker i)).inRun = true → ok s (.worker i .ret)) (q : Party n Cl) :
    ¬ r.Finally fun s => (s.does t q).inRun = true := by
  intro hin
  have hdone := hf.settles q (fun s => (s.does t q).rank) hin fun s a s' hr _ hs h h' => by
    rcases ((step_cases hs).seen hr hs t).thread q with ⟨heq, hparty⟩ | ⟨e, -, hop⟩
    · rw [heq]
      exact ⟨le_rfl, fun hp => absurd hp hparty⟩
    · have hlt := hop.lowers h h'
      exact ⟨hlt.le, fun _ => hlt⟩
  cases q with
  | client c =>
    obtain ⟨k, -, h⟩ := hin.exists 0
    rw [does_client_inRun] at h
    cases h
  | worker i =>
    obtain ⟨k, -, hin, hgo, hno⟩ := (hin.and ((hgo i).and hdone)).exists 0
    have hstuck := workerStuck (hgo hin) hno
    unfold WorkerStuck at hstuck
    simp only [does] at hin
    cases hpc : ((r.state k).threads i).pc with
    | run j u p => rw [hpc] at hstuck; exact hstuck
    | _ => rw [hpc] at hin; cases hin
  | timer =>
    obtain ⟨k, -, hin, hno⟩ := (hin.and hdone).exists 0
    have hsleeps := hok.timerSleeps (Reachable.waits (r.reachable k)) hno
    have hnone : (r.state k).timerRuns t = none := timerRuns_none t fun tm id p htm hpc => by
      rcases hsleeps tm htm with h | ⟨h, -⟩ <;> cases hpc.symm.trans h
    simp only [does, hnone] at hin
    cases hin

/-- So nobody has for ever what only those in `Run` have, and keep as long as somebody has it. -/
theorem nobody_forever (hok : Unheld ok) (hf : r.Fair Action.party)
    (hgo : ∀ i, r.Finally fun s => (s.does t (.worker i)).inRun = true → ok s (.worker i .ret)) {f : PC → Bool}
    (hin : ∀ p, f p = true → p.inRun = true) {I : FixedThreadPool n Cl T → Prop}
    (hkeep : ∀ s a s', (system n Cl isEndTask).Reachable ok s → ok s a → (system n Cl isEndTask).step s a = some s' →
      I s → I s' → ∀ q, f (s.does t q) = true → f (s'.does t q) = true) :
    ¬ r.Finally fun s => I s ∧ ∃ q, f (s.does t q) = true := by
  intro h
  obtain ⟨q, hq⟩ := Run.Finally.choose (J := fun q s => I s ∧ f (s.does t q) = true)
    (h.mono fun s _ ⟨hI, q, hq⟩ => ⟨q, hI, hq⟩) fun q s a s' hr ha hs h hsome => by
      obtain ⟨-, hI, -⟩ := hsome
      exact ⟨hI, hkeep s a s' hr ha hs h.1 hI q h.2⟩
  exact not_always_inRun hok hf hgo q (hq.mono fun s _ h => hin _ h.2)

end Run

/-! ## What a `Cancel` that does not return finds -/

section Cancel

/-- In `Cancel` of the task. -/
def InCancel (c : Cl) (t : T) (s : FixedThreadPool n Cl T) : Prop := ∃ p, s.client c = .cancelTask t false p

/-- It stays there until it returns. -/
theorem step_inCancel (hs : (system n Cl isEndTask).step s a = some s') (h : InCancel c t s)
    (hidle : s'.client c ≠ .idle) : InCancel c t s' := by
  obtain ⟨p, hp⟩ := h
  rcases (step_cases hs).client_pc c with heq | hnot | hparty
  · exact ⟨p, heq.trans hp⟩
  · cases hp.symm.trans hnot
  · cases a with
    | client d i =>
      cases hparty
      have hs : s.clientStep c i = some s' := hs
      by_cases hend : p = .ret ∨ p = .raised
      · rcases hend with rfl | rfl <;> simp only [clientStep, hp, Option.some.injEq] at hs <;> subst hs <;>
          exact absurd (Function.update_self ..) hidle
      · have hs : ((s.task t).cancel false c p i.exit).map
            (fun q => (s.setTask t q.1).goto c (.cancelTask t false q.2)) =
            some s' := by
          simp only [clientStep, hp] at hs
          cases p <;> simp_all
        obtain ⟨⟨b, p'⟩, -, rfl⟩ := Option.map_eq_some_iff.mp hs
        exact ⟨p', Function.update_self ..⟩
    | _ => cases hparty

omit [DecidableEq Cl] in
theorem does_of_cancel {p : CancelPC} (h : s.client c = .cancelTask t false p) :
    s.does t (.client c) = .cancel false p := by
  simp only [does, h, clientDoes, if_pos]

/-- Nobody is active, and nobody will be, since the cancel was requested. -/
def Quiesced (t : T) (s : FixedThreadPool n Cl T) : Prop :=
  (s.task t).isRequestCancel = true ∧ ∀ q : Party n Cl, (s.does t q).active = false

/-- And the task has stopped. -/
def TaskStopped (t : T) (s : FixedThreadPool n Cl T) : Prop := s.Quiesced t ∧ (s.task t).isStopState = true

theorem stable_flag (t : T) : (system n Cl isEndTask).Stable ok fun s => (s.task t).isRequestCancel = true :=
  fun _ _ _ _ _ hs h => (step_cases hs).keeps.isRequestCancel t h

/-- The cancel gets requested. -/
theorem finally_flag (hok : Unheld ok) (hf : r.Fair Action.party) (hc : r.Finally (InCancel c t)) :
    r.Finally fun s => (s.task t).isRequestCancel = true := by
  by_contra hno
  have hnever : r.Finally fun s => ¬ (s.task t).isRequestCancel = true :=
    Run.finally_always (Run.never (stable_flag t) hno)
  have hset : r.Finally fun s => s.client c = .cancelTask t false .setFlag := (hc.and hnever).mono
    fun s hr h => by
      obtain ⟨⟨p, hp⟩, hflag⟩ := h
      obtain ⟨_, hseen⟩ := Reachable.seen (fun _ _ _ _ _ _ _ _ _ => trivial) (fun _ _ _ => trivial) hr.any t
      by_cases hset : p = .setFlag
      · rw [hp, hset]
      · exact absurd ((requested hseen).caller (.client c) false p (does_of_cancel hp) hset) hflag
  obtain ⟨pc, hstuck⟩ := client_settles hok hf (hset.mono fun s _ h => ⟨by rw [h]; simp, by rw [h]; exact id⟩)
  obtain ⟨k, -, hset, -, hstuck⟩ := (hset.and hstuck).exists 0
  unfold ClientStuck at hstuck
  rw [hset] at hstuck
  exact hstuck

theorem stable_inactive (t : T) (q : Party n Cl) : (system n Cl isEndTask).Stable ok fun s =>
    (s.task t).isRequestCancel = true ∧ (s.does t q).active = false := by
  rintro s a s' hr ha hs ⟨hflag, hq⟩
  refine ⟨stable_flag t s a s' hr ha hs hflag, ?_⟩
  rcases ((step_cases hs).seen hr hs t).thread q with ⟨heq, -⟩ | ⟨e, -, hop⟩
  · rw [heq, hq]
  · exact hop.inactive hflag hq

/-- Who was active when the cancel was requested leaves `Run`. -/
theorem finally_inactive (hok : Unheld ok) (hf : r.Fair Action.party)
    (hgo : ∀ i, r.Finally fun s => (s.does t (.worker i)).inRun = true → ok s (.worker i .ret))
    (hflag : r.Finally fun s => (s.task t).isRequestCancel = true) : r.Finally (Quiesced t) := by
  have hone : ∀ q : Party n Cl, r.Finally fun s => (s.task t).isRequestCancel = true ∧ (s.does t q).active = false := by
    intro q
    by_contra hno
    have hnever : r.Finally fun s => ¬ ((s.task t).isRequestCancel = true ∧ (s.does t q).active = false) :=
      Run.finally_always (Run.never (stable_inactive t q) hno)
    refine not_always_inRun hok hf hgo q ((hflag.and hnever).mono fun s _ h => ?_)
    exact PC.inRun_of_active (by simpa [h.1] using h.2)
  refine (hflag.and ((Run.finally_all fun i => hone (.worker i)).and (hone .timer))).mono fun s _ h =>
    ⟨h.1, fun q => ?_⟩
  cases q with
  | worker i => exact (h.2.1 i).2
  | timer => exact h.2.2.2
  | client c =>
    have hout := does_client_inRun s t c
    cases hpc : s.does t (.client c) with
    | run p => rw [hpc] at hout; cases hout
    | _ => rfl

theorem stable_taskStopped (t : T) : (system n Cl isEndTask).Stable ok (TaskStopped t) := by
  rintro s a s' hr ha hs ⟨⟨hflag, hin⟩, hstop⟩
  refine ⟨⟨stable_flag t s a s' hr ha hs hflag, fun q => (stable_inactive t q s a s' hr ha hs ⟨hflag, hin q⟩).2⟩, ?_⟩
  cases (step_cases hs).seen hr hs t with
  | hop _ _ hop => exact hop.isStopState (hin _) hstop
  | still _ _ htask => rw [htask, hstop]
  | wake _ _ _ htask => rw [htask]; exact hstop

theorem stable_publishes (hmild : ∀ s a, ok s a → s.mild a = true) (t : T) :
    (system n Cl isEndTask).Stable ok fun s => (s.seen t false).Publishes := by
  intro s a s' hr ha hs h
  obtain ⟨_, hreach⟩ : ∃ b, (TaskBase.system (Party n Cl)).Reaches Harmless (s.seen t false) (s'.seen t b) :=
    ((step_cases hs).seen hr hs t).reaches (fun _ _ => Tame.harmless) fun q e hl hesc => by
      rw [mild_leaves (hmild s a ha) hl t] at hesc
      cases hesc
  exact hreach.keeps (fun _ _ _ hok hs hi => hi.step hok hs) h

/-- Once a `Run` of the task has begun, the task has stopped, or somebody is going to write that it has. -/
theorem publishes_of_started (hmild : ∀ s a, ok s a → s.mild a = true) (h : (system n Cl isEndTask).Reachable ok s)
    {j : Nat} (hj : (i, .start j) ∈ s.runs) (ht : s.taskQueue.pushes[j]? = some (.task t)) :
    (s.seen t false).Publishes := by
  refine h.induct (I := fun s => (i, .start j) ∈ s.runs → s.taskQueue.pushes[j]? = some (.task t) →
    (s.seen t false).Publishes) (fun h => by cases h) (fun s a s' hr ha hs hi hj ht => ?_) hj ht
  by_cases hold : (i, .start j) ∈ s.runs
  · obtain ⟨u, hu, -⟩ := (Reachable.view hr).served.runs_of_mem hold
    have hgrow := getElem?_grow (step_cases hs).pops.1 hu
    exact stable_publishes hmild t s a s' hr ha hs
      (hi hold (by rw [show s.taskQueue.pushes[j]? = _ from hu, ← hgrow, ht]))
  · -- the worker begins it
    have hrun : ∃ u, (s'.threads i).pc = .run j u .checkCancellation := by
      cases step_cases hs with
      | start | started | constructed | call => exact absurd hj hold
      | client _ h' => cases h' <;> exact absurd hj hold
      | worker h' =>
        cases h' with
        | thread h' =>
          cases h' with
          | start =>
            rcases List.mem_append.mp hj with h | h
            · exact absurd h hold
            · cases List.mem_singleton.mp h
              exact ⟨_, by rw [setWorld_threads_self]; rfl⟩
          | stop =>
            rcases List.mem_append.mp hj with h | h
            · exact absurd h hold
            · cases List.mem_singleton.mp h
          | _ => exact absurd hj hold
        | _ => exact absurd hj hold
      | timer _ h' => cases h' <;> exact absurd hj hold
      | wake w => cases w <;> exact absurd hj hold
    obtain ⟨u, hu⟩ := hrun
    have hholds := (Reachable.shape (hr.step ha hs) i).holds
    rw [hu] at hholds
    obtain rfl : u = t := by cases hholds.1.symm.trans ht; rfl
    refine Or.inr ⟨.worker i, ?_⟩
    show (s'.does u (.worker i)).publishes = true
    simp only [does, hu, WorkerThread.PC.runs, if_pos, Option.elim_some]
    rfl

/-- The task stops. -/
theorem finally_taskStopped (hok : Unheld ok) (hmild : ∀ s a, ok s a → s.mild a = true) (hf : r.Fair Action.party)
    (hgo : ∀ i, r.Finally fun s => (s.does t (.worker i)).inRun = true → ok s (.worker i .ret))
    (hquiesced : r.Finally (Quiesced t)) (hpub : r.Finally fun s => (s.seen t false).Publishes) :
    r.Finally (TaskStopped t) := by
  by_contra hno
  have hnever : r.Finally fun s => ¬ s.TaskStopped t := Run.finally_always (Run.never (stable_taskStopped t) hno)
  refine nobody_forever hok hf hgo (f := PC.publishes) (fun _ => PC.inRun_of_publishes)
    (I := fun s => (s.task t).isStopState = false) (fun s a s' hr ha hs _ hI q hq => ?_)
    ((hquiesced.and (hpub.and hnever)).mono fun s _ h => ?_)
  · rcases step_does hmild hr ha hs t q with heq | ⟨e, hesc, hop⟩
    · rw [heq, hq]
    · refine (hop.publishes hesc hq).resolve_left fun hstop => ?_
      cases hI.symm.trans hstop
  · obtain ⟨hquiesced, hpub, hnot⟩ := h
    have hrunning : (s.task t).isStopState ≠ true := fun hstop => hnot ⟨hquiesced, hstop⟩
    exact ⟨by simpa using hrunning, hpub.resolve_left hrunning⟩

theorem stable_awake (c : Cl) (t : T) : (system n Cl isEndTask).Stable ok fun s =>
    s.TaskStopped t ∧ c ∉ (s.task t).waiters := by
  rintro s a s' hr ha hs ⟨hstopped, hc⟩
  refine ⟨stable_taskStopped t s a s' hr ha hs hstopped, fun hmem => hc ?_⟩
  cases (step_cases hs).seen hr hs t with
  | hop _ _ hop =>
    have hsub := hop.waiters hstopped.2
    exact (Finset.mem_map' _).mp (hsub (Finset.mem_map_of_mem (Party.clients n Cl) hmem))
  | still _ _ htask => rwa [htask] at hmem
  | wake _ _ _ htask =>
    rw [htask] at hmem
    exact Finset.mem_of_mem_erase hmem

/-- Who waits for the end of the task is woken. -/
theorem finally_awake (hok : Unheld ok) (hmild : ∀ s a, ok s a → s.mild a = true) (hf : r.Fair Action.party)
    (hgo : ∀ i, r.Finally fun s => (s.does t (.worker i)).inRun = true → ok s (.worker i .ret))
    (hstopped : r.Finally (TaskStopped t)) (c : Cl) : r.Finally fun s => s.TaskStopped t ∧ c ∉ (s.task t).waiters := by
  by_contra hno
  have hnever : r.Finally fun s => ¬ (s.TaskStopped t ∧ c ∉ (s.task t).waiters) :=
    Run.finally_always (Run.never (stable_awake c t) hno)
  refine nobody_forever hok hf hgo (f := PC.notifies) (fun _ => PC.inRun_of_notifies)
    (I := fun s => (s.task t).isRequestCancel = true ∧ c ∈ (s.task t).waiters) (fun s a s' hr ha hs hI hI' q hq => ?_)
    ((hstopped.and hnever).mono fun s hr h => ?_)
  · rcases step_does hmild hr ha hs t q with heq | ⟨e, hesc, hop⟩
    · rw [heq, hq]
    · refine (hop.notifies hesc hI.1 hq).resolve_left fun hnone => ?_
      have hmem := Finset.mem_map_of_mem (Party.clients n Cl) hI'.2
      rw [show (s'.task t).waiters.map (Party.clients n Cl) = ∅ from hnone] at hmem
      exact Finset.notMem_empty _ hmem
  · obtain ⟨hstopped, hnot⟩ := h
    have hwaits : c ∈ (s.task t).waiters := by
      by_contra hout
      exact hnot ⟨hstopped, hout⟩
    obtain ⟨_, hseen⟩ : ∃ b, (TaskBase.system (Party n Cl)).Reachable Harmless (s.seen t b) := Reachable.seen
      (fun s a ha t _ q e hl hesc => by rw [mild_leaves (hmild s a ha) hl t] at hesc; cases hesc)
      (fun _ _ => Tame.harmless) hr t
    refine ⟨⟨hstopped.1.1, hwaits⟩, ?_⟩
    rcases notifies hseen with hstop | hnone | hsome
    · cases hstopped.2.symm.trans hstop
    · have hmem := Finset.mem_map_of_mem (Party.clients n Cl) hwaits
      rw [show (s.task t).waiters.map (Party.clients n Cl) = ∅ from hnone] at hmem
      exact absurd hmem (Finset.notMem_empty _)
    · exact hsome

end Cancel

/-! ## Cancel returns -/

section Returns

/-- A `Cancel` that is woken, and finds the task stopped, returns. -/
theorem not_always_inCancel (hok : Unheld ok) (hf : r.Fair Action.party)
    (hawake : r.Finally fun s => s.TaskStopped t ∧ c ∉ (s.task t).waiters) : ¬ r.Finally (InCancel c t) := by
  intro hc
  have hdone := hf.settles (.client c) (fun s => (s.does t (.client c)).rank) (hawake.and hc)
    fun s a s' hr _ hs h h' => by
      rcases ((step_cases hs).seen hr hs t).thread (.client c) with ⟨heq, hparty⟩ | ⟨e, -, hop⟩
      · rw [heq]
        exact ⟨le_rfl, fun hp => absurd hp hparty⟩
      · obtain ⟨⟨⟨-, hstop⟩, -⟩, p, hp⟩ := h
        obtain ⟨-, p', hp'⟩ := h'
        have hlt := hop.lowers_cancel hstop (does_of_cancel hp) (does_of_cancel hp')
        exact ⟨hlt.le, fun _ => hlt⟩
  obtain ⟨k, -, ⟨⟨-, hout⟩, p, hp⟩, hno⟩ := ((hawake.and hc).and hdone).exists 0
  have hstuck := hok.clientStuck (Reachable.waits (r.reachable k)) hno
  unfold ClientStuck at hstuck
  rw [hp] at hstuck
  cases p with
  | blocked => exact hout hstuck
  | _ => exact hstuck

omit [DecidableEq Cl] in
theorem unheld_mild (results : T → List T) :
    Unheld fun (s : FixedThreadPool n Cl T) a => s.mild a = true ∧ s.gets results a = true := by
  refine ⟨fun s i hi => ⟨?_, rfl⟩, fun _ _ _ _ => ⟨rfl, rfl⟩⟩
  simp only [mild, hi]
  cases s.timer with
  | none => rfl
  | some tm =>
    simp only [Option.all_some]
    split
    · rename_i p _
      cases p <;> rfl
    · rfl

/-- The task is at the position `j`, before the first `EndTask`; up to there tasks get only results of earlier ones. -/
structure Pushed (isEndTask : T → Bool) (results : T → List T) (j : Nat) (t : T) (s : FixedThreadPool n Cl T) :
    Prop where
  before : s.BeforeEnd isEndTask j
  earlier : s.GetsEarlier results j
  task : s.taskQueue.pushes[j]? = some (.task t)

theorem stable_pushed (results : T → List T) (j : Nat) (t : T) :
    (system n Cl isEndTask).Stable ok (Pushed isEndTask results j t) := by
  intro s a s' hr ha hs h
  obtain ⟨hbefore, hearlier⟩ := stable_getsEarlier results j s a s' hr ha hs ⟨h.before, h.earlier⟩
  exact ⟨hbefore, hearlier, getElem?_grow (step_cases hs).pops.1 h.task⟩

/-- A worker that runs the task may go on when everything pushed before it was run. -/
theorem goes_of_hasRun {results : T → List T} {j : Nat} (hr : (system n Cl isEndTask).Reachable ok s)
    (h : Pushed isEndTask results j t s) (hkept : s.ResultsKept results j) (hrun : ∀ m < j, HasRun m s)
    (hin : (s.does t (.worker i)).inRun = true) :
    s.mild (.worker i .ret) = true ∧ s.gets results (.worker i .ret) = true := by
  refine ⟨unhindered_calm.worker s i, ?_⟩
  simp only [gets]
  split
  · rename_i l u hpc
    simp only [does, hpc, WorkerThread.PC.runs] at hin
    split at hin
    · rename_i hut
      refine List.all_eq_true.mpr fun v hv => ?_
      obtain ⟨m, hm, hpush⟩ := h.earlier j le_rfl t h.task v (hut ▸ hv)
      exact hkept.hasResult hr le_rfl h.task (hut ▸ hv) hpush (hrun m hm)
    · cases hin
  · rfl

/-- **`Cancel` returns**, of a task that is pushed before the first `EndTask`, when the tasks whose results are waited
for are not asked to cancel before they have them. -/
theorem cancel_returns {results : T → List T}
    {r : (system n Cl isEndTask).Run fun s a => s.mild a = true ∧ s.gets results a = true} (hf : r.Fair Action.party)
    (h0 : 0 < n) {k j : Nat} (hj : Pushed isEndTask results j t (r.state k)) (hc : InCancel c t (r.state k))
    (hkept : ∀ l ≥ k, (r.state l).ResultsKept results j) : ∃ l ≥ k, (r.state l).client c = .idle := by
  by_contra hno
  have hok : Unheld fun (s : FixedThreadPool n Cl T) a => s.mild a = true ∧ s.gets results a = true :=
    unheld_mild results
  have hcancel : r.Finally (InCancel c t) := Filter.eventually_atTop.mpr ⟨k, fun l hl =>
    Run.stays hc (fun m hm h => hno ⟨m, hm, h⟩) (fun _ _ _ _ _ => step_inCancel) hl⟩
  have hpushed : r.Finally fun s => Pushed isEndTask results j t s ∧ s.ResultsKept results j :=
    (Run.finally_of (stable_pushed results j t) hj).and (Filter.eventually_atTop.mpr ⟨k, hkept⟩)
  -- everything up to the task is run
  have hrun : ∀ m ≤ j, r.Finally (HasRun m) := fun m hm =>
    finally_hasRun hok (fun _ _ h => mild_calm h.1) hf h0 (hj.before.mono hm) fun i => hpushed.mono fun s hr h hrun =>
      gets_of_hasRun hr h.1.earlier h.2 fun l u p hpc => ⟨(hrun l u p hpc).1.trans hm, (hrun l u p hpc).2⟩
  have hgo : ∀ i, r.Finally fun s => (s.does t (.worker i)).inRun = true →
      s.mild (.worker i .ret) = true ∧ s.gets results (.worker i .ret) = true := fun i =>
    (hpushed.and (Run.finally_lt fun m hm => hrun m hm.le)).mono fun s hr h hin =>
      goes_of_hasRun hr h.1.1 h.1.2 h.2 hin
  have hpub : r.Finally fun s => (s.seen t false).Publishes := (hpushed.and (hrun j le_rfl)).mono fun s hr h => by
    obtain ⟨hpushed, i, hstop⟩ := h
    have hone : s.runs.count (i, .start j) = 1 := ((Reachable.view hr).served.once hstop).1
    have hstart : (i, .start j) ∈ s.runs := List.count_pos_iff.mp (hone ▸ Nat.one_pos)
    exact publishes_of_started (fun _ _ h => h.1) hr hstart hpushed.1.task
  have hquiesced := finally_inactive hok hf hgo (finally_flag hok hf hcancel)
  have hstopped := finally_taskStopped hok (fun _ _ h => h.1) hf hgo hquiesced hpub
  exact not_always_inCancel hok hf (finally_awake hok (fun _ _ h => h.1) hf hgo hstopped c) hcancel

omit [DecidableEq Cl] [DecidableEq T] in
theorem inCancel_of_cancels (h : (s.client c).cancels = true) : ∃ t, InCancel c t s := by
  cases hpc : s.client c with
  | cancelTask t async p =>
    rw [hpc] at h
    cases async with
    | false => exact ⟨t, p, hpc⟩
    | true => cases h
  | _ => rw [hpc] at h; cases h

/-- The task finds that its cancel was requested; the client returns, and stops the pool. -/
def cancelledRun : List (Action 1 Unit Unit) := List.flatten [
  cancelRun,
  .worker (Fin.last 0) .cancel :: List.replicate 4 (.worker (Fin.last 0) .ret),
  List.replicate 2 (.client () ⟨.ret, 0, 0⟩),
  .call () .stop :: List.replicate 5 (.client () ⟨.ret, 0, 0⟩),
  List.replicate 9 (.worker (Fin.last 0) .ret),
  List.replicate 3 (.client () ⟨.ret, 0, 0⟩)]

/-- No task gets a result. -/
def noResults (_ : Unit) : List Unit := []

theorem cancel_returns_cancelledRun : ∃ r : (system 1 Unit fun _ : Unit => false).Run fun s a =>
      s.mild a = true ∧ s.gets noResults a = true, r.Fair Action.party ∧ InCancel () () (r.state 20) ∧
      ∃ l ≥ 20, (r.state l).client () = .idle := by
  obtain ⟨r, hf, hr⟩ := exists_run_ended (show ((system 1 Unit fun _ : Unit => false).exec
    (fun s a => s.mild a = true ∧ s.gets noResults a = true) (.new 1 Unit Unit) cancelledRun).any hasEnded = true by
    decide)
  have hcheck := check_run hr (k := 20)
    (p := fun s => (s.client ()).cancels && decide (s.taskQueue.pushes = [.task ()])) (by decide)
  simp only [Bool.and_eq_true, decide_eq_true_eq] at hcheck
  obtain ⟨hcancels, hpushes⟩ := hcheck
  obtain ⟨⟨⟩, hc⟩ := inCancel_of_cancels hcancels
  refine ⟨r, hf, hc, cancel_returns (j := 0) hf Nat.one_pos ⟨fun l hl => ?_, fun _ _ _ _ u hu => ?_, ?_⟩ hc
    fun _ _ _ _ _ _ u hu => ?_⟩
  · obtain rfl := Nat.le_zero.mp hl
    exact ⟨(), by rw [hpushes]; rfl, rfl⟩
  · cases hu
  · rw [hpushes]
    rfl
  · cases hu

end Returns

end FixedThreadPool

end Tpool
