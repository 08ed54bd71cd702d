import Mathlib.Data.Fintype.Basic
import Tpool.Task.Cancellers
import Tpool.Thread.TimerStop

/-!
# A timer that leaves its tasks

A submission checks for a cancel before it pushes, and the timer thread may leave its loop in between, with tasks
queued, or because a task throws.

- `LeavesEmpty`: the timer thread leaves its loop only when its cancel was requested, nothing is queued, and no
  submission that has passed its checks has still to push.
- `Deserted`: then nothing is queued, or will be, once the timer thread is out of its loop. `accepted_has_timer`.
- `leaves_tasks`: what is queued, or about to be, when the timer thread gets out of its loop is left there.
  `accepted_after_throw`: a task that throws ends the timer thread, and the next submission is accepted.
-/

namespace Tpool

open Concurrency Structures

namespace SharedTimer

variable {Cl T : Type*} {heap : PriorityQueue T Nat} {s s' : SharedTimer Cl T}

/-! ## Leaving the loop -/

/-- A submission goes on to push its task. -/
def ClientPC.Pending (s : SharedTimer Cl T) : ClientPC T → Prop
  | .getDeadline t _ _ => s.deadline t = 0
  | .setDeadline _ _ _ | .setInterval _ _ _ _ | .pushTask _ _ _ => True
  | _ => False

/-- Nothing is queued or about to be, and the cancel of the timer thread has been requested. -/
structure Deserted (s : SharedTimer Cl T) : Prop where
  flag : s.thread.isRequestCancel = true
  empty : s.queue = []
  pending : ∀ c, ¬ (s.client c).Pending s

/-- The step that the timer thread makes here, with user code left by `e`, leaves the loop. -/
def PC.exits (s : SharedTimer Cl T) (e : Exit) : PC T → Bool
  | .checkCancellation | .checkEmpty | .check => s.thread.isRequestCancel
  | .run _ _ p => p.escapes e
  | _ => false

/-- The timer thread leaves its loop when nothing is queued or about to be. -/
def LeavesEmpty (s : SharedTimer Cl T) : Action Cl T → Prop
  | .timer i => s.pc.exits s i.exit = true → Deserted s
  | _ => True

/-- The timer thread is out of its loop. -/
def PC.left : PC T → Bool
  | .leave | .run _ _ .raised | .notifyFinished | .terminated => true
  | _ => false

section Left

/-- The timer thread gets out of its loop by a step that leaves it. -/
theorem Move.left {pc pc' : PC T} (e : Exit) (h : Move s pc pc') (hl : pc'.left = true) :
    pc.left = true ∨ pc.exits s e = true := by
  cases h with
  | cancelled hf => exact Or.inr hf
  | exit hpc hf => rcases hpc with rfl | rfl <;> exact Or.inr hf
  | leave | hasRaised => exact Or.inl rfl
  | _ => cases hl

variable [DecidableEq T] {i : Input}

theorem TimerStep.left (h : TimerStep heap i s s') (hl : s'.pc.left = true) :
    s.pc.left = true ∨ s.pc.exits s i.exit = true := by
  cases h with
  | move hpc hm =>
    rw [hpc]
    exact hm.left i.exit hl
  | @run t now p b p' hpc hr =>
    right
    rw [hpc]
    cases p' with
    | raised => exact TaskBase.run_escapes hr
    | _ => cases hl
  | notifyFinished hpc =>
    left
    rw [hpc]
    rfl
  | _ => cases hl

/-- Out of its loop it does not touch the queue, the deadlines or the calls. -/
theorem Deserted.timer (hi : Deserted s) (h : TimerStep heap i s s') (hl : s'.pc.left = true) : Deserted s' := by
  cases h with
  | move | notifyFinished => exact ⟨hi.flag, hi.empty, hi.pending⟩
  | run => split <;> exact ⟨hi.flag, hi.empty, hi.pending⟩
  | _ => cases hl

variable [DecidableEq Cl] {c : Cl}

omit [DecidableEq T] in
theorem Deserted.move (hi : Deserted s) {pc : ClientPC T} (hc : s'.client = Function.update s.client c pc)
    (hpc : ¬ pc.Pending s) (hf : s'.thread.isRequestCancel = true) (hq : s'.queue = [])
    (hd : s'.deadline = s.deadline) : Deserted s' := by
  have hpending : ∀ pc : ClientPC T, pc.Pending s' → pc.Pending s := by
    intro pc h
    cases pc with
    | getDeadline t how now => exact (congrFun hd t).symm.trans h
    | _ => exact h
  refine ⟨hf, hq, ?_⟩
  intro d h
  have h := hpending _ h
  rw [hc] at h
  by_cases hdc : d = c
  · rw [hdc, Function.update_self] at h
    exact hpc h
  · rw [Function.update_of_ne hdc] at h
    exact hi.pending d h

/-- A deserted timer stays so. -/
theorem Deserted.client (hi : Deserted s) (h : ClientStep heap c i s s') : Deserted s' := by
  have hf := h.flag hi.flag
  have hc := hi.pending c
  cases h with
  | silent hpc hs =>
    cases hs with
    | notRequested hn => rw [hi.flag] at hn; cases hn
    | putOnce hd => rw [hpc] at hc; exact absurd hd hc
    | hasRun | hasCancelled => exact hi.move rfl id hf hi.empty rfl
  | setDeadline hpc | setInterval hpc | pushTask hpc =>
    rw [hpc] at hc
    exact absurd trivial hc
  | cancelAsync hpc =>
    rcases hpc with ⟨-, rfl⟩ | ⟨_, -, rfl⟩
    · exact hi.move rfl id hf hi.empty rfl
    · exact hi.move rfl id hf hi.empty rfl
  | @clear stop => cases stop <;> exact hi.move rfl id hf rfl rfl
  | readClock | refuse | stopped | block | runTask | cancelTask => exact hi.move rfl id hf hi.empty rfl

theorem Reachable.deserted (h : (system Cl heap).Reachable LeavesEmpty s) : s.pc.left = true → Deserted s := by
  refine h.induct (I := fun s => s.pc.left = true → Deserted s) (fun hl => by cases hl) ?_
  intro s a s' _ hok hs hi hl
  cases step_cases hs with
  | @call c m =>
    have hi := hi hl
    cases m <;> exact hi.move (c := c) rfl id hi.flag hi.empty rfl
  | client h => exact (hi (by rwa [h.others.1] at hl)).client h
  | @timer i _ h =>
    rcases h.left hl with hl' | he
    · exact (hi hl').timer h hl
    · exact (hok he).timer h hl
  | wake w =>
    have hi := hi (by cases w <;> exact hl)
    cases w <;> exact ⟨hi.flag, hi.empty, hi.pending⟩

/-- **An accepted task has a live timer**, if the timer thread leaves its loop only when its cancel was requested and no
task is queued or about to be. -/
theorem accepted_has_timer (h : (system Cl heap).Reachable LeavesEmpty s) (ht : s.pc = .terminated) :
    ∀ t ∈ s.acceptedTasks, t ∉ s.queue := by
  intro t _ hq
  rw [(Reachable.deserted h (by rw [ht]; rfl)).empty] at hq
  cases hq

end Left

/-! ## What terminates the timer thread with tasks left -/

section Leaves

variable [DecidableEq Cl] [DecidableEq T]

/-- Out of its loop the timer thread goes on to terminate. -/
theorem left_terminates (heap : PriorityQueue T Nat) (hl : s.pc.left = true) :
    ∃ s', (system Cl heap).Reaches Anything s s' ∧ s'.pc = .terminated ∧ s'.queue = s.queue ∧ s'.client = s.client ∧
      s'.deadline = s.deadline := by
  have hlast : ∀ u : SharedTimer Cl T, u.pc = .notifyFinished → (system Cl heap).Step Anything u
      { u with thread := u.thread.notifyFinished, pc := .terminated } := by
    intro u hu
    exact ⟨.timer ⟨.ret, 0⟩, trivial, by simp [system, step, timerStep, hu]⟩
  have hfirst : s.pc = .leave ∨ (∃ t now, s.pc = .run t now .raised) →
      (system Cl heap).Step Anything s (s.goto .notifyFinished) := by
    rintro (hpc | ⟨t, now, hpc⟩)
    · exact ⟨.timer ⟨.ret, 0⟩, trivial, by simp [system, step, timerStep, hpc]⟩
    · exact ⟨.timer ⟨.ret, 0⟩, trivial, by simp [system, step, timerStep, hpc]⟩
  cases hpc : s.pc with
  | terminated => exact ⟨s, .refl, hpc, rfl, rfl, rfl⟩
  | notifyFinished => exact ⟨_, .single (hlast s hpc), rfl, rfl, rfl, rfl⟩
  | leave => exact ⟨_, .head (hfirst (Or.inl hpc)) (.single (hlast _ rfl)), rfl, rfl, rfl, rfl⟩
  | run t now p =>
    cases p with
    | raised => exact ⟨_, .head (hfirst (Or.inr ⟨t, now, hpc⟩)) (.single (hlast _ rfl)), rfl, rfl, rfl, rfl⟩
    | _ => rw [hpc] at hl; cases hl
  | _ => rw [hpc] at hl; cases hl

/-- A pending submission goes on to be accepted. -/
theorem accepted_of_pending (heap : PriorityQueue T Nat) {c : Cl} (hc : (s.client c).Pending s)
    (hl : s.pc.locked = false) :
    ∃ s' t, (system Cl heap).Reaches Anything s s' ∧ s'.pc = s.pc ∧ t ∈ s'.queue := by
  have hpush : ∀ (u : SharedTimer Cl T) t, (u.client c).pushes = some t → u.pc = s.pc →
      ∃ s', (system Cl heap).Reaches Anything u s' ∧ s'.pc = s.pc ∧ t ∈ s'.queue := by
    intro u t hu hpc
    obtain ⟨s', hs'⟩ : ∃ s', AcceptedBy heap c t u s' := accepted_of_pushes hu (by rw [hpc]; exact hl)
    exact ⟨s', hs'.reaches, hs'.pc.trans hpc, hs'.queued⟩
  cases hpc : s.client c with
  | getDeadline t how now =>
    rw [hpc] at hc
    have hstep : (system Cl heap).step s (.client c ⟨.ret, 0⟩) = some (s.gotoClient c (.setDeadline t how now)) := by
      simp only [system, step, clientStep, hpc, show s.deadline t = 0 from hc, ne_eq, not_true_eq_false, if_false]
    obtain ⟨s', hs', h⟩ := hpush (s.gotoClient c (.setDeadline t how now)) t (by simp [gotoClient, ClientPC.pushes]) rfl
    exact ⟨s', t, .head ⟨_, trivial, hstep⟩ hs', h⟩
  | setDeadline t how now | setInterval t how now | pushTask t how now =>
    obtain ⟨s', hs', h⟩ := hpush s t (by rw [hpc]; rfl) rfl
    exact ⟨s', t, hs', h⟩
  | _ => rw [hpc] at hc; exact hc.elim

/-- **What is queued, or about to be, when the timer thread is out of its loop is left in the queue.** -/
theorem leaves_tasks (h : (system Cl heap).Reachable Anything s) (hl : s.pc.left = true)
    (ht : s.queue ≠ [] ∨ ∃ c, (s.client c).Pending s) : ∃ s', (system Cl heap).Reachable Anything s' ∧
      s'.pc = .terminated ∧ ∃ t ∈ s'.acceptedTasks, t ∈ s'.queue := by
  obtain ⟨s', hs', hpc, hq, hc, hd⟩ := left_terminates heap hl
  rcases ht with ht | ⟨c, hpend⟩
  · obtain ⟨t, ht⟩ := List.exists_mem_of_ne_nil _ ht
    have hr := h.reaches hs'
    have ht : t ∈ s'.queue := by rwa [hq]
    exact ⟨s', hr, hpc, t, (Reachable.booked hr).queued ht, ht⟩
  · have hpend : (s'.client c).Pending s' := by
      rw [hc]
      cases hpc' : s.client c with
      | getDeadline t how now =>
        rw [hpc'] at hpend
        exact (congrFun hd t).trans hpend
      | _ => rw [hpc'] at hpend; exact hpend
    obtain ⟨s'', t, hs'', hpc'', ht⟩ := accepted_of_pending heap hpend (by rw [hpc]; rfl)
    have hr := (h.reaches hs').reaches hs''
    exact ⟨s'', hr, hpc''.trans hpc, t, (Reachable.booked hr).queued ht, ht⟩

end Leaves

section Evaluated

variable [DecidableEq T]

instance (s : SharedTimer Cl T) (pc : ClientPC T) : Decidable (pc.Pending s) := match pc with
  | .getDeadline t _ _ => inferInstanceAs (Decidable (s.deadline t = 0))
  | .setDeadline _ _ _ | .setInterval _ _ _ _ | .pushTask _ _ _ => isTrue trivial
  | .idle | .getCurrentTime _ _ | .isRequestCancel _ _ _ | .cancelAsync _ | .clear _ | .cancelThread | .waitThread
  | .blockedThread | .runTask _ _ | .cancelTask _ _ _ => isFalse id

variable [Fintype Cl]

instance (s : SharedTimer Cl T) : Decidable (Deserted s) :=
  decidable_of_iff (s.thread.isRequestCancel = true ∧ s.queue = [] ∧ ∀ c, ¬ (s.client c).Pending s)
    ⟨fun ⟨h1, h2, h3⟩ => ⟨h1, h2, h3⟩, fun h => ⟨h.flag, h.empty, h.pending⟩⟩

instance (s : SharedTimer Cl T) (a : Action Cl T) : Decidable (LeavesEmpty s a) := match a with
  | .timer i => inferInstanceAs (Decidable (s.pc.exits s i.exit = true → Deserted s))
  | .call _ _ | .client _ _ | .wake _ => isTrue trivial

end Evaluated

/-- A timer that is stopped when it has run its task. -/
theorem accepted_has_timer_run : ∃ s : SharedTimer Unit Unit, s.acceptedTasks = [()] ∧ s.record.fired = [()] ∧
    () ∉ s.queue := by
  obtain ⟨s, hs, hp⟩ := System.reachable_of_exec (system Unit (binaryHeap Unit Nat)) LeavesEmpty
    ([.call () (.submit () (.later 0))] ++ List.replicate 5 (.client () ⟨.ret, 10⟩) ++
      List.replicate 21 (.timer ⟨.ret, 10⟩) ++ [.call () .stop, .client () ⟨.ret, 10⟩] ++
      List.replicate 4 (.timer ⟨.ret, 10⟩))
    (fun s => s.pc == .terminated && (s.acceptedTasks == [()] && s.record.fired == [()])) (by decide)
  obtain ⟨hpc, ha, hf⟩ := by simpa only [Bool.and_eq_true, beq_iff_eq] using hp
  exact ⟨s, ha, hf, accepted_has_timer hs hpc () (by rw [ha]; simp)⟩

/-- **A submission is accepted by a timer that has terminated**, because the `DoRun` of a task has thrown. -/
theorem accepted_after_throw : ∃ s, (system Unit (binaryHeap Bool Nat)).Reachable Anything s ∧ s.pc = .terminated ∧
    s.record.returned () = some true ∧ false ∈ s.acceptedTasks ∧ false ∈ s.queue := by
  obtain ⟨s, hs, hp⟩ := System.reachable_of_exec (system Unit (binaryHeap Bool Nat)) Anything
    ([.call () (.submit true (.later 0))] ++ List.replicate 5 (.client () ⟨.ret, 10⟩) ++
      List.replicate 19 (.timer ⟨.other, 10⟩) ++ [.call () (.submit false (.later 5))] ++
      List.replicate 5 (.client () ⟨.ret, 10⟩))
    (fun s => s.pc == .terminated && (s.record.returned () == some true && (decide (false ∈ s.acceptedTasks) &&
      decide (false ∈ s.queue)))) (by decide)
  simp only [Bool.and_eq_true, beq_iff_eq, decide_eq_true_eq] at hp
  exact ⟨s, hs, hp⟩

end SharedTimer

end Tpool
