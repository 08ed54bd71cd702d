import Mathlib.Data.List.Nodup
import Tpool.Thread.SharedTimer

/-!
# What becomes of the tasks of a timer

- `Booked`: an accepted task is in the queue, or it was fired, removed or cleared, and nothing else is in any of these.
  This holds of every run.
- `Once stage`: no two submissions with the same task are at the `stage`, none is there with a task that has been
  accepted, and no task is accepted twice. The stage is the whole submission (`ClientPC.submits`), or its part after the
  checks (`ClientPC.pushes`).
- `Single`: each task is passed to one submission at most. Then `Once` holds of every stage.
-/

namespace Tpool

open Concurrency Structures

namespace SharedTimer

variable {Cl T : Type*}

/-- The task that the timer thread has taken as the minimum, while it is in the queue. -/
def PC.min? : PC T → Option T
  | .getCurrentTime t | .getDeadline t _ | .isCancelled t _ _ | .isRequestCancel t _ _ | .compare t _ _
  | .isIntervalTask t _ | .getInterval t _ | .setDeadline t _ _ | .popMinAndPush t _ | .popMin t _ => some t
  | _ => none

/-- The task that the timer thread has taken as the minimum in this turn of its loop. -/
def PC.task : PC T → Option T
  | .unlock (some (t, _)) | .run t _ _ => some t
  | pc => pc.min?

/-- The task of a submission. -/
def ClientPC.submits : ClientPC T → Option T
  | .getCurrentTime t _ | .isRequestCancel t _ _ | .getDeadline t _ _ | .setDeadline t _ _ | .setInterval t _ _ _
  | .pushTask t _ _ => some t
  | _ => none

/-- The task of a submission that has passed its checks. -/
def ClientPC.pushes : ClientPC T → Option T
  | .setDeadline t _ _ | .setInterval t _ _ _ | .pushTask t _ _ => some t
  | _ => none

/-- The tasks whose submission has returned true. -/
def acceptedTasks (s : SharedTimer Cl T) : List T := s.record.accepted.map Prod.fst

/-- Only under the lock a task is taken. -/
theorem PC.min?_of_unlocked {pc : PC T} (h : pc.locked = false) : pc.min? = none := by
  cases pc <;> first | rfl | cases h

theorem PC.task_of_min? {pc : PC T} {t : T} (h : pc.min? = some t) : pc.task = some t := by
  cases pc <;> first | exact h | cases h

theorem ClientPC.submits_of_pushes {pc : ClientPC T} {t : T} (h : pc.pushes = some t) : pc.submits = some t := by
  cases pc <;> first | exact h | cases h

section Steps

variable {heap : PriorityQueue T Nat} {s s' : SharedTimer Cl T}

/-- The timer thread takes a task, stays with it or leaves it. -/
theorem Move.task {pc pc' : PC T} (h : Move s pc pc') :
    pc'.task = none ∨ pc'.task = pc.task ∨ pc'.task = s.queue.head? := by
  cases h with
  | getMin hq => exact Or.inr (Or.inr hq.symm)
  | getDeadline | isCancelled | notCancelled | requested | notRequested | due | interval | oneShot | getInterval =>
    exact Or.inr (Or.inl rfl)
  | _ => exact Or.inl rfl

variable [DecidableEq T]

/-- What the pop of the top leaves. -/
theorem count_pop (heap : PriorityQueue T Nat) {u : T} {rest : List T} (hq : s.queue = u :: rest) (t : T) :
    (heap.pop s.key s.queue).count t = rest.count t := by
  have h := (heap.pop_perm s.key s.queue).count_eq t
  rwa [hq, List.tail_cons, ← hq] at h

theorem count_push (key : T → Nat) (q : List T) (u t : T) : (heap.push key q u).count t = (u :: q).count t :=
  (heap.push_perm key q u).count_eq t

variable {i : Input}

/-- The timer thread leaves the clients where they are and accepts nothing. -/
theorem TimerStep.frame (h : TimerStep heap i s s') : s'.client = s.client ∧ s'.record.accepted = s.record.accepted ∧
    s'.record.submitted = s.record.submitted := by
  cases h with
  | @popMin t why => cases why <;> exact ⟨rfl, rfl, rfl⟩
  | run => split <;> exact ⟨rfl, rfl, rfl⟩
  | _ => exact ⟨rfl, rfl, rfl⟩

variable [DecidableEq Cl] {c : Cl}

/-- A client's step is made by this client only: its submission goes on or ends, passes the last check, or is
accepted. -/
theorem ClientStep.client (h : ClientStep heap c i s s') : ∃ pc', s'.client = Function.update s.client c pc' ∧
    s'.record.submitted = s.record.submitted ∧ ((s'.record.accepted = s.record.accepted ∧ (pc'.submits = none ∨
      pc'.submits = (s.client c).submits ∧ (pc'.pushes = none ∨ pc'.pushes = (s.client c).pushes ∨
        ∃ t how now, s.client c = .getDeadline t how now ∧ s.deadline t = 0 ∧ pc' = .setDeadline t how now))) ∨
    ∃ t how now, s.client c = .pushTask t how now ∧ pc' = .idle ∧
      s'.record.accepted = s.record.accepted ++ [(t, now, how)]) := by
  cases h with
  | silent hpc hs =>
    refine ⟨_, rfl, rfl, Or.inl ⟨rfl, ?_⟩⟩
    rw [hpc]
    cases hs with
    | notRequested => exact Or.inr ⟨rfl, Or.inl rfl⟩
    | putOnce hd => exact Or.inr ⟨rfl, Or.inr (Or.inr ⟨_, _, _, rfl, hd, rfl⟩)⟩
    | hasRun | hasCancelled => exact Or.inl rfl
  | readClock hpc => exact ⟨_, rfl, rfl, Or.inl ⟨rfl, Or.inr ⟨by rw [hpc]; rfl, Or.inl rfl⟩⟩⟩
  | setDeadline hpc hhow =>
    refine ⟨_, rfl, rfl, Or.inl ⟨rfl, Or.inr ?_⟩⟩
    rw [hpc]
    rcases hhow with ⟨rfl, -⟩ | ⟨_, _, -, rfl⟩
    · exact ⟨rfl, Or.inr (Or.inl rfl)⟩
    · exact ⟨rfl, Or.inr (Or.inl rfl)⟩
  | setInterval hpc => exact ⟨_, rfl, rfl, Or.inl ⟨rfl, Or.inr ⟨by rw [hpc]; rfl, Or.inr (Or.inl (by rw [hpc]; rfl))⟩⟩⟩
  | pushTask hpc => exact ⟨_, rfl, rfl, Or.inr ⟨_, _, _, hpc, rfl, rfl⟩⟩
  | cancelAsync hpc =>
    rcases hpc with ⟨-, rfl⟩ | ⟨_, -, rfl⟩
    · exact ⟨_, rfl, rfl, Or.inl ⟨rfl, Or.inl rfl⟩⟩
    · exact ⟨_, rfl, rfl, Or.inl ⟨rfl, Or.inl rfl⟩⟩
  | @clear stop =>
    refine ⟨_, rfl, rfl, Or.inl ⟨rfl, Or.inl ?_⟩⟩
    cases stop <;> rfl
  | refuse | stopped | block | runTask | cancelTask => exact ⟨_, rfl, rfl, Or.inl ⟨rfl, Or.inl rfl⟩⟩

end Steps

/-! ## Every accepted task is somewhere -/

section Booked

variable {heap : PriorityQueue T Nat} {s s' : SharedTimer Cl T}

/-- An accepted task is queued, or was fired, removed or cleared; only accepted tasks are run. -/
structure Booked (s : SharedTimer Cl T) : Prop where
  perm : s.acceptedTasks.Perm (s.queue ++ s.record.fired ++ s.record.removed ++ s.record.cleared)
  task : ∀ t, s.pc.task = some t → t ∈ s.acceptedTasks
  runs : ∀ t ∈ s.record.runs, t ∈ s.acceptedTasks
  started : ∀ x ∈ s.record.started, x.1 ∈ s.acceptedTasks

theorem Booked.queued (hi : Booked s) {t : T} (h : t ∈ s.queue) : t ∈ s.acceptedTasks :=
  hi.perm.mem_iff.mpr (by simp [h])

/-- The timer thread moves on. -/
theorem Booked.move (hi : Booked s) {pc pc' : PC T} (hpc : s.pc = pc) (h : Move s pc pc') : Booked (s.goto pc') := by
  refine ⟨hi.perm, ?_, hi.runs, hi.started⟩
  intro t ht
  rcases h.task with h | h | h
  · rw [show (s.goto pc').pc.task = pc'.task from rfl, h] at ht
    cases ht
  · rw [← hpc] at h
    exact hi.task t (h.symm.trans ht)
  · exact hi.queued (List.mem_of_mem_head? (h.symm.trans ht))

variable [DecidableEq T] {i : Input}

theorem Booked.timer (hi : Booked s) (h : TimerStep heap i s s') : Booked s' := by
  cases h with
  | move hpc hm => exact hi.move hpc hm
  | setRunning | wait | timedWait | awake | notifyFinished =>
    refine ⟨hi.perm, ?_, hi.runs, hi.started⟩
    intro t ht
    cases ht
  | readClock hpc | setDeadline hpc =>
    refine ⟨hi.perm, ?_, hi.runs, hi.started⟩
    intro t ht
    exact hi.task t (by rw [hpc]; exact ht)
  | @again t now u rest hpc hq =>
    refine ⟨?_, ?_, hi.runs, hi.started⟩
    · refine List.perm_iff_count.mpr fun a => ?_
      have ha := hi.perm.count_eq a
      have hpop := count_pop heap hq a
      simp only [hq, List.count_append, List.count_cons] at ha
      simp only [List.count_append, count_push, List.count_cons, hpop]
      exact ha
    · intro v hv
      exact hi.task v (by rw [hpc]; exact hv)
  | @popMin t why u rest hpc hq =>
    have hpop := count_pop heap hq
    refine ⟨?_, ?_, ?_, ?_⟩
    · refine List.perm_iff_count.mpr fun a => ?_
      have ha := hi.perm.count_eq a
      simp only [hq, List.count_append, List.count_cons] at ha
      have hacc : ((s.popMin heap u why).goto (.unlock (why.fired t))).acceptedTasks = s.acceptedTasks := by
        cases why <;> rfl
      rw [hacc, ha]
      cases why <;> simp only [popMin, goto, List.count_append, hpop, List.count_singleton] <;> omega
    · intro v hv
      have hv : s.pc.task = some v := by
        rw [hpc]
        cases why with
        | cancelled => cases hv
        | requested | due => exact hv
      have := hi.task v hv
      cases why <;> exact this
    · cases why <;> exact hi.runs
    · cases why <;> exact hi.started
  | @start t now hpc =>
    have ht : t ∈ s.acceptedTasks := hi.task t (by rw [hpc]; rfl)
    refine ⟨hi.perm, ?_, ?_, hi.started⟩
    · intro v hv
      cases hv
      exact ht
    · intro v hv
      rcases List.mem_append.mp hv with hv | hv
      · exact hi.runs v hv
      · rw [List.mem_singleton.mp hv]; exact ht
  | @run t now p b p' hpc =>
    have ht : t ∈ s.acceptedTasks := hi.task t (by rw [hpc]; rfl)
    have hp' : ∀ v, (PC.run t now p').task = some v → v ∈ s.acceptedTasks := by
      intro v hv
      cases hv
      exact ht
    split
    · refine ⟨hi.perm, hp', hi.runs, ?_⟩
      intro x hx
      rcases List.mem_append.mp hx with hx | hx
      · exact hi.started x hx
      · rw [List.mem_singleton.mp hx]; exact ht
    · exact ⟨hi.perm, hp', hi.runs, hi.started⟩

variable [DecidableEq Cl] {c : Cl}

theorem Booked.client (hi : Booked s) (h : ClientStep heap c i s s') : Booked s' := by
  cases h with
  | @pushTask t how now hpc hl =>
    have hacc : ∀ (v : T), v ∈ s.acceptedTasks → v ∈ (s.record.accepted ++ [(t, now, how)]).map Prod.fst := by
      intro v hv
      rw [List.map_append]
      exact List.mem_append_left _ hv
    refine ⟨?_, fun v hv => hacc v (hi.task v hv), fun v hv => hacc v (hi.runs v hv),
      fun x hx => hacc x.1 (hi.started x hx)⟩
    refine List.perm_iff_count.mpr fun a => ?_
    have ha := hi.perm.count_eq a
    simp only [acceptedTasks, List.count_append] at ha
    simp only [acceptedTasks, List.map_append, List.map_cons, List.map_nil, List.count_append, count_push,
      List.count_cons, List.count_nil]
    omega
  | clear =>
    refine ⟨?_, hi.task, hi.runs, hi.started⟩
    refine hi.perm.trans (List.perm_iff_count.mpr fun a => ?_)
    simp only [List.count_append, List.count_nil]
    omega
  | _ => exact ⟨hi.perm, hi.task, hi.runs, hi.started⟩

theorem Reachable.booked {ok : SharedTimer Cl T → Action Cl T → Prop} (h : (system Cl heap).Reachable ok s) :
    Booked s := by
  refine h.induct (I := Booked) ?_ ?_
  · exact ⟨.nil, by simp [system, new, PC.task, PC.min?], by simp [system, new], by simp [system, new]⟩
  · intro s a s' _ _ hs hi
    cases step_cases hs with
    | @call c m => cases m <;> exact ⟨hi.perm, hi.task, hi.runs, hi.started⟩
    | client h => exact hi.client h
    | timer h => exact hi.timer h
    | wake w => cases w <;> exact ⟨hi.perm, hi.task, hi.runs, hi.started⟩

end Booked

/-! ## One submission of a task at a time -/

section Once

variable {stage : ClientPC T → Option T} {s s' : SharedTimer Cl T}

/-- One submission with a task is at the stage, and this task has not been accepted; no task is accepted twice. -/
structure Once (stage : ClientPC T → Option T) (s : SharedTimer Cl T) : Prop where
  one : ∀ c c' t, stage (s.client c) = some t → stage (s.client c') = some t → c = c'
  fresh : ∀ c t, stage (s.client c) = some t → t ∉ s.acceptedTasks
  nodup : s.acceptedTasks.Nodup

/-- `c` may be at the stage with a task. -/
def Enters (stage : ClientPC T → Option T) (s : SharedTimer Cl T) (c : Cl) (pc : ClientPC T) : Prop :=
  ∀ t, stage pc = some t → (∀ c', c' ≠ c → stage (s.client c') ≠ some t) ∧ t ∉ s.acceptedTasks

theorem Once.enters (hi : Once stage s) {c : Cl} {pc : ClientPC T}
    (h : stage pc = none ∨ stage pc = stage (s.client c)) : Enters stage s c pc := by
  intro t ht
  rcases h with h | h
  · rw [h] at ht
    cases ht
  · rw [h] at ht
    exact ⟨fun c' hc hc' => hc (hi.one c' c t hc' ht), hi.fresh c t ht⟩

theorem Once.frame (hi : Once stage s) (hc : s'.client = s.client) (ha : s'.record.accepted = s.record.accepted) :
    Once stage s' := by
  have ha : s'.acceptedTasks = s.acceptedTasks := congrArg (List.map Prod.fst) ha
  constructor
  · rw [hc]; exact hi.one
  · rw [hc, ha]; exact hi.fresh
  · rw [ha]; exact hi.nodup

variable [DecidableEq Cl] {c : Cl} {pc : ClientPC T}

theorem Once.move (hi : Once stage s) (hpc : Enters stage s c pc) (hc : s'.client = Function.update s.client c pc)
    (ha : s'.record.accepted = s.record.accepted) : Once stage s' := by
  have ha : s'.acceptedTasks = s.acceptedTasks := congrArg (List.map Prod.fst) ha
  refine ⟨?_, ?_, by rw [ha]; exact hi.nodup⟩
  · intro d d' t hd hd'
    rw [hc] at hd hd'
    by_cases hdc : d = c
    · by_cases hdc' : d' = c
      · rw [hdc, hdc']
      · rw [hdc, Function.update_self] at hd
        rw [Function.update_of_ne hdc'] at hd'
        exact absurd hd' ((hpc t hd).1 d' hdc')
    · rw [Function.update_of_ne hdc] at hd
      by_cases hdc' : d' = c
      · rw [hdc', Function.update_self] at hd'
        exact absurd hd ((hpc t hd').1 d hdc)
      · rw [Function.update_of_ne hdc'] at hd'
        exact hi.one d d' t hd hd'
  · intro d t hd
    rw [ha]
    rw [hc] at hd
    by_cases hdc : d = c
    · rw [hdc, Function.update_self] at hd
      exact (hpc t hd).2
    · rw [Function.update_of_ne hdc] at hd
      exact hi.fresh d t hd

/-- The submission of `c` is accepted. -/
theorem Once.accept (hi : Once stage s) {t : T} {now : TimeValue} {how : Submission} (ht : stage (s.client c) = some t)
    (hpc : stage pc = none) (hc : s'.client = Function.update s.client c pc)
    (ha : s'.record.accepted = s.record.accepted ++ [(t, now, how)]) : Once stage s' := by
  have ha : s'.acceptedTasks = s.acceptedTasks ++ [t] := by
    unfold acceptedTasks
    rw [ha, List.map_append]
    rfl
  have hother : ∀ d v, stage (s'.client d) = some v → d ≠ c ∧ stage (s.client d) = some v := by
    intro d v hd
    rw [hc] at hd
    by_cases hdc : d = c
    · rw [hdc, Function.update_self, hpc] at hd
      cases hd
    · rw [Function.update_of_ne hdc] at hd
      exact ⟨hdc, hd⟩
  refine ⟨fun d d' v hd hd' => hi.one d d' v (hother d v hd).2 (hother d' v hd').2, ?_, ?_⟩
  · intro d v hd
    obtain ⟨hdc, hd⟩ := hother d v hd
    rw [ha, List.mem_append, List.mem_singleton]
    rintro (hv | rfl)
    · exact hi.fresh d v hd hv
    · exact hdc (hi.one d c v hd ht)
  · rw [ha]
    exact List.nodup_append.mpr ⟨hi.nodup, by simp, by
      intro v hv w hw
      rw [List.mem_singleton.mp hw]
      rintro rfl
      exact hi.fresh c v ht hv⟩

omit [DecidableEq Cl] in
/-- What holds of the whole submission holds of its last part. -/
theorem Once.pushes (hi : Once ClientPC.submits s) : Once ClientPC.pushes s where
  one c c' t hc hc' := hi.one c c' t (ClientPC.submits_of_pushes hc) (ClientPC.submits_of_pushes hc')
  fresh c t hc := hi.fresh c t (ClientPC.submits_of_pushes hc)
  nodup := hi.nodup

omit [DecidableEq Cl] in
/-- A task is queued once. -/
theorem Once.queue_nodup (hi : Once stage s) (hb : Booked s) : s.queue.Nodup :=
  (hb.perm.nodup_iff.mp hi.nodup).sublist (by simp [List.append_assoc])

end Once

/-! ## What is past the checks is accepted -/

section Accept

variable {heap : PriorityQueue T Nat} {s : SharedTimer Cl T} [DecidableEq Cl] [DecidableEq T] {c : Cl} {t : T}

/-- `s'` is `s` after the submission of `t` by `c` has been accepted. -/
structure AcceptedBy (heap : PriorityQueue T Nat) (c : Cl) (t : T) (s s' : SharedTimer Cl T) : Prop where
  reaches : (system Cl heap).Reaches Anything s s'
  pc : s'.pc = s.pc
  others : ∀ d, d ≠ c → s'.client d = s.client d
  accepted : s'.acceptedTasks = s.acceptedTasks ++ [t]
  queued : t ∈ s'.queue

/-- A step of `c` before the push. -/
theorem AcceptedBy.head {u s' : SharedTimer Cl T} (hi : AcceptedBy heap c t u s') {i : Input}
    (h : s.clientStep heap c i = some u) (hpc : u.pc = s.pc) (hother : ∀ d, d ≠ c → u.client d = s.client d)
    (ha : u.record.accepted = s.record.accepted) : AcceptedBy heap c t s s' where
  reaches := .head ⟨.client c i, trivial, h⟩ hi.reaches
  pc := hi.pc.trans hpc
  others d hd := (hi.others d hd).trans (hother d hd)
  accepted := by
    rw [hi.accepted]
    unfold acceptedTasks
    rw [ha]
  queued := hi.queued

/-- **A submission that has passed its checks goes on to be accepted**, whenever the timer thread does not hold the
lock. -/
theorem accepted_of_pushes (hc : (s.client c).pushes = some t) (hl : s.pc.locked = false) :
    ∃ s', AcceptedBy heap c t s s' := by
  have hpush : ∀ (u : SharedTimer Cl T) how now, u.client c = .pushTask t how now → u.pc.locked = false →
      ∃ s', AcceptedBy heap c t u s' := by
    intro u how now hu hl
    have hstep : (system Cl heap).step u (.client c ⟨.ret, 0⟩) = some { u.gotoClient c .idle with
        queue := heap.push u.key u.queue t
        waiting := false
        record := { u.record with
          accepted := u.record.accepted ++ [(t, now, how)]
          returned := Function.update u.record.returned c (some true) } } := by
      simp only [system, step, clientStep, hu, hl, Bool.false_eq_true, if_false]
    refine ⟨_, .single ⟨_, trivial, hstep⟩, rfl, fun d hd => Function.update_of_ne hd _ _, ?_, ?_⟩
    · simp [acceptedTasks]
    · exact (heap.push_perm _ _ _).mem_iff.mpr List.mem_cons_self
  have hinterval : ∀ (u : SharedTimer Cl T) how now interval, u.client c = .setInterval t how now interval →
      u.pc.locked = false → ∃ s', AcceptedBy heap c t u s' := by
    intro u how now interval hu hl
    obtain ⟨s', hs'⟩ := hpush { u.gotoClient c (.pushTask t how now) with
      interval := Function.update u.interval t interval } how now (Function.update_self _ _ _) hl
    exact ⟨s', hs'.head (i := ⟨.ret, 0⟩) (by simp only [clientStep, hu]) rfl
      (fun d hd => Function.update_of_ne hd _ _) rfl⟩
  cases hpc : s.client c with
  | pushTask v how now =>
    rw [hpc] at hc
    cases hc
    exact hpush s how now hpc hl
  | setInterval v how now interval =>
    rw [hpc] at hc
    cases hc
    exact hinterval s how now interval hpc hl
  | setDeadline v how now =>
    rw [hpc] at hc
    cases hc
    cases how with
    | later d =>
      obtain ⟨s', hs'⟩ := hpush { s.gotoClient c (.pushTask t (.later d) now) with
        deadline := Function.update s.deadline t ((Submission.later d).deadline now) } _ now
        (Function.update_self _ _ _) hl
      exact ⟨s', hs'.head (i := ⟨.ret, 0⟩) (by simp only [clientStep, hpc]) rfl
        (fun d hd => Function.update_of_ne hd _ _) rfl⟩
    | every p b =>
      obtain ⟨s', hs'⟩ := hinterval { s.gotoClient c (.setInterval t (.every p b) now p) with
        deadline := Function.update s.deadline t ((Submission.every p b).deadline now) } _ now p
        (Function.update_self _ _ _) hl
      exact ⟨s', hs'.head (i := ⟨.ret, 0⟩) (by simp only [clientStep, hpc]) rfl
        (fun d hd => Function.update_of_ne hd _ _) rfl⟩
  | _ => rw [hpc] at hc; cases hc

end Accept

/-! ## Each task is submitted once -/

section Single

variable {heap : PriorityQueue T Nat} {s s' : SharedTimer Cl T}

/-- A task is passed to a submission that was not before. -/
def Single (s : SharedTimer Cl T) : Action Cl T → Prop
  | .call _ (.submit t _) => t ∉ s.record.submitted
  | _ => True

instance [DecidableEq T] (s : SharedTimer Cl T) (a : Action Cl T) : Decidable (Single s a) := match a with
  | .call _ (.submit t _) => inferInstanceAs (Decidable (t ∉ s.record.submitted))
  | .call _ .stopAsync | .call _ .stop | .call _ (.runTask _) | .call _ (.cancelTask _ _) | .client _ _ | .timer _
  | .wake _ => isTrue trivial

/-- What was submitted, and who submits it. -/
structure Submitted (s : SharedTimer Cl T) : Prop where
  once : Once ClientPC.submits s
  client : ∀ c t, (s.client c).submits = some t → t ∈ s.record.submitted
  accepted : ∀ t ∈ s.acceptedTasks, t ∈ s.record.submitted

variable [DecidableEq Cl] {c : Cl}

/-- The submission of `c` goes on or ends. -/
theorem Submitted.move (hi : Submitted s) {pc : ClientPC T}
    (hpc : pc.submits = none ∨ pc.submits = (s.client c).submits) (hc : s'.client = Function.update s.client c pc)
    (ha : s'.record.accepted = s.record.accepted) (hs : s'.record.submitted = s.record.submitted) : Submitted s' := by
  refine ⟨hi.once.move (hi.once.enters hpc) hc ha, ?_, ?_⟩
  · intro d v hd
    rw [hs]
    rw [hc] at hd
    by_cases hdc : d = c
    · rw [hdc, Function.update_self] at hd
      rcases hpc with hpc | hpc
      · rw [hpc] at hd
        cases hd
      · exact hi.client c v (hpc.symm.trans hd)
    · rw [Function.update_of_ne hdc] at hd
      exact hi.client d v hd
  · intro v hv
    rw [hs]
    exact hi.accepted v (by unfold acceptedTasks at hv ⊢; rwa [ha] at hv)

theorem Submitted.call (hi : Submitted s) {m : Method T} (hok : Single s (.call c m)) : Submitted (s.call c m) := by
  cases m with
  | submit t how =>
    have henters : Enters ClientPC.submits s c (.getCurrentTime t how) := by
      intro v hv
      cases hv
      exact ⟨fun c' _ hc' => hok (hi.client c' t hc'), fun hv => hok (hi.accepted t hv)⟩
    refine ⟨hi.once.move henters rfl rfl, ?_, fun v hv => List.mem_append_left _ (hi.accepted v hv)⟩
    intro d v hd
    show v ∈ s.record.submitted ++ [t]
    by_cases hdc : d = c
    · have hd : some t = some v := by simpa [SharedTimer.call, gotoClient, Method.start, ClientPC.submits, hdc] using hd
      cases hd
      simp
    · have hd : (s.client d).submits = some v := by simpa [SharedTimer.call, gotoClient, Function.update, hdc] using hd
      exact List.mem_append_left _ (hi.client d v hd)
  | stopAsync | stop | runTask | cancelTask => exact hi.move (Or.inl rfl) rfl rfl rfl

variable [DecidableEq T] {i : Input}

theorem Submitted.clientStep (hi : Submitted s) (h : ClientStep heap c i s s') : Submitted s' := by
  obtain ⟨pc, hc, hs, ⟨ha, hpc⟩ | ⟨t, now, how, hpc, rfl, ha⟩⟩ := h.client
  · exact hi.move (hpc.imp id And.left) hc ha hs
  · have ht : (s.client c).submits = some t := by rw [hpc]; rfl
    refine ⟨hi.once.accept ht rfl hc ha, ?_, ?_⟩
    · intro d v hd
      rw [hs]
      rw [hc] at hd
      by_cases hdc : d = c
      · rw [hdc, Function.update_self] at hd
        cases hd
      · rw [Function.update_of_ne hdc] at hd
        exact hi.client d v hd
    · intro v hv
      rw [hs]
      unfold acceptedTasks at hv
      rw [ha, List.map_append, List.mem_append] at hv
      rcases hv with hv | hv
      · exact hi.accepted v hv
      · rw [List.mem_singleton.mp hv]
        exact hi.client c t ht

theorem Reachable.submitted (h : (system Cl heap).Reachable Single s) : Submitted s := by
  refine h.induct (I := Submitted) ?_ ?_
  · exact ⟨⟨by simp [system, new, ClientPC.submits], by simp [system, new, ClientPC.submits], List.nodup_nil⟩,
      by simp [system, new, ClientPC.submits], by simp [system, new, acceptedTasks]⟩
  · intro s a s' _ hok hs hi
    cases step_cases hs with
    | call => exact hi.call hok
    | client h => exact hi.clientStep h
    | timer h =>
      obtain ⟨hc, ha, hsub⟩ := h.frame
      have ha' : s'.acceptedTasks = s.acceptedTasks := congrArg (List.map Prod.fst) ha
      exact ⟨hi.once.frame hc ha, by rw [hc, hsub]; exact hi.client, by rw [ha', hsub]; exact hi.accepted⟩
    | wake w => cases w <;> exact ⟨hi.once.frame rfl rfl, hi.client, hi.accepted⟩

end Single

end SharedTimer

end Tpool
