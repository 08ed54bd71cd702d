import Tpool.Structures.BinaryHeap
import Tpool.Thread.TimerTasks

/-!
# The queue of a timer

- `Ordered`: the task that the timer thread has taken is the top of the queue, and the queue is a heap for the
  deadlines; between the write of the deadline of the top and its pop only the heaps below the top are left.
- `Intervals`: what is fired for good has no interval, and what has none is run once.
- `Requests`: what leaves the queue as cancelled was asked to cancel.
- `queue_conserved`: all of this when each task is passed to one submission at most. `Ordered` and `Intervals` hold of
  every run in which no two submissions of a task have passed the checks (`Once ClientPC.pushes`).
-/

namespace Tpool

open Concurrency Structures

namespace SharedTimer

variable {Cl T : Type*}

/-- The deadline of the top has been written, and the top is not popped. -/
def PC.rearmed : PC T → Bool
  | .popMinAndPush _ _ => true
  | _ => false

/-- The task that the timer thread puts back. -/
def PC.again : PC T → Option T
  | .getInterval t _ | .setDeadline t _ _ | .popMinAndPush t _ => some t
  | _ => none

/-- The task that the timer thread runs next. -/
def PC.toRun : PC T → Option T
  | .unlock (some (t, _)) => some t
  | _ => none

/-- The deadline that the timer thread has read. -/
def PC.read : PC T → Option (T × TimeValue)
  | .isCancelled t _ deadline | .isRequestCancel t _ deadline | .compare t _ deadline => some (t, deadline)
  | _ => none

theorem PC.min?_of_again {pc : PC T} {t : T} (h : pc.again = some t) : pc.min? = some t := by
  cases pc <;> first | exact h | cases h

theorem PC.min?_of_read {pc : PC T} {t : T} {deadline : TimeValue} (h : pc.read = some (t, deadline)) :
    pc.min? = some t := by
  cases pc <;> cases h <;> rfl

theorem PC.task_of_toRun {pc : PC T} {t : T} (h : pc.toRun = some t) : pc.task = some t := by
  cases pc with
  | unlock fired =>
    cases fired with
    | none => cases h
    | some x => exact h
  | _ => cases h

variable {heap : PriorityQueue T Nat} {s s' : SharedTimer Cl T}

/-! ## What submissions do not touch -/

/-- A submission that has passed its checks is about a task that is not in the queue. -/
theorem Once.not_queued (ho : Once ClientPC.pushes s) (hb : Booked s) {c : Cl} {t : T}
    (h : (s.client c).pushes = some t) : t ∉ s.queue := fun hq => ho.fresh c t h (hb.queued hq)

/-- And not the one that the timer thread has taken. -/
theorem Once.ne_task (ho : Once ClientPC.pushes s) (hb : Booked s) {c : Cl} {t v : T}
    (h : (s.client c).pushes = some t) (hv : s.pc.task = some v) : v ≠ t := by
  rintro rfl
  exact ho.fresh c v h (hb.task v hv)

/-! ## The order of the queue -/

/-- What was taken is the top; the queue is a heap, but for the moment after the write of the deadline of the top. -/
structure Ordered (s : SharedTimer Cl T) : Prop where
  head : ∀ t, s.pc.min? = some t → s.queue.head? = some t
  read : ∀ t deadline, s.pc.read = some (t, deadline) → s.deadline t = deadline
  heap : s.pc.rearmed = false → IsHeap s.key s.queue
  sub : SubHeaps s.key s.queue

section Ordered

/-- The top of the queue has a smallest deadline. -/
theorem Ordered.min (hi : Ordered s) (hr : s.pc.rearmed = false) {t u : T} (ht : s.pc.min? = some t)
    (hu : u ∈ s.queue) : s.deadline t ≤ s.deadline u :=
  UInt64.le_iff_toNat_le.mpr ((hi.heap hr).head_le (hi.head t ht) hu)

/-- What is popped is what was taken. -/
theorem Ordered.head_eq (hi : Ordered s) {t u : T} {rest : List T} (ht : s.pc.min? = some t)
    (hq : s.queue = u :: rest) :
    u = t := by
  have hhead := hi.head t ht
  rw [hq] at hhead
  exact Option.some.inj hhead

/-- Where nothing is taken there is the heap only. -/
theorem Ordered.of_heap (hm : s.pc.min? = none) (h : IsHeap s.key s.queue) : Ordered s := by
  refine ⟨?_, ?_, fun _ => h, h.sub⟩
  · intro t ht
    rw [hm] at ht
    cases ht
  · intro t deadline ht
    rw [PC.min?_of_read ht] at hm
    cases hm

theorem Ordered.move (hi : Ordered s) {pc pc' : PC T} (hpc : s.pc = pc) (h : Move s pc pc') :
    Ordered (s.goto pc') := by
  have hpc' : pc'.rearmed = false := by cases h <;> rfl
  have hr : s.pc.rearmed = false := by
    rw [hpc]
    cases h with
    | exit h => rcases h with rfl | rfl <;> rfl
    | _ => rfl
  refine ⟨?_, ?_, fun _ => hi.heap hr, hi.sub⟩
  · intro t ht
    cases h with
    | getMin hq => cases ht; exact hq
    | getDeadline | isCancelled | notCancelled | requested | notRequested | due | interval | oneShot | getInterval =>
      exact hi.head t (by rw [hpc]; exact ht)
    | _ => cases ht
  · intro t deadline ht
    cases h with
    | getDeadline => cases ht; rfl
    | notCancelled | notRequested => exact hi.read t deadline (by rw [hpc]; exact ht)
    | _ => cases ht

variable [DecidableEq T] {i : Input}

/-- The keys of the others do not change with a deadline. -/
theorem key_update {t y : T} (hy : y ≠ t) (d : TimeValue) :
    key { s with deadline := Function.update s.deadline t d } y = s.key y := by
  simp [key, Function.update_of_ne hy]

theorem Ordered.timer (hi : Ordered s) (hn : s.queue.Nodup) (h : TimerStep heap i s s') : Ordered s' := by
  cases h with
  | move hpc hm => exact hi.move hpc hm
  | setRunning hpc | wait hpc | timedWait hpc | awake hpc | start hpc | notifyFinished hpc =>
    exact .of_heap rfl (hi.heap (by rw [hpc]; rfl))
  | readClock hpc =>
    refine ⟨?_, ?_, fun _ => hi.heap (by rw [hpc]; rfl), hi.sub⟩
    · intro t ht
      exact hi.head t (by rw [hpc]; exact ht)
    · intro t d ht
      cases ht
  | @setDeadline t now interval hpc =>
    have hheap := hi.heap (by rw [hpc]; rfl)
    have hhead := hi.head t (by rw [hpc]; rfl)
    obtain ⟨rest, hq⟩ := cons_of_head? hhead
    refine ⟨?_, ?_, ?_, ?_⟩
    · intro v hv
      cases hv
      exact hhead
    · intro v d hv
      cases hv
    · intro hr
      cases hr
    · rw [hq] at hheap hn
      show SubHeaps _ s.queue
      rw [hq]
      refine hheap.subHeaps fun y hy => key_update ?_ _
      rintro rfl
      exact (List.nodup_cons.mp hn).1 hy
  | again => exact .of_heap rfl (heap.push_heap _ (heap.pop_heap hi.sub))
  | @popMin t why =>
    have hheap : IsHeap s.key (heap.pop s.key s.queue) := heap.pop_heap hi.sub
    cases why <;> exact .of_heap rfl hheap
  | @run t now p b p' hpc =>
    have hheap := hi.heap (by rw [hpc]; rfl)
    split <;> exact .of_heap rfl hheap

variable [DecidableEq Cl] {c : Cl}

theorem Ordered.client (hi : Ordered s) (ho : Once ClientPC.pushes s) (hb : Booked s)
    (h : ClientStep heap c i s s') : Ordered s' := by
  cases h with
  | @setDeadline t how now pc' hpc =>
    have ht : (s.client c).pushes = some t := by rw [hpc]; rfl
    have hkey : ∀ y ∈ s.queue,
        key { s with deadline := Function.update s.deadline t (how.deadline now) } y = s.key y := by
      intro y hy
      refine key_update ?_ _
      rintro rfl
      exact ho.not_queued hb ht hy
    refine ⟨hi.head, ?_, fun hr => (hi.heap hr).congr hkey, hi.sub.congr hkey⟩
    intro v deadline hv
    have hne : v ≠ t := ho.ne_task hb ht (PC.task_of_min? (PC.min?_of_read hv))
    show Function.update s.deadline t _ v = deadline
    rw [Function.update_of_ne hne]
    exact hi.read v deadline hv
  | @pushTask t how now hpc hl =>
    have hr : s.pc.rearmed = false := by
      cases hpc : s.pc with
      | popMinAndPush => rw [hpc] at hl; cases hl
      | _ => rfl
    exact .of_heap (PC.min?_of_unlocked hl) (heap.push_heap t (hi.heap hr))
  | clear hpc hl => exact .of_heap (PC.min?_of_unlocked hl) .nil
  | _ => exact ⟨hi.head, hi.read, hi.heap, hi.sub⟩

theorem Reachable.ordered {ok : SharedTimer Cl T → Action Cl T → Prop}
    (hok : ∀ s, (system Cl heap).Reachable ok s → Once ClientPC.pushes s) (h : (system Cl heap).Reachable ok s) :
    Ordered s := by
  refine h.induct (I := Ordered) ?_ ?_
  · exact .of_heap rfl .nil
  · intro s a s' hr _ hs hi
    have ho := hok s hr
    have hb := Reachable.booked hr
    cases step_cases hs with
    | @call c m => cases m <;> exact ⟨hi.head, hi.read, hi.heap, hi.sub⟩
    | client h => exact hi.client ho hb h
    | timer h => exact hi.timer (ho.queue_nodup hb) h
    | wake w => cases w <;> exact ⟨hi.head, hi.read, hi.heap, hi.sub⟩

end Ordered

/-! ## What is fired for good -/

section Intervals

variable [DecidableEq T]

/-- What is put back has an interval, what is fired for good has none, and what has none is run at most as often as it
has left the queue. -/
structure Intervals (s : SharedTimer Cl T) : Prop where
  again : ∀ t, s.pc.again = some t → 0 < s.interval t
  due : ∀ t now, s.pc = .popMin t (.due now) → ¬ 0 < s.interval t
  fired : ∀ t ∈ s.record.fired, ¬ 0 < s.interval t
  runs : ∀ t, ¬ 0 < s.interval t →
    (s.record.runs ++ s.pc.toRun.toList).count t ≤ (s.record.fired ++ s.record.removed).count t

/-- Nothing leaves the queue, nothing is run and no interval is written. -/
theorem Intervals.quiet (hi : Intervals s) (hint : s'.interval = s.interval) (hfired : s'.record.fired = s.record.fired)
    (hremoved : s'.record.removed = s.record.removed) (hruns : s'.record.runs = s.record.runs)
    (ha : s'.pc.again = none ∨ s'.pc.again = s.pc.again)
    (hd : ∀ t now, s'.pc = .popMin t (.due now) → ¬ 0 < s.interval t)
    (hr : s'.pc.toRun = none ∨ s'.pc.toRun = s.pc.toRun) : Intervals s' := by
  constructor
  · intro t ht
    rw [hint]
    rcases ha with ha | ha
    · rw [ha] at ht
      cases ht
    · exact hi.again t (ha.symm.trans ht)
  · rw [hint]
    exact hd
  · rw [hfired, hint]
    exact hi.fired
  · intro t ht
    rw [hint] at ht
    have h := hi.runs t ht
    rw [hruns, hfired, hremoved]
    rcases hr with hr | hr
    · rw [hr]
      simp only [List.count_append, Option.toList_none, List.count_nil] at h ⊢
      omega
    · rwa [hr]

/-- The timer thread goes to where it neither puts a task back nor pops a due one. -/
theorem Intervals.elsewhere (ha : s'.pc.again = none) (hd : ∀ t now, s'.pc ≠ .popMin t (.due now))
    (hfired : ∀ t ∈ s'.record.fired, ¬ 0 < s'.interval t)
    (hruns : ∀ t, ¬ 0 < s'.interval t →
      (s'.record.runs ++ s'.pc.toRun.toList).count t ≤ (s'.record.fired ++ s'.record.removed).count t) :
    Intervals s' := by
  refine ⟨?_, fun t now h => absurd h (hd t now), hfired, hruns⟩
  intro t ht
  rw [ha] at ht
  cases ht

theorem Intervals.move (hi : Intervals s) {pc pc' : PC T} (hpc : s.pc = pc) (h : Move s pc pc') :
    Intervals (s.goto pc') := by
  cases h with
  | @interval t now ht =>
    refine ⟨?_, fun v r hv => absurd hv (by simp [SharedTimer.goto]), hi.fired, ?_⟩
    · intro v hv
      cases hv
      exact ht
    · intro v hv
      have h := hi.runs v hv
      rwa [hpc] at h
  | getInterval => exact hi.quiet rfl rfl rfl rfl (Or.inr (by rw [hpc]; rfl)) (by simp [SharedTimer.goto]) (Or.inl rfl)
  | oneShot ht =>
    refine hi.quiet rfl rfl rfl rfl (Or.inl rfl) ?_ (Or.inl rfl)
    intro v r hv
    cases hv
    exact ht
  | _ => exact hi.quiet rfl rfl rfl rfl (Or.inl rfl) (by simp [SharedTimer.goto]) (Or.inl rfl)

variable {i : Input}

theorem Intervals.timer (hi : Intervals s) (ho : Ordered s) (h : TimerStep heap i s s') : Intervals s' := by
  cases h with
  | move hpc hm => exact hi.move hpc hm
  | setRunning | wait | readClock | timedWait | awake | notifyFinished =>
    exact hi.quiet rfl rfl rfl rfl (Or.inl rfl) (by simp [SharedTimer.goto]) (Or.inl rfl)
  | setDeadline hpc =>
    exact hi.quiet rfl rfl rfl rfl (Or.inr (by rw [hpc]; rfl)) (by simp [SharedTimer.goto]) (Or.inl rfl)
  | @again t now u rest hpc hq =>
    have ht : 0 < s.interval t := hi.again t (by rw [hpc]; rfl)
    refine .elsewhere rfl (fun _ _ h => by cases h) hi.fired ?_
    intro v hv
    have hvt : t ≠ v := by
      rintro rfl
      exact hv ht
    have h := hi.runs v hv
    rw [hpc] at h
    simpa [PC.toRun, SharedTimer.goto, hvt] using h
  | @popMin t why u rest hpc hq =>
    have hut : u = t := ho.head_eq (by rw [hpc]; rfl) hq
    subst hut
    cases why with
    | due now =>
      refine .elsewhere rfl (fun _ _ h => by cases h) ?_ ?_
      · intro v hv
        rcases List.mem_append.mp hv with hv | hv
        · exact hi.fired v hv
        · rw [List.mem_singleton.mp hv]
          exact hi.due u now hpc
      · intro v hv
        have h := hi.runs v hv
        rw [hpc] at h
        simp only [PC.toRun, Option.toList_none, List.append_nil, List.count_append] at h
        simp only [SharedTimer.popMin, SharedTimer.goto, Why.fired, PC.toRun, Option.toList_some, List.count_append]
        omega
    | cancelled | requested =>
      refine .elsewhere rfl (fun _ _ h => by cases h) hi.fired ?_
      intro v hv
      have h := hi.runs v hv
      rw [hpc] at h
      simp only [PC.toRun, Option.toList_none, List.append_nil, List.count_append] at h
      simp only [SharedTimer.popMin, SharedTimer.goto, Why.fired, PC.toRun, Option.toList_some, Option.toList_none,
        List.count_append, List.count_nil]
      omega
  | @start t now hpc =>
    refine .elsewhere rfl (fun _ _ h => by cases h) hi.fired ?_
    intro v hv
    have h := hi.runs v hv
    rw [hpc] at h
    simpa [PC.toRun, SharedTimer.goto] using h
  | @run t now p b p' hpc =>
    split <;> exact hi.quiet rfl rfl rfl rfl (Or.inl rfl) (by simp [SharedTimer.goto, setBase]) (Or.inl rfl)

variable [DecidableEq Cl] {c : Cl}

theorem Intervals.client (hi : Intervals s) (ho : Once ClientPC.pushes s) (hb : Booked s)
    (h : ClientStep heap c i s s') : Intervals s' := by
  cases h with
  | @setInterval t how now interval hpc =>
    have ht : t ∉ s.acceptedTasks := ho.fresh c t (by rw [hpc]; rfl)
    have hother : ∀ v, v ∈ s.acceptedTasks → Function.update s.interval t interval v = s.interval v := by
      intro v hv
      refine Function.update_of_ne ?_ _ _
      rintro rfl
      exact ht hv
    refine ⟨?_, ?_, ?_, ?_⟩
    · intro v hv
      show 0 < Function.update s.interval t interval v
      rw [hother v (hb.task v (PC.task_of_min? (PC.min?_of_again hv)))]
      exact hi.again v hv
    · intro v r hv
      show ¬ 0 < Function.update s.interval t interval v
      rw [hother v (hb.task v (by rw [show s.pc = _ from hv]; rfl))]
      exact hi.due v r hv
    · intro v hv
      show ¬ 0 < Function.update s.interval t interval v
      rw [hother v (hb.perm.mem_iff.mpr (by simp [show v ∈ s.record.fired from hv]))]
      exact hi.fired v hv
    · intro v hv
      by_cases hvt : v = t
      · have hruns : v ∉ s.record.runs ++ s.pc.toRun.toList := by
          rw [hvt, List.mem_append, Option.mem_toList]
          rintro (h | h)
          · exact ht (hb.runs t h)
          · exact ht (hb.task t (PC.task_of_toRun h))
        exact le_trans (List.count_eq_zero.mpr hruns).le (Nat.zero_le _)
      · have hv : ¬ 0 < Function.update s.interval t interval v := hv
        rw [Function.update_of_ne hvt] at hv
        exact hi.runs v hv
  | _ => exact ⟨hi.again, hi.due, hi.fired, hi.runs⟩

theorem Reachable.intervals {ok : SharedTimer Cl T → Action Cl T → Prop}
    (hok : ∀ s, (system Cl heap).Reachable ok s → Once ClientPC.pushes s) (h : (system Cl heap).Reachable ok s) :
    Intervals s := by
  refine h.induct (I := Intervals) ?_ ?_
  · exact ⟨by simp [system, new, PC.again], by simp [system, new], by simp [system, new], by
        simp [system, new, PC.toRun]⟩
  · intro s a s' hr _ hs hi
    cases step_cases hs with
    | @call c m => cases m <;> exact ⟨hi.again, hi.due, hi.fired, hi.runs⟩
    | client h => exact hi.client (hok s hr) (Reachable.booked hr) h
    | timer h => exact hi.timer (Reachable.ordered hok hr) h
    | wake w => cases w <;> exact ⟨hi.again, hi.due, hi.fired, hi.runs⟩

end Intervals

/-! ## What was asked to cancel -/

/-- A task is set to cancelled, and taken out of the queue as cancelled, only when it was asked to cancel. -/
structure Requests (s : SharedTimer Cl T) : Prop where
  cancelled : ∀ t, (s.base t).state = .cancelled → (s.base t).isRequestCancel = true
  running : ∀ t now, s.pc = .run t now .setCancelled → (s.base t).isRequestCancel = true
  client : ∀ c t, s.client c = .runTask t .setCancelled → (s.base t).isRequestCancel = true
  popped : ∀ t why, s.pc = .popMin t why → (∀ now, why ≠ .due now) → (s.base t).isRequestCancel = true
  removed : ∀ t ∈ s.record.removed, (s.base t).isRequestCancel = true

section Requests

/-- A step of `Run` sets the state to cancelled, or goes on to set it, only on a request. -/
theorem run_requested {b b' : TaskBase Cl} {p p' : TaskBase.RunPC} {e : Exit} (h : b.run p e = some (b', p'))
    (hb : b.state = .cancelled → b.isRequestCancel = true) (hp : p = .setCancelled → b.isRequestCancel = true) :
    (b'.state = .cancelled → b'.isRequestCancel = true) ∧ (p' = .setCancelled → b'.isRequestCancel = true) := by
  rw [TaskBase.run_isRequestCancel h]
  rcases TaskBase.run_cases h with ⟨-, rfl, rfl⟩ | ⟨-, rfl, rfl⟩ | ⟨rfl, -, -⟩ | ⟨-, rfl, rfl⟩ |
    ⟨rfl, ⟨-, rfl⟩ | ⟨-, rfl | ⟨rfl, hf⟩ | rfl⟩ | ⟨-, rfl | rfl⟩⟩
  · simp [TaskBase.setState]
  · simp [TaskBase.setState]
  · exact ⟨fun _ => hp rfl, fun _ => hp rfl⟩
  · exact ⟨hb, by simp⟩
  · refine ⟨hb, ?_⟩
    cases b'.isRequestCancel <;> simp
  · exact ⟨hb, by simp⟩
  · exact ⟨hb, fun _ => hf⟩
  · exact ⟨hb, by simp⟩
  · exact ⟨hb, by simp⟩
  · exact ⟨hb, by simp⟩

/-- Nothing is written and nothing taken out as cancelled. -/
theorem Requests.quiet (hi : Requests s) (hb : s'.base = s.base) (hr : s'.record.removed = s.record.removed)
    (hrun : ∀ t now, s'.pc = .run t now .setCancelled → (s.base t).isRequestCancel = true)
    (hpop : ∀ t why, s'.pc = .popMin t why → (∀ now, why ≠ .due now) → (s.base t).isRequestCancel = true)
    (hc : ∀ c t, s'.client c = .runTask t .setCancelled → (s.base t).isRequestCancel = true) : Requests s' := by
  constructor
  · rw [hb]; exact hi.cancelled
  · rw [hb]; exact hrun
  · rw [hb]; exact hc
  · rw [hb]; exact hpop
  · rw [hb, hr]; exact hi.removed

theorem Requests.move (hi : Requests s) {pc pc' : PC T} (hpc : s.pc = pc) (h : Move s pc pc') :
    Requests (s.goto pc') := by
  refine hi.quiet rfl rfl ?_ ?_ hi.client
  · intro t now ht
    cases h <;> cases ht
  · intro t why ht hw
    cases h with
    | isCancelled hc => cases ht; exact hi.cancelled t hc
    | requested hf => cases ht; exact hf
    | oneShot => cases ht; exact absurd rfl (hw _)
    | _ => cases ht

variable [DecidableEq T]

/-- A task is written, and its request is not taken back. -/
theorem Requests.set (hi : Requests s) {t : T} {b : TaskBase Cl}
    (hb : (s.base t).isRequestCancel = true → b.isRequestCancel = true)
    (hs : b.state = .cancelled → b.isRequestCancel = true) : Requests (s.setBase t b) := by
  have hother : ∀ v, (s.base v).isRequestCancel = true → ((s.setBase t b).base v).isRequestCancel = true := by
    intro v hv
    by_cases hvt : v = t
    · subst hvt; simpa [setBase] using hb hv
    · simpa [setBase, Function.update_of_ne hvt] using hv
  refine ⟨?_, fun v now hv => hother v (hi.running v now hv), fun c v hv => hother v (hi.client c v hv),
    fun v why hv hw => hother v (hi.popped v why hv hw), fun v hv => hother v (hi.removed v hv)⟩
  intro v hv
  by_cases hvt : v = t
  · subst hvt
    simp only [setBase, Function.update_self] at hv ⊢
    exact hs hv
  · simp only [setBase, Function.update_of_ne hvt] at hv ⊢
    exact hi.cancelled v hv

variable {i : Input}

theorem Requests.timer (hi : Requests s) (ho : Ordered s) (h : TimerStep heap i s s') : Requests s' := by
  cases h with
  | move hpc hm => exact hi.move hpc hm
  | setRunning | wait | readClock | setDeadline | again | timedWait | awake | start | notifyFinished =>
    exact hi.quiet rfl rfl (by simp [goto]) (by simp [goto]) hi.client
  | @popMin t why u rest hpc hq =>
    have hut : u = t := ho.head_eq (by rw [hpc]; rfl) hq
    cases why with
    | due => exact hi.quiet rfl rfl (by simp [goto]) (by simp [goto]) hi.client
    | cancelled | requested =>
      refine ⟨hi.cancelled, by simp [goto], hi.client, by simp [goto], ?_⟩
      intro v hv
      rcases List.mem_append.mp hv with hv | hv
      · exact hi.removed v hv
      · rw [List.mem_singleton.mp hv, hut]
        exact hi.popped t _ hpc (by simp)
  | @run t now p b p' hpc hr =>
    obtain ⟨hb, hp⟩ := run_requested hr (hi.cancelled t) fun hp => hi.running t now (by rw [hpc, hp])
    have hi' := hi.set (t := t) (fun hf => by rw [TaskBase.run_isRequestCancel hr]; exact hf) hb
    have hrun : ∀ v r, PC.run t now p' = .run v r .setCancelled → ((s.setBase t b).base v).isRequestCancel = true := by
      intro v r hv
      cases hv
      simpa [setBase] using hp rfl
    split
    · exact hi'.quiet rfl rfl hrun (by simp [goto]) hi'.client
    · exact hi'.quiet rfl rfl hrun (by simp [goto]) hi'.client

variable [DecidableEq Cl] {c : Cl}

omit [DecidableEq T] in
/-- `c` moves on. -/
theorem Requests.gotoClient (hi : Requests s) {pc : ClientPC T}
    (hpc : ∀ t, pc = .runTask t .setCancelled → (s.base t).isRequestCancel = true) : Requests (s.gotoClient c pc) := by
  refine hi.quiet rfl rfl hi.running hi.popped ?_
  intro d t hd
  by_cases hdc : d = c
  · exact hpc t (by simpa [SharedTimer.gotoClient, hdc] using hd)
  · exact hi.client d t (by simpa [SharedTimer.gotoClient, Function.update_of_ne hdc] using hd)

omit [DecidableEq T] in
/-- `c` moves on, to where it does not set a task to cancelled. -/
theorem Requests.update (hi : Requests s) {pc : ClientPC T} (hpc : ∀ t, pc ≠ .runTask t .setCancelled)
    (hc : s'.client = Function.update s.client c pc) (hb : s'.base = s.base) (hs : s'.pc = s.pc)
    (hr : s'.record.removed = s.record.removed) : Requests s' := by
  have hi' : Requests (s.gotoClient c pc) := hi.gotoClient fun t ht => absurd ht (hpc t)
  refine hi.quiet hb hr ?_ ?_ ?_
  · rw [hs]; exact hi.running
  · rw [hs]; exact hi.popped
  · rw [hc]; exact hi'.client

theorem Requests.clientStep (hi : Requests s) (h : ClientStep heap c i s s') : Requests s' := by
  cases h with
  | silent hpc hs => exact hi.update (by cases hs <;> simp) rfl rfl rfl rfl
  | runTask hpc hr =>
    obtain ⟨hb, hp⟩ := run_requested hr (hi.cancelled _) fun hp => hi.client c _ (by rw [hpc, hp])
    refine (hi.set (fun hf => by rw [TaskBase.run_isRequestCancel hr]; exact hf) hb).gotoClient ?_
    intro v hv
    cases hv
    simpa [setBase] using hp rfl
  | cancelTask hpc hr =>
    obtain ⟨hstate, hflag⟩ := TaskBase.cancel_keeps hr
    refine (hi.set hflag fun hs => ?_).gotoClient (by simp)
    rw [hstate] at hs
    exact hflag (hi.cancelled _ hs)
  | setDeadline _ hhow =>
    refine hi.update ?_ rfl rfl rfl rfl
    rcases hhow with ⟨rfl, -⟩ | ⟨_, _, -, rfl⟩ <;> simp
  | cancelAsync hpc =>
    refine hi.update ?_ rfl rfl rfl rfl
    rcases hpc with ⟨-, rfl⟩ | ⟨_, -, rfl⟩ <;> simp
  | @clear stop => exact hi.update (by cases stop <;> simp) rfl rfl rfl rfl
  | readClock | refuse | setInterval | pushTask | stopped | block => exact hi.update (by simp) rfl rfl rfl rfl

theorem Reachable.requests {ok : SharedTimer Cl T → Action Cl T → Prop}
    (hok : ∀ s, (system Cl heap).Reachable ok s → Once ClientPC.pushes s) (h : (system Cl heap).Reachable ok s) :
    Requests s := by
  refine h.induct (I := Requests) ?_ ?_
  · exact ⟨by simp [system, new, TaskBase.new], by simp [system, new], by simp [system, new], by simp [system, new],
      by simp [system, new]⟩
  · intro s a s' hr _ hs hi
    cases step_cases hs with
    | @call c m => cases m <;> exact hi.update (by simp [Method.start]) rfl rfl rfl rfl
    | client h => exact hi.clientStep h
    | timer h => exact hi.timer (Reachable.ordered hok hr) h
    | wake w =>
      cases w with
      | timer | thread => exact hi.quiet rfl rfl hi.running hi.popped hi.client
      | task t c => exact hi.set id (hi.cancelled t)

end Requests

/-! ## Order and conservation -/

section Conserved

variable [DecidableEq T]

/-- The queue is a heap for the current deadlines whenever the timer thread does not stand between the write of the
deadline of the top and its pop, holds each task once, and what the timer thread takes is a task with a smallest
deadline; a task without interval is run once, one with an interval leaves the queue as cancelled or cleared only; and
every accepted task is, once, in the queue or among the tasks fired for good, removed as cancelled, and cleared. -/
structure Conserved (s : SharedTimer Cl T) : Prop where
  heap : s.pc.rearmed = false → IsHeap s.key s.queue
  nodup : s.queue.Nodup
  min : ∀ t, s.pc.min? = some t → s.pc.rearmed = false → t ∈ s.queue ∧ ∀ u ∈ s.queue, s.deadline t ≤ s.deadline u
  oneShot : ∀ t, s.interval t = 0 → s.record.runs.count t ≤ 1
  interval : ∀ t ∈ s.acceptedTasks, 0 < s.interval t → t ∈ s.queue ∨ t ∈ s.record.removed ∨ t ∈ s.record.cleared
  fired : ∀ t ∈ s.record.fired, s.interval t = 0
  removed : ∀ t ∈ s.record.removed, (s.base t).isRequestCancel = true
  accepted : s.acceptedTasks.Nodup
  perm : s.acceptedTasks.Perm (s.queue ++ s.record.fired ++ s.record.removed ++ s.record.cleared)

variable [DecidableEq Cl]

/-- **The queue keeps its order and its tasks**, when each task is passed to one submission at most. -/
theorem queue_conserved (h : (system Cl heap).Reachable Single s) : Conserved s := by
  have hok : ∀ s, (system Cl heap).Reachable Single s → Once ClientPC.pushes s :=
    fun s h => (Reachable.submitted h).once.pushes
  have ho := hok s h
  have hb := Reachable.booked h
  have hord := Reachable.ordered hok h
  have hi := Reachable.intervals hok h
  have hfired : ∀ t ∈ s.record.fired, s.interval t = 0 := fun t ht => by simpa using hi.fired t ht
  refine ⟨hord.heap, ho.queue_nodup hb, ?_, ?_, ?_, hfired, (Reachable.requests hok h).removed, ho.nodup, hb.perm⟩
  · intro t ht hr
    exact ⟨List.mem_of_mem_head? (hord.head t ht), fun u hu => hord.min hr ht hu⟩
  · intro t ht
    have hruns := hi.runs t (by simp [ht])
    have hcount := hb.perm.count_eq t
    have hone := List.nodup_iff_count_le_one.mp ho.nodup t
    simp only [List.count_append] at hruns hcount
    omega
  · intro t ht hint
    have hmem := hb.perm.mem_iff.mp ht
    simp only [List.mem_append] at hmem
    rcases hmem with ((h | h) | h) | h
    · exact Or.inl h
    · exact absurd (hfired t h) (UInt64.pos_iff_ne_zero.mp hint)
    · exact Or.inr (Or.inl h)
    · exact Or.inr (Or.inr h)

/-- A task that is run once and one with an interval, when both are due. -/
theorem queue_conserved_run : ∃ s : SharedTimer Unit Bool, s.record.runs = [true, false] ∧ s.record.fired = [true] ∧
    s.queue = [false] ∧ Conserved s := by
  obtain ⟨s, hs, hp⟩ := System.reachable_of_exec (system Unit (binaryHeap Bool Nat)) Single
    ([.call () (.submit false (.every 7 false))] ++ List.replicate 6 (.client () ⟨.ret, 10⟩) ++
      [.call () (.submit true (.later 5))] ++ List.replicate 5 (.client () ⟨.ret, 10⟩) ++
      List.replicate 35 (.timer ⟨.ret, 20⟩))
    (fun s => s.record.runs == [true, false] && (s.record.fired == [true] && s.queue == [false])) (by decide)
  simp only [Bool.and_eq_true, beq_iff_eq] at hp
  exact ⟨s, hp.1, hp.2.1, hp.2.2, queue_conserved hs⟩

end Conserved

end SharedTimer

end Tpool
