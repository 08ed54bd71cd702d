import Tpool.Concurrency.Observe
import Tpool.Thread.TimerEarly

/-!
# An interval task does not starve the others

- `Event`, `events`: what is taken from the top of the queue, and when the queue is cleared.
- `Rearmed`: a task that the timer thread puts back gets a deadline after what the clock has shown.
- `Behind`: a task is queued with a deadline before that of another one. No step changes this but a take of the first or
  a clear (`Behind.step`), and the second is not taken.
- `no_starvation`: from a fire on, the fired task is taken again only after the others that were due then.
-/

namespace Tpool

open Concurrency Structures

namespace SharedTimer

variable {Cl T : Type*} {heap : PriorityQueue T Nat} {s s' : SharedTimer Cl T}

/-- What happens to the queue, but for the pushes of the clients: `t` is popped, to be put back or not, or all of it is
cleared. -/
inductive Event (T : Type*)
  | took (t : T)
  | cleared
  deriving DecidableEq

/-- The events of a step. -/
def events (s : SharedTimer Cl T) : Action Cl T → List (Event T)
  | .timer _ => match s.pc with
    | .popMinAndPush _ _ | .popMin _ _ => (s.queue.head?.map Event.took).toList
    | _ => []
  | .client c _ => match s.client c with
    | .clear _ => [.cleared]
    | _ => []
  | _ => []

/-- Each task is passed to one submission at most, and no sum of the clock and an interval wraps when a task is put
back. -/
def Periodic (s : SharedTimer Cl T) (a : Action Cl T) : Prop :=
  Single s a ∧ match a with
    | .timer _ => s.pc.Fits
    | _ => True

instance [DecidableEq T] (s : SharedTimer Cl T) (a : Action Cl T) : Decidable (Periodic s a) := match a with
  | .timer i => inferInstanceAs (Decidable (Single s (.timer i) ∧ s.pc.Fits))
  | .client c i => inferInstanceAs (Decidable (Single s (.client c i) ∧ True))
  | .call c m => inferInstanceAs (Decidable (Single s (.call c m) ∧ True))
  | .wake w => inferInstanceAs (Decidable (Single s (.wake w) ∧ True))

/-- The runs, with the events since some state. -/
def recorded (Cl : Type*) {T : Type*} [DecidableEq Cl] [DecidableEq T] (heap : PriorityQueue T Nat) :
    System (SharedTimer Cl T × List (Event T)) (Action Cl T) :=
  (system Cl heap).observe [] fun s a log => log ++ events s a

/-! ## The deadline of a task that is put back -/

/-- The timer thread puts a task back with a deadline after what the clock has shown, or does not put it back. -/
def PC.Rearmed (s : SharedTimer Cl T) : PC T → Prop
  | .setDeadline _ _ interval => 0 < interval
  | .popMinAndPush t now => now < s.deadline t
  | .unlock (some (t, now)) => t ∈ s.queue → now < s.deadline t
  | _ => True

section Rearmed

/-- The task of the timer thread is left as it was. -/
theorem PC.Rearmed.same {pc : PC T} (hi : pc.Rearmed s) (hd : ∀ t, pc.task = some t → s'.deadline t = s.deadline t)
    (hq : ∀ t, pc.locked = true → t ∈ s'.queue → t ∈ s.queue) : pc.Rearmed s' := by
  cases pc with
  | setDeadline => exact hi
  | popMinAndPush t now =>
    show now < s'.deadline t
    rw [hd t rfl]
    exact hi
  | unlock fired =>
    cases fired with
    | none => trivial
    | some x =>
      intro hx
      show x.2 < s'.deadline x.1
      rw [hd x.1 rfl]
      exact hi (hq x.1 rfl hx)
  | _ => trivial

/-- A sum with an interval that does not wrap. -/
theorem lt_add_interval {now interval : TimeValue} (hpos : 0 < interval)
    (hfit : now.toNat + interval.toNat < UInt64.size) : now < now + interval := by
  have hsum : (now + interval).toNat = now.toNat + interval.toNat := by
    rw [UInt64.toNat_add]
    exact Nat.mod_eq_of_lt hfit
  have hpos : 0 < interval.toNat := UInt64.lt_iff_toNat_lt.mp hpos
  refine UInt64.lt_iff_toNat_lt.mpr ?_
  omega

variable [DecidableEq T] {i : Input}

theorem Rearmed.timer (hi : s.pc.Rearmed s) (hfit : s.pc.Fits) (ho : Ordered s) (hn : s.queue.Nodup)
    (hint : Intervals s)
    (h : TimerStep heap i s s') : s'.pc.Rearmed s' := by
  cases h with
  | move hpc hm =>
    cases hm with
    | getInterval => exact hint.again _ (by rw [hpc]; rfl)
    | _ => trivial
  | @setDeadline t now interval hpc =>
    have hfit := hfit (now, interval) (by rw [hpc]; rfl)
    rw [hpc] at hi
    show now < Function.update s.deadline t (now + interval) t
    rw [Function.update_self]
    exact lt_add_interval hi hfit
  | again hpc =>
    rw [hpc] at hi
    exact fun _ => hi
  | @popMin t why u rest hpc hq =>
    have hut : u = t := ho.head_eq (by rw [hpc]; rfl) hq
    -- the task has left the queue
    have hleft : t ∉ heap.pop s.key s.queue := by
      intro ht
      have ht := (heap.pop_perm s.key s.queue).mem_iff.mp ht
      rw [hq, ← hut] at ht
      rw [hq] at hn
      exact (List.nodup_cons.mp hn).1 ht
    cases why with
    | cancelled => trivial
    | requested | due => exact fun ht => absurd ht hleft
  | _ => trivial

variable [DecidableEq Cl] {c : Cl}

theorem Rearmed.client (hi : s.pc.Rearmed s) (ho : Once ClientPC.pushes s) (hb : Booked s)
    (h : ClientStep heap c i s s') : s'.pc.Rearmed s' := by
  cases h with
  | @setDeadline t how now pc' hpc =>
    refine hi.same (fun v hv => Function.update_of_ne ?_ _ _) fun _ _ hq => hq
    exact ho.ne_task hb (by rw [hpc]; rfl) hv
  | pushTask hpc hl | clear hpc hl =>
    refine hi.same (fun _ _ => rfl) fun _ hl' => ?_
    rw [hl] at hl'
    cases hl'
  | _ => exact hi.same (fun _ _ => rfl) fun _ _ hq => hq

theorem Reachable.single (h : (system Cl heap).Reachable Periodic s) : (system Cl heap).Reachable Single s :=
  h.mono fun _ _ hok => hok.1

theorem Reachable.once (h : (system Cl heap).Reachable Periodic s) : Once ClientPC.pushes s :=
  (Reachable.submitted (Reachable.single h)).once.pushes

theorem Reachable.rearmed (h : (system Cl heap).Reachable Periodic s) : s.pc.Rearmed s := by
  refine h.induct (I := fun s => s.pc.Rearmed s) trivial ?_
  intro s a s' hr hok hs hi
  have ho := Reachable.once hr
  have hb := Reachable.booked hr
  cases step_cases hs with
  | @call c m => cases m <;> exact hi.same (fun _ _ => rfl) fun _ _ hq => hq
  | client h => exact Rearmed.client hi ho hb h
  | timer h =>
    exact Rearmed.timer hi hok.2 (Reachable.ordered (fun _ => Reachable.once) hr) (ho.queue_nodup hb)
      (Reachable.intervals (fun _ => Reachable.once) hr) h
  | wake w => cases w <;> exact hi.same (fun _ _ => rfl) fun _ _ hq => hq

end Rearmed

/-! ## Which of two tasks is taken first -/

section Behind

variable {A B : T} {n : TimeValue}

/-- What is taken is what the timer thread has found on top. -/
theorem Ordered.took (ho : Ordered s) {a : Action Cl T} {t : T} (h : .took t ∈ events s a) : s.pc.min? = some t := by
  have hpop : .took t ∈ (s.queue.head?.map Event.took).toList → s.queue.head? = some t := by
    intro h
    simpa using h
  cases a with
  | timer i =>
    cases hpc : s.pc with
    | popMinAndPush u now | popMin u why =>
      have hhead := hpop (by simpa only [events, hpc] using h)
      rw [ho.head u (by rw [hpc]; rfl)] at hhead
      exact hhead
    | _ => simp [events, hpc] at h
  | client c i =>
    cases hpc : s.client c with
    | _ => simp [events, hpc] at h
  | call | wake => cases h

/-- `B` is queued with a deadline up to `n`, or is being put back; `A` is not queued, or with a deadline after `n`. The
timer thread has not taken `A`. -/
structure Behind (A B : T) (n : TimeValue) (s : SharedTimer Cl T) : Prop where
  queued : B ∈ s.queue
  due : s.deadline B ≤ n ∨ ∃ now, s.pc = .popMinAndPush B now
  later : A ∈ s.queue → n < s.deadline A
  accepted : A ∈ s.acceptedTasks
  notTaken : s.pc.min? ≠ some A

/-- The two tasks are left as they were. -/
theorem Behind.same (hi : Behind A B n s) (hqB : B ∈ s'.queue) (hqA : A ∈ s'.queue → A ∈ s.queue)
    (hdB : s'.deadline B = s.deadline B) (hdA : A ∈ s.queue → s'.deadline A = s.deadline A)
    (ha : A ∈ s'.acceptedTasks) (hm : s'.pc.min? ≠ some A) (hpc : s'.pc = s.pc ∨ ∀ now, s.pc ≠ .popMinAndPush B now) :
    Behind A B n s' := by
  refine ⟨hqB, ?_, ?_, ha, hm⟩
  · rw [hdB]
    refine hi.due.imp_right ?_
    rintro ⟨now, hnow⟩
    rcases hpc with hpc | hpc
    · exact ⟨now, hpc.trans hnow⟩
    · exact absurd hnow (hpc now)
  · intro hA
    rw [hdA (hqA hA)]
    exact hi.later (hqA hA)

/-- The queue and the deadlines are left as they were. -/
theorem Behind.quiet (hi : Behind A B n s) (hq : s'.queue = s.queue) (hd : s'.deadline = s.deadline)
    (ha : s'.record.accepted = s.record.accepted) (hm : s'.pc.min? ≠ some A)
    (hpc : s'.pc = s.pc ∨ ∀ now, s.pc ≠ .popMinAndPush B now) : Behind A B n s' := by
  have hacc : s'.acceptedTasks = s.acceptedTasks := congrArg (List.map Prod.fst) ha
  refine hi.same ?_ ?_ (congrFun hd B) (fun _ => congrFun hd A) ?_ hm hpc
  · rw [hq]; exact hi.queued
  · rw [hq]; exact id
  · rw [hacc]; exact hi.accepted

/-- While `B` is queued with a smaller deadline, `A` is not on top. -/
theorem Behind.head_ne (hi : Behind A B n s) (ho : Ordered s) (hr : s.pc.rearmed = false) : s.queue.head? ≠ some A := by
  intro hhead
  have hle : (s.deadline A).toNat ≤ (s.deadline B).toNat := (ho.heap hr).head_le hhead hi.queued
  have hlt : n.toNat < (s.deadline A).toNat := UInt64.lt_iff_toNat_lt.mp (hi.later (List.mem_of_mem_head? hhead))
  rcases hi.due with hdue | ⟨now, hpc⟩
  · have hdue : (s.deadline B).toNat ≤ n.toNat := UInt64.le_iff_toNat_le.mp hdue
    omega
  · rw [hpc] at hr
    cases hr

theorem Behind.move (hi : Behind A B n s) (ho : Ordered s) {pc pc' : PC T} (hpc : s.pc = pc) (h : Move s pc pc') :
    Behind A B n (s.goto pc') := by
  have hpop : ∀ now, s.pc ≠ .popMinAndPush B now := by
    intro now hnow
    rw [hpc] at hnow
    cases h with
    | exit hex => rcases hex with rfl | rfl <;> cases hnow
    | _ => cases hnow
  refine hi.quiet rfl rfl rfl ?_ (Or.inr hpop)
  have hmin := hi.notTaken
  rw [hpc] at hmin
  cases h with
  | @getMin t hq =>
    have hne := hi.head_ne ho (by rw [hpc]; rfl)
    rw [hq] at hne
    exact hne
  | getDeadline | isCancelled | notCancelled | requested | notRequested | due | interval | oneShot | getInterval =>
    exact hmin
  | _ => exact nofun

/-- The pop of another task. -/
theorem Behind.pop (hi : Behind A B n s) (ho : Ordered s) (heap : PriorityQueue T Nat) {t u : T} {rest : List T}
    (hm : s.pc.min? = some t) (hq : s.queue = u :: rest) (hne : t ≠ B) :
    B ∈ heap.pop s.key s.queue ∧ (A ∈ heap.pop s.key s.queue → A ∈ s.queue) := by
  have hut : u = t := ho.head_eq hm hq
  have hperm := heap.pop_perm s.key s.queue
  have hB := hi.queued
  rw [hq] at hB
  refine ⟨hperm.mem_iff.mpr ?_, fun hA => List.mem_of_mem_tail (hperm.mem_iff.mp hA)⟩
  rw [hq, List.tail_cons]
  rcases List.mem_cons.mp hB with hB | hB
  · exact absurd (hB.trans hut).symm hne
  · exact hB

variable [DecidableEq T] {i : Input}

/-- The timer thread takes `B`, or leaves the two tasks as they are. -/
theorem Behind.timer (hi : Behind A B n s) (ho : Ordered s) (h : TimerStep heap i s s') :
    .took B ∈ events s (.timer i) ∨ Behind A B n s' := by
  have htook : s.queue.head? = some B → (∃ now, s.pc = .popMinAndPush B now) ∨ (∃ why, s.pc = .popMin B why) →
      .took B ∈ events s (.timer i) := by
    rintro hhead (⟨now, hpc⟩ | ⟨why, hpc⟩) <;> simp [events, hpc, hhead]
  cases h with
  | move hpc hm => exact Or.inr (hi.move ho hpc hm)
  | readClock hpc =>
    have hmin := hi.notTaken
    rw [hpc] at hmin
    exact Or.inr (hi.quiet rfl rfl rfl hmin (Or.inr (by simp [hpc])))
  | @setDeadline t now interval hpc =>
    have hmin := hi.notTaken
    rw [hpc] at hmin
    have hA : t ≠ A := fun h => hmin (congrArg some h)
    right
    by_cases htB : t = B
    · -- `B` gets a new deadline, and is popped by the next step of the timer thread
      refine ⟨hi.queued, Or.inr ⟨now, by rw [← htB]; rfl⟩, ?_, hi.accepted, hmin⟩
      intro hA'
      show n < Function.update s.deadline t (now + interval) A
      rw [Function.update_of_ne hA.symm]
      exact hi.later hA'
    · exact hi.same hi.queued id (Function.update_of_ne (Ne.symm htB) _ _) (fun _ => Function.update_of_ne hA.symm _ _)
        hi.accepted hmin (Or.inr (by simp [hpc]))
  | @again t now u rest hpc hq =>
    by_cases htB : t = B
    · rw [htB] at hpc
      exact Or.inl (htook (ho.head B (by rw [hpc]; rfl)) (Or.inl ⟨now, hpc⟩))
    · obtain ⟨hB, hA⟩ := hi.pop ho heap (by rw [hpc]; rfl) hq htB
      have hperm := heap.push_perm s.key (heap.pop s.key s.queue) u
      refine Or.inr (hi.same (hperm.mem_iff.mpr (List.mem_cons_of_mem u hB)) ?_ rfl (fun _ => rfl) hi.accepted nofun ?_)
      · intro hA'
        rcases List.mem_cons.mp (hperm.mem_iff.mp hA') with rfl | hA'
        · rw [hq]
          exact List.mem_cons_self
        · exact hA hA'
      · refine Or.inr fun now' hnow => htB ?_
        rw [hpc] at hnow
        cases hnow
        rfl
  | @popMin t why u rest hpc hq =>
    by_cases htB : t = B
    · rw [htB] at hpc
      exact Or.inl (htook (ho.head B (by rw [hpc]; rfl)) (Or.inr ⟨why, hpc⟩))
    · obtain ⟨hB, hA⟩ := hi.pop ho heap (by rw [hpc]; rfl) hq htB
      have hnot : ∀ now, s.pc ≠ .popMinAndPush B now := by simp [hpc]
      cases why <;> exact Or.inr (hi.same hB hA rfl (fun _ => rfl) hi.accepted nofun (Or.inr hnot))
  | run hpc =>
    right
    split <;> exact hi.quiet rfl rfl rfl nofun (Or.inr (by simp [hpc]))
  | setRunning hpc | wait hpc | timedWait hpc | awake hpc | start hpc | notifyFinished hpc =>
    exact Or.inr (hi.quiet rfl rfl rfl nofun (Or.inr (by simp [hpc])))

variable [DecidableEq Cl] {c : Cl}

/-- A client clears the queue, or leaves the two tasks as they are. -/
theorem Behind.client (hi : Behind A B n s) (ho : Once ClientPC.pushes s) (hb : Booked s)
    (h : ClientStep heap c i s s') : .cleared ∈ events s (.client c i) ∨ Behind A B n s' := by
  cases h with
  | @setDeadline t how now pc' hpc =>
    have hne : ∀ v ∈ s.queue, v ≠ t := by
      rintro v hv rfl
      exact ho.not_queued hb (by rw [hpc]; rfl) hv
    exact Or.inr (hi.same hi.queued id (Function.update_of_ne (hne B hi.queued) _ _)
      (fun hA => Function.update_of_ne (hne A hA) _ _) hi.accepted hi.notTaken (Or.inl rfl))
  | @pushTask t how now hpc hl =>
    have hperm := heap.push_perm s.key s.queue t
    refine Or.inr (hi.same (hperm.mem_iff.mpr (List.mem_cons_of_mem t hi.queued)) ?_ rfl (fun _ => rfl) ?_ hi.notTaken
      (Or.inl rfl))
    · intro hA
      rcases List.mem_cons.mp (hperm.mem_iff.mp hA) with rfl | hA
      · exact absurd hi.accepted (ho.fresh c A (by rw [hpc]; rfl))
      · exact hA
    · have hacc := hi.accepted
      unfold acceptedTasks at hacc ⊢
      rw [List.map_append]
      exact List.mem_append_left _ hacc
  | clear hpc => exact Or.inl (by simp [events, hpc])
  | _ => exact Or.inr (hi.quiet rfl rfl rfl hi.notTaken (Or.inl rfl))

/-- **What a step does to two tasks**: `B` is taken, or the queue is cleared, or `B` stays before `A`. -/
theorem Behind.step (hi : Behind A B n s) (hr : (system Cl heap).Reachable Periodic s) {a : Action Cl T}
    (h : (system Cl heap).step s a = some s') :
    .took B ∈ events s a ∨ .cleared ∈ events s a ∨ Behind A B n s' := by
  have ho := Reachable.once hr
  have hb := Reachable.booked hr
  cases step_cases h with
  | @call c m =>
    refine Or.inr (Or.inr ?_)
    cases m <;> exact hi.quiet rfl rfl rfl hi.notTaken (Or.inl rfl)
  | client h => exact Or.inr (hi.client ho hb h)
  | timer h => exact (hi.timer (Reachable.ordered (fun _ => Reachable.once) hr) h).imp_right Or.inr
  | wake w =>
    refine Or.inr (Or.inr ?_)
    cases w <;> exact hi.quiet rfl rfl rfl hi.notTaken (Or.inl rfl)

/-- The timer thread has just taken `A` to run it. -/
theorem Behind.of_fired (hr : (system Cl heap).Reachable Periodic s) (hpc : s.pc = .unlock (some (A, n)))
    (hq : B ∈ s.queue) (hd : s.deadline B ≤ n) : Behind A B n s := by
  have hrearmed := Reachable.rearmed hr
  rw [hpc] at hrearmed
  exact ⟨hq, Or.inl hd, hrearmed, (Reachable.booked hr).task A (by rw [hpc]; rfl), by rw [hpc]; exact nofun⟩

end Behind

/-! ## No starvation -/

section Starvation

variable [DecidableEq Cl] [DecidableEq T] {A B : T} {n : TimeValue} {log : List (Event T)}

/-- `B` is taken, or all of the queue is cleared. -/
def Event.Frees (B : T) (e : Event T) : Prop := e = .took B ∨ e = .cleared

/-- **An interval task does not starve due tasks.** When the timer thread has just taken `A` to run it at a reading `n`
of the clock, and another task `B` is queued with a deadline up to `n`, then whatever happens afterwards, before `A` is
taken again `B` is taken or the queue is cleared; and until then `A` is not found on top. -/
theorem no_starvation (h : (system Cl heap).Reachable Periodic s) (hA : s.pc = .unlock (some (A, n))) (hB : B ∈ s.queue)
    (hd : s.deadline B ≤ n) (hs : (recorded Cl heap).Reaches (fun s => Periodic s.1) (s, []) (s', log)) :
    Precedes (Event.Frees B) (.took A) log ∧ ((∃ e ∈ log, Event.Frees B e) ∨ s'.pc.min? ≠ some A) := by
  have hkeep : (system Cl heap).Reachable Periodic s' ∧ Precedes (Event.Frees B) (.took A) log ∧
      ((∃ e ∈ log, Event.Frees B e) ∨ Behind A B n s') := by
    refine hs.keeps (I := fun x => (system Cl heap).Reachable Periodic x.1 ∧ Precedes (Event.Frees B) (.took A) x.2 ∧
      ((∃ e ∈ x.2, Event.Frees B e) ∨ Behind A B n x.1)) ?_ ⟨h, .nil, Or.inr (.of_fired h hA hB hd)⟩
    rintro ⟨u, l⟩ a ⟨u', l'⟩ hok hst ⟨hr, hp, hbehind⟩
    obtain ⟨hst, rfl⟩ := System.observe_step hst
    refine ⟨hr.step hok hst, hp.append (hbehind.imp_right ?_), ?_⟩
    · intro hi htook
      exact hi.notTaken ((Reachable.ordered (fun _ => Reachable.once) hr).took htook)
    · rcases hbehind with ⟨e, he, hfrees⟩ | hi
      · exact Or.inl ⟨e, List.mem_append_left _ he, hfrees⟩
      · rcases hi.step hr hst with he | he | hi
        · exact Or.inl ⟨_, List.mem_append_right _ he, Or.inl rfl⟩
        · exact Or.inl ⟨_, List.mem_append_right _ he, Or.inr rfl⟩
        · exact Or.inr hi
  exact ⟨hkeep.2.1, hkeep.2.2.imp_right fun hi => hi.notTaken⟩

/-- A task with an interval of one millisecond, fired at 20, and one with the deadline 15; the clock goes back to 18. -/
theorem no_starvation_run : ∃ (s : SharedTimer Unit Bool) (log : List (Event Bool)),
    s.pc = .unlock (some (true, 20)) ∧ false ∈ s.queue ∧ s.deadline false ≤ 20 ∧ log = [.took false, .took true] ∧
      Precedes (Event.Frees false) (.took true) log := by
  obtain ⟨s, hs, hp⟩ := System.reachable_of_exec (system Unit (binaryHeap Bool Nat)) Periodic
    ([.call () (.submit true (.every 1 true))] ++ List.replicate 6 (.client () ⟨.ret, 10⟩) ++
      [.call () (.submit false (.later 5))] ++ List.replicate 5 (.client () ⟨.ret, 10⟩) ++
      List.replicate 15 (.timer ⟨.ret, 20⟩))
    (fun s => decide (s.pc = .unlock (some (true, 20)) ∧ false ∈ s.queue ∧ s.deadline false ≤ 20) &&
      ((recorded Unit (binaryHeap Bool Nat)).exec (fun s => Periodic s.1) (s, [])
        (List.replicate 20 (.timer ⟨.ret, 18⟩) ++ List.replicate 20 (.timer ⟨.ret, 30⟩))).any
        fun x => x.2 == [.took false, .took true]) (by decide)
  simp only [Bool.and_eq_true, decide_eq_true_eq, Option.any_eq_true, beq_iff_eq] at hp
  obtain ⟨⟨hpc, hq, hd⟩, ⟨s', log⟩, hrun, rfl⟩ := hp
  exact ⟨s, _, hpc, hq, hd, rfl, (no_starvation hs hpc hq hd (System.reaches_of_exec hrun)).1⟩

end Starvation

end SharedTimer

end Tpool
