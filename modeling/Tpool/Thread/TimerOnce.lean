import Mathlib.Data.Fintype.Basic
import Tpool.Thread.TimerQueue

/-!
# Putting a task in a timer once

A submission finds the deadline `0` and writes its own in two steps, and `0` may be what a submission has written.

- `Exclusive`: no submission finds `0` while another one with the task stands before the write of the deadline, and
  nobody writes `0`.
- `Marked`: then the task of whoever is past the checks is in the timer by no other call, and the deadline tells so.
- `put_once`: a task is accepted once, is queued once, and no submission writes the deadline of a queued task.
  `put_twice`: two submissions that race are both accepted.
-/

namespace Tpool

open Concurrency Structures

namespace SharedTimer

variable {Cl T : Type*} {heap : PriorityQueue T Nat} {s s' : SharedTimer Cl T}

/-- The task whose deadline a submission is about to write. -/
def ClientPC.writes : ClientPC T → Option T
  | .setDeadline t _ _ => some t
  | _ => none

theorem ClientPC.pushes_of_writes {pc : ClientPC T} {t : T} (h : pc.writes = some t) : pc.pushes = some t := by
  cases pc <;> first | exact h | cases h

theorem ClientPC.writes_of_pushes {pc : ClientPC T} {t : T} (h : pc.pushes = some t) :
    pc.writes = some t ∨ pc.writes = none := by
  cases pc <;> first | exact Or.inl h | exact Or.inr rfl

/-! ## Submissions that do not race -/

/-- A submission finds the deadline `0` of a task only when no other one is about to write it, and none writes `0`. -/
def ClientPC.Exclusive (s : SharedTimer Cl T) : ClientPC T → Prop
  | .getDeadline t _ _ => s.deadline t = 0 → ∀ c, (s.client c).writes ≠ some t
  | .setDeadline _ how now => how.deadline now ≠ 0
  | _ => True

/-- What the timer thread is about to add up and write as a deadline. -/
def PC.rearms : PC T → Option (TimeValue × TimeValue)
  | .setDeadline _ now interval => some (now, interval)
  | _ => none

/-- The timer thread does not write the deadline `0`. -/
def PC.Exclusive (pc : PC T) : Prop := ∀ x ∈ pc.rearms, x.1 + x.2 ≠ 0

def Exclusive (s : SharedTimer Cl T) : Action Cl T → Prop
  | .client c _ => (s.client c).Exclusive s
  | .timer _ => s.pc.Exclusive
  | _ => True

instance [Fintype Cl] [DecidableEq T] (s : SharedTimer Cl T) (pc : ClientPC T) : Decidable (pc.Exclusive s) :=
  match pc with
  | .getDeadline t _ _ => inferInstanceAs (Decidable (s.deadline t = 0 → ∀ c, (s.client c).writes ≠ some t))
  | .setDeadline _ how now => inferInstanceAs (Decidable (how.deadline now ≠ 0))
  | .idle | .getCurrentTime _ _ | .isRequestCancel _ _ _ | .setInterval _ _ _ _ | .pushTask _ _ _ | .cancelAsync _
  | .clear _ | .cancelThread | .waitThread | .blockedThread | .runTask _ _ | .cancelTask _ _ _ => isTrue trivial

-- the pairs of words are a `Fintype`: the instance for options is named
instance (pc : PC T) : Decidable pc.Exclusive :=
  Option.decidableForallMem (p := fun x : TimeValue × TimeValue => x.1 + x.2 ≠ 0) pc.rearms

instance [Fintype Cl] [DecidableEq T] (s : SharedTimer Cl T) (a : Action Cl T) : Decidable (Exclusive s a) :=
  match a with
  | .client c _ => inferInstanceAs (Decidable ((s.client c).Exclusive s))
  | .timer _ => inferInstanceAs (Decidable s.pc.Exclusive)
  | .call _ _ | .wake _ => isTrue trivial

/-- The deadline is `0` until it is written, and is not afterwards; one submission with a task is past the checks. -/
structure Marked (s : SharedTimer Cl T) : Prop where
  once : Once ClientPC.pushes s
  unwritten : ∀ c t, (s.client c).writes = some t → s.deadline t = 0
  written : ∀ c t, (s.client c).pushes = some t → (s.client c).writes = none → s.deadline t ≠ 0
  accepted : ∀ t ∈ s.acceptedTasks, s.deadline t ≠ 0

section Marked

/-- The timer thread writes the deadline of a task in the timer. -/
theorem Marked.rearm [DecidableEq T] (hi : Marked s) {t : T} {d : TimeValue} (ht : t ∈ s.acceptedTasks) (hd : d ≠ 0)
    (hc : s'.client = s.client) (ha : s'.record.accepted = s.record.accepted)
    (hdl : s'.deadline = Function.update s.deadline t d) : Marked s' := by
  have hne : ∀ c u, (s.client c).pushes = some u → u ≠ t := by
    rintro c u hu rfl
    exact hi.once.fresh c u hu ht
  refine ⟨hi.once.frame hc ha, ?_, ?_, ?_⟩
  · intro c u hu
    rw [hc] at hu
    rw [hdl, Function.update_of_ne (hne c u (ClientPC.pushes_of_writes hu))]
    exact hi.unwritten c u hu
  · intro c u hu hw
    rw [hc] at hu hw
    rw [hdl, Function.update_of_ne (hne c u hu)]
    exact hi.written c u hu hw
  · intro u hu
    rw [hdl]
    by_cases hut : u = t
    · rw [hut, Function.update_self]; exact hd
    · rw [Function.update_of_ne hut]
      refine hi.accepted u ?_
      unfold acceptedTasks at hu ⊢
      rwa [ha] at hu

variable [DecidableEq Cl] {c : Cl} {i : Input}

/-- A step of `c` that leaves the deadlines and has nothing accepted. -/
theorem Marked.move (hi : Marked s) {pc : ClientPC T}
    (hpc : pc.pushes = none ∨ pc.pushes = (s.client c).pushes ∧ (s.client c).writes = none)
    (hw : pc.writes = none) (hc : s'.client = Function.update s.client c pc)
    (ha : s'.record.accepted = s.record.accepted) (hdl : s'.deadline = s.deadline) : Marked s' := by
  have hacc : s'.acceptedTasks = s.acceptedTasks := congrArg (List.map Prod.fst) ha
  refine ⟨hi.once.move (hi.once.enters (hpc.imp id And.left)) hc ha, ?_, ?_, by rw [hacc, hdl]; exact hi.accepted⟩
  · intro d t hd
    rw [hdl]
    rw [hc] at hd
    by_cases hdc : d = c
    · rw [hdc, Function.update_self, hw] at hd
      cases hd
    · rw [Function.update_of_ne hdc] at hd
      exact hi.unwritten d t hd
  · intro d t hd hn
    rw [hdl]
    rw [hc] at hd hn
    by_cases hdc : d = c
    · rw [hdc, Function.update_self] at hd
      rcases hpc with hpc | ⟨hpc, hcw⟩
      · rw [hpc] at hd
        cases hd
      · exact hi.written c t (hpc.symm.trans hd) hcw
    · rw [Function.update_of_ne hdc] at hd hn
      exact hi.written d t hd hn

/-- `c` finds the deadline `0`. -/
theorem Marked.enter (hi : Marked s) {t : T} {how : Submission} {now : TimeValue} (hd : s.deadline t = 0)
    (hok : ∀ d, (s.client d).writes ≠ some t) : Marked (s.gotoClient c (.setDeadline t how now)) := by
  have henters : Enters ClientPC.pushes s c (.setDeadline t how now) := by
    intro v hv
    cases hv
    refine ⟨?_, fun ht => hi.accepted t ht hd⟩
    intro c' _ hc'
    rcases ClientPC.writes_of_pushes hc' with hw | hw
    · exact hok c' hw
    · exact hi.written c' t hc' hw hd
  refine ⟨hi.once.move henters rfl rfl, ?_, ?_, hi.accepted⟩
  · intro d v hv
    by_cases hdc : d = c
    · have hv : some t = some v := by simpa [gotoClient, hdc, ClientPC.writes] using hv
      cases hv
      exact hd
    · exact hi.unwritten d v (by simpa [gotoClient, hdc] using hv)
  · intro d v hv hn
    by_cases hdc : d = c
    · simp [gotoClient, hdc, ClientPC.writes] at hn
    · exact hi.written d v (by simpa [gotoClient, hdc] using hv) (by simpa [gotoClient, hdc] using hn)

/-- `c` writes the deadline. -/
theorem Marked.write [DecidableEq T] (hi : Marked s) {t : T} {how : Submission} {now : TimeValue} {pc : ClientPC T}
    (hpc : s.client c = .setDeadline t how now) (hp : pc.pushes = some t) (hw : pc.writes = none)
    (hok : how.deadline now ≠ 0) :
    Marked { s.gotoClient c pc with deadline := Function.update s.deadline t (how.deadline now) } := by
  have hct : (s.client c).pushes = some t := by rw [hpc]; rfl
  have hother : ∀ d u, d ≠ c → (s.client d).pushes = some u → u ≠ t := by
    rintro d u hdc hu rfl
    exact hdc (hi.once.one d c u hu hct)
  refine ⟨hi.once.move (hi.once.enters (Or.inr (hp.trans hct.symm))) rfl rfl, ?_, ?_, ?_⟩
  · intro d u hu
    by_cases hdc : d = c
    · simp [gotoClient, hdc, hw] at hu
    · have hu : (s.client d).writes = some u := by simpa [gotoClient, hdc] using hu
      show Function.update s.deadline t _ u = 0
      rw [Function.update_of_ne (hother d u hdc (ClientPC.pushes_of_writes hu))]
      exact hi.unwritten d u hu
  · intro d u hu hn
    show Function.update s.deadline t _ u ≠ 0
    by_cases hdc : d = c
    · have hu : some t = some u := by simpa [gotoClient, hdc, hp] using hu
      cases hu
      rwa [Function.update_self]
    · have hu : (s.client d).pushes = some u := by simpa [gotoClient, hdc] using hu
      rw [Function.update_of_ne (hother d u hdc hu)]
      exact hi.written d u hu (by simpa [gotoClient, hdc] using hn)
  · intro u hu
    show Function.update s.deadline t _ u ≠ 0
    have hut : u ≠ t := by
      rintro rfl
      exact hi.once.fresh c u hct hu
    rw [Function.update_of_ne hut]
    exact hi.accepted u hu

/-- The submission of `c` is accepted. -/
theorem Marked.accept (hi : Marked s) {t : T} {how : Submission} {now : TimeValue}
    (hpc : s.client c = .pushTask t how now) (hc : s'.client = Function.update s.client c .idle)
    (ha : s'.record.accepted = s.record.accepted ++ [(t, now, how)]) (hdl : s'.deadline = s.deadline) : Marked s' := by
  have hct : (s.client c).pushes = some t := by rw [hpc]; rfl
  have hother : ∀ d, d ≠ c → s'.client d = s.client d := by
    intro d hdc
    rw [hc, Function.update_of_ne hdc]
  have hidle : s'.client c = .idle := by rw [hc, Function.update_self]
  refine ⟨hi.once.accept hct rfl hc ha, ?_, ?_, ?_⟩
  · intro d u hu
    rw [hdl]
    by_cases hdc : d = c
    · rw [hdc, hidle] at hu
      cases hu
    · rw [hother d hdc] at hu
      exact hi.unwritten d u hu
  · intro d u hu hn
    rw [hdl]
    by_cases hdc : d = c
    · rw [hdc, hidle] at hu
      cases hu
    · rw [hother d hdc] at hu hn
      exact hi.written d u hu hn
  · intro u hu
    rw [hdl]
    unfold acceptedTasks at hu
    rw [ha, List.map_append, List.mem_append] at hu
    rcases hu with hu | hu
    · exact hi.accepted u hu
    · rw [List.mem_singleton.mp hu]
      exact hi.written c t hct (by rw [hpc]; rfl)

variable [DecidableEq T]

theorem Marked.clientStep (hi : Marked s) (hok : Exclusive s (.client c i)) (h : ClientStep heap c i s s') :
    Marked s' := by
  have hok : (s.client c).Exclusive s := hok
  cases h with
  | silent hpc hs =>
    rw [hpc] at hok
    cases hs with
    | putOnce hd => exact hi.enter hd (hok hd)
    | notRequested | hasRun | hasCancelled => exact hi.move (Or.inl rfl) rfl rfl rfl rfl
  | setDeadline hpc hhow =>
    rw [hpc] at hok
    rcases hhow with ⟨rfl, -⟩ | ⟨_, _, -, rfl⟩
    · exact hi.write hpc rfl rfl hok
    · exact hi.write hpc rfl rfl hok
  | setInterval hpc => exact hi.move (Or.inr ⟨by rw [hpc]; rfl, by rw [hpc]; rfl⟩) rfl rfl rfl rfl
  | pushTask hpc => exact hi.accept hpc rfl rfl rfl
  | cancelAsync hpc =>
    rcases hpc with ⟨-, rfl⟩ | ⟨_, -, rfl⟩
    · exact hi.move (Or.inl rfl) rfl rfl rfl rfl
    · exact hi.move (Or.inl rfl) rfl rfl rfl rfl
  | @clear stop => cases stop <;> exact hi.move (Or.inl rfl) rfl rfl rfl rfl
  | readClock | refuse | stopped | block | runTask | cancelTask => exact hi.move (Or.inl rfl) rfl rfl rfl rfl

omit [DecidableEq Cl] in
theorem Marked.timer (hi : Marked s) (hb : Booked s) (hok : Exclusive s (.timer i)) (h : TimerStep heap i s s') :
    Marked s' := by
  have hok : s.pc.Exclusive := hok
  cases h with
  | @setDeadline t now interval hpc =>
    rw [hpc] at hok
    exact hi.rearm (hb.task t (by rw [hpc]; rfl)) (hok (now, interval) rfl) rfl rfl rfl
  | @popMin t why => cases why <;> exact ⟨hi.once.frame rfl rfl, hi.unwritten, hi.written, hi.accepted⟩
  | run => split <;> exact ⟨hi.once.frame rfl rfl, hi.unwritten, hi.written, hi.accepted⟩
  | _ => exact ⟨hi.once.frame rfl rfl, hi.unwritten, hi.written, hi.accepted⟩

theorem Reachable.marked (h : (system Cl heap).Reachable Exclusive s) : Marked s := by
  refine h.induct (I := Marked) ?_ ?_
  · exact ⟨⟨by simp [system, new, ClientPC.pushes], by simp [system, new, ClientPC.pushes], List.nodup_nil⟩,
      by simp [system, new, ClientPC.writes], by simp [system, new, ClientPC.pushes],
      by simp [system, new, acceptedTasks]⟩
  · intro s a s' hr hok hs hi
    cases step_cases hs with
    | @call c m => cases m <;> exact hi.move (Or.inl rfl) rfl rfl rfl rfl
    | client h => exact hi.clientStep hok h
    | timer h => exact hi.timer (Reachable.booked hr) hok h
    | wake w => cases w <;> exact ⟨hi.once.frame rfl rfl, hi.unwritten, hi.written, hi.accepted⟩

end Marked

/-! ## A task is put once -/

variable [DecidableEq Cl] [DecidableEq T]

/-- **A task having been put in a timer cannot be put again**, by submissions that do not race and do not write `0`. -/
theorem put_once (h : (system Cl heap).Reachable Exclusive s) : s.acceptedTasks.Nodup ∧ s.queue.Nodup ∧
    ∀ c t how now, s.client c = .setDeadline t how now → t ∉ s.queue := by
  have hi := Reachable.marked h
  have hb := Reachable.booked h
  refine ⟨hi.once.nodup, hi.once.queue_nodup hb, ?_⟩
  intro c t how now hc
  exact hi.once.not_queued hb (by rw [hc]; rfl)

/-- A second submission after the first. -/
theorem put_once_run : ∃ s : SharedTimer Bool Unit, s.record.returned true = some true ∧
    s.record.returned false = some false ∧ s.queue.Nodup := by
  obtain ⟨s, hs, hp⟩ := System.reachable_of_exec (system Bool (binaryHeap Unit Nat)) Exclusive
    ([.call true (.submit () (.later 5))] ++ List.replicate 5 (.client true ⟨.ret, 10⟩) ++
      [.call false (.submit () (.every 5 true))] ++ List.replicate 3 (.client false ⟨.ret, 10⟩))
    (fun s => s.record.returned true == some true && s.record.returned false == some false) (by decide)
  simp only [Bool.and_eq_true, beq_iff_eq] at hp
  exact ⟨s, hp.1, hp.2, (put_once hs).2.1⟩

/-- **Two submissions that race are both accepted**: both find the deadline `0`, and then both write. -/
theorem put_twice : ∃ s, (system Bool (binaryHeap Unit Nat)).Reachable Anything s ∧ s.acceptedTasks = [(), ()] ∧
    s.queue = [(), ()] := by
  obtain ⟨s, hs, hp⟩ := System.reachable_of_exec (system Bool (binaryHeap Unit Nat)) Anything
    ([.call true (.submit () (.later 5)), .call false (.submit () (.later 7))] ++
      List.replicate 3 (.client true ⟨.ret, 10⟩) ++ List.replicate 5 (.client false ⟨.ret, 10⟩) ++
      List.replicate 2 (.client true ⟨.ret, 10⟩))
    (fun s => s.acceptedTasks == [(), ()] && s.queue == [(), ()]) (by decide)
  simp only [Bool.and_eq_true, beq_iff_eq] at hp
  exact ⟨s, hs, hp⟩

/-- **A race is lost wherever it occurs**: two submissions that have found the deadline `0` can both go on. -/
theorem race_puts_twice (h : (system Cl heap).Reachable Anything s) {c c' : Cl} {t : T} {how : Submission}
    {now : TimeValue} (hc : s.client c = .getDeadline t how now) (hd : s.deadline t = 0)
    (hc' : (s.client c').writes = some t) (hl : s.pc.locked = false) :
    ∃ s', (system Cl heap).Reachable Anything s' ∧ ¬ s'.acceptedTasks.Nodup := by
  have hne : c' ≠ c := by
    rintro rfl
    rw [hc] at hc'
    cases hc'
  have hstep : (system Cl heap).step s (.client c ⟨.ret, 0⟩) = some (s.gotoClient c (.setDeadline t how now)) := by
    simp only [system, step, clientStep, hc, hd, ne_eq, not_true_eq_false, if_false]
  have hother : (s.gotoClient c (.setDeadline t how now)).client c' = s.client c' := Function.update_of_ne hne _ _
  obtain ⟨s1, h1⟩ : ∃ s1, AcceptedBy heap c' t (s.gotoClient c (.setDeadline t how now)) s1 :=
    accepted_of_pushes (by rw [hother]; exact ClientPC.pushes_of_writes hc') hl
  have hself : s1.client c = .setDeadline t how now := (h1.others c hne.symm).trans (Function.update_self _ _ _)
  obtain ⟨s2, h2⟩ : ∃ s2, AcceptedBy heap c t s1 s2 :=
    accepted_of_pushes (by rw [hself]; rfl) (by rw [h1.pc]; exact hl)
  refine ⟨s2, ((h.step trivial hstep).reaches h1.reaches).reaches h2.reaches, ?_⟩
  rw [h2.accepted, h1.accepted]
  intro hn
  have := List.nodup_iff_count_le_one.mp hn t
  simp only [List.count_append, List.count_singleton_self] at this
  omega

end SharedTimer

end Tpool
