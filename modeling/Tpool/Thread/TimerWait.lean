import Tpool.Thread.TimerQueue

/-!
# How a timer waits

- `StopRequested`: who is at `Clear`, or has been there, has asked the timer thread to cancel before.
- `NotLate`: where the timer thread waits with no time limit nothing is queued; where it waits for a deadline no queued
  task has a smaller one; and a completed `StopAsync` has woken it, or is found before the next wait.
- `never_oversleeps`: so no task is due and no stop asked for while the timer thread sleeps un-notified.
-/

namespace Tpool

open Concurrency Structures

namespace SharedTimer

variable {Cl T : Type*} {heap : PriorityQueue T Nat} {s s' : SharedTimer Cl T}

/-! ## Asking the timer thread to cancel -/

/-- The cancel of the timer thread has been requested by those who stand at `Clear`, and by those who were there. -/
structure StopRequested (s : SharedTimer Cl T) : Prop where
  clear : ∀ c stop, s.client c = .clear stop → s.thread.isRequestCancel = true
  done : s.record.stopAsyncDone = true → s.thread.isRequestCancel = true

section StopRequested

variable [DecidableEq T] {i : Input}

/-- A request is not taken back by the timer thread. -/
theorem TimerStep.flag (h : TimerStep heap i s s') : s'.thread.isRequestCancel = s.thread.isRequestCancel := by
  cases h with
  | @popMin t why => cases why <;> rfl
  | run => split <;> rfl
  | _ => rfl

/-- What is recorded of the calls is not touched by the timer thread. -/
theorem TimerStep.calls (h : TimerStep heap i s s') : s'.record.stopAsyncDone = s.record.stopAsyncDone ∧
    s'.record.stopReturned = s.record.stopReturned ∧ s'.record.late = s.record.late ∧
    s'.record.returned = s.record.returned := by
  cases h with
  | @popMin t why => cases why <;> exact ⟨rfl, rfl, rfl, rfl⟩
  | run => split <;> exact ⟨rfl, rfl, rfl, rfl⟩
  | _ => exact ⟨rfl, rfl, rfl, rfl⟩

variable [DecidableEq Cl] {c : Cl}

/-- Nor by a client. -/
theorem ClientStep.flag (h : ClientStep heap c i s s') (hf : s.thread.isRequestCancel = true) :
    s'.thread.isRequestCancel = true := by
  cases h with
  | cancelAsync => rfl
  | block => simpa using hf
  | _ => exact hf

/-- Who gets to `Clear` has just requested the cancel. -/
theorem ClientStep.atClear (h : ClientStep heap c i s s') {stop : Bool} (hc : s'.client c = .clear stop) :
    s'.thread.isRequestCancel = true := by
  cases h with
  | cancelAsync => rfl
  | silent _ hs => cases hs <;> simp [gotoClient] at hc
  | setDeadline _ hhow => rcases hhow with ⟨rfl, -⟩ | ⟨_, _, -, rfl⟩ <;> simp [gotoClient] at hc
  | @clear stop => cases stop <;> simp [gotoClient] at hc
  | refuse => simp [gotoClient, SharedTimer.refuse] at hc
  | _ => simp [gotoClient] at hc

theorem StopRequested.client (hi : StopRequested s) (h : ClientStep heap c i s s') : StopRequested s' := by
  constructor
  · intro d stop hd
    by_cases hdc : d = c
    · subst hdc
      exact h.atClear hd
    · obtain ⟨pc, hc, -⟩ := h.client
      rw [hc, Function.update_of_ne hdc] at hd
      exact h.flag (hi.clear d stop hd)
  · intro hdone
    cases h with
    | @clear stop hpc => exact hi.clear c stop hpc
    | cancelAsync => rfl
    | block => simpa using hi.done hdone
    | _ => exact hi.done hdone

theorem Reachable.stopRequested {ok : SharedTimer Cl T → Action Cl T → Prop} (h : (system Cl heap).Reachable ok s) :
    StopRequested s := by
  refine h.induct (I := StopRequested) ?_ ?_
  · exact ⟨by simp [system, new], by simp [system, new]⟩
  · intro s a s' _ _ hs hi
    cases step_cases hs with
    | @call c m =>
      have hdone : (s.call c m).record.stopAsyncDone = s.record.stopAsyncDone := by cases m <;> rfl
      refine ⟨?_, fun h => hi.done (hdone.symm.trans h)⟩
      intro d stop hd
      by_cases hdc : d = c
      · cases m <;> simp [call, gotoClient, Method.start, hdc] at hd
      · exact hi.clear d stop (by simpa [call, gotoClient, hdc] using hd)
    | client h => exact hi.client h
    | timer h =>
      refine ⟨?_, ?_⟩
      · rw [h.frame.1, h.flag]; exact hi.clear
      · rw [h.calls.1, h.flag]; exact hi.done
    | wake w => cases w <;> exact ⟨hi.clear, hi.done⟩

end StopRequested

/-! ## Waiting -/

/-- The timer thread has checked for a cancel in this turn of its loop, and has still to unlock or to block. -/
def PC.armed : PC T → Bool
  | .wait | .getMin | .timedWait _ => true
  | pc => pc.min?.isSome

/-- The timer thread is in one of its waits. -/
def PC.blocks : PC T → Bool
  | .blocked | .timedBlocked _ => true
  | _ => false

theorem PC.armed_of_unlocked {pc : PC T} (h : pc.locked = false) : pc.armed = false := by
  cases pc <;> first | rfl | cases h

/-- Where the timer thread is about to wait, or waits un-notified, there is nothing to do before the end of the wait. -/
structure NotLate (s : SharedTimer Cl T) : Prop where
  wait : s.pc = .checkEmpty ∨ s.pc = .wait ∨ s.pc = .blocked ∧ s.waiting = true → s.queue = []
  timedWait : ∀ deadline, s.pc = .timedWait deadline ∨ s.pc = .timedBlocked deadline ∧ s.waiting = true →
    ∀ t ∈ s.queue, deadline ≤ s.deadline t
  stopped : s.record.stopAsyncDone = true → s.pc.armed = false ∧ (s.pc.blocks = true → s.waiting = false)

section NotLate

/-- The timer thread is about to wait, or waits. -/
def PC.waits : PC T → Bool
  | .checkEmpty | .wait | .blocked | .timedWait _ | .timedBlocked _ => true
  | _ => false

/-- Where the timer thread is not about to wait there is only the check to account for. -/
theorem NotLate.of_busy (hw : s.pc.waits = false) (ha : s.record.stopAsyncDone = true → s.pc.armed = false) :
    NotLate s := by
  refine ⟨?_, ?_, fun hd => ⟨ha hd, ?_⟩⟩
  · rintro (h | h | ⟨h, -⟩) <;> rw [h] at hw <;> cases hw
  · rintro deadline (h | ⟨h, -⟩) <;> rw [h] at hw <;> cases hw
  · intro hb
    cases hpc : s.pc with
    | blocked | timedBlocked => rw [hpc] at hw; cases hw
    | _ => rw [hpc] at hb; cases hb

/-- Nothing is missed while the timer thread is notified and does not hold the lock. -/
theorem NotLate.of_notified (hl : s.pc.locked = false) (hw : s.waiting = false) : NotLate s := by
  refine ⟨?_, ?_, fun _ => ⟨PC.armed_of_unlocked hl, fun _ => hw⟩⟩
  · rintro (h | h | ⟨-, h⟩)
    · rw [h] at hl; cases hl
    · rw [h] at hl; cases hl
    · rw [hw] at h; cases h
  · rintro deadline (h | ⟨-, h⟩)
    · rw [h] at hl; cases hl
    · rw [hw] at h; cases h

/-- The timer thread gets past its check only when it has found no request. -/
theorem Move.armed {pc pc' : PC T} (h : Move s pc pc') (ha : pc'.armed = true) :
    pc.armed = true ∨ s.thread.isRequestCancel = false := by
  cases h with
  | checkEmpty hf | check hf => exact Or.inr hf
  | getMin | getDeadline | isCancelled | notCancelled | requested | notRequested | due | early | interval | oneShot
  | getInterval => exact Or.inl rfl
  | _ => cases ha

theorem NotLate.not_armed (hi : NotLate s) (hd : s.record.stopAsyncDone = true) {pc : PC T} (hpc : s.pc = pc) :
    pc.armed = false := by
  rw [← hpc]
  exact (hi.stopped hd).1

theorem NotLate.move (hi : NotLate s) (ho : Ordered s) (hr : StopRequested s) {pc pc' : PC T} (hpc : s.pc = pc)
    (h : Move s pc pc') : NotLate (s.goto pc') := by
  have ha : s.record.stopAsyncDone = true → pc'.armed = false := by
    intro hd
    by_contra ha
    rcases h.armed (by simpa using ha) with ha | hf
    · simp [hi.not_armed hd hpc] at ha
    · simp [hr.done hd] at hf
  have hb : pc'.blocks = false := by cases h <;> rfl
  cases h with
  | empty hq =>
    exact ⟨fun _ => hq, by simp [goto], fun hd => ⟨ha hd, by simp [goto, PC.blocks]⟩⟩
  | checkEmpty =>
    exact ⟨fun _ => hi.wait (Or.inl hpc), by simp [goto], fun hd => ⟨ha hd, by simp [goto, PC.blocks]⟩⟩
  | @early t now deadline hlt =>
    refine ⟨by simp [goto], ?_, fun hd => ⟨ha hd, by simp [goto, PC.blocks]⟩⟩
    intro d hd u hu
    have hd : deadline = d := by simpa [goto] using hd
    rw [← hd, ← ho.read t deadline (by rw [hpc]; rfl)]
    exact ho.min (by rw [hpc]; rfl) (by rw [hpc]; rfl) hu
  | _ => exact .of_busy rfl ha

variable [DecidableEq T] {i : Input}

theorem NotLate.timer (hi : NotLate s) (ho : Ordered s) (hr : StopRequested s) (h : TimerStep heap i s s') :
    NotLate s' := by
  cases h with
  | move hpc hm => exact hi.move ho hr hpc hm
  | setRunning | again | awake | start | notifyFinished => exact .of_busy rfl fun _ => rfl
  | readClock hpc | setDeadline hpc =>
    refine .of_busy rfl fun hd => ?_
    cases hi.not_armed hd hpc
  | wait hpc =>
    refine ⟨fun _ => hi.wait (Or.inr (Or.inl hpc)), by simp, ?_⟩
    intro hd
    cases hi.not_armed hd hpc
  | @timedWait deadline hpc =>
    refine ⟨by simp, ?_, ?_⟩
    · intro d hd
      have hd : deadline = d := by simpa using hd
      rw [← hd]
      exact hi.timedWait deadline (Or.inl hpc)
    · intro hd
      cases hi.not_armed hd hpc
  | @popMin t why => cases why <;> exact .of_busy rfl fun _ => rfl
  | run => split <;> exact .of_busy rfl fun _ => rfl

variable [DecidableEq Cl] {c : Cl}

theorem NotLate.client (hi : NotLate s) (ho : Once ClientPC.pushes s) (hb : Booked s) (h : ClientStep heap c i s s') :
    NotLate s' := by
  cases h with
  | @setDeadline t how now pc' hpc =>
    refine ⟨hi.wait, ?_, hi.stopped⟩
    intro deadline hd u hu
    have hne : u ≠ t := by
      rintro rfl
      exact ho.not_queued hb (by rw [hpc]; rfl) hu
    show deadline ≤ Function.update s.deadline t _ u
    rw [Function.update_of_ne hne]
    exact hi.timedWait deadline hd u hu
  | pushTask hpc hl | clear hpc hl => exact .of_notified hl rfl
  | _ => exact ⟨hi.wait, hi.timedWait, hi.stopped⟩

theorem Reachable.notLate {ok : SharedTimer Cl T → Action Cl T → Prop}
    (hok : ∀ s, (system Cl heap).Reachable ok s → Once ClientPC.pushes s) (h : (system Cl heap).Reachable ok s) :
    NotLate s := by
  refine h.induct (I := NotLate) (.of_busy rfl fun _ => rfl) ?_
  intro s a s' hr _ hs hi
  cases step_cases hs with
  | @call c m => cases m <;> exact ⟨hi.wait, hi.timedWait, hi.stopped⟩
  | client h => exact hi.client (hok s hr) (Reachable.booked hr) h
  | timer h => exact hi.timer (Reachable.ordered hok hr) (Reachable.stopRequested hr) h
  | wake w =>
    cases w with
    | timer =>
      refine ⟨?_, ?_, fun hd => ⟨(hi.stopped hd).1, fun _ => rfl⟩⟩
      · rintro (h | h | ⟨-, h⟩)
        · exact hi.wait (Or.inl h)
        · exact hi.wait (Or.inr (Or.inl h))
        · cases h
      · rintro deadline (h | ⟨-, h⟩)
        · exact hi.timedWait deadline (Or.inl h)
        · cases h
    | thread | task => exact ⟨hi.wait, hi.timedWait, hi.stopped⟩

end NotLate

/-! ## The timer thread never oversleeps -/

variable [DecidableEq Cl] [DecidableEq T]

/-- **The timer thread never oversleeps**, when each task is passed to one submission at most. -/
theorem never_oversleeps (h : (system Cl heap).Reachable Single s) :
    (s.pc = .blocked → s.waiting = true → s.queue = []) ∧
    (∀ deadline, s.pc = .timedBlocked deadline → s.waiting = true → ∀ t ∈ s.queue, deadline ≤ s.deadline t) ∧
    (s.record.stopAsyncDone = true → s.pc.blocks = true → s.waiting = false) := by
  have hi := Reachable.notLate (fun s h => (Reachable.submitted h).once.pushes) h
  refine ⟨?_, ?_, fun hd => (hi.stopped hd).2⟩
  · intro hpc hw
    exact hi.wait (Or.inr (Or.inr ⟨hpc, hw⟩))
  · intro deadline hpc hw
    exact hi.timedWait deadline (Or.inr ⟨hpc, hw⟩)

/-- A timer thread that waits for the first of two deadlines. -/
theorem never_oversleeps_run : ∃ s : SharedTimer Unit Bool, s.pc = .timedBlocked 15 ∧ s.waiting = true ∧
    s.queue = [true, false] ∧ ∀ t ∈ s.queue, 15 ≤ s.deadline t := by
  obtain ⟨s, hs, hp⟩ := System.reachable_of_exec (system Unit (binaryHeap Bool Nat)) Single
    ([.call () (.submit false (.every 7 false))] ++ List.replicate 6 (.client () ⟨.ret, 10⟩) ++
      [.call () (.submit true (.later 5))] ++ List.replicate 5 (.client () ⟨.ret, 10⟩) ++
      List.replicate 12 (.timer ⟨.ret, 12⟩))
    (fun s => s.pc == .timedBlocked 15 && (s.waiting && s.queue == [true, false])) (by decide)
  obtain ⟨hpc, hw, hq⟩ := by simpa only [Bool.and_eq_true, beq_iff_eq] using hp
  exact ⟨s, hpc, hw, hq, (never_oversleeps hs).2.1 15 hpc hw⟩

end SharedTimer

end Tpool
