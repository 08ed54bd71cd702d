import Tpool.Thread.TimerWait

/-!
# Stopping a timer

- `Stopped`: the state of the thread tells whether it has terminated, `Stop` returns only then, and a submission that
  begins after a `StopAsync` has completed is at its first check or has returned false. `stop_is_final`.
-/

namespace Tpool

open Concurrency Structures

namespace SharedTimer

variable {Cl T : Type*} {heap : PriorityQueue T Nat} {s s' : SharedTimer Cl T}

/-! ## What `Stop` and `StopAsync` leave -/

/-- A submission has still to check for a cancel. -/
def ClientPC.unchecked : ClientPC T → Bool
  | .getCurrentTime _ _ | .isRequestCancel _ _ _ => true
  | _ => false

/-- The state tells whether the timer thread has terminated; `Stop` has returned only if it has; and a submission that
has begun after a `StopAsync` is at its first check, or has returned false. -/
structure Stopped (s : SharedTimer Cl T) : Prop where
  state : s.thread.state = .finished ↔ s.pc = .terminated
  stop : s.record.stopReturned = true → s.pc = .terminated
  late : ∀ c, s.record.late c = true → s.thread.isRequestCancel = true ∧
    (s.client c = .idle ∧ s.record.returned c = some false ∨
      (s.client c).unchecked = true ∧ s.record.returned c = none)

section Stopped

variable [DecidableEq T] {i : Input}

/-- The timer thread does nothing more when it has terminated. -/
theorem TimerStep.not_terminated (h : TimerStep heap i s s') : s.pc ≠ .terminated := by
  intro ht
  cases h with
  | @move pc pc' hpc hm =>
    rw [ht] at hpc
    subst hpc
    cases hm with
    | exit h => rcases h with h | h <;> cases h
  | setRunning hpc | wait hpc | readClock hpc | setDeadline hpc | again hpc | popMin hpc | timedWait hpc | awake hpc
  | start hpc | run hpc | notifyFinished hpc =>
    rw [ht] at hpc
    cases hpc

/-- It terminates when it sets the state to finished. -/
theorem TimerStep.state (h : TimerStep heap i s s') (hs : s.thread.state ≠ .finished) :
    s'.thread.state = .finished ↔ s'.pc = .terminated := by
  cases h with
  | move hpc hm => exact ⟨fun h => absurd h hs, fun h => by cases hm <;> cases h⟩
  | setRunning =>
    constructor
    · intro h
      cases h
    · intro h
      cases h
  | @popMin t why => cases why <;> exact ⟨fun h => absurd h hs, fun h => by cases h⟩
  | run => split <;> exact ⟨fun h => absurd h hs, fun h => by cases h⟩
  | notifyFinished => exact ⟨fun _ => rfl, fun _ => rfl⟩
  | _ => exact ⟨fun h => absurd h hs, fun h => by cases h⟩

theorem Stopped.timer (hi : Stopped s) (h : TimerStep heap i s s') : Stopped s' := by
  obtain ⟨-, hstop, hlate, hret⟩ := h.calls
  have hn := h.not_terminated
  refine ⟨h.state fun hs => hn (hi.state.mp hs), ?_, ?_⟩
  · rw [hstop]
    exact fun hs => absurd (hi.stop hs) hn
  · rw [hlate, hret, h.flag, h.frame.1]
    exact hi.late

variable [DecidableEq Cl] {c : Cl}

/-- A step of `c` leaves the timer thread, and the calls of the others, where they are. -/
theorem ClientStep.others (h : ClientStep heap c i s s') : s'.pc = s.pc ∧ s'.thread.state = s.thread.state ∧
    s'.record.runs = s.record.runs ∧ s'.record.started = s.record.started ∧ s'.record.late = s.record.late ∧
    ∀ d, d ≠ c → s'.client d = s.client d ∧ s'.record.returned d = s.record.returned d := by
  have hgo : ∀ (pc : ClientPC T) d, d ≠ c → (s.gotoClient c pc).client d = s.client d :=
    fun pc d hd => Function.update_of_ne hd _ _
  cases h with
  | pushTask | refuse =>
    exact ⟨rfl, rfl, rfl, rfl, rfl, fun d hd => ⟨hgo _ d hd, Function.update_of_ne hd _ _⟩⟩
  | block => exact ⟨rfl, by simp, rfl, rfl, rfl, fun d hd => ⟨hgo _ d hd, rfl⟩⟩
  | _ => exact ⟨rfl, rfl, rfl, rfl, rfl, fun d hd => ⟨hgo _ d hd, rfl⟩⟩

/-- A submission that meets the request at its first check goes no further. -/
theorem ClientStep.late (h : ClientStep heap c i s s') (hf : s.thread.isRequestCancel = true)
    (hc : (s.client c).unchecked = true) : s'.deadline = s.deadline ∧ s'.interval = s.interval ∧ s'.queue = s.queue ∧
    ((s'.client c).unchecked = true ∧ s'.record.returned = s.record.returned ∨
      s'.client c = .idle ∧ s'.record.returned c = some false) := by
  have hself : ∀ pc : ClientPC T, (s.gotoClient c pc).client c = pc := fun pc => Function.update_self _ _ _
  cases h with
  | silent hpc hs =>
    rw [hpc] at hc
    cases hs with
    | notRequested hn => rw [hf] at hn; cases hn
    | putOnce | hasRun | hasCancelled => cases hc
  | readClock => exact ⟨rfl, rfl, rfl, Or.inl ⟨by rw [hself]; rfl, rfl⟩⟩
  | refuse => exact ⟨rfl, rfl, rfl, Or.inr ⟨hself _, Function.update_self _ _ _⟩⟩
  | setDeadline hpc | setInterval hpc | pushTask hpc | clear hpc | runTask hpc | cancelTask hpc =>
    rw [hpc] at hc
    cases hc
  | cancelAsync hpc => rcases hpc with ⟨hpc, -⟩ | ⟨_, hpc, -⟩ <;> rw [hpc] at hc <;> cases hc
  | stopped hpc | block hpc => rcases hpc with hpc | hpc <;> rw [hpc] at hc <;> cases hc

/-- Who steps is in a call. -/
theorem ClientStep.not_idle (h : ClientStep heap c i s s') : s.client c ≠ .idle := by
  intro hc
  cases h with
  | silent hpc hs => rw [hpc] at hc; subst hc; cases hs
  | refuse hpc => rcases hpc with ⟨hpc, -⟩ | ⟨hpc, -⟩ <;> rw [hpc] at hc <;> cases hc
  | cancelAsync hpc => rcases hpc with ⟨hpc, -⟩ | ⟨_, hpc, -⟩ <;> rw [hpc] at hc <;> cases hc
  | stopped hpc | block hpc => rcases hpc with hpc | hpc <;> rw [hpc] at hc <;> cases hc
  | readClock hpc | setDeadline hpc | setInterval hpc | pushTask hpc | clear hpc | runTask hpc | cancelTask hpc =>
    rw [hpc] at hc
    cases hc

theorem Stopped.client (hi : Stopped s) (h : ClientStep heap c i s s') : Stopped s' := by
  obtain ⟨hpc, hstate, -, -, hlate, hother⟩ := h.others
  refine ⟨by rw [hpc, hstate]; exact hi.state, ?_, ?_⟩
  · intro hs
    rw [hpc]
    cases h with
    | stopped _ hfin => exact hi.state.mp hfin
    | _ => exact hi.stop hs
  · intro d hd
    rw [hlate] at hd
    obtain ⟨hf, hd'⟩ := hi.late d hd
    refine ⟨h.flag hf, ?_⟩
    by_cases hdc : d = c
    · subst hdc
      rcases hd' with ⟨hidle, -⟩ | ⟨hun, hret⟩
      · exact absurd hidle h.not_idle
      · obtain ⟨-, -, -, ⟨hun', hret'⟩ | hdone⟩ := h.late hf hun
        · exact Or.inr ⟨hun', by rw [hret', hret]⟩
        · exact Or.inl hdone
    · obtain ⟨hcl, hret⟩ := hother d hdc
      rw [hcl, hret]
      exact hd'

omit [DecidableEq T] in
/-- A submission is late when a `StopAsync` has completed, and then the cancel has been requested. -/
theorem Stopped.call (hi : Stopped s) (hr : StopRequested s) {m : Method T} : Stopped (s.call c m) := by
  have hother : ∀ d, d ≠ c → (s.call c m).client d = s.client d ∧ (s.call c m).record.late d = s.record.late d ∧
      (s.call c m).record.returned d = s.record.returned d := by
    intro d hd
    cases m with
    | submit =>
      exact ⟨Function.update_of_ne hd _ _, Function.update_of_ne hd _ _, Function.update_of_ne hd _ _⟩
    | _ => exact ⟨Function.update_of_ne hd _ _, Function.update_of_ne hd _ _, rfl⟩
  refine ⟨hi.state, ?_, ?_⟩
  · intro hs
    refine hi.stop ?_
    cases m <;> exact hs
  · intro d hd
    by_cases hdc : d = c
    · subst hdc
      cases m with
      | submit t how =>
        have hd : s.record.stopAsyncDone = true := by simpa [call] using hd
        refine ⟨hr.done hd, Or.inr ⟨?_, ?_⟩⟩
        · simp [call, gotoClient, Method.start, ClientPC.unchecked]
        · simp [call]
      | _ => simp [call] at hd
    · obtain ⟨hcl, hlate, hret⟩ := hother d hdc
      rw [hlate] at hd
      rw [hcl, hret]
      exact hi.late d hd

theorem Reachable.stopped {ok : SharedTimer Cl T → Action Cl T → Prop} (h : (system Cl heap).Reachable ok s) :
    Stopped s := by
  refine h.induct (I := Stopped) ?_ ?_
  · exact ⟨by simp [system, new, CancelableThread.new], by simp [system, new], by simp [system, new]⟩
  · intro s a s' hr _ hs hi
    cases step_cases hs with
    | call => exact hi.call (Reachable.stopRequested hr)
    | client h => exact hi.client h
    | timer h => exact hi.timer h
    | wake w => cases w <;> exact ⟨hi.state, hi.stop, hi.late⟩

/-- A timer that has terminated stays so, and starts nothing. -/
theorem Reaches.terminated {ok : SharedTimer Cl T → Action Cl T → Prop} (h : (system Cl heap).Reaches ok s s')
    (ht : s.pc = .terminated) :
    s'.pc = .terminated ∧ s'.record.runs = s.record.runs ∧ s'.record.started = s.record.started := by
  refine h.keeps (I := fun s' => s'.pc = .terminated ∧ s'.record.runs = s.record.runs ∧
    s'.record.started = s.record.started) ?_ ⟨ht, rfl, rfl⟩
  rintro u a u' _ hs ⟨hpc, hruns, hstarted⟩
  cases step_cases hs with
  | @call c m => cases m <;> exact ⟨hpc, hruns, hstarted⟩
  | client h =>
    obtain ⟨hpc', -, hruns', hstarted', -⟩ := h.others
    rw [hpc', hruns', hstarted']
    exact ⟨hpc, hruns, hstarted⟩
  | timer h => exact absurd hpc h.not_terminated
  | wake w => cases w <;> exact ⟨hpc, hruns, hstarted⟩

/-- **`Stop` is final.** After it no task is being run or will be; and a submission that begins after a `StopAsync` has
completed returns false, and no step of it writes a deadline, an interval or the queue. -/
theorem stop_is_final (h : (system Cl heap).Reachable Anything s) :
    (s.record.stopReturned = true → s.pc = .terminated ∧ ∀ s', (system Cl heap).Reaches Anything s s' →
      s'.pc = .terminated ∧ s'.record.runs = s.record.runs ∧ s'.record.started = s.record.started) ∧
    (∀ c, s.record.late c = true → s.record.returned c ≠ some true ∧
      (s.client c = .idle → s.record.returned c = some false) ∧
      ∀ i s', (system Cl heap).step s (.client c i) = some s' →
        s'.deadline = s.deadline ∧ s'.interval = s.interval ∧ s'.queue = s.queue) := by
  have hi := Reachable.stopped h
  refine ⟨fun hs => ⟨hi.stop hs, fun s' hs' => Reaches.terminated hs' (hi.stop hs)⟩, ?_⟩
  intro c hc
  obtain ⟨hf, ⟨hidle, hret⟩ | ⟨hun, hret⟩⟩ := hi.late c hc
  · refine ⟨by rw [hret]; simp, fun _ => hret, ?_⟩
    intro i s' hs
    exact absurd hidle (clientStep_cases hs).not_idle
  · refine ⟨by rw [hret]; simp, ?_, ?_⟩
    · intro hidle
      rw [hidle] at hun
      cases hun
    · intro i s' hs
      obtain ⟨hd, hint, hq, -⟩ := (clientStep_cases hs).late hf hun
      exact ⟨hd, hint, hq⟩

/-- A `Stop` that returns, and a submission after it. -/
theorem stop_is_final_run : ∃ s : SharedTimer Bool Unit, s.record.stopReturned = true ∧ s.pc = .terminated ∧
    s.record.late false = true ∧ s.record.returned false = some false := by
  obtain ⟨s, hs, hp⟩ := System.reachable_of_exec (system Bool (binaryHeap Unit Nat)) Anything
    ([.call true .stop] ++ List.replicate 2 (.client true ⟨.ret, 10⟩) ++ List.replicate 3 (.timer ⟨.ret, 10⟩) ++
      List.replicate 2 (.client true ⟨.ret, 10⟩) ++ [.call false (.submit () (.later 5))] ++
      List.replicate 2 (.client false ⟨.ret, 10⟩))
    (fun s => s.record.stopReturned && (s.record.late false && s.client false == .idle)) (by decide)
  obtain ⟨hstop, hlate, hidle⟩ := by simpa only [Bool.and_eq_true, beq_iff_eq] using hp
  exact ⟨s, hstop, ((stop_is_final hs).1 hstop).1, hlate, ((stop_is_final hs).2 false hlate).2.1 hidle⟩

end Stopped

end SharedTimer

end Tpool
