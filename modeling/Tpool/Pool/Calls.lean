import Tpool.Pool.Invariant

/-!
# What holds at each point of a call

- `Asserts`, `Outline`: what a client knows where it is in its call, and what the calls that have returned leave behind.
  Nobody can make it false: a stop once requested stays requested, and who has finished stays so (`Grows`).
- `Winning`: at most one caller of `StopAsync` gets to push the `EndTask`s, and how far it has got.
-/

namespace Tpool.FixedThreadPool

open Concurrency Tpool.Core

variable {n : Nat} {Cl T : Type*}

/-! ## Assertions -/

/-- What a stop has waited for before it stops the timer. -/
def Stopped (s : FixedThreadPool n Cl T) : Stopper → Prop
  | .async => False
  | .stop => s.state = .finished
  | .now => ∀ i, (s.threads i).thread.state = .finished

/-- The assertion at a point of a call. -/
def Asserts (s : FixedThreadPool n Cl T) : ClientPC T → Prop
  | .timerStarted _ | .timerCancelAsync _ | .timerClear _ | .pushEndTask _ _ | .waitFinished | .blockedFinished
  | .cancelAsync _ => s.isRequestStop = true
  | .lockRunningTask j | .cancelRunningTask j | .onCallCancel j | .unlockRunningTask j _ | .cancelThread j
  | .waitThread j | .blockedThread j =>
    s.isRequestStop = true ∧ ∀ i : Fin n, i.val < j → (s.threads i).thread.state = .finished
  | .isTimerStarted k | .stopTimerAsync k | .clearTimer k | .cancelTimer k | .waitTimer k | .blockedTimer k =>
    s.Stopped k
  | .unlockState => s.state = .finished
  | _ => True

/-- Every call is where it may be, and every call of `Stop` or `StopNow` that has returned has seen the end. -/
structure Outline (s : FixedThreadPool n Cl T) : Prop where
  asserts : ∀ c, s.Asserts (s.client c)
  stopReturned : s.stopReturned = true → s.state = .finished
  stopNowReturned : s.stopNowReturned = true → ∀ i, (s.threads i).thread.state = .finished

/-- What is requested or finished stays so. -/
structure Grows (s s' : FixedThreadPool n Cl T) : Prop where
  isRequestStop : s.isRequestStop = true → s'.isRequestStop = true
  state : s.state = .finished → s'.state = .finished
  threads : ∀ i, (s.threads i).thread.state = .finished → (s'.threads i).thread.state = .finished

section Outline

variable {s s' : FixedThreadPool n Cl T}

theorem Asserts.mono {pc : ClientPC T} (h : s.Asserts pc) (hg : Grows s s') : s'.Asserts pc := by
  have hstopped : ∀ {k}, s.Stopped k → s'.Stopped k := by
    intro k hk
    cases k with
    | async => exact hk
    | stop => exact hg.state hk
    | now => exact fun i => hg.threads i (hk i)
  cases pc with
  | timerStarted | timerCancelAsync | timerClear | pushEndTask | waitFinished | blockedFinished | cancelAsync =>
    exact hg.isRequestStop h
  | lockRunningTask | cancelRunningTask | onCallCancel | unlockRunningTask | cancelThread | waitThread
      | blockedThread =>
    exact ⟨hg.isRequestStop h.1, fun i hi => hg.threads i (h.2 i hi)⟩
  | isTimerStarted | stopTimerAsync | clearTimer | cancelTimer | waitTimer | blockedTimer => exact hstopped h
  | unlockState => exact hg.state h
  | _ => trivial

theorem Frame.grows (h : Frame s s') : Grows s s' :=
  ⟨h.isRequestStop, fun hs => h.state.trans hs, fun i hi => (h.threads i).2.2.trans hi⟩

/-- What others do keeps every assertion. -/
theorem Outline.grow (hi : Outline s) (hg : Grows s s') (hc : s'.client = s.client)
    (h1 : s'.stopReturned = s.stopReturned) (h2 : s'.stopNowReturned = s.stopNowReturned) : Outline s' :=
  ⟨fun c => by rw [hc]; exact (hi.asserts c).mono hg, fun h => hg.state (hi.stopReturned (h1 ▸ h)),
    fun h i => hg.threads i (hi.stopNowReturned (h2 ▸ h) i)⟩

/-- What follows `StopAsync` needs the request only. -/
theorem asserts_afterAsync (k : Stopper) (h : s.isRequestStop = true) : s.Asserts k.afterAsync := by
  cases k with
  | async => trivial
  | stop => exact h
  | now => exact h

/-- The call moves on to where its assertion holds. -/
theorem Silent.asserts {pc pc' : ClientPC T} (h : Silent s pc pc') (ha : s.Asserts pc) : s.Asserts pc' := by
  cases h with
  | refused | accepted | refusedTimer | acceptedTimer | notSubmitted | submitted | putTwice | putOnce
  | cancelReturned => trivial
  | lost hr => exact asserts_afterAsync _ hr
  | timerStarted | noTimer | noTask | onCallCancel | stopTimer => exact ha
  | cancelledAll => exact ⟨ha, fun i hi => absurd hi (Nat.not_lt_zero _)⟩
  | stoppedAll hj => exact fun i => ha.2 i (lt_of_lt_of_le i.isLt hj)
  | @threadFinished j hj pc hpc hf =>
    have ha : s.isRequestStop = true ∧ ∀ i : Fin n, i.val < j → (s.threads i).thread.state = .finished := by
      rcases hpc with rfl | rfl <;> exact ha
    refine ⟨ha.1, fun i hi => ?_⟩
    rcases Nat.lt_succ_iff_lt_or_eq.mp hi with hlt | heq
    · exact ha.2 i hlt
    · rw [show i = ⟨j, hj⟩ from Fin.ext heq]; exact hf
  | @noTimerToStop k hn hk =>
    cases k with
    | async => exact ha.elim
    | stop => exact ha
    | now => exact absurd rfl hk
  | @timerFinished k tm pc hpc htm hf hk =>
    have ha : s.Stopped k := by rcases hpc with rfl | rfl <;> exact ha
    cases k with
    | async => exact ha.elim
    | stop => exact ha
    | now => exact absurd rfl hk

variable [DecidableEq Cl] [DecidableEq T] {c : Cl}

/-- A step of a call leads to where its assertion holds. -/
theorem ClientStep.asserts (h : ClientStep c s s') (ha : s.Asserts (s.client c)) : s'.Asserts (s'.client c) := by
  have hg := h.frame.grows
  have move : ∀ {pc}, s'.client c = pc → s.Asserts pc → s'.Asserts (s'.client c) := fun h1 h2 => h1 ▸ h2.mono hg
  cases h with
  | silent hpc hs => exact move (Function.update_self ..) (hs.asserts (hpc ▸ ha))
  | push | makeTimer | setInterval | pushTask | unlockState | stopNowReturned | cancelTask => simp [goto, Asserts]
  | setDeadline _ _ hpc' => rcases hpc' with rfl | ⟨_, rfl⟩ <;> simp [goto, Asserts]
  | win => simp [goto, Asserts]
  | pushEndTask hpc => rw [hpc] at ha; exact move (Function.update_self ..) ha
  | pushedAll hpc => rw [hpc] at ha; exact move (Function.update_self ..) (asserts_afterAsync _ ha)
  | finished hpc hguard hf => exact move (Function.update_self ..) hf
  | join hpc =>
    have ha : s.isRequestStop = true := by rcases hpc with hpc | ⟨hpc, -⟩ <;> rw [hpc] at ha <;> exact ha
    exact move (Function.update_self ..) ha
  | cancelThread hj hpc =>
    rcases hpc with ⟨hpc, rfl⟩ | ⟨hpc, rfl⟩
    · rw [hpc] at ha; exact move (Function.update_self ..) ha
    · rw [hpc] at ha; exact move (Function.update_self ..) ha
  | lockRunningTask hj hpc | cancelRunningTask hj hpc => rw [hpc] at ha; exact move (Function.update_self ..) ha
  | @unlockRunningTask j raised hj hpc =>
    rw [hpc] at ha
    cases raised with
    | true => simp [goto, Asserts]
    | false => exact move (Function.update_self ..) ha
  | waitThread hj hpc => rcases hpc with hpc | ⟨hpc, -⟩ <;> rw [hpc] at ha <;> exact move (Function.update_self ..) ha
  | cancelTimer htm hpc =>
    rcases hpc with ⟨hpc, rfl⟩ | ⟨hpc, rfl⟩ | ⟨hpc, rfl⟩ <;> rw [hpc] at ha <;> exact move (Function.update_self ..) ha
  | clearTimer htm hl hpc =>
    rcases hpc with ⟨hpc, rfl⟩ | ⟨hpc, rfl⟩ <;> rw [hpc] at ha <;> exact move (Function.update_self ..) ha
  | waitTimer htm hpc => rcases hpc with hpc | ⟨hpc, -⟩ <;> rw [hpc] at ha <;> exact move (Function.update_self ..) ha

/-- A call that returns from `Stop` or `StopNow` has seen the end. -/
theorem ClientStep.returned (h : ClientStep c s s') (ha : s.Asserts (s.client c)) :
    (s'.stopReturned = true → s.stopReturned = true ∨ s.state = .finished) ∧
    (s'.stopNowReturned = true → s.stopNowReturned = true ∨ ∀ i, (s.threads i).thread.state = .finished) := by
  cases h with
  | unlockState hpc => rw [hpc] at ha; exact ⟨fun _ => Or.inr ha, Or.inl⟩
  | stopNowReturned hc hpc =>
    rw [hc] at ha
    refine ⟨Or.inl, fun _ => Or.inr ?_⟩
    rcases hpc with rfl | rfl | rfl <;> exact ha
  | _ => exact ⟨Or.inl, Or.inl⟩

/-- A step of a call keeps every assertion. -/
theorem Outline.client (hi : Outline s) (h : ClientStep c s s') : Outline s' := by
  have hg := h.frame.grows
  have hothers := h.others
  have hnew := h.asserts (hi.asserts c)
  obtain ⟨h1, h2⟩ := h.returned (hi.asserts c)
  refine ⟨fun c' => ?_, fun hr => hg.state ((h1 hr).elim hi.stopReturned id),
    fun hr i => hg.threads i ((h2 hr).elim hi.stopNowReturned id i)⟩
  by_cases hc : c' = c
  · subst hc; exact hnew
  · rw [hothers c' hc]; exact (hi.asserts c').mono hg

omit [DecidableEq Cl] in
/-- A worker that has finished makes no step, and the others stay as they are. -/
theorem WorkerStep.grows {isEndTask : T → Bool} {i : Fin n} {e : Exit} (hi : Shape isEndTask s)
    (h : WorkerStep isEndTask i e s s') : Grows s s' := by
  refine ⟨fun hr => h.rest.2.2.2.2.1.trans hr, fun hf => ?_, fun j hj => ?_⟩
  · cases h with
    | last => rfl
    | thread | count | notLast => exact hf
  · by_cases hji : j = i
    · subst hji
      have := (hi j).finished.mp hj
      rw [h.present.2.1] at this
      cases this
    · rw [h.others j hji]; exact hj

theorem Reachable.outline {isEndTask : T → Bool} {ok : FixedThreadPool n Cl T → Action n Cl T → Prop}
    (h : (system n Cl isEndTask).Reachable ok s) : Outline s := by
  refine h.induct ⟨fun _ => trivial, by simp [system, new], by simp [system, new]⟩ fun s a s' hr _ hs hi => ?_
  -- while the constructor runs nobody is in a call
  have hctor : s.ctor ≠ .done → s'.client = s.client → s'.stopReturned = s.stopReturned →
      s'.stopNowReturned = s.stopNowReturned → Outline s' := by
    intro hc h1 h2 h3
    obtain ⟨hidle, -, h4, h5⟩ := Reachable.quiet hr hc
    exact ⟨fun c => by rw [h1, hidle c]; trivial, fun h => by simp [h2, h4] at h, fun h => by simp [h3, h5] at h⟩
  cases step_cases hs with
  | start hk hc => exact hctor (by simp [hc]) rfl rfl rfl
  | started hc hk => exact hctor (by simp [hc]) rfl rfl rfl
  | constructed hc => exact hctor (by simp [hc]) rfl rfl rfl
  | @call c m hc hidle =>
    refine ⟨fun c' => ?_, hi.stopReturned, hi.stopNowReturned⟩
    by_cases hcc : c' = c
    · subst hcc; cases m <;> simp [goto, Method.start, Asserts]
    · have : (s.goto c m.start).Asserts (s.client c') := (hi.asserts c').mono ⟨id, id, fun _ => id⟩
      simpa [goto, hcc] using this
  | client hidle hs => exact hi.client hs
  | worker hs =>
    obtain ⟨-, h1, -, -, -, -, -, -, h2, h3, -⟩ := hs.rest
    exact hi.grow (hs.grows (Reachable.shape hr)) h1 h2 h3
  | timer htm hs => exact hi.grow hs.frame.grows hs.client (by cases hs <;> rfl) (by cases hs <;> rfl)
  | wake w => exact hi.grow (wakeStep_frame w).grows (by cases w <;> rfl) (by cases w <;> rfl) (by cases w <;> rfl)

end Outline

/-! ## The push loop of `StopAsync` -/

/-- How many `EndTask`s the winner of the compare-and-set has pushed. -/
def ClientPC.pushing : ClientPC T → Option Nat
  | .timerStarted _ | .timerCancelAsync _ | .timerClear _ => some 0
  | .pushEndTask _ i => some i
  | _ => none

/-- How many of the pool's own `EndTask`s were pushed. -/
def endsPushed (s : FixedThreadPool n Cl T) : Nat := s.taskQueue.pushes.countP Item.isStop

/-- No stop was requested; or one client has won and is pushing; or it has pushed all. -/
inductive Winning (s : FixedThreadPool n Cl T) : Prop
  | nobody (_ : s.isRequestStop = false) (_ : s.endsPushed = 0) (_ : s.endTasksPushed = false)
      (_ : ∀ c, (s.client c).pushing = none)
  | pushing (c : Cl) (i : Nat) (_ : s.isRequestStop = true) (_ : s.endsPushed = i) (_ : s.endTasksPushed = false)
      (_ : i ≤ n) (_ : (s.client c).pushing = some i) (_ : ∀ c' ≠ c, (s.client c').pushing = none)
  | pushed (_ : s.isRequestStop = true) (_ : s.endsPushed = n) (_ : s.endTasksPushed = true)
      (_ : ∀ c, (s.client c).pushing = none)

/-- What a step of a call does to the push loop: nothing; it enters it as the winner; it pushes one; it leaves it. -/
inductive PushStep (c : Cl) (s s' : FixedThreadPool n Cl T) : Prop
  | same (_ : s'.isRequestStop = s.isRequestStop) (_ : s'.endsPushed = s.endsPushed)
      (_ : s'.endTasksPushed = s.endTasksPushed) (_ : (s'.client c).pushing = (s.client c).pushing)
  | win (_ : s.isRequestStop = false) (_ : s'.isRequestStop = true) (_ : s'.endsPushed = s.endsPushed)
      (_ : s'.endTasksPushed = s.endTasksPushed) (_ : (s'.client c).pushing = some 0)
  | push (i : Nat) (_ : (s.client c).pushing = some i) (_ : i < n) (_ : s'.isRequestStop = s.isRequestStop)
      (_ : s'.endsPushed = s.endsPushed + 1) (_ : s'.endTasksPushed = s.endTasksPushed)
      (_ : (s'.client c).pushing = some (i + 1))
  | leave (i : Nat) (_ : (s.client c).pushing = some i) (_ : n ≤ i) (_ : s'.isRequestStop = s.isRequestStop)
      (_ : s'.endsPushed = s.endsPushed) (_ : s'.endTasksPushed = true) (_ : (s'.client c).pushing = none)

section Winning

variable {s s' : FixedThreadPool n Cl T}

theorem pushing_afterAsync (k : Stopper) : (k.afterAsync : ClientPC T).pushing = none := by cases k <;> rfl

theorem Silent.pushing {pc pc' : ClientPC T} (h : Silent s pc pc') : pc'.pushing = pc.pushing := by
  cases h with
  | lost => exact pushing_afterAsync _
  | threadFinished _ hpc | timerFinished hpc => rcases hpc with rfl | rfl <;> rfl
  | _ => rfl

variable [DecidableEq Cl] [DecidableEq T] {c : Cl}

theorem ClientStep.pushStep (h : ClientStep c s s') : PushStep c s s' := by
  have same : ∀ {pc pc'}, s.client c = pc → s'.client c = pc' → pc'.pushing = pc.pushing →
      (s'.client c).pushing = (s.client c).pushing := by
    rintro pc pc' rfl rfl h
    exact h
  cases h with
  | silent hpc hs => exact .same rfl rfl rfl (same hpc (Function.update_self ..) hs.pushing)
  | push hpc =>
    refine .same rfl ?_ rfl (same hpc (Function.update_self ..) rfl)
    simp [endsPushed, TaskQueue.push, Item.isStop]
  | makeTimer hpc | setInterval hpc | pushTask hpc => exact .same rfl rfl rfl (same hpc (Function.update_self ..) rfl)
  | setDeadline hpc _ hpc' =>
    rcases hpc' with rfl | ⟨_, rfl⟩ <;> exact .same rfl rfl rfl (same hpc (Function.update_self ..) rfl)
  | win hpc hr => exact .win hr rfl rfl rfl (by simp [goto, ClientPC.pushing])
  | @pushEndTask k j hpc hj =>
    refine .push j (by rw [hpc]; rfl) hj rfl ?_ rfl (by simp [goto, ClientPC.pushing])
    simp [endsPushed, TaskQueue.push, Item.isStop, List.countP_append]
  | @pushedAll k j hpc hj =>
    exact .leave j (by rw [hpc]; rfl) hj rfl rfl rfl (by simp [goto, pushing_afterAsync])
  | finished hpc | join hpc | waitThread _ hpc | waitTimer _ hpc =>
    rcases hpc with hpc | ⟨hpc, -⟩ <;> exact .same rfl rfl rfl (same hpc (Function.update_self ..) rfl)
  | unlockState hpc | lockRunningTask _ hpc | cancelRunningTask _ hpc | cancelTask hpc =>
    exact .same rfl rfl rfl (same hpc (Function.update_self ..) rfl)
  | cancelThread _ hpc | clearTimer _ _ hpc =>
    rcases hpc with ⟨hpc, rfl⟩ | ⟨hpc, rfl⟩ <;> exact .same rfl rfl rfl (same hpc (Function.update_self ..) rfl)
  | cancelTimer _ hpc =>
    rcases hpc with ⟨hpc, rfl⟩ | ⟨hpc, rfl⟩ | ⟨hpc, rfl⟩ <;>
      exact .same rfl rfl rfl (same hpc (Function.update_self ..) rfl)
  | @unlockRunningTask j raised _ hpc =>
    cases raised <;> exact .same rfl rfl rfl (same hpc (Function.update_self ..) rfl)
  | stopNowReturned hc hpc =>
    rcases hpc with rfl | rfl | rfl <;> exact .same rfl rfl rfl (same hc (Function.update_self ..) rfl)

omit [DecidableEq Cl] [DecidableEq T] in
/-- Who is not in a call that pushes moves nothing. -/
theorem Winning.frame (hi : Winning s) (hc : ∀ c, (s'.client c).pushing = (s.client c).pushing)
    (h1 : s'.isRequestStop = s.isRequestStop) (h2 : s'.endsPushed = s.endsPushed)
    (h3 : s'.endTasksPushed = s.endTasksPushed) : Winning s' := by
  cases hi with
  | nobody h4 h5 h6 h7 => exact .nobody (h1.trans h4) (h2.trans h5) (h3.trans h6) fun c => (hc c).trans (h7 c)
  | pushing c i h4 h5 h6 h7 h8 h9 =>
    exact .pushing c i (h1.trans h4) (h2.trans h5) (h3.trans h6) h7 ((hc c).trans h8) fun c' h =>
      (hc c').trans (h9 c' h)
  | pushed h4 h5 h6 h7 => exact .pushed (h1.trans h4) (h2.trans h5) (h3.trans h6) fun c => (hc c).trans (h7 c)

omit [DecidableEq T] in
/-- One winner at a time, and it pushes `n`. -/
theorem Winning.client (hi : Winning s) (h : PushStep c s s') (hothers : ∀ c' ≠ c, s'.client c' = s.client c') :
    Winning s' := by
  have hpush : ∀ {c' : Cl}, c' ≠ c → (s'.client c').pushing = (s.client c').pushing := fun hc => by rw [hothers _ hc]
  cases h with
  | same h1 h2 h3 h4 =>
    refine hi.frame (fun c' => ?_) h1 h2 h3
    by_cases hc : c' = c
    · subst hc; exact h4
    · exact hpush hc
  | win h0 h1 h2 h3 h4 =>
    cases hi with
    | nobody h5 h6 h7 h8 =>
      exact .pushing c 0 h1 (h2.trans h6) (h3.trans h7) (Nat.zero_le _) h4 fun c' hc => (hpush hc).trans (h8 c')
    | pushing _ _ h5 => rw [h0] at h5; cases h5
    | pushed h5 => rw [h0] at h5; cases h5
  | push i h0 hlt h1 h2 h3 h4 =>
    cases hi with
    | nobody _ _ _ h8 => rw [h8] at h0; cases h0
    | pushed _ _ _ h8 => rw [h8] at h0; cases h0
    | pushing c' i' h5 h6 h7 h8 h9 h10 =>
      have hcc : c = c' := by
        by_contra hne
        rw [h10 c hne] at h0
        cases h0
      subst hcc
      rw [h9] at h0
      cases h0
      exact .pushing c (i + 1) (h1.trans h5) (by rw [h2, h6]) (h3.trans h7) hlt h4 fun c' hc =>
        (hpush hc).trans (h10 c' hc)
  | leave i h0 hle h1 h2 h3 h4 =>
    cases hi with
    | nobody _ _ _ h8 => rw [h8] at h0; cases h0
    | pushed _ _ _ h8 => rw [h8] at h0; cases h0
    | pushing c' i' h5 h6 h7 h8 h9 h10 =>
      have hcc : c = c' := by
        by_contra hne
        rw [h10 c hne] at h0
        cases h0
      subst hcc
      rw [h9] at h0
      cases h0
      refine .pushed (h1.trans h5) (by rw [h2, h6]; omega) h3 fun c' => ?_
      by_cases hc : c' = c
      · subst hc; exact h4
      · exact (hpush hc).trans (h10 c' hc)

theorem Reachable.winning {isEndTask : T → Bool} {ok : FixedThreadPool n Cl T → Action n Cl T → Prop}
    (h : (system n Cl isEndTask).Reachable ok s) : Winning s := by
  refine h.induct (.nobody rfl rfl rfl fun _ => rfl) fun s a s' hr _ hs hi => ?_
  cases step_cases hs with
  | start hk hc => exact hi.frame (fun _ => rfl) rfl rfl rfl
  | started hc hk => exact hi.frame (fun _ => rfl) rfl rfl rfl
  | constructed hc => exact hi.frame (fun _ => rfl) rfl rfl rfl
  | @call c m hc hidle =>
    refine hi.frame (fun c' => ?_) rfl rfl rfl
    by_cases hcc : c' = c
    · subst hcc; rw [hidle]; cases m <;> simp [goto, Method.start, ClientPC.pushing]
    · simp [goto, hcc]
  | client hidle hs => exact hi.client hs.pushStep hs.others
  | worker hs =>
    obtain ⟨-, h1, -, -, h2, -, h3, -, -, -, h4⟩ := hs.rest
    exact hi.frame (fun _ => by rw [h1]) h2 (by rw [endsPushed, h4]; rfl) h3
  | timer htm hs =>
    refine hi.frame (fun _ => by rw [hs.client]) ?_ ?_ ?_
    · cases hs <;> rfl
    · cases hs with
      | push => simp [endsPushed, TaskQueue.push, Item.isStop]
      | _ => rfl
    · cases hs <;> rfl
  | wake w => cases w <;> exact hi.frame (fun _ => rfl) rfl rfl rfl

end Winning

end Tpool.FixedThreadPool
