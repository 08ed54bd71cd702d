import Tpool.Concurrency.System
import Tpool.Task.TaskBase
import Tpool.Thread.CancelableThread

/-!
# A thread from its start to its end

- `Running`: a `CancelableThread` with its work function and its finish action, where it is in `ThreadFunction`, and the
  clients that call `Cancel` and `CancelAsync`.
- `threadStep`: the work function and the finish action are points where the thread stays until the user's code is left.
  What leaves the work function is caught; what leaves the finish action is caught by the underlying `Thread` only.
- `FinishActionReturns`. `always_finishes`: then the finish action is run once, and the thread is finished when it has
  terminated. `never_finishes`: a finish action that throws leaves the thread running for ever. `finish_action_throws`.
-/

namespace Tpool

open Concurrency

namespace CancelableThread

/-- Where the thread is. -/
inductive PC
  | setRunning
  | checkCancellation
  | workFunction
  | checkFinishAction
  | finishAction
  | notifyFinished
  | terminated
  deriving DecidableEq

/-- The work function has ended, and the finish action was started if there is one. -/
def PC.finishing : PC → Bool
  | .finishAction | .notifyFinished | .terminated => true
  | _ => false

/-- Where a client is in `Cancel`, or in `CancelAsync`. -/
inductive ClientPC
  | idle
  | setFlag (async : Bool)
  | wait
  | blocked
  deriving DecidableEq

/-- It has asked for the end of the thread and waits for it. -/
def ClientPC.waits : ClientPC → Bool
  | .wait | .blocked => true
  | _ => false

/-- A thread that was constructed with a finish action or without; `workStarts` and `finishStarts` record how often its
work function and its finish action were started. -/
structure Running (Cl : Type*) where
  thread : CancelableThread Cl
  hasFinishAction : Bool
  pc : PC
  client : Cl → ClientPC
  workStarts : Nat
  finishStarts : Nat

namespace Running

variable {Cl : Type*}

/-- The thread has just been constructed. -/
def new (Cl : Type*) (hasFinishAction : Bool) : Running Cl := ⟨.new, hasFinishAction, .setRunning, fun _ => .idle, 0, 0⟩

inductive Action (Cl : Type*)
  | thread (e : Exit)
  | call (c : Cl) (async : Bool)
  | client (c : Cl)
  | wake (c : Cl)

section Step

variable [DecidableEq Cl] (s : Running Cl)

/-- One step of the thread; `e` is how the user's code is left. -/
def threadStep (e : Exit) : Option (Running Cl) := match s.pc with
  | .setRunning => some { s with thread := s.thread.setRunning, pc := .checkCancellation }
  | .checkCancellation =>
    some (if s.thread.isRequestCancel then { s with pc := .checkFinishAction }
      else { s with pc := .workFunction, workStarts := s.workStarts + 1 })
  -- however the work function is left
  | .workFunction => some { s with pc := .checkFinishAction }
  | .checkFinishAction =>
    some (if s.hasFinishAction then { s with pc := .finishAction, finishStarts := s.finishStarts + 1 }
      else { s with pc := .notifyFinished })
  -- caught in Thread::ThreadFunction
  | .finishAction => some { s with pc := if e = .ret then .notifyFinished else .terminated }
  | .notifyFinished => some { s with thread := s.thread.notifyFinished, pc := .terminated }
  | .terminated => none

/-- `c` reads the state in `Cancel`. -/
def awaitFinished (c : Cl) : Running Cl :=
  { s with
    thread := (s.thread.awaitFinished c).1
    client := Function.update s.client c (if (s.thread.awaitFinished c).2 then .idle else .blocked) }

/-- One step of the call of `c`. -/
def clientStep (c : Cl) : Option (Running Cl) := match s.client c with
  | .idle => none
  | .setFlag async =>
    some { s with
      thread := s.thread.cancelAsync
      client := Function.update s.client c (if async then .idle else .wait) }
  | .wait => some (s.awaitFinished c)
  | .blocked => if c ∈ s.thread.waiters then none else some (s.awaitFinished c)

def step : Action Cl → Option (Running Cl)
  | .thread e => s.threadStep e
  | .call c async =>
    if s.client c = .idle then some { s with client := Function.update s.client c (.setFlag async) } else none
  | .client c => s.clientStep c
  | .wake c => some { s with thread := s.thread.wake c }

end Step

/-- A thread and any number of clients. -/
def system (Cl : Type*) [DecidableEq Cl] (hasFinishAction : Bool) : System (Running Cl) (Action Cl) :=
  ⟨new Cl hasFinishAction, step⟩

/-- Nothing is thrown out of the finish action. -/
def FinishActionReturns (s : Running Cl) : Action Cl → Prop
  | .thread e => s.pc = .finishAction → e = .ret
  | _ => True

variable {b : Bool} {s s' : Running Cl} {e : Exit}

/-- A step of the thread, by what it does. -/
inductive ThreadStep (e : Exit) (s : Running Cl) : Running Cl → Prop
  | setRunning : s.pc = .setRunning → ThreadStep e s { s with thread := s.thread.setRunning, pc := .checkCancellation }
  | cancelled : s.pc = .checkCancellation → s.thread.isRequestCancel = true →
      ThreadStep e s { s with pc := .checkFinishAction }
  | workStarts : s.pc = .checkCancellation → s.thread.isRequestCancel = false →
      ThreadStep e s { s with pc := .workFunction, workStarts := s.workStarts + 1 }
  | workEnds : s.pc = .workFunction → ThreadStep e s { s with pc := .checkFinishAction }
  | finishStarts : s.pc = .checkFinishAction → s.hasFinishAction = true →
      ThreadStep e s { s with pc := .finishAction, finishStarts := s.finishStarts + 1 }
  | noFinishAction : s.pc = .checkFinishAction → s.hasFinishAction = false →
      ThreadStep e s { s with pc := .notifyFinished }
  | finishReturns : s.pc = .finishAction → e = .ret → ThreadStep e s { s with pc := .notifyFinished }
  | finishThrows : s.pc = .finishAction → e ≠ .ret → ThreadStep e s { s with pc := .terminated }
  | notifyFinished : s.pc = .notifyFinished →
      ThreadStep e s { s with thread := s.thread.notifyFinished, pc := .terminated }

theorem threadStep_cases (h : s.threadStep e = some s') : ThreadStep e s s' := by
  cases hpc : s.pc with
  | setRunning => simp only [threadStep, hpc, Option.some.injEq] at h; subst h; exact .setRunning hpc
  | checkCancellation =>
    simp only [threadStep, hpc, Option.some.injEq] at h
    split at h <;> subst h
    · exact .cancelled hpc ‹_›
    · exact .workStarts hpc (by simpa using ‹¬ s.thread.isRequestCancel = true›)
  | workFunction => simp only [threadStep, hpc, Option.some.injEq] at h; subst h; exact .workEnds hpc
  | checkFinishAction =>
    simp only [threadStep, hpc, Option.some.injEq] at h
    split at h <;> subst h
    · exact .finishStarts hpc ‹_›
    · exact .noFinishAction hpc (by simpa using ‹¬ s.hasFinishAction = true›)
  | finishAction =>
    simp only [threadStep, hpc, Option.some.injEq] at h
    split at h <;> subst h
    · exact .finishReturns hpc ‹_›
    · exact .finishThrows hpc ‹_›
  | notifyFinished => simp only [threadStep, hpc, Option.some.injEq] at h; subst h; exact .notifyFinished hpc
  | terminated => simp [threadStep, hpc] at h

/-! ## The order of the points -/

section Ordered

/-- The finish action was started once if the thread has got there, and the state is not final before the end. -/
structure Ordered (b : Bool) (s : Running Cl) : Prop where
  hasFinishAction : s.hasFinishAction = b
  starts : s.finishStarts = if s.pc.finishing then b.toNat else 0
  state : s.thread.state = .finished → s.pc = .terminated

theorem Ordered.threadStep (hi : Ordered b s) (h : ThreadStep e s s') : Ordered b s' := by
  have hstarts := hi.starts
  have hstate : s.pc ≠ .terminated → s.thread.state ≠ .finished := fun hpc h => hpc (hi.state h)
  cases h with
  | setRunning hpc =>
    rw [hpc] at hstarts
    exact ⟨hi.hasFinishAction, hstarts, by simp [CancelableThread.setRunning]⟩
  | cancelled hpc | workStarts hpc | workEnds hpc =>
    rw [hpc] at hstarts
    exact ⟨hi.hasFinishAction, hstarts, fun h => absurd h (hstate (by simp [hpc]))⟩
  | finishStarts hpc hb =>
    rw [hpc] at hstarts
    refine ⟨hi.hasFinishAction, ?_, fun h => absurd h (hstate (by simp [hpc]))⟩
    rw [← hi.hasFinishAction, hb]
    simp [hstarts, PC.finishing]
  | noFinishAction hpc hb =>
    rw [hpc] at hstarts
    refine ⟨hi.hasFinishAction, ?_, fun h => absurd h (hstate (by simp [hpc]))⟩
    rw [← hi.hasFinishAction, hb]
    simp [hstarts, PC.finishing]
  | finishReturns hpc =>
    rw [hpc] at hstarts
    exact ⟨hi.hasFinishAction, hstarts, fun h => absurd h (hstate (by simp [hpc]))⟩
  | finishThrows hpc | notifyFinished hpc =>
    rw [hpc] at hstarts
    exact ⟨hi.hasFinishAction, hstarts, fun _ => rfl⟩

variable [DecidableEq Cl] {c : Cl}

/-- A client leaves the thread where it is. -/
theorem clientStep_frame (h : s.clientStep c = some s') : s'.hasFinishAction = s.hasFinishAction ∧ s'.pc = s.pc ∧
    s'.finishStarts = s.finishStarts ∧ s'.thread.state = s.thread.state := by
  cases hpc : s.client c with
  | idle => simp [clientStep, hpc] at h
  | setFlag async => simp only [clientStep, hpc, Option.some.injEq] at h; subst h; exact ⟨rfl, rfl, rfl, rfl⟩
  | wait =>
    simp only [clientStep, hpc, Option.some.injEq] at h
    subst h
    exact ⟨rfl, rfl, rfl, awaitFinished_state _ _⟩
  | blocked =>
    simp only [clientStep, hpc] at h
    split at h <;> cases h
    exact ⟨rfl, rfl, rfl, awaitFinished_state _ _⟩

theorem Reachable.ordered {ok : Running Cl → Action Cl → Prop} (h : (system Cl b).Reachable ok s) : Ordered b s := by
  refine h.induct (I := Ordered b) ?_ ?_
  · exact ⟨rfl, rfl, by simp [system, new, CancelableThread.new]⟩
  · intro s a s' _ _ hs hi
    cases a with
    | thread e => exact hi.threadStep (threadStep_cases hs)
    | call c async =>
      simp only [system, step] at hs
      split at hs <;> cases hs
      exact ⟨hi.hasFinishAction, hi.starts, hi.state⟩
    | client c =>
      obtain ⟨hb, hpc, hstarts, hstate⟩ := clientStep_frame hs
      exact ⟨hb.trans hi.hasFinishAction, by rw [hstarts, hpc]; exact hi.starts, by rw [hstate, hpc]; exact hi.state⟩
    | wake c => cases hs; exact ⟨hi.hasFinishAction, hi.starts, hi.state⟩

end Ordered

/-! ## The end -/

section Finishes

/-- The thread is finished when it has terminated; who waits for that has asked for it, and has been notified. -/
def Finishes (s : Running Cl) : Prop :=
  s.thread.Awaited (s.pc = .terminated) (fun c => (s.client c).waits = true) fun c => s.client c = .blocked

theorem Finishes.threadStep (hi : Finishes s) (hok : s.pc = .finishAction → e = .ret) (h : ThreadStep e s s') :
    Finishes s' := by
  cases h with
  | setRunning hpc => exact hi.setRunning (by simp)
  | cancelled hpc | workStarts hpc | workEnds hpc | finishStarts hpc | noFinishAction hpc | finishReturns hpc =>
    exact hi.frame (by simp [hpc]) (fun _ => id) fun _ => id
  | finishThrows hpc he => exact absurd (hok hpc) he
  | notifyFinished hpc => exact hi.notifyFinished rfl fun c hc => by rw [hc]; rfl

variable [DecidableEq Cl] {c : Cl}

theorem Finishes.clientStep (hi : Finishes s) (h : s.clientStep c = some s') : Finishes s' := by
  have hawait : (s.client c).waits = true → Finishes (s.awaitFinished c) := by
    intro hc
    refine hi.awaitFinished hc ?_ ?_
    · intro d hdc hd
      exact (Function.update_of_ne hdc _ _).trans hd
    · intro hf
      simp [Running.awaitFinished, CancelableThread.awaitFinished, hf]
  cases hpc : s.client c with
  | idle => simp [Running.clientStep, hpc] at h
  | setFlag async =>
    simp only [Running.clientStep, hpc, Option.some.injEq] at h
    subst h
    refine hi.cancelAsync ?_
    intro d hd
    have hdc : d ≠ c := by
      rintro rfl
      rw [hd] at hpc
      cases hpc
    exact (Function.update_of_ne hdc _ _).trans hd
  | wait =>
    simp only [Running.clientStep, hpc, Option.some.injEq] at h
    subst h
    exact hawait (by rw [hpc]; rfl)
  | blocked =>
    simp only [Running.clientStep, hpc] at h
    split at h <;> cases h
    exact hawait (by rw [hpc]; rfl)

theorem Reachable.finishes (h : (system Cl b).Reachable FinishActionReturns s) : Finishes s := by
  refine h.induct (I := Finishes) ?_ ?_
  · exact CancelableThread.Awaited.new.frame (by simp [system, new]) (by simp [system, new, ClientPC.waits])
      fun _ => False.elim
  · intro s a s' _ hok hs hi
    cases a with
    | thread e => exact hi.threadStep hok (threadStep_cases hs)
    | call c async =>
      simp only [system, step] at hs
      split at hs <;> cases hs
      rename_i hidle
      refine hi.frame Iff.rfl ?_ ?_
      · intro d hd
        replace hd : (Function.update s.client c (.setFlag async) d).waits = true := hd
        by_cases hdc : d = c
        · rw [hdc, Function.update_self] at hd
          cases hd
        · rwa [Function.update_of_ne hdc] at hd
      · intro d hd
        have hdc : d ≠ c := by
          rintro rfl
          rw [hidle] at hd
          cases hd
        exact (Function.update_of_ne hdc _ _).trans hd
    | client c => exact hi.clientStep hs
    | wake c => cases hs; exact hi.wake c

/-- **The thread always finishes**, if nothing is thrown out of its finish action: the finish action is started once,
after the work function and before the state is finished, and a thread that has terminated is finished, with nobody left
behind in `Cancel`. -/
theorem always_finishes (h : (system Cl b).Reachable FinishActionReturns s) : s.finishStarts ≤ b.toNat ∧
    (0 < s.finishStarts → s.pc.finishing = true) ∧ (s.thread.state = .finished → s.finishStarts = b.toNat) ∧
    (s.pc = .terminated → s.thread.state = .finished ∧ s.finishStarts = b.toNat ∧
      ∀ c, s.client c = .blocked → c ∉ s.thread.waiters) := by
  have ho := Reachable.ordered h
  have hf := Reachable.finishes h
  have hend : s.pc = .terminated → s.finishStarts = b.toNat := by
    intro hpc
    rw [ho.starts, hpc]
    rfl
  refine ⟨?_, ?_, fun hs => hend (ho.state hs), fun hpc => ⟨hf.state.mpr hpc, hend hpc, fun c _ => ?_⟩⟩
  · rw [ho.starts]
    split <;> simp
  · intro hpos
    by_contra hpc
    rw [ho.starts, if_neg hpc] at hpos
    exact absurd hpos (lt_irrefl 0)
  · rw [hf.notified hpc]
    simp

/-- A finish action that throws leaves the thread terminated and not finished, for ever. -/
theorem never_finishes (h : (system Cl b).Reachable Anything s) (hpc : s.pc = .finishAction) (he : e ≠ .ret)
    (hs : (system Cl b).step s (.thread e) = some s') :
    ∀ u, (system Cl b).Reaches Anything s' u → u.pc = .terminated ∧ u.thread.state ≠ .finished := by
  intro u hu
  have hstate : s.thread.state ≠ .finished := by
    intro hfin
    have := (Reachable.ordered h).state hfin
    rw [hpc] at this
    cases this
  have hs' : s' = { s with pc := .terminated } := by
    simpa [system, step, Running.threadStep, hpc, he] using hs.symm
  subst hs'
  refine hu.keeps (I := fun u => u.pc = .terminated ∧ u.thread.state ≠ .finished) ?_ ⟨rfl, hstate⟩
  rintro u a u' - hs ⟨hpc, hstate⟩
  cases a with
  | thread e => simp [system, step, Running.threadStep, hpc] at hs
  | call c async =>
    simp only [system, step] at hs
    split at hs <;> cases hs
    exact ⟨hpc, hstate⟩
  | client c =>
    obtain ⟨-, hpc', -, hstate'⟩ := clientStep_frame hs
    exact ⟨hpc'.trans hpc, by rwa [hstate']⟩
  | wake c => cases hs; exact ⟨hpc, hstate⟩

end Finishes

instance (s : Running Cl) (a : Action Cl) : Decidable (FinishActionReturns s a) := match a with
  | .thread e => inferInstanceAs (Decidable (s.pc = .finishAction → e = .ret))
  | .call _ _ | .client _ | .wake _ => isTrue trivial

/-- A work function that throws, and a client that waits. -/
theorem always_finishes_run : ∃ s : Running Unit, s.pc = .terminated ∧ s.workStarts = 1 ∧ s.thread.state = .finished ∧
    s.finishStarts = 1 := by
  obtain ⟨s, hs, hp⟩ := System.reachable_of_exec (system Unit true) FinishActionReturns
    ([.thread .ret, .thread .ret, .call () false, .client (), .client ()] ++ [.thread .other] ++
      List.replicate 3 (.thread .ret))
    (fun s => s.pc == .terminated && s.workStarts == 1) (by decide)
  obtain ⟨hpc, hwork⟩ := by simpa only [Bool.and_eq_true, beq_iff_eq] using hp
  obtain ⟨hstate, hstarts, -⟩ := (always_finishes hs).2.2.2 hpc
  exact ⟨s, hpc, hwork, hstate, hstarts⟩

/-- **A finish action that throws is not caught**: the thread terminates in the state running, with a client in
`Cancel`. -/
theorem finish_action_throws : ∃ s : Running Unit, (system Unit true).Reachable Anything s ∧ s.pc = .terminated ∧
    s.thread.state = .running ∧ s.client () = .blocked ∧ () ∈ s.thread.waiters := by
  obtain ⟨s, hs, hp⟩ := System.reachable_of_exec (system Unit true) Anything
    ([.thread .ret, .thread .ret, .call () false, .client (), .client (), .thread .ret, .thread .ret, .thread .other])
    (fun s => s.pc == .terminated && (s.thread.state == .running && (s.client () == .blocked &&
      decide (() ∈ s.thread.waiters)))) (by decide)
  simp only [Bool.and_eq_true, beq_iff_eq, decide_eq_true_eq] at hp
  exact ⟨s, hs, hp⟩

end Running

end CancelableThread

end Tpool
