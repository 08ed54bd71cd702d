import Mathlib.Data.Finset.Basic

/-!
# CancelableThread

- `CancelableThread`: the state, the cancel request, and who is blocked in `Cancel` and not notified. Where the thread
  is in `ThreadFunction` is kept by those who give it a work function.
- `awaitFinished`: the state read of `Cancel`, which returns or blocks.
- `Awaited`: who waits for the end of the thread has asked for it, and nobody is left behind when it comes.
- `Heeded`: what is left of it when it is not known who waits.
-/

namespace Tpool

inductive CancelableThread.State
  | init
  | running
  | finished
  deriving DecidableEq

/-- A thread that the clients `Cl` may cancel. -/
structure CancelableThread (Cl : Type*) where
  state : CancelableThread.State
  isRequestCancel : Bool
  waiters : Finset Cl

namespace CancelableThread

variable {Cl : Type*}

def new : CancelableThread Cl := ⟨.init, false, ∅⟩

def setRunning (t : CancelableThread Cl) : CancelableThread Cl := { t with state := .running }

def cancelAsync (t : CancelableThread Cl) : CancelableThread Cl := { t with isRequestCancel := true }

def notifyFinished (t : CancelableThread Cl) : CancelableThread Cl :=
  { t with state := .finished, waiters := if t.isRequestCancel then ∅ else t.waiters }

variable [DecidableEq Cl]

/-- `c` reads the state in `Cancel`: the thread is finished, or `c` blocks. -/
def awaitFinished (t : CancelableThread Cl) (c : Cl) : CancelableThread Cl × Bool :=
  if t.state = .finished then (t, true) else ({ t with waiters := insert c t.waiters }, false)

/-- `c` wakes by itself. -/
def wake (t : CancelableThread Cl) (c : Cl) : CancelableThread Cl := { t with waiters := t.waiters.erase c }

@[simp] theorem awaitFinished_state (t : CancelableThread Cl) (c : Cl) : (t.awaitFinished c).1.state = t.state := by
  unfold awaitFinished; split <;> rfl

@[simp] theorem awaitFinished_isRequestCancel (t : CancelableThread Cl) (c : Cl) :
    (t.awaitFinished c).1.isRequestCancel = t.isRequestCancel := by
  unfold awaitFinished; split <;> rfl

/-! ## Waiting for the end of the thread -/

section Awaited

/-- The state tells whether the thread is `over`; those who `ask` for its end have set the flag; those in the wait set
are `blocked`; and a thread that is over has notified everyone. -/
structure Awaited (t : CancelableThread Cl) (isOver : Prop) (asks blocked : Cl → Prop) : Prop where
  state : t.state = .finished ↔ isOver
  asks : ∀ c, asks c → t.isRequestCancel = true
  waiters : ∀ c ∈ t.waiters, blocked c
  notified : isOver → t.waiters = ∅

variable {t : CancelableThread Cl} {isOver isOver' : Prop} {asks asks' blocked blocked' : Cl → Prop} {c : Cl}

omit [DecidableEq Cl] in
theorem Awaited.new : Awaited (CancelableThread.new : CancelableThread Cl) False (fun _ => False) (fun _ => False) :=
  ⟨by simp [CancelableThread.new], by simp, by simp [CancelableThread.new], False.elim⟩

omit [DecidableEq Cl] in
/-- The thread is left as it is. -/
theorem Awaited.frame (hi : Awaited t isOver asks blocked) (ho : isOver' ↔ isOver) (ha : ∀ c, asks' c → asks c)
    (hb : ∀ c, blocked c → blocked' c) : Awaited t isOver' asks' blocked' :=
  ⟨hi.state.trans ho.symm, fun c hc => hi.asks c (ha c hc), fun c hc => hb c (hi.waiters c hc),
    fun h => hi.notified (ho.mp h)⟩

omit [DecidableEq Cl] in
theorem Awaited.setRunning (hi : Awaited t isOver asks blocked) (ho : ¬ isOver') :
    Awaited t.setRunning isOver' asks blocked :=
  ⟨by simp [CancelableThread.setRunning, ho], hi.asks, hi.waiters, fun h => absurd h ho⟩

omit [DecidableEq Cl] in
/-- The conditional notification leaves nobody behind, since only those who have asked are blocked. -/
theorem Awaited.notifyFinished (hi : Awaited t isOver asks blocked) (ho : isOver') (hb : ∀ c, blocked c → asks c) :
    Awaited t.notifyFinished isOver' asks blocked := by
  have hempty : t.notifyFinished.waiters = ∅ := by
    by_cases hf : t.isRequestCancel = true
    · simp [CancelableThread.notifyFinished, hf]
    · refine Finset.eq_empty_of_forall_notMem fun c hc => hf (hi.asks c (hb c (hi.waiters c ?_)))
      simpa [CancelableThread.notifyFinished, hf] using hc
  refine ⟨by simp [CancelableThread.notifyFinished, ho], hi.asks, ?_, fun _ => hempty⟩
  rw [hempty]
  simp

omit [DecidableEq Cl] in
theorem Awaited.cancelAsync (hi : Awaited t isOver asks blocked) (hb : ∀ c, blocked c → blocked' c) :
    Awaited t.cancelAsync isOver asks' blocked' :=
  ⟨hi.state, fun _ _ => rfl, fun c hc => hb c (hi.waiters c hc), hi.notified⟩

/-- `c`, which has asked, reads the state: it blocks only before the thread is over. -/
theorem Awaited.awaitFinished (hi : Awaited t isOver asks blocked) (hc : asks c)
    (hb : ∀ d, d ≠ c → blocked d → blocked' d) (hself : t.state ≠ .finished → blocked' c) :
    Awaited (t.awaitFinished c).1 isOver asks' blocked' := by
  have hflag := hi.asks c hc
  by_cases hf : t.state = .finished
  · have hempty := hi.notified (hi.state.mp hf)
    rw [show (t.awaitFinished c).1 = t by simp [CancelableThread.awaitFinished, hf]]
    exact ⟨hi.state, fun _ _ => hflag, by rw [hempty]; simp, hi.notified⟩
  · rw [show (t.awaitFinished c).1 = { t with waiters := insert c t.waiters } by
      simp [CancelableThread.awaitFinished, hf]]
    refine ⟨hi.state, fun _ _ => hflag, ?_, fun ho => absurd (hi.state.mpr ho) hf⟩
    intro d hd
    by_cases hdc : d = c
    · rw [hdc]
      exact hself hf
    · rcases Finset.mem_insert.mp hd with hd | hd
      · exact absurd hd hdc
      · exact hb d hdc (hi.waiters d hd)

theorem Awaited.wake (hi : Awaited t isOver asks blocked) (c : Cl) : Awaited (t.wake c) isOver asks blocked := by
  refine ⟨hi.state, hi.asks, fun d hd => hi.waiters d (Finset.mem_of_mem_erase hd), fun ho => ?_⟩
  simp [CancelableThread.wake, hi.notified ho]

end Awaited

/-! ## Waiting, whoever it is -/

section Heeded

/-- The state tells whether the thread is `over`; somebody is in the wait set only when the flag is set; and a thread
that is over has notified everyone. -/
structure Heeded (t : CancelableThread Cl) (isOver : Prop) : Prop where
  state : t.state = .finished ↔ isOver
  asked : t.waiters.Nonempty → t.isRequestCancel = true
  notified : isOver → t.waiters = ∅

variable {t : CancelableThread Cl} {isOver isOver' : Prop} {c : Cl}

omit [DecidableEq Cl] in
theorem Heeded.new : Heeded (CancelableThread.new : CancelableThread Cl) False :=
  ⟨by simp [CancelableThread.new], by simp [CancelableThread.new], False.elim⟩

omit [DecidableEq Cl] in
theorem Heeded.setRunning (hi : Heeded t isOver) (ho : ¬ isOver') : Heeded t.setRunning isOver' :=
  ⟨by simp [CancelableThread.setRunning, ho], hi.asked, fun h => absurd h ho⟩

omit [DecidableEq Cl] in
theorem Heeded.notifyFinished (hi : Heeded t isOver) (ho : isOver') : Heeded t.notifyFinished isOver' := by
  have hempty : t.notifyFinished.waiters = ∅ := by
    by_cases hf : t.isRequestCancel = true
    · simp [CancelableThread.notifyFinished, hf]
    · have := Finset.not_nonempty_iff_eq_empty.mp fun h => hf (hi.asked h)
      simp [CancelableThread.notifyFinished, this]
  exact ⟨by simp [CancelableThread.notifyFinished, ho], by simp [hempty], fun _ => hempty⟩

omit [DecidableEq Cl] in
theorem Heeded.cancelAsync (hi : Heeded t isOver) : Heeded t.cancelAsync isOver :=
  ⟨hi.state, fun _ => rfl, hi.notified⟩

/-- One that has asked reads the state, and blocks only before the thread is over. -/
theorem Heeded.awaitFinished (hi : Heeded t isOver) (hflag : t.isRequestCancel = true) :
    Heeded (t.awaitFinished c).1 isOver := by
  refine ⟨by rw [awaitFinished_state]; exact hi.state, fun _ => by
      rw [awaitFinished_isRequestCancel, hflag], fun ho => ?_⟩
  rw [show (t.awaitFinished c).1 = t by simp [CancelableThread.awaitFinished, hi.state.mpr ho]]
  exact hi.notified ho

theorem Heeded.wake (hi : Heeded t isOver) (c : Cl) : Heeded (t.wake c) isOver :=
  ⟨hi.state, fun h => hi.asked (h.mono (Finset.erase_subset _ _)), fun ho => by
    simp [CancelableThread.wake, hi.notified ho]⟩

end Heeded

end CancelableThread

end Tpool
