import Mathlib.Data.Fintype.Basic
import Tpool.Concurrency.Observe
import Tpool.Task.Barrier

/-!
# Who waits in Cancel is woken

- `Threads.Publishes`: the task has stopped, or some `Run` is still going to write that it has. `Threads.Notifies`:
  nobody waits for a stopped task, or some `Run` is still going to notify.
- `Harmless`: an exception leaves `Run` only where the other threads still do what this `Run` leaves undone.
- `run_ends_task`: in the runs of harmless steps, a `Run` that has ended leaves the task stopped, with nobody waiting.
  `escape_loses`: one step that is not harmless leaves it running, or a waiter behind.
- `no_lost_cancel`: when `DoRun` and `OnCancel` leave as `Run` expects, nobody waits for a stopped task, and a `Run`
  that starts after a `CancelAsync` takes the course of a cancelled one (`cancelCourse`).
-/

namespace Tpool.TaskBase

open Concurrency

variable {Tid : Type*}

/-- `Run` is going to write that the task has stopped. -/
def RunPC.publishes : RunPC → Bool
  | .checkCancellation | .setRunning | .doRun | .setFinished | .setCancelled => true
  | .onCancel | .notify | .ret | .raised => false

/-- `Run` is going to get to its notification. -/
def RunPC.notifies : RunPC → Bool
  | .ret | .raised => false
  | _ => true

/-- User code is left by an exception that `Run` does not catch. -/
def RunPC.escapes : RunPC → Exit → Bool
  | .doRun, .other | .onCancel, .cancel | .onCancel, .other => true
  | _, _ => false

def PC.publishes : PC → Bool
  | .run p => p.publishes
  | _ => false

def PC.notifies : PC → Bool
  | .run p => p.notifies
  | _ => false

def PC.escapes : PC → Exit → Bool
  | .run p, e => p.escapes e
  | _, _ => false

theorem RunPC.notifies_of_publishes {p : RunPC} (h : p.publishes = true) : p.notifies = true := by
  cases p <;> simp_all [publishes, notifies]

/-- What leaves `Run` escapes from the user's code. -/
theorem run_escapes {b b' : TaskBase Tid} {p : RunPC} {e : Exit} (h : b.run p e = some (b', .raised)) :
    p.escapes e = true := by
  rcases run_raised h with ⟨rfl, rfl⟩ | ⟨rfl, he⟩
  · rfl
  · cases e with
    | ret => exact absurd rfl he
    | cancel | other => rfl

/-- A step of `Run` goes on to publish, has published, leaves the state as it was, or lets an exception out. -/
theorem run_publishes {b b' : TaskBase Tid} {p p' : RunPC} {e : Exit} (h : b.run p e = some (b', p')) :
    p'.publishes = true ∨ b'.isStopState = true ∨ (p.publishes = false ∧ b'.state = b.state) ∨ p.escapes e = true := by
  rcases run_cases h with ⟨-, -, rfl⟩ | ⟨-, rfl, -⟩ | ⟨-, rfl, -⟩ | ⟨rfl, rfl, -⟩ |
    ⟨rfl, ⟨-, rfl⟩ | ⟨-, rfl | ⟨rfl, -⟩ | rfl⟩ | ⟨rfl, -⟩⟩
  · exact Or.inl rfl
  · exact Or.inr (Or.inl rfl)
  · exact Or.inr (Or.inl rfl)
  · exact Or.inr (Or.inr (Or.inl ⟨rfl, rfl⟩))
  · left; split <;> rfl
  · exact Or.inl rfl
  · exact Or.inl rfl
  · exact Or.inr (Or.inr (Or.inr (run_escapes h)))
  · exact Or.inr (Or.inr (Or.inl ⟨rfl, rfl⟩))

/-- A step of `Run` goes on to notify, has notified, or lets an exception out. -/
theorem run_notifies {b b' : TaskBase Tid} {p p' : RunPC} {e : Exit} (h : b.run p e = some (b', p')) :
    p'.notifies = true ∨ (b.isRequestCancel = true → b'.waiters = ∅) ∨ p.escapes e = true := by
  rcases run_cases h with ⟨-, -, rfl⟩ | ⟨-, -, rfl⟩ | ⟨-, -, rfl⟩ | ⟨-, rfl, -⟩ |
    ⟨rfl, ⟨-, rfl⟩ | ⟨-, rfl | ⟨rfl, -⟩ | rfl⟩ | ⟨-, rfl | rfl⟩⟩
  · exact Or.inl rfl
  · exact Or.inl rfl
  · exact Or.inl rfl
  · right; left
    intro hf
    simp [hf]
  · left; split <;> rfl
  · exact Or.inl rfl
  · exact Or.inl rfl
  · exact Or.inr (Or.inr (run_escapes h))
  · exact Or.inl rfl
  · exact Or.inr (Or.inr (run_escapes h))

/-- An escaping exception changes nothing in the task. -/
theorem run_of_escapes {b b' : TaskBase Tid} {p p' : RunPC} {e : Exit} (h : b.run p e = some (b', p'))
    (he : p.escapes e = true) : b' = b ∧ p' = .raised := by
  cases p <;> cases e <;> simp_all [RunPC.escapes, run]

theorem run_waiters {b b' : TaskBase Tid} {p p' : RunPC} {e : Exit} (h : b.run p e = some (b', p')) :
    b'.waiters ⊆ b.waiters := by
  intro u hu
  rcases run_cases h with ⟨-, rfl, -⟩ | ⟨-, rfl, -⟩ | ⟨-, rfl, -⟩ | ⟨-, rfl, -⟩ | ⟨rfl, -⟩
  · exact hu
  · exact hu
  · exact hu
  · simp only at hu
    split at hu
    · simp at hu
    · exact hu
  · exact hu

/-! ## Runs of harmless steps -/

/-- No `Run` is in progress. -/
def Threads.NoRun (s : Threads Tid) : Prop := ∀ t, (s.pc t).inRun = false

/-- `t` is blocked in `Cancel` and nobody has notified it. -/
def Threads.Blocked (s : Threads Tid) (t : Tid) : Prop := s.pc t = .cancel false .blocked ∧ t ∈ s.task.waiters

def Threads.Publishes (s : Threads Tid) : Prop := s.task.isStopState = true ∨ ∃ u, (s.pc u).publishes = true

def Threads.Notifies (s : Threads Tid) : Prop :=
  s.task.isStopState = false ∨ s.task.waiters = ∅ ∨ ∃ u, (s.pc u).notifies = true

/-- The threads other than `t` do the rest: one of them is going to publish that the task has stopped, or it has stopped
and nobody waits whom they are not going to notify. -/
def Threads.Left (s : Threads Tid) (t : Tid) : Prop :=
  (∃ u, u ≠ t ∧ (s.pc u).publishes = true) ∨
    s.task.isStopState = true ∧ (s.task.waiters = ∅ ∨ ∃ u, u ≠ t ∧ (s.pc u).notifies = true)

/-- An exception leaves `Run` only where the others do the rest. -/
def Harmless (s : Threads Tid) : Action Tid → Prop
  | .step t e => (s.pc t).escapes e = true → s.Left t
  | _ => True

/-- Whoever is past its own request, or waits, finds the request set; `CancelAsync` does not wait. -/
structure Requested (s : Threads Tid) : Prop where
  caller : ∀ t async p, s.pc t = .cancel async p → p ≠ .setFlag → s.task.isRequestCancel = true
  async : ∀ t, s.pc t ≠ .cancel true .wait ∧ s.pc t ≠ .cancel true .blocked
  waiter : ∀ t, t ∈ s.task.waiters → s.pc t = .cancel false .blocked

theorem Requested.flag {s : Threads Tid} (hi : Requested s) {t : Tid} (ht : t ∈ s.task.waiters) :
    s.task.isRequestCancel = true :=
  hi.caller t false .blocked (hi.waiter t ht) (by simp)

/-- A thread that moves is in no wait set. -/
theorem Requested.awake {s : Threads Tid} (hi : Requested s) {t : Tid} (ht : s.pc t ≠ .cancel false .blocked) :
    t ∉ s.task.waiters :=
  fun h => ht (hi.waiter t h)

section Steps

variable [DecidableEq Tid] {s s' : Threads Tid} {a : Action Tid} {t : Tid} {b : TaskBase Tid} {p : PC}

/-- A thread that is not in the wait set moves. -/
theorem Requested.goto (hi : Requested s) (ht : t ∉ s.task.waiters)
    (hreq : s.task.isRequestCancel = true → b.isRequestCancel = true)
    (hcaller : ∀ async q, p = .cancel async q → q ≠ .setFlag → b.isRequestCancel = true)
    (hasync : p ≠ .cancel true .wait ∧ p ≠ .cancel true .blocked)
    (hwaiter : ∀ u, u ∈ b.waiters → u ∈ s.task.waiters ∨ u = t ∧ p = .cancel false .blocked) :
    Requested (s.goto t b p) := by
  constructor
  · intro u async q hu hq
    by_cases hut : u = t
    · subst hut
      rw [goto_self] at hu
      exact hcaller async q hu hq
    · rw [goto_of_ne s b p hut] at hu
      exact hreq (hi.caller u async q hu hq)
  · intro u
    by_cases hut : u = t
    · subst hut
      rwa [goto_self]
    · rw [goto_of_ne s b p hut]
      exact hi.async u
  · intro u hu
    rcases hwaiter u hu with h | ⟨rfl, rfl⟩
    · have hut : u ≠ t := fun h' => ht (h' ▸ h)
      rw [goto_of_ne s b p hut]
      exact hi.waiter u h
    · exact goto_self s u b _

/-- The state read of `Cancel` adds nobody but the thread itself, which then blocks, and only while the task runs. -/
theorem awaitStop_waiters {b : TaskBase Tid} {t u : Tid} (h : u ∈ (b.awaitStop t).1.waiters) :
    u ∈ b.waiters ∨ u = t ∧ (b.awaitStop t).2 = .blocked := by
  unfold awaitStop at h ⊢
  split at h
  · exact Or.inl h
  · rcases Finset.mem_insert.mp h with rfl | h
    · exact Or.inr ⟨rfl, by simp [*]⟩
    · exact Or.inl h

theorem Requested.cancel (hi : Requested s) {async : Bool} {q q' : CancelPC} {e : Exit} (ht : s.pc t = .cancel async q)
    (hc : s.task.cancel async t q e = some (b, q')) : Requested (s.goto t b (.cancel async q')) := by
  have hset : q ≠ .setFlag → s.task.isRequestCancel = true := hi.caller t async q ht
  rcases cancel_cases hc with ⟨rfl, rfl, rfl⟩ | ⟨rfl, rfl, rfl⟩ | ⟨rfl, rfl, rfl⟩ | ⟨hq, hb⟩
  · exact hi.goto (hi.awake (by simp [ht])) (fun _ => rfl) (by simp) (by simp) fun _ => Or.inl
  · refine hi.goto (hi.awake (by simp [ht])) id (fun _ _ _ _ => hset (by simp)) ?_ fun _ => Or.inl
    cases async <;> simp
  · exact hi.goto (hi.awake (by simp [ht])) id (fun _ _ _ _ => hset (by simp)) (by simp) fun _ => Or.inl
  · obtain ⟨rfl, rfl⟩ : b = (s.task.awaitStop t).1 ∧ q' = (s.task.awaitStop t).2 := by simpa [Prod.ext_iff] using hb
    have hflag : s.task.isRequestCancel = true := hset (by rcases hq with rfl | ⟨rfl, -⟩ <;> simp)
    have hawake : t ∉ s.task.waiters := by
      rcases hq with rfl | ⟨-, h⟩
      · exact hi.awake (by simp [ht])
      · exact h
    have hsync : async = false := by
      cases async with
      | false => rfl
      | true =>
        rcases hq with rfl | ⟨rfl, -⟩
        · exact absurd ht (hi.async t).1
        · exact absurd ht (hi.async t).2
    subst hsync
    refine hi.goto hawake (by simp) (fun _ _ _ _ => by simpa using hflag) (by simp) fun u hu => ?_
    rcases awaitStop_waiters hu with h | ⟨rfl, h⟩
    · exact Or.inl h
    · exact Or.inr ⟨rfl, by rw [h]⟩

theorem Requested.step (hi : Requested s) (h : step s a = some s') : Requested s' := by
  rcases step_cases h with ⟨t, c, rfl, ht, rfl⟩ | ⟨t, e, rfl, ht, rfl⟩ | ⟨t, e, async, rfl, ht, rfl⟩ |
    ⟨t, e, p, b, p', rfl, ht, hr, rfl⟩ | ⟨t, e, async, p, b, p', rfl, ht, hc, rfl⟩ | ⟨t, rfl, rfl⟩
  · refine hi.goto (hi.awake (by simp [ht])) id ?_ ?_ fun _ => Or.inl
    · intro async q hq hne
      cases c <;> simp_all [Call.start]
    · cases c <;> simp [Call.start]
  · refine hi.goto (hi.awake ?_) id (by simp) (by simp) fun _ => Or.inl
    rcases ht with ht | ht | ⟨async, ht⟩ <;> simp [ht]
  · have hawake : t ∉ s.task.waiters := hi.awake (by simp [ht])
    have h := hi.goto (p := .idle) hawake id (by simp) (by simp) fun _ => Or.inl
    exact ⟨h.caller, h.async, h.waiter⟩
  · exact hi.goto (hi.awake (by simp [ht])) (fun hf => run_isRequestCancel hr ▸ hf) (by simp) (by simp)
      fun u hu => Or.inl (run_waiters hr hu)
  · exact hi.cancel ht hc
  · exact ⟨hi.caller, hi.async, fun u hu => hi.waiter u (Finset.mem_of_mem_erase hu)⟩

theorem requested {ok : Threads Tid → Action Tid → Prop} (h : (system Tid).Reachable ok s) : Requested s := by
  refine h.induct ?_ fun _ _ _ _ _ hs hi => hi.step hs
  constructor <;> simp [system, new]

/-! ### What is still going to be done -/

/-- One thread moves: it goes on to publish, it has published, it leaves the state as it was and had nothing to publish,
or the others do the rest. -/
theorem Threads.Publishes.goto (hi : s.Publishes)
    (h : p.publishes = true ∨ b.isStopState = true ∨
      b.state = s.task.state ∧ ((s.pc t).publishes = false ∨ s.Left t)) : (s.goto t b p).Publishes := by
  rcases h with h | h | ⟨hb, h⟩
  · exact Or.inr ⟨t, by rwa [goto_self]⟩
  · exact Or.inl h
  · have hstop : b.isStopState = s.task.isStopState := by simp [isStopState, hb]
    have hother : (∃ u, u ≠ t ∧ (s.pc u).publishes = true) → (s.goto t b p).Publishes := by
      rintro ⟨u, hut, hu⟩
      exact Or.inr ⟨u, by rwa [goto_of_ne s b p hut]⟩
    rcases h with ht | hl | ⟨hl, -⟩
    · rcases hi with hs | ⟨u, hu⟩
      · exact Or.inl (hstop.trans hs)
      · refine hother ⟨u, ?_, hu⟩
        rintro rfl
        rw [hu] at ht; cases ht
    · exact hother hl
    · exact Or.inl (hstop.trans hl)

/-- One thread moves: it goes on to notify, the task runs, nobody waits, it leaves who waits as it was and had nobody to
notify, or the others do the rest. -/
theorem Threads.Notifies.goto (hi : s.Notifies)
    (h : p.notifies = true ∨ b.isStopState = false ∨ b.waiters = ∅ ∨
      b.state = s.task.state ∧ b.waiters = s.task.waiters ∧ ((s.pc t).notifies = false ∨ s.Left t)) :
    (s.goto t b p).Notifies := by
  rcases h with h | h | h | ⟨hb, hw, h⟩
  · exact Or.inr (Or.inr ⟨t, by rwa [goto_self]⟩)
  · exact Or.inl h
  · exact Or.inr (Or.inl h)
  · have hother : ∀ u, u ≠ t → (s.pc u).notifies = true → (s.goto t b p).Notifies := fun u hut hu =>
      Or.inr (Or.inr ⟨u, by rwa [goto_of_ne s b p hut]⟩)
    rcases h with ht | ⟨u, hut, hu⟩ | ⟨-, hnone | ⟨u, hut, hu⟩⟩
    · rcases hi with hs | hnone | ⟨u, hu⟩
      · exact Or.inl ((by simp [isStopState, hb] : b.isStopState = s.task.isStopState).trans hs)
      · exact Or.inr (Or.inl (hw.trans hnone))
      · refine hother u ?_ hu
        rintro rfl
        rw [hu] at ht; cases ht
    · refine hother u hut ?_
      cases hpc : s.pc u with
      | run q => rw [hpc] at hu; exact RunPC.notifies_of_publishes hu
      | _ => rw [hpc] at hu; cases hu
    · exact Or.inr (Or.inl (hw.trans hnone))
    · exact hother u hut hu

theorem Threads.Publishes.step (hi : s.Publishes) (hok : Harmless s a) (h : step s a = some s') : s'.Publishes := by
  rcases step_cases h with ⟨t, c, rfl, ht, rfl⟩ | ⟨t, e, rfl, ht, rfl⟩ | ⟨t, e, async, rfl, ht, rfl⟩ |
    ⟨t, e, p, b, p', rfl, ht, hr, rfl⟩ | ⟨t, e, async, p, b, p', rfl, ht, hc, rfl⟩ | ⟨t, rfl, rfl⟩
  · exact hi.goto (Or.inr (Or.inr ⟨rfl, Or.inl (by rw [ht]; rfl)⟩))
  · refine hi.goto (Or.inr (Or.inr ⟨rfl, Or.inl ?_⟩))
    rcases ht with ht | ht | ⟨async, ht⟩ <;> rw [ht] <;> rfl
  · exact hi.goto (p := .idle) (Or.inr (Or.inr ⟨rfl, Or.inl (by rw [ht]; rfl)⟩))
  · refine hi.goto ?_
    rcases run_publishes hr with h | h | ⟨h, hb⟩ | h
    · exact Or.inl h
    · exact Or.inr (Or.inl h)
    · exact Or.inr (Or.inr ⟨hb, Or.inl (by rw [ht]; exact h)⟩)
    · exact Or.inr (Or.inr ⟨by rw [(run_of_escapes hr h).1], Or.inr (hok (by rw [ht]; exact h))⟩)
  · exact hi.goto (Or.inr (Or.inr ⟨(cancel_keeps hc).1, Or.inl (by rw [ht]; rfl)⟩))
  · exact hi

theorem Threads.Notifies.step (hi : s.Notifies) (hq : Requested s) (hok : Harmless s a) (h : step s a = some s') :
    s'.Notifies := by
  rcases step_cases h with ⟨t, c, rfl, ht, rfl⟩ | ⟨t, e, rfl, ht, rfl⟩ | ⟨t, e, async, rfl, ht, rfl⟩ |
    ⟨t, e, p, b, p', rfl, ht, hr, rfl⟩ | ⟨t, e, async, p, b, p', rfl, ht, hc, rfl⟩ | ⟨t, rfl, rfl⟩
  · exact hi.goto (Or.inr (Or.inr (Or.inr ⟨rfl, rfl, Or.inl (by rw [ht]; rfl)⟩)))
  · refine hi.goto (Or.inr (Or.inr (Or.inr ⟨rfl, rfl, Or.inl ?_⟩)))
    rcases ht with ht | ht | ⟨async, ht⟩ <;> rw [ht] <;> rfl
  · exact hi.goto (p := .idle) (Or.inr (Or.inr (Or.inr ⟨rfl, rfl, Or.inl (by rw [ht]; rfl)⟩)))
  · refine hi.goto ?_
    rcases run_notifies hr with h | h | h
    · exact Or.inl h
    · -- whoever waits has requested, so the notification is not skipped
      by_cases hnone : s.task.waiters = ∅
      · exact Or.inr (Or.inr (Or.inl (Finset.subset_empty.mp (hnone ▸ run_waiters hr))))
      · obtain ⟨u, hu⟩ := Finset.nonempty_iff_ne_empty.mpr hnone
        exact Or.inr (Or.inr (Or.inl (h (hq.flag hu))))
    · have hb := (run_of_escapes hr h).1
      exact Or.inr (Or.inr (Or.inr ⟨by rw [hb], by rw [hb], Or.inr (hok (by rw [ht]; exact h))⟩))
  · refine hi.goto ?_
    have hidle : (s.pc t).notifies = false := by rw [ht]; rfl
    rcases cancel_cases hc with ⟨-, rfl, -⟩ | ⟨-, rfl, -⟩ | ⟨-, rfl, -⟩ | ⟨-, hb⟩
    · exact Or.inr (Or.inr (Or.inr ⟨rfl, rfl, Or.inl hidle⟩))
    · exact Or.inr (Or.inr (Or.inr ⟨rfl, rfl, Or.inl hidle⟩))
    · exact Or.inr (Or.inr (Or.inr ⟨rfl, rfl, Or.inl hidle⟩))
    · obtain rfl : b = (s.task.awaitStop t).1 := congrArg Prod.fst hb
      unfold awaitStop
      split
      · exact Or.inr (Or.inr (Or.inr ⟨rfl, rfl, Or.inl hidle⟩))
      · rename_i hrun
        exact Or.inr (Or.inl (by simpa [isStopState] using hrun))
  · rcases hi with h | h | h
    · exact Or.inl h
    · exact Or.inr (Or.inl (by simp [h]))
    · exact Or.inr (Or.inr h)

end Steps

section Runs

variable [DecidableEq Tid] {s s' : Threads Tid} {a : Action Tid} {t : Tid}

theorem Threads.NoRun.goto (hi : s.NoRun) {b : TaskBase Tid} {p : PC} (hp : p.inRun = false) :
    (s.goto t b p).NoRun := by
  intro u
  by_cases hut : u = t
  · subst hut; rwa [goto_self]
  · rw [goto_of_ne s b p hut]; exact hi u

/-- The first `Run` is going to publish. -/
theorem Threads.NoRun.step (hi : s.NoRun) (h : step s a = some s') : s'.Publishes ∨ s'.NoRun := by
  rcases step_cases h with ⟨t, c, rfl, -, rfl⟩ | ⟨t, e, rfl, -, rfl⟩ | ⟨t, e, async, rfl, -, rfl⟩ |
    ⟨t, e, p, b, p', rfl, ht, -, rfl⟩ | ⟨t, e, async, p, b, p', rfl, -, -, rfl⟩ | ⟨t, rfl, rfl⟩
  · cases c with
    | run => exact Or.inl (Or.inr ⟨t, by rw [goto_self]; rfl⟩)
    | cancel | cancelAsync => exact Or.inr (hi.goto rfl)
  · exact Or.inr (hi.goto rfl)
  · exact Or.inr (hi.goto (b := s.task) (p := .idle) rfl)
  · have := hi t
    rw [ht] at this; cases this
  · exact Or.inr (hi.goto rfl)
  · exact Or.inr hi

theorem publishes_or_noRun (h : (system Tid).Reachable Harmless s) : s.Publishes ∨ s.NoRun := by
  refine h.induct (I := fun s => s.Publishes ∨ s.NoRun) (Or.inr fun _ => rfl) ?_
  intro s a s' _ hok hs hi
  rcases hi with hi | hi
  · exact Or.inl (hi.step hok hs)
  · exact hi.step hs

theorem notifies (h : (system Tid).Reachable Harmless s) : s.Notifies := by
  refine h.induct (I := Threads.Notifies) (Or.inl rfl) ?_
  intro s a s' hr hok hs hi
  exact hi.step (requested hr) hok hs

/-- Without a `Run` in progress nobody waits for a stopped task. -/
theorem not_blocked (h : (system Tid).Reachable Harmless s) (hrun : s.NoRun) (hstop : s.task.isStopState = true)
    (u : Tid) :
    ¬ s.Blocked u := by
  rintro ⟨-, hu⟩
  rcases notifies h with h | h | ⟨v, hv⟩
  · rw [hstop] at h; cases h
  · simp [h] at hu
  · have := hrun v
    cases hpc : s.pc v <;> rw [hpc] at hv this
    · cases hv
    · cases this
    · cases hv

/-- **Every Run ends the task.** Once a `Run` is at its end, by a return or an exception, the task has stopped and
nobody is blocked in `Cancel` whenever no `Run` is in progress. -/
theorem run_ends_task (h : (system Tid).Reachable Harmless s) (ht : s.pc t = .run .ret ∨ s.pc t = .run .raised)
    (hs : (system Tid).Reaches Harmless s s') (hrun : s'.NoRun) :
    s'.task.isStopState = true ∧ ∀ u, ¬ s'.Blocked u := by
  have hpub : s.Publishes := by
    rcases publishes_or_noRun h with hp | hno
    · exact hp
    · have := hno t
      rcases ht with ht | ht <;> rw [ht] at this <;> cases this
  have hpub' : s'.Publishes := hs.keeps (fun _ _ _ hok hst hi => hi.step hok hst) hpub
  have hstop : s'.task.isStopState = true := by
    rcases hpub' with hstop | ⟨u, hu⟩
    · exact hstop
    · have := hrun u
      cases hpc : s'.pc u <;> rw [hpc] at hu this
      · cases hu
      · cases this
      · cases hu
  exact ⟨hstop, not_blocked (h.reaches hs) hrun hstop⟩

/-- An exception that escapes where the step is not harmless, from the only `Run` in progress, leaves the task running
or a thread blocked in `Cancel`. -/
theorem escape_loses {e : Exit} (h : (system Tid).Reachable Anything s) (hs : step s (.step t e) = some s')
    (hok : ¬ Harmless s (.step t e)) (halone : ∀ u, u ≠ t → (s.pc u).inRun = false) :
    ∃ s'', step s' (.step t .ret) = some s'' ∧ s''.NoRun ∧ (s''.task.isStopState = true → ∃ u, s''.Blocked u) := by
  obtain ⟨hesc, hleft⟩ : (s.pc t).escapes e = true ∧ ¬ s.Left t := by simpa [Harmless] using hok
  have hs' : s' = s.goto t s.task (.run .raised) := by
    rcases step_cases hs with ⟨_, _, h, -⟩ | ⟨_, _, h, ht, -⟩ | ⟨_, _, _, h, ht, -⟩ |
      ⟨_, _, p, b, p', h, ht, hr, rfl⟩ | ⟨_, _, _, _, _, _, h, ht, -⟩ | ⟨_, h, -⟩ <;> cases h
    · rcases ht with ht | ht | ⟨async, ht⟩ <;> rw [ht] at hesc <;> cases hesc
    · rw [ht] at hesc; cases hesc
    · rw [ht] at hesc
      obtain ⟨rfl, rfl⟩ := run_of_escapes hr hesc
      rfl
    · rw [ht] at hesc; cases hesc
  subst hs'
  refine ⟨(s.goto t s.task (.run .raised)).goto t s.task .idle, by simp [step, Threads.goto], fun u => ?_,
    fun hstop => ?_⟩
  · by_cases hut : u = t
    · subst hut; rw [goto_self]; rfl
    · rw [goto_of_ne _ _ _ hut, goto_of_ne _ _ _ hut]; exact halone u hut
  · have hwait : s.task.waiters ≠ ∅ := fun h => hleft (Or.inr ⟨hstop, Or.inl h⟩)
    obtain ⟨u, hu⟩ := Finset.nonempty_iff_ne_empty.mpr hwait
    have hpc := (requested h).waiter u hu
    have hut : u ≠ t := by
      rintro rfl
      rw [hpc] at hesc; cases hesc
    exact ⟨u, by rw [goto_of_ne _ _ _ hut, goto_of_ne _ _ _ hut, hpc], hu⟩

/-! ### Two threads -/

section Two

variable [Fintype Tid]

instance (s : Threads Tid) (t : Tid) : Decidable (s.Left t) :=
  inferInstanceAs (Decidable ((∃ u, u ≠ t ∧ (s.pc u).publishes = true) ∨
    s.task.isStopState = true ∧ (s.task.waiters = ∅ ∨ ∃ u, u ≠ t ∧ (s.pc u).notifies = true)))

instance (s : Threads Tid) (a : Action Tid) : Decidable (Harmless s a) := match a with
  | .step t e => inferInstanceAs (Decidable ((s.pc t).escapes e = true → s.Left t))
  | .call _ _ | .wake _ => isTrue trivial

instance (s : Threads Tid) : Decidable s.NoRun := inferInstanceAs (Decidable (∀ t, (s.pc t).inRun = false))

end Two

/-- Two overlapping runs of an interval task whose first throws, while a third thread waits in `Cancel`. -/
theorem run_ends_task_run : ∃ s s' : Threads (Fin 3), s.pc 0 = .run .raised ∧ (system (Fin 3)).Reaches Harmless s s' ∧
    s'.task.isStopState = true ∧ ∀ u, ¬ s'.Blocked u := by
  obtain ⟨s, s', hs, h0, hs', hrun⟩ := System.reaches_of_exec_exec (system (Fin 3)) Harmless
    [.call 0 .run, .step 0 .ret, .step 0 .ret, .call 1 .run, .call 2 .cancel, .step 2 .ret, .step 2 .ret, .step 2 .ret,
      .step 0 .other]
    [.step 0 .ret, .step 1 .ret, .step 1 .ret, .step 1 .ret, .step 1 .ret, .step 1 .ret]
    (fun s => s.pc 0 == .run .raised) (fun s => decide s.NoRun) (by decide)
  have h0 : s.pc 0 = .run .raised := by simpa using h0
  exact ⟨s, s', h0, hs', run_ends_task hs (Or.inr h0) hs' (of_decide_eq_true hrun)⟩

/-- **An exception of DoRun is not caught.** `Run` is left with the task in `RUNNING`, and a thread that then calls
`Cancel` stays blocked. -/
theorem run_leaves_running : ∃ s s' : Threads (Fin 2), (system (Fin 2)).Reachable Anything s ∧ s.pc 0 = .run .raised ∧
    (system (Fin 2)).Reaches Anything s s' ∧ s'.NoRun ∧ s'.task.isStopState = false ∧ s'.Blocked 1 := by
  obtain ⟨s, s', hs, h0, hs', h⟩ := System.reaches_of_exec_exec (system (Fin 2)) Anything
    [.call 0 .run, .step 0 .ret, .step 0 .ret, .step 0 .other]
    [.step 0 .ret, .call 1 .cancel, .step 1 .ret, .step 1 .ret, .step 1 .ret]
    (fun s => s.pc 0 == .run .raised)
    (fun s => decide s.NoRun &&
     (!s.task.isStopState && (s.pc 1 == .cancel false .blocked && decide (1 ∈ s.task.waiters))))
    (by decide)
  simp only [Bool.and_eq_true, beq_iff_eq, decide_eq_true_eq, Bool.not_eq_true'] at h0 h
  obtain ⟨hrun, hstop, hpc, hw⟩ := h
  exact ⟨s, s', hs, h0, hs', hrun, hstop, hpc, hw⟩

end Runs

/-! ## A Run that starts after a CancelAsync -/

section Late

/-- Whether a `CancelAsync` has completed; and for a thread whose last `Run` has checked for the request since then, the
points that this `Run` has passed. -/
structure Record (Tid : Type*) where
  asyncDone : Bool
  late : Tid → Option (List RunPC)

/-- `DoRun` returns or throws through `CheckCancellation`, and `OnCancel` returns. -/
def Tame (s : Threads Tid) : Action Tid → Prop
  | .step t e => (s.pc t).escapes e = false
  | _ => True

instance (s : Threads Tid) (a : Action Tid) : Decidable (Tame s a) := match a with
  | .step t e => inferInstanceAs (Decidable ((s.pc t).escapes e = false))
  | .call _ _ | .wake _ => isTrue trivial

theorem Tame.harmless [DecidableEq Tid] {s : Threads Tid} {a : Action Tid} (h : Tame s a) : Harmless s a := by
  cases a with
  | step t e =>
    intro he
    rw [show (s.pc t).escapes e = false from h] at he
    cases he
  | call t c | wake t => trivial

/-- The points that a `Run` has before it when it is at `p` and cancelled. -/
def cancelCourse : RunPC → List RunPC
  | .checkCancellation => [.checkCancellation, .setCancelled, .onCancel, .notify, .ret]
  | .setCancelled => [.setCancelled, .onCancel, .notify, .ret]
  | .onCancel => [.onCancel, .notify, .ret]
  | .notify => [.notify, .ret]
  | .ret => [.ret]
  | .setRunning | .doRun | .setFinished | .raised => []

/-- A step of a cancelled `Run` takes it along its course. -/
theorem run_course {b b' : TaskBase Tid} {p p' : RunPC} {e : Exit} (h : b.run p e = some (b', p'))
    (hf : b.isRequestCancel = true) (hp : cancelCourse p ≠ []) (he : p.escapes e = false) :
    cancelCourse p = p :: cancelCourse p' ∧ cancelCourse p' ≠ [] := by
  cases p with
  | checkCancellation => simp only [run, hf] at h; cases h; simp [cancelCourse]
  | setCancelled => cases h; simp [cancelCourse]
  | onCancel =>
    cases e with
    | ret => cases h; simp [cancelCourse]
    | cancel | other => cases he
  | notify => cases h; simp [cancelCourse]
  | setRunning | doRun | setFinished | raised => exact absurd rfl hp
  | ret => cases h

variable [DecidableEq Tid]

/-- What a step adds to the record. -/
def note (s : Threads Tid) (a : Action Tid) (r : Record Tid) : Record Tid := match a with
  | .call t .run => { r with late := Function.update r.late t none }
  | .step t e => match s.pc t with
    | .cancel _ .onCallCancel => { r with asyncDone := r.asyncDone || e == .ret }
    | .run .checkCancellation =>
      { r with late := Function.update r.late t (if r.asyncDone then some [.checkCancellation] else none) }
    | .run p => { r with late := Function.update r.late t ((r.late t).map (· ++ [p])) }
    | _ => r
  | _ => r

/-- The threads with the record of their run. -/
def recorded (Tid : Type*) [DecidableEq Tid] : System (Threads Tid × Record Tid) (Action Tid) :=
  (system Tid).observe ⟨false, fun _ => none⟩ note

/-- What holds of every recorded run holds of every run. -/
theorem Reachable.recorded {s : Threads Tid} (h : (system Tid).Reachable Tame s) :
    ∃ r, (recorded Tid).Reachable (fun x => Tame x.1) (s, r) := System.Reachable.observed h

/-- What `t` has passed and what it has before it are the course of a cancelled `Run`. -/
def OnCourse (pc : PC) (points : List RunPC) : Prop :=
  (∃ p, pc = .run p ∧ cancelCourse p ≠ [] ∧ points ++ cancelCourse p = cancelCourse .checkCancellation) ∨
    pc.inRun = false ∧ points = cancelCourse .checkCancellation

structure LateRuns (s : Threads Tid) (r : Record Tid) : Prop where
  requested : r.asyncDone = true → s.task.isRequestCancel = true
  course : ∀ t points, r.late t = some points → s.task.isRequestCancel = true ∧ OnCourse (s.pc t) points

variable {s s' : Threads Tid} {a : Action Tid} {r : Record Tid}

/-- One thread moves, and the record changes for this thread at most. -/
theorem LateRuns.goto (hi : LateRuns s r) {t : Tid} {b : TaskBase Tid} {p : PC} {r' : Record Tid}
    (hreq : s.task.isRequestCancel = true → b.isRequestCancel = true)
    (hdone : r'.asyncDone = true → b.isRequestCancel = true)
    (hother : ∀ u, u ≠ t → r'.late u = r.late u)
    (hself : ∀ points, r'.late t = some points → b.isRequestCancel = true ∧ OnCourse p points) :
    LateRuns (s.goto t b p) r' := by
  refine ⟨hdone, fun u points hu => ?_⟩
  by_cases hut : u = t
  · subst hut
    rw [goto_self]
    exact hself points hu
  · rw [goto_of_ne s b p hut]
    rw [hother u hut] at hu
    obtain ⟨hf, hc⟩ := hi.course u points hu
    exact ⟨hreq hf, hc⟩

/-- A thread that is in no `Run` before and after, while the record stays. -/
theorem LateRuns.outside (hi : LateRuns s r) {t : Tid} {b : TaskBase Tid} {p : PC}
    (hreq : s.task.isRequestCancel = true → b.isRequestCancel = true) (ht : (s.pc t).inRun = false)
    (hp : p.inRun = false) : LateRuns (s.goto t b p) r := by
  refine hi.goto hreq (fun hd => hreq (hi.requested hd)) (fun _ _ => rfl) fun points hl => ?_
  obtain ⟨hf, ⟨q, hq, -⟩ | ⟨-, hc⟩⟩ := hi.course t points hl
  · rw [hq] at ht; cases ht
  · exact ⟨hreq hf, Or.inr ⟨hp, hc⟩⟩

theorem note_run {t : Tid} {e : Exit} {p : RunPC} (ht : s.pc t = .run p) (hp : p ≠ .checkCancellation) :
    note s (.step t e) r = { r with late := Function.update r.late t ((r.late t).map (· ++ [p])) } := by
  cases p <;> simp_all [note]

theorem LateRuns.run (hi : LateRuns s r) {t : Tid} {b : TaskBase Tid} {e : Exit} {p p' : RunPC} (ht : s.pc t = .run p)
    (hr : s.task.run p e = some (b, p')) (hok : p.escapes e = false) :
    LateRuns (s.goto t b (.run p')) (note s (.step t e) r) := by
  have hflag := run_isRequestCancel hr
  by_cases hp : p = .checkCancellation
  · subst hp
    have hnote : note s (.step t e) r =
        { r with late := Function.update r.late t (if r.asyncDone then some [.checkCancellation] else none) } := by
      simp [note, ht]
    rw [hnote]
    refine hi.goto (fun hf => hflag ▸ hf) (fun hd => hflag ▸ hi.requested hd)
      (fun u hut => by simp [Function.update_of_ne hut]) fun points hl => ?_
    simp only [Function.update_self] at hl
    split at hl
    · rename_i hd
      cases hl
      have hf := hi.requested hd
      obtain ⟨hc, hne⟩ := run_course hr hf (by simp [cancelCourse]) hok
      exact ⟨hflag ▸ hf, Or.inl ⟨p', rfl, hne, hc.symm⟩⟩
    · cases hl
  · rw [note_run ht hp]
    refine hi.goto (fun hf => hflag ▸ hf) (fun hd => hflag ▸ hi.requested hd)
      (fun u hut => by simp [Function.update_of_ne hut]) fun points hl => ?_
    obtain ⟨old, ho, rfl⟩ := Option.map_eq_some_iff.mp (by simpa using hl)
    obtain ⟨hf, ⟨q, hq, hne, hc⟩ | ⟨hout, -⟩⟩ := hi.course t old ho
    · obtain rfl : p = q := by simpa [ht] using hq
      obtain ⟨hstep, hne'⟩ := run_course hr hf hne hok
      refine ⟨hflag ▸ hf, Or.inl ⟨p', rfl, hne', ?_⟩⟩
      rw [← hc, hstep, List.append_assoc, List.singleton_append]
    · rw [ht] at hout; cases hout

/-- A `Run` is left. -/
theorem LateRuns.leave (hi : LateRuns s r) {t : Tid} {e : Exit} {p : RunPC} (ht : s.pc t = .run p)
    (hp : p = .ret ∨ p = .raised) : LateRuns (s.goto t s.task .idle) (note s (.step t e) r) := by
  rw [note_run ht (by rcases hp with rfl | rfl <;> simp)]
  refine hi.goto id hi.requested (fun u hut => by simp [Function.update_of_ne hut]) fun points hl => ?_
  obtain ⟨old, ho, rfl⟩ := Option.map_eq_some_iff.mp (by simpa using hl)
  obtain ⟨hf, ⟨q, hq, hne, hc⟩ | ⟨hout, -⟩⟩ := hi.course t old ho
  · obtain rfl : p = q := by simpa [ht] using hq
    rcases hp with rfl | rfl
    · exact ⟨hf, Or.inr ⟨rfl, hc⟩⟩
    · exact absurd rfl hne
  · rw [ht] at hout; cases hout

theorem LateRuns.step (hi : LateRuns s r) (hq : Requested s) (hok : Tame s a) (h : step s a = some s') :
    LateRuns s' (note s a r) := by
  rcases step_cases h with ⟨t, c, rfl, ht, rfl⟩ | ⟨t, e, rfl, ht, rfl⟩ | ⟨t, e, async, rfl, ht, rfl⟩ |
    ⟨t, e, p, b, p', rfl, ht, hr, rfl⟩ | ⟨t, e, async, p, b, p', rfl, ht, hc, rfl⟩ | ⟨t, rfl, rfl⟩
  · cases c with
    | run =>
      exact hi.goto id hi.requested (fun u hut => by simp [note, Function.update_of_ne hut]) (by simp [note])
    | cancel | cancelAsync => exact hi.outside id (by rw [ht]; rfl) rfl
  · rcases ht with ht | ht | ⟨async, ht⟩
    · exact hi.leave ht (Or.inl rfl)
    · exact hi.leave ht (Or.inr rfl)
    · rw [show note s (.step t e) r = r by simp [note, ht]]
      exact hi.outside id (by rw [ht]; rfl) rfl
  · rw [show note s (.step t e) r = r by simp [note, ht]]
    have := hi.outside (t := t) (b := s.task) (p := .idle) id (by rw [ht]; rfl) rfl
    exact ⟨this.requested, this.course⟩
  · exact hi.run ht hr (by simpa [Tame, ht, PC.escapes] using hok)
  · have hkeep := (cancel_keeps hc).2
    by_cases hp : p = .onCallCancel
    · subst hp
      have hf : s.task.isRequestCancel = true := hq.caller t async .onCallCancel ht (by simp)
      have hout := hi.outside (b := b) (p := .cancel async p') hkeep (by rw [ht]; rfl) rfl
      rw [show note s (.step t e) r = { r with asyncDone := r.asyncDone || e == .ret } by simp [note, ht]]
      exact ⟨fun _ => hkeep hf, hout.course⟩
    · rw [show note s (.step t e) r = r by cases p <;> simp_all [note]]
      exact hi.outside hkeep (by rw [ht]; rfl) rfl
  · exact ⟨hi.requested, hi.course⟩

theorem lateRuns {x : Threads Tid × Record Tid} (h : (recorded Tid).Reachable (fun x => Tame x.1) x) :
    LateRuns x.1 x.2 := by
  refine h.induct (I := fun x => LateRuns x.1 x.2) ?_ ?_
  · constructor <;> simp [recorded, System.observe]
  · intro x a x' hr hok hs hi
    obtain ⟨hst, hnote⟩ := System.observe_step hs
    rw [hnote]
    exact hi.step (requested (System.Reachable.forget hr)) hok hst

/-- **No lost wake-up for cancellers.** With no `Run` in progress, whoever is blocked in `Cancel` waits for a task that
has not stopped; and a `Run` that checks for the request after a `CancelAsync` has completed does not enter `DoRun`, and
has set `CANCELLED` and called `OnCancel` once when it ends. -/
theorem no_lost_cancel {x : Threads Tid × Record Tid} (h : (recorded Tid).Reachable (fun x => Tame x.1) x) :
    (x.1.NoRun → (∃ t, x.1.Blocked t) → x.1.task.isStopState = false) ∧
    ∀ t points, x.2.late t = some points →
      (x.1.pc t ≠ .run .doRun ∧ RunPC.doRun ∉ points ∧ points.count .onCancel ≤ 1) ∧
      ((x.1.pc t).inRun = false → points.count .setCancelled = 1 ∧ points.count .onCancel = 1) := by
  constructor
  · rintro hrun ⟨t, ht⟩
    have hr : (system Tid).Reachable Harmless x.1 := (System.Reachable.forget h).mono fun _ _ => Tame.harmless
    by_contra hstop
    exact not_blocked hr hrun (by simpa using hstop) t ht
  · intro t points hl
    obtain ⟨-, ⟨p, hp, hne, hc⟩ | ⟨hout, rfl⟩⟩ := (lateRuns h).course t points hl
    · have hsub : points.Sublist (cancelCourse .checkCancellation) := hc ▸ List.sublist_append_left _ _
      refine ⟨⟨fun hd => ?_, fun hd => ?_, ?_⟩, fun hout => ?_⟩
      · obtain rfl : p = .doRun := by simpa [hp] using hd
        exact hne rfl
      · have := hsub.subset hd
        simp [cancelCourse] at this
      · exact (hsub.count_le _).trans (by decide)
      · rw [hp] at hout; cases hout
    · refine ⟨⟨fun hd => ?_, by decide, by decide⟩, fun _ => by decide⟩
      rw [hd] at hout; cases hout

/-- A `Run` between two cancellers, the second of which waits for it. -/
theorem no_lost_cancel_run : ∃ x : Threads (Fin 3) × Record (Fin 3), (∃ points, x.2.late 0 = some points) ∧
    (x.1.NoRun → (∃ t, x.1.Blocked t) → x.1.task.isStopState = false) := by
  obtain ⟨x, hx, hp⟩ := System.reachable_of_exec (recorded (Fin 3)) (fun x => Tame x.1)
    [.call 1 .cancelAsync, .step 1 .ret, .step 1 .ret, .call 0 .run, .step 0 .ret, .call 2 .cancel, .step 2 .ret,
      .step 2 .ret, .step 2 .ret, .step 0 .ret, .step 0 .ret, .step 0 .ret, .step 0 .ret]
    (fun x => (x.2.late 0).isSome) (by decide)
  exact ⟨x, Option.isSome_iff_exists.mp hp, (no_lost_cancel hx).1⟩

end Late

end Tpool.TaskBase
