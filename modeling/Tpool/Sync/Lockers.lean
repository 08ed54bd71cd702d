import Mathlib.Data.Finset.Basic
import Mathlib.Logic.Function.Basic
import Tpool.Concurrency.System

/-!
# The lockers

- `Holder`: the mutexes that a thread holds, and whether it has locked one that it held or unlocked one that it did not.
- `Lockers.step`: one operation on a locker: a constructor, `TimedWait`, the destructor. What user predicates do, also
  when they throw, is part of the operation; an operation that the interface does not admit has no step.
- `Ok`: no predicate throws in a constructor, no `TimedWait` of a locker that holds its mutex, no lock of a mutex that
  is held through another locker.
- `disciplined_iff`: a sequence of operations keeps the discipline of the mutexes exactly when each of them is `Ok`.
  `throwing_predicate_leaks`: two sequences that do not.
-/

namespace Tpool

open Concurrency

/-- The mutexes that a thread holds; `faulty` when it has locked a mutex it held or unlocked one it did not hold. -/
structure Holder (M : Type*) where
  held : Finset M
  faulty : Bool

section Holder

variable {M : Type*} [DecidableEq M]

def Holder.lock (h : Holder M) (m : M) : Holder M := ⟨insert m h.held, h.faulty || decide (m ∈ h.held)⟩

def Holder.unlock (h : Holder M) (m : M) : Holder M := ⟨h.held.erase m, h.faulty || decide (m ∉ h.held)⟩

end Holder

namespace Lockers

variable {N M : Type*}

/-- How one evaluation of a predicate ends. -/
inductive Eval
  | returns (b : Bool)
  | throws
  deriving DecidableEq

/-- The first evaluation that does not return true throws. -/
def throwsIn : List Eval → Bool
  | .returns true :: evals => throwsIn evals
  | .throws :: _ => true
  | _ => false

section Operations

variable [DecidableEq M]

/-- `while (f()) c.Wait()`, and whether it was left without an exception; `evals` are the evaluations of `f`. A wait
gives the mutex away and takes it back. -/
def waitLoop (m : M) : List Eval → Holder M → Option (Holder M × Bool)
  | .returns true :: evals, h => waitLoop m evals ((h.unlock m).lock m)
  | .returns false :: _, h => some (h, true)
  | .throws :: _, h => some (h, false)
  | [], _ => none

/-- `ConditionWaitLocker(c, f)`. -/
def conditionWait (m : M) (evals : List Eval) (h : Holder M) : Option (Holder M × Bool) := waitLoop m evals (h.lock m)

/-- `TimedWait(f, delay)`; the second component of an evaluation tells whether the wait after it was notified. -/
def timedWaitLoop (m : M) : List (Eval × Bool) → Holder M → Option (Holder M)
  | (.returns true, true) :: evals, h => timedWaitLoop m evals ((h.unlock m).lock m)
  | (.returns true, false) :: _, h => some ((h.unlock m).lock m)
  | (.returns false, _) :: _, h | (.throws, _) :: _, h => some h
  | [], _ => none

def timedWait (m : M) (evals : List (Eval × Bool)) (h : Holder M) : Option (Holder M) :=
  timedWaitLoop m evals (h.lock m)

/-- `ConditionNotifyLocker(c, f)` and `ConditionNotifyAllLocker(c, f)`. -/
def conditionNotify (m : M) (f : Eval) (h : Holder M) : Holder M × Bool := (h.lock m, f != .throws)

/-- `MutexWaitLocker(m, f)`: the mutex is unlocked and locked again between two evaluations. -/
def mutexWait (m : M) : List Eval → Holder M → Option (Holder M × Bool)
  | .returns true :: evals, h => mutexWait m evals ((h.lock m).unlock m)
  | .returns false :: _, h => some (h.lock m, true)
  | .throws :: _, h => some (h.lock m, false)
  | [], _ => none

end Operations

/-- How a live locker came to hold its mutex: its constructor locked it, where a `ConditionWaitLocker` (`waited`) has a
`TimedWait` all the same, or it is a `ConditionWaitLocker` without a predicate, whose `TimedWait` was called so many
times. -/
inductive Form
  | constructed
  | waited
  | timed (calls : ℕ)
  deriving DecidableEq

def Form.holds : Form → Bool
  | .constructed | .waited => true
  | .timed calls => 0 < calls

/-- The locker after a `TimedWait`, if it has one. -/
def Form.timedWait : Form → Option Form
  | .constructed => none
  | .waited => some .waited
  | .timed calls => some (.timed (calls + 1))

theorem Form.timedWait_holds {form form' : Form} (h : form.timedWait = some form') : form'.holds = true := by
  cases form with
  | constructed => cases h
  | waited => cases h; rfl
  | timed calls =>
    cases h
    simp [Form.holds]

/-- The operations on a locker `n` of a mutex `m`. -/
inductive Op (N M : Type*)
  | conditionWait (n : N) (m : M) (evals : List Eval)
  | conditionWaitOnly (n : N) (m : M)
  | timedWait (n : N) (evals : List (Eval × Bool))
  | conditionNotify (n : N) (m : M) (f : Eval)
  | conditionNotifyOnly (n : N) (m : M)
  | conditionNotifyAll (n : N) (m : M) (f : Eval)
  | mutexWait (n : N) (m : M) (evals : List Eval)
  | destroy (n : N)

end Lockers

open Lockers

/-- A thread with its live lockers. -/
structure Lockers (N M : Type*) where
  holder : Holder M
  live : N → Option (M × Form)

namespace Lockers

variable {N M : Type*}

section Step

variable [DecidableEq N] [DecidableEq M]

/-- A constructor that locks `m`: unless it throws, the locker is there. -/
def construct (s : Lockers N M) (n : N) (m : M) (form : Form) (r : Holder M × Bool) : Lockers N M :=
  ⟨r.1, if r.2 then Function.update s.live n (some (m, form)) else s.live⟩

/-- One operation. A name is constructed when it is free. A `ConditionWaitLocker` without a predicate is meant to be
used with `TimedWait`, so it is not destroyed before; the others are not. -/
def step (s : Lockers N M) : Op N M → Option (Lockers N M)
  | .conditionWait n m evals =>
    if s.live n = none then (Lockers.conditionWait m evals s.holder).map (s.construct n m .waited) else none
  | .conditionWaitOnly n m =>
    if s.live n = none then some { s with live := Function.update s.live n (some (m, .timed 0)) } else none
  | .timedWait n evals => match s.live n with
    | some (m, form) => match form.timedWait with
      | some form' => (Lockers.timedWait m evals s.holder).map fun holder =>
          ⟨holder, Function.update s.live n (some (m, form'))⟩
      | none => none
    | none => none
  | .conditionNotify n m f | .conditionNotifyAll n m f =>
    if s.live n = none then some (s.construct n m .constructed (Lockers.conditionNotify m f s.holder)) else none
  | .conditionNotifyOnly n m =>
    if s.live n = none then some (s.construct n m .constructed (s.holder.lock m, true)) else none
  | .mutexWait n m evals =>
    if s.live n = none then (Lockers.mutexWait m evals s.holder).map (s.construct n m .constructed) else none
  | .destroy n => match s.live n with
    | some (m, form) =>
      if form.holds then some ⟨s.holder.unlock m, Function.update s.live n none⟩ else none
    | none => none

/-- A thread without lockers. -/
def system (N M : Type*) [DecidableEq N] [DecidableEq M] : System (Lockers N M) (Op N M) :=
  ⟨⟨⟨∅, false⟩, fun _ => none⟩, step⟩

end Step

/-- A live locker holds `m`. -/
def Held (s : Lockers N M) (m : M) : Prop := ∃ n form, s.live n = some (m, form) ∧ form.holds = true

/-- The operation locks no mutex that a live locker holds, its own included, and no predicate throws in a
constructor. -/
def Ok (s : Lockers N M) : Op N M → Prop
  | .conditionWait _ m evals | .mutexWait _ m evals => ¬ s.Held m ∧ throwsIn evals = false
  | .conditionNotify _ m f | .conditionNotifyAll _ m f => ¬ s.Held m ∧ f ≠ .throws
  | .conditionNotifyOnly _ m => ¬ s.Held m
  | .timedWait n _ => ∀ m form, s.live n = some (m, form) → ¬ s.Held m
  | .conditionWaitOnly _ _ | .destroy _ => True

/-- The mutexes were locked only when free and unlocked only when held, and none is held without lockers. -/
def Good (s : Lockers N M) : Prop := s.holder.faulty = false ∧ ((∀ n, s.live n = none) → s.holder.held = ∅)

/-! ## The operations -/

section Effects

variable [DecidableEq M] {h h' : Holder M} {m : M}

/-- The mutex `m` was locked and is still locked. -/
structure Locked (m : M) (h h' : Holder M) : Prop where
  free : m ∉ h.held → h'.held = insert m h.held ∧ h'.faulty = h.faulty
  again : m ∈ h.held → h'.faulty = true

theorem Locked.lock (m : M) (h : Holder M) : Locked m h (h.lock m) :=
  ⟨fun hm => ⟨rfl, by simp [Holder.lock, hm]⟩, fun hm => by simp [Holder.lock, hm]⟩

/-- A wait leaves a thread that holds the mutex as it was. -/
theorem unlock_lock (hm : m ∈ h.held) : (h.unlock m).lock m = h := by
  cases h with
  | mk held faulty =>
    have hm : m ∈ held := hm
    simp [Holder.lock, Holder.unlock, hm, Finset.insert_erase hm]

theorem waitLoop_eq {evals : List Eval} {r : Holder M × Bool} (hm : m ∈ h.held) (hr : waitLoop m evals h = some r) :
    r = (h, !throwsIn evals) := by
  induction evals with
  | nil => cases hr
  | cons e evals ih =>
    cases e with
    | throws => cases hr; rfl
    | returns b =>
      cases b with
      | false => cases hr; rfl
      | true =>
        rw [waitLoop, unlock_lock hm] at hr
        exact ih hr

theorem conditionWait_spec {evals : List Eval} {r : Holder M × Bool} (hr : conditionWait m evals h = some r) :
    Locked m h r.1 ∧ r.2 = !throwsIn evals := by
  obtain rfl := waitLoop_eq (h := h.lock m) (by simp [Holder.lock]) hr
  exact ⟨.lock m h, rfl⟩

theorem timedWaitLoop_eq {evals : List (Eval × Bool)} (hm : m ∈ h.held) (hr : timedWaitLoop m evals h = some h') :
    h' = h := by
  induction evals with
  | nil => cases hr
  | cons e evals ih =>
    obtain ⟨e, notified⟩ := e
    cases e with
    | throws => cases hr; rfl
    | returns b =>
      cases b with
      | false => cases hr; rfl
      | true =>
        cases notified with
        | false =>
          rw [timedWaitLoop, unlock_lock hm] at hr
          cases hr; rfl
        | true =>
          rw [timedWaitLoop, unlock_lock hm] at hr
          exact ih hr

theorem timedWait_spec {evals : List (Eval × Bool)} (hr : timedWait m evals h = some h') : Locked m h h' := by
  obtain rfl := timedWaitLoop_eq (h := h.lock m) (by simp [Holder.lock]) hr
  exact .lock m h

theorem mutexWait_spec {evals : List Eval} {r : Holder M × Bool} (hr : mutexWait m evals h = some r) :
    Locked m h r.1 ∧ r.2 = !throwsIn evals := by
  induction evals generalizing h with
  | nil => cases hr
  | cons e evals ih =>
    cases e with
    | throws => cases hr; exact ⟨.lock m h, rfl⟩
    | returns b =>
      cases b with
      | false => cases hr; exact ⟨.lock m h, rfl⟩
      | true =>
        obtain ⟨hl, ht⟩ := ih hr
        have hfree := hl.free (by simp [Holder.lock, Holder.unlock])
        refine ⟨⟨fun hm => ?_, fun hm => ?_⟩, ht⟩
        · have heq : (h.lock m).unlock m = h := by
            cases h with
            | mk held faulty =>
              have hm : m ∉ held := hm
              simp [Holder.lock, Holder.unlock, hm, Finset.erase_insert hm]
          rwa [heq] at hfree
        · rw [hfree.2]
          simp [Holder.lock, Holder.unlock, hm]

end Effects

/-- What an operation does: a constructor locks `m`, and the locker is there unless it throws; a `ConditionWaitLocker`
is constructed without locking; `TimedWait` locks; or a locker that holds its mutex is destroyed. Beside it, whether the
operation is `Ok`. -/
theorem step_cases [DecidableEq N] [DecidableEq M] {s s' : Lockers N M} {op : Op N M} (h : s.step op = some s') :
    (∃ n m form, s.live n = none ∧ form.holds = true ∧ Locked m s.holder s'.holder ∧
      ((s'.live = Function.update s.live n (some (m, form)) ∧ (s.Ok op ↔ ¬ s.Held m)) ∨
        (s'.live = s.live ∧ ¬ s.Ok op))) ∨
    (∃ n m, s.live n = none ∧ s'.holder = s.holder ∧ s'.live = Function.update s.live n (some (m, .timed 0)) ∧
      s.Ok op) ∨
    (∃ n m form form', s.live n = some (m, form) ∧ form'.holds = true ∧ Locked m s.holder s'.holder ∧
      s'.live = Function.update s.live n (some (m, form')) ∧ (s.Ok op ↔ ¬ s.Held m)) ∨
    ∃ n m form, s.live n = some (m, form) ∧ form.holds = true ∧ s'.holder = s.holder.unlock m ∧
      s'.live = Function.update s.live n none ∧ s.Ok op := by
  -- a constructor whose predicate may throw
  have key : ∀ (n : N) (m : M) (form : Form) (r : Holder M × Bool) (throws : Bool), s.live n = none →
    form.holds = true →
      Locked m s.holder r.1 → r.2 = !throws → s' = s.construct n m form r → (s.Ok op ↔ ¬ s.Held m ∧ throws = false) →
      ∃ n m form, s.live n = none ∧ form.holds = true ∧ Locked m s.holder s'.holder ∧
        ((s'.live = Function.update s.live n (some (m, form)) ∧ (s.Ok op ↔ ¬ s.Held m)) ∨
          (s'.live = s.live ∧ ¬ s.Ok op)) := by
    rintro n m form ⟨holder, b⟩ throws hn hform hl rfl rfl hok
    refine ⟨n, m, form, hn, hform, hl, ?_⟩
    cases throws with
    | false => exact Or.inl ⟨rfl, by simpa using hok⟩
    | true => exact Or.inr ⟨rfl, by simp [hok]⟩
  cases op with
  | conditionWait n m evals =>
    simp only [step] at h
    split at h
    · obtain ⟨r, hr, rfl⟩ := Option.map_eq_some_iff.mp h
      obtain ⟨hl, ht⟩ := conditionWait_spec hr
      exact Or.inl (key n m _ r _ ‹_› rfl hl ht rfl Iff.rfl)
    · cases h
  | mutexWait n m evals =>
    simp only [step] at h
    split at h
    · obtain ⟨r, hr, rfl⟩ := Option.map_eq_some_iff.mp h
      obtain ⟨hl, ht⟩ := mutexWait_spec hr
      exact Or.inl (key n m _ r _ ‹_› rfl hl ht rfl Iff.rfl)
    · cases h
  | conditionNotify n m f | conditionNotifyAll n m f =>
    simp only [step] at h
    split at h <;> cases h
    refine Or.inl (key n m _ _ (f == .throws) ‹_› rfl (.lock m s.holder) rfl rfl ?_)
    simp [Ok]
  | conditionNotifyOnly n m =>
    simp only [step] at h
    split at h <;> cases h
    refine Or.inl (key n m _ _ false ‹_› rfl (.lock m s.holder) rfl rfl ?_)
    simp [Ok]
  | conditionWaitOnly n m =>
    simp only [step] at h
    split at h <;> cases h
    exact Or.inr (Or.inl ⟨n, m, ‹_›, rfl, rfl, trivial⟩)
  | timedWait n evals =>
    simp only [step] at h
    split at h
    · rename_i m form hn
      split at h
      · rename_i form' hform
        obtain ⟨r, hr, rfl⟩ := Option.map_eq_some_iff.mp h
        refine Or.inr (Or.inr (Or.inl ⟨n, m, form, form', hn, Form.timedWait_holds hform, timedWait_spec hr, rfl, ?_⟩))
        simp [Ok, hn]
      · cases h
    · cases h
  | destroy n =>
    simp only [step] at h
    split at h
    · rename_i m form hn
      split at h <;> cases h
      exact Or.inr (Or.inr (Or.inr ⟨n, m, form, hn, ‹_›, rfl, rfl, trivial⟩))
    · cases h

/-! ## The discipline -/

section Discipline

variable {s s' : Lockers N M} {m : M} {n : N} {form : Form}

/-- What the lockers hold is what the thread holds, each mutex through one locker. -/
structure Inv (s : Lockers N M) : Prop where
  faulty : s.holder.faulty = false
  held : ∀ m, m ∈ s.holder.held ↔ s.Held m
  one : ∀ n n' m form form', s.live n = some (m, form) → form.holds = true → s.live n' = some (m, form') →
    form'.holds = true → n = n'

/-- The thread holds `m` and no locker will unlock it. -/
def Leak (s : Lockers N M) (m : M) : Prop := m ∈ s.holder.held ∧ ¬ s.Held m

theorem Inv.good (hi : s.Inv) : s.Good := by
  refine ⟨hi.faulty, fun hnone => Finset.eq_empty_of_forall_notMem fun m hm => ?_⟩
  obtain ⟨n, form, hn, -⟩ := (hi.held m).mp hm
  rw [hnone n] at hn
  cases hn

theorem Leak.not_good (hl : s.Leak m) (hnone : ∀ n, s.live n = none) : ¬ s.Good := by
  intro hg
  have hm := hl.1
  rw [hg.2 hnone] at hm
  simp at hm

variable [DecidableEq N]

/-- Who is live after the locker `n` has been written. -/
theorem live_update {x : Option (M × Form)} (hlive : s'.live = Function.update s.live n x) {a : N} {y : M × Form}
    (ha : s'.live a = some y) : (a = n ∧ x = some y) ∨ (a ≠ n ∧ s.live a = some y) := by
  rw [hlive] at ha
  by_cases han : a = n
  · rw [han, Function.update_self] at ha
    exact Or.inl ⟨han, ha⟩
  · rw [Function.update_of_ne han] at ha
    exact Or.inr ⟨han, ha⟩

/-- A locker under a free name. -/
theorem held_construct (hn : s.live n = none) (hlive : s'.live = Function.update s.live n (some (m, form))) (m' : M) :
    s'.Held m' ↔ s.Held m' ∨ (m' = m ∧ form.holds = true) := by
  constructor
  · rintro ⟨n', form', hn', hh⟩
    rcases live_update hlive hn' with ⟨-, heq⟩ | ⟨-, hn'⟩
    · cases heq
      exact Or.inr ⟨rfl, hh⟩
    · exact Or.inl ⟨n', form', hn', hh⟩
  · rintro (⟨n', form', hn', hh⟩ | ⟨rfl, hh⟩)
    · have hne : n' ≠ n := by
        rintro rfl
        rw [hn] at hn'
        cases hn'
      exact ⟨n', form', by rw [hlive, Function.update_of_ne hne, hn'], hh⟩
    · exact ⟨n, form, by rw [hlive, Function.update_self], hh⟩

/-- A locker holds its mutex now, whether it held it or not. -/
theorem held_timed {form' : Form} (hn : s.live n = some (m, form)) (hform : form'.holds = true)
    (hlive : s'.live = Function.update s.live n (some (m, form'))) (m' : M) : s'.Held m' ↔ s.Held m' ∨ m' = m := by
  constructor
  · rintro ⟨n', form', hn', hh⟩
    rcases live_update hlive hn' with ⟨-, heq⟩ | ⟨-, hn'⟩
    · cases heq
      exact Or.inr rfl
    · exact Or.inl ⟨n', form', hn', hh⟩
  · rintro (⟨n', form', hn', hh⟩ | rfl)
    · by_cases hne : n' = n
      · subst hne
        rw [hn] at hn'
        cases hn'
        exact ⟨n', _, by rw [hlive, Function.update_self], hform⟩
      · exact ⟨n', form', by rw [hlive, Function.update_of_ne hne, hn'], hh⟩
    · exact ⟨n, _, by rw [hlive, Function.update_self], hform⟩

/-- A locker is destroyed. -/
theorem held_destroy (hlive : s'.live = Function.update s.live n none) (m' : M) :
    s'.Held m' ↔ ∃ n' form', n' ≠ n ∧ s.live n' = some (m', form') ∧ form'.holds = true := by
  constructor
  · rintro ⟨n', form', hn', hh⟩
    rcases live_update hlive hn' with ⟨-, heq⟩ | ⟨hne, hn'⟩
    · cases heq
    · exact ⟨n', form', hne, hn', hh⟩
  · rintro ⟨n', form', hne, hn', hh⟩
    exact ⟨n', form', by rw [hlive, Function.update_of_ne hne, hn'], hh⟩

/-- A mutex that no locker holds gets one. -/
theorem Inv.lock [DecidableEq M] (hi : s.Inv) (hm : ¬ s.Held m) (hl : Locked m s.holder s'.holder)
    (hlive : s'.live = Function.update s.live n (some (m, form)))
    (hheld : ∀ m', s'.Held m' ↔ s.Held m' ∨ m' = m) : s'.Inv := by
  obtain ⟨hset, hfaulty⟩ := hl.free ((hi.held m).not.mpr hm)
  refine ⟨hfaulty.trans hi.faulty, fun m' => ?_, ?_⟩
  · rw [hset, Finset.mem_insert, hheld, hi.held]
    exact or_comm
  · intro a b m' fa fb ha hfa hb hfb
    rcases live_update hlive ha with ⟨han, heq⟩ | ⟨-, ha⟩
    · rcases live_update hlive hb with ⟨hbn, -⟩ | ⟨-, hb⟩
      · rw [han, hbn]
      · cases heq
        exact absurd ⟨b, fb, hb, hfb⟩ hm
    · rcases live_update hlive hb with ⟨-, heq⟩ | ⟨-, hb⟩
      · cases heq
        exact absurd ⟨a, fa, ha, hfa⟩ hm
      · exact hi.one a b m' fa fb ha hfa hb hfb

variable [DecidableEq M] {op : Op N M} {ops : List (Op N M)}

theorem Inv.step (hi : s.Inv) (hok : s.Ok op) (h : s.step op = some s') : s'.Inv := by
  rcases step_cases h with ⟨n, m, form, hn, hform, hl, ⟨hlive, hiff⟩ | ⟨-, hnot⟩⟩ | ⟨n, m, hn, hholder, hlive, -⟩ |
    ⟨n, m, form, form', hn, hform, hl, hlive, hiff⟩ | ⟨n, m, form, hn, hh, hholder, hlive, -⟩
  · exact hi.lock (hiff.mp hok) hl hlive fun m' => by simp [held_construct hn hlive m', hform]
  · exact absurd hok hnot
  · -- a locker that holds nothing
    have hheld : ∀ m', s'.Held m' ↔ s.Held m' := fun m' => by simp [held_construct hn hlive m', Form.holds]
    refine ⟨by rw [hholder]; exact hi.faulty, fun m' => by rw [hholder, hheld, hi.held], ?_⟩
    have hne : ∀ {a : N} {m' : M} {fa : Form}, s'.live a = some (m', fa) → fa.holds = true →
        s.live a = some (m', fa) := by
      intro a m' fa ha hfa
      rcases live_update hlive ha with ⟨-, heq⟩ | ⟨-, ha⟩
      · cases heq
        cases hfa
      · exact ha
    exact fun a b m' fa fb ha hfa hb hfb => hi.one a b m' fa fb (hne ha hfa) hfa (hne hb hfb) hfb
  · exact hi.lock (hiff.mp hok) hl hlive (held_timed hn hform hlive)
  · have hm : m ∈ s.holder.held := (hi.held m).mpr ⟨n, form, hn, hh⟩
    have hlive' : ∀ {a : N} {m' : M} {fa : Form}, s'.live a = some (m', fa) → a ≠ n ∧ s.live a = some (m', fa) := by
      intro a m' fa ha
      exact (live_update hlive ha).resolve_left fun h => by cases h.2
    refine ⟨by simp [hholder, Holder.unlock, hm, hi.faulty], fun m' => ?_, ?_⟩
    · rw [hholder, held_destroy hlive]
      simp only [Holder.unlock, Finset.mem_erase, hi.held]
      constructor
      · rintro ⟨hne, n', form', hn', hh'⟩
        refine ⟨n', form', ?_, hn', hh'⟩
        rintro rfl
        rw [hn] at hn'
        cases hn'
        exact hne rfl
      · rintro ⟨n', form', hne, hn', hh'⟩
        refine ⟨?_, n', form', hn', hh'⟩
        rintro rfl
        exact hne (hi.one n' n m' form' form hn' hh' hn hh)
    · exact fun a b m' fa fb ha hfa hb hfb => hi.one a b m' fa fb (hlive' ha).2 hfa (hlive' hb).2 hfb

/-- A mutex that no locker will unlock stays locked, up to a fault. -/
theorem Leak.step (hl : s.Leak m) (h : s.step op = some s') : s'.holder.faulty = true ∨ s'.Leak m := by
  obtain ⟨hm, hnot⟩ := hl
  have hlock : ∀ {m'}, Locked m' s.holder s'.holder → (∀ m'', s'.Held m'' → s.Held m'' ∨ m'' = m') →
      s'.holder.faulty = true ∨ s'.Leak m := by
    intro m' hl hheld
    by_cases hm' : m' ∈ s.holder.held
    · exact Or.inl (hl.again hm')
    · refine Or.inr ⟨by rw [(hl.free hm').1]; exact Finset.mem_insert_of_mem hm, fun hh => ?_⟩
      rcases hheld m hh with hh | rfl
      · exact hnot hh
      · exact hm' hm
  rcases step_cases h with ⟨n, m', form, hn, hform, hl, ⟨hlive, -⟩ | ⟨hlive, -⟩⟩ | ⟨n, m', hn, hholder, hlive, -⟩ |
    ⟨n, m', form, form', hn, hform, hl, hlive, -⟩ | ⟨n, m', form, hn, hh, hholder, hlive, -⟩
  · exact hlock hl fun m'' hh => by simpa [held_construct hn hlive m'', hform] using hh
  · exact hlock hl fun m'' hh => Or.inl (by simpa [Held, hlive] using hh)
  · refine Or.inr ⟨by rwa [hholder], fun hh => hnot ?_⟩
    simpa [held_construct hn hlive m, Form.holds] using hh
  · exact hlock hl fun m'' hh => (held_timed hn hform hlive m'').mp hh
  · refine Or.inr ⟨?_, fun hh' => ?_⟩
    · rw [hholder]
      refine Finset.mem_erase.mpr ⟨?_, hm⟩
      rintro rfl
      exact hnot ⟨n, form, hn, hh⟩
    · obtain ⟨n', form', -, hn', hf'⟩ := (held_destroy hlive m).mp hh'
      exact hnot ⟨n', form', hn', hf'⟩

/-- An operation that is not `Ok` is a fault, or leaves a mutex locked for good. -/
theorem Inv.step_not_ok (hi : s.Inv) (hok : ¬ s.Ok op) (h : s.step op = some s') :
    s'.holder.faulty = true ∨ ∃ m, s'.Leak m := by
  rcases step_cases h with ⟨n, m, form, hn, -, hl, ⟨-, hiff⟩ | ⟨hlive, -⟩⟩ | ⟨n, m, -, -, -, hok'⟩ |
    ⟨n, m, form, form', hn, -, hl, -, hiff⟩ | ⟨n, m, form, -, -, -, -, hok'⟩
  · exact Or.inl (hl.again ((hi.held m).mpr (not_not.mp (hiff.not.mp hok))))
  · -- the constructor threw
    by_cases hm : m ∈ s.holder.held
    · exact Or.inl (hl.again hm)
    · refine Or.inr ⟨m, by rw [(hl.free hm).1]; exact Finset.mem_insert_self m _, fun hh => hm ?_⟩
      rw [hi.held]
      simpa [Held, hlive] using hh
  · exact absurd hok' hok
  · exact Or.inl (hl.again ((hi.held m).mpr (not_not.mp (hiff.not.mp hok))))
  · exact absurd hok' hok

/-! ## Sequences of operations -/

/-- After every operation the mutexes are as they should be. -/
def Disciplined : Lockers N M → List (Op N M) → Prop
  | s, [] => s.Good
  | s, op :: ops => s.Good ∧ ∀ s', s.step op = some s' → s'.Disciplined ops

/-- Every operation is `Ok` in its turn. -/
def AllOk : Lockers N M → List (Op N M) → Prop
  | _, [] => True
  | s, op :: ops => s.Ok op ∧ ∀ s', s.step op = some s' → s'.AllOk ops

theorem Disciplined.good (h : s.Disciplined ops) : s.Good := by
  cases ops with
  | nil => exact h
  | cons op ops => exact h.1

theorem Disciplined.exec_good (hd : s.Disciplined ops) (h : (system N M).exec Anything s ops = some s') : s'.Good := by
  induction ops generalizing s with
  | nil =>
    cases h
    exact hd
  | cons op ops ih =>
    simp only [System.exec, if_true] at h
    obtain ⟨s1, h1, h2⟩ := Option.bind_eq_some_iff.mp h
    exact ih (hd.2 s1 h1) h2

/-- A sequence that ends without lockers does not keep the discipline from a state with a leak. -/
theorem Leak.not_disciplined (hl : s.Leak m) (h : (system N M).exec Anything s ops = some s')
    (hend : ∀ n, s'.live n = none) : ¬ s.Disciplined ops := by
  induction ops generalizing s with
  | nil =>
    cases h
    exact hl.not_good hend
  | cons op ops ih =>
    intro hd
    simp only [System.exec, if_true] at h
    obtain ⟨s1, h1, h2⟩ := Option.bind_eq_some_iff.mp h
    have hd1 := hd.2 s1 h1
    rcases hl.step h1 with hf | hl1
    · have := hd1.good.1
      rw [hf] at this
      cases this
    · exact ih hl1 h2 hd1

theorem Inv.disciplined (hi : s.Inv) (hok : s.AllOk ops) : s.Disciplined ops := by
  induction ops generalizing s with
  | nil => exact hi.good
  | cons op ops ih => exact ⟨hi.good, fun s' hs => ih (hi.step hok.1 hs) (hok.2 s' hs)⟩

theorem Inv.allOk (hi : s.Inv) (h : (system N M).exec Anything s ops = some s') (hend : ∀ n, s'.live n = none)
    (hd : s.Disciplined ops) : s.AllOk ops := by
  induction ops generalizing s with
  | nil => trivial
  | cons op ops ih =>
    simp only [System.exec, if_true] at h
    obtain ⟨s1, h1, h2⟩ := Option.bind_eq_some_iff.mp h
    have hd1 := hd.2 s1 h1
    have hok : s.Ok op := by
      by_contra hok
      rcases hi.step_not_ok hok h1 with hf | ⟨m, hl⟩
      · have := hd1.good.1
        rw [hf] at this
        cases this
      · exact hl.not_disciplined h2 hend hd1
    refine ⟨hok, fun s2 hs2 => ?_⟩
    obtain rfl := Option.some.inj (h1.symm.trans hs2)
    exact ih (hi.step hok h1) h2 hd1

theorem inv_init : (system N M).init.Inv :=
  ⟨rfl, fun m => by simp [system, Held], by simp [system]⟩

/-- **The discipline of the lockers.** A thread keeps the discipline of the mutexes as long as no predicate throws in a
constructor, no `TimedWait` is called on a locker that holds its mutex, and no mutex is locked that is held through
another locker; and a thread that destroys all its lockers has kept it only so. -/
theorem disciplined_iff (ops : List (Op N M)) :
    ((system N M).init.AllOk ops → (system N M).init.Disciplined ops) ∧
      ∀ s, (system N M).exec Anything (system N M).init ops = some s → (∀ n, s.live n = none) →
        ((system N M).init.Disciplined ops ↔ (system N M).init.AllOk ops) :=
  ⟨inv_init.disciplined, fun _ h hend => ⟨inv_init.allOk h hend, inv_init.disciplined⟩⟩

end Discipline

section Runs

/-- A wait with a time limit that is notified, and one with a predicate. -/
def twoLockers : List (Op Bool Bool) :=
  [.conditionWaitOnly true true, .timedWait true [(.returns true, true), (.returns false, true)],
    .conditionWait false false [.returns true, .returns false], .destroy true, .destroy false]

theorem twoLockers_allOk : (system Bool Bool).init.AllOk twoLockers := by
  simp [twoLockers, AllOk, Ok, Held, system, step, Form.holds, Form.timedWait, throwsIn]

theorem disciplined_iff_run : (system Bool Bool).init.Disciplined twoLockers := by
  have hrun : ((system Bool Bool).exec Anything (system Bool Bool).init twoLockers).isSome = true := by decide
  obtain ⟨s, hs⟩ := Option.isSome_iff_exists.mp hrun
  have hend : ∀ n, s.live n = none := by
    cases hs
    decide
  exact ((disciplined_iff twoLockers).2 s hs hend).mpr twoLockers_allOk

/-- A `TimedWait` is called a second time. -/
def timedTwice : List (Op Unit Unit) :=
  [.conditionWaitOnly () (), .timedWait () [(.returns false, true)], .timedWait () [(.returns false, true)],
    .destroy ()]

/-- **A predicate that throws in a constructor leaves the mutex locked**: there is no locker that would unlock it. **A
second `TimedWait` locks the mutex that the first has left locked.** -/
theorem throwing_predicate_leaks :
    (∃ s, (system Unit Unit).exec Anything (system Unit Unit).init [.conditionWait () () [.throws]] = some s ∧
      (∀ n, s.live n = none) ∧ () ∈ s.holder.held) ∧
    (∃ s, (system Unit Unit).exec Anything (system Unit Unit).init timedTwice = some s ∧
      (∀ n, s.live n = none) ∧ s.holder.faulty = true) ∧
    ¬ (system Unit Unit).init.Disciplined [.conditionWait () () [.throws]] ∧
    ¬ (system Unit Unit).init.Disciplined timedTwice := by
  refine ⟨⟨_, rfl, fun _ => rfl, by decide⟩, ⟨_, rfl, fun _ => rfl, rfl⟩, fun h => ?_, fun h => ?_⟩
  · have hempty := (h.exec_good rfl).2 fun _ => rfl
    exact absurd (hempty : ({()} : Finset Unit) = ∅) (by decide)
  · have hfaulty := (h.exec_good rfl).1
    cases hfaulty

end Runs

end Lockers

end Tpool
