import Tpool.Thread.TimedWait

/-!
# TimedWait of a ConditionWaitLocker

- `TimedWaitLoop.step`: a thread in `ConditionWaitLocker::TimedWait(f, delay_in_ms)`, from the moment it has the mutex,
  and the clock. Time passes anywhere; `f` returns anything; a wait ends when it is notified, by itself, interrupted or
  timed out.
- `Reachable.sound`: it returns true with `f` false under the mutex, and false not before the delay is over, in every
  run.
- `honours_delay`: it does not wait longer than the delay, the time for getting the mutex back apart, in the runs in
  which every wait is begun on time. `late_waits_on`: a wait that is begun late can last longer. `waits_twice` is a run
  where it does.
-/

namespace Tpool

open Concurrency

namespace TimedWaitLoop

/-- Microseconds since the epoch, below `2^50` seconds. -/
structure Clock where
  micros : ℕ
  lt : micros < 1125899906842624000000
  deriving DecidableEq

def gettimeofday (now : Clock) : Timeval := ⟨Int64.ofNat (now.micros / 1000000), Int64.ofNat (now.micros % 1000000)⟩

/-- How a `pthread_cond_timedwait` ends that has let go the mutex. -/
inductive Wake
  | success
  | etimedout
  | eintr
  deriving DecidableEq

/-- Where the thread is. -/
inductive PC
  | loop
  | gettimeofday
  | timedwait (timeout : Timespec)
  | asleep (timeout : Timespec)
  | lock (ret : Wake) (timeout : Timespec)
  | done (result : Bool)

/-- `isFalse` when `f` has returned false since the thread got the mutex; `relocking` is the time it has spent in
getting the mutex back. -/
structure State where
  now : Clock
  pc : PC
  hasMutex : Bool
  isFalse : Bool
  relocking : ℕ

/-- Time passes, the thread takes a step, `f` returning `f`, or its wait ends. -/
inductive Action
  | tick (micros : ℕ)
  | step (f : Bool)
  | wake (how : Wake)

/-- `pthread_cond_timedwait` does not sleep past its timeout. -/
def PC.admits (now : Clock) : PC → Bool
  | .asleep timeout => decide (1000 * (now.micros : ℤ) ≤ timeout.nanos)
  | _ => true

def PC.isLock : PC → Bool
  | .lock _ _ => true
  | _ => false

/-- `ret != EINTR` leaves the loop, with `ret == 0`; only a success evaluates `f` again. -/
def afterWait (timeout : Timespec) : Wake → PC
  | .success => .loop
  | .etimedout => .done false
  | .eintr => .timedwait timeout

instance (t : Timespec) : Decidable t.Normal :=
  decidable_of_iff (0 ≤ t.tv_nsec.toInt ∧ t.tv_nsec.toInt < 1000000000) ⟨fun h => ⟨h.1, h.2⟩, fun h => ⟨h.1, h.2⟩⟩

/-- A step of the thread. -/
def threadStep (delay_in_ms : TimeValue) (s : State) (f : Bool) : Option State :=
  match s.pc with
  | .loop => some (if f then { s with pc := .gettimeofday } else { s with pc := .done true, isFalse := true })
  | .gettimeofday => some { s with pc := .timedwait (TimedWait.timeout (gettimeofday s.now) delay_in_ms) }
  | .timedwait timeout =>
    -- `EINVAL`
    if ¬ timeout.Normal then some { s with pc := .done false }
    -- a timeout that has passed already is not waited for
    else if timeout.nanos ≤ 1000 * s.now.micros then
      some { s with pc := .lock .etimedout timeout, hasMutex := false, isFalse := false }
    else some { s with pc := .asleep timeout, hasMutex := false, isFalse := false }
  | .lock ret timeout => some { s with pc := afterWait timeout ret, hasMutex := true }
  | .asleep _ | .done _ => none

def step (delay_in_ms : TimeValue) (s : State) : Action → Option State
  | .tick micros =>
    if h : s.now.micros + micros < 1125899906842624000000 then
      if s.pc.admits ⟨s.now.micros + micros, h⟩ then
        some { s with now := ⟨s.now.micros + micros, h⟩, relocking := if s.pc.isLock then s.relocking + micros
          else s.relocking }
      else none
    else none
  | .step f => threadStep delay_in_ms s f
  | .wake how => match s.pc with
    | .asleep timeout =>
      if how = .etimedout ∧ 1000 * (s.now.micros : ℤ) < timeout.nanos then none
      else some { s with pc := .lock how timeout }
    | _ => none

/-- The thread has the mutex at the time `entered`. -/
def system (entered : Clock) (delay_in_ms : TimeValue) : System State Action where
  init := ⟨entered, .loop, true, false, 0⟩
  step := step delay_in_ms

/-! ## What it returns -/

section Sound

variable {entered : Clock} {delay_in_ms : TimeValue} {s s' : State} {ok : State → Action → Prop}

theorem gettimeofday_normal (now : Clock) : (gettimeofday now).Normal ∧
    (gettimeofday now).tv_sec.toInt < 1125899906842624 ∧ (gettimeofday now).micros = now.micros := by
  have hlt := now.lt
  have hsec : (gettimeofday now).tv_sec.toInt = (now.micros / 1000000 : ℕ) := Int64.toInt_ofNat_of_lt (by omega)
  have husec : (gettimeofday now).tv_usec.toInt = (now.micros % 1000000 : ℕ) := Int64.toInt_ofNat_of_lt (by omega)
  refine ⟨⟨?_, ?_, ?_⟩, ?_, ?_⟩
  · omega
  · omega
  · omega
  · omega
  · unfold Timeval.micros
    omega

/-- The timeout of a wait lies the whole delay after the reading of the clock. -/
theorem timeout_spec (now : Clock) (delay_in_ms : TimeValue) :
    (TimedWait.timeout (gettimeofday now) delay_in_ms).Normal ∧
    (TimedWait.timeout (gettimeofday now) delay_in_ms).nanos = 1000 * (now.micros + 1000 * delay_in_ms.toNat) := by
  obtain ⟨hnormal, hsec, hmicros⟩ := gettimeofday_normal now
  obtain ⟨-, htimeout, hnanos⟩ := @TimedWait.timeout?_normal (gettimeofday now) delay_in_ms hnormal hsec
  rw [hmicros] at hnanos
  exact ⟨htimeout, hnanos⟩

/-- The timeout is valid, and not before the delay is over. -/
def Late (entered : Clock) (delay_in_ms : TimeValue) (timeout : Timespec) : Prop :=
  timeout.Normal ∧ 1000 * ((entered.micros : ℤ) + 1000 * delay_in_ms.toNat) ≤ timeout.nanos

/-- What holds at each point, in every run. -/
def PC.Sound (entered : Clock) (delay_in_ms : TimeValue) (s : State) : PC → Prop
  | .loop | .gettimeofday => s.hasMutex = true
  | .timedwait timeout => s.hasMutex = true ∧ Late entered delay_in_ms timeout
  | .asleep timeout => Late entered delay_in_ms timeout
  | .lock ret timeout =>
    Late entered delay_in_ms timeout ∧ (ret = .etimedout → timeout.nanos ≤ 1000 * (s.now.micros : ℤ))
  | .done true => s.hasMutex = true ∧ s.isFalse = true
  | .done false => s.hasMutex = true ∧ entered.micros + 1000 * delay_in_ms.toNat ≤ s.now.micros

structure Sound (entered : Clock) (delay_in_ms : TimeValue) (s : State) : Prop where
  now : entered.micros ≤ s.now.micros
  pc : s.pc.Sound entered delay_in_ms s

theorem Sound.tick (hi : Sound entered delay_in_ms s) {micros : ℕ} (h : step delay_in_ms s (.tick micros) = some s') :
    Sound entered delay_in_ms s' := by
  simp only [step] at h
  split at h
  · split at h <;> cases h
    refine ⟨hi.now.trans (Nat.le_add_right _ _), ?_⟩
    have hpc := hi.pc
    show s.pc.Sound entered delay_in_ms _
    cases hs : s.pc with
    | loop | gettimeofday | timedwait timeout | asleep timeout => rwa [hs] at hpc
    | lock ret timeout =>
      rw [hs] at hpc
      refine ⟨hpc.1, fun hret => (hpc.2 hret).trans ?_⟩
      push_cast
      omega
    | done result =>
      rw [hs] at hpc
      cases result with
      | true => exact hpc
      | false => exact ⟨hpc.1, hpc.2.trans (Nat.le_add_right _ _)⟩
  · cases h

theorem Sound.threadStep (hi : Sound entered delay_in_ms s) {f : Bool}
    (h : TimedWaitLoop.threadStep delay_in_ms s f = some s') : Sound entered delay_in_ms s' := by
  obtain ⟨hnow, hpc⟩ := hi
  simp only [TimedWaitLoop.threadStep] at h
  cases hs : s.pc with
  | loop =>
    simp only [hs, Option.some.injEq] at h hpc
    subst h
    cases f with
    | true => exact ⟨hnow, hpc⟩
    | false => exact ⟨hnow, hpc, rfl⟩
  | gettimeofday =>
    simp only [hs, Option.some.injEq] at h hpc
    subst h
    obtain ⟨hnormal, hnanos⟩ := timeout_spec s.now delay_in_ms
    refine ⟨hnow, hpc, hnormal, ?_⟩
    omega
  | timedwait timeout =>
    simp only [hs] at h hpc
    rw [if_neg (not_not.mpr hpc.2.1)] at h
    split at h <;> cases h
    · exact ⟨hnow, hpc.2, fun _ => ‹_›⟩
    · exact ⟨hnow, hpc.2⟩
  | lock ret timeout =>
    simp only [hs, Option.some.injEq] at h hpc
    subst h
    obtain ⟨hlate, hover⟩ := hpc
    cases ret with
    | success => exact ⟨hnow, rfl⟩
    | eintr => exact ⟨hnow, rfl, hlate⟩
    | etimedout =>
      have hover := hlate.2.trans (hover rfl)
      refine ⟨hnow, rfl, ?_⟩
      show entered.micros + 1000 * delay_in_ms.toNat ≤ s.now.micros
      omega
  | asleep timeout | done result => simp [hs] at h

theorem wake_cases {how : Wake} (h : step delay_in_ms s (.wake how) = some s') : ∃ timeout, s.pc = .asleep timeout ∧
    s' = { s with pc := .lock how timeout } ∧ (how = .etimedout → timeout.nanos ≤ 1000 * (s.now.micros : ℤ)) := by
  simp only [step] at h
  split at h
  · rename_i timeout hs
    split at h <;> cases h
    rename_i hnot
    exact ⟨timeout, hs, rfl, fun hhow => not_lt.mp fun hlt => hnot ⟨hhow, hlt⟩⟩
  · cases h

theorem Sound.step (hi : Sound entered delay_in_ms s) {a : Action} (h : TimedWaitLoop.step delay_in_ms s a = some s') :
    Sound entered delay_in_ms s' := by
  cases a with
  | tick micros => exact hi.tick h
  | step f => exact hi.threadStep h
  | wake how =>
    obtain ⟨timeout, hs, rfl, hover⟩ := wake_cases h
    have hpc := hi.pc
    rw [hs] at hpc
    exact ⟨hi.now, hpc, hover⟩

/-- **It returns true with `f` false under the mutex, and false when the delay is over.** -/
theorem Reachable.sound (h : (system entered delay_in_ms).Reachable ok s) : Sound entered delay_in_ms s :=
  h.induct ⟨le_rfl, rfl⟩ fun _ _ _ _ _ hs hi => hi.step hs

end Sound

/-! ## How long it waits -/

def PC.isAsleep : PC → Bool
  | .asleep _ => true
  | _ => false

/-- The thread is about to read the clock for a wait. -/
def PC.isReading : PC → Bool
  | .gettimeofday => true
  | _ => false

/-- A wait is begun on time: what has passed since the thread entered has been spent in getting the mutex back. A delay
of zero is no wait. -/
def OnTime (entered : Clock) (delay_in_ms : TimeValue) (s : State) : Action → Prop
  | .step _ => s.pc.isReading = true → delay_in_ms = 0 ∨ s.now.micros ≤ entered.micros + s.relocking
  | _ => True

instance (entered : Clock) (delay_in_ms : TimeValue) (s : State) : ∀ a, Decidable (OnTime entered delay_in_ms s a)
  | .step _ => inferInstanceAs (Decidable (s.pc.isReading = true → delay_in_ms = 0 ∨
      s.now.micros ≤ entered.micros + s.relocking))
  | .tick _ | .wake _ => isTrue trivial

/-- `TimedWait` honours its delay. -/
structure Honours (entered : Clock) (delay_in_ms : TimeValue) (s : State) : Prop where
  returns_true : s.pc = .done true → s.hasMutex = true ∧ s.isFalse = true
  returns_false : s.pc = .done false → entered.micros + 1000 * delay_in_ms.toNat ≤ s.now.micros
  waits : s.pc.isAsleep = true → s.now.micros ≤ entered.micros + 1000 * delay_in_ms.toNat + s.relocking

section Waits

variable {entered : Clock} {delay_in_ms : TimeValue} {s s' : State} {ok : State → Action → Prop}

/-- The timeout is not after the delay and the time for getting the mutex back. -/
def Early (entered : Clock) (delay_in_ms : TimeValue) (s : State) (timeout : Timespec) : Prop :=
  timeout.nanos ≤ 1000 * ((entered.micros : ℤ) + 1000 * delay_in_ms.toNat + s.relocking)

/-- What holds at each point, when the waits are begun on time. A timeout that has passed does not count. -/
def PC.InTime (entered : Clock) (delay_in_ms : TimeValue) (s : State) : PC → Prop
  | .timedwait timeout | .lock .eintr timeout =>
    Early entered delay_in_ms s timeout ∨ timeout.nanos ≤ 1000 * (s.now.micros : ℤ)
  | .asleep timeout => Early entered delay_in_ms s timeout ∧ 1000 * (s.now.micros : ℤ) ≤ timeout.nanos
  | _ => True

def InTime (entered : Clock) (delay_in_ms : TimeValue) (s : State) : Prop := s.pc.InTime entered delay_in_ms s

theorem InTime.tick (hi : InTime entered delay_in_ms s) {micros : ℕ} (h : step delay_in_ms s (.tick micros) = some s') :
    InTime entered delay_in_ms s' := by
  simp only [step] at h
  split at h
  · split at h <;> cases h
    rename_i hadmits
    unfold InTime at hi ⊢
    cases hs : s.pc with
    | loop | gettimeofday | done result => trivial
    | timedwait timeout =>
      simp only [hs, PC.InTime, PC.isLock, Early] at hi ⊢
      exact hi.imp id fun hle => by omega
    | asleep timeout =>
      simp only [hs, PC.InTime, PC.isLock, PC.admits, Early, decide_eq_true_eq] at hi hadmits ⊢
      exact ⟨hi.1, hadmits⟩
    | lock ret timeout =>
      cases ret with
      | success | etimedout => trivial
      | eintr =>
        simp only [hs, PC.InTime, PC.isLock, Early, if_true] at hi ⊢
        exact hi.imp (fun hle => by omega) fun hle => by omega
  · cases h

theorem InTime.threadStep (hi : InTime entered delay_in_ms s) {f : Bool} (hok : OnTime entered delay_in_ms s (.step f))
    (h : TimedWaitLoop.threadStep delay_in_ms s f = some s') : InTime entered delay_in_ms s' := by
  unfold InTime at hi
  simp only [TimedWaitLoop.threadStep] at h
  cases hs : s.pc with
  | loop =>
    simp only [hs, Option.some.injEq] at h
    subst h
    cases f <;> trivial
  | gettimeofday =>
    simp only [hs, Option.some.injEq] at h
    subst h
    have hnanos := (timeout_spec s.now delay_in_ms).2
    rcases hok (by rw [hs]; rfl) with rfl | hle
    · refine Or.inr ?_
      rw [hnanos]
      simp
    · refine Or.inl ?_
      unfold Early
      rw [hnanos]
      show _ ≤ 1000 * ((entered.micros : ℤ) + 1000 * delay_in_ms.toNat + s.relocking)
      omega
  | timedwait timeout =>
    simp only [hs] at h hi
    split at h
    · cases h
      trivial
    · split at h <;> cases h
      · trivial
      · rename_i hlt
        exact ⟨hi.resolve_right hlt, (not_le.mp hlt).le⟩
  | lock ret timeout =>
    simp only [hs, Option.some.injEq] at h hi
    subst h
    cases ret with
    | success | etimedout => trivial
    | eintr => exact hi
  | asleep timeout | done result => simp [hs] at h

theorem InTime.step (hi : InTime entered delay_in_ms s) {a : Action} (hok : OnTime entered delay_in_ms s a)
    (h : TimedWaitLoop.step delay_in_ms s a = some s') : InTime entered delay_in_ms s' := by
  cases a with
  | tick micros => exact hi.tick h
  | step f => exact hi.threadStep hok h
  | wake how =>
    obtain ⟨timeout, hs, rfl, -⟩ := wake_cases h
    unfold InTime at hi
    rw [hs] at hi
    cases how with
    | success | etimedout => trivial
    | eintr => exact Or.inl hi.1

/-- **`TimedWait` honours its delay** in the runs in which every wait is begun on time. -/
theorem honours_delay (h : (system entered delay_in_ms).Reachable (OnTime entered delay_in_ms) s) :
    Honours entered delay_in_ms s := by
  have hsound := (Reachable.sound h).pc
  have htime : InTime entered delay_in_ms s :=
    h.induct (I := InTime entered delay_in_ms) (by trivial) fun _ _ _ _ hok hs hi => hi.step hok hs
  refine ⟨fun hs => ?_, fun hs => ?_, fun hs => ?_⟩
  · rw [hs] at hsound
    exact hsound
  · rw [hs] at hsound
    exact hsound.2
  · cases hpc : s.pc with
    | asleep timeout =>
      unfold InTime at htime
      rw [hpc] at htime
      obtain ⟨hearly, hnow⟩ := htime
      have hle := hnow.trans hearly
      omega
    | loop | gettimeofday | timedwait timeout | lock ret timeout | done result => rw [hpc] at hs; cases hs

/-- Five seconds after the epoch. -/
def five : Clock := ⟨5000000, by decide⟩

/-- A wait of a second, after which it takes five milliseconds to get the mutex back. -/
theorem honours_delay_run : ∃ s, s.pc.isAsleep = true ∧ 5999999 < s.now.micros ∧ Honours five 1000 s := by
  obtain ⟨s, hs, hp⟩ := System.reachable_of_exec (system five 1000) (OnTime five 1000)
    [.step true, .step true, .step true, .tick 1000000] (fun s => s.pc.isAsleep && decide (5999999 < s.now.micros))
    (by decide +kernel)
  simp only [Bool.and_eq_true, decide_eq_true_eq] at hp
  exact ⟨s, hp.1, hp.2, honours_delay hs⟩

/-- **A wait that is begun late can last too long**: when nobody wakes it. -/
theorem late_waits_on {f : Bool} (hlate : ¬ OnTime entered delay_in_ms s (.step f))
    (hclock : s.now.micros + 1000 * delay_in_ms.toNat < 1125899906842624000000) :
    ∃ s', (system entered delay_in_ms).Reaches Anything s s' ∧ ¬ Honours entered delay_in_ms s' := by
  obtain ⟨hreading, hnot⟩ := Classical.not_imp.mp hlate
  obtain ⟨hdelay, hpast⟩ := not_or.mp hnot
  have hs : s.pc = .gettimeofday := by
    cases hpc : s.pc with
    | gettimeofday => rfl
    | loop | timedwait timeout | asleep timeout | lock ret timeout | done result => rw [hpc] at hreading; cases hreading
  have hpos : 0 < delay_in_ms.toNat := Nat.pos_of_ne_zero fun h0 => hdelay (UInt64.toNat_inj.mp h0)
  obtain ⟨timeout, htimeout⟩ : ∃ timeout, TimedWait.timeout (gettimeofday s.now) delay_in_ms = timeout := ⟨_, rfl⟩
  obtain ⟨hnormal, hnanos⟩ := timeout_spec s.now delay_in_ms
  rw [htimeout] at hnormal hnanos
  have hlt : ¬ timeout.nanos ≤ 1000 * (s.now.micros : ℤ) := by omega
  -- the thread falls asleep at once, and nothing happens until its timeout
  let s1 : State := { s with pc := .timedwait timeout }
  let s2 : State := { s with pc := .asleep timeout, hasMutex := false, isFalse := false }
  let s3 : State := { s2 with now := ⟨s.now.micros + 1000 * delay_in_ms.toNat, hclock⟩ }
  have h1 : (system entered delay_in_ms).step s (.step f) = some s1 := by
    show threadStep delay_in_ms s f = some s1
    simp only [threadStep, hs, htimeout, s1]
  have h2 : (system entered delay_in_ms).step s1 (.step true) = some s2 :=
    (if_neg (not_not.mpr hnormal)).trans (if_neg hlt)
  have h3 : (system entered delay_in_ms).step s2 (.tick (1000 * delay_in_ms.toNat)) = some s3 := by
    have hadmits : s2.pc.admits ⟨s.now.micros + 1000 * delay_in_ms.toNat, hclock⟩ = true := by
      refine decide_eq_true ?_
      show 1000 * ((s.now.micros + 1000 * delay_in_ms.toNat : ℕ) : ℤ) ≤ timeout.nanos
      omega
    exact (dif_pos hclock).trans (if_pos hadmits)
  have hrun : (system entered delay_in_ms).Reaches Anything s s3 :=
    Relation.ReflTransGen.head ⟨_, trivial, h1⟩ (.head ⟨_, trivial, h2⟩ (.single ⟨_, trivial, h3⟩))
  refine ⟨s3, hrun, fun hh => ?_⟩
  have hle : s.now.micros + 1000 * delay_in_ms.toNat ≤ entered.micros + 1000 * delay_in_ms.toNat + s.relocking :=
    hh.waits rfl
  omega

/-- **A notification that leaves `f` true starts the whole delay again**: of one second, half a second after it is
over. -/
theorem waits_twice : ∃ s, (system five 1000).Reachable Anything s ∧ s.pc.isAsleep = true ∧
    five.micros + 1000 * (1000 : TimeValue).toNat + s.relocking + 500000 ≤ s.now.micros := by
  obtain ⟨s, hs, hp⟩ := System.reachable_of_exec (system five 1000) Anything
    [.step true, .step true, .step true, .tick 900000, .wake .success, .step true, .step true, .step true, .step true,
      .tick 600000]
    (fun s => s.pc.isAsleep &&
     decide (five.micros + 1000 * (1000 : TimeValue).toNat + s.relocking + 500000 ≤ s.now.micros))
    (by decide +kernel)
  simp only [Bool.and_eq_true, decide_eq_true_eq] at hp
  exact ⟨s, hs, hp.1, hp.2⟩

end Waits

end TimedWaitLoop

end Tpool
