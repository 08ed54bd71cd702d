import Tpool.Structures.Checked
import Tpool.Thread.SharedTimer

/-!
# The clock, and how long the timer sleeps

- `getCurrentTime` and `TimedWait.timeout`: milliseconds of `gettimeofday`, and the absolute time until which
  `ConditionVariable::TimedWait` sleeps, in the words of the machine. `getCurrentTime?` and `TimedWait.timeout?` are the
  same computations in which every operation has to be exact.
- `wakes_at_deadline`: nothing overflows, and the sleep ends at the deadline or less than a millisecond after it.
-/

namespace Tpool

open Structures Structures.Checked

/-- `struct timeval`, as `gettimeofday` fills it. -/
structure Timeval where
  tv_sec : Int64
  tv_usec : Int64

/-- `struct timespec`. -/
structure Timespec where
  tv_sec : Int64
  tv_nsec : Int64

/-- `GetCurrentTime`, when the clock shows `now`. -/
def getCurrentTime (now : Timeval) : TimeValue := now.tv_sec.toUInt64 * 1000 + (now.tv_usec / 1000).toUInt64

/-- The `timeout` of `ConditionVariable::TimedWait`, when the clock shows `now`. `tv_nsec` holds microseconds up to the
last line. -/
def TimedWait.timeout (now : Timeval) (delay_in_ms : TimeValue) : Timespec :=
  let tv_sec := now.tv_sec + (delay_in_ms / 1000).toInt64
  let tv_nsec := now.tv_usec + (delay_in_ms % 1000).toInt64 * 1000
  if 1000000 ≤ tv_nsec then ⟨tv_sec + 1, tv_nsec % 1000000 * 1000⟩ else ⟨tv_sec, tv_nsec * 1000⟩

/-! ## Exact computations -/

/-- `GetCurrentTime`, every operation of which has to be exact. -/
def getCurrentTime? (now : Timeval) : Option TimeValue := do
  let now_in_ms ← unsigned now.tv_sec.toInt
  let now_in_ms ← unsigned (now_in_ms.toNat * (1000 : UInt64).toNat)
  let ms ← unsigned (now.tv_usec / 1000).toInt
  unsigned (now_in_ms.toNat + ms.toNat)

/-- `TimedWait`, every operation of which has to be exact. -/
def TimedWait.timeout? (now : Timeval) (delay_in_ms : TimeValue) : Option Timespec := do
  let sec ← signed (delay_in_ms / 1000).toNat
  let tv_sec ← signed (now.tv_sec.toInt + sec.toInt)
  let ms ← signed (delay_in_ms % 1000).toNat
  let us ← signed (ms.toInt * (1000 : Int64).toInt)
  let tv_nsec ← signed (now.tv_usec.toInt + us.toInt)
  if 1000000 ≤ tv_nsec then
    let tv_sec ← signed (tv_sec.toInt + (1 : Int64).toInt)
    let tv_nsec ← signed ((tv_nsec % 1000000).toInt * (1000 : Int64).toInt)
    return ⟨tv_sec, tv_nsec⟩
  else
    let tv_nsec ← signed (tv_nsec.toInt * (1000 : Int64).toInt)
    return ⟨tv_sec, tv_nsec⟩

/-- A reading of a clock: microseconds below a second. -/
structure Timeval.Normal (t : Timeval) : Prop where
  sec_nonneg : 0 ≤ t.tv_sec.toInt
  usec_nonneg : 0 ≤ t.tv_usec.toInt
  usec_lt : t.tv_usec.toInt < 1000000

/-- The reading in microseconds. -/
def Timeval.micros (t : Timeval) : ℤ := t.tv_sec.toInt * 1000000 + t.tv_usec.toInt

/-- Nanoseconds below a second. -/
structure Timespec.Normal (t : Timespec) : Prop where
  nsec_nonneg : 0 ≤ t.tv_nsec.toInt
  nsec_lt : t.tv_nsec.toInt < 1000000000

def Timespec.nanos (t : Timespec) : ℤ := t.tv_sec.toInt * 1000000000 + t.tv_nsec.toInt

section Exact

variable {t now : Timeval} {delay_in_ms ms : TimeValue} {r : Timespec}

/-- The exact computation, if there is one, is that of the machine. -/
theorem getCurrentTime?_eq (h : getCurrentTime? now = some ms) : ms = getCurrentTime now := by
  simp only [getCurrentTime?, Option.bind_eq_bind, Option.bind_eq_some_iff] at h
  obtain ⟨s, hs, p, hp, q, hq, h⟩ := h
  obtain rfl := unsigned_toUInt64 hs
  obtain rfl := unsigned_mul hp
  obtain rfl := unsigned_toUInt64 hq
  exact unsigned_add h

theorem TimedWait.timeout?_eq (h : timeout? now delay_in_ms = some r) : r = timeout now delay_in_ms := by
  simp only [timeout?, Option.bind_eq_bind, Option.bind_eq_some_iff] at h
  obtain ⟨sec, hsec, tv_sec, htv, ms, hms, us, hus, tv_nsec, htn, h⟩ := h
  obtain rfl := signed_toInt64 hsec
  obtain rfl := signed_add htv
  obtain rfl := signed_toInt64 hms
  obtain rfl := signed_mul hus
  obtain rfl := signed_add htn
  unfold timeout
  split at h
  · rename_i hge
    simp only [Option.bind_eq_some_iff, Option.pure_def, Option.some.injEq] at h
    obtain ⟨sec', hsec', nsec', hnsec', rfl⟩ := h
    rw [if_pos hge, signed_add hsec', signed_mul hnsec']
  · rename_i hge
    simp only [Option.bind_eq_some_iff, Option.pure_def, Option.some.injEq] at h
    obtain ⟨nsec', hnsec', rfl⟩ := h
    rw [if_neg hge, signed_mul hnsec']

/-- `GetCurrentTime` counts the milliseconds that are over, if their number fits its word. -/
theorem getCurrentTime?_normal (ht : t.Normal) (hfits : t.micros / 1000 < 18446744073709551616) :
    getCurrentTime? t = some (getCurrentTime t) ∧ ((getCurrentTime t).toNat : ℤ) = t.micros / 1000 := by
  obtain ⟨hsec, husec, hlt⟩ := ht
  simp only [Timeval.micros] at hfits ⊢
  have hdiv : (t.tv_usec / 1000).toInt = t.tv_usec.toInt / 1000 := by
    rw [Int64.toInt_div_of_ne_right _ _ (by decide)]
    show t.tv_usec.toInt.tdiv 1000 = _
    exact Int.tdiv_eq_ediv_of_nonneg husec
  obtain ⟨s, hs, hsv⟩ := exists_unsigned hsec (by omega)
  have h1000 : ((1000 : UInt64).toNat : ℤ) = 1000 := by simp
  obtain ⟨p, hp, hpv⟩ := exists_unsigned (n := s.toNat * 1000) (by omega) (by omega)
  rw [← h1000] at hp
  obtain ⟨q, hq, hqv⟩ := exists_unsigned (n := (t.tv_usec / 1000).toInt) (by omega) (by omega)
  obtain ⟨r, hr, hrv⟩ := exists_unsigned (n := p.toNat + q.toNat) (by omega) (by omega)
  have hexact : getCurrentTime? t = some r := Option.bind_eq_some_iff.mpr ⟨s, hs,
    Option.bind_eq_some_iff.mpr ⟨p, hp, Option.bind_eq_some_iff.mpr ⟨q, hq, hr⟩⟩⟩
  obtain rfl := getCurrentTime?_eq hexact
  exact ⟨hexact, by omega⟩

/-- What is passed to `pthread_cond_timedwait` is normalised and lies `delay_in_ms` after the reading. -/
theorem TimedWait.timeout?_normal (ht : t.Normal) (hsec : t.tv_sec.toInt < 1125899906842624) :
    timeout? t delay_in_ms = some (timeout t delay_in_ms) ∧ (timeout t delay_in_ms).Normal ∧
    (timeout t delay_in_ms).nanos = 1000 * (t.micros + 1000 * delay_in_ms.toNat) := by
  have hdiv : (delay_in_ms / 1000).toNat = delay_in_ms.toNat / 1000 := UInt64.toNat_div ..
  have hmod : (delay_in_ms % 1000).toNat = delay_in_ms.toNat % 1000 := UInt64.toNat_mod ..
  have hdelay : delay_in_ms.toNat < 18446744073709551616 := delay_in_ms.toNat_lt
  obtain ⟨hsec0, husec, hlt⟩ := ht
  have h1 : (1 : Int64).toInt = 1 := rfl
  have h1000 : (1000 : Int64).toInt = 1000 := rfl
  obtain ⟨sec, hs, hsv⟩ := exists_signed (n := (delay_in_ms / 1000).toNat) (by omega) (by omega)
  obtain ⟨tv_sec, htv, htvv⟩ := exists_signed (n := t.tv_sec.toInt + sec.toInt) (by omega) (by omega)
  obtain ⟨ms, hms, hmsv⟩ := exists_signed (n := (delay_in_ms % 1000).toNat) (by omega) (by omega)
  obtain ⟨us, hus, husv⟩ := exists_signed (n := ms.toInt * 1000) (by omega) (by omega)
  rw [← h1000] at hus
  obtain ⟨tv_nsec, htn, htnv⟩ := exists_signed (n := t.tv_usec.toInt + us.toInt) (by omega) (by omega)
  -- less than two seconds of microseconds, so one carry is enough
  by_cases hge : 1000000 ≤ tv_nsec
  · have hge' : 1000000 ≤ tv_nsec.toInt := Int64.le_iff_toInt_le.mp hge
    have hrem : (tv_nsec % 1000000).toInt = tv_nsec.toInt - 1000000 := by
      rw [Int64.toInt_mod]
      show tv_nsec.toInt.tmod 1000000 = _
      rw [Int.tmod_eq_emod_of_nonneg (by omega)]
      omega
    obtain ⟨sec', hsec', hsecv'⟩ := exists_signed (n := tv_sec.toInt + (1 : Int64).toInt) (by omega) (by omega)
    obtain ⟨nsec', hnsec', hnsecv'⟩ := exists_signed (n := (tv_nsec % 1000000).toInt * 1000) (by omega) (by omega)
    rw [← h1000] at hnsec'
    have hexact : timeout? t delay_in_ms = some ⟨sec', nsec'⟩ := by
      simp only [timeout?, hs, htv, hms, hus, htn, Option.bind_eq_bind, Option.bind_some, if_pos hge, hsec', hnsec',
        Option.pure_def]
    rw [← timeout?_eq hexact]
    refine ⟨hexact, ⟨?_, ?_⟩, ?_⟩ <;> simp only [Timeval.micros, Timespec.nanos] <;> omega
  · have hlt' : tv_nsec.toInt < 1000000 := by
      have := Int64.not_le.mp hge
      exact Int64.lt_iff_toInt_lt.mp this
    obtain ⟨nsec', hnsec', hnsecv'⟩ := exists_signed (n := tv_nsec.toInt * 1000) (by omega) (by omega)
    rw [← h1000] at hnsec'
    have hexact : timeout? t delay_in_ms = some ⟨tv_sec, nsec'⟩ := by
      simp only [timeout?, hs, htv, hms, hus, htn, Option.bind_eq_bind, Option.bind_some, if_neg hge, hnsec',
        Option.pure_def]
    rw [← timeout?_eq hexact]
    refine ⟨hexact, ⟨?_, ?_⟩, ?_⟩ <;> simp only [Timeval.micros, Timespec.nanos] <;> omega

end Exact

/-! ## The timer thread -/

variable {Cl T : Type*} [DecidableEq T]

/-- **The sleep ends at the deadline, not before it.** The timer thread reads the clock at `t1`, finds a deadline to
come and calls `TimedWait`, which reads the clock at `t2`. The bounds are `2^50` seconds and `2^63` milliseconds. -/
theorem wakes_at_deadline {t1 t2 : Timeval} {deadline : TimeValue} (h1 : t1.Normal) (h2 : t2.Normal)
    (hle : t1.micros ≤ t2.micros) (hsec : t2.tv_sec.toInt < 1125899906842624)
    (hdeadline : deadline.toNat < 9223372036854775808) (hlt : getCurrentTime t1 < deadline) :
    getCurrentTime? t1 = some (getCurrentTime t1) ∧ ((getCurrentTime t1).toNat : ℤ) = t1.micros / 1000 ∧
    unsigned (deadline.toNat - (getCurrentTime t1).toNat) = some (deadline - getCurrentTime t1) ∧
    TimedWait.timeout? t2 (deadline - getCurrentTime t1) =
      some (TimedWait.timeout t2 (deadline - getCurrentTime t1)) ∧
    (TimedWait.timeout t2 (deadline - getCurrentTime t1)).Normal ∧
    ∃ W, (TimedWait.timeout t2 (deadline - getCurrentTime t1)).nanos = 1000 * W ∧
      1000 * deadline.toNat ≤ W ∧ W ≤ 1000 * deadline.toNat + (t2.micros - t1.micros) + 999 ∧
      ∀ t3 : Timeval, t3.Normal → t3.micros / 1000 < 18446744073709551616 → W ≤ t3.micros →
        getCurrentTime? t3 = some (getCurrentTime t3) ∧ deadline ≤ getCurrentTime t3 ∧
        ∀ (s : SharedTimer Cl T) heap i u, s.pc = .compare u (getCurrentTime t3) deadline →
          s.timerStep heap i = some (s.goto (.isIntervalTask u (getCurrentTime t3))) := by
  have hlt' : (getCurrentTime t1).toNat < deadline.toNat := UInt64.lt_iff_toNat_lt.mp hlt
  have hfits : t1.micros / 1000 < 18446744073709551616 := by
    have := h2.usec_lt
    simp only [Timeval.micros] at hle ⊢
    omega
  obtain ⟨hnow, hnowv⟩ := getCurrentTime?_normal h1 hfits
  have hdelay : (deadline - getCurrentTime t1).toNat = deadline.toNat - (getCurrentTime t1).toNat :=
    UInt64.toNat_sub_of_le _ _ (UInt64.le_iff_toNat_le.mpr hlt'.le)
  have hfits2 : deadline.toNat - (getCurrentTime t1).toNat < 18446744073709551616 :=
    (Nat.sub_le _ _).trans_lt (hdeadline.trans (by decide))
  obtain ⟨hsleep, hnormal, hnanos⟩ := @TimedWait.timeout?_normal t2 (deadline - getCurrentTime t1) h2 hsec
  refine ⟨hnow, hnowv, unsigned_eq_some.mpr (by omega), hsleep, hnormal, _, hnanos, by omega, by omega, ?_⟩
  intro t3 h3 hfits3 hW
  obtain ⟨hnow3, hnowv3⟩ := getCurrentTime?_normal h3 hfits3
  have hdue : deadline ≤ getCurrentTime t3 := UInt64.le_iff_toNat_le.mpr (by omega)
  refine ⟨hnow3, hdue, fun s heap i u hpc => ?_⟩
  simp only [SharedTimer.timerStep, hpc, if_pos hdue]

/-- Half a millisecond after the first second the timer thread sleeps for one and a half seconds, with a carry. -/
theorem wakes_at_deadline_run :
    ∃ W : ℤ, (TimedWait.timeout ⟨1, 999700⟩ (2500 - getCurrentTime ⟨1, 500⟩)).nanos = 1000 * W ∧
    2500000 ≤ W ∧ W ≤ 2500000 + 999200 + 999 := by
  obtain ⟨-, -, -, -, -, W, hW, hle, hge, -⟩ := @wakes_at_deadline Unit Unit _ ⟨1, 500⟩ ⟨1, 999700⟩ 2500
    ⟨by decide, by decide, by decide⟩ ⟨by decide, by decide, by decide⟩ (by decide) (by decide) (by decide) (by decide)
  have hd : ((2500 : UInt64).toNat : ℤ) = 2500 := by decide
  have h1 : Timeval.micros ⟨1, 500⟩ = 1000500 := by decide
  have h2 : Timeval.micros ⟨1, 999700⟩ = 1999700 := by decide
  rw [hd] at hle hge
  rw [h1, h2] at hge
  exact ⟨W, hW, by omega, by omega⟩

end Tpool
