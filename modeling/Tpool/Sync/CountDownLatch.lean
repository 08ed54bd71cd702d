import Tpool.Concurrency.Blocked

/-!
# CountDownLatch

- `CountDownLatch.body`: the methods, statement by statement, around `m_count` and the condition variable of
  `m_count_guard`. `countDowns` records how often `--m_count` was executed; no method reads it.
- `Free`: what holds while the lock is free. The count is what is left, whoever waits waits for it to become `0`, and
  the calls that returned did so after enough `CountDown`s (`Logged`).
- `opens_once`: the latch opens at the last of the `CountDown`s it was made for, and stays open.
-/

namespace Tpool

open Concurrency Concurrency.Monitor

structure CountDownLatch where
  count : Int32
  countDowns : ℕ

namespace CountDownLatch

variable {Tid : Type*}

inductive Method
  | wait
  | countDown
  | getCount
  deriving DecidableEq

/-- What `GetCount` returns; the other methods return nothing. -/
abbrev Ret := Option Int32

abbrev Body := List (Stmt Unit CountDownLatch Ret)

def wait : Body := [.waitWhile () fun d _ => 0 < d.count]

def countDown : Body :=
  [.act false fun d x => some (⟨d.count - 1, d.countDowns + 1⟩, x), .notifyAllIf () fun d => d.count == 0]

def getCount : Body := [.act false fun d _ => some (d, some d.count)]

def body : Method → Body
  | .wait => wait
  | .countDown => countDown
  | .getCount => getCount

def code : Code Method Unit CountDownLatch Ret := ⟨body, none⟩

/-- A latch constructed with `count`. -/
def latch (Tid : Type*) [DecidableEq Tid] (count : Int32) :
    System (State Tid Method Unit CountDownLatch Ret) (Action Tid Method Unit) := Monitor.system code ⟨count, 0⟩

/-- The `CountDown`s that have returned. -/
def completed (lg : Log Tid Method Ret) : ℕ := lg.countP fun c => c.2.1 == .countDown

@[simp] theorem completed_nil : completed ([] : Log Tid Method Ret) = 0 := rfl

@[simp] theorem completed_append (lg : Log Tid Method Ret) (t : Tid) (m : Method) (r : Option Ret) :
    completed (lg ++ [(t, m, r)]) = completed lg + if m = .countDown then 1 else 0 := by
  cases m <;> simp [completed]

/-- `m_count` does not overflow: `CountDown` was called at most `count + 2^31` times. -/
def InRange (count : Int32) (d : CountDownLatch) : Prop := (d.countDowns : ℤ) ≤ count.toInt + 2147483648

/-! ## The methods are verified -/

section Verified

/-- What the calls that have returned saw. -/
def Logged (count : Int32) (lg : Log Tid Method Ret) : Prop :=
  lg.Each fun p c => (c.2.1 = .wait → count.toInt ≤ completed p) ∧
    (c.2.1 = .getCount → ∃ k, c.2.2 = some (some k) ∧ k.toInt = count.toInt - completed p)

/-- What holds at every point of the methods. -/
structure Counted (count : Int32) (d : CountDownLatch) (w : Waiting Tid Unit) : Prop where
  left : InRange count d → d.count.toInt = count.toInt - d.countDowns
  waits : InRange count d → (w ()).Nonempty → d.countDowns ≤ count.toInt

/-- What holds while the lock is free. -/
structure Free (count : Int32) (d : CountDownLatch) (w : Waiting Tid Unit) (lg : Log Tid Method Ret) : Prop where
  left : InRange count d → d.count.toInt = count.toInt - d.countDowns
  completed : d.countDowns = completed lg
  waits : InRange count d → (w ()).Nonempty → d.countDowns < count.toInt
  logged : InRange count d → Logged count lg

variable {count : Int32} {d : CountDownLatch} {w w' : Waiting Tid Unit} {lg : Log Tid Method Ret} {t : Tid}

theorem Free.counted (h : Free count d w lg) : Counted count d w := ⟨h.left, fun hr hw => (h.waits hr hw).le⟩

theorem pos_iff (h : d.count.toInt = count.toInt - d.countDowns) : 0 < d.count ↔ d.countDowns < count.toInt := by
  rw [Int32.lt_iff_toInt_lt, Int32.toInt_zero, h]
  omega

theorem free_new : Free count ⟨count, 0⟩ (fun _ => ∅) ([] : Log Tid Method Ret) := by
  exact ⟨fun _ => by simp, rfl, fun _ hne => by simp at hne, fun _ => .nil⟩

/-- `--m_count`. -/
theorem pred_count (h : InRange count d → d.count.toInt = count.toInt - d.countDowns)
    (hr : InRange count ⟨d.count - 1, d.countDowns + 1⟩) :
    InRange count d ∧ (d.count - 1).toInt = count.toInt - ((d.countDowns + 1 : ℕ) : ℤ) := by
  simp only [InRange] at hr
  have hr' : InRange count d := show (d.countDowns : ℤ) ≤ _ by omega
  have hd := h hr'
  have hlt := count.toInt_lt
  refine ⟨hr', ?_⟩
  rw [Int32.toInt_sub, hd, Int.bmod_eq_of_le] <;> simp <;> omega

variable [DecidableEq Tid]

/-- **The methods keep the resource invariant.** -/
theorem verified : Verified (@Counted Tid count) (Free count) code where
  always h := h.counted
  always_wake hw h := ⟨h.left, fun hr hne => h.waits hr (hne.mono (hw ()))⟩
  free_wake hw h := ⟨h.left, h.completed, fun hr hne => h.waits hr (hne.mono (hw ())), h.logged⟩
  body t m d w lg h := by
    cases m with
    | wait =>
      refine ⟨h, fun d w lg h => ?_⟩
      split
      · rename_i hpos
        exact ⟨h.left, h.completed, fun hr _ => (pos_iff (h.left hr)).mp (by simpa using hpos), h.logged⟩
      · rename_i hpos
        refine ⟨h.left, by simpa using h.completed, h.waits, fun hr => (h.logged hr).append ⟨fun _ => ?_, by simp⟩⟩
        have hle : ¬ 0 < d.count := by simpa using hpos
        rw [pos_iff (h.left hr), h.completed] at hle
        omega
    | countDown =>
      refine ⟨h.counted, by simp, _, _, rfl, ⟨fun hr => (pred_count h.left hr).2, fun hr hne => ?_⟩,
        fun hr => (pred_count h.left hr).2, ?_, fun hr hne => ?_, fun hr => ?_⟩
      · have hlt := h.waits (pred_count h.left hr).1 hne
        show ((d.countDowns + 1 : ℕ) : ℤ) ≤ count.toInt
        omega
      · simp [h.completed]
      · -- whoever still waits was not notified, so the count has not become `0`
        obtain ⟨hr', hc⟩ := pred_count h.left hr
        have hne0 : d.count - 1 ≠ 0 := by
          intro h0
          simp [h0] at hne
        rw [if_neg (by simpa using hne0)] at hne
        have hlt := h.waits hr' hne
        have h0 : (d.count - 1).toInt ≠ 0 := fun h0 => hne0 (Int32.toInt_inj.mp h0)
        show ((d.countDowns + 1 : ℕ) : ℤ) < count.toInt
        omega
      · exact (h.logged (pred_count h.left hr).1).append ⟨by simp, by simp⟩
    | getCount =>
      refine ⟨h.counted, by simp, _, _, rfl, h.left, by simpa using h.completed, h.waits,
        fun hr => (h.logged hr).append ⟨by simp, fun _ => ⟨d.count, rfl, ?_⟩⟩⟩
      rw [h.left hr, h.completed]

end Verified

/-! ## Runs -/

section Runs

variable [DecidableEq Tid] {count : Int32} {s s' : State Tid Method Unit CountDownLatch Ret} {t : Tid}

theorem Reachable.proved (h : (latch Tid count).Reachable Anything s) :
    Proved (@Counted Tid count) (Free count) s := verified.sound free_new h

/-- Whoever is blocked and not notified waits for a count that is not `0` yet, or for the `CountDown` that made it `0`
and is about to notify everyone. -/
theorem Reachable.waiting (h : (latch Tid count).Reachable Anything s) (hr : InRange count s.data)
    (hw : (s.waiting ()).Nonempty) :
    0 < s.data.count ∨ ∃ u x, s.owner = some u ∧ s.pc u = .body .countDown (countDown.drop 1) x := by
  have hp := Reachable.proved h
  have hc := (hp.always verified).left hr
  have hfree : ∀ {lg}, Free count s.data s.waiting lg → 0 < s.data.count :=
    fun hf => (pos_iff hc).mpr (hf.waits hr hw)
  cases ho : s.owner with
  | none => exact Or.inl (hfree (hp.free ho))
  | some u =>
    have hin := (hp.owner_iff u).mp ho
    cases hu : s.pc u with
    | idle | enter | blocked => rw [hu] at hin; cases hin
    | leave m r => exact Or.inl (hfree (hp.leave u m r hu))
    | body m rest x =>
      have hwp := hp.body u m rest x hu
      have hrest : rest <:+ body m := suffix_body h u m rest (by rw [hu]; rfl)
      cases m with
      | wait =>
        rcases List.suffix_cons_iff.mp hrest with rfl | hrest
        · exact Or.inl (hfree hwp.1)
        · obtain rfl := List.suffix_nil.mp hrest
          exact Or.inl (hfree hwp)
      | getCount =>
        rcases List.suffix_cons_iff.mp hrest with rfl | hrest
        · obtain ⟨-, -, _, _, hg, hwp⟩ := hwp
          cases hg
          exact Or.inl (hfree hwp)
        · obtain rfl := List.suffix_nil.mp hrest
          exact Or.inl (hfree hwp)
      | countDown =>
        rcases List.suffix_cons_iff.mp hrest with rfl | hrest
        · -- `m_count` is not `0` before the decrement either: the decrement would leave the waiters behind
          obtain ⟨hA, -, _, _, hg, -, hwp⟩ := hwp
          cases hg
          refine Or.inl ((pos_iff hc).mpr ?_)
          by_contra hlt
          have hle := hA.waits hr hw
          have heq : (s.data.countDowns : ℤ) = count.toInt := by omega
          have hr' : InRange count ⟨s.data.count - 1, s.data.countDowns + 1⟩ := by
            show ((s.data.countDowns + 1 : ℕ) : ℤ) ≤ _
            omega
          have hne0 : s.data.count - 1 ≠ 0 := by
            intro h0
            have h1 := (pred_count hA.left hr').2
            rw [h0, Int32.toInt_zero] at h1
            omega
          rw [if_neg (by simpa using hne0)] at hwp
          have := hwp.waits hr' hw
          simp only at this
          omega
        · rcases List.suffix_cons_iff.mp hrest with rfl | hrest
          · exact Or.inr ⟨u, x, rfl, hu⟩
          · obtain rfl := List.suffix_nil.mp hrest
            exact Or.inl (hfree hwp)

/-- No move takes a `CountDown` back. -/
theorem countDowns_mono (h : (latch Tid count).Reachable Anything s) {a : Action Tid Method Unit}
    (hs : (latch Tid count).step s a = some s') : s.data.countDowns ≤ s'.data.countDowns := by
  refine next_data (R := fun d d' => d.countDowns ≤ d'.countDowns) (fun _ => le_rfl) ?_ h hs
  intro m b g hg d x d' x' hd
  cases m with
  | wait => simp [code, body, wait] at hg
  | countDown =>
    obtain ⟨rfl, rfl⟩ : b = false ∧ g = fun d x => some (⟨d.count - 1, d.countDowns + 1⟩, x) := by
      simpa [code, body, countDown] using hg
    cases hd
    exact Nat.le_succ _
  | getCount =>
    obtain ⟨rfl, rfl⟩ : b = false ∧ g = fun d _ => some (d, some d.count) := by simpa [code, body, getCount] using hg
    cases hd
    exact le_rfl

theorem completed_le (h : (latch Tid count).Reachable Anything s) : completed s.log ≤ s.data.countDowns := by
  refine h.induct (I := fun s => completed s.log ≤ s.data.countDowns) (by simp [latch, Monitor.system]) ?_
  intro s a s' h _ hs ih
  have hle := countDowns_mono h hs
  rcases next_log hs with hl | ⟨t, m, r, ht, hl⟩
  · rw [hl]
    exact ih.trans hle
  · rw [hl, ← ((Reachable.proved h).leave t m r ht).completed]
    exact hle

/-- At an open latch no call blocks. -/
theorem stays_open (h : (latch Tid count).Reachable Anything s) (hopen : count.toInt ≤ s.data.countDowns)
    (hs : (latch Tid count).Reaches Anything s s') : count.toInt ≤ s'.data.countDowns ∧
      (InRange count s'.data → ∀ t, (s.pc t).asleep = none → (s'.pc t).asleep = none) := by
  induction hs with
  | refl => exact ⟨hopen, fun _ _ ht => ht⟩
  | @tail u u' hsu hstep ih =>
    obtain ⟨a, -, hstep⟩ := hstep
    have hu := h.reaches hsu
    have hle := countDowns_mono hu hstep
    refine ⟨by omega, fun hr t ht => ?_⟩
    have hr' : InRange count u.data := by
      simp only [InRange] at hr ⊢
      omega
    by_contra hne
    obtain ⟨m, c, f, rest, x, hpc, hf⟩ := next_blocks hstep (ih.2 hr' t ht) hne
    have hrest : .waitWhile c f :: rest <:+ body m := suffix_body hu t m _ (by rw [hpc]; rfl)
    have hpos : 0 < u.data.count := by
      cases m with
      | wait =>
        rcases List.suffix_cons_iff.mp hrest with he | hrest
        · cases he
          simpa using hf
        · cases List.suffix_nil.mp hrest
      | countDown => simp [body, countDown, List.suffix_cons_iff] at hrest
      | getCount => simp [body, getCount, List.suffix_cons_iff] at hrest
    have hc := ((Reachable.proved hu).always verified).left hr'
    have := (pos_iff hc).mp hpos
    omega

/-- **The latch opens once and stays open.** -/
theorem opens_once (h : (latch Tid count).Reachable Anything s) (hr : InRange count s.data) :
    s.data.count.toInt = count.toInt - s.data.countDowns ∧ (s.owner = none → s.data.countDowns = completed s.log) ∧
    (∀ p t r q, s.log = p ++ (t, .wait, r) :: q → count.toInt ≤ completed p) ∧
    (∀ p t r q, s.log = p ++ (t, .getCount, r) :: q →
      ∃ c, r = some (some c) ∧ c.toInt = count.toInt - completed p) ∧
    ((s.waiting ()).Nonempty →
      0 < s.data.count ∨ ∃ u x, s.owner = some u ∧ s.pc u = .body .countDown (countDown.drop 1) x) ∧
    (count.toInt ≤ s.data.countDowns → ∀ s', (latch Tid count).Reaches Anything s s' → InRange count s'.data →
      ∀ t, (s.pc t).asleep = none → (s'.pc t).asleep = none) := by
  have hp := Reachable.proved h
  have hl : Logged count s.log := by
    have hv : Verified (@Counted Tid count) (Free count) code := verified
    refine hv.logged (P := fun lg => (completed lg : ℤ) ≤ count.toInt + 2147483648 → Logged count lg) ?_ ?_ h ?_
    · intro d w lg hf hle
      exact hf.logged (show (d.countDowns : ℤ) ≤ _ by rwa [hf.completed])
    · exact free_new
    · have := completed_le h
      simp only [InRange] at hr
      omega
  exact ⟨(hp.always verified).left hr, fun ho => (hp.free ho).completed, fun p t r q he => (hl p _ q he).1 rfl,
    fun p t r q he => (hl p _ q he).2 rfl, Reachable.waiting h hr,
    fun hopen s' hs' => (stays_open h hopen hs').2⟩

/-- A thread that waits for one `CountDown`. -/
theorem opens_once_run : ∃ s : State (Fin 2) Method Unit CountDownLatch Ret, s.log.length = 2 ∧
    s.data.count.toInt = 1 - completed s.log ∧ ∀ p t r q, s.log = p ++ (t, .wait, r) :: q → 1 ≤ completed p := by
  obtain ⟨s, hs, hp⟩ := System.reachable_of_exec (latch (Fin 2) 1) Anything
    ([.call 0 .wait, .step 0 false, .step 0 false] ++ (.call 1 .countDown :: List.replicate 5 (.step 1 false)) ++
      List.replicate 4 (.step 0 false))
    (fun s => s.log.length == 2 && (s.owner == none && s.data.countDowns == 1)) (by decide +kernel)
  simp only [Bool.and_eq_true, beq_iff_eq] at hp
  obtain ⟨hcount, hfree, hwait, -⟩ := opens_once hs (by simp [InRange, hp.2.2])
  rw [hfree hp.2.1] at hcount
  exact ⟨s, hp.1, hcount, fun p t r q he => Int.ofNat_le.mp (hwait p t r q he)⟩

end Runs

end CountDownLatch

end Tpool
