import Mathlib.Data.Finset.Card
import Tpool.Concurrency.Blocked

/-!
# CyclicBarrier

- `CyclicBarrier.body`: `Wait` and `Reset`, statement by statement, around the counters and the condition variable of
  `m_count_guard`. The two indices are what the source compares; beside them stand records that no method reads: who
  ended each generation and how many had arrived in it (`ended`, `arrivals`), and in which generation a call arrived.
- `Inv`: what holds while the lock is free. The calls that arrived in the current generation are the ones blocked in it,
  and every call that returned belongs to a generation that is over.
- `whole_generations`: a generation is released as a whole.
-/

namespace Tpool

open Concurrency Concurrency.Monitor

/-- A generation that is over. -/
structure Generation where
  arrivals : ℕ
  byReset : Bool
  deriving DecidableEq

structure CyclicBarrier where
  maxCount : Int32
  count : Int32
  barrierIndex : Int32
  resetIndex : Int32
  arrivals : ℕ
  ended : List Generation

namespace CyclicBarrier

variable {Tid : Type*}

inductive Method
  | wait
  | reset
  deriving DecidableEq

/-- The locals of `Wait`; `saved` holds the two indices of a call that did not trip the barrier. -/
structure Local where
  ret : Int32
  saved : Option (Int32 × Int32)
  generation : ℕ

/-- The number of the current generation. -/
def generation (d : CyclicBarrier) : ℕ := d.ended.length

/-- `--m_count`. -/
def arrive (d : CyclicBarrier) : CyclicBarrier := { d with count := d.count - 1, arrivals := d.arrivals + 1 }

/-- `m_count = m_max_count; ++m_barrier_index`. -/
def trip (d : CyclicBarrier) : CyclicBarrier :=
  { d with count := d.maxCount, barrierIndex := d.barrierIndex + 1, arrivals := 0,
           ended := d.ended ++ [⟨d.arrivals, false⟩] }

/-- `m_count = m_max_count; ++m_reset_index`. -/
def resetAll (d : CyclicBarrier) : CyclicBarrier :=
  { d with count := d.maxCount, resetIndex := d.resetIndex + 1, arrivals := 0,
           ended := d.ended ++ [⟨d.arrivals, true⟩] }

abbrev Body := List (Stmt Unit CyclicBarrier Local)

/-- A call that trips the barrier saves no indices, so that its loop is left at once. -/
def wait : Body :=
  [.act false fun d x => some (d.arrive, { x with generation := d.generation }),
   .notifyAllIf () fun d => d.count == 0,
   .act false fun d x =>
    some (if d.count = 0 then (d.trip, x) else (d, { x with saved := some (d.barrierIndex, d.resetIndex) })),
   .waitWhile () fun d x => x.saved == some (d.barrierIndex, d.resetIndex),
   .act false fun d x => some (d, { x with ret := if x.saved.any (·.2 != d.resetIndex) then 1 else 0 })]

def reset : Body := [.notifyAllIf () fun _ => true, .act false fun d x => some (d.resetAll, x)]

def body : Method → Body
  | .wait => wait
  | .reset => reset

def code : Code Method Unit CyclicBarrier Local := ⟨body, ⟨0, none, 0⟩⟩

/-- A barrier constructed with `count`. -/
def barrier (Tid : Type*) [DecidableEq Tid] (count : Int32) :
    System (State Tid Method Unit CyclicBarrier Local) (Action Tid Method Unit) :=
  Monitor.system code ⟨count, count, 0, 0, 0, []⟩

/-! ## Generations and indices -/

section Generations

/-- How many of the first `g` generations `Reset` ended, and how many the barrier. -/
def resetsUntil (d : CyclicBarrier) (g : ℕ) : ℕ := (d.ended.take g).countP (·.byReset)

def tripsUntil (d : CyclicBarrier) (g : ℕ) : ℕ := (d.ended.take g).countP (!·.byReset)

def trips (d : CyclicBarrier) : ℕ := d.ended.countP (!·.byReset)

def resets (d : CyclicBarrier) : ℕ := d.ended.countP (·.byReset)

/-- Fewer than `2^31` trips and resets: the indices do not overflow. -/
def InRange (d : CyclicBarrier) : Prop := d.trips < 2147483648 ∧ d.resets < 2147483648

variable {d : CyclicBarrier} {g : ℕ}

theorem tripsUntil_add_resetsUntil (hg : g ≤ d.generation) : d.tripsUntil g + d.resetsUntil g = g := by
  have h := List.length_eq_countP_add_countP (fun e : Generation => e.byReset) (l := d.ended.take g)
  rw [List.length_take_of_le hg] at h
  simp only [tripsUntil, resetsUntil]
  simp only [Bool.not_eq_true, Bool.decide_eq_false] at h
  omega

theorem tripsUntil_le (d : CyclicBarrier) (g : ℕ) : d.tripsUntil g ≤ d.trips :=
  (List.take_sublist g d.ended).countP_le

theorem resetsUntil_le (d : CyclicBarrier) (g : ℕ) : d.resetsUntil g ≤ d.resets :=
  (List.take_sublist g d.ended).countP_le

theorem trips_add_resets (d : CyclicBarrier) : d.trips + d.resets = d.generation := by
  have := tripsUntil_add_resetsUntil (le_refl d.generation)
  simpa [tripsUntil, resetsUntil, trips, resets, generation] using this

/-- Numbers below `2^31` are told apart by their `int`. -/
theorem ofNat_inj {m n : ℕ} (hm : m < 2147483648) (hn : n < 2147483648) (h : Int32.ofNat m = Int32.ofNat n) :
    m = n := by
  have := congrArg Int32.toInt h
  rw [Int32.toInt_ofNat_of_lt hm, Int32.toInt_ofNat_of_lt hn] at this
  omega

end Generations

/-! ## The invariant -/

/-- The call of `t` that is blocked arrived in the generation `g`. -/
def Arrived (b : Blocked Tid Method Local) (t : Tid) (g : ℕ) : Prop := ∃ m x, b t = some (m, x) ∧ x.generation = g

/-- The indices that a call saved are those of its generation. -/
structure Saved (d : CyclicBarrier) (x : Local) : Prop where
  le : x.generation ≤ d.generation
  saved : x.saved = some (Int32.ofNat (d.tripsUntil x.generation), Int32.ofNat (d.resetsUntil x.generation))

section Inv

variable [DecidableEq Tid]

/-- The generations of the `Wait`s of `t` that have returned. -/
def generations (t : Tid) (lg : Log Tid Method Local) : List ℕ :=
  lg.filterMap fun c => if c.1 = t ∧ c.2.1 = .wait then c.2.2.map (·.generation) else none

/-- Whoever is blocked and not notified arrived in the current generation. -/
def Current (d : CyclicBarrier) (w : Waiting Tid Unit) (b : Blocked Tid Method Local) : Prop :=
  d.InRange → ∀ t ∈ w (), Arrived b t d.generation

/-- What holds while the lock is free. -/
structure Inv (max : Int32) (d : CyclicBarrier) (w : Waiting Tid Unit) (lg : Log Tid Method Local)
    (b : Blocked Tid Method Local) : Prop where
  maxCount : d.maxCount = max
  count : d.count.toInt = max.toInt - d.arrivals
  room : d.arrivals < max.toInt
  barrierIndex : d.barrierIndex = Int32.ofNat d.trips
  resetIndex : d.resetIndex = Int32.ofNat d.resets
  ended : ∀ e ∈ d.ended, e.byReset = true ∨ e.arrivals = max.toInt
  blocked : ∀ t m x, b t = some (m, x) → m = .wait ∧ Saved d x
  arrived : ∃ a : Finset Tid, (∀ t, t ∈ a ↔ Arrived b t d.generation) ∧ a.card = d.arrivals
  waiting : Current d w b
  logged : ∀ t r, (t, .wait, r) ∈ lg → ∃ x, r = some x ∧ x.generation < d.generation
  growing : ∀ t, (generations t lg).Pairwise (· < ·)
  later : ∀ t g, Arrived b t g → ∀ g' ∈ generations t lg, g' < g

variable {max : Int32} {d : CyclicBarrier} {w w' : Waiting Tid Unit} {lg : Log Tid Method Local}
  {b : Blocked Tid Method Local} {t : Tid} {x y : Local} {r : Option Local} {e : Generation}

@[simp] theorem generations_nil : generations t ([] : Log Tid Method Local) = [] := rfl

@[simp] theorem generations_append_reset (u : Tid) :
    generations u (lg ++ [(t, .reset, r)]) = generations u lg := by simp [generations]

@[simp] theorem generations_append_self :
    generations t (lg ++ [(t, .wait, some y)]) = generations t lg ++ [y.generation] := by
  simp [generations]

theorem generations_append_of_ne {u : Tid} (h : u ≠ t) : generations u (lg ++ [(t, .wait, r)]) = generations u lg := by
  simp [generations, Ne.symm h]

/-- The generations of the calls that returned are over. -/
theorem Inv.generations_lt (h : Inv max d w lg b) {g : ℕ} (hg : g ∈ generations t lg) : g < d.generation := by
  obtain ⟨⟨u, m, r⟩, hc, hm⟩ := List.mem_filterMap.mp hg
  split at hm
  · rename_i hum
    obtain ⟨-, rfl⟩ : u = t ∧ m = .wait := hum
    obtain ⟨x, rfl, hx⟩ := h.logged u r hc
    cases hm
    exact hx
  · cases hm

theorem Arrived.update_none {u : Tid} {g : ℕ} : Arrived (Function.update b t none) u g ↔ u ≠ t ∧ Arrived b u g := by
  by_cases hu : u = t
  · subst hu; simp [Arrived]
  · simp [Arrived, hu]

theorem Arrived.update_some {u : Tid} {g : ℕ} {m : Method} :
    Arrived (Function.update b t (some (m, x))) u g ↔ (u = t ∧ x.generation = g) ∨ (u ≠ t ∧ Arrived b u g) := by
  by_cases hu : u = t
  · subst hu; simp [Arrived]
  · simp [Arrived, hu]

omit [DecidableEq Tid] in
theorem Arrived.unique {m : Method} {g : ℕ} (hb : b t = some (m, x)) : Arrived b t g ↔ x.generation = g := by
  simp [Arrived, hb]

/-- Nobody has arrived yet in a generation that is to come. -/
theorem Inv.not_arrived (h : Inv max d w lg b) {g : ℕ} (hg : d.generation < g) : ¬ Arrived b t g := by
  rintro ⟨m, x, hb, rfl⟩
  exact absurd (h.blocked t m x hb).2.le (by omega)

/-- What a call saved tells its generation from the current one. -/
theorem Inv.current_iff (h : Inv max d w lg b) (hs : Saved d x) :
    (x.generation = d.generation → x.saved = some (d.barrierIndex, d.resetIndex)) ∧
    (d.InRange → x.saved = some (d.barrierIndex, d.resetIndex) → x.generation = d.generation) := by
  rw [hs.saved, h.barrierIndex, h.resetIndex]
  refine ⟨fun hg => by simp [hg, tripsUntil, resetsUntil, trips, resets, generation], fun hr he => ?_⟩
  obtain ⟨ht, hrs⟩ := Prod.mk.inj (Option.some.inj he)
  have h1 := ofNat_inj ((d.tripsUntil_le _).trans_lt hr.1) hr.1 ht
  have h2 := ofNat_inj ((d.resetsUntil_le _).trans_lt hr.2) hr.2 hrs
  have h3 := tripsUntil_add_resetsUntil hs.le
  have h4 := d.trips_add_resets
  omega

/-- What a generation that ends leaves of the saved indices. -/
theorem Saved.append {d' : CyclicBarrier} (hs : Saved d x) (he : d'.ended = d.ended ++ [e]) : Saved d' x := by
  have hle : x.generation ≤ d.ended.length := hs.le
  refine ⟨?_, ?_⟩
  · simp only [generation, he, List.length_append]
    omega
  · rw [hs.saved]
    simp [tripsUntil, resetsUntil, he, List.take_append_of_le_length hle]

/-! ## What the methods do to the invariant -/

/-- `--m_count` by a call that does not trip the barrier and blocks. -/
theorem Inv.block (h : Inv max d w lg b) (hb : b t = none) (hroom : ((d.arrivals + 1 : ℕ) : ℤ) < max.toInt)
    (hcount : (d.count - 1).toInt = d.count.toInt - 1) (hg : x.generation = d.generation)
    (hs : x.saved = some (d.barrierIndex, d.resetIndex)) :
    Inv max d.arrive (w.join () t) lg (Function.update b t (some (.wait, x))) := by
  have hnot : ∀ {g}, ¬ Arrived b t g := by simp [Arrived, hb]
  have hsaved : Saved d x := by
    refine ⟨hg.le, ?_⟩
    rw [hs, hg, h.barrierIndex, h.resetIndex]
    simp [tripsUntil, resetsUntil, trips, resets, generation]
  have hc := h.count
  refine ⟨h.maxCount, ?_, hroom, h.barrierIndex, h.resetIndex, h.ended, ?_, ?_, ?_, h.logged, h.growing, ?_⟩
  · show (d.count - 1).toInt = max.toInt - ((d.arrivals + 1 : ℕ) : ℤ)
    omega
  · intro u m y hu
    by_cases hut : u = t
    · subst hut
      obtain ⟨rfl, rfl⟩ : m = .wait ∧ y = x := by simpa [eq_comm] using hu
      exact ⟨rfl, hsaved.le, hsaved.saved⟩
    · rw [Function.update_of_ne hut] at hu
      exact ⟨(h.blocked u m y hu).1, (h.blocked u m y hu).2.le, (h.blocked u m y hu).2.saved⟩
  · obtain ⟨a, ha, hcard⟩ := h.arrived
    refine ⟨insert t a, fun u => ?_, ?_⟩
    · rw [Finset.mem_insert, ha, Arrived.update_some]
      by_cases hut : u = t
      · subst hut
        exact ⟨fun _ => Or.inl ⟨rfl, hg⟩, fun _ => Or.inl rfl⟩
      · simp [hut, generation, arrive]
    · rw [Finset.card_insert_of_notMem ((ha t).not.mpr hnot), hcard]
      rfl
  · intro hr u hu
    rw [Arrived.update_some]
    rcases Waiting.mem_join hu with ⟨-, rfl⟩ | hu
    · exact Or.inl ⟨rfl, hg⟩
    · have hu' := h.waiting hr u hu
      exact Or.inr ⟨by rintro rfl; exact hnot hu', hu'⟩
  · intro u g hu g' hg'
    rcases Arrived.update_some.mp hu with ⟨rfl, rfl⟩ | ⟨-, hu⟩
    · rw [hg]
      exact h.generations_lt hg'
    · exact h.later u g hu g' hg'

/-- A call finds its generation current and blocks again. -/
theorem Inv.again (h : Inv max d w lg b) (hb : b t = some (.wait, x))
    (hs : x.saved = some (d.barrierIndex, d.resetIndex)) : Inv max d (w.join () t) lg b := by
  refine { h with waiting := fun hr u hu => ?_ }
  rcases Waiting.mem_join hu with ⟨-, rfl⟩ | hu
  · exact (Arrived.unique hb).mpr ((h.current_iff (h.blocked u _ x hb).2).2 hr hs)
  · exact h.waiting hr u hu

/-- A call of a generation that is over leaves its wait. -/
theorem Inv.resume (h : Inv max d w lg b) (hb : b t = some (.wait, x)) (ht : t ∉ w ())
    (hg : x.generation ≠ d.generation) : Inv max d w lg (Function.update b t none) := by
  refine { h with blocked := ?_, arrived := ?_, waiting := ?_, later := ?_ }
  · intro u m y hu
    by_cases hut : u = t
    · subst hut; simp at hu
    · rw [Function.update_of_ne hut] at hu
      exact h.blocked u m y hu
  · obtain ⟨a, ha, hcard⟩ := h.arrived
    refine ⟨a, fun u => ?_, hcard⟩
    rw [ha, Arrived.update_none]
    refine ⟨fun hu => ⟨?_, hu⟩, fun hu => hu.2⟩
    rintro rfl
    exact hg ((Arrived.unique hb).mp hu)
  · intro hr u hu
    exact Arrived.update_none.mpr ⟨by rintro rfl; exact ht hu, h.waiting hr u hu⟩
  · intro u g hu
    exact h.later u g (Arrived.update_none.mp hu).2

/-- A `Wait` of a generation that is over returns. -/
theorem Inv.log (h : Inv max d w lg b) (hb : b t = none) (hy : y.generation < d.generation)
    (hlt : ∀ g ∈ generations t lg, g < y.generation) : Inv max d w (lg ++ [(t, .wait, some y)]) b := by
  refine { h with logged := ?_, growing := ?_, later := ?_ }
  · intro u r hu
    rcases List.mem_append.mp hu with hu | hu
    · exact h.logged u r hu
    · obtain ⟨rfl, rfl⟩ : u = t ∧ r = some y := by simpa using hu
      exact ⟨y, rfl, hy⟩
  · intro u
    by_cases hut : u = t
    · subst hut
      rw [generations_append_self]
      exact List.pairwise_append.mpr ⟨h.growing u, List.pairwise_singleton _ _, by simpa using hlt⟩
    · rw [generations_append_of_ne hut]
      exact h.growing u
  · intro u g hu
    have hut : u ≠ t := by
      rintro rfl
      simp [Arrived, hb] at hu
    rw [generations_append_of_ne hut]
    exact h.later u g hu

/-- The generation ends, with everyone notified. -/
theorem Inv.over (h : Inv max d w lg b) (d' : CyclicBarrier) (hw : w' () = ∅)
    (he : e.byReset = true ∨ e.arrivals = max.toInt) (hended : d'.ended = d.ended ++ [e]) (hmax : d'.maxCount = max)
    (hcount : d'.count = max) (harrivals : d'.arrivals = 0) (hpos : 0 < max.toInt)
    (hbarrier : d'.barrierIndex = Int32.ofNat d'.trips) (hreset : d'.resetIndex = Int32.ofNat d'.resets) :
    Inv max d' w' lg b ∧ d'.generation = d.generation + 1 := by
  have hgen : d'.generation = d.generation + 1 := by simp [generation, hended]
  refine ⟨⟨hmax, by simp [hcount, harrivals], by simpa [harrivals] using hpos, hbarrier, hreset, ?_, ?_, ?_, ?_, ?_,
    h.growing, h.later⟩, hgen⟩
  · intro e' he'
    rw [hended] at he'
    rcases List.mem_append.mp he' with he' | he'
    · exact h.ended e' he'
    · obtain rfl := List.mem_singleton.mp he'
      exact he
  · intro u m x hu
    exact ⟨(h.blocked u m x hu).1, (h.blocked u m x hu).2.append hended⟩
  · exact ⟨∅, fun u => by simpa using h.not_arrived (by omega), by simp [harrivals]⟩
  · intro _ u hu
    simp [hw] at hu
  · intro u r hu
    obtain ⟨x, rfl, hx⟩ := h.logged u r hu
    exact ⟨x, rfl, by omega⟩

/-- The generation ends with the call of `t`, which trips the barrier and returns. -/
theorem Inv.trip (h : Inv max d w lg b) (hw : w' () = ∅) (hmax : ((d.arrivals + 1 : ℕ) : ℤ) = max.toInt)
    (hb : b t = none)
    (hy : y.generation = d.generation) : Inv max d.arrive.trip w' (lg ++ [(t, .wait, some y)]) b := by
  have hroom := h.room
  obtain ⟨hover, hgen⟩ := h.over d.arrive.trip hw (Or.inr hmax) rfl h.maxCount h.maxCount rfl (by omega)
    (by simp [CyclicBarrier.trip, arrive, trips, h.barrierIndex, Int32.ofNat_add])
    (by simp [CyclicBarrier.trip, arrive, resets, h.resetIndex])
  refine hover.log hb (by omega) fun g hg => ?_
  rw [hy]
  exact h.generations_lt hg

theorem Inv.reset (h : Inv max d w lg b) (hw : w' () = ∅) : Inv max d.resetAll w' (lg ++ [(t, .reset, some y)]) b := by
  have hroom := h.room
  obtain ⟨hover, -⟩ := h.over d.resetAll (e := ⟨d.arrivals, true⟩) hw (Or.inl rfl) rfl h.maxCount h.maxCount rfl
    (by omega) (by simp [resetAll, trips, h.barrierIndex])
    (by simp [resetAll, resets, h.resetIndex, Int32.ofNat_add])
  refine { hover with logged := fun u r hu => hover.logged u r (by simpa using hu), growing := ?_, later := ?_ }
  · intro u
    rw [generations_append_reset]
    exact hover.growing u
  · intro u g hu
    rw [generations_append_reset]
    exact hover.later u g hu

/-- `--m_count` does not overflow. -/
theorem Inv.count_pred (h : Inv max d w lg b) : (d.count - 1).toInt = d.count.toInt - 1 := by
  have hroom := h.room
  have hcount := h.count
  refine Int32.toInt_sub_of_le _ _ (by decide) ?_
  rw [Int32.le_iff_toInt_le]
  simp
  omega

/-- The last one to arrive finds the counter at zero. -/
theorem Inv.last_iff (h : Inv max d w lg b) : d.count - 1 = 0 ↔ ((d.arrivals + 1 : ℕ) : ℤ) = max.toInt := by
  have hcount := h.count
  rw [← Int32.toInt_inj, h.count_pred, Int32.toInt_zero]
  omega

/-! ## The methods are verified -/

theorem total : Verified (fun _ _ => True) (fun _ _ (_ : Log Tid Method Local) => True) code where
  always _ := trivial
  always_wake _ _ := trivial
  free_wake _ _ := trivial
  body t m d w lg _ := by
    have hif : ∀ {p : Prop} [Decidable p] {q : Prop}, q → if p then True else q := by
      intro p _ q hq
      split
      · trivial
      · exact hq
    cases m with
    | wait =>
      exact ⟨trivial, nofun, _, _, rfl, trivial, trivial, nofun, _, _, rfl, trivial,
        fun d w lg _ => hif ⟨trivial, nofun, _, _, rfl, trivial⟩⟩
    | reset => exact ⟨trivial, trivial, nofun, _, _, rfl, trivial⟩

/-- The end of `Wait`. -/
theorem wpb_return (hA : Current d w b)
    (h : ∀ y : Local, y.generation = x.generation → Inv max d w (lg ++ [(t, .wait, some y)]) b) :
    wpb Current (Inv max) t .wait (wait.drop 4) x d w lg b := by
  refine ⟨hA, nofun, fun d' x' he => ?_⟩
  cases he
  exact h _ rfl

/-- A call that goes on in its loop, of whatever generation. -/
theorem resumes :
    Resumes Current (Inv max) t .wait () (fun d x => x.saved == some (d.barrierIndex, d.resetIndex)) (wait.drop 4)
    x := by
  intro d w lg b h hb ht
  have hA : Current d w (Function.update b t none) :=
    fun hr u hu => Arrived.update_none.mpr ⟨by rintro rfl; exact ht hu, h.waiting hr u hu⟩
  refine ⟨hA, ?_⟩
  split
  · rename_i hs
    exact h.again hb (by simpa using hs)
  · rename_i hs
    obtain ⟨-, hsaved⟩ := h.blocked t _ x hb
    have hne : x.generation ≠ d.generation := fun hg => hs (by simpa using (h.current_iff hsaved).1 hg)
    refine wpb_return hA fun y hy => (h.resume hb ht hne).log (Function.update_self ..) ?_ ?_
    · rw [hy]
      exact lt_of_le_of_ne hsaved.le hne
    · rw [hy]
      exact h.later t _ ((Arrived.unique hb).mpr rfl)

theorem kept : Kept Current (@Inv Tid _ max) code where
  always h := h.waiting
  always_wake hw h := fun hr t ht => h hr t (hw () ht)
  free_wake hw h := { h with waiting := fun hr t ht => h.waiting hr t (hw () ht) }
  body t m d w lg b hb h := by
    cases m with
    | reset =>
      refine ⟨h.waiting, fun hr u hu => by simp at hu, nofun, fun d' x' he => ?_⟩
      cases he
      exact h.reset (by simp)
    | wait =>
      have hroom := h.room
      have hzero := h.last_iff
      refine ⟨h.waiting, nofun, fun d1 x1 he => ?_⟩
      cases he
      refine ⟨h.waiting, ?_⟩
      by_cases h0 : d.count - 1 = 0
      · -- the last one to arrive
        have hw : (if (d.arrive.count == 0) = true then w.clear () else w) = w.clear () :=
          if_pos (by simpa [arrive] using h0)
        rw [hw]
        refine ⟨fun hr u hu => by simp at hu, nofun, fun d2 x2 he => ?_⟩
        beta_reduce at he
        rw [if_pos (show d.arrive.count = 0 from h0)] at he
        cases he
        refine ⟨fun hr u hu => by simp at hu, ?_, ?_⟩
        · refine wpb_return (fun hr u hu => by simp at hu) fun y hy => h.trip (by simp) (hzero.mp h0) hb hy
        · -- it does not block
          intro d w lg b h hb
          have := (h.blocked t _ _ hb).2.saved
          cases this
      · have hw : (if (d.arrive.count == 0) = true then w.clear () else w) = w := if_neg (by simpa [arrive] using h0)
        rw [hw]
        refine ⟨h.waiting, nofun, fun d2 x2 he => ?_⟩
        beta_reduce at he
        rw [if_neg (show ¬ d.arrive.count = 0 from h0)] at he
        cases he
        refine ⟨h.waiting, ?_, resumes⟩
        rw [if_pos (by simp)]
        exact h.block hb (by have := hzero.not.mp h0; omega) h.count_pred rfl rfl

end Inv

/-! ## Runs -/

section Runs

variable [DecidableEq Tid] {count : Int32} {s : State Tid Method Unit CyclicBarrier Local}

theorem inv_new (hcount : 0 < count) :
    Inv count ⟨count, count, 0, 0, 0, []⟩ (fun _ => ∅) ([] : Log Tid Method Local) fun _ => none := by
  have hpos : 0 < count.toInt := by simpa [Int32.lt_iff_toInt_lt] using hcount
  refine ⟨rfl, by simp, hpos, rfl, rfl, by simp, by simp, ⟨∅, ?_, rfl⟩, fun _ t ht => by simp at ht, by simp, by
      simp, ?_⟩
  · simp [Arrived]
  · simp

/-- No statement takes back that a generation is over. -/
theorem ended_prefix (m : Method) (b : Bool) (g : CyclicBarrier → Local → Option (CyclicBarrier × Local))
    (hg : Stmt.act b g ∈ code.body m) (d : CyclicBarrier) (x : Local) (d' : CyclicBarrier) (x' : Local)
    (h : g d x = some (d', x')) : d.ended <+: d'.ended := by
  cases m with
  | wait =>
    simp only [code, body, wait, List.mem_cons, reduceCtorEq, Stmt.act.injEq, List.not_mem_nil, or_false,
        false_or] at hg
    rcases hg with ⟨rfl, rfl⟩ | ⟨rfl, rfl⟩ | ⟨rfl, rfl⟩
    · cases h
      exact List.prefix_rfl
    · beta_reduce at h
      split at h <;> cases h
      · exact List.prefix_append _ _
      · exact List.prefix_rfl
    · cases h
      exact List.prefix_rfl
  | reset =>
    simp only [code, body, reset, List.mem_cons, reduceCtorEq, Stmt.act.injEq, List.not_mem_nil, or_false,
        false_or] at hg
    obtain ⟨rfl, rfl⟩ := hg
    cases h
    exact List.prefix_append _ _

/-- A `Wait` that returned belongs to a generation that was complete, or ended by `Reset`. -/
def Returned (count : Int32) (d : CyclicBarrier) (lg : Log Tid Method Local) : Prop :=
  (∀ t r, (t, .wait, r) ∈ lg →
    ∃ x e, r = some x ∧ d.ended[x.generation]? = some e ∧ (e.byReset = true ∨ e.arrivals = count.toInt)) ∧
  ∀ t, (generations t lg).Pairwise (· < ·)

theorem Reachable.returned (hcount : 0 < count) (h : (barrier Tid count).Reachable Anything s) :
    Returned count s.data s.log := by
  refine kept.logged total (fun _ => List.prefix_rfl) ended_prefix ?_ ?_ trivial (inv_new hcount) h
  · intro d w lg b hi
    refine ⟨fun t r hr => ?_, hi.growing⟩
    obtain ⟨x, rfl, hx⟩ := hi.logged t r hr
    exact ⟨x, d.ended[x.generation], rfl, List.getElem?_eq_getElem hx, hi.ended _ (List.getElem_mem hx)⟩
  · intro d d' lg ⟨post, hpre⟩ hd
    refine ⟨fun t r hr => ?_, hd.2⟩
    obtain ⟨x, e, rfl, he, hend⟩ := hd.1 t r hr
    refine ⟨x, e, rfl, ?_, hend⟩
    rw [← hpre, List.getElem?_append_left (List.getElem?_eq_some_iff.mp he).1, he]

/-- **Whole generations only.** While the lock is free, the calls that arrived in the current generation are as many as
are missing from `m_max_count`, and the generation is not complete; a call that returned belongs to a generation that
was complete or was reset; whoever is blocked and not notified belongs to the current generation; and the calls of one
thread belong to later and later generations. -/
theorem whole_generations (hcount : 0 < count) (h : (barrier Tid count).Reachable Anything s) (hr : s.data.InRange) :
    (s.owner = none → 1 ≤ s.data.count ∧ s.data.count ≤ s.data.maxCount ∧ s.data.arrivals < count.toInt ∧
      ∃ arrived : Finset Tid, (∀ t, t ∈ arrived ↔ Arrived s.blocked t s.data.generation) ∧
        arrived.card = count.toInt - s.data.count.toInt) ∧
    (∀ t r, (t, .wait, r) ∈ s.log →
      ∃ x e, r = some x ∧ s.data.ended[x.generation]? = some e ∧ (e.byReset = true ∨ e.arrivals = count.toInt)) ∧
    (∀ t ∈ s.waiting (), Arrived s.blocked t s.data.generation) ∧
    (∀ t, (generations t s.log).Pairwise (· < ·)) ∧
    (s.owner = none → ∀ t g, Arrived s.blocked t g → ∀ g' ∈ generations t s.log, g' < g) := by
  have hp := total.sound (d := ⟨count, count, 0, 0, 0, []⟩) trivial h
  have hg := kept.sound total trivial (inv_new hcount) h
  obtain ⟨hreturned, hgrowing⟩ := Reachable.returned hcount h
  refine ⟨fun ho => ?_, hreturned, hg.always kept hp hr, hgrowing, fun ho => (hg.free ho).later⟩
  have hi := hg.free ho
  have hc := hi.count
  have hroom := hi.room
  obtain ⟨a, ha, hcard⟩ := hi.arrived
  refine ⟨?_, ?_, hroom, a, ha, by omega⟩
  · rw [Int32.le_iff_toInt_le]
    simp
    omega
  · rw [hi.maxCount, Int32.le_iff_toInt_le]
    omega

/-- Two threads trip the barrier, and one of them is back before the next generation. -/
theorem whole_generations_run : ∃ s : State (Fin 2) Method Unit CyclicBarrier Local, s.log.length = 2 ∧
    s.data.generation = 1 ∧ (∀ t, (generations t s.log).Pairwise (· < ·)) ∧
    ∃ arrived : Finset (Fin 2), (∀ t, t ∈ arrived ↔ Arrived s.blocked t 1) ∧ arrived.card = 2 - s.data.count.toInt := by
  obtain ⟨s, hs, hp⟩ := System.reachable_of_exec (barrier (Fin 2) 2) Anything
    ((.call 0 .wait :: List.replicate 5 (.step 0 false)) ++ (.call 1 .wait :: List.replicate 8 (.step 1 false)) ++
      List.replicate 5 (.step 0 false) ++ (.call 0 .wait :: List.replicate 5 (.step 0 false)))
    (fun s => s.log.length == 2 && (s.owner == none && s.data.ended == [⟨2, false⟩])) (by decide +kernel)
  simp only [Bool.and_eq_true, beq_iff_eq] at hp
  obtain ⟨hlog, ho, hended⟩ := hp
  have hgen : s.data.generation = 1 := by simp [generation, hended]
  obtain ⟨hfree, -, -, hgrowing, -⟩ := whole_generations (by decide) hs (by simp [InRange, trips, resets, hended])
  obtain ⟨-, -, -, a, ha, hcard⟩ := hfree ho
  exact ⟨s, hlog, hgen, hgrowing, a, hgen ▸ ha, hcard⟩

end Runs

end CyclicBarrier

end Tpool
