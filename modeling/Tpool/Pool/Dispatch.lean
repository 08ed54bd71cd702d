import Mathlib.Algebra.Order.BigOperators.Group.Finset
import Tpool.Pool.Stop

/-!
# In what order the pool runs what was pushed

- `Served.count_done`, `Served.count_held`, `Served.count_other`: how often a worker has begun and ended an item, by
  whether it has taken it and still holds it. This holds in every state, and not only when the pool was stopped.
- `dispatch_order`: nothing is run twice, and what a worker runs has overtaken less than as many items as there are
  workers: the others that were taken before and have not come to their end are in the hands of the other workers.
-/

namespace Tpool

open Concurrency

namespace Core

variable {n : Nat} {Cl T : Type*} {isEndTask : T → Bool} {s : Core n Cl T} {i : Fin n} {k : Nat}

theorem Worker.held_length (w : Worker) : w.held.length ≤ 1 := by
  cases w with
  | left why => cases why <;> simp [Worker.held]
  | _ => simp [Worker.held]

/-- What a worker has begun and not ended it holds. -/
theorem Worker.started_of_held (w : Worker) : w.started = [] ∨ ∃ k, w.held = [k] ∧ w.started = [.start k] := by
  cases w with
  | running k => exact Or.inr ⟨k, rfl, rfl⟩
  | left why =>
    cases why with
    | escaped k => exact Or.inr ⟨k, rfl, rfl⟩
    | _ => exact Or.inl rfl
  | _ => exact Or.inl rfl

/-- A worker holds what it has taken. -/
theorem Served.taken (hi : Served isEndTask s) (h : k ∈ (s.worker i).held) : s.queue.pops[k]? = some i := by
  obtain ⟨done, hpops, -⟩ := hi.log i
  exact mem_popsOf.mp (hpops ▸ List.mem_append_right _ h)

/-- How often a worker has begun and ended an item. -/
theorem Served.count (hi : Served isEndTask s) (i : Fin n) (k : Nat) : ∃ done : List Nat,
    popsOf s.queue.pops i = done ++ (s.worker i).held ∧
    s.runs.count (i, .start k) = done.count k + (s.worker i).started.count (.start k) ∧
    s.runs.count (i, .stop k) = done.count k := by
  obtain ⟨done, hpops, hruns, -⟩ := hi.log i
  obtain ⟨hstart, hstop⟩ := count_serve done k
  have hno : (s.worker i).started.count (.stop k) = 0 := by
    rcases (s.worker i).started_of_held with h | ⟨_, -, h⟩ <;> simp [h]
  refine ⟨done, hpops, ?_, ?_⟩
  · rw [← count_runsOf, hruns, List.count_append, hstart]
  · rw [← count_runsOf, hruns, List.count_append, hstop, hno, Nat.add_zero]

/-- What a worker has taken and does not hold it has run once, and to the end. -/
theorem Served.count_done (hi : Served isEndTask s) (hk : s.queue.pops[k]? = some i) (hheld : k ∉ (s.worker i).held) :
    s.runs.count (i, .start k) = 1 ∧ s.runs.count (i, .stop k) = 1 := by
  obtain ⟨done, hpops, hstart, hstop⟩ := hi.count i k
  have hnodup := popsOf_nodup s.queue.pops i
  have hmem := mem_popsOf.mpr hk
  rw [hpops] at hnodup hmem
  have hone : done.count k = 1 :=
    List.count_eq_one_of_mem hnodup.of_append_left ((List.mem_append.mp hmem).resolve_right hheld)
  have hno : (s.worker i).started.count (.start k) = 0 := by
    rcases (s.worker i).started_of_held with h | ⟨l, hl, h⟩
    · simp [h]
    · rw [hl, List.mem_singleton] at hheld
      simp [h, Ne.symm hheld]
  omega

/-- What it holds it has begun once at most, and not ended. -/
theorem Served.count_held (hi : Served isEndTask s) (h : k ∈ (s.worker i).held) :
    s.runs.count (i, .start k) ≤ 1 ∧ s.runs.count (i, .stop k) = 0 := by
  obtain ⟨done, hpops, hstart, hstop⟩ := hi.count i k
  have hnodup := popsOf_nodup s.queue.pops i
  rw [hpops] at hnodup
  have hnone : done.count k = 0 := List.count_eq_zero.mpr fun hk => (List.disjoint_of_nodup_append hnodup) hk h
  have hle : (s.worker i).started.count (.start k) ≤ 1 := by
    rcases (s.worker i).started_of_held with h | ⟨l, -, h⟩
    · simp [h]
    · exact List.count_le_length.trans (by simp [h])
  omega

/-- What it has not taken it does not run. -/
theorem Served.count_other (hi : Served isEndTask s) (h : s.queue.pops[k]? ≠ some i) :
    s.runs.count (i, .start k) = 0 ∧ s.runs.count (i, .stop k) = 0 := by
  obtain ⟨done, hpops, hstart, hstop⟩ := hi.count i k
  have hnot : k ∉ done ++ (s.worker i).held := fun hk => h (mem_popsOf.mp (hpops ▸ hk))
  rw [List.mem_append, not_or] at hnot
  have hnone : done.count k = 0 := List.count_eq_zero.mpr hnot.1
  have hno : (s.worker i).started.count (.start k) = 0 := by
    rcases (s.worker i).started_of_held with h | ⟨l, hl, h⟩
    · simp [h]
    · rw [hl, List.mem_singleton] at hnot
      simp [h, Ne.symm hnot.2]
  omega

/-- A worker begins what it has taken, once, and ends it after that. -/
theorem Served.begun (hi : Served isEndTask s) (i : Fin n) (k : Nat) : s.runs.count (i, .start k) ≤ 1 ∧
    s.runs.count (i, .stop k) ≤ s.runs.count (i, .start k) ∧
    ((i, .start k) ∈ s.runs → s.queue.pops[k]? = some i) := by
  by_cases htaken : s.queue.pops[k]? = some i
  · by_cases hheld : k ∈ (s.worker i).held
    · obtain ⟨h1, h2⟩ := hi.count_held hheld
      exact ⟨h1, h2 ▸ Nat.zero_le _, fun _ => htaken⟩
    · obtain ⟨h1, h2⟩ := hi.count_done htaken hheld
      exact ⟨h1.le, (h2.trans h1.symm).le, fun _ => htaken⟩
  · obtain ⟨h1, h2⟩ := hi.count_other htaken
    exact ⟨by omega, by omega, fun h => absurd h (List.count_eq_zero.mp h1)⟩

/-- An item that was run to its end was run once, by one worker. -/
theorem Served.once (hi : Served isEndTask s) (h : (i, .stop k) ∈ s.runs) :
    s.runs.count (i, .start k) = 1 ∧ s.runs.count (i, .stop k) = 1 ∧
      ∀ j ≠ i, (j, .start k) ∉ s.runs ∧ (j, .stop k) ∉ s.runs := by
  have hpos : 0 < s.runs.count (i, .stop k) := List.count_pos_iff.mpr h
  have htaken : s.queue.pops[k]? = some i := by
    by_contra hno
    have := (hi.count_other hno).2
    omega
  have hheld : k ∉ (s.worker i).held := fun hk => by
    have := (hi.count_held hk).2
    omega
  obtain ⟨hstart, hstop⟩ := hi.count_done htaken hheld
  refine ⟨hstart, hstop, fun j hj => ?_⟩
  obtain ⟨h1, h2⟩ := hi.count_other (i := j) (k := k) (by rw [htaken]; simpa using hj.symm)
  exact ⟨List.count_eq_zero.mp h1, List.count_eq_zero.mp h2⟩

/-- **What a worker holds has overtaken what the other workers hold, and nothing else.** -/
theorem Served.overtaken (hi : Served isEndTask s) (h : k ∈ (s.worker i).held) :
    ((Finset.range k).filter fun l => ∀ j, (j, .stop l) ∉ s.runs).card < n := by
  have hlt : k < s.queue.pops.length := (List.getElem?_eq_some_iff.mp (hi.taken h)).1
  have hsub : ((Finset.range k).filter fun l => ∀ j, (j, .stop l) ∉ s.runs) ⊆
      (Finset.univ.erase i).biUnion fun j => (s.worker j).held.toFinset := by
    intro l hl
    obtain ⟨hlk, hnot⟩ := Finset.mem_filter.mp hl
    have hlk := Finset.mem_range.mp hlk
    obtain ⟨j, hj⟩ : ∃ j, s.queue.pops[l]? = some j := ⟨_, List.getElem?_eq_getElem (hlk.trans hlt)⟩
    have hheld : l ∈ (s.worker j).held := by
      by_contra hheld
      have := (hi.count_done hj hheld).2
      exact hnot j (List.count_pos_iff.mp (by omega))
    refine Finset.mem_biUnion.mpr ⟨j, Finset.mem_erase.mpr ⟨?_, Finset.mem_univ j⟩, List.mem_toFinset.mpr hheld⟩
    -- a worker holds one item only
    rintro rfl
    have hone := (s.worker j).held_length
    obtain ⟨x, hx⟩ := List.length_eq_one_iff.mp (le_antisymm hone (List.length_pos_of_mem h))
    rw [hx, List.mem_singleton] at h hheld
    omega
  have hcard := (Finset.card_le_card hsub).trans (Finset.card_biUnion_le_card_mul _ _ 1 fun j _ =>
    (List.toFinset_card_le _).trans (s.worker j).held_length)
  rw [Finset.card_erase_of_mem (Finset.mem_univ i), Finset.card_univ, Fintype.card_fin] at hcard
  have := i.pos
  omega

end Core

namespace FixedThreadPool

variable {n : Nat} {Cl T : Type*} [DecidableEq Cl] [DecidableEq T] {isEndTask : T → Bool} {s : FixedThreadPool n Cl T}

/-- **Order of the runs.** In every reachable state each item was begun and ended once at most, ended only by the worker
that has begun it, and begun by no two workers; and a task that is being run has overtaken less than `n` items. -/
theorem dispatch_order (h : (system n Cl isEndTask).Reachable Anything s) :
    (∀ i k, s.runs.count (i, .start k) ≤ 1 ∧ s.runs.count (i, .stop k) ≤ s.runs.count (i, .start k) ∧
      ∀ j, (i, .start k) ∈ s.runs → (j, .start k) ∈ s.runs → i = j) ∧
    ∀ i k t p, (s.threads i).pc = .run k t p →
      ((Finset.range k).filter fun l => ∀ j, (j, .stop l) ∉ s.runs).card < n := by
  have hi := (Reachable.view h).served
  refine ⟨fun i k => ?_, fun i k t p hpc => hi.overtaken (i := i) ?_⟩
  · obtain ⟨h1, h2, h3⟩ := hi.begun i k
    refine ⟨h1, h2, fun j hk hj => Option.some.inj ((h3 hk).symm.trans ((hi.begun j k).2.2 hj))⟩
  · rw [show s.view.worker i = .running k from congrArg WorkerThread.PC.view hpc]
    exact List.mem_singleton_self k

omit [DecidableEq T] in
theorem run_of_view {pc : WorkerThread.PC T} {k : Nat} (h : pc.view = .running k) : ∃ t p, pc = .run k t p := by
  cases pc with
  | run l t p =>
    cases h
    exact ⟨t, p, rfl⟩
  | _ => cases h

/-- Two workers, the second of which runs a task while the first has not come to the end of the one before. -/
def overtakeRun (i j : Fin 2) : List (Action 2 Unit Unit) :=
  List.replicate 4 .construct ++
    (List.replicate 2 [.call () (.addTask (some ())), .client () ⟨.ret, 0, 0⟩, .client () ⟨.ret, 0, 0⟩]).flatten ++
    List.replicate 8 (.worker i .ret) ++ List.replicate 8 (.worker j .ret)

theorem dispatch_order_overtakeRun : ∃ s : FixedThreadPool 2 Unit Unit, s.runs = [(0, .start 0), (1, .start 1)] ∧
    s.runs.count (1, .start 1) ≤ 1 ∧ ((Finset.range 1).filter fun l => ∀ j, (j, .stop l) ∉ s.runs).card < 2 := by
  obtain ⟨s, hr, hs⟩ := System.reachable_of_exec (system 2 Unit fun _ : Unit => false) Anything (overtakeRun 0 1)
    (fun s => s.runs == [(0, .start 0), (1, .start 1)] && (s.threads 1).pc.view == .running 1) (by decide)
  simp only [Bool.and_eq_true, beq_iff_eq] at hs
  obtain ⟨t, p, hpc⟩ := run_of_view hs.2
  have hall := dispatch_order hr
  exact ⟨s, hs.1, (hall.1 1 1).1, hall.2 1 1 t p hpc⟩

end FixedThreadPool

end Tpool
