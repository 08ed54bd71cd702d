import Tpool.Concurrency.Returns
import Tpool.Sync.CountDownLatch
import Tpool.Sync.CyclicBarrier

/-!
# Calls of the latch and of the barrier that return

In a fair run a call returns, or it waits for what never comes.

- `CountDownLatch.passes`, `latch_returns`: at an open latch nobody waits, and it opens once enough threads have begun
  to count down.
- `CyclicBarrier.Came`: a `Wait` that has arrived, and in which generation; it keeps it until it returns (`next_came`).
- `CyclicBarrier.settles`, `barrier_returns`: whoever waits forever does so in the last generation. There are fewer of
  them than it takes to end it.
-/

namespace Tpool

open Concurrency Concurrency.Monitor Concurrency.System

variable {Tid : Type*} [DecidableEq Tid]

namespace CountDownLatch

variable {count : Int32} {s : State Tid Method Unit CountDownLatch Ret} {t : Tid} {m : Method}

/-- The one wait of the methods. -/
theorem wait_mem {c : Unit} {g : CountDownLatch → Ret → Bool} (h : Stmt.waitWhile c g ∈ body m) :
    m = .wait ∧ g = fun d _ => decide (0 < d.count) := by
  cases m <;> simp_all [body, wait, countDown, getCount]

/-- At an open latch a call passes. -/
theorem passes (h : (latch Tid count).Reachable Anything s) (hr : InRange count s.data) (hm : (s.pc t).method = some m)
    (hopen : m = .wait → count.toInt ≤ s.data.countDowns) : Passes s t := by
  have hleft := ((Reachable.proved h).always verified).left hr
  have hclosed : m = .wait → ¬ 0 < s.data.count := fun hw hpos => by
    have hlt := (pos_iff hleft).mp hpos
    have hle := hopen hw
    omega
  refine ⟨fun m' c f rest x hpc => ?_, fun hfree m' c f rest x hpc hin => ?_⟩
  all_goals
    obtain rfl : m' = m := by simpa [hpc, PC.method] using hm
    obtain ⟨hw, rfl⟩ := wait_mem ((suffix_body h t m' _ (by rw [hpc]; rfl)).subset (List.mem_cons_self ..))
  · simpa using hclosed hw
  · rcases Reachable.waiting h hr ⟨t, hin⟩ with hpos | ⟨u, _, ho, -⟩
    · exact hclosed hw hpos
    · rw [hfree] at ho
      cases ho

section Runs

variable {r : (latch Tid count).Run Anything} {k : ℕ}

/-- A call returns, or the latch never opens. -/
theorem returns_or_closed (hf : r.Fair Action.party) (hr : ∀ k, InRange count (r.state k).data)
    (hm : ((r.state k).pc t).method = some m) :
    (∃ j ≥ k, (r.state j).pc t = .idle) ∨ m = .wait ∧ ∀ j, ((r.state j).data.countDowns : ℤ) < count.toInt := by
  by_cases hclosed : m = .wait ∧ ∀ j, ((r.state j).data.countDowns : ℤ) < count.toInt
  · exact Or.inr hclosed
  have hopen : r.Finally fun s => m = .wait → count.toInt ≤ s.data.countDowns := by
    by_cases hw : m = .wait
    · obtain ⟨j, hj⟩ := not_forall.mp fun h => hclosed ⟨hw, h⟩
      refine Run.finally_of (k := j) (fun s a s' h _ hs hI hw => ?_) fun _ => not_lt.mp hj
      have hle := countDowns_mono h hs
      have := hI hw
      omega
    · exact Run.finally_always fun _ h => absurd h hw
  refine Or.inl (returns verified free_new (fun _ _ => trivial) hf hm ?_)
  have hrange : r.Finally fun s => InRange count s.data := Run.finally_always hr
  exact (hopen.and hrange).mono fun s h hdata hm => passes h hdata.2 hm hdata.1

omit [DecidableEq Tid] in
/-- Calls of different threads that were logged are counted. -/
theorem completed_append_card (lg : Log Tid Method Ret) {new : Log Tid Method Ret} {a : Finset Tid}
    (h : ∀ t ∈ a, ∃ x, (t, Method.countDown, x) ∈ new) : completed lg + a.card ≤ completed (lg ++ new) := by
  classical
  have hsub : a ⊆ ((new.filter fun c => c.2.1 == .countDown).map Prod.fst).toFinset := fun t ht => by
    obtain ⟨x, hx⟩ := h t ht
    simp only [List.mem_toFinset, List.mem_map, List.mem_filter]
    exact ⟨_, ⟨hx, by simp⟩, rfl⟩
  have hcard := (Finset.card_le_card hsub).trans (List.toFinset_card_le _)
  rw [List.length_map, ← List.countP_eq_length_filter] at hcard
  simp only [completed, List.countP_append]
  omega

/-- **Calls of the latch return.** `CountDown` and `GetCount` always do, and `Wait` does if the latch opens; and it
opens when, at some point, those who have executed `CountDown` and those who are about to are enough. -/
theorem latch_returns (hf : r.Fair Action.party) (hr : ∀ k, InRange count (r.state k).data) :
    (∀ t k m, ((r.state k).pc t).method = some m →
      (∃ j ≥ k, (r.state j).pc t = .idle) ∨ m = .wait ∧ ∀ j, ((r.state j).data.countDowns : ℤ) < count.toInt) ∧
    ∀ k (a : Finset Tid), (∀ t ∈ a, ((r.state k).pc t).method = some .countDown) →
      count.toInt ≤ (completed (r.state k).log + a.card : ℕ) →
      ∀ t i, ((r.state i).pc t).method = some .wait → ∃ j ≥ i, (r.state j).pc t = .idle := by
  refine ⟨fun t k m hm => returns_or_closed hf hr hm, fun k a ha hle t i hm => ?_⟩
  refine (returns_or_closed hf hr hm).resolve_right fun hclosed => ?_
  have hidle : ∀ u ∈ a, ∃ j ≥ k, (r.state j).pc u = .idle := fun u hu =>
    (returns_or_closed hf hr (ha u hu)).resolve_right fun h => by cases h.1
  obtain ⟨j, -, new, hnew, hall⟩ := (finally_logged ha hidle).exists 0
  have hcompleted := completed_append_card (r.state k).log hall
  rw [← hnew] at hcompleted
  have hdone := completed_le (r.reachable j)
  have := hclosed.2 j
  omega

end Runs

/-- Two threads wait for a count of two, while two others count down. -/
def openingRun (t t' u u' : Fin 4) : List (Action (Fin 4) Method Unit) :=
  [.call t .wait, .step t false, .step t false, .call u .countDown, .call u' .countDown, .call t' .wait] ++
    List.replicate 5 (.step u false) ++ List.replicate 5 (.step u' false) ++ List.replicate 4 (.step t false) ++
    List.replicate 4 (.step t' false)

theorem latch_returns_openingRun : ∃ r : (latch (Fin 4) 2).Run Anything, r.Fair Action.party ∧
    ((r.state 6).pc 0).method = some .wait ∧ ((r.state 6).pc 1).method = some .wait ∧
    (∃ j ≥ 6, (r.state j).pc 0 = .idle) ∧ ∃ j ≥ 6, (r.state j).pc 1 = .idle := by
  obtain ⟨r, hf, hr⟩ := exists_run_idle code ⟨2, 0⟩ (openingRun 0 1 2 3) (by decide +kernel)
  have hlast := check_run hr (k := 24) (p := fun s => s.data.countDowns ≤ 2) (by decide +kernel)
  have hrange : ∀ k, InRange 2 (r.state k).data := fun k => by
    have hle := le_last hr (fun s => s.data.countDowns) (fun _ _ _ h _ hs => countDowns_mono h.any hs) k
    have hlast : (r.state 24).data.countDowns ≤ 2 := of_decide_eq_true hlast
    show ((r.state k).data.countDowns : ℤ) ≤ 2 + 2147483648
    have : (r.state k).data.countDowns ≤ 2 := hle.trans hlast
    omega
  have hcalls := check_run hr (k := 6) (p := fun s => decide ((s.pc 0).method = some .wait) &&
    decide ((s.pc 1).method = some .wait) && decide ((s.pc 2).method = some .countDown) &&
    decide ((s.pc 3).method = some .countDown)) (by decide +kernel)
  simp only [Bool.and_eq_true, decide_eq_true_eq] at hcalls
  obtain ⟨⟨⟨hwait0, hwait1⟩, hdown2⟩, hdown3⟩ := hcalls
  have hback := (latch_returns hf hrange).2 6 {2, 3} (by simp [hdown2, hdown3])
    (by simp)
  exact ⟨r, hf, hwait0, hwait1, hback 0 6 hwait0, hback 1 6 hwait1⟩

end CountDownLatch

namespace CyclicBarrier

variable {count : Int32} {s s' : State Tid Method Unit CyclicBarrier Local} {t : Tid} {m : Method} {g : ℕ}

/-- A `Wait` that has executed `--m_count`, in the generation `g`. -/
def Came (g : ℕ) : PC Method Unit CyclicBarrier Local → Prop
  | .body m rest x => m = .wait ∧ rest <:+ wait.drop 1 ∧ x.generation = g
  | .blocked m c f rest x => m = .wait ∧ .waitWhile c f :: rest <:+ wait.drop 1 ∧ x.generation = g
  | .leave m x => m = .wait ∧ ∀ y ∈ x, y.generation = g
  | .idle | .enter _ => False

/-- After its arrival a call keeps its generation. -/
theorem generation_kept {b : Bool} {h : CyclicBarrier → Local → Option (CyclicBarrier × Local)}
    (hmem : Stmt.act b h ∈ wait.drop 1) {d d' : CyclicBarrier} {x x' : Local} (he : h d x = some (d', x')) :
    x'.generation = x.generation := by
  simp only [wait, List.drop_succ_cons, List.drop_zero, List.mem_cons, reduceCtorEq, Stmt.act.injEq, List.not_mem_nil,
    or_false, false_or] at hmem
  rcases hmem with ⟨-, rfl⟩ | ⟨-, rfl⟩
  · beta_reduce at he
    split at he <;> cases he <;> rfl
  · cases he
    rfl

/-- A call that has arrived stays in its generation until it returns. -/
theorem next_came {a : Action Tid Method Unit} (h : next code s a = some s') (hc : Came g (s.pc t)) :
    Came g (s'.pc t) ∨ s'.pc t = .idle := by
  have move : ∀ {u p}, s'.pc = Function.update s.pc u p → (u = t → Came g p ∨ p = .idle) →
      Came g (s'.pc t) ∨ s'.pc t = .idle := by
    intro u p hpc hp
    rw [hpc]
    by_cases hut : u = t
    · subst hut
      rw [Function.update_self]
      exact hp rfl
    · rw [Function.update_of_ne (Ne.symm hut)]
      exact Or.inl hc
  have behind : ∀ {st rest}, st :: rest <:+ wait.drop 1 → rest <:+ wait.drop 1 :=
    fun hs => (List.suffix_cons _ _).trans hs
  cases next_cases h with
  | wake => exact Or.inl hc
  | call ht | enter ht =>
    refine move rfl fun hut => ?_
    rw [← hut, ht] at hc
    exact hc.elim
  | leave ht => exact move rfl fun _ => Or.inr rfl
  | finish ht =>
    refine move rfl fun hut => ?_
    rw [← hut, ht] at hc
    exact Or.inl ⟨hc.1, by simpa using hc.2.2⟩
  | wait ht | resume ht =>
    refine move rfl fun hut => ?_
    rw [← hut, ht] at hc
    exact Or.inl hc
  | pass ht | skip ht | notify ht =>
    refine move rfl fun hut => ?_
    rw [← hut, ht] at hc
    exact Or.inl ⟨hc.1, behind hc.2.1, hc.2.2⟩
  | ret ht =>
    refine move rfl fun hut => ?_
    rw [← hut, ht] at hc
    exact absurd (hc.2.1.subset (List.mem_cons_self ..)) (by simp [wait])
  | throw ht =>
    refine move rfl fun hut => ?_
    rw [← hut, ht] at hc
    exact Or.inl ⟨hc.1, fun y hy => by cases hy⟩
  | act ht hg =>
    refine move rfl fun hut => ?_
    rw [← hut, ht] at hc
    exact Or.inl ⟨hc.1, behind hc.2.1, (generation_kept (hc.2.1.subset (List.mem_cons_self ..)) hg).trans hc.2.2⟩

/-- No step takes back that a generation is over. -/
theorem generation_mono (h : (barrier Tid count).Reachable Anything s) {a : Action Tid Method Unit}
    (hs : (barrier Tid count).step s a = some s') : s.data.generation ≤ s'.data.generation :=
  (next_data (R := fun d d' : CyclicBarrier => d.ended <+: d'.ended) (fun _ => List.prefix_rfl) ended_prefix h
   hs).length_le

/-- When its generation is over, a call passes. -/
theorem passes (hcount : 0 < count) (h : (barrier Tid count).Reachable Anything s) (hr : s.data.InRange)
    (hc : Came g (s.pc t)) (hg : g < s.data.generation) : Passes s t := by
  have hguard := kept.sound total trivial (inv_new hcount) h
  refine ⟨fun m' c f rest x hpc => ?_, fun hfree m' c f rest x hpc hin => ?_⟩
  · rw [hpc] at hc
    obtain ⟨rfl, -, rfl⟩ := hc
    obtain ⟨-, hwait, -⟩ := hguard.body t _ _ _ hpc
    by_contra hf
    rw [Bool.not_eq_false] at hf
    rw [if_pos hf] at hwait
    -- it would be blocked in the current generation
    rcases Arrived.update_some.mp (hwait.waiting hr t (by simp)) with ⟨-, heq⟩ | ⟨hne, -⟩
    · omega
    · exact hne rfl
  · rw [hpc] at hc
    obtain ⟨rfl, -, rfl⟩ := hc
    have harr := (hguard.free hfree).waiting hr t hin
    have heq := (Arrived.unique (x := x) (m := .wait) (by simp [State.blocked, hpc, PC.asleep])).mp harr
    omega

/-- A call that is at its wait has arrived. -/
theorem came_of_wait (h : (barrier Tid count).Reachable Anything s) {c : Unit} {f : CyclicBarrier → Local → Bool}
    {rest : Body} (hs : (s.pc t).stmts = some (m, .waitWhile c f :: rest)) : ∃ g, Came g (s.pc t) := by
  have hmem := suffix_body h t m _ hs
  have hbody : m = .wait ∧ .waitWhile c f :: rest <:+ wait.drop 1 := by
    cases m with
    | wait =>
      rcases List.suffix_cons_iff.mp hmem with he | hmem
      · cases he
      · exact ⟨rfl, hmem⟩
    | reset => exact absurd (hmem.subset (List.mem_cons_self ..)) (by simp [code, body, reset])
  cases hpc : s.pc t with
  | body m' stmts x =>
    rw [hpc] at hs
    cases hs
    exact ⟨x.generation, hbody.1, hbody.2, rfl⟩
  | blocked m' c' f' rest' x =>
    rw [hpc] at hs
    cases hs
    exact ⟨x.generation, hbody.1, hbody.2, rfl⟩
  | idle | enter | leave => rw [hpc] at hs; cases hs

/-- A call that has not arrived passes. -/
theorem passes_of_not_came (h : (barrier Tid count).Reachable Anything s) (hno : ∀ g, ¬ Came g (s.pc t)) : Passes s t :=
  ⟨fun _ _ _ _ _ hpc => absurd (came_of_wait h (by rw [hpc]; rfl)) (not_exists.mpr hno),
    fun _ _ _ _ _ _ hpc => absurd (came_of_wait h (by rw [hpc]; rfl)) (not_exists.mpr hno)⟩

section Runs

variable {r : (barrier Tid count).Run Anything} {k : ℕ}

theorem returns_of_passes (hf : r.Fair Action.party) (hm : ((r.state k).pc t).method = some m)
    (hpass : r.Finally fun s => (s.pc t).method = some m → Passes s t) : ∃ j ≥ k, (r.state j).pc t = .idle :=
  returns total trivial (fun _ _ => trivial) hf hm hpass

theorem came_stays {j : ℕ} (hc : Came g ((r.state k).pc t)) (hno : ∀ j ≥ k, (r.state j).pc t ≠ .idle) (hj : k ≤ j) :
    Came g ((r.state j).pc t) :=
  Run.stays (J := fun s : State Tid Method Unit CyclicBarrier Local => Came g (s.pc t))
    (I := fun s : State Tid Method Unit CyclicBarrier Local => s.pc t ≠ .idle) hc hno
    (fun _ _ _ _ _ hs h hne => (next_came hs h).resolve_right hne) hj

theorem came_method {p : PC Method Unit CyclicBarrier Local} (hc : Came g p) : p.method = some .wait := by
  cases p with
  | idle | enter => exact hc.elim
  | body | blocked | leave => rw [← hc.1]; rfl

/-- A `Wait` whose generation is over at some point returns. -/
theorem over_returns (hcount : 0 < count) (hf : r.Fair Action.party) (hr : ∀ k, (r.state k).data.InRange)
    (hc : Came g ((r.state k).pc t)) {i : ℕ} (hi : g < (r.state i).data.generation) :
    ∃ j ≥ k, (r.state j).pc t = .idle := by
  by_contra hno
  have hno : ∀ j ≥ k, (r.state j).pc t ≠ .idle := fun j hj h => hno ⟨j, hj, h⟩
  have hcame : r.Finally fun s => Came g (s.pc t) :=
    Filter.eventually_atTop.mpr ⟨k, fun j hj => came_stays hc hno hj⟩
  have hover : r.Finally fun s => g < s.data.generation :=
    Run.finally_of (k := i) (fun s a s' h _ hs hI => hI.trans_le (generation_mono h hs)) hi
  have hrange : r.Finally fun s => s.data.InRange := Run.finally_always hr
  obtain ⟨j, hj, hidle⟩ := returns_of_passes hf (came_method hc)
    (((hcame.and hover).and hrange).mono fun s h hall _ => passes hcount h hall.2 hall.1.1 hall.1.2)
  exact hno j hj hidle

/-- A `Wait` that never returns has arrived in the last generation. -/
theorem settles (hcount : 0 < count) (hf : r.Fair Action.party) (hr : ∀ k, (r.state k).data.InRange)
    (hm : ((r.state k).pc t).method = some .wait) (hno : ∀ j ≥ k, (r.state j).pc t ≠ .idle) :
    r.Finally fun s => ∃ g, Came g (s.pc t) ∧ s.data.generation ≤ g := by
  by_cases hcame : ∃ j ≥ k, ∃ g, Came g ((r.state j).pc t)
  · obtain ⟨j, hj, g, hc⟩ := hcame
    have hno' : ∀ i ≥ j, (r.state i).pc t ≠ .idle := fun i hi => hno i (hj.trans hi)
    refine Filter.eventually_atTop.mpr ⟨j, fun i hi => ⟨g, came_stays hc hno' hi, not_lt.mp fun hlt => ?_⟩⟩
    obtain ⟨i', hi', hidle⟩ := over_returns hcount hf hr hc hlt
    exact hno' i' hi' hidle
  · have hpass : r.Finally fun s => (s.pc t).method = some .wait → Passes s t :=
      Filter.eventually_atTop.mpr ⟨k, fun j hj _ => passes_of_not_came (r.reachable j) fun g hc => hcame ⟨j, hj, g, hc⟩⟩
    obtain ⟨j, hj, hidle⟩ := returns_of_passes hf hm hpass
    exact absurd hidle (hno j hj)

/-- **Calls of the barrier return.** `Reset` always does; `Wait` does if its generation is over at some point; and fewer
threads than the barrier was made for wait forever. -/
theorem barrier_returns (hcount : 0 < count) (hf : r.Fair Action.party) (hr : ∀ k, (r.state k).data.InRange) :
    (∀ t k, ((r.state k).pc t).method = some .reset → ∃ j ≥ k, (r.state j).pc t = .idle) ∧
    (∀ t k g, Came g ((r.state k).pc t) → (∃ i, g < (r.state i).data.generation) → ∃ j ≥ k, (r.state j).pc t = .idle) ∧
    ∀ a : Finset Tid, (∀ t ∈ a, ∃ k, ((r.state k).pc t).method = some .wait ∧ ∀ j ≥ k, (r.state j).pc t ≠ .idle) →
      a.card < count.toInt := by
  refine ⟨fun t k hm => ?_, fun t k g hc ⟨i, hi⟩ => over_returns hcount hf hr hc hi, fun a ha => ?_⟩
  · refine returns_of_passes hf hm
      (Run.finally_always fun j hreset => passes_of_not_came (r.reachable j) fun g hc => ?_)
    rw [came_method hc] at hreset
    cases hreset
  · have hall : r.Finally fun s => ∀ t : a, ∃ g, Came g (s.pc t.1) ∧ s.data.generation ≤ g :=
      Run.finally_all fun t => by
        obtain ⟨k, hm, hno⟩ := ha t.1 t.2
        exact settles hcount hf hr hm hno
    obtain ⟨j, hfree, hall⟩ := (often_free total trivial (fun _ _ => trivial) hf).with hall
    have hinv := (kept.sound total trivial (inv_new hcount) (r.reachable j)).free hfree
    obtain ⟨b, hb, hcard⟩ := hinv.arrived
    have hout := (total.sound (d := ⟨count, count, 0, 0, 0, []⟩) trivial (r.reachable j)).not_inside hfree
    have hsub : a ⊆ b := fun t ht => by
      obtain ⟨g, hc, hle⟩ := hall ⟨t, ht⟩
      have hin := hout t
      cases hpc : (r.state j).pc t with
      | idle | enter => rw [hpc] at hc; exact hc.elim
      | body | leave => rw [hpc] at hin; cases hin
      | blocked m c f rest x =>
        rw [hpc] at hc
        obtain ⟨rfl, -, rfl⟩ := hc
        have hblocked : (r.state j).blocked t = some (.wait, x) := by simp [State.blocked, hpc, PC.asleep]
        have hsaved := (hinv.blocked t _ x hblocked).2.le
        exact (hb t).mpr ((Arrived.unique hblocked).mpr (le_antisymm hsaved hle))
    have hle := Finset.card_le_card hsub
    have hroom := hinv.room
    omega

end Runs

/-- Two threads trip the barrier. -/
def trippingRun (t u : Fin 2) : List (Action (Fin 2) Method Unit) :=
  (.call t .wait :: List.replicate 5 (.step t false)) ++ (.call u .wait :: List.replicate 8 (.step u false)) ++
    List.replicate 5 (.step t false)

/-- Blocked since the generation `0`. -/
def firstBlocked (p : PC Method Unit CyclicBarrier Local) : Bool := match p with
  | .blocked .wait _ _ _ x => x.generation == 0
  | _ => false

theorem barrier_returns_trippingRun : ∃ r : (barrier (Fin 2) 2).Run Anything, r.Fair Action.party ∧
    Came 0 ((r.state 6).pc 0) ∧ ∃ j ≥ 6, (r.state j).pc 0 = .idle := by
  obtain ⟨r, hf, hr⟩ := exists_run_idle code ⟨2, 2, 0, 0, 0, []⟩ (trippingRun 0 1) (by decide +kernel)
  have hlast := check_run hr (k := 20) (p := fun s => s.data.generation == 1) (by decide +kernel)
  have hlast : (r.state 20).data.generation = 1 := eq_of_beq hlast
  have hle : ∀ k, (r.state k).data.generation ≤ (r.state 20).data.generation :=
    le_last hr (fun s => s.data.generation) fun _ _ _ h _ hs => generation_mono h.any hs
  have hrange : ∀ k, (r.state k).data.InRange := fun k => by
    have hsum := (r.state k).data.trips_add_resets
    have := hle k
    constructor <;> omega
  have hfirst := check_run hr (k := 6) (p := fun s => firstBlocked (s.pc 0)) (by decide +kernel)
  have hcame : Came 0 ((r.state 6).pc 0) := by
    unfold firstBlocked at hfirst
    split at hfirst
    · rename_i hpc
      obtain ⟨g, hg⟩ := came_of_wait (r.reachable 6) (t := 0) (by rw [hpc]; rfl)
      rw [hpc] at hg ⊢
      exact ⟨hg.1, hg.2.1, eq_of_beq hfirst⟩
    · cases hfirst
  exact ⟨r, hf, hcame, (barrier_returns (by decide) hf hrange).2.1 0 6 0 hcame ⟨20, by omega⟩⟩

end CyclicBarrier

end Tpool
