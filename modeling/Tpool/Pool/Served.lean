import Mathlib.Data.List.Infix
import Tpool.Pool.Core

/-!
# What the workers of a pool have taken and run

- `popsOf`, `runsOf`: the positions a worker has taken, and its part of the runs.
- `Served`: a worker has run, one after the other and to the end, what it has taken, except the item it holds.
- `run_once`: in a finished pool no worker of which was cancelled or lost a task, every item before the first end item
  was run once, by one worker; by a single worker in the order of the pushes.
- `ends_left`: of `n` end items as many are left as there are workers that may still take one.
-/

namespace Tpool.Core

variable {n : Nat} {Cl T : Type*}

/-- The positions taken by a worker. -/
def popsOf (pops : List (Fin n)) (i : Fin n) : List Nat := (List.range pops.length).filter fun k => pops[k]? == some i

/-- The part of a worker in the runs. -/
def runsOf (runs : List (Fin n × Event)) (i : Fin n) : List Event := (runs.filter fun r => r.1 == i).map Prod.snd

theorem mem_popsOf {pops : List (Fin n)} {i : Fin n} {k : Nat} : k ∈ popsOf pops i ↔ pops[k]? = some i := by
  simp only [popsOf, List.mem_filter, List.mem_range, beq_iff_eq, and_iff_right_iff_imp]
  intro h
  exact (List.getElem?_eq_some_iff.mp h).1

theorem popsOf_nodup (pops : List (Fin n)) (i : Fin n) : (popsOf pops i).Nodup := List.nodup_range.filter _

/-- One more pop is one more position of its worker. -/
theorem popsOf_append (pops : List (Fin n)) (i j : Fin n) :
    popsOf (pops ++ [j]) i = popsOf pops i ++ if j = i then [pops.length] else [] := by
  have hold : (List.range pops.length).filter (fun k => (pops ++ [j])[k]? == some i) = popsOf pops i :=
    List.filter_congr fun k hk => by rw [List.getElem?_append_left (List.mem_range.mp hk)]
  rw [popsOf, List.length_append, List.length_singleton, List.range_succ, List.filter_append, hold]
  by_cases h : j = i <;> simp [h]

/-- One more event is one of its worker. -/
theorem runsOf_append (runs : List (Fin n × Event)) (i j : Fin n) (e : Event) :
    runsOf (runs ++ [(j, e)]) i = runsOf runs i ++ if j = i then [e] else [] := by
  by_cases h : j = i <;> simp [runsOf, List.filter_append, h]

/-- A run of the item at `k`, from its beginning to its end. -/
def serve (k : Nat) : List Event := [.start k, .stop k]

/-- The position of the item a worker holds, or held when it left. -/
def Worker.held : Worker → List Nat
  | .holding k | .running k | .left (.endTask k) _ | .left (.dropped k) _ | .left (.escaped k) _ => [k]
  | _ => []

/-- The beginning of the run that has not ended. -/
def Worker.started : Worker → List Event
  | .running k | .left (.escaped k) _ => [.start k]
  | _ => []

/-- A task that is passed to `Run`. -/
def Runs (isEndTask : T → Bool) (pushes : List (Item T)) (k : Nat) : Prop :=
  ∃ t, pushes[k]? = some (.task t) ∧ isEndTask t = false

/-- What a worker does fits its item. -/
def Worker.Fits (isEndTask : T → Bool) (pushes : List (Item T)) : Worker → Prop
  | .running k | .left (.escaped k) _ => Runs isEndTask pushes k
  | .left (.endTask k) _ => ∃ x, pushes[k]? = some x ∧ x.isEnd isEndTask = true
  | _ => True

/-- **What the workers have taken and run.** -/
structure Served (isEndTask : T → Bool) (s : Core n Cl T) : Prop where
  log : ∀ i, ∃ done, popsOf s.queue.pops i = done ++ (s.worker i).held ∧
    runsOf s.runs i = done.flatMap serve ++ (s.worker i).started ∧ ∀ k ∈ done, Runs isEndTask s.queue.pushes k
  fits : ∀ i, (s.worker i).Fits isEndTask s.queue.pushes

section Served

variable {isEndTask : T → Bool} {s s' : Core n Cl T} {i : Fin n}

theorem Runs.append {pushes : List (Item T)} {k : Nat} (h : Runs isEndTask pushes k) (x : Item T) :
    Runs isEndTask (pushes ++ [x]) k := by
  obtain ⟨t, ht, he⟩ := h
  exact ⟨t, getElem?_grow (List.prefix_append _ _) ht, he⟩

theorem Worker.Fits.append {pushes : List (Item T)} {w : Worker} (h : w.Fits isEndTask pushes) (x : Item T) :
    w.Fits isEndTask (pushes ++ [x]) := by
  cases w with
  | absent | looping | popping => trivial
  | holding k => trivial
  | running k => exact Runs.append h x
  | left why p =>
    cases why with
    | cancelled => trivial
    | dropped k => trivial
    | escaped k => exact Runs.append h x
    | endTask k =>
      obtain ⟨y, hy, he⟩ := h
      exact ⟨y, getElem?_grow (List.prefix_append _ _) hy, he⟩

/-- Something is pushed. -/
theorem Served.push (hi : Served isEndTask s) (x : Item T) : Served isEndTask { s with queue := s.queue.push x } := by
  refine ⟨fun i => ?_, fun i => (hi.fits i).append x⟩
  obtain ⟨done, h1, h2, h3⟩ := hi.log i
  exact ⟨done, h1, h2, fun k hk => (h3 k hk).append x⟩

/-- A worker moves on and holds what it held. -/
theorem Served.setWorker (hi : Served isEndTask s) {w w' : Worker} (hw : s.worker i = w) (hheld : w'.held = w.held)
    (hstarted : w'.started = w.started) (hfits : w'.Fits isEndTask s.queue.pushes) :
    Served isEndTask (s.setWorker i w') := by
  refine ⟨fun j => ?_, fun j => ?_⟩
  · by_cases hji : j = i
    · subst hji; simpa [Core.setWorker, hheld, hstarted, hw] using hi.log j
    · simpa [Core.setWorker, hji] using hi.log j
  · by_cases hji : j = i
    · subst hji; simpa [Core.setWorker] using hfits
    · simpa [Core.setWorker, hji] using hi.fits j

/-- The rest of the state says nothing about it. -/
theorem Served.frame (hi : Served isEndTask s) {isRequestCancel : Fin n → Bool} {incs : List (Fin n)}
    {state : PoolState} {stateWaiters : Finset Cl} {isRequestStop : Bool} {wins : Nat} {constructed : Bool}
    {q : TaskQueue (Item T) (Fin n)} (h1 : q.pushes = s.queue.pushes) (h2 : q.pops = s.queue.pops) :
    Served isEndTask
    (⟨q, s.worker, isRequestCancel, incs, state, stateWaiters, isRequestStop, wins, constructed, s.runs⟩ :
      Core n Cl T) :=
  ⟨by simpa only [h1, h2] using hi.log, by simpa only [h1] using hi.fits⟩

/-- A worker that has left goes on leaving. -/
theorem Served.leave (hi : Served isEndTask s) {why : Why} {p : Leaving} (hw : s.worker i = .left why p)
    (p' : Leaving) :
    Served isEndTask (s.setWorker i (.left why p')) := by
  have hfit := hi.fits i
  rw [hw] at hfit
  refine hi.setWorker hw ?_ ?_ ?_
  · cases why <;> rfl
  · cases why <;> rfl
  · cases why <;> exact hfit

/-- A worker takes the next item. -/
theorem Served.pop (hi : Served isEndTask s) {k : Nat} {x : Item T} {q : TaskQueue (Item T) (Fin n)}
    (hw : s.worker i = .popping) (hp : s.queue.pop i = some (k, x, q)) :
    Served isEndTask { s.setWorker i (.holding k) with queue := q } := by
  obtain ⟨rfl, -, hpushes, hpops, -⟩ := TaskQueue.pop_spec hp
  refine ⟨fun j => ?_, fun j => ?_⟩
  · obtain ⟨done, h1, h2, h3⟩ := hi.log j
    by_cases hji : j = i
    · subst hji
      rw [hw] at h1 h2
      refine ⟨done, ?_, by simpa [Core.setWorker, Worker.started] using h2, by simpa [hpushes] using h3⟩
      simp only [Worker.held, List.append_nil] at h1
      simp [Core.setWorker, hpops, popsOf_append, h1, Worker.held]
    · refine ⟨done, ?_, by simpa [Core.setWorker, hji] using h2, by simpa [hpushes] using h3⟩
      simpa [Core.setWorker, hji, hpops, popsOf_append, Ne.symm hji] using h1
  · by_cases hji : j = i
    · subst hji; simp [Core.setWorker, Worker.Fits]
    · simpa [Core.setWorker, hji, hpushes] using hi.fits j

/-- A worker begins to run what it holds. -/
theorem Served.start (hi : Served isEndTask s) {k : Nat} (hw : s.worker i = .holding k)
    (hr : Runs isEndTask s.queue.pushes k) :
    Served isEndTask { s.setWorker i (.running k) with runs := s.runs ++ [(i, .start k)] } := by
  refine ⟨fun j => ?_, fun j => ?_⟩
  · obtain ⟨done, h1, h2, h3⟩ := hi.log j
    by_cases hji : j = i
    · subst hji
      rw [hw] at h1 h2
      refine ⟨done, by simpa [Core.setWorker, Worker.held] using h1, ?_, h3⟩
      simp only [Worker.started, List.append_nil] at h2
      simp [Core.setWorker, runsOf_append, h2, Worker.started]
    · refine ⟨done, by simpa [Core.setWorker, hji] using h1, ?_, h3⟩
      simpa [Core.setWorker, hji, runsOf_append, Ne.symm hji] using h2
  · by_cases hji : j = i
    · subst hji; simpa [Core.setWorker, Worker.Fits] using hr
    · simpa [Core.setWorker, hji] using hi.fits j

/-- A worker has run what it held. -/
theorem Served.stop (hi : Served isEndTask s) {k : Nat} (hw : s.worker i = .running k) :
    Served isEndTask { s.setWorker i .looping with runs := s.runs ++ [(i, .stop k)] } := by
  have hfit := hi.fits i
  rw [hw] at hfit
  refine ⟨fun j => ?_, fun j => ?_⟩
  · obtain ⟨done, h1, h2, h3⟩ := hi.log j
    by_cases hji : j = i
    · subst hji
      rw [hw] at h1 h2
      refine ⟨done ++ [k], by simpa [Core.setWorker, Worker.held] using h1, ?_, fun l hl => ?_⟩
      · simp [Core.setWorker, runsOf_append, h2, Worker.started, serve]
      · rcases List.mem_append.mp hl with hl | hl
        · exact h3 l hl
        · rw [List.mem_singleton.mp hl]; exact hfit
    · refine ⟨done, by simpa [Core.setWorker, hji] using h1, ?_, h3⟩
      simpa [Core.setWorker, hji, runsOf_append, Ne.symm hji] using h2
  · by_cases hji : j = i
    · subst hji; simp [Core.setWorker, Worker.Fits]
    · simpa [Core.setWorker, hji] using hi.fits j

/-- Only tasks are run. -/
theorem Served.runs_of_mem (hi : Served isEndTask s) {k : Nat} (h : (i, .start k) ∈ s.runs) :
    Runs isEndTask s.queue.pushes k := by
  obtain ⟨done, -, hruns, hdone⟩ := hi.log i
  have hfit := hi.fits i
  have hmem : .start k ∈ runsOf s.runs i := List.mem_map.mpr ⟨_, List.mem_filter.mpr ⟨h, by simp⟩, rfl⟩
  rw [hruns] at hmem
  rcases List.mem_append.mp hmem with hm | hm
  · obtain ⟨l, hl, hk⟩ := List.mem_flatMap.mp hm
    obtain rfl : k = l := by simpa [serve] using hk
    exact hdone k hl
  · cases hw : s.worker i with
    | running l =>
      rw [hw] at hm hfit
      obtain rfl : k = l := by simpa [Worker.started] using hm
      exact hfit
    | left why p =>
      rw [hw] at hm hfit
      cases why with
      | escaped l =>
        obtain rfl : k = l := by simpa [Worker.started] using hm
        exact hfit
      | _ => simp [Worker.started] at hm
    | _ => rw [hw] at hm; simp [Worker.started] at hm

/-- What was taken was run, or is held. -/
theorem Served.fate (hi : Served isEndTask s) {k : Nat} (hk : k < s.queue.pops.length) :
    ∃ w, (w, .start k) ∈ s.runs ∨ k ∈ (s.worker w).held := by
  obtain ⟨done, hpops, hruns, -⟩ := hi.log s.queue.pops[k]
  have hmem : k ∈ popsOf s.queue.pops s.queue.pops[k] := mem_popsOf.mpr (List.getElem?_eq_getElem hk)
  rw [hpops] at hmem
  refine ⟨s.queue.pops[k], (List.mem_append.mp hmem).imp_left fun hm => ?_⟩
  have hstart : .start k ∈ runsOf s.runs s.queue.pops[k] := by
    rw [hruns]
    exact List.mem_append_left _ (List.mem_flatMap.mpr ⟨k, hm, by simp [serve]⟩)
  obtain ⟨r, hr, hre⟩ := List.mem_map.mp hstart
  obtain ⟨hr, hw⟩ := List.mem_filter.mp hr
  rw [show r = (s.queue.pops[k], .start k) from Prod.ext (by simpa using hw) hre] at hr
  exact hr

variable [DecidableEq Cl]

theorem Served.step (hi : Served isEndTask s) (h : Step isEndTask s s') : Served isEndTask s' := by
  cases h with
  | create h hc => exact hi.setWorker h rfl rfl trivial
  | construct h hc => exact hi.frame rfl rfl
  | push t hc => exact hi.push _
  | pushEnd hr hlt => exact hi.push _
  | cas hc hr => exact hi.frame rfl rfl
  | requestCancel i hr => exact hi.frame rfl rfl
  | join c hr hs => exact hi.frame rfl rfl
  | wakeState c => exact hi.frame rfl rfl
  | wakeWorker i => exact hi.frame rfl rfl
  | cancelled hw hf => exact hi.setWorker hw rfl rfl trivial
  | take hw => exact hi.setWorker hw rfl rfl trivial
  | block he hw => exact hi.frame rfl rfl
  | pop hw hni hp => exact hi.pop hw hp
  | dropped hw hf => exact hi.setWorker hw rfl rfl trivial
  | ended hw hx he => exact hi.setWorker hw rfl rfl ⟨_, hx, he⟩
  | start hw hx he => exact hi.start hw ⟨_, hx, he⟩
  | stop hw => exact hi.stop hw
  | @escape i k hw =>
    have hfit := hi.fits i
    rw [hw] at hfit
    exact hi.setWorker hw rfl rfl hfit
  | @count i why hw => exact (hi.leave hw _).frame rfl rfl
  | @skip i why c hw hc => exact hi.leave hw _
  | @finish i why c hw hc => exact (hi.leave hw _).frame rfl rfl
  | @terminate i why hw => exact hi.leave hw _

theorem Reachable.served (h : Reachable isEndTask s) : Served isEndTask s := by
  refine h.induct ?_ fun _ _ _ hs hi => hi.step hs
  exact ⟨fun i => ⟨[], rfl, rfl, by simp⟩, fun i => trivial⟩

end Served

/-! ## Graceful shutdown -/

section Graceful

variable {isEndTask : T → Bool} {s : Core n Cl T}

theorem count_runsOf (runs : List (Fin n × Event)) (i : Fin n) (e : Event) :
    (runsOf runs i).count e = runs.count (i, e) := by
  induction runs with
  | nil => rfl
  | cons r runs ih =>
    obtain ⟨j, f⟩ := r
    by_cases h : j = i
    · subst h
      simp only [runsOf, List.filter_cons, beq_self_eq_true, if_true, List.map_cons, List.count_cons] at ih ⊢
      simp [ih]
    · simp only [runsOf, List.filter_cons, List.count_cons] at ih ⊢
      simp [h, ih]

/-- An item that was run by a worker was begun and ended as often as it was taken. -/
theorem count_serve (done : List Nat) (k : Nat) :
    (done.flatMap serve).count (.start k) = done.count k ∧ (done.flatMap serve).count (.stop k) = done.count k := by
  induction done with
  | nil => simp
  | cons l done ih =>
    obtain ⟨h1, h2⟩ := ih
    simp only [List.flatMap_cons, List.count_append, List.count_cons, serve, h1, h2]
    by_cases h : l = k <;> simp [h, Nat.add_comm]

/-- Every worker has left because it took an end item. -/
def AllEnded (s : Core n Cl T) : Prop := ∀ i, ∃ k p, s.worker i = .left (.endTask k) p

/-- What a worker that has left with an end item has taken and run. -/
theorem Served.ended (hi : Served isEndTask s) {i : Fin n} {k : Nat} {p : Leaving}
    (hw : s.worker i = .left (.endTask k) p) :
    ∃ done, popsOf s.queue.pops i = done ++ [k] ∧ runsOf s.runs i = done.flatMap serve ∧
      (∀ l ∈ done, Runs isEndTask s.queue.pushes l) ∧
      ∃ x, s.queue.pushes[k]? = some x ∧ x.isEnd isEndTask = true := by
  obtain ⟨done, h1, h2, h3⟩ := hi.log i
  have hfit := hi.fits i
  rw [hw] at h1 h2 hfit
  exact ⟨done, h1, by simpa [Worker.started] using h2, h3, hfit⟩

/-- **Nothing before the first end item is lost or run twice.** -/
theorem Served.run_once (hi : Served isEndTask s) (hall : AllEnded s) (h0 : 0 < n) {j : Nat}
    (hj : ∀ l ≤ j, ∃ t, s.queue.pushes[l]? = some (.task t) ∧ isEndTask t = false) :
    ∃ w, s.runs.count (w, .start j) = 1 ∧ s.runs.count (w, .stop j) = 1 ∧
      ∀ w' ≠ w, (w', .start j) ∉ s.runs ∧ (w', .stop j) ∉ s.runs := by
  have hnot : ∀ i k p, s.worker i = .left (.endTask k) p → j < k := by
    intro i k p hw
    obtain ⟨-, -, -, -, x, hx, hend⟩ := hi.ended hw
    by_contra hle
    obtain ⟨t, ht, hf⟩ := hj k (by omega)
    rw [ht] at hx
    cases hx
    simp [Item.isEnd, hf] at hend
  -- the first worker has taken an item behind `j`, so `j` was taken
  obtain ⟨k0, p0, hw0⟩ := hall ⟨0, h0⟩
  have hlt : j < s.queue.pops.length := by
    obtain ⟨done, hpops, -⟩ := hi.ended hw0
    have hk : k0 ∈ popsOf s.queue.pops ⟨0, h0⟩ := by rw [hpops]; simp
    have := (List.getElem?_eq_some_iff.mp (mem_popsOf.mp hk)).1
    have := hnot _ k0 p0 hw0
    omega
  have hcount : ∀ i, s.runs.count (i, .start j) = (popsOf s.queue.pops i).count j ∧
      s.runs.count (i, .stop j) = (popsOf s.queue.pops i).count j := by
    intro i
    obtain ⟨k, p, hw⟩ := hall i
    obtain ⟨done, hpops, hruns, -⟩ := hi.ended hw
    have hne : k ≠ j := (hnot i k p hw).ne'
    have h1 : (popsOf s.queue.pops i).count j = done.count j := by simp [hpops, hne]
    rw [h1, ← count_runsOf, ← count_runsOf, hruns]
    exact count_serve done j
  refine ⟨s.queue.pops[j], ?_⟩
  have hmine : (popsOf s.queue.pops s.queue.pops[j]).count j = 1 :=
    List.count_eq_one_of_mem (popsOf_nodup _ _) (mem_popsOf.mpr (List.getElem?_eq_getElem hlt))
  refine ⟨(hcount _).1.trans hmine, (hcount _).2.trans hmine, fun w' hw' => ?_⟩
  have hzero : (popsOf s.queue.pops w').count j = 0 := by
    refine List.count_eq_zero.mpr fun hm => hw' ?_
    have := mem_popsOf.mp hm
    rw [List.getElem?_eq_getElem hlt] at this
    exact (Option.some.inj this).symm
  exact ⟨List.count_eq_zero.mp ((hcount w').1.trans hzero), List.count_eq_zero.mp ((hcount w').2.trans hzero)⟩

/-- **A single worker runs the items in the order of the pushes**, up to the first end item. -/
theorem Served.in_order {s : Core 1 Cl T} (hi : Served isEndTask s) (hall : AllEnded s) :
    ∃ k, (∀ l < k, Runs isEndTask s.queue.pushes l) ∧
      (∃ x, s.queue.pushes[k]? = some x ∧ x.isEnd isEndTask = true) ∧
      s.runs = (List.range k).flatMap fun j => [(0, .start j), (0, .stop j)] := by
  obtain ⟨k, p, hw⟩ := hall 0
  obtain ⟨done, hpops, hruns, hdone, hx⟩ := hi.ended hw
  have hrange : popsOf s.queue.pops 0 = List.range s.queue.pops.length := by
    refine List.filter_eq_self.mpr fun l hl => ?_
    have hlt := List.mem_range.mp hl
    rw [List.getElem?_eq_getElem hlt, Subsingleton.elim s.queue.pops[l] 0]
    simp
  rw [hrange] at hpops
  obtain ⟨m, hm⟩ : ∃ m, s.queue.pops.length = m + 1 :=
    ⟨s.queue.pops.length - 1, by have := congrArg List.length hpops; simp at this; omega⟩
  rw [hm, List.range_succ] at hpops
  obtain ⟨rfl, hk⟩ := List.append_inj' hpops rfl
  obtain rfl : m = k := by simpa using hk
  refine ⟨m, fun l hl => hdone l (List.mem_range.mpr hl), hx, ?_⟩
  have hall0 : s.runs = (runsOf s.runs 0).map fun e => (0, e) := by
    rw [runsOf, List.filter_eq_self.mpr (fun r _ => by simp [Subsingleton.elim r.1 0]), List.map_map]
    exact (List.map_id'' (fun r => by simp [Prod.ext_iff, Subsingleton.elim r.1 0]) _).symm
  rw [hall0, hruns, List.map_flatMap]
  rfl

end Graceful

/-! ## End items -/

section Ends

variable {isEndTask : T → Bool} {s : Core n Cl T}

/-- In its loop, and not holding one of the pool's end items. -/
def Worker.mayTake (pushes : List (Item T)) : Worker → Bool
  | .left _ _ => false
  | .holding k => !(pushes[k]?.any Item.isStop)
  | _ => true

/-- Counting in a list is counting positions. -/
theorem card_positions {α : Type*} (p : α → Bool) (l : List α) :
    ((Finset.range l.length).filter fun k => l[k]?.any p = true).card = l.countP p := by
  induction l using List.reverseRecOn with
  | nil => simp
  | append_singleton l x ih =>
    have hold : (Finset.range l.length).filter (fun k => (l ++ [x])[k]?.any p = true) =
        (Finset.range l.length).filter fun k => l[k]?.any p = true :=
      Finset.filter_congr fun k hk => by rw [List.getElem?_append_left (Finset.mem_range.mp hk)]
    rw [List.length_append, List.length_singleton, Finset.range_add_one, Finset.filter_insert, hold,
      List.countP_append, ← ih]
    by_cases hx : p x = true <;> simp [hx]

/-- **As many end items are left as workers may still take one**, when the pool has pushed all of them. -/
theorem Served.ends_left (hi : Served isEndTask s) (hends : s.endsPushed = n) :
    (Finset.univ.filter fun i => (s.worker i).mayTake s.queue.pushes = true).card ≤
      s.queue.elems.countP Item.isStop := by
  have htaken : (s.queue.pushes.take s.queue.pops.length).countP Item.isStop ≤
      (Finset.univ.filter fun i => ¬ (s.worker i).mayTake s.queue.pushes = true).card := by
    rw [← card_positions]
    -- who took an end item holds it, or has left with it
    refine (Finset.card_le_card (t := (Finset.univ.filter fun i => ¬ (s.worker i).mayTake s.queue.pushes = true).image
      fun i => (s.worker i).held.headD 0) fun k hk => ?_).trans Finset.card_image_le
    obtain ⟨hk, hend⟩ := Finset.mem_filter.mp hk
    have hlt : k < s.queue.pops.length := by
      have := Finset.mem_range.mp hk
      rw [List.length_take] at this
      omega
    rw [List.getElem?_take_of_lt hlt] at hend
    obtain ⟨done, hpops, -, hdone⟩ := hi.log s.queue.pops[k]
    have hmem : k ∈ popsOf s.queue.pops s.queue.pops[k] := mem_popsOf.mpr (List.getElem?_eq_getElem hlt)
    rw [hpops] at hmem
    refine Finset.mem_image.mpr ⟨s.queue.pops[k], ?_⟩
    rcases List.mem_append.mp hmem with hm | hm
    · obtain ⟨t, ht, -⟩ := hdone k hm
      simp [ht, Item.isStop] at hend
    · have hfit := hi.fits s.queue.pops[k]
      cases hw : s.worker s.queue.pops[k] with
      | absent | looping | popping => rw [hw] at hm; simp [Worker.held] at hm
      | holding l =>
        rw [hw] at hm
        obtain rfl : k = l := by simpa [Worker.held] using hm
        simp [hw, Worker.mayTake, hend, Worker.held]
      | running l =>
        rw [hw] at hm hfit
        obtain rfl : k = l := by simpa [Worker.held] using hm
        obtain ⟨t, ht, -⟩ := hfit
        simp [ht, Item.isStop] at hend
      | left why p =>
        rw [hw] at hm
        cases why <;> simp_all [Worker.mayTake, Worker.held]
  have hsplit : (s.queue.pushes.take s.queue.pops.length).countP Item.isStop + s.queue.elems.countP Item.isStop =
      n := by
    rw [s.queue.elems_eq, ← List.countP_append, List.take_append_drop]
    exact hends
  have hcard : (Finset.univ.filter fun i => (s.worker i).mayTake s.queue.pushes = true).card +
      (Finset.univ.filter fun i => ¬ (s.worker i).mayTake s.queue.pushes = true).card = n := by
    rw [Finset.card_filter_add_card_filter_not, Finset.card_univ, Fintype.card_fin]
  omega

end Ends

end Tpool.Core
