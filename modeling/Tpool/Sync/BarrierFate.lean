import Tpool.Sync.CyclicBarrier

/-!
# What Wait returns

- `Told`: what the log says of each `Wait` that returned: of which generation it was, who had completed it by then, and
  how many `Reset`s had returned. The value is computed from the last.
- `own_fate_iff`: all calls of a generation return its fate, exactly if no `Reset` comes between the call that completes
  a generation and the return of another of its calls. `late_reset`: a run in which one comes.
-/

namespace Tpool.CyclicBarrier

open Concurrency Concurrency.Monitor

variable {Tid : Type*} {d d' : CyclicBarrier} {g : ℕ} {e : Generation} {lg before : Log Tid Method Local}

/-! ## The numbers of a barrier whose generations go on -/

section Grows

/-- The generations that are over stay. -/
theorem getElem?_ended (h : d.ended <+: d'.ended) (he : d.ended[g]? = some e) : d'.ended[g]? = some e := by
  obtain ⟨later, hl⟩ := h
  rw [← hl, List.getElem?_append_left (List.getElem?_eq_some_iff.mp he).1, he]

/-- One more generation is over. -/
theorem ended_snoc {last : Generation} (hd : d'.ended = d.ended ++ [last]) (he : d'.ended[g]? = some e) :
    d.ended[g]? = some e ∨ g = d.generation ∧ e = last := by
  rw [hd] at he
  by_cases hlt : g < d.ended.length
  · rw [List.getElem?_append_left hlt] at he
    exact Or.inl he
  · rw [List.getElem?_append_right (Nat.le_of_not_lt hlt)] at he
    obtain ⟨h0, rfl⟩ : g - d.ended.length = 0 ∧ e = last := by
      cases hk : g - d.ended.length with
      | zero => rw [hk] at he; simpa [eq_comm] using he
      | succ k => rw [hk] at he; simp at he
    exact Or.inr ⟨by simp only [generation]; omega, rfl⟩

theorem resetsUntil_eq (h : d.ended <+: d'.ended) (hg : g ≤ d.generation) : d'.resetsUntil g = d.resetsUntil g := by
  obtain ⟨later, hl⟩ := h
  unfold resetsUntil
  rw [← hl, List.take_append_of_le_length hg]

theorem InRange.of_prefix (h : d.ended <+: d'.ended) (hr : d'.InRange) : d.InRange :=
  ⟨h.sublist.countP_le.trans_lt hr.1, h.sublist.countP_le.trans_lt hr.2⟩

/-- The generation `g` counts for the `Reset`s when one ended it. -/
theorem resetsUntil_succ (he : d.ended[g]? = some e) : d.resetsUntil (g + 1) = d.resetsUntil g + e.byReset.toNat := by
  simp only [resetsUntil, List.take_add_one, he, Option.toList_some, List.countP_append, List.countP_singleton]
  cases e.byReset <;> rfl

theorem resetsUntil_generation (d : CyclicBarrier) : d.resetsUntil d.generation = d.resets := by
  simp [resetsUntil, resets, generation]

end Grows

/-! ## What the log says -/

/-- The `Reset`s that have returned. -/
def resetsIn (lg : Log Tid Method Local) : ℕ := lg.countP fun c => c.2.1 == .reset

/-- A `Wait` that completed the generation `g`: it saved no indices. -/
def Completes (g : ℕ) (c : Tid × Method × Option Local) : Prop :=
  ∃ x, c.2 = (.wait, some x) ∧ x.generation = g ∧ x.saved = none

/-- What is true of a `Wait` of the generation `e` that returned after the calls of `before`. -/
structure FateOf (d : CyclicBarrier) (before : Log Tid Method Local) (x : Local) (e : Generation) : Prop where
  ended : d.ended[x.generation]? = some e
  completes : x.saved = none → e.byReset = false ∧ resetsIn before = d.resetsUntil x.generation ∧ x.ret = 0
  completed : x.saved ≠ none → e.byReset = false → ∃ c ∈ before, Completes x.generation c
  reset : x.saved ≠ none → d.resetsUntil x.generation + e.byReset.toNat ≤ resetsIn before
  ret : x.saved ≠ none → x.ret = if d.resetsUntil x.generation = resetsIn before then 0 else 1

def Fate (d : CyclicBarrier) (before : Log Tid Method Local) (c : Tid × Method × Option Local) : Prop :=
  ∀ x, c.2 = (.wait, some x) → ∃ e, FateOf d before x e

/-- What the log says while the lock is free. -/
structure Told (d : CyclicBarrier) (lg : Log Tid Method Local) : Prop where
  resets : resetsIn lg = d.resets
  completed : ∀ g e, d.ended[g]? = some e → e.byReset = false → ∃ c ∈ lg, Completes g c
  fates : d.InRange → lg.Each (Fate d)

section Told

variable {t : Tid} {x y : Local}

theorem FateOf.grow (h : FateOf d before x e) (hd : d.ended <+: d'.ended) : FateOf d' before x e := by
  have hle : x.generation ≤ d.generation := (List.getElem?_eq_some_iff.mp h.ended).1.le
  have hsame := resetsUntil_eq hd hle
  refine ⟨getElem?_ended hd h.ended, ?_, h.completed, ?_, ?_⟩
  · rw [hsame]
    exact h.completes
  · rw [hsame]
    exact h.reset
  · rw [hsame]
    exact h.ret

theorem Fate.grow {c : Tid × Method × Option Local} (h : Fate d before c) (hd : d.ended <+: d'.ended) :
    Fate d' before c := by
  intro x hx
  obtain ⟨e, he⟩ := h x hx
  exact ⟨e, he.grow hd⟩

theorem resetsIn_wait (lg : Log Tid Method Local) (t : Tid) (r : Option Local) :
    resetsIn (lg ++ [(t, .wait, r)]) = resetsIn lg := by simp [resetsIn]

theorem resetsIn_reset (lg : Log Tid Method Local) (t : Tid) (r : Option Local) :
    resetsIn (lg ++ [(t, .reset, r)]) = resetsIn lg + 1 := by simp [resetsIn]

/-- Only the generations that are over matter. -/
theorem Told.of_ended (h : Told d lg) (he : d'.ended = d.ended) : Told d' lg := by
  have hgrow : d.ended <+: d'.ended := by rw [he]
  refine ⟨?_, ?_, fun hr => ?_⟩
  · rw [h.resets, CyclicBarrier.resets, CyclicBarrier.resets, he]
  · rw [he]
    exact h.completed
  · exact (h.fates (hr.of_prefix hgrow)).mono fun _ _ hf => hf.grow hgrow

/-- A call of a generation that is over compares the indices and returns. -/
theorem Told.wait (h : Told d lg) (hs : Saved d x) (hlt : x.generation < d.generation)
    (hreset : d.resetIndex = Int32.ofNat d.resets) :
    Told d (lg ++ [(t, .wait, some { x with ret := if x.saved.any (·.2 != d.resetIndex) then 1 else 0 })]) := by
  refine ⟨(resetsIn_wait ..).trans h.resets, fun g e he hc => ?_, fun hr => (h.fates hr).append fun y hy => ?_⟩
  · obtain ⟨c, hmem, hcomp⟩ := h.completed g e he hc
    exact ⟨c, List.mem_append_left _ hmem, hcomp⟩
  · have hended : d.ended[x.generation]? = some d.ended[x.generation] := List.getElem?_eq_getElem hlt
    obtain rfl := Option.some.inj (congrArg Prod.snd hy).symm
    refine ⟨d.ended[x.generation], hended, ?_, fun _ hc => h.completed _ _ hended hc, fun _ => ?_, fun _ => ?_⟩
    · intro hnone
      rw [hs.saved] at hnone
      cases hnone
    · show d.resetsUntil x.generation + _ ≤ _
      rw [← resetsUntil_succ hended, h.resets]
      exact d.resetsUntil_le _
    · show (if _ then _ else _) = if d.resetsUntil x.generation = _ then _ else _
      rw [h.resets, hs.saved, hreset]
      by_cases heq : d.resetsUntil x.generation = d.resets
      · simp [heq]
      · have hne : Int32.ofNat (d.resetsUntil x.generation) ≠ Int32.ofNat d.resets := fun he =>
          heq (ofNat_inj ((d.resetsUntil_le _).trans_lt hr.2) hr.2 he)
        simp [heq, hne]

/-- The call that completes the generation returns. -/
theorem Told.trip (h : Told d lg) (hg : y.generation = d.generation) (hs : y.saved = none) (hret : y.ret = 0) :
    Told d.arrive.trip (lg ++ [(t, .wait, some y)]) := by
  have hgrow : d.ended <+: d.arrive.trip.ended := List.prefix_append _ _
  have hcount : d.arrive.trip.resets = d.resets := by simp [CyclicBarrier.trip, arrive, CyclicBarrier.resets]
  have hlast : d.arrive.trip.ended[d.generation]? = some ⟨d.arrivals + 1, false⟩ := by
    simp [CyclicBarrier.trip, arrive, generation]
  refine ⟨?_, fun g e he hc => ?_, fun hr => ?_⟩
  · rw [resetsIn_wait, hcount, h.resets]
  · rcases ended_snoc rfl he with he | ⟨rfl, -⟩
    · obtain ⟨c, hmem, hcomp⟩ := h.completed g e he hc
      exact ⟨c, List.mem_append_left _ hmem, hcomp⟩
    · exact ⟨(t, .wait, some y), by simp, y, rfl, hg, hs⟩
  · refine ((h.fates (hr.of_prefix hgrow)).mono fun _ _ hf => hf.grow hgrow).append fun y' hy => ?_
    obtain rfl := Option.some.inj (congrArg Prod.snd hy).symm
    refine ⟨⟨d.arrivals + 1, false⟩, by rw [hg, hlast], fun _ => ⟨rfl, ?_, hret⟩, ?_, ?_, ?_⟩
    · rw [hg, resetsUntil_eq hgrow le_rfl, resetsUntil_generation, h.resets]
    all_goals exact fun hn => absurd hs hn

/-- A `Reset` returns. -/
theorem Told.reset (h : Told d lg) : Told d.resetAll (lg ++ [(t, .reset, some y)]) := by
  have hgrow : d.ended <+: d.resetAll.ended := List.prefix_append _ _
  refine ⟨?_, fun g e he hc => ?_, fun hr => ?_⟩
  · rw [resetsIn_reset, h.resets]
    simp [resetAll, CyclicBarrier.resets]
  · rcases ended_snoc rfl he with he | ⟨-, rfl⟩
    · obtain ⟨c, hmem, hcomp⟩ := h.completed g e he hc
      exact ⟨c, List.mem_append_left _ hmem, hcomp⟩
    · cases hc
  · refine ((h.fates (hr.of_prefix hgrow)).mono fun _ _ hf => hf.grow hgrow).append fun y' hy => ?_
    cases hy

end Told

/-! ## The methods keep what the log says -/

section Kept

variable [DecidableEq Tid] {max : Int32} {w w' : Waiting Tid Unit} {b : Blocked Tid Method Local} {t : Tid} {x : Local}

/-- The invariant of the barrier, and what the log says. -/
def InvTold (max : Int32) (d : CyclicBarrier) (w : Waiting Tid Unit) (lg : Log Tid Method Local)
    (b : Blocked Tid Method Local) : Prop := Inv max d w lg b ∧ Told d lg

/-- The value that a `Wait` returns. -/
def result (d : CyclicBarrier) (x : Local) : Local :=
  { x with ret := if x.saved.any (·.2 != d.resetIndex) then 1 else 0 }

theorem wpb_result (hA : Current d w b) (h : InvTold max d w (lg ++ [(t, .wait, some (result d x))]) b) :
    wpb Current (InvTold max) t .wait (wait.drop 4) x d w lg b := by
  refine ⟨hA, by simp, fun d' x' he => ?_⟩
  cases he
  exact h

theorem resumes_told : Resumes Current (InvTold max) t .wait ()
    (fun d x => x.saved == some (d.barrierIndex, d.resetIndex)) (wait.drop 4) x := by
  intro d w lg b ⟨h, ht⟩ hb hw
  have hA : Current d w (Function.update b t none) :=
    fun hr u hu => Arrived.update_none.mpr ⟨by rintro rfl; exact hw hu, h.waiting hr u hu⟩
  refine ⟨hA, ?_⟩
  split
  · rename_i hs
    exact ⟨h.again hb (by simpa using hs), ht⟩
  · rename_i hs
    obtain ⟨-, hsaved⟩ := h.blocked t _ x hb
    have hne : x.generation ≠ d.generation := fun hg => hs (by simpa using (h.current_iff hsaved).1 hg)
    have hlt : x.generation < d.generation := lt_of_le_of_ne hsaved.le hne
    refine wpb_result hA ⟨(h.resume hb hw hne).log (Function.update_self ..) hlt ?_, ht.wait hsaved hlt h.resetIndex⟩
    exact h.later t _ ((Arrived.unique hb).mpr rfl)

theorem kept_told : Kept Current (@InvTold Tid _ max) code where
  always h := h.1.waiting
  always_wake hw h := fun hr t ht => h hr t (hw () ht)
  free_wake hw h := ⟨{ h.1 with waiting := fun hr t ht => h.1.waiting hr t (hw () ht) }, h.2⟩
  body t m d w lg b hb h := by
    obtain ⟨h, ht⟩ := h
    cases m with
    | reset =>
      refine ⟨h.waiting, fun hr u hu => by simp at hu, by simp, fun d' x' he => ?_⟩
      cases he
      exact ⟨h.reset (by simp), ht.reset⟩
    | wait =>
      have hroom := h.room
      have hzero := h.last_iff
      refine ⟨h.waiting, by simp, fun d1 x1 he => ?_⟩
      cases he
      refine ⟨h.waiting, ?_⟩
      by_cases h0 : d.count - 1 = 0
      · -- the last one to arrive
        have hw : (if (d.arrive.count == 0) = true then w.clear () else w) = w.clear () :=
          if_pos (by simpa [arrive] using h0)
        rw [hw]
        refine ⟨fun hr u hu => by simp at hu, by simp, fun d2 x2 he => ?_⟩
        beta_reduce at he
        rw [if_pos (show d.arrive.count = 0 from h0)] at he
        cases he
        refine ⟨fun hr u hu => by simp at hu, ?_, ?_⟩
        · refine wpb_result (fun hr u hu => by simp at hu) ⟨?_, ?_⟩
          · exact h.trip (by simp) (hzero.mp h0) hb rfl
          · exact ht.trip rfl rfl rfl
        · -- it does not block
          intro d w lg b h hb
          have := (h.1.blocked t _ _ hb).2.saved
          cases this
      · have hw : (if (d.arrive.count == 0) = true then w.clear () else w) = w := if_neg (by simpa [arrive] using h0)
        rw [hw]
        refine ⟨h.waiting, by simp, fun d2 x2 he => ?_⟩
        beta_reduce at he
        rw [if_neg (show ¬ d.arrive.count = 0 from h0)] at he
        cases he
        refine ⟨h.waiting, ?_, resumes_told⟩
        rw [if_pos (by simp)]
        exact ⟨h.block hb (by have := hzero.not.mp h0; omega) h.count_pred rfl rfl, ht.of_ended rfl⟩

end Kept

/-! ## Runs -/

section Runs

variable [DecidableEq Tid] {count : Int32} {s : State Tid Method Unit CyclicBarrier Local}

/-- Every `Wait` that returned has returned what became of its generation: 0 when all had arrived, 1 when it was
reset. -/
def OwnFate (count : Int32) (d : CyclicBarrier) (lg : Log Tid Method Local) : Prop :=
  ∀ t r, (t, .wait, r) ∈ lg → ∃ x e, r = some x ∧ d.ended[x.generation]? = some e ∧
    (e.byReset = false ∧ e.arrivals = count.toInt ∧ x.ret = 0 ∨ e.byReset = true ∧ x.ret = 1)

/-- No `Reset` comes between the `Wait` that completes a generation and another `Wait` of it. -/
def NotLate (lg : Log Tid Method Local) : Prop :=
  ∀ first c between t x later, lg = first ++ c :: (between ++ (t, .wait, some x) :: later) →
    Completes x.generation c → ∀ r ∈ between, r.2.1 ≠ .reset

theorem Reachable.fates (hcount : 0 < count) (h : (barrier Tid count).Reachable Anything s) (hr : s.data.InRange) :
    s.log.Each (Fate s.data) := by
  refine kept_told.logged (P := fun d lg => d.InRange → lg.Each (Fate d)) total (fun _ => List.prefix_rfl) ended_prefix
    (fun hi => hi.2.fates) ?_ trivial ⟨inv_new hcount, ⟨rfl, by simp, fun _ => .nil⟩⟩ h hr
  exact fun hd hf hr => (hf (hr.of_prefix hd)).mono fun _ _ hx => hx.grow hd

omit [DecidableEq Tid] in
theorem resetsIn_append (lg lg' : Log Tid Method Local) : resetsIn (lg ++ lg') = resetsIn lg + resetsIn lg' :=
  List.countP_append

omit [DecidableEq Tid] in
theorem resetsIn_eq_zero : resetsIn lg = 0 ↔ ∀ r ∈ lg, r.2.1 ≠ .reset := by
  simp [resetsIn, List.countP_eq_zero]

omit [DecidableEq Tid] in
/-- The entry that completes a generation has seen the `Reset`s before the generation. -/
theorem Fate.completes {c : Tid × Method × Option Local} (h : Fate d before c) (hc : Completes g c) :
    resetsIn before = d.resetsUntil g ∧ ∃ e, d.ended[g]? = some e ∧ e.byReset = false := by
  obtain ⟨x, hx, rfl, hs⟩ := hc
  obtain ⟨e, he⟩ := h x hx
  obtain ⟨hcomplete, hresets, -⟩ := he.completes hs
  exact ⟨hresets, e, he.ended, hcomplete⟩

/-- **Wait returns the fate of its own generation** exactly if no `Reset` comes between the call that completes a
generation and the return of another one of its calls. -/
theorem own_fate_iff (hcount : 0 < count) (h : (barrier Tid count).Reachable Anything s) (hr : s.data.InRange) :
    OwnFate count s.data s.log ↔ NotLate s.log := by
  have hfates := Reachable.fates hcount h hr
  constructor
  · intro hown first c between t x later hlog hc r hmem hreset
    obtain ⟨hfirst, e, hended, hcomplete⟩ := (hfates first c _ hlog).completes hc
    have hsplit : s.log = (first ++ c :: between) ++ (t, .wait, some x) :: later := by rw [hlog]; simp
    obtain ⟨e', hx⟩ := hfates _ _ _ hsplit x rfl
    obtain rfl : e = e' := Option.some.inj (hended.symm.trans hx.ended)
    -- the `Reset` was counted since
    have hmore : s.data.resetsUntil x.generation < resetsIn (first ++ c :: between) := by
      have hpos : 0 < resetsIn between := by
        refine Nat.pos_of_ne_zero fun h0 => resetsIn_eq_zero.mp h0 r hmem hreset
      rw [show first ++ c :: between = first ++ ([c] ++ between) from rfl, resetsIn_append, resetsIn_append, hfirst]
      omega
    by_cases hs : x.saved = none
    · have := (hx.completes hs).2.1
      omega
    · obtain ⟨x', e', hx', he', hfate⟩ := hown t (some x) (by rw [hsplit]; simp)
      cases hx'
      obtain rfl : e = e' := Option.some.inj (hended.symm.trans he')
      have hret := hx.ret hs
      rw [if_neg (by omega)] at hret
      rcases hfate with ⟨-, -, h0⟩ | ⟨h1, -⟩
      · rw [h0] at hret
        cases hret
      · rw [hcomplete] at h1
        cases h1
  · intro hlate t r hmem
    obtain ⟨x, e, rfl, hended, hend⟩ := (Reachable.returned hcount h).1 t r hmem
    refine ⟨x, e, rfl, hended, ?_⟩
    obtain ⟨before, later, hsplit⟩ := List.append_of_mem hmem
    obtain ⟨e', hx⟩ := hfates before _ later hsplit x rfl
    obtain rfl : e = e' := Option.some.inj (hended.symm.trans hx.ended)
    by_cases hs : x.saved = none
    · obtain ⟨hcomplete, -, hret⟩ := hx.completes hs
      exact Or.inl ⟨hcomplete, hend.resolve_left (by simp [hcomplete]), hret⟩
    · have hret := hx.ret hs
      have hle := hx.reset hs
      cases hreset : e.byReset with
      | true =>
        rw [hreset] at hle
        rw [if_neg (by simp at hle; omega)] at hret
        exact Or.inr ⟨rfl, hret⟩
      | false =>
        obtain ⟨c, hc, hcomp⟩ := hx.completed hs hreset
        obtain ⟨first, between, rfl⟩ := List.append_of_mem hc
        have hsplit' : s.log = first ++ c :: (between ++ (t, .wait, some x) :: later) := by rw [hsplit]; simp
        have hnone := resetsIn_eq_zero.mpr (hlate first c between t x later hsplit' hcomp)
        have hfirst := ((hfates first c _ hsplit').completes hcomp).1
        have hwait : resetsIn [c] = 0 := by
          obtain ⟨y, hy, -⟩ := hcomp
          simp [resetsIn, hy]
        have hsame : s.data.resetsUntil x.generation = resetsIn (first ++ c :: between) := by
          rw [show first ++ c :: between = first ++ ([c] ++ between) from rfl, resetsIn_append, resetsIn_append, hfirst]
          omega
        rw [if_pos hsame] at hret
        exact Or.inl ⟨rfl, hend.resolve_left (by simp [hreset]), hret⟩

/-- Two threads trip the barrier, and nobody resets it. -/
theorem own_fate_run : ∃ s : State (Fin 2) Method Unit CyclicBarrier Local, s.log.length = 2 ∧
    OwnFate 2 s.data s.log := by
  obtain ⟨s, hs, hp⟩ := System.reachable_of_exec (barrier (Fin 2) 2) Anything
    ((.call 0 .wait :: List.replicate 5 (.step 0 false)) ++ (.call 1 .wait :: List.replicate 8 (.step 1 false)) ++
      List.replicate 5 (.step 0 false))
    (fun s => s.log.length == 2 && (s.log.all (·.2.1 == .wait) && s.data.ended == [⟨2, false⟩])) (by decide +kernel)
  simp only [Bool.and_eq_true, beq_iff_eq, List.all_eq_true] at hp
  obtain ⟨hlength, hwait, hended⟩ := hp
  refine ⟨s, hlength, (own_fate_iff (by decide) hs (by simp [InRange, trips, resets, hended])).mpr ?_⟩
  intro first c between t x later hlog _ r hr
  rw [hwait r (by rw [hlog]; simp [hr])]
  simp

/-- **A Wait whose generation was complete returns 1.** A thread waits, another one completes the generation and returns
0, a third one resets the barrier, and only then is the first one back. -/
theorem late_reset : ∃ s, (barrier (Fin 3) 2).Reachable Anything s ∧ s.data.InRange ∧ ¬ OwnFate 2 s.data s.log := by
  obtain ⟨s, hs, hp⟩ := System.reachable_of_exec (barrier (Fin 3) 2) Anything
    ((.call 0 .wait :: List.replicate 5 (.step 0 false)) ++ (.call 1 .wait :: List.replicate 8 (.step 1 false)) ++
      (.call 2 .reset :: List.replicate 5 (.step 2 false)) ++ List.replicate 5 (.step 0 false))
    (fun s => s.data.ended == [⟨2, false⟩, ⟨0, true⟩] &&
      s.log.any fun c => c.2.1 == .wait && c.2.2.any fun x => x.generation == 0 && x.ret == 1) (by decide +kernel)
  simp only [Bool.and_eq_true, beq_iff_eq, List.any_eq_true, Option.any_eq_true] at hp
  obtain ⟨hended, ⟨t, m, r⟩, hmem, rfl, x, rfl, hg, hret⟩ := hp
  refine ⟨s, hs, by simp [InRange, trips, resets, hended], fun hown => ?_⟩
  obtain ⟨x', e, hx, he, hfate⟩ := hown t (some x) hmem
  cases hx
  rw [hg, hended] at he
  cases he
  rcases hfate with ⟨-, -, h0⟩ | ⟨h1, -⟩
  · rw [hret] at h0
    cases h0
  · cases h1

end Runs

end Tpool.CyclicBarrier
