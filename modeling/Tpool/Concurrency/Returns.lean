import Tpool.Concurrency.Fair
import Tpool.Concurrency.Monitor

/-!
# Calls of a monitor that return

In a fair run every thread that can make a step again and again makes one again and again. Nobody has to call, and
nobody wakes by itself.

- `often_free`: the lock of a verified monitor is free again and again.
- `Passes`: the thread finds no condition of a wait to hold, and was notified, if it is blocked.
- `returns`: a call that passes its waits from some point on, as long as it is not over, returns.
- `exists_run_idle`: a finite run after which no call is in progress is a fair infinite one.
-/

namespace Concurrency.Monitor

variable {Tid μ ι σ l : Type*}

/-- Who makes the move. -/
def Action.party : Action Tid μ ι → Option Tid
  | .step t _ => some t
  | .call _ _ | .wake _ _ => none

/-- How many steps a call has left, when it does not wait again. -/
def PC.rank (code : Code μ ι σ l) : PC μ ι σ l → ℕ
  | .idle => 0
  | .leave _ _ => 1
  | .body _ rest _ => rest.length + 2
  | .blocked _ _ _ rest _ => rest.length + 4
  | .enter m => (code.body m).length + 3

/-- The thread is at no wait whose condition holds, and while the lock is free, it is not blocked without having been
notified. -/
structure Passes (s : State Tid μ ι σ l) (t : Tid) : Prop where
  body : ∀ m c f rest x, s.pc t = .body m (.waitWhile c f :: rest) x → f s.data x = false
  blocked : s.owner = none → ∀ m c f rest x, s.pc t = .blocked m c f rest x → t ∉ s.waiting c

variable [DecidableEq Tid] [DecidableEq ι] {code : Code μ ι σ l} {s s' : State Tid μ ι σ l} {a : Action Tid μ ι}
  {t : Tid}

/-- Only a thread moves itself, or begins a call. -/
theorem next_pc (h : next code s a = some s') (t : Tid) :
    s'.pc t = s.pc t ∨ s.pc t = .idle ∨ a.party = some t := by
  -- a move of the thread `u`
  have key : ∀ {u p}, s'.pc = Function.update s.pc u p → (u = t → s.pc t = .idle ∨ a.party = some t) →
      s'.pc t = s.pc t ∨ s.pc t = .idle ∨ a.party = some t := by
    intro u p hpc hu
    by_cases hut : u = t
    · exact Or.inr (hu hut)
    · exact Or.inl (by rw [hpc, Function.update_of_ne (Ne.symm hut)])
  cases next_cases h with
  | call ht => exact key rfl fun hut => Or.inl (hut ▸ ht)
  | wake => exact Or.inl rfl
  | enter | finish | wait | pass | ret | skip | notify | throw | act | resume | leave =>
    exact key rfl fun hut => Or.inr (by rw [hut]; rfl)

/-- A step lowers the rank, unless it gives the lock away to wait. -/
theorem next_lowers {throws : Bool} (h : next code s (.step t throws) = some s') :
    (s'.pc t).rank code < (s.pc t).rank code ∨ s'.owner = none ∧ ¬ Passes s t := by
  have move : ∀ {p p'}, s.pc t = p → s'.pc t = p' → p'.rank code < p.rank code →
      (s'.pc t).rank code < (s.pc t).rank code ∨ s'.owner = none ∧ ¬ Passes s t := by
    rintro p p' rfl rfl hlt
    exact Or.inl hlt
  cases next_cases h with
  | wait ht hf =>
    refine Or.inr ⟨rfl, fun hp => ?_⟩
    rw [hp.body _ _ _ _ _ ht] at hf
    cases hf
  | enter ht | finish ht | pass ht | ret ht | skip ht | notify ht | throw ht | act ht | resume ht | leave ht =>
    exact move ht (Function.update_self ..) (by simp [PC.rank])

/-- The lock is given back before another takes it. -/
theorem next_owner (h : next code s a = some s') (ho : s.owner = some t) : s'.owner = some t ∨ s'.owner = none := by
  cases next_cases h with
  | enter _ hfree | resume _ _ hfree => rw [hfree] at ho; cases ho
  | wait | leave => exact Or.inr rfl
  | call | wake | finish | pass | ret | skip | notify | throw | act => exact Or.inl ho

/-- The last step of a call, which logs it. -/
theorem next_leaves (h : next code s a = some s') (ht : s.pc t ≠ .idle) (hidle : s'.pc t = .idle) :
    ∃ m x, s.pc t = .leave m x ∧ s'.log = s.log ++ [(t, m, x)] := by
  rcases next_pc h t with heq | hpc | hparty
  · exact absurd (heq.symm.trans hidle) ht
  · exact absurd hpc ht
  · have gone : ∀ {p}, s'.pc = Function.update s.pc t p → p = .idle := by
      intro p hpc
      rw [← hidle, hpc, Function.update_self]
    cases next_cases h with
    | call | wake => cases hparty
    | leave hleave =>
      cases hparty
      exact ⟨_, _, hleave, rfl⟩
    | enter | finish | wait | pass | ret | skip | notify | throw | act | resume =>
      cases hparty
      cases gone rfl

/-- A call goes on until it returns, which is logged. -/
theorem next_returns (h : next code s a = some s') {m : μ} (hm : (s.pc t).method = some m) :
    (s'.pc t).method = some m ∨ s'.pc t = .idle ∧ ∃ x, s'.log = s.log ++ [(t, m, x)] := by
  by_cases hidle : s'.pc t = .idle
  · obtain ⟨m', x, hleave, hlog⟩ := next_leaves h (fun hi => by rw [hi] at hm; cases hm) hidle
    rw [hleave] at hm
    cases hm
    exact Or.inr ⟨hidle, x, hlog⟩
  · left
    obtain ⟨m', hm'⟩ : ∃ m', (s'.pc t).method = some m' := by
      cases hpc : s'.pc t with
      | idle => exact absurd hpc hidle
      | enter m' | body m' | blocked m' | leave m' => exact ⟨m', rfl⟩
    rcases next_method h hm' with hsame | rfl
    · exact hm'.trans (hsame.symm.trans hm)
    · cases next_cases h with
      | call ht => rw [ht] at hm; cases hm

theorem next_prefix (h : next code s a = some s') : s.log <+: s'.log := by
  rcases next_log h with hl | ⟨t, m, x, -, hl⟩
  · rw [hl]
  · rw [hl]
    exact List.prefix_append _ _

/-- What was logged since the log was `lg`. -/
def LoggedSince (lg : Log Tid μ l) (P : Log Tid μ l → Prop) (s : State Tid μ ι σ l) : Prop :=
  ∃ new, s.log = lg ++ new ∧ P new

theorem LoggedSince.next {lg : Log Tid μ l} {P : Log Tid μ l → Prop} (hI : LoggedSince lg P s)
    (hP : ∀ new more, P new → P (new ++ more)) (h : next code s a = some s') : LoggedSince lg P s' := by
  obtain ⟨new, hnew, hp⟩ := hI
  obtain ⟨more, hmore⟩ := next_prefix h
  exact ⟨new ++ more, by rw [← hmore, hnew, List.append_assoc], hP new more hp⟩

section Runs

variable {A : σ → Waiting Tid ι → Prop} {F : σ → Waiting Tid ι → Log Tid μ l → Prop} {d : σ}
  {ok : State Tid μ ι σ l → Action Tid μ ι → Prop} {r : (system code d).Run ok}

/-- **The lock is free again and again.** -/
theorem often_free (hv : Verified A F code) (h0 : F d (fun _ => ∅) []) (hok : ∀ s t, ok s (.step t false))
    (hf : r.Fair Action.party) : r.Often fun s => s.owner = none := by
  have howned : ¬ r.Finally fun s => ∃ u, s.owner = some u := fun howned => by
    obtain ⟨t, ht⟩ := howned.choose fun t s a s' _ _ hs h hsome => by
      obtain ⟨u, hu⟩ := hsome
      exact (next_owner hs h).resolve_right fun hfree => by rw [hu] at hfree; cases hfree
    have hdone := hf.settles t (fun s => (s.pc t).rank code) ht fun s a s' hr _ hs h h' => by
      by_cases hp : a.party = some t
      · cases a with
        | step u throws =>
          cases hp
          have hlt := (next_lowers hs).resolve_right fun hwait => by rw [h'] at hwait; cases hwait.1
          exact ⟨hlt.le, fun _ => hlt⟩
        | _ => cases hp
      · have hin := ((hv.sound h0 hr.any).owner_iff t).mp h
        rcases next_pc hs t with heq | hidle | hparty
        · exact ⟨by rw [heq], fun h => absurd h hp⟩
        · rw [hidle] at hin
          cases hin
        · exact absurd hparty hp
    obtain ⟨k, -, ho, hstuck⟩ := (ht.and hdone).exists 0
    have hproved := hv.sound h0 (r.reachable k).any
    obtain ⟨s', hs⟩ : ∃ s', next code (r.state k) (.step t false) = some s' :=
      hproved.holder_moves ((hproved.owner_iff t).mp ho)
    exact hstuck ⟨.step t false, s', rfl, hok _ t, hs⟩
  exact Filter.Frequently.mono (System.Run.often_not howned) fun k hk => by
    by_contra hne
    exact hk (Option.ne_none_iff_exists'.mp hne)

/-- **A call that passes its waits returns.** -/
theorem returns (hv : Verified A F code) (h0 : F d (fun _ => ∅) []) (hok : ∀ s t, ok s (.step t false))
    (hf : r.Fair Action.party) {m : μ} {k : ℕ} (hm : ((r.state k).pc t).method = some m)
    (hpass : r.Finally fun s => (s.pc t).method = some m → Passes s t) : ∃ j ≥ k, (r.state j).pc t = .idle := by
  by_contra hno
  have hin : r.Finally fun s => (s.pc t).method = some m := Filter.eventually_atTop.mpr ⟨k, fun j hj =>
    System.Run.stays (J := fun s : State Tid μ ι σ l => (s.pc t).method = some m)
      (I := fun s : State Tid μ ι σ l => s.pc t ≠ .idle) hm (fun i hi h => hno ⟨i, hi, h⟩)
      (fun _ _ _ _ _ hs h hidle => (next_returns hs h).resolve_right fun hback => hidle hback.1) hj⟩
  have hcall : r.Finally fun s => (s.pc t).method = some m ∧ Passes s t :=
    (hin.and hpass).mono fun s _ h => ⟨h.1, h.2 h.1⟩
  have hdone := hf.settles t (fun s => (s.pc t).rank code) hcall fun s a s' hr _ hs h h' => by
    by_cases hp : a.party = some t
    · cases a with
      | step u throws =>
        cases hp
        have hlt := (next_lowers hs).resolve_right fun hwait => hwait.2 h.2
        exact ⟨hlt.le, fun _ => hlt⟩
      | _ => cases hp
    · rcases next_pc hs t with heq | hidle | hparty
      · exact ⟨by rw [heq], fun h => absurd h hp⟩
      · rw [hidle] at h
        cases h.1
      · exact absurd hparty hp
  obtain ⟨j, hfree, ⟨hmethod, hpasses⟩, hstuck⟩ := (often_free hv h0 hok hf).with (hcall.and hdone)
  have hproved := hv.sound h0 (r.reachable j).any
  have hout := hproved.not_inside hfree t
  have moves : ∀ s', next code (r.state j) (.step t false) ≠ some s' := fun s' hs =>
    hstuck ⟨.step t false, s', rfl, hok _ t, hs⟩
  cases hpc : (r.state j).pc t with
  | idle => rw [hpc] at hmethod; cases hmethod
  | enter m' => exact moves _ (by simp only [next, hpc, hfree, if_true]; rfl)
  | blocked m' c f rest x =>
    have hout := hpasses.blocked hfree m' c f rest x hpc
    exact moves _ (by simp only [next, hpc, hfree, hout, not_false_eq_true, and_self, if_true]; rfl)
  | body | leave => rw [hpc] at hout; cases hout

/-- A call in progress is still in progress, or it was logged since. -/
theorem call_or_logged {m : μ} {k j : ℕ} (hm : ((r.state k).pc t).method = some m) (hj : k ≤ j) :
    LoggedSince (r.state k).log (fun new => ((r.state j).pc t).method = some m ∨ ∃ x, (t, m, x) ∈ new) (r.state j) := by
  refine System.Run.stays (J := fun s : State Tid μ ι σ l =>
    LoggedSince (r.state k).log (fun new => (s.pc t).method = some m ∨ ∃ x, (t, m, x) ∈ new) s) (I := fun _ => True)
    ⟨[], by simp, Or.inl hm⟩ (fun _ _ => trivial) ?_ hj
  rintro s a s' - - hs ⟨new, hnew, hcall⟩ -
  obtain ⟨more, hlog⟩ := next_prefix hs
  refine ⟨new ++ more, by rw [← hlog, hnew, List.append_assoc], ?_⟩
  rcases hcall with hcall | ⟨x, hx⟩
  · rcases next_returns hs hcall with hsame | ⟨-, x, hx⟩
    · exact Or.inl hsame
    · obtain rfl : more = [(t, m, x)] := List.append_cancel_left (hlog.trans hx)
      exact Or.inr ⟨x, by simp⟩
  · exact Or.inr ⟨x, List.mem_append_left _ hx⟩

/-- Calls of different threads that are in progress at a point and return later are logged meanwhile. -/
theorem finally_logged {m : μ} {k : ℕ} {a : Finset Tid} (hm : ∀ t ∈ a, ((r.state k).pc t).method = some m)
    (hidle : ∀ t ∈ a, ∃ j ≥ k, (r.state j).pc t = .idle) :
    r.Finally fun s => LoggedSince (r.state k).log (fun new => ∀ t ∈ a, ∃ x, (t, m, x) ∈ new) s := by
  have hone : ∀ t : a, r.Finally fun s => LoggedSince (r.state k).log (fun new => ∃ x, (t.1, m, x) ∈ new) s := by
    rintro ⟨t, ht⟩
    obtain ⟨j, hj, hback⟩ := hidle t ht
    obtain ⟨new, hnew, hcall⟩ := call_or_logged (hm t ht) hj
    refine System.Run.finally_of (k := j) (fun s a s' _ _ hs hI => hI.next (fun _ _ ⟨x, hx⟩ => ?_) hs) ⟨new, hnew, ?_⟩
    · exact ⟨x, List.mem_append_left _ hx⟩
    · rw [hback] at hcall
      exact hcall.resolve_left nofun
  have hprefix : r.Finally fun s => LoggedSince (r.state k).log (fun _ => True) s :=
    System.Run.finally_of (k := k) (fun s a s' _ _ hs hI => hI.next (fun _ _ h => h) hs) ⟨[], by simp, trivial⟩
  refine ((System.Run.finally_all hone).and hprefix).mono fun s _ h => ?_
  obtain ⟨hall, new, hnew, -⟩ := h
  refine ⟨new, hnew, fun t ht => ?_⟩
  obtain ⟨new', hnew', hx⟩ := hall ⟨t, ht⟩
  obtain rfl := List.append_cancel_left (hnew'.symm.trans hnew)
  exact hx

/-- A run that was evaluated until no call is in progress is fair. -/
theorem exists_run_idle {n : ℕ} (code : Code μ ι σ l) (d : σ) (as : List (Action (Fin n) μ ι))
    (h : ((system code d).exec Anything (system code d).init as).any
      (fun s => decide (∀ t, (s.pc t).method.isNone = true)) = true) :
    ∃ r : (system code d).Run Anything, r.Fair Action.party ∧
      ∀ k, (system code d).exec Anything (system code d).init (as.take k) = some (r.state k) := by
  obtain ⟨s, hs, hidle⟩ := (Option.any_eq_true ..).mp h
  refine System.exists_run hs fun t => ?_
  rintro ⟨a, s', hp, -, hs'⟩
  cases a with
  | call | wake => cases hp
  | step u throws =>
    have hu : s.pc u = .idle := by
      have hnone := of_decide_eq_true hidle u
      cases hpc : s.pc u with
      | idle => rfl
      | enter | body | blocked | leave => rw [hpc] at hnone; cases hnone
    simp [system, next, hu] at hs'

end Runs

end Concurrency.Monitor
