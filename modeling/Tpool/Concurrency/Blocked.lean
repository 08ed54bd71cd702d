import Tpool.Concurrency.Monitor

/-!
# Monitors: invariants over the blocked calls

- `Blocked`: the calls that are blocked in a wait, notified or not, with their locals (`State.blocked`).
- `next_data`, `next_throws`, `next_blocks`: what one move does to the data, and who leaves a body by an exception or
  comes to be blocked by it.
- `wpb A I` is the weakest precondition of a body where the resource invariant `I` sees these calls too: a call that
  blocks adds itself, and takes itself out when it goes on. `A` holds at every point.
- `Kept.sound`: when `I` holds at the start and implies the precondition of every body, it holds whenever the lock is
  free, and `A` always holds (`Guarded`). It comes on top of what `Monitor.Verified` says of the same code.
-/

namespace Concurrency.Monitor

variable {Tid μ ι σ l : Type*}

/-- The calls that are blocked, by thread. -/
abbrev Blocked (Tid μ l : Type*) := Tid → Option (μ × l)

/-- The call and the locals of a thread that is blocked. -/
def PC.asleep : PC μ ι σ l → Option (μ × l)
  | .blocked m _ _ _ x => some (m, x)
  | _ => none

def State.blocked (s : State Tid μ ι σ l) : Blocked Tid μ l := fun t => (s.pc t).asleep

theorem PC.asleep_of_inside {p : PC μ ι σ l} (h : p.inside = true) : p.asleep = none := by
  cases p with
  | blocked => cases h
  | idle | enter | body | leave => rfl

variable [DecidableEq Tid]

theorem State.blocked_goto (s : State Tid μ ι σ l) (t : Tid) (p : PC μ ι σ l) :
    (s.goto t p).blocked = Function.update s.blocked t p.asleep := by
  funext u
  by_cases h : u = t
  · subst h; simp [State.blocked, State.goto]
  · simp [State.blocked, State.goto, h]

/-- A move from outside the waits to outside the waits. -/
theorem State.blocked_goto_none (s : State Tid μ ι σ l) {t : Tid} {p : PC μ ι σ l} (ht : (s.pc t).asleep = none)
    (hp : p.asleep = none) : (s.goto t p).blocked = s.blocked := by
  rw [State.blocked_goto, hp]
  exact Function.update_eq_self_iff.mpr ht.symm

variable [DecidableEq ι]

theorem Waiting.join_mono {w w' : Waiting Tid ι} (h : w' ≤ w) (c : ι) (t : Tid) : w'.join c t ≤ w.join c t := by
  intro d
  by_cases hd : d = c
  · subst hd
    simpa only [Waiting.join_self] using Finset.insert_subset_insert t (h d)
  · simpa only [Waiting.join_of_ne w' c t hd, Waiting.join_of_ne w c t hd] using h d

/-! ## What a move does to the data and to the blocked calls -/

/-- A move relates the data by whatever relates them in every statement of the bodies. -/
theorem next_data {code : Code μ ι σ l} {d : σ} {R : σ → σ → Prop} (hrefl : ∀ d, R d d)
    (hact : ∀ m b g, Stmt.act b g ∈ code.body m → ∀ d x d' x', g d x = some (d', x') → R d d')
    {s s' : State Tid μ ι σ l} (hs : (system code d).Reachable Anything s) {a : Action Tid μ ι}
    (h : next code s a = some s') : R s.data s'.data := by
  cases next_cases h with
  | @act t m mayThrow g rest x x' d' ht hg =>
    have hmem : .act mayThrow g ∈ code.body m :=
      (suffix_body hs t m (.act mayThrow g :: rest) (by rw [ht]; rfl)).subset List.mem_cons_self
    exact hact m mayThrow g hmem s.data x d' x' hg
  | call | wake | enter | finish | wait | pass | ret | skip | notify | throw | resume | leave => exact hrefl _

/-- A step that throws leaves the data alone. -/
theorem next_throws {code : Code μ ι σ l} {s s' : State Tid μ ι σ l} {t : Tid}
    (h : next code s (.step t true) = some s') : s'.data = s.data := by
  cases next_cases h with
  | enter | finish | wait | pass | ret | skip | notify | throw | resume | leave => rfl

/-- A call blocks only at a wait whose condition holds. -/
theorem next_blocks {code : Code μ ι σ l} {s s' : State Tid μ ι σ l} {a : Action Tid μ ι} (h : next code s a = some s')
    {t : Tid} (ht : (s.pc t).asleep = none) (ht' : (s'.pc t).asleep ≠ none) :
    ∃ m c f rest x, s.pc t = .body m (.waitWhile c f :: rest) x ∧ f s.data x = true := by
  -- a move of the thread `u` that does not leave it blocked
  have key : ∀ {u p}, PC.asleep p = none → s'.pc = Function.update s.pc u p → False := by
    intro u p hp h
    rw [h] at ht'
    by_cases htu : t = u
    · subst htu; rw [Function.update_self] at ht'; exact ht' hp
    · rw [Function.update_of_ne htu] at ht'; exact ht' ht
  cases next_cases h with
  | @wait u _ m c f rest x hu hf =>
    have htu : t = u := by
      by_contra hne
      exact ht' (by simpa [State.goto, hne] using ht)
    exact ⟨m, c, f, rest, x, htu ▸ hu, hf⟩
  | wake => exact absurd ht ht'
  | call | enter | finish | pass | ret | skip | notify | throw | act | resume | leave => exact (key rfl rfl).elim

/-! ## The logic -/

section Logic

variable (A : σ → Waiting Tid ι → Blocked Tid μ l → Prop)
  (I : σ → Waiting Tid ι → Log Tid μ l → Blocked Tid μ l → Prop)

/-- The weakest precondition of the rest of a body. -/
def wpb (t : Tid) (m : μ) : List (Stmt ι σ l) → l → σ → Waiting Tid ι → Log Tid μ l → Blocked Tid μ l → Prop
  | [], x, d, w, lg, b => I d w (lg ++ [(t, m, some x)]) b
  | .waitWhile c f :: rest, x, d, w, lg, b => A d w b ∧
      (if f d x then I d (w.join c t) lg (Function.update b t (some (m, x))) else wpb t m rest x d w lg b) ∧
      -- where the loop goes on, from any state in which the call is blocked and notified
      ∀ d w lg b, I d w lg b → b t = some (m, x) → t ∉ w c → A d w (Function.update b t none) ∧
        if f d x then I d (w.join c t) lg b else wpb t m rest x d w lg (Function.update b t none)
  | .returnIf f r :: rest, x, d, w, lg, b => A d w b ∧
      if f d then I d w (lg ++ [(t, m, some r)]) b else wpb t m rest x d w lg b
  | .notifyAllIf c f :: rest, x, d, w, lg, b => A d w b ∧ wpb t m rest x d (if f d then w.clear c else w) lg b
  | .act mayThrow g :: rest, x, d, w, lg, b => A d w b ∧ (mayThrow = true → I d w (lg ++ [(t, m, none)]) b) ∧
      ∀ d' x', g d x = some (d', x') → wpb t m rest x' d' w lg b

/-- What a blocked call owes when it goes on. -/
def Resumes (t : Tid) (m : μ) (c : ι) (f : σ → l → Bool) (rest : List (Stmt ι σ l)) (x : l) : Prop :=
  ∀ d w lg b, I d w lg b → b t = some (m, x) → t ∉ w c → A d w (Function.update b t none) ∧
    if f d x then I d (w.join c t) lg b else wpb A I t m rest x d w lg (Function.update b t none)

/-- What the logic asks of a monitor. -/
structure Kept (code : Code μ ι σ l) : Prop where
  always : ∀ {d w lg b}, I d w lg b → A d w b
  always_wake : ∀ {d w w' b}, w' ≤ w → A d w b → A d w' b
  free_wake : ∀ {d w w' lg b}, w' ≤ w → I d w lg b → I d w' lg b
  body : ∀ t m {d w lg b}, b t = none → I d w lg b → wpb A I t m (code.body m) code.start d w lg b

/-- What holds between the steps. -/
structure Guarded (s : State Tid μ ι σ l) : Prop where
  free : s.owner = none → I s.data s.waiting s.log s.blocked
  body : ∀ t m rest x, s.pc t = .body m rest x → wpb A I t m rest x s.data s.waiting s.log s.blocked
  leave : ∀ t m r, s.pc t = .leave m r → I s.data s.waiting (s.log ++ [(t, m, r)]) s.blocked
  resume : ∀ t m c f rest x, s.pc t = .blocked m c f rest x → Resumes A I t m c f rest x

variable {A I} {code : Code μ ι σ l}

/-- Preconditions do not mind that waiters wake. -/
theorem Kept.wpb_wake (hk : Kept A I code) (t : Tid) (m : μ) :
    ∀ {rest : List (Stmt ι σ l)} {x : l} {d : σ} {w w' : Waiting Tid ι} {lg : Log Tid μ l} {b : Blocked Tid μ l},
      w' ≤ w → wpb A I t m rest x d w lg b → wpb A I t m rest x d w' lg b
  | [], _, _, _, _, _, _, hw, h => hk.free_wake hw h
  | .waitWhile c f :: rest, x, d, w, w', lg, b, hw, h => by
    obtain ⟨hA, hnow, hlater⟩ := h
    refine ⟨hk.always_wake hw hA, ?_, hlater⟩
    split at hnow
    · rw [if_pos ‹_›]; exact hk.free_wake (Waiting.join_mono hw c t) hnow
    · rw [if_neg ‹_›]; exact hk.wpb_wake t m hw hnow
  | .returnIf f r :: rest, x, d, w, w', lg, b, hw, h => by
    obtain ⟨hA, h⟩ := h
    refine ⟨hk.always_wake hw hA, ?_⟩
    split at h
    · rw [if_pos ‹_›]; exact hk.free_wake hw h
    · rw [if_neg ‹_›]; exact hk.wpb_wake t m hw h
  | .notifyAllIf c f :: rest, x, d, w, w', lg, b, hw, h => by
    refine ⟨hk.always_wake hw h.1, hk.wpb_wake t m ?_ h.2⟩
    split
    · exact Waiting.clear_mono c hw
    · exact hw
  | .act mt g :: rest, x, d, w, w', lg, b, hw, h =>
    ⟨hk.always_wake hw h.1, fun e => hk.free_wake hw (h.2.1 e),
      fun d' x' hg => hk.wpb_wake t m hw (h.2.2 d' x' hg)⟩

/-- The assertion holds at every point of a body. -/
theorem Kept.wpb_always (hk : Kept A I code) {t : Tid} {m : μ} {rest : List (Stmt ι σ l)} {x : l} {d : σ}
    {w : Waiting Tid ι} {lg : Log Tid μ l} {b : Blocked Tid μ l} (h : wpb A I t m rest x d w lg b) : A d w b := by
  match rest with
  | [] => exact hk.always h
  | .waitWhile _ _ :: _ | .returnIf _ _ :: _ | .notifyAllIf _ _ :: _ | .act _ _ :: _ => exact h.1

variable {s s' : State Tid μ ι σ l} {t : Tid}

theorem Proved.others {A' : σ → Waiting Tid ι → Prop} {F' : σ → Waiting Tid ι → Log Tid μ l → Prop}
    (hp : Proved A' F' s)
    (ht : (s.pc t).inside = true) (u : Tid) (hu : u ≠ t) : (s.pc u).inside = false := by
  cases h : (s.pc u).inside with
  | false => rfl
  | true => exact absurd (hp.alone ht h) hu

/-- A move of one thread while no other holds the lock. -/
theorem Guarded.of_alone (hg : Guarded A I s) (hpc : ∀ u, u ≠ t → s'.pc u = s.pc u)
    (hout : ∀ u, u ≠ t → (s.pc u).inside = false)
    (hfree : s'.owner = none → I s'.data s'.waiting s'.log s'.blocked)
    (hbody : ∀ m rest x, s'.pc t = .body m rest x → wpb A I t m rest x s'.data s'.waiting s'.log s'.blocked)
    (hleave : ∀ m r, s'.pc t = .leave m r → I s'.data s'.waiting (s'.log ++ [(t, m, r)]) s'.blocked)
    (hresume : ∀ m c f rest x, s'.pc t = .blocked m c f rest x → Resumes A I t m c f rest x) : Guarded A I s' := by
  refine ⟨hfree, fun u m rest x hu => ?_, fun u m r hu => ?_, fun u m c f rest x hu => ?_⟩
  · by_cases h : u = t
    · subst h; exact hbody m rest x hu
    · have := hout u h
      rw [← hpc u h, hu] at this
      cases this
  · by_cases h : u = t
    · subst h; exact hleave m r hu
    · have := hout u h
      rw [← hpc u h, hu] at this
      cases this
  · by_cases h : u = t
    · subst h; exact hresume m c f rest x hu
    · exact hg.resume u m c f rest x (by rw [← hpc u h, hu])

/-- The thread that holds the lock moves on. -/
theorem Guarded.hold (hg : Guarded A I s) (ho : s.owner = some t) (hin : (s.pc t).inside = true)
    (hout : ∀ u, u ≠ t → (s.pc u).inside = false) {p : PC μ ι σ l} {d : σ} {w : Waiting Tid ι}
    (hp : p.inside = true) (hbody : ∀ m rest x, p = .body m rest x → wpb A I t m rest x d w s.log s.blocked)
    (hleave : ∀ m r, p = .leave m r → I d w (s.log ++ [(t, m, r)]) s.blocked) :
    Guarded A I { s.goto t p with data := d, waiting := w } := by
  have hb : (s.goto t p).blocked = s.blocked :=
    s.blocked_goto_none (PC.asleep_of_inside hin) (PC.asleep_of_inside hp)
  have ht : (s.goto t p).pc t = p := Function.update_self ..
  refine hg.of_alone (fun u h => Function.update_of_ne h _ _) hout ?_ ?_ ?_ ?_
  · intro h
    rw [show s.owner = none from h] at ho
    cases ho
  · intro m rest x h
    show wpb A I t m rest x d w s.log (s.goto t p).blocked
    rw [hb]
    exact hbody m rest x (ht.symm.trans h)
  · intro m r h
    show I d w (s.log ++ [(t, m, r)]) (s.goto t p).blocked
    rw [hb]
    exact hleave m r (ht.symm.trans h)
  · intro m c f rest x h
    rw [ht.symm.trans h] at hp
    cases hp

/-- A call begins. -/
theorem Guarded.call (hg : Guarded A I s) (ht : s.pc t = .idle) (m : μ) : Guarded A I (s.goto t (.enter m)) := by
  have hb : (s.goto t (.enter m)).blocked = s.blocked := s.blocked_goto_none (by rw [ht]; rfl) rfl
  have hpc : ∀ u p, (s.goto t (.enter m)).pc u = p → p ≠ .enter m → s.pc u = p := by
    intro u p hu hne
    by_cases h : u = t
    · subst h; exact absurd (by simpa [State.goto] using hu.symm) hne
    · simpa [State.goto, h] using hu
  refine ⟨fun ho => ?_, fun u m' rest x hu => ?_, fun u m' r hu => ?_, fun u m' c f rest x hu =>
    hg.resume u m' c f rest x (hpc u _ hu (by simp))⟩
  · rw [hb]; exact hg.free ho
  · rw [hb]; exact hg.body u m' rest x (hpc u _ hu (by simp))
  · rw [hb]; exact hg.leave u m' r (hpc u _ hu (by simp))

/-- A move keeps the invariant; what the two wait sets and the lock have to do with the threads is known from
`Proved`. -/
theorem Guarded.next {A' : σ → Waiting Tid ι → Prop} {F' : σ → Waiting Tid ι → Log Tid μ l → Prop} (hk : Kept A I code)
    (hp : Proved A' F' s) (hg : Guarded A I s) {a : Action Tid μ ι} (h : next code s a = some s') : Guarded A I s' := by
  have inside : ∀ {t m rest x}, s.pc t = .body m rest x → (s.pc t).inside = true := fun ht => by rw [ht]; rfl
  -- the thread `t` moves on and keeps the lock
  have hold : ∀ {t m rest x p} {d : σ} {w : Waiting Tid ι}, s.pc t = .body m rest x → p.inside = true →
      (∀ m rest x, p = .body m rest x → wpb A I t m rest x d w s.log s.blocked) →
      (∀ m r, p = .leave m r → I d w (s.log ++ [(t, m, r)]) s.blocked) →
      Guarded A I { s.goto t p with data := d, waiting := w } :=
    fun ht => hg.hold ((hp.owner_iff _).mpr (inside ht)) (inside ht) (hp.others (inside ht))
  cases next_cases h with
  | call ht => exact hg.call ht _
  | @wake c t hc =>
    have hw := s.waiting.wake_le c t
    exact ⟨fun ho => hk.free_wake hw (hg.free ho), fun u m rest x hu => hk.wpb_wake u m hw (hg.body u m rest x hu),
      fun u m r hu => hk.free_wake hw (hg.leave u m r hu), hg.resume⟩
  | @enter t _ m ht ho =>
    have hn : (s.pc t).asleep = none := by rw [ht]; rfl
    refine hg.of_alone (t := t) (fun u h => Function.update_of_ne h _ _) (fun u _ => hp.not_inside ho u)
      (fun h => by cases h) ?_ ?_ ?_
    · intro m' rest x h
      simp only [State.goto, Function.update_self, PC.body.injEq] at h
      obtain ⟨rfl, rfl, rfl⟩ := h
      show wpb A I t m (code.body m) code.start s.data s.waiting s.log (s.goto t _).blocked
      rw [s.blocked_goto_none hn rfl]
      exact hk.body t m hn (hg.free ho)
    · intro m' r h; simp [State.goto] at h
    · intro m' c f rest x h; simp [State.goto] at h
  | @resume t _ m c f rest x ht hc ho =>
    have hbt : s.blocked t = some (m, x) := by simp [State.blocked, ht, PC.asleep]
    obtain ⟨hA, hif⟩ := hg.resume t m c f rest x ht _ _ _ _ (hg.free ho) hbt hc
    refine hg.of_alone (t := t) (fun u h => Function.update_of_ne h _ _) (fun u _ => hp.not_inside ho u)
      (fun h => by cases h) ?_ ?_ ?_
    · intro m' rest' x' h
      simp only [State.goto, Function.update_self, PC.body.injEq] at h
      obtain ⟨rfl, rfl, rfl⟩ := h
      show wpb A I t m (.waitWhile c f :: rest) x s.data s.waiting s.log (s.goto t _).blocked
      rw [State.blocked_goto]
      refine ⟨hA, ?_, hg.resume t m c f rest x ht⟩
      -- a call that blocks again is blocked with the same locals
      rwa [Function.update_idem, ← hbt, Function.update_eq_self]
    · intro m' r h; simp [State.goto] at h
    · intro m' c' f' rest' x' h; simp [State.goto] at h
  | @leave t _ m r ht =>
    have hin : (s.pc t).inside = true := by rw [ht]; rfl
    refine hg.of_alone (t := t) (fun u h => Function.update_of_ne h _ _) (hp.others hin) (fun _ => ?_) ?_ ?_ ?_
    · show I s.data s.waiting (s.log ++ [(t, m, r)]) (s.goto t .idle).blocked
      rw [s.blocked_goto_none (PC.asleep_of_inside hin) rfl]
      exact hg.leave t m r ht
    · intro m' rest x h; simp [State.goto] at h
    · intro m' r' h; simp [State.goto] at h
    · intro m' c f rest x h; simp [State.goto] at h
  | @wait t _ m c f rest x ht hf =>
    obtain ⟨-, hnow, hlater⟩ := hg.body _ _ _ _ ht
    rw [if_pos hf] at hnow
    refine hg.of_alone (t := t) (fun u h => Function.update_of_ne h _ _) (hp.others (inside ht)) ?_ ?_ ?_ ?_
    · intro _
      show I s.data (s.waiting.join c t) s.log (s.goto t (.blocked m c f rest x)).blocked
      rw [State.blocked_goto]
      exact hnow
    · intro m' rest' x' h; simp [State.goto] at h
    · intro m' r h; simp [State.goto] at h
    · intro m' c' f' rest' x' h
      simp only [State.goto, Function.update_self, PC.blocked.injEq] at h
      obtain ⟨rfl, rfl, rfl, rfl, rfl⟩ := h
      exact hlater
  | pass ht hf =>
    obtain ⟨-, hnow, -⟩ := hg.body _ _ _ _ ht
    rw [if_neg hf] at hnow
    refine hold ht rfl (fun m' rest' x' he => ?_) (fun _ _ he => by cases he)
    cases he; exact hnow
  | finish ht =>
    refine hold ht rfl (fun _ _ _ he => by cases he) (fun m' r' he => ?_)
    cases he; exact hg.body _ _ _ _ ht
  | ret ht hf =>
    have hwp := (hg.body _ _ _ _ ht).2
    rw [if_pos hf] at hwp
    refine hold ht rfl (fun _ _ _ he => by cases he) (fun m' r' he => ?_)
    cases he; exact hwp
  | skip ht hf =>
    have hwp := (hg.body _ _ _ _ ht).2
    rw [if_neg hf] at hwp
    refine hold ht rfl (fun m' rest' x' he => ?_) (fun _ _ he => by cases he)
    cases he; exact hwp
  | notify ht =>
    refine hold ht rfl (fun m' rest' x' he => ?_) (fun _ _ he => by cases he)
    cases he; exact (hg.body _ _ _ _ ht).2
  | throw ht hm =>
    obtain ⟨-, hthrow, -⟩ := hg.body _ _ _ _ ht
    refine hold ht rfl (fun _ _ _ he => by cases he) (fun m' r' he => ?_)
    cases he; exact hthrow hm
  | act ht hgx =>
    obtain ⟨-, -, hwp⟩ := hg.body _ _ _ _ ht
    refine hold ht rfl (fun m' rest' x' he => ?_) (fun _ _ he => by cases he)
    cases he; exact hwp _ _ hgx

/-- **Soundness**, for code that is verified already for some invariant of its data alone. -/
theorem Kept.sound {A' : σ → Waiting Tid ι → Prop} {F' : σ → Waiting Tid ι → Log Tid μ l → Prop} (hk : Kept A I code)
    (hv : Verified A' F' code) {d : σ} (h0' : F' d (fun _ => ∅) []) (h0 : I d (fun _ => ∅) [] fun _ => none)
    (h : (system code d).Reachable Anything s) : Guarded A I s := by
  refine h.induct ⟨fun _ => h0, ?_, ?_, ?_⟩ fun _ _ _ hr _ hs hg => hg.next hk (hv.sound h0' hr) hs
  all_goals intros; simp_all [system]

/-- What the invariant says of the data and the log holds in every reachable state, if no statement takes it back. -/
theorem Kept.logged {A' : σ → Waiting Tid ι → Prop} {F' : σ → Waiting Tid ι → Log Tid μ l → Prop} (hk : Kept A I code)
    (hv : Verified A' F' code) {P : σ → Log Tid μ l → Prop} {R : σ → σ → Prop} (hrefl : ∀ d, R d d)
    (hact : ∀ m b g, Stmt.act b g ∈ code.body m → ∀ d x d' x', g d x = some (d', x') → R d d')
    (hP : ∀ {d w lg b}, I d w lg b → P d lg) (hR : ∀ {d d' lg}, R d d' → P d lg → P d' lg) {d : σ}
    (h0' : F' d (fun _ => ∅) []) (h0 : I d (fun _ => ∅) [] fun _ => none)
    (h : (system code d).Reachable Anything s) : P s.data s.log := by
  refine h.induct (I := fun s => P s.data s.log) (hP h0) fun s a s' hr _ hs ih => ?_
  refine hR (next_data hrefl hact hr hs) ?_
  rcases next_log hs with hl | ⟨t, m, r, ht, hl⟩
  · rwa [hl]
  · rw [hl]
    exact hP ((hk.sound hv h0' h0 hr).leave t m r ht)

/-- The assertion always holds. -/
theorem Guarded.always {A' : σ → Waiting Tid ι → Prop} {F' : σ → Waiting Tid ι → Log Tid μ l → Prop}
    (hk : Kept A I code)
    (hp : Proved A' F' s) (hg : Guarded A I s) : A s.data s.waiting s.blocked := by
  cases ho : s.owner with
  | none => exact hk.always (hg.free ho)
  | some t =>
    have hin := (hp.owner_iff t).mp ho
    cases ht : s.pc t with
    | body m rest x => exact hk.wpb_always (hg.body t m rest x ht)
    | leave m r => exact hk.always (hg.leave t m r ht)
    | idle | enter | blocked => rw [ht] at hin; cases hin

end Logic

end Concurrency.Monitor
