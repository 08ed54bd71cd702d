import Tpool.Thread.TimerOnce

/-!
# When a timer fires

Deadlines are sums of 64 bits.

- `Timely`: no such sum wraps, and the submissions of a task do not race (`Exclusive`).
- `Submission.earliest`: what a submission promises, as a sum without bounds. `OnTime`: the deadline and the readings of
  the clock at which the `DoRun`s of a task were started keep the promise, and are an interval apart.
- `never_early`. `fires_early`: a delay that makes the sum wrap is over at once.
-/

namespace Tpool

open Concurrency Structures

namespace SharedTimer

variable {Cl T : Type*} {heap : PriorityQueue T Nat} {s s' : SharedTimer Cl T}

/-! ## Sums that do not wrap -/

/-- The earliest time at which a task submitted at `now` may be started. -/
def Submission.earliest (now : TimeValue) : Submission → Nat
  | .later delay_in_ms => now.toNat + delay_in_ms.toNat
  | .every interval_in_ms is_run_now => if is_run_now then now.toNat else now.toNat + interval_in_ms.toNat

/-- The sums that are written as deadlines do not reach `2 ^ 64`. -/
def ClientPC.Fits : ClientPC T → Prop
  | .setDeadline _ how now => how.earliest now < UInt64.size
  | _ => True

def PC.Fits (pc : PC T) : Prop := ∀ x ∈ pc.rearms, x.1.toNat + x.2.toNat < UInt64.size

/-- No sum wraps, and the submissions of a task do not race. -/
def Timely (s : SharedTimer Cl T) (a : Action Cl T) : Prop :=
  Exclusive s a ∧ match a with
    | .client c _ => (s.client c).Fits
    | .timer _ => s.pc.Fits
    | _ => True

theorem Submission.toNat_deadline {now : TimeValue} {how : Submission} (h : how.earliest now < UInt64.size) :
    (how.deadline now).toNat = how.earliest now := by
  cases how with
  | later d =>
    simp only [deadline, earliest, UInt64.toNat_add] at h ⊢
    exact Nat.mod_eq_of_lt h
  | every p b =>
    cases b with
    | true => rfl
    | false =>
      simp only [deadline, earliest, Bool.false_eq_true, if_false, UInt64.toNat_add] at h ⊢
      exact Nat.mod_eq_of_lt h

/-! ## The starts of a task -/

variable [DecidableEq T]

/-- What the clock had shown when the `DoRun`s of a task were started on the timer thread. -/
def readings (s : SharedTimer Cl T) (t : T) : List TimeValue :=
  (s.record.started.filter fun x => x.1 = t).map Prod.snd

/-- The starts of a task keep what its submission promises, and so does its deadline; the starts are an interval apart,
and the deadline is one interval after the last. -/
structure OnTime (s : SharedTimer Cl T) (t : T) : Prop where
  accepted : ∀ n how, (t, n, how) ∈ s.record.accepted → how.earliest n ≤ (s.deadline t).toNat ∧
    ∀ p b, how = .every p b → s.interval t = p
  started : ∀ r ∈ s.readings t, (∀ n how, (t, n, how) ∈ s.record.accepted → how.earliest n ≤ r.toNat) ∧
    (0 < s.interval t → r.toNat + (s.interval t).toNat ≤ (s.deadline t).toNat)
  apart : 0 < s.interval t → (s.readings t).Pairwise fun r r' => r.toNat + (s.interval t).toNat ≤ r'.toNat

/-- It is time for a start: the promise is kept, the earlier starts were an interval before, and the deadline is an
interval later. -/
structure Due (s : SharedTimer Cl T) (t : T) (now : TimeValue) : Prop where
  accepted : ∀ n how, (t, n, how) ∈ s.record.accepted → how.earliest n ≤ now.toNat
  started : 0 < s.interval t → ∀ r ∈ s.readings t, r.toNat + (s.interval t).toNat ≤ now.toNat
  next : 0 < s.interval t → now.toNat + (s.interval t).toNat ≤ (s.deadline t).toNat

/-- The timer thread is about to start a task only when it is time, or when the task finds that it was cancelled. -/
def PC.Punctual (s : SharedTimer Cl T) : PC T → Prop
  | .isIntervalTask t now | .getInterval t now | .popMin t (.due now) => s.deadline t ≤ now
  | .setDeadline t now interval => s.deadline t ≤ now ∧ interval = s.interval t
  | .popMinAndPush t now | .run t now .setRunning => Due s t now
  | .unlock (some (t, now)) | .run t now .checkCancellation => Due s t now ∨ (s.base t).isRequestCancel = true
  | _ => True

/-- A submission is about to push a task with the deadline it promises. -/
def ClientPC.Punctual (s : SharedTimer Cl T) : ClientPC T → Prop
  | .setInterval t how now interval => how.earliest now ≤ (s.deadline t).toNat ∧ ∃ b, how = .every interval b
  | .pushTask t how now => how.earliest now ≤ (s.deadline t).toNat ∧ ∀ p b, how = .every p b → s.interval t = p
  | _ => True

structure Punctual (s : SharedTimer Cl T) : Prop where
  tasks : ∀ t, OnTime s t
  timer : s.pc.Punctual s
  clients : ∀ c, (s.client c).Punctual s

section Punctual

/-- The step does nothing to `t`. -/
structure Same (s s' : SharedTimer Cl T) (t : T) : Prop where
  deadline : s'.deadline t = s.deadline t
  interval : s'.interval t = s.interval t
  accepted : ∀ n how, (t, n, how) ∈ s'.record.accepted → (t, n, how) ∈ s.record.accepted
  readings : s'.readings t = s.readings t

theorem Same.of_eq {t : T} (hd : s'.deadline = s.deadline) (hint : s'.interval = s.interval)
    (ha : s'.record.accepted = s.record.accepted) (hst : s'.record.started = s.record.started) : Same s s' t := by
  refine ⟨congrFun hd t, congrFun hint t, fun n how h => by rwa [ha] at h, ?_⟩
  unfold SharedTimer.readings
  rw [hst]

theorem OnTime.same {t : T} (hi : OnTime s t) (h : Same s s' t) : OnTime s' t := by
  refine ⟨?_, ?_, ?_⟩
  · intro n how ha
    rw [h.deadline, h.interval]
    exact hi.accepted n how (h.accepted n how ha)
  · intro r hr
    rw [h.deadline, h.interval]
    rw [h.readings] at hr
    exact ⟨fun n how ha => (hi.started r hr).1 n how (h.accepted n how ha), (hi.started r hr).2⟩
  · rw [h.interval, h.readings]
    exact hi.apart

theorem Due.same {t : T} {now : TimeValue} (hi : Due s t now) (h : Same s s' t) : Due s' t now := by
  refine ⟨fun n how ha => hi.accepted n how (h.accepted n how ha), ?_, ?_⟩
  · rw [h.interval, h.readings]
    exact hi.started
  · rw [h.interval, h.deadline]
    exact hi.next

/-- What the timer thread is about to do depends on the task that it has taken. -/
theorem PC.Punctual.same {pc : PC T} (hi : pc.Punctual s) (h : ∀ t, pc.task = some t → Same s s' t)
    (hf : ∀ t, (s.base t).isRequestCancel = true → (s'.base t).isRequestCancel = true) : pc.Punctual s' := by
  have hle : ∀ t (now : TimeValue), pc.task = some t → s.deadline t ≤ now → s'.deadline t ≤ now := by
    intro t now ht hd
    rwa [(h t ht).deadline]
  cases pc with
  | isIntervalTask t now | getInterval t now => exact hle t now rfl hi
  | popMin t why =>
    cases why with
    | due now => exact hle t now rfl hi
    | cancelled | requested => trivial
  | setDeadline t now interval => exact ⟨hle t now rfl hi.1, hi.2.trans (h t rfl).interval.symm⟩
  | popMinAndPush t now => exact Due.same hi (h t rfl)
  | unlock fired =>
    cases fired with
    | none => trivial
    | some x => exact Or.imp (fun hd => Due.same hd (h x.1 rfl)) (hf x.1) hi
  | run t now p =>
    cases p with
    | checkCancellation => exact Or.imp (fun hd => Due.same hd (h t rfl)) (hf t) hi
    | setRunning => exact Due.same hi (h t rfl)
    | _ => trivial
  | _ => trivial

omit [DecidableEq T] in
theorem ClientPC.Punctual.same {pc : ClientPC T} (hi : pc.Punctual s)
    (h : ∀ t, pc.pushes = some t → s'.deadline t = s.deadline t ∧ s'.interval t = s.interval t) : pc.Punctual s' := by
  cases pc with
  | setInterval t how now interval =>
    refine ⟨?_, hi.2⟩
    rw [(h t rfl).1]
    exact hi.1
  | pushTask t how now =>
    refine ⟨?_, fun p b hp => (h t rfl).2.trans (hi.2 p b hp)⟩
    rw [(h t rfl).1]
    exact hi.1
  | _ => trivial

/-- Nothing is done to a task. -/
theorem Punctual.quiet (hi : Punctual s) (hsame : ∀ t, Same s s' t) (hpc : s'.pc.Punctual s')
    (hc : ∀ c, s'.client c = s.client c ∨ (s'.client c).Punctual s') : Punctual s' := by
  refine ⟨fun t => (hi.tasks t).same (hsame t), hpc, ?_⟩
  intro c
  rcases hc c with hc | hc
  · rw [hc]
    exact (hi.clients c).same fun t _ => ⟨(hsame t).deadline, (hsame t).interval⟩
  · exact hc

/-! ### The timer thread -/

theorem Punctual.move (hi : Punctual s) (ho : Ordered s) {pc pc' : PC T} (hpc : s.pc = pc) (h : Move s pc pc') :
    Punctual (s.goto pc') := by
  refine hi.quiet (fun t => .of_eq rfl rfl rfl rfl) ?_ fun c => Or.inl rfl
  have ht := hi.timer
  rw [hpc] at ht
  cases h with
  | @due t now deadline hle =>
    show s.deadline t ≤ now
    rwa [ho.read t deadline (by rw [hpc]; rfl)]
  | interval | oneShot => exact ht
  | getInterval => exact ⟨ht, rfl⟩
  | _ => trivial

/-- The timer thread writes the next deadline of `t`. -/
theorem Punctual.rearm (hi : Punctual s) (ho : Once ClientPC.pushes s) (hb : Booked s) {t : T}
    {now interval : TimeValue} (hpc : s.pc = .setDeadline t now interval)
    (hfit : now.toNat + interval.toNat < UInt64.size) :
    Punctual { s.goto (.popMinAndPush t now) with deadline := Function.update s.deadline t (now + interval) } := by
  have ht := hi.timer
  rw [hpc] at ht
  obtain ⟨hdue, rfl⟩ := ht
  have hdue : (s.deadline t).toNat ≤ now.toNat := UInt64.le_iff_toNat_le.mp hdue
  have hnext : (now + s.interval t).toNat = now.toNat + (s.interval t).toNat := by
    rw [UInt64.toNat_add]
    exact Nat.mod_eq_of_lt hfit
  have htask := hi.tasks t
  refine ⟨?_, ⟨?_, ?_, ?_⟩, ?_⟩
  · intro v
    by_cases hv : v = t
    · subst hv
      refine ⟨?_, ?_, htask.apart⟩
      · intro n how ha
        obtain ⟨hd, hint⟩ := htask.accepted n how ha
        refine ⟨?_, hint⟩
        simp only [Function.update_self, hnext]
        omega
      · intro r hr
        obtain ⟨hacc, hlast⟩ := htask.started r hr
        refine ⟨hacc, ?_⟩
        intro hpos
        have := hlast hpos
        simp only [goto, Function.update_self, hnext]
        omega
    · exact (hi.tasks v).same ⟨Function.update_of_ne hv _ _, rfl, fun _ _ ha => ha, rfl⟩
  · intro n how ha
    have := (htask.accepted n how ha).1
    omega
  · intro hpos r hr
    have := (htask.started r hr).2 hpos
    simp only [goto] at this ⊢
    omega
  · intro _
    simp only [goto, Function.update_self, hnext]
    exact le_rfl
  · intro c
    refine (hi.clients c).same fun u hu => ⟨Function.update_of_ne ?_ _ _, rfl⟩
    exact (ho.ne_task hb hu (by rw [hpc]; rfl)).symm

/-- A step of `Run` gets to `DoRun`, passes its check with no cancel requested, or is at neither. -/
theorem run_starts {b b' : TaskBase Cl} {p p' : TaskBase.RunPC} {e : Exit} (h : b.run p e = some (b', p')) :
    (p = .setRunning ∧ p' = .doRun) ∨ (p = .checkCancellation ∧ p' = .setRunning ∧ b.isRequestCancel = false) ∨
      (p' ≠ .checkCancellation ∧ p' ≠ .setRunning ∧ p' ≠ .doRun) := by
  rcases TaskBase.run_cases h with ⟨rfl, -, rfl⟩ | ⟨-, -, rfl⟩ | ⟨-, -, rfl⟩ | ⟨-, -, rfl⟩ |
    ⟨-, ⟨rfl, rfl⟩ | ⟨-, rfl | ⟨rfl, -⟩ | rfl⟩ | ⟨-, rfl | rfl⟩⟩
  · exact Or.inl ⟨rfl, rfl⟩
  · simp
  · simp
  · simp
  · cases hf : b.isRequestCancel with
    | true => simp
    | false => simp
  · simp
  · simp
  · simp
  · simp
  · simp

/-- The timer thread starts the `DoRun` of `t`. -/
theorem Punctual.start (hi : Punctual s) {t : T} {now : TimeValue} (hdue : Due s t now)
    (hst : s'.record.started = s.record.started ++ [(t, now)]) (ha : s'.record.accepted = s.record.accepted)
    (hd : s'.deadline = s.deadline) (hint : s'.interval = s.interval) (hc : s'.client = s.client)
    (hpc : s'.pc.Punctual s') : Punctual s' := by
  have hself : s'.readings t = s.readings t ++ [now] := by
    simp [readings, hst]
  refine ⟨?_, hpc, ?_⟩
  · intro v
    by_cases hv : v = t
    · subst hv
      have htask := hi.tasks v
      refine ⟨by rw [ha, hd, hint]; exact htask.accepted, ?_, ?_⟩
      · rw [hself, ha, hd, hint]
        intro r hr
        rcases List.mem_append.mp hr with hr | hr
        · exact htask.started r hr
        · rw [List.mem_singleton.mp hr]
          exact ⟨hdue.accepted, hdue.next⟩
      · rw [hself, hint]
        intro hpos
        refine List.pairwise_append.mpr ⟨htask.apart hpos, by simp, ?_⟩
        intro r hr r' hr'
        rw [List.mem_singleton.mp hr']
        exact hdue.started hpos r hr
    · refine (hi.tasks v).same ⟨congrFun hd v, congrFun hint v, fun n how h => by rwa [ha] at h, ?_⟩
      simp [readings, hst, Ne.symm hv]
  · intro c
    rw [hc]
    exact (hi.clients c).same fun t _ => ⟨congrFun hd t, congrFun hint t⟩

variable {i : Input}

theorem Punctual.run (hi : Punctual s) {t : T} {now : TimeValue} {p p' : TaskBase.RunPC} {b : TaskBase Cl}
    (hpc : s.pc = .run t now p) (hr : (s.base t).run p i.exit = some (b, p')) :
    Punctual { (s.setBase t b).goto (.run t now p') with
      record := if p' = .doRun then { s.record with started := s.record.started ++ [(t, now)] } else s.record } := by
  have ht := hi.timer
  rw [hpc] at ht
  rcases run_starts hr with ⟨rfl, rfl⟩ | ⟨rfl, rfl, hf⟩ | ⟨h1, h2, h3⟩
  · exact hi.start ht rfl rfl rfl rfl rfl trivial
  · have hdue : Due s t now := by
      rcases ht with ht | ht
      · exact ht
      · rw [hf] at ht
        cases ht
    exact hi.quiet (fun t => .of_eq rfl rfl rfl rfl) (hdue.same (.of_eq rfl rfl rfl rfl))
      fun c => Or.inl rfl
  · rw [if_neg h3]
    refine hi.quiet (fun t => .of_eq rfl rfl rfl rfl) ?_ fun c => Or.inl rfl
    cases p' with
    | checkCancellation => exact absurd rfl h1
    | setRunning => exact absurd rfl h2
    | _ => trivial

theorem Punctual.timerStep (hi : Punctual s) (hok : Timely s (.timer i)) (honce : Once ClientPC.pushes s)
    (hb : Booked s)
    (ho : Ordered s) (hint : Intervals s) (hreq : Requests s) (h : TimerStep heap i s s') : Punctual s' := by
  have ht := hi.timer
  have hquiet : ∀ s' : SharedTimer Cl T, (∀ t, Same s s' t) → s'.pc.Punctual s' → s'.client = s.client → Punctual s' :=
    fun s' hs hp hc => hi.quiet hs hp fun c => Or.inl (congrFun hc c)
  cases h with
  | move hpc hm => exact hi.move ho hpc hm
  | setDeadline hpc =>
    have hfit : s.pc.Fits := hok.2
    exact hi.rearm honce hb hpc (hfit _ (by rw [hpc]; rfl))
  | run hpc hr => exact hi.run hpc hr
  | again hpc =>
    rw [hpc] at ht
    exact hquiet _ (fun t => .of_eq rfl rfl rfl rfl) (Or.inl (Due.same ht (.of_eq rfl rfl rfl rfl))) rfl
  | @start t now hpc =>
    rw [hpc] at ht
    have ht : (PC.run t now .checkCancellation).Punctual s := ht
    exact hquiet _ (fun t => .of_eq rfl rfl rfl rfl) (ht.same (fun t _ => .of_eq rfl rfl rfl rfl) fun t hf => hf) rfl
  | @popMin t why u rest hpc =>
    rw [hpc] at ht
    cases why with
    | cancelled => exact hquiet _ (fun t => .of_eq rfl rfl rfl rfl) trivial rfl
    | requested now =>
      exact hquiet _ (fun t => .of_eq rfl rfl rfl rfl) (Or.inr (hreq.popped t _ hpc (by simp))) rfl
    | due now =>
      have hnone := hint.due t now hpc
      have hle : (s.deadline t).toNat ≤ now.toNat := UInt64.le_iff_toNat_le.mp ht
      refine hquiet _ (fun t => .of_eq rfl rfl rfl rfl) (Or.inl ⟨?_, ?_, ?_⟩) rfl
      · intro n how ha
        exact ((hi.tasks t).accepted n how ha).1.trans hle
      · exact fun hpos => absurd hpos hnone
      · exact fun hpos => absurd hpos hnone
  | _ => exact hquiet _ (fun t => .of_eq rfl rfl rfl rfl) trivial rfl

/-! ### The clients -/

/-- A task that has not been accepted has promised nothing, and was not started. -/
theorem Booked.readings_nil (hb : Booked s) {t : T} (ht : t ∉ s.acceptedTasks) : s.readings t = [] := by
  simp only [readings, List.map_eq_nil_iff, List.filter_eq_nil_iff, decide_eq_true_eq]
  rintro x hx rfl
  exact ht (hb.started x hx)

omit [DecidableEq T] in
theorem mem_acceptedTasks {t : T} {n : TimeValue} {how : Submission} (h : (t, n, how) ∈ s.record.accepted) :
    t ∈ s.acceptedTasks := List.mem_map_of_mem h

/-- What is promised at once is kept, and a task without starts keeps the rest. -/
theorem OnTime.of_readings_nil {t : T} (hr : s.readings t = [])
    (ha : ∀ n how, (t, n, how) ∈ s.record.accepted → how.earliest n ≤ (s.deadline t).toNat ∧
      ∀ p b, how = .every p b → s.interval t = p) : OnTime s t := by
  refine ⟨ha, ?_, ?_⟩
  · intro r hr'
    rw [hr] at hr'
    cases hr'
  · intro _
    rw [hr]
    exact List.Pairwise.nil

variable [DecidableEq Cl] {c : Cl}

/-- A client does not take a request back. -/
theorem ClientStep.requested (h : ClientStep heap c i s s') (t : T) (hf : (s.base t).isRequestCancel = true) :
    (s'.base t).isRequestCancel = true := by
  have hset : ∀ (u : T) (b : TaskBase Cl), ((s.base u).isRequestCancel = true → b.isRequestCancel = true) →
      (Function.update s.base u b t).isRequestCancel = true := by
    intro u b hb
    by_cases htu : t = u
    · subst htu
      rw [Function.update_self]
      exact hb hf
    · rwa [Function.update_of_ne htu]
  cases h with
  | runTask _ hr => exact hset _ _ fun hb => by rw [TaskBase.run_isRequestCancel hr]; exact hb
  | cancelTask _ hr => exact hset _ _ (TaskBase.cancel_keeps hr).2
  | _ => exact hf

/-- `c` does nothing to a task but to go on with its call. -/
theorem Punctual.update (hi : Punctual s) {pc : ClientPC T} (hc : s'.client = Function.update s.client c pc)
    (hpc : pc.Punctual s') (hsame : ∀ t, Same s s' t) (hp : s'.pc = s.pc)
    (hf : ∀ t, (s.base t).isRequestCancel = true → (s'.base t).isRequestCancel = true) : Punctual s' := by
  refine hi.quiet hsame (by rw [hp]; exact hi.timer.same (fun t _ => hsame t) hf) ?_
  intro d
  rw [hc]
  by_cases hdc : d = c
  · rw [hdc, Function.update_self]
    exact Or.inr hpc
  · exact Or.inl (Function.update_of_ne hdc _ _)

/-- `c` writes the deadline or the interval of its task `t`, or has it accepted. -/
theorem Punctual.own (hi : Punctual s) (ho : Once ClientPC.pushes s) (hb : Booked s) {t : T} {pc : ClientPC T}
    (ht : (s.client c).pushes = some t) (hc : s'.client = Function.update s.client c pc) (hpc : pc.Punctual s')
    (hsame : ∀ u, u ≠ t → Same s s' u) (hself : OnTime s' t) (hp : s'.pc = s.pc) (hbase : s'.base = s.base) :
    Punctual s' := by
  refine ⟨?_, ?_, ?_⟩
  · intro u
    by_cases hu : u = t
    · rw [hu]
      exact hself
    · exact (hi.tasks u).same (hsame u hu)
  · rw [hp]
    refine hi.timer.same (fun u hu => hsame u (ho.ne_task hb ht hu)) ?_
    rw [hbase]
    exact fun _ hf => hf
  · intro d
    rw [hc]
    by_cases hdc : d = c
    · rw [hdc, Function.update_self]
      exact hpc
    · rw [Function.update_of_ne hdc]
      refine (hi.clients d).same fun u hu => ?_
      have hut : u ≠ t := by
        rintro rfl
        exact hdc (ho.one d c u hu ht)
      exact ⟨(hsame u hut).deadline, (hsame u hut).interval⟩

theorem Punctual.clientStep (hi : Punctual s) (hok : Timely s (.client c i)) (ho : Once ClientPC.pushes s)
    (hb : Booked s) (h : ClientStep heap c i s s') : Punctual s' := by
  have hf := h.requested
  cases h with
  | @setDeadline t how now pc' hpc hhow =>
    have ht : (s.client c).pushes = some t := by rw [hpc]; rfl
    have hfresh := ho.fresh c t ht
    have hfit : how.earliest now < UInt64.size := by
      have h := hok.2
      simpa only [hpc, ClientPC.Fits] using h
    have hdl : how.earliest now ≤ (Function.update s.deadline t (how.deadline now) t).toNat := by
      rw [Function.update_self, Submission.toNat_deadline hfit]
    refine hi.own ho hb ht rfl ?_ (fun u hu => ⟨Function.update_of_ne hu _ _, rfl, fun _ _ ha => ha, rfl⟩) ?_ rfl rfl
    · rcases hhow with ⟨rfl, d, rfl⟩ | ⟨p, b, rfl, rfl⟩
      · exact ⟨hdl, fun p b hp => by cases hp⟩
      · exact ⟨hdl, b, rfl⟩
    · exact .of_readings_nil (hb.readings_nil hfresh) fun n how ha => absurd (mem_acceptedTasks ha) hfresh
  | @setInterval t how now interval hpc =>
    have ht : (s.client c).pushes = some t := by rw [hpc]; rfl
    have hfresh := ho.fresh c t ht
    have hown := hi.clients c
    rw [hpc] at hown
    obtain ⟨hdl, b, rfl⟩ := hown
    refine hi.own ho hb ht rfl ?_ (fun u hu => ⟨rfl, Function.update_of_ne hu _ _, fun _ _ ha => ha, rfl⟩) ?_ rfl rfl
    · refine ⟨hdl, ?_⟩
      intro p b' hp
      cases hp
      exact Function.update_self _ _ _
    · exact .of_readings_nil (hb.readings_nil hfresh) fun n how ha => absurd (mem_acceptedTasks ha) hfresh
  | @pushTask t how now hpc =>
    have ht : (s.client c).pushes = some t := by rw [hpc]; rfl
    have hfresh := ho.fresh c t ht
    have hown := hi.clients c
    rw [hpc] at hown
    refine hi.own ho hb ht rfl trivial ?_ ?_ rfl rfl
    · intro u hu
      refine ⟨rfl, rfl, fun n how' ha => ?_, rfl⟩
      rcases List.mem_append.mp ha with ha | ha
      · exact ha
      · cases List.mem_singleton.mp ha
        exact absurd rfl hu
    · refine .of_readings_nil (hb.readings_nil hfresh) fun n how' ha => ?_
      rcases List.mem_append.mp ha with ha | ha
      · exact absurd (mem_acceptedTasks ha) hfresh
      · cases List.mem_singleton.mp ha
        exact hown
  | silent hpc hs =>
    refine hi.update rfl ?_ (fun t => .of_eq rfl rfl rfl rfl) rfl hf
    cases hs <;> trivial
  | cancelAsync hpc =>
    refine hi.update rfl ?_ (fun t => .of_eq rfl rfl rfl rfl) rfl hf
    rcases hpc with ⟨-, rfl⟩ | ⟨_, -, rfl⟩ <;> trivial
  | @clear stop =>
    refine hi.update rfl ?_ (fun t => .of_eq rfl rfl rfl rfl) rfl hf
    cases stop <;> trivial
  | readClock | refuse | stopped | block | runTask | cancelTask =>
    exact hi.update rfl trivial (fun t => .of_eq rfl rfl rfl rfl) rfl hf

theorem Reachable.punctual (h : (system Cl heap).Reachable Timely s) : Punctual s := by
  have hok : ∀ s, (system Cl heap).Reachable Timely s → Once ClientPC.pushes s :=
    fun s h => (Reachable.marked (h.mono fun _ _ hok => hok.1)).once
  refine h.induct (I := Punctual) ?_ ?_
  · refine ⟨fun t => .of_readings_nil rfl fun n how ha => ?_, trivial, fun c => trivial⟩
    cases ha
  · intro s a s' hr hs hst hi
    have ho := hok s hr
    have hb := Reachable.booked hr
    cases step_cases hst with
    | @call c m =>
      cases m <;> exact hi.update (c := c) rfl trivial (fun t => .of_eq rfl rfl rfl rfl) rfl fun _ hf => hf
    | client h => exact hi.clientStep hs ho hb h
    | timer h =>
      exact hi.timerStep hs ho hb (Reachable.ordered hok hr) (Reachable.intervals hok hr) (Reachable.requests hok hr) h
    | wake w =>
      refine hi.quiet ?_ ?_ ?_
      · intro t
        cases w <;> exact .of_eq rfl rfl rfl rfl
      · cases w with
        | timer | thread => exact hi.timer.same (fun t _ => .of_eq rfl rfl rfl rfl) fun _ hf => hf
        | task u d =>
          refine hi.timer.same (fun t _ => .of_eq rfl rfl rfl rfl) fun t hf => ?_
          by_cases htu : t = u
          · subst htu
            simpa [wakeStep, setBase] using hf
          · simpa [wakeStep, setBase, Function.update_of_ne htu] using hf
      · intro c
        cases w <;> exact Or.inl rfl

/-- **A timer never fires early**, when no sum wraps and the submissions of a task do not race. -/
theorem never_early (h : (system Cl heap).Reachable Timely s) (t : T) (n : TimeValue) :
    (∀ d, (t, n, .later d) ∈ s.record.accepted → ∀ r ∈ s.readings t, n.toNat + d.toNat ≤ r.toNat) ∧
    (∀ p, (t, n, .every p false) ∈ s.record.accepted → ∀ r ∈ s.readings t, n.toNat + p.toNat ≤ r.toNat) ∧
    (∀ p b, (t, n, .every p b) ∈ s.record.accepted → 0 < p →
      (s.readings t).Pairwise fun r r' => r.toNat + p.toNat ≤ r'.toNat) := by
  have hi := (Reachable.punctual h).tasks t
  refine ⟨?_, ?_, ?_⟩
  · intro d ha r hr
    exact (hi.started r hr).1 n _ ha
  · intro p ha r hr
    exact (hi.started r hr).1 n _ ha
  · intro p b ha hp
    have hint := (hi.accepted n _ ha).2 p b rfl
    rw [← hint] at hp ⊢
    exact hi.apart hp

end Punctual

/-! ## Runs -/

section Evaluated

instance (pc : ClientPC T) : Decidable pc.Fits := match pc with
  | .setDeadline _ how now => inferInstanceAs (Decidable (how.earliest now < UInt64.size))
  | .idle | .getCurrentTime _ _ | .isRequestCancel _ _ _ | .getDeadline _ _ _ | .setInterval _ _ _ _ | .pushTask _ _ _
  | .cancelAsync _ | .clear _ | .cancelThread | .waitThread | .blockedThread | .runTask _ _ | .cancelTask _ _ _ =>
    isTrue trivial

instance (pc : PC T) : Decidable pc.Fits :=
  Option.decidableForallMem (p := fun x : TimeValue × TimeValue => x.1.toNat + x.2.toNat < UInt64.size) pc.rearms

instance [Fintype Cl] (s : SharedTimer Cl T) (a : Action Cl T) : Decidable (Timely s a) := match a with
  | .client c i => inferInstanceAs (Decidable (Exclusive s (.client c i) ∧ (s.client c).Fits))
  | .timer i => inferInstanceAs (Decidable (Exclusive s (.timer i) ∧ s.pc.Fits))
  | .call c m => inferInstanceAs (Decidable (Exclusive s (.call c m) ∧ True))
  | .wake w => inferInstanceAs (Decidable (Exclusive s (.wake w) ∧ True))

end Evaluated

/-- The clock does not go back. -/
def Clocked (s : SharedTimer Cl T) : Action Cl T → Prop
  | .client _ i | .timer i => s.record.clock ≤ i.now
  | _ => True

instance (s : SharedTimer Cl T) (a : Action Cl T) : Decidable (Clocked s a) := match a with
  | .client _ i | .timer i => inferInstanceAs (Decidable (s.record.clock ≤ i.now))
  | .call _ _ | .wake _ => isTrue trivial

/-- Two turns with an interval task. -/
theorem never_early_run : ∃ s : SharedTimer Unit Unit, s.readings () = [20, 26] ∧
    (∀ r ∈ s.readings (), 15 ≤ r.toNat) ∧ (s.readings ()).Pairwise fun r r' => r.toNat + 5 ≤ r'.toNat := by
  obtain ⟨s, hs, hp⟩ := System.reachable_of_exec (system Unit (binaryHeap Unit Nat)) Timely
    ([.call () (.submit () (.every 5 false))] ++ List.replicate 6 (.client () ⟨.ret, 10⟩) ++
      List.replicate 22 (.timer ⟨.ret, 20⟩) ++ List.replicate 18 (.timer ⟨.ret, 26⟩))
    (fun s => s.readings () == [20, 26] && decide (((), 10, .every 5 false) ∈ s.record.accepted)) (by decide)
  simp only [Bool.and_eq_true, beq_iff_eq, decide_eq_true_eq] at hp
  exact ⟨s, hp.1, (never_early hs () 10).2.1 5 hp.2, (never_early hs () 10).2.2 5 false hp.2 (by decide)⟩

/-- **A timer fires early** when the sum of the clock and the delay wraps. -/
theorem fires_early : ∃ (s : SharedTimer Unit Unit) (n d r : TimeValue),
    (system Unit (binaryHeap Unit Nat)).Reachable Clocked s ∧ ((), n, .later d) ∈ s.record.accepted ∧
    r ∈ s.readings () ∧ r.toNat < n.toNat + d.toNat := by
  obtain ⟨s, hs, hp⟩ := System.reachable_of_exec (system Unit (binaryHeap Unit Nat)) Clocked
    ([.call () (.submit () (.later 18446744073709551615))] ++ List.replicate 5 (.client () ⟨.ret, 10⟩) ++
      List.replicate 16 (.timer ⟨.ret, 10⟩))
    (fun s => decide (((), 10, .later 18446744073709551615) ∈ s.record.accepted) && s.readings () == [10]) (by decide)
  simp only [Bool.and_eq_true, beq_iff_eq, decide_eq_true_eq] at hp
  exact ⟨s, 10, 18446744073709551615, 10, hs, hp.1, by rw [hp.2]; simp, by decide⟩

end SharedTimer

end Tpool
