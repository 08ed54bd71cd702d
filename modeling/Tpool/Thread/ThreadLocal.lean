import Mathlib.Data.Fintype.Basic
import Mathlib.Data.List.Perm.Basic
import Mathlib.Logic.Function.Basic
import Tpool.Concurrency.System

/-!
# ThreadLocal

- `ThreadLocal`: the value of each thread under the key, whether the key exists, and who is where in `GetPointer`, in
  the destructor, and in the exit of a thread, which runs `DestroyThreadData` on the value while the key exists.
- `Reachable.owned`: a thread is given its own object and no other, and no object is deallocated twice or while its
  thread may use it, in every run.
- `owns_once`: nor is one left, in the runs in which only the destroying thread has a value when the key is deleted.
  `untimely_leaks`: otherwise one is. `outlived_leaks` is a run where it is.
-/

namespace Tpool

open Concurrency

/-- Where a thread is. Objects are numbered as they are allocated. -/
inductive ThreadLocal.PC
  | idle
  | allocate
  | setspecific (obj : ℕ)
  | deallocate (obj : ℕ)
  | keyDelete
  | destroyed
  | destroyThreadData (obj : ℕ)
  | exited
  deriving DecidableEq

/-- `value` is `pthread_getspecific`, `allocated` says which thread has allocated each object, `deallocated` are the
calls of `ThreadLocalDeallocate`, and `returned` what `GetPointer` has returned to whom. -/
structure ThreadLocal (Tid : Type*) where
  value : Tid → Option ℕ
  keyExists : Bool
  destructorCalled : Bool
  pc : Tid → ThreadLocal.PC
  allocated : List Tid
  deallocated : List ℕ
  returned : List (Tid × ℕ)

namespace ThreadLocal

variable {Tid : Type*}

/-- A thread calls `GetPointer` or the destructor, begins to exit, or takes a step in what it has called. -/
inductive Action (Tid : Type*)
  | getPointer (t : Tid)
  | destroy (t : Tid)
  | exit (t : Tid)
  | step (t : Tid)

section Step

variable [DecidableEq Tid]

def goto (s : ThreadLocal Tid) (t : Tid) (pc : PC) : ThreadLocal Tid := { s with pc := Function.update s.pc t pc }

/-- `GetPointer` has found no object, `~ThreadLocal` has read the value, or the destructor of the key runs. -/
def threadStep (s : ThreadLocal Tid) (t : Tid) : Option (ThreadLocal Tid) :=
  match s.pc t with
  | .allocate =>
    if s.keyExists then some { s.goto t (.setspecific s.allocated.length) with allocated := s.allocated ++ [t] }
    else none
  | .setspecific obj =>
    if s.keyExists then
      some { s.goto t .idle with value := Function.update s.value t (some obj), returned := s.returned ++ [(t, obj)] }
    else none
  | .deallocate obj => some { s.goto t .keyDelete with deallocated := s.deallocated ++ [obj] }
  | .keyDelete => some { s.goto t .destroyed with keyExists := false }
  | .destroyThreadData obj => some { s.goto t .exited with deallocated := s.deallocated ++ [obj] }
  | .idle | .destroyed | .exited => none

/-- How `~ThreadLocal` begins. -/
def destructor : Option ℕ → PC
  | some obj => .deallocate obj
  | none => .keyDelete

/-- A thread that has used the object may exit. -/
def PC.mayExit : PC → Bool
  | .idle | .destroyed => true
  | _ => false

theorem PC.mayExit_iff {pc : PC} : pc.mayExit = true ↔ pc = .idle ∨ pc = .destroyed := by
  cases pc <;> simp [mayExit]

/-- No thread uses the object after its destruction. A thread that exits loses its value before `DestroyThreadData` is
called with it. -/
def step (s : ThreadLocal Tid) : Action Tid → Option (ThreadLocal Tid)
  | .getPointer t =>
    if s.pc t = .idle ∧ s.keyExists then match s.value t with
      | some obj => some { s with returned := s.returned ++ [(t, obj)] }
      | none => some (s.goto t .allocate)
    else none
  | .destroy t =>
    if s.pc t = .idle ∧ s.destructorCalled = false then
      some { s.goto t (destructor (s.value t)) with destructorCalled := true }
    else none
  | .exit t =>
    if (s.pc t).mayExit then match s.keyExists, s.value t with
      | true, some obj => some { s.goto t (.destroyThreadData obj) with value := Function.update s.value t none }
      | _, _ => some (s.goto t .exited)
    else none
  | .step t => s.threadStep t

variable (Tid) in
/-- A new `ThreadLocal`. -/
def system : System (ThreadLocal Tid) (Action Tid) where
  init := ⟨fun _ => none, true, false, fun _ => .idle, [], [], []⟩
  step := step

end Step

/-! ## The steps -/

section Steps

variable [DecidableEq Tid] {s s' : ThreadLocal Tid} {t : Tid} {a : Action Tid}

/-- What a step of the thread `t` does. -/
inductive Step (s : ThreadLocal Tid) (t : Tid) : ThreadLocal Tid → Prop
  | read (obj : ℕ) (hpc : s.pc t = .idle) (hv : s.value t = some obj) :
    Step s t { s.goto t .idle with returned := s.returned ++ [(t, obj)] }
  | null (hpc : s.pc t = .idle) (hkey : s.keyExists = true) (hv : s.value t = none) : Step s t (s.goto t .allocate)
  | allocate (hpc : s.pc t = .allocate) :
    Step s t { s.goto t (.setspecific s.allocated.length) with allocated := s.allocated ++ [t] }
  | setspecific (obj : ℕ) (hpc : s.pc t = .setspecific obj) (hkey : s.keyExists = true) : Step s t { s.goto t .idle with
      value := Function.update s.value t (some obj), returned := s.returned ++ [(t, obj)] }
  | destroy (hpc : s.pc t = .idle) (hcalled : s.destructorCalled = false) :
    Step s t { s.goto t (destructor (s.value t)) with destructorCalled := true }
  | deallocate (obj : ℕ) (hpc : s.pc t = .deallocate obj) :
    Step s t { s.goto t .keyDelete with deallocated := s.deallocated ++ [obj] }
  | keyDelete (hpc : s.pc t = .keyDelete) : Step s t { s.goto t .destroyed with keyExists := false }
  | exit (obj : ℕ) (hpc : (s.pc t).mayExit = true) (hkey : s.keyExists = true) (hv : s.value t = some obj) :
    Step s t { s.goto t (.destroyThreadData obj) with value := Function.update s.value t none }
  | destroyThreadData (obj : ℕ) (hpc : s.pc t = .destroyThreadData obj) :
    Step s t { s.goto t .exited with deallocated := s.deallocated ++ [obj] }
  | leave (hpc : (s.pc t).mayExit = true) (hv : s.keyExists = true → s.value t = none) : Step s t (s.goto t .exited)

theorem threadStep_cases (h : s.threadStep t = some s') : Step s t s' := by
  unfold threadStep at h
  cases hpc : s.pc t with
  | allocate =>
    simp only [hpc] at h
    split at h <;> cases h
    exact .allocate hpc
  | setspecific obj =>
    simp only [hpc] at h
    split at h <;> cases h
    exact .setspecific obj hpc ‹_›
  | deallocate obj => simp only [hpc, Option.some.injEq] at h; subst h; exact .deallocate obj hpc
  | keyDelete => simp only [hpc, Option.some.injEq] at h; subst h; exact .keyDelete hpc
  | destroyThreadData obj => simp only [hpc, Option.some.injEq] at h; subst h; exact .destroyThreadData obj hpc
  | idle | destroyed | exited => simp [hpc] at h

theorem goto_self (h : s.pc t = .idle) : s.goto t .idle = s := by
  rw [goto, ← h, Function.update_eq_self]

/-- A thread that deletes the key does it in a step of its own. -/
theorem step_cases (h : s.step a = some s') : ∃ t, Step s t s' ∧ (s.pc t = .keyDelete → a = .step t) := by
  cases a with
  | getPointer t =>
    simp only [step] at h
    split at h
    · rename_i hif
      refine ⟨t, ?_, fun hpc => by simp [hpc] at hif⟩
      cases hv : s.value t with
      | none => simp only [hv, Option.some.injEq] at h; subst h; exact .null hif.1 hif.2 hv
      | some obj =>
        simp only [hv, Option.some.injEq] at h
        have hstep := Step.read obj hif.1 hv
        rwa [goto_self hif.1, h] at hstep
    · cases h
  | destroy t =>
    simp only [step] at h
    split at h <;> cases h
    rename_i hif
    exact ⟨t, .destroy hif.1 hif.2, fun hpc => by simp [hpc] at hif⟩
  | exit t =>
    simp only [step] at h
    split at h
    · rename_i hif
      refine ⟨t, ?_, fun hpc => by simp [hpc, PC.mayExit] at hif⟩
      split at h
      · cases h
        exact .exit _ hif ‹_› ‹_›
      · rename_i hnot
        cases h
        refine .leave hif fun hkey => ?_
        cases hv : s.value t with
        | none => rfl
        | some obj => exact absurd hv (hnot obj hkey)
    · cases h
  | step t => exact ⟨t, threadStep_cases h, fun _ => rfl⟩

end Steps

/-! ## Who owns what -/

def Alive (s : ThreadLocal Tid) (own : Option ℕ) : Prop := ∀ obj, own = some obj → obj ∉ s.deallocated

def Dead (s : ThreadLocal Tid) (own : Option ℕ) : Prop := ∀ obj, own = some obj → obj ∈ s.deallocated

/-- Where the object `own` of the thread `t` is. A thread that exits when the key is gone takes its value along. -/
def PC.Holds (s : ThreadLocal Tid) (t : Tid) (own : Option ℕ) : PC → Prop
  | .idle => s.value t = own ∧ s.Alive own
  | .allocate => s.value t = none ∧ own = none
  | .setspecific obj | .destroyThreadData obj => s.value t = none ∧ own = some obj ∧ s.Alive own
  | .deallocate obj => s.value t = some obj ∧ own = some obj ∧ s.Alive own
  | .keyDelete => s.value t = own ∧ s.Dead own
  | .destroyed => s.value t = own ∧ s.Dead own ∧ s.keyExists = false
  | .exited => s.value t = none ∧ s.Dead own ∨ s.value t = own ∧ s.keyExists = false

/-- `own` is the one object that the thread has allocated, if any. -/
def Owns (s : ThreadLocal Tid) (t : Tid) (own : Option ℕ) : Prop := ∀ obj, s.allocated[obj]? = some t ↔ own = some obj

/-- What holds of a thread. -/
def Keeps (s : ThreadLocal Tid) (t : Tid) : Prop := ∃ own, s.Owns t own ∧ (s.pc t).Holds s t own

/-- What holds in every run. -/
structure Owned (s : ThreadLocal Tid) : Prop where
  keeps : ∀ t, s.Keeps t
  returned : ∀ t obj, (t, obj) ∈ s.returned → s.allocated[obj]? = some t
  once : s.deallocated.Nodup
  allocated : ∀ obj ∈ s.deallocated, obj < s.allocated.length

section Owned

variable [DecidableEq Tid] {s s' : ThreadLocal Tid} {t u : Tid} {own : Option ℕ}
  {ok : ThreadLocal Tid → Action Tid → Prop}

omit [DecidableEq Tid] in
/-- A step that does nothing to the thread and to its object. -/
theorem Keeps.frame (hi : s.Keeps t) (hpc : s'.pc t = s.pc t) (hv : s'.value t = s.value t)
    (hkey : s.keyExists = false → s'.keyExists = false)
    (ha : ∀ obj : ℕ, s'.allocated[obj]? = some t ↔ s.allocated[obj]? = some t)
    (hd : ∀ obj : ℕ, s.allocated[obj]? = some t → (obj ∈ s'.deallocated ↔ obj ∈ s.deallocated)) : s'.Keeps t := by
  obtain ⟨own, hown, hh⟩ := hi
  have halive : s.Alive own → s'.Alive own := fun h obj hobj => (hd obj ((hown obj).mpr hobj)).not.mpr (h obj hobj)
  have hdead : s.Dead own → s'.Dead own := fun h obj hobj => (hd obj ((hown obj).mpr hobj)).mpr (h obj hobj)
  refine ⟨own, fun obj => (ha obj).trans (hown obj), ?_⟩
  rw [hpc]
  cases hs : s.pc t with
  | allocate =>
    rw [hs] at hh
    exact ⟨hv.trans hh.1, hh.2⟩
  | idle =>
    rw [hs] at hh
    exact ⟨hv.trans hh.1, halive hh.2⟩
  | setspecific obj | destroyThreadData obj | deallocate obj =>
    rw [hs] at hh
    exact ⟨hv.trans hh.1, hh.2.1, halive hh.2.2⟩
  | keyDelete =>
    rw [hs] at hh
    exact ⟨hv.trans hh.1, hdead hh.2⟩
  | destroyed =>
    rw [hs] at hh
    exact ⟨hv.trans hh.1, hdead hh.2.1, hkey hh.2.2⟩
  | exited =>
    rw [hs] at hh
    exact hh.imp (fun h => ⟨hv.trans h.1, hdead h.2⟩) fun h => ⟨hv.trans h.1, hkey h.2⟩

omit [DecidableEq Tid] in
theorem getElem?_snoc {l : List Tid} {obj : ℕ} :
    (l ++ [t])[obj]? = some u ↔ l[obj]? = some u ∨ obj = l.length ∧ t = u := by
  rcases lt_trichotomy obj l.length with h | rfl | h
  · rw [List.getElem?_append_left h]
    simp [h.ne]
  · simp
  · rw [List.getElem?_eq_none (by simp; omega), List.getElem?_eq_none h.le]
    simp [h.ne']

/-- The object that a thread is about to deallocate is its own, and is there. -/
def PC.dooms : PC → Option ℕ
  | .deallocate obj | .destroyThreadData obj => some obj
  | _ => none

omit [DecidableEq Tid] in
theorem Keeps.dooms (hi : s.Keeps t) {obj : ℕ} (h : (s.pc t).dooms = some obj) :
    s.allocated[obj]? = some t ∧ obj ∉ s.deallocated := by
  obtain ⟨own, hown, hh⟩ := hi
  cases hs : s.pc t with
  | deallocate obj' | destroyThreadData obj' =>
    rw [hs] at h hh
    obtain rfl := Option.some.inj h
    exact ⟨(hown obj').mpr hh.2.1, hh.2.2 obj' hh.2.1⟩
  | idle | allocate | setspecific obj' | keyDelete | destroyed | exited => rw [hs] at h; cases h

/-- A step leaves the other threads alone. -/
theorem Keeps.others (hi : ∀ t, s.Keeps t) (h : Step s t s') (hu : u ≠ t) : s'.Keeps u := by
  have hk := hi u
  have hother : ∀ obj, (s.pc t).dooms = some obj → ∀ obj', s.allocated[obj']? = some u →
      (obj' ∈ s.deallocated ++ [obj] ↔ obj' ∈ s.deallocated) := by
    intro obj hobj obj' hu'
    have hne : obj' ≠ obj := by
      rintro rfl
      exact hu (Option.some.inj (hu'.symm.trans ((hi t).dooms hobj).1))
    simp [hne]
  cases h with
  | read obj hpc hv => exact hk.frame (by simp [goto, hu]) rfl id (fun _ => Iff.rfl) fun _ _ => Iff.rfl
  | null hpc hkey hv => exact hk.frame (by simp [goto, hu]) rfl id (fun _ => Iff.rfl) fun _ _ => Iff.rfl
  | allocate hpc =>
    refine hk.frame (by simp [goto, hu]) rfl id (fun obj => ?_) fun _ _ => Iff.rfl
    rw [getElem?_snoc]
    simp [Ne.symm hu]
  | setspecific obj hpc hkey =>
    exact hk.frame (by simp [goto, hu]) (by simp [hu]) id (fun _ => Iff.rfl) fun _ _ => Iff.rfl
  | destroy hpc hcalled => exact hk.frame (by simp [goto, hu]) rfl id (fun _ => Iff.rfl) fun _ _ => Iff.rfl
  | deallocate obj hpc =>
    exact hk.frame (by simp [goto, hu]) rfl id (fun _ => Iff.rfl) (hother obj (by rw [hpc]; rfl))
  | keyDelete hpc =>
    exact hk.frame (by simp [goto, hu]) rfl (fun _ => rfl) (fun _ => Iff.rfl) fun _ _ => Iff.rfl
  | exit obj hpc hkey hv =>
    exact hk.frame (by simp [goto, hu]) (by simp [hu]) id (fun _ => Iff.rfl) fun _ _ => Iff.rfl
  | destroyThreadData obj hpc =>
    exact hk.frame (by simp [goto, hu]) rfl id (fun _ => Iff.rfl) (hother obj (by rw [hpc]; rfl))
  | leave hpc hv => exact hk.frame (by simp [goto, hu]) rfl id (fun _ => Iff.rfl) fun _ _ => Iff.rfl

/-- What a step does to the thread that takes it. -/
theorem Keeps.self (hi : s.Keeps t) (h : Step s t s') (hnew : ∀ obj ∈ s.deallocated, obj < s.allocated.length) :
    s'.Keeps t := by
  have hk := hi
  obtain ⟨own, hown, hh⟩ := hi
  cases h with
  | read obj hpc hv =>
    rw [goto_self hpc]
    exact hk
  | null hpc hkey hv =>
    rw [hpc] at hh
    obtain ⟨rfl, -⟩ := hh
    refine ⟨_, hown, ?_⟩
    simp [goto, PC.Holds, hv]
  | allocate hpc =>
    rw [hpc] at hh
    obtain ⟨hv, rfl⟩ := hh
    refine ⟨some s.allocated.length, fun obj => ?_, ?_⟩
    · rw [getElem?_snoc, hown obj]
      simp [eq_comm]
    · simp only [goto, PC.Holds, Function.update_self]
      refine ⟨hv, trivial, ?_⟩
      rintro obj ⟨⟩ hdead
      exact absurd (hnew _ hdead) (lt_irrefl _)
  | setspecific obj hpc hkey =>
    rw [hpc] at hh
    obtain ⟨-, rfl, halive⟩ := hh
    refine ⟨_, hown, ?_⟩
    simp only [goto, PC.Holds, Function.update_self]
    exact ⟨trivial, halive⟩
  | destroy hpc hcalled =>
    rw [hpc] at hh
    obtain ⟨hv, halive⟩ := hh
    refine ⟨_, hown, ?_⟩
    simp only [goto, Function.update_self, hv]
    cases own with
    | none => exact ⟨hv, nofun⟩
    | some obj => exact ⟨hv, rfl, halive⟩
  | deallocate obj hpc =>
    rw [hpc] at hh
    obtain ⟨hv, rfl, -⟩ := hh
    refine ⟨_, hown, ?_⟩
    simp only [goto, PC.Holds, Function.update_self]
    refine ⟨hv, ?_⟩
    rintro obj ⟨⟩
    exact List.mem_append_right _ (List.mem_singleton_self obj)
  | keyDelete hpc =>
    rw [hpc] at hh
    refine ⟨_, hown, ?_⟩
    simp only [goto, PC.Holds, Function.update_self]
    exact ⟨hh.1, hh.2, trivial⟩
  | exit obj hpc hkey hv =>
    rcases PC.mayExit_iff.mp hpc with hpc | hpc
    · rw [hpc] at hh
      obtain ⟨hv', halive⟩ := hh
      obtain rfl := hv'.symm.trans hv
      refine ⟨_, hown, ?_⟩
      simp only [goto, PC.Holds, Function.update_self]
      exact ⟨trivial, trivial, halive⟩
    · rw [hpc] at hh
      rw [hh.2.2] at hkey
      cases hkey
  | destroyThreadData obj hpc =>
    rw [hpc] at hh
    obtain ⟨hv, rfl, -⟩ := hh
    refine ⟨_, hown, ?_⟩
    simp only [goto, PC.Holds, Function.update_self]
    refine Or.inl ⟨hv, ?_⟩
    rintro obj ⟨⟩
    exact List.mem_append_right _ (List.mem_singleton_self obj)
  | leave hpc hv =>
    refine ⟨own, hown, ?_⟩
    simp only [goto, PC.Holds, Function.update_self]
    rcases PC.mayExit_iff.mp hpc with hpc | hpc
    · rw [hpc] at hh
      obtain ⟨rfl, -⟩ := hh
      cases hkey : s.keyExists with
      | false => exact Or.inr ⟨rfl, rfl⟩
      | true =>
        refine Or.inl ⟨hv hkey, fun obj hobj => ?_⟩
        rw [hv hkey] at hobj
        cases hobj
    · rw [hpc] at hh
      exact Or.inr ⟨hh.1, hh.2.2⟩

theorem Owned.step (hi : s.Owned) (h : Step s t s') : s'.Owned := by
  have hkeeps : ∀ u, s'.Keeps u := fun u => by
    by_cases hu : u = t
    · subst hu
      exact (hi.keeps u).self h hi.allocated
    · exact Keeps.others hi.keeps h hu
  have hdooms : ∀ obj, (s.pc t).dooms = some obj → (s.deallocated ++ [obj]).Nodup ∧
      ∀ o ∈ s.deallocated ++ [obj], o < s.allocated.length := by
    intro obj hobj
    obtain ⟨hown, halive⟩ := (hi.keeps t).dooms hobj
    refine ⟨List.nodup_append.mpr ⟨hi.once, List.nodup_singleton obj, ?_⟩, ?_⟩
    · rintro o ho o' ho' rfl
      rw [List.mem_singleton.mp ho'] at ho
      exact halive ho
    · intro o ho
      rcases List.mem_append.mp ho with ho | ho
      · exact hi.allocated o ho
      · rw [List.mem_singleton.mp ho]
        exact (List.getElem?_eq_some_iff.mp hown).1
  have hreturned : ∀ obj, s.allocated[obj]? = some t → ∀ u o, (u, o) ∈ s.returned ++ [(t, obj)] →
      s.allocated[o]? = some u := by
    intro obj hobj u o hmem
    rcases List.mem_append.mp hmem with hmem | hmem
    · exact hi.returned u o hmem
    · cases List.mem_singleton.mp hmem
      exact hobj
  cases h with
  | read obj hpc hv =>
    obtain ⟨own, hown, hh⟩ := hi.keeps t
    rw [hpc] at hh
    exact ⟨hkeeps, hreturned obj ((hown obj).mpr (hh.1.symm.trans hv)), hi.once, hi.allocated⟩
  | setspecific obj hpc hkey =>
    obtain ⟨own, hown, hh⟩ := hi.keeps t
    rw [hpc] at hh
    exact ⟨hkeeps, hreturned obj ((hown obj).mpr hh.2.1), hi.once, hi.allocated⟩
  | allocate hpc =>
    refine ⟨hkeeps, fun u o hmem => ?_, hi.once, fun o ho => ?_⟩
    · rw [getElem?_snoc]
      exact Or.inl (hi.returned u o hmem)
    · rw [List.length_append]
      exact (hi.allocated o ho).trans_le (Nat.le_add_right _ _)
  | deallocate obj hpc | destroyThreadData obj hpc =>
    obtain ⟨honce, hlt⟩ := hdooms obj (by rw [hpc]; rfl)
    exact ⟨hkeeps, hi.returned, honce, hlt⟩
  | null hpc hkey hv | destroy hpc hcalled | keyDelete hpc | exit obj hpc hkey hv | leave hpc hv =>
    exact ⟨hkeeps, hi.returned, hi.once, hi.allocated⟩

/-- **A thread has one object**, and no object is deallocated twice. -/
theorem Reachable.owned (h : (system Tid).Reachable ok s) : s.Owned := by
  refine h.induct (I := Owned) ⟨fun t => ⟨none, by simp [system, Owns], ?_⟩, by simp [system], List.nodup_nil,
    by simp [system]⟩ fun s a s' _ _ hs hi => ?_
  · exact ⟨rfl, nofun⟩
  · obtain ⟨t, hstep, -⟩ := step_cases hs
    exact hi.step hstep

end Owned

/-! ## When the key is deleted -/

/-- When a thread deletes the key, no other thread has a value: those that had one have begun to exit. -/
def Timely (s : ThreadLocal Tid) : Action Tid → Prop
  | .step t => s.pc t = .keyDelete → ∀ u, u ≠ t → s.value u = none
  | .getPointer _ | .destroy _ | .exit _ => True

instance [Fintype Tid] [DecidableEq Tid] (s : ThreadLocal Tid) : ∀ a, Decidable (s.Timely a)
  | .step t => inferInstanceAs (Decidable (s.pc t = .keyDelete → ∀ u, u ≠ t → s.value u = none))
  | .getPointer _ | .destroy _ | .exit _ => isTrue trivial

/-- When the key is gone, the values left are those of deallocated objects. -/
def Cleared (s : ThreadLocal Tid) : Prop :=
  s.keyExists = false → ∀ t obj, s.value t = some obj → obj ∈ s.deallocated

section Destruction

variable [DecidableEq Tid] {s s' s'' : ThreadLocal Tid} {t u : Tid} {ok : ThreadLocal Tid → Action Tid → Prop}

theorem Cleared.step (hi : s.Cleared) (ho : s.Owned) (h : Step s t s')
    (hok : s.pc t = .keyDelete → ∀ u, u ≠ t → s.value u = none) : s'.Cleared := by
  intro hkey u obj hv
  cases h with
  | keyDelete hpc =>
    by_cases hu : u = t
    · subst hu
      obtain ⟨own, hown, hh⟩ := ho.keeps u
      rw [hpc] at hh
      exact hh.2 obj (hh.1.symm.trans hv)
    · have hnone := (hok hpc u hu).symm.trans hv
      cases hnone
  | setspecific obj' hpc hkey' | exit obj' hpc hkey' hv' =>
    have hgone := hkey'.symm.trans hkey
    cases hgone
  | deallocate obj' hpc | destroyThreadData obj' hpc => exact List.mem_append_left _ (hi hkey u obj hv)
  | read obj' hpc hv' | null hpc hkey' hv' | allocate hpc | destroy hpc hcalled | leave hpc hv' =>
    exact hi hkey u obj hv

omit [DecidableEq Tid] in
/-- What every thread that has exited leaves behind is deallocated. -/
theorem Owned.perm (hi : s.Owned) (hc : s.Cleared) (hkey : s.keyExists = false)
    (hexit : ∀ t ∈ s.allocated, s.pc t = .exited) :
    s.deallocated.Perm (List.range s.allocated.length) := by
  refine (List.perm_ext_iff_of_nodup hi.once List.nodup_range).mpr fun obj => ?_
  rw [List.mem_range]
  refine ⟨hi.allocated obj, fun hlt => ?_⟩
  obtain ⟨own, hown, hh⟩ := hi.keeps s.allocated[obj]
  have hobj : own = some obj := (hown obj).mp (List.getElem?_eq_getElem hlt)
  rw [hexit _ (List.getElem_mem hlt)] at hh
  rcases hh with ⟨-, hdead⟩ | ⟨hv, -⟩
  · exact hdead obj hobj
  · exact hc hkey _ obj (hv.trans hobj)

/-- **`ThreadLocal` owns each value exactly once**, in the runs in which the key is deleted on time: a thread is given
one object, which it has allocated itself and which is there while the thread may use it; when the `ThreadLocal` is
destroyed and the threads have exited, each object has been deallocated once. -/
theorem owns_once (h : (system Tid).Reachable Timely s) :
    (∀ t obj, (t, obj) ∈ s.returned → s.allocated[obj]? = some t ∧ ∀ obj', (t, obj') ∈ s.returned → obj' = obj) ∧
    (∀ t obj, s.pc t = .idle → s.value t = some obj → obj ∉ s.deallocated) ∧
    (s.keyExists = false → (∀ t ∈ s.allocated, s.pc t = .exited) →
      s.deallocated.Perm (List.range s.allocated.length)) := by
  have hi : s.Owned := Reachable.owned h
  have hc : s.Cleared := by
    refine h.induct (I := Cleared) (fun hkey => by simp [system] at hkey) fun s a s' hr hok hs hi => ?_
    obtain ⟨t, hstep, ha⟩ := step_cases hs
    refine hi.step (Reachable.owned hr) hstep fun hpc => ?_
    rw [ha hpc] at hok
    exact hok hpc
  refine ⟨fun t obj hmem => ⟨hi.returned t obj hmem, fun obj' hmem' => ?_⟩, fun t obj hpc hv => ?_, hi.perm hc⟩
  · obtain ⟨own, hown, -⟩ := hi.keeps t
    have hobj := (hown obj).mp (hi.returned t obj hmem)
    exact Option.some.inj (((hown obj').mp (hi.returned t obj' hmem')).symm.trans hobj)
  · obtain ⟨own, hown, hh⟩ := hi.keeps t
    rw [hpc] at hh
    exact hh.2 obj (hh.1.symm.trans hv)

/-- A thread is given an object and exits; the one that destroys the `ThreadLocal` has another. -/
theorem owns_once_run : ∃ s : ThreadLocal (Fin 2), s.allocated = [0, 1] ∧ s.deallocated.Perm [0, 1] := by
  obtain ⟨s, hs, hp⟩ := System.reachable_of_exec (system (Fin 2)) Timely
    [.getPointer 0, .step 0, .step 0, .getPointer 1, .step 1, .step 1, .exit 1, .step 1, .destroy 0, .step 0, .step 0,
      .exit 0]
    (fun s => decide (s.allocated = [0, 1] ∧ s.keyExists = false ∧ ∀ t ∈ s.allocated, s.pc t = .exited)) (by decide)
  obtain ⟨ha, hkey, hexit⟩ := of_decide_eq_true hp
  have hperm := (owns_once hs).2.2 hkey hexit
  rw [ha] at hperm
  exact ⟨s, ha, hperm⟩

/-- **A thread that outlives the `ThreadLocal` leaks its object**: when all have exited, nobody has deallocated it. -/
theorem outlived_leaks : ∃ s : ThreadLocal (Fin 2), (system (Fin 2)).Reachable Anything s ∧ s.keyExists = false ∧
    (∀ t, s.pc t = .exited) ∧ s.allocated.length = 1 ∧ s.deallocated.count 0 = 0 := by
  obtain ⟨s, hs, hp⟩ := System.reachable_of_exec (system (Fin 2)) Anything
    [.getPointer 1, .step 1, .step 1, .destroy 0, .step 0, .exit 1, .exit 0]
    (fun s => decide (s.keyExists = false ∧ (∀ t, s.pc t = .exited) ∧ s.allocated.length = 1 ∧
      s.deallocated.count 0 = 0))
    (by decide)
  exact ⟨s, hs, of_decide_eq_true hp⟩

/-! ## A leak -/

/-- The thread is in `~ThreadLocal`, or has been. -/
def PC.destroys : PC → Bool
  | .deallocate _ | .keyDelete | .destroyed => true
  | _ => false

/-- The thread is in `~ThreadLocal`, and has not yet deleted the key. -/
def PC.deletes : PC → Bool
  | .deallocate _ | .keyDelete => true
  | _ => false

/-- One thread calls `~ThreadLocal`, and deletes the key in it. -/
structure Sole (s : ThreadLocal Tid) : Prop where
  called : ∀ t, (s.pc t).destroys = true → s.destructorCalled = true
  unique : ∀ t u, (s.pc t).destroys = true → (s.pc u).destroys = true → t = u
  deleted : s.keyExists = false → s.destructorCalled = true ∧ ∀ t, (s.pc t).deletes = false

theorem PC.destroys_of_deletes {pc : PC} (h : pc.deletes = true) : pc.destroys = true := by
  cases pc <;> simp_all [deletes, destroys]

/-- A step that brings no thread into `~ThreadLocal`, and none out of it. -/
theorem Sole.move {pc : PC} (hi : s.Sole) (hpc : s'.pc = Function.update s.pc t pc)
    (hcalled : s'.destructorCalled = s.destructorCalled) (hkey : s'.keyExists = s.keyExists)
    (h : pc.destroys = true → (s.pc t).destroys = true) (hd : pc.deletes = true → (s.pc t).deletes = true) :
    s'.Sole := by
  have hold : ∀ u, (s'.pc u).destroys = true → (s.pc u).destroys = true := by
    intro u hu
    rw [hpc] at hu
    by_cases hut : u = t
    · subst hut
      rw [Function.update_self] at hu
      exact h hu
    · rwa [Function.update_of_ne hut] at hu
  refine ⟨fun u hu => hcalled.trans (hi.called u (hold u hu)), fun u v hu hv => hi.unique u v (hold u hu)
      (hold v hv), ?_⟩
  intro hgone
  obtain ⟨hc, hnone⟩ := hi.deleted (hkey.symm.trans hgone)
  refine ⟨hcalled.trans hc, fun u => ?_⟩
  rw [hpc]
  by_cases hut : u = t
  · subst hut
    rw [Function.update_self]
    refine Bool.eq_false_iff.mpr fun hdel => ?_
    have hold := hd hdel
    rw [hnone u] at hold
    cases hold
  · rw [Function.update_of_ne hut]
    exact hnone u

theorem Sole.step (hi : s.Sole) (h : Step s t s') : s'.Sole := by
  cases h with
  | read obj hpc hv | null hpc hkey hv | allocate hpc | setspecific obj hpc hkey | exit obj hpc hkey hv
    | destroyThreadData obj hpc | leave hpc hv =>
    exact hi.move rfl rfl rfl (by simp [PC.destroys]) (by simp [PC.deletes])
  | deallocate obj hpc => exact hi.move rfl rfl rfl (by simp [hpc, PC.destroys]) (by simp [hpc, PC.deletes])
  | keyDelete hpc =>
    have hold : ∀ u, ((s.goto t .destroyed).pc u).destroys = true → (s.pc u).destroys = true := by
      intro u hu
      by_cases hut : u = t
      · rw [hut, hpc]
        rfl
      · simpa [goto, hut] using hu
    refine ⟨fun u hu => hi.called u (hold u hu), fun u v hu hv => hi.unique u v (hold u hu) (hold v hv), fun _ => ?_⟩
    refine ⟨hi.called t (by rw [hpc]; rfl), fun u => ?_⟩
    show ((s.goto t .destroyed).pc u).deletes = false
    by_cases hut : u = t
    · simp [goto, hut, PC.deletes]
    · refine Bool.eq_false_iff.mpr fun hu => hut ?_
      simp only [goto, Function.update_of_ne hut] at hu
      exact hi.unique u t (PC.destroys_of_deletes hu) (by rw [hpc]; rfl)
  | destroy hpc hcalled =>
    have hnew : ∀ u, ((s.goto t (destructor (s.value t))).pc u).destroys = true → u = t := by
      intro u hu
      by_contra hut
      simp only [goto, Function.update_of_ne hut] at hu
      rw [hi.called u hu] at hcalled
      cases hcalled
    refine ⟨fun _ _ => rfl, fun u v hu hv => (hnew u hu).trans (hnew v hv).symm, fun hkey => ?_⟩
    have hcalled' := (hi.deleted hkey).1
    rw [hcalled] at hcalled'
    cases hcalled'

theorem Reachable.sole (h : (system Tid).Reachable ok s) : s.Sole := by
  refine h.induct (I := Sole) ⟨?_, ?_, ?_⟩ fun s a s' _ _ hs hi => ?_
  · simp [system, PC.destroys]
  · simp [system, PC.destroys]
  · simp [system]
  · obtain ⟨t, hstep, -⟩ := step_cases hs
    exact hi.step hstep

/-- The object is that of a thread, and will not be deallocated. -/
structure Leaked (s : ThreadLocal Tid) (u : Tid) (obj : ℕ) : Prop where
  key : s.keyExists = false
  called : s.destructorCalled = true
  pc : s.pc u = .idle ∨ s.pc u = .exited
  owner : s.allocated[obj]? = some u
  alive : obj ∉ s.deallocated

theorem Leaked.step {obj : ℕ} (hi : s.Leaked u obj) (ho : s.Owned) (h : Step s t s') : s'.Leaked u obj := by
  obtain ⟨hkey, hcalled, hpc, howner, halive⟩ := hi
  by_cases hu : u = t
  · subst hu
    cases h with
    | read obj' hpc' hv => exact ⟨hkey, hcalled, Or.inl (by simp [goto]), howner, halive⟩
    | leave hpc' hv => exact ⟨hkey, hcalled, Or.inr (by simp [goto]), howner, halive⟩
    | null hpc' hkey' hv | setspecific obj' hpc' hkey' | exit obj' hpc' hkey' hv =>
      rw [hkey'] at hkey
      cases hkey
    | destroy hpc' hcalled' =>
      rw [hcalled'] at hcalled
      cases hcalled
    | allocate hpc' | deallocate obj' hpc' | keyDelete hpc' | destroyThreadData obj' hpc' => simp [hpc'] at hpc
  · have hdooms : ∀ obj', (s.pc t).dooms = some obj' → obj ∉ s.deallocated ++ [obj'] := by
      intro obj' hobj' hmem
      rcases List.mem_append.mp hmem with hmem | hmem
      · exact halive hmem
      · rw [← List.mem_singleton.mp hmem] at hobj'
        exact hu (Option.some.inj (howner.symm.trans ((ho.keeps t).dooms hobj').1))
    have hpc' : ∀ pc, (s.goto t pc).pc u = .idle ∨ (s.goto t pc).pc u = .exited :=
      fun pc => by simpa [goto, hu] using hpc
    cases h with
    | read obj' _ _ | null _ _ _ | setspecific obj' _ _ | exit obj' _ _ _ | leave _ _ =>
      exact ⟨hkey, hcalled, hpc' _, howner, halive⟩
    | destroy _ _ => exact ⟨hkey, rfl, hpc' _, howner, halive⟩
    | keyDelete _ => exact ⟨rfl, hcalled, hpc' _, howner, halive⟩
    | allocate _ => exact ⟨hkey, hcalled, hpc' _, getElem?_snoc.mpr (Or.inl howner), halive⟩
    | deallocate obj' hpc | destroyThreadData obj' hpc =>
      exact ⟨hkey, hcalled, hpc' _, howner, hdooms obj' (by rw [hpc]; rfl)⟩

/-- **A key that is not deleted on time leaks an object**, whatever happens then. -/
theorem untimely_leaks (h : (system Tid).Reachable ok s) (hs : s.step (.step t) = some s')
    (hlate : ¬ s.Timely (.step t))
    (hrun : (system Tid).Reaches Anything s' s'') : ∃ obj < s''.allocated.length, obj ∉ s''.deallocated := by
  obtain ⟨hpc, hothers⟩ := Classical.not_imp.mp hlate
  obtain ⟨u, hu⟩ := not_forall.mp hothers
  obtain ⟨hut, hv⟩ := Classical.not_imp.mp hu
  obtain ⟨obj, hv⟩ := Option.ne_none_iff_exists'.mp hv
  have ho : s.Owned := Reachable.owned h
  have hsole : s.Sole := Reachable.sole h
  obtain ⟨own, hown, hh⟩ := ho.keeps u
  -- only the destroying thread is past its last use with a value
  have hidle : s.pc u = .idle := by
    cases hpu : s.pc u with
    | idle => rfl
    | allocate | setspecific obj' | destroyThreadData obj' =>
      rw [hpu] at hh
      cases hv.symm.trans hh.1
    | deallocate obj' | keyDelete | destroyed =>
      exact absurd (hsole.unique u t (by rw [hpu]; rfl) (by rw [hpc]; rfl)) hut
    | exited =>
      rw [hpu] at hh
      rcases hh with ⟨hnone, -⟩ | ⟨-, hkey⟩
      · cases hv.symm.trans hnone
      · have hdeletes := (hsole.deleted hkey).2 t
        rw [hpc] at hdeletes
        cases hdeletes
  rw [hidle] at hh
  have hobj : own = some obj := hh.1.symm.trans hv
  have hs' : s' = { s.goto t .destroyed with keyExists := false } := by
    simpa [step, threadStep, hpc] using hs.symm
  have hleaked : s'.Leaked u obj := by
    subst hs'
    exact ⟨rfl, hsole.called t (by rw [hpc]; rfl), Or.inl (by simp [goto, hut, hidle]), (hown obj).mpr hobj,
        hh.2 obj hobj⟩
  have hkeep : s''.Owned ∧ s''.Leaked u obj := by
    refine hrun.keeps (I := fun s => s.Owned ∧ s.Leaked u obj) (fun s a s' _ hs hi => ?_) ⟨?_, hleaked⟩
    · obtain ⟨t, hstep, -⟩ := step_cases hs
      exact ⟨hi.1.step hstep, hi.2.step hi.1 hstep⟩
    · obtain ⟨t, hstep, -⟩ := step_cases hs
      exact ho.step hstep
  exact ⟨obj, (List.getElem?_eq_some_iff.mp hkeep.2.owner).1, hkeep.2.alive⟩

end Destruction

end ThreadLocal

end Tpool
