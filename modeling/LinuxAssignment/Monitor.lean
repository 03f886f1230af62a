import LinuxAssignment.StepSystem
import Mathlib.Data.Fintype.Defs
import Mathlib.Logic.Function.Basic

namespace Monitor

open StepSystem

/-- One instruction of a thread that shares data, one mutex and condition variables with others.
What follows an `eval` depends on the data it finds; the change made along with an `unlock` is for
counters that only the thread itself reads. -/
inductive Instr (σ ι κ : Type*) where
  | lock (next : ι)
  | unlock (f : σ → σ) (next : ι)
  | wait (c : κ) (next : ι)
  | signal (c : κ) (next : ι)
  | eval (f : σ → σ) (next : σ → ι)
  | exit

def Instr.after {σ ι κ : Type*} : Instr σ ι κ → σ → Option (σ × ι)
  | .lock next, s => some (s, next)
  | .unlock f next, s => some (f s, next)
  | .wait _ next, s => some (s, next)
  | .signal _ next, s => some (s, next)
  | .eval f next, s => some (f s, next s)
  | .exit, _ => none

/-- A thread about to run an instruction, asleep on a condition variable, or woken and about to
take the mutex again; it goes on at `l` then. -/
inductive Status (ι κ : Type*) where
  | running (l : ι)
  | asleep (c : κ) (l : ι)
  | woken (l : ι)
  deriving DecidableEq

def Status.at {ι κ : Type*} : Status ι κ → ι
  | .running l => l
  | .asleep _ l => l
  | .woken l => l

def Status.SleepsOn {ι κ : Type*} (c : κ) : Status ι κ → Prop
  | .asleep d _ => d = c
  | _ => False

instance {ι κ : Type*} [DecidableEq κ] (c : κ) : (x : Status ι κ) → Decidable (x.SleepsOn c)
  | .asleep d _ => inferInstanceAs (Decidable (d = c))
  | .running _ => inferInstanceAs (Decidable False)
  | .woken _ => inferInstanceAs (Decidable False)

structure State (τ σ ι κ : Type*) where
  shared : σ
  owner : Option τ
  threads : τ → Status ι κ

/-- A thread goes on, and if it signals, wakes the given thread; or it wakes up spuriously. -/
inductive Move (τ : Type*) where
  | go (t : τ) (wakes : Option τ)
  | wake (t : τ)

section

variable {τ σ ι κ : Type*} [DecidableEq τ] [Fintype τ] [DecidableEq κ]

def awaken (threads : τ → Status ι κ) (c : κ) : Option τ → Option (τ → Status ι κ)
  | none => if ∀ u, ¬ (threads u).SleepsOn c then some threads else none
  | some u =>
    if (threads u).SleepsOn c then some (Function.update threads u (.woken (threads u).at)) else none

def moveTo (threads : τ → Status ι κ) (t : τ) (l : ι) : τ → Status ι κ :=
  Function.update threads t (.running l)

def step (prog : τ → ι → Instr σ ι κ) (s : State τ σ ι κ) : Move τ → Option (State τ σ ι κ)
  | .wake t =>
    match s.threads t with
    | .asleep _ l => some ⟨s.shared, s.owner, Function.update s.threads t (.woken l)⟩
    | _ => none
  | .go t wakes =>
    match s.threads t with
    | .asleep _ _ => none
    | .woken l => if s.owner.isNone then some ⟨s.shared, some t, moveTo s.threads t l⟩ else none
    | .running l =>
      match prog t l with
      | .lock next =>
        if s.owner.isNone then some ⟨s.shared, some t, moveTo s.threads t next⟩ else none
      | .unlock f next =>
        if s.owner = some t then some ⟨f s.shared, none, moveTo s.threads t next⟩ else none
      | .wait c next =>
        if s.owner = some t then
          some ⟨s.shared, none, Function.update s.threads t (.asleep c next)⟩
        else none
      | .signal c next =>
        (awaken s.threads c wakes).map fun threads => ⟨s.shared, s.owner, moveTo threads t next⟩
      | .eval f next => some ⟨f s.shared, s.owner, moveTo s.threads t (next s.shared)⟩
      | .exit => none

inductive Fires (prog : τ → ι → Instr σ ι κ) (s : State τ σ ι κ) :
    Move τ → State τ σ ι κ → Prop
  | relock {t w l} : s.threads t = .woken l → s.owner = none →
      Fires prog s (.go t w) ⟨s.shared, some t, moveTo s.threads t l⟩
  | lock {t w l next} : s.threads t = .running l → prog t l = .lock next → s.owner = none →
      Fires prog s (.go t w) ⟨s.shared, some t, moveTo s.threads t next⟩
  | unlock {t w l f next} : s.threads t = .running l → prog t l = .unlock f next →
      s.owner = some t → Fires prog s (.go t w) ⟨f s.shared, none, moveTo s.threads t next⟩
  | wait {t w l c next} : s.threads t = .running l → prog t l = .wait c next → s.owner = some t →
      Fires prog s (.go t w) ⟨s.shared, none, Function.update s.threads t (.asleep c next)⟩
  | signal {t w l c next threads} : s.threads t = .running l → prog t l = .signal c next →
      awaken s.threads c w = some threads →
      Fires prog s (.go t w) ⟨s.shared, s.owner, moveTo threads t next⟩
  | eval {t w l f next} : s.threads t = .running l → prog t l = .eval f next →
      Fires prog s (.go t w) ⟨f s.shared, s.owner, moveTo s.threads t (next s.shared)⟩
  | wake {t c l} : s.threads t = .asleep c l →
      Fires prog s (.wake t) ⟨s.shared, s.owner, Function.update s.threads t (.woken l)⟩

variable {prog : τ → ι → Instr σ ι κ} {s s' : State τ σ ι κ} {a : Move τ}

theorem fires_of_step (h : step prog s a = some s') : Fires prog s a s' := by
  cases a with
  | wake t =>
    simp only [step] at h
    split at h
    next c l ht =>
      cases h
      exact .wake ht
    next => cases h
  | go t wakes =>
    simp only [step] at h
    split at h
    next => cases h
    next l ht =>
      split at h
      next hfree =>
        cases h
        exact .relock ht (Option.isNone_iff_eq_none.mp hfree)
      next => cases h
    next l ht =>
      split at h
      next next hp =>
        split at h
        next hfree =>
          cases h
          exact .lock ht hp (Option.isNone_iff_eq_none.mp hfree)
        next => cases h
      next f next hp =>
        split at h
        next how =>
          cases h
          exact .unlock ht hp how
        next => cases h
      next c next hp =>
        split at h
        next how =>
          cases h
          exact .wait ht hp how
        next => cases h
      next c next hp =>
        obtain ⟨threads, hw, rfl⟩ := Option.map_eq_some_iff.mp h
        exact .signal ht hp hw
      next f next hp =>
        cases h
        exact .eval ht hp
      next => cases h

theorem awaken_cases {threads threads' : τ → Status ι κ} {c : κ} {w : Option τ}
    (h : awaken threads c w = some threads') (u : τ) :
    threads' u = threads u ∨ ∃ l, threads u = .asleep c l ∧ threads' u = .woken l := by
  cases w with
  | none =>
    simp only [awaken] at h
    split at h
    next => cases h; exact Or.inl rfl
    next => cases h
  | some v =>
    simp only [awaken] at h
    split at h
    next hv =>
      cases h
      by_cases hu : u = v
      · subst hu
        right
        cases ht : threads u with
        | running l => rw [ht] at hv; exact absurd hv id
        | woken l => rw [ht] at hv; exact absurd hv id
        | asleep d l =>
          rw [ht] at hv
          cases (show d = c from hv)
          exact ⟨l, rfl, by simp [Status.at]⟩
      · exact Or.inl (Function.update_of_ne hu _ _)
    next => cases h

/-- If only one thread ever sleeps on a condition variable, a signal leaves none asleep on it. -/
theorem awaken_none_asleep {threads threads' : τ → Status ι κ} {c : κ} {w : Option τ} {v : τ}
    (h : awaken threads c w = some threads')
    (honly : ∀ u l, threads u = .asleep c l → u = v) (u : τ) (l : ι) :
    threads' u ≠ .asleep c l := by
  intro hu
  cases w with
  | none =>
    simp only [awaken] at h
    split at h
    next hno =>
      cases h
      exact hno u (by rw [hu]; rfl)
    next => cases h
  | some v' =>
    simp only [awaken] at h
    split at h
    next hv =>
      cases h
      have hsleep : threads u = .asleep c l ∧ u ≠ v' := by
        by_cases hne : u = v'
        · subst hne
          rw [Function.update_self] at hu
          cases hu
        · rw [Function.update_of_ne hne] at hu
          exact ⟨hu, hne⟩
      have hv' : v' = v := by
        cases ht : threads v' with
        | running l => rw [ht] at hv; exact absurd hv id
        | woken l => rw [ht] at hv; exact absurd hv id
        | asleep d l =>
          rw [ht] at hv
          cases (show d = c from hv)
          exact honly v' l ht
      exact hsleep.2 ((honly u l hsleep.1).trans hv'.symm)
    next => cases h

end

end Monitor
