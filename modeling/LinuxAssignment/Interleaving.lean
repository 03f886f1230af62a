import LinuxAssignment.StepSystem
import Mathlib.Logic.Function.Basic

namespace Interleaving

open StepSystem

structure State (κ σ ρ : Type*) where
  shared : σ
  procs : κ → ρ

section

variable {κ σ ρ α : Type*} [DecidableEq κ]

/-- One process takes one step on the shared data and its own state. -/
def step (next : σ → ρ → α → Option (σ × ρ)) (s : State κ σ ρ) (a : κ × α) :
    Option (State κ σ ρ) :=
  (next s.shared (s.procs a.1) a.2).map fun r => ⟨r.1, Function.update s.procs a.1 r.2⟩

omit [DecidableEq κ] in
structure Modular (S : σ → Prop) (L : ρ → Prop) (s : State κ σ ρ) : Prop where
  shared : S s.shared
  procs : ∀ k, L (s.procs k)

variable {next : σ → ρ → α → Option (σ × ρ)} {S : σ → Prop} {L : ρ → Prop}
  {s s' : State κ σ ρ} {k : κ} {a : α}

theorem step_cases (h : step next s (k, a) = some s') :
    ∃ r, next s.shared (s.procs k) a = some (s'.shared, r) ∧
      s'.procs = Function.update s.procs k r := by
  obtain ⟨r, hr, rfl⟩ := Option.map_eq_some_iff.mp h
  exact ⟨r.2, hr, rfl⟩

/-- After a step of one process a process is that one, or as before. -/
theorem moved {f g : κ → ρ} {r : ρ} (h : g = Function.update f k r) (j : κ) :
    j = k ∧ g j = r ∨ j ≠ k ∧ g j = f j := by
  subst h
  by_cases hj : j = k
  · exact Or.inl ⟨hj, hj ▸ Function.update_self _ _ _⟩
  · exact Or.inr ⟨hj, Function.update_of_ne hj _ _⟩

theorem forall_procs_iff {Good : ρ → Prop} (hweak : ∀ l, L l → Good l) (hs : Modular S L s) {r : ρ}
    (h : s'.procs = Function.update s.procs k r) : (∀ j, Good (s'.procs j)) ↔ Good r := by
  constructor
  · intro hall
    have hk := hall k
    rwa [h, Function.update_self] at hk
  · intro hr j
    obtain ⟨-, hj⟩ | ⟨-, hj⟩ := moved h j
    · rwa [hj]
    · rw [hj]
      exact hweak _ (hs.procs j)

/-- In a run of processes whose steps keep an invariant each, all of them stay good exactly when
every step meets the condition under which it leads its process to a good state. -/
theorem forall_good_iff {es : List (Event (State κ σ ρ) (κ × α))} {t : State κ σ ρ}
    (h : Trace (step next) s es t) (Good : ρ → Prop) (cond : σ → ρ → α → Prop)
    (hweak : ∀ l, L l → Good l)
    (exact_ : ∀ x l a x' l', S x → L l → next x l a = some (x', l') → (Good l' ↔ cond x l a))
    (keep : ∀ x l a x' l', S x → L l → cond x l a → next x l a = some (x', l') → S x' ∧ L l')
    (hs : Modular S L s) :
    (∀ e ∈ es, ∀ j, Good (e.after.procs j)) ↔
      ∀ e ∈ es, cond e.before.shared (e.before.procs e.label.1) e.label.2 := by
  refine h.forall_iff (Modular S L) (fun s a => cond s.shared (s.procs a.1) a.2)
    (fun e => ∀ j, Good (e.after.procs j)) ?_ ?_ hs
  · rintro s ⟨k, a⟩ t hs ht
    obtain ⟨r, hr, hprocs⟩ := step_cases ht
    exact (forall_procs_iff hweak hs hprocs).trans (exact_ _ _ _ _ _ hs.shared (hs.procs k) hr)
  · rintro s ⟨k, a⟩ t hs hc ht
    obtain ⟨r, hr, hprocs⟩ := step_cases ht
    have hk := keep _ _ _ _ _ hs.shared (hs.procs k) hc hr
    exact ⟨hk.1, (forall_procs_iff (fun _ => id) hs hprocs).mpr hk.2⟩

/-- The steps of one process, with no other in between. -/
def alone (next : σ → ρ → α → Option (σ × ρ)) (x : σ × ρ) (a : α) : Option (σ × ρ) :=
  next x.1 x.2 a

theorem last_alone (s : State κ σ ρ) (k : κ) (as : List α) :
    last (step next) s (as.map fun a => (k, a)) =
      ⟨(last (alone next) (s.shared, s.procs k) as).1,
        Function.update s.procs k (last (alone next) (s.shared, s.procs k) as).2⟩ := by
  induction as generalizing s with
  | nil => simp [last]
  | cons a as ih =>
    cases h : next s.shared (s.procs k) a with
    | none => simp [last, step, alone, h]
    | some r => simp [last, step, alone, h, ih]

end

end Interleaving
