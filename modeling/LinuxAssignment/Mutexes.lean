import LinuxAssignment.StepSystem
import Mathlib.Data.Finset.Dedup
import Mathlib.Data.Fintype.Defs
import Mathlib.Logic.Function.Basic

namespace Mutexes

open Relation StepSystem

/-- One instruction of a thread that shares data and several mutexes with others. -/
inductive Instr (σ ι κ : Type*) where
  | lock (k : κ) (next : ι)
  | unlock (k : κ) (f : σ → σ) (next : ι)
  | eval (f : σ → σ) (next : σ → ι)
  | exit

def Instr.after {σ ι κ : Type*} : Instr σ ι κ → σ → Option (σ × ι)
  | .lock _ next, s => some (s, next)
  | .unlock _ f next, s => some (f s, next)
  | .eval f next, s => some (f s, next s)
  | .exit, _ => none

structure State (τ σ ι κ : Type*) where
  shared : σ
  owner : κ → Option τ
  place : τ → ι

variable {τ σ ι κ : Type*}

/-- The program locks and unlocks so that a thread at a place holds the mutexes `holds` says. -/
structure Tidy (prog : τ → ι → Instr σ ι κ) (holds : τ → ι → κ → Prop) : Prop where
  lock : ∀ {t l k next}, prog t l = .lock k next →
    ¬ holds t l k ∧ ∀ j, holds t next j ↔ holds t l j ∨ j = k
  unlock : ∀ {t l k f next}, prog t l = .unlock k f next →
    holds t l k ∧ ∀ j, holds t next j ↔ holds t l j ∧ j ≠ k
  eval : ∀ {t l f next}, prog t l = .eval f next → ∀ s j, holds t (next s) j ↔ holds t l j
  exit : ∀ {t l}, prog t l = .exit → ∀ j, ¬ holds t l j

def Owned (holds : τ → ι → κ → Prop) (s : State τ σ ι κ) : Prop :=
  ∀ k t, s.owner k = some t ↔ holds t (s.place t) k

/-- No other thread holds a mutex. -/
def FreeFor (t : τ) (s : State τ σ ι κ) : Prop := ∀ k u, s.owner k = some u → u = t

variable [DecidableEq τ] [DecidableEq κ]

def step (prog : τ → ι → Instr σ ι κ) (s : State τ σ ι κ) (t : τ) : Option (State τ σ ι κ) :=
  match prog t (s.place t) with
  | .lock k next =>
    if s.owner k = none then
      some ⟨s.shared, Function.update s.owner k (some t), Function.update s.place t next⟩
    else none
  | .unlock k f next =>
    if s.owner k = some t then
      some ⟨f s.shared, Function.update s.owner k none, Function.update s.place t next⟩
    else none
  | .eval f next => some ⟨f s.shared, s.owner, Function.update s.place t (next s.shared)⟩
  | .exit => none

inductive Fires (prog : τ → ι → Instr σ ι κ) (s : State τ σ ι κ) (t : τ) : State τ σ ι κ → Prop
  | lock {k next} : prog t (s.place t) = .lock k next → s.owner k = none →
      Fires prog s t ⟨s.shared, Function.update s.owner k (some t), Function.update s.place t next⟩
  | unlock {k f next} : prog t (s.place t) = .unlock k f next → s.owner k = some t →
      Fires prog s t ⟨f s.shared, Function.update s.owner k none, Function.update s.place t next⟩
  | eval {f next} : prog t (s.place t) = .eval f next →
      Fires prog s t ⟨f s.shared, s.owner, Function.update s.place t (next s.shared)⟩

variable {prog : τ → ι → Instr σ ι κ} {holds : τ → ι → κ → Prop} {s s' : State τ σ ι κ} {t u : τ}

theorem fires_of_step (h : step prog s t = some s') : Fires prog s t s' := by
  unfold step at h
  split at h
  next k next hp =>
    obtain ⟨hfree, h⟩ := Option.ite_none_right_eq_some.mp h
    cases h
    exact .lock hp hfree
  next k f next hp =>
    obtain ⟨how, h⟩ := Option.ite_none_right_eq_some.mp h
    cases h
    exact .unlock hp how
  next f next hp =>
    cases h
    exact .eval hp
  next => cases h

theorem step_of_unlock {k : κ} {f : σ → σ} {next : ι}
    (hp : prog t (s.place t) = .unlock k f next) (how : s.owner k = some t) :
    step prog s t = some ⟨f s.shared, Function.update s.owner k none,
      Function.update s.place t next⟩ := by
  simp [step, hp, how]

theorem Fires.place_of_ne (h : Fires prog s t s') (hut : u ≠ t) : s'.place u = s.place u := by
  cases h with
  | lock => exact Function.update_of_ne hut _ _
  | unlock => exact Function.update_of_ne hut _ _
  | eval => exact Function.update_of_ne hut _ _

theorem Fires.after (h : Fires prog s t s') :
    (prog t (s.place t)).after s.shared = some (s'.shared, s'.place t) := by
  cases h with
  | lock hp => simp [hp, Instr.after]
  | unlock hp => simp [hp, Instr.after]
  | eval hp => simp [hp, Instr.after]

omit [DecidableEq τ] [DecidableEq κ] in
theorem Owned.exclusive (hs : Owned holds s) {k : κ} (ht : holds t (s.place t) k)
    (hu : holds u (s.place u) k) : t = u :=
  Option.some.inj (((hs k t).mpr ht).symm.trans ((hs k u).mpr hu))

omit [DecidableEq κ] in
theorem Owned.after (hs : Owned holds s) {shared : σ} {owner : κ → Option τ} {next : ι}
    (hself : ∀ j, owner j = some t ↔ holds t next j)
    (hother : ∀ j u, u ≠ t → (owner j = some u ↔ s.owner j = some u)) :
    Owned holds ⟨shared, owner, Function.update s.place t next⟩ := by
  intro j u
  dsimp only
  by_cases hut : u = t
  · subst hut
    rw [Function.update_self]
    exact hself j
  · rw [Function.update_of_ne hut]
    exact (hother j u hut).trans (hs j u)

theorem Owned.step (hs : Owned holds s) (hd : Tidy prog holds) (h : step prog s t = some s') :
    Owned holds s' := by
  cases fires_of_step h with
  | @lock k next hp hfree =>
    obtain ⟨-, hnext⟩ := hd.lock hp
    refine hs.after (fun j => ?_) fun j u hut => ?_
    · by_cases hj : j = k
      · subst hj
        simp [(hnext j).mpr (Or.inr rfl)]
      · rw [Function.update_of_ne hj, hnext j, hs j t]
        exact ⟨Or.inl, fun hh => hh.resolve_right hj⟩
    · by_cases hj : j = k
      · subst hj
        simp [hfree, hut.symm]
      · rw [Function.update_of_ne hj]
  | @unlock k f next hp how =>
    obtain ⟨-, hnext⟩ := hd.unlock hp
    refine hs.after (fun j => ?_) fun j u hut => ?_
    · by_cases hj : j = k
      · subst hj
        simp [hnext j]
      · rw [Function.update_of_ne hj, hnext j, hs j t]
        exact ⟨fun hh => ⟨hh, hj⟩, And.left⟩
    · by_cases hj : j = k
      · subst hj
        simp [how, hut.symm]
      · rw [Function.update_of_ne hj]
  | @eval f next hp =>
    exact hs.after (fun j => (hs j t).trans (hd.eval hp s.shared j).symm) fun _ _ _ => Iff.rfl

/-- A thread that only waits for mutexes of its own or free ones can go on, and stays so. -/
theorem FreeFor.goes (hfree : FreeFor t s) (hs : Owned holds s) (hd : Tidy prog holds)
    (hexit : prog t (s.place t) ≠ .exit) : ∃ s', Mutexes.step prog s t = some s' ∧ FreeFor t s' := by
  cases hp : prog t (s.place t) with
  | lock k next =>
    have hnone : s.owner k = none := by
      cases how : s.owner k with
      | none => rfl
      | some u =>
        cases hfree k u how
        exact absurd ((hs k t).mp how) (hd.lock hp).1
    have hgo : Mutexes.step prog s t = some ⟨s.shared, Function.update s.owner k (some t),
        Function.update s.place t next⟩ := by
      simp [Mutexes.step, hp, hnone]
    refine ⟨_, hgo, fun j u hu => ?_⟩
    dsimp only at hu
    by_cases hj : j = k
    · subst hj
      rw [Function.update_self] at hu
      exact (Option.some.inj hu).symm
    · rw [Function.update_of_ne hj] at hu
      exact hfree j u hu
  | unlock k f next =>
    have how : s.owner k = some t := (hs k t).mpr (hd.unlock hp).1
    refine ⟨_, step_of_unlock hp how, fun j u hu => ?_⟩
    dsimp only at hu
    by_cases hj : j = k
    · subst hj
      rw [Function.update_self] at hu
      cases hu
    · rw [Function.update_of_ne hj] at hu
      exact hfree j u hu
  | eval f next =>
    have hgo : Mutexes.step prog s t = some ⟨f s.shared, s.owner,
        Function.update s.place t (next s.shared)⟩ := by
      simp [Mutexes.step, hp]
    exact ⟨_, hgo, hfree⟩
  | exit => exact absurd hp hexit

omit [DecidableEq τ] [DecidableEq κ] in
theorem FreeFor.none_of_exit (hfree : FreeFor t s) (hs : Owned holds s) (hd : Tidy prog holds)
    (hexit : prog t (s.place t) = .exit) (k : κ) : s.owner k = none := by
  cases how : s.owner k with
  | none => rfl
  | some u =>
    cases hfree k u how
    exact absurd ((hs k t).mp how) (hd.exit hexit k)

/-- Steps that keep an invariant and bring the thread that takes them closer to its end. -/
structure Advances (prog : τ → ι → Instr σ ι κ) (holds : τ → ι → κ → Prop)
    (Inv : State τ σ ι κ → Prop) (left : τ → State τ σ ι κ → Nat) : Prop where
  owned : ∀ {s}, Inv s → Owned holds s
  keeps : ∀ {s t s'}, Inv s → step prog s t = some s' → Inv s'
  closer : ∀ {s t s'}, Inv s → step prog s t = some s' → left t s' < left t s

variable {Inv : State τ σ ι κ → Prop} {left : τ → State τ σ ι κ → Nat}

/-- If the others hold no mutex a thread can run to its end, and then no mutex is held. -/
theorem FreeFor.returns (hfree : FreeFor t s) (ha : Advances prog holds Inv left)
    (hd : Tidy prog holds) (hs : Inv s) :
    ∃ s', ReflTransGen (Steps (step prog)) s s' ∧ Inv s' ∧ prog t (s'.place t) = .exit ∧
      (∀ k, s'.owner k = none) ∧ ∀ u, u ≠ t → s'.place u = s.place u := by
  induction hn : left t s using Nat.strong_induction_on generalizing s with
  | _ n ih =>
    by_cases hexit : prog t (s.place t) = .exit
    · exact ⟨s, .refl, hs, hexit, hfree.none_of_exit (ha.owned hs) hd hexit, fun _ _ => rfl⟩
    · obtain ⟨s1, hstep, hfree1⟩ := hfree.goes (ha.owned hs) hd hexit
      have hless := ha.closer hs hstep
      obtain ⟨s2, hrun, hs2, hexit2, hnone, hother⟩ :=
        ih (left t s1) (hn ▸ hless) hfree1 (ha.keeps hs hstep) rfl
      exact ⟨s2, .head ⟨t, hstep⟩ hrun, hs2, hexit2, hnone, fun u hut =>
        (hother u hut).trans ((fires_of_step hstep).place_of_ne hut)⟩

/-- From where one thread can run to its end all others can, one after the other. -/
theorem FreeFor.all_return [Fintype τ] (hfree : FreeFor t s) (ha : Advances prog holds Inv left)
    (hd : Tidy prog holds) (hs : Inv s) :
    ∃ s', ReflTransGen (Steps (step prog)) s s' ∧ ∀ u, prog u (s'.place u) = .exit := by
  have inTurn : ∀ (us : List τ) s, Inv s → (∀ k, s.owner k = none) →
      ∃ s', ReflTransGen (Steps (step prog)) s s' ∧ (∀ u ∈ us, prog u (s'.place u) = .exit) ∧
        ∀ u, prog u (s.place u) = .exit → prog u (s'.place u) = .exit := by
    intro us
    induction us with
    | nil => exact fun s _ _ => ⟨s, .refl, nofun, fun _ hu => hu⟩
    | cons u us ih =>
      intro s hs hnone
      have hfree : FreeFor u s := by
        intro k v hv
        cases (hnone k).symm.trans hv
      obtain ⟨s1, hrun1, hs1, hexit1, hnone1, hother1⟩ := hfree.returns ha hd hs
      obtain ⟨s2, hrun2, hexit2, hkeep2⟩ := ih s1 hs1 hnone1
      refine ⟨s2, hrun1.trans hrun2, fun v hv => ?_, fun v hv => hkeep2 v ?_⟩
      · rcases List.mem_cons.mp hv with rfl | hv
        · exact hkeep2 v hexit1
        · exact hexit2 v hv
      · by_cases hvu : v = u
        · exact hvu ▸ hexit1
        · rwa [hother1 v hvu]
  obtain ⟨s1, hrun1, hs1, -, hnone1, -⟩ := hfree.returns ha hd hs
  obtain ⟨s2, hrun2, hexit2, -⟩ := inTurn Finset.univ.toList s1 hs1 hnone1
  exact ⟨s2, hrun1.trans hrun2, fun u => hexit2 u (Finset.mem_toList.mpr (Finset.mem_univ u))⟩

end Mutexes
