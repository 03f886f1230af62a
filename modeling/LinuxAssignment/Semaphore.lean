import LinuxAssignment.StepSystem
import Mathlib.Algebra.Order.BigOperators.Group.Finset
import Mathlib.Algebra.Order.Ring.Nat
import Mathlib.Data.Fintype.Card
import Mathlib.Logic.Function.Basic

namespace Semaphore

open StepSystem

/-- One instruction of a thread that shares data and one counting semaphore with others. -/
inductive Instr (σ ι : Type*) where
  | wait (next : ι)
  | post (next : ι)
  | eval (f : σ → σ) (next : σ → ι)
  | exit

def Instr.after {σ ι : Type*} : Instr σ ι → σ → Option (σ × ι)
  | .wait next, s => some (s, next)
  | .post next, s => some (s, next)
  | .eval f next, s => some (f s, next s)
  | .exit, _ => none

structure State (τ σ ι : Type*) where
  shared : σ
  value : Nat
  place : τ → ι

variable {τ σ ι : Type*}

/-- The places between a wait and the next post are those `inside`. -/
structure Guarded (prog : τ → ι → Instr σ ι) (inside : ι → Prop) : Prop where
  wait : ∀ {t l next}, prog t l = .wait next → ¬ inside l ∧ inside next
  post : ∀ {t l next}, prog t l = .post next → inside l ∧ ¬ inside next
  eval : ∀ {t l f next}, prog t l = .eval f next → ∀ s, inside (next s) ↔ inside l
  exit : ∀ {t l}, prog t l = .exit → ¬ inside l

variable [DecidableEq τ]

def step (prog : τ → ι → Instr σ ι) (s : State τ σ ι) (t : τ) : Option (State τ σ ι) :=
  match prog t (s.place t) with
  | .wait next =>
    if 0 < s.value then some ⟨s.shared, s.value - 1, Function.update s.place t next⟩ else none
  | .post next => some ⟨s.shared, s.value + 1, Function.update s.place t next⟩
  | .eval f next => some ⟨f s.shared, s.value, Function.update s.place t (next s.shared)⟩
  | .exit => none

inductive Fires (prog : τ → ι → Instr σ ι) (s : State τ σ ι) (t : τ) : State τ σ ι → Prop
  | wait {next} : prog t (s.place t) = .wait next → 0 < s.value →
      Fires prog s t ⟨s.shared, s.value - 1, Function.update s.place t next⟩
  | post {next} : prog t (s.place t) = .post next →
      Fires prog s t ⟨s.shared, s.value + 1, Function.update s.place t next⟩
  | eval {f next} : prog t (s.place t) = .eval f next →
      Fires prog s t ⟨f s.shared, s.value, Function.update s.place t (next s.shared)⟩

variable {prog : τ → ι → Instr σ ι} {s s' : State τ σ ι} {t u : τ}

theorem fires_of_step (h : step prog s t = some s') : Fires prog s t s' := by
  unfold step at h
  split at h
  next next hp =>
    obtain ⟨hpos, h⟩ := Option.ite_none_right_eq_some.mp h
    cases h
    exact .wait hp hpos
  next next hp =>
    cases h
    exact .post hp
  next f next hp =>
    cases h
    exact .eval hp
  next => cases h

theorem Fires.after (h : Fires prog s t s') :
    (prog t (s.place t)).after s.shared = some (s'.shared, s'.place t) := by
  cases h with
  | wait hp => simp [hp, Instr.after]
  | post hp => simp [hp, Instr.after]
  | eval hp => simp [hp, Instr.after]

theorem Fires.place_of_ne (h : Fires prog s t s') (hut : u ≠ t) : s'.place u = s.place u := by
  cases h with
  | wait => exact Function.update_of_ne hut _ _
  | post => exact Function.update_of_ne hut _ _
  | eval => exact Function.update_of_ne hut _ _

variable [Fintype τ] {inside : ι → Prop} [DecidablePred inside] {permits : Nat}

omit [DecidableEq τ] in
/-- How many threads stand at a place inside. -/
def within (inside : ι → Prop) [DecidablePred inside] (place : τ → ι) : Nat :=
  (Finset.univ.filter fun t => inside (place t)).card

variable (inside) in
theorem within_update (place : τ → ι) (t : τ) (l : ι) :
    within inside (Function.update place t l) + (if inside (place t) then 1 else 0) =
      within inside place + (if inside l then 1 else 0) := by
  have hrest : (Finset.univ.filter fun u => inside (Function.update place t l u)).erase t =
      (Finset.univ.filter fun u => inside (place u)).erase t := by
    ext u
    by_cases hut : u = t
    · simp [hut]
    · simp [hut]
  have hcount : ∀ f : τ → ι, within inside f =
      ((Finset.univ.filter fun u => inside (f u)).erase t).card + if inside (f t) then 1 else 0 := by
    intro f
    by_cases hf : inside (f t)
    · rw [if_pos hf, within, Finset.card_erase_add_one (by simp [hf])]
    · rw [if_neg hf, within, Finset.erase_eq_of_notMem (by simp [hf]), Nat.add_zero]
  rw [hcount, hcount place, hrest, Function.update_self]
  omega

omit [DecidableEq τ] in
theorem within_none {place : τ → ι} (h : ∀ t, ¬ inside (place t)) : within inside place = 0 :=
  Finset.card_eq_zero.mpr (Finset.filter_eq_empty_iff.mpr fun t _ => h t)

omit [DecidableEq τ] in
theorem within_all {place : τ → ι} (h : ∀ t, inside (place t)) :
    within inside place = Fintype.card τ :=
  congrArg Finset.card (Finset.filter_true_of_mem fun t _ => h t)

theorem within_enter {place : τ → ι} {l : ι} (hout : ¬ inside (place t)) (hin : inside l) :
    within inside (Function.update place t l) = within inside place + 1 := by
  have hcount := within_update inside place t l
  rwa [if_neg hout, if_pos hin] at hcount

theorem within_leave {place : τ → ι} {l : ι} (hin : inside (place t)) (hout : ¬ inside l) :
    within inside (Function.update place t l) + 1 = within inside place := by
  have hcount := within_update inside place t l
  rwa [if_pos hin, if_neg hout] at hcount

theorem within_stay {place : τ → ι} {l : ι} (hiff : inside l ↔ inside (place t)) :
    within inside (Function.update place t l) = within inside place := by
  have hcount := within_update inside place t l
  simp only [hiff] at hcount
  exact Nat.add_right_cancel hcount

/-- The permits are the free ones and those of the threads inside. -/
def Accounted (inside : ι → Prop) [DecidablePred inside] (permits : Nat) (s : State τ σ ι) : Prop :=
  s.value + within inside s.place = permits

theorem Accounted.step (hs : Accounted inside permits s) (hg : Guarded prog inside)
    (h : step prog s t = some s') : Accounted inside permits s' := by
  unfold Accounted at hs ⊢
  cases fires_of_step h with
  | @wait next hp hpos =>
    have hcount := within_enter (hg.wait hp).1 (hg.wait hp).2
    dsimp only
    omega
  | @post next hp =>
    have hcount := within_leave (hg.post hp).1 (hg.post hp).2
    dsimp only
    omega
  | @eval f next hp =>
    rw [within_stay (hg.eval hp s.shared)]
    exact hs

/-- If a thread has not returned, one of them can go on. -/
theorem Accounted.goes (hs : Accounted inside permits s) (hg : Guarded prog inside)
    (hpermits : 1 ≤ permits) (ht : prog t (s.place t) ≠ .exit) :
    ∃ u s', Semaphore.step prog s u = some s' := by
  have acts : ∀ u, prog u (s.place u) ≠ .exit → (∀ next, prog u (s.place u) ≠ .wait next) →
      ∃ s', Semaphore.step prog s u = some s' := by
    intro u hexit hwait
    unfold Semaphore.step
    split
    next next hp => exact absurd hp (hwait next)
    next => exact ⟨_, rfl⟩
    next => exact ⟨_, rfl⟩
    next hp => exact absurd hp hexit
  by_cases hwait : ∃ next, prog t (s.place t) = .wait next
  · obtain ⟨next, hp⟩ := hwait
    by_cases hpos : 0 < s.value
    · exact ⟨t, _, by rw [Semaphore.step, hp]; exact if_pos hpos⟩
    · unfold Accounted within at hs
      have hsome : 0 < (Finset.univ.filter fun u => inside (s.place u)).card := by omega
      obtain ⟨u, hu⟩ := Finset.card_pos.mp hsome
      have hin : inside (s.place u) := by simpa using hu
      exact ⟨u, acts u (fun hp => hg.exit hp hin) fun next hp => (hg.wait hp).1 hin⟩
  · exact ⟨t, acts t ht fun next hp => hwait ⟨next, hp⟩⟩

/-- What is left to do for all threads together. -/
def left (rank : ι → Nat) (s : State τ σ ι) : Nat := ∑ t, rank (s.place t)

theorem left_lt {rank : ι → Nat}
    (hrank : ∀ {t l x x' m}, (prog t l).after x = some (x', m) → rank m < rank l)
    (h : step prog s t = some s') : left rank s' < left rank s := by
  have hfires := fires_of_step h
  refine Finset.sum_lt_sum (fun u _ => ?_) ⟨t, Finset.mem_univ t, hrank hfires.after⟩
  by_cases hut : u = t
  · exact hut ▸ (hrank hfires.after).le
  · rw [hfires.place_of_ne hut]

end Semaphore
