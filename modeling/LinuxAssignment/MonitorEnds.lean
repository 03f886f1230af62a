import LinuxAssignment.MonitorMain
import LinuxAssignment.MonitorSignals
import Mathlib.Algebra.Order.BigOperators.Group.Finset

namespace Monitor

open StepSystem

section

variable {τ σ ι : Type*}

/-- The number of steps that each of some threads still takes, as long as it knows `P`; they have no
condition variables. -/
structure Countdown (prog : τ → ι → Instr σ ι Empty) (P : τ → ι → σ → Prop)
    (left : τ → ι → σ → Nat) : Prop where
  own : ∀ {t l m s s'}, P t l s → (prog t l).after s = some (s', m) → left t m s' + 1 = left t l s
  other : ∀ {t u l m k s s'}, u ≠ t → (prog u m).after s = some (s', k) → left t l s' = left t l s

/-- The steps that all threads together still take. -/
def allLeft [Fintype τ] (left : τ → ι → σ → Nat) (s : State τ σ ι Empty) : Nat :=
  ∑ t, left t (s.threads t).at s.shared

variable {prog : τ → ι → Instr σ ι Empty} {holds : τ → ι → Prop} {P : τ → ι → σ → Prop}
  {left : τ → ι → σ → Nat} {s s' : State τ σ ι Empty}

theorem Locked.awake (h : Locked prog holds s) (t : τ) : ∃ l, s.threads t = .running l := by
  cases ht : s.threads t with
  | running l => exact ⟨l, rfl⟩
  | asleep c l => exact c.elim
  | woken l =>
    obtain ⟨m, c, -⟩ := h.woken ht
    exact c.elim

variable [DecidableEq τ] [Fintype τ]

/-- Without condition variables every step is one of a thread that runs. -/
theorem Locked.goes (hl : Locked prog holds s) {a : Move τ}
    (hstep : Monitor.step prog s a = some s') :
    ∃ t w l m, a = .go t w ∧ s.threads t = .running l ∧
      (prog t l).after s.shared = some (s'.shared, m) ∧
      s'.threads = Monitor.moveTo s.threads t m := by
  cases fires_of_step hstep with
  | @wake t c => exact c.elim
  | @wait t w l c => exact c.elim
  | @signal t w l c => exact c.elim
  | @relock t w l ht =>
    obtain ⟨m, hm⟩ := hl.awake t
    cases ht.symm.trans hm
  | @lock t w l next ht hp => exact ⟨t, w, l, next, rfl, ht, by rw [hp]; rfl, rfl⟩
  | @unlock t w l f next ht hp => exact ⟨t, w, l, next, rfl, ht, by rw [hp]; rfl, rfl⟩
  | @eval t w l f next ht hp => exact ⟨t, w, l, next s.shared, rfl, ht, by rw [hp]; rfl, rfl⟩

theorem Countdown.step (h : Countdown prog P left) (hl : Locked prog holds s)
    (hP : ∀ t, P t (s.threads t).at s.shared) {a : Move τ}
    (hstep : Monitor.step prog s a = some s') : allLeft left s' + 1 = allLeft left s := by
  obtain ⟨t, w, l, m, -, ht, hafter, hthreads⟩ := hl.goes hstep
  have hown : left t (s'.threads t).at s'.shared + 1 = left t (s.threads t).at s.shared := by
    have hk := hP t
    rw [ht] at hk
    rw [hthreads, Monitor.moveTo, Function.update_self, ht]
    exact h.own hk hafter
  have hothers : ∑ u ∈ Finset.univ.erase t, left u (s'.threads u).at s'.shared =
      ∑ u ∈ Finset.univ.erase t, left u (s.threads u).at s.shared := by
    refine Finset.sum_congr rfl fun u hu => ?_
    have hut := Finset.ne_of_mem_erase hu
    rw [hthreads, Monitor.moveTo, Function.update_of_ne hut, h.other (Ne.symm hut) hafter]
  unfold allLeft
  rw [← Finset.add_sum_erase _ _ (Finset.mem_univ t), ← Finset.add_sum_erase _ _ (Finset.mem_univ t),
    hothers]
  omega

/-- A thread that has not returned can go on if the lock is free or its own. -/
theorem Locked.some_goes (hd : Disciplined prog holds) (hl : Locked prog holds s) {t : τ}
    (ht : ¬ Terminated prog s t) : ∃ u w, (Monitor.step prog s (.go u w)).isSome := by
  cases how : s.owner with
  | some u =>
    obtain ⟨w, hw⟩ := owner_goes hd hl how
    exact ⟨u, w, hw⟩
  | none =>
    obtain ⟨l, hl'⟩ := hl.awake t
    have hout : ¬ holds t l := by
      intro hh
      have hown := (hl.holds_iff hl').mpr hh
      rw [how] at hown
      cases hown
    refine ⟨t, none, ?_⟩
    cases hp : prog t l with
    | lock next => exact lock_goes how (Or.inr ⟨hl', next, hp⟩)
    | unlock f next => exact absurd (hd.unlock hp).1 hout
    | wait c => exact c.elim
    | signal c => exact c.elim
    | eval f next => simp only [Monitor.step, hl', hp, Option.isSome_some]
    | exit => exact absurd ⟨l, hl', hp⟩ ht

end

section

variable {n : Nat} {σ ι : Type*} {prog : Fin n → ι → Instr σ ι Empty} {holds : Fin n → ι → Prop}
  {P : Fin n → ι → σ → Prop} {left : Fin n → ι → σ → Nat} {s s' : Joined n σ ι Empty}

def Main.Within (n : Nat) : Main → Prop
  | .creating i => i ≤ n
  | .joining i => i ≤ n

/-- The steps that the main thread still takes. -/
def Main.remaining (n : Nat) : Main → Nat
  | .creating i => n + 1 - i + n
  | .joining i => n - i

def Joined.remaining (left : Fin n → ι → σ → Nat) (s : Joined n σ ι Empty) : Nat :=
  s.main.remaining n + allLeft left s.monitor

theorem Countdown.joinStep (h : Countdown prog P left) (hl : Locked prog holds s.monitor)
    (hP : ∀ t, P t (s.monitor.threads t).at s.monitor.shared) (hmain : s.main.Within n)
    {a : MainMove n} (hstep : Monitor.joinStep prog s a = some s') :
    s'.main.Within n ∧ s'.remaining left + 1 = s.remaining left := by
  unfold Joined.remaining
  cases a with
  | create =>
    simp only [Monitor.joinStep] at hstep
    split at hstep
    next i hi =>
      cases hstep
      rw [hi] at hmain ⊢
      have hle : i ≤ n := hmain
      dsimp only
      split
      next hlt =>
        refine ⟨hlt, ?_⟩
        simp only [Main.remaining]
        omega
      next =>
        refine ⟨Nat.zero_le n, ?_⟩
        simp only [Main.remaining]
        omega
    next => cases hstep
  | join =>
    simp only [Monitor.joinStep] at hstep
    split at hstep
    next => cases hstep
    next i hi =>
      split at hstep
      next hlt =>
        obtain ⟨-, hstep⟩ := Option.ite_none_right_eq_some.mp hstep
        cases hstep
        rw [hi]
        refine ⟨hlt, ?_⟩
        simp only [Main.remaining]
        omega
      next => cases hstep
  | thread b =>
    obtain ⟨-, hstep⟩ := Option.ite_none_right_eq_some.mp hstep
    obtain ⟨m, hm, rfl⟩ := Option.map_eq_some_iff.mp hstep
    exact ⟨hmain, congrArg (s.main.remaining n + ·) (h.step hl hP hm)⟩

/-- If nothing can go on, the main thread has joined all threads. -/
theorem joined_of_stuck (hd : Disciplined prog holds) (hl : Locked prog holds s.monitor)
    (hmain : s.main.Within n) (hstuck : ∀ a, Monitor.joinStep prog s a = none) :
    s.main = .joining n := by
  cases hm : s.main with
  | creating i =>
    have hno := hstuck .create
    simp [Monitor.joinStep, hm] at hno
  | joining i =>
    rw [hm] at hmain
    have hle : i ≤ n := hmain
    by_contra hne
    have hlt : i < n := lt_of_le_of_ne hle fun hi => hne (by rw [hi])
    by_cases hdone : Terminated prog s.monitor ⟨i, hlt⟩
    · have hno := hstuck .join
      simp [Monitor.joinStep, hm, hlt, hdone] at hno
    · obtain ⟨u, w, hgoes⟩ := hl.some_goes hd hdone
      obtain ⟨m, hm'⟩ := Option.isSome_iff_exists.mp hgoes
      have hno := hstuck (.thread (.go u w))
      simp [Monitor.joinStep, hm, Main.Created, hm'] at hno

end

end Monitor
