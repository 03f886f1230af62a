import LinuxAssignment.MonitorRules
import Mathlib.Data.Fintype.Basic

namespace Monitor

open StepSystem

/-- Where a main thread is that creates `n` threads and joins them in the same order: about to
create thread `i`, or about to join thread `i`; behind its last join `i` is `n`. -/
inductive Main where
  | creating (i : Nat)
  | joining (i : Nat)
  deriving DecidableEq

structure Joined (n : Nat) (σ ι κ : Type*) where
  main : Main
  monitor : State (Fin n) σ ι κ

inductive MainMove (n : Nat) where
  | create
  | join
  | thread (a : Move (Fin n))

def Move.mover {τ : Type*} : Move τ → τ
  | .go t _ => t
  | .wake t => t

def Main.Created {n : Nat} (t : Fin n) : Main → Prop
  | .creating i => t < i
  | .joining _ => True

instance {n : Nat} (t : Fin n) : (m : Main) → Decidable (m.Created t)
  | .creating i => inferInstanceAs (Decidable (t < i))
  | .joining _ => isTrue trivial

section

variable {n : Nat} {σ ι κ : Type*}

/-- The thread has returned. -/
def Terminated {τ : Type*} (prog : τ → ι → Instr σ ι κ) (s : State τ σ ι κ) (t : τ) : Prop :=
  ∃ l, s.threads t = .running l ∧ prog t l = .exit

instance {τ : Type*} (prog : τ → ι → Instr σ ι κ) (s : State τ σ ι κ) (t : τ) :
    Decidable (Terminated prog s t) :=
  match h : s.threads t with
  | .asleep _ _ | .woken _ => isFalse (by rintro ⟨l, hl, -⟩; cases h.symm.trans hl)
  | .running l =>
    match h' : prog t l with
    | .exit => isTrue ⟨l, h, h'⟩
    | .lock _ | .unlock _ _ | .wait _ _ | .signal _ _ | .eval _ _ => isFalse (by
        rintro ⟨m, hm, hexit⟩
        cases h.symm.trans hm
        cases h'.symm.trans hexit)

variable [DecidableEq κ]

def joinStep (prog : Fin n → ι → Instr σ ι κ) (s : Joined n σ ι κ) :
    MainMove n → Option (Joined n σ ι κ)
  | .create =>
    match s.main with
    | .creating i => some { s with main := if i < n then .creating (i + 1) else .joining 0 }
    | .joining _ => none
  | .join =>
    match s.main with
    | .creating _ => none
    | .joining i =>
      if h : i < n then
        if Terminated prog s.monitor ⟨i, h⟩ then some { s with main := .joining (i + 1) } else none
      else none
  | .thread a =>
    if s.main.Created a.mover then (step prog s.monitor a).map fun m => { s with monitor := m }
    else none

variable {prog : Fin n → ι → Instr σ ι κ} {s s' : Joined n σ ι κ} {a : MainMove n}

theorem joinStep_cases (h : joinStep prog s a = some s') :
    (∃ b, step prog s.monitor b = some s'.monitor ∧ s'.main = s.main) ∨
    s'.monitor = s.monitor ∧ (s'.main = .joining 0 ∨ (∃ i, s'.main = .creating i) ∨
      ∃ t : Fin n, s.main = .joining t ∧ s'.main = .joining (t + 1) ∧
        Terminated prog s.monitor t) := by
  cases a with
  | create =>
    simp only [joinStep] at h
    split at h
    next i hi =>
      cases h
      dsimp only
      split
      next => exact Or.inr ⟨rfl, Or.inr (Or.inl ⟨_, rfl⟩)⟩
      next => exact Or.inr ⟨rfl, Or.inl rfl⟩
    next => cases h
  | join =>
    simp only [joinStep] at h
    split at h
    next => cases h
    next i hi =>
      split at h
      next hlt =>
        obtain ⟨hdone, h⟩ := Option.ite_none_right_eq_some.mp h
        cases h
        exact Or.inr ⟨rfl, Or.inr (Or.inr ⟨⟨i, hlt⟩, hi, rfl, hdone⟩)⟩
      next => cases h
  | thread b =>
    obtain ⟨-, h⟩ := Option.ite_none_right_eq_some.mp h
    obtain ⟨m, hm, rfl⟩ := Option.map_eq_some_iff.mp h
    exact Or.inl ⟨b, hm, rfl⟩

/-- What the steps of the threads keep is kept by the whole program. -/
theorem joinStep_keeps {Inv : State (Fin n) σ ι κ → Prop}
    (keep : ∀ s a t, Inv s → step prog s a = some t → Inv t) (hs : Inv s.monitor)
    (h : joinStep prog s a = some s') : Inv s'.monitor := by
  rcases joinStep_cases h with ⟨b, hb, -⟩ | ⟨hsame, -⟩
  · exact keep _ b _ hs hb
  · rwa [hsame]

/-- A thread that has returned takes no step, and no other thread changes that. -/
theorem Terminated.step {τ : Type*} [DecidableEq τ] [Fintype τ] {prog : τ → ι → Instr σ ι κ}
    {s s' : State τ σ ι κ} {t : τ} {b : Move τ} (h : Terminated prog s t)
    (hstep : Monitor.step prog s b = some s') : Terminated prog s' t := by
  obtain ⟨l, ht, hexit⟩ := h
  refine ⟨l, ?_, hexit⟩
  have other : ∀ (threads : τ → Status ι κ) (u : τ) (x : Status ι κ), Rouse s.threads threads →
      u ≠ t → Function.update threads u x t = .running l := by
    intro threads u x hthreads hne
    rw [Function.update_of_ne (Ne.symm hne)]
    rcases hthreads t with hsame | ⟨c, m, hasleep, -⟩
    · rw [hsame, ht]
    · cases ht.symm.trans hasleep
  have goes : ∀ {u : τ} {m : ι}, s.threads u = .running m → prog u m ≠ .exit → u ≠ t := by
    rintro u m hu hne rfl
    cases hu.symm.trans ht
    exact hne hexit
  cases fires_of_step hstep with
  | @relock u w m hu => exact other _ u _ (rouse_refl _) (by rintro rfl; cases hu.symm.trans ht)
  | @lock u w m next hu hp => exact other _ u _ (rouse_refl _) (goes hu (by rw [hp]; nofun))
  | @unlock u w m f next hu hp => exact other _ u _ (rouse_refl _) (goes hu (by rw [hp]; nofun))
  | @wait u w m c next hu hp => exact other _ u _ (rouse_refl _) (goes hu (by rw [hp]; nofun))
  | @signal u w m c next threads hu hp hw =>
    exact other _ u _ (rouse_awaken hw) (goes hu (by rw [hp]; nofun))
  | @eval u w m f next hu hp => exact other _ u _ (rouse_refl _) (goes hu (by rw [hp]; nofun))
  | @wake u c m hu => exact other _ u _ (rouse_refl _) (by rintro rfl; cases hu.symm.trans ht)

/-- The threads joined so far have returned. -/
def JoinedUp (prog : Fin n → ι → Instr σ ι κ) (s : Joined n σ ι κ) : Prop :=
  ∀ i, s.main = .joining i → ∀ t : Fin n, t < i → Terminated prog s.monitor t

theorem JoinedUp.step (hs : JoinedUp prog s) (h : joinStep prog s a = some s') :
    JoinedUp prog s' := by
  intro i hi t hlt
  rcases joinStep_cases h with ⟨b, hb, hmain⟩ | ⟨hsame, h0 | ⟨j, hj⟩ | ⟨u, hu, hnext, hdone⟩⟩
  · exact (hs i (hmain ▸ hi) t hlt).step hb
  · cases hi.symm.trans h0
    exact absurd hlt (Nat.not_lt_zero _)
  · cases hi.symm.trans hj
  · cases hi.symm.trans hnext
    rw [hsame]
    by_cases htu : t = u
    · exact htu ▸ hdone
    · refine hs u hu t ?_
      have hne : (t : Nat) ≠ u := fun he => htu (Fin.ext he)
      omega

/-- The main thread can create all threads before any of them runs. -/
theorem creates_all (m : State (Fin n) σ ι κ) :
    Relation.ReflTransGen (Steps (joinStep prog)) ⟨.creating 0, m⟩ ⟨.joining 0, m⟩ := by
  have upto : ∀ i ≤ n, Relation.ReflTransGen (Steps (joinStep prog)) ⟨.creating 0, m⟩
      ⟨.creating i, m⟩ := by
    intro i hi
    induction i with
    | zero => exact .refl
    | succ i ih => exact (ih (by omega)).tail ⟨.create, by simp [joinStep, show i < n by omega]⟩
  exact (upto n n.le_refl).tail ⟨.create, by simp [joinStep]⟩

theorem threads_go {i : Nat} {m m' : State (Fin n) σ ι κ}
    (h : Relation.ReflTransGen (Steps (step prog)) m m') :
    Relation.ReflTransGen (Steps (joinStep prog)) ⟨.joining i, m⟩ ⟨.joining i, m'⟩ := by
  refine h.lift (fun m => (⟨.joining i, m⟩ : Joined n σ ι κ)) ?_
  rintro a b ⟨c, hc⟩
  exact ⟨.thread c, by simp [joinStep, Main.Created, hc]⟩

theorem joins_all {m : State (Fin n) σ ι κ} (h : ∀ t, Terminated prog m t) :
    Relation.ReflTransGen (Steps (joinStep prog)) ⟨.joining 0, m⟩ ⟨.joining n, m⟩ := by
  have upto : ∀ i ≤ n, Relation.ReflTransGen (Steps (joinStep prog)) ⟨.joining 0, m⟩
      ⟨.joining i, m⟩ := by
    intro i hi
    induction i with
    | zero => exact .refl
    | succ i ih =>
      have hlt : i < n := by omega
      exact (ih hlt.le).tail ⟨.join, by simp [joinStep, hlt, h ⟨i, hlt⟩]⟩
  exact upto n n.le_refl

end

end Monitor
