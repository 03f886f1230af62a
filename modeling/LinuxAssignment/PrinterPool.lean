import LinuxAssignment.StepSystem
import Mathlib.Data.Fin.VecNotation
import Mathlib.Data.Fintype.Basic
import Mathlib.Logic.Function.Basic

namespace LinuxAssignment.PrinterPool

open StepSystem

def availablePrinters : Fin 3 → Nat := ![1, 2, 3]

/-- What a call of `get_printer` gave: its number among all calls, and the printer. -/
structure Grant where
  ticket : Nat
  printer : Nat
  deriving DecidableEq

inductive Phase where
  | waiting
  | admitted
  | printing (g : Grant)
  | printed (g : Grant)
  | returned
  deriving DecidableEq

/-- The printer a thread holds between `get_printer` and `sem_post`. -/
def Phase.grant : Phase → Option Grant
  | .printing g | .printed g => some g
  | _ => none

structure Pool (τ : Type) where
  printerSem : Nat
  printerIndex : Fin 3
  calls : Nat
  phase : τ → Phase

/-- The steps of a thread: `sem_wait`, `get_printer`, the end of the printing, `sem_post`. -/
inductive Act (τ : Type) where
  | semWait (t : τ)
  | getPrinter (t : τ)
  | finish (t : τ)
  | semPost (t : τ)

section

variable {τ : Type}

def start : Pool τ := ⟨3, 0, 0, fun _ => .waiting⟩

def getPrinter (printerIndex : Fin 3) : Nat × Fin 3 :=
  (availablePrinters printerIndex, ⟨(printerIndex.val + 1) % 3, Nat.mod_lt _ (by decide)⟩)

def Exclusive (s : Pool τ) : Prop :=
  ∀ t u g h, (s.phase t).grant = some g → (s.phase u).grant = some h → g.printer = h.printer → t = u

/-- The condition: by a call of `get_printer`, the thread of the third call before it has done its
`sem_post`. -/
def InTurn (s : Pool τ) : Act τ → Prop
  | .getPrinter _ => ∀ u, ∀ g ∈ (s.phase u).grant, g.ticket + 3 ≠ s.calls
  | _ => True

instance [Fintype τ] (s : Pool τ) : (a : Act τ) → Decidable (InTurn s a)
  | .getPrinter _ =>
    inferInstanceAs (Decidable (∀ u, ∀ g ∈ (s.phase u).grant, g.ticket + 3 ≠ s.calls))
  | .semWait _ | .finish _ | .semPost _ => inferInstanceAs (Decidable True)

/-- The printers were given out in turn, and each is held only until its turn comes again. -/
structure Numbered (s : Pool τ) : Prop where
  index : s.printerIndex.val = s.calls % 3
  printer : ∀ t g, (s.phase t).grant = some g → g.printer = g.ticket % 3 + 1
  recent : ∀ t g, (s.phase t).grant = some g → g.ticket < s.calls ∧ s.calls ≤ g.ticket + 3
  distinct : ∀ t u g h, (s.phase t).grant = some g → (s.phase u).grant = some h →
    g.ticket = h.ticket → t = u

theorem start_numbered : Numbered (start : Pool τ) := ⟨rfl, nofun, nofun, nofun⟩

theorem Numbered.exclusive {s : Pool τ} (h : Numbered s) : Exclusive s := by
  intro t u g k hg hk hp
  have hg1 := h.printer t g hg
  have hk1 := h.printer u k hk
  have hg2 := h.recent t g hg
  have hk2 := h.recent u k hk
  exact h.distinct t u g k hg hk (by omega)

variable [DecidableEq τ]

def step (s : Pool τ) : Act τ → Option (Pool τ)
  | .semWait t =>
    if s.phase t = .waiting ∧ 0 < s.printerSem then
      some { s with
        printerSem := s.printerSem - 1
        phase := Function.update s.phase t .admitted }
    else none
  | .getPrinter t =>
    if s.phase t = .admitted then
      let (printer, next) := getPrinter s.printerIndex
      some { s with
        printerIndex := next
        calls := s.calls + 1
        phase := Function.update s.phase t (.printing ⟨s.calls, printer⟩) }
    else none
  | .finish t =>
    match s.phase t with
    | .printing g => some { s with phase := Function.update s.phase t (.printed g) }
    | _ => none
  | .semPost t =>
    match s.phase t with
    | .printed _ =>
      some { s with
        printerSem := s.printerSem + 1
        phase := Function.update s.phase t .returned }
    | _ => none

theorem availablePrinters_eq (i : Fin 3) : availablePrinters i = i.val + 1 := by
  revert i
  decide

section

variable {s s' : Pool τ} {a : Act τ}

theorem step_cases (h : step s a = some s') :
    (∃ t, a = .getPrinter t ∧ (s.phase t).grant = none ∧
      s'.printerIndex.val = (s.printerIndex.val + 1) % 3 ∧ s'.calls = s.calls + 1 ∧
      s'.phase = Function.update s.phase t (.printing ⟨s.calls, s.printerIndex.val + 1⟩)) ∨
    InTurn s a ∧ s'.printerIndex = s.printerIndex ∧ s'.calls = s.calls ∧
      ∀ t g, (s'.phase t).grant = some g → (s.phase t).grant = some g := by
  have keeps : ∀ (t : τ) (x : Phase), (x.grant = none ∨ x.grant = (s.phase t).grant) →
      ∀ u g, (Function.update s.phase t x u).grant = some g → (s.phase u).grant = some g := by
    intro t x hx u g hu
    by_cases hut : u = t
    · subst hut
      rw [Function.update_self] at hu
      rcases hx with hx | hx
      · rw [hx] at hu
        cases hu
      · exact hx ▸ hu
    · rwa [Function.update_of_ne hut] at hu
  cases a with
  | getPrinter t =>
    simp only [step] at h
    split at h
    next hp =>
      cases h
      exact Or.inl ⟨t, rfl, by rw [hp]; rfl, rfl, rfl, by simp [getPrinter, availablePrinters_eq]⟩
    next => cases h
  | semWait t =>
    simp only [step] at h
    split at h
    next =>
      cases h
      exact Or.inr ⟨trivial, rfl, rfl, keeps t _ (Or.inl rfl)⟩
    next => cases h
  | finish t =>
    simp only [step] at h
    split at h
    next g hp =>
      cases h
      exact Or.inr ⟨trivial, rfl, rfl, keeps t _ (Or.inr (by rw [hp]; rfl))⟩
    next => cases h
  | semPost t =>
    simp only [step] at h
    split at h
    next =>
      cases h
      exact Or.inr ⟨trivial, rfl, rfl, keeps t _ (Or.inl rfl)⟩
    next => cases h

theorem Numbered.after (hs : Numbered s) (hok : InTurn s a) (h : step s a = some s') :
    Numbered s' := by
  obtain ⟨hi, hp, hr, hd⟩ := hs
  rcases step_cases h with ⟨t, rfl, ht, hindex, hcalls, hphase⟩ | ⟨-, hindex, hcalls, hgrant⟩
  · have old : ∀ u g, (s'.phase u).grant = some g →
        u = t ∧ g = ⟨s.calls, s.printerIndex.val + 1⟩ ∨ u ≠ t ∧ (s.phase u).grant = some g := by
      intro u g hu
      rw [hphase] at hu
      by_cases hut : u = t
      · subst hut
        rw [Function.update_self] at hu
        exact Or.inl ⟨rfl, (Option.some.inj hu).symm⟩
      · rw [Function.update_of_ne hut] at hu
        exact Or.inr ⟨hut, hu⟩
    refine ⟨by omega, fun u g hu => ?_, fun u g hu => ?_, fun u v g k hu hv hticket => ?_⟩
    · rcases old u g hu with ⟨-, rfl⟩ | ⟨-, hg⟩
      · dsimp only
        omega
      · exact hp u g hg
    · rcases old u g hu with ⟨-, rfl⟩ | ⟨-, hg⟩
      · dsimp only
        omega
      · have h1 := hr u g hg
        have h2 := hok u g hg
        omega
    · rcases old u g hu with ⟨rfl, rfl⟩ | ⟨-, hg⟩ <;> rcases old v k hv with ⟨rfl, rfl⟩ | ⟨-, hk⟩
      · rfl
      · have := hr v k hk
        dsimp only at hticket
        omega
      · have := hr u g hg
        dsimp only at hticket
        omega
      · exact hd u v g k hg hk hticket
  · refine ⟨by rw [hindex, hcalls, hi], fun u g hu => hp u g (hgrant u g hu), fun u g hu => ?_,
      fun u v g k hu hv => hd u v g k (hgrant u g hu) (hgrant v k hv)⟩
    rw [hcalls]
    exact hr u g (hgrant u g hu)

/-- A printer handed out before its turn is held twice. -/
theorem Numbered.twice (hs : Numbered s) (hok : ¬ InTurn s a) (h : step s a = some s') :
    ¬ Exclusive s' := by
  intro hex
  rcases step_cases h with ⟨t, rfl, ht, -, -, hphase⟩ | ⟨hturn, -⟩
  · simp only [InTurn] at hok
    push Not at hok
    obtain ⟨u, g, hg, hticket⟩ := hok
    have hut : u ≠ t := by
      rintro rfl
      rw [ht] at hg
      cases hg
    have hu : (s'.phase u).grant = some g := by rw [hphase, Function.update_of_ne hut, hg]
    have hnew : (s'.phase t).grant = some ⟨s.calls, s.printerIndex.val + 1⟩ := by
      rw [hphase, Function.update_self]
      rfl
    have hprinter : g.printer = s.printerIndex.val + 1 := by
      rw [hs.printer u g hg, hs.index]
      omega
    exact hut (hex u t g _ hu hnew hprinter)
  · exact hok hturn

end

/-- In a run of the threads no printer is ever held twice exactly when by each call of
`get_printer` the thread of the third call before it has posted the semaphore. -/
theorem printers_exclusive_iff {es : List (Event (Pool τ) (Act τ))} {s : Pool τ}
    (h : Trace step start es s) :
    (Exclusive (start : Pool τ) ∧ ∀ e ∈ es, Exclusive e.after) ↔
      ∀ e ∈ es, InTurn e.before e.label := by
  have hiff := h.forall_iff Numbered InTurn (fun e => Exclusive e.after)
    (fun s a t hs ht => ⟨fun hex => by_contra fun hok => hs.twice hok ht hex,
      fun hok => (hs.after hok ht).exclusive⟩)
    (fun s a t hs hok ht => hs.after hok ht) start_numbered
  exact ⟨fun hh => hiff.mp hh.2, fun hh => ⟨start_numbered.exclusive, hiff.mpr hh⟩⟩

end

def orderly : List (Act (Fin 4)) :=
  [.semWait 0, .getPrinter 0, .semWait 1, .getPrinter 1, .semWait 2, .getPrinter 2, .finish 0,
    .semPost 0, .semWait 3, .getPrinter 3]

theorem orderly_exclusive :
    (record step start orderly).length = orderly.length ∧
    Exclusive (start : Pool (Fin 4)) ∧ ∀ e ∈ record step start orderly, Exclusive e.after := by
  refine ⟨rfl, (printers_exclusive_iff (Trace.recorded _ _ _)).mpr ?_⟩
  decide

/-- If the second thread is the first to finish, the fourth gets the printer of the first. -/
def overtaking : List (Act (Fin 4)) :=
  [.semWait 0, .getPrinter 0, .semWait 1, .getPrinter 1, .semWait 2, .getPrinter 2, .finish 1,
    .semPost 1, .semWait 3, .getPrinter 3]

theorem printer_held_twice :
    ¬ ∀ (es : List (Event (Pool (Fin 4)) (Act (Fin 4)))) (s : Pool (Fin 4)),
      Trace step start es s → Exclusive s := by
  intro h
  have hlast := h _ _ (Trace.recorded step start overtaking)
  exact absurd (hlast 0 3 ⟨0, 1⟩ ⟨3, 1⟩ rfl rfl rfl) (by decide)

end LinuxAssignment.PrinterPool
