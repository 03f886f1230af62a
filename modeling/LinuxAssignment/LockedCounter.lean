import LinuxAssignment.ByteMemory
import LinuxAssignment.MonitorEnds
import Mathlib.Algebra.BigOperators.Fin

namespace LinuxAssignment.LockedCounter

open ByteMemory StepSystem Monitor

/-- The statements of the three `increment` functions; `counter++` is a load and a store. -/
inductive Pc where
  | test
  | sleep
  | lock
  | load
  | store
  | print
  | unlock
  | finished
  deriving DecidableEq

/-- The global `counter`, the value that each thread has loaded of it, and the number of increments
that each thread has completed (its loop counter `i` where it has a loop). -/
structure Shared (τ : Type) where
  counter : Int
  loaded : τ → Int
  round : τ → Nat

section

variable {τ : Type} [DecidableEq τ]

def Shared.load (t : τ) (s : Shared τ) : Shared τ :=
  { s with loaded := Function.update s.loaded t s.counter }

def Shared.store (t : τ) (s : Shared τ) : Shared τ :=
  { s with counter := int32 (s.loaded t + 1) }

def Shared.count (t : τ) (s : Shared τ) : Shared τ :=
  { s with round := Function.update s.round t (s.round t + 1) }

/-- An `increment` with a loop of `num` rounds, which goes on at `leave` behind it. -/
def increment (num : Nat) (leave : Pc) (t : τ) : Pc → Instr (Shared τ) Pc Empty
  | .test => .eval id fun s => if s.round t < num then .lock else leave
  | .lock => .lock .load
  | .load => .eval (Shared.load t) fun _ => .store
  | .store => .eval (Shared.store t) fun _ => .unlock
  | .unlock => .unlock (Shared.count t) .test
  | .print => .eval id fun _ => .finished
  | .sleep | .finished => .exit

namespace Mutex

def increment (num : Nat) (t : τ) : Pc → Instr (Shared τ) Pc Empty :=
  LockedCounter.increment num .finished t

end Mutex

namespace Ex1

/-- This `increment` has no loop, and prints the counter before it releases the lock. -/
def increment (t : τ) : Pc → Instr (Shared τ) Pc Empty
  | .sleep => .eval id fun _ => .lock
  | .lock => .lock .load
  | .load => .eval (Shared.load t) fun _ => .store
  | .store => .eval (Shared.store t) fun _ => .print
  | .print => .eval id fun _ => .unlock
  | .unlock => .unlock (Shared.count t) .finished
  | .test | .finished => .exit

end Ex1

namespace Ex4

/-- Here the lock is a spin lock, and a line is printed behind the loop. -/
def increment (num : Nat) (t : τ) : Pc → Instr (Shared τ) Pc Empty :=
  LockedCounter.increment num .print t

end Ex4

end

/-- The three programs; `mutex.c` and `ex_4.c` have a number of increments for each thread. -/
inductive Program where
  | mutex (num : Nat)
  | ex1
  | ex4 (num : Nat)

def Program.rounds : Program → Nat
  | .mutex num | .ex4 num => num
  | .ex1 => 1

def Program.increment {τ : Type} [DecidableEq τ] : Program → τ → Pc → Instr (Shared τ) Pc Empty
  | .mutex num => Mutex.increment num
  | .ex1 => Ex1.increment
  | .ex4 num => Ex4.increment num

def Program.entry : Program → Pc
  | .mutex _ | .ex4 _ => .test
  | .ex1 => .sleep

/-- How many steps a thread still takes, with `r` increments completed. -/
def Program.left : Program → Pc → Nat → Nat
  | .mutex num, .test, r => 5 * (num - r) + 1
  | .mutex num, .lock, r => 5 * (num - r)
  | .mutex num, .load, r => 5 * (num - r) - 1
  | .mutex num, .store, r => 5 * (num - r) - 2
  | .mutex num, .unlock, r => 5 * (num - r) - 3
  | .ex4 num, .test, r => 5 * (num - r) + 2
  | .ex4 num, .lock, r => 5 * (num - r) + 1
  | .ex4 num, .load, r => 5 * (num - r)
  | .ex4 num, .store, r => 5 * (num - r) - 1
  | .ex4 num, .unlock, r => 5 * (num - r) - 2
  | .ex4 _, .print, _ => 1
  | .ex1, .sleep, _ => 6
  | .ex1, .lock, _ => 5
  | .ex1, .load, _ => 4
  | .ex1, .store, _ => 3
  | .ex1, .print, _ => 2
  | .ex1, .unlock, _ => 1
  | _, _, _ => 0

/-- The steps of one thread from its creation to its return. -/
def Program.steps (p : Program) : Nat := p.left p.entry 0

abbrev State (n : Nat) := Joined n (Shared (Fin n)) Pc Empty

def start (p : Program) (n : Nat) : State n :=
  ⟨.creating 0, ⟨⟨0, fun _ => 0, fun _ => 0⟩, none, fun _ => .running p.entry⟩⟩

/-- How far a thread is with an increment: outside the lock, with the counter still to be loaded,
loaded, or stored again. -/
inductive Phase where
  | outside
  | clean
  | loaded
  | stored
  deriving DecidableEq

def Program.phase : Program → Pc → Phase
  | _, .load => .clean
  | _, .store => .loaded
  | _, .unlock | .ex1, .print => .stored
  | _, _ => .outside

inductive Access {τ : Type} [DecidableEq τ] (t : τ) : Phase → (Shared τ → Shared τ) → Phase → Prop
  | quiet {ph} : Access t ph id ph
  | load : Access t .clean (Shared.load t) .loaded
  | store : Access t .loaded (Shared.store t) .stored

def Holds {τ : Type} (p : Program) (_ : τ) (l : Pc) : Prop := p.phase l ≠ .outside

section

variable {τ : Type} [Fintype τ]

def Shared.total (s : Shared τ) : Nat := ∑ t, s.round t

/-- While the lock is free the counter is the number of completed increments. -/
def Exact (s : Shared τ) : Prop := s.counter = int32 s.total

/-- What a thread that holds the lock knows. -/
def Inside (p : Program) (t : τ) (l : Pc) (s : Shared τ) : Prop :=
  match p.phase l with
  | .outside => True
  | .clean => Exact s
  | .loaded => Exact s ∧ s.loaded t = s.counter
  | .stored => s.counter = int32 (s.total + 1)

/-- The number `r` of completed increments at each place. -/
def Program.Counted : Program → Pc → Nat → Prop
  | .mutex num, .test, r | .ex4 num, .test, r => r ≤ num
  | .mutex num, .finished, r | .ex4 num, .finished, r | .ex4 num, .print, r => r = num
  | .mutex _, .sleep, _ | .ex4 _, .sleep, _ | .mutex _, .print, _ | .ex1, .test, _ => False
  | .mutex num, _, r | .ex4 num, _, r => r < num
  | .ex1, .finished, r => r = 1
  | .ex1, _, r => r = 0

def Knows (p : Program) (t : τ) (l : Pc) (s : Shared τ) : Prop := p.Counted l (s.round t)

end

section

variable {τ : Type} [DecidableEq τ] {p : Program} {t u : τ} {l next m : Pc} {s s' : Shared τ}
  {f : Shared τ → Shared τ}

theorem Access.outside_iff {ph ph' : Phase} (h : Access t ph f ph') :
    (ph' = .outside ↔ ph = .outside) ∧ (ph = .outside → f = id) := by
  cases h with
  | quiet => exact ⟨Iff.rfl, fun _ => rfl⟩
  | load => exact ⟨iff_of_false nofun nofun, nofun⟩
  | store => exact ⟨iff_of_false nofun nofun, nofun⟩

theorem increment_lock (h : p.increment t l = .lock next) : l = .lock ∧ next = .load := by
  cases p <;> cases l <;> cases h <;> exact ⟨rfl, rfl⟩

theorem increment_unlock (h : p.increment t l = .unlock f next) :
    l = .unlock ∧ f = Shared.count t ∧ p.phase next = .outside := by
  cases p <;> cases l <;> cases h <;> exact ⟨rfl, rfl, rfl⟩

theorem increment_eval {next : Shared τ → Pc} (h : p.increment t l = .eval f next)
    (s : Shared τ) : Access t (p.phase l) f (p.phase (next s)) := by
  cases p <;> cases l <;> cases h
  case mutex.test | ex4.test => dsimp only; split <;> exact .quiet
  case mutex.load | ex1.load | ex4.load => exact .load
  case mutex.store | ex1.store | ex4.store => exact .store
  all_goals exact .quiet

theorem increment_exit (h : p.increment t l = .exit) : p.phase l = .outside := by
  cases p <;> cases l <;> cases h <;> rfl

theorem disciplined (p : Program) : Disciplined (τ := τ) p.increment (Holds p) where
  lock := by
    intro t l next h
    obtain ⟨rfl, rfl⟩ := increment_lock h
    cases p <;> exact ⟨fun hh => hh rfl, nofun⟩
  unlock := by
    intro t l f next h
    obtain ⟨rfl, -, hnext⟩ := increment_unlock h
    cases p <;> exact ⟨nofun, fun hh => hh hnext⟩
  wait := by
    intro t l c
    exact c.elim
  signal := by
    intro t l c
    exact c.elim
  eval := by
    intro t l f next s h
    obtain ⟨hiff, hid⟩ := (increment_eval h s).outside_iff
    exact ⟨not_congr hiff, fun hout => congrFun (hid (not_not.mp hout)) s⟩
  exit := by
    intro t l h hh
    exact hh (increment_exit h)

theorem Knows.own (h : (p.increment t l).after s = some (s', m)) (hk : Knows p t l s) :
    Knows p t m s' := by
  unfold Knows at hk ⊢
  cases p <;> cases l <;> cases h
  case mutex.test num | ex4.test num =>
    have hle : s.round t ≤ num := hk
    dsimp only
    split
    next hlt => exact hlt
    next hge => exact Nat.le_antisymm hle (Nat.not_lt.mp hge)
  case mutex.unlock num | ex4.unlock num =>
    have hlt : s.round t < num := hk
    simp only [Shared.count, Function.update_self]
    exact hlt
  case ex1.unlock =>
    have hzero : s.round t = 0 := hk
    simp only [Shared.count, Function.update_self, hzero]
    rfl
  case mutex.print => exact absurd hk id
  all_goals exact hk

theorem Knows.other (hu : u ≠ t) (h : (p.increment u m).after s = some (s', next))
    (hk : Knows p t l s) : Knows p t l s' := by
  have hround : s'.round t = s.round t := by
    cases p <;> cases m <;> cases h
    case mutex.unlock | ex1.unlock | ex4.unlock => exact Function.update_of_ne (Ne.symm hu) _ _
    all_goals rfl
  unfold Knows at hk ⊢
  rwa [hround]

theorem Knows.finished (hexit : p.increment t l = .exit) (hk : Knows p t l s) :
    s.round t = p.rounds := by
  cases p <;> cases l <;> cases hexit
  case mutex.sleep | ex1.test | ex4.sleep => exact absurd hk id
  all_goals exact hk

variable [Fintype τ]

theorem total_count (t : τ) (s : Shared τ) : (Shared.count t s).total = s.total + 1 := by
  simp only [Shared.total, Shared.count, Finset.sum_update_of_mem (Finset.mem_univ t),
    Finset.sdiff_singleton_eq_erase]
  have hsplit := Finset.add_sum_erase Finset.univ s.round (Finset.mem_univ t)
  omega

theorem Inside.access {ph ph' : Phase} (h : Access t ph f ph') (hph : p.phase l = ph)
    (hph' : p.phase m = ph') (hA : Inside p t l s) : Inside p t m (f s) := by
  unfold Inside at hA ⊢
  rw [hph] at hA
  rw [hph']
  cases h with
  | quiet => exact hA
  | load => exact ⟨hA, Function.update_self _ _ _⟩
  | store =>
    obtain ⟨hexact, hloaded⟩ := hA
    have htotal : (Shared.store t s).total = s.total := rfl
    rw [htotal, Shared.store, hloaded, hexact, int32_add]

theorem outline (p : Program) :
    Outline (τ := τ) p.increment (Holds p) (fun _ _ _ => True) Exact (Inside p) (Knows p) where
  lock := by
    intro t l next s h hI _
    obtain ⟨-, rfl⟩ := increment_lock h
    cases p <;> exact hI
  resume := by
    intro t l c
    exact c.elim
  wait := by
    intro t l c
    exact c.elim
  unlock := by
    intro t l f next s h hA _
    obtain ⟨rfl, rfl, -⟩ := increment_unlock h
    have hstored : s.counter = int32 (s.total + 1) := by cases p <;> exact hA
    rw [Exact, total_count]
    exact hstored
  signal := by
    intro t l c
    exact c.elim
  eval := by
    intro t l f next s h _ hA _ _
    exact hA.access (increment_eval h s) rfl rfl
  own h _ hk := hk.own h
  other hu h hk := hk.other hu h

end

section

variable {p : Program} {n : Nat} {s s' : State n} {a : MainMove n}

/-- What holds of every state of the program. -/
structure Consistent (p : Program) (s : Joined n (Shared (Fin n)) Pc Empty) : Prop where
  locked : Locked p.increment (Holds p) s.monitor
  asserted : Asserted (Holds p) Exact (Inside p) (Knows p) s.monitor
  joined : JoinedUp p.increment s

theorem Consistent.step (hs : Consistent p s) (h : joinStep p.increment s a = some s') :
    Consistent p s' := by
  have keep : ∀ (m : Monitor.State (Fin n) (Shared (Fin n)) Pc Empty) (b : Move (Fin n)) m',
      Locked p.increment (Holds p) m ∧ Asserted (Holds p) Exact (Inside p) (Knows p) m →
      Monitor.step p.increment m b = some m' →
      Locked p.increment (Holds p) m' ∧ Asserted (Holds p) Exact (Inside p) (Knows p) m' :=
    fun _ _ _ hm ht => ⟨hm.1.step (disciplined p) ht,
      (outline p).step (disciplined p) hm.1 hm.2 (allowed_any _ _) ht⟩
  obtain ⟨hlocked, hasserted⟩ := joinStep_keeps keep ⟨hs.locked, hs.asserted⟩ h
  exact ⟨hlocked, hasserted, hs.joined.step h⟩

theorem start_consistent (p : Program) (n : Nat) : Consistent p (start p n) where
  locked := by
    refine ⟨fun t => iff_of_false nofun ?_, nofun, nofun⟩
    rintro ⟨l, hl, hm⟩
    cases hl
    cases p <;> exact hm rfl
  asserted := by
    refine ⟨fun t => ?_, fun _ => ?_, fun hl hm => ?_⟩
    · cases p <;> simp [Knows, Program.Counted, start, Program.entry, Status.at]
    · simp [Exact, Shared.total, start, int32]
    · cases hl
      cases p <;> exact absurd rfl hm
  joined := nofun

/-- When all threads are joined, the lock is free and each has made all its increments. -/
theorem Consistent.all_joined (hs : Consistent p s) (hmain : s.main = .joining n) :
    s.monitor.owner = none ∧ ∀ t, s.monitor.shared.round t = p.rounds := by
  have hdone : ∀ t : Fin n, Terminated p.increment s.monitor t := fun t => hs.joined n hmain t t.isLt
  constructor
  · cases how : s.monitor.owner with
    | none => rfl
    | some t =>
      obtain ⟨l, ht, hm⟩ := (hs.locked.owner t).mp how
      obtain ⟨l', ht', hexit⟩ := hdone t
      cases ht.symm.trans ht'
      exact absurd (increment_exit hexit) hm
  · intro t
    obtain ⟨l, ht, hexit⟩ := hdone t
    have hk := hs.asserted.always t
    rw [ht] at hk
    exact hk.finished hexit

theorem countdown (p : Program) (n : Nat) :
    Countdown p.increment (Knows p) fun (t : Fin n) l s => p.left l (s.round t) where
  own := by
    intro t l m s s' hk h
    unfold Knows at hk
    cases p <;> cases l <;> cases h
    case mutex.test num | ex4.test num =>
      dsimp only
      split
      next hlt =>
        simp only [Program.left, id_eq]
      next hge =>
        simp only [Program.left]
        omega
    case mutex.unlock num | ex4.unlock num =>
      have hlt : s.round t < num := hk
      simp only [Program.left, Shared.count, Function.update_self]
      omega
    case mutex.print => exact absurd hk id
    case mutex.lock num | mutex.load num | mutex.store num | ex4.load num | ex4.store num =>
      have hlt : s.round t < num := hk
      simp only [Program.left, Shared.load, Shared.store]
      omega
    all_goals rfl
  other := by
    intro t u l m k s s' hu h
    have hround : s'.round t = s.round t := by
      cases p <;> cases m <;> cases h
      case mutex.unlock | ex1.unlock | ex4.unlock => exact Function.update_of_ne (Ne.symm hu) _ _
      all_goals rfl
    rw [hround]

/-- The steps that a program still takes. -/
def Program.remaining (p : Program) {n : Nat} (s : State n) : Nat :=
  Joined.remaining (fun t l x => p.left l (x.round t)) s

/-- What a run of the whole program keeps, and how many steps it has. -/
theorem run_counts {es : List (Event (State n) (MainMove n))}
    (h : Trace (joinStep p.increment) (start p n) es s) :
    (Consistent p s ∧ s.main.Within n) ∧ es.length + p.remaining s = 2 * n + 1 + n * p.steps := by
  have lower : ∀ (s : State n) (a : MainMove n) (t : State n), Consistent p s ∧ s.main.Within n →
      joinStep p.increment s a = some t → (Consistent p t ∧ t.main.Within n) ∧
        p.remaining t + 1 = p.remaining s := by
    rintro s a t ⟨hs, hmain⟩ ht
    obtain ⟨hwithin, heq⟩ := (countdown p n).joinStep hs.locked hs.asserted.always hmain ht
    exact ⟨⟨hs.step ht, hwithin⟩, heq⟩
  have hstart : Consistent p (start p n) ∧ (start p n).main.Within n :=
    ⟨start_consistent p n, Nat.zero_le n⟩
  have keep : ∀ (s : State n) (a : MainMove n) (t : State n), Consistent p s ∧ s.main.Within n →
      True → joinStep p.increment s a = some t → Consistent p t ∧ t.main.Within n :=
    fun s a t hs _ ht => (lower s a t hs ht).1
  refine ⟨h.invariant keep hstart fun _ _ => trivial, ?_⟩
  have hfirst : p.remaining (start p n) = 2 * n + 1 + n * p.steps := by
    simp [Program.remaining, Joined.remaining, Main.remaining, allLeft, start, Status.at,
      Program.steps]
    omega
  rw [h.length_eq lower hstart, hfirst]

/-- No update is lost: while the lock is free the counter is the number of completed increments,
and behind all joins it is their number for all threads, as a 32-bit integer. The joins are come to:
a run has at most so many steps, and where it cannot go on all threads are joined. -/
theorem no_update_lost {es : List (Event (State n) (MainMove n))}
    (h : Trace (joinStep p.increment) (start p n) es s) :
    (s.monitor.owner = none →
      s.monitor.shared.counter = int32 (∑ t, (s.monitor.shared.round t : Int))) ∧
    (s.main = .joining n → s.monitor.shared.counter = int32 (n * p.rounds)) ∧
    es.length ≤ 2 * n + 1 + n * p.steps ∧
    ((∀ a, joinStep p.increment s a = none) → s.main = .joining n) := by
  obtain ⟨⟨hs, hmain⟩, hcount⟩ := run_counts h
  have hfree : s.monitor.owner = none →
      s.monitor.shared.counter = int32 (∑ t, (s.monitor.shared.round t : Int)) := by
    intro hfree
    have hexact : s.monitor.shared.counter = int32 s.monitor.shared.total := hs.asserted.free hfree
    rw [hexact, Shared.total, Nat.cast_sum]
  refine ⟨hfree, fun hjoined => ?_, by omega, joined_of_stuck (disciplined p) hs.locked hmain⟩
  obtain ⟨hnone, hround⟩ := hs.all_joined hjoined
  rw [hfree hnone]
  simp [hround]

end

def goes (t : Fin 2) (k : Nat) : List (MainMove 2) := List.replicate k (.thread (.go t none))

/-- The first thread of `mutex.c` holds the lock between its load and its store when the second one
gets to it. -/
def twoThreads : List (MainMove 2) :=
  [.create, .create, .create] ++ goes 0 3 ++ goes 1 1 ++ goes 0 3 ++ goes 1 5 ++ [.join, .join]

/-- The threads of `ex_1.c` sleep before they come to the lock, the second one first. -/
def twoSleepers : List (MainMove 2) :=
  [.create, .create, .create] ++ goes 1 2 ++ goes 0 1 ++ goes 1 4 ++ goes 0 5 ++ [.join, .join]

/-- The threads of `ex_4.c` take the spin lock in turn, twice each. -/
def twoSpinners : List (MainMove 2) :=
  [.create, .create, .create] ++ goes 0 5 ++ goes 1 5 ++ goes 0 7 ++ goes 1 7 ++ [.join, .join]

/-- A run of two threads goes to its end, where the counter is what both have added. -/
def Counts (p : Program) (run : List (MainMove 2)) : Prop :=
  (record (joinStep p.increment) (start p 2) run).length = run.length ∧
    (last (joinStep p.increment) (start p 2) run).main = .joining 2 ∧
    (last (joinStep p.increment) (start p 2) run).monitor.shared.counter =
      int32 ((2 : Nat) * p.rounds)

theorem twoThreads_counted :
    Counts (.mutex 1) twoThreads ∧ Counts .ex1 twoSleepers ∧ Counts (.ex4 2) twoSpinners :=
  ⟨⟨rfl, rfl, (no_update_lost (Trace.recorded _ _ _)).2.1 rfl⟩,
    ⟨rfl, rfl, (no_update_lost (Trace.recorded _ _ _)).2.1 rfl⟩,
    ⟨rfl, rfl, (no_update_lost (Trace.recorded _ _ _)).2.1 rfl⟩⟩

end LinuxAssignment.LockedCounter
