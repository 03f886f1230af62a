import LinuxAssignment.Mutexes
import Mathlib.Data.Fintype.Card

namespace LinuxAssignment.DemoDeadlock

open Mutexes Relation StepSystem

inductive Lock where
  | lock1
  | lock2
  deriving DecidableEq

inductive Thread where
  | thread1
  | thread2
  deriving DecidableEq

instance : Fintype Thread where
  elems := {.thread1, .thread2}
  complete := by
    intro t
    cases t <;> simp

/-- The statements of the two `increment` functions, which take a first and a second lock. -/
inductive Pc where
  | test
  | lockFirst
  | sleep
  | lockSecond
  | print
  | unlockSecond
  | unlockFirst
  | finished
  deriving DecidableEq

/-- The loop counter of each thread and what is printed, by the thread that printed it. -/
structure Shared where
  round : Thread → Nat
  printed : List Thread

def Shared.print (t : Thread) (s : Shared) : Shared := { s with printed := s.printed ++ [t] }

def Shared.next (t : Thread) (s : Shared) : Shared :=
  { s with round := Function.update s.round t (s.round t + 1) }

/-- A round under both locks; behind it the thread does `back` and goes on at `leave`. -/
def increment (first second : Lock) (back : Shared → Shared) (leave : Pc) (num : Nat) (t : Thread) :
    Pc → Instr Shared Pc Lock
  | .test => .eval id fun s => if s.round t < num then .lockFirst else .finished
  | .lockFirst => .lock first .sleep
  | .sleep => .eval id fun _ => .lockSecond
  | .lockSecond => .lock second .print
  | .print => .eval (Shared.print t) fun _ => .unlockSecond
  | .unlockSecond => .unlock second id .unlockFirst
  | .unlockFirst => .unlock first back leave
  | .finished => .exit

def increment1 (num : Nat) : Pc → Instr Shared Pc Lock :=
  increment .lock1 .lock2 (Shared.next .thread1) .test num .thread1

/-- Its `return NULL` stands inside the loop. -/
def increment2 (num : Nat) : Pc → Instr Shared Pc Lock :=
  increment .lock2 .lock1 id .finished num .thread2

def program (num : Nat) : Thread → Pc → Instr Shared Pc Lock
  | .thread1 => increment1 num
  | .thread2 => increment2 num

abbrev State := Mutexes.State Thread Shared Pc Lock

def start : State := ⟨⟨fun _ => 0, []⟩, fun _ => none, fun _ => .test⟩

def first : Thread → Lock
  | .thread1 => .lock1
  | .thread2 => .lock2

def second : Thread → Lock
  | .thread1 => .lock2
  | .thread2 => .lock1

def Holds (t : Thread) (l : Pc) (k : Lock) : Prop :=
  match l with
  | .test | .lockFirst | .finished => False
  | .sleep | .lockSecond | .unlockFirst => k = first t
  | .print | .unlockSecond => True

/-- Each thread holds its first lock and is on its way to the other's. -/
def Crossed (s : State) : Prop := ∀ t, s.place t = .sleep ∨ s.place t = .lockSecond

def Returned (s : State) : Prop := ∀ t, s.place t = .finished

/-- The rounds of a thread: the second returns in its first one. -/
def rounds (num : Nat) : Thread → Nat
  | .thread1 => num
  | .thread2 => min 1 num

/-- What a thread has printed, by where it is. -/
def Counted (num : Nat) (t : Thread) (l : Pc) (s : Shared) : Prop :=
  match l with
  | .test => s.round t ≤ num ∧ s.printed.count t = s.round t
  | .lockFirst | .sleep | .lockSecond | .print =>
    s.round t < num ∧ s.printed.count t = s.round t
  | .unlockSecond | .unlockFirst => s.round t < num ∧ s.printed.count t = s.round t + 1
  | .finished => s.printed.count t = rounds num t

/-- A bound on the steps a thread still has to take. -/
def left (num : Nat) (t : Thread) (l : Pc) (s : Shared) : Nat :=
  match l with
  | .test => 7 * (num - s.round t) + 1
  | .lockFirst => 7 * (num - s.round t)
  | .sleep => 7 * (num - s.round t) - 1
  | .lockSecond => 7 * (num - s.round t) - 2
  | .print => 7 * (num - s.round t) - 3
  | .unlockSecond => 7 * (num - s.round t) - 4
  | .unlockFirst => 7 * (num - s.round t) - 5
  | .finished => 0

structure Consistent (num : Nat) (s : State) : Prop where
  owned : Owned Holds s
  once : s.shared.round .thread2 = 0
  counted : ∀ t, Counted num t (s.place t) s.shared

variable {num : Nat} {s s' : State} {t u : Thread}

theorem tidy (num : Nat) : Tidy (program num) Holds where
  lock := by
    intro t l k next h
    cases t <;> cases l <;> cases h <;> refine ⟨nofun, fun j => ?_⟩ <;> cases j <;>
      simp [Holds, first]
  unlock := by
    intro t l k f next h
    cases t <;> cases l <;> cases h <;>
      refine ⟨by simp [Holds, first], fun j => ?_⟩ <;> cases j <;> simp [Holds, first]
  eval := by
    intro t l f next h s j
    have htest : ∀ (c : Prop) [Decidable c] (t : Thread),
        Holds t (if c then .lockFirst else .finished) j ↔ False := by
      intro c _ t
      split <;> exact Iff.rfl
    cases t <;> cases l <;> cases h
    case thread1.test | thread2.test => exact htest _ _
    all_goals exact Iff.rfl
  exit := by
    intro t l h j
    cases t <;> cases l <;> cases h <;> exact id

theorem Counted.own {l m : Pc} {x x' : Shared} (h : (program num t l).after x = some (x', m))
    (honce : x.round .thread2 = 0) (hc : Counted num t l x) : Counted num t m x' := by
  have htest : ∀ t, (t = .thread1 ∨ x.round t = 0) → Counted num t .test x →
      Counted num t (if x.round t < num then .lockFirst else .finished) x := by
    intro t ht hc
    obtain ⟨hle, hcount⟩ := hc
    split
    next hlt => exact ⟨hlt, hcount⟩
    next hge =>
      change x.printed.count t = rounds num t
      cases t with
      | thread1 =>
        change x.printed.count .thread1 = num
        omega
      | thread2 =>
        change x.printed.count .thread2 = min 1 num
        omega
  cases t <;> cases l <;> cases h
  case thread1.test => exact htest _ (Or.inl rfl) hc
  case thread2.test => exact htest _ (Or.inr honce) hc
  case thread1.print | thread2.print =>
    obtain ⟨hlt, hcount⟩ := hc
    refine ⟨hlt, ?_⟩
    simp [Shared.print, hcount]
  case thread1.unlockFirst =>
    obtain ⟨hlt, hcount⟩ := hc
    refine ⟨?_, ?_⟩ <;> simp only [Shared.next, Function.update_self]
    · exact hlt
    · exact hcount
  case thread2.unlockFirst =>
    obtain ⟨hlt, hcount⟩ := hc
    change x.printed.count .thread2 = min 1 num
    omega
  all_goals exact hc

theorem after_other {l m : Pc} {x x' : Shared} (h : (program num u l).after x = some (x', m))
    (hut : u ≠ t) : x'.round t = x.round t ∧ x'.printed.count t = x.printed.count t := by
  cases u <;> cases l <;> cases h
  case thread1.print | thread2.print => exact ⟨rfl, by simp [Shared.print, hut]⟩
  case thread1.unlockFirst => exact ⟨Function.update_of_ne hut.symm _ _, rfl⟩
  all_goals exact ⟨rfl, rfl⟩

theorem Counted.other {l : Pc} {x x' : Shared} (hround : x'.round t = x.round t)
    (hcount : x'.printed.count t = x.printed.count t) (hc : Counted num t l x) :
    Counted num t l x' := by
  unfold Counted at hc ⊢
  rwa [hround, hcount]

theorem after_once {l m : Pc} {x x' : Shared} (h : (program num t l).after x = some (x', m)) :
    x'.round .thread2 = x.round .thread2 := by
  cases t with
  | thread1 => exact (after_other h (by decide)).1
  | thread2 => cases l <;> cases h <;> rfl

theorem after_left {l m : Pc} {x x' : Shared} (h : (program num t l).after x = some (x', m))
    (hc : Counted num t l x) : left num t m x' < left num t l x := by
  have htest : ∀ t, left num t (if x.round t < num then .lockFirst else .finished) x <
      left num t .test x := by
    intro t
    split <;> simp only [left] <;> omega
  cases t <;> cases l <;> cases h
  case thread1.test | thread2.test => exact htest _
  case thread1.unlockFirst =>
    have hlt := hc.1
    simp only [left, Shared.next, Function.update_self]
    omega
  all_goals
    have hlt := hc.1
    simp only [left, Shared.print, id]
    omega

theorem Consistent.step (hs : Consistent num s) (h : Mutexes.step (program num) s t = some s') :
    Consistent num s' := by
  have hfires := fires_of_step h
  refine ⟨hs.owned.step (tidy num) h, (after_once hfires.after).trans hs.once, fun u => ?_⟩
  by_cases hut : u = t
  · subst hut
    exact (hs.counted u).own hfires.after hs.once
  · obtain ⟨hround, hcount⟩ := after_other hfires.after (Ne.symm hut)
    rw [hfires.place_of_ne hut]
    exact (hs.counted u).other hround hcount

theorem start_consistent (num : Nat) : Consistent num start :=
  ⟨fun _ _ => iff_of_false nofun id, rfl, fun _ => ⟨Nat.zero_le num, rfl⟩⟩

theorem advances (num : Nat) : Advances (program num) Holds (Consistent num)
    fun t s => left num t (s.place t) s.shared where
  owned := Consistent.owned
  keeps := fun hs h => hs.step h
  closer := fun hs h => after_left (fires_of_step h).after (hs.counted _)

theorem run_consistent {es : List (Event State Thread)}
    (h : Trace (Mutexes.step (program num)) start es s) : Consistent num s := by
  have keep : ∀ (s : State) (t : Thread) (s' : State), Consistent num s → True →
      Mutexes.step (program num) s t = some s' → Consistent num s' := fun _ _ _ hs _ ht => hs.step ht
  exact h.invariant keep (start_consistent num) fun _ _ => trivial

def other : Thread → Thread
  | .thread1 => .thread2
  | .thread2 => .thread1

theorem eq_or_other (t u : Thread) : u = t ∨ u = other t := by
  cases t <;> cases u <;> simp [other]

/-- A thread that holds nothing leaves both locks to the other. -/
theorem Consistent.freeFor_other (hs : Consistent num s) (h : ∀ k, ¬ Holds t (s.place t) k) :
    FreeFor (other t) s := by
  intro k u hu
  rcases eq_or_other t u with rfl | hut
  · exact absurd ((hs.owned k u).mp hu) (h k)
  · exact hut

theorem Consistent.freeFor_self (hs : Consistent num s) (h : ∀ k, Holds t (s.place t) k) :
    FreeFor t s := by
  intro k u hu
  exact (hs.owned.exclusive (h k) ((hs.owned k u).mp hu)).symm

theorem program_unlockFirst (num : Nat) (t : Thread) :
    ∃ f next, program num t .unlockFirst = .unlock (first t) f next ∧ ∀ k, ¬ Holds t next k := by
  cases t with
  | thread1 => exact ⟨_, _, rfl, fun _ => id⟩
  | thread2 => exact ⟨_, _, rfl, fun _ => id⟩

theorem program_sleep (num : Nat) (t : Thread) :
    program num t .sleep = .eval id fun _ => .lockSecond := by
  cases t <;> rfl

theorem program_lockSecond (num : Nat) (t : Thread) :
    program num t .lockSecond = .lock (second t) .print := by
  cases t <;> rfl

/-- Unless the threads have crossed, one of them gets both locks after one step at most. -/
theorem Consistent.free_of_not_crossed (hs : Consistent num s) (h : ¬ Crossed s) :
    ∃ s', ReflTransGen (Steps (Mutexes.step (program num))) s s' ∧ Consistent num s' ∧
      ∃ t, FreeFor t s' := by
  simp only [Crossed, not_forall, not_or] at h
  obtain ⟨t, hsleep, hsecond⟩ := h
  have nothing : (∀ k, ¬ Holds t (s.place t) k) → ∃ s',
      ReflTransGen (Steps (Mutexes.step (program num))) s s' ∧ Consistent num s' ∧
        ∃ t, FreeFor t s' := fun hno => ⟨s, .refl, hs, other t, hs.freeFor_other hno⟩
  have both : (∀ k, Holds t (s.place t) k) → ∃ s',
      ReflTransGen (Steps (Mutexes.step (program num))) s s' ∧ Consistent num s' ∧
        ∃ t, FreeFor t s' := fun hall => ⟨s, .refl, hs, t, hs.freeFor_self hall⟩
  cases hl : s.place t with
  | test => exact nothing fun k => by rw [hl]; exact id
  | lockFirst => exact nothing fun k => by rw [hl]; exact id
  | finished => exact nothing fun k => by rw [hl]; exact id
  | print => exact both fun k => by rw [hl]; trivial
  | unlockSecond => exact both fun k => by rw [hl]; trivial
  | sleep => exact absurd hl hsleep
  | lockSecond => exact absurd hl hsecond
  | unlockFirst =>
    have how : s.owner (first t) = some t := (hs.owned _ t).mpr (by rw [hl]; exact rfl)
    obtain ⟨f, next, hp, hnext⟩ := program_unlockFirst num t
    have hstep := step_of_unlock (hl.symm ▸ hp) how
    refine ⟨_, .single ⟨t, hstep⟩, hs.step hstep, other t,
      (hs.step hstep).freeFor_other fun k => ?_⟩
    dsimp only
    rw [Function.update_self]
    exact hnext k

/-- Threads that have crossed only fall asleep in front of their second locks. -/
theorem Crossed.step (hc : Crossed s) (hs : Consistent num s)
    (h : Mutexes.step (program num) s t = some s') :
    s.place t = .sleep ∧ s'.place t = .lockSecond ∧ s'.shared = s.shared := by
  rcases hc t with ht | ht
  · have hafter := (fires_of_step h).after
    rw [ht, program_sleep] at hafter
    obtain ⟨hshared, hplace⟩ := Prod.mk.inj (Option.some.inj hafter)
    exact ⟨ht, hplace.symm, hshared.symm⟩
  · have hheld : s.owner (second t) = some (other t) := by
      refine (hs.owned _ _).mpr ?_
      have hfirst : second t = first (other t) := by cases t <;> rfl
      rcases hc (other t) with hu | hu <;> rw [hu] <;> exact hfirst
    simp [Mutexes.step, ht, program_lockSecond, hheld] at h

theorem Crossed.after (hc : Crossed s) (hs : Consistent num s)
    (h : Mutexes.step (program num) s t = some s') : Crossed s' := by
  obtain ⟨-, hplace, -⟩ := hc.step hs h
  intro u
  by_cases hut : u = t
  · exact Or.inr (hut ▸ hplace)
  · rw [(fires_of_step h).place_of_ne hut]
    exact hc u

/-- How many threads are asleep between their locks. -/
def sleepers (s : State) : Nat := (Finset.univ.filter fun t => s.place t = .sleep).card

theorem sleepers_step (h : Mutexes.step (program num) s t = some s') (ht : s.place t = .sleep)
    (ht' : s'.place t = .lockSecond) : sleepers s' + 1 = sleepers s := by
  have hsplit : (Finset.univ.filter fun u => s.place u = .sleep) =
      insert t (Finset.univ.filter fun u => s'.place u = .sleep) := by
    ext u
    simp only [Finset.mem_filter, Finset.mem_univ, true_and, Finset.mem_insert]
    by_cases hut : u = t
    · simp [hut, ht]
    · simp [(fires_of_step h).place_of_ne hut, hut]
  rw [sleepers, sleepers, hsplit, Finset.card_insert_of_notMem (by simp [ht'])]

theorem Crossed.run {es : List (Event State Thread)} (hc : Crossed s) (hs : Consistent num s)
    (h : Trace (Mutexes.step (program num)) s es s') :
    Crossed s' ∧ s'.shared = s.shared ∧ sleepers s' + es.length = sleepers s := by
  induction h with
  | nil => exact ⟨hc, rfl, rfl⟩
  | cons hstep _ ih =>
    obtain ⟨ht, ht', hshared⟩ := hc.step hs hstep
    obtain ⟨hc', hshared', hcount⟩ := ih (hc.after hs hstep) (hs.step hstep)
    have hsleepers := sleepers_step hstep ht ht'
    refine ⟨hc', hshared'.trans hshared, ?_⟩
    rw [List.length_cons]
    omega

/-- Threads that have crossed print nothing more, and stop after two steps at most. -/
theorem crossed_forever {es es' : List (Event State Thread)}
    (h : Trace (Mutexes.step (program num)) start es s) (hc : Crossed s)
    (h' : Trace (Mutexes.step (program num)) s es' s') :
    Crossed s' ∧ s'.shared.printed = s.shared.printed ∧ es'.length ≤ 2 := by
  obtain ⟨hc', hshared, hcount⟩ := hc.run (run_consistent h) h'
  have hle : sleepers s ≤ 2 := (Finset.univ.filter fun t => s.place t = .sleep).card_le_univ
  exact ⟨hc', congrArg Shared.printed hshared, by omega⟩

/-- The program can still end exactly while the threads have not crossed. -/
theorem can_return_iff (num : Nat) {es : List (Event State Thread)}
    (h : Trace (Mutexes.step (program num)) start es s) :
    (∃ es' s', Trace (Mutexes.step (program num)) s es' s' ∧ Returned s') ↔ ¬ Crossed s := by
  have hs := run_consistent h
  constructor
  · rintro ⟨es', s', h', hreturned⟩ hc
    obtain ⟨hc', -⟩ := hc.run hs h'
    rcases hc' .thread1 with hl | hl <;> cases hl.symm.trans (hreturned .thread1)
  · intro hc
    obtain ⟨s1, hrun1, hs1, t, hfree⟩ := hs.free_of_not_crossed hc
    obtain ⟨s2, hrun2, hexit⟩ := hfree.all_return (advances num) (tidy num) hs1
    obtain ⟨es', h'⟩ := Trace.of_steps (hrun1.trans hrun2)
    refine ⟨es', s2, h', fun u => ?_⟩
    have hu := hexit u
    cases hl : s2.place u with
    | finished => rfl
    | _ => rw [hl] at hu; cases u <;> cases hu

/-- The first thread prints at most `num` times and the second once, never both at a time; when both
have returned, each has printed as often as it may. -/
theorem printed_rounds (num : Nat) {es : List (Event State Thread)}
    (h : Trace (Mutexes.step (program num)) start es s) :
    (∀ t, s.shared.printed.count t ≤ rounds num t) ∧
      (∀ t u, s.place t = .print → s.place u = .print → t = u) ∧
      (Returned s → ∀ t, s.shared.printed.count t = rounds num t) := by
  have hs := run_consistent h
  refine ⟨fun t => ?_, fun t u ht hu => ?_, fun hreturned t => ?_⟩
  · have hc := hs.counted t
    have hround : rounds num t = num ∨ rounds num t = min 1 num ∧ s.shared.round t = 0 := by
      cases t with
      | thread1 => exact Or.inl rfl
      | thread2 => exact Or.inr ⟨rfl, hs.once⟩
    unfold Counted at hc
    split at hc <;> omega
  · exact hs.owned.exclusive (k := .lock1) (by rw [ht]; trivial) (by rw [hu]; trivial)
  · have hc := hs.counted t
    rw [hreturned t] at hc
    exact hc

/-- Each thread takes its first lock. -/
def firstLocks : List Thread := [.thread1, .thread1, .thread2, .thread2]

/-- Both threads have their first locks and sleep. -/
def bothAsleep : State := last (Mutexes.step (program 100000)) start firstLocks

theorem bothAsleep_crossed : Crossed bothAsleep := fun t => by cases t <;> exact Or.inl rfl

theorem bothAsleep_lost :
    (record (Mutexes.step (program 100000)) start firstLocks).length = 4 ∧
      ¬ ∃ es' s', Trace (Mutexes.step (program 100000)) bothAsleep es' s' ∧ Returned s' :=
  ⟨rfl, fun h => (can_return_iff 100000 (Trace.recorded _ _ _)).mp h bothAsleep_crossed⟩

theorem bothAsleep_silent :
    (record (Mutexes.step (program 100000)) bothAsleep [.thread2, .thread1]).length = 2 ∧
      (last (Mutexes.step (program 100000)) bothAsleep [.thread2, .thread1]).shared.printed =
        bothAsleep.shared.printed :=
  ⟨rfl, (crossed_forever (Trace.recorded _ _ _) bothAsleep_crossed (Trace.recorded _ _ _)).2.1⟩

/-- The second thread does its one round before the first does its two. -/
def inOrder : List Thread := List.replicate 7 .thread2 ++ List.replicate 15 .thread1

def orderly : State := last (Mutexes.step (program 2)) start inOrder

theorem orderly_printed :
    (record (Mutexes.step (program 2)) start inOrder).length = 22 ∧
      orderly.shared.printed.count .thread1 = 2 ∧ orderly.shared.printed.count .thread2 = 1 := by
  have hreturned : Returned orderly := fun t => by cases t <;> rfl
  have hall : ∀ t, orderly.shared.printed.count t = rounds 2 t :=
    (printed_rounds 2 (Trace.recorded _ _ _)).2.2 hreturned
  exact ⟨rfl, hall .thread1, hall .thread2⟩

end LinuxAssignment.DemoDeadlock
