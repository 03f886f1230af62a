import LinuxAssignment.MonitorRounds
import LinuxAssignment.MonitorSignals
import Mathlib.Data.Fintype.Basic
import Mathlib.Logic.Relation

namespace LinuxAssignment.ThreadPipeline

open StepSystem Monitor

inductive Thread where
  | thread1
  | thread2
  | thread3
  deriving DecidableEq

instance : Fintype Thread where
  elems := {.thread1, .thread2, .thread3}
  complete t := by cases t <;> decide

inductive Cond where
  | condADone
  | condBDone
  deriving DecidableEq

/-- The statements of a stage, in the order of the source; each stage has some of them. -/
inductive Pc where
  | test
  | lock
  | guard
  | pause
  | relock
  | process
  | clear
  | store
  | signal
  | unlock
  | finished
  deriving DecidableEq

/-- The flags, and the loop counter `i` of each thread, which counts its completed rounds. -/
structure Shared where
  aDone : Int
  bDone : Int
  round : Thread → Nat

def Shared.count (t : Thread) (s : Shared) : Shared :=
  { s with round := Function.update s.round t (s.round t + 1) }

section

variable (num : Nat)

def thread1 : Pc → Instr Shared Pc Cond
  | .test => .eval id fun s => if s.round .thread1 < num then .lock else .finished
  | .lock => .lock .guard
  | .guard => .eval id fun s => if s.aDone ≠ 0 then .pause else .process
  | .pause => .unlock id .relock
  | .relock => .lock .guard
  | .process => .eval id fun _ => .store
  | .store => .eval (fun s => { s with aDone := 1 }) fun _ => .signal
  | .signal => .signal .condADone .unlock
  | .unlock => .unlock (Shared.count .thread1) .test
  | .clear | .finished => .exit

def thread2 : Pc → Instr Shared Pc Cond
  | .test => .eval id fun s => if s.round .thread2 < num then .lock else .finished
  | .lock => .lock .guard
  | .guard => .eval id fun s => if s.aDone = 0 then .pause else .process
  | .pause => .wait .condADone .guard
  | .process => .eval id fun _ => .clear
  | .clear => .eval (fun s => { s with aDone := 0 }) fun _ => .store
  | .store => .eval (fun s => { s with bDone := 1 }) fun _ => .signal
  | .signal => .signal .condBDone .unlock
  | .unlock => .unlock (Shared.count .thread2) .test
  | .relock | .finished => .exit

def thread3 : Pc → Instr Shared Pc Cond
  | .test => .eval id fun s => if s.round .thread3 < num then .lock else .finished
  | .lock => .lock .guard
  | .guard => .eval id fun s => if s.bDone = 0 then .pause else .process
  | .pause => .wait .condBDone .guard
  | .process => .eval id fun _ => .clear
  | .clear => .eval (fun s => { s with bDone := 0 }) fun _ => .unlock
  | .unlock => .unlock (Shared.count .thread3) .test
  | .relock | .store | .signal | .finished => .exit

def program : Thread → Pc → Instr Shared Pc Cond
  | .thread1 => thread1 num
  | .thread2 => thread2 num
  | .thread3 => thread3 num

end

abbrev State := Monitor.State Thread Shared Pc Cond

def start : State := ⟨⟨0, 0, fun _ => 0⟩, none, fun _ => .running .test⟩

def MustWait : Thread → Shared → Prop
  | .thread1, s => s.aDone ≠ 0
  | .thread2, s => s.aDone = 0
  | .thread3, s => s.bDone = 0

instance : (t : Thread) → (s : Shared) → Decidable (MustWait t s)
  | .thread1, s => inferInstanceAs (Decidable (s.aDone ≠ 0))
  | .thread2, s => inferInstanceAs (Decidable (s.aDone = 0))
  | .thread3, s => inferInstanceAs (Decidable (s.bDone = 0))

def InMonitor : Thread → Pc → Prop
  | _, .guard | _, .pause | _, .process | _, .unlock => True
  | .thread1, .store | .thread1, .signal => True
  | .thread2, .clear | .thread2, .store | .thread2, .signal => True
  | .thread3, .clear => True
  | _, _ => False

/-- The data after a thread inside the monitor has run to the end of its round, its guard aside. -/
def finishRound : Thread → Pc → Shared → Shared
  | .thread1, .process, s | .thread1, .store, s => Shared.count .thread1 { s with aDone := 1 }
  | .thread2, .process, s | .thread2, .clear, s =>
    Shared.count .thread2 { s with aDone := 0, bDone := 1 }
  | .thread2, .store, s => Shared.count .thread2 { s with bDone := 1 }
  | .thread3, .process, s | .thread3, .clear, s => Shared.count .thread3 { s with bDone := 0 }
  | t, .signal, s | t, .unlock, s => Shared.count t s
  | _, _, s => s

def waiter : Cond → Thread
  | .condADone => .thread2
  | .condBDone => .thread3

def Owes (num : Nat) (t : Thread) (l : Pc) (c : Cond) : Prop := program num t l = .signal c .unlock

section

variable {num : Nat} {t : Thread} {l : Pc}

theorem program_lock {next : Pc} (h : program num t l = .lock next) :
    next = .guard ∧ (l = .lock ∨ t = .thread1 ∧ l = .relock) := by
  cases t <;> cases l <;> cases h <;> simp

theorem program_wait {c : Cond} {next : Pc} (h : program num t l = .wait c next) :
    next = .guard ∧ l = .pause ∧
      (t = .thread2 ∧ c = .condADone ∨ t = .thread3 ∧ c = .condBDone) := by
  cases t <;> cases l <;> cases h <;> simp

theorem wait_waiter {c : Cond} {next : Pc} (h : program num t l = .wait c next) : t = waiter c := by
  obtain ⟨-, -, ⟨rfl, rfl⟩ | ⟨rfl, rfl⟩⟩ := program_wait h <;> rfl

theorem program_signal {c : Cond} {next : Pc} (h : program num t l = .signal c next) :
    next = .unlock ∧ l = .signal ∧
      (t = .thread1 ∧ c = .condADone ∨ t = .thread2 ∧ c = .condBDone) := by
  cases t <;> cases l <;> cases h <;> simp

theorem program_unlock {f : Shared → Shared} {next : Pc} (h : program num t l = .unlock f next) :
    t = .thread1 ∧ l = .pause ∧ f = id ∧ next = .relock ∨
      l = .unlock ∧ f = Shared.count t ∧ next = .test := by
  cases t <;> cases l <;> cases h <;> simp

structure Works (num : Nat) (t : Thread) (l : Pc) (f : Shared → Shared) (m : Pc) : Prop where
  inside : InMonitor t l ∧ InMonitor t m
  body : l ≠ .pause ∧ m ≠ .pause
  finish : ∀ s, finishRound t m (f s) = finishRound t l s
  round : ∀ s, (f s).round = s.round
  wakes : ∀ c s, MustWait (waiter c) s → MustWait (waiter c) (f s) ∨ Owes num t m c

inductive Evaluates (num : Nat) (t : Thread) :
    Pc → (Shared → Shared) → (Shared → Pc) → Prop
  | test : Evaluates num t .test id fun s => if s.round t < num then .lock else .finished
  | guard : Evaluates num t .guard id fun s => if MustWait t s then .pause else .process
  | work {l f m} : Works num t l f m → Evaluates num t l f fun _ => m

theorem program_eval {f : Shared → Shared} {next : Shared → Pc}
    (h : program num t l = .eval f next) : Evaluates num t l f next := by
  cases t <;> cases l <;> cases h
  case thread1.test | thread2.test | thread3.test => exact .test
  case thread1.guard | thread2.guard | thread3.guard => exact .guard
  all_goals
    refine .work ⟨⟨trivial, trivial⟩, ⟨by decide, by decide⟩, fun _ => rfl, fun _ => rfl, ?_⟩
    intro c s
    cases c <;> simp [MustWait, waiter, Owes, program, thread1, thread2, thread3]

theorem disciplined (num : Nat) : Disciplined (program num) InMonitor where
  lock := by
    intro t l next h
    obtain ⟨rfl, rfl | ⟨rfl, rfl⟩⟩ := program_lock h
    · cases t <;> exact ⟨id, trivial⟩
    · exact ⟨id, trivial⟩
  unlock := by
    intro t l f next h
    rcases program_unlock h with ⟨rfl, rfl, -, rfl⟩ | ⟨rfl, -, rfl⟩
    · exact ⟨trivial, id⟩
    · cases t <;> exact ⟨trivial, id⟩
  wait := by
    intro t l c next h
    obtain ⟨rfl, rfl, -⟩ := program_wait h
    cases t <;> exact ⟨trivial, trivial⟩
  signal := by
    intro t l c next h
    obtain ⟨rfl, rfl, ⟨rfl, -⟩ | ⟨rfl, -⟩⟩ := program_signal h <;> exact Iff.rfl
  eval := by
    intro t l f next s h
    cases program_eval h with
    | test => exact ⟨by dsimp only; split <;> cases t <;> exact Iff.rfl, fun _ => rfl⟩
    | guard => exact ⟨by dsimp only; split <;> cases t <;> exact Iff.rfl, fun _ => rfl⟩
    | work hw => exact ⟨iff_of_true hw.inside.2 hw.inside.1, fun hout => absurd hw.inside.1 hout⟩
  exit := by
    intro t l h
    cases t <;> cases l <;> cases h <;> exact id

/-- What a thread knows about its own loop counter wherever it is. -/
structure Knows (num : Nat) (t : Thread) (l : Pc) (s : Shared) : Prop where
  round_le : s.round t ≤ num
  pending : l ≠ .test → l ≠ .finished → s.round t < num
  done : l = .finished → s.round t = num
  place : program num t l = .exit → l = .finished

/-- The assertions inside the monitor: once the round is over, the flags are right again. -/
def Inside (F : Shared → Prop) (t : Thread) (l : Pc) (s : Shared) : Prop :=
  F (finishRound t l s) ∧ (l = .pause → MustWait t s)

theorem finishRound_guard (t : Thread) (s : Shared) : finishRound t .guard s = s := by
  cases t <;> rfl

theorem finishRound_pause (t : Thread) (s : Shared) : finishRound t .pause s = s := by
  cases t <;> rfl

theorem finishRound_unlock (t : Thread) (s : Shared) :
    finishRound t .unlock s = Shared.count t s := by
  cases t <;> rfl

theorem InMonitor.body (h : InMonitor t l) : l ≠ .test ∧ l ≠ .finished := by
  constructor <;> rintro rfl <;> cases t <;> exact h

/-- Where a step from inside the loop's body leads. -/
theorem after_body {s s' : Shared} {m : Pc} (hl : l ≠ .test)
    (h : (program num t l).after s = some (s', m)) :
    m = .test ∧ s' = Shared.count t s ∨
      (InMonitor t m ∨ t = .thread1 ∧ m = .relock) ∧ s'.round = s.round := by
  cases hp : program num t l with
  | exit => rw [hp] at h; cases h
  | lock next =>
    rw [hp] at h
    cases h
    obtain ⟨rfl, -⟩ := program_lock hp
    exact Or.inr ⟨Or.inl (by cases t <;> trivial), rfl⟩
  | wait c next =>
    rw [hp] at h
    cases h
    obtain ⟨rfl, -⟩ := program_wait hp
    exact Or.inr ⟨Or.inl (by cases t <;> trivial), rfl⟩
  | signal c next =>
    rw [hp] at h
    cases h
    obtain ⟨rfl, -⟩ := program_signal hp
    exact Or.inr ⟨Or.inl (by cases t <;> trivial), rfl⟩
  | unlock f next =>
    rw [hp] at h
    cases h
    rcases program_unlock hp with ⟨rfl, -, rfl, rfl⟩ | ⟨-, rfl, rfl⟩
    · exact Or.inr ⟨Or.inr ⟨rfl, rfl⟩, rfl⟩
    · exact Or.inl ⟨rfl, rfl⟩
  | eval f next =>
    rw [hp] at h
    cases h
    cases program_eval hp with
    | test => exact absurd rfl hl
    | guard => exact Or.inr ⟨Or.inl (by dsimp only; split <;> cases t <;> trivial), rfl⟩
    | work hw => exact Or.inr ⟨Or.inl hw.inside.2, hw.round s⟩

theorem after_test {s s' : Shared} {m : Pc} (h : (program num t .test).after s = some (s', m)) :
    s' = s ∧ (m = .lock ∧ s.round t < num ∨ m = .finished ∧ num ≤ s.round t) := by
  have htest : program num t .test = .eval id fun s =>
      if s.round t < num then .lock else .finished := by cases t <;> rfl
  exact after_loopTest (fun t s => s.round t) htest h

theorem after_round {s s' : Shared} {m : Pc} (h : (program num t l).after s = some (s', m))
    {u : Thread} (hu : u ≠ t) : s'.round u = s.round u := by
  by_cases hl : l = .test
  · subst hl
    rw [(after_test h).1]
  · rcases after_body hl h with ⟨-, rfl⟩ | ⟨-, hround⟩
    · exact Function.update_of_ne hu _ _
    · rw [hround]

theorem rounds (num : Nat) :
    Rounds (program num) (fun t s => s.round t) num .test .finished where
  begins := by
    intro t s s' m h
    obtain ⟨rfl, ⟨rfl, hlt⟩ | ⟨rfl, hge⟩⟩ := after_test h
    · exact ⟨by decide, rfl, Or.inr ⟨by decide, hlt⟩⟩
    · exact ⟨by decide, rfl, Or.inl ⟨rfl, hge⟩⟩
  body := by
    intro t l s s' m hl h
    rcases after_body hl h with ⟨rfl, rfl⟩ | ⟨hm | ⟨-, rfl⟩, hround⟩
    · exact ⟨by decide, Or.inl ⟨rfl, Function.update_self _ _ _⟩⟩
    · exact ⟨hm.body.2, Or.inr ⟨hm.body.1, congrFun hround t⟩⟩
    · exact ⟨by decide, Or.inr ⟨by decide, congrFun hround t⟩⟩
  stops t := by cases t <;> rfl
  goes := by
    intro t l s s' m h hexit
    by_cases hl : l = .test
    · subst hl
      obtain ⟨-, ⟨rfl, -⟩ | ⟨rfl, -⟩⟩ := after_test h
      · cases t <;> cases hexit
      · rfl
    · rcases after_body hl h with ⟨rfl, -⟩ | ⟨hm | ⟨rfl, rfl⟩, -⟩
      · cases t <;> cases hexit
      · exact absurd hm ((disciplined num).exit hexit)
      · cases hexit
  other := by
    intro t u l s s' m hu h
    exact after_round h hu.symm

theorem knows_iff {s : Shared} :
    Knows num t l s ↔ InRounds (program num) (fun t s => s.round t) num .test .finished t l s :=
  ⟨fun h => ⟨h.1, h.2, h.3, h.4⟩, fun h => ⟨h.1, h.2, h.3, h.4⟩⟩

/-- A proof outline of the pipeline, for any property of the flags that a round keeps. -/
theorem outline {F : Shared → Prop} {ok : Thread → Pc → Shared → Prop}
    (hgo : ∀ t s, F s → ¬ MustWait t s → ok t .guard s → F (finishRound t .process s)) :
    Outline (program num) InMonitor ok F (Inside F) (Knows num) where
  lock := by
    intro t l next s h hF _
    obtain ⟨rfl, -⟩ := program_lock h
    exact ⟨(finishRound_guard t s).symm ▸ hF, nofun⟩
  resume := by
    intro t l c next s h hF _
    obtain ⟨rfl, -⟩ := program_wait h
    exact ⟨(finishRound_guard t s).symm ▸ hF, nofun⟩
  wait := by
    intro t l c next s h hA
    obtain ⟨-, rfl, -⟩ := program_wait h
    exact finishRound_pause t s ▸ hA.1
  unlock := by
    intro t l f next s h hA _
    rcases program_unlock h with ⟨rfl, rfl, rfl, -⟩ | ⟨rfl, rfl, -⟩
    · exact hA.1
    · exact finishRound_unlock t s ▸ hA.1
  signal := by
    intro t l c next s h _ hA
    obtain ⟨rfl, rfl, ⟨rfl, -⟩ | ⟨rfl, -⟩⟩ := program_signal h <;> exact ⟨hA.1, nofun⟩
  eval := by
    intro t l f next s h hm hA _ hok
    cases program_eval h with
    | test => cases t <;> exact absurd hm id
    | guard =>
      have hF := finishRound_guard t s ▸ hA.1
      dsimp only
      split
      next hwait => exact ⟨(finishRound_pause t s).symm ▸ hF, fun _ => hwait⟩
      next hgoes => exact ⟨hgo t s hF hgoes hok, nofun⟩
    | work hw => exact ⟨(hw.finish s).symm ▸ hA.1, fun hp => absurd hp hw.body.2⟩
  own h _ hk := knows_iff.mpr ((rounds num).own h (knows_iff.mp hk))
  other hu h hk := knows_iff.mpr ((rounds num).keeps hu h (knows_iff.mp hk))

theorem signals {F : Shared → Prop} {ok : Thread → Pc → Shared → Prop} :
    Signals (program num) InMonitor ok (Inside F) waiter (fun c => MustWait (waiter c))
      (Owes num) where
  only := wait_waiter
  sleep := by
    intro t l c next s h hA
    obtain ⟨-, rfl, ⟨rfl, rfl⟩ | ⟨rfl, rfl⟩⟩ := program_wait h <;> exact hA.2 rfl
  wait := by
    intro t l c next d h hdue
    rw [Owes, h] at hdue
    cases hdue
  unlock := by
    intro t l f next s d h
    refine ⟨fun hdue => ?_, fun hW => ?_⟩
    · rw [Owes, h] at hdue
      cases hdue
    rcases program_unlock h with ⟨-, -, rfl, -⟩ | ⟨-, rfl, -⟩
    · exact hW
    · cases d <;> exact hW
  signal := by
    intro t l c next d h hne hdue
    rw [Owes, h] at hdue
    cases hdue
    exact absurd rfl hne
  eval := by
    intro t l f next s d h _ _ _ hW
    have hnot : ¬ Owes num t l d := by
      rw [Owes, h]
      exact nofun
    replace hW := hW.resolve_right hnot
    cases program_eval h with
    | test | guard => exact Or.inl hW
    | work hw => exact hw.wakes d s hW

theorem start_locked (num : Nat) : Locked (program num) InMonitor start where
  owner t := by
    refine iff_of_false nofun ?_
    rintro ⟨l, hl, hm⟩
    cases hl
    cases t <;> exact hm
  asleep := nofun
  woken := nofun

theorem start_knows (num : Nat) (t : Thread) : Knows num t (start.threads t).at start.shared :=
  ⟨Nat.zero_le num, fun h => absurd rfl h, nofun, by cases t <;> nofun⟩

end

end LinuxAssignment.ThreadPipeline
