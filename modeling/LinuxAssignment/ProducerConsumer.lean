import LinuxAssignment.ByteMemory
import LinuxAssignment.MonitorRounds
import LinuxAssignment.MonitorSignals
import Mathlib.Data.Fintype.Basic

namespace LinuxAssignment.ProducerConsumer

open ByteMemory StepSystem Monitor

inductive Thread where
  | producer
  | consumer
  deriving DecidableEq

instance : Fintype Thread where
  elems := {.producer, .consumer}
  complete t := by cases t <;> decide

inductive Cond where
  | canProduce
  | canConsume
  deriving DecidableEq

/-- The statements of the two loops; `index` is the one that moves `buffer_index`. -/
inductive Pc where
  | test
  | lock
  | guard
  | pause
  | store
  | index
  | load
  | sum
  | last
  | ready
  | signal
  | unlock
  | finished
  deriving DecidableEq

/-- The global variables, the loop counters `i`, the consumer's local `value`, and, for the
statements only, all values stored into `buffer` and all values loaded from it. -/
structure Shared where
  buffer : List Int
  bufferIndex : Int
  producerSum : Int
  consumerSum : Int
  lastValue : Int
  dataReady : Int
  round : Thread → Nat
  value : Int
  produced : List Int
  consumed : List Int

def Shared.count (t : Thread) (s : Shared) : Shared :=
  { s with round := Function.update s.round t (s.round t + 1) }

/-- The producer's local `value` in its round `i`. -/
def Shared.nextValue (s : Shared) : Int := s.round .producer + 1

def Shared.store (s : Shared) : Shared :=
  { s with
    buffer := s.buffer.set s.bufferIndex.toNat s.nextValue
    produced := s.produced ++ [s.nextValue] }

def Shared.load (s : Shared) : Shared :=
  { s with
    value := s.buffer.getD s.bufferIndex.toNat 0
    consumed := s.consumed ++ [s.buffer.getD s.bufferIndex.toNat 0] }

section

variable (bufferSize numItems : Nat)

def producer : Pc → Instr Shared Pc Cond
  | .test => .eval id fun s => if s.round .producer < numItems then .lock else .finished
  | .lock => .lock .guard
  | .guard => .eval id fun s => if (bufferSize : Int) ≤ s.bufferIndex then .pause else .store
  | .pause => .wait .canProduce .guard
  | .store => .eval Shared.store fun _ => .index
  | .index => .eval (fun s => { s with bufferIndex := s.bufferIndex + 1 }) fun _ => .sum
  | .sum =>
    .eval (fun s => { s with producerSum := int32 (s.producerSum + s.nextValue) }) fun _ => .last
  | .last => .eval (fun s => { s with lastValue := s.nextValue }) fun _ => .ready
  | .ready => .eval (fun s => { s with dataReady := 1 }) fun _ => .signal
  | .signal => .signal .canConsume .unlock
  | .unlock => .unlock (Shared.count .producer) .test
  | .load | .finished => .exit

def consumer : Pc → Instr Shared Pc Cond
  | .test => .eval id fun s => if s.round .consumer < numItems then .lock else .finished
  | .lock => .lock .guard
  | .guard =>
    .eval id fun s => if s.bufferIndex ≤ 0 ∨ s.dataReady = 0 then .pause else .index
  | .pause => .wait .canConsume .guard
  | .index => .eval (fun s => { s with bufferIndex := s.bufferIndex - 1 }) fun _ => .load
  | .load => .eval Shared.load fun _ => .sum
  | .sum => .eval (fun s => { s with consumerSum := int32 (s.consumerSum + s.value) }) fun _ => .last
  | .last => .eval (fun s => { s with lastValue := s.value }) fun _ => .signal
  | .signal => .signal .canProduce .unlock
  | .unlock => .unlock (Shared.count .consumer) .test
  | .store | .ready | .finished => .exit

def program : Thread → Pc → Instr Shared Pc Cond
  | .producer => producer bufferSize numItems
  | .consumer => consumer numItems

end

abbrev State := Monitor.State Thread Shared Pc Cond

def start (bufferSize : Nat) : State :=
  ⟨⟨List.replicate bufferSize 0, 0, 0, 0, 0, 0, fun _ => 0, 0, [], []⟩, none,
    fun _ => .running .test⟩

def Waits (bufferSize : Nat) : Thread → Shared → Prop
  | .producer, s => (bufferSize : Int) ≤ s.bufferIndex
  | .consumer, s => s.bufferIndex ≤ 0 ∨ s.dataReady = 0

instance (bufferSize : Nat) : (t : Thread) → (s : Shared) → Decidable (Waits bufferSize t s)
  | .producer, s => inferInstanceAs (Decidable ((bufferSize : Int) ≤ s.bufferIndex))
  | .consumer, s => inferInstanceAs (Decidable (s.bufferIndex ≤ 0 ∨ s.dataReady = 0))

def InMonitor : Thread → Pc → Prop
  | _, .guard | _, .pause | _, .index | _, .sum | _, .last | _, .signal | _, .unlock => True
  | .producer, .store | .producer, .ready => True
  | .consumer, .load => True
  | _, _ => False

/-- The statement after the guard. -/
def entry : Thread → Pc
  | .producer => .store
  | .consumer => .index

section

variable {bufferSize numItems : Nat} {t : Thread} {l : Pc}

theorem program_lock {next : Pc} (h : program bufferSize numItems t l = .lock next) :
    l = .lock ∧ next = .guard := by
  cases t <;> cases l <;> cases h <;> simp

theorem program_wait {c : Cond} {next : Pc} (h : program bufferSize numItems t l = .wait c next) :
    l = .pause ∧ next = .guard ∧
      (t = .producer ∧ c = .canProduce ∨ t = .consumer ∧ c = .canConsume) := by
  cases t <;> cases l <;> cases h <;> simp

theorem program_signal {c : Cond} {next : Pc}
    (h : program bufferSize numItems t l = .signal c next) :
    l = .signal ∧ next = .unlock ∧
      (t = .producer ∧ c = .canConsume ∨ t = .consumer ∧ c = .canProduce) := by
  cases t <;> cases l <;> cases h <;> simp

theorem program_unlock {f : Shared → Shared} {next : Pc}
    (h : program bufferSize numItems t l = .unlock f next) :
    l = .unlock ∧ f = Shared.count t ∧ next = .test := by
  cases t <;> cases l <;> cases h <;> simp

structure Works (t : Thread) (l : Pc) (f : Shared → Shared) (m : Pc) : Prop where
  inside : InMonitor t l ∧ InMonitor t m
  body : m ≠ .pause
  round : ∀ s, (f s).round = s.round

inductive Evaluates (bufferSize numItems : Nat) (t : Thread) :
    Pc → (Shared → Shared) → (Shared → Pc) → Prop
  | test : Evaluates bufferSize numItems t .test id fun s =>
      if s.round t < numItems then .lock else .finished
  | guard : Evaluates bufferSize numItems t .guard id fun s =>
      if Waits bufferSize t s then .pause else entry t
  | work {l f m} : Works t l f m → Evaluates bufferSize numItems t l f fun _ => m

theorem program_eval {f : Shared → Shared} {next : Shared → Pc}
    (h : program bufferSize numItems t l = .eval f next) :
    Evaluates bufferSize numItems t l f next := by
  cases t <;> cases l <;> cases h
  case producer.test | consumer.test => exact .test
  case producer.guard | consumer.guard => exact .guard
  all_goals exact .work ⟨⟨trivial, trivial⟩, by decide, fun _ => rfl⟩

theorem disciplined (bufferSize numItems : Nat) :
    Disciplined (program bufferSize numItems) InMonitor where
  lock := by
    intro t l next h
    obtain ⟨rfl, rfl⟩ := program_lock h
    cases t <;> exact ⟨id, trivial⟩
  unlock := by
    intro t l f next h
    obtain ⟨rfl, -, rfl⟩ := program_unlock h
    cases t <;> exact ⟨trivial, id⟩
  wait := by
    intro t l c next h
    obtain ⟨rfl, rfl, -⟩ := program_wait h
    cases t <;> exact ⟨trivial, trivial⟩
  signal := by
    intro t l c next h
    obtain ⟨rfl, rfl, -⟩ := program_signal h
    cases t <;> exact Iff.rfl
  eval := by
    intro t l f next s h
    cases program_eval h with
    | test => exact ⟨by dsimp only; split <;> cases t <;> exact Iff.rfl, fun _ => rfl⟩
    | guard => exact ⟨by dsimp only; split <;> cases t <;> exact Iff.rfl, fun _ => rfl⟩
    | work hw => exact ⟨iff_of_true hw.inside.2 hw.inside.1, fun hout => absurd hw.inside.1 hout⟩
  exit := by
    intro t l h
    cases t <;> cases l <;> cases h <;> exact id

theorem InMonitor.body (h : InMonitor t l) : l ≠ .test ∧ l ≠ .finished := by
  constructor <;> rintro rfl <;> cases t <;> exact h

/-- Where a step from inside the loop's body leads. -/
theorem after_body {s s' : Shared} {m : Pc} (hl : l ≠ .test)
    (h : (program bufferSize numItems t l).after s = some (s', m)) :
    l = .unlock ∧ m = .test ∧ s' = Shared.count t s ∨ InMonitor t m ∧ s'.round = s.round := by
  cases hp : program bufferSize numItems t l with
  | exit => rw [hp] at h; cases h
  | lock next =>
    rw [hp] at h
    cases h
    obtain ⟨-, rfl⟩ := program_lock hp
    exact Or.inr ⟨by cases t <;> trivial, rfl⟩
  | wait c next =>
    rw [hp] at h
    cases h
    obtain ⟨-, rfl, -⟩ := program_wait hp
    exact Or.inr ⟨by cases t <;> trivial, rfl⟩
  | signal c next =>
    rw [hp] at h
    cases h
    obtain ⟨-, rfl, -⟩ := program_signal hp
    exact Or.inr ⟨by cases t <;> trivial, rfl⟩
  | unlock f next =>
    rw [hp] at h
    cases h
    obtain ⟨rfl, rfl, rfl⟩ := program_unlock hp
    exact Or.inl ⟨rfl, rfl, rfl⟩
  | eval f next =>
    rw [hp] at h
    cases h
    cases program_eval hp with
    | test => exact absurd rfl hl
    | guard => exact Or.inr ⟨by dsimp only; split <;> cases t <;> trivial, rfl⟩
    | work hw => exact Or.inr ⟨hw.inside.2, hw.round s⟩

theorem after_test {s s' : Shared} {m : Pc}
    (h : (program bufferSize numItems t .test).after s = some (s', m)) :
    s' = s ∧ (m = .lock ∧ s.round t < numItems ∨ m = .finished ∧ numItems ≤ s.round t) := by
  have htest : program bufferSize numItems t .test = .eval id fun s =>
      if s.round t < numItems then .lock else .finished := by cases t <;> rfl
  exact after_loopTest (fun t s => s.round t) htest h

theorem after_round {s s' : Shared} {m : Pc}
    (h : (program bufferSize numItems t l).after s = some (s', m)) {u : Thread} (hu : u ≠ t) :
    s'.round u = s.round u := by
  by_cases hl : l = .test
  · subst hl
    rw [(after_test h).1]
  · rcases after_body hl h with ⟨-, -, rfl⟩ | ⟨-, hround⟩
    · exact Function.update_of_ne hu _ _
    · rw [hround]

theorem rounds (bufferSize numItems : Nat) :
    Rounds (program bufferSize numItems) (fun t s => s.round t) numItems .test .finished where
  begins := by
    intro t s s' m h
    obtain ⟨rfl, ⟨rfl, hlt⟩ | ⟨rfl, hge⟩⟩ := after_test h
    · exact ⟨by decide, rfl, Or.inr ⟨by decide, hlt⟩⟩
    · exact ⟨by decide, rfl, Or.inl ⟨rfl, hge⟩⟩
  body := by
    intro t l s s' m hl h
    rcases after_body hl h with ⟨-, rfl, rfl⟩ | ⟨hm, hround⟩
    · exact ⟨by decide, Or.inl ⟨rfl, Function.update_self _ _ _⟩⟩
    · exact ⟨hm.body.2, Or.inr ⟨hm.body.1, congrFun hround t⟩⟩
  stops t := by cases t <;> rfl
  goes := by
    intro t l s s' m h hexit
    by_cases hl : l = .test
    · subst hl
      obtain ⟨-, ⟨rfl, -⟩ | ⟨rfl, -⟩⟩ := after_test h
      · cases t <;> cases hexit
      · rfl
    · rcases after_body hl h with ⟨-, rfl, -⟩ | ⟨hm, -⟩
      · cases t <;> cases hexit
      · exact absurd hm ((disciplined bufferSize numItems).exit hexit)
  other := by
    intro t u l s s' m hu h
    exact after_round h hu.symm

end

end LinuxAssignment.ProducerConsumer
