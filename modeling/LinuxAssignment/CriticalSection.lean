import LinuxAssignment.Semaphore
import Mathlib.Data.List.Infix

namespace LinuxAssignment.CriticalSection

open StepSystem Semaphore

/-- The lines a thread prints. -/
inductive Line where
  | entered
  | left
  deriving DecidableEq

inductive Pc where
  | semWait
  | entered
  | sleep
  | left
  | semPost
  | finished
  deriving DecidableEq

section

variable {τ : Type} [DecidableEq τ]

def print (t : τ) (line : Line) (printed : List (τ × Line)) : List (τ × Line) :=
  printed ++ [(t, line)]

omit [DecidableEq τ] in
def threadFunc (t : τ) : Pc → Instr (List (τ × Line)) Pc
  | .semWait => .wait .entered
  | .entered => .eval (print t .entered) fun _ => .sleep
  | .sleep => .eval id fun _ => .left
  | .left => .eval (print t .left) fun _ => .semPost
  | .semPost => .post .finished
  | .finished => .exit

abbrev State (τ : Type) := Semaphore.State τ (List (τ × Line)) Pc

/-- The semaphore starts with three permits. -/
def start : State τ := ⟨[], 3, fun _ => .semWait⟩

def Inside (l : Pc) : Prop := l ≠ .semWait ∧ l ≠ .finished

instance : DecidablePred Inside := fun l =>
  inferInstanceAs (Decidable (l ≠ .semWait ∧ l ≠ .finished))

/-- Behind the first line and before the second. -/
def Between (l : Pc) : Prop := l = .sleep ∨ l = .left

instance : DecidablePred Between := fun l =>
  inferInstanceAs (Decidable (l = .sleep ∨ l = .left))

def lines (t : τ) (printed : List (τ × Line)) : List Line :=
  (printed.filter fun p => p.1 = t).map Prod.snd

/-- What a thread has printed when it comes to a place. -/
def due : Pc → List Line
  | .semWait | .entered => []
  | .sleep | .left => [.entered]
  | .semPost | .finished => [.entered, .left]

def rank : Pc → Nat
  | .semWait => 5
  | .entered => 4
  | .sleep => 3
  | .left => 2
  | .semPost => 1
  | .finished => 0

def count (line : Line) (printed : List (τ × Line)) : Nat :=
  printed.countP fun p => p.2 = line

/-- Each thread has printed what is due where it is, and the threads between their two lines are
those that have printed one of them. -/
structure Printed [Fintype τ] (s : State τ) : Prop where
  due : ∀ t, lines t s.shared = due (s.place t)
  between : count .entered s.shared = count .left s.shared + within Between s.place

variable {s s' : State τ} {t u : τ}

omit [DecidableEq τ] in
theorem guarded : Guarded (τ := τ) threadFunc Inside where
  wait := by
    intro t l next h
    cases l <;> cases h
    exact ⟨by decide, by decide⟩
  post := by
    intro t l next h
    cases l <;> cases h
    exact ⟨by decide, by decide⟩
  eval := by
    intro t l f next h s
    cases l <;> cases h <;> dsimp only <;> decide
  exit := by
    intro t l h
    cases l <;> cases h
    decide

theorem lines_print (t u : τ) (line : Line) (printed : List (τ × Line)) :
    lines u (print t line printed) = lines u printed ++ if t = u then [line] else [] := by
  by_cases htu : t = u <;> simp [lines, print, List.filter_append, htu]

theorem lines_after {l m : Pc} {x x' : List (τ × Line)}
    (h : (threadFunc t l).after x = some (x', m)) :
    (lines t x = due l → lines t x' = due m) ∧ ∀ u, u ≠ t → lines u x' = lines u x := by
  have other : ∀ line u, u ≠ t → lines u (print t line x) = lines u x := by
    intro line u hut
    rw [lines_print, if_neg (Ne.symm hut), List.append_nil]
  cases l <;> cases h
  case entered | left =>
    refine ⟨fun hdue => ?_, other _⟩
    rw [lines_print, if_pos rfl, hdue]
    rfl
  all_goals exact ⟨id, fun _ _ => rfl⟩

omit [DecidableEq τ] in
theorem rank_after {l m : Pc} {x x' : List (τ × Line)}
    (h : (threadFunc t l).after x = some (x', m)) : rank l = rank m + 1 := by
  cases l <;> cases h <;> rfl

omit [DecidableEq τ] in
theorem count_print (t : τ) (line line' : Line) (printed : List (τ × Line)) :
    count line' (print t line printed) = count line' printed + if line = line' then 1 else 0 := by
  simp [count, print, List.countP_append, List.countP_cons]

theorem count_after [Fintype τ] {l m : Pc} {x x' : List (τ × Line)} {place : τ → Pc}
    (h : (threadFunc t l).after x = some (x', m)) (ht : place t = l)
    (hs : count .entered x = count .left x + within Between place) :
    count .entered x' = count .left x' + within Between (Function.update place t m) := by
  cases l <;> cases h
  case entered =>
    dsimp only
    rw [count_print, count_print, if_pos rfl, if_neg (by decide),
      within_enter (by rw [ht]; decide) (by decide)]
    omega
  case left =>
    dsimp only
    have hin : Between (place t) := by
      rw [ht]
      decide
    have hleave := within_leave (l := Pc.semPost) hin (by decide)
    rw [count_print, count_print, if_neg (by decide), if_pos rfl]
    omega
  all_goals
    rw [within_stay (by simp [ht, Between])]
    exact hs

theorem Printed.step [Fintype τ] (hs : Printed s) (h : Semaphore.step threadFunc s t = some s') :
    Printed s' := by
  have hfires := fires_of_step h
  have hplace : s'.place = Function.update s.place t (s'.place t) := by
    refine funext fun u => ?_
    by_cases hut : u = t
    · rw [hut, Function.update_self]
    · rw [Function.update_of_ne hut, hfires.place_of_ne hut]
  obtain ⟨hself, hother⟩ := lines_after hfires.after
  refine ⟨fun u => ?_, ?_⟩
  · by_cases hut : u = t
    · exact hut ▸ hself (hs.due t)
    · rw [hother u hut, hfires.place_of_ne hut]
      exact hs.due u
  · rw [hplace]
    exact count_after hfires.after rfl hs.between

omit [DecidableEq τ] in
theorem start_within [Fintype τ] {inside : Pc → Prop} [DecidablePred inside]
    (h : ¬ inside .semWait) : within inside (start : State τ).place = 0 :=
  within_none fun _ => h

theorem start_printed [Fintype τ] : Printed (start : State τ) where
  due := fun _ => rfl
  between := by
    rw [start_within (by decide)]
    rfl

omit [DecidableEq τ] in
theorem start_balanced [Fintype τ] : Accounted Inside 3 (start : State τ) :=
  congrArg (3 + ·) (start_within (by decide))

theorem run_balanced [Fintype τ] {es : List (Event (State τ) τ)}
    (h : Trace (Semaphore.step threadFunc) start es s) : Accounted Inside 3 s ∧ Printed s := by
  have keep : ∀ (s : State τ) (t : τ) (s' : State τ), Accounted Inside 3 s ∧ Printed s → True →
      Semaphore.step threadFunc s t = some s' → Accounted Inside 3 s' ∧ Printed s' :=
    fun _ _ _ hs _ ht => ⟨hs.1.step guarded ht, hs.2.step ht⟩
  exact h.invariant keep ⟨start_balanced, start_printed⟩ fun _ _ => trivial

/-- At every moment at most three threads have entered and not left, on the semaphore as in what is
printed, and each thread has printed its two lines in order as far as it is. -/
theorem at_most_three_inside [Fintype τ] {es : List (Event (State τ) τ)}
    (h : Trace (Semaphore.step threadFunc) start es s) :
    s.value + within Inside s.place = 3 ∧
      count .entered s.shared ≤ count .left s.shared + 3 ∧
      ∀ t, lines t s.shared <+: [.entered, .left] := by
  obtain ⟨hbalanced, hprinted⟩ := run_balanced h
  have hsub : within Between s.place ≤ within Inside s.place := by
    refine Finset.card_le_card fun t ht => ?_
    simp only [Finset.mem_filter, Finset.mem_univ, true_and] at ht ⊢
    rcases ht with ht | ht <;> rw [ht] <;> decide
  refine ⟨hbalanced, ?_, fun t => ?_⟩
  · have hbetween := hprinted.between
    unfold Accounted at hbalanced
    omega
  · rw [hprinted.due t]
    cases s.place t <;> decide

omit [DecidableEq τ] in
theorem left_start [Fintype τ] : left rank (start : State τ) = 5 * Fintype.card τ := by
  simp [left, start, rank, Nat.mul_comm]

/-- No schedule keeps the threads from their end: a run takes at most five steps for each thread, and
one that cannot go on has let every thread enter and leave. -/
theorem all_leave [Fintype τ] {es : List (Event (State τ) τ)}
    (h : Trace (Semaphore.step threadFunc) start es s) :
    es.length ≤ 5 * Fintype.card τ ∧
      ((∀ t, Semaphore.step threadFunc s t = none) →
        s.value = 3 ∧ ∀ t, s.place t = .finished ∧ lines t s.shared = [.entered, .left]) := by
  obtain ⟨hbalanced, hprinted⟩ := run_balanced h
  constructor
  · have lower : ∀ (s : State τ) (t : τ) (s' : State τ), True →
        Semaphore.step threadFunc s t = some s' → True ∧ left rank s' < left rank s :=
      fun _ _ _ _ ht => ⟨trivial, left_lt (fun hh => by rw [rank_after hh]; exact Nat.lt_succ_self _) ht⟩
    have hlength := h.length_le lower trivial
    rw [left_start] at hlength
    omega
  · intro hstuck
    have hfinished : ∀ t, s.place t = .finished := by
      intro t
      by_contra hne
      have hexit : threadFunc t (s.place t) ≠ .exit := by
        intro hexit
        cases hl : s.place t with
        | finished => exact hne hl
        | _ => rw [hl] at hexit; cases hexit
      obtain ⟨u, s', hstep⟩ := hbalanced.goes guarded (by decide) hexit
      rw [hstuck u] at hstep
      cases hstep
    refine ⟨?_, fun t => ⟨hfinished t, ?_⟩⟩
    · have hnone : within Inside s.place = 0 :=
        within_none fun t => by rw [hfinished t]; decide
      unfold Accounted at hbalanced
      omega
    · rw [hprinted.due t, hfinished t]
      rfl

/-- Three of the six threads are between their lines; the others wait. -/
def threeInside : List (Fin 6) := [0, 0, 0, 3, 3, 3, 5, 5, 5]

theorem threeInside_at_most :
    (record (Semaphore.step threadFunc) start threeInside).length = 9 ∧
    count .entered (last (Semaphore.step threadFunc) start threeInside).shared ≤
      count .left (last (Semaphore.step threadFunc) start threeInside).shared + 3 :=
  ⟨rfl, (at_most_three_inside (Trace.recorded _ _ threeInside)).2.1⟩

def oneByOne : List (Fin 6) := (List.finRange 6).flatMap fun t => List.replicate 5 t

theorem oneByOne_leave :
    (record (Semaphore.step threadFunc) start oneByOne).length = 30 ∧
      (last (Semaphore.step threadFunc) start oneByOne).value = 3 :=
  ⟨rfl, ((all_leave (Trace.recorded _ _ oneByOne)).2 (by decide)).1⟩

end

end LinuxAssignment.CriticalSection
