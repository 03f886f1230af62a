import LinuxAssignment.PrinterPool
import LinuxAssignment.Semaphore

namespace LinuxAssignment.PrinterPool

open StepSystem Semaphore

section

variable {τ : Type}

/-- A thread of the pool by what it does with the semaphore; the index and the number of calls are
the data it shares. -/
def threadFunc (_ : τ) : Phase → Instr (Fin 3 × Nat) Phase
  | .waiting => .wait .admitted
  | .admitted => .eval (fun x => ((getPrinter x.1).2, x.2 + 1)) fun x =>
      .printing ⟨x.2, (getPrinter x.1).1⟩
  | .printing g => .eval id fun _ => .printed g
  | .printed _ => .post .returned
  | .returned => .exit

def Act.actor : Act τ → τ
  | .semWait t | .getPrinter t | .finish t | .semPost t => t

def Pool.seen (s : Pool τ) : Semaphore.State τ (Fin 3 × Nat) Phase :=
  ⟨(s.printerIndex, s.calls), s.printerSem, s.phase⟩

def Phase.Admitted : Phase → Prop
  | .waiting | .returned => False
  | .admitted | .printing _ | .printed _ => True

instance : DecidablePred Phase.Admitted
  | .waiting | .returned => isFalse id
  | .admitted | .printing _ | .printed _ => isTrue trivial

/-- The thread has made its call of `get_printer`. -/
def Phase.Served : Phase → Prop
  | .waiting | .admitted => False
  | .printing _ | .printed _ | .returned => True

instance : DecidablePred Phase.Served
  | .waiting | .admitted => isFalse id
  | .printing _ | .printed _ | .returned => isTrue trivial

def Phase.rank : Phase → Nat
  | .waiting => 4
  | .admitted => 3
  | .printing _ => 2
  | .printed _ => 1
  | .returned => 0

/-- The printers that the calls of `get_printer` in a run have given, in order. -/
def given (es : List (Event (Pool τ) (Act τ))) : List Nat :=
  es.filterMap fun e =>
    match e.label with
    | .getPrinter t => (e.after.phase t).grant.map Grant.printer
    | _ => none

/-- The printers in turn. -/
def turns (calls : Nat) : List Nat := (List.range calls).map fun i => i % 3 + 1

theorem guarded : Guarded (τ := τ) threadFunc Phase.Admitted where
  wait := by
    intro t l next h
    cases l <;> cases h
    exact ⟨id, trivial⟩
  post := by
    intro t l next h
    cases l <;> cases h
    exact ⟨trivial, id⟩
  eval := by
    intro t l f next h s
    cases l <;> cases h <;> exact Iff.rfl
  exit := by
    intro t l h
    cases l <;> cases h
    exact id

theorem rank_after {t : τ} {l m : Phase} {x x' : Fin 3 × Nat}
    (h : (threadFunc t l).after x = some (x', m)) : m.rank < l.rank := by
  cases l <;> cases h <;> exact Nat.lt_succ_self _

theorem turns_count (calls i : Nat) (hi : i < 3) :
    (turns calls).count (i + 1) = (calls + 2 - i) / 3 := by
  induction calls with
  | zero =>
    change 0 = (0 + 2 - i) / 3
    omega
  | succ calls ih =>
    have hsplit : turns (calls + 1) = turns calls ++ [calls % 3 + 1] := by
      simp [turns, List.range_succ]
    rw [hsplit, List.count_append, ih, List.count_singleton]
    by_cases hturn : calls % 3 = i
    · simp only [hturn, beq_self_eq_true, if_true]
      omega
    · have hne : ((calls % 3 + 1) == (i + 1)) = false := by
        simp only [beq_eq_false_iff_ne, ne_eq]
        omega
      simp only [hne, Bool.false_eq_true, if_false]
      omega

variable [DecidableEq τ] {s s' : Pool τ} {a : Act τ}

/-- A step of the pool is one of the threads on their semaphore. -/
theorem step_seen (h : step s a = some s') :
    Semaphore.step threadFunc s.seen a.actor = some s'.seen := by
  cases a with
  | semWait t =>
    obtain ⟨⟨hp, hpos⟩, h⟩ := Option.ite_none_right_eq_some.mp h
    cases h
    simp [Semaphore.step, Pool.seen, Act.actor, threadFunc, hp, hpos]
  | getPrinter t =>
    obtain ⟨hp, h⟩ := Option.ite_none_right_eq_some.mp h
    cases h
    simp [Semaphore.step, Pool.seen, Act.actor, threadFunc, hp, getPrinter]
  | finish t =>
    simp only [step] at h
    split at h
    next g hp =>
      cases h
      simp [Semaphore.step, Pool.seen, Act.actor, threadFunc, hp]
    next => cases h
  | semPost t =>
    simp only [step] at h
    split at h
    next g hp =>
      cases h
      simp [Semaphore.step, Pool.seen, Act.actor, threadFunc, hp]
    next => cases h

/-- A thread that can go on its semaphore can go in the pool. -/
theorem goes_of_seen {t : τ} {x : Semaphore.State τ (Fin 3 × Nat) Phase}
    (h : Semaphore.step threadFunc s.seen t = some x) : ∃ a s', step s a = some s' := by
  simp only [Semaphore.step, Pool.seen] at h
  cases hp : s.phase t with
  | waiting =>
    simp only [hp, threadFunc] at h
    obtain ⟨hpos, -⟩ := Option.ite_none_right_eq_some.mp h
    exact ⟨.semWait t, _, if_pos ⟨hp, hpos⟩⟩
  | admitted => exact ⟨.getPrinter t, _, if_pos hp⟩
  | printing g =>
    exact ⟨.finish t, { s with phase := Function.update s.phase t (.printed g) },
      by simp only [step, hp]⟩
  | printed g =>
    exact ⟨.semPost t, { s with
      printerSem := s.printerSem + 1
      phase := Function.update s.phase t .returned }, by simp only [step, hp]⟩
  | returned =>
    simp only [hp, threadFunc] at h
    cases h

theorem step_given (hs : s.printerIndex.val = s.calls % 3) (h : step s a = some s') :
    s'.printerIndex.val = s'.calls % 3 ∧
      turns s'.calls = turns s.calls ++ given [⟨s, a, s'⟩] := by
  rcases step_cases h with ⟨t, rfl, -, hindex, hcalls, hphase⟩ | ⟨-, hindex, hcalls, -⟩
  · have hturns : turns (s.calls + 1) = turns s.calls ++ [s.calls % 3 + 1] := by
      simp [turns, List.range_succ]
    refine ⟨by omega, ?_⟩
    rw [hcalls, hturns, ← hs]
    simp [given, hphase, Phase.grant]
  · refine ⟨by rw [hindex, hcalls, hs], ?_⟩
    have hnone : given [⟨s, a, s'⟩] = [] := by
      cases a with
      | getPrinter t =>
        obtain ⟨hp, h⟩ := Option.ite_none_right_eq_some.mp h
        cases h
        exact absurd hcalls (Nat.succ_ne_self _)
      | _ => rfl
    rw [hcalls, hnone, List.append_nil]

variable [Fintype τ]

/-- The permits add up, and the calls so far are those of the threads behind theirs. -/
structure Permitted (s : Pool τ) : Prop where
  balanced : Accounted Phase.Admitted 3 s.seen
  calls : s.calls = within Phase.Served s.phase

omit [DecidableEq τ] in
theorem start_permitted : Permitted (start : Pool τ) where
  balanced := congrArg (3 + ·) (within_none fun _ => id)
  calls := (within_none fun _ => id).symm

theorem calls_step (hs : s.calls = within Phase.Served s.phase) (h : step s a = some s') :
    s'.calls = within Phase.Served s'.phase := by
  cases a with
  | semWait t =>
    obtain ⟨⟨hp, -⟩, h⟩ := Option.ite_none_right_eq_some.mp h
    cases h
    dsimp only
    rw [within_stay (by rw [hp]; exact Iff.rfl)]
    exact hs
  | getPrinter t =>
    obtain ⟨hp, h⟩ := Option.ite_none_right_eq_some.mp h
    cases h
    dsimp only
    rw [within_enter (by rw [hp]; exact id) trivial]
    exact congrArg (· + 1) hs
  | finish t =>
    simp only [step] at h
    split at h
    next g hp =>
      cases h
      dsimp only
      rw [within_stay (by rw [hp]; exact Iff.rfl)]
      exact hs
    next => cases h
  | semPost t =>
    simp only [step] at h
    split at h
    next g hp =>
      cases h
      dsimp only
      rw [within_stay (by rw [hp]; exact Iff.rfl)]
      exact hs
    next => cases h

theorem Permitted.step (hs : Permitted s) (h : PrinterPool.step s a = some s') : Permitted s' :=
  ⟨hs.balanced.step guarded (step_seen h), calls_step hs.calls h⟩

theorem run_permitted {es : List (Event (Pool τ) (Act τ))} (h : Trace PrinterPool.step start es s) :
    Permitted s := by
  have keep : ∀ (s : Pool τ) (a : Act τ) (t : Pool τ), Permitted s → True →
      PrinterPool.step s a = some t → Permitted t := fun _ _ _ hs _ ht => hs.step ht
  exact h.invariant keep start_permitted fun _ _ => trivial

omit [Fintype τ] in
theorem run_given {es : List (Event (Pool τ) (Act τ))} (h : Trace PrinterPool.step start es s) :
    given es = turns s.calls := by
  have keep : ∀ (past : List (Event (Pool τ) (Act τ))) (s : Pool τ) (a : Act τ) (t : Pool τ),
      (s.printerIndex.val = s.calls % 3 ∧ given past = turns s.calls) → True →
      PrinterPool.step s a = some t →
      t.printerIndex.val = t.calls % 3 ∧ given (past ++ [⟨s, a, t⟩]) = turns t.calls := by
    rintro past s a t ⟨hindex, hpast⟩ - hstep
    obtain ⟨hindex', hturns⟩ := step_given hindex hstep
    refine ⟨hindex', ?_⟩
    rw [hturns, ← hpast, given, List.filterMap_append]
    rfl
  exact (h.history keep ⟨rfl, rfl⟩ fun _ _ => trivial).1.2

/-- In every run the printers are handed out in turn, so that each has been given a third of the
calls, and no more than three threads are between their waits and their posts. -/
theorem printers_in_turn {es : List (Event (Pool τ) (Act τ))}
    (h : Trace PrinterPool.step start es s) :
    s.printerSem + within Phase.Admitted s.phase = 3 ∧ given es = turns s.calls ∧
      ∀ i < 3, (given es).count (i + 1) = (s.calls + 2 - i) / 3 := by
  refine ⟨(run_permitted h).balanced, run_given h, fun i hi => ?_⟩
  rw [run_given h, turns_count _ _ hi]

/-- A run takes at most four steps for each thread; where it cannot go on all have returned, and each
printer was used by a third of them. -/
theorem all_printed {es : List (Event (Pool τ) (Act τ))} (h : Trace PrinterPool.step start es s) :
    es.length ≤ 4 * Fintype.card τ ∧
      ((∀ a, PrinterPool.step s a = none) → s.printerSem = 3 ∧ (∀ t, s.phase t = .returned) ∧
        ∀ i < 3, (given es).count (i + 1) = (Fintype.card τ + 2 - i) / 3) := by
  have hs := run_permitted h
  constructor
  · have lower : ∀ (s : Pool τ) (a : Act τ) (t : Pool τ), True → PrinterPool.step s a = some t →
        True ∧ left Phase.rank t.seen < left Phase.rank s.seen :=
      fun _ _ _ _ ht => ⟨trivial, left_lt rank_after (step_seen ht)⟩
    have hlength := h.length_le lower trivial
    have hstart : left Phase.rank (start : Pool τ).seen = 4 * Fintype.card τ := by
      simp [left, start, Pool.seen, Phase.rank, Nat.mul_comm]
    omega
  · intro hstuck
    have hreturned : ∀ t, s.phase t = .returned := by
      intro t
      by_contra hne
      have hexit : threadFunc t (s.seen.place t) ≠ .exit := by
        intro hexit
        simp only [Pool.seen] at hexit
        cases hp : s.phase t with
        | returned => exact hne hp
        | _ => rw [hp] at hexit; cases hexit
      obtain ⟨u, x, hgo⟩ := hs.balanced.goes guarded (by decide) hexit
      obtain ⟨a, s', hstep⟩ := goes_of_seen hgo
      rw [hstuck a] at hstep
      cases hstep
    have hcalls : s.calls = Fintype.card τ :=
      hs.calls.trans (within_all fun t => by rw [hreturned t]; trivial)
    have hnone : within Phase.Admitted s.phase = 0 :=
      within_none fun t => by rw [hreturned t]; exact id
    have hbalanced : s.printerSem + within Phase.Admitted s.phase = 3 := hs.balanced
    refine ⟨by omega, hreturned, fun i hi => ?_⟩
    rw [run_given h, turns_count _ _ hi, hcalls]

theorem overtaking_in_turn :
    (record PrinterPool.step start overtaking).length = overtaking.length ∧
      given (record PrinterPool.step start overtaking) = [1, 2, 3, 1] :=
  ⟨rfl, (printers_in_turn (Trace.recorded PrinterPool.step start overtaking)).2.1⟩

/-- The fifteen threads of the program print one after the other. -/
def oneByOne : List (Act (Fin 15)) :=
  (List.finRange 15).flatMap fun t => [.semWait t, .getPrinter t, .finish t, .semPost t]

theorem oneByOne_printed :
    (record PrinterPool.step start oneByOne).length = 60 ∧
      (given (record PrinterPool.step start oneByOne)).count 2 = 5 := by
  refine ⟨rfl, ((all_printed (Trace.recorded PrinterPool.step start oneByOne)).2 ?_).2.2 1
    (by decide)⟩
  rintro (t | t | t | t) <;> revert t <;> decide

end

end LinuxAssignment.PrinterPool
