import LinuxAssignment.LockedCounter

namespace LinuxAssignment.LockedCounter

open ByteMemory StepSystem Monitor

/-- The line that a thread of `ex_1.c` prints in a step: its number and the counter. -/
def printedLine {n : Nat} (e : Event (State n) (MainMove n)) : Option (Fin n × Int) :=
  match e.label with
  | .thread (.go t _) =>
    if e.before.monitor.threads t = .running .print then
      some (t, e.before.monitor.shared.counter)
    else none
  | _ => none

def printedLines {n : Nat} (es : List (Event (State n) (MainMove n))) : List (Fin n × Int) :=
  es.filterMap printedLine

/-- The lines that a thread of `ex_1.c` has printed when it comes to a place. -/
def printed : Pc → Nat
  | .unlock | .finished => 1
  | _ => 0

structure Listed {n : Nat} (past : List (Event (State n) (MainMove n))) (s : State n) : Prop where
  consistent : Consistent .ex1 s
  values : (printedLines past).map Prod.snd =
    (List.range (printedLines past).length).map fun i : Nat => (i : Int) + 1
  once : ∀ t, ((printedLines past).map Prod.fst).count t = printed (s.monitor.threads t).at

section

variable {p : Program} {n : Nat} {s s' : State n} {a : MainMove n}
  {es past : List (Event (State n) (MainMove n))}

theorem left_of_exit {τ : Type} [DecidableEq τ] {t : τ} {l : Pc} (h : p.increment t l = .exit)
    (r : Nat) : p.left l r = 0 := by
  cases p <;> cases l <;> cases h <;> rfl

/-- The program has no step left exactly when the main thread has joined all threads. -/
theorem remaining_eq_zero (hs : Consistent p s) (hmain : s.main.Within n) :
    p.remaining s = 0 ↔ s.main = .joining n := by
  unfold Program.remaining Joined.remaining
  constructor
  · intro h0
    have hleft := (Nat.add_eq_zero_iff.mp h0).1
    cases hm : s.main with
    | creating i =>
      rw [hm] at hmain hleft
      have hle : i ≤ n := hmain
      simp only [Main.remaining] at hleft
      omega
    | joining i =>
      rw [hm] at hmain hleft
      have hle : i ≤ n := hmain
      simp only [Main.remaining] at hleft
      rw [show i = n by omega]
  · intro hjoined
    have hzero : ∀ t, p.left (s.monitor.threads t).at (s.monitor.shared.round t) = 0 := by
      intro t
      obtain ⟨l, hl, hexit⟩ := hs.joined n hjoined t t.isLt
      rw [hl]
      exact left_of_exit hexit _
    simp [hjoined, Main.remaining, allLeft, hzero]

/-- No schedule keeps the program from its end, or takes another number of steps to it: when nothing
can go on, all threads are joined and the counter is what they have added. -/
theorem always_ends (h : Trace (joinStep p.increment) (start p n) es s) :
    es.length ≤ 2 * n + 1 + n * p.steps ∧
      (s.main = .joining n ↔ es.length = 2 * n + 1 + n * p.steps) ∧
      ((∀ a, joinStep p.increment s a = none) → s.main = .joining n ∧
        (∀ t, s.monitor.shared.round t = p.rounds) ∧
        s.monitor.shared.counter = int32 (n * p.rounds)) := by
  obtain ⟨⟨hs, hmain⟩, hcount⟩ := run_counts h
  refine ⟨by omega, ?_, fun hstuck => ?_⟩
  · rw [← remaining_eq_zero hs hmain]
    omega
  · have hjoined := joined_of_stuck (disciplined p) hs.locked hmain hstuck
    obtain ⟨hfree, hround⟩ := hs.all_joined hjoined
    have hexact : s.monitor.shared.counter = int32 s.monitor.shared.total := hs.asserted.free hfree
    refine ⟨hjoined, hround, ?_⟩
    rw [hexact, Shared.total]
    simp [hround]

theorem printedLines_append (past : List (Event (State n) (MainMove n)))
    (e : Event (State n) (MainMove n)) :
    printedLines (past ++ [e]) = printedLines past ++ (printedLine e).toList := by
  unfold printedLines
  rw [List.filterMap_append, List.filterMap_cons]
  cases printedLine e <;> rfl

theorem printed_after {t : Fin n} {l m : Pc} {x x' : Shared (Fin n)}
    (h : (Program.ex1.increment t l).after x = some (x', m)) (hl : l ≠ .print) :
    printed m = printed l := by
  cases l <;> cases h
  case print => exact absurd rfl hl
  all_goals rfl

theorem joinStep_main (h : joinStep p.increment s a = some s') (ha : ∀ b, a ≠ .thread b) :
    s'.monitor = s.monitor := by
  cases a with
  | thread b => exact absurd rfl (ha b)
  | create =>
    simp only [joinStep] at h
    split at h
    next => cases h; rfl
    next => cases h
  | join =>
    simp only [joinStep] at h
    split at h
    next => cases h
    next =>
      split at h
      next =>
        obtain ⟨-, h⟩ := Option.ite_none_right_eq_some.mp h
        cases h
        rfl
      next => cases h

theorem Listed.length (hs : Listed past s) :
    (printedLines past).length = ∑ t, printed (s.monitor.threads t).at := by
  have hcard := Multiset.sum_count_eq_card (s := Finset.univ)
    (m := (((printedLines past).map Prod.fst : List (Fin n)) : Multiset (Fin n)))
    fun t _ => Finset.mem_univ t
  simp only [Multiset.coe_count, Multiset.coe_card, List.length_map] at hcard
  rw [← hcard]
  exact Finset.sum_congr rfl fun t _ => hs.once t

theorem printed_le (l : Pc) : printed l ≤ 1 := by
  cases l <;> decide

/-- The counter that is about to be printed is the number of the line. -/
theorem Listed.next_value (hn : (n : Int) < 2 ^ 31) (hs : Listed past s) {t : Fin n}
    (ht : s.monitor.threads t = .running .print) :
    s.monitor.shared.counter = ((printedLines past).length : Int) + 1 := by
  have hlocked := hs.consistent.locked
  have hheld : Holds .ex1 t .print := nofun
  have hcounter : s.monitor.shared.counter = int32 (s.monitor.shared.total + 1) :=
    hs.consistent.asserted.inside ht hheld
  have hround : ∀ u, printed (s.monitor.threads u).at = s.monitor.shared.round u := by
    intro u
    obtain ⟨l, hl⟩ := hlocked.awake u
    have hk : Program.ex1.Counted (s.monitor.threads u).at (s.monitor.shared.round u) :=
      hs.consistent.asserted.always u
    rw [hl] at hk ⊢
    cases l with
    | unlock =>
      have hut : u = t := hlocked.exclusive hl ht nofun hheld
      subst hut
      cases hl.symm.trans ht
    | test => exact absurd hk id
    | _ => exact hk.symm
  have hlength : (printedLines past).length = s.monitor.shared.total := by
    rw [hs.length]
    exact Finset.sum_congr rfl fun u _ => hround u
  have htotal : s.monitor.shared.total < n := by
    have hlt : ∑ u, s.monitor.shared.round u < ∑ _u : Fin n, 1 := by
      refine Finset.sum_lt_sum (fun u _ => hround u ▸ printed_le _) ⟨t, Finset.mem_univ t, ?_⟩
      rw [← hround t, ht]
      exact Nat.zero_lt_one
    simpa [Shared.total] using hlt
  rw [hcounter, ← hlength, int32_of_bounds (by omega) (by omega)]

theorem Listed.unprinted (hs : Listed past s) (h : joinStep Program.ex1.increment s a = some s')
    (hline : printedLine ⟨s, a, s'⟩ = none)
    (hsame : ∀ t, printed (s'.monitor.threads t).at = printed (s.monitor.threads t).at) :
    Listed (past ++ [⟨s, a, s'⟩]) s' := by
  have hlines : printedLines (past ++ [⟨s, a, s'⟩]) = printedLines past := by
    rw [printedLines_append, hline, Option.toList_none, List.append_nil]
  refine ⟨hs.consistent.step h, by rw [hlines]; exact hs.values, fun t => ?_⟩
  rw [hlines, hsame t]
  exact hs.once t

theorem Listed.step (hn : (n : Int) < 2 ^ 31) (hs : Listed past s)
    (h : joinStep Program.ex1.increment s a = some s') : Listed (past ++ [⟨s, a, s'⟩]) s' := by
  by_cases hmain : ∀ b, a ≠ .thread b
  · have hmonitor := joinStep_main h hmain
    refine hs.unprinted h ?_ fun t => by rw [hmonitor]
    cases a with
    | thread b => exact absurd rfl (hmain b)
    | create => rfl
    | join => rfl
  · push Not at hmain
    obtain ⟨b, rfl⟩ := hmain
    obtain ⟨-, hb⟩ := Option.ite_none_right_eq_some.mp h
    obtain ⟨m', hm', hs'⟩ := Option.map_eq_some_iff.mp hb
    have hmonitor : s'.monitor = m' := by rw [← hs']
    obtain ⟨t, w, l, m, rfl, ht, hafter, hthreads⟩ := hs.consistent.locked.goes hm'
    have hothers : ∀ u, u ≠ t → (s'.monitor.threads u).at = (s.monitor.threads u).at := by
      intro u hut
      rw [hmonitor, hthreads, moveTo, Function.update_of_ne hut]
    have hself : (s'.monitor.threads t).at = m := by
      rw [hmonitor, hthreads, moveTo, Function.update_self]
      rfl
    by_cases hl : l = .print
    · subst hl
      have hunlock : m = .unlock := (Prod.mk.inj (Option.some.inj hafter)).2.symm
      have hline : printedLine ⟨s, .thread (.go t w), s'⟩ = some (t, s.monitor.shared.counter) :=
        if_pos ht
      have hvalue := hs.next_value hn ht
      have hlines : printedLines (past ++ [⟨s, .thread (.go t w), s'⟩]) =
          printedLines past ++ [(t, s.monitor.shared.counter)] := by
        rw [printedLines_append, hline, Option.toList_some]
      refine ⟨hs.consistent.step h, ?_, fun u => ?_⟩
      · rw [hlines, List.map_append, hs.values, List.length_append, List.length_singleton,
          List.range_succ, List.map_append]
        simp [hvalue]
      · rw [hlines, List.map_append, List.count_append, hs.once u]
        by_cases hut : u = t
        · subst hut
          rw [hself, ht, hunlock]
          simp [printed, Status.at]
        · rw [hothers u hut]
          simp [Ne.symm hut]
    · have hline : printedLine ⟨s, .thread (.go t w), s'⟩ = none := by
        refine if_neg fun hprint => hl ?_
        exact Status.running.inj (ht.symm.trans hprint)
      refine hs.unprinted h hline fun u => ?_
      by_cases hut : u = t
      · subst hut
        rw [hself, ht]
        exact printed_after hafter hl
      · rw [hothers u hut]

/-- The lines of `ex_1.c` count the threads: the `k`-th of them shows `k`, no thread prints two, and
behind the joins each has printed one. -/
theorem lines_count_up (hn : (n : Int) < 2 ^ 31)
    (h : Trace (joinStep Program.ex1.increment) (start .ex1 n) es s) :
    (printedLines es).map Prod.snd =
        (List.range (printedLines es).length).map (fun i : Nat => (i : Int) + 1) ∧
      ((printedLines es).map Prod.fst).Nodup ∧
      (s.main = .joining n → (printedLines es).length = n ∧ ∀ t, t ∈ (printedLines es).map Prod.fst) := by
  have keep : ∀ (past : List (Event (State n) (MainMove n))) (s : State n) (a : MainMove n)
      (t : State n), Listed past s → True → joinStep Program.ex1.increment s a = some t →
      Listed (past ++ [⟨s, a, t⟩]) t := fun _ _ _ _ hs _ ht => hs.step hn ht
  have hstart : Listed [] (start .ex1 n) := ⟨start_consistent .ex1 n, rfl, fun _ => rfl⟩
  obtain ⟨hs, -⟩ := h.history keep hstart fun _ _ => trivial
  refine ⟨hs.values, List.nodup_iff_count_le_one.mpr fun t => ?_, fun hmain => ?_⟩
  · rw [hs.once t]
    exact printed_le _
  · have hone : ∀ t, printed (s.monitor.threads t).at = 1 := by
      intro t
      obtain ⟨l, hl, hexit⟩ := hs.consistent.joined n hmain t t.isLt
      have hk : Program.ex1.Counted (s.monitor.threads t).at (s.monitor.shared.round t) :=
        hs.consistent.asserted.always t
      rw [hl] at hk ⊢
      cases l <;> cases hexit
      · exact absurd hk id
      · rfl
    constructor
    · rw [hs.length]
      simp [hone]
    · intro t
      refine List.count_pos_iff.mp ?_
      rw [hs.once t, hone t]
      exact Nat.zero_lt_one

end

/-- The second thread of `ex_1.c` comes to the lock first. -/
def secondFirst : List (Event (State 2) (MainMove 2)) :=
  record (joinStep Program.ex1.increment) (start .ex1 2) twoSleepers

def secondFirstEnd : State 2 := last (joinStep Program.ex1.increment) (start .ex1 2) twoSleepers

theorem secondFirst_lines :
    secondFirst.length = twoSleepers.length ∧ (printedLines secondFirst).length = 2 ∧
      ∀ t, t ∈ (printedLines secondFirst).map Prod.fst :=
  ⟨rfl, (lines_count_up (by decide) (Trace.recorded _ _ twoSleepers)).2.2 rfl⟩

theorem secondFirst_ends :
    secondFirst.length = 17 ∧ secondFirstEnd.monitor.shared.counter = int32 2 := by
  have hstuck : ∀ a, joinStep Program.ex1.increment secondFirstEnd a = none := by
    intro a
    cases a with
    | create => rfl
    | join => rfl
    | thread b =>
      cases b with
      | wake t =>
        match t with
        | ⟨0, _⟩ => rfl
        | ⟨1, _⟩ => rfl
      | go t w =>
        match t with
        | ⟨0, _⟩ => rfl
        | ⟨1, _⟩ => rfl
  obtain ⟨-, hiff, hend⟩ := always_ends (Trace.recorded _ _ twoSleepers)
  obtain ⟨hjoined, -, hcounter⟩ := hend hstuck
  exact ⟨hiff.mp hjoined, hcounter⟩

end LinuxAssignment.LockedCounter
