import LinuxAssignment.PipelineHandOver
import Mathlib.Data.List.Infix

namespace LinuxAssignment.ThreadPipeline

open StepSystem Monitor

/-- The places from the message of a round to its `pthread_mutex_unlock`. -/
def Processing (t : Thread) (l : Pc) : Prop := InMonitor t l ∧ l ≠ .guard ∧ l ≠ .pause

/-- The thread that completes its processing section in this step. -/
def completes (e : Event State (Move Thread)) : Option Thread :=
  match e.label with
  | .wake _ => none
  | .go t _ => if e.before.threads t = .running .unlock then some t else none

/-- The threads in the order in which they completed processing sections. -/
def sections (es : List (Event State (Move Thread))) : List Thread := es.filterMap completes

structure Alternating (s : Shared) : Prop where
  aDone : s.aDone = 0 ∨ s.aDone = 1
  bDone : s.bDone = 0 ∨ s.bDone = 1
  first : (s.round .thread1 : Int) = s.round .thread2 + s.aDone
  second : (s.round .thread3 : Int) + s.bDone ≤ s.round .thread2

/-- Whether it is the turn of a thread, by the numbers of completed rounds. -/
def Due : Thread → (Thread → Nat) → Prop
  | .thread1, n => n .thread1 = n .thread2
  | .thread2, n => n .thread1 = n .thread2 + 1
  | .thread3, n => n .thread3 < n .thread2

def turns (ts : List Thread) : List Thread := ts.filter (· ≠ .thread3)

/-- `Thread_1` and `Thread_2` take turns, and `Thread_1` is the first. -/
def Alternate (ts : List Thread) : Prop :=
  ∀ i t, (turns ts)[i]? = some t → t = if i % 2 = 0 then .thread1 else .thread2

structure Ordered (ts : List Thread) (n : Thread → Nat) : Prop where
  count : ∀ t, ts.count t = n t
  ahead : n .thread1 = n .thread2 ∨ n .thread1 = n .thread2 + 1
  length : (turns ts).length = n .thread1 + n .thread2
  alternate : Alternate ts
  behind : ∀ pre, pre <+: ts → pre.count .thread3 ≤ pre.count .thread2

section

variable {num : Nat} {t : Thread} {l : Pc} {s s' : State} {a : Move Thread} {ts : List Thread}
  {n : Thread → Nat}

theorem Alternating.finishRound {s : Shared} (h : Alternating s) (hgo : ¬ MustWait t s) :
    Alternating (finishRound t .process s) := by
  obtain ⟨ha, hb, h1, h2⟩ := h
  cases t with
  | thread1 =>
    have h0 : s.aDone = 0 := not_not.mp hgo
    constructor <;> simp [ThreadPipeline.finishRound, Shared.count] <;> omega
  | thread2 =>
    have h0 : s.aDone = 1 := ha.resolve_left hgo
    constructor <;> simp [ThreadPipeline.finishRound, Shared.count] <;> omega
  | thread3 =>
    have h0 : s.bDone = 1 := hb.resolve_left hgo
    constructor <;> simp [ThreadPipeline.finishRound, Shared.count] <;> omega

theorem finishRound_round (hl : Processing t l) (s : Shared) :
    (finishRound t l s).round = Function.update s.round t (s.round t + 1) := by
  obtain ⟨hin, hguard, hpause⟩ := hl
  cases t <;> cases l <;> first | rfl | exact absurd hin id | exact absurd rfl hguard |
    exact absurd rfl hpause

theorem due_of_inside {s : Shared} (hA : Inside Alternating t l s) (hl : Processing t l)
    (hahead : s.round .thread1 = s.round .thread2 ∨ s.round .thread1 = s.round .thread2 + 1) :
    Due t s.round := by
  obtain ⟨ha, hb, h1, h2⟩ := hA.1
  rw [finishRound_round hl] at h1 h2
  cases t <;> simp [Due, Function.update] at h1 h2 ⊢ <;> omega

theorem round_of_after {s s' : Shared} {m : Pc} (hl : l ≠ .unlock)
    (h : (program num t l).after s = some (s', m)) : s'.round = s.round := by
  cases t <;> cases l <;> first | exact absurd rfl hl | (cases h <;> rfl)

theorem unlock_counts (hstep : step (program num) s a = some s')
    (hc : completes ⟨s, a, s'⟩ = some t) :
    s.threads t = .running .unlock ∧ s'.shared.round = Function.update s.shared.round t
      (s.shared.round t + 1) := by
  cases a with
  | wake u => cases hc
  | go u w =>
    obtain ⟨hat, hut⟩ := Option.ite_none_right_eq_some.mp hc
    cases hut
    have ht : s.threads t = .running .unlock := hat
    refine ⟨ht, ?_⟩
    have hprog : program num t .unlock = .unlock (Shared.count t) .test := by cases t <;> rfl
    simp only [step, ht, hprog] at hstep
    obtain ⟨-, hstep⟩ := Option.ite_none_right_eq_some.mp hstep
    cases hstep
    rfl

theorem none_completes (hstep : step (program num) s a = some s')
    (hc : completes ⟨s, a, s'⟩ = none) : s'.shared.round = s.shared.round := by
  rcases (fires_of_step hstep).at_cases with ⟨hshared, -⟩ | ⟨t, w, l, m, rfl, ht, hafter, -⟩
  · rw [hshared]
  · refine round_of_after (fun hl => ?_) hafter
    subst hl
    have hsome : completes ⟨s, .go t w, s'⟩ = some t := if_pos ht
    rw [hc] at hsome
    cases hsome

theorem turns_thread3 (ts : List Thread) : turns (ts ++ [.thread3]) = turns ts := by
  simp [turns, List.filter_append]

theorem turns_append (h : t ≠ .thread3) : turns (ts ++ [t]) = turns ts ++ [t] := by
  simp [turns, List.filter_append, h]

theorem alternate_append (ht : t ≠ .thread3 → t =
      if (turns ts).length % 2 = 0 then .thread1 else .thread2)
    (h : Alternate ts) : Alternate (ts ++ [t]) := by
  intro i u hi
  by_cases h3 : t = .thread3
  · subst h3
    exact h i u (turns_thread3 ts ▸ hi)
  · rw [turns_append h3] at hi
    rcases Nat.lt_trichotomy i (turns ts).length with hlt | rfl | hgt
    · rw [List.getElem?_append_left hlt] at hi
      exact h i u hi
    · rw [List.getElem?_concat_length] at hi
      exact (Option.some.inj hi).symm.trans (ht h3)
    · rw [List.getElem?_eq_none (by rw [List.length_append]; exact hgt)] at hi
      cases hi

/-- A round that is due and completed keeps the order. -/
theorem Ordered.complete (h : Ordered ts n) (hdue : Due t n) :
    Ordered (ts ++ [t]) (Function.update n t (n t + 1)) := by
  have hcount : ∀ u, (ts ++ [t]).count u = Function.update n t (n t + 1) u := by
    intro u
    rw [List.count_append, h.count u]
    by_cases hu : u = t
    · subst hu
      simp
    · rw [Function.update_of_ne hu, List.count_singleton, if_neg (by simpa using Ne.symm hu),
        Nat.add_zero]
  have hahead := h.ahead
  have hlength := h.length
  refine ⟨hcount, ?_, ?_, alternate_append (fun h3 => ?_) h.alternate, fun pre hpre => ?_⟩
  · cases t <;> simp [Due, Function.update] at hdue ⊢ <;> omega
  · cases t with
    | thread3 => rw [turns_thread3, hlength]; rfl
    | thread1 | thread2 =>
      rw [turns_append (by decide), List.length_append, hlength]
      simp [Function.update]
      omega
  · rw [hlength]
    cases t with
    | thread1 =>
      have heq : n .thread1 = n .thread2 := hdue
      rw [if_pos (by omega)]
    | thread2 =>
      have heq : n .thread1 = n .thread2 + 1 := hdue
      rw [if_neg (by omega)]
    | thread3 => exact absurd rfl h3
  · rcases List.prefix_concat_iff.mp hpre with rfl | hpre
    · rw [hcount, hcount]
      have hle := h.behind ts (List.prefix_refl ts)
      rw [h.count, h.count] at hle
      cases t <;> simp [Due, Function.update] at hdue ⊢ <;> omega
    · exact h.behind pre hpre

structure Alternated (num : Nat) (past : List (Event State (Move Thread))) (s : State) : Prop where
  locked : Locked (program num) InMonitor s
  asserted : Asserted InMonitor Alternating (Inside Alternating) (Knows num) s
  ordered : Ordered (sections past) s.shared.round

variable {past : List (Event State (Move Thread))}

theorem Alternated.due (hs : Alternated num past s) (ht : s.threads t = .running l)
    (hl : Processing t l) : Due t s.shared.round :=
  due_of_inside (hs.asserted.inside ht hl.1) hl hs.ordered.ahead

theorem Alternated.step (hs : Alternated num past s) (hstep : step (program num) s a = some s') :
    Alternated num (past ++ [⟨s, a, s'⟩]) s' where
  locked := hs.locked.step (disciplined num) hstep
  asserted := by
    have hok : Allowed (fun _ _ _ => True) s a := allowed_any s a
    exact (outline fun _ _ hF hgo _ => hF.finishRound hgo).step (disciplined num) hs.locked
      hs.asserted hok hstep
  ordered := by
    rw [sections, List.filterMap_append]
    cases hc : completes ⟨s, a, s'⟩ with
    | none =>
      rw [none_completes hstep hc, List.filterMap_cons_none hc, List.filterMap_nil,
        List.append_nil]
      exact hs.ordered
    | some t =>
      obtain ⟨ht, hround⟩ := unlock_counts hstep hc
      rw [hround, List.filterMap_cons_some hc, List.filterMap_nil]
      exact hs.ordered.complete (hs.due ht ⟨by cases t <;> trivial, nofun, nofun⟩)

theorem start_alternated (num : Nat) : Alternated num [] start where
  locked := start_locked num
  asserted := by
    refine ⟨start_knows num, fun _ => ⟨Or.inl rfl, Or.inl rfl, rfl, Int.le_refl _⟩, ?_⟩
    intro t l hl hm
    cases hl
    cases t <;> exact absurd hm id
  ordered := by
    refine ⟨fun _ => rfl, Or.inl rfl, rfl, nofun, fun pre hpre => ?_⟩
    rw [List.prefix_nil.mp hpre]
    exact Nat.le_refl 0

/-- In every interleaving the processing sections exclude each other, `Thread_1` and `Thread_2` take
turns, and `Thread_3` stays behind `Thread_2`. -/
theorem threads_alternate {es : List (Event State (Move Thread))}
    (h : Trace (step (program num)) start es s) :
    (∀ t u l m, s.threads t = .running l → s.threads u = .running m → Processing t l →
      Processing u m → t = u) ∧
    (s.owner = none → (s.shared.aDone = 0 ∨ s.shared.aDone = 1) ∧
      ((sections es).count .thread1 : Int) = (sections es).count .thread2 + s.shared.aDone ∧
      ((sections es).count .thread3 : Int) + s.shared.bDone ≤ (sections es).count .thread2) ∧
    Alternate (sections es) ∧
    (∀ pre, pre <+: sections es → pre.count .thread3 ≤ pre.count .thread2) ∧
    (∀ t l, s.threads t = .running l → Processing t l →
      Due t fun u => (sections es).count u) := by
  have keep : ∀ past (s : State) (a : Move Thread) (t : State), Alternated num past s → True →
      step (program num) s a = some t → Alternated num (past ++ [⟨s, a, t⟩]) t :=
    fun _ _ _ _ hs _ ht => hs.step ht
  obtain ⟨hs, -⟩ := h.history keep (start_alternated num) fun _ _ => trivial
  have hcount : (fun u => (sections es).count u) = s.shared.round := funext hs.ordered.count
  refine ⟨fun t u l m ht hu hl hm => hs.locked.exclusive ht hu hl.1 hm.1, fun hfree => ?_,
    hs.ordered.alternate, hs.ordered.behind, fun t l ht hl => hcount ▸ hs.due ht hl⟩
  obtain ⟨ha, -, h1, h2⟩ := hs.asserted.free hfree
  rw [hs.ordered.count, hs.ordered.count, hs.ordered.count]
  exact ⟨ha, h1, h2⟩

end

def aheadRun : List (Event State (Move Thread)) :=
  record (step (program 2)) start (round1 ++ round2 ++ round1 ++ round3)

theorem ahead_alternates :
    aheadRun.length = 29 ∧
    sections aheadRun = [.thread1, .thread2, .thread1, .thread3] ∧ Alternate (sections aheadRun) :=
  ⟨by decide, by decide, (threads_alternate (Trace.recorded _ _ _)).2.2.1⟩

end LinuxAssignment.ThreadPipeline
