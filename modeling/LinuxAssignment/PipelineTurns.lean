import LinuxAssignment.MonitorTurns
import LinuxAssignment.PipelineAlternation

namespace LinuxAssignment.ThreadPipeline

open StepSystem Monitor

/-- `Thread_2` has handed over `lost` rounds that `Thread_3` will never take. -/
structure Trailing (lost : Nat) (s : Shared) : Prop where
  aDone : s.aDone = 0 ∨ s.aDone = 1
  bDone : s.bDone = 0 ∨ s.bDone = 1
  first : (s.round .thread1 : Int) = s.round .thread2 + s.aDone
  second : (s.round .thread2 : Int) = s.round .thread3 + s.bDone + lost

structure Behind (lost : Nat) (s : Shared) : Prop where
  bDone : s.bDone = 0 ∨ s.bDone = 1
  second : (s.round .thread3 : Int) + s.bDone + lost ≤ s.round .thread2

/-- The places of a round that will be completed, as long as its guard is open. -/
def Turn (t : Thread) (final : Shared) (l : Pc) (s : Shared) : Prop :=
  (l = .guard ∧ ¬ MustWait t s ∧ HandsOver t .guard s ∧ finishRound t .process s = final) ∨
    Processing t l ∧ finishRound t l s = final

def rank : Pc → Nat
  | .guard => 6
  | .process => 5
  | .clear => 4
  | .store => 3
  | .signal => 2
  | .unlock => 1
  | _ => 0

/-- The invariants of the pipeline from a state in which `lost` rounds are lost, as long as no more
of them are. -/
structure Kept (num lost : Nat) (s : State) : Prop where
  locked : Locked (program num) InMonitor s
  asserted : Asserted InMonitor (Trailing lost) (Inside (Trailing lost)) (Knows num) s
  attended : Attended waiter (fun c => MustWait (waiter c)) (Owes num) s

section

variable {num lost : Nat} {t : Thread} {l : Pc} {s s' : State} {final : Shared}

theorem Trailing.finishRound {s : Shared} (h : Trailing lost s) (hgo : ¬ MustWait t s)
    (hok : HandsOver t .guard s) : Trailing lost (finishRound t .process s) := by
  obtain ⟨ha, hb, h1, h2⟩ := h
  cases t with
  | thread1 =>
    have h0 : s.aDone = 0 := not_not.mp hgo
    constructor <;> simp [ThreadPipeline.finishRound, Shared.count] <;> omega
  | thread2 =>
    have h0 : s.bDone = 0 := hok rfl rfl hgo
    have h3 : s.aDone = 1 := ha.resolve_left hgo
    constructor <;> simp [ThreadPipeline.finishRound, Shared.count] <;> omega
  | thread3 =>
    have h0 : s.bDone = 1 := hb.resolve_left hgo
    constructor <;> simp [ThreadPipeline.finishRound, Shared.count] <;> omega

/-- What is lost stays lost, and more may be. -/
theorem Behind.finishRound {s : Shared} (h : Behind lost s) (hgo : ¬ MustWait t s) :
    Behind lost (finishRound t .process s) := by
  obtain ⟨hb, h2⟩ := h
  cases t with
  | thread1 => exact ⟨hb, h2⟩
  | thread2 =>
    refine ⟨Or.inr rfl, ?_⟩
    simp [ThreadPipeline.finishRound, Shared.count]
    omega
  | thread3 =>
    have h0 : s.bDone = 1 := hb.resolve_left hgo
    refine ⟨Or.inl rfl, ?_⟩
    simp [ThreadPipeline.finishRound, Shared.count]
    omega

theorem Turn.processing {s : Shared} (h : Turn t final l s) (hl : l ≠ .guard) :
    Processing t l ∧ finishRound t l s = final := by
  rcases h with ⟨rfl, -⟩ | h
  · exact absurd rfl hl
  · exact h

theorem Turn.inside {s : Shared} (h : Turn t final l s) : InMonitor t l ∧ l ≠ .pause := by
  rcases h with ⟨rfl, -⟩ | ⟨⟨hin, -, hpause⟩, -⟩
  · exact ⟨by cases t <;> trivial, by decide⟩
  · exact ⟨hin, hpause⟩

theorem processing_eval {f : Shared → Shared} {next : Shared → Pc}
    (h : program num t l = .eval f next) (hl : Processing t l) (s : Shared) :
    Processing t (next s) ∧ finishRound t (next s) (f s) = finishRound t l s ∧
      rank (next s) < rank l := by
  obtain ⟨hin, hguard, -⟩ := hl
  cases t <;> cases l <;> cases h
  case thread1.test | thread2.test | thread3.test => exact absurd hin id
  case thread1.guard | thread2.guard | thread3.guard => exact absurd rfl hguard
  all_goals
    refine ⟨⟨trivial, nofun, nofun⟩, rfl, ?_⟩
    dsimp only [rank]
    omega

theorem turn_section (num : Nat) (t : Thread) (final : Shared) :
    Section (program num) HandsOver t rank (Turn t final) (· = final) where
  allowed := by
    intro l s hB
    rcases hB with ⟨rfl, -, hok, -⟩ | ⟨⟨-, hl, -⟩, -⟩
    · exact hok
    · exact fun _ hguard => absurd hguard hl
  eval := by
    intro l f next s h hB
    by_cases hl : l = .guard
    · subst hl
      have hguard : program num t .guard = .eval id fun s =>
          if MustWait t s then .pause else .process := by cases t <;> rfl
      cases hguard.symm.trans h
      rcases hB with ⟨-, hgo, -, hfinal⟩ | ⟨⟨-, hl, -⟩, -⟩
      · dsimp only
        rw [if_neg hgo]
        exact ⟨Or.inr ⟨⟨by cases t <;> trivial, nofun, nofun⟩, hfinal⟩, by decide⟩
      · exact absurd rfl hl
    · obtain ⟨hl, hfinal⟩ := hB.processing hl
      obtain ⟨hnext, hsame, hlt⟩ := processing_eval h hl s
      exact ⟨Or.inr ⟨hnext, hsame.trans hfinal⟩, hlt⟩
  signal := by
    intro l c next s h hB
    obtain ⟨rfl, rfl, ⟨rfl, -⟩ | ⟨rfl, -⟩⟩ := program_signal h
    · obtain ⟨-, hfinal⟩ := hB.processing nofun
      exact ⟨Or.inr ⟨⟨trivial, nofun, nofun⟩, hfinal⟩, by decide⟩
    · obtain ⟨-, hfinal⟩ := hB.processing nofun
      exact ⟨Or.inr ⟨⟨trivial, nofun, nofun⟩, hfinal⟩, by decide⟩
  unlock := by
    intro l f next s h hB
    rcases program_unlock h with ⟨-, rfl, -⟩ | ⟨rfl, rfl, -⟩
    · exact absurd rfl hB.inside.2
    · obtain ⟨-, hfinal⟩ := hB.processing nofun
      rwa [finishRound_unlock] at hfinal
  wait := by
    intro l c next s h hB
    obtain ⟨-, rfl, -⟩ := program_wait h
    exact absurd rfl hB.inside.2
  lock := fun h hB => absurd hB.inside.1 ((disciplined num).lock h).1
  exit := fun h hB => absurd hB.inside.1 ((disciplined num).exit h)

theorem Kept.reaches (hs : Kept num lost s)
    (h : Relation.ReflTransGen (Goes (program num) HandsOver) s s') : Kept num lost s' := by
  refine Goes.keeps (fun s a t hs hok ht => ?_) h hs
  have hout : Outline (program num) InMonitor HandsOver (Trailing lost) (Inside (Trailing lost))
      (Knows num) := outline fun _ _ => Trailing.finishRound
  exact ⟨hs.locked.step (disciplined num) ht,
    hout.step (disciplined num) hs.locked hs.asserted hok ht,
    signals.step (disciplined num) hs.locked hs.asserted hs.attended hok ht⟩

theorem loops (num : Nat) :
    Loops (program num) InMonitor (fun t s => s.round t) num .test .lock .guard .finished where
  loop t := by cases t <;> rfl
  enter t := by cases t <;> rfl
  outside := by
    intro t l hout
    cases t <;> cases l <;>
      first
        | exact absurd trivial hout
        | exact Or.inl rfl
        | exact Or.inr (Or.inl rfl)
        | exact Or.inr (Or.inr rfl)
  waits h := (program_wait h).1
  guard := by decide

/-- A thread whose guard is open can take its turn at a free mutex. -/
theorem Kept.turn (hs : Kept num lost s) (hfree : s.owner = none) (hround : s.shared.round t < num)
    (hgo : ¬ MustWait t s.shared) (hok : HandsOver t .guard s.shared) :
    ∃ s', Relation.ReflTransGen (Goes (program num) HandsOver) s s' ∧ s'.owner = none ∧
      s'.shared = finishRound t .process s.shared := by
  have hawake : ∀ c l, s.threads t ≠ .asleep c l := by
    intro c l ht
    obtain ⟨m, hm⟩ := hs.locked.asleep ht
    cases wait_waiter hm
    exact hgo (hs.attended.of_free hfree ht)
  have houtside : ∀ l, ¬ InMonitor t l → HandsOver t l s.shared := by
    rintro l hout rfl rfl
    exact absurd trivial hout
  exact (loops num).turn hs.locked hfree hawake (knows_iff.mp (hs.asserted.always t)) hround houtside
    (by cases t <;> exact ⟨id, id⟩) (turn_section num t _) (Or.inl ⟨rfl, hgo, hok, rfl⟩)

theorem Kept.round_le (hs : Kept num lost s) (t : Thread) : s.shared.round t ≤ num :=
  (hs.asserted.always t).round_le

theorem finishRound_process (t u : Thread) (s : Shared) :
    (finishRound t .process s).round u = if u = t then s.round t + 1 else s.round u := by
  rw [finishRound_round ⟨by cases t <;> trivial, by decide, by decide⟩, Function.update_apply]

/-- At a free mutex there is a turn to take, which loses no round, until only the lost rounds are
missing. -/
theorem Kept.next_turn (hs : Kept num lost s) (hfree : s.owner = none)
    (hleft : s.shared.round .thread1 < num ∨ s.shared.round .thread2 < num ∨
      s.shared.round .thread3 + lost < num) :
    ∃ t s', Relation.ReflTransGen (Goes (program num) HandsOver) s s' ∧ s'.owner = none ∧
      s.shared.round t < num ∧ s'.shared = finishRound t .process s.shared := by
  have turn : ∀ t, s.shared.round t < num → ¬ MustWait t s.shared → HandsOver t .guard s.shared →
      ∃ t s', Relation.ReflTransGen (Goes (program num) HandsOver) s s' ∧ s'.owner = none ∧
        s.shared.round t < num ∧ s'.shared = finishRound t .process s.shared := by
    intro t hround hgo hok
    obtain ⟨s', hrun, hfree', hshared⟩ := hs.turn hfree hround hgo hok
    exact ⟨t, s', hrun, hfree', hround, hshared⟩
  obtain ⟨ha, hb, h1, h2⟩ := hs.asserted.free hfree
  have hle1 := hs.round_le .thread1
  have hle2 := hs.round_le .thread2
  by_cases hb1 : s.shared.bDone = 1
  · exact turn .thread3 (by omega) (by simp [MustWait, hb1]) fun h => Thread.noConfusion h
  · have hb0 := hb.resolve_right hb1
    by_cases ha1 : s.shared.aDone = 1
    · exact turn .thread2 (by omega) (by simp [MustWait, ha1]) fun _ _ _ => hb0
    · have ha0 := ha.resolve_right ha1
      exact turn .thread1 (by omega) (by simp [MustWait, ha0]) fun h => Thread.noConfusion h

theorem Kept.catches_up (hs : Kept num lost s) (hfree : s.owner = none) :
    ∃ s', Relation.ReflTransGen (Goes (program num) HandsOver) s s' ∧ s'.owner = none ∧
      s'.shared.round .thread1 = num ∧ s'.shared.round .thread2 = num ∧
      s'.shared.round .thread3 + lost = num := by
  induction hn : (num - s.shared.round .thread1) + (num - s.shared.round .thread2) +
    (num - s.shared.round .thread3) using Nat.strong_induction_on generalizing s with
  | _ n ih =>
  have hle1 := hs.round_le .thread1
  have hle2 := hs.round_le .thread2
  have hle3 := hs.round_le .thread3
  obtain ⟨ha, hb, h1, h2⟩ := hs.asserted.free hfree
  by_cases hleft : s.shared.round .thread1 < num ∨ s.shared.round .thread2 < num ∨
      s.shared.round .thread3 + lost < num
  · obtain ⟨t, s1, hrun, hfree1, hround, hshared⟩ := hs.next_turn hfree hleft
    have hcount : ∀ u, s1.shared.round u = if u = t then s.shared.round t + 1 else s.shared.round u := by
      intro u
      rw [hshared, finishRound_process]
    have hc1 := hcount .thread1
    have hc2 := hcount .thread2
    have hc3 := hcount .thread3
    obtain ⟨s2, hrun2, hs2⟩ := ih _ (by cases t <;> simp at hc1 hc2 hc3 <;> omega)
      (hs.reaches hrun) hfree1 rfl
    exact ⟨s2, hrun.trans hrun2, hs2⟩
  · push Not at hleft
    exact ⟨s, .refl, hfree, by omega, by omega, by omega⟩

theorem Kept.finishes (hs : Kept num lost s) (hround : s.shared.round t = num) :
    ∃ s', Relation.ReflTransGen (Goes (program num) HandsOver) s s' ∧ Kept num lost s' ∧
      s'.shared = s.shared ∧ s'.threads t = .running .finished ∧
      ∀ u, u ≠ t → s'.threads u = s.threads u := by
  obtain ⟨s', hrun, -, hshared, hthreads⟩ := (loops num).finishes HandsOver hs.locked
    (knows_iff.mp (hs.asserted.always t)) hround.ge nofun
  exact ⟨s', hrun, hs.reaches hrun, hshared, hthreads⟩

/-- The first two threads can return from any state in which the mutex is free. -/
theorem Kept.two_return (hs : Kept num lost s) (hfree : s.owner = none) :
    ∃ s', Relation.ReflTransGen (Goes (program num) HandsOver) s s' ∧ Kept num lost s' ∧
      s'.threads .thread1 = .running .finished ∧ s'.threads .thread2 = .running .finished ∧
      s'.shared.round .thread3 + lost = num := by
  obtain ⟨s1, hrun1, hfree1, hround1, hround2, hround3⟩ := hs.catches_up hfree
  obtain ⟨s2, hrun2, hs2, hshared2, hfin1, -⟩ := (hs.reaches hrun1).finishes hround1
  obtain ⟨s3, hrun3, hs3, hshared3, hfin2, hothers⟩ := hs2.finishes (hshared2 ▸ hround2)
  refine ⟨s3, hrun1.trans (hrun2.trans hrun3), hs3, (hothers .thread1 (by decide)).trans hfin1,
    hfin2, ?_⟩
  rw [hshared3, hshared2]
  exact hround3

theorem kept_of_free {es : List (Event State (Move Thread))}
    (h : Trace (step (program num)) start es s) (hfree : s.owner = none) :
    ∃ lost, Kept num lost s := by
  have hok : ∀ e ∈ es, Allowed (fun _ _ _ => True) e.before e.label :=
    fun e _ => allowed_any e.before e.label
  have h0 := start_alternated num
  obtain ⟨hl, ha, hw⟩ := signals.run (outline fun _ _ hF hgo _ => hF.finishRound hgo)
    (disciplined num) h ⟨h0.locked, h0.asserted, nofun⟩ hok
  obtain ⟨haDone, hbDone, hfirst, hsecond⟩ := ha.free hfree
  refine ⟨(s.shared.round .thread2 - s.shared.round .thread3 - s.shared.bDone : Int).toNat, hl, ?_, hw⟩
  exact ha.of_free hl hfree ⟨haDone, hbDone, hfirst, by omega⟩

/-- Lost rounds stay lost. -/
theorem Kept.behind {es : List (Event State (Move Thread))} (hs : Kept num lost s)
    (hfree : s.owner = none) (h : Trace (step (program num)) s es s') :
    Locked (program num) InMonitor s' ∧
      Asserted InMonitor (Behind lost) (Inside (Behind lost)) (Knows num) s' := by
  have hout : Outline (program num) InMonitor (fun _ _ _ => True) (Behind lost)
      (Inside (Behind lost)) (Knows num) := outline fun _ _ hF hgo _ => hF.finishRound hgo
  have keep : ∀ (s : State) (a : Move Thread) (t : State),
      Locked (program num) InMonitor s ∧
        Asserted InMonitor (Behind lost) (Inside (Behind lost)) (Knows num) s → True →
      step (program num) s a = some t → Locked (program num) InMonitor t ∧
        Asserted InMonitor (Behind lost) (Inside (Behind lost)) (Knows num) t :=
    fun s a t hs _ ht => ⟨hs.1.step (disciplined num) ht,
      hout.step (disciplined num) hs.1 hs.2 (allowed_any s a) ht⟩
  have hbehind : Behind lost s.shared := by
    obtain ⟨-, hb, -, h2⟩ := hs.asserted.free hfree
    exact ⟨hb, by omega⟩
  exact h.invariant keep ⟨hs.locked, hs.asserted.of_free hs.locked hfree hbehind⟩ fun _ _ => trivial

theorem behind_round (hl : Locked (program num) InMonitor s)
    (hs : Asserted InMonitor (Behind lost) (Inside (Behind lost)) (Knows num) s) :
    s.shared.round .thread3 + lost ≤ num := by
  have hle := fun t => (hs.always t).round_le
  cases how : s.owner with
  | none =>
    obtain ⟨hb, h2⟩ := hs.free how
    have := hle .thread2
    omega
  | some t =>
    obtain ⟨l, ht, hin⟩ := (hl.owner t).mp how
    have hk := hs.always t
    rw [ht] at hk
    have hlt := hk.pending hin.body.1 hin.body.2
    obtain ⟨⟨hb, h2⟩, -⟩ := hs.inside ht hin
    have hafter : ∀ u, (finishRound t l s.shared).round u = s.shared.round u ∨
        u = t ∧ (finishRound t l s.shared).round u = s.shared.round u + 1 := by
      intro u
      by_cases hprocess : Processing t l
      · rw [finishRound_round hprocess, Function.update_apply]
        split
        next hu => exact Or.inr ⟨hu, by rw [hu]⟩
        next => exact Or.inl rfl
      · have hwaits : l = .guard ∨ l = .pause := by
          by_contra hno
          push Not at hno
          exact hprocess ⟨hin, hno⟩
        rcases hwaits with rfl | rfl
        · exact Or.inl (by rw [finishRound_guard])
        · exact Or.inl (by rw [finishRound_pause])
    have h2' : (finishRound t l s.shared).round .thread2 ≤ num := by
      rcases hafter .thread2 with hsame | ⟨rfl, hnext⟩
      · rw [hsame]
        exact hle .thread2
      · omega
    rcases hafter .thread3 with hsame | ⟨-, hnext⟩ <;> omega

/-- At a free mutex the hand-overs that were lost so far are exactly the rounds that `Thread_3` can
no longer complete, while the other two can still return. -/
theorem rounds_lost {es : List (Event State (Move Thread))}
    (h : Trace (step (program num)) start es s) (hfree : s.owner = none) :
    ∃ lost : Nat,
      (s.shared.round .thread2 : Int) = s.shared.round .thread3 + s.shared.bDone + lost ∧
      (∀ es' s', Trace (step (program num)) s es' s' → s'.shared.round .thread3 + lost ≤ num) ∧
      ∃ es' s', Trace (step (program num)) s es' s' ∧ s'.threads .thread1 = .running .finished ∧
        s'.threads .thread2 = .running .finished ∧ s'.shared.round .thread3 + lost = num := by
  obtain ⟨lost, hs⟩ := kept_of_free h hfree
  refine ⟨lost, (hs.asserted.free hfree).second, fun es' s' h' => ?_, ?_⟩
  · obtain ⟨hl, ha⟩ := hs.behind hfree h'
    exact behind_round hl ha
  · obtain ⟨s', hrun, -, hfin⟩ := hs.two_return hfree
    obtain ⟨es', h'⟩ := Trace.of_steps (Goes.steps hrun)
    exact ⟨es', s', h', hfin⟩

/-- From a state in which the mutex is free the program can still end exactly if no round that
`Thread_2` handed over has been lost. -/
theorem still_returns_iff {es : List (Event State (Move Thread))}
    (h : Trace (step (program num)) start es s) (hfree : s.owner = none) :
    (∃ es' s', Trace (step (program num)) s es' s' ∧ ∀ t, s'.threads t = .running .finished) ↔
      (s.shared.round .thread2 : Int) = s.shared.round .thread3 + s.shared.bDone := by
  obtain ⟨lost, hs⟩ := kept_of_free h hfree
  have hsecond := (hs.asserted.free hfree).second
  constructor
  · rintro ⟨es', s', h', hall⟩
    obtain ⟨hl, ha⟩ := hs.behind hfree h'
    have hle := behind_round hl ha
    have hk := ha.always .thread3
    rw [hall] at hk
    have hdone := hk.done rfl
    omega
  · intro hnone
    obtain rfl : lost = 0 := by omega
    obtain ⟨s1, hrun1, hs1, hfin1, hfin2, hround3⟩ := hs.two_return hfree
    obtain ⟨s2, hrun2, -, -, hfin3, hothers⟩ := hs1.finishes (t := .thread3) hround3
    obtain ⟨es', h'⟩ := Trace.of_steps (Goes.steps (hrun1.trans hrun2))
    refine ⟨es', s2, h', fun t => ?_⟩
    cases t with
    | thread1 => exact (hothers _ (by decide)).trans hfin1
    | thread2 => exact (hothers _ (by decide)).trans hfin2
    | thread3 => exact hfin3

end

/-- `Thread_2` hands over two rounds before `Thread_3` takes the first. -/
def handedTwice : List (Move Thread) := round1 ++ round2 ++ (round1 ++ round2)

def overrun : State := last (step (program 2)) start handedTwice

theorem overrun_loses :
    (record (step (program 2)) start handedTwice).length = 30 ∧
    ∃ lost ≠ 0, ∀ es s, Trace (step (program 2)) overrun es s →
      s.shared.round .thread3 + lost ≤ 2 := by
  have hrun : Trace (step (program 2)) start _ overrun := Trace.recorded _ _ _
  obtain ⟨lost, hlost, hle, -⟩ := rounds_lost hrun (by decide)
  refine ⟨by decide, lost, ?_, hle⟩
  rintro rfl
  exact absurd hlost (by decide)

theorem overrun_never_returns :
    (record (step (program 2)) start handedTwice).length = 30 ∧
    ¬ ∃ es s, Trace (step (program 2)) overrun es s ∧ ∀ t, s.threads t = .running .finished := by
  have h : Trace (step (program 2)) start _ overrun := Trace.recorded _ _ _
  rw [still_returns_iff h (by decide)]
  decide

end LinuxAssignment.ThreadPipeline
