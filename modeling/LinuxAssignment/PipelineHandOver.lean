import LinuxAssignment.ThreadPipeline

namespace LinuxAssignment.ThreadPipeline

open StepSystem Monitor

/-- Each flag stands for the one round by which its setter is ahead. -/
structure Matched (s : Shared) : Prop where
  aDone : s.aDone = 0 ∨ s.aDone = 1
  bDone : s.bDone = 0 ∨ s.bDone = 1
  first : (s.round .thread1 : Int) = s.round .thread2 + s.aDone
  second : (s.round .thread2 : Int) = s.round .thread3 + s.bDone

/-- The condition: when `Thread_2` finds its guard open, `Thread_3` has taken the last round. -/
def HandsOver (t : Thread) (l : Pc) (s : Shared) : Prop :=
  t = .thread2 → l = .guard → s.aDone ≠ 0 → s.bDone = 0

instance (t : Thread) (l : Pc) (s : Shared) : Decidable (HandsOver t l s) :=
  inferInstanceAs (Decidable (_ → _ → _ → _))

theorem Matched.finishRound {t : Thread} {s : Shared} (h : Matched s) (hgo : ¬ MustWait t s)
    (hok : HandsOver t .guard s) : Matched (finishRound t .process s) := by
  obtain ⟨ha, hb, h1, h2⟩ := h
  cases t with
  | thread1 =>
    have h0 : s.aDone = 0 := not_not.mp hgo
    constructor <;> simp [ThreadPipeline.finishRound, Shared.count] <;> omega
  | thread2 =>
    have h0 : s.bDone = 0 := hok rfl rfl hgo
    have h3 : s.aDone = 1 := ha.resolve_left hgo
    constructor <;> simp [ThreadPipeline.finishRound, Shared.count] <;> omega
  | thread3 =>
    have h0 : s.bDone = 1 := hb.resolve_left hgo
    constructor <;> simp [ThreadPipeline.finishRound, Shared.count] <;> omega

structure Sound (num : Nat) (s : State) : Prop where
  locked : Locked (program num) InMonitor s
  asserted : Asserted InMonitor Matched (Inside Matched) (Knows num) s
  attended : Attended waiter (fun c => MustWait (waiter c)) (Owes num) s

theorem start_sound (num : Nat) : Sound num start where
  locked := start_locked num
  asserted := by
    refine ⟨start_knows num, fun _ => ⟨Or.inl rfl, Or.inl rfl, rfl, rfl⟩, ?_⟩
    intro t l hl hm
    cases hl
    cases t <;> exact absurd hm id
  attended := nofun

section

variable {num : Nat} {s s' : State}

theorem Sound.after (hs : Sound num s) {a : Move Thread} (hok : Allowed HandsOver s a)
    (hstep : step (program num) s a = some s') : Sound num s' where
  locked := hs.locked.step (disciplined num) hstep
  asserted := (outline fun _ _ => Matched.finishRound).step (disciplined num) hs.locked
    hs.asserted hok hstep
  attended := signals.step (disciplined num) hs.locked hs.asserted hs.attended hok hstep

theorem run_sound {es : List (Event State (Move Thread))} (h : Trace (step (program num)) start es s)
    (hok : ∀ e ∈ es, Allowed HandsOver e.before e.label) : Sound num s := by
  have h0 := start_sound num
  obtain ⟨hl, ha, hw⟩ := signals.run (outline fun _ _ => Matched.finishRound) (disciplined num) h
    ⟨h0.locked, h0.asserted, h0.attended⟩ hok
  exact ⟨hl, ha, hw⟩

/-- The thread checks its guard, or is about to take the mutex for that, and will have to wait. -/
def ChecksInVain (s : State) (t : Thread) : Prop :=
  (s.threads t).at ∈ [Pc.lock, .relock, .guard, .pause] ∧ MustWait t s.shared

/-- The thread can take a step, other than a spurious wake-up or a check that makes it wait. -/
def CanGo (num : Nat) (s : State) (t : Thread) : Prop :=
  (∃ w, (step (program num) s (.go t w)).isSome) ∧ ¬ ChecksInVain s t

def EndsCheck (num : Nat) (s s' : State) : Prop :=
  ∃ t, s.owner = some t ∧ ChecksInVain s t ∧ step (program num) s (.go t none) = some s'

/-- Once the check that is under way is over, some thread can go on. -/
def NotStuck (num : Nat) (s : State) : Prop :=
  ∃ s', Relation.ReflTransGen (EndsCheck num) s s' ∧ ∃ t, CanGo num s' t

theorem Sound.open_goes (hs : Sound num s) (hfree : s.owner = none) {t : Thread}
    (ht : s.shared.round t < num) (hgo : ¬ MustWait t s.shared) : CanGo num s t := by
  refine ⟨⟨none, ?_⟩, fun hvain => hgo hvain.2⟩
  cases hst : s.threads t with
  | woken l => exact lock_goes hfree (Or.inl hst)
  | asleep c l =>
    obtain ⟨m, hm⟩ := hs.locked.asleep hst
    cases wait_waiter hm
    exact absurd (hs.attended.of_free hfree hst) hgo
  | running l =>
    have hk := hs.asserted.always t
    rw [hst] at hk
    cases hp : program num t l with
    | lock next => exact lock_goes hfree (Or.inr ⟨hst, next, hp⟩)
    | eval f next => simp [step, hst, hp]
    | exit =>
      have := hk.done (hk.place hp)
      omega
    | unlock f next =>
      have how := (hs.locked.holds_iff hst).mpr ((disciplined num).unlock hp).1
      rw [hfree] at how
      cases how
    | wait c next =>
      have how := (hs.locked.holds_iff hst).mpr ((disciplined num).wait hp).1
      rw [hfree] at how
      cases how
    | signal c next =>
      obtain ⟨-, rfl, ⟨rfl, -⟩ | ⟨rfl, -⟩⟩ := program_signal hp
      · have how := (hs.locked.holds_iff hst).mpr trivial
        rw [hfree] at how
        cases how
      · have how := (hs.locked.holds_iff hst).mpr trivial
        rw [hfree] at how
        cases how

theorem Sound.free_goes (hs : Sound num s) (hfree : s.owner = none) {u : Thread}
    (hu : s.shared.round u < num) : ∃ t, CanGo num s t := by
  obtain ⟨ha, hb, h1, h2⟩ := hs.asserted.free hfree
  have hle := fun t => (hs.asserted.always t).round_le
  have hle1 := hle .thread1
  by_cases ha1 : s.shared.aDone = 1
  · exact ⟨.thread2, hs.open_goes hfree (by omega) (by simp [MustWait, ha1])⟩
  · have ha0 := ha.resolve_right ha1
    by_cases hr : s.shared.round .thread1 < num
    · exact ⟨.thread1, hs.open_goes hfree hr (by simp [MustWait, ha0])⟩
    · by_cases hb1 : s.shared.bDone = 1
      · exact ⟨.thread3, hs.open_goes hfree (by omega) (by simp [MustWait, hb1])⟩
      · exfalso
        have hb0 := hb.resolve_right hb1
        cases u <;> omega

theorem Sound.pause_ends (hs : Sound num s) {t : Thread} (how : s.owner = some t)
    (ht : s.threads t = .running .pause) :
    ∃ s', step (program num) s (.go t none) = some s' ∧ Sound num s' ∧ s'.owner = none ∧
      s'.shared = s.shared := by
  have hok : Allowed HandsOver s (.go t none) := by
    simp [Allowed, ht, HandsOver]
  have hstep : ∃ threads,
      step (program num) s (.go t none) = some ⟨s.shared, none, threads⟩ := by
    cases t <;> simp [step, ht, how, program, thread1, thread2, thread3]
  obtain ⟨threads, hstep⟩ := hstep
  exact ⟨_, hstep, hs.after hok hstep, rfl, rfl⟩

theorem Sound.guard_pauses (hs : Sound num s) {t : Thread} (ht : s.threads t = .running .guard)
    (hwait : MustWait t s.shared) :
    ∃ s', step (program num) s (.go t none) = some s' ∧ Sound num s' ∧ s'.owner = s.owner ∧
      s'.shared = s.shared ∧ s'.threads t = .running .pause := by
  have hok : Allowed HandsOver s (.go t none) := by
    simp only [Allowed, ht, HandsOver]
    rintro rfl - hgo
    exact absurd hwait hgo
  have hstep : step (program num) s (.go t none) =
      some ⟨s.shared, s.owner, moveTo s.threads t .pause⟩ := by
    cases t <;> simp_all [step, program, thread1, thread2, thread3, MustWait]
  exact ⟨_, hstep, hs.after hok hstep, rfl, rfl, by simp [moveTo]⟩

/-- A check that makes a thread wait is over after at most two more of its steps. -/
theorem Sound.check_ends (hs : Sound num s) {t : Thread} (how : s.owner = some t)
    (hvain : ChecksInVain s t) :
    ∃ s', Relation.ReflTransGen (EndsCheck num) s s' ∧ Sound num s' ∧ s'.owner = none ∧
      s'.shared = s.shared := by
  obtain ⟨l, ht, hm⟩ := (hs.locked.owner t).mp how
  have hat : l ∈ [Pc.lock, .relock, .guard, .pause] := by
    have := hvain.1
    rwa [ht] at this
  simp only [List.mem_cons, List.not_mem_nil, or_false] at hat
  rcases hat with rfl | rfl | rfl | rfl
  · cases t <;> exact absurd hm id
  · cases t <;> exact absurd hm id
  · obtain ⟨s1, hstep1, hs1, how1, hshared1, ht1⟩ := hs.guard_pauses ht hvain.2
    obtain ⟨s2, hstep2, hs2, hfree2, hshared2⟩ := hs1.pause_ends (how1.trans how) ht1
    have hvain1 : ChecksInVain s1 t := ⟨by simp [ht1, Status.at], hshared1 ▸ hvain.2⟩
    refine ⟨s2, ?_, hs2, hfree2, hshared2.trans hshared1⟩
    exact (Relation.ReflTransGen.single ⟨t, how, hvain, hstep1⟩).tail
      ⟨t, how1.trans how, hvain1, hstep2⟩
  · obtain ⟨s1, hstep1, hs1, hfree1, hshared1⟩ := hs.pause_ends how ht
    exact ⟨s1, .single ⟨t, how, hvain, hstep1⟩, hs1, hfree1, hshared1⟩

/-- A run in which `Thread_2` hands over each round loses none of them and never gets stuck. -/
theorem pipeline_progress {es : List (Event State (Move Thread))}
    (h : Trace (step (program num)) start es s)
    (hok : ∀ e ∈ es, Allowed HandsOver e.before e.label) :
    (s.owner = none →
      (s.shared.round .thread2 : Int) = s.shared.round .thread3 + s.shared.bDone) ∧
    ((∃ t, s.shared.round t < num) → NotStuck num s) := by
  have hs := run_sound h hok
  refine ⟨fun hfree => (hs.asserted.free hfree).second, ?_⟩
  rintro ⟨u, hu⟩
  cases how : s.owner with
  | none => exact ⟨s, .refl, hs.free_goes how hu⟩
  | some t =>
    by_cases hvain : ChecksInVain s t
    · obtain ⟨s', hends, hs', hfree, hshared⟩ := hs.check_ends how hvain
      exact ⟨s', hends, hs'.free_goes hfree (hshared ▸ hu)⟩
    · exact ⟨s, .refl, t, owner_goes (disciplined num) hs.locked how, hvain⟩

end

def round1 : List (Move Thread) := List.replicate 7 (.go .thread1 none)

def round2 : List (Move Thread) := List.replicate 8 (.go .thread2 none)

def round3 : List (Move Thread) := List.replicate 7 (.go .thread3 none)

def oneRound : State := last (step (program 1)) start (round1 ++ round2 ++ round3)

theorem one_round_of_each :
    (record (step (program 1)) start (round1 ++ round2 ++ round3)).length = 22 ∧
    (oneRound.owner = none →
      (oneRound.shared.round .thread2 : Int) =
        oneRound.shared.round .thread3 + oneRound.shared.bDone) ∧
    ((∃ t, oneRound.shared.round t < 1) → NotStuck 1 oneRound) :=
  ⟨by decide, pipeline_progress (Trace.recorded _ _ _) (by decide)⟩

/-- With two rounds to go, `Thread_2` can hand over both before `Thread_3` takes the first. -/
theorem hand_over_lost :
    ¬ ∀ (num : Nat), 1 ≤ num → ∀ (es : List (Event State (Move Thread))) (s : State),
      Trace (step (program num)) start es s →
      (s.owner = none →
        (s.shared.round .thread2 : Int) = s.shared.round .thread3 + s.shared.bDone) ∧
      ((∃ t, s.shared.round t < num) → NotStuck num s) := by
  intro h
  have hrun := h 2 (by decide) _ _
    (Trace.recorded _ start (round1 ++ round2 ++ (round1 ++ round2)))
  exact absurd (hrun.1 (by decide)) (by decide)

end LinuxAssignment.ThreadPipeline
