import LinuxAssignment.ProducerConsumerStack

namespace LinuxAssignment.ProducerConsumer

open ByteMemory StepSystem Monitor

def waiter : Cond → Thread
  | .canProduce => .producer
  | .canConsume => .consumer

/-- A thread that has moved `buffer_index` in its round has still to signal the other one. -/
def Owes : Thread → Pc → Cond → Prop
  | .producer, .sum, .canConsume | .producer, .last, .canConsume | .producer, .ready, .canConsume
  | .producer, .signal, .canConsume => True
  | .consumer, .load, .canProduce | .consumer, .sum, .canProduce | .consumer, .last, .canProduce
  | .consumer, .signal, .canProduce => True
  | _, _, _ => False

section

variable {bufferSize numItems : Nat} {s : State}

/-- A step inside the monitor that ends a reason to wait leaves a signal owed. -/
theorem waits_or_owes {t : Thread} {l : Pc} {f : Shared → Shared} {next : Shared → Pc} {d : Cond}
    {x : Shared} (h : program bufferSize numItems t l = .eval f next) (hm : InMonitor t l)
    (hw : Waits bufferSize (waiter d) x ∨ Owes t l d) :
    Waits bufferSize (waiter d) (f x) ∨ Owes t (next x) d := by
  cases t <;> cases l <;> cases h
  case producer.test | consumer.test => exact absurd rfl hm.body.1
  case producer.guard | consumer.guard =>
    refine Or.inl (hw.resolve_right ?_)
    cases d <;> exact id
  case producer.index =>
    cases d with
    | canProduce =>
      have hfull : (bufferSize : Int) ≤ x.bufferIndex := hw.resolve_right id
      exact Or.inl (Int.le_add_one hfull)
    | canConsume => exact Or.inr trivial
  case consumer.index =>
    cases d with
    | canProduce => exact Or.inr trivial
    | canConsume =>
      rcases hw.resolve_right id with hempty | hready
      · exact Or.inl (Or.inl (Int.sub_le_of_sub_le (by omega)))
      · exact Or.inl (Or.inr hready)
  all_goals
    cases d <;> first | exact Or.inr trivial | exact Or.inl (hw.resolve_right id)

theorem signals (bufferSize numItems : Nat) :
    Signals (program bufferSize numItems) InMonitor (fun _ _ _ => True) (Inside bufferSize) waiter
      (fun c => Waits bufferSize (waiter c)) Owes where
  only := by
    intro t l c next h
    obtain ⟨-, -, ⟨rfl, rfl⟩ | ⟨rfl, rfl⟩⟩ := program_wait h <;> rfl
  sleep := by
    intro t l c next s h hA
    obtain ⟨rfl, -, ⟨rfl, rfl⟩ | ⟨rfl, rfl⟩⟩ := program_wait h <;> exact hA.2
  wait := by
    intro t l c next d h
    obtain ⟨rfl, -⟩ := program_wait h
    cases t <;> cases d <;> exact id
  unlock := by
    intro t l f next s d h
    obtain ⟨rfl, rfl, -⟩ := program_unlock h
    cases t <;> cases d <;> exact ⟨id, id⟩
  signal := by
    intro t l c next d h hne hdue
    obtain ⟨rfl, -, ⟨rfl, rfl⟩ | ⟨rfl, rfl⟩⟩ := program_signal h <;> cases d <;>
      first | exact absurd rfl hne | exact absurd hdue id
  eval h hm _ _ hw := waits_or_owes h hm hw

theorem run_attended {es : List (Event State (Move Thread))}
    (h : Trace (Monitor.step (program bufferSize numItems)) (start bufferSize) es s) :
    Consistent bufferSize numItems s ∧
      Attended waiter (fun c => Waits bufferSize (waiter c)) Owes s := by
  have hok : ∀ e ∈ es, Allowed (fun _ _ _ => True) e.before e.label :=
    fun e _ => allowed_any e.before e.label
  obtain ⟨hl, ha, hw⟩ := (signals bufferSize numItems).run (outline bufferSize numItems)
    (disciplined bufferSize numItems) h
    ⟨start_locked bufferSize numItems, start_asserted bufferSize numItems, nofun⟩ hok
  exact ⟨⟨hl, ha⟩, hw⟩

/-- Nobody is in the monitor if all threads sleep or have returned. -/
theorem Consistent.free_of_idle (hs : Consistent bufferSize numItems s)
    (hidle : ∀ t, s.threads t = .running .finished ∨ ∃ c l, s.threads t = .asleep c l) :
    s.owner = none := by
  cases how : s.owner with
  | none => rfl
  | some t =>
    obtain ⟨l, hl, hm⟩ := (hs.1.owner t).mp how
    rcases hidle t with hfin | ⟨c, k, hsleep⟩
    · cases hfin.symm.trans hl
      exact absurd rfl hm.body.2
    · cases hsleep.symm.trans hl

theorem Consistent.asleep_at (hs : Consistent bufferSize numItems s) {t : Thread} {c : Cond}
    {l : Pc} (h : s.threads t = .asleep c l) : t = waiter c ∧ s.shared.round t < numItems := by
  obtain ⟨m, hm⟩ := hs.1.asleep h
  obtain ⟨-, rfl, hc⟩ := program_wait hm
  have hk := hs.2.always t
  rw [h] at hk
  refine ⟨?_, hk.pending nofun nofun⟩
  rcases hc with ⟨rfl, rfl⟩ | ⟨rfl, rfl⟩ <;> rfl

theorem Consistent.finished_round (hs : Consistent bufferSize numItems s) {t : Thread}
    (h : s.threads t = .running .finished) : s.shared.round t = numItems := by
  have hk := hs.2.always t
  rw [h] at hk
  exact hk.done rfl

theorem Consistent.asleep_waits (hs : Consistent bufferSize numItems s)
    (hw : Attended waiter (fun c => Waits bufferSize (waiter c)) Owes s) (hfree : s.owner = none)
    {t : Thread} {c : Cond} {l : Pc} (h : s.threads t = .asleep c l) :
    Waits bufferSize t s.shared := by
  obtain ⟨rfl, -⟩ := hs.asleep_at h
  exact hw.of_free hfree h

/-- A full buffer and one with nothing to consume exclude each other. -/
theorem Balanced.not_both_wait {x : Shared} (h : Balanced bufferSize x) (hsize : 1 ≤ bufferSize) :
    ¬ (Waits bufferSize .producer x ∧ Waits bufferSize .consumer x) := by
  rintro ⟨hfull, hempty⟩
  have hfull : (bufferSize : Int) ≤ x.bufferIndex := hfull
  have hindex := h.index
  rcases hempty with hempty | hready
  · omega
  · have := h.ready hready
    omega

theorem Consistent.not_all_asleep (hs : Consistent bufferSize numItems s)
    (hw : Attended waiter (fun c => Waits bufferSize (waiter c)) Owes s) (hsize : 1 ≤ bufferSize) :
    ¬ ∀ t, ∃ c l, s.threads t = .asleep c l := by
  intro hall
  have hfree := hs.free_of_idle fun t => Or.inr (hall t)
  obtain ⟨c, l, hp⟩ := hall .producer
  obtain ⟨c', l', hc⟩ := hall .consumer
  exact (hs.2.free hfree).not_both_wait hsize
    ⟨hs.asleep_waits hw hfree hp, hs.asleep_waits hw hfree hc⟩

theorem Consistent.none_left_asleep (hs : Consistent bufferSize numItems s)
    (hw : Attended waiter (fun c => Waits bufferSize (waiter c)) Owes s) {t u : Thread} {c : Cond}
    {l : Pc} (ht : s.threads t = .running .finished) : s.threads u ≠ .asleep c l := by
  intro hu
  have hround := hs.finished_round ht
  have hlt := (hs.asleep_at hu).2
  have hut : u ≠ t := by
    rintro rfl
    cases ht.symm.trans hu
  have hfree : s.owner = none := by
    refine hs.free_of_idle fun v => ?_
    by_cases hv : v = t
    · exact Or.inl (hv ▸ ht)
    · have hvu : v = u := by cases v <;> cases t <;> cases u <;> simp_all
      exact Or.inr ⟨c, l, hvu ▸ hu⟩
  have hbalanced := hs.2.free hfree
  have hindex := hbalanced.index
  have hwait := hs.asleep_waits hw hfree hu
  cases t <;> cases u <;> try exact hut rfl
  case producer.consumer =>
    rcases hwait with hempty | hready
    · omega
    · have := hbalanced.ready hready
      omega
  case consumer.producer =>
    have := hbalanced.bounds.1
    omega

theorem Consistent.free_goes (hs : Consistent bufferSize numItems s) (hfree : s.owner = none)
    {t : Thread} (hawake : ∀ c l, s.threads t ≠ .asleep c l)
    (hleft : s.threads t ≠ .running .finished) :
    (Monitor.step (program bufferSize numItems) s (.go t none)).isSome := by
  have outside : ∀ {l}, s.threads t = .running l → InMonitor t l → False := by
    intro l hl hm
    have how := (hs.1.holds_iff hl).mpr hm
    rw [hfree] at how
    cases how
  have hd := disciplined bufferSize numItems
  cases hst : s.threads t with
  | woken l => exact lock_goes hfree (Or.inl hst)
  | asleep c l => exact absurd hst (hawake c l)
  | running l =>
    have hk := hs.2.always t
    rw [hst] at hk
    cases hp : program bufferSize numItems t l with
    | lock next => exact lock_goes hfree (Or.inr ⟨hst, next, hp⟩)
    | eval f next => simp [Monitor.step, hst, hp]
    | exit =>
      cases hk.place hp
      exact absurd hst hleft
    | unlock f next => exact (outside hst (hd.unlock hp).1).elim
    | wait c next => exact (outside hst (hd.wait hp).1).elim
    | signal c next =>
      obtain ⟨rfl, -, -⟩ := program_signal hp
      exact (outside hst (by cases t <;> trivial)).elim

/-- With at least one slot the two threads never get stuck. -/
theorem never_stuck (bufferSize numItems : Nat) (hsize : 1 ≤ bufferSize) {s : State}
    {es : List (Event State (Move Thread))}
    (h : Trace (Monitor.step (program bufferSize numItems)) (start bufferSize) es s) :
    ((∃ t, s.shared.round t < numItems ∨ s.threads t ≠ .running .finished) →
      ∃ t w, (Monitor.step (program bufferSize numItems) s (.go t w)).isSome) ∧
    (¬ ∀ t, ∃ c l, s.threads t = .asleep c l) ∧
    ∀ t u c l, s.threads t = .running .finished → s.threads u ≠ .asleep c l := by
  obtain ⟨hs, hw⟩ := run_attended h
  have hawake := hs.not_all_asleep hw hsize
  refine ⟨?_, hawake, fun t u c l ht => hs.none_left_asleep hw ht⟩
  rintro ⟨t, ht⟩
  have hleft : s.threads t ≠ .running .finished := by
    intro hfin
    have := hs.finished_round hfin
    exact ht.elim (by omega) (fun hne => hne hfin)
  cases how : s.owner with
  | some u => exact ⟨u, owner_goes (disciplined bufferSize numItems) hs.1 how⟩
  | none =>
    by_cases hsleep : ∃ c l, s.threads t = .asleep c l
    · obtain ⟨c, l, hsleep⟩ := hsleep
      push Not at hawake
      obtain ⟨u, hu⟩ := hawake
      exact ⟨u, none, hs.free_goes how hu fun hfin => hs.none_left_asleep hw hfin hsleep⟩
    · push Not at hsleep
      exact ⟨t, none, hs.free_goes how hsleep hleft⟩

/-- The consumer comes first. -/
def consumerFirst : List (Move Thread) := List.replicate 4 (.go .consumer none)

/-- The consumer has come first, and sleeps. -/
def waiting : State := last (Monitor.step (program 1 1)) (start 1) consumerFirst

theorem never_stuck_waiting :
    (record (Monitor.step (program 1 1)) (start 1) consumerFirst).length = 4 ∧
    ((∃ t, waiting.shared.round t < 1 ∨ waiting.threads t ≠ .running .finished) →
      ∃ t w, (Monitor.step (program 1 1) waiting (.go t w)).isSome) ∧
    (¬ ∀ t, ∃ c l, waiting.threads t = .asleep c l) ∧
    ∀ t u c l, waiting.threads t = .running .finished → waiting.threads u ≠ .asleep c l :=
  ⟨rfl, never_stuck 1 1 (by decide) (Trace.recorded _ _ _)⟩

end

end LinuxAssignment.ProducerConsumer
