import LinuxAssignment.Linearization
import LinuxAssignment.MonitorTurns
import LinuxAssignment.ProducerConsumerProgress

namespace LinuxAssignment.ProducerConsumer

open ByteMemory Linearization StepSystem Monitor

/-- What the two threads share, seen from outside: a stack of the items, how many were pushed, and
those that were popped. -/
structure Stack where
  items : List Int
  pushed : Nat
  popped : List Int
  deriving DecidableEq

/-- The producer pushes the next item where there is room, and the consumer pops the last one. -/
def Stack.step (bufferSize numItems : Nat) (k : Stack) : Thread → Option Stack
  | .producer =>
    if k.pushed < numItems ∧ k.items.length < bufferSize then
      some { k with items := k.items ++ [(k.pushed : Int) + 1], pushed := k.pushed + 1 }
    else none
  | .consumer =>
    k.items.getLast?.map fun v => { k with items := k.items.dropLast, popped := k.popped ++ [v] }

def Shared.stack (s : Shared) : Stack := ⟨s.pending, s.produced.length, s.consumed⟩

/-- The accesses to `buffer` are the points at which the two take effect. -/
def accesses : Points State (Move Thread) Stack Thread where
  view s := s.shared.stack
  point e :=
    match e.label with
    | .wake _ => none
    | .go t _ =>
      match e.before.threads t with
      | .running l => if Accesses t l then some t else none
      | _ => none

/-- The places from the guard on to the end of a round, as long as the thread does not wait. -/
def Turn (bufferSize : Nat) (t : Thread) (before : Thread → Nat) (l : Pc) (s : Shared) : Prop :=
  InMonitor t l ∧ l ≠ .pause ∧ (l = .guard → ¬ Waits bufferSize t s) ∧ s.round = before

def rank : Pc → Nat
  | .guard => 10
  | .store => 9
  | .index => 8
  | .load => 7
  | .sum => 6
  | .last => 5
  | .ready => 4
  | .signal => 3
  | .unlock => 2
  | .pause => 1
  | _ => 0

/-- The threads in a state that a run has led to. -/
def Kept (bufferSize numItems : Nat) (s : State) : Prop :=
  Consistent bufferSize numItems s ∧
    Attended waiter (fun c => Waits bufferSize (waiter c)) Owes s

section

variable {bufferSize numItems : Nat} {t : Thread} {l : Pc} {s s' : State} {before : Thread → Nat}

theorem Kept.step {a : Move Thread} (hs : Kept bufferSize numItems s)
    (h : Monitor.step (program bufferSize numItems) s a = some s') : Kept bufferSize numItems s' :=
  ⟨hs.1.step h, (signals bufferSize numItems).step (disciplined bufferSize numItems) hs.1.1 hs.1.2 hs.2
    (allowed_any s a) h⟩

theorem start_kept (bufferSize numItems : Nat) : Kept bufferSize numItems (start bufferSize) :=
  ⟨⟨start_locked bufferSize numItems, start_asserted bufferSize numItems⟩, nofun⟩

theorem Balanced.produced_length {s : Shared} (h : Balanced bufferSize s) :
    s.produced.length = s.round .producer := by
  rw [h.produced, List.length_map, List.length_range]

theorem Balanced.pending_length {s : Shared} (h : Balanced bufferSize s) :
    (s.pending.length : Int) = s.bufferIndex := by
  have hsize := h.size
  have hbounds := h.bounds
  rw [← h.stack, List.length_take]
  omega

theorem stack_store {s : Shared} (h : Balanced bufferSize s) (hgo : ¬ Waits bufferSize .producer s)
    (hround : s.round .producer < numItems) :
    Stack.step bufferSize numItems s.stack .producer = some s.store.stack := by
  have hroom : s.bufferIndex < bufferSize := not_le.mp hgo
  have hlength := h.produced_length
  have hpending := h.pending_length
  have hnext : s.nextValue = (s.produced.length : Int) + 1 := by rw [hlength]; rfl
  have hopen : s.produced.length < numItems ∧ s.pending.length < bufferSize := by omega
  simp only [Stack.step, Shared.stack, pending_store h, hnext]
  simp [Shared.store, hopen]

theorem stack_load {s : Shared} (h : Balanced bufferSize { s with bufferIndex := s.bufferIndex + 1 })
    (h0 : 0 ≤ s.bufferIndex) :
    Stack.step bufferSize numItems s.stack .consumer = some s.load.stack := by
  have hpend := h.pending_load h0
  have hload : s.buffer.take s.bufferIndex.toNat = s.load.pending := (h.load h0).stack
  simp only [Stack.step, Shared.stack, hpend, List.getLast?_concat, Option.map_some,
    List.dropLast_concat, hload]
  rfl

/-- Only the two accesses change what is seen. -/
theorem eval_stack {f : Shared → Shared} {next : Shared → Pc}
    (h : program bufferSize numItems t l = .eval f next) (hl : ¬ Accesses t l) (s : Shared) :
    (f s).stack = s.stack := by
  cases t <;> cases l <;> cases h
  case producer.store | consumer.load => exact absurd trivial hl
  all_goals rfl

theorem Kept.acts {w : Option Thread} (hs : Kept bufferSize numItems s)
    (ht : s.threads t = .running l) (hl : Accesses t l)
    (h : Monitor.step (program bufferSize numItems) s (.go t w) = some s') :
    Stack.step bufferSize numItems s.shared.stack t = some s'.shared.stack := by
  obtain ⟨⟨hlocked, hasserted⟩, -⟩ := hs
  have hk := hasserted.always t
  rw [ht] at hk
  have hm : InMonitor t l := by cases t <;> cases l <;> trivial
  obtain ⟨hbalanced, hpassed⟩ := hasserted.inside ht hm
  have hround := hk.pending hm.body.1 hm.body.2
  cases t <;> cases l <;> try exact absurd hl id
  case producer.store =>
    simp only [Monitor.step, ht, program, producer] at h
    cases h
    exact stack_store hbalanced hpassed hround
  case consumer.load =>
    simp only [Monitor.step, ht, program, consumer] at h
    cases h
    exact stack_load hbalanced hpassed

theorem simulates (bufferSize numItems : Nat) :
    accesses.Simulates (Monitor.step (program bufferSize numItems)) (Stack.step bufferSize numItems)
      (Kept bufferSize numItems) where
  keeps hs h := hs.step h
  silent := by
    intro s a s' _ h hp
    cases fires_of_step h with
    | relock | lock | wait | signal | wake => rfl
    | unlock ht hprog how =>
      obtain ⟨-, rfl, -⟩ := program_unlock hprog
      rfl
    | @eval t w l f next ht hprog =>
      have hl : ¬ Accesses t l := by
        intro hl
        simp only [accesses, ht, if_pos hl] at hp
        cases hp
      exact eval_stack hprog hl s.shared
  acts := by
    intro s a s' u hs h hp
    cases a with
    | wake t => cases hp
    | go t w =>
      simp only [accesses] at hp
      split at hp
      next l ht =>
        obtain ⟨hl, hut⟩ := Option.ite_none_right_eq_some.mp hp
        cases hut
        exact hs.acts ht hl h
      next => cases hp

/-- The rounds that the accesses stand for. -/
theorem stack_counts {ts : List Thread} {k m : Stack}
    (h : ts.foldlM (Stack.step bufferSize numItems) k = some m) :
    m.pushed = k.pushed + ts.count .producer ∧
      m.popped.length = k.popped.length + ts.count .consumer := by
  induction ts generalizing k with
  | nil =>
    cases Option.some.inj h
    exact ⟨rfl, rfl⟩
  | cons t ts ih =>
    rw [List.foldlM_cons] at h
    obtain ⟨j, hj, h⟩ := Option.bind_eq_some_iff.mp h
    obtain ⟨hpushed, hpopped⟩ := ih h
    rw [hpushed, hpopped]
    cases t with
    | producer =>
      obtain ⟨-, hj⟩ := Option.ite_none_right_eq_some.mp hj
      cases hj
      simp
      omega
    | consumer =>
      obtain ⟨v, -, rfl⟩ := Option.map_eq_some_iff.mp hj
      simp
      omega

/-- An evaluation inside the monitor goes on in it, nearer to its end. -/
theorem eval_inside {f : Shared → Shared} {next : Shared → Pc}
    (h : program bufferSize numItems t l = .eval f next) (hm : InMonitor t l) (s : Shared) :
    InMonitor t (next s) ∧ next s ≠ .guard ∧ rank (next s) < rank l ∧ (f s).round = s.round ∧
      (next s = .pause → l = .guard ∧ Waits bufferSize t s) := by
  by_cases hl : l = .guard
  · subst hl
    have hguard : program bufferSize numItems t .guard = .eval id fun s =>
        if Waits bufferSize t s then .pause else entry t := by cases t <;> rfl
    cases hguard.symm.trans h
    dsimp only
    split
    next hwait => exact ⟨by cases t <;> trivial, by decide, by decide, rfl, fun _ => ⟨rfl, hwait⟩⟩
    next => cases t <;> exact ⟨trivial, by decide, by decide, rfl, nofun⟩
  · cases t <;> cases l <;> cases h <;> first | exact absurd hm id | exact absurd rfl hl | skip
    all_goals
      refine ⟨trivial, nofun, ?_, rfl, nofun⟩
      dsimp only [rank]
      omega

theorem release_section (bufferSize numItems : Nat) (t : Thread) :
    Section (program bufferSize numItems) (fun _ _ _ => True) t rank (fun l _ => InMonitor t l)
      (fun _ => True) where
  allowed _ := trivial
  eval := by
    intro l f next s h hm
    obtain ⟨hnext, -, hlt, -⟩ := eval_inside h hm s
    exact ⟨hnext, hlt⟩
  signal := by
    intro l c next s h hm
    obtain ⟨rfl, rfl, -⟩ := program_signal h
    exact ⟨by cases t <;> trivial, by decide⟩
  unlock _ _ := trivial
  wait _ _ := trivial
  lock h := ((disciplined bufferSize numItems).lock h).1
  exit h := (disciplined bufferSize numItems).exit h

theorem turn_section (bufferSize numItems : Nat) (t : Thread) (before : Thread → Nat) :
    Section (program bufferSize numItems) (fun _ _ _ => True) t rank (Turn bufferSize t before)
      (fun s => s.round = Function.update before t (before t + 1)) where
  allowed _ := trivial
  eval := by
    intro l f next s h hB
    obtain ⟨hm, -, hopen, hround⟩ := hB
    obtain ⟨hnext, hguard, hlt, hsame, hpause⟩ := eval_inside h hm s
    refine ⟨⟨hnext, fun hp => ?_, fun hg => absurd hg hguard, hsame.trans hround⟩, hlt⟩
    obtain ⟨hl, hwait⟩ := hpause hp
    exact hopen hl hwait
  signal := by
    intro l c next s h hB
    obtain ⟨rfl, rfl, -⟩ := program_signal h
    exact ⟨⟨by cases t <;> trivial, by decide, nofun, hB.2.2.2⟩, by decide⟩
  unlock := by
    intro l f next s h hB
    obtain ⟨-, rfl, -⟩ := program_unlock h
    obtain ⟨-, -, -, rfl⟩ := hB
    rfl
  wait := by
    intro l c next s h hB
    obtain ⟨rfl, -⟩ := program_wait h
    exact absurd rfl hB.2.1
  lock h hB := ((disciplined bufferSize numItems).lock h).1 hB.1
  exit h hB := (disciplined bufferSize numItems).exit h hB.1

theorem loops (bufferSize numItems : Nat) :
    Loops (program bufferSize numItems) InMonitor (fun t s => s.round t) numItems .test .lock .guard
      .finished where
  loop t := by cases t <;> rfl
  enter t := by cases t <;> rfl
  outside := by
    intro t l hout
    cases t <;> cases l <;>
      first
        | exact absurd trivial hout
        | exact Or.inl rfl
        | exact Or.inr (Or.inl rfl)
        | exact Or.inr (Or.inr rfl)
  waits h := (program_wait h).2.1
  guard := by decide

abbrev Reaches (bufferSize numItems : Nat) (s s' : State) : Prop :=
  Relation.ReflTransGen (Goes (program bufferSize numItems) fun _ _ _ => True) s s'

theorem Kept.reaches (hs : Kept bufferSize numItems s) (h : Reaches bufferSize numItems s s') :
    Kept bufferSize numItems s' :=
  Goes.keeps (fun _ _ _ hs _ ht => hs.step ht) h hs

/-- A thread that has no reason to wait can take its turn at a free mutex. -/
theorem Kept.turn (hs : Kept bufferSize numItems s) (hfree : s.owner = none)
    (hround : s.shared.round t < numItems) (hgo : ¬ Waits bufferSize t s.shared) :
    ∃ s', Reaches bufferSize numItems s s' ∧ s'.owner = none ∧
      s'.shared.round = Function.update s.shared.round t (s.shared.round t + 1) := by
  have hawake : ∀ c l, s.threads t ≠ .asleep c l :=
    fun c l ht => hgo (hs.1.asleep_waits hs.2 hfree ht)
  exact (loops bufferSize numItems).turn hs.1.1 hfree hawake (hs.1.2.always t) hround
    (fun _ _ => trivial) (by cases t <;> exact ⟨id, id⟩) (turn_section bufferSize numItems t _)
    ⟨by cases t <;> trivial, by decide, fun _ => hgo, rfl⟩

theorem Kept.released (hs : Kept bufferSize numItems s) :
    ∃ s', Reaches bufferSize numItems s s' ∧ s'.owner = none := by
  cases how : s.owner with
  | none => exact ⟨s, .refl, how⟩
  | some t =>
    obtain ⟨l, ht, hm⟩ := (hs.1.1.owner t).mp how
    obtain ⟨s', hrun, hfree, -⟩ := (release_section bufferSize numItems t).released how ht hm
    exact ⟨s', hrun, hfree⟩

theorem Kept.round_le (hs : Kept bufferSize numItems s) (t : Thread) : s.shared.round t ≤ numItems :=
  (hs.1.2.always t).count_le

/-- As long as a round is left, one of the two has one and no reason to wait. -/
theorem Kept.due (hs : Kept bufferSize numItems s) (hfree : s.owner = none) (hsize : 1 ≤ bufferSize)
    (hleft : s.shared.round .producer < numItems ∨ s.shared.round .consumer < numItems) :
    ∃ t, s.shared.round t < numItems ∧ ¬ Waits bufferSize t s.shared := by
  have hbalanced := hs.1.2.free hfree
  have hindex := hbalanced.index
  have hpositive : 0 < s.shared.bufferIndex → ¬ Waits bufferSize .consumer s.shared := by
    rintro hpos (hempty | hready)
    · omega
    · have := hbalanced.ready hready
      omega
  have hle := hs.round_le .producer
  by_cases hroom : Waits bufferSize .producer s.shared ∨ s.shared.round .producer = numItems
  · have hpos : 0 < s.shared.bufferIndex := by
      rcases hroom with hfull | hdone
      · have hfull : (bufferSize : Int) ≤ s.shared.bufferIndex := hfull
        omega
      · omega
    exact ⟨.consumer, by omega, hpositive hpos⟩
  · push Not at hroom
    exact ⟨.producer, by omega, hroom.1⟩

theorem Kept.all_rounds (hs : Kept bufferSize numItems s) (hfree : s.owner = none)
    (hsize : 1 ≤ bufferSize) :
    ∃ s', Reaches bufferSize numItems s s' ∧ ∀ t, s'.shared.round t = numItems := by
  induction hn : (numItems - s.shared.round .producer) + (numItems - s.shared.round .consumer)
    using Nat.strong_induction_on generalizing s with
  | _ n ih =>
  have hp := hs.round_le .producer
  have hc := hs.round_le .consumer
  by_cases hleft : s.shared.round .producer < numItems ∨ s.shared.round .consumer < numItems
  · obtain ⟨t, hround, hgo⟩ := hs.due hfree hsize hleft
    obtain ⟨s1, hrun, hfree1, hcount⟩ := hs.turn hfree hround hgo
    obtain ⟨s2, hrun2, hs2⟩ := ih _
      (by rw [hcount]; cases t <;> simp [Function.update] <;> omega) (hs.reaches hrun) hfree1 rfl
    exact ⟨s2, hrun.trans hrun2, hs2⟩
  · push Not at hleft
    refine ⟨s, .refl, fun t => ?_⟩
    cases t <;> omega

theorem Kept.finishes (hs : Kept bufferSize numItems s) (hround : s.shared.round t = numItems) :
    ∃ s', Reaches bufferSize numItems s s' ∧ Kept bufferSize numItems s' ∧
      s'.shared = s.shared ∧ s'.threads t = .running .finished ∧
      ∀ u, u ≠ t → s'.threads u = s.threads u := by
  obtain ⟨s', hrun, -, hshared, hthreads⟩ := (loops bufferSize numItems).finishes
    (fun _ _ _ => True) hs.1.1 (hs.1.2.always t) hround.ge trivial
  exact ⟨s', hrun, hs.reaches hrun, hshared, hthreads⟩

theorem run_kept {es : List (Event State (Move Thread))}
    (h : Trace (Monitor.step (program bufferSize numItems)) (start bufferSize) es s) :
    Kept bufferSize numItems s := run_attended h

/-- With at least one slot the program can end from every state it gets into. -/
theorem can_always_finish (bufferSize numItems : Nat) (hsize : 1 ≤ bufferSize) {s : State}
    {es : List (Event State (Move Thread))}
    (h : Trace (Monitor.step (program bufferSize numItems)) (start bufferSize) es s) :
    ∃ es' s', Trace (Monitor.step (program bufferSize numItems)) s es' s' ∧
      ∀ t, s'.threads t = .running .finished := by
  have hs := run_kept h
  obtain ⟨s1, hrun1, hfree⟩ := hs.released
  have hs1 := hs.reaches hrun1
  obtain ⟨s2, hrun2, hround⟩ := hs1.all_rounds hfree hsize
  obtain ⟨s3, hrun3, hs3, hshared, hfin3, -⟩ := (hs1.reaches hrun2).finishes (hround .producer)
  obtain ⟨s4, hrun4, -, -, hfin4, hother⟩ := hs3.finishes (hshared ▸ hround .consumer)
  obtain ⟨es', h'⟩ := Trace.of_steps
    (Goes.steps (hrun1.trans (hrun2.trans (hrun3.trans hrun4))))
  refine ⟨es', s4, h', fun t => ?_⟩
  cases t with
  | producer => exact (hother _ (by decide)).trans hfin3
  | consumer => exact hfin4

/-- At a free mutex the rounds completed are the accesses made. -/
theorem Balanced.consumed_length {s : Shared} (h : Balanced bufferSize s) :
    s.consumed.length = s.round .consumer := by
  have hperm := h.exchanged.length_eq
  have hlength := h.produced_length
  have hpending := h.pending_length
  have hindex := h.index
  rw [List.length_append] at hperm
  omega

theorem Kept.open_of_step (hs : Kept bufferSize numItems s) (hfree : s.owner = none) {k : Stack}
    (h : Stack.step bufferSize numItems s.shared.stack t = some k) :
    s.shared.round t < numItems ∧ ¬ Waits bufferSize t s.shared := by
  have hbalanced := hs.1.2.free hfree
  have hlength := hbalanced.produced_length
  have hpending := hbalanced.pending_length
  have hindex := hbalanced.index
  cases t with
  | producer =>
    obtain ⟨⟨hround, hroom⟩, -⟩ := Option.ite_none_right_eq_some.mp h
    have hround : s.shared.produced.length < numItems := hround
    have hroom : s.shared.pending.length < bufferSize := hroom
    refine ⟨by omega, ?_⟩
    simp only [Waits]
    omega
  | consumer =>
    obtain ⟨v, hv, -⟩ := Option.map_eq_some_iff.mp h
    have hpos : 0 < s.shared.pending.length := by
      have hmem := List.mem_of_getLast? hv
      exact List.length_pos_of_mem hmem
    have hle := hs.round_le .producer
    refine ⟨by omega, ?_⟩
    rintro (hempty | hready)
    · omega
    · have := hbalanced.ready hready
      omega

/-- A turn has one access. -/
theorem Kept.brings_about (hs : Kept bufferSize numItems s) (hfree : s.owner = none) {k : Stack}
    (h : Stack.step bufferSize numItems s.shared.stack t = some k) :
    ∃ es s', Trace (Monitor.step (program bufferSize numItems)) s es s' ∧
      (Kept bufferSize numItems s' ∧ s'.owner = none) ∧ accesses.effects es = [t] := by
  obtain ⟨hround, hgo⟩ := hs.open_of_step hfree h
  obtain ⟨s', hrun, hfree', hcount⟩ := hs.turn hfree hround hgo
  obtain ⟨es, h'⟩ := Trace.of_steps (Goes.steps hrun)
  obtain ⟨hs', hfold⟩ := (simulates bufferSize numItems).run h' hs
  refine ⟨es, s', h', ⟨hs', hfree'⟩, ?_⟩
  obtain ⟨hpushed, hpopped⟩ := stack_counts hfold
  have hbalanced := hs.1.2.free hfree
  have hbalanced' := hs'.1.2.free hfree'
  have hp : s'.shared.produced.length = s.shared.produced.length +
    (accesses.effects es).count .producer := hpushed
  have hc : s'.shared.consumed.length = s.shared.consumed.length +
    (accesses.effects es).count .consumer := hpopped
  rw [hbalanced.produced_length, hbalanced'.produced_length, hcount] at hp
  rw [hbalanced.consumed_length, hbalanced'.consumed_length, hcount] at hc
  have hone : ∀ u, (accesses.effects es).count u = if u = t then 1 else 0 := by
    intro u
    cases t <;> cases u <;> simp [Function.update] at hp hc ⊢ <;> omega
  refine List.perm_singleton.mp (List.perm_iff_count.mpr fun u => ?_)
  rw [hone u, List.count_singleton]
  cases t <;> cases u <;> rfl

/-- Over all interleavings the accesses to `buffer` and the values taken are exactly those of a
stack with `bufferSize` places onto which `numItems` items are pushed. -/
theorem accesses_iff (bufferSize numItems : Nat) (ts : List Thread) (k : Stack) :
    (∃ es s, Trace (Monitor.step (program bufferSize numItems)) (start bufferSize) es s ∧
      accesses.effects es = ts ∧ s.shared.stack = k) ↔
      ts.foldlM (Stack.step bufferSize numItems) ⟨[], 0, []⟩ = some k := by
  have hrest : ∀ s : State, Kept bufferSize numItems s ∧ s.owner = none →
      Kept bufferSize numItems s := fun s hs => hs.1
  exact (simulates bufferSize numItems).effects_iff hrest
    (fun s t k hs hk => hs.1.brings_about hs.2 hk) ⟨start_kept bufferSize numItems, rfl⟩ k

end

/-- The consumer has come first, and sleeps. -/
theorem waiting_can_finish :
    (record (Monitor.step (program 1 1)) (start 1) consumerFirst).length = 4 ∧
    ∃ es s, Trace (Monitor.step (program 1 1)) waiting es s ∧ ∀ t, s.threads t = .running .finished :=
  ⟨rfl, can_always_finish 1 1 (by decide) (Trace.recorded _ _ _)⟩

end LinuxAssignment.ProducerConsumer
