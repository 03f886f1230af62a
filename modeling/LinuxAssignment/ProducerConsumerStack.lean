import LinuxAssignment.ProducerConsumer
import Mathlib.Algebra.BigOperators.Group.List.Basic

namespace LinuxAssignment.ProducerConsumer

open ByteMemory StepSystem Monitor

/-- The data that a place inside the monitor stands for: a round whose item was stored or loaded is
taken as finished, one whose item was not yet loaded as not begun. -/
def settled : Thread → Pc → Shared → Shared
  | .producer, .index, s => Shared.count .producer
      { s with
        bufferIndex := s.bufferIndex + 1
        producerSum := int32 (s.producerSum + s.nextValue)
        lastValue := s.nextValue
        dataReady := 1 }
  | .producer, .sum, s => Shared.count .producer
      { s with
        producerSum := int32 (s.producerSum + s.nextValue)
        lastValue := s.nextValue
        dataReady := 1 }
  | .producer, .last, s =>
    Shared.count .producer { s with lastValue := s.nextValue, dataReady := 1 }
  | .producer, .ready, s => Shared.count .producer { s with dataReady := 1 }
  | .consumer, .load, s => { s with bufferIndex := s.bufferIndex + 1 }
  | .consumer, .sum, s => Shared.count .consumer
      { s with consumerSum := int32 (s.consumerSum + s.value), lastValue := s.value }
  | .consumer, .last, s => Shared.count .consumer { s with lastValue := s.value }
  | t, .signal, s | t, .unlock, s => Shared.count t s
  | _, _, s => s

/-- The produced values not yet consumed, in the order of production. -/
def Shared.pending (s : Shared) : List Int := s.produced.filter fun v => v ∉ s.consumed

/-- The buffer holds the pending values, and the sums count what went in and out. -/
structure Balanced (bufferSize : Nat) (s : Shared) : Prop where
  size : s.buffer.length = bufferSize
  index : s.bufferIndex = (s.round .producer : Int) - s.round .consumer
  bounds : 0 ≤ s.bufferIndex ∧ s.bufferIndex ≤ bufferSize
  stack : s.buffer.take s.bufferIndex.toNat = s.pending
  produced : s.produced = (List.range (s.round .producer)).map fun i : Nat => (i : Int) + 1
  exchanged : s.produced.Perm (s.consumed ++ s.pending)
  producerSum : s.producerSum = int32 s.produced.sum
  consumerSum : s.consumerSum = int32 s.consumed.sum
  ready : s.dataReady = 0 → s.round .producer = 0

def Passed (bufferSize : Nat) : Thread → Pc → Shared → Prop
  | t, .pause, s => Waits bufferSize t s
  | .producer, .store, s => ¬ Waits bufferSize .producer s
  | .consumer, .index, s => ¬ Waits bufferSize .consumer s
  | .consumer, .load, s => 0 ≤ s.bufferIndex
  | _, _, _ => True

/-- The assertions inside the monitor. -/
def Inside (bufferSize : Nat) (t : Thread) (l : Pc) (s : Shared) : Prop :=
  Balanced bufferSize (settled t l s) ∧ Passed bufferSize t l s

section

variable {bufferSize : Nat} {s : Shared}

theorem Balanced.mem_produced (h : Balanced bufferSize s) {v : Int} (hv : v ∈ s.produced) :
    v ≤ s.round .producer := by
  rw [h.produced] at hv
  obtain ⟨i, hi, rfl⟩ := List.mem_map.mp hv
  have := List.mem_range.mp hi
  omega

theorem Balanced.mem_consumed (h : Balanced bufferSize s) {v : Int} (hv : v ∈ s.consumed) :
    v ≤ s.round .producer :=
  h.mem_produced (h.exchanged.mem_iff.mpr (List.mem_append_left _ hv))

theorem Balanced.nodup (h : Balanced bufferSize s) : s.produced.Nodup := by
  rw [h.produced]
  refine List.Nodup.map (fun i j hij => ?_) List.nodup_range
  omega

theorem nextValue_not_mem (h : Balanced bufferSize s) : s.nextValue ∉ s.consumed := by
  intro hv
  have := h.mem_consumed hv
  simp only [Shared.nextValue] at this
  omega

theorem pending_store (h : Balanced bufferSize s) :
    s.store.pending = s.pending ++ [s.nextValue] := by
  have hv := nextValue_not_mem h
  have hone : [s.nextValue].filter (fun v => v ∉ s.consumed) = [s.nextValue] := by simp [hv]
  exact (List.filter_append _ _).trans (congrArg _ hone)

/-- What `settled` makes of a stored item. -/
theorem Balanced.store (h : Balanced bufferSize s) (hgo : ¬ Waits bufferSize .producer s) :
    Balanced bufferSize (settled .producer .index s.store) := by
  have hroom : s.bufferIndex < bufferSize := not_le.mp hgo
  obtain ⟨h0, -⟩ := h.bounds
  have hsize := h.size
  have hpend := pending_store h
  constructor
  · simp [settled, Shared.count, Shared.store, hsize]
  · have := h.index
    simp only [settled, Shared.count, Shared.store, Function.update_self]
    rw [Function.update_of_ne (by decide)]
    omega
  · simp only [settled, Shared.count, Shared.store]
    omega
  · have hlen : s.bufferIndex.toNat < s.buffer.length := by omega
    have hnat : (s.bufferIndex + 1).toNat = s.bufferIndex.toNat + 1 := by omega
    calc (s.buffer.set s.bufferIndex.toNat s.nextValue).take (s.bufferIndex + 1).toNat
      _ = s.buffer.take s.bufferIndex.toNat ++ [s.nextValue] := by
        rw [hnat, List.take_add_one, List.take_set_of_le (Nat.le_refl _)]
        simp [hlen]
      _ = s.store.pending := by rw [hpend, h.stack]
  · simp [settled, Shared.count, Shared.store, List.range_succ, h.produced, Shared.nextValue]
  · have hperm : (s.produced ++ [s.nextValue]).Perm (s.consumed ++ s.store.pending) := by
      rw [hpend, ← List.append_assoc]
      exact h.exchanged.append_right _
    exact hperm
  · simp only [settled, Shared.count, Shared.store, h.producerSum, Shared.nextValue, int32_add,
      List.sum_append, List.sum_singleton]
  · exact h.consumerSum
  · simp [settled, Shared.count]

theorem Balanced.pending_load (h : Balanced bufferSize { s with bufferIndex := s.bufferIndex + 1 })
    (h0 : 0 ≤ s.bufferIndex) :
    s.pending = s.buffer.take s.bufferIndex.toNat ++ [s.buffer.getD s.bufferIndex.toNat 0] := by
  have hnat : (s.bufferIndex + 1).toNat = s.bufferIndex.toNat + 1 := by omega
  have hsize := h.size
  have hbounds := h.bounds.2
  dsimp only at hsize hbounds
  have hlen : s.bufferIndex.toNat < s.buffer.length := by omega
  calc s.pending
    _ = s.buffer.take (s.bufferIndex + 1).toNat := h.stack.symm
    _ = _ := by
      rw [hnat, List.take_add_one]
      simp [hlen]

/-- What `settled` makes of a loaded item. -/
theorem Balanced.load (h : Balanced bufferSize { s with bufferIndex := s.bufferIndex + 1 })
    (h0 : 0 ≤ s.bufferIndex) : Balanced bufferSize (settled .consumer .sum s.load) := by
  have hpend := h.pending_load h0
  have hnodup : s.pending.Nodup := h.nodup.filter _
  have hindex := h.index
  have hbounds := h.bounds.2
  have hsum := h.consumerSum
  have hperm : s.produced.Perm (s.consumed ++ s.pending) := h.exchanged
  dsimp only at hindex hbounds hsum
  generalize hv : s.buffer.getD s.bufferIndex.toNat 0 = v at hpend
  rw [hpend] at hnodup hperm
  have hload : s.load.pending = s.buffer.take s.bufferIndex.toNat := by
    have hfilter : s.load.pending = s.pending.filter (fun w => w ≠ v) := by
      simp only [Shared.pending, Shared.load, List.filter_filter, hv]
      congr 1
      funext w
      simp [and_comm]
    have hkeep : (s.buffer.take s.bufferIndex.toNat).filter (fun w => w ≠ v) =
        s.buffer.take s.bufferIndex.toNat := by
      refine List.filter_eq_self.mpr fun w hw => decide_eq_true ?_
      rintro rfl
      exact (List.nodup_append.mp hnodup).2.2 w hw w (by simp) rfl
    rw [hfilter, hpend, List.filter_append, hkeep]
    simp
  constructor
  · exact h.size
  · simp only [settled, Shared.count, Shared.load, Function.update_self]
    rw [Function.update_of_ne (by decide)]
    omega
  · simp only [settled, Shared.count, Shared.load]
    omega
  · exact hload.symm
  · exact h.produced
  · have hmove : (s.consumed ++ [v] ++ s.buffer.take s.bufferIndex.toNat).Perm
        (s.consumed ++ (s.buffer.take s.bufferIndex.toNat ++ [v])) := by
      rw [List.append_assoc]
      exact List.perm_append_comm.append_left _
    have hnew : s.produced.Perm (s.consumed ++ [v] ++ s.load.pending) :=
      hload ▸ hperm.trans hmove.symm
    rw [← hv] at hnew
    exact hnew
  · exact h.producerSum
  · simp only [settled, Shared.count, Shared.load, hsum, int32_add, List.sum_append,
      List.sum_singleton]
  · exact h.ready

theorem Inside.eval {numItems : Nat} {t : Thread} {l : Pc} {f : Shared → Shared}
    {next : Shared → Pc} (h : program bufferSize numItems t l = .eval f next) (hm : InMonitor t l)
    (hs : Inside bufferSize t l s) : Inside bufferSize t (next s) (f s) := by
  cases t <;> cases l <;> cases h
  case producer.test | consumer.test => exact absurd rfl hm.body.1
  case producer.guard | consumer.guard =>
    dsimp only
    split
    next hwait => exact ⟨hs.1, hwait⟩
    next hgo => exact ⟨hs.1, hgo⟩
  case producer.store => exact ⟨hs.1.store hs.2, trivial⟩
  case consumer.load => exact ⟨hs.1.load hs.2, trivial⟩
  case consumer.index =>
    have hindex : 0 < s.bufferIndex := not_le.mp fun hle => hs.2 (Or.inl hle)
    refine ⟨?_, Int.sub_nonneg_of_le hindex⟩
    have hsame : settled .consumer .load { s with bufferIndex := s.bufferIndex - 1 } = s := by
      simp [settled]
    exact hsame.symm ▸ hs.1
  all_goals exact ⟨hs.1, trivial⟩

theorem outline (bufferSize numItems : Nat) :
    Outline (program bufferSize numItems) InMonitor (fun _ _ _ => True) (Balanced bufferSize)
      (Inside bufferSize)
      (InRounds (program bufferSize numItems) (fun t s => s.round t) numItems .test .finished) where
  lock := by
    intro t l next s h hI _
    obtain ⟨-, rfl⟩ := program_lock h
    cases t <;> exact ⟨hI, trivial⟩
  resume := by
    intro t l c next s h hI _
    obtain ⟨-, rfl, -⟩ := program_wait h
    cases t <;> exact ⟨hI, trivial⟩
  wait := by
    intro t l c next s h hA
    obtain ⟨rfl, -⟩ := program_wait h
    cases t <;> exact hA.1
  unlock := by
    intro t l f next s h hA _
    obtain ⟨rfl, rfl, -⟩ := program_unlock h
    cases t <;> exact hA.1
  signal := by
    intro t l c next s h _ hA
    obtain ⟨rfl, rfl, -⟩ := program_signal h
    cases t <;> exact ⟨hA.1, trivial⟩
  eval h hm hA _ _ := hA.eval h hm
  own h _ hk := (rounds bufferSize numItems).own h hk
  other hu h hk := (rounds bufferSize numItems).keeps hu h hk

theorem start_balanced (bufferSize : Nat) : Balanced bufferSize (start bufferSize).shared := by
  constructor <;> simp [start, Shared.pending, int32]

theorem start_locked (bufferSize numItems : Nat) :
    Locked (program bufferSize numItems) InMonitor (start bufferSize) where
  owner t := by
    refine ⟨nofun, ?_⟩
    rintro ⟨l, hl, hm⟩
    cases hl
    exact absurd rfl hm.body.1
  asleep h := by cases h
  woken h := by cases h

theorem start_asserted (bufferSize numItems : Nat) :
    Asserted InMonitor (Balanced bufferSize) (Inside bufferSize)
      (InRounds (program bufferSize numItems) (fun t s => s.round t) numItems .test .finished)
      (start bufferSize) where
  always t := ⟨Nat.zero_le _, fun hn => absurd rfl hn, nofun, by cases t <;> nofun⟩
  free _ := start_balanced bufferSize
  inside h hm := by
    cases h
    exact absurd rfl hm.body.1

/-- What holds of every state of a run. -/
def Consistent (bufferSize numItems : Nat) (s : State) : Prop :=
  Locked (program bufferSize numItems) InMonitor s ∧
    Asserted InMonitor (Balanced bufferSize) (Inside bufferSize)
      (InRounds (program bufferSize numItems) (fun t s => s.round t) numItems .test .finished) s

theorem Consistent.step {numItems : Nat} {s s' : State} {a : Move Thread}
    (hs : Consistent bufferSize numItems s)
    (h : Monitor.step (program bufferSize numItems) s a = some s') :
    Consistent bufferSize numItems s' := by
  have hd := disciplined bufferSize numItems
  exact ⟨hs.1.step hd h, (outline bufferSize numItems).step hd hs.1 hs.2 (allowed_any s a) h⟩

/-- The places of the two accesses to `buffer`. -/
def Accesses : Thread → Pc → Prop
  | .producer, .store | .consumer, .load => True
  | _, _ => False

instance : (t : Thread) → (l : Pc) → Decidable (Accesses t l)
  | .producer, l => decidable_of_iff (l = .store) (by cases l <;> simp [Accesses])
  | .consumer, l => decidable_of_iff (l = .load) (by cases l <;> simp [Accesses])

theorem consistent_run {numItems : Nat} {s : State} {es : List (Event State (Move Thread))}
    (h : Trace (Monitor.step (program bufferSize numItems)) (start bufferSize) es s) :
    Consistent bufferSize numItems s := by
  have keep : ∀ (s : State) (a : Move Thread) (s' : State), Consistent bufferSize numItems s →
      True → Monitor.step (program bufferSize numItems) s a = some s' →
      Consistent bufferSize numItems s' := fun _ _ _ hs _ hstep => hs.step hstep
  exact h.invariant keep ⟨start_locked bufferSize numItems, start_asserted bufferSize numItems⟩
    (fun _ _ => trivial)

theorem Balanced.sums (h : Balanced bufferSize s) :
    s.producerSum = int32 (s.consumerSum + (s.buffer.take s.bufferIndex.toNat).sum) := by
  rw [h.producerSum, h.consumerSum, int32_add, h.stack, h.exchanged.sum_eq, List.sum_append]

theorem Inside.access {t : Thread} {l : Pc} (hs : Inside bufferSize t l s) (hl : Accesses t l) :
    0 ≤ s.bufferIndex ∧ s.bufferIndex < s.buffer.length := by
  have hsize := hs.1.size
  have hbounds := hs.1.bounds
  cases t <;> cases l <;> try exact absurd hl id
  case producer.store =>
    have hroom : s.bufferIndex < bufferSize := not_le.mp hs.2
    exact ⟨hbounds.1, hsize ▸ hroom⟩
  case consumer.load =>
    dsimp only [settled] at hsize hbounds
    exact ⟨hs.2, by omega⟩

/-- A step leaves the consumed values alone, or takes the last of the pending ones. -/
theorem Inside.takes_last {numItems : Nat} {t : Thread} {l : Pc} {f : Shared → Shared}
    {next : Shared → Pc} (h : program bufferSize numItems t l = .eval f next)
    (hs : InMonitor t l → Inside bufferSize t l s) :
    (f s).consumed = s.consumed ∨
      ∃ v, s.pending.getLast? = some v ∧ (f s).consumed = s.consumed ++ [v] := by
  cases t <;> cases l <;> cases h
  case consumer.load =>
    obtain ⟨hbalanced, h0⟩ := hs trivial
    have hpend := Balanced.pending_load hbalanced h0
    exact Or.inr ⟨_, by rw [hpend, List.getLast?_concat], rfl⟩
  all_goals exact Or.inl rfl

theorem Consistent.takes_last {numItems : Nat} {s s' : State} {a : Move Thread}
    (hs : Consistent bufferSize numItems s)
    (h : Monitor.step (program bufferSize numItems) s a = some s') :
    s'.shared.consumed = s.shared.consumed ∨ ∃ v, s.shared.pending.getLast? = some v ∧
      s'.shared.consumed = s.shared.consumed ++ [v] := by
  cases fires_of_step h with
  | relock | lock | wait | signal | wake => exact Or.inl rfl
  | unlock ht hp how =>
    obtain ⟨-, rfl, -⟩ := program_unlock hp
    exact Or.inl rfl
  | eval ht hp => exact Inside.takes_last hp (hs.2.inside ht)

theorem Balanced.all_consumed (h : Balanced bufferSize s) {numItems : Nat}
    (hround : ∀ t, s.round t = numItems) :
    (∀ v : Int, s.consumed.count v = if 1 ≤ v ∧ v ≤ numItems then 1 else 0) ∧
      s.producerSum = s.consumerSum := by
  have hindex : s.bufferIndex = 0 := by
    have := h.index
    simp only [hround] at this
    omega
  have hpend : s.pending = [] := by simp [← h.stack, hindex]
  have hperm : s.produced.Perm s.consumed := by simpa [hpend] using h.exchanged
  refine ⟨fun v => ?_, by rw [h.producerSum, h.consumerSum, hperm.sum_eq]⟩
  rw [← hperm.count_eq, h.nodup.count]
  congr 1
  rw [h.produced, hround, List.mem_map, eq_iff_iff]
  constructor
  · rintro ⟨i, hi, rfl⟩
    have := List.mem_range.mp hi
    omega
  · rintro ⟨h1, h2⟩
    exact ⟨(v - 1).toNat, List.mem_range.mpr (by omega), by omega⟩

theorem Consistent.finished {numItems : Nat} {s : State} (hs : Consistent bufferSize numItems s)
    (hfin : ∀ t, s.threads t = .running .finished) :
    Balanced bufferSize s.shared ∧ ∀ t, s.shared.round t = numItems := by
  have hfree : s.owner = none := by
    cases how : s.owner with
    | none => rfl
    | some t =>
      obtain ⟨l, hl, hm⟩ := (hs.1.owner t).mp how
      cases (hfin t).symm.trans hl
      exact absurd rfl hm.body.2
  refine ⟨hs.2.free hfree, fun t => ?_⟩
  have hk := hs.2.always t
  rw [hfin t] at hk
  exact hk.done rfl

/-- In every interleaving the buffer is the stack of the pending values, no access leaves it, the
consumer takes the youngest pending value, and in the end each value has been taken once. -/
theorem buffer_stack (bufferSize numItems : Nat) {s : State}
    {es : List (Event State (Move Thread))}
    (h : Trace (Monitor.step (program bufferSize numItems)) (start bufferSize) es s) :
    (s.owner = none → 0 ≤ s.shared.bufferIndex ∧ s.shared.bufferIndex ≤ bufferSize ∧
      s.shared.buffer.take s.shared.bufferIndex.toNat = s.shared.pending ∧
      s.shared.producerSum = int32 (s.shared.consumerSum +
        (s.shared.buffer.take s.shared.bufferIndex.toNat).sum)) ∧
    (∀ t l, s.threads t = .running l → Accesses t l →
      0 ≤ s.shared.bufferIndex ∧ s.shared.bufferIndex < s.shared.buffer.length) ∧
    (∀ e ∈ es, e.after.shared.consumed = e.before.shared.consumed ∨
      ∃ v, e.before.shared.pending.getLast? = some v ∧
        e.after.shared.consumed = e.before.shared.consumed ++ [v]) ∧
    ((∀ t, s.threads t = .running .finished) →
      (∀ v : Int, s.shared.consumed.count v = if 1 ≤ v ∧ v ≤ numItems then 1 else 0) ∧
      s.shared.producerSum = s.shared.consumerSum) := by
  have hs := consistent_run h
  refine ⟨fun hfree => ?_, fun t l hl haccess => ?_, fun e he => ?_, fun hfin => ?_⟩
  · have hbalanced := hs.2.free hfree
    exact ⟨hbalanced.bounds.1, hbalanced.bounds.2, hbalanced.stack, hbalanced.sums⟩
  · have hm : InMonitor t l := by
      cases t <;> cases l <;> trivial
    exact (hs.2.inside hl hm).access haccess
  · have keep : ∀ (s : State) (a : Move Thread) (s' : State), Consistent bufferSize numItems s →
        True → Monitor.step (program bufferSize numItems) s a = some s' →
        Consistent bufferSize numItems s' := fun _ _ _ hs _ hstep => hs.step hstep
    obtain ⟨hbefore, hstep⟩ := h.events keep
      ⟨start_locked bufferSize numItems, start_asserted bufferSize numItems⟩ (fun _ _ => trivial) e he
    exact hbefore.takes_last hstep
  · obtain ⟨hbalanced, hround⟩ := hs.finished hfin
    exact hbalanced.all_consumed hround

/-- The consumer finds nothing and sleeps, is woken by the producer's only item, and takes it. -/
def oneItem : List (Move Thread) :=
  List.replicate 4 (.go .consumer none) ++ List.replicate 8 (.go .producer none) ++
    [.go .producer (some .consumer), .go .producer none, .go .producer none] ++
    List.replicate 9 (.go .consumer none)

def oneItemEnd : State := last (Monitor.step (program 1 1)) (start 1) oneItem

theorem buffer_stack_oneItem :
    (record (Monitor.step (program 1 1)) (start 1) oneItem).length = oneItem.length ∧
    ((oneItemEnd.owner = none →
      0 ≤ oneItemEnd.shared.bufferIndex ∧ oneItemEnd.shared.bufferIndex ≤ (1 : Nat) ∧
      oneItemEnd.shared.buffer.take oneItemEnd.shared.bufferIndex.toNat = oneItemEnd.shared.pending ∧
      oneItemEnd.shared.producerSum = int32 (oneItemEnd.shared.consumerSum +
        (oneItemEnd.shared.buffer.take oneItemEnd.shared.bufferIndex.toNat).sum)) ∧
    (∀ t l, oneItemEnd.threads t = .running l → Accesses t l → 0 ≤ oneItemEnd.shared.bufferIndex ∧
      oneItemEnd.shared.bufferIndex < oneItemEnd.shared.buffer.length) ∧
    (∀ e ∈ record (Monitor.step (program 1 1)) (start 1) oneItem,
      e.after.shared.consumed = e.before.shared.consumed ∨
      ∃ v, e.before.shared.pending.getLast? = some v ∧
        e.after.shared.consumed = e.before.shared.consumed ++ [v]) ∧
    ((∀ t, oneItemEnd.threads t = .running .finished) →
      (∀ v : Int, oneItemEnd.shared.consumed.count v = if 1 ≤ v ∧ v ≤ (1 : Nat) then 1 else 0) ∧
      oneItemEnd.shared.producerSum = oneItemEnd.shared.consumerSum)) ∧
    oneItemEnd.shared.consumed = [1] ∧ ∀ t, oneItemEnd.threads t = .running .finished :=
  ⟨by decide, buffer_stack 1 1 (Trace.recorded _ _ _), by decide, by decide⟩

end

end LinuxAssignment.ProducerConsumer
