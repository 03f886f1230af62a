import LinuxAssignment.LockedCounter
import LinuxAssignment.RacyCounter

namespace LinuxAssignment.UnlockedCounter

open ByteMemory StepSystem Monitor LockedCounter RacyCounter Relation

/-- The loop of `no_mutex.c`: each round loads the counter and stores it again, with no lock. -/
def increase {τ : Type} [DecidableEq τ] (num : Nat) (t : τ) : Pc → Instr (Shared τ) Pc Empty
  | .test => .eval id fun s => if s.round t < num then .load else .finished
  | .load => .eval (Shared.load t) fun _ => .store
  | .store => .eval (fun s => (s.store t).count t) fun _ => .test
  | .sleep | .lock | .print | .unlock | .finished => .exit

abbrev Threads := Monitor.State (Fin 2) (Shared (Fin 2)) Pc Empty

def threads : Threads := ⟨⟨0, fun _ => 0, fun _ => 0⟩, none, fun _ => .running .test⟩

def start : LockedCounter.State 2 := ⟨.creating 0, threads⟩

/-- Where a thread can be, by what it has done and holds in the race. -/
inductive Placed (num : Nat) (x : Shared (Fin 2)) (r : Race (Fin 2)) (t : Fin 2) :
    Status Pc Empty → Prop
  | test : r.held t = none → Placed num x r t (.running .test)
  | load : r.held t = none → r.done t < num → Placed num x r t (.running .load)
  | store {v} : r.held t = some v → x.loaded t = v → Placed num x r t (.running .store)
  | finished : r.held t = none → r.done t = num → Placed num x r t (.running .finished)

/-- The threads are in a race of two counters that do not overflow. -/
structure Shows (num : Nat) (m : Threads) (r : Race (Fin 2)) : Prop where
  counter : m.shared.counter = r.counter
  round : m.shared.round = r.done
  place : ∀ t, Placed num m.shared r t (m.threads t)

variable {num : Nat} {m m' : Threads} {r r' : Race (Fin 2)} {t u : Fin 2} {a : Move (Fin 2)}

theorem Placed.other {x x' : Shared (Fin 2)} {l : Status Pc Empty} (h : Placed num x r u l)
    (hheld : r'.held u = r.held u) (hdone : r'.done u = r.done u)
    (hloaded : x'.loaded u = x.loaded u) : Placed num x' r' u l := by
  cases h with
  | test hn => exact .test (hheld.trans hn)
  | load hn hlt => exact .load (hheld.trans hn) (hdone ▸ hlt)
  | store hv hl => exact .store (hheld.trans hv) (hloaded.trans hl)
  | finished hn hd => exact .finished (hheld.trans hn) (hdone.trans hd)

theorem Shows.counted (hs : Shows num m r) (t : Fin 2) : m.shared.round t = r.done t :=
  congrFun hs.round t

/-- A thread goes on, and the others are where they were. -/
theorem Shows.goes {x : Shared (Fin 2)} {l : Pc} (hs : Shows num m r)
    (hcounter : x.counter = r'.counter) (hround : x.round = r'.done)
    (hself : Placed num x r' t (.running l))
    (hother : ∀ u, u ≠ t → r'.held u = r.held u ∧ r'.done u = r.done u ∧
      x.loaded u = m.shared.loaded u) :
    Shows num ⟨x, m.owner, moveTo m.threads t l⟩ r' := by
  refine ⟨hcounter, hround, fun u => ?_⟩
  dsimp only
  by_cases hut : u = t
  · subst hut
    rw [Monitor.moveTo, Function.update_self]
    exact hself
  · obtain ⟨hheld, hdone, hloaded⟩ := hother u hut
    rw [Monitor.moveTo, Function.update_of_ne hut]
    exact (hs.place u).other hheld hdone hloaded

theorem Bounded.int32_counter (hr : Bounded num r) (hnum : 2 * num < 2 ^ 31) :
    int32 r.counter = r.counter := by
  have hle : r.counter ≤ 2 * num := hr.counter_le_card
  exact int32_of_bounds (by omega) (by omega)

theorem Shows.test (hs : Shows num m r) (hr : Bounded num r)
    (ht : m.threads t = .running .test) :
    Shows num ⟨m.shared, m.owner,
      Monitor.moveTo m.threads t (if m.shared.round t < num then .load else .finished)⟩ r := by
  have hheld : r.held t = none := by
    have hplace := hs.place t
    rw [ht] at hplace
    cases hplace with
    | test hn => exact hn
  refine hs.goes hs.counter hs.round ?_ fun _ _ => ⟨rfl, rfl, rfl⟩
  rw [hs.counted t]
  split
  next hlt => exact .load hheld hlt
  next hge => exact .finished hheld (Nat.le_antisymm (hr.done_le t) (Nat.not_lt.mp hge))

theorem Shows.load (hs : Shows num m r) :
    Shows num ⟨m.shared.load t, m.owner, Monitor.moveTo m.threads t .store⟩ (r.load t) := by
  refine hs.goes hs.counter hs.round (.store (Function.update_self _ _ _) ?_) fun u hut => ?_
  · exact (Function.update_self _ _ _).trans hs.counter
  · exact ⟨Function.update_of_ne hut _ _, rfl, Function.update_of_ne hut _ _⟩

theorem Shows.store {v : Nat} (hs : Shows num m r) (hr : Bounded num (r.store t v))
    (hnum : 2 * num < 2 ^ 31) (hv : m.shared.loaded t = v) :
    Shows num ⟨(m.shared.store t).count t, m.owner, Monitor.moveTo m.threads t .test⟩
      (r.store t v) := by
  refine hs.goes ?_ ?_ (.test (Function.update_self _ _ _)) fun u hut => ?_
  · change int32 (m.shared.loaded t + 1) = ((v + 1 : Nat) : Int)
    have hkeep := Bounded.int32_counter hr hnum
    rw [Race.store, Nat.cast_succ] at hkeep
    rw [hv, Nat.cast_succ, hkeep]
  · change Function.update m.shared.round t (m.shared.round t + 1) = _
    rw [hs.round]
    rfl
  · exact ⟨Function.update_of_ne hut _ _, Function.update_of_ne hut _ _, rfl⟩

/-- Every step of the threads is one of the race, or none. -/
theorem Shows.step (hs : Shows num m r) (hr : Bounded num r) (hnum : 2 * num < 2 ^ 31)
    (h : Monitor.step (increase num) m a = some m') :
    ∃ r', ReflTransGen (Moves num) r r' ∧ Bounded num r' ∧ Shows num m' r' := by
  cases fires_of_step h with
  | @relock t w l ht hfree =>
    have hplace := hs.place t
    rw [ht] at hplace
    cases hplace
  | @wake t c l ht => exact c.elim
  | @lock t w l next ht hp => cases l <;> cases hp
  | @unlock t w l f next ht hp => cases l <;> cases hp
  | @wait t w l c next ht hp => exact c.elim
  | @signal t w l c next threads ht hp => exact c.elim
  | @eval t w l f next ht hp =>
    have hplace := hs.place t
    rw [ht] at hplace
    cases hplace with
    | test =>
      cases hp
      exact ⟨r, .refl, hr, hs.test hr ht⟩
    | load hn hlt =>
      cases hp
      exact ⟨r.load t, .single (.load hn hlt), hr.load hlt, hs.load⟩
    | store hv hl =>
      cases hp
      exact ⟨r.store t _, .single (.store hv), hr.store hv, hs.store (hr.store hv) hnum hl⟩
    | finished => cases hp

theorem threads_shows (num : Nat) : Shows num threads Race.start := ⟨rfl, rfl, fun _ => .test rfl⟩

theorem Shows.run (hnum : 2 * num < 2 ^ 31) {es : List (Event (LockedCounter.State 2) (MainMove 2))}
    {s : LockedCounter.State 2} (h : Trace (joinStep (increase num)) start es s) :
    (∃ r, Bounded num r ∧ Shows num s.monitor r) ∧ JoinedUp (increase num) s := by
  have keepThreads : ∀ (m : Threads) (b : Move (Fin 2)) m', (∃ r, Bounded num r ∧ Shows num m r) →
      Monitor.step (increase num) m b = some m' → ∃ r, Bounded num r ∧ Shows num m' r := by
    rintro m b m' ⟨r, hr, hs⟩ hstep
    obtain ⟨r', -, hr', hs'⟩ := hs.step hr hnum hstep
    exact ⟨r', hr', hs'⟩
  have keep : ∀ (s : LockedCounter.State 2) (a : MainMove 2) (t : LockedCounter.State 2),
      ((∃ r, Bounded num r ∧ Shows num s.monitor r) ∧ JoinedUp (increase num) s) → True →
      joinStep (increase num) s a = some t →
      (∃ r, Bounded num r ∧ Shows num t.monitor r) ∧ JoinedUp (increase num) t :=
    fun _ _ _ hs _ ht => ⟨joinStep_keeps keepThreads hs.1 ht, hs.2.step ht⟩
  exact h.invariant keep ⟨⟨_, start_bounded num, threads_shows num⟩, nofun⟩ fun _ _ => trivial

theorem Shows.over (hs : Shows num m r) (h : ∀ t, Terminated (increase num) m t) : r.Over num := by
  intro t
  obtain ⟨l, ht, hexit⟩ := h t
  have hplace := hs.place t
  rw [ht] at hplace
  cases hplace with
  | test => cases hexit
  | load => cases hexit
  | store => cases hexit
  | finished hn hd => exact ⟨hn, hd⟩

/-- The threads stand only before their tests and their stores. -/
def Poised (m : Threads) : Prop :=
  ∀ t, m.threads t = .running .test ∨ m.threads t = .running .store

theorem poised_moveTo {x : Shared (Fin 2)} {l : Pc} (hl : l = .test ∨ l = .store)
    (hother : ∀ u, u ≠ t → m.threads u = .running .test ∨ m.threads u = .running .store) :
    Poised ⟨x, m.owner, moveTo m.threads t l⟩ := by
  intro u
  dsimp only
  by_cases hut : u = t
  · subst hut
    rw [moveTo, Function.update_self]
    exact hl.imp (congrArg _) (congrArg _)
  · rw [moveTo, Function.update_of_ne hut]
    exact hother u hut

theorem Poised.test (h : Poised m) (hs : Shows num m r) (hn : r.held t = none) :
    m.threads t = .running .test := by
  refine (h t).resolve_right fun hstore => ?_
  have hplace := hs.place t
  rw [hstore] at hplace
  cases hplace with
  | store hv => cases hn.symm.trans hv

theorem Poised.store {v : Nat} (h : Poised m) (hs : Shows num m r) (hv : r.held t = some v) :
    m.threads t = .running .store ∧ m.shared.loaded t = v := by
  have hplace := hs.place t
  rcases h t with ht | ht
  · rw [ht] at hplace
    cases hplace with
    | test hn => cases hn.symm.trans hv
  · rw [ht] at hplace
    cases hplace with
    | store hv' hl =>
      cases hv.symm.trans hv'
      exact ⟨ht, hl⟩

/-- Every step of the race is made by the threads. -/
theorem Shows.moves (hs : Shows num m r) (hr : Bounded num r) (hnum : 2 * num < 2 ^ 31)
    (hpoised : Poised m) (h : Moves num r r') :
    ∃ m', ReflTransGen (Steps (Monitor.step (increase num))) m m' ∧ Shows num m' r' ∧
      Poised m' := by
  cases h with
  | @load t hn hlt =>
    have ht := hpoised.test hs hn
    have htest := hs.test hr ht
    rw [hs.counted t, if_pos hlt] at htest
    have hgo : Monitor.step (increase num) m (.go t none) =
        some ⟨m.shared, m.owner, moveTo m.threads t .load⟩ := by
      simp [Monitor.step, ht, increase, hs.counted t, hlt]
    refine ⟨_, .tail (.single ⟨_, hgo⟩) ⟨.go t none, ?_⟩, htest.load (t := t),
      poised_moveTo (Or.inr rfl) fun u hut => ?_⟩
    · simp [Monitor.step, moveTo, increase]
    · dsimp only
      rw [moveTo, Function.update_of_ne hut]
      exact hpoised u
  | @store t v hv =>
    obtain ⟨ht, hl⟩ := hpoised.store hs hv
    exact ⟨_, .single ⟨.go t none, by simp [Monitor.step, ht, increase]⟩,
      hs.store (hr.store hv) hnum hl, poised_moveTo (Or.inl rfl) fun u _ => hpoised u⟩

theorem moves_run (hnum : 2 * num < 2 ^ 31) (h : ReflTransGen (Moves num) Race.start r) :
    ∃ m, ReflTransGen (Steps (Monitor.step (increase num))) threads m ∧ Shows num m r ∧
      Poised m := by
  induction h with
  | refl => exact ⟨threads, .refl, threads_shows num, fun _ => Or.inl rfl⟩
  | tail hrun hmove ih =>
    obtain ⟨m, hm, hs, hpoised⟩ := ih
    obtain ⟨m', hm', hs', hpoised'⟩ := hs.moves (Bounded.run hrun) hnum hpoised hmove
    exact ⟨m', hm.trans hm', hs', hpoised'⟩

theorem Shows.ends (hs : Shows num m r) (hr : Bounded num r) (hdone : r.done t = num)
    (ht : m.threads t = .running .test) :
    ∃ m', Steps (Monitor.step (increase num)) m m' ∧ Shows num m' r ∧
      m'.threads t = .running .finished ∧ ∀ u, u ≠ t → m'.threads u = m.threads u := by
  have hall : ¬ m.shared.round t < num := by
    rw [hs.counted t, hdone]
    exact Nat.lt_irrefl num
  have htest := hs.test hr ht
  rw [if_neg hall] at htest
  exact ⟨_, ⟨.go t none, by simp [Monitor.step, ht, increase, hall]⟩, htest,
    Function.update_self _ _ _, fun u hut => Function.update_of_ne hut _ _⟩

/-- A race that is over is one that the threads can run, and return. -/
theorem over_run (hnum : 2 * num < 2 ^ 31) (h : ReflTransGen (Moves num) Race.start r)
    (hover : r.Over num) :
    ∃ m, ReflTransGen (Steps (Monitor.step (increase num))) threads m ∧ Shows num m r ∧
      ∀ t, Terminated (increase num) m t := by
  obtain ⟨m, hm, hs, hpoised⟩ := moves_run hnum h
  have hr := Bounded.run h
  have htest : ∀ t, m.threads t = .running .test := fun t => hpoised.test hs (hover t).1
  obtain ⟨m1, hm1, hs1, hend1, hother1⟩ := hs.ends hr (hover 0).2 (htest 0)
  obtain ⟨m2, hm2, hs2, hend2, hother2⟩ :=
    hs1.ends hr (hover 1).2 ((hother1 1 (by decide)).trans (htest 1))
  refine ⟨m2, (hm.tail hm1).tail hm2, hs2, fun t => ⟨.finished, ?_, rfl⟩⟩
  match t with
  | 0 => exact (hother2 0 (by decide)).trans hend1
  | 1 => exact hend2

/-- What `no_mutex.c` can print behind its joins: every number from `2`, or `num` if that is less,
to `2 * num`, and no other. -/
theorem printed_counter_iff (num : Nat) (hnum : 2 * num < 2 ^ 31) (v : Int) :
    (∃ es s, Trace (joinStep (increase num)) start es s ∧ s.main = .joining 2 ∧
      s.monitor.shared.counter = v) ↔ (min 2 num : Nat) ≤ v ∧ v ≤ 2 * num := by
  constructor
  · rintro ⟨es, s, h, hmain, rfl⟩
    obtain ⟨⟨r, hr, hs⟩, hjoined⟩ := Shows.run hnum h
    have hover := hs.over fun t => hjoined 2 hmain t t.isLt
    have hlow := hr.over hover
    have hhigh : r.counter ≤ 2 * num := hr.counter_le_card
    rw [hs.counter]
    omega
  · rintro ⟨hlow, hhigh⟩
    obtain ⟨n, rfl⟩ := Int.eq_ofNat_of_zero_le (le_trans (Int.natCast_nonneg _) hlow)
    have hdistinct : (0 : Fin 2) ≠ 1 := by decide
    have hlow' : min 2 num ≤ n := by omega
    have hhigh' : n ≤ 2 * num := by omega
    obtain ⟨r, hrun, hover, hcounter⟩ := over_goes hdistinct (by decide) hlow' hhigh'
    obtain ⟨m, hm, hs, hends⟩ := over_run hnum hrun hover
    obtain ⟨es, hes⟩ := Trace.of_steps (((creates_all threads).trans (threads_go hm)).trans
      (joins_all hends))
    exact ⟨es, _, hes, rfl, by rw [hs.counter, hcounter]⟩

/-- All but two of the 200000 increments of the program can be lost. -/
theorem printed_counter_two :
    ∃ es s, Trace (joinStep (increase 100000)) start es s ∧ s.main = .joining 2 ∧
      s.monitor.shared.counter = 2 :=
  (printed_counter_iff 100000 (by decide) 2).mpr ⟨by decide, by decide⟩

end LinuxAssignment.UnlockedCounter
