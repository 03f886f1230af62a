import LinuxAssignment.ReapingRest

namespace LinuxAssignment.SigcontTiming

open StepSystem ChildReaping

abbrev childCount : Nat := 3

instance : NeZero childCount := ⟨by decide⟩

abbrev ChildId := Fin childCount

/-- Where a child is: in `sleep(3 + i)`, behind it, behind its `SIGSTOP`, before its `exit`. -/
inductive ChildPlace where
  | unborn
  | sleeping (due : Nat)
  | awake
  | resumed
  | exiting
  | ended
  deriving DecidableEq

/-- A child with its pending signals and its handlers under way. -/
structure ChildProc where
  place : ChildPlace
  pending : Signal → Bool
  stack : List Signal

/-- Where the parent is: in its loop of forks, in `sleep(10)`, before its `kill`, in its loop of
pauses. -/
inductive ParentPlace where
  | forking (i : Nat)
  | sleeping (due : Nat)
  | killing
  | pausing
  deriving DecidableEq

/-- The clock, both sides of the program, and the parent's signals and children as the kernel has
them. -/
structure State where
  now : Nat
  parent : ParentPlace
  child : ChildId → ChildProc
  kernel : ChildReaping.State ChildId

inductive Act where
  | fork
  | sleep
  | wake
  | kill
  | send (sig : Signal)
  | deliver (sig : Signal)
  | handler (reported : Option ChildId)
  | sendChild (k : ChildId) (sig : Signal)
  | deliverChild (k : ChildId) (sig : Signal)
  | returnChild (k : ChildId)
  | wakeChild (k : ChildId)
  | goChild (k : ChildId)
  | tick
  deriving DecidableEq

abbrev sigstop : Nat := 19

def ParentPlace.due : ParentPlace → Option Nat
  | .sleeping due => some due
  | _ => none

def ChildPlace.due : ChildPlace → Option Nat
  | .sleeping due => some due
  | _ => none

/-- The child has something to do as long as it is not stopped. -/
def ChildPlace.Busy : ChildPlace → Prop
  | .awake | .resumed | .exiting => True
  | _ => False

instance : (p : ChildPlace) → Decidable p.Busy
  | .awake | .resumed | .exiting => isTrue trivial
  | .unborn | .sleeping _ | .ended => isFalse id

def Running (c : Child) : Prop := c = .running true ∨ c = .running false

instance (c : Child) : Decidable (Running c) :=
  inferInstanceAs (Decidable (c = .running true ∨ c = .running false))

def Stopped : Child → Prop
  | .stopped _ _ => True
  | _ => False

instance : (c : Child) → Decidable (Stopped c)
  | .stopped _ _ => isTrue trivial
  | .unborn | .running _ | .zombie _ | .reaped _ => isFalse id

/-- What a delivered signal makes of a sleep. -/
def ChildPlace.interrupt : ChildPlace → ChildPlace
  | .sleeping _ => .awake
  | p => p

def ParentPlace.interrupt : ParentPlace → ParentPlace
  | .sleeping _ => .killing
  | p => p

def start : State :=
  ⟨0, .forking 0, fun _ => ⟨.unborn, fun _ => false, []⟩, ChildReaping.start⟩

def setChild (s : State) (k : ChildId) (c : ChildProc) : State :=
  { s with child := Function.update s.child k c }

/-- The next step of a child that runs, with none of its handlers under way. -/
def goChild (s : State) (k : ChildId) : Option State :=
  let c := s.child k
  match c.place with
  | .awake =>
    if k = 0 then
      (ChildReaping.step s.kernel (.stop k sigstop)).map fun kernel =>
        { setChild s k { c with place := .resumed } with kernel := kernel }
    else some (setChild s k { c with place := .exiting, stack := [.sigusr1] })
  | .resumed => some (setChild s k { c with place := .exiting, stack := [.sigusr1] })
  | .exiting =>
    (ChildReaping.step s.kernel (.exit k (UInt8.ofNat (10 + k)))).map fun kernel =>
      { setChild s k { c with place := .ended } with kernel := kernel }
  | _ => none

/-- One step of the parent, of a child, of somebody who sends signals, or of the clock, which
stands still while a child has something to do or a sleep is over. -/
def step (s : State) : Act → Option State
  | .fork =>
    match s.parent with
    | .forking i =>
      if h : i < childCount then
        (ChildReaping.step s.kernel (.fork ⟨i, h⟩)).map fun kernel =>
          { setChild s ⟨i, h⟩ ⟨.sleeping (s.now + (3 + i)), fun _ => false, []⟩ with
            parent := .forking (i + 1), kernel := kernel }
      else none
    | _ => none
  | .sleep =>
    if s.parent = .forking childCount ∧ s.kernel.stack = [] then
      some { s with parent := .sleeping (s.now + 10) }
    else none
  | .wake =>
    if s.parent.due = some s.now ∧ s.kernel.stack = [] then some { s with parent := .killing }
    else none
  | .kill =>
    if s.parent = .killing ∧ s.kernel.stack = [] then
      some { s with
        parent := .pausing
        kernel := (ChildReaping.step s.kernel (.cont 0)).getD s.kernel }
    else none
  | .send sig =>
    if sig ≠ .sigchld then
      (ChildReaping.step s.kernel (.send sig)).map fun kernel => { s with kernel := kernel }
    else none
  | .deliver sig =>
    (ChildReaping.step s.kernel (.deliver sig)).map fun kernel =>
      { s with parent := s.parent.interrupt, kernel := kernel }
  | .handler reported =>
    (ChildReaping.step s.kernel (.go reported)).map fun kernel => { s with kernel := kernel }
  | .sendChild k sig =>
    if sig ≠ .sigchld then
      some (setChild s k { s.child k with pending := Function.update (s.child k).pending sig true })
    else none
  | .deliverChild k sig =>
    if Running (s.kernel.child k) ∧ (s.child k).pending sig = true ∧ sig ∉ (s.child k).stack then
      some (setChild s k ⟨(s.child k).place.interrupt,
        Function.update (s.child k).pending sig false, sig :: (s.child k).stack⟩)
    else none
  | .returnChild k =>
    if Running (s.kernel.child k) then
      some (setChild s k { s.child k with stack := (s.child k).stack.tail })
    else none
  | .wakeChild k =>
    if (s.child k).place.due = some s.now ∧ (s.child k).stack = [] then
      some (setChild s k { s.child k with place := .awake })
    else none
  | .goChild k =>
    if Running (s.kernel.child k) ∧ (s.child k).stack = [] then goChild s k else none
  | .tick =>
    if (∀ due ∈ s.parent.due, s.now < due) ∧
        ∀ k, (∀ due ∈ (s.child k).place.due, s.now < due) ∧
          ¬ (Running (s.kernel.child k) ∧ (s.child k).place.Busy) then
      some { s with now := s.now + 1 }
    else none

/-- A child behind its `SIGSTOP`. -/
def ChildPlace.Past : ChildPlace → Prop
  | .resumed | .exiting | .ended => True
  | _ => False

instance : (p : ChildPlace) → Decidable p.Past
  | .resumed | .exiting | .ended => isTrue trivial
  | .unborn | .sleeping _ | .awake => isFalse id

/-- No signal reaches the parent in its sleep before child 0 has stopped itself. -/
def Undisturbed (s : State) : Act → Prop
  | .deliver _ => s.parent.due ≠ none → (s.child 0).place.Past
  | _ => True

instance (s : State) : (a : Act) → Decidable (Undisturbed s a)
  | .deliver _ => inferInstanceAs (Decidable (s.parent.due ≠ none → (s.child 0).place.Past))
  | .fork | .sleep | .wake | .kill | .send _ | .handler _ | .sendChild _ _ | .deliverChild _ _
  | .returnChild _ | .wakeChild _ | .goChild _ | .tick => isTrue trivial

/-- Child 0 is born and will stop itself at `limit`, before the sleep of the parent is over. -/
structure Ahead (s : State) (limit : Nat) : Prop where
  now_le : s.now ≤ limit
  le_now : limit ≤ s.now + 3
  first : (s.child 0).place = .sleeping limit ∨ (s.child 0).place = .awake ∧ limit = s.now
  parent : (∃ i, s.parent = .forking i) ∨ ∃ due, limit < due ∧ s.parent = .sleeping due
  running : Running (s.kernel.child 0)

/-- The stretches of a run in which no signal comes too early: child 0 is not born, it is about to
stop itself, it is stopped and waits for the parent, the parent has continued it. -/
inductive Phase (s : State) : Prop where
  | unborn (parent : s.parent = .forking 0)
  | ahead (limit : Nat) (h : Ahead s limit)
  | stopped (past : (s.child 0).place.Past) (stopped : Stopped (s.kernel.child 0))
      (parent : s.parent ≠ .pausing)
  | continued (past : (s.child 0).place.Past) (stopped : ¬ Stopped (s.kernel.child 0))
      (parent : s.parent = .pausing)

/-- In every run, child 0 is stopped only by itself. -/
def StopsItself (s : State) : Prop := Stopped (s.kernel.child 0) → (s.child 0).place.Past

/-- A step that leaves the clock, the parent and child 0 as they are, but for what there is to report
of it. -/
structure Quiet (s t : State) : Prop where
  now : t.now = s.now
  parent : t.parent = s.parent
  place : (t.child 0).place = (s.child 0).place
  running : Running (s.kernel.child 0) → Running (t.kernel.child 0)
  stopped : Stopped (t.kernel.child 0) ↔ Stopped (s.kernel.child 0)

section

variable {s t : State} {limit : Nat} {k : ChildId} {c : ChildProc} {sig : Signal} {a : Act}

theorem Ahead.quiet (h : Ahead s limit) (hq : Quiet s t) : Ahead t limit where
  now_le := hq.now ▸ h.now_le
  le_now := hq.now ▸ h.le_now
  first := by
    rw [hq.place, hq.now]
    exact h.first
  parent := by
    rw [hq.parent]
    exact h.parent
  running := hq.running h.running

theorem Ahead.not_past (h : Ahead s limit) : ¬ (s.child 0).place.Past := by
  obtain hfirst | ⟨hfirst, -⟩ := h.first <;> rw [hfirst] <;> exact id

theorem Ahead.not_pausing (h : Ahead s limit) : s.parent ≠ .pausing := by
  intro hparent
  obtain ⟨i, hparent'⟩ | ⟨due, -, hparent'⟩ := h.parent <;> cases hparent.symm.trans hparent'

theorem Phase.quiet (hs : Phase s) (hq : Quiet s t) : Phase t := by
  cases hs with
  | unborn hparent => exact .unborn (hq.parent.trans hparent)
  | ahead limit h => exact .ahead limit (h.quiet hq)
  | stopped hpast hstopped hparent =>
    exact .stopped (hq.place ▸ hpast) (hq.stopped.mpr hstopped) (hq.parent ▸ hparent)
  | continued hpast hstopped hparent =>
    exact .continued (hq.place ▸ hpast) (mt hq.stopped.mp hstopped) (hq.parent.trans hparent)

theorem StopsItself.quiet (hs : StopsItself s) (hq : Quiet s t) : StopsItself t := fun hstopped =>
  hq.place ▸ hs (hq.stopped.mp hstopped)

theorem not_stopped_of_running {c : Child} (h : Running c) : ¬ Stopped c := by
  rcases h with h | h <;> rw [h] <;> exact id

theorem news_life {c c' : Child} {status : Status} (h : c.news = some (status, c')) :
    (Running c → Running c') ∧ (Stopped c' ↔ Stopped c) := by
  cases c with
  | unborn | reaped e => cases h
  | running continued =>
    cases continued <;> cases h
    exact ⟨fun _ => Or.inr rfl, Iff.rfl⟩
  | stopped sig unreported =>
    cases unreported <;> cases h
    exact ⟨fun hr => absurd hr (by simp [Running]), Iff.rfl⟩
  | zombie e =>
    cases h
    exact ⟨fun hr => absurd hr (by simp [Running]), Iff.rfl⟩

/-- A handler of the parent changes no child but in what there is to report. -/
theorem go_life {q q' : ChildReaping.State ChildId} {reported : Option ChildId}
    (h : ChildReaping.step q (.go reported) = some q') (k : ChildId) :
    (Running (q.child k) → Running (q'.child k)) ∧ (Stopped (q'.child k) ↔ Stopped (q.child k)) := by
  cases step_changes h with
  | child a k c hno => exact absurd trivial hno
  | go reported f frames q' hstack hhandled =>
    cases hhandled with
    | goes | finds | returns => exact ⟨id, Iff.rfl⟩
    | learns j status c hplace hnews =>
      dsimp only
      by_cases hk : k = j
      · subst hk
        rw [Function.update_self]
        exact news_life hnews
      · rw [Function.update_of_ne hk]
        exact ⟨id, Iff.rfl⟩

theorem handler_quiet {reported : Option ChildId} (h : step s (.handler reported) = some t) :
    Quiet s t := by
  obtain ⟨q, hq, rfl⟩ := Option.map_eq_some_iff.mp h
  obtain ⟨hrunning, hstopped⟩ := go_life hq 0
  exact ⟨rfl, rfl, rfl, hrunning, hstopped⟩

theorem setChild_quiet (hc : k = 0 → c.place = (s.child 0).place) : Quiet s (setChild s k c) where
  now := rfl
  parent := rfl
  place := by
    by_cases hk : k = 0
    · subst hk
      simp [setChild, hc]
    · simp [setChild, Function.update_of_ne (Ne.symm hk)]
  running := id
  stopped := Iff.rfl

/-- A signal is sent, or a handler goes on. -/
def Act.Aside : Act → Prop
  | .send _ | .handler _ | .sendChild _ _ | .returnChild _ => True
  | _ => False

theorem aside_quiet (h : step s a = some t) (ha : a.Aside) : Quiet s t := by
  cases a with
  | handler reported => exact handler_quiet h
  | send sig =>
    obtain ⟨-, h⟩ := Option.ite_none_right_eq_some.mp h
    cases h
    exact ⟨rfl, rfl, rfl, id, Iff.rfl⟩
  | sendChild k sig | returnChild k =>
    obtain ⟨-, h⟩ := Option.ite_none_right_eq_some.mp h
    cases h
    exact setChild_quiet fun hk => by rw [hk]
  | fork | sleep | wake | kill | deliver | deliverChild | wakeChild | goChild | tick =>
    exact ha.elim

/-- What a fork of the parent does. -/
theorem step_fork (h : step s .fork = some t) :
    ∃ (i : Nat) (hi : i < childCount), s.parent = .forking i ∧
      s.kernel.child ⟨i, hi⟩ = .unborn ∧
      ChildReaping.step s.kernel (.fork ⟨i, hi⟩) = some t.kernel ∧
      t = { setChild s ⟨i, hi⟩ ⟨.sleeping (s.now + (3 + i)), fun _ => false, []⟩ with
        parent := .forking (i + 1)
        kernel := { s.kernel with
          child := Function.update s.kernel.child ⟨i, hi⟩ (.running false) } } := by
  simp only [SigcontTiming.step] at h
  split at h
  next i hparent =>
    split at h
    next hi =>
      obtain ⟨q, hq, rfl⟩ := Option.map_eq_some_iff.mp h
      obtain ⟨⟨-, hunborn⟩, hq'⟩ := Option.ite_none_right_eq_some.mp hq
      cases hq'
      exact ⟨i, hi, hparent, hunborn, hq, rfl⟩
    next => cases h
  next => cases h

/-- A fork bears child 0, or leaves it as it is. -/
theorem fork_first (h : step s .fork = some t) :
    (∃ i, t.parent = .forking i) ∧ t.now = s.now ∧
      (s.parent = .forking 0 ∧ s.kernel.child 0 = .unborn ∧
          (t.child 0).place = .sleeping (s.now + 3) ∧ t.kernel.child 0 = .running false ∨
        s.parent ≠ .forking 0 ∧ t.child 0 = s.child 0 ∧ t.kernel.child 0 = s.kernel.child 0) := by
  obtain ⟨i, hi, hparent, hunborn, -, rfl⟩ := step_fork h
  refine ⟨⟨i + 1, rfl⟩, rfl, ?_⟩
  by_cases hi0 : i = 0
  · subst hi0
    exact Or.inl ⟨hparent, hunborn, by simp [setChild], by simp⟩
  · have hne : (0 : ChildId) ≠ ⟨i, hi⟩ := fun h0 => hi0 (congrArg Fin.val h0).symm
    refine Or.inr ⟨fun h0 => hi0 (ParentPlace.forking.inj (hparent.symm.trans h0)), ?_, ?_⟩
    · simp only [setChild, Function.update_of_ne hne]
    · simp only [Function.update_of_ne hne]

theorem Phase.fork (hs : Phase s) (h : step s .fork = some t) : Phase t := by
  obtain ⟨hparent, hnow, ⟨-, hunborn, hplace, hchild⟩ | ⟨hborn, hplace, hchild⟩⟩ := fork_first h
  · cases hs with
    | unborn | ahead =>
      refine .ahead (s.now + 3) ⟨?_, ?_, Or.inl hplace, Or.inl hparent, Or.inr hchild⟩ <;> omega
    | stopped hpast hstopped =>
      rw [hunborn] at hstopped
      exact hstopped.elim
    | continued hpast hstopped hparent' =>
      obtain ⟨i, hi, hforking, -⟩ := step_fork h
      cases hparent'.symm.trans hforking
  · cases hs with
    | unborn hparent' => exact absurd hparent' hborn
    | ahead limit hahead =>
      refine .ahead limit ⟨hnow ▸ hahead.now_le, hnow ▸ hahead.le_now, ?_, Or.inl hparent, ?_⟩
      · rw [hplace, hnow]
        exact hahead.first
      · rw [hchild]
        exact hahead.running
    | stopped hpast hstopped =>
      obtain ⟨i, hi⟩ := hparent
      exact .stopped (hplace ▸ hpast) (hchild ▸ hstopped) (by rw [hi]; exact nofun)
    | continued hpast hstopped hparent' =>
      obtain ⟨i, hi, hforking, -⟩ := step_fork h
      cases hparent'.symm.trans hforking

theorem Phase.sleep (hs : Phase s) (h : step s .sleep = some t) : Phase t := by
  obtain ⟨⟨hparent, -⟩, h⟩ := Option.ite_none_right_eq_some.mp h
  cases h
  cases hs with
  | unborn hparent' => cases hparent.symm.trans hparent'
  | ahead limit h =>
    have hle := h.le_now
    exact .ahead limit { h with parent := Or.inr ⟨s.now + 10, by omega, rfl⟩ }
  | stopped hpast hstopped hparent' => exact .stopped hpast hstopped nofun
  | continued hpast hstopped hparent' => cases hparent.symm.trans hparent'

theorem Phase.wake (hs : Phase s) (h : step s .wake = some t) : Phase t := by
  obtain ⟨⟨hdue, -⟩, h⟩ := Option.ite_none_right_eq_some.mp h
  cases h
  cases hs with
  | unborn hparent' =>
    rw [hparent'] at hdue
    cases hdue
  | ahead limit h =>
    obtain ⟨i, hparent⟩ | ⟨due, hlt, hparent⟩ := h.parent
    · rw [hparent] at hdue
      cases hdue
    · rw [hparent] at hdue
      cases hdue
      exact absurd h.now_le (Nat.not_le.mpr hlt)
  | stopped hpast hstopped hparent' => exact .stopped hpast hstopped nofun
  | continued hpast hstopped hparent' =>
    rw [hparent'] at hdue
    cases hdue

/-- The parent is before its `kill` only when child 0 is stopped. -/
theorem Phase.stopped_of_killing (hs : Phase s) (hparent : s.parent = .killing) :
    (s.child 0).place.Past ∧ Stopped (s.kernel.child 0) := by
  cases hs with
  | unborn hparent' => cases hparent.symm.trans hparent'
  | ahead limit h =>
    obtain ⟨i, hparent'⟩ | ⟨due, -, hparent'⟩ := h.parent <;> cases hparent.symm.trans hparent'
  | stopped hpast hstopped hparent' => exact ⟨hpast, hstopped⟩
  | continued hpast hstopped hparent' => cases hparent.symm.trans hparent'

/-- Behind the `kill` child 0 is not stopped, whether it was or not. -/
theorem kill_continues (h : step s .kill = some t) :
    s.parent = .killing ∧ t.parent = .pausing ∧ t.child = s.child ∧
      ¬ Stopped (t.kernel.child 0) := by
  obtain ⟨⟨hparent, -⟩, h⟩ := Option.ite_none_right_eq_some.mp h
  cases h
  refine ⟨hparent, rfl, rfl, ?_⟩
  cases hc : s.kernel.child 0 with
  | stopped sig unreported => simp [ChildReaping.step, hc, change, Stopped]
  | unborn | running | zombie | reaped => simp [ChildReaping.step, hc, Stopped]

theorem Phase.kill (hs : Phase s) (h : step s .kill = some t) : Phase t := by
  obtain ⟨hparent, hparent', hchild, hstopped⟩ := kill_continues h
  exact .continued (hchild ▸ (hs.stopped_of_killing hparent).1) hstopped hparent'

theorem Phase.deliver (hs : Phase s) (hok : Undisturbed s (.deliver sig))
    (h : step s (.deliver sig) = some t) : Phase t := by
  obtain ⟨q, hq, rfl⟩ := Option.map_eq_some_iff.mp h
  obtain ⟨-, hq⟩ := Option.ite_none_right_eq_some.mp hq
  cases hq
  cases hp : s.parent with
  | forking | killing | pausing => exact hs.quiet ⟨rfl, hp.symm, rfl, id, Iff.rfl⟩
  | sleeping due =>
    have hpast : (s.child 0).place.Past := hok (by rw [hp]; exact nofun)
    cases hs with
    | unborn hparent => cases hp.symm.trans hparent
    | ahead limit hahead => exact absurd hpast hahead.not_past
    | stopped hpast hstopped => exact .stopped hpast hstopped nofun
    | continued hpast hstopped hparent => cases hp.symm.trans hparent

theorem not_past_of_due {p : ChildPlace} {due : Nat} (h : p.due = some due) : ¬ p.Past := by
  cases p with
  | sleeping due => exact id
  | unborn | awake | resumed | exiting | ended => cases h

/-- A child leaves its sleep. -/
theorem Phase.rouse (hs : Phase s) {due : Nat} (hdue : (s.child k).place.due = some due)
    (hc : c.place = .awake) : Phase (setChild s k c) := by
  by_cases hk : k = 0
  · subst hk
    cases hs with
    | unborn hparent => exact .unborn hparent
    | ahead limit h =>
      have hnow := h.now_le
      refine .ahead s.now ⟨Nat.le_refl _, Nat.le_add_right _ _, Or.inr ⟨?_, rfl⟩, ?_, h.running⟩
      · simp [setChild, hc]
      · exact h.parent.imp_right fun ⟨d, hd, hplace⟩ => ⟨d, Nat.lt_of_le_of_lt hnow hd, hplace⟩
    | stopped hpast => exact absurd hpast (not_past_of_due hdue)
    | continued hpast => exact absurd hpast (not_past_of_due hdue)
  · exact hs.quiet (setChild_quiet fun h0 => absurd h0 hk)

/-- A signal delivered to a child ends its sleep, if it is in one. -/
theorem deliverChild_cases (h : step s (.deliverChild k sig) = some t) :
    Running (s.kernel.child k) ∧ (Quiet s t ∨
      ∃ due c, (s.child k).place.due = some due ∧ c.place = .awake ∧ t = setChild s k c) := by
  obtain ⟨⟨hrun, -⟩, h⟩ := Option.ite_none_right_eq_some.mp h
  cases h
  refine ⟨hrun, ?_⟩
  cases hplace : (s.child k).place with
  | sleeping due => exact Or.inr ⟨due, _, rfl, rfl, rfl⟩
  | unborn | awake | resumed | exiting | ended =>
    refine Or.inl (setChild_quiet fun hk => ?_)
    subst hk
    exact hplace.symm

theorem Phase.deliverChild (hs : Phase s) (h : step s (.deliverChild k sig) = some t) : Phase t := by
  obtain ⟨-, hquiet | ⟨due, c, hdue, hc, rfl⟩⟩ := deliverChild_cases h
  · exact hs.quiet hquiet
  · exact hs.rouse hdue hc

theorem Phase.wakeChild (hs : Phase s) (h : step s (.wakeChild k) = some t) : Phase t := by
  obtain ⟨⟨hdue, -⟩, h⟩ := Option.ite_none_right_eq_some.mp h
  cases h
  exact hs.rouse hdue rfl

/-- The next step of a child: child 0 stops itself, or a child goes on that has no stop ahead. -/
theorem goChild_cases (h : goChild s k = some t) (hrun : Running (s.kernel.child k)) :
    t.now = s.now ∧ t.parent = s.parent ∧
      (t.kernel = s.kernel ∨ ∃ b, ChildReaping.step s.kernel b = some t.kernel) ∧
      (∀ j, j ≠ k → t.child j = s.child j ∧ t.kernel.child j = s.kernel.child j) ∧
      (t.child k).place.Past ∧
      ((s.child k).place = .awake ∧ k = 0 ∧ Stopped (t.kernel.child k) ∨
        ((s.child k).place.Past ∨ k ≠ 0 ∧ (s.child k).place = .awake) ∧
          ¬ Stopped (t.kernel.child k)) := by
  have hno := not_stopped_of_running hrun
  have frame : ∀ {c : ChildProc} j, j ≠ k → (setChild s k c).child j = s.child j := fun j hj =>
    Function.update_of_ne hj _ _
  simp only [goChild] at h
  split at h
  next hplace =>
    split at h
    next hk =>
      obtain ⟨q, hq, rfl⟩ := Option.map_eq_some_iff.mp h
      have hkernel := hq
      simp only [ChildReaping.step] at hq
      split at hq
      next =>
        cases hq
        refine ⟨rfl, rfl, Or.inr ⟨_, hkernel⟩,
          fun j hj => ⟨frame j hj, Function.update_of_ne hj _ _⟩, ?_, Or.inl ⟨hplace, hk, ?_⟩⟩
        · simp [setChild, ChildPlace.Past]
        · simp [change, Stopped]
      next => cases hq
    next hk =>
      cases h
      exact ⟨rfl, rfl, Or.inl rfl, fun j hj => ⟨frame j hj, rfl⟩, by simp [setChild, ChildPlace.Past],
        Or.inr ⟨Or.inr ⟨hk, hplace⟩, hno⟩⟩
  next hplace =>
    cases h
    exact ⟨rfl, rfl, Or.inl rfl, fun j hj => ⟨frame j hj, rfl⟩, by simp [setChild, ChildPlace.Past],
      Or.inr ⟨Or.inl (by rw [hplace]; trivial), hno⟩⟩
  next hplace =>
    obtain ⟨q, hq, rfl⟩ := Option.map_eq_some_iff.mp h
    have hkernel := hq
    simp only [ChildReaping.step] at hq
    split at hq
    next =>
      cases hq
      refine ⟨rfl, rfl, Or.inr ⟨_, hkernel⟩,
        fun j hj => ⟨frame j hj, Function.update_of_ne hj _ _⟩, ?_,
        Or.inr ⟨Or.inl (by rw [hplace]; trivial), ?_⟩⟩
      · simp [setChild, ChildPlace.Past]
      · simp [change, Stopped]
    next => cases hq
  next => cases h

/-- A step of another child does not concern child 0. -/
theorem goChild_quiet (h : goChild s k = some t) (hrun : Running (s.kernel.child k)) (hk : k ≠ 0) :
    Quiet s t := by
  obtain ⟨hnow, hparent, -, hframe, -⟩ := goChild_cases h hrun
  obtain ⟨hchild, hkernel⟩ := hframe 0 (Ne.symm hk)
  exact ⟨hnow, hparent, by rw [hchild], by rw [hkernel]; exact id, by rw [hkernel]⟩

theorem Phase.goChild (hs : Phase s) (h : step s (.goChild k) = some t) : Phase t := by
  obtain ⟨⟨hrun, -⟩, h⟩ := Option.ite_none_right_eq_some.mp h
  by_cases hk : k = 0
  · subst hk
    obtain ⟨-, hparent', -, -, hpast', hcase⟩ := goChild_cases h hrun
    cases hs with
    | unborn hparent => exact .unborn (hparent'.trans hparent)
    | ahead limit hahead =>
      rcases hcase with ⟨-, -, hstopped⟩ | ⟨hpast | ⟨hne, -⟩, -⟩
      · exact .stopped hpast' hstopped (hparent' ▸ hahead.not_pausing)
      · exact absurd hpast hahead.not_past
      · exact absurd rfl hne
    | stopped hpast hstopped => exact absurd hstopped (not_stopped_of_running hrun)
    | continued hpast hstopped hparent =>
      rcases hcase with ⟨hplace, -⟩ | ⟨-, hstopped'⟩
      · rw [hplace] at hpast
        exact hpast.elim
      · exact .continued hpast' hstopped' (hparent'.trans hparent)
  · exact hs.quiet (goChild_quiet h hrun hk)

theorem Phase.tick (hs : Phase s) (h : step s .tick = some t) : Phase t := by
  obtain ⟨⟨-, hchildren⟩, h⟩ := Option.ite_none_right_eq_some.mp h
  cases h
  cases hs with
  | unborn hparent => exact .unborn hparent
  | ahead limit h =>
    obtain ⟨hdue, hbusy⟩ := hchildren 0
    have hsleeping : (s.child 0).place = .sleeping limit := by
      refine h.first.resolve_right fun hawake => hbusy ⟨h.running, ?_⟩
      rw [hawake.1]
      trivial
    have hlt : s.now < limit := hdue limit (hsleeping ▸ rfl)
    refine .ahead limit { h with now_le := hlt, le_now := ?_, first := Or.inl hsleeping }
    exact Nat.le_trans h.le_now (Nat.add_le_add_right (Nat.le_succ _) 3)
  | stopped hpast hstopped hparent => exact .stopped hpast hstopped hparent
  | continued hpast hstopped hparent => exact .continued hpast hstopped hparent

theorem Phase.step (hs : Phase s) (hok : Undisturbed s a) (h : step s a = some t) : Phase t := by
  cases a with
  | fork => exact hs.fork h
  | sleep => exact hs.sleep h
  | wake => exact hs.wake h
  | kill => exact hs.kill h
  | deliver sig => exact hs.deliver hok h
  | deliverChild k sig => exact hs.deliverChild h
  | wakeChild k => exact hs.wakeChild h
  | goChild k => exact hs.goChild h
  | tick => exact hs.tick h
  | handler | send | sendChild | returnChild => exact hs.quiet (aside_quiet h trivial)

theorem StopsItself.step (hs : StopsItself s) (h : step s a = some t) : StopsItself t := by
  cases a with
  | fork =>
    obtain ⟨-, -, ⟨-, -, -, hchild⟩ | ⟨-, hplace, hchild⟩⟩ := fork_first h
    · exact fun hstopped => absurd hstopped (not_stopped_of_running (Or.inr hchild))
    · unfold StopsItself
      rwa [hplace, hchild]
  | kill => exact fun hstopped => absurd hstopped (kill_continues h).2.2.2
  | deliverChild k sig =>
    obtain ⟨hrun, hquiet | ⟨due, c, hdue, -, rfl⟩⟩ := deliverChild_cases h
    · exact hs.quiet hquiet
    · by_cases hk : k = 0
      · subst hk
        exact fun hstopped => absurd hstopped (not_stopped_of_running hrun)
      · exact hs.quiet (setChild_quiet fun h0 => absurd h0 hk)
  | wakeChild k =>
    obtain ⟨⟨hdue, -⟩, h⟩ := Option.ite_none_right_eq_some.mp h
    cases h
    by_cases hk : k = 0
    · subst hk
      exact fun hstopped => absurd (hs hstopped) (not_past_of_due hdue)
    · exact hs.quiet (setChild_quiet fun h0 => absurd h0 hk)
  | goChild k =>
    obtain ⟨⟨hrun, -⟩, h⟩ := Option.ite_none_right_eq_some.mp h
    by_cases hk : k = 0
    · subst hk
      exact fun _ => (goChild_cases h hrun).2.2.2.2.1
    · exact hs.quiet (goChild_quiet h hrun hk)
  | handler | send | sendChild | returnChild => exact hs.quiet (aside_quiet h trivial)
  | deliver sig =>
    obtain ⟨q, hq, rfl⟩ := Option.map_eq_some_iff.mp h
    obtain ⟨-, hq⟩ := Option.ite_none_right_eq_some.mp hq
    cases hq
    exact hs
  | sleep | wake | tick =>
    obtain ⟨-, h⟩ := Option.ite_none_right_eq_some.mp h
    cases h
    exact hs

/-- Each handler step of the parent brings it nearer to where none of its handlers is under way. -/
theorem handler_owed_lt (s : State) (a : Act) (t : State) (ha : ∃ reported, a = .handler reported)
    (h : step s a = some t) : t.kernel.owed < s.kernel.owed := by
  obtain ⟨reported, rfl⟩ := ha
  obtain ⟨q, hq, rfl⟩ := Option.map_eq_some_iff.mp h
  exact (step_changes hq).owed_lt trivial

/-- The handlers under way return, and the parent and child 0 are where they were. -/
theorem handlers_return (s : State) :
    ∃ es t, Trace step s es t ∧ t.kernel.stack = [] ∧ t.parent = s.parent ∧
      (Stopped (t.kernel.child 0) ↔ Stopped (s.kernel.child 0)) := by
  obtain ⟨es, t, hrun, hhandlers, hrest⟩ := Trace.exists_rest handler_owed_lt s
  have keep : ∀ u a v, (u.parent = s.parent ∧
      (Stopped (u.kernel.child 0) ↔ Stopped (s.kernel.child 0))) →
      (∃ reported, a = .handler reported) → step u a = some v →
      v.parent = s.parent ∧ (Stopped (v.kernel.child 0) ↔ Stopped (s.kernel.child 0)) := by
    rintro u a v ⟨hparent, hstopped⟩ ⟨reported, rfl⟩ hv
    have hq := handler_quiet hv
    exact ⟨hq.parent.trans hparent, hq.stopped.trans hstopped⟩
  obtain ⟨hparent, hstopped⟩ := hrun.invariant keep ⟨rfl, Iff.rfl⟩ hhandlers
  refine ⟨es, t, hrun, ?_, hparent, hstopped⟩
  cases hstack : t.kernel.stack with
  | nil => rfl
  | cons f frames =>
    obtain ⟨reported, hgo⟩ := runHandler_enabled t.kernel f frames
    have hnone := hrest (.handler reported) ⟨reported, rfl⟩
    simp only [SigcontTiming.step, ChildReaping.step, hstack, Option.map_eq_none_iff] at hnone
    rw [hnone] at hgo
    cases hgo

/-- Any signal that reaches the parent in its sleep before child 0 has stopped itself can have its
one `SIGCONT` sent in vain. -/
theorem early_signal_spends {es : List (Event State Act)} (h : Trace step start es s)
    (hearly : ¬ Undisturbed s a) (ha : step s a = some t) :
    ∃ es' u e, Trace step t es' u ∧ e ∈ es' ∧ e.label = .kill ∧
      ¬ Stopped (e.before.kernel.child 0) := by
  have keep : ∀ s a t, StopsItself s → True → step s a = some t → StopsItself t :=
    fun _ _ _ hs _ ht => hs.step ht
  have hs : StopsItself s := h.invariant keep (fun hstopped => hstopped.elim) fun _ _ => trivial
  cases a with
  | deliver sig =>
    obtain ⟨hdue, hpast⟩ := Classical.not_imp.mp hearly
    obtain ⟨q, hq, rfl⟩ := Option.map_eq_some_iff.mp ha
    obtain ⟨-, hq⟩ := Option.ite_none_right_eq_some.mp hq
    cases hq
    have hkilling : s.parent.interrupt = .killing := by
      cases hp : s.parent with
      | sleeping due => rfl
      | forking | killing | pausing =>
        rw [hp] at hdue
        exact absurd rfl hdue
    obtain ⟨es', u, hrun, hstack, hparent, hstopped⟩ := handlers_return { s with
      parent := s.parent.interrupt
      kernel := { s.kernel with
        pending := Function.update s.kernel.pending sig false
        stack := ⟨sig, .dispatch⟩ :: s.kernel.stack } }
    have hkill : step u .kill = some { u with
        parent := .pausing, kernel := (ChildReaping.step u.kernel (.cont 0)).getD u.kernel } :=
      if_pos ⟨hparent.trans hkilling, hstack⟩
    exact ⟨_, _, _, hrun.append (.cons hkill .nil), List.mem_append_right _ List.mem_cons_self, rfl,
      fun hlost => hpast (hs (hstopped.mp hlost))⟩
  | fork | sleep | wake | kill | send | handler | sendChild | deliverChild | returnChild | wakeChild
  | goChild | tick => exact absurd trivial hearly

theorem kernel_step (h : step s a = some t) :
    t.kernel = s.kernel ∨ ∃ b, ChildReaping.step s.kernel b = some t.kernel := by
  cases a with
  | fork =>
    obtain ⟨i, hi, -, -, hkernel, -⟩ := step_fork h
    exact Or.inr ⟨_, hkernel⟩
  | kill =>
    obtain ⟨-, h⟩ := Option.ite_none_right_eq_some.mp h
    cases h
    dsimp only
    cases hq : ChildReaping.step s.kernel (.cont 0) with
    | none => exact Or.inl rfl
    | some q => exact Or.inr ⟨_, hq⟩
  | send sig =>
    obtain ⟨-, h⟩ := Option.ite_none_right_eq_some.mp h
    obtain ⟨q, hq, rfl⟩ := Option.map_eq_some_iff.mp h
    exact Or.inr ⟨_, hq⟩
  | deliver | handler =>
    obtain ⟨q, hq, rfl⟩ := Option.map_eq_some_iff.mp h
    exact Or.inr ⟨_, hq⟩
  | goChild k =>
    obtain ⟨⟨hrun, -⟩, h⟩ := Option.ite_none_right_eq_some.mp h
    exact (goChild_cases h hrun).2.2.1
  | sleep | wake | sendChild | deliverChild | returnChild | wakeChild | tick =>
    obtain ⟨-, h⟩ := Option.ite_none_right_eq_some.mp h
    cases h
    exact Or.inl rfl

/-- What a run does to the children and the signals of the parent is a run of those alone. -/
theorem kernel_run {es : List (Event State Act)} (h : Trace step start es s) :
    ∃ es', Trace ChildReaping.step ChildReaping.start es' s.kernel :=
  h.image State.kernel fun _ _ _ => kernel_step

end

/-- When no signal reaches the sleeping parent before child 0 has stopped itself, the one `SIGCONT`
is sent while child 0 is stopped, and child 0 is never stopped behind it. -/
theorem sigcont_in_time {s : State} {es : List (Event State Act)} (h : Trace step start es s)
    (hok : ∀ e ∈ es, Undisturbed e.before e.label) :
    (∀ e ∈ es, e.label = .kill → Stopped (e.before.kernel.child 0)) ∧
      (s.parent = .pausing → ¬ Stopped (s.kernel.child 0)) := by
  have keep : ∀ s a t, Phase s → Undisturbed s a → step s a = some t → Phase t :=
    fun _ _ _ hs ha ht => hs.step ha ht
  have hstart : Phase start := .unborn rfl
  refine ⟨fun e he hkill => ?_, fun hpausing => ?_⟩
  · obtain ⟨hs, hstep⟩ := h.events keep hstart hok e he
    rw [hkill] at hstep
    obtain ⟨⟨hparent, -⟩, -⟩ := Option.ite_none_right_eq_some.mp hstep
    exact (hs.stopped_of_killing hparent).2
  · cases h.invariant keep hstart hok with
    | unborn hparent => cases hparent.symm.trans hpausing
    | ahead limit hahead => exact absurd hpausing hahead.not_pausing
    | stopped hpast hstopped hparent => exact absurd hpausing hparent
    | continued hpast hstopped hparent => exact hstopped

/-- Child 1 is interrupted while the parent still forks, and its `SIGCHLD` is served before the
sleep; child 0 stops itself in time and is continued. -/
def inTime : List Act :=
  [.fork, .fork, .sendChild 1 .sigint, .deliverChild 1 .sigint, .returnChild 1, .goChild 1,
    .returnChild 1, .goChild 1, .deliver .sigchld, .handler none, .handler (some 1), .handler none,
    .handler none, .handler none, .fork, .sleep, .tick, .tick, .tick, .wakeChild 0, .goChild 0,
    .deliver .sigchld, .handler none, .handler (some 0), .handler none, .handler none, .handler none,
    .kill, .goChild 0]

theorem sigcont_in_time_demo :
    (record step start inTime).length = inTime.length ∧
      ((∀ e ∈ record step start inTime, e.label = .kill → Stopped (e.before.kernel.child 0)) ∧
        ((last step start inTime).parent = .pausing →
          ¬ Stopped ((last step start inTime).kernel.child 0))) ∧
      (last step start inTime).parent = .pausing :=
  ⟨by decide, sigcont_in_time (Trace.recorded step start inTime) (by decide), by decide⟩

/-- A `SIGINT` for the parent in its first second of sleep. -/
def tooEarly : List Act :=
  [.fork, .fork, .fork, .sleep, .tick, .send .sigint, .deliver .sigint, .handler none, .handler none,
    .handler none, .kill, .tick, .tick, .wakeChild 0, .goChild 0]

/-- The `SIGCONT` is spent before child 0 stops, and nothing continues that any more. -/
theorem sigcont_spent :
    ¬ ∀ (s : State) (es : List (Event State Act)), Trace step start es s →
      (∀ e ∈ es, e.label = .kill → Stopped (e.before.kernel.child 0)) ∧
        (s.parent = .pausing → ¬ Stopped (s.kernel.child 0)) := by
  intro h
  obtain ⟨-, hlost⟩ := h _ _ (Trace.recorded step start tooEarly)
  exact hlost (by decide) (by decide)

end LinuxAssignment.SigcontTiming
