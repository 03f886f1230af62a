import LinuxAssignment.Cycles

namespace LinuxAssignment.Workqueue

open StepSystem Cycles Computability

/-- What the module writes to the kernel log. -/
inductive Line where
  | loaded
  | executing
  | completed
  | unloading
  | unloaded
  deriving DecidableEq

/-- Where the module is: not loaded, before `INIT_WORK`, before `schedule_work`, loaded, before
`flush_work`, before the last line. -/
inductive Module where
  | absent
  | initWork
  | scheduleWork
  | loaded
  | flushWork
  | flushed
  deriving DecidableEq

/-- Where `test_work_handler` is: not called, before its first line, in `msleep`, before its
return. -/
inductive Handler where
  | idle
  | called
  | msleep
  | done
  deriving DecidableEq

structure State where
  module : Module
  queued : Bool
  handler : Handler
  deriving DecidableEq

inductive Act where
  | testWqInit
  | testWqExit
  | worker
  deriving DecidableEq

def home : State := ⟨.absent, false, .idle⟩

/-- `schedule_work` does nothing to a work that is queued already. -/
def testWqInit (s : State) : Option State :=
  match s.module with
  | .absent => some { s with module := .initWork }
  | .initWork => some { s with module := .scheduleWork, queued := false, handler := .idle }
  | .scheduleWork => some { s with module := .loaded, queued := true }
  | _ => none

/-- `flush_work` returns once the work is neither queued nor in its handler. -/
def testWqExit (s : State) : Option State :=
  match s.module with
  | .loaded => some { s with module := .flushWork }
  | .flushWork =>
    if s.queued = false ∧ s.handler = .idle then some { s with module := .flushed } else none
  | .flushed => some { s with module := .absent }
  | _ => none

def testWorkHandler (s : State) : Option State :=
  match s.handler with
  | .idle => if s.queued then some { s with queued := false, handler := .called } else none
  | .called => some { s with handler := .msleep }
  | .msleep => some { s with handler := .done }
  | .done => some { s with handler := .idle }

def step (s : State) : Act → Option State
  | .testWqInit => testWqInit s
  | .testWqExit => testWqExit s
  | .worker => testWorkHandler s

/-- What a step writes to the log. -/
def out (e : Event State Act) : List Line :=
  match e.label with
  | .testWqInit => if e.before.module = .absent then [.loaded] else []
  | .testWqExit =>
    match e.before.module with
    | .loaded => [.unloading]
    | .flushed => [.unloaded]
    | _ => []
  | .worker =>
    match e.before.handler with
    | .called => [.executing]
    | .msleep => [.completed]
    | _ => []

/-- The log from a load to the end of the unload, by how far the handler is when the module is
removed. -/
def cycle : Language Line :=
  {w | w ∈ [[.loaded, .executing, .completed, .unloading, .unloaded],
    [.loaded, .executing, .unloading, .completed, .unloaded],
    [.loaded, .unloading, .executing, .completed, .unloaded]]}

inductive Before : Module → List Line → Prop
  | loaded : Before .loaded [.loaded]
  | removed : Before .flushWork [.loaded, .unloading]

inductive Between : Module → List Line → Prop
  | loaded : Between .loaded [.loaded, .executing]
  | removed : Between .flushWork [.loaded, .executing, .unloading]
  | earlier : Between .flushWork [.loaded, .unloading, .executing]

inductive After : Module → List Line → Prop
  | loaded : After .loaded [.loaded, .executing, .completed]
  | removed : After .flushWork [.loaded, .executing, .completed, .unloading]
  | meanwhile : After .flushWork [.loaded, .executing, .unloading, .completed]
  | earlier : After .flushWork [.loaded, .unloading, .executing, .completed]

/-- The states of a round, and what has been logged in it. -/
inductive Since : State → List Line → Prop
  | home : Since home []
  | initWork : Since ⟨.initWork, false, .idle⟩ [.loaded]
  | scheduleWork : Since ⟨.scheduleWork, false, .idle⟩ [.loaded]
  | queued {m w} : Before m w → Since ⟨m, true, .idle⟩ w
  | called {m w} : Before m w → Since ⟨m, false, .called⟩ w
  | msleep {m w} : Between m w → Since ⟨m, false, .msleep⟩ w
  | done {m w} : After m w → Since ⟨m, false, .done⟩ w
  | served {m w} : After m w → Since ⟨m, false, .idle⟩ w
  | flushed {w} : After .flushWork w → Since ⟨.flushed, false, .idle⟩ w

section

variable {s s' : State} {a : Act} {m m' : Module} {w o : List Line} {es : List (Event State Act)}

inductive Fires (s : State) : Act → State → List Line → Prop
  | load : s.module = .absent → Fires s .testWqInit { s with module := .initWork } [.loaded]
  | initWork : s.module = .initWork →
      Fires s .testWqInit { s with module := .scheduleWork, queued := false, handler := .idle } []
  | scheduleWork : s.module = .scheduleWork →
      Fires s .testWqInit { s with module := .loaded, queued := true } []
  | unload : s.module = .loaded → Fires s .testWqExit { s with module := .flushWork } [.unloading]
  | flushWork : s.module = .flushWork → s.queued = false → s.handler = .idle →
      Fires s .testWqExit { s with module := .flushed } []
  | unloaded : s.module = .flushed → Fires s .testWqExit { s with module := .absent } [.unloaded]
  | call : s.handler = .idle → s.queued = true →
      Fires s .worker { s with queued := false, handler := .called } []
  | executing : s.handler = .called → Fires s .worker { s with handler := .msleep } [.executing]
  | completed : s.handler = .msleep → Fires s .worker { s with handler := .done } [.completed]
  | returned : s.handler = .done → Fires s .worker { s with handler := .idle } []

theorem fires_of_step (h : step s a = some s') : Fires s a s' (out ⟨s, a, s'⟩) := by
  cases a with
  | testWqInit =>
    simp only [step, testWqInit] at h
    split at h
    next hm => cases h; simpa [out, hm] using Fires.load hm
    next hm => cases h; simpa [out, hm] using Fires.initWork hm
    next hm => cases h; simpa [out, hm] using Fires.scheduleWork hm
    next => cases h
  | testWqExit =>
    simp only [step, testWqExit] at h
    split at h
    next hm => cases h; simpa [out, hm] using Fires.unload hm
    next hm =>
      obtain ⟨⟨hq, hh⟩, h⟩ := Option.ite_none_right_eq_some.mp h
      cases h
      simpa [out, hm] using Fires.flushWork hm hq hh
    next hm => cases h; simpa [out, hm] using Fires.unloaded hm
    next => cases h
  | worker =>
    simp only [step, testWorkHandler] at h
    split at h
    next hh =>
      obtain ⟨hq, h⟩ := Option.ite_none_right_eq_some.mp h
      cases h
      simpa [out, hh] using Fires.call hh hq
    next hh => cases h; simpa [out, hh] using Fires.executing hh
    next hh => cases h; simpa [out, hh] using Fires.completed hh
    next hh => cases h; simpa [out, hh] using Fires.returned hh

theorem Before.here (h : Before m w) : m = .loaded ∨ m = .flushWork := by
  cases h with
  | loaded => exact Or.inl rfl
  | removed => exact Or.inr rfl

theorem Between.here (h : Between m w) : m = .loaded ∨ m = .flushWork := by
  cases h with
  | loaded => exact Or.inl rfl
  | removed | earlier => exact Or.inr rfl

theorem After.here (h : After m w) : m = .loaded ∨ m = .flushWork := by
  cases h with
  | loaded => exact Or.inl rfl
  | removed | meanwhile | earlier => exact Or.inr rfl

theorem Before.unload (h : Before .loaded w) : Before .flushWork (w ++ [.unloading]) := by
  cases h
  exact .removed

theorem Between.unload (h : Between .loaded w) : Between .flushWork (w ++ [.unloading]) := by
  cases h
  exact .removed

theorem After.unload (h : After .loaded w) : After .flushWork (w ++ [.unloading]) := by
  cases h
  exact .removed

theorem Before.execute (h : Before m w) : Between m (w ++ [.executing]) := by
  cases h with
  | loaded => exact .loaded
  | removed => exact .earlier

theorem Between.complete (h : Between m w) : After m (w ++ [.completed]) := by
  cases h with
  | loaded => exact .loaded
  | removed => exact .meanwhile
  | earlier => exact .earlier

theorem After.unloaded (h : After .flushWork w) : w ++ [.unloaded] ∈ cycle := by
  cases h with
  | removed => exact List.mem_cons_self
  | meanwhile => exact List.mem_cons_of_mem _ List.mem_cons_self
  | earlier => exact List.mem_cons_of_mem _ (List.mem_cons_of_mem _ List.mem_cons_self)

/-- Once the work is scheduled, the module can only be removed, and that waits for the work. -/
inductive Moves (s : State) : State → List Line → Prop
  | unload : s.module = .loaded → Moves s { s with module := .flushWork } [.unloading]
  | flushWork : s.module = .flushWork → s.queued = false → s.handler = .idle →
      Moves s { s with module := .flushed } []
  | worker {q x o} : Fires s .worker { s with queued := q, handler := x } o →
      Moves s { s with queued := q, handler := x } o

theorem Fires.moves (h : Fires s a s' o) (hm : s.module = .loaded ∨ s.module = .flushWork) :
    Moves s s' o := by
  cases h with
  | load hl => rw [hl] at hm; rcases hm with hm | hm <;> cases hm
  | initWork hl => rw [hl] at hm; rcases hm with hm | hm <;> cases hm
  | scheduleWork hl => rw [hl] at hm; rcases hm with hm | hm <;> cases hm
  | unloaded hl => rw [hl] at hm; rcases hm with hm | hm <;> cases hm
  | unload hl => exact .unload hl
  | flushWork hl hq hh => exact .flushWork hl hq hh
  | call hh hq => exact .worker (.call hh hq)
  | executing hh => exact .worker (.executing hh)
  | completed hh => exact .worker (.completed hh)
  | returned hh => exact .worker (.returned hh)

theorem Since.carry (hs : Since s w) (h : Fires s a s' o) :
    Since s' (w ++ o) ∨ s' = Workqueue.home ∧ w ++ o ∈ cycle := by
  cases hs with
  | home =>
    cases h with
    | load => exact Or.inl .initWork
    | _ => contradiction
  | initWork =>
    cases h with
    | initWork => exact Or.inl .scheduleWork
    | _ => contradiction
  | scheduleWork =>
    cases h with
    | scheduleWork => exact Or.inl (.queued .loaded)
    | _ => contradiction
  | queued hw =>
    left
    cases h.moves hw.here with
    | unload hm => cases hm; exact .queued hw.unload
    | flushWork => contradiction
    | worker hworker =>
      cases hworker with
      | call => exact .called (by rwa [List.append_nil])
      | _ => contradiction
  | called hw =>
    left
    cases h.moves hw.here with
    | unload hm => cases hm; exact .called hw.unload
    | flushWork => contradiction
    | worker hworker =>
      cases hworker with
      | executing => exact .msleep hw.execute
      | _ => contradiction
  | msleep hw =>
    left
    cases h.moves hw.here with
    | unload hm => cases hm; exact .msleep hw.unload
    | flushWork => contradiction
    | worker hworker =>
      cases hworker with
      | completed => exact .done hw.complete
      | _ => contradiction
  | done hw =>
    left
    cases h.moves hw.here with
    | unload hm => cases hm; exact .done hw.unload
    | flushWork => contradiction
    | worker hworker =>
      cases hworker with
      | returned => exact .served (by rwa [List.append_nil])
      | _ => contradiction
  | served hw =>
    left
    cases h.moves hw.here with
    | unload hm => cases hm; exact .served hw.unload
    | flushWork hm => cases hm; exact .flushed (by rwa [List.append_nil])
    | worker hworker =>
      cases hworker with
      | _ => contradiction
  | flushed hw =>
    cases h with
    | unloaded => exact Or.inr ⟨rfl, hw.unloaded⟩
    | _ => contradiction

theorem tracks : Tracks step out Workqueue.home cycle Since :=
  ⟨.home, fun hs h => hs.carry (fires_of_step h)⟩

theorem Since.idle (hs : Since s w) (hm : ¬ (s.module = .loaded ∨ s.module = .flushWork)) :
    s.queued = false ∧ s.handler = .idle := by
  cases hs with
  | home | initWork | scheduleWork | flushed => exact ⟨rfl, rfl⟩
  | queued hw | called hw => exact absurd hw.here hm
  | msleep hw => exact absurd hw.here hm
  | done hw | served hw => exact absurd hw.here hm

theorem Since.absent (hs : Since s w) (hm : s.module = .absent) : s = Workqueue.home ∧ w = [] := by
  cases hs with
  | home => exact ⟨rfl, rfl⟩
  | initWork | scheduleWork | flushed => cases hm
  | queued hw | called hw => cases hm; cases hw
  | msleep hw => cases hm; cases hw
  | done hw | served hw => cases hm; cases hw

/-- One load and unload in which the handler takes so many of its steps before the unload. -/
def schedule (before : Nat) : List Act :=
  List.replicate 3 .testWqInit ++ List.replicate before .worker ++ [.testWqExit] ++
    List.replicate (4 - before) .worker ++ List.replicate 2 .testWqExit

theorem cycle_run (hw : w ∈ cycle) :
    ∃ es, Trace step Workqueue.home es Workqueue.home ∧ logged out es = w := by
  have run (n : Nat) (hlast : last step Workqueue.home (schedule n) = Workqueue.home) :
      Trace step Workqueue.home (record step Workqueue.home (schedule n)) Workqueue.home := by
    have h := Trace.recorded step Workqueue.home (schedule n)
    rwa [hlast] at h
  rcases List.mem_cons.mp hw with rfl | hw
  · exact ⟨_, run 4 rfl, rfl⟩
  rcases List.mem_cons.mp hw with rfl | hw
  · exact ⟨_, run 2 rfl, rfl⟩
  · obtain rfl := List.mem_singleton.mp hw
    exact ⟨_, run 0 rfl, rfl⟩

/-- The logs of the runs after which the module is not there are the sequences of full cycles. -/
theorem log_iff (log : List Line) :
    (∃ es s, Trace step Workqueue.home es s ∧ s.module = .absent ∧ logged out es = log) ↔
      log ∈ cycle∗ := by
  rw [← tracks.logged_iff (fun w hw => (hw.absent rfl).2) (fun w hw => cycle_run hw)]
  constructor
  · rintro ⟨es, s, h, hm, hlog⟩
    obtain ⟨-, -, w, hw, -⟩ := tracks.run h
    obtain ⟨rfl, -⟩ := hw.absent hm
    exact ⟨es, h, hlog⟩
  · rintro ⟨es, h, hlog⟩
    exact ⟨es, Workqueue.home, h, rfl, hlog⟩

/-- How many steps the handler and `test_wq_exit` still take, once that is in `flush_work`. -/
def left (s : State) : Nat :=
  (if s.queued then 4 else 0) +
    (match s.handler with
    | .idle => 0
    | .called => 3
    | .msleep => 2
    | .done => 1) +
    match s.module with
    | .flushWork => 2
    | .flushed => 1
    | _ => 0

def Unloading (s : State) : Prop := s.module = .flushWork ∨ s.module = .flushed

theorem Since.left_step (hs : Since s w) (hu : Unloading s) (h : Fires s a s' o) :
    s' = Workqueue.home ∨ Unloading s' ∧ left s' + 1 = left s := by
  have hout : ∀ {m : Module}, s.module = m → m ≠ .flushWork → m ≠ .flushed → False :=
    fun hm hflush hdone => hu.elim (fun h => hflush (hm.symm.trans h)) fun h => hdone (hm.symm.trans h)
  cases h with
  | load hm => exact (hout hm (by decide) (by decide)).elim
  | initWork hm => exact (hout hm (by decide) (by decide)).elim
  | scheduleWork hm => exact (hout hm (by decide) (by decide)).elim
  | unload hm => exact (hout hm (by decide) (by decide)).elim
  | flushWork hm hq hh => exact Or.inr ⟨Or.inr rfl, by simp only [left, hm, hq, hh]⟩
  | unloaded hm =>
    obtain ⟨hq, hh⟩ := hs.idle (by rw [hm]; decide)
    left
    simp only [hq, hh, Workqueue.home]
  | call hh hq =>
    refine Or.inr ⟨hu, ?_⟩
    simp only [left, hh, hq]
    simp +arith
  | executing hh =>
    refine Or.inr ⟨hu, ?_⟩
    simp only [left, hh]
    omega
  | completed hh =>
    refine Or.inr ⟨hu, ?_⟩
    simp only [left, hh]
    omega
  | returned hh =>
    refine Or.inr ⟨hu, ?_⟩
    simp only [left, hh]
    omega

theorem left_bounds (hu : Unloading s) : 1 ≤ left s := by
  unfold left
  rcases hu with hm | hm <;> simp [hm]

/-- Each step brings the unload nearer, until it is over. -/
theorem unload_run (h : Trace step s es s') (hs : Since s w) (hu : Unloading s) :
    (∃ e ∈ es, e.after = Workqueue.home) ∨ Unloading s' ∧ left s' + es.length = left s := by
  induction h generalizing w with
  | nil => exact Or.inr ⟨hu, rfl⟩
  | @cons s t u a es hstep _ ih =>
    have hfires := fires_of_step hstep
    rcases hs.left_step hu hfires with hhome | ⟨ht, hleft⟩
    · exact Or.inl ⟨_, List.mem_cons_self, hhome⟩
    rcases hs.carry hfires with hopen | ⟨hhome, -⟩
    · rcases ih hopen ht with ⟨e, he, hhome⟩ | ⟨hu', hrest⟩
      · exact Or.inl ⟨e, List.mem_cons_of_mem _ he, hhome⟩
      · refine Or.inr ⟨hu', ?_⟩
        rw [List.length_cons]
        omega
    · exact Or.inl ⟨_, List.mem_cons_self, hhome⟩

theorem Since.left_le (hs : Since s w) : left s ≤ 6 := by
  cases hs with
  | home | initWork | scheduleWork | flushed => decide
  | queued hw => cases hw <;> decide
  | called hw => cases hw <;> decide
  | msleep hw => cases hw <;> decide
  | done hw => cases hw <;> decide
  | served hw => cases hw <;> decide

theorem Since.enabled (hs : Since s w) : ∃ a s', step s a = some s' := by
  cases hs with
  | home => exact ⟨.testWqInit, _, rfl⟩
  | initWork => exact ⟨.testWqInit, _, rfl⟩
  | scheduleWork => exact ⟨.testWqInit, _, rfl⟩
  | queued => exact ⟨.worker, _, rfl⟩
  | called => exact ⟨.worker, _, rfl⟩
  | msleep => exact ⟨.worker, _, rfl⟩
  | done => exact ⟨.worker, _, rfl⟩
  | served hw => cases hw <;> exact ⟨.testWqExit, _, rfl⟩
  | flushed => exact ⟨.testWqExit, _, rfl⟩

/-- `INIT_WORK` and the end of the unload find the work idle, the system never gets stuck, and once
`test_wq_exit` is in `flush_work`, any six steps end the unload. -/
theorem unload_waits (h : Trace step Workqueue.home es s) :
    (s.module = .absent ∨ s.module = .initWork → s.queued = false ∧ s.handler = .idle) ∧
      (∃ a s', step s a = some s') ∧
      (s.module = .flushWork → ∀ es' s', Trace step s es' s' → 6 ≤ es'.length →
        ∃ e ∈ es', e.after = Workqueue.home) := by
  obtain ⟨-, -, w, hw, -⟩ := tracks.run h
  have hidle : s.module = .absent ∨ s.module = .initWork → s.queued = false ∧ s.handler = .idle := by
    intro hm
    apply hw.idle
    rcases hm with hm | hm <;> rw [hm] <;> decide
  refine ⟨hidle, hw.enabled, fun hm es' s' h' hlong => ?_⟩
  rcases unload_run h' hw (Or.inl hm) with hover | ⟨hu, hleft⟩
  · exact hover
  · have hpos := left_bounds hu
    have hle := hw.left_le
    omega

end

/-- Removed at once, before the work has been called. -/
def earlyRemoval : List Act := [.testWqInit, .testWqInit, .testWqInit, .testWqExit]

theorem earlyRemoval_ends :
    (record step home earlyRemoval).length = earlyRemoval.length ∧
    ∃ e ∈ record step (last step home earlyRemoval)
      (List.replicate 4 .worker ++ List.replicate 2 .testWqExit), e.after = home :=
  ⟨rfl, (unload_waits (Trace.recorded step home earlyRemoval)).2.2 rfl _ _
    (Trace.recorded step (last step home earlyRemoval) _) (by decide)⟩

end LinuxAssignment.Workqueue
