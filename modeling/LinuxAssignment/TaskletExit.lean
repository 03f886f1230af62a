import LinuxAssignment.StepSystem

namespace LinuxAssignment.Tasklet

open StepSystem

/-- How far `my_exit` is: not called, before the return of `tasklet_kill`, before `free_irq`, in it
with the handler already removed, returned. -/
inductive Exit where
  | loaded
  | taskletKill
  | freeIrq
  | synchronize
  | returned
  deriving DecidableEq

/-- The registration of `interrupt_handler`, its calls under way before and after
`tasklet_schedule`, and `my_tasklet`. -/
structure State where
  registered : Bool
  entered : Nat
  scheduled : Nat
  queued : Bool
  running : Bool
  exit : Exit
  deriving DecidableEq

inductive Act where
  | irq
  | taskletSchedule
  | irqHandled
  | taskletWork
  | taskletDone
  | myExit
  deriving DecidableEq

/-- The return value of `my_init`, which is that of `request_irq`, and the state it leaves. -/
def myInit (requestIrq : Int) : Int × State :=
  (requestIrq, ⟨requestIrq = 0, 0, 0, false, false, .loaded⟩)

def loaded : State := (myInit 0).2

def myExit (s : State) : Option State :=
  match s.exit with
  | .loaded => some { s with exit := .taskletKill }
  | .taskletKill =>
    if s.queued = false ∧ s.running = false then some { s with exit := .freeIrq } else none
  | .freeIrq => some { s with registered := false, exit := .synchronize }
  | .synchronize =>
    if s.entered = 0 ∧ s.scheduled = 0 then some { s with exit := .returned } else none
  | .returned => none

def step (s : State) : Act → Option State
  | .irq => if s.registered then some { s with entered := s.entered + 1 } else none
  | .taskletSchedule =>
    if 0 < s.entered then
      some { s with entered := s.entered - 1, scheduled := s.scheduled + 1, queued := true }
    else none
  | .irqHandled => if 0 < s.scheduled then some { s with scheduled := s.scheduled - 1 } else none
  | .taskletWork =>
    if s.queued ∧ s.running = false then some { s with queued := false, running := true } else none
  | .taskletDone => if s.running then some { s with running := false } else none
  | .myExit => myExit s

/-- `tasklet_kill` has returned. -/
def Exit.Killed (x : Exit) : Prop := x = .freeIrq ∨ x = .synchronize ∨ x = .returned

instance (x : Exit) : Decidable x.Killed :=
  inferInstanceAs (Decidable (x = .freeIrq ∨ x = .synchronize ∨ x = .returned))

def Idle (s : State) : Prop := s.queued = false ∧ s.running = false

instance (s : State) : Decidable (Idle s) :=
  inferInstanceAs (Decidable (s.queued = false ∧ s.running = false))

/-- Once `my_exit` has returned, the tasklet is idle, and `tasklet_work` did not run after that. -/
def LeavesNothing (es : List (Event State Act)) (s : State) : Prop :=
  (s.exit = .returned → Idle s) ∧
    ∀ e ∈ es, e.before.exit = .returned → e.label ≠ .taskletWork

/-- No interrupt schedules the tasklet after `tasklet_kill` has returned. -/
def Quiet (s : State) (a : Act) : Prop := a = .taskletSchedule → ¬ s.exit.Killed

instance (s : State) (a : Act) : Decidable (Quiet s a) :=
  inferInstanceAs (Decidable (a = .taskletSchedule → ¬ s.exit.Killed))

/-- What `free_irq` makes sure of. -/
structure Unhooked (s : State) : Prop where
  handlers : s.exit = .synchronize ∨ s.exit = .returned → s.registered = false
  gone : s.exit = .returned → s.entered = 0 ∧ s.scheduled = 0

section

variable {s s' : State} {a : Act} {es : List (Event State Act)}

inductive Fires (s : State) : Act → State → Prop
  | irq : s.registered = true → Fires s .irq { s with entered := s.entered + 1 }
  | taskletSchedule : 0 < s.entered → Fires s .taskletSchedule
      { s with entered := s.entered - 1, scheduled := s.scheduled + 1, queued := true }
  | irqHandled : 0 < s.scheduled → Fires s .irqHandled { s with scheduled := s.scheduled - 1 }
  | taskletWork : s.queued = true → s.running = false →
      Fires s .taskletWork { s with queued := false, running := true }
  | taskletDone : s.running = true → Fires s .taskletDone { s with running := false }
  | exitCalled : s.exit = .loaded → Fires s .myExit { s with exit := .taskletKill }
  | killed : s.exit = .taskletKill → Idle s → Fires s .myExit { s with exit := .freeIrq }
  | removed : s.exit = .freeIrq →
      Fires s .myExit { s with registered := false, exit := .synchronize }
  | exited : s.exit = .synchronize → s.entered = 0 → s.scheduled = 0 →
      Fires s .myExit { s with exit := .returned }

theorem fires_of_step (h : step s a = some s') : Fires s a s' := by
  cases a with
  | myExit =>
    simp only [step, myExit] at h
    split at h
    next hx => cases h; exact .exitCalled hx
    next hx =>
      obtain ⟨hidle, h⟩ := Option.ite_none_right_eq_some.mp h
      cases h
      exact .killed hx hidle
    next hx => cases h; exact .removed hx
    next hx =>
      obtain ⟨hgone, h⟩ := Option.ite_none_right_eq_some.mp h
      cases h
      exact .exited hx hgone.1 hgone.2
    next => cases h
  | irq =>
    obtain ⟨hg, h⟩ := Option.ite_none_right_eq_some.mp h
    cases h
    exact .irq hg
  | taskletSchedule =>
    obtain ⟨hg, h⟩ := Option.ite_none_right_eq_some.mp h
    cases h
    exact .taskletSchedule hg
  | irqHandled =>
    obtain ⟨hg, h⟩ := Option.ite_none_right_eq_some.mp h
    cases h
    exact .irqHandled hg
  | taskletWork =>
    obtain ⟨hg, h⟩ := Option.ite_none_right_eq_some.mp h
    cases h
    exact .taskletWork hg.1 hg.2
  | taskletDone =>
    obtain ⟨hg, h⟩ := Option.ite_none_right_eq_some.mp h
    cases h
    exact .taskletDone hg

theorem Unhooked.step (hs : Unhooked s) (h : step s a = some s') : Unhooked s' := by
  cases fires_of_step h with
  | irq hreg =>
    refine ⟨hs.handlers, fun hx => ?_⟩
    have := hs.handlers (Or.inr hx)
    rw [hreg] at this
    cases this
  | taskletSchedule hpos =>
    refine ⟨hs.handlers, fun hx => ?_⟩
    have := (hs.gone hx).1
    omega
  | irqHandled hpos =>
    refine ⟨hs.handlers, fun hx => ?_⟩
    have := (hs.gone hx).2
    omega
  | taskletWork | taskletDone => exact ⟨hs.handlers, hs.gone⟩
  | exitCalled | killed => exact ⟨by simp, by simp⟩
  | removed => exact ⟨fun _ => rfl, by simp⟩
  | exited hx he hsch => exact ⟨fun _ => hs.handlers (Or.inl hx), fun _ => ⟨he, hsch⟩⟩

/-- Only a call of `tasklet_schedule` rouses the tasklet once `tasklet_kill` has returned. -/
theorem idle_step (hs : s.exit.Killed → Idle s) (hq : Quiet s a) (h : step s a = some s') :
    s'.exit.Killed → Idle s' := by
  cases fires_of_step h with
  | irq | irqHandled => exact hs
  | taskletSchedule => exact fun hk => absurd hk (hq rfl)
  | taskletWork hqueued =>
    intro hk
    have := (hs hk).1
    rw [hqueued] at this
    cases this
  | taskletDone => exact fun hk => ⟨(hs hk).1, rfl⟩
  | exitCalled => simp [Exit.Killed]
  | killed _ hidle => exact fun _ => hidle
  | removed hx => exact fun _ => hs (Or.inl hx)
  | exited hx => exact fun _ => hs (Or.inr (Or.inl hx))

theorem idle_run (h : Trace step loaded es s) (hq : ∀ e ∈ es, Quiet e.before e.label) :
    (s.exit.Killed → Idle s) ∧ ∀ e ∈ es, (e.before.exit.Killed → Idle e.before) ∧
      step e.before e.label = some e.after := by
  have keep : ∀ s a s', (s.exit.Killed → Idle s) → Quiet s a → step s a = some s' →
      (s'.exit.Killed → Idle s') := fun _ _ _ hs hq hstep => idle_step hs hq hstep
  have hstart : loaded.exit.Killed → Idle loaded := by decide
  exact ⟨h.invariant keep hstart hq, h.events keep hstart hq⟩

/-- Unloading leaves no tasklet behind in a run in which none is scheduled after `tasklet_kill`. -/
theorem exit_leaves_nothing (h : Trace step loaded es s)
    (hq : ∀ e ∈ es, Quiet e.before e.label) : LeavesNothing es s := by
  obtain ⟨hend, hevents⟩ := idle_run h hq
  refine ⟨fun hx => hend (Or.inr (Or.inr hx)), fun e he hx hwork => ?_⟩
  obtain ⟨hidle, hstep⟩ := hevents e he
  have hqueued := (hidle (Or.inr (Or.inr hx))).1
  rw [hwork] at hstep
  simp [step, hqueued] at hstep

/-- One interrupt is served before the unload, by a softirq that `tasklet_kill` waits for. -/
def servedInterrupt : List Act :=
  [.irq, .taskletSchedule, .irqHandled, .myExit, .taskletWork, .taskletDone, .myExit, .myExit,
    .myExit]

theorem exit_leaves_nothing_served :
    (record step loaded servedInterrupt).length = servedInterrupt.length ∧
    LeavesNothing (record step loaded servedInterrupt) (last step loaded servedInterrupt) ∧
      (last step loaded servedInterrupt).exit = .returned :=
  ⟨by decide, exit_leaves_nothing (Trace.recorded _ _ _) (by decide), by decide⟩

/-- One interrupt arrives between the two statements of `my_exit`. -/
def lateInterrupt : List Act :=
  [.myExit, .myExit, .irq, .taskletSchedule, .irqHandled, .myExit, .myExit, .taskletWork]

theorem late_interrupt_left_over :
    ¬ ∀ (es : List (Event State Act)) (s : State), Trace step loaded es s → LeavesNothing es s := by
  intro h
  have hrun := h _ _ (Trace.recorded step loaded lateInterrupt)
  exact absurd (hrun.2 _ (List.mem_of_getLast? rfl) rfl) (by decide)

theorem handlers_finish (n : Nat) (hx : s.exit = .synchronize) (hqueued : s.queued = true)
    (hn : 2 * s.entered + s.scheduled = n) :
    ∃ es u, Trace step s es u ∧ u.exit = .returned ∧ u.queued = true := by
  induction n using Nat.strongRecOn generalizing s with
  | _ n ih =>
    by_cases hsch : 0 < s.scheduled
    · obtain ⟨es, u, hrun, hu⟩ := ih (n - 1) (by omega)
        (s := { s with scheduled := s.scheduled - 1 }) hx hqueued (by simp only; omega)
      exact ⟨_, u, .cons (a := .irqHandled) (by simp [step, hsch]) hrun, hu⟩
    · by_cases hent : 0 < s.entered
      · obtain ⟨es, u, hrun, hu⟩ := ih (n - 1) (by omega)
          (s := { s with entered := s.entered - 1, scheduled := s.scheduled + 1, queued := true })
          hx rfl (by simp only; omega)
        exact ⟨_, u, .cons (a := .taskletSchedule) (by simp [step, hent]) hrun, hu⟩
      · refine ⟨_, { s with exit := .returned }, .cons (a := .myExit) ?_ .nil, rfl, hqueued⟩
        have hgone : s.entered = 0 ∧ s.scheduled = 0 := by omega
        simp [step, myExit, hx, hgone]

/-- Any call of `tasklet_schedule` after `tasklet_kill` can outlive `my_exit`. -/
theorem late_schedule_outlives (h : Trace step loaded es s) (hk : s.exit.Killed)
    (hsched : step s .taskletSchedule = some s') :
    ∃ es' u, Trace step s' es' u ∧ u.exit = .returned ∧ u.queued = true := by
  have keep : ∀ s a s', Unhooked s → True → step s a = some s' → Unhooked s' :=
    fun _ _ _ hs _ hstep => hs.step hstep
  have hs : Unhooked s := h.invariant keep ⟨by decide, by decide⟩ (fun _ _ => trivial)
  cases fires_of_step hsched with
  | taskletSchedule hpos =>
    rcases hk with hx | hx | hx
    · obtain ⟨es', u, hrun, hu⟩ := handlers_finish (s := { s with
        registered := false, entered := s.entered - 1, scheduled := s.scheduled + 1,
        queued := true, exit := .synchronize }) _ rfl rfl rfl
      exact ⟨_, u, .cons (a := .myExit) (by simp [step, myExit, hx]) hrun, hu⟩
    · exact handlers_finish _ hx rfl rfl
    · have := (hs.gone hx).1
      omega

end

end LinuxAssignment.Tasklet
