import LinuxAssignment.SocketRelay

namespace LinuxAssignment.SocketRelay

open StepSystem

/-- The bytes read so far, from stdin and from the socketpair. -/
def State.consumed (s : State) : Nat := s.input.length + s.received.flatten.length

/-- Stdin is at its end and nothing is in flight. -/
def State.Drained (s : State) : Prop := s.eof = true ∧ s.arrived = [] ∧ s.inFlight = []

instance (s : State) : Decidable s.Drained :=
  inferInstanceAs (Decidable (s.eof = true ∧ s.arrived = [] ∧ s.inFlight = []))

/-- The events that the pass has still to serve. -/
def Pc.ahead : Pc → List Fd
  | .events evs | .write _ evs => evs
  | .wait | .left => []

/-- There is something to read for an event that the pass has still to serve. -/
def State.HasWork (s : State) : Prop :=
  .stdin ∈ s.pc.ahead ∧ s.arrived ≠ [] ∨ .socket ∈ s.pc.ahead ∧ s.inFlight ≠ []

def Act.Waits : Act → Prop
  | .epollWait _ => True
  | _ => False

instance : (a : Act) → Decidable a.Waits
  | .epollWait _ => isTrue trivial
  | .arrive _ | .endOfFile | .epollFails | .go => isFalse id

def Act.bytes : Act → List UInt8
  | .arrive bytes => bytes
  | _ => []

/-- What arrived on stdin in a run. -/
def arrivals (es : List (Event State Act)) : List UInt8 := es.flatMap fun e => e.label.bytes

/-- The passes that a run began, one with each return of `epoll_wait`. -/
def passes (es : List (Event State Act)) : Nat := es.countP fun e => e.label.Waits

/-- A whole pass of the run, from one `epoll_wait` to the next. -/
def Pass (capacity : Nat) (es : List (Event State Act)) (s u : State) : Prop :=
  ∃ past evs t mid later, es = past ++ ⟨s, .epollWait evs, t⟩ :: mid ++ later ∧
    Trace (step capacity) t mid u ∧ (∀ e ∈ mid, e.before.pc ≠ .wait) ∧ u.pc = .wait

/-- Nothing to read and nothing in the buffer. -/
structure Idle (s : State) : Prop where
  drained : s.Drained
  held : s.pc.held = []

section

variable {capacity : Nat} {s s' : State} {a : Act} {evs : List Fd}

theorem not_work (h : s.pc.ahead = []) : ¬ s.HasWork := by
  simp [State.HasWork, h]

theorem consumed_mono (h : step capacity s a = some s') : s.consumed ≤ s'.consumed := by
  cases moves_of_step h with
  | arrive | endOfFile | wait | fails | endPass | passStdin | passSocket | write =>
    exact Nat.le_refl _
  | readStdin | readSocket =>
    simp only [State.consumed, List.flatten_append, List.length_append]
    omega

/-- A step of a pass with something to read reads it or leaves it to the rest of the pass. -/
theorem work_step (hw : s.HasWork) (h : step capacity s a = some s') :
    s.consumed < s'.consumed ∨ s'.HasWork := by
  cases moves_of_step h with
  | arrive bytes => exact Or.inr (hw.imp_left (And.imp_right fun hne => by simp [hne]))
  | endOfFile => exact Or.inr hw
  | wait evs hpc | fails hpc | endPass hpc => exact absurd hw (not_work (hpc ▸ rfl))
  | passStdin evs hpc hnone =>
    refine Or.inr (Or.inr ?_)
    simpa [State.HasWork, hpc, Pc.ahead, hnone] using hw
  | passSocket evs hpc hnone =>
    refine Or.inr (Or.inl ?_)
    simpa [State.HasWork, hpc, Pc.ahead, hnone] using hw
  | readStdin evs buf hpc hbuf hne | readSocket evs buf hpc hbuf hne =>
    have hlen := List.length_pos_iff.mpr hne
    refine Or.inl ?_
    simp only [State.consumed, List.flatten_append, List.flatten_singleton, List.length_append]
    omega
  | write buf evs hpc =>
    rw [State.HasWork, hpc] at hw
    exact Or.inr (hw.imp_right (And.imp_right fun hne => by simp [hne]))

/-- Unless all is drained, what `epoll_wait` reports includes something to read. -/
theorem work_of_wait (hs : ¬ s.Drained) (h : step capacity s (.epollWait evs) = some s') :
    s'.HasWork ∧ s'.consumed = s.consumed := by
  obtain ⟨⟨-, hne, hperm⟩, h⟩ := Option.ite_none_right_eq_some.mp h
  cases h
  refine ⟨?_, rfl⟩
  by_cases hin : s.inFlight = []
  · have harrived : s.arrived ≠ [] := by
      intro hnone
      have heof : s.eof = true := by
        by_contra hno
        refine hne (hperm.trans ?_).eq_nil
        simp [State.ready, hnone, hno, hin]
      exact hs ⟨heof, hnone, hin⟩
    refine Or.inl ⟨hperm.mem_iff.mpr ?_, harrived⟩
    simp [State.ready, harrived]
  · refine Or.inr ⟨hperm.mem_iff.mpr ?_, hin⟩
    simp [State.ready, hin]

/-- A step with all drained reads nothing and leaves all drained. -/
theorem Idle.step (hs : Idle s) (h : step capacity s a = some s') :
    Idle s' ∧ s'.consumed = s.consumed := by
  obtain ⟨⟨heof, harrived, hin⟩, hheld⟩ := hs
  cases moves_of_step h with
  | arrive bytes hno => exact absurd heof hno
  | endOfFile => exact ⟨⟨⟨rfl, harrived, hin⟩, hheld⟩, rfl⟩
  | wait | fails | endPass | passStdin | passSocket =>
    exact ⟨⟨⟨heof, harrived, hin⟩, rfl⟩, rfl⟩
  | readStdin evs buf hpc hbuf hne =>
    rw [harrived] at hbuf
    exact absurd hbuf hne
  | readSocket evs buf hpc hbuf hne =>
    rw [hin] at hbuf
    exact absurd hbuf hne
  | write buf evs hpc =>
    rw [hpc, Pc.held] at hheld
    exact ⟨⟨⟨heof, harrived, by simp [hin, hheld]⟩, rfl⟩, rfl⟩

theorem Pass.first {u : State} {es : List (Event State Act)} (h : Trace (step capacity) start es s')
    (hpass : Pass capacity es s u) :
    ∃ evs t mid, step capacity s (.epollWait evs) = some t ∧ Trace (step capacity) t mid u ∧
      u.pc = .wait := by
  obtain ⟨past, evs, t, mid, later, hes, hmid, -, hu⟩ := hpass
  have keep : ∀ (s : State) (a : Act) (t : State), True → True → step capacity s a = some t → True :=
    fun _ _ _ _ _ _ => trivial
  have hmem : ⟨s, .epollWait evs, t⟩ ∈ es := by simp [hes]
  obtain ⟨-, hstep⟩ := h.events keep trivial (fun _ _ => trivial) _ hmem
  exact ⟨evs, t, mid, hstep, hmid, hu⟩

/-- A pass reads something exactly when there is something left to relay at its beginning. -/
theorem pass_consumes_iff {u : State} {es : List (Event State Act)}
    (h : Trace (step capacity) start es s') (hpass : Pass capacity es s u) :
    s.consumed < u.consumed ↔ ¬ s.Drained := by
  obtain ⟨evs, t, mid, hwait, hmid, hu⟩ := hpass.first h
  constructor
  · intro hlt hdrained
    have hpc : s.pc = .wait := (Option.ite_none_right_eq_some.mp hwait).1.1
    have hs : Idle s := ⟨hdrained, by rw [hpc]; rfl⟩
    obtain ⟨ht, hsame⟩ := hs.step hwait
    have keep : ∀ x a y, (Idle x ∧ x.consumed = s.consumed) → True → step capacity x a = some y →
        Idle y ∧ y.consumed = s.consumed := by
      rintro x a y ⟨hx, hxs⟩ - hy
      obtain ⟨hidle, hyx⟩ := hx.step hy
      exact ⟨hidle, hyx.trans hxs⟩
    obtain ⟨-, hend⟩ := hmid.invariant keep ⟨ht, hsame⟩ fun _ _ => trivial
    omega
  · intro hs
    obtain ⟨hwork, hsame⟩ := work_of_wait hs hwait
    have keep : ∀ x a y, (s.consumed < x.consumed ∨ s.consumed ≤ x.consumed ∧ x.HasWork) → True →
        step capacity x a = some y →
        s.consumed < y.consumed ∨ s.consumed ≤ y.consumed ∧ y.HasWork := by
      rintro x a y (hlt | ⟨hle, hx⟩) - hy
      · exact Or.inl (Nat.lt_of_lt_of_le hlt (consumed_mono hy))
      · have hmono := consumed_mono hy
        rcases work_step hx hy with hlt | hwork
        · exact Or.inl (by omega)
        · exact Or.inr ⟨by omega, hwork⟩
    have hend := hmid.invariant keep (Or.inr ⟨Nat.le_of_eq hsame.symm, hwork⟩) fun _ _ => trivial
    exact hend.resolve_right fun hw => not_work (by rw [hu]; rfl) hw.2

/-- What arrived is read or waits, and all passes but the one under way have read something. -/
structure Counted (past : List (Event State Act)) (s : State) : Prop where
  arrivals : arrivals past = s.input ++ s.arrived
  passes : passes past ≤ s.consumed ∨ passes past ≤ s.consumed + 1 ∧ s.HasWork
  relayed : Relayed s

theorem arrivals_step {past : List (Event State Act)} (hs : arrivals past = s.input ++ s.arrived)
    (h : step capacity s a = some s') :
    arrivals (past ++ [⟨s, a, s'⟩]) = s'.input ++ s'.arrived := by
  have hsnoc : arrivals (past ++ [⟨s, a, s'⟩]) = s.input ++ s.arrived ++ a.bytes := by
    simp [arrivals, ← hs]
  rw [hsnoc]
  cases moves_of_step h with
  | arrive bytes => exact List.append_assoc _ _ _
  | endOfFile | wait | fails | endPass | passStdin | passSocket | readSocket | write =>
    exact List.append_nil _
  | readStdin evs buf hpc hbuf =>
    refine (List.append_nil _).trans ?_
    rw [List.append_assoc, hbuf, List.take_append_drop]

theorem Counted.step {past : List (Event State Act)} (hs : Counted past s)
    (hok : a.Waits → ¬ s.Drained) (h : step capacity s a = some s') :
    Counted (past ++ [⟨s, a, s'⟩]) s' where
  arrivals := arrivals_step hs.arrivals h
  relayed := hs.relayed.step h
  passes := by
    have hmono := consumed_mono h
    by_cases hwaits : a.Waits
    · obtain ⟨evs, rfl⟩ : ∃ evs, a = .epollWait evs := by
        cases a with
        | epollWait evs => exact ⟨evs, rfl⟩
        | arrive | endOfFile | epollFails | go => exact hwaits.elim
      obtain ⟨hwork, hsame⟩ := work_of_wait (hok hwaits) h
      have hpc : s.pc = .wait := (Option.ite_none_right_eq_some.mp h).1.1
      have hle := hs.passes.resolve_right fun hw => not_work (by rw [hpc]; rfl) hw.2
      have hone : SocketRelay.passes (past ++ [⟨s, .epollWait evs, s'⟩]) =
          SocketRelay.passes past + 1 := by
        simp only [SocketRelay.passes, List.countP_append]
        rfl
      exact Or.inr ⟨by omega, hwork⟩
    · have hsame : SocketRelay.passes (past ++ [⟨s, a, s'⟩]) = SocketRelay.passes past := by
        simp [SocketRelay.passes, hwaits]
      rw [hsame]
      rcases hs.passes with hle | ⟨hle, hwork⟩
      · exact Or.inl (Nat.le_trans hle hmono)
      · rcases work_step hwork h with hlt | hwork'
        · exact Or.inl (by omega)
        · exact Or.inr ⟨by omega, hwork'⟩

theorem Relayed.consumed_le (hs : Relayed s) : s.consumed ≤ 2 * s.input.length := by
  have hlen := congrArg List.length hs.order
  simp only [List.length_append] at hlen
  unfold State.consumed
  omega

end

/-- Every pass of a run reads something exactly when none begins with stdin at its end and nothing
in flight, and then there are no more than two passes for each byte and one more. -/
theorem loop_progress_iff (capacity : Nat) {s : State} {es : List (Event State Act)}
    (h : Trace (step capacity) start es s) :
    ((∀ before after, Pass capacity es before after → before.consumed < after.consumed) ↔
      ∀ before after, Pass capacity es before after → ¬ before.Drained) ∧
    ((∀ e ∈ es, e.label.Waits → ¬ e.before.Drained) →
      passes es ≤ 2 * (arrivals es).length + 1) := by
  refine ⟨forall₃_congr fun before after hpass => pass_consumes_iff h hpass, fun hok => ?_⟩
  have hstart : Counted [] start := ⟨rfl, Or.inl (Nat.le_refl 0), rfl, rfl, Nat.zero_le _⟩
  have keep : ∀ past s a t, Counted past s → (a.Waits → ¬ s.Drained) → step capacity s a = some t →
      Counted (past ++ [⟨s, a, t⟩]) t := fun _ _ _ _ hs hwaits ht => hs.step hwaits ht
  obtain ⟨hend, -⟩ := h.history keep hstart hok
  have hle : passes es ≤ s.consumed + 1 := hend.passes.elim (Nat.le_trans · (Nat.le_succ _)) And.left
  have hread := hend.relayed.consumed_le
  have hlen := congrArg List.length hend.arrivals
  rw [List.length_append] at hlen
  omega

/-- A byte that is relayed while stdin ends, in two passes. -/
def oneLine : List Act :=
  [.arrive [65], .endOfFile, .epollWait [.stdin], .go, .go, .go, .epollWait [.stdin, .socket], .go,
    .go, .go]

theorem oneLine_progress :
    (record (step 2046) start oneLine).length = oneLine.length ∧
    (last (step 2046) start oneLine).received = [[65]] ∧
    (∀ before after, Pass 2046 (record (step 2046) start oneLine) before after →
      before.consumed < after.consumed) ∧
    passes (record (step 2046) start oneLine) ≤
      2 * (arrivals (record (step 2046) start oneLine)).length + 1 := by
  obtain ⟨hpasses, hbound⟩ := loop_progress_iff 2046 (Trace.recorded (step 2046) start oneLine)
  have hwaits : ∀ e ∈ record (step 2046) start oneLine, e.label.Waits → ¬ e.before.Drained := by
    decide
  refine ⟨rfl, rfl, hpasses.mpr fun before after hpass => ?_, hbound hwaits⟩
  obtain ⟨past, evs, t, mid, later, hes, -⟩ := hpass
  exact hwaits ⟨before, .epollWait evs, t⟩ (by simp [hes]) trivial

/-- The state at the end of an empty input. -/
def ended : State := { start with eof := true }

/-- At the end of its input the loop can make any number of passes that read nothing. -/
theorem ended_spins (capacity n : Nat) :
    ∃ es, Trace (step capacity) ended es ended ∧ passes es = n ∧ arrivals es = [] := by
  induction n with
  | zero => exact ⟨[], .nil, rfl, rfl⟩
  | succ n ih =>
    obtain ⟨es, hrest, hpasses, harrivals⟩ := ih
    have hwait : step capacity ended (.epollWait [.stdin]) =
        some { ended with pc := .events [.stdin] } := by
      simp only [step]
      exact if_pos ⟨rfl, by decide, by decide⟩
    refine ⟨_, .cons hwait (.cons (a := .go) rfl (.cons (a := .go) rfl hrest)), ?_, ?_⟩
    · simp only [passes, List.countP_cons] at hpasses ⊢
      rw [hpasses]
      rfl
    · exact harrivals

/-- Without any input the loop has no bound on its passes. -/
theorem end_of_file_spins :
    ¬ ∃ N, ∀ (s : State) (es : List (Event State Act)), Trace (step 2046) start es s →
      arrivals es = [] → passes es ≤ N := by
  rintro ⟨N, hN⟩
  obtain ⟨es, hspin, hpasses, harrivals⟩ := ended_spins 2046 (N + 1)
  have hend : step 2046 start .endOfFile = some ended := rfl
  have hle := hN _ _ (.cons hend hspin) harrivals
  have hcount : passes (⟨start, .endOfFile, ended⟩ :: es) = N + 1 := by
    simp only [passes, List.countP_cons] at hpasses ⊢
    rw [hpasses]
    rfl
  omega

end LinuxAssignment.SocketRelay
