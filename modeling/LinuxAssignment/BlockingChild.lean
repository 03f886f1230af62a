import LinuxAssignment.DeferredSignal

namespace LinuxAssignment.BlockingChild

open SignalMask StepSystem
open SignalBlocking (Signal Mask sigemptyset)
open DeferredSignal (Line sigusr1 blockSet sigusr1Handler received)

/-- The places of process B. -/
inductive Pc where
  | firstSleep
  | install
  | announce
  | block
  | secondSleep
  | announceUnblock
  | unblock
  | leave
  deriving DecidableEq

def print (line : Line) (next : Pc) : Instr Signal (List Line) Pc :=
  .eval (fun _ _ printed => printed ++ [line]) fun _ _ _ => next

def child : Pc → Instr Signal (List Line) Pc
  | .firstSleep => .call .install
  | .install => .install sigusr1 .announce
  | .announce => print .blocking .block
  | .block => .mask (SignalMask.block blockSet) .secondSleep
  | .secondSleep => .call .announceUnblock
  | .announceUnblock => print .unblocking .unblock
  | .unblock => .mask (SignalMask.unblock blockSet) .leave
  | .leave => .exit 0

/-- Process A; it exits with 1 in `failed` and returns 0 in `returned`. -/
inductive Parent where
  | fork
  | failed
  | firstSleep
  | kill
  | secondSleep
  | wait
  | returned
  deriving DecidableEq

structure Family where
  parent : Parent
  child : Process Signal (List Line) Pc

inductive FamilyAct where
  | parent
  | child (a : Act Signal)
  deriving DecidableEq

/-- Process B as `fork` makes it, which has no signal pending. -/
def start (mask : Mask) (disposition : Signal → Disposition) : Family :=
  ⟨.fork, ⟨mask, sigemptyset, disposition, [], .running .firstSleep⟩⟩

/-- `wait` returns only when process B is gone. -/
def parentStep (pid : Int) (s : Family) : Option Family :=
  match s.parent with
  | .fork => some { s with parent := if pid < 0 then .failed else .firstSleep }
  | .firstSleep => some { s with parent := .kill }
  | .kill => some ⟨.secondSleep, s.child.send sigusr1⟩
  | .secondSleep => some { s with parent := .wait }
  | .wait => if s.child.place.Alive then none else some { s with parent := .returned }
  | .failed | .returned => none

/-- There is a process B from `fork` on, unless it failed. -/
def Parent.Forked : Parent → Prop
  | .fork | .failed => False
  | _ => True

instance : (p : Parent) → Decidable p.Forked
  | .fork | .failed => isFalse id
  | .firstSleep | .kill | .secondSleep | .wait | .returned => isTrue trivial

def familyStep (pid : Int) (s : Family) : FamilyAct → Option Family
  | .parent => parentStep pid s
  | .child a =>
    if s.parent.Forked then
      (step sigusr1Handler child s.child a).map fun p => { s with child := p }
    else none

/-- The signals that process A has sent. -/
def Parent.sent : Parent → Nat
  | .fork | .failed | .firstSleep | .kill => 0
  | .secondSleep | .wait | .returned => 1

/-- `SIGUSR1` has no handler yet. -/
def Pc.Early : Pc → Prop
  | .firstSleep | .install => True
  | _ => False

/-- The mask is down from the first `sigprocmask` to the second one. -/
def Pc.Held : Pc → Prop
  | .secondSleep | .announceUnblock | .unblock => True
  | _ => False

def Pc.next : Pc → Pc
  | .firstSleep => .install
  | .install => .announce
  | .announce => .block
  | .block => .secondSleep
  | .secondSleep => .announceUnblock
  | .announceUnblock => .unblock
  | .unblock | .leave => .leave

/-- What process B has printed itself, without the lines of the handler. -/
def Pc.announced : Pc → List Line
  | .firstSleep | .install | .announce => []
  | .block | .secondSleep | .announceUnblock => [.blocking]
  | .unblock | .leave => [.blocking, .unblocking]

/-- What is known at a place of process B, which inherits whether `SIGUSR1` is blocked and what is
done with it. -/
structure At (blocked : Bool) (disposition : Disposition) (l : Pc) (b : Mask)
    (d : Signal → Disposition) (printed : List Line) : Prop where
  early : l.Early → b sigusr1 = blocked ∧ d sigusr1 = disposition
  handled : ¬ l.Early → d sigusr1 = .handle
  held : l.Held → b sigusr1 = true
  lets : l = .leave → b sigusr1 = false
  announced : printed.filter (· ≠ .received) = l.announced

theorem counts : Counts sigusr1Handler child sigusr1 received where
  self := fun printed => by simp [sigusr1Handler, received]
  other := fun other printed ho => by simp [sigusr1Handler, ho]
  eval := by
    intro l f next hl b pending printed
    cases l <;> cases hl
    all_goals simp [received]

theorem follows : Follows child Pc.next where
  mask := by
    intro l f next hl
    cases l <;> cases hl <;> rfl
  install := by
    intro l sig next hl
    cases l <;> cases hl
    rfl
  eval := by
    intro l f next hl b pending printed
    cases l <;> cases hl <;> rfl
  call := by
    intro l next hl
    cases l <;> cases hl <;> rfl

theorem outline (blocked : Bool) (disposition : Disposition) :
    Outline sigusr1Handler child (At blocked disposition) where
  mask := by
    intro l f next b d printed hl h
    obtain ⟨-, hhandled, -, -, hannounced⟩ := h
    cases l <;> cases hl
    · exact ⟨fun hno => absurd hno id, fun _ => hhandled id, fun _ => Bool.or_true _,
        Pc.noConfusion, hannounced⟩
    · exact ⟨fun hno => absurd hno id, fun _ => hhandled id, fun hno => absurd hno id,
        fun _ => Bool.and_false _, hannounced⟩
  install := by
    intro l sig next b d printed hl h
    cases l <;> cases hl
    exact ⟨fun hno => absurd hno id, fun _ => Function.update_self _ _ _, fun hno => absurd hno id,
      Pc.noConfusion, h.announced⟩
  eval := by
    intro l f next b d printed hl h pending
    obtain ⟨-, hhandled, hheld, -, hannounced⟩ := h
    have hlines : ∀ line : Line, line ≠ .received → ∀ lines, lines = l.announced ++ [line] →
        (printed ++ [line]).filter (· ≠ .received) = lines := by
      intro line hline lines heq
      rw [List.filter_append, hannounced, heq]
      simp [hline]
    cases l <;> cases hl
    · exact ⟨fun hno => absurd hno id, fun _ => hhandled id, fun hno => absurd hno id,
        Pc.noConfusion, hlines .blocking Line.noConfusion _ rfl⟩
    · exact ⟨fun hno => absurd hno id, fun _ => hhandled id, fun _ => hheld trivial,
        Pc.noConfusion, hlines .unblocking Line.noConfusion _ rfl⟩
  call := by
    intro l next b d printed hl h
    obtain ⟨hearly, hhandled, hheld, -, hannounced⟩ := h
    cases l <;> cases hl
    · exact ⟨fun _ => hearly trivial, fun hno => absurd trivial hno, fun hno => absurd hno id,
        Pc.noConfusion, hannounced⟩
    · exact ⟨fun hno => absurd hno id, fun _ => hhandled id, fun _ => hheld trivial,
        Pc.noConfusion, hannounced⟩
  handler := by
    intro l b d printed sig _ _ h
    obtain ⟨hearly, hhandled, hheld, hlets, hannounced⟩ := h
    refine ⟨hearly, hhandled, hheld, hlets, ?_⟩
    unfold sigusr1Handler
    split
    next =>
      rw [List.filter_append, hannounced]
      exact List.append_nil _
    next => exact hannounced

theorem sent_le (parent : Parent) : parent.sent ≤ 1 := by
  cases parent with
  | fork | failed | firstSleep | kill => exact Nat.zero_le 1
  | secondSleep | wait | returned => exact Nat.le_refl 1

section

variable {pid : Int} {blocked : Bool} {disposition : Disposition}
  {p q : Process Signal (List Line) Pc} {a : Act Signal} {s s' : Family} {l : Pc}

/-- One step: process B does something, process A sends its signal, or it goes on otherwise. -/
inductive Goes (s : Family) : FamilyAct → Family → Prop
  | child (a : Act Signal) (q : Process Signal (List Line) Pc) :
      Fires sigusr1Handler BlockingChild.child s.child a q → Goes s (.child a) ⟨s.parent, q⟩
  | kill : s.parent = .kill → Goes s .parent ⟨.secondSleep, s.child.send sigusr1⟩
  | parent (parent : Parent) : s.parent ≠ .kill → parent.sent = s.parent.sent →
      Goes s .parent ⟨parent, s.child⟩

theorem familyStep_goes {a : FamilyAct} (h : familyStep pid s a = some s') : Goes s a s' := by
  cases a with
  | child a =>
    obtain ⟨-, h⟩ := Option.ite_none_right_eq_some.mp h
    obtain ⟨q, hstep, rfl⟩ := Option.map_eq_some_iff.mp h
    exact .child a q (fires_of_step hstep)
  | parent =>
    have other : ∀ parent : Parent, s.parent ≠ .kill → parent.sent = s.parent.sent →
        some { s with parent := parent } = some s' → Goes s .parent s' := by
      intro parent hno hsent heq
      cases heq
      exact .parent parent hno hsent
    simp only [familyStep, parentStep] at h
    split at h
    next hp =>
      refine other _ (by rw [hp]; exact Parent.noConfusion) ?_ h
      rw [hp]
      split <;> rfl
    next hp => exact other .kill (by rw [hp]; exact Parent.noConfusion) (by rw [hp]; rfl) h
    next hp =>
      cases h
      exact .kill hp
    next hp => exact other .wait (by rw [hp]; exact Parent.noConfusion) (by rw [hp]; rfl) h
    next hp =>
      split at h
      next => cases h
      next => exact other .returned (by rw [hp]; exact Parent.noConfusion) (by rw [hp]; rfl) h
    next => cases h
    next => cases h

/-- Nobody but process A sends `SIGUSR1` to process B. -/
def Undisturbed (_ : Family) (a : FamilyAct) : Prop := a ≠ .child (.send sigusr1)

instance (s : Family) (a : FamilyAct) : Decidable (Undisturbed s a) :=
  inferInstanceAs (Decidable (a ≠ .child (.send sigusr1)))

theorem send_fires (p : Process Signal (List Line) Pc) :
    Fires sigusr1Handler child p (.send sigusr1) (p.send sigusr1) := by
  have hstep : step sigusr1Handler child p (.send sigusr1) = some (p.send sigusr1) := rfl
  exact fires_of_step hstep

/-- A run of the handler takes a signal of process A. -/
structure Kept (blocked : Bool) (disposition : Disposition) (s : Family) : Prop where
  holds : Holds child (At blocked disposition) s.child
  sent : served sigusr1 received s.child ≤ s.parent.sent

theorem start_kept (mask : Mask) (disposition : Signal → Disposition) :
    Kept (mask sigusr1) (disposition sigusr1) (start mask disposition) := by
  refine ⟨⟨fun _ => ⟨rfl, rfl⟩, fun hno => absurd trivial hno, fun hno => absurd hno id,
    Pc.noConfusion, rfl⟩, Nat.le_refl 0⟩

theorem Goes.kept {a : FamilyAct} (h : Goes s a s') (hs : Kept blocked disposition s)
    (hno : Undisturbed s a) : Kept blocked disposition s' := by
  cases h with
  | child a q hfires =>
    have hsend : a ≠ .send sigusr1 := fun he => hno (congrArg FamilyAct.child he)
    exact ⟨(outline blocked disposition).step hs.holds hfires,
      (counts.served_le hfires hsend).trans hs.sent⟩
  | kill hp =>
    have hfires := send_fires s.child
    obtain ⟨-, hserved⟩ := hfires.served_send (c := received)
    have hle := hs.sent
    rw [hp] at hle
    refine ⟨(outline blocked disposition).step hs.holds hfires, hserved.trans ?_⟩
    exact Nat.succ_le_succ ((Nat.le_add_right _ _).trans hle)
  | parent parent _ hsent => exact ⟨hs.holds, hsent ▸ hs.sent⟩

theorem early_before {k : Pc} (h : Fires sigusr1Handler child p a q) (hq : q.place.At k)
    (hk : k.Early) : ∃ l : Pc, l.Early ∧ p.place.At l := by
  rcases follows.place_from h hq with hsame | ⟨l, -, hrun, rfl⟩
  · exact ⟨k, hk, hsame⟩
  · refine ⟨l, ?_, Or.inl hrun⟩
    cases l <;> trivial

/-- Process A sends its signal. -/
def Kills (e : Event Family FamilyAct) : Prop := e.label = .parent ∧ e.before.parent = .kill

/-- Process A has sent its signal before the handler was installed. -/
def TooEarly (past : List (Event Family FamilyAct)) : Prop :=
  ∃ e ∈ past, Kills e ∧ ∃ l : Pc, l.Early ∧ e.before.child.place.At l

/-- A signal that is pending too early, or has killed process B, was sent too early. -/
structure Traced (past : List (Event Family FamilyAct)) (s : Family) : Prop where
  pending : (∃ l : Pc, l.Early ∧ s.child.place.At l) → s.child.pending sigusr1 = true → TooEarly past
  killed : s.child.place = .killed sigusr1 → TooEarly past

theorem TooEarly.append {past : List (Event Family FamilyAct)} (h : TooEarly past)
    (e : Event Family FamilyAct) : TooEarly (past ++ [e]) := by
  obtain ⟨d, hd, hearly⟩ := h
  exact ⟨d, List.mem_append_left _ hd, hearly⟩

theorem Goes.traced {a : FamilyAct} (h : Goes s a s') (hk : Kept blocked disposition s)
    (hno : Undisturbed s a) {past : List (Event Family FamilyAct)} (hs : Traced past s) :
    Traced (past ++ [⟨s, a, s'⟩]) s' := by
  cases h with
  | child a q hfires =>
    have hsend : a ≠ .send sigusr1 := fun he => hno (congrArg FamilyAct.child he)
    refine ⟨fun ⟨k, hearly, hat⟩ hpending => ?_, fun hkilled => ?_⟩
    · refine (hs.pending (early_before hfires hat hearly) ?_).append _
      by_contra hnone
      have hq := hfires.not_pending (Bool.eq_false_iff.mpr hnone) hsend
      rw [hq] at hpending
      cases hpending
    · rcases hfires.killed hkilled with hsame | ⟨-, halive, hpending, hterminate⟩
      · exact (hs.killed hsame).append _
      · obtain ⟨l, hl⟩ := Place.alive_iff.mp halive
        have hearly : l.Early := by
          by_contra hlate
          have hhandle := (hk.holds.at hl).handled hlate
          cases hhandle.symm.trans hterminate
        exact (hs.pending ⟨l, hearly, hl⟩ hpending).append _
  | kill hp =>
    have hplace := (send_fires s.child).send_place
    refine ⟨fun hearly _ => ?_, fun hkilled => ?_⟩
    · exact ⟨_, List.mem_append_right _ (List.mem_singleton_self _), ⟨rfl, hp⟩, hplace ▸ hearly⟩
    · exact (hs.killed (hplace ▸ hkilled)).append _
  | parent => exact ⟨fun hearly hpending => (hs.pending hearly hpending).append _,
      fun hkilled => (hs.killed hkilled).append _⟩

/-- The signal was sent while it was blocked: it is pending, or its handler has run behind the second
`sigprocmask`, or process B was killed by another one. -/
inductive Due (p : Process Signal (List Line) Pc) : Prop
  | waits (l : Pc) : l.Held → p.place.At l → p.pending sigusr1 = true → p.data = l.announced → Due p
  | lets : p.place = .returning .leave → p.pending sigusr1 = true →
      p.data = [.blocking, .unblocking] → Due p
  | handled : p.place.At .leave ∨ p.place = .exited 0 → p.pending sigusr1 = false →
      p.data = [.blocking, .unblocking, .received] → Due p
  | killed (sig : Signal) : p.place = .killed sig → Due p

theorem sigusr1Handler_other {sig : Signal} (h : sig ≠ sigusr1) (printed : List Line) :
    sigusr1Handler sig printed = printed := by
  unfold sigusr1Handler
  rw [if_neg h]

/-- While the signal is blocked, it stays pending. -/
theorem due_held (h : Fires sigusr1Handler child p a q) (hblocked : p.blocked sigusr1 = true)
    (hl : l.Held) (hat : p.place.At l) (hpending : p.pending sigusr1 = true)
    (hdata : p.data = l.announced) : Due q := by
  have hno : a ≠ .deliver sigusr1 := by
    rintro rfl
    cases hblocked.symm.trans h.delivered.2.2
  have hq : q.pending sigusr1 = true := h.pending hpending hno
  cases h with
  | lost => exact .waits l hl hat hq hdata
  | send => exact .waits l hl hat hq hdata
  | terminate sig => exact .killed sig rfl
  | ignore => exact .waits l hl hat hq hdata
  | handle sig =>
    have hother : sig ≠ sigusr1 := fun he => hno (congrArg Act.deliver he)
    exact .waits l hl hat hq ((sigusr1Handler_other hother _).trans hdata)
  | settle k hk => exact .waits l hl (Or.inl (congrArg _ (hat.eq (Or.inr hk)))) hq hdata
  | mask k f next hk hprog =>
    cases hat.eq (Or.inl hk)
    cases l <;> cases hprog
    · exact absurd hl id
    · exact .lets rfl hq hdata
  | install k sig next hk hprog =>
    cases hat.eq (Or.inl hk)
    cases l <;> cases hprog
    exact absurd hl id
  | eval k f next hk hprog =>
    cases hat.eq (Or.inl hk)
    cases l <;> cases hprog
    · exact absurd hl id
    · exact .waits .unblock trivial (Or.inl rfl) hq (congrArg (· ++ [Line.unblocking]) hdata)
  | call k next hk hprog =>
    cases hat.eq (Or.inl hk)
    cases l <;> cases hprog
    · exact absurd hl id
    · exact .waits .announceUnblock trivial (Or.inr rfl) hq hdata
  | exit k status hk hprog =>
    cases hat.eq (Or.inl hk)
    cases l <;> cases hprog
    exact absurd hl id

/-- The second `sigprocmask` returns only when the handler has run. -/
theorem due_lets (h : Fires sigusr1Handler child p a q) (hopen : p.blocked sigusr1 = false)
    (hhandle : p.disposition sigusr1 = .handle) (hplace : p.place = .returning .leave)
    (hpending : p.pending sigusr1 = true) (hdata : p.data = [.blocking, .unblocking]) : Due q := by
  have hkept : a ≠ .deliver sigusr1 → q.pending sigusr1 = true := h.pending hpending
  have hrun : ∀ k, p.place ≠ .running k := by
    intro k hk
    cases hplace.symm.trans hk
  cases h with
  | lost => exact .lets hplace (hkept fun he => by cases he) hdata
  | send => exact .lets hplace (hkept fun he => by cases he) hdata
  | terminate sig => exact .killed sig rfl
  | ignore sig _ _ _ hignore =>
    refine .lets hplace (hkept fun he => ?_) hdata
    cases he
    cases hhandle.symm.trans hignore
  | handle sig =>
    by_cases hsig : sig = sigusr1
    · subst hsig
      refine .handled (Or.inl (Or.inr hplace)) ?_ ?_
      · dsimp only
        rw [Function.update_self]
      · dsimp only
        rw [hdata]
        rfl
    · exact .lets hplace (hkept fun he => hsig (Act.deliver.inj he))
        ((sigusr1Handler_other hsig _).trans hdata)
  | settle k _ hnone => cases hopen.symm.trans (hnone sigusr1 hpending)
  | mask k _ _ hk => exact absurd hk (hrun k)
  | install k _ _ hk => exact absurd hk (hrun k)
  | eval k _ _ hk => exact absurd hk (hrun k)
  | call k _ hk => exact absurd hk (hrun k)
  | exit k _ hk => exact absurd hk (hrun k)

theorem due_handled (h : Fires sigusr1Handler child p a q) (hno : a ≠ .send sigusr1)
    (hplace : p.place.At .leave ∨ p.place = .exited 0) (hpending : p.pending sigusr1 = false)
    (hdata : p.data = [.blocking, .unblocking, .received]) : Due q := by
  have hq : q.pending sigusr1 = false := h.not_pending hpending hno
  have hleave : ∀ k, p.place.At k → k = .leave := by
    intro k hk
    rcases hplace with hat | hexit
    · exact hat.eq hk
    · cases hexit ▸ hk <;> contradiction
  cases h with
  | lost => exact .handled hplace hq hdata
  | send => exact .handled hplace hq hdata
  | terminate sig => exact .killed sig rfl
  | ignore => exact .handled hplace hq hdata
  | handle sig _ hp =>
    have hother : sig ≠ sigusr1 := by
      rintro rfl
      cases hpending.symm.trans hp
    exact .handled hplace hq ((sigusr1Handler_other hother _).trans hdata)
  | settle k hk =>
    cases hleave k (Or.inr hk)
    exact .handled (Or.inl (Or.inl rfl)) hq hdata
  | mask k f next hk hprog =>
    cases hleave k (Or.inl hk)
    cases hprog
  | install k sig next hk hprog =>
    cases hleave k (Or.inl hk)
    cases hprog
  | eval k f next hk hprog =>
    cases hleave k (Or.inl hk)
    cases hprog
  | call k next hk hprog =>
    cases hleave k (Or.inl hk)
    cases hprog
  | exit k status hk hprog =>
    cases hleave k (Or.inl hk)
    cases hprog
    exact .handled (Or.inr rfl) hq hdata

theorem Due.step (hs : Due p) (hp : Holds child (At blocked disposition) p)
    (h : Fires sigusr1Handler child p a q) (hno : a ≠ .send sigusr1) : Due q := by
  cases hs with
  | waits l hl hat hpending hdata => exact due_held h ((hp.at hat).held hl) hl hat hpending hdata
  | lets hplace hpending hdata =>
    have hat := hp.at (Or.inr hplace)
    exact due_lets h (hat.lets rfl) (hat.handled id) hplace hpending hdata
  | handled hplace hpending hdata => exact due_handled h hno hplace hpending hdata
  | killed sig hplace =>
    have hgone : ¬ p.place.Alive := by
      rw [hplace]
      exact id
    exact .killed sig ((h.gone hgone).trans hplace)

theorem Due.exited (hs : Due p) (hexit : p.place = .exited 0) :
    p.data = [.blocking, .unblocking, .received] := by
  cases hs with
  | waits l _ hat =>
    rcases hat with hat | hat
    · cases hat.symm.trans hexit
    · cases hat.symm.trans hexit
  | lets hplace => cases hplace.symm.trans hexit
  | handled _ _ hdata => exact hdata
  | killed sig hplace => cases hplace.symm.trans hexit

/-- Process B is in its first sleep, with a pending signal that will kill it, or has been killed. -/
inductive Doomed (p : Process Signal (List Line) Pc) : Prop
  | asleep : p.place = .running .firstSleep ∨ p.place = .returning .install →
      p.pending sigusr1 = true → Doomed p
  | killed (sig : Signal) : p.place = .killed sig → Doomed p

theorem doomed_asleep (h : Fires sigusr1Handler child p a q) (hopen : p.blocked sigusr1 = false)
    (hterminate : p.disposition sigusr1 = .terminate)
    (hplace : p.place = .running .firstSleep ∨ p.place = .returning .install)
    (hpending : p.pending sigusr1 = true) : Doomed q := by
  have hkept : a ≠ .deliver sigusr1 → q.pending sigusr1 = true := h.pending hpending
  have hrun : ∀ k, p.place = .running k → k = .firstSleep := by
    intro k hk
    rcases hplace with hplace | hplace
    · exact Place.running.inj (hk.symm.trans hplace)
    · cases hk.symm.trans hplace
  cases h with
  | lost => exact .asleep hplace (hkept fun he => by cases he)
  | send => exact .asleep hplace (hkept fun he => by cases he)
  | terminate sig => exact .killed sig rfl
  | ignore sig _ _ _ hignore =>
    refine .asleep hplace (hkept fun he => ?_)
    cases he
    cases hterminate.symm.trans hignore
  | handle sig _ _ _ hhandle =>
    refine .asleep hplace (hkept fun he => ?_)
    cases he
    cases hterminate.symm.trans hhandle
  | settle k _ hnone => cases hopen.symm.trans (hnone sigusr1 hpending)
  | mask k f next hk hprog =>
    cases hrun k hk
    cases hprog
  | install k sig next hk hprog =>
    cases hrun k hk
    cases hprog
  | eval k f next hk hprog =>
    cases hrun k hk
    cases hprog
  | call k next hk hprog =>
    cases hrun k hk
    cases hprog
    exact .asleep (Or.inr rfl) (hkept fun he => by cases he)
  | exit k status hk hprog =>
    cases hrun k hk
    cases hprog

theorem Doomed.step (hs : Doomed p) (hp : Holds child (At false .terminate) p)
    (h : Fires sigusr1Handler child p a q) : Doomed q := by
  cases hs with
  | asleep hplace hpending =>
    have hearly : ∃ l : Pc, l.Early ∧ p.place.At l := by
      rcases hplace with hplace | hplace
      · exact ⟨.firstSleep, trivial, Or.inl hplace⟩
      · exact ⟨.install, trivial, Or.inr hplace⟩
    obtain ⟨l, hl, hat⟩ := hearly
    obtain ⟨hopen, hterminate⟩ := (hp.at hat).early hl
    exact doomed_asleep h hopen hterminate hplace hpending
  | killed sig hplace =>
    have hgone : ¬ p.place.Alive := by
      rw [hplace]
      exact id
    exact .killed sig ((h.gone hgone).trans hplace)

theorem Doomed.not_exited (hs : Doomed p) (status : Nat) : p.place ≠ .exited status := by
  intro hexit
  cases hs with
  | asleep hplace =>
    rcases hplace with hplace | hplace
    · cases hplace.symm.trans hexit
    · cases hplace.symm.trans hexit
  | killed sig hplace => cases hplace.symm.trans hexit

theorem kept_run {es : List (Event Family FamilyAct)} (hs : Kept blocked disposition s)
    (h : Trace (familyStep pid) s es s') (hothers : ∀ e ∈ es, Undisturbed e.before e.label) :
    Kept blocked disposition s' ∧ ∀ e ∈ es, Kept blocked disposition e.before := by
  have keep : ∀ (s : Family) (a : FamilyAct) (t : Family), Kept blocked disposition s →
      Undisturbed s a → familyStep pid s a = some t → Kept blocked disposition t :=
    fun _ _ _ hs hno ht => (familyStep_goes ht).kept hs hno
  exact ⟨h.invariant keep hs hothers, fun e he => (h.events keep hs hothers e he).1⟩

/-- Once process A has sent its signal, what no step of process B undoes stays. -/
theorem Goes.keeps {Inv : Process Signal (List Line) Pc → Prop}
    (keep : ∀ p a q, Inv p → Holds BlockingChild.child (At blocked disposition) p →
      Fires sigusr1Handler BlockingChild.child p a q → a ≠ .send sigusr1 → Inv q) {a : FamilyAct}
    (h : Goes s a s') (hk : Kept blocked disposition s) (hno : Undisturbed s a)
    (hsent : s.parent.sent = 1) (hs : Inv s.child) : Inv s'.child ∧ s'.parent.sent = 1 := by
  cases h with
  | child a q hfires =>
    have hsend : a ≠ .send sigusr1 := fun he => hno (congrArg FamilyAct.child he)
    exact ⟨keep _ a q hs hk.holds hfires hsend, hsent⟩
  | kill hp =>
    rw [hp] at hsent
    cases hsent
  | parent parent _ hsame => exact ⟨hs, hsame.trans hsent⟩

theorem behind_kill {Inv : Process Signal (List Line) Pc → Prop}
    (keep : ∀ p a q, Inv p → Holds child (At blocked disposition) p →
      Fires sigusr1Handler child p a q → a ≠ .send sigusr1 → Inv q)
    {es : List (Event Family FamilyAct)} {e : Event Family FamilyAct}
    (hs : Kept blocked disposition s) (h : Trace (familyStep pid) s es s')
    (hothers : ∀ e ∈ es, Undisturbed e.before e.label) (he : e ∈ es) (hkill : Kills e)
    (hsent : Kept blocked disposition e.before → Inv (e.before.child.send sigusr1)) :
    Inv s'.child := by
  have hbefore := (kept_run hs h hothers).2 e he
  have hno := hothers e he
  obtain ⟨past, later, rfl⟩ := List.append_of_mem he
  obtain ⟨-, hstep, hlater⟩ := h.split
  have hgoes := familyStep_goes hstep
  have hafter : e.after = ⟨.secondSleep, e.before.child.send sigusr1⟩ := by
    obtain ⟨hlabel, hparent⟩ := hkill
    rw [hlabel] at hstep
    simp only [familyStep, parentStep, hparent, Option.some.injEq] at hstep
    exact hstep.symm
  have alongside : ∀ (s : Family) (a : FamilyAct) (t : Family),
      ((Inv s.child ∧ s.parent.sent = 1) ∧ Kept blocked disposition s) → Undisturbed s a →
      familyStep pid s a = some t →
      (Inv t.child ∧ t.parent.sent = 1) ∧ Kept blocked disposition t :=
    fun _ _ _ ⟨⟨hinv, hone⟩, hk⟩ hno ht =>
      ⟨(familyStep_goes ht).keeps keep hk hno hone hinv, (familyStep_goes ht).kept hk hno⟩
  have hstart : (Inv e.after.child ∧ e.after.parent.sent = 1) ∧
      Kept blocked disposition e.after := by
    refine ⟨?_, hgoes.kept hbefore hno⟩
    rw [hafter]
    exact ⟨hsent hbefore, rfl⟩
  have hrest := hlater.invariant alongside hstart fun d hd =>
    hothers d (List.mem_append_right _ (List.mem_cons_of_mem _ hd))
  exact hrest.1.1

theorem Kept.due (hs : Kept blocked disposition s) (hp : s.parent = .kill) (hl : l.Held)
    (hat : s.child.place.At l) : Due (s.child.send sigusr1) := by
  have hfires := send_fires s.child
  have hholds := hs.holds.at hat
  have hserved := hs.sent
  rw [hp] at hserved
  have hnone : received s.child.data = 0 := by
    unfold served at hserved
    exact Nat.eq_zero_of_le_zero ((Nat.le_add_right _ _).trans hserved)
  have hdata : s.child.data = l.announced := by
    have hall : ∀ line ∈ s.child.data, line ≠ .received := by
      rintro line hline rfl
      exact List.count_pos_iff.mpr hline |>.ne' hnone
    have hannounced := hholds.announced
    rwa [List.filter_eq_self.mpr fun line hline => decide_eq_true (hall line hline)] at hannounced
  have hpending := hfires.sent (Place.alive_iff.mpr ⟨l, hat⟩) (Or.inl (hholds.held hl))
  have hplace := hfires.send_place
  have hsent : (s.child.send sigusr1).data = s.child.data := by
    unfold Process.send
    split <;> rfl
  exact .waits l hl (hplace ▸ hat) hpending (hsent.trans hdata)

theorem Kept.doomed (hs : Kept false .terminate s)
    (hplace : s.child.place = .running .firstSleep ∨ s.child.place = .returning .install) :
    Doomed (s.child.send sigusr1) := by
  have hfires := send_fires s.child
  have hearly : ∃ l : Pc, l.Early ∧ s.child.place.At l := by
    rcases hplace with hplace | hplace
    · exact ⟨.firstSleep, trivial, Or.inl hplace⟩
    · exact ⟨.install, trivial, Or.inr hplace⟩
  obtain ⟨l, hl, hat⟩ := hearly
  obtain ⟨-, hterminate⟩ := (hs.holds.at hat).early hl
  have hignore : s.child.disposition sigusr1 ≠ .ignore := by
    rw [hterminate]
    exact Disposition.noConfusion
  refine .asleep ?_ (hfires.sent (Place.alive_iff.mpr ⟨l, hat⟩) (Or.inr hignore))
  rwa [hfires.send_place]

theorem traced_run {mask : Mask} {disposition : Signal → Disposition}
    {es : List (Event Family FamilyAct)} (h : Trace (familyStep pid) (start mask disposition) es s)
    (hothers : ∀ e ∈ es, Undisturbed e.before e.label) : Traced es s := by
  let Inv : List (Event Family FamilyAct) → Family → Prop := fun past s =>
    Kept (mask sigusr1) (disposition sigusr1) s ∧ Traced past s
  have keep : ∀ (past : List (Event Family FamilyAct)) (s : Family) (a : FamilyAct) (t : Family),
      Inv past s → Undisturbed s a → familyStep pid s a = some t → Inv (past ++ [⟨s, a, t⟩]) t := by
    rintro past s a t ⟨hk, hs⟩ hno ht
    have hgoes := familyStep_goes ht
    exact ⟨hgoes.kept hk hno, hgoes.traced hk hno hs⟩
  have hstart : Inv [] (start mask disposition) := by
    refine ⟨start_kept mask disposition, fun _ hpending => ?_, fun hkilled => ?_⟩
    · cases hpending
    · cases hkilled
  exact (h.history keep hstart hothers).1.2

/-- If nobody else sends `SIGUSR1` to process B, it is not delivered while it is blocked, its handler
runs once at most, and it kills process B only if process A sent it before the handler was installed.
Sent in the first sleep with its default action in place, it lets process B never get behind; sent
while it is blocked, it is handled when process B exits, behind both lines. -/
theorem sent_in_time {mask : Mask} {disposition : Signal → Disposition}
    {es : List (Event Family FamilyAct)} (h : Trace (familyStep pid) (start mask disposition) es s)
    (hothers : ∀ e ∈ es, Undisturbed e.before e.label) :
    (∀ e ∈ es, e.label = .child (.deliver sigusr1) → ∀ l : Pc, l.Held → ¬ e.before.child.place.At l) ∧
      received s.child.data ≤ 1 ∧
      (s.child.place = .killed sigusr1 → TooEarly es) ∧
      (∀ e ∈ es, Kills e → mask sigusr1 = false → disposition sigusr1 = .terminate →
        (e.before.child.place = .running .firstSleep ∨ e.before.child.place = .returning .install) →
        ∀ status, s.child.place ≠ .exited status) ∧
      ∀ e ∈ es, Kills e → (∃ l : Pc, l.Held ∧ e.before.child.place.At l) →
        s.child.place = .exited 0 → s.child.data = [.blocking, .unblocking, .received] := by
  have hstart := start_kept mask disposition
  obtain ⟨hkept, hevents⟩ := kept_run hstart h hothers
  refine ⟨fun e he hlabel l hl hat => ?_, ?_, (traced_run h hothers).killed,
    fun e he hkill hopen hterminate hplace status hexit => ?_, fun e he hkill hheld hexit => ?_⟩
  · have hgoes := familyStep_goes (step_of_mem h he)
    rw [hlabel] at hgoes
    generalize e.after = t at hgoes
    cases hgoes with
    | child a q hfires =>
      have hblocked := ((hevents e he).holds.at hat).held hl
      cases hblocked.symm.trans hfires.delivered.2.2
  · have hle := hkept.sent.trans (sent_le s.parent)
    unfold served at hle
    omega
  · rw [hopen, hterminate] at hstart
    have hdoomed := behind_kill (fun _ _ _ hs hp hfires _ => hs.step hp hfires) hstart h hothers he
      hkill fun hk => hk.doomed hplace
    exact hdoomed.not_exited status hexit
  · obtain ⟨l, hl, hat⟩ := hheld
    have hdue := behind_kill (fun _ _ _ hs hp hfires hno => hs.step hp hfires hno) hstart h hothers he
      hkill fun hk => hk.due hkill.2 hl hat
    exact hdue.exited hexit

end

/-- Process A sends its signal while process B sleeps with `SIGUSR1` blocked. -/
def inTime : List FamilyAct :=
  [.parent, .child .go, .parent, .child .settle, .child .go, .child .go, .child .go, .child .settle,
    .child .go, .parent, .child .settle, .child .go, .child .go, .child (.deliver sigusr1),
    .child .settle, .child .go]

def inTimeEnd : Family := last (familyStep 1) (start sigemptyset fun _ => .terminate) inTime

theorem inTime_handled :
    (record (familyStep 1) (start sigemptyset fun _ => .terminate) inTime).length = inTime.length ∧
      received inTimeEnd.child.data ≤ 1 ∧
      inTimeEnd.child.data = [.blocking, .unblocking, .received] := by
  have hothers : ∀ e ∈ record (familyStep 1) (start sigemptyset fun _ => .terminate) inTime,
      Undisturbed e.before e.label := by
    have hno : ∀ a ∈ inTime, a ≠ .child (.send sigusr1) := by decide
    exact fun e he => hno e.label (label_mem_of_record he)
  have hall := sent_in_time (Trace.recorded _ _ inTime) hothers
  exact ⟨rfl, hall.2.1, by decide⟩

end LinuxAssignment.BlockingChild
