import LinuxAssignment.SignalBlocking

namespace LinuxAssignment.DeferredSignal

open SignalBlocking SignalMask StepSystem

abbrev sigusr1 : Signal := ⟨10, by decide⟩

def blockSet : Mask := sigaddset sigemptyset sigusr1

inductive Line where
  | received
  | forkFailed
  | blocking
  | unblocking
  deriving DecidableEq

inductive Pc where
  | install
  | block
  | fork
  | perror
  | fail
  | announce
  | sleep
  | announceUnblock
  | unblock
  | lastSleep
  | wait
  | leave
  deriving DecidableEq

def sigusr1Handler (sig : Signal) (printed : List Line) : List Line :=
  if sig = sigusr1 then printed ++ [.received] else printed

def print (line : Line) (next : Pc) : Instr Signal (List Line) Pc :=
  .eval (fun _ _ printed => printed ++ [line]) fun _ _ _ => next

/-- `main` of process A, by the return value of `fork`. -/
def main (pid : Int) : Pc → Instr Signal (List Line) Pc
  | .install => .install sigusr1 .block
  | .block => .mask (SignalMask.block blockSet) .fork
  | .fork => .eval (fun _ _ printed => printed) fun _ _ _ => if pid < 0 then .perror else .announce
  | .perror => print .forkFailed .fail
  | .fail => .exit 1
  | .announce => print .blocking .sleep
  | .sleep => .call .announceUnblock
  | .announceUnblock => print .unblocking .unblock
  | .unblock => .mask (SignalMask.unblock blockSet) .lastSleep
  | .lastSleep => .call .wait
  | .wait => .call .leave
  | .leave => .exit 0

/-- Process B: its two sleeps, each with a `kill` behind it. -/
inductive Child where
  | unborn
  | firstSleep
  | firstKill
  | secondSleep
  | secondKill
  | exited
  deriving DecidableEq

structure Family where
  parent : Process Signal (List Line) Pc
  child : Child

inductive FamilyAct where
  | parent (a : Act Signal)
  | child
  deriving DecidableEq

def start (mask : Mask) (disposition : Signal → Disposition) (pending : Mask) : Family :=
  ⟨⟨mask, pending, disposition, [], .running .install⟩, .unborn⟩

/-- `fork` starts the child, and `wait` returns only when the child has exited. -/
def parentStep (pid : Int) (s : Family) (a : Act Signal) : Option Family :=
  if a = .go ∧ s.parent.place = .running .wait ∧ s.child ≠ .exited then none
  else (step sigusr1Handler (main pid) s.parent a).map fun p =>
    ⟨p, if a = .go ∧ s.parent.place = .running .fork ∧ 0 ≤ pid then .firstSleep else s.child⟩

def childStep (s : Family) : Option Family :=
  match s.child with
  | .unborn | .exited => none
  | .firstSleep => some { s with child := .firstKill }
  | .firstKill => some ⟨s.parent.send sigusr1, .secondSleep⟩
  | .secondSleep => some { s with child := .secondKill }
  | .secondKill => some ⟨s.parent.send sigusr1, .exited⟩

def familyStep (pid : Int) (s : Family) : FamilyAct → Option Family
  | .parent a => parentStep pid s a
  | .child => childStep s

def received (printed : List Line) : Nat := printed.count .received

/-- The signals that the child has sent. -/
def Child.sent : Child → Nat
  | .unborn | .firstSleep | .firstKill => 0
  | .secondSleep | .secondKill => 1
  | .exited => 2

/-- The mask is down from the first `sigprocmask` to the second one. -/
def Pc.Held : Pc → Prop
  | .fork | .perror | .fail | .announce | .sleep | .announceUnblock | .unblock => True
  | _ => False

/-- There is no child yet, or none will be. -/
def Pc.Childless : Pc → Prop
  | .install | .block | .fork | .perror | .fail => True
  | _ => False

def Pc.next (pid : Int) : Pc → Pc
  | .install => .block
  | .block => .fork
  | .fork => if pid < 0 then .perror else .announce
  | .perror | .fail => .fail
  | .announce => .sleep
  | .sleep => .announceUnblock
  | .announceUnblock => .unblock
  | .unblock => .lastSleep
  | .lastSleep => .wait
  | .wait | .leave => .leave

structure At (l : Pc) (b : Mask) (d : Signal → Disposition) (_ : List Line) : Prop where
  held : l.Held → b sigusr1 = true
  lets : ¬ l.Held → ¬ l.Childless → b sigusr1 = false
  handled : l ≠ .install → d sigusr1 = .handle

theorem counts (pid : Int) : Counts sigusr1Handler (main pid) sigusr1 received where
  self := fun printed => by simp [sigusr1Handler, received]
  other := fun other printed ho => by simp [sigusr1Handler, ho]
  eval := by
    intro l f next hl b pending printed
    cases l <;> cases hl
    all_goals simp [received]

theorem outline (pid : Int) : Outline sigusr1Handler (main pid) At where
  mask := by
    intro l f next b d printed hl h
    obtain ⟨hheld, hlets, hhandled⟩ := h
    cases l <;> cases hl
    · refine ⟨fun _ => ?_, fun hno => absurd trivial hno, fun _ => hhandled Pc.noConfusion⟩
      exact Bool.or_true _
    · refine ⟨fun hno => absurd hno id, fun _ _ => ?_, fun _ => hhandled Pc.noConfusion⟩
      exact Bool.and_false _
  install := by
    intro l sig next b d printed hl h
    cases l <;> cases hl
    exact ⟨fun hno => absurd hno id, fun _ hno => absurd trivial hno,
      fun _ => Function.update_self _ _ _⟩
  eval := by
    intro l f next b d printed hl h pending
    obtain ⟨hheld, hlets, hhandled⟩ := h
    cases l <;> cases hl
    case fork =>
      dsimp only
      have hb := hheld trivial
      have hd := hhandled Pc.noConfusion
      split
      next => exact ⟨fun _ => hb, fun hno => absurd trivial hno, fun _ => hd⟩
      next => exact ⟨fun _ => hb, fun hno => absurd trivial hno, fun _ => hd⟩
    all_goals exact ⟨fun _ => hheld trivial, fun hno => absurd trivial hno,
      fun _ => hhandled Pc.noConfusion⟩
  call := by
    intro l next b d printed hl h
    obtain ⟨hheld, hlets, hhandled⟩ := h
    cases l <;> cases hl
    case sleep => exact ⟨fun _ => hheld trivial, fun hno => absurd trivial hno,
      fun _ => hhandled Pc.noConfusion⟩
    all_goals exact ⟨fun hno => absurd hno id, fun _ _ => hlets id id, fun _ => hhandled Pc.noConfusion⟩
  handler := fun _ _ _ h => ⟨h.held, h.lets, h.handled⟩

section

variable {pid : Int} {p q : Process Signal (List Line) Pc} {a : Act Signal} {l : Pc}

theorem follows (pid : Int) : Follows (main pid) (Pc.next pid) where
  mask := by
    intro l f next hl
    cases l <;> cases hl <;> rfl
  install := by
    intro l sig next hl
    cases l <;> cases hl
    rfl
  eval := by
    intro l f next hl b pending printed
    cases l <;> cases hl <;> rfl
  call := by
    intro l next hl
    cases l <;> cases hl <;> rfl

/-- The family along a run in which nobody else sends `SIGUSR1`. -/
structure Kept (pid : Int) (s : Family) : Prop where
  holds : Holds (main pid) At s.parent
  sent : served sigusr1 received s.parent ≤ s.child.sent
  deferred : ∀ l : Pc, l.Held → s.parent.place.At l → received s.parent.data = 0
  kept : 1 ≤ s.child.sent → (∀ sig, s.parent.place ≠ .killed sig) →
    1 ≤ served sigusr1 received s.parent
  childless : (∃ l : Pc, l.Childless ∧ s.parent.place.At l) ∨ s.parent.place = .exited 1 →
    s.child = .unborn
  waited : s.parent.place.At .leave ∨ s.parent.place = .exited 0 → s.child = .exited
  settled : s.parent.place = .running .leave ∨ s.parent.place = .exited 0 →
    s.parent.pending sigusr1 = false

theorem start_kept {mask : Mask} {disposition : Signal → Disposition} {pending : Mask}
    (hpending : pending sigusr1 = false) : Kept pid (start mask disposition pending) where
  holds := ⟨fun hno => absurd hno id, fun _ hno => absurd trivial hno, fun hno => absurd rfl hno⟩
  sent := by simp [served, received, start, hpending]
  deferred := fun _ _ _ => rfl
  kept := fun hsent => absurd hsent (Nat.not_lt_zero 0)
  childless := fun _ => rfl
  waited := by
    rintro (hat | hexit)
    · cases Place.At.eq (Or.inl rfl) hat
    · cases hexit
  settled := by
    rintro (hat | hexit)
    · cases hat
    · cases hexit

variable {s s' : Family}

/-- While there is a child to be waited for, the parent is behind its fork. -/
theorem Kept.place (hs : Kept pid s) (hborn : s.child ≠ .unborn) (hlive : s.child ≠ .exited)
    (hkilled : ∀ sig, s.parent.place ≠ .killed sig) :
    ∃ l : Pc, s.parent.place.At l ∧ ¬ l.Childless := by
  have hholds := hs.holds
  unfold Holds at hholds
  cases hplace : s.parent.place with
  | running l => exact ⟨l, Or.inl rfl, fun hl => hborn (hs.childless (Or.inl ⟨l, hl, Or.inl hplace⟩))⟩
  | returning l =>
    exact ⟨l, Or.inr rfl, fun hl => hborn (hs.childless (Or.inl ⟨l, hl, Or.inr hplace⟩))⟩
  | killed sig => exact absurd hplace (hkilled sig)
  | exited status =>
    rw [hplace] at hholds
    obtain ⟨l, hprog, -⟩ := hholds
    cases l <;> cases hprog
    · exact absurd (hs.childless (Or.inr hplace)) hborn
    · exact absurd (hs.waited (Or.inr hplace)) hlive

/-- The signals of the child find the handler installed. -/
theorem Kept.handled (hs : Kept pid s) (hborn : s.child ≠ .unborn)
    (hkilled : ∀ sig, s.parent.place ≠ .killed sig) : s.parent.disposition sigusr1 = .handle := by
  have hholds := hs.holds
  unfold Holds at hholds
  have hinstall : ∀ l : Pc, s.parent.place.At l → l ≠ .install := by
    rintro l hl rfl
    exact hborn (hs.childless (Or.inl ⟨.install, trivial, hl⟩))
  cases hplace : s.parent.place with
  | running l =>
    rw [hplace] at hholds
    exact hholds.handled (hinstall l (Or.inl hplace))
  | returning l =>
    rw [hplace] at hholds
    exact hholds.handled (hinstall l (Or.inr hplace))
  | killed sig => exact absurd hplace (hkilled sig)
  | exited status =>
    rw [hplace] at hholds
    obtain ⟨l, hprog, hat⟩ := hholds
    cases l <;> cases hprog
    · exact hat.handled Pc.noConfusion
    · exact hat.handled Pc.noConfusion

/-- The child sends its signal. -/
theorem Kept.kill (hs : Kept pid s) (hborn : s.child ≠ .unborn) (hlive : s.child ≠ .exited)
    {child : Child} (hsent : child.sent = s.child.sent + 1) :
    Kept pid ⟨s.parent.send sigusr1, child⟩ := by
  have hstep : SignalMask.step sigusr1Handler (main pid) s.parent (.send sigusr1) =
      some (s.parent.send sigusr1) := rfl
  have hfires := fires_of_step hstep
  obtain ⟨hdata, hserved⟩ := hfires.served_send (c := received)
  have hplace := hfires.send_place
  generalize s.parent.send sigusr1 = q at hfires hdata hserved hplace
  have hnone : ∀ P : Prop, s.child = .unborn → P := fun _ h => absurd h hborn
  refine ⟨(outline pid).step hs.holds hfires, ?_, fun l hl hat => ?_, fun _ hkilled => ?_,
    fun h => hnone _ (hs.childless ?_), fun h => absurd (hs.waited ?_) hlive,
    fun h => absurd (hs.waited ?_) hlive⟩
  · have hle := hs.sent
    unfold served at hle
    dsimp only
    rw [hsent]
    omega
  · rw [hdata]
    exact hs.deferred l hl (hplace ▸ hat)
  · dsimp only at hkilled
    rw [hplace] at hkilled
    obtain ⟨l, hat, -⟩ := hs.place hborn hlive hkilled
    have hhandled := hs.handled hborn hkilled
    have hignore : s.parent.disposition sigusr1 ≠ .ignore := by
      rw [hhandled]
      exact Disposition.noConfusion
    have hpending := hfires.sent (Place.alive_iff.mpr ⟨l, hat⟩) (Or.inr hignore)
    simp [served, hpending]
  · rwa [← hplace]
  · rwa [← hplace]
  · rw [← hplace]
    exact h.imp Or.inl id

theorem Kept.child (hs : Kept pid s) (h : childStep s = some s') : Kept pid s' := by
  have moves : ∀ child : Child, s.child ≠ .unborn → s.child ≠ .exited →
      child.sent = s.child.sent → Kept pid { s with child := child } := by
    intro child hborn hlive hsent
    exact ⟨hs.holds, hsent ▸ hs.sent, hs.deferred, fun h1 => hs.kept (hsent ▸ h1),
      fun h => absurd (hs.childless h) hborn, fun h => absurd (hs.waited h) hlive, hs.settled⟩
  unfold childStep at h
  split at h
  next => cases h
  next => cases h
  next hc =>
    cases h
    exact moves .firstKill (by rw [hc]; decide) (by rw [hc]; decide) (by rw [hc]; rfl)
  next hc =>
    cases h
    exact hs.kill (by rw [hc]; decide) (by rw [hc]; decide) (by rw [hc]; rfl)
  next hc =>
    cases h
    exact moves .secondKill (by rw [hc]; decide) (by rw [hc]; decide) (by rw [hc]; rfl)
  next hc =>
    cases h
    exact hs.kill (by rw [hc]; decide) (by rw [hc]; decide) (by rw [hc]; rfl)

theorem childless_next (h : (l.next pid).Childless) : l.Childless := by
  cases l <;> trivial

theorem held_next (h : (l.next pid).Held) : l.Held ∨ l = .block := by
  cases l <;> first | exact Or.inl trivial | exact Or.inr rfl | exact absurd h id

theorem leave_next (h : l.next pid = .leave) : l = .wait ∨ l = .leave := by
  cases l with
  | wait => exact Or.inl rfl
  | leave => exact Or.inr rfl
  | fork =>
    simp only [Pc.next] at h
    split at h
    next => cases h
    next => cases h
  | _ => cases h

/-- A step of the parent, as long as it does not start the child. -/
theorem Kept.alone (hs : Kept pid s) (h : Fires sigusr1Handler (main pid) s.parent a q)
    (hno : a ≠ .send sigusr1)
    (hwait : a = .go → s.parent.place = .running .wait → s.child = .exited) :
    Kept pid ⟨q, s.child⟩ := by
  refine ⟨(outline pid).step hs.holds h, ((counts pid).served_le h hno).trans hs.sent,
    fun k hk hat => ?_, fun hsent hkilled => ?_, ?_, ?_, ?_⟩
  · have hzero : ∀ l : Pc, l.Held → s.parent.place.At l → received q.data = 0 := by
      intro l hl hpl
      exact ((counts pid).of_blocked h ((hs.holds.at hpl).held hl)).trans (hs.deferred l hl hpl)
    rcases (follows pid).place_from h hat with hsame | ⟨l, -, hrun, rfl⟩
    · exact hzero k hk hsame
    · rcases held_next hk with hl | rfl
      · exact hzero l hl (Or.inl hrun)
      · have hborn := hs.childless (Or.inl ⟨.block, trivial, Or.inl hrun⟩)
        have hle := ((counts pid).served_le h hno).trans hs.sent
        rw [hborn] at hle
        exact Nat.eq_zero_of_le_zero (Nat.le_of_add_right_le hle)
  · have hborn : s.child ≠ .unborn := by
      intro hc
      rw [hc] at hsent
      exact absurd hsent (Nat.not_lt_zero 0)
    have hnot : ∀ sig, s.parent.place ≠ .killed sig := by
      intro sig hplace
      have hgone : ¬ s.parent.place.Alive := by
        rw [hplace]
        exact id
      exact hkilled sig ((h.gone hgone).trans hplace)
    exact (hs.kept hsent hnot).trans ((counts pid).served_ge h (hs.handled hborn hnot))
  · rintro (⟨k, hk, hat⟩ | hexit)
    · rcases (follows pid).place_from h hat with hsame | ⟨l, -, hrun, rfl⟩
      · exact hs.childless (Or.inl ⟨k, hk, hsame⟩)
      · exact hs.childless (Or.inl ⟨l, childless_next hk, Or.inl hrun⟩)
    · rcases h.exited hexit with hsame | ⟨l, hrun, hprog, -⟩
      · exact hs.childless (Or.inr hsame)
      · cases l <;> cases hprog
        exact hs.childless (Or.inl ⟨.fail, trivial, Or.inl hrun⟩)
  · rintro (hat | hexit)
    · rcases (follows pid).place_from h hat with hsame | ⟨l, hgo, hrun, hnext⟩
      · exact hs.waited (Or.inl hsame)
      · rcases leave_next hnext with rfl | rfl
        · exact hwait hgo hrun
        · exact hs.waited (Or.inl (Or.inl hrun))
    · rcases h.exited hexit with hsame | ⟨l, hrun, hprog, -⟩
      · exact hs.waited (Or.inr hsame)
      · cases l <;> cases hprog
        exact hs.waited (Or.inl (Or.inl hrun))
  · rintro (hrun | hexit)
    · rcases h.running_from hrun with
        hsame | ⟨rfl, hreturn⟩ | ⟨k, -, ⟨sig, hprog⟩ | ⟨f, next, hprog, hnext⟩⟩
      · exact h.not_pending (hs.settled (Or.inl hsame)) hno
      · refine h.not_pending (Bool.eq_false_iff.mpr fun hp => ?_) hno
        have hblocked := h.settled hp
        rw [(hs.holds.at (Or.inr hreturn)).lets id id] at hblocked
        cases hblocked
      · cases k <;> cases hprog
      · rcases leave_next (((follows pid).eval hprog _ _ _).symm.trans hnext) with rfl | rfl
        · cases hprog
        · cases hprog
    · rcases h.exited hexit with hsame | ⟨l, hrun, hprog, hpending⟩
      · exact h.not_pending (hs.settled (Or.inr hsame)) hno
      · cases l <;> cases hprog
        exact hpending ▸ hs.settled (Or.inl hrun)

theorem Kept.forked (hs : Kept pid ⟨p, .unborn⟩) (hplace : p.place = .running .announce) :
    Kept pid ⟨p, .firstSleep⟩ := by
  refine ⟨hs.holds, hs.sent, hs.deferred, fun hsent => absurd hsent (Nat.not_lt_zero 0), ?_, ?_,
    hs.settled⟩
  · rintro (⟨l, hl, hat⟩ | hexit)
    · cases hat.eq (Or.inl hplace)
      exact absurd hl id
    · cases hplace.symm.trans hexit
  · rintro (hat | hexit)
    · cases hat.eq (Or.inl hplace)
    · cases hplace.symm.trans hexit

theorem Kept.parent (hs : Kept pid s) (hno : a ≠ .send sigusr1) (h : parentStep pid s a = some s') :
    Kept pid s' := by
  unfold parentStep at h
  split at h
  next => cases h
  next hguard =>
    obtain ⟨q, hstep, rfl⟩ := Option.map_eq_some_iff.mp h
    have hfires := fires_of_step hstep
    have halone := hs.alone hfires hno fun hgo hrun => by
      by_contra hlive
      exact hguard ⟨hgo, hrun, hlive⟩
    split
    next hfork =>
      obtain ⟨hgo, hrun, hpid⟩ := hfork
      subst hgo
      have hborn := hs.childless (Or.inl ⟨.fork, trivial, Or.inl hrun⟩)
      rw [hborn] at halone
      have hplace : q.place = .running .announce := by
        simp only [step, Process.go, hrun, main, if_neg (Int.not_lt.mpr hpid)] at hstep
        cases hstep
        rfl
      exact halone.forked hplace
    next => exact halone

/-- Nobody but the child sends `SIGUSR1` to the parent. -/
def Undisturbed (_ : Family) (a : FamilyAct) : Prop := a ≠ .parent (.send sigusr1)

instance (s : Family) (a : FamilyAct) : Decidable (Undisturbed s a) :=
  inferInstanceAs (Decidable (a ≠ .parent (.send sigusr1)))

theorem Kept.step {a : FamilyAct} (hs : Kept pid s) (hno : Undisturbed s a)
    (h : familyStep pid s a = some s') : Kept pid s' := by
  cases a with
  | parent a => exact hs.parent (fun he => hno (congrArg FamilyAct.parent he)) h
  | child => exact hs.child h

/-- Once both signals are sent, with at most one run of the handler due to them. -/
def Merged (s : Family) : Prop :=
  s.child = .exited ∧ served sigusr1 received s.parent ≤ 1

theorem Merged.step {a : FamilyAct} (hs : Merged s) (hk : Kept pid s) (hno : Undisturbed s a)
    (h : familyStep pid s a = some s') : Merged s' := by
  obtain ⟨hchild, hle⟩ := hs
  cases a with
  | child =>
    simp only [familyStep, childStep, hchild] at h
    cases h
  | parent a =>
    simp only [familyStep, parentStep] at h
    split at h
    next => cases h
    next =>
      obtain ⟨q, hstep, rfl⟩ := Option.map_eq_some_iff.mp h
      have hsend : a ≠ .send sigusr1 := fun he => hno (congrArg FamilyAct.parent he)
      refine ⟨?_, ((counts pid).served_le (fires_of_step hstep) hsend).trans hle⟩
      dsimp only
      split
      next hfork =>
        have hborn := hk.childless (Or.inl ⟨.fork, trivial, Or.inl hfork.2.1⟩)
        cases hchild.symm.trans hborn
      next => exact hchild

theorem Kept.run {es : List (Event Family FamilyAct)} (hs : Kept pid s)
    (h : Trace (familyStep pid) s es s') (hothers : ∀ e ∈ es, Undisturbed e.before e.label) :
    Kept pid s' ∧ ∀ e ∈ es, Kept pid e.before := by
  have keep : ∀ (s : Family) (a : FamilyAct) (t : Family), Kept pid s → Undisturbed s a →
      familyStep pid s a = some t → Kept pid t := fun _ _ _ hs hno ht => hs.step hno ht
  exact ⟨h.invariant keep hs hothers, fun e he => (h.events keep hs hothers e he).1⟩

end

end LinuxAssignment.DeferredSignal
