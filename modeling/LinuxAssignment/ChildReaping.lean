import LinuxAssignment.StepSystem
import Mathlib.Data.Fintype.Basic
import Mathlib.Logic.Function.Basic

namespace LinuxAssignment.ChildReaping

open StepSystem

inductive Signal where
  | sigint
  | sigusr1
  | sigchld
  deriving DecidableEq

inductive Handler where
  | sigintHandler
  | sigusr1Handler
  | handleSigchld
  deriving DecidableEq

def signalList : List Signal := [.sigint, .sigusr1, .sigchld]

def handlerList : List Handler := [.sigintHandler, .sigusr1Handler, .handleSigchld]

/-- The handler that the dispatch table has for a signal. -/
def functionCallHandler (sig : Signal) : Option Handler := (signalList.zip handlerList).lookup sig

/-- How a child ends: by `exit`, or killed by a signal. -/
inductive End where
  | exited (status : UInt8)
  | killed (sig : Nat)
  deriving DecidableEq

/-- A child, and whether `waitpid` has still to report its last stop or continuation. -/
inductive Child where
  | unborn
  | running (continued : Bool)
  | stopped (sig : Nat) (unreported : Bool)
  | zombie (e : End)
  | reaped (e : End)
  deriving DecidableEq

/-- The `status` that `waitpid` stores. -/
inductive Status where
  | ended (e : End)
  | stopped (sig : Nat)
  | continued
  deriving DecidableEq

inductive Printed (κ : Type) where
  | received (sig : Signal)
  | exited (child : κ) (status : UInt8)
  | stopped (child : κ) (sig : Nat)
  | continued (child : κ)
  | notNormally (child : κ)
  | noHandler (sig : Signal)
  deriving DecidableEq

/-- Where a run of the installed handler is: at the dispatch, before the line of a simple handler,
before `waitpid`, before the line for a child, before the return. -/
inductive Place (κ : Type) where
  | dispatch
  | announce
  | waitpid
  | report (child : κ) (status : Status)
  | leave
  deriving DecidableEq

structure Frame (κ : Type) where
  sig : Signal
  place : Place κ
  deriving DecidableEq

/-- The children, the pending signals of the parent, its handlers under way with the innermost
first, and the lines it printed. -/
structure State (κ : Type) where
  child : κ → Child
  pending : Signal → Bool
  stack : List (Frame κ)
  printed : List (Printed κ)

inductive Act (κ : Type) where
  | fork (child : κ)
  | exit (child : κ) (status : UInt8)
  | kill (child : κ) (sig : Nat)
  | stop (child : κ) (sig : Nat)
  | cont (child : κ)
  | send (sig : Signal)
  | deliver (sig : Signal)
  | go (reported : Option κ)

/-- The state that `waitpid` can report of a child, and the child once it is reported. -/
def Child.news : Child → Option (Status × Child)
  | .running true => some (.continued, .running false)
  | .stopped sig true => some (.stopped sig, .stopped sig false)
  | .zombie e => some (.ended e, .reaped e)
  | _ => none

/-- What `handle_sigchld` prints, by the macros on the status. -/
def line {κ : Type} (child : κ) : Status → Printed κ
  | .ended (.exited status) => .exited child status
  | .stopped sig => .stopped child sig
  | .continued => .continued child
  | .ended (.killed _) => .notNormally child

section

variable {κ : Type}

def start : State κ := ⟨fun _ => .unborn, fun _ => false, [], []⟩

variable [DecidableEq κ]

/-- A child changes its state, which raises `SIGCHLD` in the parent. -/
def change (s : State κ) (k : κ) (c : Child) : State κ :=
  { s with
    child := Function.update s.child k c
    pending := Function.update s.pending .sigchld true }

variable [Fintype κ]

/-- `waitpid(-1, &status, WNOHANG | WUNTRACED | WCONTINUED)`: some child with news, or a value that
is not positive if there is none. -/
def waitpid (s : State κ) : Option κ → Option (State κ × Option (κ × Status))
  | some k => (s.child k).news.map fun r =>
    ({ s with child := Function.update s.child k r.2 }, some (k, r.1))
  | none => if ∀ k, (s.child k).news = none then some (s, none) else none

/-- The innermost handler takes one step; `frames` are those below it. -/
def runHandler (s : State κ) (f : Frame κ) (frames : List (Frame κ)) (reported : Option κ) :
    Option (State κ) :=
  match f.place with
  | .dispatch =>
    match functionCallHandler f.sig with
    | some .handleSigchld => some { s with stack := ⟨f.sig, .waitpid⟩ :: frames }
    | some _ => some { s with stack := ⟨f.sig, .announce⟩ :: frames }
    | none =>
      some { s with stack := ⟨f.sig, .leave⟩ :: frames, printed := s.printed ++ [.noHandler f.sig] }
  | .announce =>
    some { s with stack := ⟨f.sig, .leave⟩ :: frames, printed := s.printed ++ [.received f.sig] }
  | .waitpid => (waitpid s reported).map fun r =>
    match r.2 with
    | some (k, status) => { r.1 with stack := ⟨f.sig, .report k status⟩ :: frames }
    | none => { r.1 with stack := ⟨f.sig, .leave⟩ :: frames }
  | .report k status =>
    some { s with stack := ⟨f.sig, .waitpid⟩ :: frames, printed := s.printed ++ [line k status] }
  | .leave => some { s with stack := frames }

def step (s : State κ) : Act κ → Option (State κ)
  | .fork k =>
    if s.stack = [] ∧ s.child k = .unborn then
      some { s with child := Function.update s.child k (.running false) }
    else none
  | .exit k status =>
    match s.child k with
    | .running _ => some (change s k (.zombie (.exited status)))
    | _ => none
  | .kill k sig =>
    match s.child k with
    | .running _ | .stopped _ _ => some (change s k (.zombie (.killed sig)))
    | _ => none
  | .stop k sig =>
    match s.child k with
    | .running _ => some (change s k (.stopped sig true))
    | _ => none
  | .cont k =>
    match s.child k with
    | .stopped _ _ => some (change s k (.running true))
    | _ => none
  | .send sig => some { s with pending := Function.update s.pending sig true }
  | .deliver sig =>
    -- a signal is masked while a handler for it is under way
    if s.pending sig = true ∧ ∀ f ∈ s.stack, f.sig ≠ sig then
      some { s with
        pending := Function.update s.pending sig false
        stack := ⟨sig, .dispatch⟩ :: s.stack }
    else none
  | .go reported =>
    match s.stack with
    | [] => none
    | f :: frames => runHandler s f frames reported

end

/-- A run of `handle_sigchld` that has still to make its last call of `waitpid`. -/
def Frame.Drains {κ : Type} (f : Frame κ) : Prop :=
  match f.place with
  | .dispatch => f.sig = .sigchld
  | .waitpid | .report _ _ => True
  | .announce | .leave => False

def Child.ended : Child → Option End
  | .zombie e | .reaped e => some e
  | _ => none

/-- The lines about the end of a child. -/
def TellsEnd {κ : Type} (k : κ) : Printed κ → Prop
  | .exited c _ | .notNormally c => c = k
  | _ => False

instance {κ : Type} [DecidableEq κ] (k : κ) : (p : Printed κ) → Decidable (TellsEnd k p)
  | .exited c _ | .notNormally c => inferInstanceAs (Decidable (c = k))
  | .received _ | .stopped _ _ | .continued _ | .noHandler _ => isFalse id

/-- The lines printed, and those that a handler is about to print. -/
def State.told {κ : Type} (s : State κ) : List (Printed κ) :=
  s.printed ++ s.stack.filterMap fun f =>
    match f.place with
    | .report k status => some (line k status)
    | _ => none

/-- What is to be told about the end of a child once it is reaped. -/
def endLines {κ : Type} (k : κ) : Child → List (Printed κ)
  | .reaped e => [line k (.ended e)]
  | _ => []

structure Accounted {κ : Type} [DecidableEq κ] (s : State κ) : Prop where
  attended : ∀ k e, s.child k = .zombie e → s.pending .sigchld = true ∨ ∃ f ∈ s.stack, f.Drains
  told : ∀ k, s.told.filter (fun p => TellsEnd k p) = endLines k (s.child k)

section

variable {κ : Type} {s s' : State κ} {k : κ} {f : Frame κ} {frames : List (Frame κ)}

theorem tellsEnd_line_iff {c : κ} {status : Status} :
    TellsEnd k (line c status) ↔ c = k ∧ ∃ e, status = .ended e := by
  cases status with
  | ended e => cases e <;> simp [line, TellsEnd]
  | stopped sig => simp [line, TellsEnd]
  | continued => simp [line, TellsEnd]

theorem Child.news_cases {c : Child} {status : Status} {c' : Child}
    (h : c.news = some (status, c')) :
    (∃ e, c = .zombie e ∧ status = .ended e ∧ c' = .reaped e) ∨
      (∀ e, status ≠ .ended e) ∧ (∀ e, c' ≠ .zombie e) ∧ ∀ k : κ, endLines k c = [] ∧ endLines k c' = [] := by
  cases c with
  | unborn => cases h
  | reaped e => cases h
  | running continued =>
    cases continued <;> cases h
    exact Or.inr ⟨nofun, nofun, fun _ => ⟨rfl, rfl⟩⟩
  | stopped sig unreported =>
    cases unreported <;> cases h
    exact Or.inr ⟨nofun, nofun, fun _ => ⟨rfl, rfl⟩⟩
  | zombie e =>
    cases h
    exact Or.inl ⟨e, rfl, rfl, rfl⟩

theorem functionCallHandler_eq (sig : Signal) :
    functionCallHandler sig = some (match sig with
      | .sigint => .sigintHandler
      | .sigusr1 => .sigusr1Handler
      | .sigchld => .handleSigchld) := by
  cases sig <;> rfl

variable [DecidableEq κ]

/-- What is told stays in step with a child that changes without being reaped. -/
theorem Accounted.told_update (hs : Accounted s) {c : Child}
    (hsame : endLines k c = endLines k (s.child k)) (k' : κ) :
    s.told.filter (fun p => TellsEnd k' p) = endLines k' (Function.update s.child k c k') := by
  rw [hs.told k']
  by_cases hk : k' = k
  · subst hk
    rw [Function.update_self, hsame]
  · rw [Function.update_of_ne hk]

theorem Accounted.change (hs : Accounted s) {c : Child} (hold : endLines k (s.child k) = [])
    (hnew : endLines k c = []) : Accounted (change s k c) where
  attended _ _ _ := Or.inl (by simp [ChildReaping.change])
  told := hs.told_update (hnew.trans hold.symm)

theorem Accounted.fork (hs : Accounted s) (hk : s.child k = .unborn) :
    Accounted { s with child := Function.update s.child k (.running false) } where
  attended k' e hk' := by
    dsimp only at hk'
    by_cases he : k' = k
    · subst he
      rw [Function.update_self] at hk'
      cases hk'
    · rw [Function.update_of_ne he] at hk'
      exact hs.attended k' e hk'
  told := hs.told_update (by rw [hk]; rfl)

theorem Accounted.send (hs : Accounted s) (sig : Signal) :
    Accounted { s with pending := Function.update s.pending sig true } where
  attended k e hk := by
    rcases hs.attended k e hk with hp | hf
    · left
      dsimp only
      by_cases he : Signal.sigchld = sig
      · subst he
        exact Function.update_self _ _ _
      · rw [Function.update_of_ne he]
        exact hp
    · exact Or.inr hf
  told := hs.told

/-- A delivered `SIGCHLD` is no longer pending, but its handler has `waitpid` still to call. -/
theorem Accounted.deliver (hs : Accounted s) (sig : Signal) :
    Accounted { s with
      pending := Function.update s.pending sig false
      stack := ⟨sig, .dispatch⟩ :: s.stack } where
  attended k e hk := by
    by_cases he : Signal.sigchld = sig
    · exact Or.inr ⟨_, List.mem_cons_self, he.symm⟩
    · rcases hs.attended k e hk with hp | ⟨f, hf, hd⟩
      · left
        dsimp only
        rw [Function.update_of_ne he]
        exact hp
      · exact Or.inr ⟨f, List.mem_cons_of_mem _ hf, hd⟩
  told k := hs.told k

/-- Steps that replace the innermost handler, with the same told lines about ends. -/
theorem Accounted.restack (hs : Accounted s) (hstack : s.stack = f :: frames)
    (pushed : List (Frame κ)) (lines : List (Printed κ))
    (hdrains : f.Drains → ∃ g ∈ pushed, g.Drains)
    (htold : ∀ k, (State.told ⟨s.child, s.pending, pushed ++ frames, s.printed ++ lines⟩).filter
      (fun p => TellsEnd k p) = s.told.filter fun p => TellsEnd k p) :
    Accounted ⟨s.child, s.pending, pushed ++ frames, s.printed ++ lines⟩ where
  attended k e hk := by
    rcases hs.attended k e hk with hp | ⟨g, hg, hdrain⟩
    · exact Or.inl hp
    · rw [hstack] at hg
      rcases List.mem_cons.mp hg with rfl | hg
      · obtain ⟨g', hg', hdrain'⟩ := hdrains hdrain
        exact Or.inr ⟨g', List.mem_append_left _ hg', hdrain'⟩
      · exact Or.inr ⟨g, List.mem_append_right _ hg, hdrain⟩
  told k := (htold k).trans (hs.told k)

theorem Accounted.silent (hs : Accounted s) (hstack : s.stack = f :: frames)
    (pushed : List (Frame κ)) (hdrains : f.Drains → ∃ g ∈ pushed, g.Drains)
    (htold : State.told { s with stack := pushed ++ frames } = s.told) :
    Accounted { s with stack := pushed ++ frames } := by
  have hrestacked := hs.restack hstack pushed [] hdrains fun k => by rw [List.append_nil, htold]
  rwa [List.append_nil] at hrestacked

/-- A child with news is reported by the handler that asked for it. -/
theorem Accounted.reap (hs : Accounted s) (hstack : s.stack = f :: frames)
    (hplace : f.place = .waitpid) {status : Status} {c : Child}
    (hnews : (s.child k).news = some (status, c)) :
    Accounted { s with
      child := Function.update s.child k c
      stack := ⟨f.sig, .report k status⟩ :: frames } where
  attended _ _ _ := Or.inr ⟨_, List.mem_cons_self, trivial⟩
  told k' := by
    have htold := hs.told k'
    simp only [State.told, hstack, List.filterMap_cons, hplace, List.filter_append] at htold
    simp only [State.told, List.filterMap_cons, List.filter_append, List.filter_cons]
    by_cases hk : k' = k
    · subst hk
      rw [Function.update_self]
      rcases Child.news_cases (κ := κ) hnews with ⟨e, hc, rfl, rfl⟩ | ⟨hstatus, -, hlines⟩
      · rw [hc] at htold
        obtain ⟨h1, h2⟩ := List.append_eq_nil_iff.mp htold
        have htells : TellsEnd k' (line k' (.ended e)) := tellsEnd_line_iff.mpr ⟨rfl, e, rfl⟩
        rw [h1, h2, if_pos (decide_eq_true htells)]
        rfl
      · have hno : ¬ TellsEnd k' (line k' status) := fun ht => by
          obtain ⟨-, e, he⟩ := tellsEnd_line_iff.mp ht
          exact hstatus e he
        rw [if_neg (by simpa using hno), (hlines k').2, ← (hlines k').1]
        exact htold
    · have hno : ¬ TellsEnd k' (line k status) := fun ht => hk (tellsEnd_line_iff.mp ht).1.symm
      rw [Function.update_of_ne hk, if_neg (by simpa using hno)]
      exact htold

/-- The lines about one child that are printed already. -/
theorem Accounted.printed_once (hs : Accounted s) (k : κ) :
    s.printed.filter (fun p => TellsEnd k p) = [] ∨ ∃ e, (s.child k).ended = some e ∧
      s.printed.filter (fun p => TellsEnd k p) = [line k (.ended e)] := by
  have htold := hs.told k
  rw [State.told, List.filter_append] at htold
  cases hc : s.child k with
  | reaped e =>
    rw [hc] at htold
    rcases List.append_eq_singleton_iff.mp htold with ⟨h0, -⟩ | ⟨h1, -⟩
    · exact Or.inl h0
    · exact Or.inr ⟨e, rfl, h1⟩
  | unborn | running | stopped | zombie =>
    rw [hc] at htold
    exact Or.inl (List.append_eq_nil_iff.mp htold).1

variable [Fintype κ]

theorem Accounted.runHandler (hs : Accounted s) (hstack : s.stack = f :: frames)
    {reported : Option κ} (h : runHandler s f frames reported = some s') : Accounted s' := by
  obtain ⟨sig, place⟩ := f
  cases place with
  | dispatch =>
    simp only [ChildReaping.runHandler, functionCallHandler_eq] at h
    cases sig with
    | sigchld =>
      cases h
      exact hs.silent hstack [⟨_, .waitpid⟩] (fun _ => ⟨_, List.mem_singleton_self _, trivial⟩)
        (by simp [State.told, hstack])
    | sigint | sigusr1 =>
      cases h
      exact hs.silent hstack [⟨_, .announce⟩] (fun hd => by cases hd) (by simp [State.told, hstack])
  | announce =>
    cases h
    exact hs.restack hstack [⟨sig, .leave⟩] [.received sig] (fun hd => absurd hd id)
      (fun k => by
        have hno : ¬ TellsEnd k (Printed.received sig) := id
        simp [State.told, hstack, hno])
  | report k status =>
    cases h
    exact hs.restack hstack [⟨sig, .waitpid⟩] [line k status]
      (fun _ => ⟨_, List.mem_singleton_self _, trivial⟩) (fun k => by simp [State.told, hstack])
  | leave =>
    cases h
    exact hs.silent hstack [] (fun hd => absurd hd id) (by simp [State.told, hstack])
  | waitpid =>
    obtain ⟨⟨t, r⟩, hwait, h⟩ := Option.map_eq_some_iff.mp h
    cases reported with
    | some k =>
      obtain ⟨⟨status, c⟩, hnews, hr⟩ := Option.map_eq_some_iff.mp hwait
      cases hr
      cases h
      exact hs.reap hstack rfl hnews
    | none =>
      obtain ⟨hnone, hr⟩ := Option.ite_none_right_eq_some.mp hwait
      cases hr
      cases h
      refine ⟨fun k e hk => ?_, fun k => ?_⟩
      · have := hnone k
        rw [hk] at this
        cases this
      · have htold := hs.told k
        simp only [State.told, hstack] at htold
        simpa [State.told] using htold

theorem Accounted.step {a : Act κ} (hs : Accounted s) (h : step s a = some s') : Accounted s' := by
  cases a with
  | fork k =>
    obtain ⟨⟨-, hk⟩, h⟩ := Option.ite_none_right_eq_some.mp h
    cases h
    exact hs.fork hk
  | exit k status | stop k sig | cont k =>
    simp only [ChildReaping.step] at h
    split at h
    next hc =>
      cases h
      exact hs.change (by rw [hc]; rfl) rfl
    next => cases h
  | kill k sig =>
    simp only [ChildReaping.step] at h
    split at h
    next hc =>
      cases h
      exact hs.change (by rw [hc]; rfl) rfl
    next hc =>
      cases h
      exact hs.change (by rw [hc]; rfl) rfl
    next => cases h
  | send sig =>
    cases h
    exact hs.send sig
  | deliver sig =>
    obtain ⟨-, h⟩ := Option.ite_none_right_eq_some.mp h
    cases h
    exact hs.deliver sig
  | go reported =>
    simp only [ChildReaping.step] at h
    split at h
    next => cases h
    next f frames hstack => exact hs.runHandler hstack h

/-- No exit is lost: an exited child that is not reaped has a `SIGCHLD` pending or a handler that
will call `waitpid` again, each end is printed at most once and as it was, and it is printed once
the parent is idle. -/
theorem no_exit_lost {s : State κ} {es : List (Event (State κ) (Act κ))}
    (h : Trace step start es s) :
    (∀ k e, s.child k = .zombie e → s.pending .sigchld = true ∨ ∃ f ∈ s.stack, f.Drains) ∧
    (∀ k, s.printed.filter (fun p => TellsEnd k p) = [] ∨ ∃ e, (s.child k).ended = some e ∧
      s.printed.filter (fun p => TellsEnd k p) = [line k (.ended e)]) ∧
    (s.stack = [] → s.pending .sigchld = false → ∀ k e, (s.child k).ended = some e →
      s.printed.filter (fun p => TellsEnd k p) = [line k (.ended e)]) := by
  have keep : ∀ (s : State κ) (a : Act κ) (t : State κ), Accounted s → True → step s a = some t →
      Accounted t := fun _ _ _ hs _ ht => hs.step ht
  have hstart : Accounted (start : State κ) := ⟨fun _ _ h => (by cases h), fun _ => rfl⟩
  have hs := h.invariant keep hstart fun _ _ => trivial
  refine ⟨hs.attended, hs.printed_once, fun hstack hpending k e he => ?_⟩
  have htold := hs.told k
  rw [State.told, hstack, List.filterMap_nil, List.append_nil] at htold
  cases hc : s.child k with
  | reaped e' =>
    rw [hc] at he htold
    cases he
    exact htold
  | zombie e' =>
    rcases hs.attended k e' hc with hp | ⟨f, hf, -⟩
    · rw [hpending] at hp
      cases hp
    · rw [hstack] at hf
      cases hf
  | unborn | running | stopped =>
    rw [hc] at he
    cases he

end

/-- Two children exit before the one `SIGCHLD` is delivered, inside a `SIGINT`. -/
def coalesced : List (Act Bool) :=
  [.fork false, .fork true, .exit true 11, .exit false 10, .send .sigint, .deliver .sigint, .go none,
    .deliver .sigchld, .go none, .go (some false), .go none, .go (some true), .go none, .go none,
    .go none, .go none, .go none]

def coalescedEnd : State Bool := last step start coalesced

theorem no_exit_lost_coalesced :
    ((∀ k e, coalescedEnd.child k = .zombie e →
        coalescedEnd.pending .sigchld = true ∨ ∃ f ∈ coalescedEnd.stack, f.Drains) ∧
      (∀ k, coalescedEnd.printed.filter (fun p => TellsEnd k p) = [] ∨
        ∃ e, (coalescedEnd.child k).ended = some e ∧
          coalescedEnd.printed.filter (fun p => TellsEnd k p) = [line k (.ended e)]) ∧
      (coalescedEnd.stack = [] → coalescedEnd.pending .sigchld = false →
        ∀ k e, (coalescedEnd.child k).ended = some e →
          coalescedEnd.printed.filter (fun p => TellsEnd k p) = [line k (.ended e)])) ∧
      (record step start coalesced).length = coalesced.length ∧ coalescedEnd.stack = [] ∧
      coalescedEnd.printed = [.exited false 10, .exited true 11, .received .sigint] :=
  ⟨no_exit_lost (Trace.recorded step start coalesced), by decide, by decide, by decide⟩

end LinuxAssignment.ChildReaping
