import LinuxAssignment.SignalBlocking

namespace LinuxAssignment.PendingSignal

open SignalBlocking SignalMask StepSystem

inductive Line where
  | youCanSend
  | pending
  | noSignal
  | waiting
  deriving DecidableEq

structure Locals where
  pendingSet : Mask
  pendingCount : Nat
  printed : List Line

inductive Pc where
  | block
  | announce
  | sleep
  | sigpending
  | list (sig : Nat)
  | fail
  | listed
  | waiting
  | pause
  deriving DecidableEq

def blockSet : Mask := sigaddset sigemptyset sigint

def sigismember (set : Mask) (sig : Nat) : Bool := if h : sig < nsig then set ⟨sig, h⟩ else false

/-- `sigpending` yields the pending signals that are blocked. -/
def main : Pc → Instr Signal Locals Pc
  | .block => .mask (SignalMask.block blockSet) .announce
  | .announce => .eval (fun _ _ x => { x with printed := x.printed ++ [.youCanSend] })
      fun _ _ _ => .sleep
  | .sleep => .call .sigpending
  | .sigpending => .eval
      (fun mask pending x => { x with pendingSet := fun sig => mask sig && pending sig, pendingCount := 0 })
      fun _ _ _ => .list 1
  | .list sig => .eval
      (fun _ _ x => if sigismember x.pendingSet sig then
        { x with printed := x.printed ++ [.pending], pendingCount := 1 } else x)
      fun _ _ x => if sigismember x.pendingSet sig then .fail
        else if sig < nsig then .list (sig + 1) else .listed
  | .fail => .exit 1
  | .listed => .eval
      (fun _ _ x => if x.pendingCount = 0 then { x with printed := x.printed ++ [.noSignal] } else x)
      fun _ _ _ => .waiting
  | .waiting => .eval (fun _ _ x => { x with printed := x.printed ++ [.waiting] }) fun _ _ _ => .pause
  | .pause => .call .waiting

def start (mask : Mask) (disposition : Signal → Disposition) (pending : Mask) :
    Process Signal Locals Pc :=
  ⟨mask, pending, disposition, ⟨sigemptyset, 0, []⟩, .running .block⟩

def Pc.mask (mask : Mask) : Pc → Mask
  | .block => mask
  | _ => SignalMask.block blockSet mask

/-- No signal below a number is in the set. -/
def NoneBelow (set : Mask) (sig : Nat) : Prop := ∀ n, 1 ≤ n → n < sig → sigismember set n = false

inductive Told (mask : Mask) (x : Locals) : Pc → Prop
  | block : x.printed = [] → Told mask x .block
  | announce : x.printed = [] → Told mask x .announce
  | sleep : x.printed = [.youCanSend] → Told mask x .sleep
  | sigpending : x.printed = [.youCanSend] → Told mask x .sigpending
  | list (sig : Nat) : 1 ≤ sig → NoneBelow x.pendingSet sig → x.pendingCount = 0 →
      (∀ n, x.pendingSet n = true → SignalMask.block blockSet mask n = true) →
      x.printed = [.youCanSend] → Told mask x (.list sig)
  | fail (sig : Signal) : x.pendingSet sig = true → SignalMask.block blockSet mask sig = true →
      x.printed = [.youCanSend, .pending] → Told mask x .fail
  | listed : NoneBelow x.pendingSet nsig → x.pendingCount = 0 → x.printed = [.youCanSend] →
      Told mask x .listed
  | waiting (n : Nat) : NoneBelow x.pendingSet nsig →
      x.printed = [.youCanSend, .noSignal] ++ List.replicate n .waiting → Told mask x .waiting
  | pause (n : Nat) : NoneBelow x.pendingSet nsig →
      x.printed = [.youCanSend, .noSignal] ++ List.replicate n .waiting → Told mask x .pause

structure At (mask : Mask) (disposition : Signal → Disposition) (l : Pc) (b : Mask)
    (d : Signal → Disposition) (x : Locals) : Prop where
  masked : b = l.mask mask
  kept : d = disposition
  told : Told mask x l

section

variable {mask b : Mask} {disposition d : Signal → Disposition} {x : Locals} {l next : Pc}

theorem told_eval {f : Mask → Mask → Locals → Locals} {g : Mask → Mask → Locals → Pc}
    (hl : main l = .eval f g) (h : At mask disposition l b d x) (pending : Mask) :
    At mask disposition (g b pending x) b d (f b pending x) := by
  obtain ⟨hb, hd, htold⟩ := h
  cases htold with
  | announce hp =>
    cases hl
    exact ⟨hb, hd, .sleep (by simp [hp])⟩
  | sigpending hp =>
    cases hl
    refine ⟨hb, hd, .list 1 (Nat.le_refl 1) (fun n h1 hlt => absurd hlt (by omega)) rfl ?_ hp⟩
    intro n hn
    obtain ⟨hblocked, -⟩ := Bool.and_eq_true_iff.mp hn
    rw [hb] at hblocked
    exact hblocked
  | list sig h1 hnone hcount hset hp =>
    cases hl
    by_cases hmem : sigismember x.pendingSet sig = true
    · simp only [hmem, if_true]
      have hlt : sig < nsig := by
        by_contra hge
        rw [sigismember, dif_neg hge] at hmem
        cases hmem
      rw [sigismember, dif_pos hlt] at hmem
      exact ⟨hb, hd, .fail ⟨sig, hlt⟩ hmem (hset _ hmem) (by simp [hp])⟩
    · simp only [hmem]
      have hnext : NoneBelow x.pendingSet (sig + 1) := by
        intro n hn hlt
        rcases Nat.lt_succ_iff_lt_or_eq.mp hlt with hlt | rfl
        · exact hnone n hn hlt
        · exact Bool.eq_false_iff.mpr hmem
      by_cases hlt : sig < nsig
      · simp only [hlt, if_true]
        exact ⟨hb, hd, .list (sig + 1) (Nat.le_add_left 1 sig) hnext hcount hset hp⟩
      · simp only [hlt]
        refine ⟨hb, hd, .listed (fun n hn hbelow => hnone n hn (by omega)) hcount hp⟩
  | listed hnone hcount hp =>
    cases hl
    simp only [hcount, if_true]
    exact ⟨hb, hd, .waiting 0 hnone (by simp [hp])⟩
  | waiting n hnone hp =>
    cases hl
    refine ⟨hb, hd, .pause (n + 1) hnone ?_⟩
    simp [hp, List.replicate_succ']
  | block => cases hl
  | sleep => cases hl
  | fail => cases hl
  | pause => cases hl

theorem outline (hnone : ∀ sig, disposition sig ≠ .handle) :
    Outline noHandler main (At mask disposition) where
  mask := by
    intro l f next b d x hl h
    obtain ⟨hb, hd, htold⟩ := h
    cases htold with
    | block hp =>
      cases hl
      exact ⟨congrArg _ hb, hd, .announce hp⟩
    | _ => cases hl
  install := by
    intro l sig next b d x hl h
    cases l <;> cases hl
  eval := fun hl h pending => told_eval hl h pending
  call := by
    intro l next b d x hl h
    obtain ⟨hb, hd, htold⟩ := h
    cases htold with
    | sleep hp =>
      cases hl
      exact ⟨hb, hd, .sigpending hp⟩
    | pause n hn hp =>
      cases hl
      exact ⟨hb, hd, .waiting n hn hp⟩
    | _ => cases hl
  handler := by
    intro l b d x sig _ hd h
    rw [h.kept] at hd
    exact absurd hd (hnone sig)

theorem start_holds (mask : Mask) (disposition : Signal → Disposition) (pending : Mask) :
    Holds main (At mask disposition) (start mask disposition pending) :=
  ⟨rfl, rfl, .block rfl⟩

/-- Before the check of the pending signals, with `SIGINT` blocked. -/
def Pc.Early : Pc → Prop
  | .announce | .sleep | .sigpending => True
  | _ => False

def Pc.Late : Pc → Prop
  | .list _ | .fail | .listed | .waiting | .pause => True
  | _ => False

/-- A `SIGINT` has come in time and is pending, or is among the signals that were found, or the process
has ended. -/
inductive Noticed (p : Process Signal Locals Pc) : Prop
  | early (l : Pc) : l.Early → p.place.At l → p.pending sigint = true → Noticed p
  | late (l : Pc) : l.Late → p.place.At l → p.data.pendingSet sigint = true → Noticed p
  | ended : ¬ p.place.Alive → Noticed p

variable {p q : Process Signal Locals Pc} {a : Act Signal}

theorem sigint_blocked (hl : l ≠ .block) (hp : Holds main (At mask disposition) p)
    (hplace : p.place.At l) : p.blocked sigint = true := by
  have hmask : l.mask mask = SignalMask.block blockSet mask := by
    cases l <;> first | rfl | exact absurd rfl hl
  rw [(hp.at hplace).masked, hmask]
  exact Bool.or_true _

theorem late_eval {f : Mask → Mask → Locals → Locals} {g : Mask → Mask → Locals → Pc} (hlate : l.Late)
    (hl : main l = .eval f g) (b pending : Mask) (x : Locals) :
    (g b pending x).Late ∧ (f b pending x).pendingSet = x.pendingSet := by
  cases l with
  | list sig =>
    cases hl
    dsimp only
    constructor
    · split
      next => trivial
      next => split <;> trivial
    · split <;> rfl
  | listed =>
    cases hl
    dsimp only
    refine ⟨trivial, ?_⟩
    split <;> rfl
  | waiting =>
    cases hl
    exact ⟨trivial, rfl⟩
  | fail => cases hl
  | pause => cases hl
  | _ => exact absurd hlate id

theorem early_eval {f : Mask → Mask → Locals → Locals} {g : Mask → Mask → Locals → Pc}
    (hearly : l.Early) (hl : main l = .eval f g) {b pending : Mask} (hb : b sigint = true)
    (hpending : pending sigint = true) (x : Locals) :
    (g b pending x).Early ∨ (g b pending x).Late ∧ (f b pending x).pendingSet sigint = true := by
  cases l with
  | announce =>
    cases hl
    exact Or.inl trivial
  | sigpending =>
    cases hl
    refine Or.inr ⟨trivial, ?_⟩
    simp [hb, hpending]
  | sleep => cases hl
  | _ => exact absurd hearly id

theorem Noticed.step (hn : Noticed p) (hp : Holds main (At mask disposition) p)
    (h : Fires noHandler main p a q) : Noticed q := by
  cases hn with
  | ended hgone => exact .ended (by rwa [h.gone hgone])
  | early l hearly hplace hpending =>
    have hl : l ≠ .block := by
      rintro rfl
      exact hearly
    have hblocked := sigint_blocked hl hp hplace
    have hkept : q.pending sigint = true := by
      refine h.pending hpending ?_
      rintro rfl
      have hopen := h.delivered.2.2
      rw [hblocked] at hopen
      cases hopen
    cases h.moves hplace with
    | ends hgone => exact .ended hgone
    | stays hat => exact .early l hearly hat hkept
    | handles sig hat => exact .early l hearly hat hkept
    | mask f next hprog hat => cases l <;> cases hprog; exact absurd rfl hl
    | install sig next hprog => cases l <;> cases hprog
    | eval f next hprog hat hdata =>
      rcases early_eval hearly hprog hblocked hpending p.data with hnext | ⟨hnext, hset⟩
      · exact .early _ hnext hat hkept
      · exact .late _ hnext hat (hdata ▸ hset)
    | call next hprog hat =>
      cases l with
      | sleep =>
        cases hprog
        exact .early .sigpending trivial hat hkept
      | announce => cases hprog
      | sigpending => cases hprog
      | _ => exact absurd hearly id
  | late l hlate hplace hset =>
    cases h.moves hplace with
    | ends hgone => exact .ended hgone
    | stays hat hdata => exact .late l hlate hat (hdata ▸ hset)
    | handles sig hat _ _ hdata => exact .late l hlate hat (hdata ▸ hset)
    | mask f next hprog => cases l <;> cases hprog; exact absurd hlate id
    | install sig next hprog => cases l <;> cases hprog
    | eval f next hprog hat hdata =>
      obtain ⟨hnext, hkept⟩ := late_eval hlate hprog p.blocked p.pending p.data
      refine .late _ hnext hat ?_
      rw [hdata, hkept]
      exact hset
    | call next hprog hat hdata =>
      cases l with
      | pause =>
        cases hprog
        exact .late .waiting trivial hat (hdata ▸ hset)
      | list => cases hprog
      | fail => cases hprog
      | listed => cases hprog
      | waiting => cases hprog
      | _ => exact absurd hlate id

variable {pending : Mask} {es : List (Event (Process Signal Locals Pc) (Act Signal))}
  {e : Event (Process Signal Locals Pc) (Act Signal)}

theorem Noticed.run (hn : Noticed p) (hp : Holds main (At mask disposition) p)
    (hnone : ∀ sig, disposition sig ≠ .handle) (h : Trace (SignalMask.step noHandler main) p es q) :
    Noticed q := by
  have keep : ∀ (p : Process Signal Locals Pc) (a : Act Signal) (q : Process Signal Locals Pc),
      (Noticed p ∧ Holds main (At mask disposition) p) → True →
      SignalMask.step noHandler main p a = some q → Noticed q ∧ Holds main (At mask disposition) q :=
    fun _ _ _ hs _ hstep =>
      ⟨hs.1.step hs.2 (fires_of_step hstep), (outline hnone).step hs.2 (fires_of_step hstep)⟩
  exact (h.invariant keep ⟨hn, hp⟩ fun _ _ => trivial).1

/-- A `SIGINT` that comes in time is noticed. -/
theorem sent_early (hnone : ∀ sig, disposition sig ≠ .handle)
    (h : Trace (SignalMask.step noHandler main) (start mask disposition pending) es p) (he : e ∈ es)
    (hsend : e.label = .send sigint) (hearly : l.Early) (hplace : e.before.place.At l) :
    Noticed p := by
  obtain ⟨-, hevents⟩ := (outline hnone).run h (start_holds mask disposition pending)
  obtain ⟨hbefore, hfires⟩ := hevents e he
  obtain ⟨past, later, rfl⟩ := List.append_of_mem he
  obtain ⟨-, -, hlater⟩ := h.split
  rw [hsend] at hfires
  have hl : l ≠ .block := by
    rintro rfl
    exact hearly
  have hpending := hfires.sent (Place.alive_iff.mpr ⟨l, hplace⟩)
    (Or.inl (sigint_blocked hl hbefore hplace))
  have hnoticed : Noticed e.after := by
    refine .early l hearly ?_ hpending
    rwa [hfires.send_place]
  exact hnoticed.run ((outline hnone).step hbefore hfires) hnone hlater

theorem sigismember_sigint (set : Mask) : sigismember set 2 = set sigint := rfl

end

/-- `SIGINT` is delivered only before it is blocked. The process exits only with 1, for a blocked
signal that was pending at the check, which is `SIGINT` if the mask inherited blocks no other. It
waits for ever only if no `SIGINT` came between the two calls. -/
theorem exits_when_pending {mask : Mask} {disposition : Signal → Disposition} {pending : Mask}
    (hnone : ∀ sig, disposition sig ≠ .handle)
    {es : List (Event (Process Signal Locals Pc) (Act Signal))} {p : Process Signal Locals Pc}
    (h : Trace (SignalMask.step noHandler main) (start mask disposition pending) es p) :
    (∀ e ∈ es, e.label = .deliver sigint → e.before.place.At .block) ∧
      (∀ status, p.place = .exited status → status = 1 ∧ p.data.printed = [.youCanSend, .pending] ∧
        ∃ sig, p.data.pendingSet sig = true ∧ (mask sig = true ∨ sig = sigint)) ∧
      (p.place.At .waiting →
        (∃ n, p.data.printed = [.youCanSend, .noSignal] ++ List.replicate n .waiting) ∧
        ∀ e ∈ es, e.label = .send sigint → ∀ l : Pc, l.Early → ¬ e.before.place.At l) := by
  obtain ⟨hlast, hevents⟩ := (outline hnone).run h (start_holds mask disposition pending)
  refine ⟨fun e he hdeliver => ?_, fun status hexit => ?_, fun hwaiting => ?_⟩
  · obtain ⟨hbefore, hfires⟩ := hevents e he
    rw [hdeliver] at hfires
    obtain ⟨halive, -, hopen⟩ := hfires.delivered
    obtain ⟨l, hl⟩ := Place.alive_iff.mp halive
    by_cases hblock : l = .block
    · exact hblock ▸ hl
    · rw [sigint_blocked hblock hbefore hl] at hopen
      cases hopen
  · unfold Holds at hlast
    rw [hexit] at hlast
    obtain ⟨l, hprog, hat⟩ := hlast
    cases l <;> cases hprog
    obtain ⟨-, -, htold⟩ := hat
    cases htold with
    | fail sig hset hblocked hp =>
      refine ⟨rfl, hp, sig, hset, ?_⟩
      rcases Bool.or_eq_true_iff.mp hblocked with hmask | hblock
      · exact Or.inl hmask
      · refine Or.inr ?_
        by_contra hne
        rw [blockSet, sigaddset, Function.update_of_ne hne] at hblock
        cases hblock
  · have htold := (hlast.at hwaiting).told
    cases htold with
    | waiting n hbelow hp =>
      refine ⟨⟨n, hp⟩, fun e he hsend l hearly hplace => ?_⟩
      cases sent_early hnone h he hsend hearly hplace with
      | early k hk hat =>
        cases hat.eq hwaiting
        exact hk
      | late k hk hat hset =>
        have hfree := hbelow 2 (by decide) (by decide)
        rw [sigismember_sigint, hset] at hfree
        cases hfree
      | ended hgone => exact hgone (Place.alive_iff.mpr ⟨_, hwaiting⟩)

/-- A Ctrl-C during the sleep. -/
def ctrlC : List (Act Signal) :=
  [.go, .settle, .go, .go, .send sigint, .settle, .go, .go, .go, .go]

theorem ctrlC_exits :
    (record (step noHandler main) (start sigemptyset (fun _ => .terminate) sigemptyset)
      ctrlC).length = ctrlC.length ∧
    (last (step noHandler main) (start sigemptyset (fun _ => .terminate) sigemptyset)
      ctrlC).data.printed = [.youCanSend, .pending] ∧
    ∃ sig, (last (step noHandler main) (start sigemptyset (fun _ => .terminate) sigemptyset)
      ctrlC).data.pendingSet sig = true ∧ (sigemptyset sig = true ∨ sig = sigint) :=
  ⟨rfl, ((exits_when_pending (fun _ => Disposition.noConfusion)
    (Trace.recorded _ _ ctrlC)).2.1 1 rfl).2⟩

end LinuxAssignment.PendingSignal
