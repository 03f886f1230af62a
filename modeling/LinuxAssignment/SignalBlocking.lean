import LinuxAssignment.SignalMask

namespace LinuxAssignment.SignalBlocking

open SignalMask StepSystem

abbrev nsig : Nat := 65

abbrev Signal := Fin nsig

abbrev sigint : Signal := 2
abbrev sigquit : Signal := 3
abbrev sigterm : Signal := 15

abbrev Mask := Signal → Bool

def sigemptyset : Mask := fun _ => false

def sigaddset (set : Mask) (sig : Signal) : Mask := Function.update set sig true

def signalsToBlock : List Signal := [sigint, sigterm, sigquit]

/-- The set that `blockSignal` and `unBlockSignal` build. -/
def blockSet : Mask := signalsToBlock.foldl sigaddset sigemptyset

inductive Line where
  | allBlocked
  | shown
  | blocked (sig : Signal)
  | noneBlocked
  | allUnblocked
  deriving DecidableEq

/-- The locals of `printSignalMask`, and the lines printed. -/
structure Locals where
  currentMask : Mask
  maskFound : Bool
  printed : List Line

inductive Pc where
  | announceBlock
  | block
  | firstSleep
  | query
  | header
  | list (sig : Nat)
  | listed
  | secondSleep
  | announceUnblock
  | unblock
  | idle
  deriving DecidableEq

/-- The line for a signal number, if it is in the set. -/
def lineOf (set : Mask) (sig : Nat) : Option Line :=
  if h : sig < nsig then if set ⟨sig, h⟩ then some (.blocked ⟨sig, h⟩) else none else none

def main : Pc → Instr Signal Locals Pc
  | .announceBlock => .eval (fun _ _ x => { x with printed := x.printed ++ [.allBlocked] })
      fun _ _ _ => .block
  | .block => .mask (SignalMask.block blockSet) .firstSleep
  | .firstSleep => .call .query
  | .query => .eval (fun mask _ x => { x with currentMask := mask }) fun _ _ _ => .header
  | .header => .eval (fun _ _ x => { x with maskFound := false, printed := x.printed ++ [.shown] })
      fun _ _ _ => .list 1
  | .list sig => .eval
      (fun _ _ x => match lineOf x.currentMask sig with
        | some line => { x with maskFound := true, printed := x.printed ++ [line] }
        | none => x)
      fun _ _ _ => if sig < nsig then .list (sig + 1) else .listed
  | .listed => .eval
      (fun _ _ x => if x.maskFound then x else { x with printed := x.printed ++ [.noneBlocked] })
      fun _ _ _ => .secondSleep
  | .secondSleep => .call .announceUnblock
  | .announceUnblock => .eval (fun _ _ x => { x with printed := x.printed ++ [.allUnblocked] })
      fun _ _ _ => .unblock
  | .unblock => .mask (SignalMask.unblock blockSet) .idle
  | .idle => .call .idle

/-- No handler is installed. -/
def noHandler {σ : Type} (_ : Signal) (x : σ) : σ := x

/-- The process as it is started: mask, dispositions and pending signals are inherited. -/
def start (mask : Mask) (disposition : Signal → Disposition) (pending : Mask) :
    Process Signal Locals Pc :=
  ⟨mask, pending, disposition, ⟨sigemptyset, false, []⟩, .running .announceBlock⟩

/-- The mask while the signals are blocked. -/
abbrev held (mask : Mask) : Mask := SignalMask.block blockSet mask

def Pc.mask (mask : Mask) : Pc → Mask
  | .announceBlock | .block => mask
  | .idle => SignalMask.unblock blockSet (held mask)
  | _ => held mask

/-- The lines for the signals below a number. -/
def shownBelow (set : Mask) (sig : Nat) : List Line := (List.range' 1 (sig - 1)).filterMap (lineOf set)

def shownAll (set : Mask) : List Line := .allBlocked :: .shown :: shownBelow set nsig

inductive Told (mask : Mask) (x : Locals) : Pc → Prop
  | announceBlock : x.printed = [] → Told mask x .announceBlock
  | block : x.printed = [.allBlocked] → Told mask x .block
  | firstSleep : x.printed = [.allBlocked] → Told mask x .firstSleep
  | query : x.printed = [.allBlocked] → Told mask x .query
  | header : x.printed = [.allBlocked] → x.currentMask = held mask → Told mask x .header
  | list (sig : Nat) : 1 ≤ sig → sig ≤ nsig → x.currentMask = held mask →
      x.printed = .allBlocked :: .shown :: shownBelow (held mask) sig →
      x.maskFound = !(shownBelow (held mask) sig).isEmpty → Told mask x (.list sig)
  | listed : x.printed = shownAll (held mask) → x.maskFound = true → Told mask x .listed
  | secondSleep : x.printed = shownAll (held mask) → Told mask x .secondSleep
  | announceUnblock : x.printed = shownAll (held mask) → Told mask x .announceUnblock
  | unblock : x.printed = shownAll (held mask) ++ [.allUnblocked] → Told mask x .unblock
  | idle : x.printed = shownAll (held mask) ++ [.allUnblocked] → Told mask x .idle

structure At (mask : Mask) (disposition : Signal → Disposition) (l : Pc) (b : Mask)
    (d : Signal → Disposition) (x : Locals) : Prop where
  masked : b = l.mask mask
  kept : d = disposition
  told : Told mask x l

/-- The signals are blocked from the first `sigprocmask` to the last one. -/
def Pc.Held : Pc → Prop
  | .announceBlock | .block | .idle => False
  | _ => True

def Held (p : Place Signal Pc) : Prop := ∃ l : Pc, l.Held ∧ p.At l

theorem blockSet_eq {sig : Signal} : blockSet sig = true ↔ sig ∈ signalsToBlock := by
  revert sig
  decide

theorem held_eq {mask : Mask} {sig : Signal} (h : sig ∈ signalsToBlock) : held mask sig = true := by
  simp [held, SignalMask.block, blockSet_eq.mpr h]

theorem unblocked_eq {mask : Mask} {sig : Signal} (h : sig ∈ signalsToBlock) :
    SignalMask.unblock blockSet mask sig = false := by
  simp [SignalMask.unblock, blockSet_eq.mpr h]

theorem Pc.Held.mask {l : Pc} (h : l.Held) (mask : Mask) : l.mask mask = held mask := by
  cases l <;> first | rfl | exact absurd h id

theorem shownBelow_succ (set : Mask) {sig : Nat} (h : 1 ≤ sig) :
    shownBelow set (sig + 1) = shownBelow set sig ++ (lineOf set sig).toList := by
  obtain ⟨n, rfl⟩ := Nat.exists_eq_add_of_le' h
  simp only [shownBelow, Nat.add_sub_cancel]
  rw [List.range'_concat, List.filterMap_append]
  congr 1
  rw [Nat.one_mul, Nat.add_comm 1 n]
  cases hline : lineOf set (n + 1) <;> simp [hline]

theorem lineOf_ge (set : Mask) {sig : Nat} (h : ¬ sig < nsig) : lineOf set sig = none := dif_neg h

/-- `SIGINT` is in the list, so it is never empty. -/
theorem shown_found (mask : Mask) : (shownBelow (held mask) nsig).isEmpty = false := by
  have hline : lineOf (held mask) 2 = some (.blocked sigint) := by
    have hin : held mask sigint = true := held_eq (by decide)
    simp only [lineOf, nsig, Nat.reduceLT, dif_pos]
    exact if_pos hin
  rw [List.isEmpty_eq_false_iff_exists_mem]
  exact ⟨_, List.mem_filterMap.mpr ⟨2, by decide, hline⟩⟩

section

variable {mask b : Mask} {disposition d : Signal → Disposition} {x : Locals} {l next : Pc}

/-- One pass of the loop of `printSignalMask`. -/
theorem told_list {sig : Nat} (h1 : 1 ≤ sig) (hle : sig ≤ nsig) (hmask : x.currentMask = held mask)
    (hprinted : x.printed = .allBlocked :: .shown :: shownBelow (held mask) sig)
    (hfound : x.maskFound = !(shownBelow (held mask) sig).isEmpty) :
    Told mask (match lineOf x.currentMask sig with
        | some line => { x with maskFound := true, printed := x.printed ++ [line] }
        | none => x)
      (if sig < nsig then .list (sig + 1) else .listed) := by
  rw [hmask]
  by_cases hlt : sig < nsig
  · rw [if_pos hlt]
    have hsucc := shownBelow_succ (held mask) h1
    cases hline : lineOf (held mask) sig with
    | none =>
      rw [hline, Option.toList_none, List.append_nil] at hsucc
      exact .list (sig + 1) (Nat.le_add_left 1 sig) hlt hmask (hsucc ▸ hprinted) (hsucc ▸ hfound)
    | some line =>
      rw [hline, Option.toList_some] at hsucc
      refine .list (sig + 1) (Nat.le_add_left 1 sig) hlt rfl ?_ ?_
      · dsimp only
        rw [hprinted, hsucc]
        rfl
      · rw [hsucc]
        simp
  · have heq : sig = nsig := Nat.le_antisymm hle (Nat.not_lt.mp hlt)
    rw [if_neg hlt, lineOf_ge _ hlt]
    rw [heq] at hprinted hfound
    exact .listed hprinted (hfound.trans (by rw [shown_found]; rfl))

theorem told_eval {f : Mask → Mask → Locals → Locals} {g : Mask → Mask → Locals → Pc}
    (hl : main l = .eval f g) (h : At mask disposition l b d x) (pending : Mask) :
    At mask disposition (g b pending x) b d (f b pending x) := by
  obtain ⟨hb, hd, htold⟩ := h
  cases htold with
  | announceBlock hp =>
    cases hl
    exact ⟨hb, hd, .block (by simp [hp])⟩
  | query hp =>
    cases hl
    exact ⟨hb, hd, .header hp hb⟩
  | header hp hm =>
    cases hl
    exact ⟨hb, hd, .list 1 (Nat.le_refl 1) (by decide) hm (by simp [hp, shownBelow]) rfl⟩
  | list sig h1 hle hm hp hf =>
    cases hl
    refine ⟨?_, hd, told_list h1 hle hm hp hf⟩
    split
    next => exact hb
    next => exact hb
  | listed hp hf =>
    cases hl
    refine ⟨hb, hd, .secondSleep ?_⟩
    dsimp only
    rw [if_pos hf]
    exact hp
  | announceUnblock hp =>
    cases hl
    exact ⟨hb, hd, .unblock (by simp [hp])⟩
  | block => cases hl
  | firstSleep => cases hl
  | secondSleep => cases hl
  | unblock => cases hl
  | idle => cases hl

theorem outline (hnone : ∀ sig, disposition sig ≠ .handle) :
    Outline noHandler main (At mask disposition) where
  mask := by
    intro l f next b d x hl h
    obtain ⟨hb, hd, htold⟩ := h
    cases htold with
    | block hp =>
      cases hl
      exact ⟨congrArg _ hb, hd, .firstSleep hp⟩
    | unblock hp =>
      cases hl
      exact ⟨congrArg _ hb, hd, .idle hp⟩
    | _ => cases hl
  install := by
    intro l sig next b d x hl h
    cases l <;> cases hl
  eval := fun hl h pending => told_eval hl h pending
  call := by
    intro l next b d x hl h
    obtain ⟨hb, hd, htold⟩ := h
    cases htold with
    | firstSleep hp =>
      cases hl
      exact ⟨hb, hd, .query hp⟩
    | secondSleep hp =>
      cases hl
      exact ⟨hb, hd, .announceUnblock hp⟩
    | idle hp =>
      cases hl
      exact ⟨hb, hd, .idle hp⟩
    | _ => cases hl
  handler := by
    intro l b d x sig _ hd h
    rw [h.kept] at hd
    exact absurd hd (hnone sig)

theorem start_holds (mask : Mask) (disposition : Signal → Disposition) (pending : Mask) :
    Holds main (At mask disposition) (start mask disposition pending) :=
  ⟨rfl, rfl, .announceBlock rfl⟩

variable {p q : Process Signal Locals Pc} {a : Act Signal} {sig : Signal}

theorem Held.blocked (hheld : Held p.place) (h : Holds main (At mask disposition) p)
    (hsig : sig ∈ signalsToBlock) : p.blocked sig = true := by
  obtain ⟨l, hl, hplace⟩ := hheld
  rw [(h.at hplace).masked, hl.mask]
  exact held_eq hsig

theorem eval_not_idle {f : Mask → Mask → Locals → Locals} {g : Mask → Mask → Locals → Pc}
    (hl : main l = .eval f g) (b pending : Mask) (x : Locals) : g b pending x ≠ .idle := by
  cases l with
  | list sig =>
    cases hl
    dsimp only
    split
    next => exact Pc.noConfusion
    next => exact Pc.noConfusion
  | _ => cases hl <;> exact Pc.noConfusion

/-- The process comes to its last loop only through the return of the last `sigprocmask`. -/
theorem idle_entry (h : Fires noHandler main p a q) (hp : Holds main (At mask disposition) p)
    (hbefore : p.place ≠ .running .idle) (hafter : q.place = .running .idle)
    (hsig : sig ∈ signalsToBlock) : a = .settle ∧ p.blocked sig = false := by
  cases h with
  | settle l hl =>
    cases hafter
    refine ⟨rfl, ?_⟩
    rw [(hp.at (Or.inr hl)).masked]
    exact unblocked_eq hsig
  | eval l f next hl hprog => exact absurd (Place.running.inj hafter) (eval_not_idle hprog _ _ _)
  | install l sig next hl hprog => cases l <;> cases hprog
  | lost => exact absurd hafter hbefore
  | send => exact absurd hafter hbefore
  | ignore => exact absurd hafter hbefore
  | handle => exact absurd hafter hbefore
  | terminate => cases hafter
  | mask => cases hafter
  | call => cases hafter
  | exit => cases hafter

theorem Held.alive {place : Place Signal Pc} (h : Held place) : place.Alive := by
  obtain ⟨l, -, hplace⟩ := h
  exact Place.alive_iff.mpr ⟨l, hplace⟩

theorem Held.not_idle {place : Place Signal Pc} (h : Held place) : place ≠ .running .idle := by
  rintro rfl
  obtain ⟨l, hl, hplace | hplace⟩ := h
  · cases hplace
    exact hl
  · cases hplace

variable {pending : Mask} {es : List (Event (Process Signal Locals Pc) (Act Signal))}
  {e : Event (Process Signal Locals Pc) (Act Signal)}

/-- A signal sent while it is blocked ends the process before it gets into its last loop. -/
theorem sent_held (hnone : ∀ sig, disposition sig ≠ .handle)
    (h : Trace (step noHandler main) (start mask disposition pending) es p) (he : e ∈ es)
    (hsend : e.label = .send sig) (hheld : Held e.before.place) (hsig : sig ∈ signalsToBlock)
    (hidle : p.place = .running .idle) : disposition sig = .ignore := by
  by_contra hnot
  have hterminate : disposition sig = .terminate := by
    cases hd : disposition sig with
    | terminate => rfl
    | ignore => exact absurd hd hnot
    | handle => exact absurd hd (hnone sig)
  obtain ⟨-, hevents⟩ := (outline hnone).run h (start_holds mask disposition pending)
  obtain ⟨past, later, rfl⟩ := List.append_of_mem he
  have hafter : ∀ d ∈ later, Holds main (At mask disposition) d.before := fun d hd =>
    (hevents d (List.mem_append_right _ (List.mem_cons_of_mem _ hd))).1
  obtain ⟨-, hstep, hlater⟩ := h.split
  rw [hsend] at hstep
  have hfires := fires_of_step hstep
  have hpending := hfires.sent hheld.alive (Or.inl (hheld.blocked (hevents e he).1 hsig))
  have hplace : e.after.place ≠ .running .idle := by
    rw [hfires.send_place]
    exact hheld.not_idle
  obtain ⟨d, hd, hdeliver⟩ := delivered_on_the_way hlater hpending hplace hidle
    fun d hd hfires hfrom hto => idle_entry hfires (hafter d hd) hfrom hto hsig
  have hdfires := fires_of_step (step_of_mem hlater hd)
  rw [hdeliver] at hdfires
  obtain ⟨l, hl⟩ := Place.alive_iff.mp hdfires.delivered.1
  have hkept := ((hafter d hd).at hl).kept
  have hkilled := killed_of_delivered hlater hd hdeliver (hkept ▸ hterminate)
  cases hidle.symm.trans hkilled

end

/-- Between the two calls of `sigprocmask` none of the three signals is delivered. The loop lists the
blocked signals, whichever were inherited. And the process gets behind the second call only if none
of the three was sent in between, unless it is ignored. -/
theorem blocked_until_unblocked {mask : Mask} {disposition : Signal → Disposition} {pending : Mask}
    (hnone : ∀ sig, disposition sig ≠ .handle)
    {es : List (Event (Process Signal Locals Pc) (Act Signal))} {p : Process Signal Locals Pc}
    (h : Trace (step noHandler main) (start mask disposition pending) es p) :
    (∀ e ∈ es, ∀ sig ∈ signalsToBlock, e.label = .deliver sig → ¬ Held e.before.place) ∧
      (p.place = .running .idle → p.data.printed = shownAll (held mask) ++ [.allUnblocked] ∧
        ∀ e ∈ es, ∀ sig ∈ signalsToBlock, e.label = .send sig → Held e.before.place →
          disposition sig = .ignore) := by
  obtain ⟨hlast, hevents⟩ := (outline hnone).run h (start_holds mask disposition pending)
  refine ⟨fun e he sig hsig hdeliver hheld => ?_, fun hidle => ⟨?_, ?_⟩⟩
  · obtain ⟨hbefore, hfires⟩ := hevents e he
    rw [hdeliver] at hfires
    have hopen := hfires.delivered.2.2
    rw [hheld.blocked hbefore hsig] at hopen
    cases hopen
  · have htold := (hlast.at (Or.inl hidle)).told
    cases htold with
    | idle hp => exact hp
  · exact fun e he sig hsig hsend hheld => sent_held hnone h he hsend hheld hsig hidle

def termIgnored : Signal → Disposition := fun sig => if sig = sigterm then .ignore else .terminate

def shellStart : Process Signal Locals Pc := start sigemptyset termIgnored sigemptyset

/-- An ignored `SIGTERM` comes in the first sleep, and is discarded behind the unblocking. -/
def ignoredTerm : List (Act Signal) :=
  [.go, .go, .settle, .send sigterm, .go, .settle, .go, .go] ++ List.replicate 65 .go ++
    [.go, .go, .settle, .go, .go, .deliver sigterm, .settle]

theorem ignoredTerm_waits :
    (record (step noHandler main) shellStart ignoredTerm).length = ignoredTerm.length ∧
    (∀ e ∈ record (step noHandler main) shellStart ignoredTerm,
      ∀ sig ∈ signalsToBlock, e.label = .deliver sig → ¬ Held e.before.place) ∧
    (last (step noHandler main) shellStart ignoredTerm).data.printed =
      shownAll (held sigemptyset) ++ [.allUnblocked] ∧
    ∀ e ∈ record (step noHandler main) shellStart ignoredTerm, ∀ sig ∈ signalsToBlock,
      e.label = .send sig → Held e.before.place → termIgnored sig = .ignore := by
  have hnone : ∀ sig, termIgnored sig ≠ .handle := by
    intro sig
    unfold termIgnored
    split <;> exact nofun
  obtain ⟨hdeliver, hidle⟩ := blocked_until_unblocked hnone
    (Trace.recorded (step noHandler main) shellStart ignoredTerm)
  exact ⟨by decide +kernel, hdeliver, hidle (by decide +kernel)⟩

end LinuxAssignment.SignalBlocking
