import LinuxAssignment.StepSystem
import Mathlib.Data.List.Basic
import Mathlib.Data.List.Nodup
import Mathlib.Data.List.Perm.Basic
import Mathlib.Data.List.TakeWhile

namespace LinuxAssignment.SocketRelay

open StepSystem

abbrev bufSize : Nat := 1024

inductive Fd where
  | stdin
  | socket
  deriving DecidableEq

/-- Where `main` is: before `epoll_wait`, with events left to serve, about to write `buf` to
`sv[0]`, or past the loop. -/
inductive Pc where
  | wait
  | events (evs : List Fd)
  | write (buf : List UInt8) (evs : List Fd)
  | left
  deriving DecidableEq

/-- The two lines of the loop, with the string that stands for `%s`. -/
inductive Printed where
  | userTyped (text : List UInt8)
  | message (text : List UInt8)
  deriving DecidableEq

/-- The bytes that wait on stdin and its end, the bytes in flight in the socketpair, and, for the
statements only, the bytes read from stdin and the chunks read from `sv[1]`. -/
structure State where
  arrived : List UInt8
  eof : Bool
  inFlight : List UInt8
  pc : Pc
  printed : List Printed
  input : List UInt8
  received : List (List UInt8)
  deriving DecidableEq

def start : State := ⟨[], false, [], .wait, [], [], []⟩

inductive Act where
  | arrive (bytes : List UInt8)
  | endOfFile
  | epollWait (evs : List Fd)
  | epollFails
  | go

/-- The descriptors that level-triggered `epoll` reports. -/
def State.ready (s : State) : List Fd :=
  (if s.arrived ≠ [] ∨ s.eof then [.stdin] else []) ++ if s.inFlight ≠ [] then [.socket] else []

/-- What `%s` prints of a buffer that ends in a NUL. -/
def cString (buf : List UInt8) : List UInt8 := buf.takeWhile (· ≠ 0)

def serveStdin (s : State) (evs : List Fd) : State :=
  let buf := s.arrived.take (bufSize - 1)
  if buf = [] then { s with pc := .events evs }
  else
    { s with
      arrived := s.arrived.drop (bufSize - 1)
      input := s.input ++ buf
      printed := s.printed ++ [.userTyped (cString buf)]
      pc := .write buf evs }

def serveSocket (s : State) (evs : List Fd) : State :=
  let buf := s.inFlight.take (bufSize - 1)
  if buf = [] then { s with pc := .events evs }
  else
    { s with
      inFlight := s.inFlight.drop (bufSize - 1)
      received := s.received ++ [buf]
      printed := s.printed ++ [.message (cString buf)]
      pc := .events evs }

/-- One step, where the socketpair holds `capacity` bytes; a write that does not fit blocks. -/
def step (capacity : Nat) (s : State) : Act → Option State
  | .arrive bytes => if s.eof then none else some { s with arrived := s.arrived ++ bytes }
  | .endOfFile => some { s with eof := true }
  | .epollWait evs =>
    if s.pc = .wait ∧ evs ≠ [] ∧ evs.Perm s.ready then some { s with pc := .events evs } else none
  | .epollFails => if s.pc = .wait then some { s with pc := .left } else none
  | .go =>
    match s.pc with
    | .wait | .left => none
    | .events [] => some { s with pc := .wait }
    | .events (.stdin :: evs) => some (serveStdin s evs)
    | .events (.socket :: evs) => some (serveSocket s evs)
    | .write buf evs =>
      if s.inFlight.length + buf.length ≤ capacity then
        some { s with inFlight := s.inFlight ++ buf, pc := .events evs }
      else none

/-- The bytes read from stdin and not yet written to the socketpair. -/
def Pc.held : Pc → List UInt8
  | .write buf _ => buf
  | _ => []

def messages (printed : List Printed) : List (List UInt8) :=
  printed.filterMap fun
    | .message text => some text
    | .userTyped _ => none

/-- How much may be in flight with these events still to serve, if a pass reads `r` bytes at most. -/
def limit (r : Nat) : List Fd → Nat
  | [] => r
  | .stdin :: evs => limit r evs - r
  | .socket :: evs => limit r evs + r

/-- What may be in flight in each place. -/
def Pc.Bounded (r n : Nat) : Pc → Prop
  | .wait | .left => n ≤ r
  | .events evs => evs.Nodup ∧ n ≤ limit r evs
  | .write buf evs => evs.Nodup ∧ n + buf.length ≤ limit r evs

/-- What one step does; an event with nothing to read is only passed over. -/
inductive Moves (capacity : Nat) (s : State) : Act → State → Prop where
  | arrive (bytes : List UInt8) (heof : ¬ s.eof = true) :
    Moves capacity s (.arrive bytes) { s with arrived := s.arrived ++ bytes }
  | endOfFile : Moves capacity s .endOfFile { s with eof := true }
  | wait (evs : List Fd) (hpc : s.pc = .wait) (hne : evs ≠ []) (hperm : evs.Perm s.ready) :
    Moves capacity s (.epollWait evs) { s with pc := .events evs }
  | fails (hpc : s.pc = .wait) : Moves capacity s .epollFails { s with pc := .left }
  | endPass (hpc : s.pc = .events []) : Moves capacity s .go { s with pc := .wait }
  | passStdin (evs : List Fd) (hpc : s.pc = .events (.stdin :: evs)) (hnone : s.arrived = []) :
    Moves capacity s .go { s with pc := .events evs }
  | passSocket (evs : List Fd) (hpc : s.pc = .events (.socket :: evs)) (hnone : s.inFlight = []) :
    Moves capacity s .go { s with pc := .events evs }
  | readStdin (evs : List Fd) (buf : List UInt8) (hpc : s.pc = .events (.stdin :: evs))
      (hbuf : buf = s.arrived.take (bufSize - 1)) (hne : buf ≠ []) :
    Moves capacity s .go
      { s with
        arrived := s.arrived.drop (bufSize - 1)
        input := s.input ++ buf
        printed := s.printed ++ [.userTyped (cString buf)]
        pc := .write buf evs }
  | readSocket (evs : List Fd) (buf : List UInt8) (hpc : s.pc = .events (.socket :: evs))
      (hbuf : buf = s.inFlight.take (bufSize - 1)) (hne : buf ≠ []) :
    Moves capacity s .go
      { s with
        inFlight := s.inFlight.drop (bufSize - 1)
        received := s.received ++ [buf]
        printed := s.printed ++ [.message (cString buf)]
        pc := .events evs }
  | write (buf : List UInt8) (evs : List Fd) (hpc : s.pc = .write buf evs)
      (hroom : s.inFlight.length + buf.length ≤ capacity) :
    Moves capacity s .go { s with inFlight := s.inFlight ++ buf, pc := .events evs }

structure Relayed (s : State) : Prop where
  order : s.received.flatten ++ s.inFlight ++ s.pc.held = s.input
  printed : messages s.printed = s.received.map cString
  bounded : s.pc.Bounded (bufSize - 1) s.inFlight.length

section

variable {r n : Nat} {evs : List Fd}

theorem limit_of_no_stdin (h : Fd.stdin ∉ evs) : r ≤ limit r evs := by
  induction evs with
  | nil => exact Nat.le_refl r
  | cons fd evs ih =>
    cases fd with
    | stdin => exact absurd List.mem_cons_self h
    | socket =>
      have := ih fun hmem => h (List.mem_cons_of_mem _ hmem)
      simp only [limit]
      omega

theorem limit_le (r : Nat) (evs : List Fd) : limit r evs ≤ (evs.count .socket + 1) * r := by
  induction evs with
  | nil => simp [limit]
  | cons fd evs ih =>
    cases fd with
    | stdin =>
      rw [limit, List.count_cons_of_ne (by decide)]
      omega
    | socket =>
      rw [limit, List.count_cons_self, Nat.add_mul _ 1]
      omega

theorem limit_le_twice (h : evs.Nodup) : limit r evs ≤ 2 * r := by
  have hone := List.nodup_iff_count_le_one.mp h .socket
  exact Nat.le_trans (limit_le r evs) (Nat.mul_le_mul_right r (Nat.succ_le_succ hone))

theorem Pc.Bounded.le {pc : Pc} (h : pc.Bounded r n) : n ≤ 2 * r := by
  cases pc with
  | wait | left =>
    have hle : n ≤ r := h
    omega
  | events evs => exact Nat.le_trans h.2 (limit_le_twice h.1)
  | write buf evs =>
    have hle := limit_le_twice (r := r) h.1
    have hroom := h.2
    omega

end

section

variable {capacity : Nat} {s s' : State} {a : Act} {evs : List Fd}

theorem ready_nodup (s : State) : s.ready.Nodup := by
  unfold State.ready
  split <;> split <;> decide

/-- The events of an `epoll_wait` leave room for what is in flight. -/
theorem limit_ready {r : Nat} (hle : s.inFlight.length ≤ r) (h : evs.Perm s.ready) :
    s.inFlight.length ≤ limit r evs := by
  by_cases hin : s.inFlight = []
  · simp [hin]
  · have hready : s.ready = [.socket] ∨ s.ready = [.stdin, .socket] := by
      simp only [State.ready, if_pos hin]
      split
      next => exact Or.inr rfl
      next => exact Or.inl rfl
    have hlimit : r ≤ limit r evs := by
      rcases hready with hr | hr
      · rw [hr] at h
        rw [List.perm_singleton.mp h]
        simp [limit]
      · rw [hr] at h
        have hcases : evs = [.stdin, .socket] ∨ evs = [.socket, .stdin] := by
          have hlen := h.length_eq
          have hnodup := h.nodup_iff.mpr (by decide)
          match evs, hlen with
          | [x, y], _ => cases x <;> cases y <;> simp_all
        rcases hcases with rfl | rfl <;> simp [limit]
    omega

theorem messages_append (xs ys : List Printed) : messages (xs ++ ys) = messages xs ++ messages ys :=
  List.filterMap_append

theorem Relayed.place (hs : Relayed s) {pc : Pc} (hpc : s.pc = pc) :
    s.received.flatten ++ s.inFlight ++ pc.held = s.input ∧
      pc.Bounded (bufSize - 1) s.inFlight.length :=
  hpc ▸ ⟨hs.order, hs.bounded⟩

theorem take_eq_nil {bytes : List UInt8} (h : bytes.take (bufSize - 1) = []) : bytes = [] :=
  (List.take_eq_nil_iff.mp h).resolve_left (by decide)

theorem moves_of_step (h : step capacity s a = some s') : Moves capacity s a s' := by
  cases a with
  | arrive bytes =>
    obtain ⟨heof, h⟩ := Option.ite_none_left_eq_some.mp h
    cases h
    exact .arrive bytes heof
  | endOfFile =>
    cases h
    exact .endOfFile
  | epollWait evs =>
    obtain ⟨⟨hpc, hne, hperm⟩, h⟩ := Option.ite_none_right_eq_some.mp h
    cases h
    exact .wait evs hpc hne hperm
  | epollFails =>
    obtain ⟨hpc, h⟩ := Option.ite_none_right_eq_some.mp h
    cases h
    exact .fails hpc
  | go =>
    simp only [step] at h
    split at h
    next => cases h
    next => cases h
    next hpc =>
      cases h
      exact .endPass hpc
    next evs hpc =>
      cases h
      unfold serveStdin
      dsimp only
      split
      next hnone => exact .passStdin evs hpc (take_eq_nil hnone)
      next hne => exact .readStdin evs _ hpc rfl hne
    next evs hpc =>
      cases h
      unfold serveSocket
      dsimp only
      split
      next hnone => exact .passSocket evs hpc (take_eq_nil hnone)
      next hne => exact .readSocket evs _ hpc rfl hne
    next buf evs hpc =>
      obtain ⟨hroom, h⟩ := Option.ite_none_right_eq_some.mp h
      cases h
      exact .write buf evs hpc hroom

theorem Relayed.step (hs : Relayed s) (h : step capacity s a = some s') : Relayed s' := by
  cases moves_of_step h with
  | arrive bytes | endOfFile => exact ⟨hs.order, hs.printed, hs.bounded⟩
  | wait evs hpc hne hperm =>
    obtain ⟨horder, hbounded⟩ := hs.place hpc
    exact ⟨horder, hs.printed, hperm.nodup_iff.mpr (ready_nodup s), limit_ready hbounded hperm⟩
  | fails hpc =>
    obtain ⟨horder, hbounded⟩ := hs.place hpc
    exact ⟨horder, hs.printed, hbounded⟩
  | endPass hpc =>
    obtain ⟨horder, hbounded⟩ := hs.place hpc
    exact ⟨horder, hs.printed, hbounded.2⟩
  | passStdin evs hpc =>
    obtain ⟨horder, hnodup, hle⟩ := hs.place hpc
    rw [limit] at hle
    exact ⟨horder, hs.printed, (List.nodup_cons.mp hnodup).2, by dsimp only; omega⟩
  | passSocket evs hpc hnone =>
    obtain ⟨horder, hnodup, -⟩ := hs.place hpc
    exact ⟨horder, hs.printed, (List.nodup_cons.mp hnodup).2, by simp [hnone]⟩
  | readStdin evs buf hpc hbuf =>
    obtain ⟨horder, hnodup, hle⟩ := hs.place hpc
    obtain ⟨hstdin, hnodup⟩ := List.nodup_cons.mp hnodup
    -- the pass reads stdin once, so that what this read adds still fits
    have hroom := limit_of_no_stdin (r := bufSize - 1) hstdin
    have htake : buf.length ≤ bufSize - 1 := hbuf ▸ List.length_take_le _ _
    simp only [Pc.held, List.append_nil] at horder
    rw [limit] at hle
    refine ⟨by simp only [Pc.held, horder], ?_, hnodup, by dsimp only; omega⟩
    rw [messages_append, hs.printed]
    exact List.append_nil _
  | readSocket evs buf hpc hbuf =>
    obtain ⟨horder, hnodup, hle⟩ := hs.place hpc
    simp only [Pc.held, List.append_nil] at horder
    rw [limit] at hle
    refine ⟨?_, ?_, (List.nodup_cons.mp hnodup).2, ?_⟩
    · simp only [Pc.held, List.append_nil, List.flatten_append, List.flatten_singleton,
        List.append_assoc, hbuf, List.take_append_drop]
      exact horder
    · rw [messages_append, hs.printed, List.map_append]
      rfl
    · dsimp only
      rw [List.length_drop]
      omega
  | write buf evs hpc =>
    obtain ⟨horder, hbounded⟩ := hs.place hpc
    refine ⟨?_, hs.printed, hbounded.1, by rw [List.length_append]; exact hbounded.2⟩
    simpa [Pc.held] using horder

theorem cString_of_no_nul {buf : List UInt8} (h : 0 ∉ buf) : cString buf = buf := by
  refine List.takeWhile_eq_self_iff.mpr fun b hb => decide_eq_true ?_
  rintro rfl
  exact h hb

theorem Relayed.printed_all (hs : Relayed s) (h : 0 ∉ s.input) :
    (messages s.printed).flatten = s.received.flatten := by
  have hsame : ∀ buf ∈ s.received, cString buf = id buf := by
    intro buf hbuf
    refine cString_of_no_nul fun h0 => h ?_
    rw [← hs.order, List.append_assoc]
    exact List.mem_append_left _ (List.mem_flatten.mpr ⟨buf, hbuf, h0⟩)
  rw [hs.printed, List.map_congr_left hsame, List.map_id]

/-- What was received, is in flight and is held is what was read from stdin, each received chunk is
printed up to its first NUL, and no more than two reads are ever in flight, so that no write to the
socketpair blocks. -/
theorem relay_in_order (capacity : Nat) {s : State} {es : List (Event State Act)}
    (h : Trace (step capacity) start es s) :
    s.received.flatten ++ s.inFlight ++ s.pc.held = s.input ∧
    messages s.printed = s.received.map cString ∧
    (0 ∉ s.input → (messages s.printed).flatten = s.received.flatten) ∧
    (s.pc = .wait → s.inFlight.length ≤ bufSize - 1) ∧
    s.inFlight.length ≤ 2 * (bufSize - 1) ∧
    (2 * (bufSize - 1) ≤ capacity → ∀ buf evs, s.pc = .write buf evs →
      (step capacity s .go).isSome) := by
  have keep : ∀ (s : State) (a : Act) (t : State), Relayed s → True → step capacity s a = some t →
      Relayed t := fun _ _ _ hs _ ht => hs.step ht
  have hstart : Relayed start := ⟨rfl, rfl, Nat.zero_le _⟩
  have hs := h.invariant keep hstart fun _ _ => trivial
  refine ⟨hs.order, hs.printed, hs.printed_all, fun hpc => ?_, hs.bounded.le, fun hcap buf evs hpc => ?_⟩
  · exact (hs.place hpc).2
  · obtain ⟨-, hnodup, hroom⟩ := hs.place hpc
    have hlimit := limit_le_twice (r := bufSize - 1) hnodup
    have hfits : s.inFlight.length + buf.length ≤ capacity := by omega
    simp [step, hpc, hfits]

end

/-- Input that arrives before and during a pass that serves both descriptors, stdin first. -/
def twoLines : List Act :=
  [.arrive [65, 66], .epollWait [.stdin], .go, .go, .go, .arrive [67], .epollWait [.stdin, .socket],
    .go, .arrive [68]]

theorem twoLines_in_order :
    (record (step 2046) start twoLines).length = twoLines.length ∧
    (last (step 2046) start twoLines).received.flatten ++
        (last (step 2046) start twoLines).inFlight ++ (last (step 2046) start twoLines).pc.held =
      (last (step 2046) start twoLines).input ∧
    (last (step 2046) start twoLines).inFlight = [65, 66] ∧
    (last (step 2046) start twoLines).pc = .write [67] [.socket] ∧
    (step 2046 (last (step 2046) start twoLines) .go).isSome := by
  have hrun := relay_in_order 2046 (Trace.recorded (step 2046) start twoLines)
  have hpc : (last (step 2046) start twoLines).pc = .write [67] [.socket] := by decide
  exact ⟨rfl, hrun.1, by decide, hpc, hrun.2.2.2.2.2 (by decide) _ _ hpc⟩

/-- A NUL in the input cuts off what is printed of its chunk. -/
theorem nul_cuts_message :
    ¬ ∀ (capacity : Nat) (s : State) (es : List (Event State Act)),
      Trace (step capacity) start es s →
      (messages s.printed).flatten ++ s.inFlight ++ s.pc.held = s.input := by
  intro h
  have hrun := h 2046 _ _ (Trace.recorded _ start
    [.arrive [65, 0, 66], .epollWait [.stdin], .go, .go, .go, .epollWait [.socket], .go])
  exact absurd hrun (by decide)

end LinuxAssignment.SocketRelay
