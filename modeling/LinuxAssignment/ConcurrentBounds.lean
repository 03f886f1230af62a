import LinuxAssignment.SingleDeviceRace
import LinuxAssignment.MultiDeviceRace

namespace LinuxAssignment

open ByteMemory StepSystem

/-- In a run of concurrent calls of either driver, `dev_read` aims inside the buffer exactly when
each clamp finds a length that the position does not exceed, or a request that fits. -/
theorem concurrent_aimed_iff {κ : Type} [DecidableEq κ] (other : Memory)
    (minor : κ → MultiDevice.Minor) :
    (∀ (es : List (Event (SingleDevice.Race κ) (κ × SingleDevice.Act))) (s : SingleDevice.Race κ),
      Trace (Interleaving.step SingleDevice.next) (SingleDevice.raceStart other) es s →
      ((∀ e ∈ es, ∀ k, SingleDevice.Aimed (e.after.procs k)) ↔ ∀ e ∈ es,
        SingleDevice.Clamps e.before.shared (e.before.procs e.label.1) e.label.2)) ∧
    (∀ (es : List (Event (MultiDevice.Race κ) (κ × MultiDevice.Act))) (s : MultiDevice.Race κ),
      Trace (Interleaving.step MultiDevice.next) (MultiDevice.raceStart other minor) es s →
      ((∀ e ∈ es, ∀ k, MultiDevice.Aimed (e.after.procs k)) ↔ ∀ e ∈ es,
        MultiDevice.Clamps e.before.shared (e.before.procs e.label.1) e.label.2)) :=
  ⟨fun _ _ h => SingleDevice.race_aimed_iff h, fun _ _ h => MultiDevice.race_aimed_iff h⟩

/-- A message is read to half, and lengthened while the next read is under way. -/
def SingleDevice.lengthened : List (Bool × SingleDevice.Act) :=
  [(true, .write [97, 98, 99, 100]), (true, .go .done), (true, .go .done), (true, .go .done),
    (false, .read 2), (false, .go .done), (false, .go .done), (false, .go .done),
    (false, .read 2000), (false, .go .done),
    (true, .write [97, 98, 99, 100, 101, 102]), (true, .go .done), (true, .go .done),
    (false, .go .done), (false, .go .done), (false, .go .done)]

def MultiDevice.lengthened : List (Bool × MultiDevice.Act) :=
  [(true, .write [97, 98, 99, 100]), (true, .go .done), (true, .go .done),
    (false, .read 2), (false, .go .done), (false, .go .done), (false, .go .done),
    (false, .read 2000), (false, .go .done),
    (true, .write [101, 102]), (true, .go .done), (true, .go .done),
    (false, .go .done), (false, .go .done)]

theorem lengthened_aimed :
    ((record (Interleaving.step SingleDevice.next) (SingleDevice.raceStart fun _ => 0)
        SingleDevice.lengthened).length = SingleDevice.lengthened.length ∧
      (record (Interleaving.step MultiDevice.next)
        (MultiDevice.raceStart (fun _ => 0) fun _ => MultiDevice.hello1)
        MultiDevice.lengthened).length = MultiDevice.lengthened.length) ∧
    (∀ e ∈ record (Interleaving.step SingleDevice.next) (SingleDevice.raceStart fun _ => 0)
        SingleDevice.lengthened, ∀ k, SingleDevice.Aimed (e.after.procs k)) ∧
    ∀ e ∈ record (Interleaving.step MultiDevice.next)
        (MultiDevice.raceStart (fun _ => 0) fun _ => MultiDevice.hello1) MultiDevice.lengthened,
      ∀ k, MultiDevice.Aimed (e.after.procs k) :=
  ⟨⟨by decide, by decide⟩, ((concurrent_aimed_iff _ fun _ => MultiDevice.hello1).1 _ _
      (Trace.recorded _ _ _)).mpr (by decide),
    ((concurrent_aimed_iff _ _).2 _ _ (Trace.recorded _ _ _)).mpr (by decide)⟩

/-- A message is read to half, and replaced by a shorter one while the next read is under way. -/
def SingleDevice.shortened : List (Bool × SingleDevice.Act) :=
  [(true, .write [97, 98, 99, 100]), (true, .go .done), (true, .go .done), (true, .go .done),
    (false, .read 2), (false, .go .done), (false, .go .done), (false, .go .done),
    (false, .read 2000), (false, .go .done),
    (true, .write [97]), (true, .go .done), (true, .go .done), (false, .go .done)]

def MultiDevice.shortened : List (Nat × MultiDevice.Act) :=
  [(0, .write [97, 98, 99, 100]), (0, .go .done), (0, .go .done),
    (1, .read 2), (1, .go .done), (1, .go .done), (1, .go .done),
    (1, .read 2000), (1, .go .done),
    (2, .write [97]), (2, .go .done), (2, .go .done), (1, .go .done)]

/-- The difference has become negative, and as a `size_t` it no longer limits the length. -/
theorem shortened_not_aimed :
    (¬ ∀ (other : Memory) (es : List (Event (SingleDevice.Race Bool) (Bool × SingleDevice.Act)))
      (s : SingleDevice.Race Bool),
      Trace (Interleaving.step SingleDevice.next) (SingleDevice.raceStart other) es s →
      ∀ k, SingleDevice.Aimed (s.procs k)) ∧
    (¬ ∀ (other : Memory) (minor : Nat → MultiDevice.Minor)
      (es : List (Event (MultiDevice.Race Nat) (Nat × MultiDevice.Act))) (s : MultiDevice.Race Nat),
      Trace (Interleaving.step MultiDevice.next) (MultiDevice.raceStart other minor) es s →
      ∀ k, MultiDevice.Aimed (s.procs k)) := by
  constructor
  · intro h
    have hlast := h (fun _ => 0) _ _ (Trace.recorded _ _ SingleDevice.shortened) false
    exact absurd hlast.2 (by decide)
  · intro h
    have hlast := h (fun _ => 0) (fun _ => MultiDevice.hello1) _ _
      (Trace.recorded _ _ MultiDevice.shortened) 1
    exact absurd hlast.2 (by decide)

end LinuxAssignment
