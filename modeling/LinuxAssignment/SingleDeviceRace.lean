import LinuxAssignment.SingleDevice
import LinuxAssignment.Interleaving

namespace LinuxAssignment.SingleDevice

open ByteMemory StepSystem

/-- Where a call of a handler is: before its next access to `buffer_len` or `kernel_buffer`. -/
inductive Pc where
  | idle (ret : Int) (delivered : List UInt8)
  | readTest (len : Nat)
  | readCompare (len : Nat)
  | readAdjust
  | readCopy (len : Nat)
  | writeCopy (buf : List UInt8)
  | writeLen (len : Nat)
  | writeNul (len : Nat)

/-- An open file with the call that uses its position; after a call, what it returned. -/
structure File where
  pos : Int
  pc : Pc

/-- A call is entered, or takes its next step; `c` is the outcome of a user copy. -/
inductive Act where
  | read (len : Nat)
  | write (buf : List UInt8)
  | go (c : Copy)

def next (d : Device) (f : File) : Act → Option (Device × File)
  | .read len =>
    match f.pc with
    | .idle _ _ => some (d, { f with pc := .readTest len })
    | _ => none
  | .write buf =>
    match f.pc with
    | .idle _ _ => some (d, { f with pc := .writeCopy buf })
    | _ => none
  | .go c =>
    match f.pc with
    | .idle _ _ => none
    | .readTest len =>
      if d.bufferLen ≤ f.pos then some (d, { f with pc := .idle 0 [] })
      else some (d, { f with pc := .readCompare len })
    | .readCompare len =>
      if sizeT (d.bufferLen - f.pos) < len then some (d, { f with pc := .readAdjust })
      else some (d, { f with pc := .readCopy len })
    | .readAdjust => some (d, { f with pc := .readCopy (sizeT (d.bufferLen - f.pos)) })
    | .readCopy len =>
      let copied := copyToUser d.kernelBuffer f.pos.toNat len c
      if copied.1 ≠ 0 then some (d, { f with pc := .idle (-eFault) copied.2 })
      else some (d, ⟨int64 (f.pos + len), .idle (int64 len) copied.2⟩)
    | .writeCopy buf =>
      let len := if bufferSize < buf.length then bufferSize else buf.length
      let copied := copyFromUser d.kernelBuffer 0 buf len c
      if copied.1 ≠ 0 then some (⟨copied.2, d.bufferLen⟩, { f with pc := .idle (-eFault) [] })
      else some (⟨copied.2, d.bufferLen⟩, { f with pc := .writeLen len })
    | .writeLen len => some (⟨d.kernelBuffer, int32 len⟩, { f with pc := .writeNul len })
    | .writeNul len =>
      some (⟨Function.update d.kernelBuffer len 0, d.bufferLen⟩, { f with pc := .idle (int64 len) [] })

abbrev Race (κ : Type) := Interleaving.State κ Device File

def raceStart {κ : Type} (other : Memory) : Race κ := ⟨(loaded other).dev, fun _ => ⟨0, .idle 0 []⟩⟩

def Aimed (f : File) : Prop :=
  match f.pc with
  | .readCopy len => 0 ≤ f.pos ∧ f.pos + len ≤ bufferSize
  | _ => True

/-- The condition on a clamp of `dev_read`: the message still reaches up to the position, or the
comparison happens to be harmless. -/
def Clamps (d : Device) (f : File) : Act → Prop
  | .go _ =>
    match f.pc with
    | .readCompare len =>
      f.pos ≤ d.bufferLen ∨ f.pos + len ≤ bufferSize ∨ sizeT (d.bufferLen - f.pos) < len
    | .readAdjust => f.pos ≤ d.bufferLen
    | _ => True
  | _ => True

instance (d : Device) (f : File) : (a : Act) → Decidable (Clamps d f a)
  | .read _ | .write _ => isTrue trivial
  | .go _ =>
    match f with
    | ⟨pos, .readCompare len⟩ => inferInstanceAs (Decidable (pos ≤ d.bufferLen ∨
        pos + len ≤ bufferSize ∨ sizeT (d.bufferLen - pos) < len))
    | ⟨pos, .readAdjust⟩ => inferInstanceAs (Decidable (pos ≤ d.bufferLen))
    | ⟨_, .idle _ _⟩ | ⟨_, .readTest _⟩ | ⟨_, .readCopy _⟩ => isTrue trivial
    | ⟨_, .writeCopy _⟩ | ⟨_, .writeLen _⟩ | ⟨_, .writeNul _⟩ => isTrue trivial

structure Tame (f : File) : Prop where
  pos : Inside f.pos
  aimed : Aimed f
  writes : ∀ len, f.pc = .writeLen len → len ≤ bufferSize

section

variable {d d' : Device} {f f' : File} {a : Act}

theorem rest_cases (hd : LenInRange d) (hf : Inside f.pos) :
    f.pos ≤ d.bufferLen ∧ (sizeT (d.bufferLen - f.pos) : Int) = d.bufferLen - f.pos ∨
      d.bufferLen < f.pos ∧ (bufferSize : Int) < sizeT (d.bufferLen - f.pos) := by
  have hB := bufferSize_eq
  obtain ⟨h1, h2⟩ := hd
  obtain ⟨h3, h4⟩ := hf
  by_cases h : f.pos ≤ d.bufferLen
  · exact Or.inl ⟨h, sizeT_of_nonneg (by omega) (by omega)⟩
  · right
    have hz := sizeT_of_neg (x := d.bufferLen - f.pos) (by omega) (by omega)
    exact ⟨by omega, by omega⟩

theorem next_aimed_iff (hd : LenInRange d) (hf : Tame f) (h : next d f a = some (d', f')) :
    Aimed f' ↔ Clamps d f a := by
  have hB := bufferSize_eq
  have hpos := hf.pos
  have hrest := rest_cases hd hf.pos
  obtain ⟨h1, h2⟩ := hpos
  obtain ⟨h3, h4⟩ := hd
  obtain ⟨pos, pc⟩ := f
  dsimp only at hrest h1 h2
  cases a with
  | read len =>
    cases pc <;> cases h
    exact Iff.rfl
  | write buf =>
    cases pc <;> cases h
    exact Iff.rfl
  | go c =>
    cases pc with
    | idle ret delivered => cases h
    | readTest len =>
      simp only [next] at h
      split at h <;> cases h <;> exact Iff.rfl
    | readCompare len =>
      simp only [next] at h
      split at h
      next hlt =>
        cases h
        exact iff_of_true trivial (Or.inr (Or.inr hlt))
      next hge =>
        cases h
        simp only [Aimed, Clamps]
        omega
    | readAdjust =>
      cases h
      simp only [Aimed, Clamps]
      omega
    | readCopy len =>
      simp only [next] at h
      split at h <;> cases h <;> exact Iff.rfl
    | writeCopy buf =>
      simp only [next] at h
      generalize (if bufferSize < buf.length then bufferSize else buf.length) = n at h
      split at h <;> cases h <;> exact Iff.rfl
    | writeLen len => cases h; exact Iff.rfl
    | writeNul len => cases h; exact Iff.rfl

theorem next_keeps (hd : LenInRange d) (hf : Tame f) (hc : Clamps d f a)
    (h : next d f a = some (d', f')) : LenInRange d' ∧ Tame f' := by
  have hB := bufferSize_eq
  have haimed := (next_aimed_iff hd hf h).mpr hc
  obtain ⟨hpos, haim, hwrites⟩ := hf
  obtain ⟨pos, pc⟩ := f
  cases a with
  | read len =>
    cases pc <;> cases h
    exact ⟨hd, hpos, haimed, nofun⟩
  | write buf =>
    cases pc <;> cases h
    exact ⟨hd, hpos, haimed, nofun⟩
  | go c =>
    cases pc with
    | idle ret delivered => cases h
    | readTest len =>
      simp only [next] at h
      split at h <;> cases h <;> exact ⟨hd, hpos, haimed, nofun⟩
    | readCompare len =>
      simp only [next] at h
      split at h <;> cases h <;> exact ⟨hd, hpos, haimed, nofun⟩
    | readAdjust => cases h; exact ⟨hd, hpos, haimed, nofun⟩
    | readCopy len =>
      simp only [next] at h
      split at h
      next => cases h; exact ⟨hd, hpos, haimed, nofun⟩
      next =>
        cases h
        refine ⟨hd, ?_, haimed, nofun⟩
        simp only [Aimed] at haim
        dsimp only
        rw [int64_of_bounds (by omega) (by omega)]
        exact ⟨by omega, by omega⟩
    | writeCopy buf =>
      have hn : (if bufferSize < buf.length then bufferSize else buf.length) ≤ bufferSize := by
        split <;> omega
      simp only [next] at h
      generalize (if bufferSize < buf.length then bufferSize else buf.length) = n at h hn
      split at h
      next => cases h; exact ⟨hd, hpos, haimed, nofun⟩
      next =>
        cases h
        refine ⟨hd, hpos, haimed, fun len hlen => ?_⟩
        cases hlen
        exact hn
    | writeLen len =>
      cases h
      have hlen := hwrites len rfl
      refine ⟨⟨?_, ?_⟩, hpos, haimed, nofun⟩ <;> dsimp only <;>
        rw [int32_of_bounds (by omega) (by omega)] <;> omega
    | writeNul len => cases h; exact ⟨hd, hpos, haimed, nofun⟩

end

theorem raceStart_tame {κ : Type} (other : Memory) :
    Interleaving.Modular LenInRange Tame (raceStart (κ := κ) other) where
  shared := (loaded_keeps other).dev
  procs _ := ⟨⟨by simp [raceStart], by simp [raceStart]⟩, trivial, nofun⟩

theorem race_aimed_iff {κ : Type} [DecidableEq κ] {other : Memory}
    {es : List (Event (Race κ) (κ × Act))} {s : Race κ}
    (h : Trace (Interleaving.step next) (raceStart other) es s) :
    (∀ e ∈ es, ∀ k, Aimed (e.after.procs k)) ↔
      ∀ e ∈ es, Clamps e.before.shared (e.before.procs e.label.1) e.label.2 :=
  Interleaving.forall_good_iff h Aimed Clamps (fun _ hf => hf.aimed)
    (fun _ _ _ _ _ hd hf hn => next_aimed_iff hd hf hn)
    (fun _ _ _ _ _ hd hf hc hn => next_keeps hd hf hc hn) (raceStart_tame other)

theorem read_alone (d : Device) (pos ret : Int) (delivered : List UInt8) (len : Nat) (c : Copy) :
    last (Interleaving.alone next) (d, ⟨pos, .idle ret delivered⟩)
        (.read len :: List.replicate 4 (.go c)) =
      ((devRead d () len pos c).dev, ⟨(devRead d () len pos c).off,
        .idle (devRead d () len pos c).ret (devRead d () len pos c).delivered⟩) := by
  by_cases heof : d.bufferLen ≤ pos
  · simp [last, Interleaving.alone, next, devRead, heof]
  · by_cases hlt : sizeT (d.bufferLen - pos) < len
    · by_cases hcopy : (copyToUser d.kernelBuffer pos.toNat (sizeT (d.bufferLen - pos)) c).1 = 0 <;>
        simp [last, Interleaving.alone, next, devRead, heof, hlt, hcopy]
    · by_cases hcopy : (copyToUser d.kernelBuffer pos.toNat len c).1 = 0 <;>
        simp [last, Interleaving.alone, next, devRead, heof, hlt, hcopy]

theorem write_alone (d : Device) (pos ret : Int) (delivered buf : List UInt8) (c : Copy) :
    last (Interleaving.alone next) (d, ⟨pos, .idle ret delivered⟩)
        (.write buf :: List.replicate 3 (.go c)) =
      ((devWrite d () buf pos c).dev, ⟨(devWrite d () buf pos c).off,
        .idle (devWrite d () buf pos c).ret (devWrite d () buf pos c).delivered⟩) := by
  simp only [devWrite]
  generalize hn : (if bufferSize < buf.length then bufferSize else buf.length) = n
  by_cases hcopy : (copyFromUser d.kernelBuffer 0 buf n c).1 = 0 <;>
    simp [last, Interleaving.alone, next, hn, hcopy]

section

variable {κ : Type} [DecidableEq κ] {s : Race κ} {k : κ} {pos ret : Int} {delivered : List UInt8}

/-- A read whose steps no other call interrupts is a call of `dev_read`. -/
theorem read_undisturbed (h : s.procs k = ⟨pos, .idle ret delivered⟩) (len : Nat) (c : Copy) :
    last (Interleaving.step next) s
        ((.read len :: List.replicate 4 (.go c)).map fun a => (k, a)) =
      ⟨(devRead s.shared () len pos c).dev,
        Function.update s.procs k ⟨(devRead s.shared () len pos c).off,
          .idle (devRead s.shared () len pos c).ret (devRead s.shared () len pos c).delivered⟩⟩ := by
  rw [Interleaving.last_alone, h, read_alone]

theorem write_undisturbed (h : s.procs k = ⟨pos, .idle ret delivered⟩) (buf : List UInt8)
    (c : Copy) :
    last (Interleaving.step next) s
        ((.write buf :: List.replicate 3 (.go c)).map fun a => (k, a)) =
      ⟨(devWrite s.shared () buf pos c).dev,
        Function.update s.procs k ⟨(devWrite s.shared () buf pos c).off,
          .idle (devWrite s.shared () buf pos c).ret
            (devWrite s.shared () buf pos c).delivered⟩⟩ := by
  rw [Interleaving.last_alone, h, write_alone]

end

end LinuxAssignment.SingleDevice
