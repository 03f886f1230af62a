import LinuxAssignment.MultiDeviceBounds
import LinuxAssignment.Interleaving

namespace LinuxAssignment.MultiDevice

open ByteMemory StepSystem

/-- Where a call of a handler is: before its next access to `data.size` or `data.buffer`. -/
inductive Pc where
  | idle (ret : Int) (delivered : List UInt8)
  | readTest (len : Nat)
  | readMin (len : Nat)
  | readCopy (toCopy : Nat)
  | writeCopy (buf : List UInt8)
  | writeSize (toCopy : Nat)

structure File where
  privateData : Minor
  pos : Int
  pc : Pc

inductive Act where
  | read (len : Nat)
  | write (buf : List UInt8)
  | go (c : Copy)

/-- One atomic step of a call; the permission, which no handler changes, is checked on entry. -/
def next (m : Memory) (f : File) : Act → Option (Memory × File)
  | .read len =>
    match f.pc with
    | .idle _ _ =>
      if permFlag m f.privateData &&& 0x2 = 0 then some (m, { f with pc := .idle (-ePerm) [] })
      else some (m, { f with pc := .readTest len })
    | _ => none
  | .write buf =>
    match f.pc with
    | .idle _ _ =>
      if permFlag m f.privateData &&& 0x1 = 0 then some (m, { f with pc := .idle (-ePerm) [] })
      else some (m, { f with pc := .writeCopy buf })
    | _ => none
  | .go c =>
    match f.pc with
    | .idle _ _ => none
    | .readTest len =>
      if dataSize m f.privateData ≤ f.pos then some (m, { f with pc := .idle 0 [] })
      else some (m, { f with pc := .readMin len })
    | .readMin len =>
      some (m, { f with pc := .readCopy (min len (sizeT (dataSize m f.privateData - f.pos))) })
    | .readCopy toCopy =>
      let copied := copyToUser m (bufferAt f.privateData + f.pos.toNat) toCopy c
      if copied.1 ≠ 0 then some (m, { f with pc := .idle (-eFault) copied.2 })
      else some (m, { f with pos := int64 (f.pos + toCopy), pc := .idle (int64 toCopy) copied.2 })
    | .writeCopy buf =>
      let toCopy := min buf.length (sizeT (bufferSize - f.pos))
      let copied := copyFromUser m (bufferAt f.privateData + f.pos.toNat) buf toCopy c
      if copied.1 ≠ 0 then some (copied.2, { f with pc := .idle (-eFault) [] })
      else some (copied.2, { f with pos := int64 (f.pos + toCopy), pc := .writeSize toCopy })
    | .writeSize toCopy =>
      some (store32 m (sizeAt f.privateData) f.pos, { f with pc := .idle (int64 toCopy) [] })

abbrev Race (κ : Type) := Interleaving.State κ Memory File

def raceStart {κ : Type} (other : Memory) (minor : κ → Minor) : Race κ :=
  ⟨moduleMemory other, fun k => ⟨minor k, 0, .idle 0 []⟩⟩

def Aimed (f : File) : Prop :=
  match f.pc with
  | .readCopy toCopy => 0 ≤ f.pos ∧ f.pos + toCopy ≤ bufferSize
  | _ => True

/-- The condition on the clamp of `dev_read`: the size still reaches up to the position, or what
the caller asked for fits anyway. -/
def Clamps (m : Memory) (f : File) : Act → Prop
  | .go _ =>
    match f.pc with
    | .readMin len => f.pos ≤ dataSize m f.privateData ∨ f.pos + len ≤ bufferSize
    | _ => True
  | _ => True

instance (m : Memory) (f : File) : (a : Act) → Decidable (Clamps m f a)
  | .read _ | .write _ => isTrue trivial
  | .go _ =>
    match f with
    | ⟨dev, pos, .readMin len⟩ =>
      inferInstanceAs (Decidable (pos ≤ dataSize m dev ∨ pos + len ≤ bufferSize))
    | ⟨_, _, .idle _ _⟩ | ⟨_, _, .readTest _⟩ | ⟨_, _, .readCopy _⟩ => isTrue trivial
    | ⟨_, _, .writeCopy _⟩ | ⟨_, _, .writeSize _⟩ => isTrue trivial

structure Tame (f : File) : Prop where
  pos : Inside f.pos
  aimed : Aimed f

section

variable {m m' : Memory} {f f' : File} {a : Act}

theorem next_aimed_iff (hm : Sane m) (hf : Tame f) (h : next m f a = some (m', f')) :
    Aimed f' ↔ Clamps m f a := by
  have hB := bufferSize_eq
  obtain ⟨⟨h1, h2⟩, -⟩ := hf
  obtain ⟨dev, pos, pc⟩ := f
  dsimp only at h1 h2
  cases a with
  | read len =>
    cases pc with
    | idle =>
      simp only [next] at h
      split at h <;> cases h <;> exact Iff.rfl
    | _ => cases h
  | write buf =>
    cases pc with
    | idle =>
      simp only [next] at h
      split at h <;> cases h <;> exact Iff.rfl
    | _ => cases h
  | go c =>
    cases pc with
    | idle ret delivered => cases h
    | readTest len =>
      simp only [next] at h
      split at h <;> cases h <;> exact Iff.rfl
    | readMin len =>
      cases h
      obtain ⟨k, hk, hb⟩ := hm.size_eq dev
      simp only [Aimed, Clamps, hk]
      by_cases hle : pos ≤ k
      · have hz := sizeT_of_nonneg (x := k - pos) (by omega) (by omega)
        omega
      · have hz := sizeT_of_neg (x := k - pos) (by omega) (by omega)
        omega
    | readCopy toCopy =>
      simp only [next] at h
      split at h <;> cases h <;> exact Iff.rfl
    | writeCopy buf =>
      simp only [next] at h
      split at h <;> cases h <;> exact Iff.rfl
    | writeSize toCopy => cases h; exact Iff.rfl

theorem Inside.advance {pos : Int} {n : Nat} (h0 : 0 ≤ pos) (h : pos + n ≤ bufferSize) :
    Inside (int64 (pos + n)) := by
  have hB := bufferSize_eq
  rw [int64_of_bounds (by omega) (by omega)]
  exact ⟨by omega, h⟩

/-- From inside the buffer the clamp of `dev_write` is not wrapped. -/
theorem clamp_fits {p : Nat} (hp : p ≤ bufferSize) (n : Nat) :
    p + min n (sizeT ((bufferSize : Nat) - (p : Int))) ≤ bufferSize := by
  have hB := bufferSize_eq
  have hz := sizeT_of_nonneg (x := (bufferSize : Nat) - (p : Int)) (by omega) (by omega)
  omega

theorem next_keeps (hm : Sane m) (hf : Tame f) (hc : Clamps m f a)
    (h : next m f a = some (m', f')) : Sane m' ∧ Tame f' := by
  have haimed := (next_aimed_iff hm hf h).mpr hc
  obtain ⟨hpos, haim⟩ := hf
  obtain ⟨dev, pos, pc⟩ := f
  cases a with
  | read len =>
    cases pc with
    | idle =>
      simp only [next] at h
      split at h <;> cases h <;> exact ⟨hm, hpos, haimed⟩
    | _ => cases h
  | write buf =>
    cases pc with
    | idle =>
      simp only [next] at h
      split at h <;> cases h <;> exact ⟨hm, hpos, haimed⟩
    | _ => cases h
  | go c =>
    cases pc with
    | idle ret delivered => cases h
    | readTest len =>
      simp only [next] at h
      split at h <;> cases h <;> exact ⟨hm, hpos, haimed⟩
    | readMin len => cases h; exact ⟨hm, hpos, haimed⟩
    | readCopy toCopy =>
      simp only [next] at h
      split at h
      next => cases h; exact ⟨hm, hpos, haimed⟩
      next =>
        cases h
        exact ⟨hm, Inside.advance haim.1 haim.2, haimed⟩
    | writeCopy buf =>
      obtain ⟨p, rfl⟩ := Int.eq_ofNat_of_zero_le hpos.1
      have hp : p ≤ bufferSize := by
        have := hpos.2
        dsimp only at this
        omega
      have hfit := clamp_fits hp buf.length
      simp only [next] at h
      generalize min buf.length (sizeT ((bufferSize : Nat) - (p : Int))) = n at h hfit
      have hl := c.stored_length_le buf n
      have hsane : Sane (copyFromUser m (bufferAt dev + (p : Int).toNat) buf n c).2 := by
        rw [Int.toNat_natCast]
        exact hm.of_sameShape (blit_sameShape m dev (by omega))
      split at h
      next => cases h; exact ⟨hsane, hpos, haimed⟩
      next =>
        cases h
        exact ⟨hsane, Inside.advance hpos.1 (by omega), haimed⟩
    | writeSize toCopy =>
      cases h
      have hB := bufferSize_eq
      obtain ⟨h1, h2⟩ := hpos
      dsimp only at h1 h2
      have hz := int32_of_bounds (x := pos) (by omega) (by omega)
      have hin : 0 ≤ int32 pos ∧ int32 pos ≤ bufferSize := ⟨by omega, by omega⟩
      exact ⟨hm.store_size hin.1 hin.2, ⟨h1, h2⟩, haimed⟩

theorem read_alone (m : Memory) (dev : Minor) (pos ret : Int) (delivered : List UInt8) (len : Nat)
    (c : Copy) :
    last (Interleaving.alone next) (m, ⟨dev, pos, .idle ret delivered⟩)
        (.read len :: List.replicate 3 (.go c)) =
      ((devRead m dev len pos c).dev, ⟨dev, (devRead m dev len pos c).off,
        .idle (devRead m dev len pos c).ret (devRead m dev len pos c).delivered⟩) := by
  simp only [devRead]
  generalize hn : min len (sizeT (dataSize m dev - pos)) = n
  by_cases hperm : permFlag m dev &&& 0x2 = 0
  · simp [last, Interleaving.alone, next, hperm]
  · by_cases heof : dataSize m dev ≤ pos
    · simp [last, Interleaving.alone, next, hperm, heof]
    · by_cases hcopy : (copyToUser m (bufferAt dev + pos.toNat) n c).1 = 0 <;>
        simp [last, Interleaving.alone, next, hperm, heof, hn, hcopy]

theorem write_alone (m : Memory) (dev : Minor) (pos ret : Int) (delivered buf : List UInt8)
    (c : Copy) :
    last (Interleaving.alone next) (m, ⟨dev, pos, .idle ret delivered⟩)
        (.write buf :: List.replicate 2 (.go c)) =
      ((devWrite m dev buf pos c).dev, ⟨dev, (devWrite m dev buf pos c).off,
        .idle (devWrite m dev buf pos c).ret (devWrite m dev buf pos c).delivered⟩) := by
  simp only [devWrite]
  generalize hn : min buf.length (sizeT ((bufferSize : Nat) - pos)) = n
  by_cases hperm : permFlag m dev &&& 0x1 = 0
  · simp [last, Interleaving.alone, next, hperm]
  · by_cases hcopy : (copyFromUser m (bufferAt dev + pos.toNat) buf n c).1 = 0 <;>
      simp only [List.replicate, last, Interleaving.alone, next, hperm, hn, hcopy, if_false,
        ne_eq, not_true_eq_false, not_false_eq_true, if_true]

end

section

variable {κ : Type} [DecidableEq κ] {s : Race κ} {k : κ} {dev : Minor} {pos ret : Int}
  {delivered : List UInt8}

/-- A read whose steps no other call interrupts is a call of `dev_read`. -/
theorem read_undisturbed (h : s.procs k = ⟨dev, pos, .idle ret delivered⟩) (len : Nat) (c : Copy) :
    last (Interleaving.step next) s
        ((.read len :: List.replicate 3 (.go c)).map fun a => (k, a)) =
      ⟨(devRead s.shared dev len pos c).dev,
        Function.update s.procs k ⟨dev, (devRead s.shared dev len pos c).off,
          .idle (devRead s.shared dev len pos c).ret
            (devRead s.shared dev len pos c).delivered⟩⟩ := by
  rw [Interleaving.last_alone, h, read_alone]

theorem write_undisturbed (h : s.procs k = ⟨dev, pos, .idle ret delivered⟩) (buf : List UInt8)
    (c : Copy) :
    last (Interleaving.step next) s
        ((.write buf :: List.replicate 2 (.go c)).map fun a => (k, a)) =
      ⟨(devWrite s.shared dev buf pos c).dev,
        Function.update s.procs k ⟨dev, (devWrite s.shared dev buf pos c).off,
          .idle (devWrite s.shared dev buf pos c).ret
            (devWrite s.shared dev buf pos c).delivered⟩⟩ := by
  rw [Interleaving.last_alone, h, write_alone]

end

theorem raceStart_tame {κ : Type} (other : Memory) (minor : κ → Minor) :
    Interleaving.Modular Sane Tame (raceStart other minor) where
  shared := moduleMemory_sane other
  procs _ := ⟨⟨by simp [raceStart], by simp [raceStart]⟩, trivial⟩

theorem race_aimed_iff {κ : Type} [DecidableEq κ] {other : Memory} {minor : κ → Minor}
    {es : List (Event (Race κ) (κ × Act))} {s : Race κ}
    (h : Trace (Interleaving.step next) (raceStart other minor) es s) :
    (∀ e ∈ es, ∀ k, Aimed (e.after.procs k)) ↔
      ∀ e ∈ es, Clamps e.before.shared (e.before.procs e.label.1) e.label.2 :=
  Interleaving.forall_good_iff h Aimed Clamps (fun _ hf => hf.aimed)
    (fun _ _ _ _ _ hm hf hn => next_aimed_iff hm hf hn)
    (fun _ _ _ _ _ hm hf hc hn => next_keeps hm hf hc hn) (raceStart_tame other minor)

end LinuxAssignment.MultiDevice
