import LinuxAssignment.CharDevice

namespace LinuxAssignment.SingleDevice

open ByteMemory StepSystem

abbrev bufferSize : Nat := 1024

theorem bufferSize_eq : bufferSize = 1024 := rfl

structure Device where
  kernelBuffer : Memory
  bufferLen : Int

def devRead (d : Device) (_ : Unit) (len : Nat) (off : Int) (c : Copy) : Handled Device :=
  if d.bufferLen ≤ off then ⟨0, d, off, [], []⟩
  else
    let len := if sizeT (d.bufferLen - off) < len then sizeT (d.bufferLen - off) else len
    let copied := copyToUser d.kernelBuffer off.toNat len c
    if copied.1 ≠ 0 then ⟨-eFault, d, off, [(off, len)], copied.2⟩
    else ⟨int64 len, d, int64 (off + len), [(off, len)], copied.2⟩

/-- The write handler ignores `*off` and terminates the message with a NUL byte. -/
def devWrite (d : Device) (_ : Unit) (buf : List UInt8) (off : Int) (c : Copy) :
    Handled Device :=
  let len := if bufferSize < buf.length then bufferSize else buf.length
  let copied := copyFromUser d.kernelBuffer 0 buf len c
  if copied.1 ≠ 0 then ⟨-eFault, ⟨copied.2, d.bufferLen⟩, off, [(0, len)], []⟩
  else
    ⟨int64 len, ⟨Function.update copied.2 len 0, int32 len⟩, off, [(0, len), (len, 1)], []⟩

def driver : CharDriver Device Unit := ⟨devRead, devWrite⟩

/-- The driver right after loading; what lies behind the buffer is up to the linker. -/
def loaded (other : Memory) : CharState Device Unit :=
  ⟨⟨fun x => if x < bufferSize then 0 else other x, 0⟩, fun _ => none⟩

section

variable {d : Device} {buf : List UInt8} {u : Unit}

theorem devRead_at {len p k n : Nat} (hk : d.bufferLen = k) (hb : k ≤ bufferSize)
    (hn : min len (k - p) = n) (c : Copy) :
    devRead d u len p c =
      if k ≤ p then ⟨0, d, p, [], []⟩
      else if c.left n ≠ 0 then
        ⟨-eFault, d, p, [(p, n)], (copyToUser d.kernelBuffer p n c).2⟩
      else ⟨n, d, p + n, [(p, n)], slice d.kernelBuffer p n⟩ := by
  have hB := bufferSize_eq
  simp only [devRead, hk, Int.ofNat_le, Int.toNat_natCast, copyToUser]
  split
  next => rfl
  next hp =>
    have hz : (if sizeT ((k : Int) - p) < len then sizeT ((k : Int) - p) else len) = n := by
      have : (sizeT ((k : Int) - p) : Int) = k - p := sizeT_of_nonneg (by omega) (by omega)
      split <;> omega
    rw [hz]
    split
    next => rfl
    next hl =>
      have hl0 : c.left n = 0 := by omega
      rw [int64_of_bounds (by omega) (by omega), int64_of_bounds (by omega) (by omega), hl0,
        Nat.sub_zero]

theorem devWrite_eq {n : Nat} (hn : min buf.length bufferSize = n) (off : Int) (c : Copy) :
    devWrite d u buf off c =
      if c.left n ≠ 0 then
        ⟨-eFault, ⟨(copyFromUser d.kernelBuffer 0 buf n c).2, d.bufferLen⟩, off, [(0, n)], []⟩
      else
        ⟨n, ⟨Function.update (blit d.kernelBuffer 0 (buf.take n)) n 0, n⟩, off,
          [(0, n), (n, 1)], []⟩ := by
  have hB := bufferSize_eq
  have hm : (if bufferSize < buf.length then bufferSize else buf.length) = n := by
    split <;> omega
  simp only [devWrite, hm, copyFromUser]
  split
  next => rfl
  next hl =>
    have hl0 : c.left n = 0 := by omega
    rw [Copy.stored_of_left hl0, int64_of_bounds (by omega) (by omega),
      int32_of_bounds (by omega) (by omega)]

end

def LenInRange (d : Device) : Prop := 0 ≤ d.bufferLen ∧ d.bufferLen ≤ bufferSize

def Inside (off : Int) : Prop := 0 ≤ off ∧ off ≤ bufferSize

/-- The condition on a write: a message that fills the buffer is not copied in full. -/
def WriteFits (_ : Device) (_ : Unit) (buf : List UInt8) (_ : Int) (c : Copy) : Prop :=
  buf.length < bufferSize ∨ c.left bufferSize ≠ 0

theorem LenInRange.len_eq {d : Device} (h : LenInRange d) :
    ∃ k : Nat, d.bufferLen = k ∧ k ≤ bufferSize := by
  have h0 := h.1
  have h1 := h.2
  exact ⟨d.bufferLen.toNat, by omega, by omega⟩

theorem loaded_keeps (other : Memory) : (loaded other).Keeps LenInRange Inside where
  dev := by simp [loaded, LenInRange]
  pos fd file h := by simp [loaded] at h

theorem devWrite_lenInRange {d : Device} (hd : LenInRange d) (u : Unit) (buf : List UInt8)
    (off : Int) (c : Copy) : LenInRange (devWrite d u buf off c).dev := by
  have hmin := Nat.min_le_right buf.length bufferSize
  rw [devWrite_eq rfl]
  split
  next => exact hd
  next => exact ⟨by dsimp only; omega, by dsimp only; omega⟩

theorem devWrite_within_iff (d : Device) (u : Unit) (buf : List UInt8) (off : Int) (c : Copy) :
    Within bufferSize (devWrite d u buf off c).accesses ↔ WriteFits d u buf off c := by
  rw [devWrite_eq rfl]
  split
  next hleft =>
    refine iff_of_true (within_singleton (by omega)) ?_
    by_cases hl : buf.length < bufferSize
    · exact Or.inl hl
    · right
      rwa [Nat.min_eq_right (by omega)] at hleft
  next hleft =>
    constructor
    · intro hw
      have hlast := hw ((min buf.length bufferSize : Nat), 1) (by simp) Nat.one_pos
      dsimp only at hlast
      exact Or.inl (by omega)
    · intro hfit a ha hpos
      have hl : buf.length < bufferSize := by
        rcases hfit with hl | hc
        · exact hl
        · by_contra hge
          rw [Nat.min_eq_right (by omega)] at hleft
          exact hleft hc
      rcases List.mem_cons.mp ha with rfl | ha
      · dsimp only
        omega
      · rw [List.mem_singleton.mp ha]
        dsimp only
        omega

theorem boundsContract :
    BoundsContract driver bufferSize LenInRange LenInRange Inside WriteFits where
  fine h := h
  legal h := ⟨h.1, by have := h.2; have := bufferSize_eq; omega⟩
  zero := ⟨by omega, by simp⟩
  read_within := by
    intro d u len off c hd ho
    obtain ⟨p, rfl⟩ := Int.eq_ofNat_of_zero_le ho.1
    obtain ⟨k, hk, hb⟩ := hd.len_eq
    simp only [driver]
    rw [devRead_at hk hb rfl]
    split
    next => exact within_nil _
    next => split <;> exact within_singleton (by omega)
  read_keeps := by
    intro d u len off c hd ho
    obtain ⟨p, rfl⟩ := Int.eq_ofNat_of_zero_le ho.1
    obtain ⟨k, hk, hb⟩ := hd.len_eq
    simp only [driver]
    rw [devRead_at hk hb rfl]
    split
    next => exact ⟨hd, id⟩
    next =>
      split
      next => exact ⟨hd, id⟩
      next => exact ⟨hd, fun _ => ⟨by dsimp only; omega, by dsimp only; omega⟩⟩
  write_exact := by
    intro d u buf off c hd _
    have hlen := devWrite_lenInRange hd u buf off c
    exact (and_iff_left hlen).trans (devWrite_within_iff d u buf off c)
  write_keeps := by
    intro d u buf off c hd _ _
    refine ⟨devWrite_lenInRange hd u buf off c, ?_⟩
    simp only [driver]
    rw [devWrite_eq rfl]
    split <;> exact id

/-- Whatever is written, `buffer_len` and the positions stay within range. -/
theorem serve_keeps {s : CharState Device Unit} (hs : s.Keeps LenInRange Inside)
    (call : Call Unit) : (driver.serve s call).1.Keeps LenInRange Inside := by
  cases call with
  | openFile fd u => exact openFile_keeps hs boundsContract.zero fd u
  | read fd len off c => exact boundsContract.serve_keeps hs trivial
  | write fd buf off c =>
    refine onFile_keeps hs fun file hf => ⟨devWrite_lenInRange hs.dev () buf _ c, ?_⟩
    simp only [driver]
    rw [devWrite_eq rfl]
    split <;> exact id

theorem trace_keeps {other : Memory} {es : List (Event (CharState Device Unit) (Call Unit))}
    {s : CharState Device Unit} (h : Trace driver.step (loaded other) es s) :
    s.Keeps LenInRange Inside := by
  have keep : ∀ (s : CharState Device Unit) (call : Call Unit) (t : CharState Device Unit),
      s.Keeps LenInRange Inside → True → driver.step s call = some t →
      t.Keeps LenInRange Inside := by
    intro s call t hs _ ht
    cases Option.some.inj ht
    exact serve_keeps hs call
  exact h.invariant keep (loaded_keeps other) fun _ _ => trivial

/-- In a run of calls every access to `kernel_buffer` is in bounds and `buffer_len` stays within
range exactly when every message that is copied in full leaves room for its terminator. -/
theorem single_bounds_iff {other : Memory} {es : List (Event (CharState Device Unit) (Call Unit))}
    {s : CharState Device Unit} (h : Trace driver.step (loaded other) es s) :
    (LenInRange (loaded other).dev ∧ ∀ e ∈ es,
      Within bufferSize (driver.serve e.before e.label).2.accesses ∧ LenInRange e.after.dev) ↔
    ∀ e ∈ es, e.label.Fits WriteFits e.before :=
  boundsContract.run_iff h (loaded_keeps other)

def helloRun : List (Call Unit) :=
  [.openFile 0 (), .write 0 [104, 105] none .done, .read 0 9 none .done]

theorem single_helloRun_bounds :
    (record driver.step (loaded fun _ => 0) helloRun).length = helloRun.length ∧
    LenInRange (loaded fun _ => 0).dev ∧ ∀ e ∈ record driver.step (loaded fun _ => 0) helloRun,
      Within bufferSize (driver.serve e.before e.label).2.accesses ∧ LenInRange e.after.dev := by
  refine ⟨rfl, (single_bounds_iff (Trace.recorded _ _ _)).mpr ?_⟩
  intro e he
  simp only [record, helloRun, CharDriver.step, List.mem_cons, List.not_mem_nil, or_false] at he
  rcases he with rfl | rfl | rfl
  · trivial
  · exact fun _ _ => Or.inl (by decide)
  · trivial

/-- A message that fills the buffer puts its terminator behind it. -/
theorem single_bounds_violated :
    ¬ ∀ (other : Memory) (es : List (Event (CharState Device Unit) (Call Unit)))
      (s : CharState Device Unit), Trace driver.step (loaded other) es s → ∀ e ∈ es,
      Within bufferSize (driver.serve e.before e.label).2.accesses ∧ LenInRange e.after.dev := by
  intro h
  have hrun := h (fun _ => 0) (record driver.step (loaded fun _ => 0)
    [.openFile 0 (), .write 0 (List.replicate 1024 65) none .done]) _ (Trace.recorded _ _ _)
  have hlast := (hrun _ (List.mem_cons_of_mem _ List.mem_cons_self)).1
  have hfit := (devWrite_within_iff _ () _ _ _).mp hlast
  rcases hfit with hlen | hleft
  · rw [List.length_replicate] at hlen
    exact absurd hlen (by decide)
  · exact hleft rfl

end LinuxAssignment.SingleDevice
