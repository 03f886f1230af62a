import LinuxAssignment.MultiDevice

namespace LinuxAssignment.MultiDevice

open ByteMemory

theorem deviceAt_eq (minor : Minor) : deviceAt minor = minor.val * 1040 := rfl

theorem bufferAt_eq (minor : Minor) : bufferAt minor = minor.val * 1040 + 12 := rfl

theorem sizeAt_eq (minor : Minor) : sizeAt minor = minor.val * 1040 + 1036 := rfl

/-- A read at position `p` of a device with `k` valid bytes, over the naturals. -/
theorem devRead_at {m : Memory} {dev : Minor} {len p k n : Nat} (hk : dataSize m dev = k)
    (hb : k ≤ bufferSize) (hn : min len (k - p) = n) (c : Copy) :
    devRead m dev len p c =
      if permFlag m dev &&& 0x2 = 0 then ⟨-ePerm, m, p, [], []⟩
      else if k ≤ p then ⟨0, m, p, [], []⟩
      else if c.left n ≠ 0 then
        ⟨-eFault, m, p, [(p, n)], (copyToUser m (bufferAt dev + p) n c).2⟩
      else ⟨n, m, p + n, [(p, n)], slice m (bufferAt dev + p) n⟩ := by
  have hB := bufferSize_eq
  simp only [devRead, hk, Int.ofNat_le, Int.toNat_natCast, copyToUser]
  split
  next => rfl
  next =>
    split
    next => rfl
    next hp =>
      have hz : min len (sizeT ((k : Int) - p)) = n := by
        have : (sizeT ((k : Int) - p) : Int) = k - p := sizeT_of_nonneg (by omega) (by omega)
        omega
      rw [hz]
      split
      next => rfl
      next hl =>
        have hl0 : c.left n = 0 := by omega
        rw [int64_of_bounds (by omega) (by omega), int64_of_bounds (by omega) (by omega), hl0,
          Nat.sub_zero]

theorem devWrite_at {m : Memory} {dev : Minor} {buf : List UInt8} {p n : Nat}
    (hp : p ≤ bufferSize) (hn : min buf.length (bufferSize - p) = n) (c : Copy) :
    devWrite m dev buf p c =
      if permFlag m dev &&& 0x1 = 0 then ⟨-ePerm, m, p, [], []⟩
      else if c.left n ≠ 0 then
        ⟨-eFault, (copyFromUser m (bufferAt dev + p) buf n c).2, p, [(p, n)], []⟩
      else ⟨n, store32 (blit m (bufferAt dev + p) (buf.take n)) (sizeAt dev) (p + n), p + n,
        [(p, n)], []⟩ := by
  have hB := bufferSize_eq
  have hz : min buf.length (sizeT ((bufferSize : Nat) - (p : Int))) = n := by
    have : (sizeT ((bufferSize : Nat) - (p : Int)) : Int) = (bufferSize : Nat) - (p : Int) :=
      sizeT_of_nonneg (by omega) (by omega)
    omega
  simp only [devWrite, hz, Int.toNat_natCast, copyFromUser]
  split
  next => rfl
  next =>
    split
    next => rfl
    next hl =>
      have hl0 : c.left n = 0 := by omega
      rw [Copy.stored_of_left hl0, int64_of_bounds (by omega) (by omega),
        int64_of_bounds (by omega) (by omega)]

/-- `m'` is `m` but for bytes `p` to `p + n` of the buffer of `dev`, and its size. -/
def Confined (m m' : Memory) (dev : Minor) (p n : Nat) : Prop :=
  ∀ x, x < bufferAt dev + p ∨ bufferAt dev + p + n ≤ x →
    x < sizeAt dev ∨ sizeAt dev + 4 ≤ x → m' x = m x

theorem devWrite_confined {m : Memory} {dev : Minor} {buf : List UInt8} {p n : Nat}
    (hp : p ≤ bufferSize) (hn : min buf.length (bufferSize - p) = n) (c : Copy) :
    Confined m (devWrite m dev buf p c).dev dev p n := by
  intro x hx hs
  rw [devWrite_at hp hn]
  split
  next => rfl
  next =>
    split
    next => exact copyFromUser_outside hx
    next =>
      have hl : (buf.take n).length = n := by
        rw [List.length_take]
        omega
      have hblit : blit m (bufferAt dev + p) (buf.take n) x = m x := blit_outside (by rw [hl]; exact hx)
      exact (store32_outside hs).trans hblit

section

variable {m m' : Memory} {dev : Minor} {p n : Nat}

theorem Confined.permFlag (h : Confined m m' dev p n) (hn : p + n ≤ bufferSize) (j : Minor) :
    permFlag m' j = permFlag m j := by
  have hB := bufferSize_eq
  have hb := bufferAt_eq dev
  have hs := sizeAt_eq dev
  have hj := deviceAt_eq j
  exact h _ (by omega) (by omega)

theorem Confined.dataSize_other (h : Confined m m' dev p n) (hn : p + n ≤ bufferSize) {j : Minor}
    (hj : j ≠ dev) : dataSize m' j = dataSize m j := by
  have hne : j.val ≠ dev.val := fun he => hj (Fin.ext he)
  have hB := bufferSize_eq
  have hb := bufferAt_eq dev
  have hs := sizeAt_eq dev
  have hsj := sizeAt_eq j
  exact load32_congr fun i hi => h _ (by omega) (by omega)

end

theorem devWrite_dataSize {m : Memory} {dev : Minor} {p : Nat} (hp : p ≤ bufferSize)
    (buf : List UInt8) (c : Copy) :
    dataSize (devWrite m dev buf p c).dev dev = dataSize m dev ∨
      dataSize (devWrite m dev buf p c).dev dev = (devWrite m dev buf p c).off := by
  have hB := bufferSize_eq
  have hb := bufferAt_eq dev
  have hs := sizeAt_eq dev
  rw [devWrite_at hp rfl]
  split
  next => exact Or.inl rfl
  next =>
    split
    next =>
      left
      exact load32_congr fun i hi => copyFromUser_outside (by omega)
    next =>
      right
      exact (load32_store32 _ _ _).trans (int32_of_bounds (by omega) (by omega))

theorem devWrite_off {m : Memory} {dev : Minor} {p : Nat} (hp : p ≤ bufferSize) (buf : List UInt8)
    (c : Copy) :
    0 ≤ (devWrite m dev buf p c).off ∧ (devWrite m dev buf p c).off ≤ bufferSize := by
  rw [devWrite_at hp rfl]
  split
  next => dsimp only; omega
  next => split <;> dsimp only <;> omega

theorem devRead_dev (m : Memory) (dev : Minor) (len : Nat) (off : Int) (c : Copy) :
    (devRead m dev len off c).dev = m := by
  unfold devRead
  split
  next => rfl
  next =>
    split
    next => rfl
    next => dsimp only; split <;> rfl

theorem devRead_off {m : Memory} {dev : Minor} {k : Nat} (hk : dataSize m dev = k)
    (hb : k ≤ bufferSize) {p : Nat} (hp : p ≤ bufferSize) (len : Nat) (c : Copy) :
    0 ≤ (devRead m dev len p c).off ∧ (devRead m dev len p c).off ≤ bufferSize := by
  rw [devRead_at hk hb rfl]
  split
  next => dsimp only; omega
  next =>
    split
    next => dsimp only; omega
    next => split <;> dsimp only <;> omega

structure SameShape (m m' : Memory) : Prop where
  perm : ∀ j, permFlag m' j = permFlag m j
  size : ∀ j, dataSize m' j = dataSize m j

theorem blit_sameShape (m : Memory) (dev : Minor) {p : Nat} {bs : List UInt8}
    (h : p + bs.length ≤ bufferSize) : SameShape m (blit m (bufferAt dev + p) bs) := by
  have hB := bufferSize_eq
  have hb := bufferAt_eq dev
  constructor
  · intro j
    have hj := deviceAt_eq j
    exact blit_outside (by omega)
  · intro j
    have hs := sizeAt_eq j
    exact load32_congr fun i hi => blit_outside (by omega)

end LinuxAssignment.MultiDevice
