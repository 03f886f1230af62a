import LinuxAssignment.MultiDeviceSpec

namespace LinuxAssignment.MultiDevice

open ByteMemory StepSystem

def SizesInRange (m : Memory) : Prop :=
  ∀ j : Minor, 0 ≤ dataSize m j ∧ dataSize m j ≤ bufferSize

/-- The records as the handlers rely on them: the static permissions, and sizes within range. -/
structure Sane (m : Memory) : Prop where
  perm : ∀ j, permFlag m j = (devices j).permFlag
  size : SizesInRange m

def Inside (off : Int) : Prop := 0 ≤ off ∧ off ≤ bufferSize

/-- The condition on a write: if it is permitted, its offset does not lie beyond the buffer, unless
nothing is written and the offset narrows to a legal size. -/
def WriteFits (_ : Memory) (dev : Minor) (buf : List UInt8) (off : Int) (_ : Copy) : Prop :=
  (devices dev).permFlag &&& 0x1 ≠ 0 →
    off ≤ bufferSize ∨ buf = [] ∧ 0 ≤ int32 off ∧ int32 off ≤ bufferSize

theorem moduleMemory_at (other : Memory) (j : Minor) {r : Nat} (hr : r < recordSize) :
    moduleMemory other (deviceAt j + r) =
      if r = 8 then (devices j).permFlag
      else if 12 ≤ r then 0 else other (deviceAt j + r) := by
  have hj := deviceAt_eq j
  have hdiv : (deviceAt j + r) / recordSize = j.val := by
    simp only [recordSize] at *
    omega
  have hmod : (deviceAt j + r) % recordSize = r := by
    simp only [recordSize] at *
    omega
  simp [moduleMemory, hdiv, hmod]

theorem moduleMemory_dataSize (other : Memory) (j : Minor) :
    dataSize (moduleMemory other) j = 0 := by
  have hj := deviceAt_eq j
  have hs := sizeAt_eq j
  have h : ∀ i < 4, moduleMemory other (sizeAt j + i) = 0 := by
    intro i hi
    have he : sizeAt j + i = deviceAt j + (1036 + i) := by omega
    rw [he, moduleMemory_at other j (by simp only [recordSize]; omega), if_neg (by omega),
      if_pos (by omega)]
  have hz : dataSize (moduleMemory other) j = load32 (fun _ => 0) 0 :=
    load32_congr fun i hi => h i hi
  rw [hz]
  decide

theorem moduleMemory_sane (other : Memory) : Sane (moduleMemory other) where
  perm j := (moduleMemory_at other j (by decide : 8 < recordSize)).trans (if_pos rfl)
  size j := by simp [moduleMemory_dataSize]

theorem loaded_keeps (other : Memory) : (loaded other).Keeps Sane Inside where
  dev := moduleMemory_sane other
  pos fd file h := by simp [loaded] at h

section

variable {m : Memory} {dev : Minor} {buf : List UInt8}

theorem Sane.size_eq (h : Sane m) (j : Minor) : ∃ k : Nat, dataSize m j = k ∧ k ≤ bufferSize := by
  have hj := h.size j
  exact ⟨(dataSize m j).toNat, by omega, by omega⟩

theorem Sane.of_sameShape {m' : Memory} (h : Sane m) (hs : SameShape m m') : Sane m' where
  perm j := (hs.perm j).trans (h.perm j)
  size j := by
    rw [hs.size]
    exact h.size j

theorem Sane.devWrite (h : Sane m) {p : Nat} (hp : p ≤ bufferSize) (c : Copy) :
    Sane (devWrite m dev buf p c).dev := by
  have hconf : Confined m (MultiDevice.devWrite m dev buf p c).dev dev p _ :=
    devWrite_confined hp rfl c
  have hn : p + min buf.length (bufferSize - p) ≤ bufferSize := by omega
  refine ⟨fun j => (hconf.permFlag hn j).trans (h.perm j), fun j => ?_⟩
  by_cases hj : j = dev
  · subst hj
    have hcases : dataSize (MultiDevice.devWrite m j buf p c).dev j = dataSize m j ∨ _ :=
      devWrite_dataSize hp buf c
    rcases hcases with hs | hs
    · rw [hs]
      exact h.size j
    · rw [hs]
      exact devWrite_off hp buf c
  · rw [hconf.dataSize_other hn hj]
    exact h.size j

theorem Sane.store_size (h : Sane m) {v : Int} (h0 : 0 ≤ int32 v) (h1 : int32 v ≤ bufferSize) :
    Sane (store32 m (sizeAt dev) v) := by
  have hconf : Confined m (store32 m (sizeAt dev) v) dev 0 0 := fun x _ hx => store32_outside hx
  refine ⟨fun j => (hconf.permFlag (by simp) j).trans (h.perm j), fun j => ?_⟩
  by_cases hj : j = dev
  · subst hj
    rw [dataSize, load32_store32]
    exact ⟨h0, h1⟩
  · rw [hconf.dataSize_other (by simp) hj]
    exact h.size j

theorem devRead_within (h : Sane m) (len p : Nat) (c : Copy) :
    Within bufferSize (devRead m dev len p c).accesses := by
  obtain ⟨k, hk, hb⟩ := h.size_eq dev
  rw [devRead_at hk hb rfl]
  split
  next => exact within_nil _
  next =>
    split
    next => exact within_nil _
    next => split <;> exact within_singleton (by omega)

theorem devWrite_within {p : Nat} (hp : p ≤ bufferSize) (c : Copy) :
    Within bufferSize (devWrite m dev buf p c).accesses := by
  rw [devWrite_at hp rfl]
  split
  next => exact within_nil _
  next => split <;> exact within_singleton (by omega)

theorem devWrite_denied (h : permFlag m dev &&& 0x1 = 0) (off : Int) (c : Copy) :
    devWrite m dev buf off c = ⟨-ePerm, m, off, [], []⟩ := by
  simp [devWrite, h]

theorem devWrite_accesses (h : permFlag m dev &&& 0x1 ≠ 0) (off : Int) (c : Copy) :
    (devWrite m dev buf off c).accesses = [(off, min buf.length (sizeT (bufferSize - off)))] := by
  simp only [devWrite, h, if_false]
  split <;> rfl

theorem devWrite_nil (h : permFlag m dev &&& 0x1 ≠ 0) {off : Int} (ho : LegalOffset off)
    (c : Copy) :
    devWrite m dev [] off c = ⟨0, store32 m (sizeAt dev) off, off, [(off, 0)], []⟩ := by
  have h1 := ho.1
  have h2 := ho.2
  have hz : int64 off = off := int64_of_bounds (by omega) h2
  have h0 : int64 0 = 0 := by decide
  have hs : c.stored [] 0 = [] := by
    have := c.stored_length_le [] 0
    exact List.length_eq_zero_iff.mp (by omega)
  simp [devWrite, h, copyFromUser, hs, blit_nil, hz, h0]

/-- Beyond the buffer the clamp `BUFFER_SIZE - *off` wraps to a huge `size_t`. -/
theorem clamp_beyond_pos {off : Int} (ho : LegalOffset off) (h : (bufferSize : Int) < off)
    (hne : buf ≠ []) : 0 < min buf.length (sizeT (bufferSize - off)) := by
  have hB := bufferSize_eq
  have h2 := ho.2
  have hz : (sizeT (bufferSize - off) : Int) = bufferSize - off + 2 ^ 64 :=
    sizeT_of_neg (by omega) (by omega)
  have hl := List.length_pos_iff.mpr hne
  omega

theorem devWrite_violates {off : Int} {c : Copy} (ho : LegalOffset off) (hs : Sane m)
    (h : ¬ WriteFits m dev buf off c) :
    ¬ (Within bufferSize (devWrite m dev buf off c).accesses ∧
      SizesInRange (devWrite m dev buf off c).dev) := by
  simp only [WriteFits, ← hs.perm] at h
  push Not at h
  obtain ⟨hperm, hbeyond, hnil⟩ := h
  rintro ⟨hbuf, hsize⟩
  by_cases hne : buf = []
  · subst hne
    have hsz := hsize dev
    simp only [devWrite_nil hperm ho, dataSize, load32_store32] at hsz
    have := hnil rfl hsz.1
    omega
  · have hpos := clamp_beyond_pos ho hbeyond hne
    rw [devWrite_accesses hperm] at hbuf
    have := hbuf _ List.mem_cons_self hpos
    dsimp only at this
    omega

end

theorem boundsContract : BoundsContract driver bufferSize Sane SizesInRange Inside WriteFits where
  fine h := h.size
  legal h := ⟨h.1, by have := h.2; have := bufferSize_eq; omega⟩
  zero := ⟨by omega, by simp⟩
  read_within := by
    intro m dev len off c hs ho
    obtain ⟨p, rfl⟩ := Int.eq_ofNat_of_zero_le ho.1
    exact devRead_within hs len p c
  read_keeps := by
    intro m dev len off c hs ho
    refine ⟨(devRead_dev m dev len off c).symm ▸ hs, fun hin => ?_⟩
    obtain ⟨p, rfl⟩ := Int.eq_ofNat_of_zero_le ho.1
    obtain ⟨k, hk, hb⟩ := hs.size_eq dev
    have := hin.2
    exact devRead_off hk hb (by omega) len c
  write_exact := by
    intro m dev buf off c hs ho
    constructor
    · intro hgood
      by_contra hfit
      exact devWrite_violates ho hs hfit hgood
    · intro hfit
      by_cases hperm : permFlag m dev &&& 0x1 = 0
      · simp only [driver, devWrite_denied hperm]
        exact ⟨within_nil _, hs.size⟩
      · rcases hfit (by rwa [← hs.perm]) with hle | ⟨rfl, h0, h1⟩
        · obtain ⟨p, rfl⟩ := Int.eq_ofNat_of_zero_le ho.1
          exact ⟨devWrite_within (by omega) c, (hs.devWrite (by omega) c).size⟩
        · simp only [driver, devWrite_nil hperm ho]
          exact ⟨within_singleton (by omega), (hs.store_size h0 h1).size⟩
  write_keeps := by
    intro m dev buf off c hs ho hfit
    by_cases hperm : permFlag m dev &&& 0x1 = 0
    · simp only [driver, devWrite_denied hperm]
      exact ⟨hs, id⟩
    · rcases hfit (by rwa [← hs.perm]) with hle | ⟨rfl, h0, h1⟩
      · obtain ⟨p, rfl⟩ := Int.eq_ofNat_of_zero_le ho.1
        exact ⟨hs.devWrite (by omega) c, fun _ => devWrite_off (by omega) buf c⟩
      · simp only [driver, devWrite_nil hperm ho]
        exact ⟨hs.store_size h0 h1, id⟩

/-- In a run of calls every handler stays within the buffer of its device and every size stays
within range exactly when every permitted write fits. -/
theorem multi_bounds_iff {other : Memory} {es : List (Event (CharState Memory Minor) (Call Minor))}
    {s : CharState Memory Minor} (h : Trace driver.step (loaded other) es s) :
    (SizesInRange (loaded other).dev ∧ ∀ e ∈ es,
      Within bufferSize (driver.serve e.before e.label).2.accesses ∧ SizesInRange e.after.dev) ↔
    ∀ e ∈ es, e.label.Fits WriteFits e.before :=
  boundsContract.run_iff h (loaded_keeps other)

def helloRun : List (Call Minor) :=
  [.openFile 0 hello1, .write 0 [104, 105] none .done, .read 0 9 (some ⟨0, by decide⟩) .done,
    .write 0 [33] (some ⟨1024, by decide⟩) .done]

theorem multi_helloRun_bounds :
    (record driver.step (loaded fun _ => 0) helloRun).length = helloRun.length ∧
    SizesInRange (loaded fun _ => 0).dev ∧ ∀ e ∈ record driver.step (loaded fun _ => 0) helloRun,
      Within bufferSize (driver.serve e.before e.label).2.accesses ∧ SizesInRange e.after.dev := by
  refine ⟨rfl, (multi_bounds_iff (Trace.recorded _ _ _)).mpr ?_⟩
  intro e he
  simp only [record, helloRun, CharDriver.step, List.mem_cons, List.not_mem_nil, or_false] at he
  rcases he with rfl | rfl | rfl | rfl
  · trivial
  · intro file hf _
    cases Option.some.inj hf
    exact Or.inl (by decide)
  · trivial
  · intro file _ _
    exact Or.inl (by simp [OpenFile.offset])

def pwriteBeyond : List (Call Minor) :=
  [.openFile 0 sensor0, .write 0 [65] (some ⟨2000, by decide⟩) .done]

/-- One byte written to `sensor0` at offset 2000 lands in the record of `sensor1`. -/
theorem multi_bounds_violated :
    ¬ ∀ (other : Memory) (es : List (Event (CharState Memory Minor) (Call Minor)))
      (s : CharState Memory Minor), Trace driver.step (loaded other) es s → ∀ e ∈ es,
      Within bufferSize (driver.serve e.before e.label).2.accesses ∧ SizesInRange e.after.dev := by
  intro h
  have hrun := h (fun _ => 0) (record driver.step (loaded fun _ => 0) pwriteBeyond) _
    (Trace.recorded _ _ _)
  have hlast := (hrun _ (List.mem_cons_of_mem _ List.mem_cons_self)).1
  exact absurd hlast (by decide)

end LinuxAssignment.MultiDevice
