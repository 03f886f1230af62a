import LinuxAssignment.BoundedRecord
import LinuxAssignment.MultiDeviceIsolation

namespace LinuxAssignment.MultiDevice

open BoundedRecord ByteMemory Machine

/-- A descriptor open on a device, at a position inside its buffer or right behind it. -/
structure Cursor where
  minor : Minor
  pos : Nat
  pos_le : pos ≤ bufferSize

/-- What the driver is for: a record of bytes for each device, and descriptors open on them. -/
structure Store where
  record : Minor → Record UInt8 bufferSize
  files : Nat → Option Cursor

def Store.start : Store where
  record := fun _ => ⟨List.replicate bufferSize 0, 0, List.length_replicate, Nat.zero_le _⟩
  files := fun _ => none

def Cursor.moveTo (f : Cursor) (p : Nat) : Cursor :=
  { f with
    pos := min p bufferSize
    pos_le := Nat.min_le_right p bufferSize }

/-- A read of a record: the result, the bytes, and where the position is then. -/
def readRecord (j : Minor) (r : Record UInt8 bufferSize) (len p : Nat) (c : Copy) :
    Int × List UInt8 × Nat :=
  if (devices j).permFlag &&& 0x2 = 0 then (-ePerm, [], p)
  else if r.size ≤ p then (0, [], p)
  else
    let n := min len (r.size - p)
    if c.left n ≠ 0 then (-eFault, r.read p (n - c.left n), p)
    else (n, r.read p n, p + n)

/-- A write to a record: the result, the record, and where the position is then. What is stored ends
the record, also where it was longer; a failed copy leaves its part in the buffer. -/
def writeRecord (j : Minor) (r : Record UInt8 bufferSize) (buf : List UInt8) (p : Nat) (c : Copy) :
    Int × Record UInt8 bufferSize × Nat :=
  if (devices j).permFlag &&& 0x1 = 0 then (-ePerm, r, p)
  else
    let n := min buf.length (bufferSize - p)
    let stored := r.overwrite p (c.stored buf n)
    if c.left n ≠ 0 then (-eFault, stored, p) else (n, stored.resize (p + n), p + n)

def Cursor.offset (f : Cursor) (off : Option Position) : Nat :=
  off.elim f.pos fun x => x.val.toNat

/-- Only a call without an offset moves the descriptor. -/
def Store.move (s : Store) (fd : Nat) (f : Cursor) (off : Option Position) (p : Nat) :
    Nat → Option Cursor :=
  if off.isNone then Function.update s.files fd (some (f.moveTo p)) else s.files

def Store.serve (s : Store) : Call Minor → Store × Int × List UInt8
  | .openFile fd j => ({ s with files := Function.update s.files fd (some ⟨j, 0, Nat.zero_le _⟩) }, 0, [])
  | .read fd len off c =>
    match s.files fd with
    | none => (s, -eBadf, [])
    | some f =>
      let r := readRecord f.minor (s.record f.minor) len (f.offset off) c
      ({ s with files := s.move fd f off r.2.2 }, r.1, r.2.1)
  | .write fd buf off c =>
    match s.files fd with
    | none => (s, -eBadf, [])
    | some f =>
      let w := writeRecord f.minor (s.record f.minor) buf (f.offset off) c
      (⟨Function.update s.record f.minor w.2.1, s.move fd f off w.2.2⟩, w.1, [])

/-- A `pwrite64` of the call does not begin beyond the buffer. -/
def InBuffer : Call Minor → Prop
  | .write _ _ (some x) _ => x.val ≤ bufferSize
  | _ => True

instance : (call : Call Minor) → Decidable (InBuffer call)
  | .write _ _ (some x) _ => inferInstanceAs (Decidable (x.val ≤ bufferSize))
  | .openFile _ _ | .read _ _ _ _ | .write _ _ none _ => isTrue trivial

/-- The memory of the module holds the records. -/
structure Holds (m : Memory) (record : Minor → Record UInt8 bufferSize) : Prop where
  perm : ∀ j, permFlag m j = (devices j).permFlag
  size : ∀ j, dataSize m j = (record j).size
  bytes : ∀ j, slice m (bufferAt j) bufferSize = (record j).bytes

structure Represents (s : State) (t : Store) : Prop where
  holds : Holds s.dev t.record
  files : ∀ fd, s.files fd = (t.files fd).map fun f => ⟨f.minor, f.pos⟩

theorem slice_take (m : Memory) (a n k : Nat) (h : k ≤ n) : (slice m a n).take k = slice m a k := by
  obtain ⟨d, rfl⟩ := Nat.exists_eq_add_of_le h
  rw [slice_add, List.take_left' (slice_length m a k)]

theorem slice_drop (m : Memory) (a n k : Nat) (h : k ≤ n) :
    (slice m a n).drop k = slice m (a + k) (n - k) := by
  obtain ⟨d, rfl⟩ := Nat.exists_eq_add_of_le h
  rw [slice_add, List.drop_left' (slice_length m a k), Nat.add_sub_cancel_left]

theorem slice_blit (m : Memory) (a n p : Nat) (bs : List UInt8) (h : p + bs.length ≤ n) :
    slice (blit m (a + p) bs) a n = splice (slice m a n) p bs := by
  obtain ⟨d, rfl⟩ := Nat.exists_eq_add_of_le h
  have hfront : slice (blit m (a + p) bs) a p = slice m a p :=
    slice_congr fun i hi => blit_outside (by omega)
  have hback : slice (blit m (a + p) bs) (a + (p + bs.length)) d =
      slice m (a + (p + bs.length)) d := slice_congr fun i hi => blit_outside (by omega)
  have hmid : slice (blit m (a + p) bs) (a + p) bs.length = bs := slice_blit_self m (a + p) bs
  rw [splice, slice_take m a _ p (by omega), slice_drop m a _ _ (Nat.le_add_right _ d),
    Nat.add_sub_cancel_left, slice_add, slice_add, hfront, hmid, hback]

section

variable {m : Memory} {record : Minor → Record UInt8 bufferSize} {j : Minor} {p : Nat}

theorem Holds.read (h : Holds m record) (j : Minor) {p n : Nat} (hn : p + n ≤ bufferSize) :
    slice m (bufferAt j + p) n = (record j).read p n := by
  rw [Record.read, ← h.bytes j, slice_drop m _ _ p (by omega), slice_take m _ _ n (by omega)]

/-- The read handler reads the record. -/
theorem Holds.devRead (h : Holds m record) (j : Minor) (len p : Nat) (c : Copy) :
    (devRead m j len p c).ret = (readRecord j (record j) len p c).1 ∧
      (devRead m j len p c).delivered = (readRecord j (record j) len p c).2.1 ∧
      (devRead m j len p c).off = (readRecord j (record j) len p c).2.2 := by
  have hsize := (record j).size_le
  rw [devRead_at (h.size j) hsize rfl c, h.perm j]
  unfold readRecord
  split
  next => exact ⟨rfl, rfl, rfl⟩
  next =>
    split
    next => exact ⟨rfl, rfl, rfl⟩
    next =>
      dsimp only
      split
      next =>
        exact ⟨rfl, h.read j (by omega), rfl⟩
      next =>
        exact ⟨rfl, h.read j (by omega), (Nat.cast_add _ _).symm⟩

theorem Holds.of_confined {m' : Memory} {n : Nat} {r : Record UInt8 bufferSize}
    (h : Holds m record) (hconf : Confined m m' j p n) (hn : p + n ≤ bufferSize)
    (hsize : dataSize m' j = r.size) (hbytes : slice m' (bufferAt j) bufferSize = r.bytes) :
    Holds m' (Function.update record j r) := by
  refine ⟨fun i => (hconf.permFlag hn i).trans (h.perm i), fun i => ?_, fun i => ?_⟩
  · by_cases hij : i = j
    · subst hij
      rw [Function.update_self]
      exact hsize
    · rw [Function.update_of_ne hij, hconf.dataSize_other hn hij]
      exact h.size i
  · by_cases hij : i = j
    · subst hij
      rw [Function.update_self]
      exact hbytes
    · rw [Function.update_of_ne hij, ← h.bytes i]
      exact slice_congr fun k hk => ((hconf.sameRecord hn hij).buffer hk).symm

/-- The write handler writes the record, and nothing else. -/
theorem Holds.devWrite (h : Holds m record) (j : Minor) (buf : List UInt8) (hp : p ≤ bufferSize)
    (c : Copy) :
    (devWrite m j buf p c).ret = (writeRecord j (record j) buf p c).1 ∧
      (devWrite m j buf p c).off = (writeRecord j (record j) buf p c).2.2 ∧
      Holds (devWrite m j buf p c).dev
        (Function.update record j (writeRecord j (record j) buf p c).2.1) := by
  have hB := bufferSize_eq
  have hb := bufferAt_eq j
  have hs := sizeAt_eq j
  have hconf : Confined m (MultiDevice.devWrite m j buf p c).dev j p _ := devWrite_confined hp rfl c
  have hfit : p + min buf.length (bufferSize - p) ≤ bufferSize := by omega
  have hlen := c.stored_length_le buf (min buf.length (bufferSize - p))
  have hstored : slice (blit m (bufferAt j + p) (c.stored buf (min buf.length (bufferSize - p))))
      (bufferAt j) bufferSize =
        ((record j).overwrite p (c.stored buf (min buf.length (bufferSize - p)))).bytes := by
    rw [Record.overwrite_bytes (by omega), slice_blit m _ _ p _ (by omega), h.bytes j]
  rw [devWrite_at hp rfl c, h.perm j] at hconf ⊢
  unfold writeRecord
  split
  next =>
    refine ⟨rfl, rfl, ?_⟩
    rw [Function.update_eq_self]
    exact h
  next hperm =>
    rw [if_neg hperm] at hconf
    dsimp only
    split
    next hleft =>
      rw [if_pos hleft] at hconf
      refine ⟨rfl, rfl, h.of_confined hconf hfit ?_ hstored⟩
      rw [Record.overwrite_size, ← h.size j]
      exact load32_congr fun i hi => copyFromUser_outside (by omega)
    next hleft =>
      rw [if_neg hleft] at hconf
      have htake : c.stored buf (min buf.length (bufferSize - p)) = buf.take _ :=
        Copy.stored_of_left (Decidable.of_not_not hleft)
      refine ⟨rfl, (Nat.cast_add _ _).symm, h.of_confined hconf hfit ?_ ?_⟩
      · rw [Record.resize_size hfit]
        exact (load32_store32 _ _ _).trans (int32_of_bounds (by omega) (by omega))
      · rw [Record.resize_bytes, ← hstored, htake]
        exact slice_congr fun i hi => store32_outside (by omega)

end

theorem loaded_represents (other : Memory) : Represents (loaded other) Store.start := by
  have hB := bufferSize_eq
  refine ⟨⟨(moduleMemory_sane other).perm, moduleMemory_dataSize other, fun j => ?_⟩, fun _ => rfl⟩
  apply List.ext_getElem
  · simp [Store.start]
  · intro i hi hi'
    rw [slice_getElem hi]
    have hlt : i < bufferSize := by simpa using hi
    have hat : bufferAt j + i = deviceAt j + (12 + i) := by
      have := bufferAt_eq j
      have := deviceAt_eq j
      omega
    change moduleMemory other (bufferAt j + i) = _
    rw [hat, moduleMemory_at other j (by simp only [recordSize]; omega), if_neg (by omega),
      if_pos (by omega)]
    simp [Store.start]

def answer (r : Response) : Int × List UInt8 := (r.ret, r.delivered)

section

variable {s : State} {t : Store} {fd : Nat} {f : Cursor} {off : Option Position} {p : Nat}

theorem offset_eq (f : Cursor) (off : Option Position) :
    OpenFile.offset ⟨f.minor, f.pos⟩ off = (f.offset off : Int) := by
  cases off with
  | none => rfl
  | some x => exact (Int.toNat_of_nonneg x.property.1).symm

theorem readRecord_pos {j : Minor} {r : Record UInt8 bufferSize} (hp : p ≤ bufferSize) (len : Nat)
    (c : Copy) : (readRecord j r len p c).2.2 ≤ bufferSize := by
  have hsize := r.size_le
  unfold readRecord
  split
  next => exact hp
  next =>
    split
    next => exact hp
    next =>
      dsimp only
      split
      next => exact hp
      next => dsimp only; omega

theorem writeRecord_pos {j : Minor} {r : Record UInt8 bufferSize} (hp : p ≤ bufferSize)
    (buf : List UInt8) (c : Copy) : (writeRecord j r buf p c).2.2 ≤ bufferSize := by
  unfold writeRecord
  split
  next => exact hp
  next =>
    dsimp only
    split
    next => exact hp
    next => dsimp only; omega

theorem Represents.move_files (h : Represents s t) (f : Cursor) (hp : off = none → p ≤ bufferSize)
    (fd g : Nat) :
    (if off.isNone then Function.update s.files fd (some ⟨f.minor, (p : Int)⟩) else s.files) g =
      (t.move fd f off p g).map fun f => ⟨f.minor, f.pos⟩ := by
  unfold Store.move
  cases off with
  | some x => exact h.files g
  | none =>
    simp only [Option.isNone_none, if_true]
    by_cases hg : g = fd
    · subst hg
      rw [Function.update_self, Function.update_self]
      simp [Cursor.moveTo, Nat.min_eq_left (hp rfl)]
    · rw [Function.update_of_ne hg, Function.update_of_ne hg]
      exact h.files g

theorem offset_of_none (h : off = none) : f.offset off ≤ bufferSize := by
  subst h
  exact f.pos_le

/-- One call is served as the store serves it. -/
theorem Represents.serve (h : Represents s t) {call : Call Minor} (hcall : InBuffer call) :
    answer (driver.serve s call).2 = (t.serve call).2 ∧
      Represents (driver.serve s call).1 (t.serve call).1 := by
  cases call with
  | openFile fd j =>
    refine ⟨rfl, h.holds, fun g => ?_⟩
    simp only [CharDriver.serve, Store.serve]
    by_cases hg : g = fd
    · subst hg
      rw [Function.update_self, Function.update_self]
      rfl
    · rw [Function.update_of_ne hg, Function.update_of_ne hg]
      exact h.files g
  | read fd len off c =>
    have hfile := h.files fd
    cases hf : t.files fd with
    | none =>
      rw [hf] at hfile
      simp only [CharDriver.serve, onFile, hfile, Store.serve, hf, Option.map_none]
      exact ⟨rfl, h⟩
    | some f =>
      rw [hf] at hfile
      obtain ⟨hret, hdel, hoff⟩ := h.holds.devRead f.minor len (f.offset off) c
      simp only [CharDriver.serve, onFile, hfile, Store.serve, hf, Option.map_some, offset_eq, driver,
        answer, hret, hdel, hoff, devRead_dev]
      refine ⟨trivial, h.holds, h.move_files f (fun hnone => ?_) fd⟩
      exact readRecord_pos (offset_of_none hnone) len c
  | write fd buf off c =>
    have hfile := h.files fd
    cases hf : t.files fd with
    | none =>
      rw [hf] at hfile
      simp only [CharDriver.serve, onFile, hfile, Store.serve, hf, Option.map_none]
      exact ⟨rfl, h⟩
    | some f =>
      rw [hf] at hfile
      have hpos : f.offset off ≤ bufferSize := by
        cases off with
        | none => exact f.pos_le
        | some x =>
          have hx : x.val ≤ (bufferSize : Nat) := hcall
          have hnn := x.property.1
          change x.val.toNat ≤ bufferSize
          omega
      obtain ⟨hret, hoff, hholds⟩ := h.holds.devWrite f.minor buf hpos c
      have hdel : (MultiDevice.devWrite s.dev f.minor buf (f.offset off) c).delivered = [] := by
        rw [devWrite_at hpos rfl]
        split
        next => rfl
        next => split <;> rfl
      simp only [CharDriver.serve, onFile, hfile, Store.serve, hf, Option.map_some, offset_eq, driver,
        answer, hret, hoff, hdel]
      exact ⟨trivial, hholds, h.move_files f (fun _ => writeRecord_pos hpos buf c) fd⟩

end

theorem run_represents (other : Memory) {calls : List (Call Minor)}
    (h : ∀ call ∈ calls, InBuffer call) :
    Represents (final driver.serve (loaded other) calls) (final Store.serve Store.start calls) :=
  (simulates (fun _ _ _ hr hc => hr.serve hc) (loaded_represents other) h).2

/-- The driver, with its records side by side in memory and its counting in `loff_t` and `size_t`,
answers every run of calls that begin no `pwrite64` beyond a buffer as the store of separate records
does, and its memory holds them. -/
theorem driver_refines_store (other : Memory) {calls : List (Call Minor)}
    (h : ∀ call ∈ calls, InBuffer call) :
    (replies driver.serve (loaded other) calls).map answer = replies Store.serve Store.start calls ∧
      Represents (final driver.serve (loaded other) calls) (final Store.serve Store.start calls) :=
  simulates (fun _ _ _ hr hc => hr.serve hc) (loaded_represents other) h

/-- Two descriptors on one device, a positioned write, and a copy that fails half way. -/
def mixedCalls : List (Call Minor) :=
  [.openFile 0 hello1, .openFile 1 hello1, .write 0 [1, 2, 3] none .done,
    .write 1 [9] (some ⟨2, by decide⟩) (.fault 0 true), .read 1 8 none .done,
    .read 0 8 (some ⟨1, by decide⟩) .done]

theorem mixedCalls_refine :
    (replies driver.serve (loaded fun _ => 0) mixedCalls).map answer =
      replies Store.serve Store.start mixedCalls :=
  (driver_refines_store (fun _ => 0) (by decide)).1

end LinuxAssignment.MultiDevice
