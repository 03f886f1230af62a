import LinuxAssignment.CharDevice
import Mathlib.Data.Fin.VecNotation

namespace LinuxAssignment.MultiDevice

open ByteMemory

abbrev bufferSize : Nat := 1024
abbrev numDevices : Nat := 5

theorem bufferSize_eq : bufferSize = 1024 := rfl

abbrev Minor := Fin numDevices

abbrev sensor0 : Minor := 0
abbrev hello1 : Minor := 3

structure MyDevice where
  name : String
  permFlag : UInt8

def devices : Minor → MyDevice :=
  ![⟨"sensor0", 0x1⟩, ⟨"sensor1", 0x0⟩, ⟨"hello0", 0x2⟩, ⟨"hello1", 0x3⟩, ⟨"goodbye", 0x1⟩]

/-- `sizeof(struct my_device)`: the name pointer at 0, `perm_flag` at 8, `data.buffer` at 12,
`data.size` at 1036. -/
abbrev recordSize : Nat := 1040

def deviceAt (minor : Minor) : Nat := minor.val * recordSize

def permFlag (m : Memory) (minor : Minor) : UInt8 := m (deviceAt minor + 8)

def bufferAt (minor : Minor) : Nat := deviceAt minor + 12

def sizeAt (minor : Minor) : Nat := deviceAt minor + 1036

def dataSize (m : Memory) (minor : Minor) : Int := load32 m (sizeAt minor)

/-- The memory once the module is loaded: the static initialisers, and whatever the linker and
the other modules put in the name pointers, the padding and around the array. -/
def moduleMemory (other : Memory) : Memory := fun x =>
  if h : x / recordSize < numDevices then
    if x % recordSize = 8 then (devices ⟨x / recordSize, h⟩).permFlag
    else if 12 ≤ x % recordSize then 0
    else other x
  else other x

/-- The read handler of `ex_2_multi2.c`, which `ex_2_driver.c` repeats; `private_data` is named by
the minor number of the record it points to. -/
def devRead (m : Memory) (dev : Minor) (len : Nat) (off : Int) (c : Copy) : Handled Memory :=
  if permFlag m dev &&& 0x2 = 0 then ⟨-ePerm, m, off, [], []⟩
  else if dataSize m dev ≤ off then ⟨0, m, off, [], []⟩
  else
    let toCopy := min len (sizeT (dataSize m dev - off))
    let copied := copyToUser m (bufferAt dev + off.toNat) toCopy c
    if copied.1 ≠ 0 then ⟨-eFault, m, off, [(off, toCopy)], copied.2⟩
    else ⟨int64 toCopy, m, int64 (off + toCopy), [(off, toCopy)], copied.2⟩

def devWrite (m : Memory) (dev : Minor) (buf : List UInt8) (off : Int) (c : Copy) :
    Handled Memory :=
  if permFlag m dev &&& 0x1 = 0 then ⟨-ePerm, m, off, [], []⟩
  else
    let toCopy := min buf.length (sizeT (bufferSize - off))
    let copied := copyFromUser m (bufferAt dev + off.toNat) buf toCopy c
    if copied.1 ≠ 0 then ⟨-eFault, copied.2, off, [(off, toCopy)], []⟩
    else
      let off' := int64 (off + toCopy)
      ⟨int64 toCopy, store32 copied.2 (sizeAt dev) off', off', [(off, toCopy)], []⟩

def driver : CharDriver Memory Minor := ⟨devRead, devWrite⟩

def loaded (other : Memory) : CharState Memory Minor := ⟨moduleMemory other, fun _ => none⟩

end LinuxAssignment.MultiDevice
