import LinuxAssignment.MultiDeviceIsolation
import LinuxAssignment.UserMenu

namespace LinuxAssignment.UserSession

open ByteMemory Stdio Machine MultiDevice UserMenu

/-- The kernel with the multi-device driver, for a program whose only file is `fd`. -/
def deviceKernel (fd : Nat) : Kernel MultiDevice.State
  | s, .write bytes =>
    let r := driver.serve s (.write fd bytes none .done)
    (r.1, r.2.ret, r.2.delivered)
  | s, .read len =>
    let r := driver.serve s (.read fd len none .done)
    (r.1, r.2.ret, r.2.delivered)
  | s, .close => (⟨s.dev, Function.update s.files fd none⟩, 0, [])

structure Seated (fd : Nat) (j : Minor) (s : MultiDevice.State) : Prop where
  keeps : s.Keeps Sane Inside
  file : (s.files fd).map OpenFile.privateData = some j

/-- The file stands behind all that the device holds. -/
def AtEnd (fd : Nat) (j : Minor) (s : MultiDevice.State) : Prop :=
  ∃ p : Nat, s.files fd = some ⟨j, p⟩ ∧ dataSize s.dev j = p

section

variable {fd : Nat} {j : Minor} {s : MultiDevice.State}

theorem serve_target {call : Call Minor} (h : (s.files fd).map OpenFile.privateData = some j)
    (hcall : call.IsRead ∨ call.IsWrite) :
    ((driver.serve s call).1.files fd).map OpenFile.privateData = some j := by
  have onFile_target : ∀ g off (handler : OpenFile Minor → Handled Memory),
      ((onFile s g off handler).1.files fd).map OpenFile.privateData = some j := by
    intro g off handler
    unfold onFile
    split
    next => exact h
    next file hf =>
      cases off with
      | some x => exact h
      | none =>
        simp only [Option.isNone_none, ↓reduceIte]
        by_cases hg : fd = g
        · subst hg
          rw [hf] at h
          rw [Function.update_self]
          exact h
        · rwa [Function.update_of_ne hg]
  cases call with
  | openFile g target => exact absurd hcall (not_or.mpr ⟨id, id⟩)
  | read g len off c => exact onFile_target g off _
  | write g buf off c => exact onFile_target g off _

theorem Seated.write (hs : Seated fd j s) (hperm : (devices j).permFlag &&& 0x1 ≠ 0)
    (bytes : List UInt8) :
    Seated fd j (deviceKernel fd s (.write bytes)).1 ∧
      AtEnd fd j (deviceKernel fd s (.write bytes)).1 := by
  refine ⟨⟨plain_keeps hs.keeps rfl, serve_target hs.file (Or.inr trivial)⟩, ?_⟩
  obtain ⟨p, hp, hf⟩ := file_on hs.keeps hs.file
  have hB := MultiDevice.bufferSize_eq
  have hallowed : ¬ permFlag s.dev j &&& 0x1 = 0 := by rwa [hs.keeps.dev.perm]
  have hw : MultiDevice.devWrite s.dev j bytes p .done = _ := devWrite_at hp rfl .done
  rw [if_neg hallowed, if_neg (by simp)] at hw
  refine ⟨p + min bytes.length (MultiDevice.bufferSize - p), ?_, ?_⟩
  · simp [deviceKernel, CharDriver.serve, onFile, hf, OpenFile.offset, driver, hw]
  · simp only [deviceKernel, CharDriver.serve, onFile, hf, OpenFile.offset, Option.elim, driver, hw]
    exact (load32_store32 _ _ _).trans (int32_of_bounds (by omega) (by omega))

theorem Seated.read (hs : Seated fd j s) (len : Nat) :
    Seated fd j (deviceKernel fd s (.read len)).1 :=
  ⟨plain_keeps hs.keeps rfl, serve_target hs.file (Or.inl trivial)⟩

theorem AtEnd.read (hend : AtEnd fd j s) (hs : Seated fd j s)
    (hperm : (devices j).permFlag &&& 0x2 ≠ 0) (len : Nat) :
    AtEnd fd j (deviceKernel fd s (.read len)).1 ∧ (deviceKernel fd s (.read len)).2 = (0, []) := by
  obtain ⟨p, hf, hsize⟩ := hend
  have hp := (hs.keeps.pos fd _ hf).2
  dsimp only at hp
  have hallowed : ¬ permFlag s.dev j &&& 0x2 = 0 := by rwa [hs.keeps.dev.perm]
  have hn : min len (p - p) = 0 := by omega
  have hr := devRead_at hsize (Int.ofNat_le.mp hp) hn .done
  rw [if_neg hallowed, if_pos (Nat.le_refl p)] at hr
  refine ⟨⟨p, ?_, ?_⟩, ?_⟩
  · simp [deviceKernel, CharDriver.serve, onFile, hf, OpenFile.offset, driver, hr]
  · simp only [deviceKernel, CharDriver.serve, onFile, hf, OpenFile.offset, Option.elim, driver, hr]
    exact hsize
  · simp only [deviceKernel, CharDriver.serve, onFile, hf, OpenFile.offset, Option.elim, driver, hr]

end

def typed (cmds : List Command) : User := ⟨cmds.flatMap Command.keys, 0, fun _ => 0⟩

end LinuxAssignment.UserSession
