import LinuxAssignment.UserCopy
import LinuxAssignment.StepSystem
import Mathlib.Logic.Function.Basic

namespace LinuxAssignment

open StepSystem

/-- What a read or write handler leaves behind: its return value, the driver's data, `*off`, the
ranges of the device buffer it accessed, and the bytes that reached the user. -/
structure Handled (δ : Type) where
  ret : Int
  dev : δ
  off : Int
  accesses : List (Int × Nat)
  delivered : List UInt8

/-- The handlers of a character driver with data `δ` whose files carry `private_data` in `π`. -/
structure CharDriver (δ π : Type) where
  devRead : δ → π → Nat → Int → Copy → Handled δ
  devWrite : δ → π → List UInt8 → Int → Copy → Handled δ

/-- The offsets the VFS lets through to a handler: the non-negative values of `loff_t`. -/
def LegalOffset (x : Int) : Prop := 0 ≤ x ∧ x < 2 ^ 63

abbrev Position := {x : Int // LegalOffset x}

instance (x : Int) : Decidable (LegalOffset x) := inferInstanceAs (Decidable (_ ∧ _))

structure OpenFile (π : Type) where
  privateData : π
  pos : Int

structure CharState (δ π : Type) where
  dev : δ
  files : Nat → Option (OpenFile π)

/-- Calls through file descriptors. Without an offset a call is a plain `read` or `write` on the
file's own position, with one it is `pread64` or `pwrite64`. -/
inductive Call (π : Type) where
  | openFile (fd : Nat) (target : π)
  | read (fd len : Nat) (off : Option Position) (c : Copy)
  | write (fd : Nat) (buf : List UInt8) (off : Option Position) (c : Copy)

def Call.Plain {π : Type} : Call π → Prop
  | .openFile _ _ => True
  | .read _ _ off _ => off = none
  | .write _ _ off _ => off = none

def Call.IsRead {π : Type} : Call π → Prop
  | .read _ _ _ _ => True
  | _ => False

def Call.IsWrite {π : Type} : Call π → Prop
  | .write _ _ _ _ => True
  | _ => False

structure Response where
  ret : Int
  delivered : List UInt8
  accesses : List (Int × Nat)
  deriving DecidableEq

section

variable {δ π : Type}

def OpenFile.offset (file : OpenFile π) (off : Option Position) : Int :=
  off.elim file.pos Subtype.val

/-- Run a handler on an open file; only the file's own position is written back. -/
def onFile (s : CharState δ π) (fd : Nat) (off : Option Position)
    (handler : OpenFile π → Handled δ) : CharState δ π × Response :=
  match s.files fd with
  | none => (s, ⟨-eBadf, [], []⟩)
  | some file =>
    let h := handler file
    (⟨h.dev, if off.isNone then Function.update s.files fd (some ⟨file.privateData, h.off⟩)
      else s.files⟩, ⟨h.ret, h.delivered, h.accesses⟩)

def CharDriver.serve (drv : CharDriver δ π) (s : CharState δ π) :
    Call π → CharState δ π × Response
  | .openFile fd target => (⟨s.dev, Function.update s.files fd (some ⟨target, 0⟩)⟩, ⟨0, [], []⟩)
  | .read fd len off c =>
    onFile s fd off fun f => drv.devRead s.dev f.privateData len (f.offset off) c
  | .write fd buf off c =>
    onFile s fd off fun f => drv.devWrite s.dev f.privateData buf (f.offset off) c

def CharState.target (s : CharState δ π) : Call π → Option π
  | .openFile _ target => some target
  | .read fd _ _ _ => (s.files fd).map OpenFile.privateData
  | .write fd _ _ _ => (s.files fd).map OpenFile.privateData

def CharDriver.step (drv : CharDriver δ π) (s : CharState δ π) (call : Call π) :
    Option (CharState δ π) :=
  some (drv.serve s call).1

def Within (size : Nat) (accesses : List (Int × Nat)) : Prop :=
  ∀ a ∈ accesses, 0 < a.2 → 0 ≤ a.1 ∧ a.1 + a.2 ≤ size

instance (size : Nat) (accesses : List (Int × Nat)) : Decidable (Within size accesses) :=
  inferInstanceAs (Decidable (∀ a ∈ accesses, 0 < a.2 → 0 ≤ a.1 ∧ a.1 + a.2 ≤ size))

theorem within_nil (size : Nat) : Within size [] := fun _ h => absurd h List.not_mem_nil

theorem within_singleton {size n : Nat} {x : Int} (h : 0 < n → 0 ≤ x ∧ x + n ≤ size) :
    Within size [(x, n)] := by
  intro a ha
  rw [List.mem_singleton.mp ha]
  exact h

structure CharState.Keeps (s : CharState δ π) (Inv : δ → Prop) (inside : Int → Prop) : Prop where
  dev : Inv s.dev
  pos : ∀ fd file, s.files fd = some file → inside file.pos

def Call.Fits (fits : δ → π → List UInt8 → Int → Copy → Prop) (s : CharState δ π) :
    Call π → Prop
  | .write fd buf off c => ∀ file, s.files fd = some file →
      fits s.dev file.privateData buf (file.offset off) c
  | _ => True

/-- What has to hold of the two handlers of a driver for its runs to stay in bounds exactly when
every write meets the condition `fits`. -/
structure BoundsContract (drv : CharDriver δ π) (size : Nat) (Inv Fine : δ → Prop)
    (inside : Int → Prop) (fits : δ → π → List UInt8 → Int → Copy → Prop) : Prop where
  fine : ∀ {d}, Inv d → Fine d
  legal : ∀ {x}, inside x → LegalOffset x
  zero : inside 0
  read_within : ∀ {d} p len {off} c, Inv d → LegalOffset off →
    Within size (drv.devRead d p len off c).accesses
  read_keeps : ∀ {d} p len {off} c, Inv d → LegalOffset off →
    Inv (drv.devRead d p len off c).dev ∧ (inside off → inside (drv.devRead d p len off c).off)
  write_exact : ∀ {d} p buf {off} c, Inv d → LegalOffset off →
    ((Within size (drv.devWrite d p buf off c).accesses ∧ Fine (drv.devWrite d p buf off c).dev) ↔
      fits d p buf off c)
  write_keeps : ∀ {d} p buf {off} c, Inv d → LegalOffset off → fits d p buf off c →
    Inv (drv.devWrite d p buf off c).dev ∧ (inside off → inside (drv.devWrite d p buf off c).off)

theorem onFile_keeps {s : CharState δ π} {Inv : δ → Prop} {inside : Int → Prop}
    (hs : s.Keeps Inv inside) {fd : Nat} {off : Option Position}
    {handler : OpenFile π → Handled δ}
    (h : ∀ file, s.files fd = some file →
      Inv (handler file).dev ∧ (inside (file.offset off) → inside (handler file).off)) :
    (onFile s fd off handler).1.Keeps Inv inside := by
  unfold onFile
  split
  next => exact hs
  next file hf =>
    refine ⟨(h file hf).1, fun g gfile hg => ?_⟩
    cases off with
    | some x => exact hs.pos g gfile hg
    | none =>
      simp only [Option.isNone_none, ↓reduceIte] at hg
      by_cases he : g = fd
      · subst he
        simp only [Function.update_self, Option.some.injEq] at hg
        subst hg
        exact (h file hf).2 (hs.pos g file hf)
      · rw [Function.update_of_ne he] at hg
        exact hs.pos g gfile hg

theorem onFile_files {s : CharState δ π} {fd : Nat} {off : Option Position}
    {handler : OpenFile π → Handled δ}
    (h : ∀ file, s.files fd = some file → (handler file).off = file.offset off) :
    (onFile s fd off handler).1.files = s.files := by
  unfold onFile
  split
  next => rfl
  next file hf =>
    cases off with
    | some x => rfl
    | none =>
      have hoff : (handler file).off = file.pos := h file hf
      simp only [Option.isNone_none, ↓reduceIte, hoff]
      exact hf ▸ Function.update_eq_self fd s.files

theorem openFile_keeps {drv : CharDriver δ π} {s : CharState δ π} {Inv : δ → Prop}
    {inside : Int → Prop} (hs : s.Keeps Inv inside) (h0 : inside 0) (fd : Nat) (target : π) :
    (drv.serve s (.openFile fd target)).1.Keeps Inv inside := by
  refine ⟨hs.dev, fun g file hg => ?_⟩
  simp only [CharDriver.serve] at hg
  by_cases he : g = fd
  · subst he
    simp only [Function.update_self, Option.some.injEq] at hg
    subst hg
    exact h0
  · rw [Function.update_of_ne he] at hg
    exact hs.pos g file hg

namespace BoundsContract

variable {drv : CharDriver δ π} {size : Nat} {Inv Fine : δ → Prop} {inside : Int → Prop}
  {fits : δ → π → List UInt8 → Int → Copy → Prop}
  (hc : BoundsContract drv size Inv Fine inside fits)

include hc

theorem offset_legal {s : CharState δ π} (hs : s.Keeps Inv inside) {fd : Nat}
    {file : OpenFile π} (hf : s.files fd = some file) (off : Option Position) :
    LegalOffset (file.offset off) := by
  cases off with
  | none => exact hc.legal (hs.pos fd file hf)
  | some x => exact x.property

theorem serve_keeps {s : CharState δ π} (hs : s.Keeps Inv inside) {call : Call π}
    (hfit : call.Fits fits s) : (drv.serve s call).1.Keeps Inv inside := by
  cases call with
  | openFile fd target => exact openFile_keeps hs hc.zero fd target
  | read fd len off c =>
    exact onFile_keeps hs fun file hf => hc.read_keeps _ _ c hs.dev (hc.offset_legal hs hf off)
  | write fd buf off c =>
    exact onFile_keeps hs fun file hf =>
      hc.write_keeps _ _ c hs.dev (hc.offset_legal hs hf off) (hfit file hf)

theorem serve_iff {s : CharState δ π} (hs : s.Keeps Inv inside) (call : Call π) :
    (Within size (drv.serve s call).2.accesses ∧ Fine (drv.serve s call).1.dev) ↔
      call.Fits fits s := by
  cases call with
  | openFile fd target => exact iff_of_true ⟨within_nil size, hc.fine hs.dev⟩ trivial
  | read fd len off c =>
    refine iff_of_true ?_ trivial
    cases hf : s.files fd with
    | none =>
      simp only [CharDriver.serve, onFile, hf]
      exact ⟨within_nil size, hc.fine hs.dev⟩
    | some file =>
      have hl := hc.offset_legal hs hf off
      simp only [CharDriver.serve, onFile, hf]
      exact ⟨hc.read_within _ _ c hs.dev hl, hc.fine (hc.read_keeps _ _ c hs.dev hl).1⟩
  | write fd buf off c =>
    cases hf : s.files fd with
    | none =>
      simp only [CharDriver.serve, onFile, hf, Call.Fits]
      exact iff_of_true ⟨within_nil size, hc.fine hs.dev⟩ (fun _ h => by simp at h)
    | some file =>
      have hl := hc.offset_legal hs hf off
      simp only [CharDriver.serve, onFile, hf, Call.Fits, Option.some.injEq, forall_eq']
      exact hc.write_exact _ _ c hs.dev hl

theorem trace_keeps {s t : CharState δ π} {es : List (Event (CharState δ π) (Call π))}
    (h : Trace drv.step s es t) (hs : s.Keeps Inv inside)
    (hfits : ∀ e ∈ es, e.label.Fits fits e.before) : t.Keeps Inv inside := by
  have keep : ∀ (s : CharState δ π) (call : Call π) (t : CharState δ π),
      s.Keeps Inv inside → call.Fits fits s → drv.step s call = some t → t.Keeps Inv inside := by
    intro s call t hs hfit ht
    cases Option.some.inj ht
    exact hc.serve_keeps hs hfit
  exact h.invariant keep hs hfits

/-- A run stays in bounds exactly when each of its writes meets the condition. -/
theorem run_iff {s t : CharState δ π} {es : List (Event (CharState δ π) (Call π))}
    (h : Trace drv.step s es t) (hs : s.Keeps Inv inside) :
    (Fine s.dev ∧ ∀ e ∈ es,
      Within size (drv.serve e.before e.label).2.accesses ∧ Fine e.after.dev) ↔
    ∀ e ∈ es, e.label.Fits fits e.before := by
  have hiff := h.forall_iff (fun s => s.Keeps Inv inside) (fun s call => call.Fits fits s)
    (fun e => Within size (drv.serve e.before e.label).2.accesses ∧ Fine e.after.dev) ?_ ?_ hs
  · exact ⟨fun hh => hiff.mp hh.2, fun hh => ⟨hc.fine hs.dev, hiff.mpr hh⟩⟩
  · intro s call t hs ht
    cases Option.some.inj ht
    exact hc.serve_iff hs call
  · intro s call t hs hfit ht
    cases Option.some.inj ht
    exact hc.serve_keeps hs hfit

end BoundsContract

end

end LinuxAssignment
