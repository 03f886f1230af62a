import LinuxAssignment.MultiDeviceStore
import LinuxAssignment.UserSession

namespace LinuxAssignment.UserProgram

open ByteMemory Stdio Machine MultiDevice UserMenu UserSession

abbrev maxDevices : Nat := 5

def deviceNames : Fin maxDevices → String := !["sensor0", "sensor1", "hello0", "hello1", "goodbye"]

inductive Line where
  | enterNumber
  | device (i : Fin maxDevices) (name : String)
  | invalidNumber
  | cannotOpen
  | loop (p : Printed)
  deriving DecidableEq

def prompts : List Line :=
  .enterNumber :: (List.finRange maxDevices).map fun i => .device i (deviceNames i)

/-- The device number once it is checked, which can index the table of the names. -/
def checked (devNum : Int) : Option (Fin maxDevices) :=
  if h : devNum < 0 ∨ (maxDevices : Int) ≤ devNum then none
  else some ⟨devNum.toNat, by omega⟩

/-- The system calls of the program: `open`, and those on a descriptor. -/
structure Os (σ : Type) where
  openPath : σ → String → σ × Int
  calls : Int → Kernel σ

structure Ran (σ : Type) where
  printed : List Line
  turns : List (Turn σ)
  status : Option Int
  kernel : σ

/-- `main` with at most `n` passes of the loop, whatever `dev_num` and `option` hold at first. -/
def main {σ : Type} (os : Os σ) (n : Nat) (devNum : Int) (option : UInt8) (input : List UInt8)
    (s : σ) : Ran σ :=
  let r := scanfInt input devNum
  match checked r.1 with
  | none => ⟨prompts ++ [.invalidNumber], [], some 1, s⟩
  | some i =>
    let o := os.openPath s ("/dev/" ++ deviceNames i)
    if o.2 < 0 then ⟨prompts ++ [.cannotOpen], [], some 1, o.1⟩
    else
      let ts := turns (os.calls o.2) n ⟨r.2, option, fun _ => 0⟩ o.1
      ⟨prompts ++ ts.flatMap fun t => t.printed.map .loop, ts,
        if ts.any Turn.exits then some 0 else none, (ts.getLast?.map Turn.kernel).getD o.1⟩

def eNoent : Int := 2
def eMfile : Int := 24

/-- The device whose node has a path. -/
def nodeOf (path : String) : Option Minor :=
  (List.finRange numDevices).find? fun j => path = "/dev/" ++ (devices j).name

/-- `open` of a node through the calls of a driver, with the descriptor that is free, if one is. -/
def openNode {σ ρ : Type} (serve : σ → Call Minor → σ × ρ) (fd : Option Nat) (s : σ)
    (path : String) : σ × Int :=
  match nodeOf path, fd with
  | none, _ => (s, -eNoent)
  | some _, none => (s, -eMfile)
  | some j, some fd => ((serve s (.openFile fd j)).1, fd)

def driverOs (fd : Option Nat) : Os MultiDevice.State :=
  ⟨openNode driver.serve fd, fun d => deviceKernel d.toNat⟩

/-- The same calls on the store of separate records. -/
def storeKernel (fd : Nat) : Kernel Store
  | t, .write bytes => t.serve (.write fd bytes none .done)
  | t, .read len => t.serve (.read fd len none .done)
  | t, .close => ({ t with files := Function.update t.files fd none }, 0, [])

def storeOs (fd : Option Nat) : Os Store := ⟨openNode Store.serve fd, fun d => storeKernel d.toNat⟩

/-- Systems that answer alike as long as their states are related. -/
structure Os.Simulates {σ τ : Type} (os : Os σ) (os' : Os τ) (R : σ → τ → Prop) : Prop where
  openPath : ∀ {s t} path, R s t →
    (os.openPath s path).2 = (os'.openPath t path).2 ∧
      R (os.openPath s path).1 (os'.openPath t path).1
  calls : ∀ fd {s t} call, R s t →
    (os.calls fd s call).2 = (os'.calls fd t call).2 ∧
      R (os.calls fd s call).1 (os'.calls fd t call).1

/-- Passes that only the states of the systems tell apart. -/
structure Alike {σ τ : Type} (R : σ → τ → Prop) (a : Turn σ) (b : Turn τ) : Prop where
  user : a.user = b.user
  kernel : R a.kernel b.kernel
  calls : a.calls = b.calls
  printed : a.printed = b.printed
  exits : a.exits = b.exits

section

variable {σ τ : Type} {K : Kernel σ} {K' : Kernel τ} {R : σ → τ → Prop} {s : σ} {t : τ}

theorem turn_alike (sim : ∀ {s t} call, R s t → (K s call).2 = (K' t call).2 ∧
    R (K s call).1 (K' t call).1) (u : User) (h : R s t) :
    Alike R (turn K u s) (turn K' u t) := by
  unfold turn
  dsimp only
  split
  next =>
    obtain ⟨hreply, hnext⟩ := sim _ h
    refine ⟨rfl, hnext, rfl, ?_, rfl⟩
    simp only [writeOption, hreply]
  next =>
    split
    next =>
      obtain ⟨hreply, hnext⟩ := sim _ h
      refine ⟨rfl, hnext, rfl, ?_, rfl⟩
      simp only [readOption, hreply]
    next =>
      split
      next => exact ⟨rfl, (sim _ h).2, rfl, rfl, rfl⟩
      next => exact ⟨rfl, h, rfl, rfl, rfl⟩

theorem turns_alike (sim : ∀ {s t} call, R s t → (K s call).2 = (K' t call).2 ∧
    R (K s call).1 (K' t call).1) (n : Nat) (u : User) (h : R s t) :
    List.Forall₂ (Alike R) (turns K n u s) (turns K' n u t) := by
  induction n generalizing u s t with
  | zero => exact .nil
  | succ n ih =>
    have hturn := turn_alike sim u h
    refine .cons hturn ?_
    rw [← hturn.exits, ← hturn.user]
    split
    next => exact .nil
    next => exact ih _ hturn.kernel

theorem last_kernel {ts : List (Turn σ)} {ts' : List (Turn τ)} (h : List.Forall₂ (Alike R) ts ts')
    (hr : R s t) :
    R ((ts.getLast?.map Turn.kernel).getD s) ((ts'.getLast?.map Turn.kernel).getD t) := by
  induction h generalizing s t with
  | nil => exact hr
  | @cons a b as bs hab _ ih =>
    have hrest := ih hab.kernel
    rw [Option.getD_map, Option.getD_map] at hrest
    rwa [List.getLast?_cons, List.getLast?_cons, Option.map_some, Option.map_some, Option.getD_some,
      Option.getD_some]

theorem turns_printed {ts : List (Turn σ)} {ts' : List (Turn τ)}
    (h : List.Forall₂ (Alike R) ts ts') :
    ts.map Turn.printed = ts'.map Turn.printed := by
  induction h with
  | nil => rfl
  | cons hab _ ih => simp only [List.map_cons, hab.printed, ih]

theorem loop_printed (ts : List (Turn σ)) :
    (ts.flatMap fun t => t.printed.map Line.loop) =
      (ts.map Turn.printed).flatMap fun printed => printed.map Line.loop :=
  (List.flatMap_map Turn.printed _ ts).symm

theorem loop_exits {ts : List (Turn σ)} {ts' : List (Turn τ)} (h : List.Forall₂ (Alike R) ts ts') :
    ts.any Turn.exits = ts'.any Turn.exits := by
  induction h with
  | nil => rfl
  | cons hab _ ih => simp only [List.any_cons, hab.exits, ih]

/-- The program cannot tell a system from one that simulates it. -/
theorem Os.Simulates.main {os : Os σ} {os' : Os τ} (h : os.Simulates os' R) (n : Nat) (devNum : Int)
    (option : UInt8) (input : List UInt8) (hr : R s t) :
    (main os n devNum option input s).printed = (main os' n devNum option input t).printed ∧
      (main os n devNum option input s).turns.map Turn.printed =
        (main os' n devNum option input t).turns.map Turn.printed ∧
      (main os n devNum option input s).status = (main os' n devNum option input t).status ∧
      R (main os n devNum option input s).kernel (main os' n devNum option input t).kernel := by
  unfold UserProgram.main
  dsimp only
  split
  next => exact ⟨rfl, rfl, rfl, hr⟩
  next i hi =>
    obtain ⟨hfd, hopen⟩ := h.openPath ("/dev/" ++ deviceNames i) hr
    rw [← hfd]
    split
    next => exact ⟨rfl, rfl, rfl, hopen⟩
    next =>
      have hloop := turns_alike (h.calls (os.openPath s ("/dev/" ++ deviceNames i)).2) n
        ⟨(scanfInt input devNum).2, option, fun _ => 0⟩ hopen
      have hprinted := turns_printed hloop
      refine ⟨?_, hprinted, ?_, last_kernel hloop hopen⟩
      · simp only [loop_printed, hprinted]
      · simp only [loop_exits hloop]

end

theorem driverOs_simulates (fd : Option Nat) : (driverOs fd).Simulates (storeOs fd) Represents where
  openPath := by
    intro s t path h
    simp only [driverOs, storeOs, openNode]
    split
    next => exact ⟨rfl, h⟩
    next => exact ⟨rfl, h⟩
    next j fd _ =>
      have hcall : InBuffer (.openFile fd j) := trivial
      exact ⟨rfl, (h.serve hcall).2⟩
  calls := by
    intro d s t call h
    cases call with
    | write bytes =>
      have hcall : InBuffer (.write d.toNat bytes none .done) := trivial
      obtain ⟨hanswer, hnext⟩ := h.serve hcall
      exact ⟨hanswer, hnext⟩
    | read len =>
      have hcall : InBuffer (.read d.toNat len none .done) := trivial
      obtain ⟨hanswer, hnext⟩ := h.serve hcall
      exact ⟨hanswer, hnext⟩
    | close =>
      refine ⟨rfl, h.holds, fun g => ?_⟩
      simp only [driverOs, storeOs, deviceKernel, storeKernel]
      by_cases hg : g = d.toNat
      · subst hg
        rw [Function.update_self, Function.update_self]
        rfl
      · rw [Function.update_of_ne hg, Function.update_of_ne hg]
        exact h.files g

/-- Behind any calls of others, the program prints on the driver what it prints on the store of
separate records, and ends as it does there. -/
theorem program_on_store (other : Memory) {past : List (Call Minor)}
    (hpast : ∀ call ∈ past, InBuffer call) (fd : Option Nat) (n : Nat) (devNum : Int)
    (option : UInt8) (input : List UInt8) :
    let onDriver :=
      main (driverOs fd) n devNum option input (final driver.serve (loaded other) past)
    let onStore := main (storeOs fd) n devNum option input (final Store.serve Store.start past)
    onDriver.printed = onStore.printed ∧ onDriver.status = onStore.status ∧
      Represents onDriver.kernel onStore.kernel := by
  obtain ⟨hprinted, -, hstatus, hkernel⟩ :=
    (driverOs_simulates fd).main n devNum option input (run_represents other hpast)
  exact ⟨hprinted, hstatus, hkernel⟩

/-- Device 3 is chosen, "hi" is written, a read, and the exit. -/
def typedSession : List UInt8 := [51, 10, 49, 10, 104, 105, 10, 50, 10, 51, 10]

theorem typedSession_on_store :
    (main (driverOs (some 7)) 5 0 0 typedSession
        (final driver.serve (loaded fun _ => 0) mixedCalls)).printed =
      (main (storeOs (some 7)) 5 0 0 typedSession
        (final Store.serve Store.start mixedCalls)).printed :=
  (program_on_store (fun _ => 0) (by decide) (some 7) 5 0 0 typedSession).1

/-- The number read from the input is that of a device. -/
def Chosen (input : List UInt8) (devNum : Int) (j : Minor) : Prop :=
  (scanfInt input devNum).1 = j.val

instance (input : List UInt8) (devNum : Int) (j : Minor) : Decidable (Chosen input devNum j) :=
  inferInstanceAs (Decidable ((scanfInt input devNum).1 = j.val))

/-- The descriptor is open on a device. -/
def Attached (fd : Nat) (j : Minor) (t : Store) : Prop := (t.files fd).map Cursor.minor = some j

/-- What a store may have become through one descriptor that is open on a device. -/
structure Sealed (fd : Nat) (j : Minor) (before after : Store) : Prop where
  records : ∀ i, i ≠ j ∨ (devices j).permFlag &&& 0x1 = 0 → after.record i = before.record i
  files : ∀ g, g ≠ fd → after.files g = before.files g

/-- The lines of a pass say what the permissions of the device are. -/
structure Tells (j : Minor) (printed : List Printed) : Prop where
  writeFailed : .writeFailed ∈ printed → (devices j).permFlag &&& 0x1 = 0
  writeSuccessful : .writeSuccessful ∈ printed → (devices j).permFlag &&& 0x1 ≠ 0
  readFailed : .readFailed ∈ printed → (devices j).permFlag &&& 0x2 = 0
  dataRead : ∀ text, .dataRead text ∈ printed → (devices j).permFlag &&& 0x2 ≠ 0
  dataOverrun : ∀ bytes, .dataOverrun bytes ∈ printed → (devices j).permFlag &&& 0x2 ≠ 0

section

variable {fd : Nat} {j : Minor} {t t' t'' : Store} {u : User}

theorem Sealed.rfl : Sealed fd j t t := ⟨fun _ _ => Eq.refl _, fun _ _ => Eq.refl _⟩

theorem Sealed.trans (h : Sealed fd j t t') (h' : Sealed fd j t' t'') : Sealed fd j t t'' :=
  ⟨fun i hi => (h'.records i hi).trans (h.records i hi),
    fun g hg => (h'.files g hg).trans (h.files g hg)⟩

theorem Attached.file (h : Attached fd j t) : ∃ f, t.files fd = some f ∧ f.minor = j :=
  Option.map_eq_some_iff.mp h

theorem moved_file {f : Cursor} (p : Nat) :
    t.move fd f none p fd = some (f.moveTo p) := Function.update_self _ _ _

theorem moved_other {f : Cursor} {g : Nat} (p : Nat) (hg : g ≠ fd) :
    t.move fd f none p g = t.files g := Function.update_of_ne hg _ _

theorem denied_neg : -ePerm < 0 := by decide

theorem Attached.write (h : Attached fd j t) (bytes : List UInt8) :
    Attached fd j (storeKernel fd t (.write bytes)).1 ∧
      Sealed fd j t (storeKernel fd t (.write bytes)).1 ∧
      ((storeKernel fd t (.write bytes)).2.1 < 0 ↔ (devices j).permFlag &&& 0x1 = 0) := by
  obtain ⟨f, hf, rfl⟩ := h.file
  simp only [storeKernel, Store.serve, hf]
  refine ⟨?_, ⟨fun i hi => ?_, fun g hg => moved_other _ hg⟩, ?_⟩
  · rw [Attached]
    dsimp only
    rw [moved_file]
    rfl
  · dsimp only
    by_cases hij : i = f.minor
    · subst hij
      have hdenied := hi.resolve_left fun hne => hne (Eq.refl _)
      rw [Function.update_self, writeRecord, if_pos hdenied]
    · exact Function.update_of_ne hij _ _
  · unfold writeRecord
    split
    next hdenied => exact iff_of_true denied_neg hdenied
    next hallowed =>
      refine iff_of_false ?_ hallowed
      simp [Copy.left]

theorem Attached.read (h : Attached fd j t) (len : Nat) :
    Attached fd j (storeKernel fd t (.read len)).1 ∧
      Sealed fd j t (storeKernel fd t (.read len)).1 ∧
      ((storeKernel fd t (.read len)).2.1 < 0 ↔ (devices j).permFlag &&& 0x2 = 0) := by
  obtain ⟨f, hf, rfl⟩ := h.file
  simp only [storeKernel, Store.serve, hf]
  refine ⟨?_, ⟨fun _ _ => Eq.refl _, fun g hg => moved_other _ hg⟩, ?_⟩
  · rw [Attached]
    dsimp only
    rw [moved_file]
    rfl
  · unfold readRecord
    split
    next hdenied => exact iff_of_true denied_neg hdenied
    next hallowed =>
      refine iff_of_false ?_ hallowed
      split
      next => exact Int.lt_irrefl 0
      next => simp [Copy.left]

theorem close_sealed (fd : Nat) (j : Minor) (t : Store) :
    Sealed fd j t (storeKernel fd t .close).1 :=
  ⟨fun _ _ => Eq.refl _, fun _ hg => Function.update_of_ne hg _ _⟩

/-- One pass through the descriptor. -/
theorem Attached.turn (h : Attached fd j t) (u : User) :
    Sealed fd j t (turn (storeKernel fd) u t).kernel ∧
      Tells j (turn (storeKernel fd) u t).printed ∧
      ((turn (storeKernel fd) u t).exits = false →
        Attached fd j (turn (storeKernel fd) u t).kernel) := by
  unfold UserMenu.turn
  dsimp only
  split
  next =>
    unfold writeOption
    dsimp only
    obtain ⟨hattached, hsealed, hret⟩ := h.write _
    refine ⟨hsealed, ?_, fun _ => hattached⟩
    split
    next hneg => exact ⟨fun _ => hret.mp hneg, by simp, by simp, by simp, by simp⟩
    next hneg => exact ⟨by simp, fun _ hdenied => hneg (hret.mpr hdenied), by simp, by simp, by simp⟩
  next =>
    split
    next =>
      unfold readOption
      dsimp only
      obtain ⟨hattached, hsealed, hret⟩ := h.read UserMenu.bufferSize
      refine ⟨hsealed, ?_, fun _ => hattached⟩
      split
      next hneg => exact ⟨by simp, by simp, fun _ => hret.mp hneg, by simp, by simp⟩
      next hneg =>
        have hallowed : (devices j).permFlag &&& 0x2 ≠ 0 := fun hdenied => hneg (hret.mpr hdenied)
        obtain ⟨text, hline⟩ | ⟨bytes, hline⟩ := dataLine_cases
          (blit (fun _ => 0) 0 (storeKernel fd t (.read UserMenu.bufferSize)).2.2)
        all_goals
          rw [hline]
          exact ⟨by simp, by simp, by simp, fun _ _ => hallowed, fun _ _ => hallowed⟩
    next =>
      split
      next =>
        refine ⟨close_sealed fd j t, ⟨?_, ?_, ?_, ?_, ?_⟩, ?_⟩
        all_goals simp [exitOption]
      next => exact ⟨.rfl, ⟨by simp, by simp, by simp, by simp, by simp⟩, fun _ => h⟩

theorem Attached.turns (h : Attached fd j t) (n : Nat) (u : User) :
    Sealed fd j t (((turns (storeKernel fd) n u t).getLast?.map Turn.kernel).getD t) ∧
      ∀ turn ∈ turns (storeKernel fd) n u t, Tells j turn.printed := by
  induction n generalizing u t with
  | zero => exact ⟨.rfl, fun _ hmem => absurd hmem List.not_mem_nil⟩
  | succ n ih =>
    obtain ⟨hsealed, htells, hstays⟩ := h.turn u
    simp only [UserMenu.turns]
    split
    next => exact ⟨hsealed, fun _ hmem => List.mem_singleton.mp hmem ▸ htells⟩
    next hexits =>
      have hattached := hstays (Bool.eq_false_iff.mpr hexits)
      obtain ⟨hrest, hall⟩ := ih hattached (UserMenu.turn (storeKernel fd) u t).user
      rw [Option.getD_map] at hrest
      refine ⟨?_, List.forall_mem_cons.mpr ⟨htells, hall⟩⟩
      rw [List.getLast?_cons, Option.map_some, Option.getD_some]
      exact hsealed.trans hrest

end

theorem nodeOf_path : ∀ i, nodeOf ("/dev/" ++ deviceNames i) = some i := by decide

theorem checked_eq_some {devNum : Int} {j : Minor} : checked devNum = some j ↔ devNum = j.val := by
  have hj := j.isLt
  unfold checked
  split
  next hout =>
    refine iff_of_false (by simp) ?_
    simp only [numDevices, maxDevices] at hj hout
    omega
  next hin =>
    rw [Option.some.injEq, Fin.ext_iff]
    dsimp only
    omega

theorem checked_eq_none {devNum : Int} : checked devNum = none ↔ ¬ ∃ j : Minor, devNum = j.val := by
  rw [Option.eq_none_iff_forall_ne_some]
  simp only [ne_eq, checked_eq_some, not_exists]

/-- What the program makes of the store, and says of it. -/
theorem main_sealed (fd n : Nat) (devNum : Int) (option : UInt8) (input : List UInt8) (t : Store)
    {j : Minor} (hj : Chosen input devNum j) :
    Sealed fd j t (main (storeOs (some fd)) n devNum option input t).kernel ∧
      ∀ turn ∈ (main (storeOs (some fd)) n devNum option input t).turns, Tells j turn.printed := by
  have hopen : (storeOs (some fd)).openPath t ("/dev/" ++ deviceNames j) =
      ((t.serve (.openFile fd j)).1, (fd : Int)) := by
    simp only [storeOs, openNode, nodeOf_path]
  have hattached : Attached fd j (t.serve (.openFile fd j)).1 := by
    simp [Attached, Store.serve]
  have hsealed : Sealed fd j t (t.serve (.openFile fd j)).1 :=
    ⟨fun _ _ => rfl, fun _ hg => Function.update_of_ne hg _ _⟩
  unfold main
  simp only [checked_eq_some.mpr hj, hopen]
  rw [if_neg (Int.not_lt.mpr (Int.natCast_nonneg fd))]
  obtain ⟨hloop, htells⟩ := hattached.turns n ⟨(scanfInt input devNum).2, option, fun _ => 0⟩
  exact ⟨hsealed.trans hloop, htells⟩

theorem main_invalid {σ : Type} (os : Os σ) (n : Nat) (devNum : Int) (option : UInt8)
    (input : List UInt8) (s : σ) :
    .invalidNumber ∈ (main os n devNum option input s).printed ↔ ¬ ∃ j, Chosen input devNum j := by
  have hprompts : Line.invalidNumber ∉ prompts := by decide
  unfold main
  dsimp only
  split
  next hnone => exact iff_of_true (by simp) (checked_eq_none.mp hnone)
  next i hsome =>
    refine iff_of_false ?_ (not_not.mpr ⟨i, checked_eq_some.mp hsome⟩)
    split
    next => simp [hprompts]
    next => simp [hprompts]

/-- Whatever is typed and whatever the locals hold at first, the number that indexes the names is
that of a device, nothing changes but the record of this device and the new descriptor, the record
only with write permission, and each pass reports a failure exactly for want of a permission. -/
theorem program_contained (other : Memory) {past : List (Call Minor)}
    (hpast : ∀ call ∈ past, InBuffer call) (fd n : Nat) (devNum : Int) (option : UInt8)
    (input : List UInt8) :
    let s := final driver.serve (loaded other) past
    let t := final Store.serve Store.start past
    let r := main (driverOs (some fd)) n devNum option input s
    Represents s t ∧ (.invalidNumber ∈ r.printed ↔ ¬ ∃ j, Chosen input devNum j) ∧
      ∀ j, Chosen input devNum j → (∃ t', Represents r.kernel t' ∧ Sealed fd j t t') ∧
        ∀ turn ∈ r.turns, Tells j turn.printed := by
  have hstart := run_represents other hpast
  refine ⟨hstart, main_invalid _ n devNum option input _, fun j hj => ?_⟩
  obtain ⟨-, hturns, -, hkernel⟩ :=
    (driverOs_simulates (some fd)).main n devNum option input hstart
  obtain ⟨hsealed, htells⟩ :=
    main_sealed fd n devNum option input (final Store.serve Store.start past) hj
  refine ⟨⟨_, hkernel, hsealed⟩, fun turn hmem => ?_⟩
  have hprinted := List.mem_map_of_mem (f := Turn.printed) hmem
  rw [hturns] at hprinted
  obtain ⟨turn', hmem', heq⟩ := List.mem_map.mp hprinted
  exact heq ▸ htells turn' hmem'

theorem typedSession_contained :
    ∃ t', Represents (main (driverOs (some 7)) 5 0 0 typedSession
        (final driver.serve (loaded fun _ => 0) mixedCalls)).kernel t' ∧
      Sealed 7 hello1 (final Store.serve Store.start mixedCalls) t' :=
  ((program_contained (fun _ => 0) (by decide) 7 5 0 0 typedSession).2.2 hello1 (by decide)).1

end LinuxAssignment.UserProgram
