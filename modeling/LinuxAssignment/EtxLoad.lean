import LinuxAssignment.KernelRegistry
import LinuxAssignment.StepSystem

namespace LinuxAssignment.EtxLoad

open StepSystem

structure Names where
  region : String
  cls : String
  device : String

/-- How the four kernel calls of `etx_driver_init` end; `alloc_chrdev_region` picks a major. -/
structure Outcome where
  alloc : Option Nat
  cdevAdd : Bool
  classCreate : Bool
  deviceCreate : Bool
  deriving DecidableEq

def rClass (dev : DevT) : List Op := [.unregisterChrdevRegion dev 1]

def rDevice (names : Names) (dev : DevT) : List Op := .classDestroy names.cls :: rClass dev

/-- The return value of `etx_driver_init`, and the kernel calls that took effect. -/
def etxDriverInit (names : Names) (o : Outcome) : Int × List Op :=
  match o.alloc with
  | none => (-1, [])
  | some major =>
    let dev : DevT := ⟨major, 0⟩
    let region := [.allocChrdevRegion ⟨names.region, dev, 1⟩]
    if o.cdevAdd = false then (-1, region ++ rClass dev)
    else
      let added := region ++ [.cdevAdd ⟨dev, 1⟩]
      if o.classCreate = false then (-1, added ++ rClass dev)
      else
        let created := added ++ [.classCreate names.cls]
        if o.deviceCreate = false then (-1, created ++ rDevice names dev)
        else (0, created ++ [.deviceCreate ⟨names.cls, dev, names.device⟩])

/-- The kernel calls of the `etx_driver_exit` that `ex_1.c` and `ex_2.c` share. -/
def etxDriverExit (names : Names) (dev : DevT) : List Op :=
  [.deviceDestroy names.cls dev, .classDestroy names.cls, .unregisterChrdevRegion dev 1,
    .cdevDel ⟨dev, 1⟩]

namespace Ex1

def names : Names := ⟨"My_CharDevice", "My_CharDeviceClass", "my_char_device"⟩

def etxDriverInit : Outcome → Int × List Op := EtxLoad.etxDriverInit names

def etxDriverExit : DevT → List Op := EtxLoad.etxDriverExit names

end Ex1

namespace Ex2

def names : Names := ⟨"My_CharDevice", "My_CharDeviceClass", "my_char_device"⟩

def etxDriverInit : Outcome → Int × List Op := EtxLoad.etxDriverInit names

def etxDriverExit : DevT → List Op := EtxLoad.etxDriverExit names

end Ex2

namespace Ex3

def names : Names := ⟨"etx_Dev", "etx_class", "etx_device"⟩

def etxDriverInit : Outcome → Int × List Op := EtxLoad.etxDriverInit names

/-- Unlike the other two, this driver deletes its cdev before it gives its number back. -/
def etxDriverExit (dev : DevT) : List Op :=
  [.deviceDestroy names.cls dev, .classDestroy names.cls, .cdevDel ⟨dev, 1⟩,
    .unregisterChrdevRegion dev 1]

end Ex3

inductive Driver where
  | ex1
  | ex2
  | ex3
  deriving DecidableEq

def Driver.names : Driver → Names
  | .ex1 => Ex1.names
  | .ex2 => Ex2.names
  | .ex3 => Ex3.names

def Driver.init : Driver → Outcome → Int × List Op
  | .ex1 => Ex1.etxDriverInit
  | .ex2 => Ex2.etxDriverInit
  | .ex3 => Ex3.etxDriverInit

def Driver.exit : Driver → DevT → List Op
  | .ex1 => Ex1.etxDriverExit
  | .ex2 => Ex2.etxDriverExit
  | .ex3 => Ex3.etxDriverExit

/-- A loaded module: its number, and the registry as it was before the load. -/
structure Loaded where
  dev : DevT
  before : Registry

structure State where
  registry : Registry
  loaded : Option Loaded

inductive Act where
  | load (o : Outcome)
  | unload

/-- A module is loaded if its `init` returns 0, and only then its `exit` can run. -/
def step (drv : Driver) (s : State) : Act → Option State
  | .load o =>
    match s.loaded with
    | some _ => none
    | none =>
      some ⟨s.registry.run (drv.init o).2,
        if (drv.init o).1 = 0 then some ⟨⟨o.alloc.getD 0, 0⟩, s.registry⟩ else none⟩
  | .unload =>
    match s.loaded with
    | none => none
    | some l => some ⟨s.registry.run (drv.exit l.dev), none⟩

def registered (names : Names) (dev : DevT) : List Op :=
  [.allocChrdevRegion ⟨names.region, dev, 1⟩, .cdevAdd ⟨dev, 1⟩, .classCreate names.cls,
    .deviceCreate ⟨names.cls, dev, names.device⟩]

structure AllPresent (names : Names) (dev : DevT) (r : Registry) : Prop where
  region : ⟨names.region, dev, 1⟩ ∈ r.regions
  cdev : ⟨dev, 1⟩ ∈ r.cdevs
  cls : names.cls ∈ r.classes
  device : ⟨names.cls, dev, names.device⟩ ∈ r.devices

def Restores (drv : Driver) (e : Event State Act) : Prop :=
  match e.label with
  | .load o =>
    ((drv.init o).1 = 0 → AllPresent drv.names ⟨o.alloc.getD 0, 0⟩ e.after.registry) ∧
      ((drv.init o).1 ≠ 0 → e.after.registry = e.before.registry)
  | .unload => ∀ l, e.before.loaded = some l → e.after.registry = l.before

/-- The condition on a load: once its cdev is added, nothing fails any more. -/
def CleanLoad : Act → Prop
  | .load o => o.alloc ≠ none → o.cdevAdd = true → o.classCreate = true ∧ o.deviceCreate = true
  | .unload => True

instance : (a : Act) → Decidable (CleanLoad a)
  | .load o => inferInstanceAs (Decidable (o.alloc ≠ none → o.cdevAdd = true →
      o.classCreate = true ∧ o.deviceCreate = true))
  | .unload => inferInstanceAs (Decidable True)

/-- Between a load and the unload all registrations of the module are there. -/
def Kept (drv : Driver) (s : State) : Prop :=
  ∀ l, s.loaded = some l → s.registry = l.before.run (registered drv.names l.dev)

theorem Driver.init_eq (drv : Driver) (o : Outcome) : drv.init o = etxDriverInit drv.names o := by
  cases drv <;> rfl

theorem run_registered (names : Names) (dev : DevT) (r : Registry) :
    r.run (registered names dev) =
      ⟨⟨names.region, dev, 1⟩ :: r.regions, ⟨dev, 1⟩ :: r.cdevs, names.cls :: r.classes,
        ⟨names.cls, dev, names.device⟩ :: r.devices⟩ := rfl

theorem run_exit (drv : Driver) (dev : DevT) (r : Registry) :
    (r.run (registered drv.names dev)).run (drv.exit dev) = r := by
  rw [run_registered]
  cases drv <;> simp [Driver.exit, Driver.names, Ex1.etxDriverExit, Ex2.etxDriverExit,
    Ex3.etxDriverExit, etxDriverExit, Registry.apply]

/-- A load either registers everything, or leaves nothing but perhaps its cdev. -/
theorem init_cases (names : Names) (o : Outcome) (r : Registry) :
    (CleanLoad (.load o) ∧ (etxDriverInit names o).1 = 0 ∧
      (etxDriverInit names o).2 = registered names ⟨o.alloc.getD 0, 0⟩) ∨
    (CleanLoad (.load o) ∧ (etxDriverInit names o).1 = -1 ∧
      r.run (etxDriverInit names o).2 = r) ∨
    (¬ CleanLoad (.load o) ∧ (etxDriverInit names o).1 = -1 ∧
      r.run (etxDriverInit names o).2 =
        { r with cdevs := ⟨⟨o.alloc.getD 0, 0⟩, 1⟩ :: r.cdevs }) := by
  obtain ⟨alloc, cdevAdd, classCreate, deviceCreate⟩ := o
  cases alloc with
  | none => exact Or.inr (Or.inl ⟨fun h => absurd rfl h, rfl, rfl⟩)
  | some major =>
    cases cdevAdd <;> cases classCreate <;> cases deviceCreate <;>
      simp [CleanLoad, etxDriverInit, registered, rClass, rDevice, Registry.apply]

theorem allPresent_run (names : Names) (dev : DevT) (r : Registry) :
    AllPresent names dev (r.run (registered names dev)) := by
  rw [run_registered]
  exact ⟨List.mem_cons_self, List.mem_cons_self, List.mem_cons_self, List.mem_cons_self⟩

section

variable {drv : Driver} {s s' : State} {a : Act}

theorem step_restores_iff (hs : Kept drv s) (h : step drv s a = some s') :
    Restores drv ⟨s, a, s'⟩ ↔ CleanLoad a := by
  cases a with
  | unload =>
    refine iff_of_true ?_ trivial
    intro l hl
    simp only [step] at h
    rw [hl] at h
    cases h
    dsimp only
    rw [hs l hl, run_exit]
  | load o =>
    simp only [step] at h
    split at h
    next => cases h
    next hl =>
      cases h
      simp only [Restores, drv.init_eq]
      rcases init_cases drv.names o s.registry with
        ⟨hok, hret, hops⟩ | ⟨hok, hret, hops⟩ | ⟨hok, hret, hops⟩
      · refine iff_of_true ⟨fun _ => ?_, fun hne => absurd hret hne⟩ hok
        rw [hops]
        exact allPresent_run _ _ _
      · refine iff_of_true ⟨fun h0 => ?_, fun _ => hops⟩ hok
        rw [hret] at h0
        exact absurd h0 (by decide)
      · refine iff_of_false (fun hgood => ?_) hok
        have hsame := hgood.2 (by rw [hret]; decide)
        rw [hops] at hsame
        have hlen := congrArg (fun r => r.cdevs.length) hsame
        simp at hlen

theorem step_kept (h : step drv s a = some s') : Kept drv s' := by
  intro l hl
  cases a with
  | unload =>
    simp only [step] at h
    split at h
    next => cases h
    next => cases h; cases hl
  | load o =>
    simp only [step] at h
    split at h
    next => cases h
    next =>
      cases h
      dsimp only at hl
      rw [drv.init_eq] at hl ⊢
      split at hl
      next h0 =>
        cases hl
        rcases init_cases drv.names o s.registry with
          ⟨-, -, hops⟩ | ⟨-, hret, -⟩ | ⟨-, hret, -⟩
        · rw [hops]
        · rw [hret] at h0
          exact absurd h0 (by decide)
        · rw [hret] at h0
          exact absurd h0 (by decide)
      next => cases hl

/-- In a run of loads and unloads each of them restores or registers what it has to exactly when no
load fails after its `cdev_add`. -/
theorem etx_restores_iff {r : Registry} {es : List (Event State Act)}
    (h : Trace (step drv) ⟨r, none⟩ es s) :
    (∀ e ∈ es, Restores drv e) ↔ ∀ e ∈ es, CleanLoad e.label :=
  h.forall_iff (Kept drv) (fun _ a => CleanLoad a) (Restores drv)
    (fun _ _ _ hs ht => step_restores_iff hs ht) (fun _ _ _ _ _ ht => step_kept ht) nofun

end

def emptyRegistry : Registry := ⟨[], [], [], []⟩

def secondTry : List Act :=
  [.load ⟨none, true, true, true⟩, .load ⟨some 240, true, true, true⟩, .unload]

theorem secondTry_restores :
    (record (step .ex2) ⟨emptyRegistry, none⟩ secondTry).length = 3 ∧
      ∀ e ∈ record (step .ex2) ⟨emptyRegistry, none⟩ secondTry, Restores .ex2 e :=
  ⟨rfl, (etx_restores_iff (Trace.recorded _ _ _)).mpr (by decide)⟩

/-- A load whose `class_create` fails leaves its cdev mapped. -/
theorem cdev_left_behind :
    ¬ ∀ (drv : Driver) (r : Registry) (es : List (Event State Act)) (s : State),
      Trace (step drv) ⟨r, none⟩ es s → ∀ e ∈ es, Restores drv e := by
  intro h
  have hrun := h .ex2 emptyRegistry _ _
    (Trace.recorded _ _ [.load ⟨some 240, true, false, true⟩])
  have hload := (hrun _ List.mem_cons_self).2 (by decide)
  exact absurd hload (by decide)

end LinuxAssignment.EtxLoad
