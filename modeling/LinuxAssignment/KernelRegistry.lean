import Mathlib.Data.List.Basic

namespace LinuxAssignment

structure DevT where
  major : Nat
  minor : Nat
  deriving DecidableEq

structure Region where
  name : String
  first : DevT
  count : Nat
  deriving DecidableEq

structure Mapping where
  dev : DevT
  count : Nat
  deriving DecidableEq

structure DeviceNode where
  cls : String
  dev : DevT
  name : String
  deriving DecidableEq

/-- What drivers have registered with the kernel, the latest first. -/
structure Registry where
  regions : List Region
  cdevs : List Mapping
  classes : List String
  devices : List DeviceNode
  deriving DecidableEq

/-- A kernel call that took effect. -/
inductive Op where
  | allocChrdevRegion (g : Region)
  | unregisterChrdevRegion (first : DevT) (count : Nat)
  | cdevAdd (m : Mapping)
  | cdevDel (m : Mapping)
  | classCreate (cls : String)
  | classDestroy (cls : String)
  | deviceCreate (d : DeviceNode)
  | deviceDestroy (cls : String) (dev : DevT)
  deriving DecidableEq

/-- A release takes out the registration it names, if there is one. -/
def Registry.apply (r : Registry) : Op → Registry
  | .allocChrdevRegion g => { r with regions := g :: r.regions }
  | .unregisterChrdevRegion first count =>
    { r with regions := r.regions.eraseP fun g => g.first = first ∧ g.count = count }
  | .cdevAdd m => { r with cdevs := m :: r.cdevs }
  | .cdevDel m => { r with cdevs := r.cdevs.eraseP fun k => k = m }
  | .classCreate cls => { r with classes := cls :: r.classes }
  | .classDestroy cls => { r with classes := r.classes.eraseP fun k => k = cls }
  | .deviceCreate d => { r with devices := d :: r.devices }
  | .deviceDestroy cls dev =>
    { r with devices := r.devices.eraseP fun d => d.cls = cls ∧ d.dev = dev }

def Registry.run (r : Registry) (ops : List Op) : Registry := ops.foldl Registry.apply r

@[simp] theorem Registry.run_nil (r : Registry) : r.run [] = r := rfl

@[simp] theorem Registry.run_cons (r : Registry) (op : Op) (ops : List Op) :
    r.run (op :: ops) = (r.apply op).run ops := rfl

theorem Registry.run_append (r : Registry) (ops ops' : List Op) :
    r.run (ops ++ ops') = (r.run ops).run ops' := List.foldl_append

theorem Registry.run_apply_comm {op : Op} {ops : List Op}
    (h : ∀ op' ∈ ops, ∀ r : Registry, (r.apply op).apply op' = (r.apply op').apply op)
    (r : Registry) : (r.apply op).run ops = (r.run ops).apply op := by
  induction ops generalizing r with
  | nil => rfl
  | cons op' ops ih =>
    have hrest : ∀ op'' ∈ ops, ∀ r : Registry, (r.apply op).apply op'' = (r.apply op'').apply op :=
      fun op'' hm => h op'' (List.mem_cons_of_mem _ hm)
    rw [run_cons, run_cons, h op' List.mem_cons_self r, ih hrest]

end LinuxAssignment
