import LinuxAssignment.MultiLoad
import LinuxAssignment.StepSystem

namespace LinuxAssignment.PlatformBus

open MultiLoad StepSystem

/-- `DRIVER_NAME` of `ex_2_device.c`. -/
def deviceName : String := "multi_char_dev"

/-- The name in `multi_char_driver` of `ex_2_driver.c`. -/
def driverName : String := "multi_char_dev"

abbrev numDevices : Nat := 5

/-- What is registered with the kernel, which of the two modules has its device or driver on the bus,
and the major of the driver while it is bound to the device. -/
structure Bus where
  registry : Registry
  device : Bool
  driver : Bool
  bound : Option Nat

/-- The loads and unloads, with what the registration on the bus returns and how a probe would go. -/
inductive Act where
  | platformDevInit (ret : Except Errno Unit) (o : Outcome)
  | platformDevExit
  | platformDriverRegister (ret : Except Errno Unit) (o : Outcome)
  | platformDriverUnregister

/-- The bus calls the probe once both are there under one name, and does not pass on its error. -/
def Bus.probe (b : Bus) (o : Outcome) : Bus :=
  if b.device ∧ b.driver ∧ deviceName = driverName then
    let r := platformDriverProbe sensorNames o numDevices
    { b with
      registry := b.registry.run r.2
      bound := if r.1 = 0 then o.alloc.toOption else none }
  else b

def Bus.release (b : Bus) : Bus :=
  match b.bound with
  | none => b
  | some major =>
    { b with registry := b.registry.run (platformDriverRemove major numDevices), bound := none }

def Bus.step (b : Bus) : Act → Option Bus
  | .platformDevInit ret o =>
    if b.device then none
    else match ret with
      | .error _ => some b
      | .ok () => some (({ b with device := true } : Bus).probe o)
  | .platformDevExit => if b.device then some { b.release with device := false } else none
  | .platformDriverRegister ret o =>
    if b.driver then none
    else match ret with
      | .error _ => some b
      | .ok () => some (({ b with driver := true } : Bus).probe o)
  | .platformDriverUnregister => if b.driver then some { b.release with driver := false } else none

def Bus.start (r : Registry) : Bus := ⟨r, false, false, none⟩

/-- No call in the loop of a probe fails. -/
def CleanAct (_ : Bus) : Act → Prop
  | .platformDevInit _ o | .platformDriverRegister _ o => Clean o numDevices
  | .platformDevExit | .platformDriverUnregister => True

/-- The registry holds besides `r` what a probe has put there that succeeded, as long as the two are
bound, and nothing otherwise. -/
inductive Bound (r : Registry) : Bus → Prop
  | apart {device driver} : Bound r ⟨r, device, driver, none⟩
  | together {o major} : o.alloc = .ok major → Clean o numDevices →
      (platformDriverProbe sensorNames o numDevices).1 = 0 →
      Bound r ⟨r.run (platformDriverProbe sensorNames o numDevices).2, true, true, some major⟩

section

variable {r : Registry} {b b' : Bus} {o : Outcome} {a : Act}

theorem probe_sound (hclean : Clean o numDevices) (r : Registry) :
    Sound "multi_dev" sensorNames o numDevices r (platformDriverProbe sensorNames o numDevices)
      fun major => platformDriverRemove major numDevices :=
  hclean.sound r

theorem Bound.probe (hb : Bound r b) (hnone : b.bound = none) (hclean : Clean o numDevices) :
    Bound r (b.probe o) := by
  cases hb with
  | together => cases hnone
  | @apart device driver =>
    unfold Bus.probe
    split
    next hboth =>
      obtain ⟨hdevice, hdriver, -⟩ := hboth
      dsimp only at hdevice hdriver
      subst hdevice hdriver
      dsimp only
      split
      next hret =>
        obtain ⟨major, halloc, -⟩ := (probe_sound hclean r).all hret
        rw [halloc]
        exact .together halloc hclean hret
      next hret =>
        rw [((probe_sound hclean r).undone hret).2]
        exact .apart
    next => exact .apart

theorem Bound.restored (hb : Bound r b) {major : Nat} (hbound : b.bound = some major) :
    b.registry.run (platformDriverRemove major numDevices) = r := by
  cases hb with
  | apart => cases hbound
  | together halloc hclean hret =>
    cases hbound
    exact (probe_sound hclean r).restored major halloc hret

theorem Bound.release (hb : Bound r b) (device driver : Bool) :
    Bound r { b.release with device := device, driver := driver } := by
  unfold Bus.release
  split
  next hnone =>
    cases hb with
    | apart => exact .apart
    | together => cases hnone
  next major hbound =>
    dsimp only
    rw [hb.restored hbound]
    exact .apart

theorem Bound.alone (hb : Bound r b) (h : b.device = false ∨ b.driver = false) : b.bound = none := by
  cases hb with
  | apart => rfl
  | together => rcases h with h | h <;> cases h

theorem Bound.join (hb : Bound r b) (hnone : b.bound = none) (device driver : Bool) :
    Bound r { b with device := device, driver := driver } := by
  cases hb with
  | apart => exact .apart
  | together => cases hnone

theorem Bound.step (hb : Bound r b) (hclean : CleanAct b a) (h : b.step a = some b') :
    Bound r b' := by
  cases a with
  | platformDevInit ret o =>
    simp only [Bus.step] at h
    split at h
    next => cases h
    next hdevice =>
      have hnone := hb.alone (Or.inl (Bool.eq_false_iff.mpr hdevice))
      cases ret with
      | error e =>
        cases h
        exact hb
      | ok u =>
        cases h
        exact (hb.join hnone true b.driver).probe hnone hclean
  | platformDriverRegister ret o =>
    simp only [Bus.step] at h
    split at h
    next => cases h
    next hdriver =>
      have hnone := hb.alone (Or.inr (Bool.eq_false_iff.mpr hdriver))
      cases ret with
      | error e =>
        cases h
        exact hb
      | ok u =>
        cases h
        exact (hb.join hnone b.device true).probe hnone hclean
  | platformDevExit =>
    obtain ⟨-, h⟩ := Option.ite_none_right_eq_some.mp h
    cases h
    exact hb.release false b.release.driver
  | platformDriverUnregister =>
    obtain ⟨-, h⟩ := Option.ite_none_right_eq_some.mp h
    cases h
    exact hb.release b.release.device false

end

/-- Whatever the order in which the two modules are loaded and unloaded, and however often: as long
as no call in the loop of a probe fails, the registry is what it was whenever the driver is not bound
to the device. While it is, both modules are there, all five devices are registered under its major,
and its removal takes back all it has registered. -/
theorem bus_leaves_nothing (r : Registry) {es : List (Event Bus Act)} {b : Bus}
    (h : Trace Bus.step (.start r) es b) (hclean : ∀ e ∈ es, CleanAct e.before e.label) :
    (b.bound = none → b.registry = r) ∧ ∀ major, b.bound = some major →
      b.device = true ∧ b.driver = true ∧
      (∀ i < numDevices, ⟨⟨major, i⟩, 1⟩ ∈ b.registry.cdevs ∧
        ⟨"multi_dev", ⟨major, i⟩, sensorNames i⟩ ∈ b.registry.devices) ∧
      b.registry.run (platformDriverRemove major numDevices) = r := by
  have keep : ∀ (b : Bus) (a : Act) (b' : Bus), Bound r b → CleanAct b a → b.step a = some b' →
      Bound r b' := fun _ _ _ hb ha hstep => hb.step ha hstep
  have hb : Bound r b := h.invariant keep .apart hclean
  refine ⟨fun hnone => ?_, fun major hbound => ?_⟩
  · cases hb with
    | apart => rfl
    | together => cases hnone
  · have hrestored := hb.restored hbound
    cases hb with
    | apart => cases hbound
    | together halloc hgood hret =>
      cases hbound
      obtain ⟨k, hk, hall⟩ := (probe_sound hgood r).all hret
      cases halloc.symm.trans hk
      exact ⟨rfl, rfl, hall, hrestored⟩

def allWell : Outcome := ⟨.ok 240, .ok (), fun _ => true, fun _ => true⟩

/-- The driver first, then the device twice. -/
def reloads : List Act :=
  [.platformDriverRegister (.ok ()) allWell, .platformDevInit (.ok ()) allWell, .platformDevExit,
    .platformDevInit (.ok ()) allWell, .platformDriverUnregister, .platformDevExit]

theorem reloads_leave_nothing :
    (record Bus.step (.start ⟨[], [], [], []⟩) reloads).length = reloads.length ∧
    (last Bus.step (.start ⟨[], [], [], []⟩) reloads).registry = ⟨[], [], [], []⟩ := by
  have hwell : Clean allWell numDevices := fun _ _ _ _ _ => ⟨rfl, rfl⟩
  have hclean : ∀ a ∈ reloads, ∀ b, CleanAct b a := by
    intro a ha b
    simp only [reloads, List.mem_cons, List.not_mem_nil, or_false] at ha
    rcases ha with rfl | rfl | rfl | rfl | rfl | rfl
    all_goals first | exact hwell | trivial
  exact ⟨rfl, (bus_leaves_nothing _ (Trace.recorded _ _ reloads) fun e he =>
    hclean e.label (label_mem_of_record he) e.before).1 rfl⟩

end LinuxAssignment.PlatformBus
