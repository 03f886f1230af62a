import LinuxAssignment.KernelRegistry

namespace LinuxAssignment.MultiLoad

/-- The negative error numbers that kernel functions return. -/
abbrev Errno := {e : Int // -4095 ≤ e ∧ e < 0}

/-- How the kernel calls of a load end; `alloc_chrdev_region` picks a major. -/
structure Outcome where
  alloc : Except Errno Nat
  classCreate : Except Errno Unit
  cdevAdd : Nat → Bool
  deviceCreate : Nat → Bool

section

variable (name : String) (nodeName : Nat → String) (o : Outcome) (major : Nat)

/-- One pass of the registration loop, which ignores what the two calls return. -/
def addDevice (i : Nat) : List Op :=
  (if o.cdevAdd i then [.cdevAdd ⟨⟨major, i⟩, 1⟩] else []) ++
    (if o.deviceCreate i then [.deviceCreate ⟨name, ⟨major, i⟩, nodeName i⟩] else [])

def addDevices : Nat → List Op
  | 0 => []
  | n + 1 => addDevices n ++ addDevice name nodeName o major n

def register (n : Nat) : Int × List Op :=
  match o.alloc with
  | .error ret => (ret, [])
  | .ok major =>
    let region := [.allocChrdevRegion ⟨name, ⟨major, 0⟩, n⟩]
    match o.classCreate with
    | .error ret => (ret, region ++ [.unregisterChrdevRegion ⟨major, 0⟩ n])
    | .ok () => (0, region ++ [.classCreate name] ++ addDevices name nodeName o major n)

def removeDevice (i : Nat) : List Op :=
  [.deviceDestroy name ⟨major, i⟩, .cdevDel ⟨⟨major, i⟩, 1⟩]

def removeDevices : Nat → List Op
  | 0 => []
  | n + 1 => removeDevices n ++ removeDevice name major n

def unregister (n : Nat) : List Op :=
  removeDevices name major n ++ [.classDestroy name, .unregisterChrdevRegion ⟨major, 0⟩ n]

/-- The module of `ex_2_multi2.c`, which takes its `DEVICE_NAME` from the build. -/
def multiDriverInit (deviceName : String) (n : Nat) : Int × List Op :=
  register deviceName nodeName o n

def multiDriverExit (deviceName : String) (n : Nat) : List Op := unregister deviceName major n

def platformDriverProbe (n : Nat) : Int × List Op := register "multi_dev" nodeName o n

def platformDriverRemove (n : Nat) : List Op := unregister "multi_dev" major n

end

structure Sound (name : String) (nodeName : Nat → String) (o : Outcome) (n : Nat) (r : Registry)
    (load : Int × List Op) (unload : Nat → List Op) : Prop where
  all : load.1 = 0 → ∃ major, o.alloc = .ok major ∧ ∀ i < n,
    ⟨⟨major, i⟩, 1⟩ ∈ (r.run load.2).cdevs ∧
      ⟨name, ⟨major, i⟩, nodeName i⟩ ∈ (r.run load.2).devices
  undone : load.1 ≠ 0 → load.1 < 0 ∧ r.run load.2 = r
  ownCdevs : ∀ major, o.alloc = .ok major → load.1 = 0 → ∀ m, .cdevDel m ∈ unload major →
    .cdevAdd m ∈ load.2
  ownDevices : ∀ major, o.alloc = .ok major → load.1 = 0 → ∀ cls dev,
    .deviceDestroy cls dev ∈ unload major → ∃ node, .deviceCreate ⟨cls, dev, node⟩ ∈ load.2
  restored : ∀ major, o.alloc = .ok major → load.1 = 0 →
    (r.run load.2).run (unload major) = r

/-- The condition on a load: no call of the registration loop fails. -/
def Clean (o : Outcome) (n : Nat) : Prop :=
  ∀ major, o.alloc = .ok major → o.classCreate = .ok () → ∀ i < n,
    o.cdevAdd i = true ∧ o.deviceCreate i = true

section

variable {name : String} {nodeName : Nat → String} {o : Outcome} {major n : Nat}

theorem mem_addDevice {op : Op} {i : Nat} :
    op ∈ addDevice name nodeName o major i ↔
      (o.cdevAdd i = true ∧ op = .cdevAdd ⟨⟨major, i⟩, 1⟩) ∨
        (o.deviceCreate i = true ∧ op = .deviceCreate ⟨name, ⟨major, i⟩, nodeName i⟩) := by
  simp only [addDevice, List.mem_append]
  split <;> split <;> simp [*]

theorem mem_addDevices {op : Op} :
    op ∈ addDevices name nodeName o major n ↔
      ∃ i < n, op ∈ addDevice name nodeName o major i := by
  induction n with
  | zero => simp [addDevices]
  | succ n ih =>
    simp only [addDevices, List.mem_append, ih, Nat.lt_succ_iff_lt_or_eq]
    constructor
    · rintro (⟨i, hi, hop⟩ | hop)
      · exact ⟨i, Or.inl hi, hop⟩
      · exact ⟨n, Or.inr rfl, hop⟩
    · rintro ⟨i, hi | rfl, hop⟩
      · exact Or.inl ⟨i, hi, hop⟩
      · exact Or.inr hop

theorem cdevAdd_mem {i : Nat} :
    .cdevAdd ⟨⟨major, i⟩, 1⟩ ∈ addDevices name nodeName o major n ↔
      i < n ∧ o.cdevAdd i = true := by
  simp only [mem_addDevices, mem_addDevice, Op.cdevAdd.injEq, Mapping.mk.injEq, DevT.mk.injEq,
    reduceCtorEq, and_false, or_false, true_and, and_true]
  constructor
  · rintro ⟨j, hj, hadd, rfl⟩
    exact ⟨hj, hadd⟩
  · rintro ⟨hi, hadd⟩
    exact ⟨i, hi, hadd, rfl⟩

theorem deviceCreate_mem {i : Nat} {node : String} :
    .deviceCreate ⟨name, ⟨major, i⟩, node⟩ ∈ addDevices name nodeName o major n ↔
      i < n ∧ o.deviceCreate i = true ∧ node = nodeName i := by
  simp only [mem_addDevices, mem_addDevice, Op.deviceCreate.injEq, DeviceNode.mk.injEq,
    DevT.mk.injEq, reduceCtorEq, and_false, false_or, true_and]
  constructor
  · rintro ⟨j, hj, hcreate, rfl, rfl⟩
    exact ⟨hj, hcreate, rfl⟩
  · rintro ⟨hi, hcreate, rfl⟩
    exact ⟨i, hi, hcreate, rfl, rfl⟩

theorem mem_removeDevices {op : Op} :
    op ∈ removeDevices name major n ↔
      ∃ i < n, op = .deviceDestroy name ⟨major, i⟩ ∨ op = .cdevDel ⟨⟨major, i⟩, 1⟩ := by
  induction n with
  | zero => simp [removeDevices]
  | succ n ih =>
    simp only [removeDevices, removeDevice, List.mem_append, ih, Nat.lt_succ_iff_lt_or_eq,
      List.mem_cons, List.not_mem_nil, or_false]
    constructor
    · rintro (⟨i, hi, hop⟩ | hop)
      · exact ⟨i, Or.inl hi, hop⟩
      · exact ⟨n, Or.inr rfl, hop⟩
    · rintro ⟨i, hi | rfl, hop⟩
      · exact Or.inl ⟨i, hi, hop⟩
      · exact Or.inr hop

theorem cdevAdd_comm {op : Op} (h : op ∈ removeDevices name major n) (r : Registry) :
    (r.apply (.cdevAdd ⟨⟨major, n⟩, 1⟩)).apply op =
      (r.apply op).apply (.cdevAdd ⟨⟨major, n⟩, 1⟩) := by
  obtain ⟨i, hi, rfl | rfl⟩ := mem_removeDevices.mp h
  · rfl
  · have hne : n ≠ i := by omega
    simp [Registry.apply, hne]

theorem deviceCreate_comm {op : Op} (h : op ∈ removeDevices name major n) (r : Registry) :
    (r.apply (.deviceCreate ⟨name, ⟨major, n⟩, nodeName n⟩)).apply op =
      (r.apply op).apply (.deviceCreate ⟨name, ⟨major, n⟩, nodeName n⟩) := by
  obtain ⟨i, hi, rfl | rfl⟩ := mem_removeDevices.mp h
  · have hne : n ≠ i := by omega
    simp [Registry.apply, hne]
  · rfl

/-- The loop of the unload undoes the loop of a load in which nothing failed. -/
theorem run_removeDevices (h : ∀ i < n, o.cdevAdd i = true ∧ o.deviceCreate i = true)
    (r : Registry) :
    (r.run (addDevices name nodeName o major n)).run (removeDevices name major n) = r := by
  induction n with
  | zero => rfl
  | succ n ih =>
    have hn := h n (Nat.lt_succ_self n)
    have hpass : addDevice name nodeName o major n =
        [.cdevAdd ⟨⟨major, n⟩, 1⟩, .deviceCreate ⟨name, ⟨major, n⟩, nodeName n⟩] := by
      simp [addDevice, hn.1, hn.2]
    have hrest := ih fun i hi => h i (Nat.lt_succ_of_lt hi)
    simp only [addDevices, removeDevices, Registry.run_append, hpass, Registry.run_cons,
      Registry.run_nil]
    rw [Registry.run_apply_comm fun op hop => deviceCreate_comm hop,
      Registry.run_apply_comm fun op hop => cdevAdd_comm hop, hrest]
    simp [removeDevice, Registry.apply]

theorem run_addDevices_mem (h : ∀ i < n, o.cdevAdd i = true ∧ o.deviceCreate i = true)
    (r : Registry) : ∀ i < n,
      ⟨⟨major, i⟩, 1⟩ ∈ (r.run (addDevices name nodeName o major n)).cdevs ∧
        ⟨name, ⟨major, i⟩, nodeName i⟩ ∈
          (r.run (addDevices name nodeName o major n)).devices := by
  induction n with
  | zero => exact fun i hi => absurd hi (Nat.not_lt_zero i)
  | succ n ih =>
    have hn := h n (Nat.lt_succ_self n)
    have hrest := ih fun i hi => h i (Nat.lt_succ_of_lt hi)
    intro i hi
    simp only [addDevices, Registry.run_append, addDevice, hn.1, hn.2, if_true,
      List.singleton_append, Registry.run_cons, Registry.run_nil, Registry.apply, List.mem_cons]
    rcases Nat.lt_succ_iff_lt_or_eq.mp hi with hi | rfl
    · exact ⟨Or.inr (hrest i hi).1, Or.inr (hrest i hi).2⟩
    · exact ⟨Or.inl rfl, Or.inl rfl⟩

theorem register_ok (halloc : o.alloc = .ok major) (hclass : o.classCreate = .ok ()) :
    register name nodeName o n =
      (0, [.allocChrdevRegion ⟨name, ⟨major, 0⟩, n⟩] ++ [.classCreate name] ++
        addDevices name nodeName o major n) := by
  simp [register, halloc, hclass]

theorem cdevDel_mem {m : Mapping} :
    .cdevDel m ∈ unregister name major n ↔ ∃ i < n, m = ⟨⟨major, i⟩, 1⟩ := by
  simp [unregister, mem_removeDevices]

theorem deviceDestroy_mem {cls : String} {dev : DevT} :
    .deviceDestroy cls dev ∈ unregister name major n ↔ ∃ i < n, cls = name ∧ dev = ⟨major, i⟩ := by
  simp [unregister, mem_removeDevices]

theorem sound_of_failed {r : Registry} {load : Int × List Op} {unload : Nat → List Op}
    (hret : load.1 < 0) (hrun : r.run load.2 = r) : Sound name nodeName o n r load unload where
  all h0 := absurd h0 (Int.ne_of_lt hret)
  undone _ := ⟨hret, hrun⟩
  ownCdevs _ _ h0 := absurd h0 (Int.ne_of_lt hret)
  ownDevices _ _ h0 := absurd h0 (Int.ne_of_lt hret)
  restored _ _ h0 := absurd h0 (Int.ne_of_lt hret)

theorem Clean.sound (h : Clean o n) (r : Registry) :
    Sound name nodeName o n r (register name nodeName o n) fun major => unregister name major n := by
  cases halloc : o.alloc with
  | error e =>
    have hne := e.property.2
    refine sound_of_failed ?_ ?_ <;> simp [register, halloc]
    omega
  | ok major =>
    cases hclass : o.classCreate with
    | error e =>
      have hne := e.property.2
      refine sound_of_failed ?_ ?_ <;> simp [register, halloc, hclass, Registry.apply]
      omega
    | ok u =>
      have hgood := h major halloc hclass
      rw [register_ok halloc hclass]
      have hmajor : ∀ k, o.alloc = .ok k → k = major := by
        intro k hk
        rw [halloc] at hk
        exact (Except.ok.inj hk).symm
      refine ⟨?_, fun hne => absurd rfl hne, ?_, ?_, ?_⟩
      · intro _
        refine ⟨major, halloc, ?_⟩
        rw [Registry.run_append]
        exact run_addDevices_mem hgood _
      · intro k hk _ m hm
        rw [hmajor k hk] at hm
        obtain ⟨i, hi, rfl⟩ := cdevDel_mem.mp hm
        exact List.mem_append_right _ (cdevAdd_mem.mpr ⟨hi, (hgood i hi).1⟩)
      · intro k hk _ cls dev hm
        rw [hmajor k hk] at hm
        obtain ⟨i, hi, rfl, rfl⟩ := deviceDestroy_mem.mp hm
        exact ⟨nodeName i,
          List.mem_append_right _ (deviceCreate_mem.mpr ⟨hi, (hgood i hi).2, rfl⟩)⟩
      · intro k hk _
        rw [hmajor k hk]
        simp only [unregister, Registry.run_append, run_removeDevices hgood]
        simp [Registry.apply]

theorem Sound.clean {r : Registry}
    (h : Sound name nodeName o n r (register name nodeName o n) fun major =>
      unregister name major n) : Clean o n := by
  intro major halloc hclass i hi
  have hload : register name nodeName o n = _ := register_ok halloc hclass
  have h0 : (register name nodeName o n).1 = 0 := by rw [hload]
  have hadd := h.ownCdevs major halloc h0 _ (cdevDel_mem.mpr ⟨i, hi, rfl⟩)
  obtain ⟨node, hcreate⟩ := h.ownDevices major halloc h0 _ _
    (deviceDestroy_mem.mpr ⟨i, hi, rfl, rfl⟩)
  rw [hload] at hadd hcreate
  have hadd' := (List.mem_append.mp hadd).resolve_left (by simp)
  have hcreate' := (List.mem_append.mp hcreate).resolve_left (by simp)
  exact ⟨(cdevAdd_mem.mp hadd').2, (deviceCreate_mem.mp hcreate').2.1⟩

end

/-- Either driver registers all its devices or nothing, and its unload takes back just that, exactly
when no call of the registration loop fails. -/
theorem multi_load_sound_iff (deviceName : String) (nodeName : Nat → String) (o : Outcome) (n : Nat)
    (r : Registry) :
    (Sound deviceName nodeName o n r (multiDriverInit nodeName o deviceName n)
      (fun major => multiDriverExit major deviceName n) ↔ Clean o n) ∧
    (Sound "multi_dev" nodeName o n r (platformDriverProbe nodeName o n)
      (fun major => platformDriverRemove major n) ↔ Clean o n) :=
  ⟨⟨fun h => h.clean, fun h => h.sound r⟩, ⟨fun h => h.clean, fun h => h.sound r⟩⟩

def sensorNames : Nat → String
  | 0 => "sensor0"
  | 1 => "sensor1"
  | 2 => "hello0"
  | 3 => "hello1"
  | _ => "goodbye"

def withoutHello0 : Outcome := ⟨.ok 240, .ok (), fun i => i != 2, fun _ => true⟩

/-- The load returns 0 all the same, and the unload deletes a cdev that was never added. -/
theorem failed_cdev_ignored :
    (¬ ∀ (deviceName : String) (nodeName : Nat → String) (o : Outcome) (n : Nat) (r : Registry),
      1 ≤ n → Sound deviceName nodeName o n r (multiDriverInit nodeName o deviceName n)
        (fun major => multiDriverExit major deviceName n)) ∧
    (¬ ∀ (nodeName : Nat → String) (o : Outcome) (n : Nat) (r : Registry),
      1 ≤ n → Sound "multi_dev" nodeName o n r (platformDriverProbe nodeName o n)
        (fun major => platformDriverRemove major n)) := by
  constructor
  · intro h
    have hsound := h "multi_dev" sensorNames withoutHello0 5 ⟨[], [], [], []⟩ (by decide)
    exact absurd (hsound.ownCdevs 240 rfl rfl ⟨⟨240, 2⟩, 1⟩ (by decide)) (by decide)
  · intro h
    have hsound := h sensorNames withoutHello0 5 ⟨[], [], [], []⟩ (by decide)
    exact absurd (hsound.ownCdevs 240 rfl rfl ⟨⟨240, 2⟩, 1⟩ (by decide)) (by decide)

end LinuxAssignment.MultiLoad
