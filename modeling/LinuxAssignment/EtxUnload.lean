import LinuxAssignment.EtxLoad

namespace LinuxAssignment

def Region.Holds (g : Region) (dev : DevT) : Prop :=
  dev.major = g.first.major ∧ g.first.minor ≤ dev.minor ∧ dev.minor < g.first.minor + g.count

def Region.Overlaps (g g' : Region) : Prop :=
  g.first.major = g'.first.major ∧ g.first.minor < g'.first.minor + g'.count ∧
    g'.first.minor < g.first.minor + g.count

def Mapping.Covers (m : Mapping) (dev : DevT) : Prop :=
  dev.major = m.dev.major ∧ m.dev.minor ≤ dev.minor ∧ dev.minor < m.dev.minor + m.count

instance (g : Region) (dev : DevT) : Decidable (g.Holds dev) :=
  inferInstanceAs (Decidable (_ ∧ _ ∧ _))

instance (g g' : Region) : Decidable (g.Overlaps g') :=
  inferInstanceAs (Decidable (_ ∧ _ ∧ _))

instance (m : Mapping) (dev : DevT) : Decidable (m.Covers dev) :=
  inferInstanceAs (Decidable (_ ∧ _ ∧ _))

/-- The number lies in a reserved region. -/
def Registry.Owns (r : Registry) (dev : DevT) : Prop := ∃ g ∈ r.regions, g.Holds dev

/-- Some mapped cdev serves the number. -/
def Registry.Maps (r : Registry) (dev : DevT) : Prop := ∃ m ∈ r.cdevs, m.Covers dev

instance (r : Registry) (dev : DevT) : Decidable (r.Owns dev) :=
  inferInstanceAs (Decidable (∃ g ∈ r.regions, g.Holds dev))

instance (r : Registry) (dev : DevT) : Decidable (r.Maps dev) :=
  inferInstanceAs (Decidable (∃ m ∈ r.cdevs, m.Covers dev))

theorem Region.Holds.overlaps {g g' : Region} {dev : DevT} (h : g.Holds dev) (h' : g'.Holds dev) :
    g.Overlaps g' :=
  ⟨h.1.symm.trans h'.1, Nat.lt_of_le_of_lt h.2.1 h'.2.2, Nat.lt_of_le_of_lt h'.2.1 h.2.2⟩

namespace EtxUnload

open StepSystem EtxLoad

/-- Whose operations an `open` is dispatched to. -/
inductive Side where
  | etx
  | other
  deriving DecidableEq

/-- What the module and all other drivers have registered, and the statements of
`etx_driver_exit` still to come. -/
structure State where
  mine : Registry
  others : Registry
  todo : List Op
  deriving DecidableEq

inductive Act where
  | exit
  | other (op : Op)
  | openFile (dev : DevT) (target : Option Side)
  deriving DecidableEq

/-- The state after a load in which every registration succeeded. -/
def start (drv : Driver) (major : Nat) (others : Registry) : State :=
  ⟨emptyRegistry.run (drv.init ⟨some major, true, true, true⟩).2, others, drv.exit ⟨major, 0⟩⟩

def State.Free (s : State) (g : Region) : Prop :=
  (∀ g' ∈ s.mine.regions, ¬ g.Overlaps g') ∧ ∀ g' ∈ s.others.regions, ¬ g.Overlaps g'

instance (s : State) (g : Region) : Decidable (s.Free g) :=
  inferInstanceAs (Decidable (_ ∧ _))

/-- The kernel reserves only numbers that no region holds. -/
def State.Permits (s : State) : Op → Prop
  | .allocChrdevRegion g => s.Free g
  | _ => True

instance (s : State) : (op : Op) → Decidable (s.Permits op)
  | .allocChrdevRegion g => inferInstanceAs (Decidable (s.Free g))
  | .unregisterChrdevRegion _ _ | .cdevAdd _ | .cdevDel _ => isTrue trivial
  | .classCreate _ | .classDestroy _ | .deviceCreate _ | .deviceDestroy _ _ => isTrue trivial

/-- Where an `open` of the number can go. -/
def State.Dispatches (s : State) (dev : DevT) : Option Side → Prop
  | some .etx => s.mine.Maps dev
  | some .other => s.others.Maps dev
  | none => ¬ s.mine.Maps dev ∧ ¬ s.others.Maps dev

instance (s : State) (dev : DevT) : (target : Option Side) → Decidable (s.Dispatches dev target)
  | some .etx => inferInstanceAs (Decidable (s.mine.Maps dev))
  | some .other => inferInstanceAs (Decidable (s.others.Maps dev))
  | none => inferInstanceAs (Decidable (_ ∧ _))

def step (s : State) : Act → Option State
  | .exit =>
    match s.todo with
    | [] => none
    | op :: rest => some ⟨s.mine.apply op, s.others, rest⟩
  | .other op => if s.Permits op then some { s with others := s.others.apply op } else none
  | .openFile dev target => if s.Dispatches dev target then some s else none

/-- Every mapped cdev has its number inside a reserved region. -/
def Covered (r : Registry) : Prop := ∀ m ∈ r.cdevs, r.Owns m.dev

/-- What the module may never give up: its cdevs are covered, and an `open` that comes to it is not
of a number of another driver. -/
def Sound (e : Event State Act) : Prop :=
  Covered e.after.mine ∧ ∀ dev, e.label = .openFile dev (some .etx) → ¬ e.before.others.Owns dev

/-- The condition: the module has no cdev mapped any more when its exit gives the region back. -/
def DeletedFirst (s : State) : Act → Prop
  | .exit =>
    match s.todo with
    | .unregisterChrdevRegion _ _ :: _ => s.mine.cdevs = []
    | _ => True
  | _ => True

instance (s : State) : (a : Act) → Decidable (DeletedFirst s a)
  | .exit =>
    match h : s.todo with
    | .unregisterChrdevRegion _ _ :: _ =>
      decidable_of_iff (s.mine.cdevs = []) (by simp [DeletedFirst, h])
    | [] | .allocChrdevRegion _ :: _ | .cdevAdd _ :: _ | .cdevDel _ :: _ | .classCreate _ :: _
    | .classDestroy _ :: _ | .deviceCreate _ :: _ | .deviceDestroy _ _ :: _ =>
      isTrue (by simp [DeletedFirst, h])
  | .other _ | .openFile _ _ => isTrue trivial

structure Unloading (drv : Driver) (dev : DevT) (s : State) : Prop where
  place : ∃ n, s.todo = (drv.exit dev).drop n ∧
    s.mine = (emptyRegistry.run (registered drv.names dev)).run ((drv.exit dev).take n)
  covered : Covered s.mine
  apart : ∀ g ∈ s.mine.regions, ∀ g' ∈ s.others.regions, ¬ g.Overlaps g'

section

variable {drv : Driver} {dev : DevT} {s s' : State} {a : Act} {op : Op} {rest : List Op}

/-- What the module has registered at each place of its exit. -/
theorem Unloading.mine_cases (hs : Unloading drv dev s) :
    (s.mine.cdevs = [] ∨ s.mine.cdevs = [⟨dev, 1⟩]) ∧
      (s.mine.regions = [] ∨ s.mine.regions = [⟨drv.names.region, dev, 1⟩]) := by
  obtain ⟨n, -, hmine⟩ := hs.place
  rw [hmine, run_registered]
  cases drv <;> rcases n with _ | _ | _ | _ | n <;>
    simp [Driver.exit, Ex1.etxDriverExit, Ex2.etxDriverExit, Ex3.etxDriverExit, etxDriverExit,
      Registry.apply, emptyRegistry, Driver.names]

/-- A statement of the exit leaves what is mapped covered, unless it gives the region back with the
cdev still mapped. -/
theorem exit_covered_iff (n : Nat) (h : (drv.exit dev).drop n = op :: rest) {r : Registry}
    (others : Registry)
    (hr : r = (emptyRegistry.run (registered drv.names dev)).run ((drv.exit dev).take n)) :
    Covered (r.apply op) ↔ DeletedFirst ⟨r, others, op :: rest⟩ .exit := by
  rw [run_registered] at hr
  subst hr
  cases drv <;> rcases n with _ | _ | _ | _ | n <;>
    simp [Driver.exit, Ex1.etxDriverExit, Ex2.etxDriverExit, Ex3.etxDriverExit, etxDriverExit] at h
  all_goals
    obtain ⟨rfl, rfl⟩ := h
    simp [Driver.exit, Ex1.etxDriverExit, Ex2.etxDriverExit, Ex3.etxDriverExit, etxDriverExit,
      Registry.apply, emptyRegistry, Driver.names, Covered, Registry.Owns, Region.Holds, DeletedFirst]

theorem exit_regions (n : Nat) (h : (drv.exit dev).drop n = op :: rest) (r : Registry) :
    ∀ g ∈ (r.apply op).regions, g ∈ r.regions := by
  have hop : op ∈ drv.exit dev := List.mem_of_mem_drop (h ▸ List.mem_cons_self)
  cases op with
  | allocChrdevRegion g =>
    cases drv <;> simp [Driver.exit, Ex1.etxDriverExit, Ex2.etxDriverExit, Ex3.etxDriverExit,
      etxDriverExit] at hop
  | unregisterChrdevRegion first count => exact fun g hg => List.mem_of_mem_eraseP hg
  | cdevAdd | cdevDel | classCreate | classDestroy | deviceCreate | deviceDestroy =>
    exact fun g hg => hg

theorem Unloading.exit (hs : Unloading drv dev s) (htodo : s.todo = op :: rest) :
    (Covered (s.mine.apply op) ↔ DeletedFirst s .exit) ∧
      (DeletedFirst s .exit → Unloading drv dev ⟨s.mine.apply op, s.others, rest⟩) := by
  obtain ⟨mine, others, todo⟩ := s
  obtain ⟨n, hn, hmine⟩ := hs.place
  cases (show todo = op :: rest from htodo)
  have hdrop : (drv.exit dev).drop n = op :: rest := hn.symm
  have hiff := exit_covered_iff n hdrop others hmine
  refine ⟨hiff, fun hok => ⟨⟨n + 1, ?_, ?_⟩, hiff.mpr hok, fun g hg => ?_⟩⟩
  · rw [← List.tail_drop, hdrop, List.tail_cons]
  · have hget : (drv.exit dev)[n]? = some op := by
      rw [← List.head?_drop, hdrop, List.head?_cons]
    rw [List.take_add_one, hget, Option.toList_some, Registry.run_append, ← hmine]
    rfl
  · exact hs.apart g (exit_regions n hdrop _ g hg)

theorem Unloading.other (hs : Unloading drv dev s) (hok : s.Permits op) :
    Unloading drv dev { s with others := s.others.apply op } where
  place := hs.place
  covered := hs.covered
  apart := by
    intro g hg g' hg'
    cases op with
    | allocChrdevRegion region =>
      rcases List.mem_cons.mp hg' with rfl | hg'
      · exact fun hover => hok.1 g hg ⟨hover.1.symm, hover.2.2, hover.2.1⟩
      · exact hs.apart g hg g' hg'
    | unregisterChrdevRegion first count =>
      exact hs.apart g hg g' (List.mem_of_mem_eraseP hg')
    | cdevAdd | cdevDel | classCreate | classDestroy | deviceCreate | deviceDestroy =>
      exact hs.apart g hg g' hg'

/-- An `open` that comes to the module is of the number it has reserved. -/
theorem Unloading.dispatched (hs : Unloading drv dev s) {dev' : DevT} (h : s.mine.Maps dev') :
    ¬ s.others.Owns dev' := by
  rintro ⟨g', hg', hother⟩
  obtain ⟨m, hm, hcovers⟩ := h
  obtain ⟨g, hg, hmine⟩ := hs.covered m hm
  have hdev : m.dev = dev' := by
    rcases hs.mine_cases.1 with hnil | hone
    · rw [hnil] at hm
      cases hm
    · rw [hone] at hm
      cases List.mem_singleton.mp hm
      obtain ⟨hmajor, hle, hlt⟩ := hcovers
      obtain ⟨major, minor⟩ := dev'
      obtain ⟨major', minor'⟩ := dev
      simp only [DevT.mk.injEq] at *
      omega
  exact hs.apart g hg g' hg' ((hdev ▸ hmine).overlaps hother)

theorem step_sound_iff (hs : Unloading drv dev s) (h : step s a = some s') :
    Sound ⟨s, a, s'⟩ ↔ DeletedFirst s a := by
  cases a with
  | exit =>
    simp only [step] at h
    split at h
    next => cases h
    next op rest htodo =>
      cases h
      refine Iff.trans ⟨fun hh => hh.1, fun hh => ⟨hh, nofun⟩⟩ (hs.exit htodo).1
  | other op =>
    obtain ⟨-, h⟩ := Option.ite_none_right_eq_some.mp h
    cases h
    exact iff_of_true ⟨hs.covered, nofun⟩ trivial
  | openFile dev' target =>
    obtain ⟨htarget, h⟩ := Option.ite_none_right_eq_some.mp h
    cases h
    refine iff_of_true ⟨hs.covered, fun dev'' he => ?_⟩ trivial
    cases he
    exact hs.dispatched htarget

theorem step_unloading (hs : Unloading drv dev s) (hok : DeletedFirst s a)
    (h : step s a = some s') : Unloading drv dev s' := by
  cases a with
  | exit =>
    simp only [step] at h
    split at h
    next => cases h
    next op rest htodo =>
      cases h
      exact (hs.exit htodo).2 hok
  | other op =>
    obtain ⟨hpermits, h⟩ := Option.ite_none_right_eq_some.mp h
    cases h
    exact hs.other hpermits
  | openFile dev' target =>
    obtain ⟨-, h⟩ := Option.ite_none_right_eq_some.mp h
    cases h
    exact hs

theorem start_unloading (drv : Driver) {major : Nat} {others : Registry}
    (hfree : ∀ g ∈ others.regions, ¬ g.Overlaps ⟨drv.names.region, ⟨major, 0⟩, 1⟩) :
    Unloading drv ⟨major, 0⟩ (start drv major others) := by
  have hmine : (start drv major others).mine =
      emptyRegistry.run (registered drv.names ⟨major, 0⟩) := by
    rw [start, drv.init_eq]
    rfl
  refine ⟨⟨0, rfl, hmine⟩, ?_, ?_⟩
  · rw [hmine, run_registered]
    intro m hm
    cases List.mem_singleton.mp hm
    exact ⟨_, List.mem_singleton_self _, rfl, Nat.le_refl _, Nat.lt_succ_self _⟩
  · rw [hmine, run_registered]
    intro g hg g' hg' hover
    cases List.mem_singleton.mp hg
    exact hfree g' hg' ⟨hover.1.symm, hover.2.2, hover.2.1⟩

/-- While a module is unloaded, whatever other drivers do, its cdevs stay covered and no `open` of
another driver's number comes to it exactly when its exit deletes its cdev before it gives its
region back. -/
theorem unload_sound_iff {major : Nat} {others : Registry}
    (hfree : ∀ g ∈ others.regions, ¬ g.Overlaps ⟨drv.names.region, ⟨major, 0⟩, 1⟩)
    {es : List (Event State Act)} (h : Trace step (start drv major others) es s) :
    (∀ e ∈ es, Sound e) ↔ ∀ e ∈ es, DeletedFirst e.before e.label :=
  h.forall_iff (Unloading drv ⟨major, 0⟩) DeletedFirst Sound
    (fun _ _ _ hs ht => step_sound_iff hs ht) (fun _ _ _ hs hok ht => step_unloading hs hok ht)
    (start_unloading drv hfree)

theorem ex3_deletedFirst (hs : Unloading .ex3 dev s) (a : Act) : DeletedFirst s a := by
  cases a with
  | other op => trivial
  | openFile dev' target => trivial
  | exit =>
    obtain ⟨n, htodo, hmine⟩ := hs.place
    rw [run_registered] at hmine
    rcases n with _ | _ | _ | _ | n <;>
      simp [DeletedFirst, htodo, hmine, Driver.exit, Ex3.etxDriverExit, Registry.apply, emptyRegistry]

/-- The exit of `ex_3.c` is in the right order, so that all its unloads are sound. -/
theorem ex3_sound {major : Nat} {others : Registry}
    (hfree : ∀ g ∈ others.regions, ¬ g.Overlaps ⟨Ex3.names.region, ⟨major, 0⟩, 1⟩)
    {es : List (Event State Act)} (h : Trace step (start .ex3 major others) es s) :
    ∀ e ∈ es, Sound e := by
  have keep : ∀ (s : State) (a : Act) (t : State), Unloading .ex3 ⟨major, 0⟩ s → True →
      step s a = some t → Unloading .ex3 ⟨major, 0⟩ t :=
    fun _ _ _ hs _ ht => step_unloading hs (ex3_deletedFirst hs _) ht
  intro e he
  obtain ⟨hs, hstep⟩ := h.events keep (start_unloading .ex3 hfree) (fun _ _ => trivial) e he
  exact (step_sound_iff hs hstep).mpr (ex3_deletedFirst hs _)

end

/-- A process opens the device while `ex_3.c` is unloaded, and its number then goes to another
driver. -/
def handedOn : List Act :=
  [.exit, .exit, .openFile ⟨240, 0⟩ (some .etx), .exit, .exit,
    .other (.allocChrdevRegion ⟨"next", ⟨240, 0⟩, 1⟩), .other (.cdevAdd ⟨⟨240, 0⟩, 1⟩),
    .openFile ⟨240, 0⟩ (some .other)]

theorem handedOn_sound :
    (record step (start .ex3 240 emptyRegistry) handedOn).length = 8 ∧
      ∀ e ∈ record step (start .ex3 240 emptyRegistry) handedOn, Sound e :=
  ⟨rfl, (unload_sound_iff (by decide)
    (Trace.recorded step (start .ex3 240 emptyRegistry) handedOn)).mpr (by decide)⟩

/-- `ex_2.c` gives its number back with its cdev still mapped: the next driver that gets the number
has its device opened with the operations of this one. -/
theorem open_misdirected :
    ¬ ∀ (drv : Driver) (major : Nat) (others : Registry) (es : List (Event State Act)) (s : State),
      (∀ g ∈ others.regions, ¬ g.Overlaps ⟨drv.names.region, ⟨major, 0⟩, 1⟩) →
      Trace step (start drv major others) es s → ∀ e ∈ es, Sound e := by
  intro h
  have hrun := h .ex2 240 emptyRegistry _ _ (by decide) (Trace.recorded _ _ [.exit, .exit, .exit,
    .other (.allocChrdevRegion ⟨"next", ⟨240, 0⟩, 1⟩), .openFile ⟨240, 0⟩ (some .etx)])
  have hopen := (hrun _ (List.mem_of_getElem? (i := 4) rfl)).2 ⟨240, 0⟩ rfl
  exact hopen (by decide)

end EtxUnload

end LinuxAssignment
