import LinuxAssignment.ByteMemory
import Mathlib.Data.Option.Basic
import Mathlib.Logic.Function.Basic

namespace SystemV

open ByteMemory

/-- The objects of one kind made under one key, and the one that the key names; the others are
removed. -/
structure Table (α : Type) where
  objects : Nat → α
  made : Nat
  key : Option Nat
  key_made : ∀ id ∈ key, id < made

section

variable {α β : Type}

def Table.empty (a : α) : Table α := ⟨fun _ => a, 0, none, nofun⟩

/-- The object that the key names, made as `a` when there is none (`IPC_CREAT`). -/
def Table.get (t : Table α) (a : α) : Nat × Table α :=
  match t.key with
  | some id => (id, t)
  | none =>
    (t.made, ⟨Function.update t.objects t.made a, t.made + 1, some t.made, by
      rintro _ ⟨⟩
      exact Nat.lt_succ_self _⟩)

def Table.set (t : Table α) (id : Nat) (a : α) : Table α :=
  { t with objects := Function.update t.objects id a }

/-- `IPC_RMID`; it fails on an object that is removed already. -/
def Table.remove (t : Table α) (id : Nat) : Table α :=
  if t.key = some id then { t with key := none, key_made := nofun } else t

/-- Nothing is removed, what there was looks as before, and a new object looks like `fresh`. -/
structure Table.Grows (view : α → β) (fresh : β) (t t' : Table α) : Prop where
  made : t.made ≤ t'.made
  same : ∀ id < t.made, view (t'.objects id) = view (t.objects id)
  key : ∀ id, t.key = some id → t'.key = some id
  fresh : ∀ id, t'.key = some id → t.key = some id ∨ view (t'.objects id) = fresh
  old : ∀ id < t'.made, t'.key = some id ∨ id < t.made

variable {t t' : Table α} {view : α → β} {fresh : β} {a : α} {id i : Nat}

theorem Table.Grows.refl : t.Grows view fresh t :=
  ⟨Nat.le_refl _, fun _ _ => rfl, fun _ h => h, fun _ => Or.inl, fun _ => Or.inr⟩

theorem Table.get_grows (h : view a = fresh) : t.Grows view fresh (t.get a).2 := by
  unfold get
  split
  next => exact .refl
  next hnone =>
    refine ⟨Nat.le_succ _, fun id hid => ?_, fun id hid => ?_, fun id hid => ?_, fun id hid => ?_⟩
    · exact congrArg view (Function.update_of_ne (Nat.ne_of_lt hid) _ _)
    · rw [hnone] at hid
      cases hid
    · cases hid
      exact Or.inr ((congrArg view (Function.update_self _ _ _)).trans h)
    · rcases Nat.lt_succ_iff_lt_or_eq.mp hid with hlt | rfl
      · exact Or.inr hlt
      · exact Or.inl rfl

theorem Table.get_objects (t : Table α) (a : α) (id : Nat) :
    (t.get a).2.objects id = t.objects id ∨ (t.get a).2.objects id = a := by
  unfold get
  split
  next => exact Or.inl rfl
  next =>
    by_cases hid : id = t.made
    · exact Or.inr (hid ▸ Function.update_self _ _ _)
    · exact Or.inl (Function.update_of_ne hid _ _)

theorem Table.get_key : (t.get a).2.key = some (t.get a).1 := by
  unfold get
  split
  next h => exact h
  next => rfl

theorem Table.get_made : (t.get a).1 < (t.get a).2.made := (t.get a).2.key_made _ get_key

@[simp] theorem Table.set_self : (t.set id a).objects id = a := Function.update_self _ _ _

theorem Table.set_of_ne (h : i ≠ id) : (t.set id a).objects i = t.objects i :=
  Function.update_of_ne h _ _

theorem Table.set_grows (h : view a = view (t.objects id)) : t.Grows view fresh (t.set id a) := by
  refine ⟨Nat.le_refl _, fun i _ => ?_, fun _ h => h, fun _ => Or.inl, fun _ => Or.inr⟩
  by_cases hi : i = id
  · exact (congrArg view (hi ▸ set_self)).trans (hi ▸ h)
  · exact congrArg view (set_of_ne hi)

@[simp] theorem Table.remove_objects : (t.remove id).objects = t.objects := by
  unfold remove
  split <;> rfl

@[simp] theorem Table.remove_made : (t.remove id).made = t.made := by
  unfold remove
  split <;> rfl

theorem Table.remove_key : (t.remove id).key = some i ↔ t.key = some i ∧ i ≠ id := by
  unfold remove
  split
  next h =>
    refine iff_of_false nofun fun hi => hi.2 ?_
    exact Option.some.inj (hi.1.symm.trans h)
  next h => exact ⟨fun hi => ⟨hi, fun hid => h (hid ▸ hi)⟩, And.left⟩

end

/-- A segment: its bytes and how many times it is attached. -/
structure Segment where
  bytes : Memory
  attached : Nat

structure Ipc where
  segs : Table Segment
  sems : Table Int

def SEMVMX : Int := 32767

def Ipc.empty : Ipc := ⟨.empty ⟨fun _ => 0, 0⟩, .empty 0⟩

namespace Ipc

def shmget (m : Ipc) : Nat × Ipc :=
  let r := m.segs.get ⟨fun _ => 0, 0⟩
  (r.1, { m with segs := r.2 })

def semget (m : Ipc) : Nat × Ipc :=
  let r := m.sems.get 0
  (r.1, { m with sems := r.2 })

/-- A removed segment lives on, and can be attached, as long as some process has it attached. -/
def shmat (m : Ipc) (shmid : Nat) : Option Ipc :=
  let seg := m.segs.objects shmid
  if m.segs.key = some shmid ∨ 0 < seg.attached then
    some { m with segs := m.segs.set shmid { seg with attached := seg.attached + 1 } }
  else none

def shmdt (m : Ipc) (shmid : Nat) : Ipc :=
  let seg := m.segs.objects shmid
  { m with segs := m.segs.set shmid { seg with attached := seg.attached - 1 } }

def load (m : Ipc) (shmid i : Nat) : UInt8 := (m.segs.objects shmid).bytes i

def store (m : Ipc) (shmid i : Nat) (b : UInt8) : Ipc :=
  let seg := m.segs.objects shmid
  { m with segs := m.segs.set shmid { seg with bytes := Function.update seg.bytes i b } }

def setval (m : Ipc) (semid : Nat) (val : Int) : Option Ipc :=
  if m.sems.key = some semid then some { m with sems := m.sems.set semid val } else none

/-- How `semop` ends with an operation that is not zero. -/
inductive Semop where
  | fails
  | blocks
  | done (m : Ipc)

def semop (m : Ipc) (semid : Nat) (op : Int) : Semop :=
  if m.sems.key = some semid then
    let val := m.sems.objects semid + op
    if val < 0 then .blocks
    else if SEMVMX < val then .fails
    else .done { m with sems := m.sems.set semid val }
  else .fails

def shmRemove (m : Ipc) (shmid : Nat) : Ipc := { m with segs := m.segs.remove shmid }

def semRemove (m : Ipc) (semid : Nat) : Ipc := { m with sems := m.sems.remove semid }

variable {m m' : Ipc} {shmid semid : Nat} {val op : Int}

theorem store_cases (m : Ipc) (shmid i : Nat) (b : UInt8) (id j : Nat) :
    (m.store shmid i b).load id j = m.load id j ∨ j = i ∧ (m.store shmid i b).load id j = b := by
  by_cases hid : id = shmid
  · subst hid
    by_cases hj : j = i
    · subst hj
      exact Or.inr ⟨rfl, by simp [load, store]⟩
    · exact Or.inl (by simp [load, store, hj])
  · exact Or.inl (by rw [load, store, Table.set_of_ne hid, load])

theorem shmat_eq (h : m.shmat shmid = some m') :
    ∃ n, m' = { m with segs := m.segs.set shmid ⟨(m.segs.objects shmid).bytes, n⟩ } := by
  simp only [shmat] at h
  split at h <;> cases h
  exact ⟨_, rfl⟩

theorem setval_eq (h : m.setval semid val = some m') :
    m.sems.key = some semid ∧ m' = { m with sems := m.sems.set semid val } := by
  unfold setval at h
  split at h <;> cases h
  exact ⟨by assumption, rfl⟩

theorem semop_done (h : m.semop semid op = .done m') :
    m.sems.key = some semid ∧ 0 ≤ m.sems.objects semid + op ∧
      m' = { m with sems := m.sems.set semid (m.sems.objects semid + op) } := by
  unfold semop at h
  split at h
  next hkey =>
    dsimp only at h
    split at h
    next => cases h
    next hval =>
      split at h <;> cases h
      exact ⟨hkey, Int.not_lt.mp hval, rfl⟩
  next => cases h

theorem load_attached (m : Ipc) (shmid n : Nat) :
    ({ m with segs := m.segs.set shmid ⟨(m.segs.objects shmid).bytes, n⟩ } : Ipc).load = m.load := by
  funext id j
  by_cases hid : id = shmid
  · subst hid
    rw [load, Table.set_self, load]
  · rw [load, Table.set_of_ne hid, load]

theorem load_shmget (m : Ipc) (id j : Nat) :
    m.shmget.2.load id j = m.load id j ∨ m.shmget.2.load id j = 0 := by
  rcases Table.get_objects m.segs ⟨fun _ => 0, 0⟩ id with hold | hnew
  · exact Or.inl (congrArg (fun seg => seg.bytes j) hold)
  · exact Or.inr (congrArg (fun seg => seg.bytes j) hnew)

theorem load_shmat (h : m.shmat shmid = some m') : m'.load = m.load := by
  obtain ⟨n, rfl⟩ := shmat_eq h
  exact load_attached m shmid n

theorem load_shmdt (m : Ipc) (shmid : Nat) : (m.shmdt shmid).load = m.load :=
  load_attached m shmid _

theorem load_shmRemove (m : Ipc) (shmid : Nat) : (m.shmRemove shmid).load = m.load := by
  funext id j
  rw [load, shmRemove, Table.remove_objects, load]

theorem load_setval (h : m.setval semid val = some m') : m'.load = m.load := by
  obtain ⟨-, rfl⟩ := setval_eq h
  rfl

theorem load_semop (h : m.semop semid op = .done m') : m'.load = m.load := by
  obtain ⟨-, -, rfl⟩ := semop_done h
  rfl

end Ipc

end SystemV
