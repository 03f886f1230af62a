import LinuxAssignment.StepSystem
import Mathlib.Algebra.Ring.Nat
import Mathlib.Logic.Function.Basic

namespace LinuxAssignment.ProcessTree

open StepSystem

/-- The function that a process runs. -/
inductive Role where
  | main
  | parentProcess
  | childrenProcess
  deriving DecidableEq

/-- Where a process is: at the head of its loop of forks or of its loop of waits, before its first
message, in `sleep`, before its last message, before its return or exit. -/
inductive Pc where
  | fork (i : Nat)
  | wait (i : Nat)
  | created
  | sleep
  | message
  | exit
  deriving DecidableEq

/-- A terminated process is a zombie until it is reaped, by its creator or by the `init` process. -/
inductive Life where
  | running (pc : Pc)
  | zombie
  | reaped (reaper : Option Nat)
  deriving DecidableEq

/-- A process; `slots` is its local array `parent` or `children`, and `creator` is the place in the
list of all processes of the one that forked it. -/
structure Process where
  role : Role
  creator : Option Nat
  pid : Int
  slots : Nat → Int
  life : Life

/-- All processes so far, in the order of their creation. -/
abbrev State := List Process

inductive Act where
  | fork (k : Nat) (pid : Int) (junk : Nat → Int)
  | forkFails (k : Nat)
  | waitpid (k : Nat) (reaps : Option Nat)
  | go (k : Nat)
  | init (c : Nat)

def start (pid : Int) (junk : Nat → Int) : State := [⟨.main, none, pid, junk, .running (.fork 0)⟩]

def Role.born : Role → Role
  | .main => .parentProcess
  | .parentProcess | .childrenProcess => .childrenProcess

def Role.entry : Role → Pc
  | .main | .parentProcess => .fork 0
  | .childrenProcess => .created

/-- The process id is in use. -/
def Process.Present (p : Process) : Prop := ∀ r, p.life ≠ .reaped r

instance (p : Process) : Decidable p.Present :=
  match h : p.life with
  | .running _ => isTrue (by simp [Process.Present, h])
  | .zombie => isTrue (by simp [Process.Present, h])
  | .reaped r => isFalse fun hp => hp r h

def Process.Running (p : Process) : Prop := ∃ pc, p.life = .running pc

instance (p : Process) : Decidable p.Running :=
  match h : p.life with
  | .running pc => isTrue ⟨pc, h⟩
  | .zombie => isFalse fun ⟨_, hp⟩ => by cases h.symm.trans hp
  | .reaped _ => isFalse fun ⟨_, hp⟩ => by cases h.symm.trans hp

section

variable (x y : Nat) (pgid : Int)

/-- How often the two loops of a process run. -/
def limit : Role → Nat
  | .main => x
  | .parentProcess => y
  | .childrenProcess => 0

/-- Whether `waitpid(p, ..)` asks for a child with this id, where all processes are in one group. -/
def Matches (p pid : Int) : Prop := if 0 < p then p = pid else p = 0 ∨ p = -1 ∨ -p = pgid

instance (p pid : Int) : Decidable (Matches pgid p pid) :=
  inferInstanceAs (Decidable (if 0 < p then p = pid else p = 0 ∨ p = -1 ∨ -p = pgid))

/-- The next place of a process that neither forks nor waits there. -/
def proceed (role : Role) : Pc → Option Life
  | .fork i => if i < limit x y role then none else some (.running (.wait 0))
  | .wait i => if i < limit x y role then none else some (.running .message)
  | .created => some (.running .sleep)
  | .sleep => some (.running .message)
  | .message => some (.running .exit)
  | .exit => some .zombie

def step (s : State) : Act → Option State
  | .fork k pid junk =>
    match s[k]? with
    | some ⟨role, creator, own, slots, .running (.fork i)⟩ =>
      if i < limit x y role ∧ 0 < pid ∧ ∀ q ∈ s, q.Present → q.pid ≠ pid then
        some (s.set k ⟨role, creator, own, Function.update slots i pid, .running (.fork (i + 1))⟩ ++
          [⟨role.born, some k, pid, junk, .running role.born.entry⟩])
      else none
    | _ => none
  | .forkFails k =>
    match s[k]? with
    | some ⟨role, creator, own, slots, .running (.fork i)⟩ =>
      if i < limit x y role then
        some (s.set k ⟨role, creator, own, slots, .running (.fork (i + 1))⟩)
      else none
    | _ => none
  | .waitpid k reaps =>
    match s[k]? with
    | some ⟨role, creator, own, slots, .running (.wait i)⟩ =>
      if i < limit x y role then
        match reaps with
        | none =>
          -- an error at once
          if ∀ q ∈ s, q.creator = some k → q.Present → ¬ Matches pgid (slots i) q.pid then
            some (s.set k ⟨role, creator, own, slots, .running (.wait (i + 1))⟩)
          else none
        | some c =>
          match s[c]? with
          | some q =>
            if q.creator = some k ∧ q.life = .zombie ∧ Matches pgid (slots i) q.pid then
              some ((s.set c { q with life := .reaped (some k) }).set k
                ⟨role, creator, own, slots, .running (.wait (i + 1))⟩)
            else none
          | none => none
      else none
    | _ => none
  | .go k =>
    match s[k]? with
    | some ⟨role, creator, own, slots, .running pc⟩ =>
      (proceed x y role pc).map fun life => s.set k ⟨role, creator, own, slots, life⟩
    | _ => none
  | .init c =>
    match s[c]? with
    | some q =>
      if q.life = .zombie ∧ ∃ k, q.creator = some k ∧ ∃ p, s[k]? = some p ∧ ¬ p.Running then
        some (s.set c { q with life := .reaped none })
      else none
    | none => none

end

/-- A call of `fork` by one process, however it ends. -/
def Act.ForkBy (k : Nat) : Act → Prop
  | .fork j _ _ | .forkFails j => j = k
  | _ => False

instance (k : Nat) : (a : Act) → Decidable (a.ForkBy k)
  | .fork j _ _ | .forkFails j => inferInstanceAs (Decidable (j = k))
  | .waitpid _ _ | .go _ | .init _ => isFalse id

def forkCalls (past : List (Event State Act)) (k : Nat) : Nat :=
  past.countP fun e => e.label.ForkBy k

/-- The slot `j` is filled, and not yet waited for. -/
def Life.Keeps (j : Nat) : Life → Prop
  | .running (.fork i) => j < i
  | .running (.wait i) => i ≤ j
  | _ => False

/-- A wait for this id is still to come. -/
def Process.Awaits (x y : Nat) (p : Process) (pid : Int) : Prop :=
  ∃ j < limit x y p.role, p.slots j = pid ∧ p.life.Keeps j

structure Tree (x y : Nat) (s : State) : Prop where
  root : ∃ p, s[0]? = some p ∧ p.role = .main ∧ p.creator = none
  born : ∀ {c : Nat} {q : Process}, s[c]? = some q → c ≠ 0 → 0 < q.pid ∧ ∃ k p, q.creator = some k ∧
    s[k]? = some p ∧ q.role = p.role.born
  pids : ∀ {j k : Nat} {p q : Process}, s[j]? = some p → s[k]? = some q → p.Present → q.Present → p.pid = q.pid →
    j = k
  awaited : ∀ {c k : Nat} {p q : Process}, s[c]? = some q → q.creator = some k → s[k]? = some p → q.Present →
    p.Awaits x y q.pid
  reaped : ∀ {c : Nat} {q : Process} {r : Option Nat}, s[c]? = some q → q.life = .reaped r → q.creator ≠ none ∧ r = q.creator

/-- How many processes there are for each `fork`, its own children included. -/
def Role.brood (y : Nat) : Role → Nat
  | .main => 1 + y
  | .parentProcess | .childrenProcess => 1

/-- How many processes may still come of one, its children's children included. -/
def Process.room (x y : Nat) (p : Process) : Nat :=
  match p.life with
  | .running (.fork i) => (limit x y p.role - i) * p.role.brood y
  | _ => 0

def Bounded (x y : Nat) (s : State) : Prop :=
  s.length + (s.map (Process.room x y)).sum ≤ 1 + x * (1 + y)

/-- Each process has called `fork` once for each turn of its first loop. -/
structure Calls (x y : Nat) (calls : Nat → Nat) (s : State) : Prop where
  le : ∀ {k : Nat} {p : Process}, s[k]? = some p → calls k ≤ limit x y p.role
  looped : ∀ {k i : Nat} {p : Process}, s[k]? = some p → p.life = .running (.fork i) → calls k = i
  unborn : ∀ {k : Nat}, s.length ≤ k → calls k = 0

inductive Moves (x y : Nat) (pgid : Int) (s : State) : Act → State → Prop
  | fork {k role creator own slots i pid junk} :
      s[k]? = some ⟨role, creator, own, slots, .running (.fork i)⟩ → i < limit x y role → 0 < pid →
      (∀ q ∈ s, q.Present → q.pid ≠ pid) →
      Moves x y pgid s (.fork k pid junk)
        (s.set k ⟨role, creator, own, Function.update slots i pid, .running (.fork (i + 1))⟩ ++
          [⟨role.born, some k, pid, junk, .running role.born.entry⟩])
  | forkFails {k role creator own slots i} :
      s[k]? = some ⟨role, creator, own, slots, .running (.fork i)⟩ → i < limit x y role →
      Moves x y pgid s (.forkFails k)
        (s.set k ⟨role, creator, own, slots, .running (.fork (i + 1))⟩)
  | waitError {k role creator own slots i} :
      s[k]? = some ⟨role, creator, own, slots, .running (.wait i)⟩ →
      (∀ q ∈ s, q.creator = some k → q.Present → ¬ Matches pgid (slots i) q.pid) →
      Moves x y pgid s (.waitpid k none)
        (s.set k ⟨role, creator, own, slots, .running (.wait (i + 1))⟩)
  | reap {k role creator own slots i c child junk childRole} :
      s[k]? = some ⟨role, creator, own, slots, .running (.wait i)⟩ →
      s[c]? = some ⟨childRole, some k, child, junk, .zombie⟩ → Matches pgid (slots i) child →
      Moves x y pgid s (.waitpid k (some c))
        ((s.set c ⟨childRole, some k, child, junk, .reaped (some k)⟩).set k
          ⟨role, creator, own, slots, .running (.wait (i + 1))⟩)
  | go {k role creator own slots pc life} :
      s[k]? = some ⟨role, creator, own, slots, .running pc⟩ → proceed x y role pc = some life →
      Moves x y pgid s (.go k) (s.set k ⟨role, creator, own, slots, life⟩)
  | init {c k p q} : s[c]? = some q → q.life = .zombie → q.creator = some k → s[k]? = some p →
      ¬ p.Running → Moves x y pgid s (.init c) (s.set c { q with life := .reaped none })

section

variable {x y : Nat} {pgid : Int} {s s' : State} {a : Act} {j k c : Nat} {p q : Process}

theorem get_set {l : List Process} (h : (l.set k p)[j]? = some q) :
    j = k ∧ q = p ∨ j ≠ k ∧ l[j]? = some q := by
  rw [List.getElem?_set] at h
  split at h
  next hkj =>
    split at h
    next => exact Or.inl ⟨hkj.symm, (Option.some.inj h).symm⟩
    next => cases h
  next hkj => exact Or.inr ⟨Ne.symm hkj, h⟩

theorem set_get (hk : s[k]? = some q) : (s.set k p)[k]? = some p := by
  obtain ⟨hlt, -⟩ := List.getElem?_eq_some_iff.mp hk
  rw [List.getElem?_set_self hlt]

theorem set_get_ne (h : j ≠ k) : (s.set k p)[j]? = s[j]? := List.getElem?_set_ne (Ne.symm h)

theorem sum_set (f : Process → Nat) (hk : s[k]? = some p) :
    ((s.set k q).map f).sum + f p = (s.map f).sum + f q := by
  induction s generalizing k with
  | nil => cases hk
  | cons r s ih =>
    cases k with
    | zero =>
      cases hk
      simp only [List.set_cons_zero, List.map_cons, List.sum_cons]
      omega
    | succ k =>
      have hrest := ih (k := k) hk
      simp only [List.set_cons_succ, List.map_cons, List.sum_cons]
      omega

theorem moves_of_step (h : step x y pgid s a = some s') : Moves x y pgid s a s' := by
  cases a with
  | fork k pid junk =>
    simp only [step] at h
    split at h
    next hk =>
      obtain ⟨⟨hi, hpid, hfresh⟩, h⟩ := Option.ite_none_right_eq_some.mp h
      cases h
      exact .fork hk hi hpid hfresh
    next => cases h
  | forkFails k =>
    simp only [step] at h
    split at h
    next hk =>
      obtain ⟨hi, h⟩ := Option.ite_none_right_eq_some.mp h
      cases h
      exact .forkFails hk hi
    next => cases h
  | waitpid k reaps =>
    simp only [step] at h
    split at h
    next hk =>
      obtain ⟨hi, h⟩ := Option.ite_none_right_eq_some.mp h
      cases reaps with
      | none =>
        obtain ⟨hnone, h⟩ := Option.ite_none_right_eq_some.mp h
        cases h
        exact .waitError hk hnone
      | some c =>
        dsimp only at h
        split at h
        next q hc =>
          obtain ⟨⟨hcreator, hlife, hmatch⟩, h⟩ := Option.ite_none_right_eq_some.mp h
          cases h
          obtain ⟨role, creator, pid, slots, life⟩ := q
          cases hcreator
          cases hlife
          exact .reap hk hc hmatch
        next => cases h
    next => cases h
  | go k =>
    simp only [step] at h
    split at h
    next hk =>
      obtain ⟨life, hlife, rfl⟩ := Option.map_eq_some_iff.mp h
      exact .go hk hlife
    next => cases h
  | init c =>
    simp only [step] at h
    split at h
    next q hc =>
      obtain ⟨⟨hlife, k, hcreator, p, hp, hstopped⟩, h⟩ := Option.ite_none_right_eq_some.mp h
      cases h
      exact .init hc hlife hcreator hp hstopped
    next => cases h

end

end LinuxAssignment.ProcessTree
