import LinuxAssignment.Interleaving
import LinuxAssignment.Stdio
import LinuxAssignment.SystemV
import Mathlib.Data.Fintype.Basic

namespace LinuxAssignment.SharedLine

open ByteMemory StepSystem Stdio SystemV

abbrev shmSize : Nat := 1024

structure Ids where
  shmid : Nat
  semid : Nat

/-- Where a run of the writer is: before a system call, or before its next access to the segment. -/
inductive WriterPc where
  | shmget
  | semget (shmid : Nat)
  | semctl (ids : Ids)
  | shmat (ids : Ids)
  | fgets (ids : Ids) (i : Nat)
  | strcspn (ids : Ids) (i : Nat)
  | terminate (ids : Ids) (i : Nat)
  | printf (ids : Ids) (i : Nat)
  | semop (ids : Ids)
  | shmdt (ids : Ids)
  | exited (status : Nat)

/-- Where a run of the reader is; `line` is what `printf` has read of the string. -/
inductive ReaderPc where
  | shmget
  | semget (shmid : Nat)
  | semop (ids : Ids)
  | shmat (ids : Ids)
  | printf (ids : Ids) (line : List UInt8)
  | shmdt (ids : Ids)
  | shmctl (ids : Ids)
  | semctl (ids : Ids)
  | exited (status : Nat)

/-- What `fgets` stores; at the end of the input it stores nothing. -/
def fgetsBytes (stdin : List UInt8) : List UInt8 :=
  let line := lineOf (shmSize - 1) stdin
  if line = [] then [] else line ++ [0]

def writerMain (stdin : List UInt8) (m : Ipc) : WriterPc → Option (Ipc × WriterPc)
  | .shmget => some (m.shmget.2, .semget m.shmget.1)
  | .semget shmid => some (m.semget.2, .semctl ⟨shmid, m.semget.1⟩)
  | .semctl ids =>
    match m.setval ids.semid 0 with
    | none => some (m, .exited 1)
    | some m' => some (m', .shmat ids)
  | .shmat ids =>
    match m.shmat ids.shmid with
    | none => some (m, .exited 1)
    | some m' => some (m', .fgets ids 0)
  | .fgets ids i =>
    match (fgetsBytes stdin)[i]? with
    | none => some (m, .strcspn ids 0)
    | some b => some (m.store ids.shmid i b, .fgets ids (i + 1))
  | .strcspn ids i =>
    if m.load ids.shmid i = 0 ∨ m.load ids.shmid i = newline then some (m, .terminate ids i)
    else some (m, .strcspn ids (i + 1))
  | .terminate ids i => some (m.store ids.shmid i 0, .printf ids 0)
  | .printf ids i =>
    if m.load ids.shmid i = 0 then some (m, .semop ids) else some (m, .printf ids (i + 1))
  | .semop ids =>
    match m.semop ids.semid 1 with
    | .fails => some (m.shmdt ids.shmid, .exited 1)
    | .blocks => none
    | .done m' => some (m', .shmdt ids)
  | .shmdt ids => some (m.shmdt ids.shmid, .exited 0)
  | .exited _ => none

def readerMain (m : Ipc) : ReaderPc → Option (Ipc × ReaderPc)
  | .shmget =>
    match m.segs.key with
    | none => some (m, .exited 1)
    | some shmid => some (m, .semget shmid)
  | .semget shmid =>
    match m.sems.key with
    | none => some (m, .exited 1)
    | some semid => some (m, .semop ⟨shmid, semid⟩)
  | .semop ids =>
    match m.semop ids.semid (-1) with
    | .fails => some (m, .exited 1)
    | .blocks => none
    | .done m' => some (m', .shmat ids)
  | .shmat ids =>
    match m.shmat ids.shmid with
    | none => some (m, .exited 1)
    | some m' => some (m', .printf ids [])
  | .printf ids line =>
    let b := m.load ids.shmid line.length
    if b = 0 then some (m, .shmdt ids) else some (m, .printf ids (line ++ [b]))
  | .shmdt ids => some (m.shmdt ids.shmid, .shmctl ids)
  | .shmctl ids => some (m.shmRemove ids.shmid, .semctl ids)
  | .semctl ids => some (m.semRemove ids.semid, .exited 0)
  | .exited _ => none

inductive Proc where
  | writer (stdin : List UInt8) (pc : WriterPc)
  | reader (pc : ReaderPc)

def next (m : Ipc) (p : Proc) (_ : Unit) : Option (Ipc × Proc) :=
  match p with
  | .writer stdin pc => (writerMain stdin m pc).map fun r => (r.1, .writer stdin r.2)
  | .reader pc => (readerMain m pc).map fun r => (r.1, .reader r.2)

abbrev Run (κ : Type) := Interleaving.State κ Ipc Proc

abbrev RunEvent (κ : Type) := Event (Run κ) (κ × Unit)

/-- Writers with their input, and readers (`none`); there are no objects yet. -/
def start {κ : Type} (input : κ → Option (List UInt8)) : Run κ :=
  ⟨.empty, fun k => match input k with
    | some stdin => .writer stdin .shmget
    | none => .reader .shmget⟩

/-- The line of a writer's input that it hands over: what fits, up to a newline or NUL. -/
def typed (stdin : List UInt8) : List UInt8 :=
  (lineOf (shmSize - 1) stdin).takeWhile fun b => b ≠ 0 ∧ b ≠ newline

section

variable {κ : Type}

/-- The line that a writer has finished storing after this event. -/
def finished (e : RunEvent κ) : Option (List UInt8) :=
  match e.before.procs e.label.1 with
  | .writer stdin (.terminate _ _) => some (typed stdin)
  | _ => none

def Stored (past : List (RunEvent κ)) (line : List UInt8) : Prop :=
  ∃ e ∈ past, finished e = some line

/-- Some writer's `fgets` has this byte at this place of its line. -/
def SomeByte (past : List (RunEvent κ)) (i : Nat) (b : UInt8) : Prop :=
  ∃ e ∈ past, ∃ stdin ids j, e.before.procs e.label.1 = .writer stdin (.fgets ids j) ∧
    (lineOf (shmSize - 1) stdin)[i]? = some b

/-- In this event a reader's `printf` has read the whole string. -/
def Prints (e : RunEvent κ) (line : List UInt8) : Prop :=
  ∃ ids, e.before.procs e.label.1 = .reader (.printf ids line) ∧
    e.after.procs e.label.1 = .reader (.shmdt ids)

/-- A writer from the first effect of its `fgets` to its `semop`, and a reader from its `semop` to
its end. -/
def Proc.Busy : Proc → Prop
  | .writer _ (.fgets _ i) => 0 < i
  | .writer _ (.strcspn _ _) | .writer _ (.terminate _ _) | .writer _ (.printf _ _) => True
  | .writer _ (.semop _) => True
  | .reader (.shmat _) | .reader (.printf _ _) | .reader (.shmdt _) | .reader (.shmctl _) => True
  | .reader (.semctl _) => True
  | _ => False

instance : (p : Proc) → Decidable p.Busy
  | .writer _ (.fgets _ i) => inferInstanceAs (Decidable (0 < i))
  | .writer _ (.strcspn _ _) | .writer _ (.terminate _ _) | .writer _ (.printf _ _) => isTrue trivial
  | .writer _ (.semop _) => isTrue trivial
  | .reader (.shmat _) | .reader (.printf _ _) | .reader (.shmdt _) => isTrue trivial
  | .reader (.shmctl _) | .reader (.semctl _) => isTrue trivial
  | .writer _ .shmget | .writer _ (.semget _) | .writer _ (.semctl _) => isFalse id
  | .writer _ (.shmat _) | .writer _ (.shmdt _) | .writer _ (.exited _) => isFalse id
  | .reader .shmget | .reader (.semget _) | .reader (.semop _) | .reader (.exited _) => isFalse id

/-- The condition on an interleaving: a writer's `fgets` takes effect first while no process is
busy, the semaphore is zero and the writer's segment is not removed. -/
def BeginsAlone (s : Run κ) (a : κ × Unit) : Prop :=
  match s.procs a.1 with
  | .writer _ (.fgets ids 0) =>
    (∀ j, ¬ (s.procs j).Busy) ∧ (∀ semid ∈ s.shared.sems.key, s.shared.sems.objects semid = 0) ∧
      s.shared.segs.key = some ids.shmid
  | _ => True

instance [Fintype κ] (s : Run κ) (a : κ × Unit) : Decidable (BeginsAlone s a) := by
  unfold BeginsAlone
  split <;> infer_instance

end

end LinuxAssignment.SharedLine
