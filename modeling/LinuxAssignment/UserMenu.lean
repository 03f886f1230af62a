import LinuxAssignment.Stdio

namespace LinuxAssignment.UserMenu

open ByteMemory Stdio

abbrev bufferSize : Nat := 1024

theorem bufferSize_eq : bufferSize = 1024 := rfl

/-- The system calls of the loop on its one file descriptor. -/
inductive SysCall where
  | write (bytes : List UInt8)
  | read (len : Nat)
  | close
  deriving DecidableEq

/-- The lines the loop prints; `dataRead` has the string that stands for `%s`, `dataOverrun` the bytes
of a `read_buf` without a NUL, behind which `%s` goes on. -/
inductive Printed where
  | menu
  | prompt
  | writeFailed
  | writeSuccessful
  | readFailed
  | dataRead (text : List UInt8)
  | dataOverrun (bytes : List UInt8)
  | exiting
  | invalidOption (option : UInt8)
  deriving DecidableEq

/-- The standard input not yet read, the local `option` and the global `write_buf`. -/
structure User where
  input : List UInt8
  option : UInt8
  writeBuf : Memory

/-- What a kernel makes of a system call: its return value, and the bytes it stored for a `read`. -/
abbrev Kernel (σ : Type) := σ → SysCall → σ × Int × List UInt8

structure Turn (σ : Type) where
  user : User
  kernel : σ
  calls : List SysCall
  printed : List Printed
  exits : Bool

/-- The line for what `read_buf` holds. -/
def dataLine (buf : Memory) : Printed :=
  if 0 ∈ slice buf 0 bufferSize then .dataRead (cString buf 0 bufferSize)
  else .dataOverrun (slice buf 0 bufferSize)

section

variable {σ : Type} (kernel : Kernel σ)

def writeOption (u : User) (s : σ) : Turn σ :=
  let r := fgets u.writeBuf 0 bufferSize u.input
  let buf := Function.update r.1 (strcspn r.1 0 bufferSize [newline]) 0
  let call := .write (slice buf 0 (strlen buf 0 bufferSize + 1))
  let k := kernel s call
  ⟨⟨r.2, u.option, buf⟩, k.1, [call],
    [.menu, .prompt, if k.2.1 < 0 then .writeFailed else .writeSuccessful], false⟩

def readOption (u : User) (s : σ) : Turn σ :=
  let k := kernel s (.read bufferSize)
  let buf := blit (fun _ => 0) 0 k.2.2
  ⟨u, k.1, [.read bufferSize],
    [.menu, if k.2.1 < 0 then .readFailed else dataLine buf], false⟩

def exitOption (u : User) (s : σ) : Turn σ :=
  ⟨u, (kernel s .close).1, [.close], [.menu, .exiting], true⟩

/-- One pass of `while(1)`, from the menu to the end of the `switch`. -/
def turn (u : User) (s : σ) : Turn σ :=
  let r := scanfChar u.input u.option
  let u' := ⟨getchar r.2, r.1, u.writeBuf⟩
  if r.1 = 49 then writeOption kernel u' s
  else if r.1 = 50 then readOption kernel u' s
  else if r.1 = 51 then exitOption kernel u' s
  else ⟨u', s, [], [.menu, .invalidOption r.1], false⟩

/-- The first passes of the loop, at most `n`. -/
def turns : Nat → User → σ → List (Turn σ)
  | 0, _, _ => []
  | n + 1, u, s =>
    let t := turn kernel u s
    t :: if t.exits then [] else turns n t.user t.kernel

end

/-- What the person at the menu asks for. -/
inductive Command where
  | write (text : List UInt8)
  | read
  deriving DecidableEq

/-- The keys typed for a command, as the prompts ask. -/
def Command.keys : Command → List UInt8
  | .write text => 49 :: newline :: (text ++ [newline])
  | .read => [50, newline]

def Command.text : Command → Option (List UInt8)
  | .write text => some text
  | .read => none

/-- A text without NUL or newline that leaves room for the newline and the NUL. -/
def Command.Fits : Command → Prop
  | .write text => text.length ≤ bufferSize - 2 ∧ 0 ∉ text ∧ newline ∉ text
  | .read => True

instance : (c : Command) → Decidable c.Fits
  | .write text => inferInstanceAs (Decidable (text.length ≤ bufferSize - 2 ∧ 0 ∉ text ∧ newline ∉ text))
  | .read => inferInstanceAs (Decidable True)

/-- The system call that a command asks for, its text cut to the buffer. -/
def Command.call : Command → SysCall
  | .write text => .write (text.take (bufferSize - 1) ++ [0])
  | .read => .read bufferSize

/-- What the line of a text has behind the characters that `fgets` takes. -/
def Command.overflow : Command → List UInt8
  | .write text => text.drop (bufferSize - 1)
  | .read => []

/-- What the pass for a command leaves of its keys and the input behind them. -/
def Command.unread (c : Command) (rest : List UInt8) : List UInt8 :=
  match c with
  | .write text =>
    if text.length < bufferSize - 1 then rest else (Command.write text).overflow ++ newline :: rest
  | .read => rest

def Command.Clean : Command → Prop
  | .write text => 0 ∉ text ∧ newline ∉ text
  | .read => True

instance : (c : Command) → Decidable c.Clean
  | .write text => inferInstanceAs (Decidable (0 ∉ text ∧ newline ∉ text))
  | .read => isTrue trivial

section

variable {σ : Type} {kernel : Kernel σ} {u : User} {s : σ} {rest text : List UInt8}

theorem dataLine_cases (buf : Memory) :
    (∃ text, dataLine buf = .dataRead text) ∨ ∃ bytes, dataLine buf = .dataOverrun bytes := by
  unfold dataLine
  split
  next => exact Or.inl ⟨_, rfl⟩
  next => exact Or.inr ⟨_, rfl⟩

/-- The buffer and the input once `fgets` has read a text. -/
theorem fgets_text (m : Memory) (rest : List UInt8) (hline : newline ∉ text) :
    ∃ b, (b = newline ∨ b = 0) ∧
      (fgets m 0 bufferSize (text ++ newline :: rest)).2 = (Command.write text).unread rest ∧
      slice (fgets m 0 bufferSize (text ++ newline :: rest)).1 0
        ((text.take (bufferSize - 1)).length + 1) = text.take (bufferSize - 1) ++ [b] := by
  have hB := bufferSize_eq
  by_cases hlen : text.length < bufferSize - 1
  · rw [fgets_line hline hlen, List.take_of_length_le (Nat.le_of_lt hlen), Command.unread, if_pos hlen]
    refine ⟨newline, Or.inl rfl, rfl, ?_⟩
    have hslice := slice_blit_self m 0 (text ++ [newline] ++ [0])
    rw [List.length_append] at hslice
    have hline := (slice_append _ _ hslice).1
    rwa [List.length_append, List.length_singleton] at hline
  · rw [fgets_long hline (by omega) (Nat.not_lt.mp hlen), Command.unread, if_neg hlen]
    refine ⟨0, Or.inr rfl, rfl, ?_⟩
    have hslice := slice_blit_self m 0 (text.take (bufferSize - 1) ++ [0])
    rwa [List.length_append, List.length_singleton] at hslice

/-- A pass that serves a Write takes of its line what fits, and writes that with a NUL. -/
theorem turn_text (kernel : Kernel σ) (s : σ)
    (h : u.input.dropWhile isSpace = (Command.write text).keys ++ rest)
    (hclean : (Command.write text).Clean) :
    ∃ buf, turn kernel u s = ⟨⟨(Command.write text).unread rest, 49, buf⟩,
      (kernel s (Command.write text).call).1, [(Command.write text).call], [.menu, .prompt,
        if (kernel s (Command.write text).call).2.1 < 0 then .writeFailed else .writeSuccessful],
      false⟩ := by
  obtain ⟨hnul, hline⟩ := hclean
  have hB := bufferSize_eq
  have hscan : scanfChar u.input u.option = (49, newline :: (text ++ newline :: rest)) := by
    refine scanfChar_skip ?_ _
    rw [h]
    simp [Command.keys]
  obtain ⟨b, hb, hrest, hslice⟩ := fgets_text u.writeBuf rest hline
  generalize hm : fgets u.writeBuf 0 bufferSize (text ++ newline :: rest) = r at hrest hslice
  have hlen : (text.take (bufferSize - 1)).length < bufferSize := by
    rw [List.length_take]
    omega
  have hspan : strcspn r.1 0 bufferSize [newline] = (text.take (bufferSize - 1)).length := by
    refine strcspn_eq hslice hlen (fun c hc => ⟨?_, ?_⟩) ?_
    · rintro rfl
      exact hnul (List.mem_of_mem_take hc)
    · intro hmem
      exact hline (List.mem_of_mem_take (List.mem_singleton.mp hmem ▸ hc))
    · rcases hb with rfl | rfl
      · exact Or.inr (by simp)
      · exact Or.inl rfl
  have hterm := slice_terminated hslice
  rw [Nat.zero_add] at hterm
  have hstr : strlen (Function.update r.1 (text.take (bufferSize - 1)).length 0) 0 bufferSize =
      (text.take (bufferSize - 1)).length :=
    strlen_eq hterm hlen fun h0 => hnul (List.mem_of_mem_take h0)
  refine ⟨Function.update r.1 (text.take (bufferSize - 1)).length 0, ?_⟩
  simp only [turn, hscan, getchar, List.tail_cons, ↓reduceIte, writeOption, hm, hspan, hstr, hterm,
    hrest]
  rfl

end

end LinuxAssignment.UserMenu
