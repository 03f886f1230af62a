import LinuxAssignment.UserExit

namespace LinuxAssignment.UserMenu

open ByteMemory Stdio

/-- The keys of the commands and of an Exit behind them. -/
def render (cmds : List Command) : List UInt8 := cmds.flatMap Command.keys ++ [51, newline]

/-- Behind what fits into the buffer the text has white space only. -/
def Command.BlankOverflow (c : Command) : Prop := ∀ b ∈ c.overflow, isSpace b = true

instance (c : Command) : Decidable c.BlankOverflow :=
  List.decidableBAll (fun b => isSpace b = true) c.overflow

/-- The loop issues the system calls of the commands and of the Exit, and behind each command it
looks for its next option where the next command begins. -/
def Framed {σ : Type} (kernel : Kernel σ) (u : User) (s : σ) (cmds : List Command) : Prop :=
  ∀ n, cmds.length < n →
    (turns kernel n u s).flatMap Turn.calls = cmds.map Command.call ++ [.close] ∧
    ∀ i t, (turns kernel n u s)[i]? = some t → i < cmds.length →
      t.user.input.dropWhile isSpace = render (cmds.drop (i + 1))

section

variable {σ : Type} {kernel : Kernel σ} {u : User} {s : σ} {rest text : List UInt8}
  {c : Command} {cmds : List Command}

theorem render_ne_space (cmds : List Command) : (render cmds).dropWhile isSpace = render cmds := by
  cases cmds with
  | nil => rfl
  | cons c cmds => cases c <;> rfl

theorem turn_command (kernel : Kernel σ) (s : σ) (h : u.input.dropWhile isSpace = c.keys ++ rest)
    (hclean : c.Clean) :
    ∃ t, turn kernel u s = t ∧ t.user.input = c.unread rest ∧ t.calls = [c.call] ∧
      t.exits = false := by
  cases c with
  | write text =>
    obtain ⟨buf, hturn⟩ := turn_text kernel s h hclean
    exact ⟨_, hturn, rfl, rfl, rfl⟩
  | read =>
    have hscan : scanfChar u.input u.option = (50, newline :: rest) := scanfChar_skip h _
    refine ⟨turn kernel u s, rfl, ?_⟩
    simp only [turn, hscan, getchar, List.tail_cons, readOption]
    exact ⟨rfl, rfl, rfl⟩

theorem unread_blank (h : c.BlankOverflow) :
    (c.unread rest).dropWhile isSpace = rest.dropWhile isSpace := by
  cases c with
  | read => rfl
  | write text =>
    rw [Command.unread]
    split
    next => rfl
    next => exact List.dropWhile_append_of_pos h

/-- A character that is no white space stays in front of what is behind the command. -/
theorem unread_not_blank (h : ¬ c.BlankOverflow) : (c.unread rest).dropWhile isSpace ≠ rest := by
  cases c with
  | read => exact absurd (fun b hb => absurd hb List.not_mem_nil) h
  | write text =>
    have hlong : ¬ text.length < bufferSize - 1 := by
      intro hlen
      refine h fun b hb => ?_
      rw [Command.overflow, List.drop_of_length_le (Nat.le_of_lt hlen)] at hb
      exact absurd hb List.not_mem_nil
    have hkept : ¬ ((Command.write text).overflow.dropWhile isSpace).isEmpty = true := by
      rw [List.isEmpty_iff, List.dropWhile_eq_nil_iff]
      exact h
    rw [Command.unread, if_neg hlong, List.dropWhile_append, if_neg hkept]
    intro heq
    have hlen := congrArg List.length heq
    simp only [List.length_append, List.length_cons] at hlen
    omega

theorem framed_nil (h : u.input.dropWhile isSpace = render []) : Framed kernel u s [] := by
  intro n hn
  obtain ⟨n, rfl⟩ := Nat.exists_eq_succ_of_ne_zero (Nat.ne_of_gt hn)
  have hscan : scanfChar u.input u.option = (51, [newline]) := scanfChar_skip h _
  obtain ⟨hcalls, hexits⟩ := turn_exit kernel s (by rw [hscan])
  refine ⟨?_, fun i t _ hi => absurd hi (Nat.not_lt_zero i)⟩
  simp [turns, hexits, hcalls]

/-- A session is framed when its first pass is and the session behind it is. -/
theorem framed_cons (h : u.input.dropWhile isSpace = render (c :: cmds)) (hclean : c.Clean) :
    Framed kernel u s (c :: cmds) ↔
      (c.unread (render cmds)).dropWhile isSpace = render cmds ∧
        Framed kernel (turn kernel u s).user (turn kernel u s).kernel cmds := by
  have hkeys : u.input.dropWhile isSpace = c.keys ++ render cmds := by simp [h, render]
  obtain ⟨t, hturn, hinput, hcalls, hexits⟩ := turn_command kernel s hkeys hclean
  have hturns : ∀ n, turns kernel (n + 1) u s = t :: turns kernel n t.user t.kernel := by
    intro n
    simp [turns, hturn, hexits]
  rw [hturn]
  constructor
  · intro hframed
    refine ⟨?_, fun n hn => ?_⟩
    · obtain ⟨-, hpos⟩ := hframed (cmds.length + 2) (by simp)
      rw [hturns] at hpos
      rw [← hinput]
      exact hpos 0 t rfl (by simp)
    · obtain ⟨hflat, hpos⟩ := hframed (n + 1) (by simpa using hn)
      rw [hturns] at hflat hpos
      refine ⟨?_, fun i t' ht' hi => hpos (i + 1) t' ht' (by simpa using hi)⟩
      simpa [hcalls] using hflat
  · rintro ⟨hfirst, hframed⟩ n hn
    obtain ⟨n, rfl⟩ := Nat.exists_eq_succ_of_ne_zero (Nat.ne_zero_of_lt hn)
    obtain ⟨hflat, hpos⟩ := hframed n (by simpa using hn)
    rw [hturns]
    refine ⟨by simp [hcalls, hflat], fun i t' ht' hi => ?_⟩
    cases i with
    | zero =>
      cases ht'
      rw [hinput]
      exact hfirst
    | succ i => exact hpos i t' ht' (by simpa using hi)

end

/-- The loop takes the rendered commands as they are meant exactly when no text has anything but
white space behind what fits into the buffer. -/
theorem framed_iff {σ : Type} (kernel : Kernel σ) (u : User) (s : σ) {cmds : List Command}
    (hclean : ∀ c ∈ cmds, c.Clean) (hinput : u.input.dropWhile isSpace = render cmds) :
    Framed kernel u s cmds ↔ ∀ c ∈ cmds, c.BlankOverflow := by
  induction cmds generalizing u s with
  | nil => simp [framed_nil hinput]
  | cons c cmds ih =>
    have hc := hclean c List.mem_cons_self
    rw [framed_cons hinput hc, List.forall_mem_cons]
    have hkeys : u.input.dropWhile isSpace = c.keys ++ render cmds := by simp [hinput, render]
    obtain ⟨t, hturn, hinput', -, -⟩ := turn_command kernel s hkeys hc
    have hfirst : (c.unread (render cmds)).dropWhile isSpace = render cmds ↔ c.BlankOverflow := by
      constructor
      · intro h
        by_contra hb
        exact unread_not_blank hb h
      · intro hb
        rw [unread_blank hb, render_ne_space]
    rw [← hfirst]
    refine and_congr_right fun h => ih _ _ (fun d hd => hclean d (List.mem_cons_of_mem c hd)) ?_
    rw [hturn, hinput', h]

/-- The keys of the commands and the Exit on the standard input of a program just started. -/
def atStart (cmds : List Command) : User := ⟨render cmds, 0, fun _ => 0⟩

theorem digits_framed :
    Framed idleKernel (atStart [.write [50, 51], .read, .write []]) ()
      [.write [50, 51], .read, .write []] :=
  (framed_iff idleKernel _ () (by decide) (render_ne_space _)).mpr (by decide)

/-- A text of 1024 characters that ends in the digit of Read. -/
def longText : List UInt8 := List.replicate (bufferSize - 1) 97 ++ [50]

theorem longText_clean : (Command.write longText).Clean := by
  have hmem : ∀ b ∈ longText, b = 97 ∨ b = 50 := fun b hb =>
    (List.mem_append.mp hb).imp List.eq_of_mem_replicate List.mem_singleton.mp
  exact ⟨fun h => absurd (hmem _ h) (by decide), fun h => absurd (hmem _ h) (by decide)⟩

theorem longText_overflow : (Command.write longText).overflow = [50] :=
  List.drop_left' List.length_replicate

/-- The last character of the long text is taken as the next option. -/
theorem longText_not_framed :
    ¬ Framed idleKernel (atStart [.write longText]) () [.write longText] := by
  intro h
  obtain ⟨hfirst, -⟩ := (framed_cons (render_ne_space _) longText_clean).mp h
  refine unread_not_blank (fun hb => ?_) hfirst
  have hspace := hb 50 (by simp [longText_overflow])
  exact absurd hspace (by decide)

end LinuxAssignment.UserMenu
