import Mathlib.Data.List.TakeWhile
import LinuxAssignment.UserMenu

namespace LinuxAssignment.UserMenu

open ByteMemory Stdio

/-- What one pass takes that does not exit: blanks, the option, the character behind it and, for a
Write, a line. -/
def Entry (e : List UInt8) : Prop :=
  ∃ blanks option next line, (∀ b ∈ blanks, isSpace b = true) ∧ isSpace option = false ∧
    option ≠ 51 ∧ e = blanks ++ option :: next :: line ∧
    if option = 49 then FullLine (bufferSize - 1) line else line = []

/-- The option of Exit stands behind whole entries. -/
def ExitTyped (input : List UInt8) : Prop :=
  ∃ (entries : List (List UInt8)) (blanks rest : List UInt8), (∀ e ∈ entries, Entry e) ∧
    (∀ b ∈ blanks, isSpace b = true) ∧ input = entries.flatten ++ blanks ++ 51 :: rest

/-- An Exit is typed, or no option at all and the one never set happens to be that of Exit. -/
def ReachesExit (u : User) : Prop :=
  ExitTyped u.input ∨ (∀ b ∈ u.input, isSpace b = true) ∧ u.option = 51

section

variable {σ : Type} {kernel : Kernel σ} {u : User} {s : σ} {b : UInt8} {e rest : List UInt8}

/-- The input that a pass leaves when its option was `b` with `rest` behind it. -/
def after (b : UInt8) (rest : List UInt8) : List UInt8 :=
  if b = 49 then rest.tail.drop (lineOf (bufferSize - 1) rest.tail).length else rest.tail

theorem turn_key (kernel : Kernel σ) (s : σ) (h : u.input.dropWhile isSpace = b :: rest)
    (hb : b ≠ 51) :
    (turn kernel u s).user.input = after b rest ∧ (turn kernel u s).user.option = b ∧
      (turn kernel u s).exits = false := by
  have hscan : scanfChar u.input u.option = (b, rest) := scanfChar_skip h _
  simp only [turn, hscan, getchar, after]
  split
  next => exact ⟨rfl, rfl, rfl⟩
  next => split <;> exact ⟨rfl, rfl, rfl⟩

/-- At the end of the input a pass serves the option of the pass before once more. -/
theorem turn_blank (kernel : Kernel σ) (s : σ) (h : u.input.dropWhile isSpace = [])
    (hopt : u.option ≠ 51) :
    (turn kernel u s).user.input = [] ∧ (turn kernel u s).user.option = u.option ∧
      (turn kernel u s).exits = false := by
  have hscan : scanfChar u.input u.option = (u.option, []) := by simp [scanfChar, h]
  simp only [turn, hscan, getchar, List.tail_nil]
  split
  next => exact ⟨rfl, rfl, rfl⟩
  next => split <;> exact ⟨rfl, rfl, rfl⟩

theorem turn_exit (kernel : Kernel σ) (s : σ) (h : (scanfChar u.input u.option).1 = 51) :
    (turn kernel u s).calls = [.close] ∧ (turn kernel u s).exits = true := by
  simp only [turn, h, exitOption]
  exact ⟨rfl, rfl⟩

theorem dropWhile_option {blanks : List UInt8} (hblanks : ∀ b ∈ blanks, isSpace b = true)
    (hb : isSpace b = false) : (blanks ++ b :: rest).dropWhile isSpace = b :: rest := by
  rw [List.dropWhile_append_of_pos hblanks, List.dropWhile_cons_of_neg (by simp [hb])]

theorem turn_entry (kernel : Kernel σ) (s : σ) (he : Entry e) (h : u.input = e ++ rest) :
    (turn kernel u s).user.input = rest ∧ (turn kernel u s).exits = false := by
  obtain ⟨blanks, option, next, line, hblanks, hspace, hopt, rfl, hline⟩ := he
  have hkey : u.input.dropWhile isSpace = option :: next :: (line ++ rest) := by
    rw [h, List.append_assoc]
    exact dropWhile_option hblanks hspace
  obtain ⟨hinput, -, hexits⟩ := turn_key kernel s hkey hopt
  refine ⟨hinput.trans ?_, hexits⟩
  rw [after, List.tail_cons]
  split at hline
  next h49 => rw [if_pos h49, lineOf_full hline, List.drop_left]
  next h49 => rw [if_neg h49, hline, List.nil_append]

/-- What a pass took is a whole entry when it left something. -/
theorem entry_of_key (h : u.input.dropWhile isSpace = b :: rest) (hb : b ≠ 51)
    (hrest : after b rest ≠ []) : ∃ e, Entry e ∧ u.input = e ++ after b rest := by
  obtain ⟨next, rest, rfl⟩ : ∃ next more, rest = next :: more := by
    refine List.exists_cons_of_ne_nil ?_
    rintro rfl
    refine hrest ?_
    rw [after, List.tail_nil]
    split <;> rfl
  have hinput : u.input = u.input.takeWhile isSpace ++ b :: next :: rest := by
    rw [← h, List.takeWhile_append_dropWhile]
  have hblanks : ∀ c ∈ u.input.takeWhile isSpace, isSpace c = true := fun c hc =>
    List.mem_takeWhile_imp hc
  have hspace : isSpace b = false := by
    have hhead := List.head_dropWhile_not isSpace (l := u.input) (by simp [h])
    simpa [h] using hhead
  rw [after, List.tail_cons] at hrest ⊢
  by_cases h49 : b = 49
  · rw [if_pos h49] at hrest ⊢
    obtain ⟨hfull, hline⟩ := full_lineOf hrest
    refine ⟨_, ⟨_, b, next, _, hblanks, hspace, hb, rfl, by rwa [if_pos h49]⟩, ?_⟩
    rw [List.append_assoc, List.cons_append, List.cons_append, ← hline]
    exact hinput
  · rw [if_neg h49]
    refine ⟨_, ⟨_, b, next, [], hblanks, hspace, hb, rfl, if_neg h49 ▸ rfl⟩, ?_⟩
    rw [List.append_assoc]
    exact hinput

theorem exitTyped_cons (he : Entry e) (h : ExitTyped rest) : ExitTyped (e ++ rest) := by
  obtain ⟨entries, blanks, more, hentries, hblanks, rfl⟩ := h
  exact ⟨e :: entries, blanks, more, List.forall_mem_cons.mpr ⟨he, hentries⟩, hblanks, by simp⟩

theorem exitTyped_ne_nil (h : ExitTyped rest) : rest ≠ [] := by
  obtain ⟨entries, blanks, more, -, -, rfl⟩ := h
  simp

/-- A pass without an Exit ahead does not exit and has none ahead behind it. -/
theorem turn_stays (kernel : Kernel σ) (s : σ) (h : ¬ ReachesExit u) :
    (turn kernel u s).exits = false ∧ ¬ ReachesExit (turn kernel u s).user := by
  cases hkey : u.input.dropWhile isSpace with
  | nil =>
    have hopt : u.option ≠ 51 := fun hopt => h (Or.inr ⟨List.dropWhile_eq_nil_iff.mp hkey, hopt⟩)
    obtain ⟨hinput, hoption, hexits⟩ := turn_blank kernel s hkey hopt
    refine ⟨hexits, ?_⟩
    rintro (htyped | ⟨-, hopt'⟩)
    · exact exitTyped_ne_nil htyped hinput
    · exact hopt (hoption ▸ hopt')
  | cons b rest =>
    have hb : b ≠ 51 := by
      rintro rfl
      refine h (Or.inl ⟨[], u.input.takeWhile isSpace, rest, by simp, fun c hc =>
        List.mem_takeWhile_imp hc, ?_⟩)
      rw [List.flatten_nil, List.nil_append, ← hkey, List.takeWhile_append_dropWhile]
    obtain ⟨hinput, hoption, hexits⟩ := turn_key kernel s hkey hb
    refine ⟨hexits, ?_⟩
    rintro (htyped | ⟨-, hopt'⟩)
    · rw [hinput] at htyped
      obtain ⟨e, he, hsplit⟩ := entry_of_key hkey hb (exitTyped_ne_nil htyped)
      exact h (Or.inl (hsplit ▸ exitTyped_cons he htyped))
    · exact hb (hoption ▸ hopt')

theorem turns_stay (h : ¬ ReachesExit u) (n : Nat) : (turns kernel n u s).length = n := by
  induction n generalizing u s with
  | zero => rfl
  | succ n ih =>
    obtain ⟨hexits, hstays⟩ := turn_stays kernel s h
    simp [turns, hexits, ih hstays]

theorem turns_exit (h : (turn kernel u s).exits = true) (n : Nat) :
    (turns kernel n u s).length ≤ 1 := by
  cases n with
  | zero => exact Nat.zero_le 1
  | succ n => simp [turns, h]

/-- Every entry costs one pass, and the Exit behind them the last one. -/
theorem turns_entries {entries : List (List UInt8)} (hentries : ∀ e ∈ entries, Entry e)
    {blanks : List UInt8} (hblanks : ∀ b ∈ blanks, isSpace b = true)
    (h : u.input = entries.flatten ++ blanks ++ 51 :: rest) (n : Nat) :
    (turns kernel n u s).length ≤ entries.length + 1 := by
  induction entries generalizing u s n with
  | nil =>
    have hkey : u.input.dropWhile isSpace = 51 :: rest := by
      rw [h]
      exact dropWhile_option hblanks rfl
    have hscan : scanfChar u.input u.option = (51, rest) := scanfChar_skip hkey _
    exact turns_exit (turn_exit kernel s (by rw [hscan])).2 n
  | cons e entries ih =>
    have hsplit : u.input = e ++ (entries.flatten ++ blanks ++ 51 :: rest) := by simp [h]
    obtain ⟨hinput, hexits⟩ :=
      turn_entry kernel s (hentries e List.mem_cons_self) hsplit
    cases n with
    | zero => exact Nat.zero_le _
    | succ n =>
      have hrest := ih (s := (turn kernel u s).kernel)
        (fun d hd => hentries d (List.mem_cons_of_mem e hd)) hinput n
      simpa [turns, hexits] using hrest

end

/-- The loop ends after finitely many passes exactly when an Exit is typed where an option is read,
or nothing is typed and the option happens to be that of Exit. -/
theorem loop_ends_iff {σ : Type} (kernel : Kernel σ) (u : User) (s : σ) :
    (∃ N, ∀ n, (turns kernel n u s).length ≤ N) ↔ ReachesExit u := by
  constructor
  · rintro ⟨N, hN⟩
    by_contra h
    have hlen := hN (N + 1)
    rw [turns_stay h] at hlen
    exact Nat.not_succ_le_self N hlen
  · rintro (⟨entries, blanks, rest, hentries, hblanks, hinput⟩ | ⟨hspaces, hopt⟩)
    · exact ⟨entries.length + 1, turns_entries hentries hblanks hinput⟩
    · have hblank := List.dropWhile_eq_nil_iff.mpr hspaces
      have hscan : scanfChar u.input u.option = (51, []) := by simp [scanfChar, hblank, hopt]
      exact ⟨1, turns_exit (turn_exit kernel s (by rw [hscan])).2⟩

/-- A kernel that takes every write whole and has nothing to read. -/
def idleKernel : Kernel Unit
  | s, .write bytes => (s, bytes.length, [])
  | s, .read _ => (s, 0, [])
  | s, .close => (s, 0, [])

/-- Without any input the loop reports an invalid option for ever. -/
theorem no_input_never_ends :
    ¬ ∃ N, ∀ n, (turns idleKernel n ⟨[], 0, fun _ => 0⟩ ()).length ≤ N := by
  rintro ⟨N, hN⟩
  have hnone : ¬ ReachesExit ⟨[], 0, fun _ => 0⟩ := by
    rintro (htyped | ⟨-, hopt⟩)
    · exact exitTyped_ne_nil htyped rfl
    · exact absurd hopt (by decide)
  have hlen := hN (N + 1)
  rw [turns_stay hnone] at hlen
  exact Nat.not_succ_le_self N hlen

end LinuxAssignment.UserMenu
