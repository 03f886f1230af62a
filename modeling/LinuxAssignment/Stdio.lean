import LinuxAssignment.ByteMemory

namespace Stdio

open ByteMemory

abbrev newline : UInt8 := 10

def isSpace (b : UInt8) : Bool := b = 32 ∨ 9 ≤ b ∧ b ≤ 13

/-- `scanf(" %c", &c)`; at the end of the input it leaves `c` alone. -/
def scanfChar (input : List UInt8) (c : UInt8) : UInt8 × List UInt8 :=
  match input.dropWhile isSpace with
  | [] => (c, [])
  | b :: rest => (b, rest)

def getchar (input : List UInt8) : List UInt8 := input.tail

def isDigit (b : UInt8) : Bool := 48 ≤ b ∧ b ≤ 57

def decimal (digits : List UInt8) : Nat := digits.foldl (fun n b => 10 * n + (b.toNat - 48)) 0

/-- `strtol`, which keeps to the bounds of a `long`. -/
def strtol (negative : Bool) (digits : List UInt8) : Int :=
  if negative then max (-2 ^ 63) (-decimal digits) else min (2 ^ 63 - 1) (decimal digits)

/-- A sign, and what is behind it. -/
def signOf : List UInt8 → Bool × List UInt8
  | 45 :: rest => (true, rest)
  | 43 :: rest => (false, rest)
  | rest => (false, rest)

/-- `scanf("%d", &x)`, which stores the lower half of the `long`; if there is no digit it takes the
sign all the same, and leaves `x` alone. -/
def scanfInt (input : List UInt8) (x : Int) : Int × List UInt8 :=
  let r := signOf (input.dropWhile isSpace)
  let digits := r.2.takeWhile isDigit
  if digits = [] then (x, r.2) else (int32 (strtol r.1 digits), r.2.dropWhile isDigit)

/-- The characters of a line that fit: at most `n`, and none behind a newline. -/
def lineOf : Nat → List UInt8 → List UInt8
  | 0, _ => []
  | _ + 1, [] => []
  | n + 1, b :: rest => if b = newline then [b] else b :: lineOf n rest

/-- A line that leaves nothing for `lineOf n` to wait for: it ends in a newline or is cut at `n`. -/
def FullLine (n : Nat) (line : List UInt8) : Prop :=
  (∃ text, line = text ++ [newline] ∧ newline ∉ text ∧ text.length < n) ∨
    newline ∉ line ∧ line.length = n

/-- `fgets` into an array at `buf`; at the end of the input it leaves the array alone. -/
def fgets (m : Memory) (buf size : Nat) (input : List UInt8) : Memory × List UInt8 :=
  let line := lineOf (size - 1) input
  (if line = [] then m else blit m buf (line ++ [0]), input.drop line.length)

/-- `strcspn` of the string in an array of `size` bytes at `a`. -/
def strcspn (m : Memory) (a size : Nat) (reject : List UInt8) : Nat :=
  ((slice m a size).takeWhile fun b => b ≠ 0 ∧ b ∉ reject).length

def strlen (m : Memory) (a size : Nat) : Nat := strcspn m a size []

/-- What `%s` prints of the string in an array of `size` bytes at `a`. -/
def cString (m : Memory) (a size : Nat) : List UInt8 := (slice m a size).takeWhile (· ≠ 0)

/-- The string at `a` is `text`, whatever array that takes. -/
def StringAt (m : Memory) (a : Nat) (text : List UInt8) : Prop :=
  slice m a (text.length + 1) = text ++ [0] ∧ 0 ∉ text

section

variable {m : Memory} {a size n : Nat} {text rest reject : List UInt8} {b : UInt8}

theorem lineOf_line (htext : newline ∉ text) (hlen : text.length < n) :
    lineOf n (text ++ newline :: rest) = text ++ [newline] := by
  induction text generalizing n with
  | nil =>
    obtain ⟨n, rfl⟩ := Nat.exists_eq_succ_of_ne_zero (Nat.ne_of_gt hlen)
    simp [lineOf]
  | cons b text ih =>
    obtain ⟨n, rfl⟩ := Nat.exists_eq_succ_of_ne_zero (Nat.ne_zero_of_lt hlen)
    have hb : b ≠ newline := fun h => htext (h ▸ List.mem_cons_self)
    have hlen' : text.length < n := Nat.lt_of_succ_lt_succ hlen
    simp only [List.cons_append, lineOf, if_neg hb,
      ih (fun h => htext (List.mem_cons_of_mem b h)) hlen']

theorem lineOf_long (htext : newline ∉ text) (hlen : n ≤ text.length) :
    lineOf n (text ++ rest) = text.take n := by
  induction text generalizing n with
  | nil =>
    cases Nat.le_zero.mp hlen
    rfl
  | cons b text ih =>
    cases n with
    | zero => rfl
    | succ n =>
      have hb : b ≠ newline := fun h => htext (h ▸ List.mem_cons_self)
      have hlen' : n ≤ text.length := Nat.le_of_succ_le_succ hlen
      simp only [List.cons_append, lineOf, if_neg hb, List.take_succ_cons,
        ih (fun h => htext (List.mem_cons_of_mem b h)) hlen']

theorem lineOf_full {line : List UInt8} (h : FullLine n line) : lineOf n (line ++ rest) = line := by
  obtain ⟨text, rfl, htext, hlen⟩ | ⟨hline, hlen⟩ := h
  · rw [List.append_assoc]
    exact lineOf_line htext hlen
  · rw [lineOf_long hline (Nat.le_of_eq hlen.symm), List.take_of_length_le (Nat.le_of_eq hlen)]

/-- A line with some input behind it is full. -/
theorem full_lineOf (h : rest.drop (lineOf n rest).length ≠ []) :
    FullLine n (lineOf n rest) ∧ rest = lineOf n rest ++ rest.drop (lineOf n rest).length := by
  induction n generalizing rest with
  | zero => exact ⟨Or.inr ⟨List.not_mem_nil, rfl⟩, rfl⟩
  | succ n ih =>
    cases rest with
    | nil => exact absurd rfl h
    | cons b rest =>
      by_cases hb : b = newline
      · simp only [lineOf, if_pos hb]
        exact ⟨Or.inl ⟨[], by simp [hb], List.not_mem_nil, Nat.succ_pos n⟩, rfl⟩
      · simp only [lineOf, if_neg hb, List.length_cons, List.drop_succ_cons] at h ⊢
        obtain ⟨hfull, heq⟩ := ih h
        refine ⟨?_, congrArg (b :: ·) heq⟩
        obtain ⟨text, htext, hline, hlen⟩ | ⟨hline, hlen⟩ := hfull
        · refine Or.inl ⟨b :: text, by simp [htext], ?_, Nat.succ_lt_succ hlen⟩
          exact List.not_mem_cons_of_ne_of_not_mem (Ne.symm hb) hline
        · refine Or.inr ⟨List.not_mem_cons_of_ne_of_not_mem (Ne.symm hb) hline, ?_⟩
          rw [List.length_cons, hlen]

theorem fgets_line (htext : newline ∉ text) (hlen : text.length < size - 1) :
    fgets m a size (text ++ newline :: rest) = (blit m a (text ++ [newline] ++ [0]), rest) := by
  have hdrop : (text ++ newline :: rest).drop (text ++ [newline]).length = rest :=
    (congrArg (List.drop _) (List.append_cons text newline rest)).trans List.drop_left
  have hne : text ++ [newline] ≠ [] := by simp
  simp only [fgets, lineOf_line htext hlen, hdrop, if_neg hne]

theorem fgets_long (htext : newline ∉ text) (hsize : 1 < size) (hlen : size - 1 ≤ text.length) :
    fgets m a size (text ++ rest) =
      (blit m a (text.take (size - 1) ++ [0]), text.drop (size - 1) ++ rest) := by
  have htake : (text.take (size - 1)).length = size - 1 := List.length_take_of_le hlen
  have hne : text.take (size - 1) ≠ [] := by
    intro h
    rw [h] at htake
    simp at htake
    omega
  simp only [fgets, lineOf_long htext hlen, htake, if_neg hne, List.drop_append_of_le_length hlen]

theorem scanfChar_skip {input : List UInt8} (h : input.dropWhile isSpace = b :: rest) (c : UInt8) :
    scanfChar input c = (b, rest) := by
  simp [scanfChar, h]

theorem slice_prefix (h : slice m a (text.length + 1) = text ++ [b]) (hlen : text.length < size) :
    ∃ more, slice m a size = text ++ b :: more := by
  refine ⟨slice m (a + (text.length + 1)) (size - (text.length + 1)), ?_⟩
  have hsize : size = text.length + 1 + (size - (text.length + 1)) := by omega
  rw [hsize, slice_add, h, ← hsize, List.append_assoc]
  rfl

theorem strcspn_eq (h : slice m a (text.length + 1) = text ++ [b]) (hlen : text.length < size)
    (htext : ∀ c ∈ text, c ≠ 0 ∧ c ∉ reject) (hb : b = 0 ∨ b ∈ reject) :
    strcspn m a size reject = text.length := by
  obtain ⟨more, hmore⟩ := slice_prefix h hlen
  have hstop : ¬ (b ≠ 0 ∧ b ∉ reject) := by
    rcases hb with rfl | hb
    · simp
    · exact fun hh => hh.2 hb
  have htake : (text ++ b :: more).takeWhile (fun c => c ≠ 0 ∧ c ∉ reject) = text := by
    rw [List.takeWhile_append_of_pos fun c hc => decide_eq_true (htext c hc),
      List.takeWhile_cons_of_neg (by simpa using hstop), List.append_nil]
  rw [strcspn, hmore, htake]

theorem strlen_eq (h : slice m a (text.length + 1) = text ++ [0]) (hlen : text.length < size)
    (htext : 0 ∉ text) : strlen m a size = text.length :=
  strcspn_eq h hlen (fun _ hc => ⟨fun h0 => htext (h0 ▸ hc), List.not_mem_nil⟩) (Or.inl rfl)

/-- Putting a NUL where `strcspn` stopped leaves the text before it as the string. -/
theorem slice_terminated (h : slice m a (text.length + 1) = text ++ [b]) :
    slice (Function.update m (a + text.length) 0) a (text.length + 1) = text ++ [0] := by
  have htext : slice m a text.length = text := (slice_append text [b] h).1
  have hbefore : slice (Function.update m (a + text.length) 0) a text.length = text :=
    (slice_congr fun i hi => Function.update_of_ne (by omega) _ _).trans htext
  have hat : slice (Function.update m (a + text.length) 0) (a + text.length) 1 = [0] := by
    simp [slice]
  rw [slice_add, hbefore, hat]

end

end Stdio
