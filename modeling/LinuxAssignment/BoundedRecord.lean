import Mathlib.Data.List.Basic

namespace BoundedRecord

/-- A buffer of a fixed capacity, and how much of it counts. -/
structure Record (α : Type*) (capacity : Nat) where
  bytes : List α
  size : Nat
  length_eq : bytes.length = capacity
  size_le : size ≤ capacity

variable {α : Type*} {capacity : Nat}

def splice (xs : List α) (p : Nat) (ys : List α) : List α :=
  xs.take p ++ ys ++ xs.drop (p + ys.length)

theorem splice_length {xs ys : List α} {p : Nat} (h : p + ys.length ≤ xs.length) :
    (splice xs p ys).length = xs.length := by
  simp only [splice, List.length_append, List.length_take, List.length_drop]
  omega

/-- Elements are put in from position `p` on, if there is room for all of them. -/
def Record.overwrite (r : Record α capacity) (p : Nat) (ys : List α) : Record α capacity :=
  if h : p + ys.length ≤ capacity then
    { r with
      bytes := splice r.bytes p ys
      length_eq := (splice_length (r.length_eq.symm ▸ h)).trans r.length_eq }
  else r

def Record.resize (r : Record α capacity) (n : Nat) : Record α capacity :=
  { r with
    size := min n capacity
    size_le := Nat.min_le_right n capacity }

def Record.read (r : Record α capacity) (p n : Nat) : List α := (r.bytes.drop p).take n

theorem Record.overwrite_bytes {r : Record α capacity} {p : Nat} {ys : List α}
    (h : p + ys.length ≤ capacity) : (r.overwrite p ys).bytes = splice r.bytes p ys := by
  simp [Record.overwrite, h]

@[simp] theorem Record.overwrite_size (r : Record α capacity) (p : Nat) (ys : List α) :
    (r.overwrite p ys).size = r.size := by
  unfold Record.overwrite
  split <;> rfl

@[simp] theorem Record.resize_bytes (r : Record α capacity) (n : Nat) :
    (r.resize n).bytes = r.bytes := rfl

theorem Record.resize_size {r : Record α capacity} {n : Nat} (h : n ≤ capacity) :
    (r.resize n).size = n := Nat.min_eq_left h

end BoundedRecord
