import LinuxAssignment.ByteMemory

namespace LinuxAssignment

open ByteMemory

def ePerm : Int := 1
def eBadf : Int := 9
def eFault : Int := 14

/-- How the kernel ends a user copy: in full, or on a page fault after `k` bytes, with the rest
of a kernel destination zeroed or not. -/
inductive Copy where
  | done
  | fault (k : Nat) (zeroed : Bool)
  deriving DecidableEq, Repr

def Copy.left (c : Copy) (n : Nat) : Nat :=
  match c with
  | .done => 0
  | .fault k _ => n - k

/-- What a copy of `n` bytes of `src` puts at its destination. -/
def Copy.stored (c : Copy) (src : List UInt8) (n : Nat) : List UInt8 :=
  match c with
  | .done => src.take n
  | .fault k zeroed => src.take (min k n) ++ if zeroed then List.replicate (n - k) 0 else []

def copyFromUser (m : Memory) (dst : Nat) (src : List UInt8) (n : Nat) (c : Copy) :
    Nat × Memory :=
  (c.left n, blit m dst (c.stored src n))

/-- The bytes delivered to the user stand beside the number of bytes not copied. -/
def copyToUser (m : Memory) (src n : Nat) (c : Copy) : Nat × List UInt8 :=
  (c.left n, slice m src (n - c.left n))

@[simp] theorem Copy.left_done (n : Nat) : Copy.done.left n = 0 := rfl

@[simp] theorem Copy.left_zero (c : Copy) : c.left 0 = 0 := by
  cases c <;> simp [Copy.left]

theorem Copy.stored_length_le (c : Copy) (src : List UInt8) (n : Nat) :
    (c.stored src n).length ≤ n := by
  cases c with
  | done => exact List.length_take_le n src
  | fault k zeroed =>
    have hk := List.length_take_le (min k n) src
    cases zeroed with
    | false =>
      simp only [Copy.stored, Bool.false_eq_true, if_false, List.append_nil]
      omega
    | true =>
      simp only [Copy.stored, if_true, List.length_append, List.length_replicate]
      omega

theorem Copy.stored_of_left {c : Copy} {src : List UInt8} {n : Nat} (h : c.left n = 0) :
    c.stored src n = src.take n := by
  cases c with
  | done => rfl
  | fault k zeroed =>
    have hk : n ≤ k := by
      simp only [Copy.left] at h
      omega
    have hz : n - k = 0 := h
    simp [Copy.stored, Nat.min_eq_right hk, hz]

theorem copyFromUser_outside {m : Memory} {dst n x : Nat} {src : List UInt8} {c : Copy}
    (h : x < dst ∨ dst + n ≤ x) : (copyFromUser m dst src n c).2 x = m x := by
  have hl := c.stored_length_le src n
  exact blit_outside (by omega)

theorem copyToUser_congr {m m' : Memory} {src src' n : Nat} {c : Copy}
    (h : ∀ i < n, m (src + i) = m' (src' + i)) :
    copyToUser m src n c = copyToUser m' src' n c := by
  have hs : slice m src (n - c.left n) = slice m' src' (n - c.left n) :=
    slice_congr fun i hi => h i (by omega)
  simp [copyToUser, hs]

end LinuxAssignment
