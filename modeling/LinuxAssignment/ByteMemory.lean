import Mathlib.Algebra.Ring.Int.Defs
import Mathlib.Algebra.Ring.Nat
import Mathlib.Data.List.Basic

namespace ByteMemory

/-- Conversion to `size_t`: the value modulo `2 ^ 64`. -/
def sizeT (x : Int) : Nat := (x % 2 ^ 64).toNat

/-- Conversion to a signed 64-bit integer (`loff_t`, `ssize_t`). -/
def int64 (x : Int) : Int := (x + 2 ^ 63) % 2 ^ 64 - 2 ^ 63

/-- Conversion to a signed 32-bit integer (`int`). -/
def int32 (x : Int) : Int := (x + 2 ^ 31) % 2 ^ 32 - 2 ^ 31

theorem sizeT_of_nonneg {x : Int} (h : 0 ≤ x) (hx : x < 2 ^ 64) : (sizeT x : Int) = x := by
  unfold sizeT
  omega

theorem sizeT_of_neg {x : Int} (h : x < 0) (hx : -(2 ^ 64) ≤ x) : (sizeT x : Int) = x + 2 ^ 64 := by
  unfold sizeT
  omega

theorem int64_of_bounds {x : Int} (h : -(2 ^ 63) ≤ x) (hx : x < 2 ^ 63) : int64 x = x := by
  unfold int64
  omega

theorem int32_of_bounds {x : Int} (h : -(2 ^ 31) ≤ x) (hx : x < 2 ^ 31) : int32 x = x := by
  unfold int32
  omega

theorem int32_add (a b : Int) : int32 (int32 a + b) = int32 (a + b) := by
  unfold int32
  omega

abbrev Memory := Nat → UInt8

def blit (m : Memory) (a : Nat) (bs : List UInt8) : Memory := fun x =>
  if a ≤ x then (bs[x - a]?).getD (m x) else m x

def slice (m : Memory) (a n : Nat) : List UInt8 := (List.range n).map fun i => m (a + i)

theorem blit_outside {m : Memory} {a x : Nat} {bs : List UInt8}
    (h : x < a ∨ a + bs.length ≤ x) : blit m a bs x = m x := by
  unfold blit
  split
  next hx =>
    have hb : bs.length ≤ x - a := by omega
    simp [List.getElem?_eq_none hb]
  next => rfl

theorem blit_inside {m : Memory} {a i : Nat} {bs : List UInt8} (h : i < bs.length) :
    blit m a bs (a + i) = bs[i] := by
  simp [blit, h]

theorem blit_congr {m m' : Memory} {x : Nat} (h : m x = m' x) (a : Nat) (bs : List UInt8) :
    blit m a bs x = blit m' a bs x := by
  simp only [blit, h]

theorem blit_nil (m : Memory) (a : Nat) : blit m a [] = m := by
  funext x
  simp [blit]

@[simp] theorem slice_length (m : Memory) (a n : Nat) : (slice m a n).length = n := by
  simp [slice]

@[simp] theorem slice_zero (m : Memory) (a : Nat) : slice m a 0 = [] := rfl

theorem slice_getElem {m : Memory} {a n i : Nat} (h : i < (slice m a n).length) :
    (slice m a n)[i] = m (a + i) := by
  simp [slice]

theorem slice_congr {m m' : Memory} {a a' n : Nat}
    (h : ∀ i < n, m (a + i) = m' (a' + i)) : slice m a n = slice m' a' n := by
  apply List.map_congr_left
  intro i hi
  exact h i (List.mem_range.mp hi)

theorem slice_inj {m m' : Memory} {a n i : Nat} (h : slice m a n = slice m' a n) (hi : i < n) :
    m (a + i) = m' (a + i) := by
  have hm := slice_getElem (m := m) (a := a) (n := n) (i := i) (by simpa using hi)
  have hm' := slice_getElem (m := m') (a := a) (n := n) (i := i) (by simpa using hi)
  rw [← hm, ← hm']
  simp only [h]

theorem slice_add (m : Memory) (a n k : Nat) :
    slice m a (n + k) = slice m a n ++ slice m (a + n) k := by
  simp [slice, List.range_add, Function.comp_def, Nat.add_assoc]

theorem slice_append {m : Memory} {a : Nat} (xs ys : List UInt8)
    (h : slice m a (xs.length + ys.length) = xs ++ ys) :
    slice m a xs.length = xs ∧ slice m (a + xs.length) ys.length = ys := by
  rw [slice_add] at h
  exact List.append_inj h (slice_length m a xs.length)

theorem slice_blit_self (m : Memory) (a : Nat) (bs : List UInt8) :
    slice (blit m a bs) a bs.length = bs := by
  apply List.ext_getElem (by simp)
  intro i hi hj
  rw [slice_getElem hi, blit_inside hj]

/-- A part of some stored data is stored where that part begins. -/
theorem slice_drop_take {m : Memory} {a : Nat} {data : List UInt8}
    (h : slice m a data.length = data) (len p : Nat) :
    slice m (a + p) ((data.drop p).take len).length = (data.drop p).take len := by
  apply List.ext_getElem (by simp)
  intro i hi hj
  have hlt : p + i < data.length := by
    simp only [List.length_take, List.length_drop] at hj
    omega
  have hbyte : data[p + i] = m (a + (p + i)) := by
    have hin : p + i < (slice m a data.length).length := by simpa using hlt
    have hget := slice_getElem hin
    simpa only [h] using hget
  rw [slice_getElem, List.getElem_take, List.getElem_drop, hbyte, Nat.add_assoc]

def int32Bytes (v : Int) : List UInt8 :=
  let n := (v % 2 ^ 32).toNat
  [UInt8.ofNat n, UInt8.ofNat (n / 2 ^ 8), UInt8.ofNat (n / 2 ^ 16), UInt8.ofNat (n / 2 ^ 24)]

def store32 (m : Memory) (a : Nat) (v : Int) : Memory := blit m a (int32Bytes v)

def load32 (m : Memory) (a : Nat) : Int :=
  int32 ((m a).toNat + (m (a + 1)).toNat * 2 ^ 8 + (m (a + 2)).toNat * 2 ^ 16
    + (m (a + 3)).toNat * 2 ^ 24)

@[simp] theorem int32Bytes_length (v : Int) : (int32Bytes v).length = 4 := rfl

theorem store32_outside {m : Memory} {a x : Nat} {v : Int} (h : x < a ∨ a + 4 ≤ x) :
    store32 m a v x = m x := blit_outside (by simpa using h)

theorem load32_congr {m m' : Memory} {a a' : Nat}
    (h : ∀ i < 4, m (a + i) = m' (a' + i)) : load32 m a = load32 m' a' := by
  have h0 := h 0 (by omega)
  have h1 := h 1 (by omega)
  have h2 := h 2 (by omega)
  have h3 := h 3 (by omega)
  simp only [Nat.add_zero] at h0
  simp only [load32, h0, h1, h2, h3]

theorem load32_store32 (m : Memory) (a : Nat) (v : Int) : load32 (store32 m a v) a = int32 v := by
  have h0 : store32 m a v a = (int32Bytes v)[0] := blit_inside (i := 0) (by simp)
  have h1 : store32 m a v (a + 1) = (int32Bytes v)[1] := blit_inside (by simp)
  have h2 : store32 m a v (a + 2) = (int32Bytes v)[2] := blit_inside (by simp)
  have h3 : store32 m a v (a + 3) = (int32Bytes v)[3] := blit_inside (by simp)
  simp only [load32, h0, h1, h2, h3, int32Bytes, List.getElem_cons_zero, List.getElem_cons_succ,
    UInt8.toNat_ofNat']
  unfold int32
  omega

end ByteMemory
