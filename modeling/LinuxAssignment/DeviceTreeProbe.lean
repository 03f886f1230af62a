import LinuxAssignment.ByteMemory

namespace LinuxAssignment.DeviceTreeProbe

open ByteMemory

/-- What the kernel finds in a device tree; `none` is an error return, or NULL for `getProperty`,
with the output left as it was. -/
structure OfApi (ν : Type) where
  propertyReadU32 : ν → String → Option UInt32
  propertyReadString : ν → String → Option String
  getProperty : ν → String → Option (List UInt8)
  children : ν → List ν

/-- What the locals of `my_probe` hold before anything is stored in them. -/
structure Junk where
  threshold : UInt32
  label : String
  len : Int
  speed : UInt32
  childName : String

/-- What the probe logs, and the access `vals[i]` that has nothing to read. -/
inductive Event (ν : Type) where
  | threshold (value : UInt32)
  | label (value : String)
  | value (i : Nat) (value : UInt32)
  | fault (i : Nat)
  | child (node : ν) (speed : UInt32) (name : String)
  deriving DecidableEq

def be32ToCpu (bytes : List UInt8) : UInt32 :=
  UInt32.ofNat (bytes.foldl (fun n b => n * 2 ^ 8 + b.toNat) 0)

def wordCount (bytes : List UInt8) : Nat := bytes.length / 4

/-- `be32_to_cpu(vals[i])`. -/
def word (vals : Option (List UInt8)) (i : Nat) : Option UInt32 :=
  vals.bind fun bytes =>
    if i < wordCount bytes then some (be32ToCpu ((bytes.drop (4 * i)).take 4)) else none

/-- `len /= sizeof(u32)`, with the 32-bit `size_t` of the ARM kernel the module is built for. -/
def words (len : Int) : Int := int32 (len % 2 ^ 32 / 4)

/-- The passes of the loop over the values; without the property `len` is what it was before. -/
def passes (vals : Option (List UInt8)) (len : Int) : Nat :=
  match vals with
  | none => (words len).toNat
  | some bytes => (words (int32 bytes.length)).toNat

section

variable {ν : Type}

/-- The loop over the values from `i` on, with `n` passes to go, and whether it came to its end. -/
def valuesLoop (vals : Option (List UInt8)) : Nat → Nat → List (Event ν) × Bool
  | _, 0 => ([], true)
  | i, n + 1 =>
    match word vals i with
    | none => ([.fault i], false)
    | some v =>
      let rest := valuesLoop vals (i + 1) n
      (.value i v :: rest.1, rest.2)

/-- The loop over the child nodes; `speed` and `childName` are the same locals in every pass. -/
def childLoop (api : OfApi ν) : List ν → UInt32 → String → List (Event ν)
  | [], _, _ => []
  | child :: children, speed, childName =>
    let speed' := (api.propertyReadU32 child "speed").getD speed
    let childName' := (api.propertyReadString child "name").getD childName
    .child child speed' childName' :: childLoop api children speed' childName'

/-- `my_probe` on the node `np`, and its return value unless an access faults. -/
def myProbe (api : OfApi ν) (np : ν) (junk : Junk) : List (Event ν) × Option Int :=
  let threshold := (api.propertyReadU32 np "threshold").getD junk.threshold
  let label := (api.propertyReadString np "label").getD junk.label
  let vals := api.getProperty np "values"
  let printed := valuesLoop vals 0 (passes vals junk.len)
  if printed.2 then
    (.threshold threshold :: .label label :: printed.1 ++
      childLoop api (api.children np) junk.speed junk.childName, some 0)
  else (.threshold threshold :: .label label :: printed.1, none)

/-- The event shows what was read from the node it speaks of. -/
def Event.Sound (api : OfApi ν) (np : ν) : Event ν → Prop
  | .threshold v => api.propertyReadU32 np "threshold" = some v
  | .label v => api.propertyReadString np "label" = some v
  | .value i v => word (api.getProperty np "values") i = some v
  | .fault _ => False
  | .child c speed name =>
    api.propertyReadU32 c "speed" = some speed ∧ api.propertyReadString c "name" = some name

variable {api : OfApi ν} {np : ν} {vals : Option (List UInt8)} {i n : Nat}

theorem word_isSome (vals : Option (List UInt8)) (i : Nat) :
    (word vals i).isSome = true ↔ i < vals.elim 0 wordCount := by
  cases vals with
  | none => simp [word]
  | some bytes => simp [word, Option.isSome_iff_exists]

theorem getD_read {α : Type} (read : Option α) (old : α) :
    read = some (read.getD old) ↔ read.isSome = true := by
  cases read <;> simp

/-- The loop reads what there is exactly when it has no more passes than there are words. -/
theorem valuesLoop_sound (i n : Nat) (hvals : api.getProperty np "values" = vals) :
    ((∀ e ∈ (valuesLoop vals i n).1, e.Sound api np) ↔ n = 0 ∨ i + n ≤ vals.elim 0 wordCount) ∧
      ((valuesLoop vals i n : List (Event ν) × Bool).2 = true ↔ n = 0 ∨ i + n ≤ vals.elim 0 wordCount) := by
  induction n generalizing i with
  | zero => simp [valuesLoop]
  | succ n ih =>
    have hsome := word_isSome vals i
    cases hword : word vals i with
    | none =>
      rw [hword] at hsome
      simp only [valuesLoop, hword, List.mem_singleton, forall_eq, Event.Sound]
      simp only [Option.isSome_none, Bool.false_eq_true, false_iff] at hsome ⊢
      omega
    | some v =>
      rw [hword] at hsome
      simp only [Option.isSome_some, true_iff] at hsome
      have hcount : (n + 1 = 0 ∨ i + (n + 1) ≤ vals.elim 0 wordCount) ↔
          (n = 0 ∨ i + 1 + n ≤ vals.elim 0 wordCount) := by omega
      have hfirst : (Event.value i v).Sound api np := (congrArg (word · i) hvals).trans hword
      simp only [valuesLoop, hword, List.forall_mem_cons, hfirst, true_and]
      rw [hcount]
      exact ih (i + 1)

theorem childLoop_sound (children : List ν) (speed : UInt32) (childName : String) :
    (∀ e ∈ childLoop api children speed childName, e.Sound api np) ↔
      ∀ c ∈ children, (api.propertyReadU32 c "speed").isSome = true ∧
        (api.propertyReadString c "name").isSome = true := by
  induction children generalizing speed childName with
  | nil => simp [childLoop]
  | cons c children ih =>
    rw [childLoop, List.forall_mem_cons, List.forall_mem_cons, ih]
    exact and_congr_left' (and_congr (getD_read _ _) (getD_read _ _))

/-- No property length makes the loop leave the property. -/
theorem words_length (bytes : List UInt8) :
    (words (int32 bytes.length)).toNat ≤ wordCount bytes := by
  unfold words int32 wordCount
  omega

theorem words_none (len : Int) : (words len).toNat = 0 ↔ 0 ≤ len % 2 ^ 32 ∧ len % 2 ^ 32 < 4 := by
  unfold words int32
  omega

/-- The passes find what they read: the property is long enough for them, or there are none. -/
theorem passes_sound (vals : Option (List UInt8)) (len : Int) :
    (passes vals len = 0 ∨ 0 + passes vals len ≤ vals.elim 0 wordCount) ↔
      vals.isSome = true ∨ len % 2 ^ 32 < 4 := by
  cases vals with
  | none =>
    have hpasses : passes none len = 0 ↔ 0 ≤ len % 2 ^ 32 ∧ len % 2 ^ 32 < 4 := words_none len
    have hnonneg : 0 ≤ len % 2 ^ 32 := Int.emod_nonneg _ (by decide)
    simp only [Option.elim_none, Option.isSome_none, Bool.false_eq_true, false_or, Nat.zero_add,
      Nat.le_zero, or_self, hpasses, hnonneg, true_and]
  | some bytes =>
    have hpasses : passes (some bytes) len ≤ wordCount bytes := words_length bytes
    simp [hpasses]

/-- Every access of the probe is to the property and every line it logs shows what was read from
the node it speaks of, exactly when no property is missing but values whose length, never set,
happens to be below that of a word. -/
theorem probe_sound_iff (api : OfApi ν) (np : ν) (junk : Junk) :
    (∀ e ∈ (myProbe api np junk).1, e.Sound api np) ↔
      (api.propertyReadU32 np "threshold").isSome = true ∧
      (api.propertyReadString np "label").isSome = true ∧
      ((api.getProperty np "values").isSome = true ∨ junk.len % 2 ^ 32 < 4) ∧
      ∀ c ∈ api.children np, (api.propertyReadU32 c "speed").isSome = true ∧
        (api.propertyReadString c "name").isSome = true := by
  obtain ⟨hsound, hend⟩ := valuesLoop_sound 0 (passes (api.getProperty np "values") junk.len)
    (rfl : api.getProperty np "values" = _)
  rw [passes_sound] at hsound hend
  have hheads : ∀ es : List (Event ν), (∀ e ∈ Event.threshold
      ((api.propertyReadU32 np "threshold").getD junk.threshold) :: Event.label
      ((api.propertyReadString np "label").getD junk.label) :: es, e.Sound api np) ↔
      (api.propertyReadU32 np "threshold").isSome = true ∧
      (api.propertyReadString np "label").isSome = true ∧ ∀ e ∈ es, e.Sound api np := by
    intro es
    rw [List.forall_mem_cons, List.forall_mem_cons]
    exact and_congr (getD_read _ _) (and_congr_left' (getD_read _ _))
  simp only [myProbe]
  split
  next h =>
    rw [List.cons_append, List.cons_append, hheads, List.forall_mem_append, hsound, childLoop_sound]
  next h =>
    rw [hheads, hsound]
    have hvals := mt hend.mpr h
    simp only [hvals, false_and]

end

/-- Node 0 with the properties of the example tree and two children, of which the second has no
speed. -/
def exampleTree : OfApi Nat where
  propertyReadU32
    | 0, "threshold" => some 99
    | 1, "speed" => some 9600
    | _, _ => none
  propertyReadString
    | 0, "label" => some "overridden-label"
    | 1, "name" => some "sensor-1"
    | 2, "name" => some "sensor-2"
    | _, _ => none
  getProperty
    | 0, "values" => some [0, 0, 0, 5, 0, 0, 0, 6]
    | _, _ => none
  children
    | 0 => [1, 2]
    | _ => []

/-- The second child is logged with the speed of the first. -/
theorem speed_carried_over :
    ¬ ∀ e ∈ (myProbe exampleTree 0 ⟨0, "", 0, 0, ""⟩).1, e.Sound exampleTree 0 := by
  intro h
  have hchild : (Event.child 2 9600 "sensor-2").Sound exampleTree 0 := h _ (by decide)
  exact absurd hchild.1 (by decide)

end LinuxAssignment.DeviceTreeProbe
