import LinuxAssignment.Machine
import LinuxAssignment.UserCopy

namespace LinuxAssignment.IoctlRegister

open ByteMemory Machine

def ioc (dir type nr size : UInt32) : UInt32 := dir <<< 30 ||| size <<< 16 ||| type <<< 8 ||| nr

/-- `_IOW('a', 'a', int32_t *)`: the encoded size is that of a pointer. -/
def wrValue : UInt32 := ioc 1 97 97 8

/-- `_IOR('a', 'b', int32_t *)` -/
def rdValue : UInt32 := ioc 2 97 98 8

def sizeofValue : Nat := 4

/-- A call by some client: the memory of that client, the address it passes, and how the kernel
ends the copy of the call. -/
structure Call where
  cmd : UInt32
  user : Memory
  arg : Nat
  copy : Copy

/-- The return value, the client's memory afterwards, and what was logged. -/
structure Reply where
  ret : Int
  user : Memory
  log : List String

/-- The state is the memory that starts with the global `value`. -/
def etxIoctl (m : Memory) (c : Call) : Memory × Reply :=
  if c.cmd = wrValue then
    let r := copyFromUser m 0 (slice c.user c.arg sizeofValue) sizeofValue c.copy
    let failed := if r.1 ≠ 0 then ["Data Write : Err!\n"] else []
    (r.2, ⟨0, c.user, failed ++ ["Value = " ++ toString (load32 r.2 0) ++ "\n"]⟩)
  else if c.cmd = rdValue then
    let r := copyToUser m 0 sizeofValue c.copy
    (m, ⟨0, blit c.user c.arg r.2, if r.1 ≠ 0 then ["Data Read : Err!\n"] else []⟩)
  else (m, ⟨0, c.user, ["Default\n"]⟩)

def start : Memory := fun _ => 0

def Call.Transfers (c : Call) : Prop := c.copy.left sizeofValue = 0

def Call.Completes (c : Call) : Prop := (c.cmd = wrValue ∨ c.cmd = rdValue) ∧ c.Transfers

instance (c : Call) : Decidable c.Transfers :=
  inferInstanceAs (Decidable (c.copy.left sizeofValue = 0))

instance (c : Call) : Decidable c.Completes :=
  inferInstanceAs (Decidable ((c.cmd = wrValue ∨ c.cmd = rdValue) ∧ c.Transfers))

/-- The number that the client has at the address it passes. -/
def Call.number (c : Call) : Int := load32 c.user c.arg

/-- What a register holds after a call: the number of a completed write. -/
def keepWritten (v : Int) (c : Call) : Int :=
  if c.cmd = wrValue ∧ c.Transfers then c.number else v

def lastWritten (calls : List Call) : Int := calls.foldl keepWritten 0

/-- What a client may expect of a call after some others. -/
structure Contract (m : Memory) (written : Int) (c : Call) : Prop where
  returns : (etxIoctl m c).2.ret = 0 ↔ c.Completes
  fails : ¬ c.Completes → (etxIoctl m c).2.ret < 0
  unchanged : ¬ c.Completes → load32 (etxIoctl m c).1 0 = load32 m 0
  delivers : c.Completes → c.cmd = rdValue → load32 (etxIoctl m c).2.user c.arg = written

def Respected (calls : List Call) : Prop :=
  ∀ before c after, calls = before ++ c :: after →
    Contract (final etxIoctl start before) (lastWritten before) c

section

variable {m : Memory} {c : Call} {calls : List Call}

theorem rdValue_ne_wrValue : rdValue ≠ wrValue := by decide

theorem etxIoctl_ret (m : Memory) (c : Call) : (etxIoctl m c).2.ret = 0 := by
  unfold etxIoctl
  split
  next => rfl
  next => split <;> rfl

theorem load32_blit_slice (m m' : Memory) (a b : Nat) :
    load32 (blit m a (slice m' b 4)) a = load32 m' b := by
  refine load32_congr fun i hi => ?_
  rw [blit_inside (by simpa using hi), slice_getElem]

theorem write_stores (hcmd : c.cmd = wrValue) (hc : c.Transfers) :
    load32 (etxIoctl m c).1 0 = c.number := by
  have hleft : c.copy.left 4 = 0 := hc
  have hstored : c.copy.stored (slice c.user c.arg 4) 4 = slice c.user c.arg 4 :=
    (Copy.stored_of_left hleft).trans (List.take_of_length_le (by simp))
  rw [etxIoctl, if_pos hcmd]
  simp only [copyFromUser, sizeofValue, hstored]
  exact load32_blit_slice m c.user 0 c.arg

theorem other_keeps (hcmd : c.cmd ≠ wrValue) : (etxIoctl m c).1 = m := by
  rw [etxIoctl, if_neg hcmd]
  split <;> rfl

theorem read_delivers (hcmd : c.cmd = rdValue) (hc : c.Transfers) :
    load32 (etxIoctl m c).2.user c.arg = load32 m 0 := by
  have hleft : c.copy.left 4 = 0 := hc
  have hno : c.cmd ≠ wrValue := fun h => rdValue_ne_wrValue (hcmd.symm.trans h)
  rw [etxIoctl, if_neg hno, if_pos hcmd]
  simp only [copyToUser, sizeofValue, hleft, Nat.sub_zero]
  exact load32_blit_slice c.user m c.arg 0

/-- If no write is torn, the global is the register of the completed writes, whatever else fails. -/
theorem value_eq_lastWritten (h : ∀ c ∈ calls, c.cmd = wrValue → c.Transfers) :
    load32 (final etxIoctl start calls) 0 = lastWritten calls := by
  have run : ∀ (m : Memory) (v : Int), load32 m 0 = v →
      load32 (final etxIoctl m calls) 0 = calls.foldl keepWritten v := by
    induction calls with
    | nil => exact fun m v hv => hv
    | cons c calls ih =>
      intro m v hv
      refine ih (fun d hd => h d (List.mem_cons_of_mem c hd)) _ _ ?_
      by_cases hcmd : c.cmd = wrValue
      · have hc := h c List.mem_cons_self hcmd
        rw [keepWritten, if_pos ⟨hcmd, hc⟩, write_stores hcmd hc]
      · rw [keepWritten, if_neg (fun hh => hcmd hh.1), other_keeps hcmd, hv]
  exact run start 0 (by decide)

/-- A run keeps the contract of all its calls exactly when each of them completes. -/
theorem respected_iff (calls : List Call) : Respected calls ↔ ∀ c ∈ calls, c.Completes := by
  constructor
  · intro h c hc
    obtain ⟨before, after, rfl⟩ := List.append_of_mem hc
    exact (h before c after rfl).returns.mp (etxIoctl_ret _ c)
  · rintro h before c after rfl
    have hc := h c (by simp)
    refine ⟨iff_of_true (etxIoctl_ret _ c) hc, fun hno => absurd hc hno, fun hno => absurd hc hno,
      fun _ hcmd => ?_⟩
    rw [read_delivers hcmd hc.2]
    exact value_eq_lastWritten fun d hd _ => (h d (List.mem_append_left _ hd)).2

end

def client (v : Int) : Memory := store32 start 100 v

def writeCall (v : Int) (copy : Copy) : Call := ⟨wrValue, client v, 100, copy⟩

def readCall : Call := ⟨rdValue, client 0, 100, .done⟩

/-- A write that faults after two of its four bytes, between two calls that complete. -/
def tornWrite : List Call := [writeCall 16909060 .done, writeCall 84281096 (.fault 2 false), readCall]

/-- The torn write returns 0, and the read after it delivers a number that nobody wrote. -/
theorem torn_write_returns_zero :
    (replies etxIoctl start tornWrite).map (fun r => (r.ret, load32 r.user 100)) =
        [(0, 16909060), (0, 84281096), (0, 16910088)] ∧
      ¬ ∀ calls, Respected calls := by
  refine ⟨by decide, fun h => ?_⟩
  have hcall := h tornWrite [writeCall 16909060 .done] (writeCall 84281096 (.fault 2 false))
    [readCall] rfl
  exact absurd (hcall.returns.mp (etxIoctl_ret _ _)) (by decide)

end LinuxAssignment.IoctlRegister
