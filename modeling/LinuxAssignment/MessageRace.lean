import LinuxAssignment.SingleDeviceRace
import Mathlib.Data.Fintype.Basic

namespace LinuxAssignment.SingleDevice

open ByteMemory StepSystem

abbrev RaceEvent (κ : Type) := Event (Race κ) (κ × Act)

section

variable {κ : Type}

/-- Some call of `dev_write` in the run so far was given this message. -/
def Written (past : List (RaceEvent κ)) (m : List UInt8) : Prop :=
  ∃ e ∈ past, e.label.2 = .write m

/-- Some call of `dev_write` has stored its length in the run so far. -/
def AnyStored (past : List (RaceEvent κ)) : Prop :=
  ∃ e ∈ past, ∃ n, (e.before.procs e.label.1).pc = .writeLen n

/-- A whole message, or nothing before one was stored. -/
def Whole (past : List (RaceEvent κ)) (m : List UInt8) : Prop :=
  Written past m ∨ m = [] ∧ ¬ AnyStored past

/-- The length of some message, or of nothing. -/
def SomeLength (past : List (RaceEvent κ)) (n : Nat) : Prop :=
  n < bufferSize ∧ (n = 0 ∨ ∃ m, Written past m ∧ m.length = n)

/-- A byte that some message has at this place, or a NUL. -/
def SomeByte (past : List (RaceEvent κ)) (i : Nat) (b : UInt8) : Prop :=
  b = 0 ∨ ∃ m, Written past m ∧ m[i]? = some b

/-- Reads start at `*off = 0` and ask for at least `BUFFER_SIZE` bytes, writes leave room for the
terminator, and no user copy faults. -/
def Admitted (s : Race κ) (a : κ × Act) : Prop :=
  match a.2 with
  | .read len => (s.procs a.1).pos = 0 ∧ bufferSize ≤ len
  | .write buf => buf.length ≤ bufferSize - 1
  | .go c => c = .done

instance (s : Race κ) : (a : κ × Act) → Decidable (Admitted s a)
  | (k, .read len) => inferInstanceAs (Decidable ((s.procs k).pos = 0 ∧ bufferSize ≤ len))
  | (_, .write buf) => inferInstanceAs (Decidable (buf.length ≤ bufferSize - 1))
  | (_, .go c) => inferInstanceAs (Decidable (c = .done))

/-- A call of `dev_read` ends in this event. -/
def ReadReturns (e : RaceEvent κ) (ret : Int) (bytes : List UInt8) : Prop :=
  (∃ len, (e.before.procs e.label.1).pc = .readTest len ∨
    (e.before.procs e.label.1).pc = .readCopy len) ∧
  (e.after.procs e.label.1).pc = .idle ret bytes

def Pc.Storing : Pc → Prop
  | .writeLen _ => True
  | _ => False

def Pc.Busy : Pc → Prop
  | .writeLen _ | .writeNul _ | .readCopy _ => True
  | _ => False

instance : (pc : Pc) → Decidable pc.Storing
  | .writeLen _ => isTrue trivial
  | .idle _ _ | .readTest _ | .readCompare _ | .readAdjust | .readCopy _ => isFalse id
  | .writeCopy _ | .writeNul _ => isFalse id

instance : (pc : Pc) → Decidable pc.Busy
  | .writeLen _ | .writeNul _ | .readCopy _ => isTrue trivial
  | .idle _ _ | .readTest _ | .readCompare _ | .readAdjust | .writeCopy _ => isFalse id

/-- The condition on an interleaving: a message is copied in while no other write has still to store
its length or terminator and no read is about to copy out, and a read takes its length while no
write has still to store one. -/
def Exclusive (s : Race κ) (a : κ × Act) : Prop :=
  match (s.procs a.1).pc with
  | .writeCopy _ => ∀ j, ¬ (s.procs j).pc.Busy
  | .readAdjust => ∀ j, ¬ (s.procs j).pc.Storing
  | _ => True

instance [Fintype κ] (s : Race κ) (a : κ × Act) : Decidable (Exclusive s a) :=
  match h : (s.procs a.1).pc with
  | .writeCopy _ => decidable_of_iff (∀ j, ¬ (s.procs j).pc.Busy) (by rw [Exclusive, h])
  | .readAdjust => decidable_of_iff (∀ j, ¬ (s.procs j).pc.Storing) (by rw [Exclusive, h])
  | .idle _ _ | .readTest _ | .readCompare _ | .readCopy _ | .writeLen _ | .writeNul _ =>
    isTrue (by rw [Exclusive, h]; trivial)

/-- What is known of a call in progress, whatever the others do. -/
def Known (past : List (RaceEvent κ)) (f : File) : Prop :=
  match f.pc with
  | .idle _ _ => True
  | .readTest len | .readCompare len => f.pos = 0 ∧ bufferSize ≤ len
  | .readAdjust => f.pos = 0
  | .readCopy n => f.pos = 0 ∧ SomeLength past n
  | .writeCopy buf => buf.length < bufferSize ∧ Written past buf
  | .writeLen n | .writeNul n => SomeLength past n

structure Patched (past : List (RaceEvent κ)) (s : Race κ) : Prop where
  known : ∀ k, Known past (s.procs k)
  len : ∃ n : Nat, s.shared.bufferLen = n ∧ SomeLength past n
  bytes : ∀ i < bufferSize, SomeByte past i (s.shared.kernelBuffer i)

/-- A step of an admitted run, where the clamp of `dev_read` always cuts its length to the one
stored. -/
inductive Moves (d : Device) (f : File) : Act → Device → File → Prop
  | enterRead {ret bytes len} : f.pc = .idle ret bytes → f.pos = 0 → bufferSize ≤ len →
      Moves d f (.read len) d ⟨f.pos, .readTest len⟩
  | enterWrite {ret bytes buf} : f.pc = .idle ret bytes → buf.length < bufferSize →
      Moves d f (.write buf) d ⟨f.pos, .writeCopy buf⟩
  | empty {len c} : f.pc = .readTest len → d.bufferLen = 0 → Moves d f (.go c) d ⟨f.pos, .idle 0 []⟩
  | test {len c} : f.pc = .readTest len → Moves d f (.go c) d ⟨f.pos, .readCompare len⟩
  | compare {len c} : f.pc = .readCompare len → Moves d f (.go c) d ⟨f.pos, .readAdjust⟩
  | adjust {n c} : f.pc = .readAdjust → d.bufferLen = (n : Nat) →
      Moves d f (.go c) d ⟨f.pos, .readCopy n⟩
  | copyOut {n c} : f.pc = .readCopy n →
      Moves d f (.go c) d ⟨n, .idle n (slice d.kernelBuffer 0 n)⟩
  | copyIn {buf c} : f.pc = .writeCopy buf →
      Moves d f (.go c) ⟨blit d.kernelBuffer 0 buf, d.bufferLen⟩ ⟨f.pos, .writeLen buf.length⟩
  | storeLen {n c} : f.pc = .writeLen n →
      Moves d f (.go c) ⟨d.kernelBuffer, n⟩ ⟨f.pos, .writeNul n⟩
  | storeNul {n c} : f.pc = .writeNul n →
      Moves d f (.go c) ⟨Function.update d.kernelBuffer n 0, d.bufferLen⟩ ⟨f.pos, .idle n []⟩

theorem moves_of_next {past : List (RaceEvent κ)} {s : Race κ} {k : κ} {a : Act} {d' : Device}
    {f' : File} (hs : Patched past s) (hok : Admitted s (k, a))
    (h : next s.shared (s.procs k) a = some (d', f')) : Moves s.shared (s.procs k) a d' f' := by
  have hB := bufferSize_eq
  have hknown := hs.known k
  obtain ⟨n, hn, hlt, -⟩ := hs.len
  cases a with
  | read len =>
    obtain ⟨hpos, hlen⟩ : (s.procs k).pos = 0 ∧ bufferSize ≤ len := hok
    simp only [next] at h
    split at h
    next hpc => cases h; exact .enterRead hpc hpos hlen
    next => cases h
  | write buf =>
    have hlen : buf.length ≤ bufferSize - 1 := hok
    simp only [next] at h
    split at h
    next hpc => cases h; exact .enterWrite hpc (by omega)
    next => cases h
  | go c =>
    cases (show c = .done from hok)
    generalize s.procs k = f at hknown h ⊢
    obtain ⟨pos, pc⟩ := f
    cases pc with
    | idle ret bytes => cases h
    | readTest len =>
      obtain ⟨rfl, -⟩ : pos = 0 ∧ bufferSize ≤ len := hknown
      simp only [next, hn] at h
      split at h
      next hle => cases h; exact .empty rfl (by omega)
      next => cases h; exact .test rfl
    | readCompare len =>
      obtain ⟨rfl, hlen⟩ : pos = 0 ∧ bufferSize ≤ len := hknown
      have hrest : (sizeT ((n : Int) - 0) : Int) = n - 0 := sizeT_of_nonneg (by omega) (by omega)
      simp only [next, hn] at h
      rw [if_pos (by omega)] at h
      cases h
      exact .compare rfl
    | readAdjust =>
      cases (show pos = 0 from hknown)
      have hrest : (sizeT ((n : Int) - 0) : Int) = n - 0 := sizeT_of_nonneg (by omega) (by omega)
      have hsize : sizeT ((n : Int) - 0) = n := by omega
      simp only [next, hn, hsize] at h
      cases h
      exact .adjust rfl hn
    | readCopy m =>
      obtain ⟨rfl, hm, -⟩ : pos = 0 ∧ SomeLength past m := hknown
      simp only [next, copyToUser, Copy.left_done, ne_eq, not_true, if_false, Nat.sub_zero,
        Int.toNat_zero, Int.zero_add, int64_of_bounds (show -(2 ^ 63) ≤ (m : Int) by omega)
        (by omega)] at h
      cases h
      exact .copyOut rfl
    | writeCopy buf =>
      obtain ⟨hlen, -⟩ : buf.length < bufferSize ∧ Written past buf := hknown
      simp only [next, if_neg (Nat.not_lt.mpr (Nat.le_of_lt hlen)), copyFromUser, Copy.left_done, ne_eq,
        not_true, if_false, Copy.stored_of_left (Copy.left_done _), List.take_length] at h
      cases h
      exact .copyIn rfl
    | writeLen m =>
      obtain ⟨hm, -⟩ : SomeLength past m := hknown
      simp only [next, int32_of_bounds (show -(2 ^ 31) ≤ (m : Int) by omega) (by omega)] at h
      cases h
      exact .storeLen rfl
    | writeNul m =>
      obtain ⟨hm, -⟩ : SomeLength past m := hknown
      simp only [next, int64_of_bounds (show -(2 ^ 63) ≤ (m : Int) by omega) (by omega)] at h
      cases h
      exact .storeNul rfl

variable {past : List (RaceEvent κ)} {e : RaceEvent κ} {m : List UInt8} {n i : Nat} {b : UInt8}

theorem Written.mono (h : Written past m) (e : RaceEvent κ) : Written (past ++ [e]) m := by
  obtain ⟨e', he', hlabel⟩ := h
  exact ⟨e', List.mem_append_left _ he', hlabel⟩

theorem SomeLength.mono (h : SomeLength past n) (e : RaceEvent κ) : SomeLength (past ++ [e]) n :=
  ⟨h.1, h.2.imp_right fun ⟨m, hm, hlen⟩ => ⟨m, hm.mono e, hlen⟩⟩

theorem SomeByte.mono (h : SomeByte past i b) (e : RaceEvent κ) : SomeByte (past ++ [e]) i b :=
  Or.imp_right (fun ⟨m, hm, hb⟩ => ⟨m, hm.mono e, hb⟩) h

theorem Known.mono {f : File} (h : Known past f) (e : RaceEvent κ) : Known (past ++ [e]) f := by
  obtain ⟨pos, pc⟩ := f
  cases pc with
  | idle | readTest | readCompare | readAdjust => exact h
  | readCopy n => exact ⟨h.1, h.2.mono e⟩
  | writeCopy buf => exact ⟨h.1, h.2.mono e⟩
  | writeLen n => exact SomeLength.mono h e
  | writeNul n => exact SomeLength.mono h e

theorem Written.someLength (h : Written past m) (hlen : m.length < bufferSize) :
    SomeLength past m.length := ⟨hlen, Or.inr ⟨m, h, rfl⟩⟩

theorem blit_someByte {kb : Memory} (hm : Written past m) (hkb : SomeByte past i (kb i)) :
    SomeByte past i (blit kb 0 m i) := by
  by_cases hi : i < m.length
  · have hb := blit_inside (m := kb) (a := 0) hi
    rw [Nat.zero_add] at hb
    exact Or.inr ⟨m, hm, by rw [hb, List.getElem?_eq_getElem hi]⟩
  · rwa [blit_outside (Or.inr (by omega))]

theorem slice_someByte {kb : Memory} (hkb : ∀ i < bufferSize, SomeByte past i (kb i))
    (hn : n ≤ bufferSize) (hb : (slice kb 0 n)[i]? = some b) : SomeByte past i b := by
  obtain ⟨hi, rfl⟩ := List.getElem?_eq_some_iff.mp hb
  rw [slice_getElem, Nat.zero_add]
  exact hkb i (by rw [slice_length] at hi; omega)

theorem patched_start (other : Memory) : Patched [] (raceStart (κ := κ) other) where
  known _ := trivial
  len := ⟨0, rfl, by decide, Or.inl rfl⟩
  bytes _ hi := Or.inl (if_pos hi)

variable {s s' : Race κ} {k : κ} {a : Act}

theorem Moves.patched {d' : Device} {f' : File} (hm : Moves s.shared (s.procs k) a d' f')
    (hs : Patched past s) (he : e.label = (k, a)) :
    Known (past ++ [e]) f' ∧ (∃ n : Nat, d'.bufferLen = n ∧ SomeLength (past ++ [e]) n) ∧
      ∀ i < bufferSize, SomeByte (past ++ [e]) i (d'.kernelBuffer i) := by
  have hB := bufferSize_eq
  have hknown := hs.known k
  have hlen : ∃ n : Nat, s.shared.bufferLen = n ∧ SomeLength (past ++ [e]) n := by
    obtain ⟨n, hn, hlen⟩ := hs.len
    exact ⟨n, hn, hlen.mono e⟩
  have hbytes : ∀ i < bufferSize, SomeByte (past ++ [e]) i (s.shared.kernelBuffer i) :=
    fun i hi => (hs.bytes i hi).mono e
  generalize s.procs k = f at hm hknown
  obtain ⟨pos, pc⟩ := f
  cases hm with
  | enterRead _ hpos hlong => exact ⟨⟨hpos, hlong⟩, hlen, hbytes⟩
  | enterWrite _ hshort =>
    have hwritten : Written (past ++ [e]) _ := ⟨e, by simp, congrArg Prod.snd he⟩
    exact ⟨⟨hshort, hwritten⟩, hlen, hbytes⟩
  | empty => exact ⟨trivial, hlen, hbytes⟩
  | test hpc =>
    cases hpc
    exact ⟨hknown, hlen, hbytes⟩
  | compare hpc =>
    cases hpc
    exact ⟨hknown.1, hlen, hbytes⟩
  | adjust hpc hn =>
    cases hpc
    obtain ⟨n, hn', hsome⟩ := hlen
    have hnn := Int.ofNat.inj (hn.symm.trans hn')
    exact ⟨⟨hknown, hnn ▸ hsome⟩, ⟨n, hn', hsome⟩, hbytes⟩
  | copyOut => exact ⟨trivial, hlen, hbytes⟩
  | copyIn hpc =>
    cases hpc
    obtain ⟨hshort, hwritten⟩ := hknown
    have hsome := (hwritten.someLength hshort).mono e
    exact ⟨hsome, hlen, fun i hi => blit_someByte (hwritten.mono e) (hbytes i hi)⟩
  | storeLen hpc =>
    cases hpc
    have hsome := SomeLength.mono hknown e
    exact ⟨hsome, ⟨_, rfl, hsome⟩, hbytes⟩
  | @storeNul n c hpc =>
    refine ⟨trivial, hlen, fun i hi => ?_⟩
    dsimp only
    by_cases hin : i = n
    · rw [hin, Function.update_self]
      exact Or.inl rfl
    · rw [Function.update_of_ne hin]
      exact hbytes i hi

theorem Patched.step [DecidableEq κ] (hs : Patched past s) (hok : Admitted s (k, a))
    (h : Interleaving.step next s (k, a) = some s') :
    Patched (past ++ [⟨s, (k, a), s'⟩]) s' := by
  obtain ⟨f', hnext, hprocs⟩ := Interleaving.step_cases h
  obtain ⟨hknown, hlen, hbytes⟩ := (moves_of_next hs hok hnext).patched
    (e := ⟨s, (k, a), s'⟩) hs rfl
  refine ⟨fun j => ?_, hlen, hbytes⟩
  obtain ⟨-, hj⟩ | ⟨-, hj⟩ := Interleaving.moved hprocs j
  · rwa [hj]
  · rw [hj]
    exact (hs.known j).mono _

/-- What an exclusive run keeps: outside the store of a length the buffer holds a whole message of
the stored length, which pending reads and terminators go by; during one it holds the new message,
and nothing else is pending. -/
structure Guarded (past : List (RaceEvent κ)) (s : Race κ) : Prop where
  zero : s.shared.bufferLen = 0 → Whole past []
  calm : (∀ j, ¬ (s.procs j).pc.Storing) → ∃ m, Whole past m ∧
    s.shared.bufferLen = m.length ∧ slice s.shared.kernelBuffer 0 m.length = m
  lens : (∀ j, ¬ (s.procs j).pc.Storing) → ∀ j n,
    (s.procs j).pc = .readCopy n ∨ (s.procs j).pc = .writeNul n → s.shared.bufferLen = n
  storing : ∀ j n, (s.procs j).pc = .writeLen n → ∃ m, Written past m ∧ m.length = n ∧
    slice s.shared.kernelBuffer 0 n = m
  alone : ∀ j, (s.procs j).pc.Storing → ∀ i, (s.procs i).pc.Busy → i = j

theorem Pc.Storing.busy {pc : Pc} (h : pc.Storing) : pc.Busy := by
  cases pc <;> first | exact h | exact absurd h id

theorem Whole.mono (h : Whole past m) (he : ¬ (e.before.procs e.label.1).pc.Storing) :
    Whole (past ++ [e]) m := by
  rcases h with hm | ⟨rfl, hno⟩
  · exact Or.inl (hm.mono e)
  · refine Or.inr ⟨rfl, ?_⟩
    rintro ⟨e', he', n, hn⟩
    rcases List.mem_append.mp he' with hin | hin
    · exact hno ⟨e', hin, n, hn⟩
    · cases List.mem_singleton.mp hin
      rw [hn] at he
      exact he trivial

theorem guarded_start (other : Memory) : Guarded [] (raceStart (κ := κ) other) where
  zero _ := Or.inr ⟨rfl, fun ⟨_, he, _⟩ => absurd he List.not_mem_nil⟩
  calm _ := ⟨[], Or.inr ⟨rfl, fun ⟨_, he, _⟩ => absurd he List.not_mem_nil⟩, rfl, rfl⟩
  lens _ j n h := by rcases h with h | h <;> cases h
  storing _ _ h := by cases h
  alone _ h := absurd h id

/-- A length that is pending but not the one to be stored keeps every store out. -/
theorem Guarded.none_storing (hs : Guarded past s) (hk : ¬ (s.procs k).pc.Storing)
    (hbusy : (s.procs k).pc.Busy) : ∀ j, ¬ (s.procs j).pc.Storing := by
  intro j hj
  cases hs.alone j hj k hbusy
  exact hk hj

theorem guarded_of_calm (hno : ∀ j, ¬ (s.procs j).pc.Storing) (hm : Whole past m)
    (hlen : s.shared.bufferLen = m.length) (hslice : slice s.shared.kernelBuffer 0 m.length = m)
    (hlens : ∀ j n, (s.procs j).pc = .readCopy n ∨ (s.procs j).pc = .writeNul n →
      s.shared.bufferLen = n) : Guarded past s where
  zero h0 := by
    have hnil : m = [] := List.length_eq_zero_iff.mp (Int.ofNat.inj (hlen.symm.trans h0))
    exact hnil ▸ hm
  calm _ := ⟨m, hm, hlen, hslice⟩
  lens _ := hlens
  storing j n hj := absurd (show (s.procs j).pc.Storing by rw [hj]; trivial) (hno j)
  alone j hj := absurd hj (hno j)

theorem Guarded.copied (hs : Guarded past s) (hpc : (s.procs k).pc = .readCopy n) :
    Whole past (slice s.shared.kernelBuffer 0 n) := by
  have hfree := hs.none_storing (k := k) (by rw [hpc]; exact id) (by rw [hpc]; trivial)
  obtain ⟨m, hm, hlen, hslice⟩ := hs.calm hfree
  have hn : n = m.length := Int.ofNat.inj ((hs.lens hfree k n (Or.inl hpc)).symm.trans hlen)
  rwa [hn, hslice]

variable [DecidableEq κ] {f' : File}

/-- Steps that neither change the data nor begin or end a pending store or copy. -/
theorem Guarded.quiet (hs : Guarded past s) (hshared : s'.shared = s.shared)
    (hprocs : s'.procs = Function.update s.procs k f') (hbefore : ¬ (s.procs k).pc.Storing)
    (hafter : ¬ f'.pc.Busy) : Guarded (past ++ [⟨s, (k, a), s'⟩]) s' := by
  have same : ∀ j, (s'.procs j).pc.Busy → s'.procs j = s.procs j := by
    intro j hj
    obtain ⟨-, hjk⟩ | ⟨-, hjk⟩ := Interleaving.moved hprocs j
    · exact absurd (hjk ▸ hj) hafter
    · exact hjk
  have none_storing : (∀ j, ¬ (s'.procs j).pc.Storing) → ∀ j, ¬ (s.procs j).pc.Storing := by
    intro hno j hj
    obtain ⟨rfl, -⟩ | ⟨-, hjk⟩ := Interleaving.moved hprocs j
    · exact hbefore hj
    · exact hno j (hjk ▸ hj)
  constructor
  · exact fun h0 => (hs.zero (hshared ▸ h0)).mono hbefore
  · intro hno
    obtain ⟨m, hm, hrest⟩ := hs.calm (none_storing hno)
    exact ⟨m, hm.mono hbefore, hshared ▸ hrest⟩
  · intro hno j n hj
    have hbusy : (s'.procs j).pc.Busy := by rcases hj with hj | hj <;> rw [hj] <;> trivial
    exact hshared ▸ hs.lens (none_storing hno) j n (same j hbusy ▸ hj)
  · intro j n hj
    have hbusy : (s'.procs j).pc.Busy := by rw [hj]; trivial
    obtain ⟨m, hm, hrest⟩ := hs.storing j n (same j hbusy ▸ hj)
    exact ⟨m, hm.mono _, hshared ▸ hrest⟩
  · intro j hj i hi
    exact hs.alone j (same j hj.busy ▸ hj) i (same i hi ▸ hi)

theorem Guarded.adjust (hs : Guarded past s) (hshared : s'.shared = s.shared)
    (hprocs : s'.procs = Function.update s.procs k ⟨(s.procs k).pos, .readCopy n⟩)
    (hn : s.shared.bufferLen = n) (hfree : ∀ j, ¬ (s.procs j).pc.Storing) :
    Guarded (past ++ [⟨s, (k, a), s'⟩]) s' := by
  obtain ⟨m, hm, hlen, hslice⟩ := hs.calm hfree
  rw [← hshared] at hn hlen hslice
  refine guarded_of_calm (fun j hj => ?_) (hm.mono (hfree k)) hlen hslice fun j n' hj => ?_
  · obtain ⟨-, hjk⟩ | ⟨-, hjk⟩ := Interleaving.moved hprocs j <;> rw [hjk] at hj
    · exact hj
    · exact hfree j hj
  · obtain ⟨-, hjk⟩ | ⟨-, hjk⟩ := Interleaving.moved hprocs j <;> rw [hjk] at hj
    · rcases hj with hj | hj <;> cases hj
      exact hn
    · exact hshared ▸ hs.lens hfree j n' hj

theorem Guarded.copyIn (hs : Guarded past s) {buf : List UInt8}
    (hshared : s'.shared = ⟨blit s.shared.kernelBuffer 0 buf, s.shared.bufferLen⟩)
    (hprocs : s'.procs = Function.update s.procs k ⟨(s.procs k).pos, .writeLen buf.length⟩)
    (hbuf : Written past buf) (hfree : ∀ j, ¬ (s.procs j).pc.Busy) :
    Guarded (past ++ [⟨s, (k, a), s'⟩]) s' := by
  have only : ∀ j, (s'.procs j).pc.Busy →
      j = k ∧ s'.procs j = ⟨(s.procs k).pos, .writeLen buf.length⟩ := by
    intro j hj
    obtain hjk | ⟨-, hjk⟩ := Interleaving.moved hprocs j
    · exact hjk
    · exact absurd (hjk ▸ hj) (hfree j)
  have hstoring : (s'.procs k).pc.Storing := by
    rw [hprocs, Function.update_self]
    trivial
  constructor
  · intro h0
    rw [hshared] at h0
    exact (hs.zero h0).mono fun hk => hfree k hk.busy
  · exact fun hno => absurd hstoring (hno k)
  · exact fun hno => absurd hstoring (hno k)
  · intro j n hj
    obtain ⟨-, hjk⟩ := only j (by rw [hj]; trivial)
    rw [hjk] at hj
    cases hj
    have hslice : slice s'.shared.kernelBuffer 0 buf.length = buf := by
      rw [hshared]
      exact slice_blit_self s.shared.kernelBuffer 0 buf
    exact ⟨buf, hbuf.mono _, rfl, hslice⟩
  · exact fun j hj i hi => (only i hi).1.trans (only j hj.busy).1.symm

theorem Guarded.storeLen (hs : Guarded past s)
    (hshared : s'.shared = ⟨s.shared.kernelBuffer, n⟩)
    (hprocs : s'.procs = Function.update s.procs k ⟨(s.procs k).pos, .writeNul n⟩)
    (hpc : (s.procs k).pc = .writeLen n) : Guarded (past ++ [⟨s, (k, a), s'⟩]) s' := by
  obtain ⟨m, hm, rfl, hslice⟩ := hs.storing k n hpc
  have only : ∀ j, (s'.procs j).pc.Busy → (s'.procs j).pc = .writeNul m.length := by
    intro j hj
    obtain ⟨-, hjk⟩ | ⟨hne, hjk⟩ := Interleaving.moved hprocs j
    · rw [hjk]
    · exact absurd (hs.alone k (by rw [hpc]; trivial) j (hjk ▸ hj)) hne
  have hlen : s'.shared.bufferLen = m.length := by rw [hshared]
  have hslice' : slice s'.shared.kernelBuffer 0 m.length = m := by rwa [hshared]
  refine guarded_of_calm (fun j hj => ?_) (Or.inl (hm.mono _)) hlen hslice' fun j n hj => ?_
  · have honly := only j hj.busy
    rw [honly] at hj
    exact hj
  · have honly := only j (by rcases hj with hj | hj <;> rw [hj] <;> trivial)
    rw [honly] at hj
    rcases hj with hj | hj <;> cases hj
    exact hlen

/-- The terminator falls behind the message that is stored. -/
theorem Guarded.storeNul (hs : Guarded past s)
    (hshared : s'.shared = ⟨Function.update s.shared.kernelBuffer n 0, s.shared.bufferLen⟩)
    (hprocs : s'.procs = Function.update s.procs k ⟨(s.procs k).pos, .idle n []⟩)
    (hpc : (s.procs k).pc = .writeNul n) : Guarded (past ++ [⟨s, (k, a), s'⟩]) s' := by
  have hfree := hs.none_storing (k := k) (by rw [hpc]; exact id) (by rw [hpc]; trivial)
  obtain ⟨m, hm, hlen, hslice⟩ := hs.calm hfree
  have hn := hs.lens hfree k n (Or.inr hpc)
  have hlen' : s'.shared.bufferLen = m.length := by rwa [hshared]
  have hslice' : slice s'.shared.kernelBuffer 0 m.length = m := by
    rw [hshared]
    exact (slice_congr fun i hi => Function.update_of_ne (by omega) _ _).trans hslice
  refine guarded_of_calm (fun j hj => ?_) (hm.mono (hfree k)) hlen' hslice' fun j n' hj => ?_
  · obtain ⟨-, hjk⟩ | ⟨-, hjk⟩ := Interleaving.moved hprocs j <;> rw [hjk] at hj
    · exact hj
    · exact hfree j hj
  · obtain ⟨-, hjk⟩ | ⟨-, hjk⟩ := Interleaving.moved hprocs j <;> rw [hjk] at hj
    · rcases hj with hj | hj <;> cases hj
    · rw [hshared]
      exact hs.lens hfree j n' hj

theorem Guarded.step (hs : Guarded past s) (hp : Patched past s) (hok : Admitted s (k, a))
    (hex : Exclusive s (k, a)) (h : Interleaving.step next s (k, a) = some s') :
    Guarded (past ++ [⟨s, (k, a), s'⟩]) s' := by
  obtain ⟨f', hnext, hprocs⟩ := Interleaving.step_cases h
  have hmove := moves_of_next hp hok hnext
  have hknown := hp.known k
  generalize hd : s'.shared = d' at hmove
  cases hmove with
  | enterRead hpc => exact hs.quiet hd hprocs (by rw [hpc]; exact id) id
  | enterWrite hpc => exact hs.quiet hd hprocs (by rw [hpc]; exact id) id
  | empty hpc => exact hs.quiet hd hprocs (by rw [hpc]; exact id) id
  | test hpc => exact hs.quiet hd hprocs (by rw [hpc]; exact id) id
  | compare hpc => exact hs.quiet hd hprocs (by rw [hpc]; exact id) id
  | adjust hpc hn =>
    simp only [Exclusive, hpc] at hex
    exact hs.adjust hd hprocs hn hex
  | copyOut hpc => exact hs.quiet hd hprocs (by rw [hpc]; exact id) id
  | copyIn hpc =>
    simp only [Exclusive, hpc] at hex
    simp only [Known, hpc] at hknown
    exact hs.copyIn hd hprocs hknown.2 hex
  | storeLen hpc => exact hs.storeLen hd hprocs hpc
  | storeNul hpc => exact hs.storeNul hd hprocs hpc

/-- What a read that ends here hands out. -/
theorem Moves.returns {ret : Int} {bytes : List UInt8} {d d' : Device} {f : File}
    (hm : Moves d f a d' f') (hf : ∃ len, f.pc = .readTest len ∨ f.pc = .readCopy len)
    (hret : f'.pc = .idle ret bytes) :
    ret = 0 ∧ bytes = [] ∧ d.bufferLen = 0 ∨
      ∃ n : Nat, f.pc = .readCopy n ∧ ret = n ∧ bytes = slice d.kernelBuffer 0 n := by
  cases hm with
  | enterRead | enterWrite | test | compare | adjust | copyIn | storeLen => cases hret
  | empty _ h0 =>
    cases hret
    exact Or.inl ⟨rfl, rfl, h0⟩
  | copyOut hpc =>
    cases hret
    exact Or.inr ⟨_, hpc, rfl, rfl⟩
  | storeNul hpc =>
    obtain ⟨len, hlen | hlen⟩ := hf <;> rw [hpc] at hlen <;> cases hlen

/-- In every interleaving a read returns the length of one message, or of none, and each byte from
its place in some message or a NUL; in an exclusive one it returns one whole message. -/
theorem reads_patch_messages {other : Memory} {es later : List (RaceEvent κ)}
    (h : Trace (Interleaving.step next) (raceStart other) es s)
    (hok : ∀ e ∈ es, Admitted e.before e.label) (hes : es = past ++ e :: later) {ret : Int}
    {bytes : List UInt8} (hret : ReadReturns e ret bytes) :
    ret = bytes.length ∧ SomeLength past bytes.length ∧
      (∀ i b, bytes[i]? = some b → SomeByte past i b) ∧
      ((∀ e ∈ es, Exclusive e.before e.label) → Whole past bytes) := by
  have keep : ∀ past (s : Race κ) (a : κ × Act) t, Patched past s → Admitted s a →
      Interleaving.step next s a = some t → Patched (past ++ [⟨s, a, t⟩]) t :=
    fun _ _ _ _ hs hok ht => hs.step hok ht
  obtain ⟨hpatched, hstep⟩ := (h.history keep (patched_start other) hok).2 past e later hes
  have hadmitted := hok e (by rw [hes]; simp)
  obtain ⟨f', hnext, hprocs⟩ := Interleaving.step_cases hstep
  have hmove := moves_of_next hpatched hadmitted hnext
  have hafter : f'.pc = .idle ret bytes := by
    have hidle := hret.2
    rwa [hprocs, Function.update_self] at hidle
  have hguarded : (∀ e ∈ es, Exclusive e.before e.label) → Guarded past e.before := by
    intro hex
    have keep : ∀ past (s : Race κ) (a : κ × Act) t, Patched past s ∧ Guarded past s →
        Admitted s a ∧ Exclusive s a → Interleaving.step next s a = some t →
        Patched (past ++ [⟨s, a, t⟩]) t ∧ Guarded (past ++ [⟨s, a, t⟩]) t :=
      fun _ _ _ _ hs hok ht => ⟨hs.1.step hok.1 ht, hs.2.step hs.1 hok.1 hok.2 ht⟩
    have hall := h.history keep ⟨patched_start other, guarded_start other⟩
      fun e he => ⟨hok e he, hex e he⟩
    exact (hall.2 past e later hes).1.2
  rcases hmove.returns hret.1 hafter with ⟨rfl, rfl, h0⟩ | ⟨n, hpc, rfl, rfl⟩
  · refine ⟨rfl, ⟨by decide, Or.inl rfl⟩, fun i b hb => ?_, fun hex => (hguarded hex).zero h0⟩
    cases hb
  · have hknown := hpatched.known e.label.1
    simp only [Known, hpc] at hknown
    have hn := Nat.le_of_lt hknown.2.1
    rw [slice_length]
    exact ⟨rfl, hknown.2, fun i b hb => slice_someByte hpatched.bytes hn hb,
      fun hex => (hguarded hex).copied hpc⟩

end

/-- A short message is stored and read while a longer one is on its way to the buffer. -/
def taken : List (Bool × Act) :=
  [(true, .write [97, 98]), (true, .go .done), (true, .go .done), (true, .go .done),
    (true, .write [119, 120, 121, 122]), (false, .read 2000), (false, .go .done),
    (false, .go .done), (false, .go .done), (false, .go .done)]

theorem reads_taken :
    (record (Interleaving.step next) (raceStart fun _ => 0) taken).length = taken.length ∧
      Whole (record (Interleaving.step next) (raceStart fun _ => 0) (taken.take 9)) [97, 98] :=
  ⟨by decide, (reads_patch_messages (Trace.recorded _ _ taken) (by decide) rfl
    ⟨⟨2, Or.inr rfl⟩, rfl⟩).2.2.2 (by decide)⟩

/-- One message is copied in while the length in force is still that of another. -/
def torn : List (Option Bool × Act) :=
  [(some true, .write [97, 98]), (some true, .go .done), (some true, .go .done),
    (some true, .go .done), (some false, .write [119, 120, 121, 122]), (some false, .go .done),
    (none, .read 2000), (none, .go .done), (none, .go .done), (none, .go .done), (none, .go .done)]

theorem torn_not_whole :
    ¬ ∀ (κ : Type) (_ : DecidableEq κ) (other : Memory) (es past later : List (RaceEvent κ))
      (e : RaceEvent κ) (s : Race κ) (ret : Int) (bytes : List UInt8),
      Trace (Interleaving.step next) (raceStart other) es s →
      (∀ e ∈ es, Admitted e.before e.label) → es = past ++ e :: later →
      ReadReturns e ret bytes → ret = bytes.length ∧ Whole past bytes := by
  intro h
  have hread := h (Option Bool) inferInstance (fun _ => 0)
    (record (Interleaving.step next) (raceStart fun _ => 0) torn)
    (record (Interleaving.step next) (raceStart fun _ => 0) (torn.take 10)) []
    ⟨last (Interleaving.step next) (raceStart fun _ => 0) (torn.take 10), (none, .go .done),
      last (Interleaving.step next) (raceStart fun _ => 0) torn⟩ _ _
    (slice (last (Interleaving.step next) (raceStart fun _ => 0) torn).shared.kernelBuffer 0 2)
    (Trace.recorded _ _ torn) (by decide) rfl ⟨⟨2, Or.inr rfl⟩, rfl⟩
  have hbytes : slice (last (Interleaving.step next) (raceStart fun _ => 0)
      torn).shared.kernelBuffer 0 2 = [119, 120] := by decide
  rw [hbytes] at hread
  rcases hread.2 with ⟨e, he, hm⟩ | ⟨hnil, -⟩
  · have hother : ∀ a ∈ torn.take 10, a.2 ≠ .write [119, 120] := by simp [torn]
    exact hother _ (label_mem_of_record he) hm
  · cases hnil

end LinuxAssignment.SingleDevice
