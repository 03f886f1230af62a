import LinuxAssignment.CharDevice
import LinuxAssignment.Machine
import Mathlib.Algebra.BigOperators.Group.List.Basic

namespace LinuxAssignment

open ByteMemory Machine

/-- What reads of the given lengths, one after the other, make of some data. -/
def pieces : List UInt8 → List Nat → List (List UInt8)
  | _, [] => []
  | data, l :: lens => data.take l :: pieces (data.drop l) lens

theorem pieces_flatten (data : List UInt8) (lens : List Nat) :
    (pieces data lens).flatten = data.take lens.sum := by
  induction lens generalizing data with
  | nil => simp [pieces]
  | cons l lens ih => simp only [pieces, List.flatten_cons, ih, List.sum_cons, List.take_add]

theorem pieces_length (data : List UInt8) (lens : List Nat) :
    (pieces data lens).length = lens.length := by
  induction lens generalizing data with
  | nil => rfl
  | cons l lens ih => simp only [pieces, List.length_cons, ih]

/-- With positive lengths, a piece is empty only once the pieces before it hold all the data. -/
theorem pieces_split {data piece : List UInt8} {lens : List Nat} {before after : List (List UInt8)}
    (hpos : ∀ l ∈ lens, 0 < l) (h : pieces data lens = before ++ piece :: after) :
    if before.flatten.length < data.length then 1 ≤ piece.length else piece.length = 0 := by
  induction lens generalizing data before with
  | nil => simp [pieces] at h
  | cons l lens ih =>
    have hl := hpos l List.mem_cons_self
    cases before with
    | nil =>
      obtain ⟨rfl, -⟩ := List.cons.inj h
      simp only [List.flatten_nil, List.length_nil, List.length_take]
      split <;> omega
    | cons b before =>
      obtain ⟨rfl, hrest⟩ := List.cons.inj h
      have hh := ih (fun k hk => hpos k (List.mem_cons_of_mem l hk)) hrest
      have hiff : before.flatten.length < (data.drop l).length ↔
          (data.take l :: before).flatten.length < data.length := by
        simp only [List.flatten_cons, List.length_append, List.length_take, List.length_drop]
        omega
      simpa only [hiff] using hh

section

variable {δ π : Type} {drv : CharDriver δ π} {s : CharState δ π} {target : π} {data : List UInt8}
  {fd p : Nat}

/-- Reading a file of the driver at a position hands out the data behind that position. -/
structure Yields (drv : CharDriver δ π) (d : δ) (target : π) (data : List UInt8) : Prop where
  delivered : ∀ len p : Nat, (drv.devRead d target len p .done).delivered = (data.drop p).take len
  ret : ∀ len p : Nat, (drv.devRead d target len p .done).ret = ((data.drop p).take len).length
  off : ∀ len p : Nat,
    (drv.devRead d target len p .done).off = (p + ((data.drop p).take len).length : Nat)
  dev : ∀ len p : Nat, (drv.devRead d target len p .done).dev = d

theorem Yields.of_reads {d : δ} (h : ∀ len p : Nat, ∃ accesses, drv.devRead d target len p .done =
      ⟨((data.drop p).take len).length, d, (p + ((data.drop p).take len).length : Nat), accesses,
        (data.drop p).take len⟩) : Yields drv d target data := by
  constructor <;> intro len p <;> obtain ⟨accesses, hread⟩ := h len p <;> rw [hread]

theorem Yields.serve_read (h : Yields drv s.dev target data) (hf : s.files fd = some ⟨target, p⟩)
    (len : Nat) :
    (drv.serve s (.read fd len none .done)).2.delivered = (data.drop p).take len ∧
      (drv.serve s (.read fd len none .done)).2.ret = ((data.drop p).take len).length ∧
      (drv.serve s (.read fd len none .done)).1.files fd =
        some ⟨target, (p + ((data.drop p).take len).length : Nat)⟩ ∧
      (drv.serve s (.read fd len none .done)).1.dev = s.dev := by
  simp only [CharDriver.serve, onFile, hf, OpenFile.offset, Option.elim, Option.isNone_none,
    ↓reduceIte, Function.update_self, h.delivered, h.ret, h.off, h.dev, and_self]

theorem Yields.serve_reads (h : Yields drv s.dev target data) (hf : s.files fd = some ⟨target, p⟩)
    (lens : List Nat) :
    (replies drv.serve s (lens.map fun l => .read fd l none .done)).map
        (fun r => (r.delivered, r.ret)) =
      (pieces (data.drop p) lens).map fun b => (b, (b.length : Int)) := by
  induction lens generalizing s p with
  | nil => rfl
  | cons l lens ih =>
    obtain ⟨hdel, hret, hf', hdev⟩ := h.serve_read hf l
    have hnext : data.drop (p + ((data.drop p).take l).length) = (data.drop p).drop l := by
      rw [List.drop_drop]
      by_cases hle : p + l ≤ data.length
      · rw [List.length_take, List.length_drop, Nat.min_eq_left (by omega)]
      · rw [List.drop_eq_nil_of_le, List.drop_eq_nil_of_le (by omega)]
        rw [List.length_take, List.length_drop]
        omega
    have hrest := ih (hdev ▸ h) hf'
    rw [hnext] at hrest
    simp only [List.map_cons, replies_cons, pieces, hdel, hret, hrest]

/-- The replies to some reads hand out the data in order, as far as the lengths reach; each of
them returns something while there is something left, and 0 from then on. -/
structure HandsOut (data : List UInt8) (lens : List Nat) (rs : List Response) : Prop where
  bytes : (rs.map Response.delivered).flatten = data.take lens.sum
  count : rs.length = lens.length
  each : ∀ before r after, rs = before ++ r :: after → r.ret = r.delivered.length ∧
    if (before.map Response.delivered).flatten.length < data.length then 1 ≤ r.ret else r.ret = 0

theorem Yields.handsOut (h : Yields drv s.dev target data) (hf : s.files fd = some ⟨target, (0 : Nat)⟩)
    {lens : List Nat} (hpos : ∀ l ∈ lens, 0 < l) :
    HandsOut data lens (replies drv.serve s (lens.map fun l => .read fd l none .done)) := by
  have hreads := h.serve_reads hf lens
  generalize replies drv.serve s (lens.map fun l => .read fd l none .done) = rs at hreads
  have hdel : rs.map Response.delivered = pieces data lens := by
    have hfst := congrArg (List.map Prod.fst) hreads
    simpa [Function.comp_def] using hfst
  have hret : ∀ r ∈ rs, r.ret = r.delivered.length := by
    intro r hr
    have hmem := List.mem_map_of_mem (f := fun r : Response => (r.delivered, r.ret)) hr
    rw [hreads] at hmem
    obtain ⟨b, -, hb⟩ := List.mem_map.mp hmem
    obtain ⟨rfl, hlen⟩ := Prod.mk.inj hb
    exact hlen.symm
  refine ⟨by rw [hdel, pieces_flatten], ?_, ?_⟩
  · rw [← pieces_length data lens, ← hdel, List.length_map]
  · rintro before r after rfl
    have hr := hret r (by simp)
    have hsplit : pieces data lens =
        before.map Response.delivered ++ r.delivered :: after.map Response.delivered := by
      rw [← hdel, List.map_append, List.map_cons]
    refine ⟨hr, ?_⟩
    have hh := pieces_split hpos hsplit
    rw [hr]
    split at hh
    next hlt => rw [if_pos hlt]; omega
    next hge => rw [if_neg hge]; omega

theorem HandsOut.length_le {lens : List Nat} {rs : List Response} (h : HandsOut data lens rs) :
    (rs.map Response.delivered).flatten.length ≤ data.length ∧
      (rs.map Response.delivered).flatten.length ≤ lens.sum := by
  rw [h.bytes, List.length_take]
  exact ⟨Nat.min_le_right _ _, Nat.min_le_left _ _⟩

/-- Once a read returns 0, all the data has been handed out. -/
theorem HandsOut.whole {lens : List Nat} {rs : List Response} (h : HandsOut data lens rs)
    (h0 : ∃ r ∈ rs, r.ret = 0) : data.length ≤ lens.sum := by
  obtain ⟨r, hr, h0⟩ := h0
  obtain ⟨before, after, rfl⟩ := List.append_of_mem hr
  have hlen := h.length_le.2
  have heach := (h.each before r after rfl).2
  rw [List.map_append, List.flatten_append, List.length_append] at hlen
  split at heach
  next => omega
  next => omega

theorem HandsOut.ends {lens : List Nat} {rs : List Response} (h : HandsOut data lens rs)
    (hlong : data.length < lens.length) : ∃ r ∈ rs, r.ret = 0 := by
  by_contra hno
  have hall : ∀ n ∈ (rs.map Response.delivered).map List.length, 1 ≤ n := by
    intro n hn
    simp only [List.map_map, List.mem_map, Function.comp_apply] at hn
    obtain ⟨r, hr, rfl⟩ := hn
    obtain ⟨before, after, hsplit⟩ := List.append_of_mem hr
    obtain ⟨hret, -⟩ := h.each before r after hsplit
    have hne : r.ret ≠ 0 := fun h0 => hno ⟨r, hr, h0⟩
    omega
  have hcount := List.length_le_sum_of_one_le _ hall
  have hlen := h.length_le.1
  rw [List.length_flatten] at hlen
  rw [List.length_map, List.length_map, h.count] at hcount
  omega

def ReadsFile (fd : Nat) : Call π → Prop
  | .read g _ _ _ => g = fd
  | _ => False

instance (fd : Nat) : (call : Call π) → Decidable (ReadsFile fd call)
  | .read g _ _ _ => inferInstanceAs (Decidable (g = fd))
  | .openFile _ _ => isFalse id
  | .write _ _ _ _ => isFalse id

/-- A call that leaves the data alone and does not open the file anew. -/
def LeavesFile (fd : Nat) : Call π → Prop
  | .openFile g _ => g ≠ fd
  | .read _ _ _ _ => True
  | .write _ _ _ _ => False

variable (hdev : ∀ d target len off c, (drv.devRead d target len off c).dev = d)

include hdev

theorem serve_dev {call : Call π} (hcall : ¬ call.IsWrite) : (drv.serve s call).1.dev = s.dev := by
  cases call with
  | openFile g target => rfl
  | write => exact absurd trivial hcall
  | read g len off c =>
    simp only [CharDriver.serve, onFile]
    split
    next => rfl
    next => exact hdev _ _ _ _ _

/-- The replies to the reads of one file are those of a run of these reads alone. -/
theorem repliesIn_reader {calls : List (Call π)} (hcalls : ∀ call ∈ calls, LeavesFile fd call) :
    repliesIn drv.serve (fun _ => ReadsFile fd) s calls =
      replies drv.serve s (calls.filter fun call => ReadsFile fd call) := by
  have same : ∀ (s t : CharState δ π) (call : Call π),
      s.dev = t.dev ∧ s.files fd = t.files fd → LeavesFile fd call → ReadsFile fd call →
      (drv.serve s call).2 = (drv.serve t call).2 ∧
        (drv.serve s call).1.dev = (drv.serve t call).1.dev ∧
        (drv.serve s call).1.files fd = (drv.serve t call).1.files fd := by
    rintro s t call ⟨hd, hf⟩ - hread
    cases call with
    | openFile => exact absurd hread id
    | write => exact absurd hread id
    | read g len off c =>
      cases (show g = fd from hread)
      cases hfile : t.files fd with
      | none => simp [CharDriver.serve, onFile, hf, hfile, hd]
      | some file => cases off <;> simp [CharDriver.serve, onFile, hf, hfile, hd]
  have other : ∀ (s t : CharState δ π) (call : Call π),
      s.dev = t.dev ∧ s.files fd = t.files fd → LeavesFile fd call → ¬ ReadsFile fd call →
      (drv.serve s call).1.dev = t.dev ∧ (drv.serve s call).1.files fd = t.files fd := by
    rintro s t call ⟨hd, hf⟩ hleaves hread
    cases call with
    | write => exact absurd hleaves id
    | openFile g target =>
      exact ⟨hd, (Function.update_of_ne (Ne.symm hleaves) _ _).trans hf⟩
    | read g len off c =>
      have hne : fd ≠ g := fun h => hread h.symm
      have hd' := serve_dev (s := s) hdev (show ¬ (Call.read g len off c).IsWrite from id)
      refine ⟨hd'.trans hd, ?_⟩
      cases hfile : s.files g with
      | none => simp [CharDriver.serve, onFile, hfile, hf]
      | some file =>
        cases off <;> simp [CharDriver.serve, onFile, hfile, hf, Function.update_of_ne hne]
  have hpurge : ∀ (s : CharState δ π) (calls : List (Call π)),
      purge drv.serve (fun _ => ReadsFile fd) s calls =
        calls.filter fun call => ReadsFile fd call := by
    intro s calls
    induction calls generalizing s with
    | nil => rfl
    | cons call calls ih => simp only [purge, List.filter_cons, ih, decide_eq_true_eq]
  rw [repliesIn_eq_replies_purge same other ⟨rfl, rfl⟩ hcalls, hpurge]

end

end LinuxAssignment
