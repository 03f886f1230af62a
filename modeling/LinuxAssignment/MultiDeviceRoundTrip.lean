import LinuxAssignment.CharReader
import LinuxAssignment.MultiDeviceIsolation

namespace LinuxAssignment.MultiDevice

open ByteMemory Machine

structure Stored (m : Memory) (j : Minor) (data : List UInt8) : Prop where
  size : dataSize m j = data.length
  bytes : slice m (bufferAt j) data.length = data
  fits : data.length ≤ bufferSize

section

variable {m : Memory} {j : Minor} {acc chunk data : List UInt8}

theorem take_append_clamp {k : Nat} (h : acc.length ≤ k) :
    (acc ++ chunk).take k = acc ++ chunk.take (k - acc.length) := by
  rw [List.take_append, List.take_of_length_le h]

theorem take_take_append (xs ys : List UInt8) (k : Nat) :
    (xs.take k ++ ys).take k = (xs ++ ys).take k := by
  rw [List.take_append, List.take_append, List.take_take, Nat.min_self, List.length_take]
  congr 2
  omega

/-- A write behind the bytes `acc` stores what of the chunk fits, whatever the size was. -/
theorem devWrite_stored (hperm : permFlag m j &&& 0x1 ≠ 0) (hlen : acc.length ≤ bufferSize)
    (hacc : slice m (bufferAt j) acc.length = acc) (chunk : List UInt8) :
    (devWrite m j chunk acc.length .done).ret + acc.length =
        ((acc ++ chunk).take bufferSize).length ∧
      (devWrite m j chunk acc.length .done).off = ((acc ++ chunk).take bufferSize).length ∧
      Stored (devWrite m j chunk acc.length .done).dev j ((acc ++ chunk).take bufferSize) := by
  have hB := bufferSize_eq
  have hb := bufferAt_eq j
  have hs := sizeAt_eq j
  rw [take_append_clamp hlen]
  have hn : min chunk.length (bufferSize - acc.length) =
      (chunk.take (bufferSize - acc.length)).length := by
    rw [List.length_take, Nat.min_comm]
  have hfit : (chunk.take (bufferSize - acc.length)).length ≤ bufferSize - acc.length :=
    List.length_take_le _ _
  have htake : chunk.take (chunk.take (bufferSize - acc.length)).length =
      chunk.take (bufferSize - acc.length) := by
    rw [List.length_take, ← List.take_take, List.take_length]
  rw [devWrite_at hlen hn, if_neg hperm, if_neg (by simp), htake]
  generalize chunk.take (bufferSize - acc.length) = new at hfit ⊢
  dsimp only
  refine ⟨by rw [List.length_append]; omega, by rw [List.length_append]; omega, ?_, ?_, ?_⟩
  · rw [dataSize, load32_store32, int32_of_bounds (by omega) (by omega), List.length_append]
    omega
  · rw [List.length_append, slice_add]
    congr 1
    · refine (slice_congr fun i hi => ?_).trans hacc
      exact (store32_outside (by omega)).trans (blit_outside (by omega))
    · refine (slice_congr fun i hi => ?_).trans (slice_blit_self m (bufferAt j + acc.length) new)
      exact store32_outside (by omega)
  · rw [List.length_append]
    omega

theorem Stored.yields (hst : Stored m j data) (hperm : permFlag m j &&& 0x2 ≠ 0) :
    Yields driver m j data := by
  refine .of_reads fun len p => ?_
  have hn : min len (data.length - p) = ((data.drop p).take len).length := by
    rw [List.length_take, List.length_drop]
  have hread := devRead_at hst.size hst.fits hn .done
  rw [if_neg hperm] at hread
  split at hread
  next hp => exact ⟨_, by simpa [driver, List.drop_eq_nil_of_le hp] using hread⟩
  next hp =>
    rw [if_neg (by simp), slice_drop_take hst.bytes len p] at hread
    exact ⟨_, hread⟩

end

section

variable {j : Minor} {fd : Nat} {t : State}

theorem write_stored (hs : t.Keeps Sane Inside) (hperm : (devices j).permFlag &&& 0x1 ≠ 0)
    {acc : List UInt8} (hf : t.files fd = some ⟨j, acc.length⟩)
    (hacc : slice t.dev (bufferAt j) acc.length = acc) (chunk : List UInt8) :
    (driver.serve t (.write fd chunk none .done)).2.ret + acc.length =
        ((acc ++ chunk).take bufferSize).length ∧
      (driver.serve t (.write fd chunk none .done)).1.files fd =
        some ⟨j, ((acc ++ chunk).take bufferSize).length⟩ ∧
      Stored (driver.serve t (.write fd chunk none .done)).1.dev j
        ((acc ++ chunk).take bufferSize) := by
  have hle := (hs.pos fd _ hf).2
  dsimp only at hle
  have hw := devWrite_stored (by rwa [hs.dev.perm]) (by omega : acc.length ≤ bufferSize) hacc
    chunk
  simp only [CharDriver.serve, onFile, hf, OpenFile.offset, Option.elim, driver, Option.isNone_none,
    ↓reduceIte, Function.update_self, hw.2.1]
  exact ⟨hw.1, trivial, hw.2.2⟩

theorem writes_stored (hs : t.Keeps Sane Inside) (hperm : (devices j).permFlag &&& 0x1 ≠ 0)
    {acc : List UInt8} (hf : t.files fd = some ⟨j, acc.length⟩) (hst : Stored t.dev j acc)
    (chunks : List (List UInt8)) :
    ((replies driver.serve t (chunks.map fun b => .write fd b none .done)).map Response.ret).sum +
        acc.length = ((acc ++ chunks.flatten).take bufferSize).length ∧
      Stored (final driver.serve t (chunks.map fun b => .write fd b none .done)).dev j
        ((acc ++ chunks.flatten).take bufferSize) := by
  induction chunks generalizing t acc with
  | nil =>
    have htake : (acc ++ ([] : List (List UInt8)).flatten).take bufferSize = acc := by
      rw [List.flatten_nil, List.append_nil, List.take_of_length_le hst.fits]
    rw [htake]
    exact ⟨by simp, hst⟩
  | cons chunk chunks ih =>
    obtain ⟨hret, hf', hst'⟩ := write_stored hs hperm hf hst.bytes chunk
    have hs' : (driver.serve t (.write fd chunk none .done)).1.Keeps Sane Inside := plain_keeps hs rfl
    have hh := ih hs' hf' hst'
    have htake : ((acc ++ chunk).take bufferSize ++ chunks.flatten).take bufferSize =
        (acc ++ (chunk :: chunks).flatten).take bufferSize := by
      rw [take_take_append, List.flatten_cons, List.append_assoc]
    rw [htake] at hh
    simp only [List.map_cons, replies_cons, final_cons, List.sum_cons]
    exact ⟨by omega, hh.2⟩

end

/-- The calls of one writer and then one reader of device `j`, each on a file of its own. -/
def session (j : Minor) (fw fr : Nat) (chunks : List (List UInt8)) (lens : List Nat) :
    List (Call Minor) :=
  .openFile fw j :: (chunks.map fun b => .write fw b none .done) ++
    .openFile fr j :: lens.map fun l => .read fr l none .done

theorem session_replies {s : State} (hs : s.Keeps Sane Inside) {j : Minor}
    (hw : (devices j).permFlag &&& 0x1 ≠ 0) (hr : (devices j).permFlag &&& 0x2 ≠ 0) (fw fr : Nat)
    {chunks : List (List UInt8)} (hne : chunks ≠ []) {lens : List Nat}
    (hpos : ∀ l ∈ lens, 0 < l) :
    ∃ writes reads, replies driver.serve s (session j fw fr chunks lens) =
        ⟨0, [], []⟩ :: writes ++ ⟨0, [], []⟩ :: reads ∧
      writes.length = chunks.length ∧ reads.length = lens.length ∧
      (writes.map Response.ret).sum = (chunks.flatten.take bufferSize).length ∧
      (reads.map Response.delivered).flatten = (chunks.flatten.take bufferSize).take lens.sum ∧
      ((∃ r ∈ reads, r.ret = 0) →
        (reads.map Response.delivered).flatten = chunks.flatten.take bufferSize) ∧
      (bufferSize < lens.length → ∃ r ∈ reads, r.ret = 0) := by
  obtain ⟨chunk, rest, rfl⟩ := List.exists_cons_of_ne_nil hne
  let t := (driver.serve s (.openFile fw j)).1
  have ht : t.Keeps Sane Inside := openFile_keeps hs boundsContract.zero fw j
  have htf : t.files fw = some ⟨j, ([] : List UInt8).length⟩ := by
    simp [t, CharDriver.serve]
  obtain ⟨hret, hf, hst⟩ := write_stored ht hw htf rfl chunk
  have ht' : (driver.serve t (.write fw chunk none .done)).1.Keeps Sane Inside := plain_keeps ht rfl
  obtain ⟨hsum, hst'⟩ := writes_stored ht' hw hf hst rest
  have hdata : ((([] : List UInt8) ++ chunk).take bufferSize ++ rest.flatten).take bufferSize =
      (chunk :: rest).flatten.take bufferSize := by
    rw [take_take_append, List.nil_append, List.flatten_cons]
  rw [hdata] at hsum hst'
  let u := final driver.serve t ((chunk :: rest).map fun b => .write fw b none .done)
  have hu : u.Keeps Sane Inside := plain_run_keeps ht (by
    intro call hcall
    obtain ⟨b, -, rfl⟩ := List.mem_map.mp hcall
    rfl)
  let v := (driver.serve u (.openFile fr j)).1
  have hvf : v.files fr = some ⟨j, (0 : Nat)⟩ := by simp [v, CharDriver.serve]
  have hv : v.Keeps Sane Inside := openFile_keeps hu boundsContract.zero fr j
  have hperm : permFlag v.dev j &&& 0x2 ≠ 0 := by rwa [hv.dev.perm]
  have hyields : Yields driver v.dev j ((chunk :: rest).flatten.take bufferSize) :=
    Stored.yields hst' hperm
  have hands := hyields.handsOut hvf hpos
  have hfit := hst'.fits
  refine ⟨replies driver.serve t ((chunk :: rest).map fun b => .write fw b none .done),
    replies driver.serve v (lens.map fun l => .read fr l none .done), ?_, ?_, ?_, ?_, ?_, ?_, ?_⟩
  · simp only [session, List.cons_append, replies_cons, replies_append]
    rfl
  · simp [replies_length]
  · simp [replies_length]
  · simp only [List.map_cons, replies_cons, List.sum_cons]
    simp only [List.length_nil] at hret
    omega
  · exact hands.bytes
  · intro h0
    rw [hands.bytes]
    exact List.take_of_length_le (hands.whole h0)
  · intro hlt
    exact hands.ends (by omega)

/-- The chunked round trip, from any state that plain calls reach and with any plain calls on the
other devices in between: the writes take, and the reads deliver, the first `BUFFER_SIZE` bytes of
the chunks. -/
theorem chunked_round_trip (other : Memory) {past calls : List (Call Minor)}
    (hpast : ∀ call ∈ past, call.Plain) (hplain : ∀ call ∈ calls, call.Plain) {j : Minor}
    (hw : (devices j).permFlag &&& 0x1 ≠ 0) (hr : (devices j).permFlag &&& 0x2 ≠ 0) {fw fr : Nat}
    {chunks : List (List UInt8)} (hne : chunks ≠ []) {lens : List Nat} (hpos : ∀ l ∈ lens, 0 < l)
    (hsession : purge driver.serve (OnMinor j) (final driver.serve (loaded other) past) calls =
      session j fw fr chunks lens) :
    ∃ writes reads,
      repliesIn driver.serve (OnMinor j) (final driver.serve (loaded other) past) calls =
        ⟨0, [], []⟩ :: writes ++ ⟨0, [], []⟩ :: reads ∧
      writes.length = chunks.length ∧ reads.length = lens.length ∧
      (writes.map Response.ret).sum = (chunks.flatten.take bufferSize).length ∧
      (reads.map Response.delivered).flatten = (chunks.flatten.take bufferSize).take lens.sum ∧
      ((∃ r ∈ reads, r.ret = 0) →
        (reads.map Response.delivered).flatten = chunks.flatten.take bufferSize) ∧
      (bufferSize < lens.length → ∃ r ∈ reads, r.ret = 0) := by
  have hs := plain_run_keeps (loaded_keeps other) hpast
  rw [repliesIn_minor hs hplain j, hsession]
  exact session_replies hs hw hr fw fr hne hpos

def helloCalls : List (Call Minor) :=
  [.openFile 0 hello1, .openFile 1 sensor0, .write 0 [1, 2] none .done, .write 1 [9] none .done,
    .write 0 [3] none .done, .openFile 2 hello1, .read 2 2 none .done, .read 2 2 none .done,
    .write 1 [] none .done, .read 2 2 none .done]

theorem hello1_round_trip : ∃ writes reads : List Response,
    repliesIn driver.serve (OnMinor hello1) (loaded fun _ => 0) helloCalls =
      ⟨0, [], []⟩ :: writes ++ ⟨0, [], []⟩ :: reads ∧
    (writes.map Response.ret).sum = 3 ∧ (reads.map Response.delivered).flatten = [1, 2, 3] := by
  have hsession : purge driver.serve (OnMinor hello1) (final driver.serve (loaded fun _ => 0) [])
      helloCalls = session hello1 0 2 [[1, 2], [3]] [2, 2, 2] := rfl
  obtain ⟨writes, reads, hreplies, -, -, hsum, hflat, -⟩ :=
    chunked_round_trip (fun _ => 0) (by simp) (by simp [helloCalls, Call.Plain]) (by decide)
      (by decide) (by simp) (by simp) hsession
  exact ⟨writes, reads, hreplies, hsum, hflat⟩

end LinuxAssignment.MultiDevice
