import LinuxAssignment.CharReader
import LinuxAssignment.FailedWrite

namespace LinuxAssignment.SingleDevice

open ByteMemory Machine

abbrev State := CharState Device Unit

structure Stored (d : Device) (data : List UInt8) : Prop where
  len : d.bufferLen = data.length
  bytes : slice d.kernelBuffer 0 data.length = data
  fits : data.length ≤ bufferSize

section

variable {d : Device} {u : Unit} {data buf : List UInt8}

/-- A write stores what of the message fits, whatever was there before. -/
theorem devWrite_stored (d : Device) (u : Unit) (buf : List UInt8) (off : Int) :
    Stored (devWrite d u buf off .done).dev (buf.take bufferSize) := by
  have hn : min buf.length bufferSize = (buf.take bufferSize).length := by
    rw [List.length_take, Nat.min_comm]
  have htake : buf.take (buf.take bufferSize).length = buf.take bufferSize := by
    rw [List.length_take, ← List.take_take, List.take_length]
  rw [devWrite_eq hn, if_neg (by simp), htake]
  refine ⟨rfl, ?_, List.length_take_le _ _⟩
  refine (slice_congr fun i hi => ?_).trans (slice_blit_self d.kernelBuffer 0 _)
  exact Function.update_of_ne (by omega) _ _

theorem Stored.yields (h : Stored d data) : Yields driver d () data := by
  refine .of_reads fun len p => ?_
  have hn : min len (data.length - p) = ((data.drop p).take len).length := by
    rw [List.length_take, List.length_drop]
  have hread := devRead_at (u := ()) h.len h.fits hn .done
  split at hread
  next hp => exact ⟨_, by simpa [driver, List.drop_eq_nil_of_le hp] using hread⟩
  next hp =>
    have hslice := slice_drop_take h.bytes len p
    rw [Nat.zero_add] at hslice
    rw [if_neg (by simp), hslice] at hread
    exact ⟨_, hread⟩

end

section

variable {s : State}

theorem serve_write_stored {fd : Nat} (hf : (s.files fd).isSome) (m : List UInt8)
    (off : Option Position) :
    Stored (driver.serve s (.write fd m off .done)).1.dev (m.take bufferSize) := by
  obtain ⟨file, hfile⟩ := Option.isSome_iff_exists.mp hf
  simp only [CharDriver.serve, onFile, hfile, driver]
  exact devWrite_stored _ _ _ _

theorem final_dev {calls : List (Call Unit)} (hcalls : ∀ call ∈ calls, ¬ call.IsWrite) :
    (final driver.serve s calls).dev = s.dev := by
  have keep : ∀ (t : State) (call : Call Unit), t.dev = s.dev → ¬ call.IsWrite →
      (driver.serve t call).1.dev = s.dev := fun t call ht hcall =>
    (serve_dev devRead_dev hcall).trans ht
  exact final_invariant keep rfl hcalls

/-- After the last message every file opened from then on receives its first `BUFFER_SIZE` bytes,
however its reads are cut and whatever is read on other files in between. -/
theorem reader_receives_message (other : Memory) (past between : List (Call Unit)) (m : List UInt8)
    {writer reader : Nat} {off : Option Position} {calls : List (Call Unit)} {lens : List Nat}
    (hopen : ((final driver.serve (loaded other) past).files writer).isSome)
    (hbetween : ∀ call ∈ between, ¬ call.IsWrite)
    (hcalls : ∀ call ∈ calls, LeavesFile reader call)
    (hreads : calls.filter (fun call => ReadsFile reader call) =
      lens.map fun l => .read reader l none .done)
    (hpos : ∀ l ∈ lens, 0 < l) :
    HandsOut (m.take bufferSize) lens
      (repliesIn driver.serve (fun _ => ReadsFile reader)
        (final driver.serve (loaded other)
          (past ++ .write writer m off .done :: between ++ [.openFile reader ()])) calls) := by
  have hstored := serve_write_stored hopen m off
  have hdev : (final driver.serve (loaded other)
      (past ++ .write writer m off .done :: between ++ [.openFile reader ()])).dev =
      (driver.serve (final driver.serve (loaded other) past)
        (.write writer m off .done)).1.dev := by
    rw [final_append, final_append, final_cons]
    exact (serve_dev devRead_dev id).trans (final_dev hbetween)
  have hfile : (final driver.serve (loaded other)
      (past ++ .write writer m off .done :: between ++ [.openFile reader ()])).files reader =
      some ⟨(), (0 : Nat)⟩ := by
    rw [final_append]
    exact Function.update_self _ _ _
  rw [repliesIn_reader devRead_dev hcalls, hreads]
  exact Yields.handsOut (hdev ▸ hstored.yields) hfile hpos

end

/-- Two readers of a short message that a longer one preceded. -/
def twoReaders : List (Call Unit) :=
  [.read 1 2 none .done, .openFile 2 (), .read 2 9 none .done, .read 1 2 none .done,
    .read 1 2 none .done]

theorem twoReaders_receive :
    HandsOut ([65, 66, 67].take bufferSize) [2, 2, 2]
      (repliesIn driver.serve (fun _ => ReadsFile 1)
        (final driver.serve (loaded fun _ => 0)
          ([.openFile 0 (), .write 0 [9, 9, 9, 9, 9] none .done] ++
            .write 0 [65, 66, 67] none .done :: [] ++ [.openFile 1 ()])) twoReaders) :=
  reader_receives_message (fun _ => 0) [.openFile 0 (), .write 0 [9, 9, 9, 9, 9] none .done] []
    [65, 66, 67] (by decide) (by simp) (by simp [twoReaders, LeavesFile]) rfl (by simp)

end LinuxAssignment.SingleDevice
