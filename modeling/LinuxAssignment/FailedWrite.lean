import LinuxAssignment.MultiDeviceIsolation
import LinuxAssignment.SingleDevice

namespace LinuxAssignment

open ByteMemory StepSystem Machine

section

variable {δ π β : Type}

theorem CharDriver.trace_final (drv : CharDriver δ π) (s : CharState δ π)
    (calls : List (Call π)) :
    Trace drv.step s (record drv.step s calls) (final drv.serve s calls) := by
  induction calls generalizing s with
  | nil => exact .nil
  | cons call calls ih => exact .cons rfl (ih _)

/-- No sequence of opens and reads can tell the two states apart. -/
def Indistinguishable (drv : CharDriver δ π) (s t : CharState δ π) : Prop :=
  ∀ calls : List (Call π), (∀ call ∈ calls, ¬ call.IsWrite) →
    replies drv.serve s calls = replies drv.serve t calls

def SameReturns (drv : CharDriver δ π) (s t : CharState δ π) : Prop :=
  ∀ calls : List (Call π), (∀ call ∈ calls, ¬ call.IsWrite) →
    (replies drv.serve s calls).map Response.ret = (replies drv.serve t calls).map Response.ret

/-- What a failed write leaves behind: the files, the stored lengths and the return values of later
reads are the old ones, and later reads see it exactly unless it stored nothing new. -/
structure FailureLeaves {κ : Type} (drv : CharDriver δ π) (lengths : δ → κ) (s s' : CharState δ π)
    (nothingNew : Prop) : Prop where
  files : s'.files = s.files
  lengths : lengths s'.dev = lengths s.dev
  returns : SameReturns drv s' s
  bytes : Indistinguishable drv s' s ↔ nothingNew

structure SameRead (f : Response → β) (h g : Handled δ) : Prop where
  reply : f ⟨h.ret, h.delivered, h.accesses⟩ = f ⟨g.ret, g.delivered, g.accesses⟩
  off : h.off = g.off

theorem onFile_sameRead {f : Response → β} {Rel : δ → δ → Prop} {s t : CharState δ π}
    (hfiles : t.files = s.files) (hrel : Rel s.dev t.dev) {fd : Nat} {off : Option Position}
    {h g : OpenFile π → Handled δ} (hdev : ∀ file, Rel (h file).dev (g file).dev)
    (hread : ∀ file, s.files fd = some file → SameRead f (h file) (g file)) :
    f (onFile s fd off h).2 = f (onFile t fd off g).2 ∧
      (onFile t fd off g).1.files = (onFile s fd off h).1.files ∧
      Rel (onFile s fd off h).1.dev (onFile t fd off g).1.dev := by
  cases hf : s.files fd with
  | none =>
    simp only [onFile, hfiles, hf]
    exact ⟨trivial, trivial, hrel⟩
  | some file =>
    have hr := hread file hf
    simp only [onFile, hfiles, hf, hr.off]
    exact ⟨hr.reply, trivial, hdev file⟩

/-- If reads change no data and agree on related data, so do sequences of opens and reads. -/
theorem CharDriver.map_replies_eq {drv : CharDriver δ π}
    (hdev : ∀ d p len off c, (drv.devRead d p len off c).dev = d)
    {f : Response → β} {Keep : CharState δ π → Prop} {Rel : δ → δ → Prop}
    (keep : ∀ s call, Keep s → ¬ call.IsWrite → Keep (drv.serve s call).1)
    (hread : ∀ s d' fd file len off c, Keep s → s.files fd = some file → Rel s.dev d' →
      SameRead f (drv.devRead s.dev file.privateData len (file.offset off) c)
        (drv.devRead d' file.privateData len (file.offset off) c))
    {s t : CharState δ π} (hs : Keep s) (hfiles : t.files = s.files) (hrel : Rel s.dev t.dev)
    {calls : List (Call π)} (hcalls : ∀ call ∈ calls, ¬ call.IsWrite) :
    (replies drv.serve t calls).map f = (replies drv.serve s calls).map f := by
  have sim : ∀ (s t : CharState δ π) (call : Call π),
      (Keep s ∧ t.files = s.files ∧ Rel s.dev t.dev) → ¬ call.IsWrite →
      f (drv.serve s call).2 = f (drv.serve t call).2 ∧
        (Keep (drv.serve s call).1 ∧
          (drv.serve t call).1.files = (drv.serve s call).1.files ∧
          Rel (drv.serve s call).1.dev (drv.serve t call).1.dev) := by
    rintro s t call ⟨hs, hfiles, hrel⟩ hw
    have hkept := keep s call hs hw
    cases call with
    | write fd buf off c => exact absurd trivial hw
    | openFile fd target =>
      refine ⟨rfl, hkept, ?_, hrel⟩
      simp only [CharDriver.serve, hfiles]
    | read fd len off c =>
      have hstep : f (drv.serve s (.read fd len off c)).2 = f (drv.serve t (.read fd len off c)).2 ∧
          (drv.serve t (.read fd len off c)).1.files = (drv.serve s (.read fd len off c)).1.files ∧
          Rel (drv.serve s (.read fd len off c)).1.dev (drv.serve t (.read fd len off c)).1.dev :=
        onFile_sameRead hfiles hrel (fun file => by rw [hdev, hdev]; exact hrel)
          fun file hf => hread s t.dev fd file len off c hs hf hrel
      exact ⟨hstep.1, hkept, hstep.2⟩
  exact (Machine.map_replies_eq sim ⟨hs, hfiles, hrel⟩ hcalls).symm

/-- The same where the reads agree only as long as an invariant holds. -/
theorem BoundsContract.map_replies_eq {drv : CharDriver δ π} {size : Nat} {Inv Fine : δ → Prop}
    {inside : Int → Prop} {fits : δ → π → List UInt8 → Int → Copy → Prop}
    (hc : BoundsContract drv size Inv Fine inside fits)
    (hdev : ∀ d p len off c, (drv.devRead d p len off c).dev = d)
    {f : Response → β} {Rel : δ → δ → Prop}
    (hread : ∀ d d' p len off c, Rel d d' → Inv d → LegalOffset off →
      SameRead f (drv.devRead d p len off c) (drv.devRead d' p len off c))
    {s t : CharState δ π} (hs : s.Keeps Inv inside) (hfiles : t.files = s.files)
    (hrel : Rel s.dev t.dev) {calls : List (Call π)} (hcalls : ∀ call ∈ calls, ¬ call.IsWrite) :
    (replies drv.serve t calls).map f = (replies drv.serve s calls).map f := by
  have keep : ∀ (s : CharState δ π) (call : Call π), s.Keeps Inv inside → ¬ call.IsWrite →
      (drv.serve s call).1.Keeps Inv inside := by
    intro s call hs hw
    cases call with
    | write fd buf off c => exact absurd trivial hw
    | openFile | read => exact hc.serve_keeps hs trivial
  exact CharDriver.map_replies_eq hdev keep
    (fun s d' fd file len off c hs hf hrel => hread _ _ _ _ _ c hrel hs.dev (hc.offset_legal hs hf off))
    hs hfiles hrel hcalls

end

namespace SingleDevice

section

variable {d d' : Device}

theorem devRead_dev (d : Device) (u : Unit) (len : Nat) (off : Int) (c : Copy) :
    (devRead d u len off c).dev = d := by
  unfold devRead
  split
  next => rfl
  next =>
    dsimp only
    generalize (if sizeT (d.bufferLen - off) < len then _ else _) = n
    split <;> rfl

theorem devRead_sameReturn (h : d'.bufferLen = d.bufferLen) (u : Unit) (len : Nat) (off : Int)
    (c : Copy) : SameRead Response.ret (devRead d u len off c) (devRead d' u len off c) := by
  simp only [devRead, h]
  split
  next => exact ⟨rfl, rfl⟩
  next =>
    generalize (if sizeT (d.bufferLen - off) < len then _ else _) = n
    by_cases hl : c.left n ≠ 0
    · rw [if_pos (show (copyToUser d.kernelBuffer _ n c).1 ≠ 0 from hl),
        if_pos (show (copyToUser d'.kernelBuffer _ n c).1 ≠ 0 from hl)]
      exact ⟨rfl, rfl⟩
    · rw [if_neg (show ¬ (copyToUser d.kernelBuffer _ n c).1 ≠ 0 from hl),
        if_neg (show ¬ (copyToUser d'.kernelBuffer _ n c).1 ≠ 0 from hl)]
      exact ⟨rfl, rfl⟩

structure SameMessage (d d' : Device) : Prop where
  len : d'.bufferLen = d.bufferLen
  bytes : ∀ i : Nat, i < d.bufferLen → d'.kernelBuffer i = d.kernelBuffer i

theorem devRead_sameMessage (h : SameMessage d d') (hd : LenInRange d) (u : Unit) (len : Nat)
    {off : Int} (ho : LegalOffset off) (c : Copy) :
    SameRead id (devRead d u len off c) (devRead d' u len off c) := by
  obtain ⟨p, rfl⟩ := Int.eq_ofNat_of_zero_le ho.1
  obtain ⟨k, hk, hb⟩ := hd.len_eq
  rw [devRead_at hk hb rfl, devRead_at (h.len.trans hk) hb rfl]
  have hcopy : ∀ n ≤ min len (k - p), slice d'.kernelBuffer p n = slice d.kernelBuffer p n :=
    fun n hn => slice_congr fun i hi => h.bytes (p + i) (by omega)
  split
  next => exact ⟨rfl, rfl⟩
  next =>
    split
    next => exact ⟨by simp only [copyToUser, hcopy _ (Nat.sub_le _ _)], rfl⟩
    next => exact ⟨by simp only [hcopy _ (Nat.le_refl _)], rfl⟩

end

/-- The bytes that a failed write stores, at the start of the buffer, were there before as far as
they belong to the stored message. -/
def StoresNothingNew (d : Device) (buf : List UInt8) (c : Copy) : Prop :=
  ∀ i (h : i < (c.stored buf (min buf.length bufferSize)).length), i < d.bufferLen →
    (c.stored buf (min buf.length bufferSize))[i] = d.kernelBuffer i

instance (d : Device) (buf : List UInt8) (c : Copy) : Decidable (StoresNothingNew d buf c) :=
  inferInstanceAs (Decidable (∀ i (h : i < (c.stored buf (min buf.length bufferSize)).length),
    i < d.bufferLen → (c.stored buf (min buf.length bufferSize))[i] = d.kernelBuffer i))

theorem read_message {s : CharState Device Unit} {fd : Nat} {file : OpenFile Unit}
    (hf : s.files fd = some file) {k : Nat} (hk : s.dev.bufferLen = k) (hb : k ≤ bufferSize) :
    (driver.serve s (.read fd bufferSize (some ⟨0, by decide⟩) .done)).2.delivered =
      slice s.dev.kernelBuffer 0 k := by
  have hn : min bufferSize (k - 0) = k := by omega
  have hread := devRead_at (u := file.privateData) hk hb hn .done
  simp only [CharDriver.serve, onFile, hf, driver, OpenFile.offset, Option.elim]
  rw [show (0 : Int) = (0 : Nat) from rfl, hread]
  split
  next h0 => rw [Nat.le_zero.mp h0, slice_zero]
  next => rfl

theorem failed_write_state {s : CharState Device Unit} {fd : Nat} {buf : List UInt8}
    {off : Option Position} {c : Copy}
    (hret : (driver.serve s (.write fd buf off c)).2.ret = -eFault) :
    (∃ file, s.files fd = some file) ∧
      (driver.serve s (.write fd buf off c)).1.files = s.files ∧
      (driver.serve s (.write fd buf off c)).1.dev =
        ⟨blit s.dev.kernelBuffer 0 (c.stored buf (min buf.length bufferSize)), s.dev.bufferLen⟩ := by
  cases hf : s.files fd with
  | none =>
    simp only [CharDriver.serve, onFile, hf] at hret
    exact absurd hret (by decide)
  | some file =>
    have hoff : ∀ d u buf off c, (devWrite d u buf off c).off = off := by
      intro d u buf off c
      rw [devWrite_eq rfl]
      split <;> rfl
    have hfiles : (driver.serve s (.write fd buf off c)).1.files = s.files :=
      onFile_files fun file _ => hoff s.dev file.privateData buf (file.offset off) c
    refine ⟨⟨file, rfl⟩, hfiles, ?_⟩
    simp only [CharDriver.serve, onFile, hf, driver] at hret ⊢
    rw [devWrite_eq rfl] at hret ⊢
    split at hret
    next hl => rw [if_pos hl]; rfl
    next =>
      simp only [eFault] at hret
      omega

theorem write_not_ePerm (s : CharState Device Unit) (fd : Nat) (buf : List UInt8)
    (off : Option Position) (c : Copy) : (driver.serve s (.write fd buf off c)).2.ret ≠ -ePerm := by
  cases hf : s.files fd with
  | none =>
    simp only [CharDriver.serve, onFile, hf]
    decide
  | some file =>
    simp only [CharDriver.serve, onFile, hf, driver]
    rw [devWrite_eq rfl]
    split <;> simp only [ePerm, eFault] <;> omega

theorem failed_write_leaves {s : CharState Device Unit} (hs : s.Keeps LenInRange Inside) {fd : Nat}
    {buf : List UInt8} {off : Option Position} {c : Copy}
    (hret : (driver.serve s (.write fd buf off c)).2.ret = -eFault) :
    FailureLeaves driver Device.bufferLen s (driver.serve s (.write fd buf off c)).1
      (StoresNothingNew s.dev buf c) := by
  obtain ⟨⟨file, hf⟩, hfiles, hdev⟩ := failed_write_state hret
  refine ⟨hfiles, by rw [hdev], ?_, ?_, ?_⟩
  · intro calls hcalls
    exact boundsContract.map_replies_eq devRead_dev
      (fun d d' u len off c h _ _ => devRead_sameReturn h u len off c) hs hfiles
      (by rw [hdev]) hcalls
  · intro hind i hi hlt
    obtain ⟨k, hk, hb⟩ := hs.dev.len_eq
    have hread := hind [.read fd bufferSize (some ⟨0, by decide⟩) .done] (by simp [Call.IsWrite])
    simp only [replies_cons, replies_nil, List.cons.injEq, and_true] at hread
    have hdel := congrArg Response.delivered hread
    rw [read_message (hfiles ▸ hf) (by rw [hdev, hk]) hb, read_message hf hk hb, hdev] at hdel
    have hbyte := slice_inj hdel (by omega : i < k)
    rw [Nat.zero_add] at hbyte
    rw [← hbyte, ← blit_inside hi, Nat.zero_add]
  · intro hnew calls hcalls
    have hmsg : SameMessage s.dev (driver.serve s (.write fd buf off c)).1.dev := by
      rw [hdev]
      refine ⟨rfl, fun i hi => ?_⟩
      by_cases hin : i < (c.stored buf (min buf.length bufferSize)).length
      · have hb := blit_inside (m := s.dev.kernelBuffer) (a := 0) hin
        rw [Nat.zero_add] at hb
        exact hb.trans (hnew i hin hi)
      · have hb : blit s.dev.kernelBuffer 0 (c.stored buf (min buf.length bufferSize)) i =
            s.dev.kernelBuffer i := blit_outside (Or.inr (by omega))
        exact hb
    simpa using boundsContract.map_replies_eq devRead_dev
      (fun d d' u len off c h hd ho => devRead_sameMessage h hd u len ho c) hs hfiles hmsg hcalls

def holdingAB : CharState Device Unit :=
  final driver.serve (loaded fun _ => 0) [.openFile 0 (), .write 0 [65, 66] none .done]

end SingleDevice

namespace MultiDevice

section

variable {m m' : Memory}

structure SameContents (m m' : Memory) : Prop extends SameShape m m' where
  bytes : ∀ j (i : Nat), permFlag m j &&& 0x2 ≠ 0 → i < dataSize m j →
    m' (bufferAt j + i) = m (bufferAt j + i)

theorem devRead_sameReturn (h : SameShape m m') (dev : Minor) (len : Nat) (off : Int) (c : Copy) :
    SameRead Response.ret (devRead m dev len off c) (devRead m' dev len off c) := by
  simp only [devRead, h.perm, h.size]
  split
  next => exact ⟨rfl, rfl⟩
  next =>
    split
    next => exact ⟨rfl, rfl⟩
    next =>
      generalize min len _ = n
      by_cases hl : c.left n ≠ 0
      · rw [if_pos (show (copyToUser m _ n c).1 ≠ 0 from hl),
          if_pos (show (copyToUser m' _ n c).1 ≠ 0 from hl)]
        exact ⟨rfl, rfl⟩
      · rw [if_neg (show ¬ (copyToUser m _ n c).1 ≠ 0 from hl),
          if_neg (show ¬ (copyToUser m' _ n c).1 ≠ 0 from hl)]
        exact ⟨rfl, rfl⟩

theorem devRead_sameContents (h : SameContents m m') (hs : Sane m) (dev : Minor) (len : Nat)
    {off : Int} (ho : LegalOffset off) (c : Copy) :
    SameRead id (devRead m dev len off c) (devRead m' dev len off c) := by
  obtain ⟨p, rfl⟩ := Int.eq_ofNat_of_zero_le ho.1
  obtain ⟨k, hk, hb⟩ := hs.size_eq dev
  rw [devRead_at hk hb rfl, devRead_at ((h.size dev).trans hk) hb rfl, h.perm]
  split
  next => exact ⟨rfl, rfl⟩
  next hperm =>
    have hcopy : ∀ n ≤ min len (k - p),
        slice m' (bufferAt dev + p) n = slice m (bufferAt dev + p) n := by
      intro n hn
      apply slice_congr
      intro i hi
      have hbyte := h.bytes dev (p + i) hperm (by omega)
      rwa [← Nat.add_assoc] at hbyte
    split
    next => exact ⟨rfl, rfl⟩
    next =>
      split
      next => exact ⟨by simp only [copyToUser, hcopy _ (Nat.sub_le _ _)], rfl⟩
      next => exact ⟨by simp only [hcopy _ (Nat.le_refl _)], rfl⟩

end

/-- The bytes that a failed write stores at its offset were there before, as far as reads of a
readable device reach them. -/
def StoresNothingNew (m : Memory) (dev : Minor) (buf : List UInt8) (off : Int) (c : Copy) : Prop :=
  permFlag m dev &&& 0x2 = 0 ∨
    ∀ i (h : i < (c.stored buf (min buf.length (bufferSize - off.toNat))).length),
      off + i < dataSize m dev →
      (c.stored buf (min buf.length (bufferSize - off.toNat)))[i] =
        m (bufferAt dev + off.toNat + i)

instance (m : Memory) (dev : Minor) (buf : List UInt8) (off : Int) (c : Copy) :
    Decidable (StoresNothingNew m dev buf off c) :=
  inferInstanceAs (Decidable (permFlag m dev &&& 0x2 = 0 ∨
    ∀ i (h : i < (c.stored buf (min buf.length (bufferSize - off.toNat))).length),
      off + i < dataSize m dev →
      (c.stored buf (min buf.length (bufferSize - off.toNat)))[i] =
        m (bufferAt dev + off.toNat + i)))

theorem read_contents {s : State} {fd : Nat} {file : OpenFile Minor}
    (hf : s.files fd = some file) (hperm : permFlag s.dev file.privateData &&& 0x2 ≠ 0) {k : Nat}
    (hk : dataSize s.dev file.privateData = k) (hb : k ≤ bufferSize) :
    (driver.serve s (.read fd bufferSize (some ⟨0, by decide⟩) .done)).2.delivered =
      slice s.dev (bufferAt file.privateData) k := by
  have hn : min bufferSize (k - 0) = k := by omega
  have hread := devRead_at hk hb hn .done
  simp only [CharDriver.serve, onFile, hf, driver, OpenFile.offset, Option.elim]
  rw [show (0 : Int) = (0 : Nat) from rfl, hread, if_neg hperm]
  split
  next h0 => rw [Nat.le_zero.mp h0, slice_zero]
  next => rfl

theorem write_cases {s : State} (hs : s.Keeps Sane Inside) {fd : Nat} {buf : List UInt8}
    {off : Option Position} {c : Copy} (hfit : (Call.write fd buf off c).Fits WriteFits s)
    {file : OpenFile Minor} (hf : s.files fd = some file) :
    devWrite s.dev file.privateData buf (file.offset off) c =
        ⟨-ePerm, s.dev, file.offset off, [], []⟩ ∨
      (∃ p : Nat, file.offset off = p ∧ p ≤ bufferSize ∧
        (devWrite s.dev file.privateData buf (file.offset off) c).ret = -eFault) ∨
      0 ≤ (devWrite s.dev file.privateData buf (file.offset off) c).ret := by
  have hl := boundsContract.offset_legal hs hf off
  by_cases hperm : permFlag s.dev file.privateData &&& 0x1 = 0
  · exact Or.inl (devWrite_denied hperm _ c)
  · right
    rcases hfit file hf (by rwa [← hs.dev.perm]) with hle | ⟨rfl, -, -⟩
    · obtain ⟨p, hp⟩ := Int.eq_ofNat_of_zero_le hl.1
      have hpb : p ≤ bufferSize := by omega
      by_cases hleft : c.left (min buf.length (bufferSize - p)) ≠ 0
      · left
        refine ⟨p, hp, hpb, ?_⟩
        rw [hp, devWrite_at hpb rfl, if_neg hperm, if_pos hleft]
      · right
        rw [hp, devWrite_at hpb rfl, if_neg hperm, if_neg hleft]
        dsimp only
        omega
    · right
      rw [devWrite_nil hperm hl]

/-- A write that is refused changes nothing. -/
theorem refused_write {s : State} {fd : Nat} {file : OpenFile Minor} {buf : List UInt8}
    {off : Option Position} {c : Copy} (hf : s.files fd = some file)
    (hdeny : devWrite s.dev file.privateData buf (file.offset off) c =
      ⟨-ePerm, s.dev, file.offset off, [], []⟩) :
    (driver.serve s (.write fd buf off c)).1 = s := by
  have hfiles : (driver.serve s (.write fd buf off c)).1.files = s.files := by
    refine onFile_files fun g hg => ?_
    cases Option.some.inj (hf.symm.trans hg)
    simp only [driver, hdeny]
  have hdev : (driver.serve s (.write fd buf off c)).1.dev = s.dev := by
    simp only [CharDriver.serve, onFile, hf, driver, hdeny]
  calc (driver.serve s (.write fd buf off c)).1
    _ = ⟨(driver.serve s (.write fd buf off c)).1.dev,
          (driver.serve s (.write fd buf off c)).1.files⟩ := rfl
    _ = s := by rw [hfiles, hdev]

theorem denied_write_state {s : State} (hs : s.Keeps Sane Inside) {fd : Nat} {buf : List UInt8}
    {off : Option Position} {c : Copy} (hfit : (Call.write fd buf off c).Fits WriteFits s)
    (hret : (driver.serve s (.write fd buf off c)).2.ret = -ePerm) :
    (driver.serve s (.write fd buf off c)).1 = s := by
  cases hf : s.files fd with
  | none => simp only [CharDriver.serve, onFile, hf]
  | some file =>
    simp only [CharDriver.serve, onFile, hf, driver] at hret
    rcases write_cases hs hfit hf with hdeny | ⟨p, -, -, hfail⟩ | hdone
    · exact refused_write hf hdeny
    · exact absurd (hfail.symm.trans hret) (by decide)
    · rw [hret] at hdone
      exact absurd hdone (by decide)

/-- What a write does, wherever it is made. -/
theorem devWrite_cases (m : Memory) (dev : Minor) (buf : List UInt8) (off : Int) (c : Copy) :
    devWrite m dev buf off c = ⟨-ePerm, m, off, [], []⟩ ∨
      (∃ dev' accesses, devWrite m dev buf off c = ⟨-eFault, dev', off, accesses, []⟩) ∨
      ∃ n ≤ buf.length, (devWrite m dev buf off c).ret = int64 n := by
  unfold devWrite
  split
  next => exact Or.inl rfl
  next =>
    dsimp only
    split
    next => exact Or.inr (Or.inl ⟨_, _, rfl⟩)
    next => exact Or.inr (Or.inr ⟨_, Nat.min_le_left _ _, rfl⟩)

/-- A write in any state, of a length that a `ssize_t` holds, that is refused or whose copy fails. -/
theorem failed_write_files {s : State} {fd : Nat} {buf : List UInt8} (hlen : buf.length < 2 ^ 63)
    (off : Option Position) (c : Copy) :
    ((driver.serve s (.write fd buf off c)).2.ret = -ePerm →
      (driver.serve s (.write fd buf off c)).1 = s) ∧
    ((driver.serve s (.write fd buf off c)).2.ret = -eFault →
      (driver.serve s (.write fd buf off c)).1.files = s.files) := by
  cases hf : s.files fd with
  | none =>
    simp only [CharDriver.serve, onFile, hf]
    exact ⟨fun _ => trivial, fun _ => trivial⟩
  | some file =>
    have hoff : ∀ h : Handled Memory,
        devWrite s.dev file.privateData buf (file.offset off) c = h → h.off = file.offset off →
        (driver.serve s (.write fd buf off c)).1.files = s.files := by
      rintro h rfl hoff
      refine onFile_files fun g hg => ?_
      cases Option.some.inj (hf.symm.trans hg)
      exact hoff
    rcases devWrite_cases s.dev file.privateData buf (file.offset off) c with
      hdeny | ⟨dev', accesses, hfail⟩ | ⟨n, hn, hret⟩
    · have hfiles := hoff _ hdeny rfl
      exact ⟨fun _ => refused_write hf hdeny, fun _ => hfiles⟩
    · refine ⟨fun hret => ?_, fun _ => hoff _ hfail rfl⟩
      simp only [CharDriver.serve, onFile, hf, driver, hfail] at hret
      exact absurd hret (by decide)
    · have hnat : int64 n = n := int64_of_bounds (by omega) (by omega)
      simp only [CharDriver.serve, onFile, hf, driver, hret, hnat, ePerm, eFault]
      exact ⟨fun h => by omega, fun h => by omega⟩

/-- A copy that fails at an offset inside the buffer stores what it copied there, and nothing else. -/
theorem failed_write_at {s : State} {fd p : Nat} {file : OpenFile Minor} {buf : List UInt8}
    {off : Option Position} {c : Copy} (hf : s.files fd = some file) (hp : file.offset off = p)
    (hpb : p ≤ bufferSize) (hret : (driver.serve s (.write fd buf off c)).2.ret = -eFault) :
    (driver.serve s (.write fd buf off c)).1.files = s.files ∧
      (driver.serve s (.write fd buf off c)).1.dev =
        blit s.dev (bufferAt file.privateData + p)
          (c.stored buf (min buf.length (bufferSize - p))) := by
  simp only [CharDriver.serve, onFile, hf, driver, hp] at hret
  have hfail : devWrite s.dev file.privateData buf p c =
      ⟨-eFault, (copyFromUser s.dev (bufferAt file.privateData + p) buf
        (min buf.length (bufferSize - p)) c).2, p, [(p, min buf.length (bufferSize - p))], []⟩ := by
    rw [devWrite_at hpb rfl] at hret ⊢
    by_cases hperm : permFlag s.dev file.privateData &&& 0x1 = 0
    · rw [if_pos hperm] at hret
      exact absurd hret (show -ePerm ≠ -eFault by decide)
    · rw [if_neg hperm] at hret ⊢
      by_cases hleft : c.left (min buf.length (bufferSize - p)) ≠ 0
      · exact if_pos hleft
      · rw [if_neg hleft] at hret
        simp only [eFault] at hret
        omega
  refine ⟨onFile_files fun g hg => ?_, ?_⟩
  · cases Option.some.inj (hf.symm.trans hg)
    simp only [driver, hp, hfail]
  · simp only [CharDriver.serve, onFile, hf, driver, hp, hfail, copyFromUser]

theorem failed_write_state {s : State} (hs : s.Keeps Sane Inside) {fd : Nat} {buf : List UInt8}
    {off : Option Position} {c : Copy} (hfit : (Call.write fd buf off c).Fits WriteFits s)
    (hret : (driver.serve s (.write fd buf off c)).2.ret = -eFault) :
    ∃ file, ∃ p : Nat, s.files fd = some file ∧ file.offset off = p ∧ p ≤ bufferSize ∧
      (driver.serve s (.write fd buf off c)).1.files = s.files ∧
      (driver.serve s (.write fd buf off c)).1.dev =
        blit s.dev (bufferAt file.privateData + p)
          (c.stored buf (min buf.length (bufferSize - p))) := by
  cases hf : s.files fd with
  | none =>
    simp only [CharDriver.serve, onFile, hf] at hret
    exact absurd hret (by decide)
  | some file =>
    rcases write_cases hs hfit hf with hdeny | ⟨p, hp, hpb, -⟩ | hdone
    · simp only [CharDriver.serve, onFile, hf, driver, hdeny] at hret
      exact absurd hret (show -ePerm ≠ -eFault by decide)
    · exact ⟨file, p, rfl, hp, hpb, failed_write_at hf hp hpb hret⟩
    · simp only [CharDriver.serve, onFile, hf, driver] at hret
      rw [hret] at hdone
      exact absurd hdone (by decide)

/-- A write whose copy fails at an offset inside the buffer is not told by what reads return. -/
theorem failed_write_returns {s : State} {fd : Nat} {buf : List UInt8} {off : Option Position}
    {c : Copy} (hinside : ∀ file, s.files fd = some file → Inside (file.offset off))
    (hret : (driver.serve s (.write fd buf off c)).2.ret = -eFault) :
    dataSize (driver.serve s (.write fd buf off c)).1.dev = dataSize s.dev ∧
      SameReturns driver (driver.serve s (.write fd buf off c)).1 s := by
  cases hf : s.files fd with
  | none =>
    simp only [CharDriver.serve, onFile, hf] at hret
    exact absurd hret (by decide)
  | some file =>
    obtain ⟨hnonneg, hle⟩ := hinside file hf
    obtain ⟨p, hp⟩ := Int.eq_ofNat_of_zero_le hnonneg
    have hpb : p ≤ bufferSize := by omega
    obtain ⟨hfiles, hdev⟩ := failed_write_at hf hp hpb hret
    have hroom : p + (c.stored buf (min buf.length (bufferSize - p))).length ≤ bufferSize := by
      have := c.stored_length_le buf (min buf.length (bufferSize - p))
      omega
    have hshape := blit_sameShape s.dev file.privateData hroom
    rw [← hdev] at hshape
    have keep : ∀ (s : State) (call : Call Minor), True → ¬ call.IsWrite → True :=
      fun _ _ _ _ => trivial
    exact ⟨funext hshape.size, fun calls hcalls => CharDriver.map_replies_eq devRead_dev keep
      (fun s d' fd file len off c _ _ hrel => devRead_sameReturn hrel file.privateData len _ c)
      trivial hfiles hshape hcalls⟩

theorem blit_sameContents {m : Memory} (hs : Sane m) {dev : Minor} {p : Nat} {bs : List UInt8}
    (h : p + bs.length ≤ bufferSize)
    (hnew : permFlag m dev &&& 0x2 = 0 ∨ ∀ i (hi : i < bs.length),
      (p : Int) + i < dataSize m dev → bs[i] = m (bufferAt dev + p + i)) :
    SameContents m (blit m (bufferAt dev + p) bs) := by
  have hB := bufferSize_eq
  have hb := bufferAt_eq dev
  refine ⟨blit_sameShape m dev h, fun j i hperm hi => ?_⟩
  obtain ⟨k, hk, hkb⟩ := hs.size_eq j
  have hbj := bufferAt_eq j
  by_cases hin : bufferAt dev + p ≤ bufferAt j + i ∧ bufferAt j + i < bufferAt dev + p + bs.length
  · have hj : j = dev := Fin.ext (by omega)
    subst hj
    have hpi : bufferAt j + i = bufferAt j + p + (i - p) := by omega
    have hlt : i - p < bs.length := by omega
    rw [hpi, blit_inside hlt]
    exact hnew.resolve_left hperm (i - p) hlt (by omega)
  · exact blit_outside (by omega)

theorem failed_write_leaves {s : State} (hs : s.Keeps Sane Inside) {fd : Nat} {buf : List UInt8}
    {off : Option Position} {c : Copy} (hfit : (Call.write fd buf off c).Fits WriteFits s)
    (hret : (driver.serve s (.write fd buf off c)).2.ret = -eFault) :
    FailureLeaves driver dataSize s (driver.serve s (.write fd buf off c)).1
      (∀ file, s.files fd = some file →
        StoresNothingNew s.dev file.privateData buf (file.offset off) c) := by
  obtain ⟨file, p, hf, hp, hpb, hfiles, hdev⟩ := failed_write_state hs hfit hret
  have hroom : p + (c.stored buf (min buf.length (bufferSize - p))).length ≤ bufferSize := by
    have := c.stored_length_le buf (min buf.length (bufferSize - p))
    omega
  have hshape := blit_sameShape s.dev file.privateData hroom
  rw [← hdev] at hshape
  refine ⟨hfiles, funext hshape.size, ?_, ?_, ?_⟩
  · intro calls hcalls
    exact boundsContract.map_replies_eq devRead_dev
      (fun d d' dev len off c h _ _ => devRead_sameReturn h dev len off c) hs hfiles hshape hcalls
  · intro hind g hg
    cases Option.some.inj (hf.symm.trans hg)
    simp only [StoresNothingNew, or_iff_not_imp_left, hp, Int.toNat_natCast]
    intro hperm i hi hlt
    obtain ⟨k, hk, hb⟩ := hs.dev.size_eq file.privateData
    have hread := hind [.read fd bufferSize (some ⟨0, by decide⟩) .done] (by simp [Call.IsWrite])
    simp only [replies_cons, replies_nil, List.cons.injEq, and_true] at hread
    have hdel := congrArg Response.delivered hread
    rw [read_contents (hfiles ▸ hf) (by rwa [hshape.perm]) ((hshape.size _).trans hk) hb,
      read_contents hf hperm hk hb, hdev] at hdel
    have hbyte := slice_inj hdel (by omega : p + i < k)
    rw [← Nat.add_assoc, blit_inside hi] at hbyte
    exact hbyte
  · intro hnew calls hcalls
    have hcont : SameContents s.dev (driver.serve s (.write fd buf off c)).1.dev := by
      have hn := hnew file hf
      rw [StoresNothingNew, hp, Int.toNat_natCast] at hn
      rw [hdev]
      exact blit_sameContents hs.dev hroom hn
    simpa using boundsContract.map_replies_eq devRead_dev
      (fun d d' dev len off c h hd ho => devRead_sameContents h hd dev len ho c) hs hfiles hcont
      hcalls

def holdingAB : State :=
  final driver.serve (loaded fun _ => 0) [.openFile 0 hello1, .write 0 [65, 66] none .done]

theorem holdingAB_fits :
    ∀ e ∈ record driver.step (loaded fun _ => 0) [.openFile 0 hello1, .write 0 [65, 66] none .done],
      e.label.Fits WriteFits e.before := by
  intro e he
  simp only [record, CharDriver.step, List.mem_cons, List.not_mem_nil, or_false] at he
  rcases he with rfl | rfl
  · trivial
  · intro file hf _
    cases Option.some.inj hf
    exact Or.inl (by decide)

end MultiDevice

/-- A write refused for its permissions changes nothing, and one whose copy fails changes at most bytes
of the buffer it was to write, which later reads see exactly unless they are the old ones; the parts
need more and more of the offsets of writes to be inside the buffers. -/
theorem failed_write_observable :
    (∀ (other : Memory) (es : List (Event (CharState SingleDevice.Device Unit) (Call Unit)))
      (s : CharState SingleDevice.Device Unit),
      Trace SingleDevice.driver.step (SingleDevice.loaded other) es s →
      ∀ (fd : Nat) (buf : List UInt8) (off : Option Position) (c : Copy),
        ((SingleDevice.driver.serve s (.write fd buf off c)).2.ret = -ePerm →
          (SingleDevice.driver.serve s (.write fd buf off c)).1 = s) ∧
        ((SingleDevice.driver.serve s (.write fd buf off c)).2.ret = -eFault →
          FailureLeaves SingleDevice.driver SingleDevice.Device.bufferLen s
            (SingleDevice.driver.serve s (.write fd buf off c)).1
            (SingleDevice.StoresNothingNew s.dev buf c))) ∧
    (∀ (s : MultiDevice.State) (fd : Nat) (buf : List UInt8) (off : Option Position) (c : Copy),
      (buf.length < 2 ^ 63 →
        ((MultiDevice.driver.serve s (.write fd buf off c)).2.ret = -ePerm →
          (MultiDevice.driver.serve s (.write fd buf off c)).1 = s) ∧
        ((MultiDevice.driver.serve s (.write fd buf off c)).2.ret = -eFault →
          (MultiDevice.driver.serve s (.write fd buf off c)).1.files = s.files)) ∧
      ((∀ file, s.files fd = some file → MultiDevice.Inside (file.offset off)) →
        (MultiDevice.driver.serve s (.write fd buf off c)).2.ret = -eFault →
        MultiDevice.dataSize (MultiDevice.driver.serve s (.write fd buf off c)).1.dev =
            MultiDevice.dataSize s.dev ∧
          SameReturns MultiDevice.driver (MultiDevice.driver.serve s (.write fd buf off c)).1 s)) ∧
    (∀ (other : Memory) (es : List (Event MultiDevice.State (Call MultiDevice.Minor)))
      (s : MultiDevice.State),
      Trace MultiDevice.driver.step (MultiDevice.loaded other) es s →
      (∀ e ∈ es, e.label.Fits MultiDevice.WriteFits e.before) →
      ∀ (fd : Nat) (buf : List UInt8) (off : Option Position) (c : Copy),
        (Call.write fd buf off c).Fits MultiDevice.WriteFits s →
        ((MultiDevice.driver.serve s (.write fd buf off c)).2.ret = -ePerm →
          (MultiDevice.driver.serve s (.write fd buf off c)).1 = s) ∧
        ((MultiDevice.driver.serve s (.write fd buf off c)).2.ret = -eFault →
          FailureLeaves MultiDevice.driver MultiDevice.dataSize s
            (MultiDevice.driver.serve s (.write fd buf off c)).1
            (∀ file, s.files fd = some file →
              MultiDevice.StoresNothingNew s.dev file.privateData buf (file.offset off) c))) := by
  refine ⟨?_, fun s fd buf off c => ?_, ?_⟩
  · intro other es s h fd buf off c
    exact ⟨fun hret => absurd hret (SingleDevice.write_not_ePerm s fd buf off c),
      SingleDevice.failed_write_leaves (SingleDevice.trace_keeps h)⟩
  · exact ⟨fun hlen => MultiDevice.failed_write_files hlen off c, MultiDevice.failed_write_returns⟩
  · intro other es s h hfits fd buf off c hfit
    have hs := MultiDevice.boundsContract.trace_keeps h (MultiDevice.loaded_keeps other) hfits
    exact ⟨MultiDevice.denied_write_state hs hfit, MultiDevice.failed_write_leaves hs hfit⟩

/-- Rewriting the byte already there, or bytes behind the stored ones, goes unseen. -/
theorem failed_write_unseen :
    Indistinguishable SingleDevice.driver
      (SingleDevice.driver.serve SingleDevice.holdingAB (.write 0 [65, 88] none (.fault 1 false))).1
      SingleDevice.holdingAB ∧
    Indistinguishable MultiDevice.driver
      (MultiDevice.driver.serve MultiDevice.holdingAB (.write 0 [88, 89] none (.fault 1 true))).1
      MultiDevice.holdingAB := by
  constructor
  · exact ((failed_write_observable.1 _ _ _ (CharDriver.trace_final _ _ _) _ _ _ _).2
      (by decide)).bytes.mpr (by decide)
  · refine ((failed_write_observable.2.2 _ _ _ (CharDriver.trace_final _ _ _)
      MultiDevice.holdingAB_fits _ _ _ _ ?_).2 (by decide)).bytes.mpr ?_
    · intro file hf _
      cases Option.some.inj hf
      exact Or.inl (by decide)
    · intro file hf
      cases Option.some.inj hf
      decide

/-- A write of `XY` that faults after its first byte turns the message `AB` into `XB`. -/
theorem failed_write_seen :
    (¬ ∀ (other : Memory) (es : List (Event (CharState SingleDevice.Device Unit) (Call Unit)))
      (s : CharState SingleDevice.Device Unit),
      Trace SingleDevice.driver.step (SingleDevice.loaded other) es s →
      ∀ (fd : Nat) (buf : List UInt8) (off : Option Position) (c : Copy),
        (SingleDevice.driver.serve s (.write fd buf off c)).2.ret = -eFault →
        Indistinguishable SingleDevice.driver
          (SingleDevice.driver.serve s (.write fd buf off c)).1 s) ∧
    (¬ ∀ (other : Memory) (es : List (Event MultiDevice.State (Call MultiDevice.Minor)))
      (s : MultiDevice.State),
      Trace MultiDevice.driver.step (MultiDevice.loaded other) es s →
      ∀ (fd : Nat) (buf : List UInt8) (off : Option Position) (c : Copy),
        (MultiDevice.driver.serve s (.write fd buf off c)).2.ret = -eFault →
        Indistinguishable MultiDevice.driver
          (MultiDevice.driver.serve s (.write fd buf off c)).1 s) := by
  constructor
  · intro h
    have hsame := h (fun _ => 0) _ SingleDevice.holdingAB (CharDriver.trace_final _ _ _) 0 [88, 89]
      none (.fault 1 false) (by decide)
    have hread := hsame [.read 0 2 none .done] (by simp [Call.IsWrite])
    exact absurd hread (by decide)
  · intro h
    have hsame := h (fun _ => 0) _ MultiDevice.holdingAB (CharDriver.trace_final _ _ _) 0 [88, 89]
      (some ⟨0, by decide⟩) (.fault 1 false) (by decide)
    have hread := hsame [.read 0 2 (some ⟨0, by decide⟩) .done] (by simp [Call.IsWrite])
    exact absurd hread (by decide)

end LinuxAssignment
