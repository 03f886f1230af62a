import LinuxAssignment.MultiDeviceBounds
import LinuxAssignment.Machine
import Mathlib.Data.List.Induction

namespace LinuxAssignment.MultiDevice

open ByteMemory Machine

abbrev State := CharState Memory Minor

def SameRecord (j : Minor) (m m' : Memory) : Prop :=
  ∀ i < recordSize, m (deviceAt j + i) = m' (deviceAt j + i)

section

variable {m m' : Memory} {j : Minor}

theorem SameRecord.permFlag (h : SameRecord j m m') : permFlag m j = permFlag m' j :=
  h 8 (by decide)

theorem SameRecord.dataSize (h : SameRecord j m m') : dataSize m j = dataSize m' j := by
  have hj := deviceAt_eq j
  have hs := sizeAt_eq j
  apply load32_congr
  intro i hi
  have hh := h (1036 + i) (by simp only [recordSize]; omega)
  rwa [show deviceAt j + (1036 + i) = sizeAt j + i by omega] at hh

theorem SameRecord.buffer (h : SameRecord j m m') {i : Nat} (hi : i < bufferSize) :
    m (bufferAt j + i) = m' (bufferAt j + i) := by
  have hB := bufferSize_eq
  have hj := deviceAt_eq j
  have hb := bufferAt_eq j
  have hh := h (12 + i) (by simp only [recordSize]; omega)
  rwa [show deviceAt j + (12 + i) = bufferAt j + i by omega] at hh

theorem SameRecord.trans {m'' : Memory} (h : SameRecord j m m') (g : SameRecord j m' m'') :
    SameRecord j m m'' := fun i hi => (h i hi).trans (g i hi)

theorem SameRecord.symm (h : SameRecord j m m') : SameRecord j m' m := fun i hi => (h i hi).symm

theorem Confined.sameRecord {dev : Minor} {p n : Nat} (h : Confined m m' dev p n)
    (hn : p + n ≤ bufferSize) (hne : j ≠ dev) : SameRecord j m m' := by
  have hv : j.val ≠ dev.val := fun he => hne (Fin.ext he)
  have hB := bufferSize_eq
  have hj := deviceAt_eq j
  have hb := bufferAt_eq dev
  have hs := sizeAt_eq dev
  intro i hi
  simp only [recordSize] at hi
  exact (h _ (by omega) (by omega)).symm

theorem devRead_sameRecord (h : SameRecord j m m') (hs : Sane m) (len p : Nat) (c : Copy) :
    devRead m' j len p c = { devRead m j len p c with dev := m' } := by
  obtain ⟨k, hk, hb⟩ := hs.size_eq j
  rw [devRead_at hk hb rfl, devRead_at (h.dataSize ▸ hk) hb rfl, ← h.permFlag]
  have hcopy : ∀ n, n = min len (k - p) → p < k →
      copyToUser m' (bufferAt j + p) n c = copyToUser m (bufferAt j + p) n c := by
    intro n hn hp
    apply copyToUser_congr
    intro i hi
    have hh := h.buffer (by omega : p + i < bufferSize)
    rw [← Nat.add_assoc] at hh
    exact hh.symm
  split
  next => rfl
  next =>
    split
    next => rfl
    next hp =>
      split
      next => rw [hcopy _ rfl (by omega)]
      next hl =>
        have hl0 : c.left (min len (k - p)) = 0 := by omega
        have hdel := congrArg Prod.snd (hcopy _ rfl (by omega))
        simp only [copyToUser, hl0, Nat.sub_zero] at hdel
        rw [hdel]

theorem devWrite_sameRecord (h : SameRecord j m m') (buf : List UInt8) {p : Nat}
    (hp : p ≤ bufferSize) (c : Copy) :
    devWrite m' j buf p c = { devWrite m j buf p c with dev := (devWrite m' j buf p c).dev } ∧
      SameRecord j (devWrite m j buf p c).dev (devWrite m' j buf p c).dev := by
  rw [devWrite_at hp rfl, devWrite_at hp rfl, ← h.permFlag]
  split
  next => exact ⟨rfl, h⟩
  next =>
    split
    next => exact ⟨rfl, fun i hi => blit_congr (h i hi) _ _⟩
    next => exact ⟨rfl, fun i hi => blit_congr (blit_congr (h i hi) _ _) _ _⟩

end

theorem plain_fits {s : State} (hs : s.Keeps Sane Inside) {call : Call Minor}
    (hp : call.Plain) : call.Fits WriteFits s := by
  cases call with
  | openFile | read => trivial
  | write fd buf off c =>
    intro file hf _
    cases (show off = none from hp)
    exact Or.inl (hs.pos fd file hf).2

theorem plain_keeps {s : State} (hs : s.Keeps Sane Inside) {call : Call Minor}
    (hp : call.Plain) : (driver.serve s call).1.Keeps Sane Inside :=
  boundsContract.serve_keeps hs (plain_fits hs hp)

theorem plain_run_keeps {s : State} (hs : s.Keeps Sane Inside) {calls : List (Call Minor)}
    (hp : ∀ call ∈ calls, call.Plain) : (final driver.serve s calls).Keeps Sane Inside := by
  have keep : ∀ (s : State) (call : Call Minor), s.Keeps Sane Inside → call.Plain →
      (driver.serve s call).1.Keeps Sane Inside := fun _ _ hs hc => plain_keeps hs hc
  exact final_invariant keep hs hp

theorem file_cases {s : State} (hs : s.Keeps Sane Inside) (fd : Nat) :
    s.files fd = none ∨
      ∃ (dev : Minor) (p : Nat), p ≤ bufferSize ∧ s.files fd = some ⟨dev, p⟩ := by
  cases hf : s.files fd with
  | none => exact Or.inl rfl
  | some file =>
    obtain ⟨dev, pos⟩ := file
    obtain ⟨h0, h1⟩ : Inside pos := hs.pos fd ⟨dev, pos⟩ hf
    obtain ⟨p, rfl⟩ := Int.eq_ofNat_of_zero_le h0
    exact Or.inr ⟨dev, p, by omega, rfl⟩

def OnMinor (j : Minor) (s : State) (call : Call Minor) : Prop := s.target call = some j

instance (j : Minor) (s : State) (call : Call Minor) : Decidable (OnMinor j s call) :=
  inferInstanceAs (Decidable (_ = _))

/-- A file that is open on device `j`. -/
theorem file_on {s : State} (hs : s.Keeps Sane Inside) {fd : Nat} {j : Minor}
    (hj : (s.files fd).map OpenFile.privateData = some j) :
    ∃ p : Nat, p ≤ bufferSize ∧ s.files fd = some ⟨j, p⟩ := by
  rcases file_cases hs fd with hf | ⟨dev, p, hp, hf⟩
  · simp [hf] at hj
  · rw [hf] at hj
    cases hj
    exact ⟨p, hp, hf⟩

/-- The unwinding relation for device `j`: the files open on `j` on the left are open at the same
positions on the right, and the records of `j` agree. -/
structure Alike (j : Minor) (s t : State) : Prop where
  left : s.Keeps Sane Inside
  right : t.Keeps Sane Inside
  record : SameRecord j s.dev t.dev
  files : ∀ fd file, s.files fd = some file → file.privateData = j → t.files fd = some file

theorem alike_refl {s : State} (hs : s.Keeps Sane Inside) (j : Minor) : Alike j s s :=
  ⟨hs, hs, fun _ _ => rfl, fun _ _ h _ => h⟩

theorem files_update {j : Minor} {f g : Nat → Option (OpenFile Minor)}
    (h : ∀ fd file, f fd = some file → file.privateData = j → g fd = some file) (fd : Nat)
    (new : OpenFile Minor) :
    ∀ fd' file, Function.update f fd (some new) fd' = some file → file.privateData = j →
      Function.update g fd (some new) fd' = some file := by
  intro fd' file hf hj
  by_cases he : fd' = fd
  · subst he
    simpa using hf
  · rw [Function.update_of_ne he] at hf ⊢
    exact h fd' file hf hj

theorem files_update_other {j : Minor} {f g : Nat → Option (OpenFile Minor)}
    (h : ∀ fd file, f fd = some file → file.privateData = j → g fd = some file) (fd : Nat)
    {new : OpenFile Minor} (hnew : new.privateData ≠ j) :
    ∀ fd' file, Function.update f fd (some new) fd' = some file → file.privateData = j →
      g fd' = some file := by
  intro fd' file hf hj
  by_cases he : fd' = fd
  · subst he
    simp only [Function.update_self, Option.some.injEq] at hf
    exact absurd (hf ▸ hj) hnew
  · rw [Function.update_of_ne he] at hf
    exact h fd' file hf hj

theorem alike_same {j : Minor} {s t : State} {call : Call Minor} (h : Alike j s t)
    (hp : call.Plain) (hj : OnMinor j s call) :
    (driver.serve s call).2 = (driver.serve t call).2 ∧
      Alike j (driver.serve s call).1 (driver.serve t call).1 := by
  have hl := plain_keeps h.left hp
  have hr := plain_keeps h.right hp
  cases call with
  | openFile fd target => exact ⟨rfl, hl, hr, h.record, files_update h.files fd _⟩
  | read fd len off c =>
    cases (show off = none from hp)
    obtain ⟨p, -, hf⟩ := file_on h.left hj
    have hg := h.files fd ⟨j, p⟩ hf rfl
    have hread := devRead_sameRecord h.record h.left.dev len p c
    simp only [CharDriver.serve, onFile, hf, hg, OpenFile.offset, Option.elim, driver,
      hread] at hl hr ⊢
    refine ⟨trivial, hl, hr, ?_, files_update h.files fd _⟩
    rw [devRead_dev]
    exact h.record
  | write fd buf off c =>
    cases (show off = none from hp)
    obtain ⟨p, hle, hf⟩ := file_on h.left hj
    have hg := h.files fd ⟨j, p⟩ hf rfl
    have hwrite := devWrite_sameRecord h.record buf hle c
    have hret := congrArg Handled.ret hwrite.1
    have hoff := congrArg Handled.off hwrite.1
    have hacc := congrArg Handled.accesses hwrite.1
    have hdel := congrArg Handled.delivered hwrite.1
    simp only [CharDriver.serve, onFile, hf, hg, OpenFile.offset, Option.elim, driver, hret, hoff,
      hacc, hdel] at hl hr ⊢
    exact ⟨trivial, hl, hr, hwrite.2, files_update h.files fd _⟩

theorem alike_other {j : Minor} {s t : State} {call : Call Minor} (h : Alike j s t)
    (hp : call.Plain) (hj : ¬ OnMinor j s call) : Alike j (driver.serve s call).1 t := by
  have hl := plain_keeps h.left hp
  cases call with
  | openFile fd target =>
    have hne : target ≠ j := fun he => hj (congrArg some he)
    exact ⟨hl, h.right, h.record, files_update_other h.files fd hne⟩
  | read fd len off c =>
    cases (show off = none from hp)
    rcases file_cases h.left fd with hf | ⟨dev, p, -, hf⟩
    · simp only [CharDriver.serve, onFile, hf]
      exact h
    · have hne : dev ≠ j := fun he => hj (by simp [OnMinor, CharState.target, hf, he])
      simp only [CharDriver.serve, onFile, hf] at hl ⊢
      refine ⟨hl, h.right, ?_, files_update_other h.files fd hne⟩
      simp only [driver, devRead_dev]
      exact h.record
  | write fd buf off c =>
    cases (show off = none from hp)
    rcases file_cases h.left fd with hf | ⟨dev, p, hle, hf⟩
    · simp only [CharDriver.serve, onFile, hf]
      exact h
    · have hne : dev ≠ j := fun he => hj (by simp [OnMinor, CharState.target, hf, he])
      simp only [CharDriver.serve, onFile, hf, OpenFile.offset, Option.elim] at hl ⊢
      refine ⟨hl, h.right, ?_, files_update_other h.files fd hne⟩
      have hconf : Confined s.dev (devWrite s.dev dev buf p c).dev _ p _ :=
        devWrite_confined hle rfl c
      exact (hconf.sameRecord (by omega) hne.symm).symm.trans h.record

/-- Deleting the calls on the other devices does not change the answers of device `j`. -/
theorem repliesIn_minor {s : State} (hs : s.Keeps Sane Inside) {calls : List (Call Minor)}
    (hp : ∀ call ∈ calls, call.Plain) (j : Minor) :
    repliesIn driver.serve (OnMinor j) s calls =
      replies driver.serve s (purge driver.serve (OnMinor j) s calls) := by
  have same : ∀ (s t : State) (call : Call Minor), Alike j s t → call.Plain → OnMinor j s call →
      (driver.serve s call).2 = (driver.serve t call).2 ∧
        Alike j (driver.serve s call).1 (driver.serve t call).1 :=
    fun s t call h hp hj => alike_same h hp hj
  have other : ∀ (s t : State) (call : Call Minor), Alike j s t → call.Plain →
      ¬ OnMinor j s call → Alike j (driver.serve s call).1 t :=
    fun s t call h hp hj => alike_other h hp hj
  exact repliesIn_eq_replies_purge same other (alike_refl hs j) hp

def PermittedWrite (j : Minor) (s : State) (call : Call Minor) : Prop :=
  call.IsWrite ∧ OnMinor j s call ∧ (devices j).permFlag &&& 0x1 ≠ 0

theorem dataSize_step {s : State} (hs : s.Keeps Sane Inside) {call : Call Minor}
    (hp : call.Plain) (j : Minor) :
    dataSize (driver.serve s call).1.dev j = dataSize s.dev j ∨ PermittedWrite j s call := by
  cases call with
  | openFile fd target => exact Or.inl rfl
  | read fd len off c =>
    left
    cases hf : s.files fd with
    | none => simp only [CharDriver.serve, onFile, hf]
    | some file => simp only [CharDriver.serve, onFile, hf, driver, devRead_dev]
  | write fd buf off c =>
    cases (show off = none from hp)
    rcases file_cases hs fd with hf | ⟨dev, p, hle, hf⟩
    · left
      simp only [CharDriver.serve, onFile, hf]
    · by_cases hj : j = dev
      · subst hj
        by_cases hperm : permFlag s.dev j &&& 0x1 = 0
        · left
          simp only [CharDriver.serve, onFile, hf, driver, devWrite_denied hperm]
        · right
          refine ⟨trivial, by simp [OnMinor, CharState.target, hf], ?_⟩
          rwa [← hs.dev.perm]
      · left
        simp only [CharDriver.serve, onFile, hf, OpenFile.offset, Option.elim]
        have hconf : Confined s.dev (devWrite s.dev dev buf p c).dev _ p _ :=
          devWrite_confined hle rfl c
        exact hconf.dataSize_other (by omega) hj

theorem written_or_empty (other : Memory) {pre : List (Call Minor)}
    (hp : ∀ call ∈ pre, call.Plain) (j : Minor) :
    dataSize (final driver.serve (loaded other) pre).dev j = 0 ∨
      ∃ earlier w mid, pre = earlier ++ w :: mid ∧
        PermittedWrite j (final driver.serve (loaded other) earlier) w := by
  induction pre using List.reverseRecOn with
  | nil => exact Or.inl (moduleMemory_dataSize other j)
  | append_singleton pre call ih =>
    have hpre : ∀ c ∈ pre, c.Plain := fun c hc => hp c (List.mem_append_left _ hc)
    have hcall : call.Plain := hp call (by simp)
    rcases ih hpre with hz | ⟨earlier, w, mid, rfl, hw⟩
    · have hs := plain_run_keeps (loaded_keeps other) hpre
      rw [final_append, final_cons, final_nil]
      rcases dataSize_step hs hcall j with he | hw
      · exact Or.inl (he.trans hz)
      · exact Or.inr ⟨pre, call, [], rfl, hw⟩
    · exact Or.inr ⟨earlier, w, mid ++ [call], by simp, hw⟩

theorem devRead_empty {m : Memory} {dev : Minor} (hz : dataSize m dev = 0) (len p : Nat)
    (c : Copy) : (devRead m dev len p c).delivered = [] ∧
      (permFlag m dev &&& 0x2 ≠ 0 → (devRead m dev len p c).ret = 0) := by
  rw [devRead_at (k := 0) hz (by simp) rfl]
  split
  next hperm => exact ⟨rfl, fun h => absurd hperm h⟩
  next => simp

theorem devRead_denied {m : Memory} {dev : Minor} (h : permFlag m dev &&& 0x2 = 0) (len : Nat)
    (off : Int) (c : Copy) : devRead m dev len off c = ⟨-ePerm, m, off, [], []⟩ := by
  simp [devRead, h]

theorem read_reply {other : Memory} {pre : List (Call Minor)} (hp : ∀ call ∈ pre, call.Plain)
    {j : Minor} {call : Call Minor} (hc : call.Plain) (hr : call.IsRead)
    (hj : OnMinor j (final driver.serve (loaded other) pre) call) :
    ((driver.serve (final driver.serve (loaded other) pre) call).2.delivered ≠ [] →
      (devices j).permFlag &&& 0x2 ≠ 0 ∧ ∃ earlier w mid, pre = earlier ++ w :: mid ∧
        PermittedWrite j (final driver.serve (loaded other) earlier) w) ∧
    ((devices j).permFlag &&& 0x1 = 0 → (devices j).permFlag &&& 0x2 ≠ 0 →
      (driver.serve (final driver.serve (loaded other) pre) call).2.ret = 0 ∧
        (driver.serve (final driver.serve (loaded other) pre) call).2.delivered = []) := by
  have hs := plain_run_keeps (loaded_keeps other) hp
  have hw := written_or_empty other hp j
  revert hs hw hj
  generalize final driver.serve (loaded other) pre = s
  intro hj hs hw
  cases call with
  | openFile | write => exact absurd hr id
  | read fd len off c =>
    cases (show off = none from hc)
    obtain ⟨p, -, hf⟩ := file_on hs hj
    simp only [CharDriver.serve, onFile, hf, OpenFile.offset, Option.elim, driver]
    constructor
    · intro hdel
      constructor
      · intro hperm
        rw [← hs.dev.perm] at hperm
        exact hdel (by rw [devRead_denied hperm])
      · rcases hw with hz | hw
        · exact absurd (devRead_empty hz len p c).1 hdel
        · exact hw
    · intro hread hperm
      rcases hw with hz | ⟨_, _, _, _, hw⟩
      · have he := devRead_empty hz len p c
        exact ⟨he.2 (by rwa [hs.dev.perm]), he.1⟩
      · exact absurd hread hw.2.2

/-- Isolation of the devices: in every run of plain calls, deleting the calls on the other devices
changes no answer of device `j`; its permission flag stays; a read delivers bytes only with read
permission and after a permitted write; and a read-only device returns 0 bytes for ever. -/
theorem device_isolation (other : Memory) {calls : List (Call Minor)}
    (hp : ∀ call ∈ calls, call.Plain) (j : Minor) :
    repliesIn driver.serve (OnMinor j) (loaded other) calls =
      replies driver.serve (loaded other)
        (purge driver.serve (OnMinor j) (loaded other) calls) ∧
    ∀ pre call post, calls = pre ++ call :: post →
      permFlag (final driver.serve (loaded other) (pre ++ [call])).dev j = (devices j).permFlag ∧
      (call.IsRead → OnMinor j (final driver.serve (loaded other) pre) call →
        ((driver.serve (final driver.serve (loaded other) pre) call).2.delivered ≠ [] →
          (devices j).permFlag &&& 0x2 ≠ 0 ∧ ∃ earlier w mid, pre = earlier ++ w :: mid ∧
            PermittedWrite j (final driver.serve (loaded other) earlier) w) ∧
        ((devices j).permFlag &&& 0x1 = 0 → (devices j).permFlag &&& 0x2 ≠ 0 →
          (driver.serve (final driver.serve (loaded other) pre) call).2.ret = 0 ∧
            (driver.serve (final driver.serve (loaded other) pre) call).2.delivered = [])) := by
  refine ⟨repliesIn_minor (loaded_keeps other) hp j, fun pre call post he => ?_⟩
  subst he
  have hpre : ∀ c ∈ pre, c.Plain := fun c hc => hp c (List.mem_append_left _ hc)
  have hcall : call.Plain := hp call (by simp)
  constructor
  · have hs : (final driver.serve (loaded other) (pre ++ [call])).Keeps Sane Inside :=
      plain_run_keeps (loaded_keeps other) fun c hc => hp c (by
        rcases List.mem_append.mp hc with hc | hc
        · exact List.mem_append_left _ hc
        · simp [List.mem_singleton.mp hc])
    exact hs.dev.perm j
  · exact fun hr hj => read_reply hpre hcall hr hj

theorem hello1_isolated :
    repliesIn driver.serve (OnMinor hello1) (loaded fun _ => 0)
      [.openFile 0 hello1, .openFile 1 sensor0, .write 0 [104, 105] none .done,
        .write 1 [33] none .done, .openFile 2 hello1, .read 2 9 none .done] =
    replies driver.serve (loaded fun _ => 0)
      [.openFile 0 hello1, .write 0 [104, 105] none .done, .openFile 2 hello1, .read 2 9 none .done] :=
  (device_isolation (fun _ => 0) (by simp [Call.Plain]) hello1).1

end LinuxAssignment.MultiDevice
