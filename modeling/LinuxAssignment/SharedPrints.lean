import LinuxAssignment.SharedHandOver
import Mathlib.Data.Fintype.Option

namespace LinuxAssignment.SharedLine

open ByteMemory StepSystem Stdio SystemV

section

variable {κ : Type} {past : List (RunEvent κ)} {e : RunEvent κ} {m m' : Ipc} {p p' : Proc}
  {s s' : Run κ} {k : κ} {text stdin : List UInt8} {b : UInt8} {i : Nat}

theorem next_writer {pc : WriterPc} (h : next m (.writer stdin pc) () = some (m', p')) :
    ∃ pc', p' = .writer stdin pc' ∧ writerMain stdin m pc = some (m', pc') := by
  obtain ⟨⟨m'', pc'⟩, hmain, hr⟩ := Option.map_eq_some_iff.mp h
  obtain ⟨rfl, rfl⟩ := Prod.mk.inj hr
  exact ⟨pc', rfl, hmain⟩

theorem next_reader {pc : ReaderPc} (h : next m (.reader pc) () = some (m', p')) :
    ∃ pc', p' = .reader pc' ∧ readerMain m pc = some (m', pc') := by
  obtain ⟨⟨m'', pc'⟩, hmain, hr⟩ := Option.map_eq_some_iff.mp h
  obtain ⟨rfl, rfl⟩ := Prod.mk.inj hr
  exact ⟨pc', rfl, hmain⟩

theorem lineOf_of_fgetsBytes (h : (fgetsBytes stdin)[i]? = some b) (hb : b ≠ 0) :
    (lineOf (shmSize - 1) stdin)[i]? = some b := by
  simp only [fgetsBytes] at h
  split at h
  next => cases h
  next =>
    by_cases hi : i < (lineOf (shmSize - 1) stdin).length
    · rwa [List.getElem?_append_left hi] at h
    · rw [List.getElem?_append_right (Nat.not_lt.mp hi)] at h
      have hmem := List.mem_of_getElem? h
      exact absurd (List.mem_singleton.mp hmem) hb

/-- A byte of a segment that is not a NUL was there before or comes from `fgets`. -/
theorem writerMain_load {pc pc' : WriterPc} (h : writerMain stdin m pc = some (m', pc')) {id : Nat}
    (hb : m'.load id i ≠ 0) : m'.load id i = m.load id i ∨
      ∃ ids, pc = .fgets ids i ∧ (fgetsBytes stdin)[i]? = some (m'.load id i) := by
  have keep {m'' : Ipc} (hload : m''.load = m.load) : m''.load id i = m.load id i := by rw [hload]
  cases pc with
  | shmget =>
    cases h
    exact Or.inl ((Ipc.load_shmget m id i).resolve_right hb)
  | semget shmid =>
    cases h
    exact Or.inl rfl
  | semctl ids =>
    simp only [writerMain] at h
    split at h
    next => cases h; exact Or.inl rfl
    next m'' hset => cases h; exact Or.inl (keep (Ipc.load_setval hset))
  | shmat ids =>
    simp only [writerMain] at h
    split at h
    next => cases h; exact Or.inl rfl
    next m'' hat => cases h; exact Or.inl (keep (Ipc.load_shmat hat))
  | fgets ids j =>
    simp only [writerMain] at h
    split at h
    next => cases h; exact Or.inl rfl
    next b hbyte =>
      cases h
      rcases Ipc.store_cases m ids.shmid j b id i with hold | ⟨rfl, hnew⟩
      · exact Or.inl hold
      · exact Or.inr ⟨ids, rfl, hbyte.trans (congrArg some hnew.symm)⟩
  | strcspn ids j =>
    simp only [writerMain] at h
    split at h <;> cases h <;> exact Or.inl rfl
  | terminate ids j =>
    cases h
    rcases Ipc.store_cases m ids.shmid j 0 id i with hold | ⟨-, hnew⟩
    · exact Or.inl hold
    · exact absurd hnew hb
  | printf ids j =>
    simp only [writerMain] at h
    split at h <;> cases h <;> exact Or.inl rfl
  | semop ids =>
    simp only [writerMain] at h
    split at h
    next => cases h; exact Or.inl (keep (Ipc.load_shmdt m ids.shmid))
    next => cases h
    next m'' hdone => cases h; exact Or.inl (keep (Ipc.load_semop hdone))
  | shmdt ids =>
    cases h
    exact Or.inl (keep (Ipc.load_shmdt m ids.shmid))
  | exited status => cases h

theorem readerMain_load {pc pc' : ReaderPc} (h : readerMain m pc = some (m', pc')) :
    m'.load = m.load := by
  cases pc with
  | shmget | semget shmid | printf ids text =>
    simp only [readerMain] at h
    split at h <;> cases h <;> rfl
  | semop ids =>
    simp only [readerMain] at h
    split at h
    next => cases h; rfl
    next => cases h
    next m'' hdone => cases h; exact Ipc.load_semop hdone
  | shmat ids =>
    simp only [readerMain] at h
    split at h
    next => cases h; rfl
    next m'' hat => cases h; exact Ipc.load_shmat hat
  | shmdt ids =>
    cases h
    exact Ipc.load_shmdt m ids.shmid
  | shmctl ids =>
    cases h
    exact Ipc.load_shmRemove m ids.shmid
  | semctl ids =>
    cases h
    rfl
  | exited status => cases h

theorem next_load (h : next m p () = some (m', p')) {id : Nat} (hb : m'.load id i ≠ 0) :
    m'.load id i = m.load id i ∨ ∃ stdin ids, p = .writer stdin (.fgets ids i) ∧
      (fgetsBytes stdin)[i]? = some (m'.load id i) := by
  cases p with
  | writer stdin pc =>
    obtain ⟨pc', rfl, hmain⟩ := next_writer h
    refine (writerMain_load hmain hb).imp_right ?_
    rintro ⟨ids, rfl, hbyte⟩
    exact ⟨stdin, ids, rfl, hbyte⟩
  | reader pc =>
    obtain ⟨pc', rfl, hmain⟩ := next_reader h
    rw [readerMain_load hmain]
    exact Or.inl rfl

theorem readerMain_printf {pc : ReaderPc} {ids : Ids}
    (h : readerMain m pc = some (m', .printf ids text)) :
    text = [] ∨ ∃ before, pc = .printf ids before ∧ m.load ids.shmid before.length ≠ 0 ∧
      text = before ++ [m.load ids.shmid before.length] := by
  cases pc with
  | shmget | semget shmid =>
    simp only [readerMain] at h
    split at h <;> cases h
  | semop ids' =>
    simp only [readerMain] at h
    split at h <;> cases h
  | shmat ids' =>
    simp only [readerMain] at h
    split at h <;> cases h
    exact Or.inl rfl
  | printf ids' before =>
    simp only [readerMain] at h
    split at h
    next => cases h
    next hgo =>
      cases h
      exact Or.inr ⟨before, rfl, hgo, rfl⟩
  | shmdt | shmctl | semctl | exited => cases h

theorem readerMain_shmdt {ids ids' : Ids}
    (h : readerMain m (.printf ids text) = some (m', .shmdt ids')) :
    m.load ids.shmid text.length = 0 := by
  simp only [readerMain] at h
  split at h
  next hnul => exact hnul
  next => cases h

theorem SomeByte.mono (h : SomeByte past i b) (e : RunEvent κ) : SomeByte (past ++ [e]) i b := by
  obtain ⟨e', he', hbyte⟩ := h
  exact ⟨e', List.mem_append_left _ he', hbyte⟩

structure Patched (past : List (RunEvent κ)) (s : Run κ) : Prop where
  loaded : ∀ id i, s.shared.load id i ≠ 0 → SomeByte past i (s.shared.load id i)
  read : ∀ k ids text, s.procs k = .reader (.printf ids text) → ∀ i b, text[i]? = some b →
    SomeByte past i b

theorem patched_start (input : κ → Option (List UInt8)) : Patched [] (start input) where
  loaded _ _ h := absurd rfl h
  read k ids text h := by
    simp only [start] at h
    split at h <;> cases h

theorem Patched.read_step (hs : Patched past s) {ids : Ids}
    (h : next s.shared (s.procs k) () = some (m', p')) (hp' : p' = .reader (.printf ids text))
    (hb : text[i]? = some b) : SomeByte (past ++ [e]) i b := by
  cases hp : s.procs k with
  | writer stdin pc =>
    rw [hp] at h
    obtain ⟨pc', rfl, -⟩ := next_writer h
    cases hp'
  | reader pc =>
    rw [hp] at h
    obtain ⟨pc', rfl, hmain⟩ := next_reader h
    cases hp'
    obtain rfl | ⟨before, rfl, hgo, rfl⟩ := readerMain_printf hmain
    · cases hb
    · by_cases hi : i < before.length
      · rw [List.getElem?_append_left hi] at hb
        exact (hs.read k ids before hp i b hb).mono e
      · rw [List.getElem?_append_right (Nat.not_lt.mp hi)] at hb
        obtain ⟨hend, rfl⟩ := List.getElem?_eq_some_iff.mp hb
        have hlast : i = before.length := by
          rw [List.length_singleton] at hend
          omega
        subst hlast
        simpa using (hs.loaded ids.shmid before.length hgo).mono e

theorem Patched.step [DecidableEq κ] (hs : Patched past s)
    (h : Interleaving.step next s (k, ()) = some s') :
    Patched (past ++ [⟨s, (k, ()), s'⟩]) s' := by
  obtain ⟨p', hnext, hprocs⟩ := Interleaving.step_cases h
  refine ⟨fun id i hb => ?_, fun j ids text hj i b hb => ?_⟩
  · rcases next_load hnext hb with hold | ⟨stdin, ids, hp, hbyte⟩
    · rw [hold] at hb ⊢
      exact (hs.loaded id i hb).mono _
    · exact ⟨_, List.mem_append_right _ List.mem_cons_self, stdin, ids, i, hp,
        lineOf_of_fgetsBytes hbyte hb⟩
  · obtain ⟨rfl, hjk⟩ | ⟨-, hjk⟩ := Interleaving.moved hprocs j <;> rw [hjk] at hj
    · exact hs.read_step hnext hj hb
    · exact (hs.read j ids text hj i b hb).mono _

theorem guarded_start (input : κ → Option (List UInt8)) : Guarded [] .rest (start input) where
  busy j hj := by
    simp only [start] at hj
    split at hj <;> exact absurd hj id
  made j id hid := by
    simp only [start] at hid
    split at hid <;> cases hid
  removed _ h := absurd h (Nat.not_lt_zero _)
  ok := ⟨nofun, nofun⟩

theorem Guarded.step [DecidableEq κ] {turn : Turn κ} (hs : Guarded past turn s)
    (halone : BeginsAlone s (k, ())) (h : Interleaving.step next s (k, ()) = some s') :
    ∃ turn', Guarded (past ++ [⟨s, (k, ()), s'⟩]) turn' s' := by
  obtain ⟨p', hnext, hprocs⟩ := Interleaving.step_cases h
  obtain ⟨m', procs⟩ := s'
  cases hp : s.procs k with
  | writer stdin pc =>
    rw [hp] at hnext
    obtain ⟨pc', rfl, hmain⟩ := next_writer hnext
    exact hs.writer hp halone hprocs hmain
  | reader pc =>
    rw [hp] at hnext
    obtain ⟨pc', rfl, hmain⟩ := next_reader hnext
    exact hs.reader hp hprocs hmain

/-- Each byte that a reader prints stands at its place in some writer's line, and where every writer
begins alone the reader prints one whole line that a writer has finished storing. -/
theorem prints_stored_line [DecidableEq κ] {input : κ → Option (List UInt8)}
    {es later : List (RunEvent κ)} (h : Trace (Interleaving.step next) (start input) es s)
    (hes : es = past ++ e :: later) (hprint : Prints e text) :
    (∀ i b, text[i]? = some b → SomeByte past i b) ∧
      ((∀ e ∈ es, BeginsAlone e.before e.label) → Stored past text) := by
  obtain ⟨ids, hbefore, hafter⟩ := hprint
  have keep : ∀ past (s : Run κ) (a : κ × Unit) t, Patched past s → True →
      Interleaving.step next s a = some t → Patched (past ++ [⟨s, a, t⟩]) t :=
    fun _ _ _ _ hs _ ht => hs.step ht
  obtain ⟨hpatched, hstep⟩ :=
    (h.history keep (patched_start input) fun _ _ => trivial).2 past e later hes
  refine ⟨hpatched.read _ _ _ hbefore, fun halone => ?_⟩
  have keep : ∀ past (s : Run κ) (a : κ × Unit) t, (∃ turn, Guarded past turn s) →
      BeginsAlone s a → Interleaving.step next s a = some t →
      ∃ turn, Guarded (past ++ [⟨s, a, t⟩]) turn t := by
    rintro _ _ _ _ ⟨turn, hs⟩ ha ht
    exact hs.step ha ht
  obtain ⟨⟨turn, hs⟩, -⟩ := (h.history keep ⟨_, guarded_start input⟩ halone).2 past e later hes
  obtain ⟨-, -, -, whole, hwhole, hholds, hstored, hprefix⟩ := hs.held hbefore trivial
  have hnul : e.before.shared.load ids.shmid text.length = 0 := by
    obtain ⟨p', hnext, hprocs⟩ := Interleaving.step_cases hstep
    rw [hbefore] at hnext
    obtain ⟨pc', rfl, hmain⟩ := next_reader hnext
    rw [hprocs, Function.update_self] at hafter
    cases hafter
    exact readerMain_shmdt hmain
  rwa [printed_whole hwhole hholds hprefix hnul]

end

def twoWriters : Option Bool → Option (List UInt8)
  | some true => some [97, 98, 10]
  | some false => some [120, 121, 122, 10]
  | none => none

/-- The second writer's input comes after the reader has printed the first one's line. -/
def separate : List (Option Bool × Unit) :=
  (List.replicate 4 (some true) ++ List.replicate 4 (some false) ++ List.replicate 13 (some true) ++
    List.replicate 7 none).map fun k => (k, ())

theorem separate_stored :
    (record (Interleaving.step next) (start twoWriters) separate).length = separate.length ∧
      Stored (record (Interleaving.step next) (start twoWriters) (separate.take 27)) [97, 98] :=
  ⟨rfl, (prints_stored_line (Trace.recorded _ (start twoWriters) separate) rfl
    ⟨⟨0, 0⟩, rfl, rfl⟩).2 (by decide)⟩

/-- The second writer's input comes while the reader prints the first one's line. -/
def mixed : List (Option Bool × Unit) :=
  (List.replicate 4 (some true) ++ List.replicate 4 (some false) ++ List.replicate 13 (some true) ++
    List.replicate 5 none ++ List.replicate 2 (some false) ++ List.replicate 2 none).map
    fun k => (k, ())

theorem mixed_not_stored :
    ¬ ∀ (κ : Type) (_ : DecidableEq κ) (input : κ → Option (List UInt8))
      (es past later : List (RunEvent κ)) (e : RunEvent κ) (s : Run κ) (text : List UInt8),
      Trace (Interleaving.step next) (start input) es s → es = past ++ e :: later →
      Prints e text → Stored past text := by
  intro h
  have hprinted := h (Option Bool) inferInstance twoWriters
    (record (Interleaving.step next) (start twoWriters) mixed)
    (record (Interleaving.step next) (start twoWriters) (mixed.take 29)) []
    ⟨last (Interleaving.step next) (start twoWriters) (mixed.take 29), (none, ()),
      last (Interleaving.step next) (start twoWriters) mixed⟩ _ [97, 121]
    (Trace.recorded _ _ mixed) rfl ⟨⟨0, 0⟩, rfl, rfl⟩
  exact absurd (show ∃ e ∈ _, _ from hprinted) (by decide)

end LinuxAssignment.SharedLine
