import LinuxAssignment.SharedLine
import Mathlib.Data.List.TakeWhile

namespace LinuxAssignment.SharedLine

open ByteMemory StepSystem Stdio SystemV

def Text (text : List UInt8) : Prop := ∀ b ∈ text, b ≠ 0 ∧ b ≠ newline

/-- The bytes of a text are stored, and this one behind them. -/
def Holds (m : Memory) (text : List UInt8) (b : UInt8) : Prop :=
  slice m 0 (text.length + 1) = text ++ [b]

section

variable {m m' : Memory} {text : List UInt8} {b : UInt8} {i : Nat}

theorem Holds.getElem? (h : Holds m text b) (hi : i ≤ text.length) :
    (text ++ [b])[i]? = some (m i) := by
  have hlt : i < (slice m 0 (text.length + 1)).length := by simpa using Nat.lt_succ_of_le hi
  have hget := slice_getElem hlt
  rw [Nat.zero_add] at hget
  exact h ▸ (List.getElem?_eq_getElem hlt).trans (congrArg some hget)

theorem Holds.last (h : Holds m text b) : m text.length = b := by
  have hlast := h.getElem? (Nat.le_refl _)
  rw [List.getElem?_append_right (Nat.le_refl _), Nat.sub_self] at hlast
  exact (Option.some.inj hlast).symm

theorem Holds.mem (h : Holds m text b) (hi : i < text.length) : text[i]? = some (m i) := by
  rw [← h.getElem? (Nat.le_of_lt hi), List.getElem?_append_left hi]

theorem Holds.inside (h : Holds m text b) (htext : Text text) (hi : i < text.length) :
    m i ≠ 0 ∧ m i ≠ newline := htext _ (List.mem_of_getElem? (h.mem hi))

theorem Holds.terminate (h : Holds m text b) : Holds (Function.update m text.length 0) text 0 := by
  have hupdate := slice_terminated h
  rwa [Nat.zero_add] at hupdate

theorem holds_zero : Holds (fun _ => 0) [] 0 := rfl

theorem slice_store {l : List UInt8} (h : slice m 0 i = l.take i) (hb : l[i]? = some b) :
    slice (Function.update m i b) 0 (i + 1) = l.take (i + 1) := by
  have hbefore : slice (Function.update m i b) 0 i = slice m 0 i :=
    slice_congr fun j hj => Function.update_of_ne (by omega) _ _
  rw [slice_add, hbefore, h, List.take_add_one, hb]
  simp [slice]

/-- The line that is handed over stands in front of a newline or NUL. -/
theorem fgetsBytes_typed {stdin : List UInt8} (hne : fgetsBytes stdin ≠ []) :
    ∃ b more, (b = 0 ∨ b = newline) ∧ fgetsBytes stdin = typed stdin ++ b :: more := by
  simp only [fgetsBytes, typed] at hne ⊢
  generalize lineOf (shmSize - 1) stdin = line at hne ⊢
  split at hne
  next => exact absurd rfl hne
  next hline =>
    rw [if_neg hline]
    generalize hp : (fun b : UInt8 => decide (b ≠ 0 ∧ b ≠ newline)) = p
    have hsplit := List.takeWhile_append_dropWhile (p := p) (l := line)
    have hstop := List.head?_dropWhile_not p line
    cases hrest : line.dropWhile p with
    | nil =>
      rw [hrest, List.append_nil] at hsplit
      exact ⟨0, [], Or.inl rfl, by rw [hsplit]⟩
    | cons b more =>
      rw [hrest] at hstop hsplit
      refine ⟨b, more ++ [0], ?_, ?_⟩
      · have hb : ¬ (b ≠ 0 ∧ b ≠ newline) := by
          rw [← hp] at hstop
          exact of_decide_eq_false hstop
        rwa [not_and_or, not_not, not_not] at hb
      · rw [← List.cons_append, ← List.append_assoc, hsplit]

theorem typed_text (stdin : List UInt8) : Text (typed stdin) := fun _ hb =>
  of_decide_eq_true (List.mem_takeWhile_imp (p := fun b => decide (b ≠ 0 ∧ b ≠ newline)) hb)

theorem holds_typed {stdin : List UInt8} (hne : fgetsBytes stdin ≠ [])
    (h : slice m 0 (fgetsBytes stdin).length = fgetsBytes stdin) :
    ∃ b, (b = 0 ∨ b = newline) ∧ Holds m (typed stdin) b := by
  obtain ⟨b, more, hb, hsplit⟩ := fgetsBytes_typed hne
  refine ⟨b, hb, ?_⟩
  rw [hsplit, List.append_cons, List.length_append] at h
  have hline := (slice_append _ _ h).1
  rwa [List.length_append, List.length_singleton] at hline

theorem typed_of_fgetsBytes_nil {stdin : List UInt8} (h : fgetsBytes stdin = []) :
    typed stdin = [] := by
  simp only [fgetsBytes] at h
  split at h
  next hline => rw [typed, hline, List.takeWhile_nil]
  next => exact absurd h (List.append_ne_nil_of_right_ne_nil _ (List.cons_ne_nil _ _))

end

section

variable {κ : Type}

def Complete (past : List (RunEvent κ)) (m : Memory) : Prop :=
  ∃ text, Text text ∧ Holds m text 0 ∧ Stored past text

/-- A line that is handed over, or a segment that nothing was stored in. -/
def Calm (past : List (RunEvent κ)) (m : Memory) : Prop :=
  ∃ text, Text text ∧ Holds m text 0 ∧ (text = [] ∨ Stored past text)

/-- What `strcspn` finds: the new line or, where the input had ended, the one that was there. -/
structure Scans (past : List (RunEvent κ)) (stdin : List UInt8) (m : Memory) (text : List UInt8)
    (b : UInt8) : Prop where
  inside : Text text
  holds : Holds m text b
  stop : b = 0 ∨ b = newline
  known : text = typed stdin ∨ Stored past text

/-- The bytes of a segment. -/
abbrev data (m : Ipc) (shmid : Nat) : Memory := (m.segs.objects shmid).bytes

def Settled (past : List (RunEvent κ)) (m : Ipc) : Prop :=
  ∀ id, m.segs.key = some id → Calm past (data m id)

def Drained (m : Ipc) : Prop := ∀ id, m.sems.key = some id → m.sems.objects id = 0

def Removed (past : List (RunEvent κ)) (m : Ipc) : Prop :=
  ∀ id < m.segs.made, m.segs.key ≠ some id → Complete past (data m id)

/-- What a busy process can rely on. -/
def Holding (past : List (RunEvent κ)) (m : Ipc) : Proc → Prop
  | .writer stdin (.fgets ids i) =>
    m.segs.key = some ids.shmid ∧ 0 < i ∧ i ≤ (fgetsBytes stdin).length ∧
      slice (data m ids.shmid) 0 i = (fgetsBytes stdin).take i
  | .writer stdin (.strcspn ids i) =>
    m.segs.key = some ids.shmid ∧
      ∃ text b, Scans past stdin (data m ids.shmid) text b ∧ i ≤ text.length
  | .writer stdin (.terminate ids i) =>
    m.segs.key = some ids.shmid ∧
      ∃ text b, Scans past stdin (data m ids.shmid) text b ∧ i = text.length
  | .writer _ (.printf ids _) | .writer _ (.semop ids) =>
    m.segs.key = some ids.shmid ∧ Complete past (data m ids.shmid)
  | .reader (.shmat ids) | .reader (.shmdt ids) | .reader (.shmctl ids) =>
    Settled past m ∧ Complete past (data m ids.shmid)
  | .reader (.printf ids line) =>
    Settled past m ∧ ∃ text, Text text ∧ Holds (data m ids.shmid) text 0 ∧ Stored past text ∧
      line <+: text
  | .reader (.semctl _) => Settled past m
  | _ => False

def Proc.shmid : Proc → Option Nat
  | .writer _ (.semget shmid) | .reader (.semget shmid) => some shmid
  | .writer _ (.semctl ids) | .writer _ (.shmat ids) | .writer _ (.fgets ids _) => some ids.shmid
  | .writer _ (.strcspn ids _) | .writer _ (.terminate ids _) => some ids.shmid
  | .writer _ (.printf ids _) | .writer _ (.semop ids) | .writer _ (.shmdt ids) => some ids.shmid
  | .reader (.semop ids) | .reader (.shmat ids) | .reader (.printf ids _) => some ids.shmid
  | .reader (.shmdt ids) | .reader (.shmctl ids) | .reader (.semctl ids) => some ids.shmid
  | _ => none

/-- Whose turn it is: nobody's, that of a reader that takes the semaphore's one, or that of the one
busy process. -/
inductive Turn (κ : Type) where
  | rest
  | credit
  | held (k : κ)

def Turn.Ok (past : List (RunEvent κ)) (s : Run κ) : Turn κ → Prop
  | .rest => Settled past s.shared ∧ Drained s.shared
  | .credit =>
    (∃ id, s.shared.sems.key = some id ∧ s.shared.sems.objects id = 1) ∧
      ∃ id, s.shared.segs.key = some id ∧ Complete past (data s.shared id)
  | .held k => Drained s.shared ∧ Holding past s.shared (s.procs k)

structure Guarded (past : List (RunEvent κ)) (turn : Turn κ) (s : Run κ) : Prop where
  busy : ∀ j, (s.procs j).Busy → turn = .held j
  made : ∀ j, ∀ id ∈ (s.procs j).shmid, id < s.shared.segs.made
  removed : Removed past s.shared
  ok : turn.Ok past s

variable {past : List (RunEvent κ)} {e : RunEvent κ} {m m' : Ipc} {p p' : Proc} {s s' : Run κ}
  {k : κ} {turn turn' : Turn κ} {text line stdin : List UInt8} {mem : Memory} {b : UInt8} {i : Nat}

theorem Stored.mono (h : Stored past line) (e : RunEvent κ) : Stored (past ++ [e]) line := by
  obtain ⟨e', he', hline⟩ := h
  exact ⟨e', List.mem_append_left _ he', hline⟩

theorem Complete.mono (h : Complete past mem) (e : RunEvent κ) : Complete (past ++ [e]) mem := by
  obtain ⟨text, htext, hholds, hstored⟩ := h
  exact ⟨text, htext, hholds, hstored.mono e⟩

theorem Complete.calm (h : Complete past mem) : Calm past mem := by
  obtain ⟨text, htext, hholds, hstored⟩ := h
  exact ⟨text, htext, hholds, Or.inr hstored⟩

theorem Calm.mono (h : Calm past mem) (e : RunEvent κ) : Calm (past ++ [e]) mem := by
  obtain ⟨text, htext, hholds, hknown⟩ := h
  exact ⟨text, htext, hholds, hknown.imp_right (·.mono e)⟩

theorem calm_zero : Calm past fun _ => 0 := ⟨[], nofun, holds_zero, Or.inl rfl⟩

theorem Scans.mono (h : Scans past stdin mem text b) (e : RunEvent κ) :
    Scans (past ++ [e]) stdin mem text b :=
  ⟨h.inside, h.holds, h.stop, h.known.imp_right (·.mono e)⟩

theorem Settled.mono (h : Settled past m) (e : RunEvent κ) : Settled (past ++ [e]) m :=
  fun id hid => (h id hid).mono e

theorem Holding.busy (h : Holding past m p) : p.Busy := by
  cases p with
  | writer stdin pc => cases pc <;> first | exact trivial | exact h.2.1 | exact absurd h id
  | reader pc => cases pc <;> first | exact trivial | exact absurd h id

/-- Segments change only in who has them attached, and new ones are empty. -/
abbrev SegsGrow (m m' : Ipc) : Prop := m.segs.Grows Segment.bytes (fun _ => 0) m'.segs

abbrev SemsGrow (m m' : Ipc) : Prop := m.sems.Grows id 0 m'.sems

theorem settled_of_key {id : Nat} (hkey : m.segs.key = some id) (h : Calm past (data m id)) :
    Settled past m := fun _ hid => Option.some.inj (hkey.symm.trans hid) ▸ h

theorem drained_of_key {id : Nat} (hkey : m.sems.key = some id) (h : m.sems.objects id = 0) :
    Drained m := fun _ hid => Option.some.inj (hkey.symm.trans hid) ▸ h

theorem Settled.grows (h : Settled past m) (hsegs : SegsGrow m m') : Settled past m' := by
  intro id hid
  rcases hsegs.fresh id hid with hold | hnew
  · have hsame : data m' id = data m id := hsegs.same id (m.segs.key_made id hold)
    exact hsame ▸ h id hold
  · have hzero : data m' id = fun _ => 0 := hnew
    exact hzero ▸ calm_zero

theorem Drained.grows (h : Drained m) (hsems : SemsGrow m m') : Drained m' := by
  intro i hi
  rcases hsems.fresh i hi with hold | hnew
  · exact (hsems.same i (m.sems.key_made i hold)).trans (h i hold)
  · exact hnew

theorem Holding.grows (h : Holding past m p) (hmade : ∀ id ∈ p.shmid, id < m.segs.made)
    (hsegs : SegsGrow m m') (e : RunEvent κ) : Holding (past ++ [e]) m' p := by
  have hdata : ∀ id ∈ p.shmid, data m' id = data m id := fun id hid => hsegs.same id (hmade id hid)
  cases p with
  | writer stdin pc =>
    cases pc with
    | fgets ids i =>
      rw [Holding, hdata ids.shmid rfl]
      exact ⟨hsegs.key _ h.1, h.2⟩
    | strcspn ids i =>
      obtain ⟨hkey, text, b, hscans, hi⟩ := h
      rw [Holding, hdata ids.shmid rfl]
      exact ⟨hsegs.key _ hkey, text, b, hscans.mono e, hi⟩
    | terminate ids i =>
      obtain ⟨hkey, text, b, hscans, hi⟩ := h
      rw [Holding, hdata ids.shmid rfl]
      exact ⟨hsegs.key _ hkey, text, b, hscans.mono e, hi⟩
    | printf ids i =>
      rw [Holding, hdata ids.shmid rfl]
      exact ⟨hsegs.key _ h.1, h.2.mono e⟩
    | semop ids =>
      rw [Holding, hdata ids.shmid rfl]
      exact ⟨hsegs.key _ h.1, h.2.mono e⟩
    | shmget | semget | semctl | shmat | shmdt | exited => exact absurd h id
  | reader pc =>
    cases pc with
    | shmat ids | shmdt ids | shmctl ids =>
      rw [Holding, hdata ids.shmid rfl]
      exact ⟨(h.1.grows hsegs).mono e, h.2.mono e⟩
    | printf ids line =>
      obtain ⟨hsettled, text, htext, hholds, hstored, hline⟩ := h
      rw [Holding, hdata ids.shmid rfl]
      exact ⟨(hsettled.grows hsegs).mono e, text, htext, hholds, hstored.mono e, hline⟩
    | semctl ids => exact (Settled.grows h hsegs).mono e
    | shmget | semget | semop | exited => exact absurd h id

theorem Removed.grows (h : Removed past m) (hsegs : SegsGrow m m') (e : RunEvent κ) :
    Removed (past ++ [e]) m' := by
  intro id hid hkey
  have hold : id < m.segs.made := (hsegs.old id hid).resolve_left hkey
  have hsame : data m' id = data m id := hsegs.same id hold
  exact hsame ▸ (h id hold fun hlive => hkey (hsegs.key id hlive)).mono e

/-- A semaphore set to zero takes back the one that no reader took. -/
def Turn.reset : Turn κ → Turn κ
  | .rest | .credit => .rest
  | .held k => .held k

theorem Turn.only {i j : κ} (h : i ≠ j) : Turn.held j ≠ .held i :=
  fun hij => h (Turn.held.inj hij).symm

theorem Guarded.held (hs : Guarded past turn s) (hp : s.procs k = p) (hbusy : p.Busy) :
    turn = .held k ∧ Drained s.shared ∧ Holding past s.shared p := by
  obtain rfl := hs.busy k (hp ▸ hbusy)
  exact ⟨rfl, hp ▸ hs.ok⟩

theorem Guarded.resting {ids : Ids} (hs : Guarded past turn s)
    (hp : s.procs k = .writer stdin (.fgets ids 0)) (halone : BeginsAlone s (k, ())) :
    turn = .rest ∧ s.shared.segs.key = some ids.shmid ∧ Drained s.shared ∧
      Calm past (data s.shared ids.shmid) := by
  simp only [BeginsAlone, hp] at halone
  obtain ⟨hidle, hzero, hkey⟩ := halone
  have hok := hs.ok
  cases turn with
  | rest => exact ⟨rfl, hkey, hok.2, hok.1 _ hkey⟩
  | credit =>
    obtain ⟨semid, hsem, hone⟩ := hok.1
    rw [hzero semid hsem] at hone
    cases hone
  | held j => exact absurd hok.2.busy (hidle j)

theorem SegsGrow.shmat {id : Nat} (h : m.shmat id = some m') : SegsGrow m m' := by
  obtain ⟨n, rfl⟩ := Ipc.shmat_eq h
  exact Table.set_grows rfl

theorem SegsGrow.shmdt (id : Nat) : SegsGrow m (m.shmdt id) := Table.set_grows rfl

theorem data_store {id : Nat} : data (m.store id i b) id = Function.update (data m id) i b :=
  congrArg Segment.bytes Table.set_self

theorem Removed.store {id : Nat} (h : Removed past m) (hkey : m.segs.key = some id)
    (e : RunEvent κ) : Removed (past ++ [e]) (m.store id i b) := by
  intro j hj hlive
  have hjid : j ≠ id := fun hjid => hlive (hjid ▸ hkey)
  have hsame : data (m.store id i b) j = data m j := congrArg Segment.bytes (Table.set_of_ne hjid)
  exact hsame ▸ (h j hj hlive).mono e

variable [DecidableEq κ]

/-- Another process's steps leave a turn as it is. -/
theorem Guarded.holding (hs : Guarded past turn s) (hprocs : s'.procs = Function.update s.procs k p')
    (hk : ¬ (s.procs k).Busy) (hsegs : SegsGrow s.shared s'.shared) (e : RunEvent κ) {j : κ}
    (hj : turn = .held j) : Holding (past ++ [e]) s'.shared (s'.procs j) := by
  subst hj
  have hholding : Holding past s.shared (s.procs j) := hs.ok.2
  have hjk : j ≠ k := fun hjk => hk (hjk ▸ hholding.busy)
  rw [hprocs, Function.update_of_ne hjk]
  exact hholding.grows (hs.made j) hsegs e

theorem Guarded.moved (hs : Guarded past turn s) (hprocs : s'.procs = Function.update s.procs k p')
    (hself : p'.Busy → turn' = .held k) (hothers : ∀ j, j ≠ k → turn = .held j → turn' = .held j)
    (hshmid : ∀ id ∈ p'.shmid, id < s'.shared.segs.made)
    (hmade : s.shared.segs.made ≤ s'.shared.segs.made)
    (hremoved : Removed (past ++ [e]) s'.shared) (hok : turn'.Ok (past ++ [e]) s') :
    Guarded (past ++ [e]) turn' s' := by
  refine ⟨fun j hj => ?_, fun j id hid => ?_, hremoved, hok⟩
  · obtain ⟨rfl, hjk⟩ | ⟨hne, hjk⟩ := Interleaving.moved hprocs j <;> rw [hjk] at hj
    · exact hself hj
    · exact hothers j hne (hs.busy j hj)
  · obtain ⟨-, hjk⟩ | ⟨-, hjk⟩ := Interleaving.moved hprocs j <;> rw [hjk] at hid
    · exact hshmid id hid
    · exact Nat.lt_of_lt_of_le (hs.made j id hid) hmade

theorem Guarded.reset (hs : Guarded past turn s) (hprocs : s'.procs = Function.update s.procs k p')
    (hk : ¬ (s.procs k).Busy) (hp' : ¬ p'.Busy)
    (hshmid : ∀ id ∈ p'.shmid, id < s'.shared.segs.made) (hsegs : SegsGrow s.shared s'.shared)
    (hdrained : Drained s'.shared) : Guarded (past ++ [e]) turn.reset s' := by
  refine hs.moved hprocs (absurd · hp') ?_ hshmid hsegs.made (hs.removed.grows hsegs e) ?_
  · rintro j - rfl
    rfl
  · have hok := hs.ok
    cases turn with
    | rest => exact ⟨(hok.1.grows hsegs).mono e, hdrained⟩
    | credit =>
      obtain ⟨-, live, hlive, hcomplete⟩ := hok
      have hsettled : Settled past s.shared := fun id hid =>
        Option.some.inj (hlive.symm.trans hid) ▸ hcomplete.calm
      exact ⟨(hsettled.grows hsegs).mono e, hdrained⟩
    | held j => exact ⟨hdrained, hs.holding hprocs hk hsegs e rfl⟩

theorem Guarded.aside (hs : Guarded past turn s) (hprocs : s'.procs = Function.update s.procs k p')
    (hk : ¬ (s.procs k).Busy) (hp' : ¬ p'.Busy)
    (hshmid : ∀ id ∈ p'.shmid, id < s'.shared.segs.made) (hsegs : SegsGrow s.shared s'.shared)
    (hsems : SemsGrow s.shared s'.shared) : Guarded (past ++ [e]) turn s' := by
  refine hs.moved hprocs (absurd · hp') (fun _ _ => id) hshmid hsegs.made
    (hs.removed.grows hsegs e) ?_
  have hok := hs.ok
  cases turn with
  | rest => exact ⟨(hok.1.grows hsegs).mono e, hok.2.grows hsems⟩
  | credit =>
    obtain ⟨⟨semid, hsem, hone⟩, live, hlive, hcomplete⟩ := hok
    have hval : s'.shared.sems.objects semid = s.shared.sems.objects semid :=
      hsems.same semid (s.shared.sems.key_made semid hsem)
    have hsame : data s'.shared live = data s.shared live :=
      hsegs.same live (s.shared.segs.key_made live hlive)
    exact ⟨⟨semid, hsems.key semid hsem, hval.trans hone⟩, live, hsegs.key live hlive,
      hsame ▸ hcomplete.mono e⟩
  | held j => exact ⟨hok.1.grows hsems, hs.holding hprocs hk hsegs e rfl⟩

/-- The process that steps takes the turn, or keeps it. -/
theorem Guarded.hold (hs : Guarded past turn s) (hp : s.procs k = p)
    (hprocs : s'.procs = Function.update s.procs k p') (hnone : ∀ j, j ≠ k → turn ≠ .held j)
    (hshmid : p'.shmid = p.shmid) (hmade : s'.shared.segs.made = s.shared.segs.made)
    (hremoved : Removed (past ++ [e]) s'.shared) (hdrained : Drained s'.shared)
    (hholding : Holding (past ++ [e]) s'.shared p') : Guarded (past ++ [e]) (.held k) s' := by
  refine hs.moved hprocs (fun _ => rfl) (fun j hj hturn => absurd hturn (hnone j hj))
    (fun id hid => ?_) (Nat.le_of_eq hmade.symm) hremoved ⟨hdrained, ?_⟩
  · rw [hmade]
    exact hs.made k id (by rwa [hp, ← hshmid])
  · rwa [hprocs, Function.update_self]

theorem Guarded.release (hs : Guarded past turn s) (hp : s.procs k = p)
    (hprocs : s'.procs = Function.update s.procs k p') (hnone : ∀ j, j ≠ k → turn ≠ .held j)
    (hp' : ¬ p'.Busy) (hshmid : ∀ id ∈ p'.shmid, id ∈ p.shmid)
    (hmade : s'.shared.segs.made = s.shared.segs.made) (hremoved : Removed (past ++ [e]) s'.shared)
    (hok : turn'.Ok (past ++ [e]) s') : Guarded (past ++ [e]) turn' s' :=
  hs.moved hprocs (absurd · hp') (fun j hj hturn => absurd hturn (hnone j hj))
    (fun id hid => hmade ▸ hs.made k id (hp ▸ hshmid id hid)) (Nat.le_of_eq hmade.symm) hremoved hok

section

variable {pc pc' : WriterPc} {ids : Ids} {procs : κ → Proc}

theorem Guarded.fgets_first (hs : Guarded past turn s)
    (hp : s.procs k = .writer stdin (.fgets ids 0)) (halone : BeginsAlone s (k, ()))
    (hprocs : procs = Function.update s.procs k (.writer stdin pc'))
    (h : writerMain stdin s.shared (.fgets ids 0) = some (m', pc')) :
    Guarded (past ++ [e]) (.held k) ⟨m', procs⟩ := by
  obtain ⟨rfl, hkey, hdrained, text, htext, hholds, hknown⟩ := hs.resting hp halone
  simp only [writerMain] at h
  split at h
  next hend =>
    cases h
    have hnil : fgetsBytes stdin = [] := List.length_eq_zero_iff.mp (by simpa using hend)
    have hscans : Scans past stdin (data s.shared ids.shmid) text 0 :=
      ⟨htext, hholds, Or.inl rfl, hknown.imp_left fun hempty =>
        hempty.trans (typed_of_fgetsBytes_nil hnil).symm⟩
    exact hs.hold hp hprocs (fun _ _ => nofun) rfl rfl
      (hs.removed.grows .refl e) hdrained ⟨hkey, text, 0, hscans.mono e, Nat.zero_le _⟩
  next b hb =>
    cases h
    have hlt := (List.getElem?_eq_some_iff.mp hb).1
    refine hs.hold hp hprocs (fun _ _ => nofun) rfl rfl
      (hs.removed.store hkey e) hdrained ⟨hkey, Nat.zero_lt_one, hlt, ?_⟩
    rw [data_store]
    exact slice_store rfl hb

theorem Guarded.fgets_next (hs : Guarded past turn s)
    (hp : s.procs k = .writer stdin (.fgets ids (i + 1)))
    (hprocs : procs = Function.update s.procs k (.writer stdin pc'))
    (h : writerMain stdin s.shared (.fgets ids (i + 1)) = some (m', pc')) :
    Guarded (past ++ [e]) (.held k) ⟨m', procs⟩ := by
  obtain ⟨rfl, hdrained, hkey, hpos, hle, hslice⟩ := hs.held hp (Nat.succ_pos i)
  simp only [writerMain] at h
  split at h
  next hend =>
    cases h
    have hall : i + 1 = (fgetsBytes stdin).length :=
      Nat.le_antisymm hle (List.getElem?_eq_none_iff.mp hend)
    have hne : fgetsBytes stdin ≠ [] := fun hnil => by simp [hnil] at hall
    rw [hall, List.take_length] at hslice
    obtain ⟨b, hstop, hholds⟩ := holds_typed hne hslice
    exact hs.hold hp hprocs (fun _ => Turn.only) rfl rfl
      (hs.removed.grows .refl e) hdrained
      ⟨hkey, typed stdin, b, ⟨typed_text stdin, hholds, hstop, Or.inl rfl⟩, Nat.zero_le _⟩
  next b hb =>
    cases h
    have hlt := (List.getElem?_eq_some_iff.mp hb).1
    refine hs.hold hp hprocs (fun _ => Turn.only) rfl rfl
      (hs.removed.store hkey e) hdrained ⟨hkey, Nat.succ_pos _, hlt, ?_⟩
    rw [data_store]
    exact slice_store hslice hb

theorem Guarded.strcspn (hs : Guarded past turn s)
    (hp : s.procs k = .writer stdin (.strcspn ids i))
    (hprocs : procs = Function.update s.procs k (.writer stdin pc'))
    (h : writerMain stdin s.shared (.strcspn ids i) = some (m', pc')) :
    Guarded (past ++ [e]) (.held k) ⟨m', procs⟩ := by
  obtain ⟨rfl, hdrained, hkey, text, b, hscans, hle⟩ := hs.held hp trivial
  simp only [writerMain] at h
  split at h
  next hstop =>
    cases h
    have hend : i = text.length := by
      refine Nat.le_antisymm hle (Nat.not_lt.mp fun hlt => ?_)
      have hinside := hscans.holds.inside hscans.inside hlt
      exact hstop.elim hinside.1 hinside.2
    exact hs.hold hp hprocs (fun _ => Turn.only) rfl rfl
      (hs.removed.grows .refl e) hdrained ⟨hkey, text, b, hscans.mono e, hend⟩
  next hgo =>
    cases h
    have hlt : i < text.length := by
      refine Nat.lt_of_le_of_ne hle fun hend => hgo ?_
      have hload : s.shared.load ids.shmid i = b := hend ▸ hscans.holds.last
      rw [hload]
      exact hscans.stop
    exact hs.hold hp hprocs (fun _ => Turn.only) rfl rfl
      (hs.removed.grows .refl e) hdrained ⟨hkey, text, b, hscans.mono e, hlt⟩

theorem Guarded.terminate (hs : Guarded past turn s)
    (hp : s.procs k = .writer stdin (.terminate ids i))
    (hprocs : procs = Function.update s.procs k (.writer stdin pc'))
    (h : writerMain stdin s.shared (.terminate ids i) = some (m', pc')) :
    Guarded (past ++ [⟨s, (k, ()), ⟨m', procs⟩⟩]) (.held k) ⟨m', procs⟩ := by
  obtain ⟨rfl, hdrained, hkey, text, b, hscans, rfl⟩ := hs.held hp trivial
  cases h
  have hstored : ∀ u, Stored (past ++ [⟨s, (k, ()), u⟩]) text := by
    intro u
    rcases hscans.known with rfl | hold
    · exact ⟨_, List.mem_append_right _ List.mem_cons_self, by rw [finished, hp]⟩
    · exact hold.mono _
  refine hs.hold hp hprocs (fun _ => Turn.only) rfl rfl
    (hs.removed.store hkey _) hdrained ⟨hkey, text, hscans.inside, ?_, hstored _⟩
  rw [data_store]
  exact hscans.holds.terminate

theorem Guarded.printf (hs : Guarded past turn s)
    (hp : s.procs k = .writer stdin (.printf ids i))
    (hprocs : procs = Function.update s.procs k (.writer stdin pc'))
    (h : writerMain stdin s.shared (.printf ids i) = some (m', pc')) :
    Guarded (past ++ [e]) (.held k) ⟨m', procs⟩ := by
  obtain ⟨rfl, hdrained, hkey, hcomplete⟩ := hs.held hp trivial
  simp only [writerMain] at h
  split at h <;> cases h <;>
    exact hs.hold hp hprocs (fun _ => Turn.only) rfl rfl
      (hs.removed.grows .refl e) hdrained ⟨hkey, hcomplete.mono e⟩

theorem Guarded.signal (hs : Guarded past turn s) (hp : s.procs k = .writer stdin (.semop ids))
    (hprocs : procs = Function.update s.procs k (.writer stdin pc'))
    (h : writerMain stdin s.shared (.semop ids) = some (m', pc')) :
    ∃ turn', Guarded (past ++ [e]) turn' ⟨m', procs⟩ := by
  obtain ⟨rfl, hdrained, hkey, hcomplete⟩ := hs.held hp trivial
  simp only [writerMain] at h
  split at h
  next =>
    cases h
    have hsettled := (settled_of_key hkey hcomplete.calm).grows (.shmdt ids.shmid)
    exact ⟨.rest, hs.release hp hprocs (fun _ => Turn.only) id nofun rfl
      (hs.removed.grows (.shmdt _) e) ⟨hsettled.mono e, hdrained⟩⟩
  next => cases h
  next m'' hdone =>
    cases h
    obtain ⟨hsem, -, rfl⟩ := Ipc.semop_done hdone
    have hone : (s.shared.sems.set ids.semid (s.shared.sems.objects ids.semid + 1)).objects
        ids.semid = 1 := by rw [Table.set_self, hdrained _ hsem]; rfl
    exact ⟨.credit, hs.release hp hprocs (fun _ => Turn.only) id (fun _ => id) rfl
      (hs.removed.grows .refl e) ⟨⟨_, hsem, hone⟩, _, hkey, hcomplete.mono e⟩⟩

theorem Guarded.writer (hs : Guarded past turn s) (hp : s.procs k = .writer stdin pc)
    (halone : BeginsAlone s (k, ()))
    (hprocs : procs = Function.update s.procs k (.writer stdin pc'))
    (h : writerMain stdin s.shared pc = some (m', pc')) :
    ∃ turn', Guarded (past ++ [⟨s, (k, ()), ⟨m', procs⟩⟩]) turn' ⟨m', procs⟩ := by
  have hmade := hs.made k
  rw [hp] at hmade
  cases pc with
  | shmget =>
    cases h
    refine ⟨turn, hs.aside hprocs (hp ▸ id) id ?_ (Table.get_grows rfl) .refl⟩
    rintro _ ⟨⟩
    exact Table.get_made
  | semget shmid =>
    cases h
    exact ⟨turn, hs.aside hprocs (hp ▸ id) id hmade .refl (Table.get_grows rfl)⟩
  | semctl ids =>
    simp only [writerMain] at h
    split at h
    next =>
      cases h
      exact ⟨turn, hs.aside hprocs (hp ▸ id) id nofun .refl .refl⟩
    next m'' hset =>
      cases h
      obtain ⟨hkey, rfl⟩ := Ipc.setval_eq hset
      exact ⟨turn.reset, hs.reset hprocs (hp ▸ id) id hmade .refl
        (drained_of_key hkey Table.set_self)⟩
  | shmat ids =>
    simp only [writerMain] at h
    split at h
    next =>
      cases h
      exact ⟨turn, hs.aside hprocs (hp ▸ id) id nofun .refl .refl⟩
    next m'' hat =>
      cases h
      have hsegs := SegsGrow.shmat hat
      obtain ⟨n, rfl⟩ := Ipc.shmat_eq hat
      exact ⟨turn, hs.aside hprocs (hp ▸ id) (Nat.lt_irrefl 0) hmade hsegs .refl⟩
  | fgets ids i =>
    cases i with
    | zero => exact ⟨_, hs.fgets_first hp halone hprocs h⟩
    | succ i => exact ⟨_, hs.fgets_next hp hprocs h⟩
  | strcspn ids i => exact ⟨_, hs.strcspn hp hprocs h⟩
  | terminate ids i => exact ⟨_, hs.terminate hp hprocs h⟩
  | printf ids i => exact ⟨_, hs.printf hp hprocs h⟩
  | semop ids => exact hs.signal hp hprocs h
  | shmdt ids =>
    cases h
    exact ⟨turn, hs.aside hprocs (hp ▸ id) id nofun (.shmdt _) .refl⟩
  | exited status => cases h

end

section

variable {pc pc' : ReaderPc} {ids : Ids} {procs : κ → Proc}

/-- A reader that takes the semaphore's one finds a line that is handed over, in the segment of the
writer or in one that was removed before. -/
theorem Guarded.wait (hs : Guarded past turn s) (hp : s.procs k = .reader (.semop ids))
    (hprocs : procs = Function.update s.procs k (.reader pc'))
    (h : readerMain s.shared (.semop ids) = some (m', pc')) :
    ∃ turn', Guarded (past ++ [e]) turn' ⟨m', procs⟩ := by
  have hidle : ¬ (s.procs k).Busy := by rw [hp]; exact id
  have hshmid : ids.shmid ∈ (s.procs k).shmid := by rw [hp]; rfl
  simp only [readerMain] at h
  split at h
  next =>
    cases h
    exact ⟨turn, hs.aside hprocs hidle id nofun .refl .refl⟩
  next => cases h
  next m'' hdone =>
    cases h
    obtain ⟨hsem, hpos, rfl⟩ := Ipc.semop_done hdone
    have hok := hs.ok
    cases turn with
    | rest =>
      rw [hok.2 _ hsem] at hpos
      cases hpos
    | held j =>
      rw [hok.1 _ hsem] at hpos
      cases hpos
    | credit =>
      obtain ⟨⟨semid, hkey, hone⟩, live, hlive, hcomplete⟩ := hok
      have hzero : (s.shared.sems.set ids.semid (s.shared.sems.objects ids.semid + -1)).objects
          ids.semid = 0 := by
        obtain rfl := Option.some.inj (hkey.symm.trans hsem)
        rw [Table.set_self, hone]
        rfl
      have hmine : Complete past (data s.shared ids.shmid) := by
        by_cases hmine : s.shared.segs.key = some ids.shmid
        · exact Option.some.inj (hlive.symm.trans hmine) ▸ hcomplete
        · exact hs.removed _ (hs.made k _ hshmid) hmine
      exact ⟨.held k, hs.hold hp hprocs (fun _ _ => nofun) rfl rfl
        (hs.removed.grows .refl e) (drained_of_key hsem hzero)
        ⟨(settled_of_key hlive hcomplete.calm).mono e, hmine.mono e⟩⟩

theorem Guarded.attach (hs : Guarded past turn s) (hp : s.procs k = .reader (.shmat ids))
    (hprocs : procs = Function.update s.procs k (.reader pc'))
    (h : readerMain s.shared (.shmat ids) = some (m', pc')) :
    ∃ turn', Guarded (past ++ [e]) turn' ⟨m', procs⟩ := by
  obtain ⟨rfl, hdrained, hsettled, hcomplete⟩ := hs.held hp trivial
  have hshmid : ids.shmid ∈ (s.procs k).shmid := by rw [hp]; rfl
  simp only [readerMain] at h
  split at h
  next =>
    cases h
    exact ⟨.rest, hs.release hp hprocs (fun _ => Turn.only) id nofun rfl (hs.removed.grows .refl e)
      ⟨hsettled.mono e, hdrained⟩⟩
  next m'' hat =>
    cases h
    have hsegs := SegsGrow.shmat hat
    have hdata : data m' ids.shmid = data s.shared ids.shmid :=
      hsegs.same _ (hs.made k _ hshmid)
    obtain ⟨text, htext, hholds, hstored⟩ := hcomplete
    obtain ⟨n, rfl⟩ := Ipc.shmat_eq hat
    exact ⟨.held k, hs.hold hp hprocs (fun _ => Turn.only) rfl rfl
      (hs.removed.grows hsegs e) hdrained
      ⟨(hsettled.grows hsegs).mono e, text, htext, hdata ▸ hholds, hstored.mono e,
        List.nil_prefix⟩⟩

/-- At a NUL the whole line has been read. -/
theorem printed_whole {text : List UInt8} (htext : Text text) (hholds : Holds mem text 0)
    (hline : line <+: text) (hnul : mem line.length = 0) : line = text := by
  refine hline.eq_of_length (Nat.le_antisymm hline.length_le (Nat.not_lt.mp fun hlt => ?_))
  exact (hholds.inside htext hlt).1 hnul

theorem Guarded.print (hs : Guarded past turn s) (hp : s.procs k = .reader (.printf ids line))
    (hprocs : procs = Function.update s.procs k (.reader pc'))
    (h : readerMain s.shared (.printf ids line) = some (m', pc')) :
    Guarded (past ++ [e]) (.held k) ⟨m', procs⟩ := by
  obtain ⟨rfl, hdrained, hsettled, text, htext, hholds, hstored, hline⟩ := hs.held hp trivial
  simp only [readerMain] at h
  split at h
  next =>
    cases h
    exact hs.hold hp hprocs (fun _ => Turn.only) rfl rfl
      (hs.removed.grows .refl e) hdrained
      ⟨hsettled.mono e, text, htext, hholds, hstored.mono e⟩
  next hgo =>
    cases h
    have hlt : line.length < text.length := by
      refine Nat.lt_of_le_of_ne hline.length_le fun hend => hgo ?_
      exact (congrArg (data s.shared ids.shmid) hend).trans hholds.last
    have hnext : line ++ [s.shared.load ids.shmid line.length] <+: text := by
      obtain ⟨rest, rfl⟩ := hline
      have hget := hholds.mem hlt
      rw [List.getElem?_append_right (Nat.le_refl _), Nat.sub_self] at hget
      cases rest with
      | nil => cases hget
      | cons b rest =>
        cases hget
        exact ⟨rest, by simp [Ipc.load]⟩
    exact hs.hold hp hprocs (fun _ => Turn.only) rfl rfl
      (hs.removed.grows .refl e) hdrained
      ⟨hsettled.mono e, text, htext, hholds, hstored.mono e, hnext⟩

theorem Guarded.reader (hs : Guarded past turn s) (hp : s.procs k = .reader pc)
    (hprocs : procs = Function.update s.procs k (.reader pc'))
    (h : readerMain s.shared pc = some (m', pc')) :
    ∃ turn', Guarded (past ++ [e]) turn' ⟨m', procs⟩ := by
  have hmade := hs.made k
  rw [hp] at hmade
  cases pc with
  | shmget =>
    simp only [readerMain] at h
    split at h
    next =>
      cases h
      exact ⟨turn, hs.aside hprocs (hp ▸ id) id nofun .refl .refl⟩
    next shmid hkey =>
      cases h
      refine ⟨turn, hs.aside hprocs (hp ▸ id) id ?_ .refl .refl⟩
      rintro _ ⟨⟩
      exact s.shared.segs.key_made _ hkey
  | semget shmid =>
    simp only [readerMain] at h
    split at h
    next =>
      cases h
      exact ⟨turn, hs.aside hprocs (hp ▸ id) id nofun .refl .refl⟩
    next semid hkey =>
      cases h
      exact ⟨turn, hs.aside hprocs (hp ▸ id) id hmade .refl .refl⟩
  | semop ids => exact hs.wait hp hprocs h
  | shmat ids => exact hs.attach hp hprocs h
  | printf ids line => exact ⟨_, hs.print hp hprocs h⟩
  | shmdt ids =>
    obtain ⟨rfl, hdrained, hsettled, hcomplete⟩ := hs.held hp trivial
    cases h
    have hsegs : SegsGrow s.shared (s.shared.shmdt ids.shmid) := .shmdt _
    have hdata : data (s.shared.shmdt ids.shmid) ids.shmid = data s.shared ids.shmid :=
      hsegs.same _ (hmade _ rfl)
    exact ⟨_, hs.hold hp hprocs (fun _ => Turn.only) rfl rfl
      (hs.removed.grows hsegs e) hdrained
      ⟨(hsettled.grows hsegs).mono e, hdata ▸ hcomplete.mono e⟩⟩
  | shmctl ids =>
    obtain ⟨rfl, hdrained, hsettled, hcomplete⟩ := hs.held hp trivial
    cases h
    have hdata : ∀ id, data (s.shared.shmRemove ids.shmid) id = data s.shared id :=
      congrFun (Ipc.load_shmRemove s.shared ids.shmid)
    have hrest : Settled past (s.shared.shmRemove ids.shmid) := fun id hid =>
      hdata id ▸ hsettled id (Table.remove_key.mp hid).1
    have hremoved : Removed (past ++ [e]) (s.shared.shmRemove ids.shmid) := by
      intro id hid hkey
      rw [hdata]
      by_cases hmine : id = ids.shmid
      · exact hmine ▸ hcomplete.mono e
      · exact (hs.removed id (Table.remove_made ▸ hid) fun hlive =>
          hkey (Table.remove_key.mpr ⟨hlive, hmine⟩)).mono e
    exact ⟨_, hs.hold hp hprocs (fun _ => Turn.only) rfl Table.remove_made
      hremoved hdrained (hrest.mono e)⟩
  | semctl ids =>
    obtain ⟨rfl, hdrained, hsettled⟩ := hs.held hp trivial
    cases h
    have hdrained' : Drained (s.shared.semRemove ids.semid) := by
      intro id hid
      have hzero := hdrained id (Table.remove_key.mp hid).1
      exact (congrFun Table.remove_objects id).trans hzero
    exact ⟨.rest, hs.release hp hprocs (fun _ => Turn.only) id nofun rfl (hs.removed.grows .refl e)
      ⟨hsettled.mono e, hdrained'⟩⟩
  | exited status => cases h

end

end

end LinuxAssignment.SharedLine
