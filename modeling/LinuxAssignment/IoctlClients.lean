import LinuxAssignment.AcyclicOrder
import LinuxAssignment.IoctlRegister
import LinuxAssignment.Stdio
import LinuxAssignment.StepSystem

namespace LinuxAssignment.IoctlClients

open ByteMemory Stdio StepSystem IoctlRegister AcyclicOrder

/-- The lines of `user_test.c`. -/
inductive Printed where
  | openingDriver
  | cannotOpen
  | enterValue
  | writingValue
  | readingValue
  | valueIs (value : Int)
  | closingDriver
  deriving DecidableEq

/-- Where a process is: before `open`, before `scanf`, before the copy of `WR_VALUE`, behind the
copy and before its line in the kernel log, before `RD_VALUE`, before the last lines, before `close`. -/
inductive Pc where
  | opening
  | entering
  | writing
  | logging
  | reading
  | printing
  | closing
  | returned
  deriving DecidableEq

/-- The local variables lie in `user`. -/
structure Process where
  pc : Pc
  input : List UInt8
  user : Memory
  printed : List Printed

def numberAt : Nat := 0

def valueAt : Nat := 4

/-- A call of a process, whose locals the kernel can reach. -/
def Process.ioctl (p : Process) (cmd : UInt32) (arg : Nat) : IoctlRegister.Call :=
  ⟨cmd, p.user, arg, .done⟩

/-- The memory of the driver, what it has logged, and the processes. -/
structure State (κ : Type) where
  device : Memory
  log : List String
  process : κ → Process

/-- One step of a process: the driver's memory behind it, what is logged, and the process. `WR_VALUE`
takes two, since other processes may come between the copy and `pr_info`. -/
def Process.go (m : Memory) (opens : Bool) (p : Process) : Option (Memory × List String × Process) :=
  match p.pc with
  | .opening =>
    if opens then
      some (m, ["Device File Opened...!!!\n"],
        { p with pc := .entering, printed := p.printed ++ [.openingDriver] })
    else
      some (m, [], { p with pc := .returned, printed := p.printed ++ [.openingDriver, .cannotOpen] })
  | .entering =>
    let r := scanfInt p.input (load32 p.user numberAt)
    some (m, [], ⟨.writing, r.2, store32 p.user numberAt r.1,
      p.printed ++ [.enterValue, .writingValue]⟩)
  | .writing => some ((etxIoctl m (p.ioctl wrValue numberAt)).1, [], { p with pc := .logging })
  | .logging =>
    some (m, ["Value = " ++ toString (load32 m 0) ++ "\n"],
      { p with pc := .reading, printed := p.printed ++ [.readingValue] })
  | .reading =>
    some (m, [], { p with pc := .printing, user := (etxIoctl m (p.ioctl rdValue valueAt)).2.user })
  | .printing =>
    some (m, [], { p with
      pc := .closing
      printed := p.printed ++ [.valueIs (load32 p.user valueAt), .closingDriver] })
  | .closing => some (m, ["Device File Closed...!!!\n"], { p with pc := .returned })
  | .returned => none

/-- A process goes on, and if it comes to `open`, the kernel lets it or not. -/
structure Act (κ : Type) where
  process : κ
  opens : Bool

/-- What is typed for a process, and what is on its stack. -/
structure Launch where
  input : List UInt8
  user : Memory

def Launch.process (l : Launch) : Process := ⟨.opening, l.input, l.user, []⟩

/-- The number that `scanf` leaves in the local variable. -/
def Launch.number (l : Launch) : Int := (scanfInt l.input (load32 l.user numberAt)).1

def start {κ : Type} (m : Memory) (launch : κ → Launch) : State κ :=
  ⟨m, [], fun k => (launch k).process⟩

def step {κ : Type} [DecidableEq κ] (s : State κ) (a : Act κ) : Option (State κ) :=
  ((s.process a.process).go s.device a.opens).map fun r =>
    ⟨r.1, s.log ++ r.2.1, Function.update s.process a.process r.2.2⟩

/-- What a process prints up to its `RD_VALUE`. -/
def session : List Printed := [.openingDriver, .enterValue, .writingValue, .readingValue]

/-- What a process prints that shows a number in the end, or cannot open the device. -/
def output : Option Int → List Printed
  | none => [.openingDriver, .cannotOpen]
  | some value => session ++ [.valueIs value, .closingDriver]

/-- Undisturbed, the two steps of `WR_VALUE` are the call. -/
theorem write_undisturbed (m : Memory) (p : Process) (hpc : p.pc = .writing) :
    let c := p.ioctl wrValue numberAt
    p.go m true = some ((etxIoctl m c).1, [], { p with pc := .logging }) ∧
      ({ p with pc := .logging } : Process).go (etxIoctl m c).1 true =
        some ((etxIoctl m c).1, (etxIoctl m c).2.log,
          { p with pc := .reading, printed := p.printed ++ [.readingValue] }) := by
  refine ⟨?_, rfl⟩
  unfold Process.go
  rw [hpc]

section

variable {κ : Type} {m : Memory} {launch : κ → Launch} {order : List κ} {k j : κ} {p p' : Process}
  {s s' : State κ}

theorem int32_load32 (m : Memory) (a : Nat) : int32 (load32 m a) = load32 m a := by
  unfold load32 int32
  omega

theorem int32_number (l : Launch) : int32 l.number = l.number := by
  unfold Launch.number scanfInt
  dsimp only
  split
  next => exact int32_load32 _ _
  next =>
    unfold int32
    omega

theorem ioctl_writes (m : Memory) (p : Process) :
    load32 (etxIoctl m (p.ioctl wrValue numberAt)).1 0 = load32 p.user numberAt :=
  write_stores (c := p.ioctl wrValue numberAt) rfl (Copy.left_done 4)

theorem ioctl_reads (m : Memory) (p : Process) :
    load32 (etxIoctl m (p.ioctl rdValue valueAt)).2.user valueAt = load32 m 0 :=
  read_delivers (c := p.ioctl rdValue valueAt) rfl (Copy.left_done 4)

theorem output_injective {r r' : Option Int} (h : output r = output r') : r = r' := by
  cases r with
  | none =>
    cases r' with
    | none => rfl
    | some v => cases h
  | some v =>
    cases r' with
    | none => cases h
    | some w =>
      simp only [output, List.append_cancel_left_eq, List.cons.injEq, Printed.valueIs.injEq] at h
      exact congrArg some h.1

/-- Process `k` has written, and `v` is the number of a process that wrote at or behind it. -/
def Sees (launch : κ → Launch) (order : List κ) (k : κ) (v : Int) : Prop :=
  ∃ past later j, order = past ++ k :: later ∧ j ∈ k :: later ∧ v = (launch j).number

theorem Sees.append {v : Int} (h : Sees launch order k v) (i : κ) :
    Sees launch (order ++ [i]) k v := by
  obtain ⟨past, later, j, rfl, hj, hv⟩ := h
  refine ⟨past, later ++ [i], j, by simp, ?_, hv⟩
  rw [← List.cons_append]
  exact List.mem_append_left _ hj

/-- The last one to write is seen by all that have written. -/
theorem sees_last (hk : k ∈ order) (hj : j ∈ order.getLast?) :
    Sees launch order k (launch j).number := by
  obtain ⟨past, later, rfl⟩ := List.append_of_mem hk
  refine ⟨past, later, j, rfl, ?_, rfl⟩
  have hlast : (k :: later).getLast? = some j := by
    rwa [List.getLast?_append_of_ne_nil _ (List.cons_ne_nil k later)] at hj
  exact List.mem_of_getLast? hlast

/-- What is known of a process, by the order in which the processes have written so far. -/
def Known (launch : κ → Launch) (order : List κ) (k : κ) (p : Process) : Prop :=
  match p.pc with
  | .opening => k ∉ order ∧ p = (launch k).process
  | .entering => k ∉ order ∧ p = ⟨.entering, (launch k).input, (launch k).user, [.openingDriver]⟩
  | .writing => k ∉ order ∧ load32 p.user numberAt = (launch k).number ∧
      p.printed ++ [.readingValue] = session
  | .logging => k ∈ order ∧ p.printed ++ [.readingValue] = session
  | .reading => k ∈ order ∧ p.printed = session
  | .printing => Sees launch order k (load32 p.user valueAt) ∧ p.printed = session
  | .closing => ∃ v, Sees launch order k v ∧ p.printed = output (some v)
  | .returned => (k ∉ order ∧ p.printed = output none) ∨
      ∃ v, Sees launch order k v ∧ p.printed = output (some v)

/-- The processes in `order` have written, the last of them what the driver holds. -/
structure Ordered (launch : κ → Launch) (order : List κ) (s : State κ) : Prop where
  nodup : order.Nodup
  known : ∀ k, Known launch order k (s.process k)
  value : ∀ j ∈ order.getLast?, load32 s.device 0 = (launch j).number

theorem start_ordered (m : Memory) (launch : κ → Launch) : Ordered launch [] (start m launch) :=
  ⟨List.nodup_nil, fun _ => ⟨List.not_mem_nil, rfl⟩, fun _ hj => by cases hj⟩

theorem Known.append (h : Known launch order k p) {i : κ} (hne : k ≠ i) :
    Known launch (order ++ [i]) k p := by
  have hmem : k ∈ order ++ [i] ↔ k ∈ order := by simp [hne]
  have hsees : ∀ v, Sees launch order k v → Sees launch (order ++ [i]) k v :=
    fun _ hv => hv.append i
  unfold Known at h ⊢
  rw [hmem]
  split at h
  next => exact h
  next => exact h
  next => exact h
  next => exact h
  next => exact h
  next => exact ⟨hsees _ h.1, h.2⟩
  next =>
    obtain ⟨v, hv, hout⟩ := h
    exact ⟨v, hsees v hv, hout⟩
  next => exact h.imp_right fun ⟨v, hv, hout⟩ => ⟨v, hsees v hv, hout⟩

/-- A step of a process leaves the driver's memory, or puts the process at the end of the order. -/
theorem Known.go (h : Known launch order k p)
    (hvalue : ∀ j ∈ order.getLast?, load32 m 0 = (launch j).number) {opens : Bool} {m' : Memory}
    {log : List String} (hgo : p.go m opens = some (m', log, p')) :
    (m' = m ∧ Known launch order k p') ∨
      k ∉ order ∧ load32 m' 0 = (launch k).number ∧ Known launch (order ++ [k]) k p' := by
  unfold Process.go at hgo
  unfold Known at h
  split at hgo
  next hpc =>
    rw [hpc] at h
    obtain ⟨hout, rfl⟩ := h
    split at hgo
    next =>
      cases hgo
      exact Or.inl ⟨rfl, hout, rfl⟩
    next =>
      cases hgo
      exact Or.inl ⟨rfl, Or.inl ⟨hout, rfl⟩⟩
  next hpc =>
    rw [hpc] at h
    obtain ⟨hout, rfl⟩ := h
    cases hgo
    refine Or.inl ⟨rfl, hout, ?_, rfl⟩
    exact (load32_store32 _ _ _).trans (int32_number (launch k))
  next hpc =>
    rw [hpc] at h
    obtain ⟨hout, hnumber, hprinted⟩ := h
    cases hgo
    refine Or.inr ⟨hout, ?_, by simp, hprinted⟩
    exact (ioctl_writes m p).trans hnumber
  next hpc =>
    rw [hpc] at h
    cases hgo
    exact Or.inl ⟨rfl, h.1, h.2⟩
  next hpc =>
    rw [hpc] at h
    cases hgo
    obtain ⟨hin, hprinted⟩ := h
    have hne : order ≠ [] := List.ne_nil_of_mem hin
    obtain ⟨j, hj⟩ : ∃ j, j ∈ order.getLast? := ⟨_, List.getLast_mem_getLast? hne⟩
    refine Or.inl ⟨rfl, ?_, hprinted⟩
    have hread := (ioctl_reads m p).trans (hvalue j hj)
    exact hread ▸ sees_last hin hj
  next hpc =>
    rw [hpc] at h
    cases hgo
    refine Or.inl ⟨rfl, _, h.1, ?_⟩
    rw [h.2]
    rfl
  next hpc =>
    rw [hpc] at h
    cases hgo
    exact Or.inl ⟨rfl, Or.inr h⟩
  next => cases hgo

theorem Known.returned (h : Known launch order k p) {r : Option Int} (hpc : p.pc = .returned)
    (hprinted : p.printed = output r) :
    (k ∉ order ∧ r = none) ∨ ∃ v, Sees launch order k v ∧ r = some v := by
  unfold Known at h
  rw [hpc, hprinted] at h
  rcases h with ⟨hout, heq⟩ | ⟨v, hv, heq⟩
  · exact Or.inl ⟨hout, output_injective heq⟩
  · exact Or.inr ⟨v, hv, output_injective heq⟩

/-- Where all have returned, each shows the number of one that wrote at or behind it. -/
theorem Ordered.sources (hs : Ordered launch order s) {result : κ → Option Int}
    (hreturned : ∀ k, (s.process k).pc = .returned ∧ (s.process k).printed = output (result k)) :
    ∃ source : κ → κ, Acyclic source ∧ ∀ k, result k = none ∨
      result (source k) ≠ none ∧ result k = some (launch (source k)).number := by
  have hknown := fun k => (hs.known k).returned (hreturned k).1 (hreturned k).2
  have hsource : ∀ k, ∃ j, (k ∉ order ∧ j = k ∧ result k = none) ∨
      (∃ past later, order = past ++ k :: later ∧ j ∈ k :: later) ∧
        result k = some (launch j).number := by
    intro k
    rcases hknown k with ⟨hout, hnone⟩ | ⟨v, ⟨past, later, j, horder, hj, rfl⟩, hsome⟩
    · exact ⟨k, Or.inl ⟨hout, rfl, hnone⟩⟩
    · exact ⟨j, Or.inr ⟨⟨past, later, horder, hj⟩, hsome⟩⟩
  obtain ⟨source, hsource⟩ := Classical.axiomOfChoice hsource
  have hforward : Forward source order := by
    refine forward_of_splits fun past k later horder => ?_
    rcases hsource k with ⟨hout, -⟩ | ⟨⟨past', later', horder', hj⟩, -⟩
    · exact absurd (by rw [horder]; simp) hout
    · have hnodup := hs.nodup
      rw [horder] at horder' hnodup
      have hout : k ∉ past ++ later := (List.nodup_cons.mp (List.nodup_middle.mp hnodup)).1
      rw [List.mem_append, not_or] at hout
      obtain ⟨-, -, rfl⟩ := (List.append_cons_inj_of_notMem hout.1 hout.2).mp horder'
      exact hj
  refine ⟨source, hforward.acyclic hs.nodup fun k hout => ?_, fun k => ?_⟩
  · rcases hsource k with ⟨-, hself, -⟩ | ⟨⟨past, later, horder, -⟩, -⟩
    · exact hself
    · exact absurd (by rw [horder]; simp) hout
  · rcases hsource k with ⟨-, -, hnone⟩ | ⟨⟨past, later, horder, hj⟩, hsome⟩
    · exact Or.inl hnone
    · refine Or.inr ⟨?_, hsome⟩
      have hin : source k ∈ order := by
        rw [horder]
        exact List.mem_append_right past hj
      rcases hknown (source k) with ⟨hout, -⟩ | ⟨v, -, hsome'⟩
      · exact absurd hin hout
      · rw [hsome']
        exact Option.some_ne_none v

variable [DecidableEq κ]

theorem Ordered.step {a : Act κ} (hs : Ordered launch order s) (h : step s a = some s') :
    ∃ order', Ordered launch order' s' := by
  obtain ⟨⟨m', log, p'⟩, hgo, rfl⟩ := Option.map_eq_some_iff.mp h
  have others : ∀ {order' : List κ}, Known launch order' a.process p' →
      (∀ k, k ≠ a.process → Known launch order' k (s.process k)) →
      ∀ k, Known launch order' k (Function.update s.process a.process p' k) := by
    intro order' hself hother k
    by_cases hk : k = a.process
    · subst hk
      rwa [Function.update_self]
    · rw [Function.update_of_ne hk]
      exact hother k hk
  rcases (hs.known a.process).go hs.value hgo with ⟨rfl, hp⟩ | ⟨hout, hnumber, hp⟩
  · exact ⟨order, hs.nodup, others hp fun k _ => hs.known k, hs.value⟩
  · refine ⟨order ++ [a.process], ?_, others hp fun k hk => (hs.known k).append hk, ?_⟩
    · exact List.concat_eq_append ▸ hs.nodup.concat hout
    · intro j hj
      simp only [List.getLast?_concat, Option.mem_some_iff] at hj
      rw [← hj]
      exact hnumber

theorem ordered_run {es : List (Event (State κ) (Act κ))} (h : Trace step (start m launch) es s) :
    ∃ order, Ordered launch order s := by
  have keep : ∀ (s : State κ) (a : Act κ) (t : State κ), (∃ order, Ordered launch order s) → True →
      step s a = some t → ∃ order, Ordered launch order t :=
    fun _ _ _ ⟨_, hs⟩ _ ht => hs.step ht
  exact h.invariant keep ⟨[], start_ordered m launch⟩ fun _ _ => trivial

/-- A process that has written and goes on with its `RD_VALUE`. -/
def Process.AtRead (p : Process) : Prop := p.pc = .reading ∧ p.printed = session

def Process.Returned (p : Process) (r : Option Int) : Prop := p.pc = .returned ∧ p.printed = output r

/-- A run in which only `k` takes steps. -/
def Alone (k : κ) (s t : State κ) : Prop :=
  (∃ es, Trace step s es t) ∧ ∀ i, i ≠ k → t.process i = s.process i

theorem Alone.trans {t u : State κ} (h : Alone k s t) (h' : Alone k t u) : Alone k s u := by
  obtain ⟨⟨es, hrun⟩, hother⟩ := h
  obtain ⟨⟨es', hrun'⟩, hother'⟩ := h'
  exact ⟨⟨es ++ es', hrun.append hrun'⟩, fun i hi => (hother' i hi).trans (hother i hi)⟩

theorem alone_step {log : List String} (hp : s.process k = p) (opens : Bool)
    (h : p.go s.device opens = some (m, log, p')) :
    ∃ t, Alone k s t ∧ t.device = m ∧ t.process k = p' := by
  have hstep : step s ⟨k, opens⟩ = some ⟨m, s.log ++ log, Function.update s.process k p'⟩ := by
    unfold step
    rw [hp, h]
    rfl
  exact ⟨_, ⟨⟨_, .cons hstep .nil⟩, fun i hi => Function.update_of_ne hi _ _⟩, rfl,
    Function.update_self _ _ _⟩

theorem refuses (h : s.process k = (launch k).process) :
    ∃ t, Alone k s t ∧ (t.process k).Returned none := by
  obtain ⟨t, halone, -, hp⟩ := alone_step h false rfl
  refine ⟨t, halone, ?_⟩
  rw [hp]
  exact ⟨rfl, rfl⟩

theorem writes (h : s.process k = (launch k).process) :
    ∃ t, Alone k s t ∧ (t.process k).AtRead ∧ load32 t.device 0 = (launch k).number := by
  obtain ⟨t₁, hopen, -, hp₁⟩ := alone_step h true rfl
  obtain ⟨t₂, hscan, -, hp₂⟩ := alone_step hp₁ true rfl
  obtain ⟨t₃, hwrite, hdevice, hp₃⟩ := alone_step hp₂ true rfl
  obtain ⟨t, hlog, hkept, hp⟩ := alone_step hp₃ true rfl
  refine ⟨t, hopen.trans (hscan.trans (hwrite.trans hlog)), ?_, ?_⟩
  · rw [hp]
    exact ⟨rfl, rfl⟩
  · rw [hkept, hdevice]
    refine (ioctl_writes _ _).trans ?_
    exact (load32_store32 _ _ _).trans (int32_number (launch k))

theorem reads (h : (s.process k).AtRead) :
    ∃ t, Alone k s t ∧ t.device = s.device ∧
      (t.process k).Returned (some (load32 s.device 0)) := by
  obtain ⟨hpc, hprinted⟩ := h
  have hread : (s.process k).go s.device true = some (s.device, [], { s.process k with
      pc := .printing
      user := (etxIoctl s.device ((s.process k).ioctl rdValue valueAt)).2.user }) := by
    unfold Process.go
    rw [hpc]
  obtain ⟨t₁, hreads, hdevice, hp₁⟩ := alone_step rfl true hread
  obtain ⟨t₂, hprint, hdevice₂, hp₂⟩ := alone_step hp₁ true rfl
  obtain ⟨t, hclose, hdevice', hp⟩ := alone_step hp₂ true rfl
  refine ⟨t, hreads.trans (hprint.trans hclose), hdevice'.trans (hdevice₂.trans hdevice), ?_⟩
  rw [hp]
  refine ⟨rfl, ?_⟩
  dsimp only
  rw [hprinted, ioctl_reads]
  rfl

theorem read_all {ks : List κ} (hnodup : ks.Nodup) (h : ∀ k ∈ ks, (s.process k).AtRead) :
    ∃ es t, Trace step s es t ∧ (∀ i, i ∉ ks → t.process i = s.process i) ∧
      ∀ k ∈ ks, (t.process k).Returned (some (load32 s.device 0)) := by
  induction ks generalizing s with
  | nil => exact ⟨[], s, .nil, fun _ _ => rfl, fun _ hk => absurd hk List.not_mem_nil⟩
  | cons j ks ih =>
    obtain ⟨hout, hnodup⟩ := List.nodup_cons.mp hnodup
    obtain ⟨t₁, ⟨⟨es, hrun⟩, hother⟩, hdevice, hj⟩ := reads (h j List.mem_cons_self)
    have hkeep : ∀ k ∈ ks, t₁.process k = s.process k := fun k hk =>
      hother k fun he => hout (he ▸ hk)
    obtain ⟨es', t, hrun', hother', hks⟩ := ih hnodup fun k hk => by
      rw [hkeep k hk]
      exact h k (List.mem_cons_of_mem j hk)
    refine ⟨es ++ es', t, hrun.append hrun', fun i hi => ?_, fun k hk => ?_⟩
    · rw [List.mem_cons, not_or] at hi
      exact (hother' i hi.2).trans (hother i hi.1)
    · rcases List.mem_cons.mp hk with rfl | hk
      · rw [hother' k hout]
        exact hj
      · rw [← hdevice]
        exact hks k hk

/-- Halfway through a run with the given result: the processes in `rest` are to come, and those that
wait for one of them to write have come to their `RD_VALUE`. -/
structure Stage (launch : κ → Launch) (result : κ → Option Int) (source : κ → κ) (rest : List κ)
    (s : State κ) : Prop where
  waiting : ∀ k ∈ rest, s.process k = (launch k).process
  refused : ∀ k ∉ rest, result k = none → (s.process k).Returned none
  reading : ∀ k ∉ rest, result k ≠ none → source k ∈ rest → (s.process k).AtRead
  returned : ∀ k ∉ rest, result k ≠ none → source k ∉ rest → (s.process k).Returned (result k)

variable {result : κ → Option Int} {source : κ → κ} {rest : List κ}

theorem Stage.refuse (hs : Stage launch result source (j :: rest) s) (hout : j ∉ rest)
    (hresult : ∀ k, result k ≠ none → result (source k) ≠ none) (hj : result j = none) :
    ∃ es t, Trace step s es t ∧ Stage launch result source rest t := by
  obtain ⟨t, ⟨⟨es, hrun⟩, hother⟩, hreturned⟩ := refuses (hs.waiting j List.mem_cons_self)
  have hnot : ∀ k ∉ rest, k ≠ j → k ∉ j :: rest := fun k hk hne hin =>
    (List.mem_cons.mp hin).elim hne hk
  have hne : ∀ k, result k ≠ none → k ≠ j := by
    rintro k hk rfl
    exact hk hj
  refine ⟨es, t, hrun, fun k hk => ?_, fun k hk hnone => ?_, fun k hk hsome hin => ?_,
    fun k hk hsome hin => ?_⟩
  · rw [hother k fun he => hout (he ▸ hk)]
    exact hs.waiting k (List.mem_cons_of_mem j hk)
  · by_cases hkj : k = j
    · exact hkj ▸ hreturned
    · rw [hother k hkj]
      exact hs.refused k (hnot k hk hkj) hnone
  · rw [hother k (hne k hsome)]
    exact hs.reading k (hnot k hk (hne k hsome)) hsome (List.mem_cons_of_mem j hin)
  · have hsource := hne (source k) (hresult k hsome)
    rw [hother k (hne k hsome)]
    exact hs.returned k (hnot k hk (hne k hsome)) hsome (hnot _ hin hsource)

theorem Stage.write [Fintype κ] (hs : Stage launch result source (j :: rest) s) (hout : j ∉ rest)
    (hforward : source j ∈ j :: rest)
    (hvalue : ∀ k, result k ≠ none → result k = some (launch (source k)).number)
    (hj : result j ≠ none) : ∃ es t, Trace step s es t ∧ Stage launch result source rest t := by
  obtain ⟨t₁, ⟨⟨es, hrun⟩, hother⟩, hread, hnumber⟩ := writes (hs.waiting j List.mem_cons_self)
  have hnot : ∀ k ∉ rest, k ≠ j → k ∉ j :: rest := fun k hk hne hin =>
    (List.mem_cons.mp hin).elim hne hk
  let readers := Finset.univ.filter fun k => k ∉ rest ∧ result k ≠ none ∧ source k = j
  have hmem : ∀ k, k ∈ readers.toList ↔ k ∉ rest ∧ result k ≠ none ∧ source k = j := by
    simp [readers]
  obtain ⟨es', t, hrun', hkept, hreturned⟩ := read_all (s := t₁) (Finset.nodup_toList readers)
    fun k hk => by
      obtain ⟨hk, hsome, hsource⟩ := (hmem k).mp hk
      by_cases hkj : k = j
      · exact hkj ▸ hread
      · rw [hother k hkj]
        exact hs.reading k (hnot k hk hkj) hsome (hsource ▸ List.mem_cons_self)
  rw [hnumber] at hreturned
  refine ⟨es ++ es', t, hrun.append hrun', fun k hk => ?_, fun k hk hnone => ?_,
    fun k hk hsome hin => ?_, fun k hk hsome hin => ?_⟩
  · rw [hkept k fun hr => ((hmem k).mp hr).1 hk, hother k fun he => hout (he ▸ hk)]
    exact hs.waiting k (List.mem_cons_of_mem j hk)
  · have hkj : k ≠ j := by
      rintro rfl
      exact hj hnone
    rw [hkept k fun hr => ((hmem k).mp hr).2.1 hnone, hother k hkj]
    exact hs.refused k (hnot k hk hkj) hnone
  · rw [hkept k fun hr => hout (((hmem k).mp hr).2.2 ▸ hin)]
    by_cases hkj : k = j
    · exact hkj ▸ hread
    · rw [hother k hkj]
      exact hs.reading k (hnot k hk hkj) hsome (List.mem_cons_of_mem j hin)
  · by_cases hsource : source k = j
    · have hk' := hreturned k ((hmem k).mpr ⟨hk, hsome, hsource⟩)
      rwa [hvalue k hsome, hsource]
    · have hkj : k ≠ j := by
        rintro rfl
        exact (List.mem_cons.mp hforward).elim hsource hin
      rw [hkept k fun hr => hsource ((hmem k).mp hr).2.2, hother k hkj]
      exact hs.returned k (hnot k hk hkj) hsome (hnot _ hin hsource)

theorem Stage.finish [Fintype κ] (hs : Stage launch result source rest s) (hnodup : rest.Nodup)
    (hforward : Forward source rest)
    (hresult : ∀ k, result k = none ∨
      result (source k) ≠ none ∧ result k = some (launch (source k)).number) :
    ∃ es t, Trace step s es t ∧ Stage launch result source [] t := by
  induction rest generalizing s with
  | nil => exact ⟨[], s, .nil, hs⟩
  | cons j rest ih =>
    obtain ⟨hout, hnodup⟩ := List.nodup_cons.mp hnodup
    obtain ⟨hj, hforward⟩ := hforward
    have hnext : ∃ es t, Trace step s es t ∧ Stage launch result source rest t := by
      by_cases hnone : result j = none
      · exact hs.refuse hout (fun k hk => ((hresult k).resolve_left hk).1) hnone
      · exact hs.write hout hj (fun k hk => ((hresult k).resolve_left hk).2) hnone
    obtain ⟨es, t, hrun, ht⟩ := hnext
    obtain ⟨es', u, hrun', hu⟩ := ih ht hnodup hforward
    exact ⟨es ++ es', u, hrun.append hrun', hu⟩

/-- What the processes can have shown when all have returned: each that opened the device the number
of one that did, on condition that they do not show their numbers round a cycle. -/
theorem shown_iff [Fintype κ] (m : Memory) (launch : κ → Launch) (result : κ → Option Int) :
    (∃ es s, Trace step (start m launch) es s ∧
        ∀ k, (s.process k).pc = .returned ∧ (s.process k).printed = output (result k)) ↔
      ∃ source : κ → κ, Acyclic source ∧ ∀ k, result k = none ∨
        result (source k) ≠ none ∧ result k = some (launch (source k)).number := by
  constructor
  · rintro ⟨es, s, hrun, hreturned⟩
    obtain ⟨order, hs⟩ := ordered_run hrun
    exact hs.sources hreturned
  · rintro ⟨source, hacyclic, hresult⟩
    obtain ⟨order, hnodup, hall, hforward⟩ := hacyclic.exists_forward
    have hstart : Stage launch result source order (start m launch) :=
      ⟨fun _ _ => rfl, fun k hk => absurd (hall k) hk, fun k hk => absurd (hall k) hk,
        fun k hk => absurd (hall k) hk⟩
    obtain ⟨es, t, hrun, ht⟩ := hstart.finish hnodup hforward hresult
    refine ⟨es, t, hrun, fun k => ?_⟩
    by_cases hnone : result k = none
    · rw [hnone]
      exact ht.refused k List.not_mem_nil hnone
    · exact ht.returned k List.not_mem_nil hnone List.not_mem_nil

end

end LinuxAssignment.IoctlClients
