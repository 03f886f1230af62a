import LinuxAssignment.StepSystem
import Mathlib.Data.Fintype.Basic
import Mathlib.Logic.Function.Basic

namespace SignalMask

open StepSystem

inductive Disposition where
  | terminate
  | ignore
  | handle
  deriving DecidableEq

/-- One instruction of a process with data in `σ`. `eval` sees the mask and the pending signals;
`call` is a system call that may take its time. -/
inductive Instr (ς σ ι : Type*) where
  | mask (f : (ς → Bool) → ς → Bool) (next : ι)
  | install (sig : ς) (next : ι)
  | eval (f : (ς → Bool) → (ς → Bool) → σ → σ) (next : (ς → Bool) → (ς → Bool) → σ → ι)
  | call (next : ι)
  | exit (status : Nat)

/-- Where a process is; in `returning` the kernel still has signals to deliver before it goes on. -/
inductive Place (ς ι : Type*) where
  | running (l : ι)
  | returning (l : ι)
  | exited (status : Nat)
  | killed (sig : ς)
  deriving DecidableEq

def Place.Alive {ς ι : Type*} : Place ς ι → Prop
  | .running _ | .returning _ => True
  | .exited _ | .killed _ => False

instance {ς ι : Type*} : (p : Place ς ι) → Decidable p.Alive
  | .running _ | .returning _ => isTrue trivial
  | .exited _ | .killed _ => isFalse id

/-- The process is at a place of its program. -/
def Place.At {ς ι : Type*} (p : Place ς ι) (l : ι) : Prop := p = .running l ∨ p = .returning l

theorem Place.alive_iff {ς ι : Type*} {p : Place ς ι} : p.Alive ↔ ∃ l, p.At l := by
  cases p <;> simp [Place.Alive, Place.At]

theorem Place.At.eq {ς ι : Type*} {l k : ι} {place : Place ς ι} (h : place.At l) (hk : place.At k) : k = l := by
  rcases h with rfl | rfl
  · rcases hk with hk | hk
    · exact (Place.running.inj hk).symm
    · cases hk
  · rcases hk with hk | hk
    · cases hk
    · exact (Place.returning.inj hk).symm

structure Process (ς σ ι : Type*) where
  blocked : ς → Bool
  pending : ς → Bool
  disposition : ς → Disposition
  data : σ
  place : Place ς ι

inductive Act (ς : Type*) where
  | send (sig : ς)
  | deliver (sig : ς)
  | settle
  | go
  deriving DecidableEq

def block {ς : Type*} (set : ς → Bool) (mask : ς → Bool) : ς → Bool := fun sig => mask sig || set sig

def unblock {ς : Type*} (set : ς → Bool) (mask : ς → Bool) : ς → Bool :=
  fun sig => mask sig && !set sig

section

variable {ς σ ι : Type*} [DecidableEq ς]

/-- A signal to a process that is gone, or that ignores it and lets it in, has no effect. -/
def Process.send (p : Process ς σ ι) (sig : ς) : Process ς σ ι :=
  if p.place.Alive ∧ (p.disposition sig = .ignore → p.blocked sig = true) then
    { p with pending := Function.update p.pending sig true }
  else p

def Process.deliver (handler : ς → σ → σ) (p : Process ς σ ι) (sig : ς) : Option (Process ς σ ι) :=
  if p.place.Alive ∧ p.pending sig = true ∧ p.blocked sig = false then
    let taken := { p with pending := Function.update p.pending sig false }
    match p.disposition sig with
    | .terminate => some { taken with place := .killed sig }
    | .ignore => some taken
    | .handle => some { taken with data := handler sig p.data }
  else none

/-- The kernel lets the process go on once no signal is left that it would deliver. -/
def Process.settle [Fintype ς] (p : Process ς σ ι) : Option (Process ς σ ι) :=
  match p.place with
  | .returning l =>
    if ∀ sig, p.pending sig = true → p.blocked sig = true then some { p with place := .running l }
    else none
  | _ => none

def Process.go (prog : ι → Instr ς σ ι) (p : Process ς σ ι) : Option (Process ς σ ι) :=
  match p.place with
  | .running l =>
    match prog l with
    | .mask f next => some { p with blocked := f p.blocked, place := .returning next }
    | .install sig next =>
      some { p with
        disposition := Function.update p.disposition sig .handle
        place := .running next }
    | .eval f next =>
      some { p with
        data := f p.blocked p.pending p.data
        place := .running (next p.blocked p.pending p.data) }
    | .call next => some { p with place := .returning next }
    | .exit status => some { p with place := .exited status }
  | _ => none

variable {handler : ς → σ → σ} {prog : ι → Instr ς σ ι} {p p' : Process ς σ ι} {a : Act ς}

inductive Fires (handler : ς → σ → σ) (prog : ι → Instr ς σ ι) (p : Process ς σ ι) :
    Act ς → Process ς σ ι → Prop
  | lost (sig : ς) : (p.place.Alive → p.disposition sig = .ignore ∧ p.blocked sig = false) →
      Fires handler prog p (.send sig) p
  | send (sig : ς) : p.place.Alive → Fires handler prog p (.send sig)
      { p with pending := Function.update p.pending sig true }
  | terminate (sig : ς) : p.place.Alive → p.pending sig = true → p.blocked sig = false →
      p.disposition sig = .terminate → Fires handler prog p (.deliver sig)
        { p with pending := Function.update p.pending sig false, place := .killed sig }
  | ignore (sig : ς) : p.place.Alive → p.pending sig = true → p.blocked sig = false →
      p.disposition sig = .ignore → Fires handler prog p (.deliver sig)
        { p with pending := Function.update p.pending sig false }
  | handle (sig : ς) : p.place.Alive → p.pending sig = true → p.blocked sig = false →
      p.disposition sig = .handle → Fires handler prog p (.deliver sig)
        { p with pending := Function.update p.pending sig false, data := handler sig p.data }
  | settle (l : ι) : p.place = .returning l → (∀ sig, p.pending sig = true → p.blocked sig = true) →
      Fires handler prog p .settle { p with place := .running l }
  | mask (l : ι) (f : (ς → Bool) → ς → Bool) (next : ι) : p.place = .running l →
      prog l = .mask f next →
      Fires handler prog p .go { p with blocked := f p.blocked, place := .returning next }
  | install (l : ι) (sig : ς) (next : ι) : p.place = .running l → prog l = .install sig next →
      Fires handler prog p .go { p with
        disposition := Function.update p.disposition sig .handle, place := .running next }
  | eval (l : ι) (f : (ς → Bool) → (ς → Bool) → σ → σ) (next : (ς → Bool) → (ς → Bool) → σ → ι) :
      p.place = .running l → prog l = .eval f next → Fires handler prog p .go { p with
        data := f p.blocked p.pending p.data,
        place := .running (next p.blocked p.pending p.data) }
  | call (l : ι) (next : ι) : p.place = .running l → prog l = .call next →
      Fires handler prog p .go { p with place := .returning next }
  | exit (l : ι) (status : Nat) : p.place = .running l → prog l = .exit status →
      Fires handler prog p .go { p with place := .exited status }

theorem Fires.gone (h : Fires handler prog p a p') (hgone : ¬ p.place.Alive) :
    p'.place = p.place := by
  cases h with
  | lost => rfl
  | send => rfl
  | terminate _ halive => exact absurd halive hgone
  | ignore => rfl
  | handle => rfl
  | settle l hl => exact absurd (hl ▸ trivial) hgone
  | mask l _ _ hl => exact absurd (hl ▸ trivial) hgone
  | install l _ _ hl => exact absurd (hl ▸ trivial) hgone
  | eval l _ _ hl => exact absurd (hl ▸ trivial) hgone
  | call l _ hl => exact absurd (hl ▸ trivial) hgone
  | exit l _ hl => exact absurd (hl ▸ trivial) hgone

/-- Only its delivery takes a pending signal away. -/
theorem Fires.pending (h : Fires handler prog p a p') {sig : ς} (hp : p.pending sig = true)
    (hno : a ≠ .deliver sig) : p'.pending sig = true := by
  have hother : ∀ other value, a = .deliver other →
      Function.update p.pending other value sig = true := by
    rintro other value rfl
    exact (Function.update_of_ne (fun he => hno (congrArg Act.deliver he.symm)) _ _).trans hp
  cases h with
  | send other =>
    by_cases hs : sig = other
    · exact hs ▸ Function.update_self _ _ _
    · exact (Function.update_of_ne hs _ _).trans hp
  | terminate other => exact hother other false rfl
  | ignore other => exact hother other false rfl
  | handle other => exact hother other false rfl
  | _ => exact hp

theorem Fires.not_pending (h : Fires handler prog p a p') {sig : ς} (hp : p.pending sig = false)
    (hno : a ≠ .send sig) : p'.pending sig = false := by
  have htaken : ∀ other, Function.update p.pending other false sig = false := by
    intro other
    by_cases hs : sig = other
    · exact hs ▸ Function.update_self _ _ _
    · exact (Function.update_of_ne hs _ _).trans hp
  cases h with
  | send other =>
    have hs : sig ≠ other := fun he => hno (congrArg Act.send he.symm)
    exact (Function.update_of_ne hs _ _).trans hp
  | terminate other => exact htaken other
  | ignore other => exact htaken other
  | handle other => exact htaken other
  | _ => exact hp

theorem Fires.exited {status : Nat} (h : Fires handler prog p a p') (hp' : p'.place = .exited status) :
    p.place = .exited status ∨
      ∃ l, p.place = .running l ∧ prog l = .exit status ∧ p'.pending = p.pending := by
  cases h with
  | exit l n hl hprog =>
    cases hp'
    exact Or.inr ⟨l, hl, hprog, rfl⟩
  | lost => exact Or.inl hp'
  | send => exact Or.inl hp'
  | ignore => exact Or.inl hp'
  | handle => exact Or.inl hp'
  | terminate => cases hp'
  | settle => cases hp'
  | mask => cases hp'
  | install => cases hp'
  | eval => cases hp'
  | call => cases hp'

theorem Fires.running_from {l : ι} (h : Fires handler prog p a p') (hp' : p'.place = .running l) :
    p.place = .running l ∨ a = .settle ∧ p.place = .returning l ∨
      ∃ k, p.place = .running k ∧ ((∃ sig, prog k = .install sig l) ∨
        ∃ f next, prog k = .eval f next ∧ next p.blocked p.pending p.data = l) := by
  cases h with
  | settle k hk =>
    cases hp'
    exact Or.inr (Or.inl ⟨rfl, hk⟩)
  | install k sig next hk hprog =>
    cases hp'
    exact Or.inr (Or.inr ⟨k, hk, Or.inl ⟨sig, hprog⟩⟩)
  | eval k f next hk hprog => exact Or.inr (Or.inr ⟨k, hk, Or.inr ⟨f, next, hprog, Place.running.inj hp'⟩⟩)
  | lost => exact Or.inl hp'
  | send => exact Or.inl hp'
  | ignore => exact Or.inl hp'
  | handle => exact Or.inl hp'
  | terminate => cases hp'
  | mask => cases hp'
  | call => cases hp'
  | exit => cases hp'

theorem Fires.settled (h : Fires handler prog p .settle p') {sig : ς} (hp : p.pending sig = true) :
    p.blocked sig = true := by
  cases h with
  | settle l hl hnone => exact hnone sig hp

/-- A signal that is sent to a process that blocks it is pending. -/
theorem Fires.sent {sig : ς} (h : Fires handler prog p (.send sig) p') (halive : p.place.Alive)
    (hblocked : p.blocked sig = true ∨ p.disposition sig ≠ .ignore) : p'.pending sig = true := by
  cases h with
  | lost _ hlost =>
    obtain ⟨hignore, hopen⟩ := hlost halive
    rcases hblocked with hblocked | hnot
    · rw [hopen] at hblocked
      cases hblocked
    · exact absurd hignore hnot
  | send => exact Function.update_self _ _ _

theorem Fires.delivered {sig : ς} (h : Fires handler prog p (.deliver sig) p') :
    p.place.Alive ∧ p.pending sig = true ∧ p.blocked sig = false := by
  cases h with
  | terminate _ ha hp hb => exact ⟨ha, hp, hb⟩
  | ignore _ ha hp hb => exact ⟨ha, hp, hb⟩
  | handle _ ha hp hb => exact ⟨ha, hp, hb⟩

theorem Fires.send_place {sig : ς} (h : Fires handler prog p (.send sig) p') :
    p'.place = p.place := by
  cases h with
  | lost => rfl
  | send => rfl

theorem Fires.terminated {sig : ς} (h : Fires handler prog p (.deliver sig) p')
    (hd : p.disposition sig = .terminate) : p'.place = .killed sig := by
  cases h with
  | terminate => rfl
  | ignore _ _ _ _ hignore => exact absurd (hd.symm.trans hignore) (by decide)
  | handle _ _ _ _ hhandle => exact absurd (hd.symm.trans hhandle) (by decide)

theorem Fires.killed {sig : ς} (h : Fires handler prog p a p') (hp' : p'.place = .killed sig) :
    p.place = .killed sig ∨ a = .deliver sig ∧ p.place.Alive ∧ p.pending sig = true ∧
      p.disposition sig = .terminate := by
  cases h with
  | terminate other halive hpending _ hdisposition =>
    cases hp'
    exact Or.inr ⟨rfl, halive, hpending, hdisposition⟩
  | lost => exact Or.inl hp'
  | send => exact Or.inl hp'
  | ignore => exact Or.inl hp'
  | handle => exact Or.inl hp'
  | settle => cases hp'
  | mask => cases hp'
  | install => cases hp'
  | eval => cases hp'
  | call => cases hp'
  | exit => cases hp'

/-- Where a step can take a process from a place of its program, and what becomes of its data. -/
inductive Moves (handler : ς → σ → σ) (prog : ι → Instr ς σ ι) (p : Process ς σ ι) (l : ι)
    (p' : Process ς σ ι) : Prop
  | stays : p'.place.At l → p'.data = p.data → Moves handler prog p l p'
  | handles (sig : ς) : p'.place.At l → p.blocked sig = false → p.disposition sig = .handle →
      p'.data = handler sig p.data → Moves handler prog p l p'
  | ends : ¬ p'.place.Alive → Moves handler prog p l p'
  | mask (f : (ς → Bool) → ς → Bool) (next : ι) : prog l = .mask f next → p'.place.At next →
      p'.data = p.data → Moves handler prog p l p'
  | install (sig : ς) (next : ι) : prog l = .install sig next → p'.place.At next →
      p'.data = p.data → Moves handler prog p l p'
  | eval (f : (ς → Bool) → (ς → Bool) → σ → σ) (next : (ς → Bool) → (ς → Bool) → σ → ι) :
      prog l = .eval f next → p'.place.At (next p.blocked p.pending p.data) →
      p'.data = f p.blocked p.pending p.data → Moves handler prog p l p'
  | call (next : ι) : prog l = .call next → p'.place.At next → p'.data = p.data →
      Moves handler prog p l p'

theorem Fires.moves {l : ι} (h : Fires handler prog p a p') (hl : p.place.At l) :
    Moves handler prog p l p' := by
  cases h with
  | lost => exact .stays hl rfl
  | send => exact .stays hl rfl
  | terminate => exact .ends id
  | ignore => exact .stays hl rfl
  | handle sig _ _ hopen hhandle => exact .handles sig hl hopen hhandle rfl
  | settle k hk => exact .stays (Or.inl (congrArg _ (hl.eq (Or.inr hk)))) rfl
  | mask k f next hk hprog => exact .mask f next (hl.eq (Or.inl hk) ▸ hprog) (Or.inr rfl) rfl
  | install k sig next hk hprog => exact .install sig next (hl.eq (Or.inl hk) ▸ hprog) (Or.inl rfl) rfl
  | eval k f next hk hprog => exact .eval f next (hl.eq (Or.inl hk) ▸ hprog) (Or.inl rfl) rfl
  | call k next hk hprog => exact .call next (hl.eq (Or.inl hk) ▸ hprog) (Or.inr rfl) rfl
  | exit => exact .ends id

/-- A program without a choice: behind each instruction it goes on at the same place. -/
structure Follows (prog : ι → Instr ς σ ι) (after : ι → ι) : Prop where
  mask : ∀ {l f next}, prog l = .mask f next → next = after l
  install : ∀ {l sig next}, prog l = .install sig next → next = after l
  eval : ∀ {l f next}, prog l = .eval f next → ∀ b pending x, next b pending x = after l
  call : ∀ {l next}, prog l = .call next → next = after l

variable {after : ι → ι}

/-- Where a step takes the process. -/
theorem Follows.place_next (ho : Follows prog after) (h : Fires handler prog p a p') {l : ι}
    (hl : p.place.At l) :
    p'.place.At l ∨ ¬ p'.place.Alive ∨ a = .go ∧ p.place = .running l ∧ p'.place.At (after l) := by
  cases h with
  | lost => exact Or.inl hl
  | send => exact Or.inl hl
  | terminate => exact Or.inr (Or.inl id)
  | ignore => exact Or.inl hl
  | handle => exact Or.inl hl
  | settle k hk => exact Or.inl (Or.inl (congrArg _ (hl.eq (Or.inr hk))))
  | mask k f next hk hprog =>
    cases hl.eq (Or.inl hk)
    exact Or.inr (Or.inr ⟨rfl, hk, Or.inr (congrArg _ (ho.mask hprog))⟩)
  | install k sig next hk hprog =>
    cases hl.eq (Or.inl hk)
    exact Or.inr (Or.inr ⟨rfl, hk, Or.inl (congrArg _ (ho.install hprog))⟩)
  | eval k f next hk hprog =>
    cases hl.eq (Or.inl hk)
    exact Or.inr (Or.inr ⟨rfl, hk, Or.inl (congrArg _ (ho.eval hprog _ _ _))⟩)
  | call k next hk hprog =>
    cases hl.eq (Or.inl hk)
    exact Or.inr (Or.inr ⟨rfl, hk, Or.inr (congrArg _ (ho.call hprog))⟩)
  | exit => exact Or.inr (Or.inl id)

/-- A step that ends somewhere alive began there, or at the place before. -/
theorem Follows.place_from (ho : Follows prog after) (h : Fires handler prog p a p') {k : ι}
    (hk : p'.place.At k) :
    p.place.At k ∨ ∃ l, a = .go ∧ p.place = .running l ∧ after l = k := by
  by_cases halive : p.place.Alive
  · obtain ⟨l, hl⟩ := Place.alive_iff.mp halive
    rcases ho.place_next h hl with hsame | hgone | ⟨hgo, hrun, hnext⟩
    · exact Or.inl (hk.eq hsame ▸ hl)
    · exact absurd (Place.alive_iff.mpr ⟨k, hk⟩) hgone
    · exact Or.inr ⟨l, hgo, hrun, hk.eq hnext⟩
  · exact Or.inl (h.gone halive ▸ hk)

/-- A count of how often the handler has run for a signal. -/
structure Counts (handler : ς → σ → σ) (prog : ι → Instr ς σ ι) (sig : ς) (c : σ → Nat) : Prop where
  self : ∀ x, c (handler sig x) = c x + 1
  other : ∀ other x, other ≠ sig → c (handler other x) = c x
  eval : ∀ {l f next}, prog l = .eval f next → ∀ b pending x, c (f b pending x) = c x

/-- The runs of the handler so far, and the one that is due. -/
def served (sig : ς) (c : σ → Nat) (p : Process ς σ ι) : Nat := c p.data + (p.pending sig).toNat

variable {sig : ς} {c : σ → Nat}

theorem update_toNat (f : ς → Bool) {sig other : ς} (value : Bool) (h : other ≠ sig) :
    (Function.update f other value sig).toNat = (f sig).toNat :=
  congrArg Bool.toNat (Function.update_of_ne h.symm value f)

/-- Only a new signal makes a run of the handler due. -/
theorem Counts.served_le (hc : Counts handler prog sig c) (h : Fires handler prog p a p')
    (hno : a ≠ .send sig) : served sig c p' ≤ served sig c p := by
  unfold served
  cases h with
  | send other =>
    have ho : other ≠ sig := fun he => hno (congrArg Act.send he)
    exact Nat.le_of_eq (congrArg _ (update_toNat p.pending true ho))
  | terminate other _ hp =>
    by_cases ho : other = sig
    · subst ho
      simp [hp]
    · exact Nat.le_of_eq (congrArg _ (update_toNat p.pending false ho))
  | ignore other _ hp =>
    by_cases ho : other = sig
    · subst ho
      simp [hp]
    · exact Nat.le_of_eq (congrArg _ (update_toNat p.pending false ho))
  | handle other _ hp =>
    by_cases ho : other = sig
    · subst ho
      simp [hp, hc.self]
    · dsimp only
      rw [hc.other other _ ho, update_toNat p.pending false ho]
  | eval l f next hl hprog =>
    dsimp only
    rw [hc.eval hprog]
  | _ => exact Nat.le_refl _

/-- A signal that has a handler is not lost. -/
theorem Counts.served_ge (hc : Counts handler prog sig c) (h : Fires handler prog p a p')
    (hd : p.disposition sig = .handle) : served sig c p ≤ served sig c p' := by
  unfold served
  cases h with
  | send other =>
    by_cases ho : other = sig
    · subst ho
      dsimp only
      rw [Function.update_self]
      exact Nat.add_le_add_left (Bool.toNat_le _) _
    · exact Nat.le_of_eq (congrArg _ (update_toNat p.pending true ho)).symm
  | terminate other _ _ _ ht =>
    have ho : other ≠ sig := by
      rintro rfl
      exact absurd (hd.symm.trans ht) (by decide)
    exact Nat.le_of_eq (congrArg _ (update_toNat p.pending false ho)).symm
  | ignore other _ _ _ hi =>
    have ho : other ≠ sig := by
      rintro rfl
      exact absurd (hd.symm.trans hi) (by decide)
    exact Nat.le_of_eq (congrArg _ (update_toNat p.pending false ho)).symm
  | handle other _ hp =>
    by_cases ho : other = sig
    · subst ho
      simp [hp, hc.self]
    · dsimp only
      rw [hc.other other _ ho, update_toNat p.pending false ho]
  | eval l f next hl hprog =>
    dsimp only
    rw [hc.eval hprog]
  | _ => exact Nat.le_refl _

theorem Counts.of_blocked (hc : Counts handler prog sig c) (h : Fires handler prog p a p')
    (hb : p.blocked sig = true) : c p'.data = c p.data := by
  cases h with
  | handle other _ _ hopen =>
    refine hc.other other _ ?_
    rintro rfl
    rw [hb] at hopen
    cases hopen
  | eval l f next hl hprog => exact hc.eval hprog _ _ _
  | _ => rfl

theorem Fires.served_send (h : Fires handler prog p (.send sig) p') :
    c p'.data = c p.data ∧ served sig c p' ≤ c p.data + 1 := by
  have hle : ∀ b : Bool, c p.data + b.toNat ≤ c p.data + 1 := fun b =>
    Nat.add_le_add_left (Bool.toNat_le b) _
  cases h with
  | lost => exact ⟨rfl, hle _⟩
  | send => exact ⟨rfl, hle _⟩

/-- Assertions about mask, dispositions and data at the places of a program, which each instruction
carries on and which the handlers respect where they can run. -/
structure Outline (handler : ς → σ → σ) (prog : ι → Instr ς σ ι)
    (At : ι → (ς → Bool) → (ς → Disposition) → σ → Prop) : Prop where
  mask : ∀ {l f next b d x}, prog l = .mask f next → At l b d x → At next (f b) d x
  install : ∀ {l sig next b d x}, prog l = .install sig next → At l b d x →
    At next b (Function.update d sig .handle) x
  eval : ∀ {l f next b d x}, prog l = .eval f next → At l b d x → ∀ pending,
    At (next b pending x) b d (f b pending x)
  call : ∀ {l next b d x}, prog l = .call next → At l b d x → At next b d x
  handler : ∀ {l b d x} sig, b sig = false → d sig = .handle → At l b d x → At l b d (handler sig x)

/-- The assertion of the place holds, and that of the last place when the process has exited. -/
def Holds (prog : ι → Instr ς σ ι) (At : ι → (ς → Bool) → (ς → Disposition) → σ → Prop)
    (p : Process ς σ ι) : Prop :=
  match p.place with
  | .running l | .returning l => At l p.blocked p.disposition p.data
  | .exited status => ∃ l, prog l = .exit status ∧ At l p.blocked p.disposition p.data
  | .killed _ => True

variable {At : ι → (ς → Bool) → (ς → Disposition) → σ → Prop}

omit [DecidableEq ς] in
theorem Holds.at {l : ι} (h : Holds prog At p) (hl : p.place.At l) :
    At l p.blocked p.disposition p.data := by
  unfold Holds at h
  rcases hl with hl | hl
  · rwa [hl] at h
  · rwa [hl] at h

theorem Outline.step (ho : Outline handler prog At) (hp : Holds prog At p)
    (h : Fires handler prog p a p') : Holds prog At p' := by
  cases h with
  | lost => exact hp
  | send => exact hp
  | terminate => trivial
  | ignore => exact hp
  | handle sig _ _ hopen hhandle =>
    unfold Holds at hp ⊢
    dsimp only
    split
    next l hl => rw [hl] at hp; exact ho.handler sig hopen hhandle hp
    next l hl => rw [hl] at hp; exact ho.handler sig hopen hhandle hp
    next status hl =>
      rw [hl] at hp
      obtain ⟨l, hexit, hat⟩ := hp
      exact ⟨l, hexit, ho.handler sig hopen hhandle hat⟩
    next => trivial
  | settle l hl => exact hp.at (Or.inr hl)
  | mask l f next hl hprog => exact ho.mask hprog (hp.at (Or.inl hl))
  | install l sig next hl hprog => exact ho.install hprog (hp.at (Or.inl hl))
  | eval l f next hl hprog => exact ho.eval hprog (hp.at (Or.inl hl)) _
  | call l next hl hprog => exact ho.call hprog (hp.at (Or.inl hl))
  | exit l status hl hprog => exact ⟨l, hprog, hp.at (Or.inl hl)⟩

variable [Fintype ς]

def step (handler : ς → σ → σ) (prog : ι → Instr ς σ ι) (p : Process ς σ ι) :
    Act ς → Option (Process ς σ ι)
  | .send sig => some (p.send sig)
  | .deliver sig => p.deliver handler sig
  | .settle => p.settle
  | .go => p.go prog

theorem fires_of_step (h : step handler prog p a = some p') : Fires handler prog p a p' := by
  cases a with
  | send sig =>
    cases Option.some.inj h
    unfold Process.send
    split
    next hsend => exact .send sig hsend.1
    next hlost =>
      refine .lost sig fun halive => ?_
      rw [not_and, Classical.not_imp] at hlost
      obtain ⟨hignore, hblocked⟩ := hlost halive
      exact ⟨hignore, Bool.eq_false_iff.mpr hblocked⟩
  | deliver sig =>
    simp only [step, Process.deliver] at h
    obtain ⟨⟨halive, hpending, hblocked⟩, h⟩ := Option.ite_none_right_eq_some.mp h
    split at h
    next hd => cases h; exact .terminate sig halive hpending hblocked hd
    next hd => cases h; exact .ignore sig halive hpending hblocked hd
    next hd => cases h; exact .handle sig halive hpending hblocked hd
  | settle =>
    simp only [step, Process.settle] at h
    split at h
    next l hl =>
      obtain ⟨hnone, h⟩ := Option.ite_none_right_eq_some.mp h
      cases h
      exact .settle l hl hnone
    next => cases h
  | go =>
    simp only [step, Process.go] at h
    split at h
    next l hl =>
      split at h
      next f next hp => cases h; exact .mask l f next hl hp
      next sig next hp => cases h; exact .install l sig next hl hp
      next f next hp => cases h; exact .eval l f next hl hp
      next next hp => cases h; exact .call l next hl hp
      next status hp => cases h; exact .exit l status hl hp
    next => cases h

/-- As long as a pending signal is not delivered, the process comes out of no system call that lets
the signal in. -/
theorem undelivered {q : Process ς σ ι} {es : List (Event (Process ς σ ι) (Act ς))} {sig : ς}
    (h : Trace (step handler prog) p es q) (hp : p.pending sig = true)
    (hno : ∀ e ∈ es, e.label ≠ .deliver sig) :
    q.pending sig = true ∧ ∀ e ∈ es, e.label = .settle → e.before.blocked sig = true := by
  induction h with
  | nil => exact ⟨hp, nofun⟩
  | cons hstep _ ih =>
    have hfires := fires_of_step hstep
    obtain ⟨hlast, hrest⟩ := ih (hfires.pending hp (hno _ List.mem_cons_self))
      fun e he => hno e (List.mem_cons_of_mem _ he)
    refine ⟨hlast, List.forall_mem_cons.mpr ⟨?_, hrest⟩⟩
    rintro rfl
    exact hfires.settled hp

theorem gone_stays {q : Process ς σ ι} {es : List (Event (Process ς σ ι) (Act ς))}
    (h : Trace (step handler prog) p es q) (hgone : ¬ p.place.Alive) : q.place = p.place := by
  induction h with
  | nil => rfl
  | cons hstep _ ih =>
    have hplace := (fires_of_step hstep).gone hgone
    exact (ih (hplace ▸ hgone)).trans hplace

theorem killed_of_delivered {q : Process ς σ ι} {es : List (Event (Process ς σ ι) (Act ς))}
    {e : Event (Process ς σ ι) (Act ς)} {sig : ς} (h : Trace (step handler prog) p es q) (he : e ∈ es)
    (hdeliver : e.label = .deliver sig) (hd : e.before.disposition sig = .terminate) :
    q.place = .killed sig := by
  obtain ⟨past, later, rfl⟩ := List.append_of_mem he
  obtain ⟨-, hstep, hlater⟩ := h.split
  rw [hdeliver] at hstep
  have hkilled := (fires_of_step hstep).terminated hd
  have hgone : ¬ e.after.place.Alive := by
    rw [hkilled]
    exact id
  exact (gone_stays hlater hgone).trans hkilled

/-- A process that gets somewhere has a step by which it comes there. -/
theorem enters {q : Process ς σ ι} {es : List (Event (Process ς σ ι) (Act ς))} {l : ι}
    (h : Trace (step handler prog) p es q) (hp : p.place ≠ .running l) (hq : q.place = .running l) :
    ∃ e ∈ es, step handler prog e.before e.label = some e.after ∧ e.before.place ≠ .running l ∧
      e.after.place = .running l := by
  induction h with
  | nil => exact absurd hq hp
  | @cons p t q a es hstep _ ih =>
    by_cases ht : t.place = .running l
    · exact ⟨⟨p, a, t⟩, List.mem_cons_self, hstep, hp, ht⟩
    · obtain ⟨e, he, hfacts⟩ := ih ht hq
      exact ⟨e, List.mem_cons_of_mem _ he, hfacts⟩

/-- A pending signal is delivered before the process gets behind a system call that lets it in. -/
theorem delivered_on_the_way {q : Process ς σ ι} {es : List (Event (Process ς σ ι) (Act ς))} {sig : ς}
    {l : ι} (h : Trace (step handler prog) p es q) (hpending : p.pending sig = true)
    (hp : p.place ≠ .running l) (hq : q.place = .running l)
    (hentry : ∀ e ∈ es, Fires handler prog e.before e.label e.after → e.before.place ≠ .running l →
      e.after.place = .running l → e.label = .settle ∧ e.before.blocked sig = false) :
    ∃ e ∈ es, e.label = .deliver sig := by
  by_contra hnone
  have hno : ∀ e ∈ es, e.label ≠ .deliver sig := fun e he hdeliver => hnone ⟨e, he, hdeliver⟩
  obtain ⟨e, he, hstep, hbefore, hafter⟩ := enters h hp hq
  obtain ⟨hsettle, hopen⟩ := hentry e he (fires_of_step hstep) hbefore hafter
  have hblocked := (undelivered h hpending hno).2 e he hsettle
  rw [hopen] at hblocked
  cases hblocked

theorem Outline.run (ho : Outline handler prog At) {q : Process ς σ ι}
    {es : List (Event (Process ς σ ι) (Act ς))} (h : Trace (SignalMask.step handler prog) p es q)
    (hp : Holds prog At p) :
    Holds prog At q ∧ ∀ e ∈ es, Holds prog At e.before ∧ Fires handler prog e.before e.label e.after := by
  have keep : ∀ (p : Process ς σ ι) (a : Act ς) (p' : Process ς σ ι), Holds prog At p → True →
      SignalMask.step handler prog p a = some p' → Holds prog At p' :=
    fun _ _ _ hp _ hstep => ho.step hp (fires_of_step hstep)
  refine ⟨h.invariant keep hp fun _ _ => trivial, fun e he => ?_⟩
  obtain ⟨hbefore, hstep⟩ := h.events keep hp (fun _ _ => trivial) e he
  exact ⟨hbefore, fires_of_step hstep⟩

end

end SignalMask
