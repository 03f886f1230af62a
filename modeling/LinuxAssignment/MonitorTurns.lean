import LinuxAssignment.MonitorRounds
import LinuxAssignment.MonitorSignals

namespace Monitor

open StepSystem

section

variable {τ σ ι κ : Type*}

/-- While the mutex is free only what holds of the data then is asserted. -/
theorem Asserted.of_free {prog : τ → ι → Instr σ ι κ} {holds : τ → ι → Prop} {I I' : σ → Prop}
    {A A' P : τ → ι → σ → Prop} {s : State τ σ ι κ} (h : Asserted holds I A P s)
    (hl : Locked prog holds s) (hfree : s.owner = none) (hI : I' s.shared) :
    Asserted holds I' A' P s := by
  refine ⟨h.always, fun _ => hI, fun ht hh => ?_⟩
  have how := (hl.holds_iff ht).mpr hh
  rw [hfree] at how
  cases how

variable [DecidableEq τ] [Fintype τ] [DecidableEq κ]

/-- A step that `ok` allows. -/
def Goes (prog : τ → ι → Instr σ ι κ) (ok : τ → ι → σ → Prop) (s s' : State τ σ ι κ) : Prop :=
  ∃ a, Allowed ok s a ∧ step prog s a = some s'

variable {prog : τ → ι → Instr σ ι κ} {ok : τ → ι → σ → Prop} {s s' : State τ σ ι κ} {t : τ}
  {l m : ι}

theorem Goes.steps (h : Relation.ReflTransGen (Goes prog ok) s s') :
    Relation.ReflTransGen (Steps (step prog)) s s' := by
  refine h.lift id fun s t hgo => ?_
  obtain ⟨a, -, ha⟩ := hgo
  exact ⟨a, ha⟩

/-- What is kept by every step that is allowed holds wherever such steps lead. -/
theorem Goes.keeps {Inv : State τ σ ι κ → Prop}
    (keep : ∀ s a t, Inv s → Allowed ok s a → step prog s a = some t → Inv t)
    (h : Relation.ReflTransGen (Goes prog ok) s s') (hs : Inv s) : Inv s' := by
  induction h with
  | refl => exact hs
  | tail _ hgo ih =>
    obtain ⟨a, hok, ha⟩ := hgo
    exact keep _ a _ ih hok ha

omit [DecidableEq τ] [Fintype τ] [DecidableEq κ] in
theorem allowed_of_running {w : Option τ} (ht : s.threads t = .running l) (hok : ok t l s.shared) :
    Allowed ok s (.go t w) := by
  simpa only [Allowed, ht] using hok

/-- A part of a critical section, given by what holds of the data at its places. It ends where the
mutex is released, with `E`, and `rank` bounds the steps to there. -/
structure Section (prog : τ → ι → Instr σ ι κ) (ok : τ → ι → σ → Prop) (t : τ) (rank : ι → Nat)
    (B : ι → σ → Prop) (E : σ → Prop) : Prop where
  allowed : ∀ {l s}, B l s → ok t l s
  eval : ∀ {l f next s}, prog t l = .eval f next → B l s →
    B (next s) (f s) ∧ rank (next s) < rank l
  signal : ∀ {l c next s}, prog t l = .signal c next → B l s → B next s ∧ rank next < rank l
  unlock : ∀ {l f next s}, prog t l = .unlock f next → B l s → E (f s)
  wait : ∀ {l c next s}, prog t l = .wait c next → B l s → E s
  lock : ∀ {l next s}, prog t l = .lock next → ¬ B l s
  exit : ∀ {l s}, prog t l = .exit → ¬ B l s

/-- The thread that holds the mutex can go on alone until it releases it. -/
theorem Section.released {rank : ι → Nat} {B : ι → σ → Prop} {E : σ → Prop}
    (h : Section prog ok t rank B E) (how : s.owner = some t) (ht : s.threads t = .running l)
    (hB : B l s.shared) :
    ∃ s', Relation.ReflTransGen (Goes prog ok) s s' ∧ s'.owner = none ∧ E s'.shared := by
  induction hn : rank l using Nat.strong_induction_on generalizing s l with
  | _ n ih =>
  subst hn
  have hok : ∀ w, Allowed ok s (.go t w) := fun w => allowed_of_running ht (h.allowed hB)
  cases hp : prog t l with
  | lock next => exact absurd hB (h.lock hp)
  | exit => exact absurd hB (h.exit hp)
  | unlock f next =>
    have hstep : step prog s (.go t none) =
        some ⟨f s.shared, none, moveTo s.threads t next⟩ := by
      simp only [step, ht, hp, how, if_true]
    exact ⟨_, .single ⟨_, hok none, hstep⟩, rfl, h.unlock hp hB⟩
  | wait c next =>
    have hstep : step prog s (.go t none) =
        some ⟨s.shared, none, Function.update s.threads t (.asleep c next)⟩ := by
      simp only [step, ht, hp, how, if_true]
    exact ⟨_, .single ⟨_, hok none, hstep⟩, rfl, h.wait hp hB⟩
  | eval f next =>
    obtain ⟨hnext, hlt⟩ := h.eval hp hB
    have hstep : step prog s (.go t none) =
        some ⟨f s.shared, s.owner, moveTo s.threads t (next s.shared)⟩ := by
      simp only [step, ht, hp]
    obtain ⟨s', hrun, hs'⟩ := ih (rank (next s.shared)) hlt
      (s := ⟨f s.shared, s.owner, moveTo s.threads t (next s.shared)⟩) how
      (Function.update_self _ _ _) hnext rfl
    exact ⟨s', .head ⟨_, hok none, hstep⟩ hrun, hs'⟩
  | signal c next =>
    obtain ⟨hnext, hlt⟩ := h.signal hp hB
    obtain ⟨w, threads, hw⟩ : ∃ w threads, awaken s.threads c w = some threads := by
      by_cases hno : ∀ u, ¬ (s.threads u).SleepsOn c
      · exact ⟨none, s.threads, if_pos hno⟩
      · push Not at hno
        obtain ⟨u, hu⟩ := hno
        exact ⟨some u, _, if_pos hu⟩
    have hstep : step prog s (.go t w) =
        some ⟨s.shared, s.owner, moveTo threads t next⟩ := by
      simp only [step, ht, hp, hw, Option.map_some]
    obtain ⟨s', hrun, hs'⟩ := ih (rank next) hlt (s := ⟨s.shared, s.owner, moveTo threads t next⟩)
      how (Function.update_self _ _ _) hnext rfl
    exact ⟨s', .head ⟨_, hok w, hstep⟩ hrun, hs'⟩

/-- A thread about to lock a free mutex takes it. -/
theorem takes (hfree : s.owner = none)
    (ht : s.threads t = .woken l ∨ s.threads t = .running m ∧ prog t m = .lock l ∧ ok t m s.shared) :
    Goes prog ok s ⟨s.shared, some t, moveTo s.threads t l⟩ := by
  refine ⟨.go t none, ?_⟩
  rcases ht with ht | ⟨ht, hp, hok⟩
  · exact ⟨by simp only [Allowed, ht], by simp only [step, ht, hfree, Option.isNone_none, if_true]⟩
  · refine ⟨allowed_of_running ht hok, ?_⟩
    simp only [step, ht, hp, hfree, Option.isNone_none, if_true]

/-- A thread that may lock a free mutex goes through its section. -/
theorem Section.turn {rank : ι → Nat} {B : ι → σ → Prop} {E : σ → Prop}
    (h : Section prog ok t rank B E) (hfree : s.owner = none)
    (ht : s.threads t = .woken l ∨ s.threads t = .running m ∧ prog t m = .lock l ∧ ok t m s.shared)
    (hB : B l s.shared) :
    ∃ s', Relation.ReflTransGen (Goes prog ok) s s' ∧ s'.owner = none ∧ E s'.shared := by
  obtain ⟨s', hrun, hs'⟩ := h.released (s := ⟨s.shared, some t, moveTo s.threads t l⟩) rfl
    (Function.update_self _ _ _) hB
  exact ⟨s', .head (takes hfree ht) hrun, hs'⟩

/-- A step outside the monitor. -/
theorem eval_goes {f : σ → σ} {next : σ → ι} (ht : s.threads t = .running l)
    (hp : prog t l = .eval f next) (hok : ok t l s.shared) :
    Goes prog ok s ⟨f s.shared, s.owner, moveTo s.threads t (next s.shared)⟩ :=
  ⟨.go t none, allowed_of_running ht hok, by simp only [step, ht, hp]⟩

/-- Threads whose rounds are one critical section each, entered at `guard`, where they also go on
after each wait. -/
structure Loops (prog : τ → ι → Instr σ ι κ) (holds : τ → ι → Prop) (count : τ → σ → Nat)
    (num : Nat) (test enter guard finished : ι) : Prop where
  loop : ∀ t, prog t test = .eval id fun s => if count t s < num then enter else finished
  enter : ∀ t, prog t enter = .lock guard
  outside : ∀ {t l}, ¬ holds t l → l = test ∨ prog t l = .lock guard ∨ prog t l = .exit
  waits : ∀ {t l c next}, prog t l = .wait c next → next = guard
  guard : guard ≠ test ∧ guard ≠ finished

variable {holds : τ → ι → Prop} {count : τ → σ → Nat} {num : Nat} {test enter guard finished : ι}

/-- A thread that has a round left and does not sleep takes its turn at a free mutex. -/
theorem Loops.turn {rank : ι → Nat} {B : ι → σ → Prop} {E : σ → Prop}
    (h : Loops prog holds count num test enter guard finished) (hl : Locked prog holds s)
    (hfree : s.owner = none) (hawake : ∀ c l, s.threads t ≠ .asleep c l)
    (hk : InRounds prog count num test finished t (s.threads t).at s.shared)
    (hround : count t s.shared < num) (hok : ∀ l, ¬ holds t l → ok t l s.shared)
    (hholds : ¬ holds t test ∧ ¬ holds t enter)
    (hsection : Section prog ok t rank B E) (hB : B guard s.shared) :
    ∃ s', Relation.ReflTransGen (Goes prog ok) s s' ∧ s'.owner = none ∧ E s'.shared := by
  cases ht : s.threads t with
  | asleep c l => exact absurd ht (hawake c l)
  | woken l =>
    obtain ⟨m, c, hm⟩ := hl.woken ht
    cases h.waits hm
    exact hsection.turn (m := m) hfree (Or.inl ht) hB
  | running l =>
    have hout : ¬ holds t l := by
      intro hh
      have how := (hl.holds_iff ht).mpr hh
      rw [hfree] at how
      cases how
    rw [ht] at hk
    rcases h.outside hout with rfl | hp | hp
    · have hgoes := eval_goes ht (h.loop t) (hok l hout)
      dsimp only [id_eq] at hgoes
      rw [if_pos hround] at hgoes
      obtain ⟨s', hrun, hs'⟩ := hsection.turn (s := ⟨s.shared, s.owner, moveTo s.threads t enter⟩)
        hfree (Or.inr ⟨Function.update_self _ _ _, h.enter t, hok enter hholds.2⟩) hB
      exact ⟨s', .head hgoes hrun, hs'⟩
    · exact hsection.turn hfree (Or.inr ⟨ht, hp, hok l hout⟩) hB
    · have hdone := hk.done (hk.place hp)
      omega

variable (ok) in
/-- A thread that has had all its rounds returns. -/
theorem Loops.finishes (h : Loops prog holds count num test enter guard finished)
    (hl : Locked prog holds s)
    (hk : InRounds prog count num test finished t (s.threads t).at s.shared)
    (hround : num ≤ count t s.shared) (hok : ok t test s.shared) :
    ∃ s', Relation.ReflTransGen (Goes prog ok) s s' ∧ s'.owner = s.owner ∧ s'.shared = s.shared ∧
      s'.threads t = .running finished ∧ ∀ u, u ≠ t → s'.threads u = s.threads u := by
  have hnot : ∀ l, (s.threads t).at = l → l ≠ guard := by
    rintro l hl rfl
    rw [hl] at hk
    have hlt := hk.pending h.guard.1 h.guard.2
    omega
  cases ht : s.threads t with
  | asleep c l =>
    obtain ⟨m, hm⟩ := hl.asleep ht
    exact absurd (h.waits hm) (hnot l (by rw [ht]; rfl))
  | woken l =>
    obtain ⟨m, c, hm⟩ := hl.woken ht
    exact absurd (h.waits hm) (hnot l (by rw [ht]; rfl))
  | running l =>
    rw [ht] at hk
    by_cases hf : l = finished
    · exact ⟨s, .refl, rfl, rfl, hf ▸ ht, fun _ _ => rfl⟩
    · have htest : l = test := by
        by_contra hne
        have hlt := hk.pending hne hf
        omega
      subst htest
      have hgoes := eval_goes ht (h.loop t) hok
      dsimp only [id_eq] at hgoes
      rw [if_neg (by omega)] at hgoes
      exact ⟨_, .single hgoes, rfl, rfl, Function.update_self _ _ _,
        fun u hu => Function.update_of_ne hu _ _⟩

end

end Monitor
