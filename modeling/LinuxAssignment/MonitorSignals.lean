import LinuxAssignment.MonitorRules

namespace Monitor

open StepSystem

section

variable {τ σ ι κ : Type*}

/-- No wake-up is lost: each condition variable `c` has one thread that waits on it, which does so
only while `W c` holds, and a thread that ends `W c` owes a signal on `c` until it has given it. -/
structure Signals (prog : τ → ι → Instr σ ι κ) (holds : τ → ι → Prop) (ok : τ → ι → σ → Prop)
    (A : τ → ι → σ → Prop) (waiter : κ → τ) (W : κ → σ → Prop) (owes : τ → ι → κ → Prop) :
    Prop where
  only : ∀ {t l c next}, prog t l = .wait c next → t = waiter c
  sleep : ∀ {t l c next s}, prog t l = .wait c next → A t l s → W c s
  wait : ∀ {t l c next} d, prog t l = .wait c next → ¬ owes t l d
  unlock : ∀ {t l f next s} d, prog t l = .unlock f next → ¬ owes t l d ∧ (W d s → W d (f s))
  signal : ∀ {t l c next d}, prog t l = .signal c next → d ≠ c → owes t l d → owes t next d
  eval : ∀ {t l f next s d}, prog t l = .eval f next → holds t l → A t l s → ok t l s →
    W d s ∨ owes t l d → W d (f s) ∨ owes t (next s) d

/-- Whoever sleeps has reason to, or is about to be signalled by the thread in the monitor. -/
def Attended (waiter : κ → τ) (W : κ → σ → Prop) (owes : τ → ι → κ → Prop)
    (s : State τ σ ι κ) : Prop :=
  ∀ c l, s.threads (waiter c) = .asleep c l →
    W c s.shared ∨ ∃ t m, s.owner = some t ∧ s.threads t = .running m ∧ owes t m c

variable {prog : τ → ι → Instr σ ι κ} {holds : τ → ι → Prop} {ok : τ → ι → σ → Prop}
  {I : σ → Prop} {A P : τ → ι → σ → Prop} {waiter : κ → τ} {W : κ → σ → Prop}
  {owes : τ → ι → κ → Prop} {s s' : State τ σ ι κ} {a : Move τ}

theorem Attended.of_free (h : Attended waiter W owes s) (hfree : s.owner = none) {c : κ} {l : ι}
    (hc : s.threads (waiter c) = .asleep c l) : W c s.shared := by
  rcases h c l hc with hW | ⟨t, m, ht, -⟩
  · exact hW
  · rw [hfree] at ht
    cases ht

theorem Attended.of_owner (h : Attended waiter W owes s) {t : τ} {m : ι} (how : s.owner = some t)
    (ht : s.threads t = .running m) {c : κ} {l : ι} (hc : s.threads (waiter c) = .asleep c l) :
    W c s.shared ∨ owes t m c := by
  rcases h c l hc with hW | ⟨u, k, hu, hk, hdue⟩
  · exact Or.inl hW
  · cases Option.some.inj (how.symm.trans hu)
    rw [ht] at hk
    cases hk
    exact Or.inr hdue

variable [DecidableEq τ]

theorem asleep_of_update {threads : τ → Status ι κ} (hthreads : Rouse s.threads threads) {t u : τ}
    {x : Status ι κ} (hx : ∀ c l, x ≠ .asleep c l) {c : κ} {l : ι}
    (h : Function.update threads t x u = .asleep c l) : s.threads u = .asleep c l := by
  by_cases hut : u = t
  · subst hut
    rw [Function.update_self] at h
    exact absurd h (hx c l)
  · rw [Function.update_of_ne hut] at h
    rcases hthreads u with hu | ⟨d, k, -, hu⟩
    · exact hu ▸ h
    · rw [hu] at h
      cases h

theorem running_update {threads : τ → Status ι κ} (hthreads : Rouse s.threads threads) {t u : τ}
    (hut : u ≠ t) (x : Status ι κ) {m : ι} (h : s.threads u = .running m) :
    Function.update threads t x u = .running m := by
  rw [Function.update_of_ne hut]
  rcases hthreads u with hu | ⟨c, l, hu, -⟩
  · exact hu.trans h
  · rw [h] at hu
    cases hu

theorem Signals.eval_step (hsig : Signals prog holds ok A waiter W owes)
    (hd : Disciplined prog holds) (hl : Locked prog holds s) (hs : Asserted holds I A P s)
    (hw : Attended waiter W owes s) {t : τ} {l : ι} {f : σ → σ} {next : σ → ι}
    (ht : s.threads t = .running l) (hp : prog t l = .eval f next) (hok : ok t l s.shared) :
    Attended waiter W owes ⟨f s.shared, s.owner, moveTo s.threads t (next s.shared)⟩ := by
  intro c k hc
  have hbefore := asleep_of_update (rouse_refl _) (fun c m h => by cases h) hc
  by_cases hh : holds t l
  · have how := (hl.holds_iff ht).mpr hh
    have hdone := hsig.eval hp hh (hs.inside ht hh) hok (hw.of_owner how ht hbefore)
    rcases hdone with hW | hdue
    · exact Or.inl hW
    · exact Or.inr ⟨t, next s.shared, how, by simp [moveTo], hdue⟩
  · have hsame := (hd.eval s.shared hp).2 hh
    dsimp only
    rw [hsame]
    rcases hw c k hbefore with hW | ⟨u, m, how, hu, hdue⟩
    · exact Or.inl hW
    · have hut : u ≠ t := by
        rintro rfl
        exact hh ((hl.holds_iff ht).mp how)
      exact Or.inr ⟨u, m, how, running_update (rouse_refl _) hut _ hu, hdue⟩

variable [Fintype τ] [DecidableEq κ]

/-- A signal settles what is owed to its own condition variable, and nothing else. -/
theorem Signals.signal_step (hsig : Signals prog holds ok A waiter W owes)
    (hl : Locked prog holds s) (hw : Attended waiter W owes s) {t : τ} {w : Option τ} {l next : ι}
    {d : κ} {threads : τ → Status ι κ} (ht : s.threads t = .running l)
    (hp : prog t l = .signal d next) (hwake : awaken s.threads d w = some threads) :
    Attended waiter W owes ⟨s.shared, s.owner, moveTo threads t next⟩ := by
  intro c k hc
  have hbefore := asleep_of_update (rouse_awaken hwake) (fun c m h => by cases h) hc
  have hcd : c ≠ d := by
    rintro rfl
    have honly : ∀ u l, s.threads u = .asleep c l → u = waiter c := by
      intro u l hu
      obtain ⟨m, hm⟩ := hl.asleep hu
      exact hsig.only hm
    have hne : waiter c ≠ t := by
      intro he
      rw [he, ht] at hbefore
      cases hbefore
    dsimp only at hc
    rw [moveTo, Function.update_of_ne hne] at hc
    exact awaken_none_asleep hwake honly (waiter c) k hc
  rcases hw c k hbefore with hW | ⟨u, m, how, hu, hdue⟩
  · exact Or.inl hW
  · right
    by_cases hut : u = t
    · subst hut
      cases ht.symm.trans hu
      exact ⟨u, next, how, by simp [moveTo], hsig.signal hp hcd hdue⟩
    · exact ⟨u, m, how, running_update (rouse_awaken hwake) hut _ hu, hdue⟩

theorem Signals.step (hsig : Signals prog holds ok A waiter W owes) (hd : Disciplined prog holds)
    (hl : Locked prog holds s) (hs : Asserted holds I A P s) (hw : Attended waiter W owes s)
    (hok : Allowed ok s a) (hstep : step prog s a = some s') : Attended waiter W owes s' := by
  have ran : ∀ (l m : ι) (c : κ), Status.running (κ := κ) l ≠ .asleep c m := by
    intro l m c h
    cases h
  cases fires_of_step hstep with
  | @relock t w l ht hfree =>
    intro c k hc
    exact Or.inl (hw.of_free hfree (asleep_of_update (rouse_refl _) (fun c m => ran l m c) hc))
  | @lock t w l next ht hp hfree =>
    intro c k hc
    exact Or.inl (hw.of_free hfree (asleep_of_update (rouse_refl _) (fun c m => ran next m c) hc))
  | @unlock t w l f next ht hp how =>
    intro c k hc
    have hbefore := asleep_of_update (rouse_refl _) (fun c m => ran next m c) hc
    have hno := hsig.unlock (s := s.shared) c hp
    exact Or.inl (hno.2 ((hw.of_owner how ht hbefore).resolve_right hno.1))
  | @wait t w l d next ht hp how =>
    intro c k hc
    left
    by_cases hct : waiter c = t
    · dsimp only at hc
      rw [hct, Function.update_self] at hc
      cases hc
      exact hsig.sleep hp (hs.inside ht (hd.wait hp).1)
    · dsimp only at hc
      rw [Function.update_of_ne hct] at hc
      exact (hw.of_owner how ht hc).resolve_right (hsig.wait c hp)
  | @signal t w l d next threads ht hp hwake => exact hsig.signal_step hl hw ht hp hwake
  | @eval t w l f next ht hp => exact hsig.eval_step hd hl hs hw ht hp (hok.of_running ht)
  | @wake t d l ht =>
    intro c k hc
    have hbefore := asleep_of_update (rouse_refl _) (fun c m h => by cases h) hc
    rcases hw c k hbefore with hW | ⟨u, m, how, hu, hdue⟩
    · exact Or.inl hW
    · have hut : u ≠ t := by
        rintro rfl
        rw [ht] at hu
        cases hu
      exact Or.inr ⟨u, m, how, running_update (rouse_refl _) hut _ hu, hdue⟩

/-- A run of a program with a proof outline loses no wake-up. -/
theorem Signals.run (hsig : Signals prog holds ok A waiter W owes)
    (ho : Outline prog holds ok I A P) (hd : Disciplined prog holds)
    {es : List (Event (State τ σ ι κ) (Move τ))} (h : Trace (Monitor.step prog) s es s')
    (hs : Locked prog holds s ∧ Asserted holds I A P s ∧ Attended waiter W owes s)
    (hok : ∀ e ∈ es, Allowed ok e.before e.label) :
    Locked prog holds s' ∧ Asserted holds I A P s' ∧ Attended waiter W owes s' := by
  have keep : ∀ (s : State τ σ ι κ) (a : Move τ) (t : State τ σ ι κ),
      Locked prog holds s ∧ Asserted holds I A P s ∧ Attended waiter W owes s → Allowed ok s a →
      Monitor.step prog s a = some t →
      Locked prog holds t ∧ Asserted holds I A P t ∧ Attended waiter W owes t := by
    rintro s a t ⟨hl, ha, hw⟩ hok ht
    exact ⟨hl.step hd ht, ho.step hd hl ha hok ht, hsig.step hd hl ha hw hok ht⟩
  exact h.invariant keep hs hok

theorem owner_goes (hd : Disciplined prog holds) (hl : Locked prog holds s) {t : τ}
    (how : s.owner = some t) : ∃ w, (Monitor.step prog s (.go t w)).isSome := by
  obtain ⟨l, ht, hh⟩ := (hl.owner t).mp how
  cases hp : prog t l with
  | lock next => exact absurd hh (hd.lock hp).1
  | exit => exact absurd hh (hd.exit hp)
  | unlock f next => exact ⟨none, by simp [Monitor.step, ht, hp, how]⟩
  | wait c next => exact ⟨none, by simp [Monitor.step, ht, hp, how]⟩
  | eval f next => exact ⟨none, by simp [Monitor.step, ht, hp]⟩
  | signal c next =>
    by_cases hno : ∀ u, ¬ (s.threads u).SleepsOn c
    · exact ⟨none, by simp [Monitor.step, ht, hp, awaken, hno]⟩
    · push Not at hno
      obtain ⟨u, hu⟩ := hno
      exact ⟨some u, by simp [Monitor.step, ht, hp, awaken, hu]⟩

theorem lock_goes (hfree : s.owner = none) {t : τ} {l : ι}
    (ht : s.threads t = .woken l ∨ s.threads t = .running l ∧ ∃ next, prog t l = .lock next) :
    (Monitor.step prog s (.go t none)).isSome := by
  rcases ht with ht | ⟨ht, next, hp⟩
  · simp [Monitor.step, ht, hfree]
  · simp [Monitor.step, ht, hp, hfree]

end

end Monitor
