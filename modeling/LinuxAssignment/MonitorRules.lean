import LinuxAssignment.Monitor

namespace Monitor

open StepSystem

section

variable {τ σ ι κ : Type*}

structure Disciplined (prog : τ → ι → Instr σ ι κ) (holds : τ → ι → Prop) : Prop where
  lock : ∀ {t l next}, prog t l = .lock next → ¬ holds t l ∧ holds t next
  unlock : ∀ {t l f next}, prog t l = .unlock f next → holds t l ∧ ¬ holds t next
  wait : ∀ {t l c next}, prog t l = .wait c next → holds t l ∧ holds t next
  signal : ∀ {t l c next}, prog t l = .signal c next → (holds t next ↔ holds t l)
  eval : ∀ {t l f next} s, prog t l = .eval f next →
    (holds t (next s) ↔ holds t l) ∧ (¬ holds t l → f s = s)
  exit : ∀ {t l}, prog t l = .exit → ¬ holds t l

/-- A proof outline: `I` holds of the shared data while the mutex is free, `A` describes it for the
thread that holds the mutex, `P` is what a thread knows all the time, and `ok` is assumed of the
instructions that are run. -/
structure Outline (prog : τ → ι → Instr σ ι κ) (holds : τ → ι → Prop) (ok : τ → ι → σ → Prop)
    (I : σ → Prop) (A P : τ → ι → σ → Prop) : Prop where
  lock : ∀ {t l next s}, prog t l = .lock next → I s → P t l s → A t next s
  resume : ∀ {t l c next s}, prog t l = .wait c next → I s → P t next s → A t next s
  wait : ∀ {t l c next s}, prog t l = .wait c next → A t l s → I s
  unlock : ∀ {t l f next s}, prog t l = .unlock f next → A t l s → P t l s → I (f s)
  signal : ∀ {t l c next s}, prog t l = .signal c next → holds t l → A t l s → A t next s
  eval : ∀ {t l f next s}, prog t l = .eval f next → holds t l → A t l s → P t l s → ok t l s →
    A t (next s) (f s)
  own : ∀ {t l s s' l'}, (prog t l).after s = some (s', l') → (holds t l → A t l s) → P t l s →
    P t l' s'
  other : ∀ {t u l m s s' m'}, u ≠ t → (prog u m).after s = some (s', m') → P t l s → P t l s'

def Allowed (ok : τ → ι → σ → Prop) (s : State τ σ ι κ) : Move τ → Prop
  | .wake _ => True
  | .go t _ =>
    match s.threads t with
    | .running l => ok t l s.shared
    | _ => True

instance (ok : τ → ι → σ → Prop) [∀ t l s, Decidable (ok t l s)] (s : State τ σ ι κ) :
    (a : Move τ) → Decidable (Allowed ok s a)
  | .wake _ => inferInstanceAs (Decidable True)
  | .go t _ =>
    match h : s.threads t with
    | .running l => decidable_of_iff (ok t l s.shared) (by simp [Allowed, h])
    | .asleep _ _ => isTrue (by simp [Allowed, h])
    | .woken _ => isTrue (by simp [Allowed, h])

/-- The mutex belongs to the thread at a place that holds it, and sleepers go on after a wait. -/
structure Locked (prog : τ → ι → Instr σ ι κ) (holds : τ → ι → Prop) (s : State τ σ ι κ) :
    Prop where
  owner : ∀ t, s.owner = some t ↔ ∃ l, s.threads t = .running l ∧ holds t l
  asleep : ∀ {t c l}, s.threads t = .asleep c l → ∃ m, prog t m = .wait c l
  woken : ∀ {t l}, s.threads t = .woken l → ∃ m c, prog t m = .wait c l

structure Asserted (holds : τ → ι → Prop) (I : σ → Prop) (A P : τ → ι → σ → Prop)
    (s : State τ σ ι κ) : Prop where
  always : ∀ t, P t (s.threads t).at s.shared
  free : s.owner = none → I s.shared
  inside : ∀ {t l}, s.threads t = .running l → holds t l → A t l s.shared

variable {prog : τ → ι → Instr σ ι κ} {holds : τ → ι → Prop} {ok : τ → ι → σ → Prop}
  {I : σ → Prop} {A P : τ → ι → σ → Prop} {s s' : State τ σ ι κ} {a : Move τ}

def Rouse (threads threads' : τ → Status ι κ) : Prop :=
  ∀ u, threads' u = threads u ∨ ∃ c l, threads u = .asleep c l ∧ threads' u = .woken l

theorem Allowed.of_running {t : τ} {w : Option τ} {l : ι} (h : Allowed ok s (.go t w))
    (ht : s.threads t = .running l) : ok t l s.shared := by
  simpa only [Allowed, ht] using h

theorem allowed_any (s : State τ σ ι κ) (a : Move τ) : Allowed (fun _ _ _ => True) s a := by
  cases a with
  | wake t => trivial
  | go t w =>
    simp only [Allowed]
    split <;> trivial

theorem rouse_refl (threads : τ → Status ι κ) : Rouse threads threads := fun _ => Or.inl rfl

theorem Locked.holds_iff (h : Locked prog holds s) {t : τ} {l : ι}
    (ht : s.threads t = .running l) : s.owner = some t ↔ holds t l := by
  simp only [h.owner t, ht, Status.running.injEq, exists_eq_left']

theorem Locked.exclusive (h : Locked prog holds s) {t u : τ} {l m : ι}
    (ht : s.threads t = .running l) (hu : s.threads u = .running m) (hl : holds t l)
    (hm : holds u m) : t = u :=
  Option.some.inj (((h.holds_iff ht).mpr hl).symm.trans ((h.holds_iff hu).mpr hm))

variable [DecidableEq τ]

theorem Locked.update (h : Locked prog holds s) {t : τ} {x : Status ι κ} {shared : σ}
    {owner : Option τ} {threads : τ → Status ι κ} (hthreads : Rouse s.threads threads)
    (hself : owner = some t ↔ ∃ l, x = .running l ∧ holds t l)
    (hother : ∀ u, u ≠ t → (owner = some u ↔ s.owner = some u))
    (hasleep : ∀ {c l}, x = .asleep c l → ∃ m, prog t m = .wait c l)
    (hwoken : ∀ {l}, x = .woken l → ∃ m c, prog t m = .wait c l) :
    Locked prog holds ⟨shared, owner, Function.update threads t x⟩ := by
  refine ⟨fun u => ?_, fun {u c m} hu => ?_, fun {u m} hu => ?_⟩
  · dsimp only
    by_cases hut : u = t
    · subst hut
      rwa [Function.update_self]
    · rw [Function.update_of_ne hut]
      refine (hother u hut).trans ((h.owner u).trans ?_)
      rcases hthreads u with hu | ⟨c, m, hu, hu'⟩
      · rw [hu]
      · rw [hu, hu']
        simp
  · dsimp only at hu
    by_cases hut : u = t
    · subst hut
      exact hasleep (by rwa [Function.update_self] at hu)
    · rw [Function.update_of_ne hut] at hu
      rcases hthreads u with hw | ⟨d, k, hw, hw'⟩
      · exact h.asleep (hw ▸ hu)
      · rw [hw'] at hu
        cases hu
  · dsimp only at hu
    by_cases hut : u = t
    · subst hut
      exact hwoken (by rwa [Function.update_self] at hu)
    · rw [Function.update_of_ne hut] at hu
      rcases hthreads u with hw | ⟨d, k, hw, hw'⟩
      · exact h.woken (hw ▸ hu)
      · rw [hw'] at hu
        cases hu
        obtain ⟨m', hm'⟩ := h.asleep hw
        exact ⟨m', d, hm'⟩

theorem Locked.moveTo (h : Locked prog holds s) {t : τ} {l : ι} {shared : σ} {owner : Option τ}
    {threads : τ → Status ι κ} (hthreads : Rouse s.threads threads)
    (hself : owner = some t ↔ holds t l)
    (hother : ∀ u, u ≠ t → (owner = some u ↔ s.owner = some u)) :
    Locked prog holds ⟨shared, owner, moveTo threads t l⟩ := by
  refine h.update hthreads ?_ hother (fun hx => by cases hx) (fun hx => by cases hx)
  simp only [Status.running.injEq, exists_eq_left', hself]

theorem moveTo_running {threads : τ → Status ι κ} (hthreads : Rouse s.threads threads) {t u : τ}
    (hut : u ≠ t) {l m : ι} (h : moveTo threads t l u = .running m) : s.threads u = .running m := by
  rw [Monitor.moveTo, Function.update_of_ne hut] at h
  rcases hthreads u with hu | ⟨c, k, -, hu⟩
  · exact hu ▸ h
  · rw [hu] at h
    cases h

theorem moveTo_self {threads : τ → Status ι κ} {t : τ} {l m : ι}
    (h : moveTo threads t l t = .running m) : m = l := by
  rw [Monitor.moveTo, Function.update_self] at h
  cases h
  rfl

variable [Fintype τ] [DecidableEq κ]

theorem rouse_awaken {threads threads' : τ → Status ι κ} {c : κ} {w : Option τ}
    (h : awaken threads c w = some threads') : Rouse threads threads' := by
  intro u
  rcases awaken_cases h u with hu | ⟨l, hu⟩
  · exact Or.inl hu
  · exact Or.inr ⟨c, l, hu⟩

theorem Locked.step (hd : Disciplined prog holds) (h : Locked prog holds s)
    (hstep : step prog s a = some s') : Locked prog holds s' := by
  have taken : ∀ {t u : τ}, s.owner = none → u ≠ t → (some t = some u ↔ s.owner = some u) := by
    intro t u hfree hut
    simp [hfree, hut.symm]
  have given : ∀ {t u : τ}, s.owner = some t → u ≠ t →
      ((none : Option τ) = some u ↔ s.owner = some u) := by
    intro t u how hut
    simp [how, hut.symm]
  cases fires_of_step hstep with
  | @relock t w l ht hfree =>
    obtain ⟨m, c, hm⟩ := h.woken ht
    exact h.moveTo (rouse_refl _) (iff_of_true rfl (hd.wait hm).2) fun u => taken hfree
  | @lock t w l next ht hp hfree =>
    exact h.moveTo (rouse_refl _) (iff_of_true rfl (hd.lock hp).2) fun u => taken hfree
  | @unlock t w l f next ht hp how =>
    exact h.moveTo (rouse_refl _) (iff_of_false (by simp) (hd.unlock hp).2) fun u => given how
  | @wait t w l c next ht hp how =>
    refine h.update (rouse_refl _) (by simp) (fun u => given how) (fun hx => ?_) (fun hx => by cases hx)
    cases hx
    exact ⟨l, hp⟩
  | @signal t w l c next threads ht hp hw =>
    exact h.moveTo (rouse_awaken hw) ((h.holds_iff ht).trans (hd.signal hp).symm) fun _ _ => Iff.rfl
  | @eval t w l f next ht hp =>
    exact h.moveTo (rouse_refl _) ((h.holds_iff ht).trans (hd.eval s.shared hp).1.symm)
      fun _ _ => Iff.rfl
  | @wake t c l ht =>
    refine h.update (rouse_refl _) ?_ (fun _ _ => Iff.rfl) (fun hx => by cases hx) (fun hx => ?_)
    · simp [h.owner t, ht]
    · cases hx
      obtain ⟨m, hm⟩ := h.asleep ht
      exact ⟨m, c, hm⟩

theorem Fires.at_cases (h : Fires prog s a s') :
    (s'.shared = s.shared ∧ ∀ u, (s'.threads u).at = (s.threads u).at) ∨
    ∃ t w l l', a = .go t w ∧ s.threads t = .running l ∧
      (prog t l).after s.shared = some (s'.shared, l') ∧ (s'.threads t).at = l' ∧
      ∀ u, u ≠ t → (s'.threads u).at = (s.threads u).at := by
  have moved : ∀ (threads : τ → Status ι κ) (t : τ) (x : Status ι κ), Rouse s.threads threads →
      ∀ u, u ≠ t → (Function.update threads t x u).at = (s.threads u).at := by
    intro threads t x hthreads u hut
    rw [Function.update_of_ne hut]
    rcases hthreads u with hu | ⟨c, l, hu, hu'⟩
    · rw [hu]
    · rw [hu, hu']
      rfl
  have stays : ∀ (t : τ) (x : Status ι κ), x.at = (s.threads t).at →
      ∀ u, (Function.update s.threads t x u).at = (s.threads u).at := by
    intro t x hx u
    by_cases hut : u = t
    · subst hut
      rwa [Function.update_self]
    · rw [Function.update_of_ne hut]
  cases h with
  | @relock t w l ht hfree => exact Or.inl ⟨rfl, stays t _ (by rw [ht]; rfl)⟩
  | @wake t c l ht => exact Or.inl ⟨rfl, stays t _ (by rw [ht]; rfl)⟩
  | @lock t w l next ht hp hfree =>
    exact Or.inr ⟨t, w, l, next, rfl, ht, by rw [hp]; rfl, by simp [moveTo, Status.at],
      moved _ t _ (rouse_refl _)⟩
  | @unlock t w l f next ht hp how =>
    exact Or.inr ⟨t, w, l, next, rfl, ht, by rw [hp]; rfl, by simp [moveTo, Status.at],
      moved _ t _ (rouse_refl _)⟩
  | @wait t w l c next ht hp how =>
    exact Or.inr ⟨t, w, l, next, rfl, ht, by rw [hp]; rfl, by simp [Status.at],
      moved _ t _ (rouse_refl _)⟩
  | @signal t w l c next threads ht hp hw =>
    exact Or.inr ⟨t, w, l, next, rfl, ht, by rw [hp]; rfl, by simp [moveTo, Status.at],
      moved _ t _ (rouse_awaken hw)⟩
  | @eval t w l f next ht hp =>
    exact Or.inr ⟨t, w, l, next s.shared, rfl, ht, by rw [hp]; rfl, by simp [moveTo, Status.at],
      moved _ t _ (rouse_refl _)⟩

section

variable (ho : Outline prog holds ok I A P) (hd : Disciplined prog holds)
  (hl : Locked prog holds s) (hs : Asserted holds I A P s)

include ho hs

theorem Outline.always_step (hstep : step prog s a = some s') (t : τ) :
    P t (s'.threads t).at s'.shared := by
  rcases (fires_of_step hstep).at_cases with ⟨hshared, hat⟩ | ⟨u, w, l, l', -, hu, hafter, hat, hat'⟩
  · rw [hshared, hat]
    exact hs.always t
  · have hbefore := hs.always t
    by_cases htu : t = u
    · subst htu
      rw [hu] at hbefore
      rw [hat]
      exact ho.own hafter (fun hh => hs.inside hu hh) hbefore
    · rw [hat' t htu]
      exact ho.other (Ne.symm htu) hafter hbefore

include hd hl

theorem Outline.free_step (hstep : step prog s a = some s') (hfree : s'.owner = none) :
    I s'.shared := by
  cases fires_of_step hstep with
  | @relock => cases hfree
  | @lock => cases hfree
  | @unlock t w l f next ht hp how =>
    have hP := hs.always t
    rw [ht] at hP
    exact ho.unlock hp (hs.inside ht (hd.unlock hp).1) hP
  | @wait t w l c next ht hp how => exact ho.wait hp (hs.inside ht (hd.wait hp).1)
  | @signal => exact hs.free hfree
  | @eval t w l f next ht hp =>
    have hout : ¬ holds t l := fun hh => by
      have := (hl.holds_iff ht).mpr hh
      rw [show s.owner = none from hfree] at this
      cases this
    rw [(hd.eval s.shared hp).2 hout]
    exact hs.free hfree
  | @wake => exact hs.free hfree

theorem Outline.inside_step (hok : Allowed ok s a) (hstep : step prog s a = some s') {u : τ} {m : ι}
    (hu : s'.threads u = .running m) (hm : holds u m) : A u m s'.shared := by
  have howner := ((hl.step hd hstep).holds_iff hu).mpr hm
  cases fires_of_step hstep with
  | @relock t w l ht hfree =>
    cases Option.some.inj howner
    cases moveTo_self hu
    obtain ⟨k, c, hk⟩ := hl.woken ht
    have hP := hs.always u
    rw [ht] at hP
    exact ho.resume hk (hs.free hfree) hP
  | @lock t w l next ht hp hfree =>
    cases Option.some.inj howner
    cases moveTo_self hu
    have hP := hs.always u
    rw [ht] at hP
    exact ho.lock hp (hs.free hfree) hP
  | @unlock => cases howner
  | @wait => cases howner
  | @signal t w l c next threads ht hp hw =>
    by_cases hut : u = t
    · subst hut
      cases moveTo_self hu
      have hh := (hl.holds_iff ht).mp howner
      exact ho.signal hp hh (hs.inside ht hh)
    · exact hs.inside (moveTo_running (rouse_awaken hw) hut hu) hm
  | @eval t w l f next ht hp =>
    by_cases hut : u = t
    · subst hut
      cases moveTo_self hu
      have hh := (hl.holds_iff ht).mp howner
      have hP := hs.always u
      rw [ht] at hP
      exact ho.eval hp hh (hs.inside ht hh) hP (hok.of_running ht)
    · have hout : ¬ holds t l := fun hh => by
        have := (hl.holds_iff ht).mpr hh
        exact hut (Option.some.inj (howner.symm.trans this))
      rw [(hd.eval s.shared hp).2 hout]
      exact hs.inside (moveTo_running (rouse_refl _) hut hu) hm
  | @wake t c l ht =>
    have hut : u ≠ t := by
      rintro rfl
      dsimp only at hu
      rw [Function.update_self] at hu
      cases hu
    dsimp only at hu
    rw [Function.update_of_ne hut] at hu
    exact hs.inside hu hm

/-- One step keeps the assertions of a proof outline. -/
theorem Outline.step (hok : Allowed ok s a) (hstep : step prog s a = some s') :
    Asserted holds I A P s' where
  always := ho.always_step hs hstep
  free := ho.free_step hd hl hs hstep
  inside := ho.inside_step hd hl hs hok hstep

end

end

end Monitor
