import LinuxAssignment.StepSystem

namespace Linearization

open StepSystem

/-- A specification that takes effect at single steps of a system: `point` tells what a step does to
what is seen of the state, if it does anything. -/
structure Points (σ α τ β : Type*) where
  view : σ → τ
  point : Event σ α → Option β

variable {σ α τ β : Type*} {p : Points σ α τ β} {step : σ → α → Option σ} {spec : τ → β → Option τ}
  {Inv Rest : σ → Prop} {s t : σ} {es : List (Event σ α)} {bs : List β}

def Points.effects (p : Points σ α τ β) (es : List (Event σ α)) : List β := es.filterMap p.point

/-- Each step does what the specification says of its point, and nothing without one. -/
structure Points.Simulates (p : Points σ α τ β) (step : σ → α → Option σ) (spec : τ → β → Option τ)
    (Inv : σ → Prop) : Prop where
  keeps : ∀ {s a t}, Inv s → step s a = some t → Inv t
  silent : ∀ {s a t}, Inv s → step s a = some t → p.point ⟨s, a, t⟩ = none → p.view t = p.view s
  acts : ∀ {s a t b}, Inv s → step s a = some t → p.point ⟨s, a, t⟩ = some b →
    spec (p.view s) b = some (p.view t)

theorem Points.Simulates.run (h : p.Simulates step spec Inv) (hrun : Trace step s es t)
    (hs : Inv s) : Inv t ∧ (p.effects es).foldlM spec (p.view s) = some (p.view t) := by
  induction hrun with
  | nil => exact ⟨hs, rfl⟩
  | @cons s t u a es hstep _ ih =>
    obtain ⟨hu, hfold⟩ := ih (h.keeps hs hstep)
    refine ⟨hu, ?_⟩
    unfold Points.effects at hfold ⊢
    cases hp : p.point ⟨s, a, t⟩ with
    | none => rw [List.filterMap_cons_none hp, ← h.silent hs hstep hp, hfold]
    | some b =>
      rw [List.filterMap_cons_some hp, List.foldlM_cons, h.acts hs hstep hp]
      exact hfold

/-- If at rest the system can bring about whatever the specification allows, it has a run for every
run of the specification. -/
theorem Points.Simulates.realize (h : p.Simulates step spec Inv) (hrest : ∀ s, Rest s → Inv s)
    (hreal : ∀ s b k, Rest s → spec (p.view s) b = some k →
      ∃ es t, Trace step s es t ∧ Rest t ∧ p.effects es = [b])
    (hs : Rest s) {k : τ} (hk : bs.foldlM spec (p.view s) = some k) :
    ∃ es t, Trace step s es t ∧ Rest t ∧ p.effects es = bs ∧ p.view t = k := by
  induction bs generalizing s with
  | nil => exact ⟨[], s, .nil, hs, rfl, Option.some.inj hk⟩
  | cons b bs ih =>
    rw [List.foldlM_cons] at hk
    obtain ⟨m, hm, hrest'⟩ := Option.bind_eq_some_iff.mp hk
    obtain ⟨es, t, hrun, ht, heffects⟩ := hreal s b m hs hm
    have hview : p.view t = m := by
      obtain ⟨-, hfold⟩ := h.run hrun (hrest s hs)
      rw [heffects, List.foldlM_cons, hm] at hfold
      exact (Option.some.inj hfold).symm
    obtain ⟨es', u, hrun', hu, heffects', hview'⟩ := ih ht (hview ▸ hrest')
    refine ⟨es ++ es', u, hrun.append hrun', hu, ?_, hview'⟩
    unfold Points.effects at heffects heffects' ⊢
    rw [List.filterMap_append, heffects, heffects', List.singleton_append]

/-- Then the effects of its runs are the runs of the specification. -/
theorem Points.Simulates.effects_iff (h : p.Simulates step spec Inv)
    (hrest : ∀ s, Rest s → Inv s)
    (hreal : ∀ s b k, Rest s → spec (p.view s) b = some k →
      ∃ es t, Trace step s es t ∧ Rest t ∧ p.effects es = [b])
    (hs : Rest s) (k : τ) :
    (∃ es t, Trace step s es t ∧ p.effects es = bs ∧ p.view t = k) ↔
      bs.foldlM spec (p.view s) = some k := by
  constructor
  · rintro ⟨es, t, hrun, rfl, rfl⟩
    exact (h.run hrun (hrest s hs)).2
  · intro hk
    obtain ⟨es, t, hrun, -, heffects, hview⟩ := h.realize hrest hreal hs hk
    exact ⟨es, t, hrun, heffects, hview⟩

end Linearization
