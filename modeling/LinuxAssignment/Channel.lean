import LinuxAssignment.StepSystem

namespace Channel

open StepSystem

/-- A queue that the states of a system hold, what a step puts at its end, and what it takes from
its front. -/
structure View (σ α β : Type*) where
  content : σ → List β
  enter : Event σ α → Option β
  leave : Event σ α → Option β

variable {σ α β : Type*}

/-- What leaves in a step was in front before it, and what enters is behind afterwards. -/
def View.Conveys (v : View σ α β) (e : Event σ α) : Prop :=
  v.content e.before ++ (v.enter e).toList = (v.leave e).toList ++ v.content e.after

variable {v : View σ α β} {step : σ → α → Option σ} {s u : σ} {es : List (Event σ α)}

/-- All that was there or entered has left in that order or is still there. -/
theorem View.conveyed (h : Trace step s es u)
    (hstep : ∀ s a t, step s a = some t → v.Conveys ⟨s, a, t⟩) :
    v.content s ++ es.filterMap v.enter = es.filterMap v.leave ++ v.content u := by
  induction h with
  | nil => simp
  | @cons s t u a es hgo _ ih =>
    have hfirst : v.content s ++ (v.enter ⟨s, a, t⟩).toList =
        (v.leave ⟨s, a, t⟩).toList ++ v.content t := hstep s a t hgo
    have henter : (⟨s, a, t⟩ :: es).filterMap v.enter =
        (v.enter ⟨s, a, t⟩).toList ++ es.filterMap v.enter := by
      rw [List.filterMap_cons]
      split <;> simp [*]
    have hleave : (⟨s, a, t⟩ :: es).filterMap v.leave =
        (v.leave ⟨s, a, t⟩).toList ++ es.filterMap v.leave := by
      rw [List.filterMap_cons]
      split <;> simp [*]
    rw [henter, hleave, ← List.append_assoc, hfirst, List.append_assoc, ih, List.append_assoc]

end Channel
