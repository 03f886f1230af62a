import LinuxAssignment.StepSystem
import Mathlib.Computability.Language

namespace Cycles

open StepSystem Computability

variable {σ α β : Type*} {step : σ → α → Option σ} {out : Event σ α → List β} {home s : σ}
  {es : List (Event σ α)}

/-- What the steps of a run put out, one after the other. -/
def logged (out : Event σ α → List β) (es : List (Event σ α)) : List β := es.flatMap out

theorem logged_append (es es' : List (Event σ α)) :
    logged out (es ++ es') = logged out es ++ logged out es' := List.flatMap_append

/-- What can have been put out since a system was last at `home`, by the state that it is in: each
step carries this on, or comes back to `home` with a word of `cycle`. -/
structure Tracks (step : σ → α → Option σ) (out : Event σ α → List β) (home : σ)
    (cycle : Language β) (Since : σ → List β → Prop) : Prop where
  leave : Since home []
  carry : ∀ {s a t w}, Since s w → step s a = some t →
    Since t (w ++ out ⟨s, a, t⟩) ∨ t = home ∧ w ++ out ⟨s, a, t⟩ ∈ cycle

variable {cycle : Language β} {Since : σ → List β → Prop}

/-- A run from `home` puts out words of `cycle`, and the beginning of one more. -/
theorem Tracks.run (ht : Tracks step out home cycle Since) (h : Trace step home es s) :
    ∃ x ∈ cycle∗, ∃ w, Since s w ∧ logged out es = x ++ w := by
  have keep : ∀ past s a t, (∃ x ∈ cycle∗, ∃ w, Since s w ∧ logged out past = x ++ w) → True →
      step s a = some t →
      ∃ x ∈ cycle∗, ∃ w, Since t w ∧ logged out (past ++ [⟨s, a, t⟩]) = x ++ w := by
    rintro past s a t ⟨x, hx, w, hw, hlog⟩ - hstep
    have hnew : logged out (past ++ [⟨s, a, t⟩]) = x ++ (w ++ out ⟨s, a, t⟩) := by
      rw [logged_append, hlog, List.append_assoc]
      simp [logged]
    rcases ht.carry hw hstep with hopen | ⟨rfl, hclosed⟩
    · exact ⟨x, hx, _, hopen, hnew⟩
    · obtain ⟨words, rfl, hwords⟩ := Language.mem_kstar.mp hx
      refine ⟨(words ++ [w ++ out ⟨s, a, t⟩]).flatten, ?_, [], ht.leave, ?_⟩
      · refine Language.join_mem_kstar fun y hy => ?_
        rcases List.mem_append.mp hy with hy | hy
        · exact hwords y hy
        · rwa [List.mem_singleton.mp hy]
      · rw [hnew]
        simp
  have hstart : ∃ x ∈ cycle∗, ∃ w, Since home w ∧ logged out ([] : List (Event σ α)) = x ++ w :=
    ⟨[], Language.nil_mem_kstar cycle, [], ht.leave, rfl⟩
  exact (h.history keep hstart fun _ _ => trivial).1

/-- Words that single rounds can put out are put out by a run of so many rounds. -/
theorem rounds (hcycle : ∀ w ∈ cycle, ∃ es, Trace step home es home ∧ logged out es = w)
    {x : List β} (hx : x ∈ cycle∗) : ∃ es, Trace step home es home ∧ logged out es = x := by
  obtain ⟨words, rfl, hwords⟩ := Language.mem_kstar.mp hx
  clear hx
  induction words with
  | nil => exact ⟨[], .nil, rfl⟩
  | cons w words ih =>
    obtain ⟨hw, hrest⟩ := List.forall_mem_cons.mp hwords
    obtain ⟨es, hfirst, hlog⟩ := hcycle w hw
    obtain ⟨es', hlater, hlog'⟩ := ih hrest
    refine ⟨es ++ es', hfirst.append hlater, ?_⟩
    rw [logged_append, hlog, hlog', List.flatten_cons]

/-- Where nothing is due at `home`, the runs back to it put out exactly the words of `cycle`. -/
theorem Tracks.logged_iff (ht : Tracks step out home cycle Since)
    (hhome : ∀ w, Since home w → w = [])
    (hcycle : ∀ w ∈ cycle, ∃ es, Trace step home es home ∧ logged out es = w) (x : List β) :
    (∃ es, Trace step home es home ∧ logged out es = x) ↔ x ∈ cycle∗ := by
  constructor
  · rintro ⟨es, h, rfl⟩
    obtain ⟨y, hy, w, hw, hlog⟩ := ht.run h
    rw [hlog, hhome w hw, List.append_nil]
    exact hy
  · exact rounds hcycle

end Cycles
