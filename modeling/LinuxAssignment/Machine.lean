import Mathlib.Logic.Basic

namespace Machine

variable {σ α ο β : Type*} (step : σ → α → σ × ο)

def replies : σ → List α → List ο
  | _, [] => []
  | s, a :: as => (step s a).2 :: replies (step s a).1 as

def final : σ → List α → σ
  | s, [] => s
  | s, a :: as => final (step s a).1 as

@[simp] theorem replies_nil (s : σ) : replies step s [] = [] := rfl

@[simp] theorem replies_cons (s : σ) (a : α) (as : List α) :
    replies step s (a :: as) = (step s a).2 :: replies step (step s a).1 as := rfl

@[simp] theorem final_nil (s : σ) : final step s [] = s := rfl

@[simp] theorem final_cons (s : σ) (a : α) (as : List α) :
    final step s (a :: as) = final step (step s a).1 as := rfl

theorem replies_append (s : σ) (as bs : List α) :
    replies step s (as ++ bs) = replies step s as ++ replies step (final step s as) bs := by
  induction as generalizing s with
  | nil => rfl
  | cons a as ih => simp [ih]

@[simp] theorem replies_length (s : σ) (as : List α) :
    (replies step s as).length = as.length := by
  induction as generalizing s with
  | nil => rfl
  | cons a as ih => simp [ih]

theorem final_append (s : σ) (as bs : List α) :
    final step s (as ++ bs) = final step (final step s as) bs := by
  induction as generalizing s with
  | nil => rfl
  | cons a as ih => simp [ih]

variable {step}

theorem final_invariant {Inv : σ → Prop} {ok : α → Prop}
    (keep : ∀ s a, Inv s → ok a → Inv (step s a).1) {s : σ} {as : List α} (h : Inv s)
    (hok : ∀ a ∈ as, ok a) : Inv (final step s as) := by
  induction as generalizing s with
  | nil => exact h
  | cons a as ih =>
    exact ih (keep s a h (hok a List.mem_cons_self)) fun b hb => hok b (List.mem_cons_of_mem a hb)

/-- Two states related by a simulation that agrees on an observation of the outputs show the same
observations on every list of admissible inputs. -/
theorem map_replies_eq {f : ο → β} {R : σ → σ → Prop} {ok : α → Prop}
    (sim : ∀ s t a, R s t → ok a → f (step s a).2 = f (step t a).2 ∧ R (step s a).1 (step t a).1)
    {s t : σ} {as : List α} (h : R s t) (hok : ∀ a ∈ as, ok a) :
    (replies step s as).map f = (replies step t as).map f := by
  induction as generalizing s t with
  | nil => rfl
  | cons a as ih =>
    have hh := sim s t a h (hok a List.mem_cons_self)
    have htail := ih hh.2 fun b hb => hok b (List.mem_cons_of_mem a hb)
    simp only [replies_cons, List.map_cons, hh.1, htail]

/-- A machine that answers as another one does, as long as the two stay related. -/
theorem simulates {τ : Type*} {step' : τ → α → τ × β} {f : ο → β} {R : σ → τ → Prop}
    {ok : α → Prop}
    (sim : ∀ s t a, R s t → ok a → f (step s a).2 = (step' t a).2 ∧ R (step s a).1 (step' t a).1)
    {s : σ} {t : τ} {as : List α} (h : R s t) (hok : ∀ a ∈ as, ok a) :
    (replies step s as).map f = replies step' t as ∧ R (final step s as) (final step' t as) := by
  induction as generalizing s t with
  | nil => exact ⟨rfl, h⟩
  | cons a as ih =>
    obtain ⟨hreply, hnext⟩ := sim s t a h (hok a List.mem_cons_self)
    obtain ⟨hreplies, hlast⟩ := ih hnext fun b hb => hok b (List.mem_cons_of_mem a hb)
    exact ⟨by simp only [replies_cons, List.map_cons, hreply, hreplies], hlast⟩

section

variable (step) (dom : σ → α → Prop) [∀ s a, Decidable (dom s a)]

/-- The inputs of a run that belong to a domain, which may depend on the state they meet. -/
def purge : σ → List α → List α
  | _, [] => []
  | s, a :: as =>
    if dom s a then a :: purge (step s a).1 as else purge (step s a).1 as

def repliesIn : σ → List α → List ο
  | _, [] => []
  | s, a :: as =>
    if dom s a then (step s a).2 :: repliesIn (step s a).1 as else repliesIn (step s a).1 as

variable {step dom}

/-- Unwinding: if inputs of the domain act alike on related states, and inputs outside it cannot
be told from the other side, then deleting the latter does not change the outputs to the former. -/
theorem repliesIn_eq_replies_purge {R : σ → σ → Prop} {ok : α → Prop}
    (same : ∀ s t a, R s t → ok a → dom s a →
      (step s a).2 = (step t a).2 ∧ R (step s a).1 (step t a).1)
    (other : ∀ s t a, R s t → ok a → ¬ dom s a → R (step s a).1 t)
    {s t : σ} {as : List α} (h : R s t) (hok : ∀ a ∈ as, ok a) :
    repliesIn step dom s as = replies step t (purge step dom s as) := by
  induction as generalizing s t with
  | nil => rfl
  | cons a as ih =>
    have ha := hok a List.mem_cons_self
    have hrest : ∀ b ∈ as, ok b := fun b hb => hok b (List.mem_cons_of_mem a hb)
    by_cases hd : dom s a
    · have hh := same s t a h ha hd
      simp only [repliesIn, purge, if_pos hd, replies_cons, hh.1, ih hh.2 hrest]
    · simp only [repliesIn, purge, if_neg hd, ih (other s t a h ha hd) hrest]

end

end Machine
