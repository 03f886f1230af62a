import Mathlib.Logic.Basic
import Mathlib.Logic.Relation

namespace StepSystem

/-- One step of a run: the state before it, its label, the state after it. -/
structure Event (σ α : Type*) where
  before : σ
  label : α
  after : σ

/-- A run of a partial step function, recorded event by event. -/
inductive Trace {σ α : Type*} (step : σ → α → Option σ) : σ → List (Event σ α) → σ → Prop
  | nil {s} : Trace step s [] s
  | cons {s t u a es} : step s a = some t → Trace step t es u →
      Trace step s (⟨s, a, t⟩ :: es) u

variable {σ α : Type*} {step : σ → α → Option σ}

/-- The events of running the listed labels one after the other, as far as they are enabled. -/
def record (step : σ → α → Option σ) : σ → List α → List (Event σ α)
  | _, [] => []
  | s, a :: as =>
    match step s a with
    | none => []
    | some t => ⟨s, a, t⟩ :: record step t as

def last (step : σ → α → Option σ) : σ → List α → σ
  | s, [] => s
  | s, a :: as =>
    match step s a with
    | none => s
    | some t => last step t as

theorem Trace.recorded (step : σ → α → Option σ) (s : σ) (as : List α) :
    Trace step s (record step s as) (last step s as) := by
  induction as generalizing s with
  | nil => exact .nil
  | cons a as ih =>
    simp only [record, last]
    split
    next => exact .nil
    next t ht => exact .cons ht (ih t)

def Steps (step : σ → α → Option σ) (s t : σ) : Prop := ∃ a, step s a = some t

theorem Trace.of_steps {s u : σ} (h : Relation.ReflTransGen (Steps step) s u) :
    ∃ es, Trace step s es u := by
  induction h using Relation.ReflTransGen.head_induction_on with
  | refl => exact ⟨[], .nil⟩
  | head hstep _ ih =>
    obtain ⟨a, ha⟩ := hstep
    obtain ⟨es, hrest⟩ := ih
    exact ⟨_, .cons ha hrest⟩

theorem Trace.append {s t u : σ} {es es' : List (Event σ α)} (h : Trace step s es t)
    (h' : Trace step t es' u) : Trace step s (es ++ es') u := by
  induction h with
  | nil => exact h'
  | cons hstep _ ih => exact .cons hstep (ih h')

/-- A run is cut at any of its events. -/
theorem Trace.split {s u : σ} {past later : List (Event σ α)} {e : Event σ α}
    (h : Trace step s (past ++ e :: later) u) :
    Trace step s past e.before ∧ step e.before e.label = some e.after ∧
      Trace step e.after later u := by
  induction past generalizing s with
  | nil =>
    cases h with
    | cons hstep hrest => exact ⟨.nil, hstep, hrest⟩
  | cons d past ih =>
    cases h with
    | cons hstep hrest =>
      obtain ⟨hpast, he, hlater⟩ := ih hrest
      exact ⟨.cons hstep hpast, he, hlater⟩

theorem step_of_mem {s u : σ} {es : List (Event σ α)} {e : Event σ α} (h : Trace step s es u)
    (he : e ∈ es) : step e.before e.label = some e.after := by
  obtain ⟨past, later, rfl⟩ := List.append_of_mem he
  exact h.split.2.1

theorem label_mem_of_record {s : σ} {as : List α} {e : Event σ α} (h : e ∈ record step s as) :
    e.label ∈ as := by
  induction as generalizing s with
  | nil => cases h
  | cons a as ih =>
    simp only [record] at h
    split at h
    next => cases h
    next t ht =>
      rcases List.mem_cons.mp h with rfl | h
      · exact List.mem_cons_self
      · exact List.mem_cons_of_mem _ (ih h)

theorem Trace.invariant {Inv : σ → Prop} {ok : σ → α → Prop}
    (keep : ∀ s a t, Inv s → ok s a → step s a = some t → Inv t)
    {s u : σ} {es : List (Event σ α)} (h : Trace step s es u) (hs : Inv s)
    (hok : ∀ e ∈ es, ok e.before e.label) : Inv u := by
  induction h with
  | nil => exact hs
  | cons hstep _ ih =>
    have hi := keep _ _ _ hs (hok _ List.mem_cons_self) hstep
    exact ih hi (fun e he => hok e (List.mem_cons_of_mem _ he))

/-- A run whose steps each lower a measure has no more steps than that. -/
theorem Trace.length_le_of {Inv : σ → Prop} {ok : α → Prop} {measure : σ → Nat}
    (lower : ∀ s a t, Inv s → ok a → step s a = some t → Inv t ∧ measure t < measure s)
    {s u : σ} {es : List (Event σ α)} (h : Trace step s es u) (hs : Inv s)
    (hok : ∀ e ∈ es, ok e.label) : es.length + measure u ≤ measure s := by
  induction h with
  | nil => exact Nat.le_of_eq (Nat.zero_add _)
  | cons hstep _ ih =>
    obtain ⟨hi, hlt⟩ := lower _ _ _ hs (hok _ List.mem_cons_self) hstep
    have hrest := ih hi fun e he => hok e (List.mem_cons_of_mem _ he)
    rw [List.length_cons]
    omega

theorem Trace.length_le {Inv : σ → Prop} {measure : σ → Nat}
    (lower : ∀ s a t, Inv s → step s a = some t → Inv t ∧ measure t < measure s)
    {s u : σ} {es : List (Event σ α)} (h : Trace step s es u) (hs : Inv s) :
    es.length + measure u ≤ measure s := by
  have lower' : ∀ (s : σ) (a : α) (t : σ), Inv s → True → step s a = some t →
      Inv t ∧ measure t < measure s := fun s a t hs _ ht => lower s a t hs ht
  exact h.length_le_of lower' hs fun _ _ => trivial

/-- A run whose steps each take one off a measure has as many steps as that is lowered by. -/
theorem Trace.length_eq {Inv : σ → Prop} {measure : σ → Nat}
    (lower : ∀ s a t, Inv s → step s a = some t → Inv t ∧ measure t + 1 = measure s)
    {s u : σ} {es : List (Event σ α)} (h : Trace step s es u) (hs : Inv s) :
    es.length + measure u = measure s := by
  induction h with
  | nil => exact Nat.zero_add _
  | cons hstep _ ih =>
    obtain ⟨hi, heq⟩ := lower _ _ _ hs hstep
    have hrest := ih hi
    rw [List.length_cons]
    omega

/-- Steps of a kind that each lower a measure lead to a state that has none left of them. -/
theorem Trace.exists_rest {ok : α → Prop} {measure : σ → Nat}
    (lower : ∀ s a t, ok a → step s a = some t → measure t < measure s) (s : σ) :
    ∃ es t, Trace step s es t ∧ (∀ e ∈ es, ok e.label) ∧ ∀ a, ok a → step t a = none := by
  induction hm : measure s using Nat.strongRecOn generalizing s with
  | ind m ih =>
    by_cases hrest : ∀ a, ok a → step s a = none
    · exact ⟨[], s, .nil, fun e he => absurd he List.not_mem_nil, hrest⟩
    · obtain ⟨a, hno⟩ := Classical.not_forall.mp hrest
      obtain ⟨ha, hstep⟩ := Classical.not_imp.mp hno
      obtain ⟨t, ht⟩ := Option.ne_none_iff_exists'.mp hstep
      obtain ⟨es, u, hrun, hok, hstuck⟩ := ih _ (hm ▸ lower s a t ha ht) t rfl
      exact ⟨_, u, .cons ht hrun, List.forall_mem_cons.mpr ⟨ha, hok⟩, hstuck⟩

/-- In a run that keeps an invariant, every event is a step from a state where it holds. -/
theorem Trace.events {Inv : σ → Prop} {ok : σ → α → Prop}
    (keep : ∀ s a t, Inv s → ok s a → step s a = some t → Inv t)
    {s u : σ} {es : List (Event σ α)} (h : Trace step s es u) (hs : Inv s)
    (hok : ∀ e ∈ es, ok e.before e.label) :
    ∀ e ∈ es, Inv e.before ∧ step e.before e.label = some e.after := by
  induction h with
  | nil => exact fun e he => absurd he List.not_mem_nil
  | cons hstep _ ih =>
    have hi := keep _ _ _ hs (hok _ List.mem_cons_self) hstep
    intro e he
    rcases List.mem_cons.mp he with rfl | he
    · exact ⟨hs, hstep⟩
    · exact ih hi (fun e he => hok e (List.mem_cons_of_mem _ he)) e he

/-- An invariant that may speak of the events so far holds along the run. -/
theorem Trace.history {Inv : List (Event σ α) → σ → Prop} {ok : σ → α → Prop}
    (keep : ∀ past s a t, Inv past s → ok s a → step s a = some t → Inv (past ++ [⟨s, a, t⟩]) t)
    {s u : σ} {es : List (Event σ α)} (h : Trace step s es u) (hs : Inv [] s)
    (hok : ∀ e ∈ es, ok e.before e.label) :
    Inv es u ∧ ∀ past e later, es = past ++ e :: later →
      Inv past e.before ∧ step e.before e.label = some e.after := by
  have along : ∀ past, Inv past s → Inv (past ++ es) u ∧ ∀ mid e later, es = mid ++ e :: later →
      Inv (past ++ mid) e.before ∧ step e.before e.label = some e.after := by
    clear hs
    induction h with
    | nil => exact fun past hs => ⟨by simpa using hs, fun mid e later he => by simp at he⟩
    | @cons s t u a es hstep _ ih =>
      intro past hs
      have hi := keep past s a t hs (hok _ List.mem_cons_self) hstep
      obtain ⟨hend, hevents⟩ := ih (fun e he => hok e (List.mem_cons_of_mem _ he)) _ hi
      rw [List.append_assoc] at hend
      refine ⟨hend, fun mid e later he => ?_⟩
      cases mid with
      | nil =>
        obtain ⟨rfl, -⟩ := List.cons.inj he
        exact ⟨by simpa using hs, hstep⟩
      | cons m mid =>
        obtain ⟨rfl, hrest⟩ := List.cons.inj he
        have hmid := hevents mid e later hrest
        rwa [List.append_assoc] at hmid
  exact along [] hs

/-- A run seen through `f`, when every step seen so is a step of another system or none. -/
theorem Trace.image {τ β : Type*} {step' : τ → β → Option τ} (f : σ → τ)
    (sim : ∀ s a t, step s a = some t → f t = f s ∨ ∃ b, step' (f s) b = some (f t))
    {s u : σ} {es : List (Event σ α)} (h : Trace step s es u) :
    ∃ es', Trace step' (f s) es' (f u) := by
  induction h with
  | nil => exact ⟨[], .nil⟩
  | cons hstep _ ih =>
    obtain ⟨es', hrest⟩ := ih
    rcases sim _ _ _ hstep with hsame | ⟨b, hb⟩
    · exact ⟨es', hsame ▸ hrest⟩
    · exact ⟨_, .cons hb hrest⟩

/-- If one step from an invariant state is good exactly under a condition on the state before it,
and the condition keeps the invariant, a run is good exactly when all its steps meet it. -/
theorem Trace.forall_iff {s u : σ} {es : List (Event σ α)} (h : Trace step s es u)
    (Inv : σ → Prop) (cond : σ → α → Prop) (Good : Event σ α → Prop)
    (step_exact : ∀ s a t, Inv s → step s a = some t → (Good ⟨s, a, t⟩ ↔ cond s a))
    (keep : ∀ s a t, Inv s → cond s a → step s a = some t → Inv t) (hs : Inv s) :
    (∀ e ∈ es, Good e) ↔ ∀ e ∈ es, cond e.before e.label := by
  induction h with
  | nil => simp
  | cons hstep _ ih =>
    have hh := step_exact _ _ _ hs hstep
    simp only [List.mem_cons, forall_eq_or_imp, hh]
    constructor
    · rintro ⟨hc, hrest⟩
      exact ⟨hc, (ih (keep _ _ _ hs hc hstep)).mp hrest⟩
    · rintro ⟨hc, hrest⟩
      exact ⟨hc, (ih (keep _ _ _ hs hc hstep)).mpr hrest⟩

end StepSystem
