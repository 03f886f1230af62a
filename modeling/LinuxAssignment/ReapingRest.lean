import LinuxAssignment.ChildReaping
import Mathlib

namespace LinuxAssignment.ChildReaping

open StepSystem

instance : Fintype Signal := ⟨{.sigint, .sigusr1, .sigchld}, fun sig => by cases sig <;> decide⟩

/-- A step of the parent itself: a signal is delivered, or the innermost handler goes on. -/
def Act.Own {κ : Type} : Act κ → Prop
  | .deliver _ | .go _ => True
  | _ => False

/-- How many steps a handler is from its return, if it finds no more news. -/
def Place.left {κ : Type} : Place κ → Nat
  | .leave => 1
  | .announce | .waitpid => 2
  | .dispatch | .report _ _ => 3

theorem Place.left_le {κ : Type} (place : Place κ) : place.left ≤ 3 := by
  cases place <;> simp [Place.left]

instance {κ : Type} : (a : Act κ) → Decidable a.Own
  | .deliver _ | .go _ => isTrue trivial
  | .fork _ | .exit _ _ | .kill _ _ | .stop _ _ | .cont _ | .send _ => isFalse id

section

variable {κ : Type} {s s' : State κ} {f : Frame κ} {frames : List (Frame κ)}

theorem Child.news_told {c : Child} {status : Status} {c' : Child} (h : c.news = some (status, c')) :
    c'.news = none := by
  unfold Child.news at h
  split at h <;> cases h <;> rfl

/-- What the innermost handler can do: go on towards its return, learn of a child, find none with
news, or return. -/
inductive Handled [DecidableEq κ] (s : State κ) (f : Frame κ) (frames : List (Frame κ)) :
    State κ → Prop
  | goes (place : Place κ) (lines : List (Printed κ)) : place.left < f.place.left →
      (f.Drains → Frame.Drains ⟨f.sig, place⟩) → (∀ sig, .noHandler sig ∉ lines) →
      Handled s f frames ⟨s.child, s.pending, ⟨f.sig, place⟩ :: frames, s.printed ++ lines⟩
  | learns (k : κ) (status : Status) (c : Child) : f.place = .waitpid →
      (s.child k).news = some (status, c) →
      Handled s f frames ⟨Function.update s.child k c, s.pending,
        ⟨f.sig, .report k status⟩ :: frames, s.printed⟩
  | finds : f.place = .waitpid → (∀ k, (s.child k).news = none) →
      Handled s f frames ⟨s.child, s.pending, ⟨f.sig, .leave⟩ :: frames, s.printed⟩
  | returns : f.place = .leave → Handled s f frames ⟨s.child, s.pending, frames, s.printed⟩

variable [DecidableEq κ] [Fintype κ]

theorem runHandler_handled {reported : Option κ} (h : runHandler s f frames reported = some s') :
    Handled s f frames s' := by
  have silent : ∀ place : Place κ, place.left < f.place.left →
      (f.Drains → Frame.Drains ⟨f.sig, place⟩) →
      Handled s f frames ⟨s.child, s.pending, ⟨f.sig, place⟩ :: frames, s.printed⟩ := by
    intro place hleft hdrains
    have hgoes : Handled s f frames _ :=
      .goes place [] hleft hdrains fun _ => List.not_mem_nil
    rwa [List.append_nil] at hgoes
  obtain ⟨sig, place⟩ := f
  cases place with
  | dispatch =>
    simp only [runHandler, functionCallHandler_eq] at h
    cases sig with
    | sigchld =>
      cases h
      exact silent .waitpid (Nat.lt_succ_self 2) fun _ => trivial
    | sigint | sigusr1 =>
      cases h
      exact silent .announce (Nat.lt_succ_self 2) fun hd => by cases hd
  | announce =>
    cases h
    refine .goes .leave [.received sig] (Nat.lt_succ_self 1) (fun hd => absurd hd id) ?_
    simp
  | report k status =>
    cases h
    refine .goes .waitpid [line k status] (Nat.lt_succ_self 2) (fun _ => trivial) fun sig' hin => ?_
    cases status with
    | ended e => cases e <;> simp [line] at hin
    | stopped | continued => simp [line] at hin
  | leave =>
    cases h
    exact .returns rfl
  | waitpid =>
    obtain ⟨⟨t, r⟩, hwait, h⟩ := Option.map_eq_some_iff.mp h
    cases reported with
    | some k =>
      obtain ⟨⟨status, c⟩, hnews, hr⟩ := Option.map_eq_some_iff.mp hwait
      cases hr
      cases h
      exact .learns k status c rfl hnews
    | none =>
      obtain ⟨hnone, hr⟩ := Option.ite_none_right_eq_some.mp hwait
      cases hr
      cases h
      exact .finds rfl hnone

/-- One step: a child is born or changes, a signal is sent or delivered, or the innermost handler
does something. -/
inductive Changes (s : State κ) : Act κ → State κ → Prop
  | fork (k : κ) : s.stack = [] → Changes s (.fork k)
      { s with child := Function.update s.child k (.running false) }
  | child (a : Act κ) (k : κ) (c : Child) : ¬ a.Own → Changes s a (change s k c)
  | send (sig : Signal) : Changes s (.send sig)
      { s with pending := Function.update s.pending sig true }
  | deliver (sig : Signal) : s.pending sig = true → (∀ f ∈ s.stack, f.sig ≠ sig) →
      Changes s (.deliver sig) { s with
        pending := Function.update s.pending sig false
        stack := ⟨sig, .dispatch⟩ :: s.stack }
  | go (reported : Option κ) (f : Frame κ) (frames : List (Frame κ)) (s' : State κ) :
      s.stack = f :: frames → Handled s f frames s' → Changes s (.go reported) s'

theorem step_changes {a : Act κ} (h : step s a = some s') : Changes s a s' := by
  cases a with
  | fork k =>
    obtain ⟨⟨hstack, -⟩, h⟩ := Option.ite_none_right_eq_some.mp h
    cases h
    exact .fork k hstack
  | exit k status | stop k sig | cont k =>
    simp only [step] at h
    split at h
    next =>
      cases h
      exact .child _ k _ id
    next => cases h
  | kill k sig =>
    simp only [step] at h
    split at h
    next =>
      cases h
      exact .child _ k _ id
    next =>
      cases h
      exact .child _ k _ id
    next => cases h
  | send sig =>
    cases h
    exact .send sig
  | deliver sig =>
    obtain ⟨⟨hpending, hnone⟩, h⟩ := Option.ite_none_right_eq_some.mp h
    cases h
    exact .deliver sig hpending hnone
  | go reported =>
    simp only [step] at h
    split at h
    next => cases h
    next f frames hstack => exact .go reported f frames s' hstack (runHandler_handled h)

/-- The handlers under way are for different signals, each for a signal in the dispatch table, and a
child with news has a `SIGCHLD` pending or a handler that will call `waitpid` again. -/
structure Orderly (s : State κ) : Prop where
  nested : (s.stack.map Frame.sig).Nodup
  attended : ∀ k, (s.child k).news ≠ none → s.pending .sigchld = true ∨ ∃ f ∈ s.stack, f.Drains
  known : ∀ sig, .noHandler sig ∉ s.printed

omit [Fintype κ] in
theorem Handled.orderly (h : Handled s f frames s') (hstack : s.stack = f :: frames)
    (hs : Orderly s) : Orderly s' := by
  obtain ⟨hnested, hattended, hknown⟩ := hs
  rw [hstack] at hnested hattended
  cases h with
  | goes place lines _ hdrains hlines =>
    refine ⟨hnested, fun k hk => ?_, fun sig hin => ?_⟩
    · rcases hattended k hk with hp | ⟨g, hg, hdrain⟩
      · exact Or.inl hp
      · rcases List.mem_cons.mp hg with rfl | hg
        · exact Or.inr ⟨_, List.mem_cons_self, hdrains hdrain⟩
        · exact Or.inr ⟨g, List.mem_cons_of_mem _ hg, hdrain⟩
    · rcases List.mem_append.mp hin with hin | hin
      · exact hknown sig hin
      · exact hlines sig hin
  | learns => exact ⟨hnested, fun _ _ => Or.inr ⟨_, List.mem_cons_self, trivial⟩, hknown⟩
  | finds _ hnone => exact ⟨hnested, fun k hk => absurd (hnone k) hk, hknown⟩
  | returns hplace =>
    refine ⟨(List.nodup_cons.mp hnested).2, fun k hk => ?_, hknown⟩
    rcases hattended k hk with hp | ⟨g, hg, hdrain⟩
    · exact Or.inl hp
    · rcases List.mem_cons.mp hg with rfl | hg
      · unfold Frame.Drains at hdrain
        rw [hplace] at hdrain
        exact absurd hdrain id
      · exact Or.inr ⟨g, hg, hdrain⟩

omit [Fintype κ] in
theorem Changes.orderly {a : Act κ} (h : Changes s a s') (hs : Orderly s) : Orderly s' := by
  cases h with
  | fork k =>
    refine ⟨hs.nested, fun i hi => ?_, hs.known⟩
    dsimp only at hi
    by_cases hik : i = k
    · subst hik
      rw [Function.update_self] at hi
      exact absurd rfl hi
    · rw [Function.update_of_ne hik] at hi
      exact hs.attended i hi
  | child a k c => exact ⟨hs.nested, fun _ _ => Or.inl (by simp [change]), hs.known⟩
  | send sig =>
    refine ⟨hs.nested, fun k hk => (hs.attended k hk).imp_left fun hp => ?_, hs.known⟩
    dsimp only
    by_cases hsig : Signal.sigchld = sig
    · rw [← hsig]
      exact Function.update_self _ _ _
    · rw [Function.update_of_ne hsig]
      exact hp
  | deliver sig hpending hfree =>
    refine ⟨?_, fun k hk => ?_, hs.known⟩
    · refine List.nodup_cons.mpr ⟨fun hin => ?_, hs.nested⟩
      obtain ⟨f, hf, hsig⟩ := List.mem_map.mp hin
      exact hfree f hf hsig
    · by_cases hsig : sig = .sigchld
      · exact Or.inr ⟨_, List.mem_cons_self, hsig⟩
      · rcases hs.attended k hk with hp | ⟨f, hf, hdrain⟩
        · refine Or.inl ?_
          dsimp only
          rwa [Function.update_of_ne (Ne.symm hsig)]
        · exact Or.inr ⟨f, List.mem_cons_of_mem _ hf, hdrain⟩
  | go reported f frames s' hstack hhandled => exact hhandled.orderly hstack hs

theorem orderly_run {es : List (Event (State κ) (Act κ))} (h : Trace step start es s) :
    Orderly s := by
  have keep : ∀ (s : State κ) (a : Act κ) (t : State κ), Orderly s → True → step s a = some t →
      Orderly t := fun _ _ _ hs _ ht => (step_changes ht).orderly hs
  have hstart : Orderly (start : State κ) :=
    ⟨List.nodup_nil, fun _ hk => absurd rfl hk, fun _ hin => by cases hin⟩
  exact h.invariant keep hstart fun _ _ => trivial

/-- The children with news. -/
def State.unread (s : State κ) : Finset κ := Finset.univ.filter fun k => (s.child k).news ≠ none

def State.due (s : State κ) : Finset Signal := Finset.univ.filter fun sig => s.pending sig = true

/-- The steps that the parent can take by itself. -/
def State.owed (s : State κ) : Nat :=
  2 * s.unread.card + 4 * s.due.card + (s.stack.map fun f => f.place.left).sum

omit [DecidableEq κ] in
theorem unread_lt {t : State κ} {k : κ} (hother : ∀ i, i ≠ k → t.child i = s.child i)
    (hnews : (s.child k).news ≠ none) (htold : (t.child k).news = none) :
    t.unread.card < s.unread.card := by
  refine Finset.card_lt_card ((Finset.ssubset_iff_of_subset fun i hi => ?_).mpr ⟨k, ?_, ?_⟩)
  · have hi' : (t.child i).news ≠ none := (Finset.mem_filter.mp hi).2
    have hik : i ≠ k := by
      rintro rfl
      exact hi' htold
    rw [hother i hik] at hi'
    exact Finset.mem_filter.mpr ⟨Finset.mem_univ i, hi'⟩
  · exact Finset.mem_filter.mpr ⟨Finset.mem_univ k, hnews⟩
  · exact fun hk => (Finset.mem_filter.mp hk).2 htold

omit [DecidableEq κ] [Fintype κ] in
theorem due_lt {t : State κ} {sig : Signal} (hp : s.pending sig = true)
    (ht : t.pending = Function.update s.pending sig false) : t.due.card < s.due.card := by
  refine Finset.card_lt_card ((Finset.ssubset_iff_of_subset fun i hi => ?_).mpr ⟨sig, ?_, ?_⟩)
  · have hi' : t.pending i = true := (Finset.mem_filter.mp hi).2
    rw [ht] at hi'
    by_cases his : i = sig
    · subst his
      rw [Function.update_self] at hi'
      cases hi'
    · rw [Function.update_of_ne his] at hi'
      exact Finset.mem_filter.mpr ⟨Finset.mem_univ i, hi'⟩
  · exact Finset.mem_filter.mpr ⟨Finset.mem_univ sig, hp⟩
  · intro hin
    have hsig : t.pending sig = true := (Finset.mem_filter.mp hin).2
    rw [ht, Function.update_self] at hsig
    cases hsig

theorem Handled.owed_lt (h : Handled s f frames s') (hstack : s.stack = f :: frames) :
    s'.owed < s.owed := by
  unfold State.owed
  rw [hstack]
  cases h with
  | goes place lines hlt =>
    simp only [List.map_cons, List.sum_cons]
    change 2 * s.unread.card + 4 * s.due.card + _ < _
    omega
  | learns k status c hplace hnews =>
    have hlt : (State.unread ⟨Function.update s.child k c, s.pending,
        ⟨f.sig, .report k status⟩ :: frames, s.printed⟩).card < s.unread.card := by
      refine unread_lt (fun i hi => Function.update_of_ne hi _ _) (k := k) ?_ ?_
      · rw [hnews]
        exact Option.some_ne_none _
      · dsimp only
        rw [Function.update_self]
        exact Child.news_told hnews
    simp only [List.map_cons, List.sum_cons, hplace, Place.left]
    change 2 * _ + 4 * s.due.card + _ < _
    omega
  | finds hplace =>
    simp only [List.map_cons, List.sum_cons, hplace, Place.left]
    change 2 * s.unread.card + 4 * s.due.card + _ < _
    omega
  | returns hplace =>
    simp only [List.map_cons, List.sum_cons, hplace, Place.left]
    change 2 * s.unread.card + 4 * s.due.card + _ < _
    omega

theorem Changes.owed_lt {a : Act κ} (h : Changes s a s') (ha : a.Own) : s'.owed < s.owed := by
  cases h with
  | fork => exact absurd ha id
  | child a k c hno => exact absurd ha hno
  | send => exact absurd ha id
  | deliver sig hpending =>
    unfold State.owed
    have hlt := due_lt (t := ⟨s.child, Function.update s.pending sig false,
      ⟨sig, .dispatch⟩ :: s.stack, s.printed⟩) hpending rfl
    simp only [List.map_cons, List.sum_cons, Place.left]
    change 2 * s.unread.card + 4 * _ + _ < _
    omega
  | go reported f frames s' hstack hhandled => exact hhandled.owed_lt hstack

omit [DecidableEq κ] in
theorem Orderly.owed_le (hs : Orderly s) : s.owed ≤ 2 * Fintype.card κ + 21 := by
  have hunread : s.unread.card ≤ Fintype.card κ := Finset.card_le_univ _
  have hdue : s.due.card ≤ 3 := Finset.card_le_univ _
  have hframes : s.stack.length ≤ 3 := by
    have hle := hs.nested.length_le_card
    rwa [List.length_map] at hle
  have hleft : (s.stack.map fun f => f.place.left).sum ≤ (s.stack.map fun f => f.place.left).length * 3 := by
    refine List.sum_le_card_nsmul _ 3 fun n hn => ?_
    obtain ⟨f, -, rfl⟩ := List.mem_map.mp hn
    exact f.place.left_le
  rw [List.length_map] at hleft
  unfold State.owed
  omega

theorem runHandler_enabled (s : State κ) (f : Frame κ) (frames : List (Frame κ)) :
    ∃ reported, (runHandler s f frames reported).isSome := by
  obtain ⟨sig, place⟩ := f
  cases place with
  | dispatch =>
    refine ⟨none, ?_⟩
    simp only [runHandler, functionCallHandler_eq]
    cases sig <;> rfl
  | waitpid =>
    by_cases hnone : ∀ k, (s.child k).news = none
    · refine ⟨none, ?_⟩
      simp [runHandler, waitpid, hnone]
    · obtain ⟨k, hk⟩ := Classical.not_forall.mp hnone
      obtain ⟨r, hr⟩ := Option.ne_none_iff_exists'.mp hk
      refine ⟨some k, ?_⟩
      simp [runHandler, waitpid, hr]
  | announce | report | leave => exact ⟨none, rfl⟩

/-- Where the parent has nothing left to do by itself, its handlers have all returned. -/
theorem Orderly.rest (hs : Orderly s) (hstuck : ∀ a : Act κ, a.Own → step s a = none) :
    s.stack = [] ∧ (∀ sig, s.pending sig = false) ∧ ∀ k, (s.child k).news = none := by
  have hstack : s.stack = [] := by
    cases hstack : s.stack with
    | nil => rfl
    | cons f frames =>
      obtain ⟨reported, hgo⟩ := runHandler_enabled s f frames
      have hnone := hstuck (.go reported) trivial
      simp only [step, hstack] at hnone
      rw [hnone] at hgo
      cases hgo
  have hpending : ∀ sig, s.pending sig = false := by
    intro sig
    have hnone := hstuck (.deliver sig) trivial
    simp only [step, hstack] at hnone
    cases hp : s.pending sig with
    | false => rfl
    | true => simp [hp] at hnone
  refine ⟨hstack, hpending, fun k => ?_⟩
  by_contra hnews
  rcases hs.attended k hnews with hp | ⟨f, hf, -⟩
  · rw [hpending] at hp
    cases hp
  · rw [hstack] at hf
    cases hf

theorem accounted_run {es : List (Event (State κ) (Act κ))} (h : Trace step start es s) :
    Accounted s := by
  have keep : ∀ (s : State κ) (a : Act κ) (t : State κ), Accounted s → True → step s a = some t →
      Accounted t := fun _ _ _ hs _ ht => hs.step ht
  have hstart : Accounted (start : State κ) := ⟨fun _ _ hk => (by cases hk), fun _ => rfl⟩
  exact h.invariant keep hstart fun _ _ => trivial

omit [Fintype κ] in
theorem Accounted.all_told (hs : Accounted s) (hstack : s.stack = []) {k : κ}
    (hnews : (s.child k).news = none) {e : End} (he : (s.child k).ended = some e) :
    s.printed.filter (fun p => TellsEnd k p) = [line k (.ended e)] := by
  have htold := hs.told k
  rw [State.told, hstack, List.filterMap_nil, List.append_nil] at htold
  cases hc : s.child k with
  | reaped e' =>
    rw [hc] at he htold
    cases he
    exact htold
  | zombie =>
    rw [hc] at hnews
    cases hnews
  | unborn | running | stopped =>
    rw [hc] at he
    cases he

/-- Left to itself, the parent comes to rest in boundedly many steps, however its handlers nest:
all of them have returned then, no signal is pending, there is no news of any child, and each end has
been printed once and as it was. -/
theorem handlers_come_to_rest {es es' : List (Event (State κ) (Act κ))} {t : State κ}
    (h : Trace step start es s) (hrun : Trace step s es' t) (hown : ∀ e ∈ es', e.label.Own) :
    es'.length ≤ 2 * Fintype.card κ + 21 ∧
      ((∀ a : Act κ, a.Own → step t a = none) → t.stack = [] ∧ (∀ sig, t.pending sig = false) ∧
        (∀ k, (t.child k).news = none) ∧ (∀ sig, .noHandler sig ∉ t.printed) ∧
        ∀ k e, (t.child k).ended = some e →
          t.printed.filter (fun p => TellsEnd k p) = [line k (.ended e)]) := by
  have hs := orderly_run h
  have ht := orderly_run (h.append hrun)
  have lower : ∀ (s : State κ) (a : Act κ) (t : State κ), True → a.Own → step s a = some t →
      True ∧ t.owed < s.owed := fun _ _ _ _ ha ht => ⟨trivial, (step_changes ht).owed_lt ha⟩
  have hcount : es'.length + t.owed ≤ s.owed := hrun.length_le_of lower trivial hown
  have hbound := hs.owed_le
  refine ⟨by omega, fun hstuck => ?_⟩
  obtain ⟨hstack, hpending, hnews⟩ := ht.rest hstuck
  exact ⟨hstack, hpending, hnews, ht.known, fun k e he =>
    (accounted_run (h.append hrun)).all_told hstack (hnews k) he⟩

end

/-- Both children have exited and a `SIGINT` is pending too. -/
def interrupted : State Bool := last step start (coalesced.take 5)

theorem interrupted_rest :
    (record step interrupted (coalesced.drop 5)).length = 12 ∧
    (last step interrupted (coalesced.drop 5)).printed.filter (fun p => TellsEnd true p) =
      [line true (.ended (.exited 11))] := by
  have hown : ∀ e ∈ record step interrupted (coalesced.drop 5), e.label.Own := by
    have hall : ∀ a ∈ coalesced.drop 5, a.Own := by decide
    exact fun e he => hall e.label (label_mem_of_record he)
  have hstuck : ∀ a : Act Bool, a.Own → step (last step interrupted (coalesced.drop 5)) a = none := by
    intro a ha
    cases a with
    | deliver sig => cases sig <;> rfl
    | go reported => rfl
    | fork | exit | kill | stop | cont | send => cases ha
  have hrest := handlers_come_to_rest (Trace.recorded step start (coalesced.take 5))
    (Trace.recorded step interrupted (coalesced.drop 5)) hown
  exact ⟨rfl, (hrest.2 hstuck).2.2.2.2 true (.exited 11) rfl⟩

end LinuxAssignment.ChildReaping
