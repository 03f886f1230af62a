import Mathlib.Algebra.BigOperators.Group.Finset.Basic
import Mathlib.Algebra.BigOperators.Ring.Finset
import Mathlib.Algebra.Order.BigOperators.Group.Finset
import Mathlib.Algebra.Ring.Nat
import Mathlib.Data.Fintype.BigOperators
import Mathlib.Logic.Relation

namespace RacyCounter

open Relation

/-- Threads that increment a counter with a load and a store and no lock: how often each has done
so, and what it has loaded and not yet stored again. -/
structure Race (τ : Type*) where
  counter : Nat
  done : τ → Nat
  held : τ → Option Nat

section

variable {τ : Type*} [DecidableEq τ]

def Race.load (t : τ) (s : Race τ) : Race τ :=
  { s with held := Function.update s.held t (some s.counter) }

def Race.store (t : τ) (v : Nat) (s : Race τ) : Race τ :=
  ⟨v + 1, Function.update s.done t (s.done t + 1), Function.update s.held t none⟩

/-- A step of a thread that has `num` increments to do. -/
inductive Moves (num : Nat) (s : Race τ) : Race τ → Prop
  | load {t} : s.held t = none → s.done t < num → Moves num s (s.load t)
  | store {t v} : s.held t = some v → Moves num s (s.store t v)

omit [DecidableEq τ] in
def Race.start : Race τ := ⟨0, fun _ => 0, fun _ => none⟩

omit [DecidableEq τ] in
def Race.Over (num : Nat) (s : Race τ) : Prop := ∀ t, s.held t = none ∧ s.done t = num

/-- The counter is at most the number of stores, and `1` or more from the first of them on; a thread
that stores for the last of several times has loaded at least `1`. -/
structure Bounded [Fintype τ] (num : Nat) (s : Race τ) : Prop where
  done_le : ∀ t, s.done t ≤ num
  pending : ∀ t v, s.held t = some v → s.done t < num
  begun : ∀ t, 1 ≤ s.done t → 1 ≤ s.counter
  held_begun : ∀ t v, s.held t = some v → 1 ≤ s.done t → 1 ≤ v
  counter_le : s.counter ≤ ∑ t, s.done t
  held_le : ∀ t v, s.held t = some v → v ≤ ∑ t, s.done t
  enough : (∀ t, s.done t = num) → min 2 num ≤ s.counter

variable {num : Nat} {s s' : Race τ} {t u : τ} {v k : Nat}

theorem held_load {w : Nat} (h : (s.load t).held u = some w) :
    u = t ∧ w = s.counter ∨ s.held u = some w := by
  unfold Race.load at h
  dsimp only at h
  by_cases hut : u = t
  · subst hut
    rw [Function.update_self] at h
    exact Or.inl ⟨rfl, (Option.some.inj h).symm⟩
  · exact Or.inr (by rwa [Function.update_of_ne hut] at h)

theorem held_store {w : Nat} (h : (s.store t v).held u = some w) :
    u ≠ t ∧ s.held u = some w := by
  unfold Race.store at h
  dsimp only at h
  by_cases hut : u = t
  · subst hut
    rw [Function.update_self] at h
    cases h
  · exact ⟨hut, by rwa [Function.update_of_ne hut] at h⟩

section

variable [Fintype τ]

omit [DecidableEq τ] in
theorem start_bounded [Nonempty τ] (num : Nat) : Bounded num (Race.start : Race τ) where
  done_le := fun _ => Nat.zero_le num
  pending := nofun
  begun := nofun
  held_begun := nofun
  counter_le := Nat.zero_le _
  held_le := nofun
  enough := by
    intro hall
    obtain ⟨t⟩ := ‹Nonempty τ›
    have hzero : 0 = num := hall t
    exact hzero ▸ Nat.zero_le _

theorem Bounded.load (hs : Bounded num s) (hlt : s.done t < num) : Bounded num (s.load t) where
  done_le := hs.done_le
  begun := hs.begun
  counter_le := hs.counter_le
  enough := hs.enough
  pending := by
    intro u w hu
    rcases held_load hu with ⟨rfl, -⟩ | hu
    · exact hlt
    · exact hs.pending u w hu
  held_begun := by
    intro u w hu hone
    rcases held_load hu with ⟨rfl, rfl⟩ | hu
    · exact hs.begun u hone
    · exact hs.held_begun u w hu hone
  held_le := by
    intro u w hu
    rcases held_load hu with ⟨-, rfl⟩ | hu
    · exact hs.counter_le
    · exact hs.held_le u w hu

theorem total_store (s : Race τ) (t : τ) (v : Nat) :
    ∑ u, (s.store t v).done u = ∑ u, s.done u + 1 := by
  simp only [Race.store, Finset.sum_update_of_mem (Finset.mem_univ t),
    Finset.sdiff_singleton_eq_erase]
  have hsplit := Finset.add_sum_erase Finset.univ s.done (Finset.mem_univ t)
  omega

theorem Bounded.store (hs : Bounded num s) (hv : s.held t = some v) :
    Bounded num (s.store t v) := by
  have hlt := hs.pending t v hv
  have htotal := total_store s t v
  have hself : (s.store t v).done t = s.done t + 1 := Function.update_self _ _ _
  have hother : ∀ u, u ≠ t → (s.store t v).done u = s.done u := fun u hut =>
    Function.update_of_ne hut _ _
  refine ⟨fun u => ?_, fun u w hu => ?_, fun _ _ => Nat.succ_pos v, fun u w hu hone => ?_, ?_,
    fun u w hu => ?_, fun hall => ?_⟩
  · by_cases hut : u = t
    · rw [hut, hself]
      omega
    · rw [hother u hut]
      exact hs.done_le u
  · obtain ⟨hut, hw⟩ := held_store hu
    rw [hother u hut]
    exact hs.pending u w hw
  · obtain ⟨hut, hw⟩ := held_store hu
    exact hs.held_begun u w hw (hother u hut ▸ hone)
  · have hle := hs.held_le t v hv
    rw [htotal]
    exact Nat.succ_le_succ hle
  · have hle := hs.held_le u w (held_store hu).2
    omega
  · have hlast := hall t
    have hone := hs.held_begun t v hv
    change min 2 num ≤ v + 1
    omega

theorem Bounded.run [Nonempty τ] (h : ReflTransGen (Moves num) Race.start s) : Bounded num s := by
  induction h with
  | refl => exact start_bounded num
  | tail _ hmove ih =>
    cases hmove with
    | load _ hlt => exact ih.load hlt
    | store hv => exact ih.store hv

omit [DecidableEq τ] in
theorem Bounded.counter_le_card (hs : Bounded num s) : s.counter ≤ Fintype.card τ * num := by
  have htotal : ∑ t, s.done t ≤ Fintype.card τ • num :=
    Finset.sum_le_card_nsmul Finset.univ s.done num fun t _ => hs.done_le t
  exact hs.counter_le.trans htotal

omit [DecidableEq τ] in
theorem Bounded.over (hs : Bounded num s) (hover : s.Over num) : min 2 num ≤ s.counter :=
  hs.enough fun t => (hover t).2

end

variable (num) in
theorem load_goes (hheld : s.held t = none) (hlt : s.done t < num) :
    ∃ s', ReflTransGen (Moves num) s s' ∧ s'.counter = s.counter ∧ s'.done = s.done ∧
      s'.held t = some s.counter ∧ ∀ u, u ≠ t → s'.held u = s.held u :=
  ⟨s.load t, .single (.load hheld hlt), rfl, rfl, Function.update_self _ _ _,
    fun _ hut => Function.update_of_ne hut _ _⟩

variable (num) in
theorem store_goes (hv : s.held t = some v) :
    ∃ s', ReflTransGen (Moves num) s s' ∧ s'.counter = v + 1 ∧ s'.done t = s.done t + 1 ∧
      s'.held t = none ∧ ∀ u, u ≠ t → s'.done u = s.done u ∧ s'.held u = s.held u :=
  ⟨s.store t v, .single (.store hv), rfl, Function.update_self _ _ _, Function.update_self _ _ _,
    fun _ hut => ⟨Function.update_of_ne hut _ _, Function.update_of_ne hut _ _⟩⟩

variable (num) in
/-- A thread that is not interfered with counts right. -/
theorem alone_goes (k : Nat) (hheld : s.held t = none) (hle : s.done t + k ≤ num) :
    ∃ s', ReflTransGen (Moves num) s s' ∧ s'.counter = s.counter + k ∧ s'.done t = s.done t + k ∧
      s'.held t = none ∧ ∀ u, u ≠ t → s'.done u = s.done u ∧ s'.held u = s.held u := by
  induction k with
  | zero => exact ⟨s, .refl, rfl, rfl, hheld, fun _ _ => ⟨rfl, rfl⟩⟩
  | succ k ih =>
    obtain ⟨s1, hrun1, hcounter1, hdone1, hheld1, hother1⟩ := ih (by omega)
    obtain ⟨s2, hrun2, hcounter2, hdone2, hheld2, hother2⟩ :=
      load_goes num hheld1 (by omega)
    obtain ⟨s3, hrun3, hcounter3, hdone3, hheld3, hother3⟩ := store_goes num hheld2
    refine ⟨s3, (hrun1.trans hrun2).trans hrun3, by omega, ?_, hheld3, fun u hut => ?_⟩
    · rw [hdone3, hdone2]
      omega
    · rw [(hother3 u hut).1, (hother3 u hut).2, hdone2, hother2 u hut]
      exact hother1 u hut

/-- Two threads lose all but two of their remaining increments: each stores behind the other's, what
it has loaded before them. -/
theorem collapse_goes (htu : t ≠ u) (ht : s.held t = none) (hu : s.held u = none)
    (hlt : s.done t < num) (hlu : s.done u < num) :
    ∃ s', ReflTransGen (Moves num) s s' ∧ s'.counter = s.counter + 2 ∧ s'.done t = num ∧
      s'.done u = num ∧ s'.held t = none ∧ s'.held u = none := by
  have hut := htu.symm
  obtain ⟨s1, hrun1, hcounter1, hdone1, hheld1, hother1⟩ := load_goes num ht hlt
  obtain ⟨s2, hrun2, -, hdone2, hheld2, hother2⟩ :=
    alone_goes num (num - 1 - s.done u) ((hother1 u hut).trans hu)
      (by rw [hdone1]; omega)
  obtain ⟨s3, hrun3, hcounter3, hdone3, hheld3, hother3⟩ :=
    store_goes num ((hother2 t htu).2.trans hheld1)
  obtain ⟨s4, hrun4, hcounter4, hdone4, hheld4, hother4⟩ :=
    load_goes num ((hother3 u hut).2.trans hheld2)
      (by rw [(hother3 u hut).1, hdone2, hdone1]; omega)
  have hdone4t : s4.done t = s.done t + 1 := by
    rw [hdone4, hdone3, (hother2 t htu).1, hdone1]
  have hdone4u : s4.done u + 1 = num := by
    rw [hdone4, (hother3 u hut).1, hdone2, hdone1]
    omega
  obtain ⟨s5, hrun5, -, hdone5, hheld5, hother5⟩ :=
    alone_goes num (num - 1 - s.done t) ((hother4 t htu).trans hheld3)
      (by rw [hdone4t]; omega)
  obtain ⟨s6, hrun6, hcounter6, hdone6, hheld6, hother6⟩ :=
    store_goes num ((hother5 u hut).2.trans hheld4)
  refine ⟨s6, ((((hrun1.trans hrun2).trans hrun3).trans hrun4).trans hrun5).trans hrun6, ?_, ?_,
    ?_, (hother6 t htu).2.trans hheld5, hheld6⟩
  · rw [hcounter6, hcounter3]
  · rw [(hother6 t htu).1, hdone5, hdone4t]
    omega
  · rw [hdone6, (hother5 u hut).1, hdone4u]

/-- Two threads can end with every value from `2`, or `num` if that is less, to `2 * num`. -/
theorem over_goes {t u : τ} (htu : t ≠ u) (hall : ∀ w, w = t ∨ w = u) (hlow : min 2 num ≤ v)
    (hhigh : v ≤ 2 * num) :
    ∃ s : Race τ, ReflTransGen (Moves num) Race.start s ∧ s.Over num ∧ s.counter = v := by
  have hut := htu.symm
  have finished : ∀ s : Race τ, s.done t = num → s.done u = num → s.held t = none → s.held u = none →
      s.Over num := by
    intro s hdt hdu ht hu w
    rcases hall w with rfl | rfl
    · exact ⟨ht, hdt⟩
    · exact ⟨hu, hdu⟩
  by_cases htwo : 2 ≤ v
  · obtain ⟨a, b, ha, hb, rfl⟩ : ∃ a b, a < num ∧ b < num ∧ v = a + b + 2 := by
      by_cases hv : v - 2 < num
      · exact ⟨v - 2, 0, hv, by omega, by omega⟩
      · exact ⟨num - 1, v - 2 - (num - 1), by omega, by omega, by omega⟩
    obtain ⟨s1, hrun1, hcounter1, hdone1, hheld1, hother1⟩ :=
      alone_goes (s := Race.start) (t := t) num a rfl
        ((Nat.zero_add a).symm ▸ ha.le)
    obtain ⟨hdoneu, hheldu⟩ := hother1 u hut
    obtain ⟨s2, hrun2, hcounter2, hdone2, hheld2, hother2⟩ :=
      alone_goes num b hheldu (by rw [hdoneu]; exact (Nat.zero_add b).symm ▸ hb.le)
    obtain ⟨s3, hrun3, hcounter3, hdt, hdu, ht, hu⟩ :=
      collapse_goes htu ((hother2 t htu).2.trans hheld1) hheld2
        (by rw [(hother2 t htu).1, hdone1]; exact (Nat.zero_add a).symm ▸ ha)
        (by rw [hdone2, hdoneu]; exact (Nat.zero_add b).symm ▸ hb)
    refine ⟨s3, (hrun1.trans hrun2).trans hrun3, finished s3 hdt hdu ht hu, ?_⟩
    rw [hcounter3, hcounter2, hcounter1]
    exact congrArg (· + b + 2) (Nat.zero_add a)
  · have hcases : v = 0 ∧ num = 0 ∨ v = 1 ∧ num = 1 := by omega
    rcases hcases with ⟨rfl, rfl⟩ | ⟨rfl, rfl⟩
    · exact ⟨Race.start, .refl, fun _ => ⟨rfl, rfl⟩, rfl⟩
    · obtain ⟨s1, hrun1, hcounter1, hdone1, hheld1, hother1⟩ :=
        load_goes (s := Race.start) (t := t) 1 rfl Nat.one_pos
      obtain ⟨s2, hrun2, hcounter2, hdone2, hheld2, hother2⟩ :=
        load_goes 1 (hother1 u hut) (by rw [hdone1]; exact Nat.one_pos)
      obtain ⟨s3, hrun3, -, hdone3, hheld3, hother3⟩ :=
        store_goes 1 ((hother2 t htu).trans hheld1)
      obtain ⟨s4, hrun4, hcounter4, hdone4, hheld4, hother4⟩ :=
        store_goes 1 ((hother3 u hut).2.trans hheld2)
      refine ⟨s4, ((hrun1.trans hrun2).trans hrun3).trans hrun4, finished s4 ?_ ?_ ?_ hheld4, ?_⟩
      · rw [(hother4 t htu).1, hdone3, hdone2, hdone1]
        rfl
      · rw [hdone4, (hother3 u hut).1, hdone2, hdone1]
        rfl
      · exact (hother4 t htu).2.trans hheld3
      · rw [hcounter4, hcounter1]
        rfl

end

end RacyCounter
