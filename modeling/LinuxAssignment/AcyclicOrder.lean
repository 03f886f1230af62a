import Mathlib.Data.Fintype.Pigeonhole
import Mathlib.Data.List.Sort
import Mathlib.Dynamics.PeriodicPts.Defs

namespace AcyclicOrder

open Function

variable {κ : Type*} {f : κ → κ} {order rest : List κ} {k : κ}

/-- The only cycles of `f` are its fixed points. -/
def Acyclic (f : κ → κ) : Prop := periodicPts f ⊆ fixedPoints f

/-- Each entry is taken to itself or to a later one. -/
def Forward (f : κ → κ) : List κ → Prop
  | [] => True
  | k :: rest => f k ∈ k :: rest ∧ Forward f rest

theorem Forward.mem (h : Forward f order) (hk : k ∈ order) : f k ∈ order := by
  induction order with
  | nil => cases hk
  | cons j rest ih =>
    obtain ⟨hj, hrest⟩ := h
    rcases List.mem_cons.mp hk with rfl | hk
    · exact hj
    · exact List.mem_cons_of_mem j (ih hrest hk)

theorem forward_of_splits (h : ∀ past k later, order = past ++ k :: later → f k ∈ k :: later) :
    Forward f order := by
  induction order with
  | nil => trivial
  | cons j rest ih =>
    refine ⟨h [] j rest rfl, ih fun past k later hsplit => ?_⟩
    exact h (j :: past) k later (by rw [hsplit, List.cons_append])

theorem rank_le_iterate {rank : κ → Nat} (h : ∀ k, f k = k ∨ rank k < rank (f k)) (k : κ) (n : Nat) :
    rank k ≤ rank (f^[n] k) := by
  induction n with
  | zero => exact Nat.le_refl _
  | succ n ih =>
    rw [iterate_succ_apply']
    rcases h (f^[n] k) with hfix | hlt
    · rw [hfix]
      exact ih
    · exact ih.trans (Nat.le_of_lt hlt)

theorem acyclic_of_rank (rank : κ → Nat) (h : ∀ k, f k = k ∨ rank k < rank (f k)) : Acyclic f := by
  intro k hk
  obtain ⟨n, hn, hperiod⟩ := hk
  rcases h k with hfix | hlt
  · exact hfix
  · obtain ⟨n, rfl⟩ := Nat.exists_eq_succ_of_ne_zero (Nat.ne_of_gt hn)
    have hle := rank_le_iterate h (f k) n
    have hback : f^[n] (f k) = k := hperiod
    rw [hback] at hle
    omega

theorem Forward.rank [DecidableEq κ] (h : Forward f order) (hnodup : order.Nodup) (hk : k ∈ order) :
    f k = k ∨ order.idxOf k < order.idxOf (f k) := by
  induction order with
  | nil => cases hk
  | cons j rest ih =>
    obtain ⟨hj, hrest⟩ := h
    obtain ⟨hout, hnodup⟩ := List.nodup_cons.mp hnodup
    have later : ∀ i ∈ rest, (j :: rest).idxOf i = rest.idxOf i + 1 := by
      intro i hi
      exact List.idxOf_cons_ne rest fun he => hout (he ▸ hi)
    rcases List.mem_cons.mp hk with rfl | hk
    · rcases List.mem_cons.mp hj with hfix | hj
      · exact Or.inl hfix
      · rw [List.idxOf_cons_self, later _ hj]
        exact Or.inr (Nat.succ_pos _)
    · rw [later k hk, later _ (hrest.mem hk)]
      exact (ih hrest hnodup hk).imp_right Nat.succ_lt_succ

theorem Forward.acyclic (h : Forward f order) (hnodup : order.Nodup)
    (hout : ∀ k, k ∉ order → f k = k) : Acyclic f := by
  classical
  refine acyclic_of_rank order.idxOf fun k => ?_
  by_cases hk : k ∈ order
  · exact h.rank hnodup hk
  · exact Or.inl (hout k hk)

section

variable [Finite κ]

theorem Acyclic.settles (h : Acyclic f) (k : κ) : ∃ n, f^[n] k ∈ fixedPoints f := by
  obtain ⟨a, b, hne, heq⟩ := Finite.exists_ne_map_eq_of_infinite fun n : Nat => f^[n] k
  have periodic : ∀ {m n : Nat}, m < n → f^[m] k = f^[n] k → f^[m] k ∈ fixedPoints f := by
    intro m n hlt hmn
    refine h ⟨n - m, Nat.sub_pos_of_lt hlt, ?_⟩
    have hback : f^[n - m] (f^[m] k) = f^[n] k := by
      rw [← iterate_add_apply, Nat.sub_add_cancel (Nat.le_of_lt hlt)]
    exact hback.trans hmn.symm
  rcases Nat.lt_or_gt_of_ne hne with hlt | hlt
  · exact ⟨a, periodic hlt heq⟩
  · exact ⟨b, periodic hlt heq.symm⟩

/-- How often `f` is applied until a fixed point is reached. -/
noncomputable def depth (h : Acyclic f) (k : κ) : Nat := by
  classical exact Nat.find (h.settles k)

theorem Acyclic.depth_lt (h : Acyclic f) (hk : f k ≠ k) : depth h (f k) < depth h k := by
  classical
  have hfound : f^[depth h k] k ∈ fixedPoints f := Nat.find_spec (h.settles k)
  cases hd : depth h k with
  | zero =>
    rw [hd] at hfound
    exact absurd hfound hk
  | succ n =>
    rw [hd] at hfound
    have hle : depth h (f k) ≤ n := Nat.find_min' (h.settles (f k)) hfound
    omega

/-- Sorted by falling depth, a list that `f` keeps to is forward. -/
theorem Acyclic.forward (h : Acyclic f) (hsorted : order.Pairwise fun a b => depth h b ≤ depth h a)
    (hmem : ∀ k ∈ order, f k ∈ order) : Forward f order := by
  induction order with
  | nil => trivial
  | cons j rest ih =>
    obtain ⟨hj, hrest⟩ := List.pairwise_cons.mp hsorted
    refine ⟨hmem j List.mem_cons_self, ih hrest fun k hk => ?_⟩
    rcases List.mem_cons.mp (hmem k (List.mem_cons_of_mem j hk)) with hback | hin
    · by_cases hfix : f k = k
      · rwa [hfix]
      · have hlt := h.depth_lt hfix
        have hle := hj k hk
        rw [hback] at hlt
        omega
    · exact hin

theorem Acyclic.exists_forward [Fintype κ] (h : Acyclic f) :
    ∃ order : List κ, order.Nodup ∧ (∀ k, k ∈ order) ∧ Forward f order := by
  classical
  let deeper : κ → κ → Prop := Order.Preimage (depth h) (· ≥ ·)
  have hperm : (Finset.univ.toList.insertionSort deeper).Perm (Finset.univ : Finset κ).toList :=
    List.perm_insertionSort deeper _
  have hall : ∀ k, k ∈ Finset.univ.toList.insertionSort deeper := fun k =>
    hperm.mem_iff.mpr (Finset.mem_toList.mpr (Finset.mem_univ k))
  have hsorted := List.pairwise_insertionSort deeper (Finset.univ : Finset κ).toList
  exact ⟨_, hperm.nodup_iff.mpr (Finset.nodup_toList _), hall,
    h.forward hsorted fun k _ => hall (f k)⟩

end

end AcyclicOrder
