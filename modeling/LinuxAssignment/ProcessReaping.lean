import LinuxAssignment.ProcessTree

namespace LinuxAssignment.ProcessTree

open StepSystem

section

variable {x y : Nat} {pgid : Int} {s s' : State} {a : Act} {j k c i : Nat} {p q : Process}
  {role : Role} {creator : Option Nat} {own pid : Int} {slots slots' junk : Nat → Int}
  {life life' : Life} {pc : Pc}

/-- What a change of one process leaves alone. -/
theorem set_old (hk : s[k]? = some ⟨role, creator, own, slots, life⟩)
    (hlife : ∀ r, life ≠ .reaped r)
    (h : (s.set k ⟨role, creator, own, slots', life'⟩)[j]? = some q) :
    ∃ q₀, s[j]? = some q₀ ∧ q.role = q₀.role ∧ q.creator = q₀.creator ∧ q.pid = q₀.pid ∧
      (q.Present → q₀.Present) := by
  rcases get_set h with ⟨rfl, rfl⟩ | ⟨-, h⟩
  · exact ⟨_, hk, rfl, rfl, rfl, fun _ => hlife⟩
  · exact ⟨q, h, rfl, rfl, rfl, id⟩

theorem set_new (hk : s[k]? = some ⟨role, creator, own, slots, life⟩) (h : s[j]? = some q) :
    ∃ q₁, (s.set k ⟨role, creator, own, slots', life'⟩)[j]? = some q₁ ∧ q₁.role = q.role ∧
      q₁.creator = q.creator := by
  by_cases hj : j = k
  · subst hj
    cases hk.symm.trans h
    exact ⟨_, set_get hk, rfl, rfl⟩
  · exact ⟨q, (set_get_ne hj).trans h, rfl, rfl⟩

theorem Tree.change (hs : Tree x y s) (hk : s[k]? = some ⟨role, creator, own, slots, life⟩)
    (hlife : ∀ r, life ≠ .reaped r)
    (hreaped : ∀ r, life' = .reaped r → creator ≠ none ∧ r = creator)
    (hawaits : ∀ (c : Nat) (q : Process), s[c]? = some q → q.creator = some k → q.Present →
      Process.Awaits x y ⟨role, creator, own, slots, life⟩ q.pid →
      Process.Awaits x y ⟨role, creator, own, slots', life'⟩ q.pid) :
    Tree x y (s.set k ⟨role, creator, own, slots', life'⟩) where
  root := by
    obtain ⟨p, hp, hrole, hcreator⟩ := hs.root
    obtain ⟨p', hp', hrole', hcreator'⟩ := set_new hk hp
    exact ⟨p', hp', hrole'.trans hrole, hcreator'.trans hcreator⟩
  born := by
    intro c q hc hne
    obtain ⟨q₀, hc₀, hrole, hcreator, hpid, -⟩ := set_old hk hlife hc
    obtain ⟨hpos, j, p, hj, hp, hborn⟩ := hs.born hc₀ hne
    obtain ⟨p', hp', hrole', -⟩ := set_new hk hp
    exact ⟨hpid ▸ hpos, j, p', hcreator.trans hj, hp', by rw [hrole, hborn, hrole']⟩
  pids := by
    intro i j p q hp hq hpp hqp hpid
    obtain ⟨p₀, hp₀, -, -, hpid₀, hpres₀⟩ := set_old hk hlife hp
    obtain ⟨q₀, hq₀, -, -, hqid₀, hqres₀⟩ := set_old hk hlife hq
    exact hs.pids hp₀ hq₀ (hpres₀ hpp) (hqres₀ hqp) (hpid₀.symm.trans (hpid.trans hqid₀))
  awaited := by
    intro c j p q hc hcreator hp hpres
    obtain ⟨q₀, hc₀, -, hcreator₀, hpid₀, hpres₀⟩ := set_old hk hlife hc
    rw [hpid₀]
    rcases get_set hp with ⟨rfl, rfl⟩ | ⟨-, hp⟩
    · exact hawaits c q₀ hc₀ (hcreator₀ ▸ hcreator) (hpres₀ hpres)
        (hs.awaited hc₀ (hcreator₀ ▸ hcreator) hk (hpres₀ hpres))
    · exact hs.awaited hc₀ (hcreator₀ ▸ hcreator) hp (hpres₀ hpres)
  reaped := by
    intro c q r hc hr
    rcases get_set hc with ⟨rfl, rfl⟩ | ⟨-, hc⟩
    · exact hreaped r hr
    · exact hs.reaped hc hr

theorem get_append {l : State} (h : (l ++ [p])[j]? = some q) :
    l[j]? = some q ∨ j = l.length ∧ q = p := by
  rcases Nat.lt_trichotomy j l.length with hj | hj | hj
  · exact Or.inl (by rwa [List.getElem?_append_left hj] at h)
  · rw [List.getElem?_append_right (Nat.le_of_eq hj.symm), hj, Nat.sub_self] at h
    exact Or.inr ⟨hj, (Option.some.inj h).symm⟩
  · rw [List.getElem?_append_right (Nat.le_of_lt hj), List.getElem?_eq_none (by simp; omega)] at h
    cases h

theorem append_get (h : s[j]? = some q) : (s ++ [p])[j]? = some q := by
  obtain ⟨hlt, -⟩ := List.getElem?_eq_some_iff.mp h
  rwa [List.getElem?_append_left hlt]

theorem ne_length (h : s[j]? = some q) : j ≠ s.length := by
  obtain ⟨hlt, -⟩ := List.getElem?_eq_some_iff.mp h
  exact Nat.ne_of_lt hlt

/-- Each creator is an earlier process. -/
theorem Tree.creator_exists (hs : Tree x y s) (hc : s[c]? = some q) (hcreator : q.creator = some k) :
    ∃ p, s[k]? = some p := by
  by_cases h0 : c = 0
  · subst h0
    obtain ⟨p, hp, -, hnone⟩ := hs.root
    cases hc.symm.trans hp
    rw [hnone] at hcreator
    cases hcreator
  · obtain ⟨-, j, p, hj, hp, -⟩ := hs.born hc h0
    cases hcreator.symm.trans hj
    exact ⟨p, hp⟩

theorem Tree.spawn (hs : Tree x y s) (hk : s[k]? = some p) (hawaits : p.Awaits x y pid)
    (hpid : 0 < pid) (hfresh : ∀ q ∈ s, q.Present → q.pid ≠ pid) :
    Tree x y (s ++ [⟨p.role.born, some k, pid, junk, .running pc⟩]) where
  root := by
    obtain ⟨r, hr, hrest⟩ := hs.root
    exact ⟨r, append_get hr, hrest⟩
  born := by
    intro c q hc hne
    rcases get_append hc with hc | ⟨-, rfl⟩
    · obtain ⟨hpos, j, r, hj, hr, hborn⟩ := hs.born hc hne
      exact ⟨hpos, j, r, hj, append_get hr, hborn⟩
    · exact ⟨hpid, k, p, rfl, append_get hk, rfl⟩
  pids := by
    intro i j q r hq hr hqp hrp heq
    rcases get_append hq with hq | ⟨hi, rfl⟩ <;> rcases get_append hr with hr | ⟨hj, rfl⟩
    · exact hs.pids hq hr hqp hrp heq
    · exact absurd heq (hfresh q (List.mem_of_getElem? hq) hqp)
    · exact absurd heq.symm (hfresh r (List.mem_of_getElem? hr) hrp)
    · exact hi.trans hj.symm
  awaited := by
    intro c j r q hc hcreator hr hpres
    rcases get_append hr with hr | ⟨rfl, rfl⟩ <;> rcases get_append hc with hc | ⟨-, rfl⟩
    · exact hs.awaited hc hcreator hr hpres
    · cases Option.some.inj hcreator
      cases hk.symm.trans hr
      exact hawaits
    · obtain ⟨r, hr⟩ := hs.creator_exists hc hcreator
      exact absurd rfl (ne_length hr)
    · exact absurd (Option.some.inj hcreator) (ne_length hk)
  reaped := by
    intro c q r hc hr
    rcases get_append hc with hc | ⟨-, rfl⟩
    · exact hs.reaped hc hr
    · cases hr

theorem Tree.of_fork (hs : Tree x y s) (hk : s[k]? = some ⟨role, creator, own, slots, .running (.fork i)⟩)
    (hi : i < limit x y role) (hpid : 0 < pid) (hfresh : ∀ q ∈ s, q.Present → q.pid ≠ pid) :
    Tree x y (s.set k
      ⟨role, creator, own, Function.update slots i pid, .running (.fork (i + 1))⟩ ++
        [⟨role.born, some k, pid, junk, .running pc⟩]) := by
  have hset : Tree x y (s.set k
      ⟨role, creator, own, Function.update slots i pid, .running (.fork (i + 1))⟩) := by
    refine hs.change hk nofun nofun fun c q hc hcreator hpres ⟨j, hj, hslot, hlt⟩ => ?_
    have hlt : j < i := hlt
    exact ⟨j, hj, (Function.update_of_ne (Nat.ne_of_lt hlt) _ _).trans hslot, Nat.lt_succ_of_lt hlt⟩
  refine hset.spawn (set_get hk) ⟨i, hi, Function.update_self _ _ _, Nat.lt_succ_self i⟩ hpid ?_
  intro q hq hpres
  obtain ⟨j, hj⟩ := List.mem_iff_getElem?.mp hq
  obtain ⟨q₀, hj₀, -, -, hpid₀, hpres₀⟩ := set_old hk nofun hj
  rw [hpid₀]
  exact hfresh q₀ (List.mem_of_getElem? hj₀) (hpres₀ hpres)

/-- A wait that has come back leaves no process with the id it asked for. -/
theorem Tree.waited (hs : Tree x y s)
    (hk : s[k]? = some ⟨role, creator, own, slots, .running (.wait i)⟩)
    (hgone : ∀ (c : Nat) (q : Process), s[c]? = some q → q.creator = some k → q.Present →
      q.pid ≠ slots i) :
    Tree x y (s.set k ⟨role, creator, own, slots, .running (.wait (i + 1))⟩) := by
  refine hs.change hk nofun nofun fun c q hc hcreator hpres ⟨j, hj, hslot, hle⟩ => ?_
  have hle : i ≤ j := hle
  have hne : i ≠ j := by
    rintro rfl
    exact hgone c q hc hcreator hpres hslot.symm
  exact ⟨j, hj, hslot, Nat.lt_of_le_of_ne hle hne⟩

theorem Tree.child_positive (hs : Tree x y s) (hc : s[c]? = some q) (hcreator : q.creator = some k) :
    0 < q.pid := by
  refine (hs.born hc ?_).1
  rintro rfl
  obtain ⟨p, hp, -, hnone⟩ := hs.root
  cases hc.symm.trans hp
  rw [hnone] at hcreator
  cases hcreator

theorem matches_self (pgid : Int) (h : 0 < pid) : Matches pgid pid pid := by
  simp [Matches, h]

theorem Tree.reap (hs : Tree x y s)
    (hc : s[c]? = some ⟨role, some k, own, slots, .zombie⟩) :
    Tree x y (s.set c ⟨role, some k, own, slots, .reaped (some k)⟩) := by
  refine hs.change hc nofun (fun r hr => ?_) fun _ _ _ _ _ hawaits => ?_
  · cases hr
    exact ⟨nofun, rfl⟩
  · obtain ⟨_, -, -, hkeeps⟩ := hawaits
    exact absurd hkeeps id

theorem not_proceed_keeps (h : proceed x y role pc = some life)
    (hawaits : Process.Awaits x y ⟨role, creator, own, slots, .running pc⟩ pid) :
    Process.Awaits x y ⟨role, creator, own, slots, life⟩ pid := by
  obtain ⟨j, hj, hslot, hkeeps⟩ := hawaits
  cases pc with
  | fork i =>
    simp only [proceed] at h
    split at h
    next => cases h
    next =>
      cases h
      exact ⟨j, hj, hslot, Nat.zero_le j⟩
  | wait i =>
    have hle : i ≤ j := hkeeps
    have hlt : j < limit x y role := hj
    simp only [proceed] at h
    split at h
    next => cases h
    next => omega
  | created | sleep | message | exit => exact absurd hkeeps id

theorem proceed_present (h : proceed x y role pc = some life) : ∀ r, life ≠ .reaped r := by
  intro r hr
  subst hr
  cases pc <;> simp only [proceed] at h
  case fork | wait => split at h <;> cases h
  all_goals cases h

theorem Tree.step (hs : Tree x y s) (h : step x y pgid s a = some s') : Tree x y s' := by
  cases moves_of_step h with
  | fork hk hi hpid hfresh => exact hs.of_fork hk hi hpid hfresh
  | forkFails hk hi =>
    refine hs.change hk nofun nofun fun c q hc hcreator hpres ⟨j, hj, hslot, hlt⟩ => ?_
    exact ⟨j, hj, hslot, Nat.lt_succ_of_lt hlt⟩
  | waitError hk hnone =>
    refine hs.waited hk fun c q hc hcreator hpres hslot => ?_
    have hmatch := matches_self pgid (hs.child_positive hc hcreator)
    exact hnone q (List.mem_of_getElem? hc) hcreator hpres (hslot ▸ hmatch)
  | @reap k role creator own slots i c child junk childRole hk hc hmatch =>
    have hck : k ≠ c := by
      rintro rfl
      cases hk.symm.trans hc
    refine (hs.reap hc).waited ((set_get_ne hck).trans hk) fun d q hd hcreator hpres hslot => ?_
    rcases get_set hd with ⟨-, rfl⟩ | ⟨hdc, hd⟩
    · exact hpres _ rfl
    · have hpos := hs.child_positive hd hcreator
      rw [hslot] at hpos
      have hpid : slots i = child := by simpa [Matches, hpos] using hmatch
      exact hdc (hs.pids hd hc hpres nofun (hslot.trans hpid))
  | go hk hlife =>
    exact hs.change hk nofun (fun r hr => absurd hr (proceed_present hlife r))
      fun _ _ _ _ _ => not_proceed_keeps hlife
  | init hc hlife hcreator hp hstopped =>
    have hpres : Process.Present _ := fun r hr => by cases hlife.symm.trans hr
    obtain ⟨j, -, -, hkeeps⟩ := hs.awaited hc hcreator hp hpres
    rename_i p q
    obtain ⟨_, _, _, _, life⟩ := p
    cases life with
    | running pc => exact absurd ⟨pc, rfl⟩ hstopped
    | zombie | reaped => exact absurd hkeeps id

theorem Bounded.change (hs : Bounded x y s) (hk : s[k]? = some p)
    (hroom : q.room x y ≤ p.room x y) : Bounded x y (s.set k q) := by
  have hsum := sum_set (q := q) (Process.room x y) hk
  unfold Bounded at hs ⊢
  rw [List.length_set]
  omega

theorem room_proceed (h : proceed x y role pc = some life) :
    Process.room x y ⟨role, creator, own, slots, life⟩ = 0 := by
  cases pc <;> simp only [proceed] at h
  case fork | wait =>
    split at h <;> cases h
    all_goals rfl
  all_goals cases h; rfl

/-- A fork uses up room for the process it creates and for those that this may create. -/
theorem Bounded.of_fork (hs : Bounded x y s)
    (hk : s[k]? = some ⟨role, creator, own, slots, .running (.fork i)⟩) (hi : i < limit x y role) :
    Bounded x y (s.set k
      ⟨role, creator, own, Function.update slots i pid, .running (.fork (i + 1))⟩ ++
        [⟨role.born, some k, pid, junk, .running role.born.entry⟩]) := by
  have hsum := sum_set (q := ⟨role, creator, own, Function.update slots i pid,
    .running (.fork (i + 1))⟩) (Process.room x y) hk
  have hleft : (limit x y role - i) * role.brood y =
      (limit x y role - (i + 1)) * role.brood y + role.brood y := by
    rw [show limit x y role - i = limit x y role - (i + 1) + 1 by omega, Nat.add_one_mul]
  have hborn : 1 + Process.room x y ⟨role.born, some k, pid, junk, .running role.born.entry⟩ =
      role.brood y := by
    cases role with
    | main => simp [Process.room, Role.born, Role.entry, Role.brood, limit]
    | parentProcess => rfl
    | childrenProcess => exact absurd hi (Nat.not_lt_zero i)
  simp only [Bounded, List.length_append, List.length_set, List.map_append, List.sum_append,
    List.length_singleton, List.map_singleton, List.sum_singleton] at hs ⊢
  simp only [Process.room] at hsum hborn ⊢
  omega

theorem Bounded.step (hs : Bounded x y s) (h : step x y pgid s a = some s') : Bounded x y s' := by
  cases moves_of_step h with
  | fork hk hi => exact hs.of_fork hk hi
  | forkFails hk =>
    exact hs.change hk (Nat.mul_le_mul_right _ (Nat.sub_le_sub_left (Nat.le_succ _) _))
  | waitError hk => exact hs.change hk (Nat.le_refl _)
  | @reap k role creator own slots i c child junk childRole hk hc =>
    have hck : k ≠ c := by
      rintro rfl
      cases hk.symm.trans hc
    have hreaped := hs.change (q := ⟨childRole, some k, child, junk, .reaped (some k)⟩) hc (Nat.le_refl _)
    exact hreaped.change ((set_get_ne hck).trans hk) (Nat.le_refl _)
  | go hk hlife => exact hs.change hk (by rw [room_proceed hlife]; exact Nat.zero_le _)
  | init hc => exact hs.change hc (Nat.zero_le _)

variable {calls calls' : Nat → Nat}

theorem Calls.change (hs : Calls x y calls s)
    (hk : s[k]? = some ⟨role, creator, own, slots, life⟩)
    (hother : ∀ j, j ≠ k → calls' j = calls j) (hle : calls' k ≤ limit x y role)
    (hlooped : ∀ i, life' = .running (.fork i) → calls' k = i) :
    Calls x y calls' (s.set k ⟨role, creator, own, slots', life'⟩) where
  le := by
    intro j p hj
    rcases get_set hj with ⟨rfl, rfl⟩ | ⟨hne, hj⟩
    · exact hle
    · rw [hother j hne]
      exact hs.le hj
  looped := by
    intro j i p hj hi
    rcases get_set hj with ⟨rfl, rfl⟩ | ⟨hne, hj⟩
    · exact hlooped i hi
    · rw [hother j hne]
      exact hs.looped hj hi
  unborn := by
    intro j hj
    rw [List.length_set] at hj
    have hne : j ≠ k := by
      rintro rfl
      obtain ⟨hlt, -⟩ := List.getElem?_eq_some_iff.mp hk
      omega
    rw [hother j hne]
    exact hs.unborn hj

theorem Calls.quiet (hs : Calls x y calls s)
    (hk : s[k]? = some ⟨role, creator, own, slots, life⟩)
    (hlife : ∀ i, life' ≠ .running (.fork i)) :
    Calls x y calls (s.set k ⟨role, creator, own, slots', life'⟩) :=
  hs.change hk (fun _ _ => rfl) (hs.le hk) fun i hi => absurd hi (hlife i)

theorem Calls.counted (hs : Calls x y calls s)
    (hk : s[k]? = some ⟨role, creator, own, slots, .running (.fork i)⟩) (hi : i < limit x y role) :
    Calls x y (Function.update calls k (calls k + 1))
      (s.set k ⟨role, creator, own, slots', .running (.fork (i + 1))⟩) := by
  have hcount : calls k = i := hs.looped hk rfl
  refine hs.change hk (fun j hne => Function.update_of_ne hne _ _) ?_ fun j hj => ?_
  · rw [Function.update_self, hcount]
    exact hi
  · cases hj
    rw [Function.update_self, hcount]

theorem Calls.spawn (hs : Calls x y calls s) (hborn : p.life = .running p.role.entry) :
    Calls x y calls (s ++ [p]) where
  le := by
    intro j q hj
    rcases get_append hj with hj | ⟨rfl, rfl⟩
    · exact hs.le hj
    · rw [hs.unborn (Nat.le_refl _)]
      exact Nat.zero_le _
  looped := by
    intro j i q hj hi
    rcases get_append hj with hj | ⟨rfl, rfl⟩
    · exact hs.looped hj hi
    · rw [hs.unborn (Nat.le_refl _)]
      rw [hborn] at hi
      cases hrole : q.role <;> rw [hrole] at hi <;> cases hi <;> rfl
  unborn := by
    intro j hj
    rw [List.length_append] at hj
    exact hs.unborn (Nat.le_of_add_right_le hj)

theorem proceed_not_fork (h : proceed x y role pc = some life) : ∀ i, life ≠ .running (.fork i) := by
  rintro i rfl
  cases pc <;> simp only [proceed] at h
  case fork | wait => split at h <;> cases h
  all_goals cases h

variable {past : List (Event State Act)}

theorem forkCalls_quiet (h : ∀ k, ¬ a.ForkBy k) :
    forkCalls (past ++ [⟨s, a, s'⟩]) = forkCalls past := by
  funext k
  simp only [forkCalls, List.countP_append, List.countP_singleton, decide_eq_true_eq, if_neg (h k),
    Nat.add_zero]

theorem forkCalls_counted (h : ∀ j, a.ForkBy j ↔ k = j) :
    forkCalls (past ++ [⟨s, a, s'⟩]) =
      Function.update (forkCalls past) k (forkCalls past k + 1) := by
  funext j
  simp only [forkCalls, List.countP_append, List.countP_singleton, decide_eq_true_eq, h]
  by_cases hj : k = j
  · subst hj
    rw [if_pos rfl, Function.update_self]
  · rw [if_neg hj, Nat.add_zero, Function.update_of_ne (Ne.symm hj)]
    rfl

theorem Calls.step (hs : Calls x y (forkCalls past) s) (h : step x y pgid s a = some s') :
    Calls x y (forkCalls (past ++ [⟨s, a, s'⟩])) s' := by
  cases moves_of_step h with
  | fork hk hi =>
    rw [forkCalls_counted fun _ => Iff.rfl]
    exact (hs.counted hk hi).spawn rfl
  | forkFails hk hi =>
    rw [forkCalls_counted fun _ => Iff.rfl]
    exact hs.counted hk hi
  | waitError hk =>
    rw [forkCalls_quiet fun _ => id]
    exact hs.quiet hk nofun
  | @reap k role creator own slots i c child junk childRole hk hc =>
    have hck : k ≠ c := by
      rintro rfl
      cases hk.symm.trans hc
    rw [forkCalls_quiet fun _ => id]
    have hreaped : Calls x y (forkCalls past)
        (s.set c ⟨childRole, some k, child, junk, .reaped (some k)⟩) := hs.quiet hc nofun
    exact hreaped.quiet ((set_get_ne hck).trans hk) nofun
  | go hk hlife =>
    rw [forkCalls_quiet fun _ => id]
    exact hs.quiet hk (proceed_not_fork hlife)
  | init hc =>
    rw [forkCalls_quiet fun _ => id]
    exact hs.quiet hc nofun

theorem start_tree (x y : Nat) (pid : Int) (junk : Nat → Int) : Tree x y (start pid junk) := by
  have only : ∀ {c : Nat} {q : Process}, (start pid junk)[c]? = some q →
      c = 0 ∧ q = ⟨.main, none, pid, junk, .running (.fork 0)⟩ := by
    intro c q hc
    cases c with
    | zero => exact ⟨rfl, (Option.some.inj hc).symm⟩
    | succ c => cases hc
  constructor
  · exact ⟨_, rfl, rfl, rfl⟩
  · exact fun hc hne => absurd (only hc).1 hne
  · exact fun hp hq _ _ _ => (only hp).1.trans (only hq).1.symm
  · intro c k p q hc hcreator
    rw [(only hc).2] at hcreator
    cases hcreator
  · intro c q r hc hr
    rw [(only hc).2] at hr
    cases hr

theorem start_calls (x y : Nat) (pid : Int) (junk : Nat → Int) :
    Calls x y (forkCalls []) (start pid junk) where
  le _ := Nat.zero_le _
  looped := by
    intro k i p hk hi
    cases k with
    | zero =>
      cases hk
      cases hi
      rfl
    | succ k => cases hk
  unborn _ := rfl

/-- Once a process has made all its waits, it has reaped all its children. -/
theorem Tree.children_reaped (hs : Tree x y s) (hk : s[k]? = some p)
    (hdone : ∀ j < limit x y p.role, ¬ p.life.Keeps j) (hc : s[c]? = some q) (hcreator : q.creator = some k) :
    q.life = .reaped (some k) := by
  have hgone : ¬ q.Present := by
    intro hpres
    obtain ⟨j, hj, -, hkeeps⟩ := hs.awaited hc hcreator hk hpres
    exact hdone j hj hkeeps
  cases hlife : q.life with
  | reaped r => rw [(hs.reaped hc hlife).2, hcreator]
  | running pc => exact absurd (fun r hr => by cases hlife.symm.trans hr) hgone
  | zombie => exact absurd (fun r hr => by cases hlife.symm.trans hr) hgone

theorem Tree.role_main_iff (hs : Tree x y s) (hk : s[k]? = some p) : p.role = .main ↔ k = 0 := by
  constructor
  · intro hmain
    by_contra hne
    obtain ⟨-, j, r, -, -, hborn⟩ := hs.born hk hne
    rw [hmain] at hborn
    cases hrole : r.role <;> rw [hrole] at hborn <;> cases hborn
  · rintro rfl
    obtain ⟨r, hr, hrole, -⟩ := hs.root
    cases hk.symm.trans hr
    exact hrole

/-- Behind its waits `main` has no process left, neither its own nor one of its parents. -/
theorem Tree.all_reaped (hs : Tree x y s) (hmain : s[0]? = some p) (hdone : ∀ j, ¬ p.life.Keeps j)
    (hc : s[c]? = some q) (hne : c ≠ 0) : ∃ k, q.creator = some k ∧ q.life = .reaped (some k) := by
  obtain ⟨-, k, r, hcreator, hk, -⟩ := hs.born hc hne
  refine ⟨k, hcreator, ?_⟩
  by_cases hk0 : k = 0
  · subst hk0
    exact hs.children_reaped hmain (fun j _ => hdone j) hc hcreator
  refine hs.children_reaped hk (fun j hj => ?_) hc hcreator
  obtain ⟨-, i, m, hcreator', hi, hborn⟩ := hs.born hk hk0
  have hrole : m.role = .main := by
    cases hrole : m.role with
    | main => rfl
    | parentProcess | childrenProcess =>
      rw [hborn, hrole] at hj
      exact absurd hj (Nat.not_lt_zero j)
  have hi0 : i = 0 := (hs.role_main_iff hi).mp hrole
  rw [hi0] at hcreator'
  rw [hs.children_reaped hmain (fun j _ => hdone j) hk hcreator']
  exact id

/-- No process forks more often than its loop runs, so that there are never more than
`1 + x + x * y` processes, and when `main` is about to print its last message every other process
has terminated and its own creator has reaped it. -/
theorem tree_reaped {mainPid : Int} {es : List (Event State Act)}
    (h : Trace (step x y pgid) (start mainPid junk) es s) :
    (∀ k p, s[k]? = some p → forkCalls es k ≤ limit x y p.role ∧ (p.role = .main ↔ k = 0)) ∧
    s.length ≤ 1 + x + x * y ∧
    (∀ p, s[0]? = some p → p.life = .running .message → ∀ c q, s[c]? = some q → c ≠ 0 →
      ∃ k, q.creator = some k ∧ q.life = .reaped (some k)) := by
  have keep : ∀ past (s : State) (a : Act) (t : State),
      Tree x y s ∧ Bounded x y s ∧ Calls x y (forkCalls past) s → True → step x y pgid s a = some t →
      Tree x y t ∧ Bounded x y t ∧ Calls x y (forkCalls (past ++ [⟨s, a, t⟩])) t :=
    fun _ _ _ _ hs _ ht => ⟨hs.1.step ht, hs.2.1.step ht, hs.2.2.step ht⟩
  have hstart : Bounded x y (start mainPid junk) := by
    simp [Bounded, start, Process.room, limit, Role.brood]
  obtain ⟨⟨htree, hbounded, hcalls⟩, -⟩ := h.history keep
    ⟨start_tree x y mainPid junk, hstart, start_calls x y mainPid junk⟩ fun _ _ => trivial
  refine ⟨fun k p hk => ⟨hcalls.le hk, htree.role_main_iff hk⟩, ?_, fun p hp hlife c q hc hne => ?_⟩
  · have hle : s.length + _ ≤ 1 + x * (1 + y) := hbounded
    rw [Nat.mul_add, Nat.mul_one] at hle
    omega
  · refine htree.all_reaped hp (fun j hkeeps => ?_) hc hne
    rw [hlife] at hkeeps
    exact hkeeps

end

/-- The first `fork` of `main` fails and leaves `-1` in its slot, so that the first wait of `main`
takes its only father and the second one finds no child. -/
def oneFather : List Act :=
  [.forkFails 0, .fork 0 101 (fun _ => 102), .fork 1 102 (fun _ => 0), .go 0, .go 1, .go 2, .go 2,
    .go 2, .go 2, .waitpid 1 (some 2), .go 1, .go 1, .go 1, .waitpid 0 (some 1), .waitpid 0 none,
    .go 0]

def oneFatherEnd : State := last (step 2 1 100) (start 100 fun _ => -1) oneFather

theorem oneFather_reaped :
    (record (step 2 1 100) (start 100 fun _ => -1) oneFather).length = oneFather.length ∧
    oneFatherEnd.length = 3 ∧ ∀ c q, oneFatherEnd[c]? = some q → c ≠ 0 →
      ∃ k, q.creator = some k ∧ q.life = .reaped (some k) :=
  ⟨rfl, rfl,
    (tree_reaped (Trace.recorded (step 2 1 100) (start 100 fun _ => -1) oneFather)).2.2 _ rfl rfl⟩

end LinuxAssignment.ProcessTree
