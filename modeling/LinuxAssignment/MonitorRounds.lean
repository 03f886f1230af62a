import LinuxAssignment.MonitorRules

namespace Monitor

section

variable {τ σ ι κ : Type*}

/-- Threads that go through `num` rounds each: `count` counts those of a thread, which tests at
`test` whether one is left, comes back there at the end of each, and stops at `finished`. -/
structure Rounds (prog : τ → ι → Instr σ ι κ) (count : τ → σ → Nat) (num : Nat)
    (test finished : ι) : Prop where
  begins : ∀ {t s s' m}, (prog t test).after s = some (s', m) → m ≠ test ∧
    count t s' = count t s ∧ (m = finished ∧ num ≤ count t s ∨ m ≠ finished ∧ count t s < num)
  body : ∀ {t l s s' m}, l ≠ test → (prog t l).after s = some (s', m) → m ≠ finished ∧
    (m = test ∧ count t s' = count t s + 1 ∨ m ≠ test ∧ count t s' = count t s)
  stops : ∀ t, prog t finished = .exit
  goes : ∀ {t l s s' m}, (prog t l).after s = some (s', m) → prog t m = .exit → m = finished
  other : ∀ {t u l s s' m}, u ≠ t → (prog u l).after s = some (s', m) → count t s' = count t s

/-- What such a thread knows about the number of its rounds wherever it is. -/
structure InRounds (prog : τ → ι → Instr σ ι κ) (count : τ → σ → Nat) (num : Nat)
    (test finished : ι) (t : τ) (l : ι) (s : σ) : Prop where
  count_le : count t s ≤ num
  pending : l ≠ test → l ≠ finished → count t s < num
  done : l = finished → count t s = num
  place : prog t l = .exit → l = finished

variable {prog : τ → ι → Instr σ ι κ} {count : τ → σ → Nat} {num : Nat} {test finished : ι}
  {t u : τ} {l m : ι} {s s' : σ}

/-- The test of a loop that runs `num` times. -/
theorem after_loopTest (count : τ → σ → Nat) {enter : ι} (hprog : prog t test = .eval id fun s =>
      if count t s < num then enter else finished)
    (h : (prog t test).after s = some (s', m)) :
    s' = s ∧ (m = enter ∧ count t s < num ∨ m = finished ∧ num ≤ count t s) := by
  rw [hprog] at h
  cases h
  refine ⟨rfl, ?_⟩
  dsimp only
  split
  next hlt => exact Or.inl ⟨rfl, hlt⟩
  next hge => exact Or.inr ⟨rfl, not_lt.mp hge⟩

theorem Rounds.own (hr : Rounds prog count num test finished)
    (h : (prog t l).after s = some (s', m)) (hk : InRounds prog count num test finished t l s) :
    InRounds prog count num test finished t m s' := by
  have hl : l ≠ finished := by
    rintro rfl
    rw [hr.stops t] at h
    cases h
  by_cases hlt : l = test
  · subst hlt
    obtain ⟨hm, hcount, hcases⟩ := hr.begins h
    have hle := hk.count_le
    refine ⟨by omega, fun _ hf => ?_, fun hf => ?_, hr.goes h⟩
    · rcases hcases with ⟨he, -⟩ | ⟨-, hlt⟩
      · exact absurd he hf
      · omega
    · rcases hcases with ⟨-, hge⟩ | ⟨he, -⟩
      · omega
      · exact absurd hf he
  · obtain ⟨hm, hcases⟩ := hr.body hlt h
    have hlt := hk.pending hlt hl
    refine ⟨by omega, fun ht _ => ?_, fun hf => absurd hf hm, hr.goes h⟩
    rcases hcases with ⟨he, -⟩ | ⟨-, hcount⟩
    · exact absurd he ht
    · omega

theorem Rounds.keeps (hr : Rounds prog count num test finished) (hu : u ≠ t)
    (h : (prog u m).after s = some (s', l)) {k : ι}
    (hk : InRounds prog count num test finished t k s) :
    InRounds prog count num test finished t k s' := by
  have hcount := hr.other hu h
  exact ⟨hcount ▸ hk.count_le, fun h1 h2 => hcount ▸ hk.pending h1 h2, fun h1 => hcount ▸ hk.done h1,
    hk.place⟩

end

end Monitor
