/-! Loops that run on fuel: what a run does not depend on, and the rules for invariants and
variants. -/
set_option autoImplicit false

namespace Machine

inductive LoopStep (σ ρ : Type) where
  | again (s : σ)
  | done (r : ρ)

section
variable {σ ρ : Type}

def loop (step : σ → LoopStep σ ρ) : Nat → σ → Option ρ
  | 0, _ => none
  | n+1, s =>
    match step s with
    | .again s' => loop step n s'
    | .done r => some r

variable {step : σ → LoopStep σ ρ}

theorem loop_again {s s' : σ} (h : step s = .again s') (n : Nat) :
    loop step (n+1) s = loop step n s' := by
  simp [loop, h]

theorem loop_done {s : σ} {r : ρ} (h : step s = .done r) (n : Nat) :
    loop step (n+1) s = some r := by
  simp [loop, h]

/-- An invariant of the states gives the promise of every result. -/
theorem loop_invariant {I : σ → Prop} {P : ρ → Prop}
    (hagain : ∀ s s', I s → step s = .again s' → I s') (hdone : ∀ s r, I s → step s = .done r → P r)
    {n : Nat} {s : σ} {r : ρ} (hs : I s) (h : loop step n s = some r) : P r := by
  induction n generalizing s with
  | zero => simp [loop] at h
  | succ n ih =>
    cases hst : step s with
    | again s' =>
      rw [loop_again hst] at h
      exact ih (hagain s s' hs hst) h
    | done r' =>
      rw [loop_done hst] at h
      cases h
      exact hdone s r hs hst

end
end Machine
