import Tp2cc.Parsing.Consuming

set_option autoImplicit false

namespace Parsing
open Machine

section
variable {σ α β : Type}

/-- Whatever the first parser returns the second does too. -/
def Extends (p q : Parser σ α) : Prop := ∀ s x, p s = some x → q s = some x

variable {p q : Parser σ α} {f g : α → Parser σ β}

theorem Extends.refl (p : Parser σ α) : Extends p p := fun _ _ => id

theorem bind_eq_some {s : σ} {x : β × σ} (h : (p >>= f) s = some x) :
    ∃ a s₁, p s = some (a, s₁) ∧ f a s₁ = some x := by
  simp only [Bind.bind, StateT.bind] at h
  cases hp : p s with
  | none =>
    rw [hp] at h
    cases h
  | some y =>
    rw [hp] at h
    exact ⟨y.1, y.2, rfl, h⟩

theorem Extends.bind (hp : Extends p q) (hf : ∀ a, Extends (f a) (g a)) :
    Extends (p >>= f) (q >>= g) := by
  intro s x h
  obtain ⟨a, s₁, ha, hx⟩ := bind_eq_some h
  simp only [Bind.bind, StateT.bind, hp s _ ha]
  exact hf a s₁ x hx

theorem Extends.after (hf : ∀ a, Extends (f a) (g a)) : Extends (p >>= f) (p >>= g) :=
  Extends.bind (Extends.refl p) hf

theorem Extends.ite {c : Prop} [Decidable c] {p' q' : Parser σ α} (h : Extends p q)
    (h' : Extends p' q') : Extends (if c then p else p') (if c then q else q') := by
  split
  · exact h
  · exact h'

theorem Extends.loop {body body' : α → Parser σ (LoopStep α β)} {n m : Nat}
    (hbody : ∀ a, Extends (body a) (body' a)) (hle : n ≤ m) (a : α) :
    Extends (loop body n a) (loop body' m a) := by
  induction n generalizing m a with
  | zero => exact fun s x h => nomatch h
  | succ n ih =>
    obtain ⟨m, rfl⟩ : ∃ m', m = m'+1 := ⟨m-1, by omega⟩
    refine Extends.bind (hbody a) fun step => ?_
    cases step with
    | again a' => exact ih (Nat.le_of_succ_le_succ hle) a'
    | done b => exact Extends.refl _

theorem Extends.agree (h : Extends p q) {s : σ} {x y : α × σ} (hx : p s = some x)
    (hy : q s = some y) : x = y :=
  Option.some.inj ((h s x hx).symm.trans hy)

end
end Parsing
