import Tp2cc.Parsing.Consuming

/-! Chains of operands with operators between them, the reading of a chain as a tree that leans
to the left, and what a parser gives from one state. -/
set_option autoImplicit false

namespace Parsing
open Machine

section
variable {σ α β : Type}

def Gives (p : Parser σ α) (s : σ) (Q : α → Prop) (s' : σ) : Prop :=
  ∃ a, p s = some (a, s') ∧ Q a

variable {p : Parser σ α} {f : α → Parser σ β} {s s₁ s₂ : σ} {Q : α → Prop} {R : β → Prop}

theorem Gives.pure {a : α} (h : Q a) : Gives (Pure.pure a) s Q s := ⟨a, rfl, h⟩

theorem Gives.mono {Q' : α → Prop} (h : Gives p s Q s₁) (hQ : ∀ a, Q a → Q' a) :
    Gives p s Q' s₁ := by
  obtain ⟨a, ha, hq⟩ := h
  exact ⟨a, ha, hQ a hq⟩

theorem bind_of {a : α} (h : p s = some (a, s₁)) : (p >>= f) s = f a s₁ := by
  simp only [Bind.bind, StateT.bind, h, Option.bind]

theorem Gives.after {a : α} (h : p s = some (a, s₁)) (hf : Gives (f a) s₁ R s₂) :
    Gives (p >>= f) s R s₂ := by
  unfold Gives
  rw [bind_of h]
  exact hf

theorem Gives.bind (h : Gives p s Q s₁) (hf : ∀ a, Q a → Gives (f a) s₁ R s₂) :
    Gives (p >>= f) s R s₂ := by
  obtain ⟨a, ha, hq⟩ := h
  exact Gives.after ha (hf a hq)

variable {step : α → Parser σ (LoopStep α β)} {a a' : α} {n : Nat}

theorem loop_round (h : step a s = some (.again a', s₁)) :
    loop step (n+1) a s = loop step n a' s₁ := by
  rw [loop, bind_of h]

theorem loop_last {b : β} (h : step a s = some (.done b, s₁)) :
    loop step (n+1) a s = some (b, s₁) := by
  rw [loop, bind_of h]
  rfl

theorem Gives.round (t : σ) (I : α → Prop)
    (h : Gives (step a) s (fun r => ∃ b, r = .again b ∧ I b) t)
    (h' : ∀ b, I b → Gives (loop step n b) t R s₂) : Gives (loop step (n+1) a) s R s₂ := by
  obtain ⟨r, hr, b, rfl, hb⟩ := h
  unfold Gives
  rw [loop_round hr]
  exact h' b hb

end

inductive Chain (ω α : Type) where
  | one (a : α)
  | more (c : Chain ω α) (op : ω) (a : α)

namespace Chain
variable {ω α β τ : Type}

def fold (leaf : α → β) (node : ω → β → β → β) : Chain ω α → β
  | one a => leaf a
  | more c op a => node op (c.fold leaf node) (leaf a)

def lastOp : Chain ω α → Option ω
  | one _ => none
  | more _ op _ => some op

def append (op : ω) (c : Chain ω α) : Chain ω α → Chain ω α
  | one a => more c op a
  | more d op' a => more (append op c d) op' a

/-- One chain after the other where a tighter operator joins the operands that meet. -/
def join (g : α → α → α) : Chain ω α → Chain ω α → Chain ω α
  | one a, one b => one (g a b)
  | more c op a, one b => more c op (g a b)
  | c, more d op b => more (join g c d) op b

@[simp] theorem lastOp_append (op : ω) (c d : Chain ω α) :
    (append op c d).lastOp = d.lastOp.or (some op) := by
  cases d <;> rfl

@[simp] theorem lastOp_join (g : α → α → α) (c d : Chain ω α) :
    (join g c d).lastOp = d.lastOp.or c.lastOp := by
  cases c <;> cases d <;> rfl

theorem eq_one {c : Chain ω α} (h : c.lastOp = none) : ∃ a, c = one a := by
  cases c with
  | one a => exact ⟨a, rfl⟩
  | more c op a => cases h

theorem eq_more {c : Chain ω α} {op : ω} (h : c.lastOp = some op) : ∃ d a, c = more d op a := by
  cases c with
  | one a => cases h
  | more d op' a =>
    cases h
    exact ⟨d, a, rfl⟩

variable {operator : τ → Option ω} {A : α → List τ → Prop}

inductive Spells (operator : τ → Option ω) (A : α → List τ → Prop) : Chain ω α → List τ → Prop
  | one {a : α} {T : List τ} (h : A a T) : Spells operator A (one a) T
  | more {c : Chain ω α} {op : ω} {a : α} {T U : List τ} {t : τ} (hc : Spells operator A c T)
      (ht : operator t = some op) (ha : A a U) : Spells operator A (more c op a) (T ++ t :: U)

theorem Spells.append {op : ω} {c d : Chain ω α} {T U : List τ} {t : τ}
    (hc : Spells operator A c T) (ht : operator t = some op) (hd : Spells operator A d U) :
    Spells operator A (append op c d) (T ++ t :: U) := by
  induction hd with
  | one ha => exact .more hc ht ha
  | more _ ht' ha ih =>
    rw [← List.cons_append, ← List.append_assoc]
    exact .more ih ht' ha

theorem Spells.join {g : α → α → α} {c d : Chain ω α} {T U : List τ} {t : τ}
    (hg : ∀ {a b T U}, A a T → A b U → A (g a b) (T ++ t :: U))
    (hc : Spells operator A c T) (hd : Spells operator A d U) :
    Spells operator A (join g c d) (T ++ t :: U) := by
  induction hd with
  | one hb =>
    cases hc with
    | one ha => exact .one (hg ha hb)
    | more hc ht ha =>
      rw [List.append_assoc, List.cons_append]
      exact .more hc ht (hg ha hb)
  | more _ ht' hb ih =>
    rw [← List.cons_append, ← List.append_assoc, Chain.join]
    exact .more ih ht' hb

end Chain
end Parsing
