import Mathlib.Data.List.Basic

set_option autoImplicit false

namespace Machine

/-- A state of the program, and the names of the expressions evaluated so far. -/
structure Trace (σ : Type) where
  state : σ
  log : List Nat

/-- A constant, or a named expression that may change the state, or fail. -/
inductive Effectful (σ α : Type) where
  | const (v : α)
  | code (name : Nat) (run : σ → Option (α × σ))

namespace Effectful
variable {σ α : Type}

def eval : Effectful σ α → Trace σ → Option (α × Trace σ)
  | .const v, t => some (v,t)
  | .code name run, t => (run t.state).map fun p => (p.1,⟨p.2, t.log ++ [name]⟩)

def evalAll : List (Effectful σ α) → Trace σ → Option (List α × Trace σ)
  | [], t => some ([],t)
  | e :: es, t => do
    let (v,t) ← e.eval t
    let (vs,t) ← evalAll es t
    return (v :: vs,t)

def names : Effectful σ α → List Nat
  | .const _ => []
  | .code name _ => [name]

theorem eval_log {e : Effectful σ α} {t t' : Trace σ} {v : α} (h : e.eval t = some (v,t')) :
    t'.log = t.log ++ e.names := by
  cases e with
  | const w =>
    cases h
    exact (List.append_nil _).symm
  | code name run =>
    obtain ⟨p, -, hp⟩ := Option.map_eq_some_iff.mp h
    cases hp
    rfl

theorem evalAll_cons {e : Effectful σ α} {es : List (Effectful σ α)} {t t'' : Trace σ} {v : α}
    {vs : List α} : evalAll (e :: es) t = some (v :: vs,t'') ↔
      ∃ t', e.eval t = some (v,t') ∧ evalAll es t' = some (vs,t'') := by
  constructor
  · intro h
    obtain ⟨⟨w, t'⟩, he, h⟩ := Option.bind_eq_some_iff.mp h
    obtain ⟨⟨ws, t₂⟩, hes, h⟩ := Option.bind_eq_some_iff.mp h
    cases h
    exact ⟨t', he, hes⟩
  · rintro ⟨t', he, hes⟩
    simp [evalAll, he, hes]

theorem evalAll_ne_nil {e : Effectful σ α} {es : List (Effectful σ α)} {t t' : Trace σ} {vs : List α}
    (h : evalAll (e :: es) t = some (vs,t')) : ∃ v ws, vs = v :: ws := by
  obtain ⟨⟨v, t'⟩, he, h⟩ := Option.bind_eq_some_iff.mp h
  obtain ⟨⟨ws, t₂⟩, hes, h⟩ := Option.bind_eq_some_iff.mp h
  cases h
  exact ⟨v, ws, rfl⟩

theorem eval_length {e : Effectful σ α} {t t' : Trace σ} {v : α} (h : e.eval t = some (v,t')) :
    t'.log.length = t.log.length + e.names.length := by
  rw [eval_log h, List.length_append]

theorem evalAll_log {es : List (Effectful σ α)} {t t' : Trace σ} {vs : List α}
    (h : evalAll es t = some (vs,t')) : t'.log = t.log ++ es.flatMap names := by
  induction es generalizing t vs with
  | nil =>
    cases h
    exact (List.append_nil _).symm
  | cons e es ih =>
    obtain ⟨v, ws, rfl⟩ := evalAll_ne_nil h
    obtain ⟨t₁, he, hes⟩ := evalAll_cons.mp h
    rw [ih hes, eval_log he, List.flatMap_cons, List.append_assoc]

theorem evalAll_values {es : List (Effectful σ α)} {t t' : Trace σ} {vs : List α}
    (h : evalAll es t = some (vs,t')) : vs.length = es.length := by
  induction es generalizing t vs with
  | nil =>
    cases h
    rfl
  | cons e es ih =>
    obtain ⟨v, ws, rfl⟩ := evalAll_ne_nil h
    obtain ⟨t₁, he, hes⟩ := evalAll_cons.mp h
    rw [List.length_cons, List.length_cons, ih hes]

end Effectful
end Machine
