import Mathlib.Logic.Basic
import Mathlib.Logic.Function.Basic

/-! Tables in which a value may be missing: the least one that is closed under a rule, and
computations that ask a table for values on the way. -/
set_option autoImplicit false

namespace LeastTable

section
variable {κ ν : Type}

def Below (t t' : κ → Option ν) : Prop := ∀ k v, t k = some v → t' k = some v

theorem Below.refl (t : κ → Option ν) : Below t t := fun _ _ h => h

theorem Below.trans {t₁ t₂ t₃ : κ → Option ν} (h₁ : Below t₁ t₂) (h₂ : Below t₂ t₃) :
    Below t₁ t₃ := fun k v h => h₂ k v (h₁ k v h)

theorem Below.antisymm {t t' : κ → Option ν} (h : Below t t') (h' : Below t' t) : t = t' := by
  funext k
  cases hk : t k with
  | some v => exact (h k v hk).symm
  | none =>
    cases hk' : t' k with
    | none => rfl
    | some v => rw [h' k v hk'] at hk; cases hk

def Growing (rule : (κ → Option ν) → κ → Option ν) : Prop :=
  ∀ t t', Below t t' → Below (rule t) (rule t')

/-- Values that the rule finds from values found before. -/
inductive Found (rule : (κ → Option ν) → κ → Option ν) : κ → ν → Prop
  | intro {t : κ → Option ν} {k : κ} {v : ν} (ht : ∀ j w, t j = some w → Found rule j w)
      (hv : rule t k = some v) : Found rule k v

variable {rule : (κ → Option ν) → κ → Option ν}

/-- Two tables that do not contradict each other lie below one. -/
theorem exists_join {t t' : κ → Option ν} (h : ∀ k v w, t k = some v → t' k = some w → v = w) :
    ∃ join, Below t join ∧ Below t' join := by
  refine ⟨fun k => (t k).or (t' k), fun k v hk => by simp [hk], fun k w hk => ?_⟩
  cases hv : t k with
  | none => simp [hv, hk]
  | some v =>
    have hvw : v = w := h k v w hv hk
    simp [hv, hvw]

theorem Found.unique (hrule : Growing rule) {k : κ} {v w : ν} (hv : Found rule k v)
    (hw : Found rule k w) : v = w := by
  induction hv generalizing w with
  | @intro t k v ht hv ih =>
    cases hw with
    | @intro t' _ _ ht' hw =>
      obtain ⟨join, hbelow, hbelow'⟩ :=
        exists_join fun j x y hx hy => ih j x hx (ht' j y hy)
      have hjoin := hrule t join hbelow k v hv
      rw [hrule t' join hbelow' k w hw, Option.some.injEq] at hjoin
      exact hjoin.symm

open Classical in
noncomputable def least (rule : (κ → Option ν) → κ → Option ν) (k : κ) : Option ν :=
  if h : ∃ v, Found rule k v then some h.choose else none

theorem least_eq_some (hrule : Growing rule) {k : κ} {v : ν} :
    least rule k = some v ↔ Found rule k v := by
  rw [least]
  split
  · rename_i h
    rw [Option.some.injEq]
    constructor
    · rintro rfl
      exact h.choose_spec
    · exact fun hv => Found.unique hrule h.choose_spec hv
  · rename_i h
    exact ⟨fun hv => (by simp at hv), fun hv => absurd ⟨v, hv⟩ h⟩

theorem least_below (hrule : Growing rule) {t : κ → Option ν} (h : Below (rule t) t) :
    Below (least rule) t := by
  intro k v hv
  rw [least_eq_some hrule] at hv
  induction hv with
  | @intro t' k v _ hv ih => exact h k v (hrule t' t ih k v hv)

theorem rule_least (hrule : Growing rule) : rule (least rule) = least rule := by
  have hadd : Below (rule (least rule)) (least rule) := fun k v hv =>
    (least_eq_some hrule).mpr (.intro (fun j w hw => (least_eq_some hrule).mp hw) hv)
  exact hadd.antisymm (least_below hrule (hrule _ _ hadd))

end

/-! Rules with some entries given and some keys shut: only what is given stands at a shut key. -/

section
variable {κ ν : Type} (shut : κ → Prop) [DecidablePred shut] (given : κ → Option ν)
  (rule : (κ → Option ν) → κ → Option ν)

def around (t : κ → Option ν) (k : κ) : Option ν :=
  match given k with
  | some v => some v
  | none => if shut k then none else rule t k

variable {shut given rule}

theorem around_given {t : κ → Option ν} {k : κ} {v : ν} (h : given k = some v) :
    around shut given rule t k = some v := by
  rw [around, h]

theorem around_shut {t : κ → Option ν} {k : κ} (hk : shut k) :
    around shut given rule t k = given k := by
  cases h : given k with
  | some v => exact around_given h
  | none => rw [around, h, if_pos hk]

theorem around_rule {t : κ → Option ν} {k : κ} (h : given k = none) (hk : ¬ shut k) :
    around shut given rule t k = rule t k := by
  rw [around, h, if_neg hk]

theorem around_growing (hrule : Growing rule) : Growing (around shut given rule) := by
  intro t t' htt k v hv
  cases h : given k with
  | some w =>
    rw [around_given h] at hv ⊢
    exact hv
  | none =>
    by_cases hk : shut k
    · rw [around_shut hk] at hv ⊢
      exact hv
    · rw [around_rule h hk] at hv ⊢
      exact hrule t t' htt k v hv

variable (shut given rule)

noncomputable def closure : κ → Option ν := least (around shut given rule)

variable {shut given rule}

theorem closure_eq (hrule : Growing rule) :
    around shut given rule (closure shut given rule) = closure shut given rule :=
  rule_least (around_growing hrule)

theorem closure_given (hrule : Growing rule) : Below given (closure shut given rule) := by
  intro k v hv
  rw [← closure_eq hrule]
  exact around_given hv

theorem closure_shut (hrule : Growing rule) {k : κ} (hk : shut k) :
    closure shut given rule k = given k := by
  rw [← closure_eq hrule, around_shut hk]

theorem closure_rule (hrule : Growing rule) {k : κ} (h : given k = none) (hk : ¬ shut k) :
    closure shut given rule k = rule (closure shut given rule) k := by
  have hk' : around shut given rule (closure shut given rule) k = closure shut given rule k :=
    congrFun (closure_eq hrule) k
  rw [around_rule h hk] at hk'
  exact hk'.symm

theorem closure_below (hrule : Growing rule) {t : κ → Option ν}
    (h : Below (around shut given rule t) t) : Below (closure shut given rule) t :=
  least_below (around_growing hrule) h

theorem closure_start (hshut : ∀ k, ¬ shut k) (hgiven : ∀ k, given k = none) :
    closure shut given rule = least rule := by
  have hsame : around shut given rule = rule := by
    funext t k
    exact around_rule (hgiven k) (hshut k)
  rw [closure, hsame]

/-- The more keys are shut, the less is found. -/
theorem closure_mono_shut (hrule : Growing rule) {shut' : κ → Prop} [DecidablePred shut']
    (h : ∀ k, shut k → shut' k) : Below (closure shut' given rule) (closure shut given rule) := by
  refine closure_below hrule fun k v hv => ?_
  cases hk : given k with
  | some w =>
    rw [around_given hk] at hv
    rw [closure_given hrule k w hk]
    exact hv
  | none =>
    by_cases hs : shut' k
    · rw [around_shut hs, hk] at hv
      cases hv
    · rw [around_rule hk hs] at hv
      rw [closure_rule hrule hk (mt (h k) hs)]
      exact hv

/-- Entries that were found anyway may be given. -/
theorem closure_congr (hrule : Growing rule) {given' : κ → Option ν} (hle : Below given given')
    (hfound : Below given' (closure shut given rule)) :
    closure shut given' rule = closure shut given rule := by
  have hbelow : Below (closure shut given' rule) (closure shut given rule) := by
    refine closure_below hrule fun k v hv => ?_
    cases hk' : given' k with
    | some w =>
      rw [around_given hk'] at hv
      rw [hfound k w hk']
      exact hv
    | none =>
      have hk : given k = none := by
        cases hk : given k with
        | none => rfl
        | some w => rw [hle k w hk] at hk'; cases hk'
      by_cases hs : shut k
      · rw [around_shut hs, hk'] at hv
        cases hv
      · rw [around_rule hk' hs] at hv
        rw [closure_rule hrule hk hs]
        exact hv
  refine hbelow.antisymm (closure_below hrule fun k v hv => ?_)
  cases hk' : given' k with
  | some w =>
    have hw : closure shut given' rule k = some w := closure_given hrule k w hk'
    cases hk : given k with
    | some u =>
      rw [around_given hk] at hv
      rw [← hv]
      exact closure_given hrule k u (hle k u hk)
    | none =>
      by_cases hs : shut k
      · rw [around_shut hs, hk] at hv
        cases hv
      · rw [around_rule hk hs] at hv
        have hv' := hrule _ _ hbelow k v hv
        rw [← closure_rule hrule hk hs, hbelow k w hw] at hv'
        rw [hw, hv']
  | none =>
    have hk : given k = none := by
      cases hk : given k with
      | none => rfl
      | some w => rw [hle k w hk] at hk'; cases hk'
    by_cases hs : shut k
    · rw [around_shut hs, hk] at hv
      cases hv
    · rw [around_rule hk hs] at hv
      rw [closure_rule hrule hk' hs]
      exact hv

end
end LeastTable

namespace Machine
open LeastTable

/-- A finite computation of an `α` that may ask for the `ν` of any `κ`, again and in any order. -/
inductive Query (κ ν α : Type) where
  | done (result : Option α)
  | ask (key : κ) (next : Option ν → Query κ ν α)

namespace Query
variable {κ ν α : Type}

def eval (table : κ → Option ν) : Query κ ν α → Option α
  | done result => result
  | ask key next => (next (table key)).eval table

def Keeps (q : Query κ ν α) : Prop :=
  ∀ table table', Below table table' → ∀ x, q.eval table = some x → q.eval table' = some x

section
variable {σ : Type} (answer : κ → σ → Option (Option ν × σ))

/-- The run against answers that are looked for in a state, and may not come. -/
def run : Query κ ν α → σ → Option (Option α × σ)
  | done result, s => some (result, s)
  | ask key next, s => do
    let (found, s) ← answer key s
    (next found).run s

/-- Where the answers come out of one table, in the states that keep an invariant, the run finds
what stands there. -/
theorem run_eq {answer : κ → σ → Option (Option ν × σ)} {Inv : σ → Prop}
    {table : κ → Option ν}
    (hanswer : ∀ k s, Inv s → ∃ s', answer k s = some (table k, s') ∧ Inv s') (q : Query κ ν α)
    {s : σ} (hs : Inv s) : ∃ s', q.run answer s = some (q.eval table, s') ∧ Inv s' := by
  induction q generalizing s with
  | done result => exact ⟨s, rfl, hs⟩
  | ask key next ih =>
    obtain ⟨s₁, hfound, hs₁⟩ := hanswer key s hs
    obtain ⟨s₂, hrun, hs₂⟩ := ih (table key) hs₁
    refine ⟨s₂, ?_, hs₂⟩
    rw [run, hfound]
    exact hrun

end

end Query
end Machine
