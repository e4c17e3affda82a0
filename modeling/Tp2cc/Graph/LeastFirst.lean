import Mathlib.Data.Finset.Card
import Mathlib.Data.Finset.Max
import Mathlib.Data.Fintype.Pigeonhole
import Mathlib.Logic.Relation
import Mathlib.Order.Bounds.Basic

/-! Placing the nodes of a finite graph in an order: always the least node whose needs are all
placed. -/
set_option autoImplicit false

namespace Graph

section
variable {α : Type} [LinearOrder α] (nodes : Finset α) (needs : α → Finset α)

def Needs (a b : α) : Prop := b ∈ needs a

def Reaches : α → α → Prop := Relation.ReflTransGen (Needs needs)

def OnCycle (a : α) : Prop := Relation.TransGen (Needs needs) a a

def Stuck (a : α) : Prop := ∃ c, Reaches needs a c ∧ OnCycle needs c

def Acyclic : Prop := ∀ a, ¬ OnCycle needs a

def ready (placed : List α) : Finset α :=
  nodes.filter fun a => a ∉ placed ∧ ∀ b ∈ needs a, b ∈ placed

/-- The nodes in an order in which each is ready at its place and none is ready behind it. -/
structure Placing (order : List α) : Prop where
  nodup : order.Nodup
  isReady : ∀ before after a, order = before ++ a :: after → a ∈ ready nodes needs before
  none_ready : ready nodes needs order = ∅

end

section
variable {α : Type} [LinearOrder α] {nodes : Finset α} {needs : α → Finset α}

theorem mem_ready {placed : List α} {a : α} : a ∈ ready nodes needs placed ↔
    a ∈ nodes ∧ a ∉ placed ∧ ∀ b ∈ needs a, b ∈ placed := by
  simp [ready]

variable {order : List α}

theorem Placing.mem_nodes (h : Placing nodes needs order) {a : α} (ha : a ∈ order) :
    a ∈ nodes := by
  obtain ⟨before, after, hs⟩ := List.append_of_mem ha
  exact (mem_ready.mp (h.isReady before after a hs)).1

theorem Placing.before (h : Placing nodes needs order) {before after : List α} {a b : α}
    (hs : order = before ++ a :: after) (hb : b ∈ needs a) : b ∈ before :=
  (mem_ready.mp (h.isReady before after a hs)).2.2 b hb

theorem Placing.needs_mem (h : Placing nodes needs order) {a b : α} (ha : a ∈ order)
    (hb : b ∈ needs a) : b ∈ order := by
  obtain ⟨before, after, hs⟩ := List.append_of_mem ha
  rw [hs]
  exact List.mem_append_left _ (h.before hs hb)

theorem Placing.reaches_mem (h : Placing nodes needs order) {a b : α} (ha : a ∈ order)
    (hr : Reaches needs a b) : b ∈ order := by
  induction hr with
  | refl => exact ha
  | tail _ hstep ih => exact h.needs_mem ih hstep

theorem idxOf_lt_of_mem_before {before after : List α} {a b : α} (ha : a ∉ before)
    (hb : b ∈ before) : (before ++ a :: after).idxOf b < (before ++ a :: after).idxOf a := by
  rw [List.idxOf_append_of_mem hb, List.idxOf_append_of_notMem ha]
  have := List.idxOf_lt_length_iff.mpr hb
  simp
  omega

theorem Placing.idxOf_lt (h : Placing nodes needs order) {a b : α} (ha : a ∈ order)
    (hb : b ∈ needs a) : order.idxOf b < order.idxOf a := by
  obtain ⟨before, after, hs⟩ := List.append_of_mem ha
  have hnot : a ∉ before := (mem_ready.mp (h.isReady before after a hs)).2.1
  rw [hs]
  exact idxOf_lt_of_mem_before hnot (h.before hs hb)

theorem Placing.not_onCycle (h : Placing nodes needs order) {a : α} (ha : a ∈ order) :
    ¬ OnCycle needs a := by
  have hlt : ∀ b, Relation.TransGen (Needs needs) a b → order.idxOf b < order.idxOf a := by
    intro b hb
    induction hb with
    | single hstep => exact h.idxOf_lt ha hstep
    | tail hr hstep ih => exact Nat.lt_trans (h.idxOf_lt (h.reaches_mem ha hr.to_reflTransGen) hstep) ih
  exact fun hc => Nat.lt_irrefl _ (hlt a hc)

/-- A placed node reaches no cycle: the positions of what it reaches only go down. -/
theorem Placing.not_stuck (h : Placing nodes needs order) {a : α} (ha : a ∈ order) :
    ¬ Stuck needs a := by
  rintro ⟨c, hr, hc⟩
  exact h.not_onCycle (h.reaches_mem ha hr) hc

theorem exists_iterate_repeats {β : Type} [Finite β] (f : β → β) (b : β) :
    ∃ i n, f^[n+1] (f^[i] b) = f^[i] b := by
  obtain ⟨i, j, hne, heq⟩ := Finite.exists_ne_map_eq_of_infinite fun n => f^[n] b
  rcases Nat.lt_or_gt_of_ne hne with hij | hij
  · refine ⟨i, j-i-1, ?_⟩
    rw [← Function.iterate_add_apply, show j-i-1+1+i = j by omega]
    exact heq.symm
  · refine ⟨j, i-j-1, ?_⟩
    rw [← Function.iterate_add_apply, show i-j-1+1+j = i by omega]
    exact heq

theorem Placing.stuck (h : Placing nodes needs order)
    (hclosed : ∀ a ∈ nodes, needs a ⊆ nodes) {a : α} (ha : a ∈ nodes) (hout : a ∉ order) :
    Stuck needs a := by
  have hnone : Graph.ready nodes needs order = ∅ := h.none_ready
  have hnext : ∀ b : {b // b ∈ nodes ∧ b ∉ order}, ∃ c : {c // c ∈ nodes ∧ c ∉ order},
      Needs needs b.1 c.1 := by
    rintro ⟨b, hb, hb'⟩
    by_contra hcon
    have : b ∈ Graph.ready nodes needs order := by
      refine mem_ready.mpr ⟨hb, hb', fun c hc => ?_⟩
      by_contra hc'
      exact hcon ⟨⟨c, hclosed b hb hc, hc'⟩, hc⟩
    simp [hnone] at this
  choose f hf using hnext
  have hiter : ∀ (b : {b // b ∈ nodes ∧ b ∉ order}) n, Reaches needs b.1 (f^[n] b).1 := by
    intro b n
    induction n with
    | zero => exact .refl
    | succ n ih =>
      rw [Function.iterate_succ_apply']
      exact ih.tail (hf _)
  have : Finite {b // b ∈ nodes ∧ b ∉ order} :=
    Finite.of_injective (fun b => (⟨b.1, b.2.1⟩ : {x // x ∈ nodes})) fun b c hbc =>
      Subtype.ext (by simpa using hbc)
  obtain ⟨i, n, hcycle⟩ := exists_iterate_repeats f ⟨a, ha, hout⟩
  refine ⟨(f^[i] ⟨a, ha, hout⟩).1, hiter ⟨a, ha, hout⟩ i, ?_⟩
  have hlast := hf (f^[n] (f^[i] ⟨a, ha, hout⟩))
  rw [← Function.iterate_succ_apply' f, hcycle] at hlast
  exact Relation.TransGen.tail' (hiter _ n) hlast

theorem Placing.mem_iff (h : Placing nodes needs order)
    (hclosed : ∀ a ∈ nodes, needs a ⊆ nodes) {a : α} (ha : a ∈ nodes) :
    a ∈ order ↔ ¬ Stuck needs a := by
  refine ⟨h.not_stuck, fun hs => ?_⟩
  by_contra hout
  exact hs (h.stuck hclosed ha hout)

omit [LinearOrder α] in
theorem OnCycle.stuck {a : α} (h : OnCycle needs a) : Stuck needs a := ⟨a, .refl, h⟩

theorem Placing.complete_iff (h : Placing nodes needs order)
    (hclosed : ∀ a ∈ nodes, needs a ⊆ nodes) (hsupport : ∀ a, a ∉ nodes → needs a = ∅) :
    (∀ a ∈ nodes, a ∈ order) ↔ Acyclic needs := by
  constructor
  · intro hall a hc
    by_cases ha : a ∈ nodes
    · exact h.not_stuck (hall a ha) hc.stuck
    · obtain ⟨b, hab, -⟩ := Relation.TransGen.head'_iff.mp hc
      simp [Needs, hsupport a ha] at hab
  · intro hac a ha
    rw [h.mem_iff hclosed ha]
    rintro ⟨c, -, hc⟩
    exact hac c hc

end

section
variable {α : Type} [LinearOrder α] (nodes : Finset α) (needs : α → Finset α)

/-- `rest` is what follows `placed` when the least ready node always comes next. -/
inductive LeastFirst : List α → List α → Prop
  | done {placed : List α} : ready nodes needs placed = ∅ → LeastFirst placed []
  | place {placed rest : List α} {a : α} : IsLeast ↑(ready nodes needs placed) a →
      LeastFirst (placed ++ [a]) rest → LeastFirst placed (a :: rest)

end

section
variable {α : Type} [LinearOrder α] {nodes : Finset α} {needs : α → Finset α}

theorem LeastFirst.unique {placed rest rest' : List α} (h : LeastFirst nodes needs placed rest)
    (h' : LeastFirst nodes needs placed rest') : rest = rest' := by
  induction h generalizing rest' with
  | done hnone =>
    cases h' with
    | done => rfl
    | place ha _ => simp [hnone, IsLeast] at ha
  | place ha _ ih =>
    cases h' with
    | done hnone => simp [hnone, IsLeast] at ha
    | place ha' hrest =>
      obtain rfl := ha.unique ha'
      rw [ih hrest]

theorem LeastFirst.ready {placed rest : List α} (h : LeastFirst nodes needs placed rest)
    {before after : List α} {a : α} (hs : rest = before ++ a :: after) :
    a ∈ ready nodes needs (placed ++ before) := by
  induction h generalizing before with
  | done => simp at hs
  | place hb _ ih =>
    cases before with
    | nil =>
      obtain ⟨rfl, -⟩ := List.cons.inj hs
      simpa using hb.1
    | cons c before =>
      obtain ⟨rfl, hs'⟩ := List.cons.inj hs
      simpa using ih hs'

theorem LeastFirst.none_ready {placed rest : List α} (h : LeastFirst nodes needs placed rest) :
    Graph.ready nodes needs (placed ++ rest) = ∅ := by
  induction h with
  | done hnone => simpa using hnone
  | place _ _ ih => simpa using ih

theorem LeastFirst.nodup_append {placed rest : List α} (h : LeastFirst nodes needs placed rest)
    (hp : placed.Nodup) : (placed ++ rest).Nodup := by
  induction h with
  | done => simpa using hp
  | @place placed rest a ha _ ih =>
    have hnew : a ∉ placed := (mem_ready.mp ha.1).2.1
    have hp' : (placed ++ [a]).Nodup := by
      rw [List.nodup_append]
      refine ⟨hp, by simp, fun b hb c hc => ?_⟩
      rw [List.mem_singleton] at hc
      rintro rfl
      exact hnew (hc ▸ hb)
    simpa using ih hp'

variable {order : List α}

theorem LeastFirst.placing (h : LeastFirst nodes needs [] order) : Placing nodes needs order where
  nodup := by simpa using h.nodup_append List.nodup_nil
  isReady before after a hs := by simpa using h.ready hs
  none_ready := by simpa using h.none_ready

end
end Graph
