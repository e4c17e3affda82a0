import Tp2cc.Ast
import Tp2cc.Graph.DepthFirst

/-! The graph of parsed units, the orders in which a hash table of them can be met, and the order in
which their initializations run. -/
set_option autoImplicit false

namespace Tp2cc
open Graph

def toLower (name : String) : String := String.ofList (name.toList.map Char.toLower)

structure ParsedUnit where
  ast : Option UnitNode
  ok : Bool

structure UnitGraph where
  units : List (String × ParsedUnit)

namespace UnitGraph

def lookup (g : UnitGraph) (name : String) : Option ParsedUnit :=
  (g.units.find? (·.1 = toLower name)).map (·.2)

/-- The units with an initialization to run: parsed, without errors, and not a program. -/
def initUnit (g : UnitGraph) (name : String) : Option UnitNode :=
  match g.lookup name with
  | none => none
  | some pu =>
    match pu.ast with
    | none => none
    | some ast => if pu.ok = false ∨ ast.isProgram = true then none else some ast

end UnitGraph

/-- In which order each iteration over a hash table meets its entries. -/
structure HashOrder (ι : Type) where
  walk : {α : Type} → ι → List α → List α
  perm : ∀ {α : Type} (i : ι) (l : List α), (walk i l).Perm l

def HashOrder.entries {ι : Type} : HashOrder ι := ⟨fun _ l => l, fun _ l => .refl l⟩

structure UnitTable extends UnitGraph where
  nodup : (units.map (·.1)).Nodup

def UnitGraph.names (g : UnitGraph) : List String := g.units.map (·.1)

section
variable (g : UnitGraph)

/-- `none` only when the fuel runs out. -/
def visitUnitInitDep : Nat → String → Walk String → Option (Walk String)
  | 0, _, _ => none
  | n+1, dep, w =>
    let name := toLower dep
    match g.initUnit name with
    | none => some w
    | some ast =>
      if name ∈ w.emitted then some w
      else if name ∈ w.active then some w
      else do
        let w₁ ← visitAll (visitUnitInitDep n) ast.interfaceUses
          { w with active := insert name w.active }
        let w₂ ← visitAll (visitUnitInitDep n) ast.implUses w₁
        let w₃ := { w₂ with active := w₂.active.erase name }
        return if name ∈ w₃.emitted then w₃
          else { w₃ with out := w₃.out ++ [name], emitted := insert name w₃.emitted }

def collectUnitInitOrder (u : UnitNode) : Option (List String) := do
  let fuel := g.units.length+1
  let w₁ ← visitAll (visitUnitInitDep g fuel) u.interfaceUses .empty
  let w₂ ← visitAll (visitUnitInitDep g fuel) u.implUses w₁
  return w₂.out

end

namespace UnitGraph
variable (g : UnitGraph)

def edges : Edges String where
  ok name := (g.initUnit name).isSome && toLower name = name
  first name := ((g.initUnit name).elim [] (·.interfaceUses)).map toLower
  second name := ((g.initUnit name).elim [] (·.implUses)).map toLower

/-- `name` is used by a unit list, directly or through units. -/
def UsedFrom (uses : List String) (name : String) : Prop :=
  ∃ a ∈ uses.map toLower, g.edges.ok a = true ∧ g.edges.Reaches a name

/-- No unit uses in its interface a unit that uses it back, through any uses. -/
def NoInterfaceUseOnCycle : Prop := g.edges.FirstAcyclic

/-- The walk from a program's uses enters no unit whose interface uses a unit on the stack. -/
def WalksClear (u : UnitNode) : Prop :=
  FreshAll (visit g.edges (g.units.length+1)) (Fresh g.edges (g.units.length+1))
    ((u.interfaceUses ++ u.implUses).map toLower) .empty

end UnitGraph

section
variable {g : UnitGraph}

theorem charToLower_charToLower (c : Char) : c.toLower.toLower = c.toLower := by
  unfold Char.toLower
  split_ifs with h₁ h₂
  · have h32 : 'a'.val - 'A'.val = 32 := rfl
    have hA : 'A'.val.toNat = 65 := rfl
    have hZ : 'Z'.val.toNat = 90 := rfl
    simp only [ge_iff_le, UInt32.le_iff_toNat_le, h32, UInt32.toNat_add, hA, hZ] at h₁ h₂
    have : (32 : UInt32).toNat = 32 := rfl
    omega
  · rfl
  · rfl

theorem toLower_toLower (name : String) : toLower (toLower name) = toLower name := by
  simp only [toLower, String.toList_ofList, List.map_map]
  congr 1
  exact List.map_congr_left fun c _ => charToLower_charToLower c

theorem visitAll_map {f : String → Walk String → Option (Walk String)}
    {f' : String → Walk String → Option (Walk String)} (h : ∀ a w, f a w = f' (toLower a) w)
    (l : List String) (w : Walk String) : visitAll f l w = visitAll f' (l.map toLower) w := by
  induction l generalizing w with
  | nil => rfl
  | cons a l ih =>
    simp only [List.map_cons, visitAll, h]
    cases f' (toLower a) w with
    | none => rfl
    | some w' => exact ih w'

theorem edges_ok (dep : String) :
    g.edges.ok (toLower dep) = (g.initUnit (toLower dep)).isSome := by
  simp [UnitGraph.edges, toLower_toLower]

theorem visitUnitInitDep_eq (n : Nat) (dep : String) (w : Walk String) :
    visitUnitInitDep g n dep w = visit g.edges n (toLower dep) w := by
  induction n generalizing dep w with
  | zero => rfl
  | succ n ih =>
    simp only [visitUnitInitDep, visit, edges_ok]
    cases hu : g.initUnit (toLower dep) with
    | none => simp
    | some ast =>
      by_cases he : toLower dep ∈ w.emitted
      · simp [he]
      · by_cases ha : toLower dep ∈ w.active
        · simp [ha]
        · simp only [he, ha, if_false, Option.isSome_some, Bool.true_eq_false, or_self]
          rw [visitAll_map ih]
          have hf : g.edges.first (toLower dep) = ast.interfaceUses.map toLower := by
            simp [UnitGraph.edges, hu]
          have hs : g.edges.second (toLower dep) = ast.implUses.map toLower := by
            simp [UnitGraph.edges, hu]
          rw [hf, hs]
          cases visitAll (visit g.edges n) (ast.interfaceUses.map toLower)
            { w with active := insert (toLower dep) w.active } with
          | none => rfl
          | some w₁ =>
            simp only [Option.bind_eq_bind, Option.bind_some]
            rw [visitAll_map ih]
            cases visitAll (visit g.edges n) (ast.implUses.map toLower) w₁ with
            | none => rfl
            | some w₂ => rfl

theorem ok_mem {name : String} (h : g.edges.ok name = true) :
    name ∈ (g.units.map (·.1)).toFinset := by
  have h' : (g.initUnit name).isSome = true ∧ toLower name = name := by
    simpa [UnitGraph.edges] using h
  obtain ⟨hi, hc⟩ := h'
  unfold UnitGraph.initUnit at hi
  cases hl : g.lookup name with
  | none => rw [hl] at hi; contradiction
  | some pu =>
    obtain ⟨entry, he, -⟩ := Option.map_eq_some_iff.mp hl
    have hm := List.mem_of_find?_eq_some he
    have hn := List.find?_some he
    simp only [decide_eq_true_eq] at hn
    rw [List.mem_toFinset, ← hc, ← hn]
    exact List.mem_map_of_mem hm

theorem units_card : ((g.units.map (·.1)).toFinset).card < g.units.length+1 := by
  have := List.toFinset_card_le (g.units.map (·.1))
  rw [List.length_map] at this
  omega

theorem visitAll_append {f : String → Walk String → Option (Walk String)} (l l' : List String)
    (w : Walk String) : visitAll f (l ++ l') w = (visitAll f l w).bind (visitAll f l') := by
  induction l generalizing w with
  | nil => rfl
  | cons a l ih =>
    simp only [List.cons_append, visitAll]
    cases f a w with
    | none => rfl
    | some w' => exact ih w'

theorem collectUnitInitOrder_eq (u : UnitNode) :
    collectUnitInitOrder g u = (visitAll (visit g.edges (g.units.length+1))
      ((u.interfaceUses ++ u.implUses).map toLower) .empty).map (·.out) := by
  simp only [collectUnitInitOrder, List.map_append, visitAll_append,
    visitAll_map (visitUnitInitDep_eq (g := g) (g.units.length+1))]
  cases visitAll (visit g.edges (g.units.length+1)) (u.interfaceUses.map toLower) .empty with
  | none => rfl
  | some w₁ =>
    simp only [Option.bind_eq_bind, Option.bind_some]
    cases visitAll (visit g.edges (g.units.length+1)) (u.implUses.map toLower) w₁ <;> rfl

/-- Every unit comes after the units with an initialization its interface uses. -/
def UnitGraph.InInterfaceOrder (g : UnitGraph) (order : List String) : Prop :=
  ∀ before name after, order = before ++ name :: after → ∀ ast, g.initUnit name = some ast →
    ∀ dep ∈ ast.interfaceUses, (g.initUnit (toLower dep)).isSome = true → toLower dep ∈ before

theorem inInterfaceOrder_iff {order : List String} :
    g.InInterfaceOrder order ↔ Ordered g.edges order := by
  refine forall_congr' fun s => forall_congr' fun name => forall_congr' fun t =>
    imp_congr_right fun _ => ?_
  constructor
  · rintro h b ⟨hb, hok⟩
    cases hu : g.initUnit name with
    | none => simp [UnitGraph.edges, hu] at hb
    | some ast =>
      obtain ⟨dep, hdep, rfl⟩ : ∃ dep ∈ ast.interfaceUses, toLower dep = b := by
        simpa [UnitGraph.edges, hu] using hb
      exact h ast hu dep hdep (by rwa [edges_ok] at hok)
  · intro h ast hu dep hdep hok
    refine h (toLower dep) ⟨?_, by rwa [edges_ok]⟩
    simpa [UnitGraph.edges, hu] using ⟨dep, hdep, rfl⟩

def programUsing (uses : List String) : UnitNode :=
  ⟨"", uses, [], [], [], none, none, true⟩

/-- Collecting the order always returns, without repetitions, exactly the units the program uses.
Their order is the one of the interfaces for a program exactly when its walk enters no unit whose
interface uses a unit on the stack, and for every program exactly when no interface use lies on a
cycle of uses. -/
theorem collectUnitInitOrder_ordered_iff (g : UnitGraph) :
    (∀ u, ∃ order, collectUnitInitOrder g u = some order ∧ order.Nodup ∧
      (∀ name, name ∈ order ↔ g.UsedFrom (u.interfaceUses ++ u.implUses) name) ∧
      (g.InInterfaceOrder order ↔ g.WalksClear u)) ∧
    ((∀ u order, collectUnitInitOrder g u = some order → g.InInterfaceOrder order) ↔
      g.NoInterfaceUseOnCycle) := by
  refine ⟨fun u => ?_, fun h => ?_, fun h u order ho => ?_⟩
  · obtain ⟨w, hw, hnodup, hmem, hord⟩ := walk_spec (g := g.edges) (fun a => ok_mem) units_card
      ((u.interfaceUses ++ u.implUses).map toLower)
    exact ⟨w.out, by rw [collectUnitInitOrder_eq, hw]; rfl, hnodup, hmem,
      inInterfaceOrder_iff.trans hord⟩
  · refine firstAcyclic_of_ordered (fun a => ok_mem) units_card fun a w hok hw => ?_
    have hc : toLower a = a := by
      have h' : (g.initUnit a).isSome = true ∧ toLower a = a := by
        simpa [UnitGraph.edges] using hok
      exact h'.2
    refine inInterfaceOrder_iff.mp (h (programUsing [a]) w.out ?_)
    rw [collectUnitInitOrder_eq]
    simp [programUsing, hc, hw]
  · rw [collectUnitInitOrder_eq] at ho
    obtain ⟨w, hw, rfl⟩ := Option.map_eq_some_iff.mp ho
    obtain ⟨w', hw', -, -, hord⟩ := walk_spec (g := g.edges) (fun a => ok_mem) units_card
      ((u.interfaceUses ++ u.implUses).map toLower)
    rw [hw] at hw'
    cases hw'
    rw [inInterfaceOrder_iff, hord]
    exact freshAll_of (visit_active _) fun a _ w₁ h₁ => fresh_of_firstAcyclic h _ fun _ b hb => by
      rw [h₁] at hb
      simp [Walk.empty] at hb

def unitUsing (interfaceUses implUses : List String) : ParsedUnit :=
  ⟨some ⟨"", interfaceUses, [], implUses, [], none, none, false⟩, true⟩

def mutualUnits : UnitGraph :=
  ⟨[("a", unitUsing ["b"] []), ("b", unitUsing [] ["a"])]⟩

theorem mutualUnits_interface {name used : String} (h : mutualUnits.edges.NextFirst name used) :
    used = "b" ∧ name ≠ "b" := by
  obtain ⟨hm, -⟩ := h
  have hlow : toLower "b" = "b" := by decide
  by_cases ha : "a" = toLower name
  · have hu : mutualUnits.initUnit name = (unitUsing ["b"] []).ast := by
      simp [UnitGraph.initUnit, UnitGraph.lookup, mutualUnits, ha, unitUsing]
    simp only [UnitGraph.edges, hu, unitUsing, Option.elim_some, List.map_cons, List.map_nil,
      List.mem_singleton, hlow] at hm
    refine ⟨hm, fun hb => ?_⟩
    rw [hb, hlow] at ha
    contradiction
  · have hu : ∀ ast, mutualUnits.initUnit name = some ast → ast.interfaceUses = [] := by
      intro ast hast
      by_cases hb : "b" = toLower name
      · simp [UnitGraph.initUnit, UnitGraph.lookup, mutualUnits, ← hb, unitUsing] at hast
        rw [← hast]
      · simp [UnitGraph.initUnit, UnitGraph.lookup, mutualUnits, ha, hb] at hast
    cases hi : mutualUnits.initUnit name with
    | none => simp [UnitGraph.edges, hi] at hm
    | some ast => simp [UnitGraph.edges, hi, hu ast hi] at hm

/-- `b` uses `a` in its implementation and `a` uses `b` in its interface: entered through `b`, the
walk puts `a` first. -/
theorem collectUnitInitOrder_reverses :
    (∀ name, ¬ Relation.TransGen mutualUnits.edges.NextFirst name name) ∧
      collectUnitInitOrder mutualUnits (programUsing ["b"]) = some ["a", "b"] ∧
      ¬ mutualUnits.InInterfaceOrder ["a", "b"] := by
  refine ⟨fun name h => ?_, by decide, fun h => ?_⟩
  · obtain ⟨used, hfirst, -⟩ := Relation.TransGen.head'_iff.mp h
    obtain ⟨user, -, hlast⟩ := Relation.TransGen.tail'_iff.mp h
    exact (mutualUnits_interface hfirst).2 (mutualUnits_interface hlast).1
  · have := h [] "a" ["b"] rfl _ rfl "b" (by simp) (by rfl)
    contradiction

end
end Tp2cc
