import Mathlib.Data.List.AList
import Mathlib.Data.List.Sort
import Mathlib.Data.String.Basic
import Tp2cc.Graph.LeastFirst
import Tp2cc.Machine.Loop
import Tp2cc.Units.InitOrder

/-! The order in which units are emitted: after their interface uses, and for a program after
everything it uses. -/
set_option autoImplicit false

namespace Tp2cc
open Graph Machine

abbrev NameTable (β : Type) : Type := AList fun _ : String => β

namespace NameTable
variable {β : Type}

def valueAt (t : NameTable β) (dflt : β) (name : String) : β := (t.lookup name).getD dflt

end NameTable

/-- The hash tables `topoSort` iterates over, where it does. -/
inductive Traversal where
  | unitNames
  | unitUses
  | indegrees
  | dependencies
  | dependenciesOf (name : String)
  | dependentsOf (name : String)
  | remaining
  | remainingOf (name : String)

structure TopoResult where
  order : List String
  cycleEdges : List (String × String)
deriving DecidableEq, Repr

structure Dependencies where
  deps : NameTable (List String)
  indeg : NameTable Nat

/-- The units that can be emitted, the number of unemitted dependencies of each unit and the
units emitted. -/
structure Emission where
  ready : List String
  indeg : NameTable Nat
  order : List String

namespace UnitGraph
variable (g : UnitGraph) (σ : HashOrder Traversal)

def addTopoDependency (user : String) (s : Dependencies) (used : String) : Dependencies :=
  let canonicalTo := toLower used
  if canonicalTo ∈ g.names then
    let known := s.deps.valueAt [] user
    if canonicalTo ∈ known then s
    else
      { deps := s.deps.insert user (known ++ [canonicalTo])
        indeg := s.indeg.insert user (s.indeg.valueAt 0 user+1) }
  else s

def addUnitDependencies (s : Dependencies) (unit : String × ParsedUnit) : Dependencies :=
  match unit.2.ast with
  | none => s
  | some ast =>
    let s' := ast.interfaceUses.foldl (g.addTopoDependency unit.1) s
    if ast.isProgram then ast.implUses.foldl (g.addTopoDependency unit.1) s' else s'

def dependencies : Dependencies :=
  let indeg := (σ.walk .unitNames g.units).foldl (fun t unit => t.insert unit.1 0) ∅
  (σ.walk .unitUses g.units).foldl g.addUnitDependencies ⟨∅, indeg⟩

def addReverse (user : String) (reverse : NameTable (List String)) (used : String) :
    NameTable (List String) :=
  let users := reverse.valueAt [] used
  reverse.insert used (if user ∈ users then users else users ++ [user])

def reversed (deps : NameTable (List String)) : NameTable (List String) :=
  (σ.walk .dependencies deps.entries).foldl
    (fun reverse e => (σ.walk (.dependenciesOf e.1) e.2).foldl (addReverse e.1) reverse) ∅

def release (s : Emission) (dep : String) : Emission :=
  let d := s.indeg.valueAt 0 dep
  if 0 < d then
    { s with
      indeg := s.indeg.insert dep (d-1)
      ready := if d-1 = 0 then s.ready ++ [dep] else s.ready }
  else { s with indeg := s.indeg.insert dep d }

def emitSmallest (reverse : NameTable (List String)) (s : Emission) : LoopStep Emission Emission :=
  match s.ready.insertionSort (· ≤ ·) with
  | [] => .done s
  | n :: ready =>
    let s' := { s with ready := ready, order := s.order ++ [n] }
    match reverse.lookup n with
    | none => .again s'
    | some users => .again ((σ.walk (.dependentsOf n) users).foldl release s')

def cycleEdges (deps : NameTable (List String)) (indeg : NameTable Nat) : List (String × String) :=
  (σ.walk .remaining indeg.entries).flatMap fun e =>
    if 0 < e.2 then
      match deps.lookup e.1 with
      | none => []
      | some known => (σ.walk (.remainingOf e.1) known).map fun dep => (e.1, dep)
    else []

def readyAtFirst (indeg : NameTable Nat) : List String :=
  (((σ.walk .indegrees indeg.entries).filter (·.2 = 0)).map (·.1)).insertionSort (· ≤ ·)

/-- `none` only when the fuel runs out. -/
def topoSort : Option TopoResult := do
  let s := g.dependencies σ
  let reverse := reversed σ s.deps
  let final ← loop (emitSmallest σ reverse) (g.units.length+1)
    ⟨readyAtFirst σ s.indeg, s.indeg, []⟩
  return ⟨final.order, cycleEdges σ s.deps final.indeg⟩

end UnitGraph

/-- The names a unit is emitted after, whether known or not. -/
def ParsedUnit.topoUses (unit : ParsedUnit) : List String :=
  match unit.ast with
  | none => []
  | some ast =>
    (ast.interfaceUses ++ if ast.isProgram then ast.implUses else []).map toLower

/-- The known units a unit is emitted after. -/
def UnitGraph.needs (g : UnitGraph) (name : String) : Finset String :=
  g.names.toFinset.filter fun used =>
    ∃ unit ∈ g.units, unit.1 = name ∧ used ∈ unit.2.topoUses

section
variable {g : UnitGraph} {σ : HashOrder Traversal}

theorem UnitGraph.mem_needs {name used : String} : used ∈ g.needs name ↔
    used ∈ g.names ∧ ∃ unit, (name, unit) ∈ g.units ∧ used ∈ unit.topoUses := by
  simp [UnitGraph.needs]

theorem UnitGraph.needs_subset (name : String) : g.needs name ⊆ g.names.toFinset :=
  Finset.filter_subset _ _

theorem UnitGraph.needs_unknown {name : String} (h : name ∉ g.names.toFinset) :
    g.needs name = ∅ := by
  refine Finset.eq_empty_of_forall_notMem fun used hu => h ?_
  obtain ⟨-, unit, hm, -⟩ := UnitGraph.mem_needs.mp hu
  exact List.mem_toFinset.mpr (List.mem_map_of_mem hm)

structure NameTable.Rows (t : NameTable (List String)) (E : String → String → Prop) : Prop where
  mem : ∀ a b, b ∈ t.valueAt [] a ↔ E a b
  nodup : ∀ a, (t.valueAt [] a).Nodup

theorem NameTable.valueAt_insert {β : Type} (t : NameTable β) (dflt b : β) (a name : String) :
    NameTable.valueAt (t.insert a b) dflt name = if name = a then b else t.valueAt dflt name := by
  by_cases h : name = a
  · subst h
    simp [NameTable.valueAt]
  · simp [NameTable.valueAt, h, AList.lookup_insert_ne]

theorem nodup_snoc {a : String} {l : List String} (hl : l.Nodup) (ha : a ∉ l) :
    (l ++ [a]).Nodup := by
  rw [List.nodup_append]
  refine ⟨hl, by simp, fun b hb c hc => ?_⟩
  rw [List.mem_singleton] at hc
  rintro rfl
  exact ha (hc ▸ hb)

/-- The dependencies found so far, those of `E`: a unit's counter is their number. -/
structure Dependencies.Count (g : UnitGraph) (s : Dependencies) (E : String → String → Prop) :
    Prop where
  rows : s.deps.Rows E
  indeg : ∀ a, s.indeg.lookup a =
    if a ∈ g.names then some (s.deps.valueAt [] a).length else none

theorem addTopoDependency_count {s : Dependencies} {E : String → String → Prop}
    (h : s.Count g E) {user : String} (hu : user ∈ g.names) (used : String) :
    (g.addTopoDependency user s used).Count g fun a b =>
      E a b ∨ a = user ∧ b = toLower used ∧ b ∈ g.names := by
  unfold UnitGraph.addTopoDependency
  by_cases hknown : toLower used ∈ g.names
  · by_cases hold : toLower used ∈ s.deps.valueAt [] user
    · simp only [hknown, hold, if_true]
      refine ⟨⟨fun a b => ?_, h.rows.nodup⟩, h.indeg⟩
      rw [h.rows.mem]
      refine ⟨Or.inl, ?_⟩
      rintro (hE | ⟨rfl, rfl, -⟩)
      · exact hE
      · exact (h.rows.mem _ _).mp hold
    · simp only [hknown, hold, if_true, if_false]
      refine ⟨⟨fun a b => ?_, fun a => ?_⟩, fun a => ?_⟩
      · rw [NameTable.valueAt_insert]
        by_cases ha : a = user
        · subst ha
          simp only [if_true, List.mem_append, List.mem_singleton, h.rows.mem, true_and]
          refine or_congr_right ⟨fun hb => ⟨hb, hb ▸ hknown⟩, And.left⟩
        · simp [ha, h.rows.mem]
      · rw [NameTable.valueAt_insert]
        by_cases ha : a = user
        · simpa [ha] using nodup_snoc (h.rows.nodup user) hold
        · simpa [ha] using h.rows.nodup a
      · rw [NameTable.valueAt_insert]
        by_cases ha : a = user
        · subst ha
          simp [hu, NameTable.valueAt, h.indeg]
        · simp [ha, AList.lookup_insert_ne, h.indeg]
  · simp only [hknown, if_false]
    refine ⟨⟨fun a b => ?_, h.rows.nodup⟩, h.indeg⟩
    rw [h.rows.mem]
    refine ⟨Or.inl, ?_⟩
    rintro (hE | ⟨-, rfl, hb⟩)
    · exact hE
    · exact absurd hb hknown

theorem Dependencies.Count.congr {s : Dependencies} {E E' : String → String → Prop}
    (h : s.Count g E) (he : ∀ a b, E a b ↔ E' a b) : s.Count g E' :=
  ⟨⟨fun a b => (h.rows.mem a b).trans (he a b), h.rows.nodup⟩, h.indeg⟩

theorem foldl_addTopoDependency_count {user : String} (hu : user ∈ g.names) (uses : List String)
    {s : Dependencies} {E : String → String → Prop} (h : s.Count g E) :
    (uses.foldl (g.addTopoDependency user) s).Count g fun a b =>
      E a b ∨ a = user ∧ b ∈ uses.map toLower ∧ b ∈ g.names := by
  induction uses generalizing s E with
  | nil => exact h.congr fun a b => by simp
  | cons used uses ih =>
    refine (ih (addTopoDependency_count h hu used)).congr fun a b => ?_
    simp only [List.map_cons, List.mem_cons]
    tauto

theorem addUnitDependencies_count {s : Dependencies} {E : String → String → Prop}
    (h : s.Count g E) {unit : String × ParsedUnit} (hu : unit.1 ∈ g.names) :
    (g.addUnitDependencies s unit).Count g fun a b =>
      E a b ∨ a = unit.1 ∧ b ∈ unit.2.topoUses ∧ b ∈ g.names := by
  unfold UnitGraph.addUnitDependencies ParsedUnit.topoUses
  cases unit.2.ast with
  | none => exact h.congr fun a b => by simp
  | some ast =>
    have hi := foldl_addTopoDependency_count hu ast.interfaceUses h
    cases hp : ast.isProgram with
    | false =>
      simp only [hp, Bool.false_eq_true, if_false, List.append_nil]
      exact hi
    | true =>
      simp only [hp, if_true, List.map_append, List.mem_append]
      refine (foldl_addTopoDependency_count hu ast.implUses hi).congr fun a b => ?_
      tauto

theorem foldl_addUnitDependencies_count (units : List (String × ParsedUnit))
    (hu : ∀ unit ∈ units, unit.1 ∈ g.names) {s : Dependencies} {E : String → String → Prop}
    (h : s.Count g E) : (units.foldl g.addUnitDependencies s).Count g fun a b =>
      E a b ∨ b ∈ g.names ∧ ∃ unit, (a, unit) ∈ units ∧ b ∈ unit.topoUses := by
  induction units generalizing s E with
  | nil => exact h.congr fun a b => by simp
  | cons unit units ih =>
    have hfirst := addUnitDependencies_count h (hu unit List.mem_cons_self)
    refine (ih (fun unit hm => hu unit (List.mem_cons_of_mem _ hm)) hfirst).congr fun a b => ?_
    obtain ⟨name, pu⟩ := unit
    simp only [List.mem_cons, Prod.mk.injEq]
    constructor
    · rintro ((hE | ⟨rfl, hb, hn⟩) | ⟨hn, pu', hm, hb⟩)
      · exact .inl hE
      · exact .inr ⟨hn, pu, .inl ⟨rfl, rfl⟩, hb⟩
      · exact .inr ⟨hn, pu', .inr hm, hb⟩
    · rintro (hE | ⟨hn, pu', (⟨rfl, rfl⟩ | hm), hb⟩)
      · exact .inl (.inl hE)
      · exact .inl (.inr ⟨rfl, hb, hn⟩)
      · exact .inr ⟨hn, pu', hm, hb⟩

theorem lookup_foldl_insert_zero (l : List (String × ParsedUnit)) (t : NameTable Nat)
    (a : String) : (l.foldl (fun t unit => t.insert unit.1 0) t).lookup a =
      if a ∈ l.map (·.1) then some 0 else t.lookup a := by
  induction l generalizing t with
  | nil => rfl
  | cons unit l ih =>
    rw [List.foldl_cons, ih, List.map_cons]
    by_cases hl : a ∈ l.map (·.1)
    · simp [hl]
    · by_cases ha : a = unit.1
      · subst ha
        simp
      · simp [hl, ha, AList.lookup_insert_ne]

variable (g σ) in
theorem dependencies_count : (g.dependencies σ).Count g fun a b => b ∈ g.needs a := by
  have hinit : Dependencies.Count g
      ⟨∅, (σ.walk .unitNames g.units).foldl (fun t unit => t.insert unit.1 0) ∅⟩
      fun _ _ => False := by
    refine ⟨⟨fun a b => by simp [NameTable.valueAt], fun a => by simp [NameTable.valueAt]⟩,
      fun a => ?_⟩
    have hnames : a ∈ (σ.walk .unitNames g.units).map (·.1) ↔ a ∈ g.names :=
      ((σ.perm .unitNames g.units).map _).mem_iff
    simp only [lookup_foldl_insert_zero, hnames]
    rfl
  have hperm := σ.perm .unitUses g.units
  refine (foldl_addUnitDependencies_count (σ.walk .unitUses g.units)
    (fun unit hm => List.mem_map_of_mem (hperm.mem_iff.mp hm)) hinit).congr fun a b => ?_
  simp only [UnitGraph.mem_needs, hperm.mem_iff, false_or]

theorem NameTable.Rows.congr {t : NameTable (List String)} {E E' : String → String → Prop}
    (h : t.Rows E) (he : ∀ a b, E a b ↔ E' a b) : t.Rows E' :=
  ⟨fun a b => (h.mem a b).trans (he a b), h.nodup⟩

theorem addReverse_rows {t : NameTable (List String)} {E : String → String → Prop} (h : t.Rows E)
    (user used : String) : NameTable.Rows (UnitGraph.addReverse user t used) fun b a =>
      E b a ∨ a = user ∧ b = used := by
  unfold UnitGraph.addReverse
  refine ⟨fun b a => ?_, fun b => ?_⟩
  · rw [NameTable.valueAt_insert]
    by_cases hb : b = used
    · subst hb
      by_cases hold : user ∈ t.valueAt [] b
      · simp only [hold, if_true, h.mem]
        refine ⟨Or.inl, ?_⟩
        rintro (hE | ⟨rfl, -⟩)
        · exact hE
        · exact (h.mem _ _).mp hold
      · simp [hold, h.mem]
    · simp [hb, h.mem]
  · rw [NameTable.valueAt_insert]
    by_cases hb : b = used
    · by_cases hold : user ∈ t.valueAt [] used
      · simpa [hb, hold] using h.nodup used
      · simpa [hb, hold] using nodup_snoc (h.nodup used) hold
    · simpa [hb] using h.nodup b

theorem foldl_addReverse_rows (user : String) (l : List String) {t : NameTable (List String)}
    {E : String → String → Prop} (h : t.Rows E) :
    NameTable.Rows (l.foldl (UnitGraph.addReverse user) t) fun b a => E b a ∨ a = user ∧ b ∈ l := by
  induction l generalizing t E with
  | nil => exact h.congr fun b a => by simp
  | cons used l ih =>
    refine (ih (addReverse_rows h user used)).congr fun b a => ?_
    simp only [List.mem_cons]
    tauto

theorem foldl_reversed_rows (entries : List (Sigma fun _ : String => List String))
    {t : NameTable (List String)} {E : String → String → Prop} (h : t.Rows E) :
    NameTable.Rows (entries.foldl (fun reverse e =>
      (σ.walk (.dependenciesOf e.1) e.2).foldl (UnitGraph.addReverse e.1) reverse) t)
        fun b a => E b a ∨ ∃ l, ⟨a, l⟩ ∈ entries ∧ b ∈ l := by
  induction entries generalizing t E with
  | nil => exact h.congr fun b a => by simp
  | cons e entries ih =>
    obtain ⟨user, used⟩ := e
    have hperm := σ.perm (.dependenciesOf user) used
    refine (ih (foldl_addReverse_rows user _ h)).congr fun b a => ?_
    simp only [List.mem_cons, hperm.mem_iff, Sigma.mk.injEq]
    constructor
    · rintro ((hE | ⟨rfl, hb⟩) | ⟨l, hm, hb⟩)
      · exact .inl hE
      · exact .inr ⟨used, .inl ⟨rfl, .rfl⟩, hb⟩
      · exact .inr ⟨l, .inr hm, hb⟩
    · rintro (hE | ⟨l, (⟨rfl, hl⟩ | hm), hb⟩)
      · exact .inl (.inl hE)
      · exact .inl (.inr ⟨rfl, eq_of_heq hl ▸ hb⟩)
      · exact .inr ⟨l, hm, hb⟩

theorem NameTable.mem_valueAt {t : NameTable (List String)} {a b : String} :
    b ∈ t.valueAt [] a ↔ ∃ l, ⟨a, l⟩ ∈ t.entries ∧ b ∈ l := by
  simp only [← AList.mem_lookup_iff, NameTable.valueAt]
  cases AList.lookup a t <;> simp

variable (g σ) in
theorem reversed_rows : NameTable.Rows (UnitGraph.reversed σ (g.dependencies σ).deps)
    fun b a => b ∈ g.needs a := by
  have hinit : NameTable.Rows (∅ : NameTable (List String)) fun _ _ => False :=
    ⟨fun a b => by simp [NameTable.valueAt], fun a => by simp [NameTable.valueAt]⟩
  refine (foldl_reversed_rows _ hinit).congr fun b a => ?_
  rw [← (dependencies_count g σ).rows.mem, NameTable.mem_valueAt]
  simp only [(σ.perm .dependencies _).mem_iff, false_or]

/-- What holds between two emissions: every counter is the number of dependencies not yet
emitted, and the ready list holds the units without such ones. -/
structure Emission.Inv (g : UnitGraph) (s : Emission) : Prop where
  indeg : ∀ a, s.indeg.lookup a =
    if a ∈ g.names then some (g.needs a \ s.order.toFinset).card else none
  ready : ∀ a, a ∈ s.ready ↔ a ∈ Graph.ready g.names.toFinset g.needs s.order
  nodup : s.ready.Nodup
  closed : ∀ a ∈ s.order, ∀ b ∈ g.needs a, b ∈ s.order

theorem release_of_lookup {s : Emission} {a : String} {k : Nat}
    (h : s.indeg.lookup a = some (k+1)) : UnitGraph.release s a =
      { s with
        indeg := s.indeg.insert a k
        ready := if k = 0 then s.ready ++ [a] else s.ready } := by
  simp [UnitGraph.release, NameTable.valueAt, h]

theorem foldl_release_order (l : List String) (s : Emission) :
    (l.foldl UnitGraph.release s).order = s.order := by
  induction l generalizing s with
  | nil => rfl
  | cons a l ih =>
    rw [List.foldl_cons, ih, UnitGraph.release]
    split <;> rfl

theorem foldl_release {l : List String} (hl : l.Nodup) {s : Emission}
    (hs : ∀ a ∈ l, ∃ k, s.indeg.lookup a = some (k+1)) :
    (l.foldl UnitGraph.release s).ready = s.ready ++ l.filter (s.indeg.lookup · = some 1) ∧
    ∀ a, (l.foldl UnitGraph.release s).indeg.lookup a =
      if a ∈ l then (s.indeg.lookup a).map (· - 1) else s.indeg.lookup a := by
  induction l generalizing s with
  | nil => simp
  | cons a l ih =>
    obtain ⟨ha, hl⟩ := List.nodup_cons.mp hl
    obtain ⟨k, hk⟩ := hs a List.mem_cons_self
    have hother : ∀ b ∈ l, (s.indeg.insert a k).lookup b = s.indeg.lookup b := fun b hb =>
      AList.lookup_insert_ne fun hba => ha (hba ▸ hb)
    have hs' : ∀ b ∈ l, ∃ k', (UnitGraph.release s a).indeg.lookup b = some (k'+1) := by
      intro b hb
      rw [release_of_lookup hk]
      simpa [hother b hb] using hs b (List.mem_cons_of_mem _ hb)
    obtain ⟨hready, hindeg⟩ := ih hl hs'
    rw [List.foldl_cons, hready]
    refine ⟨?_, fun b => ?_⟩
    · rw [release_of_lookup hk]
      have hfilter : l.filter ((s.indeg.insert a k).lookup · = some 1) =
          l.filter (s.indeg.lookup · = some 1) :=
        List.filter_congr fun b hb => by rw [hother b hb]
      by_cases h0 : k = 0
      · subst h0
        simp [hfilter, hk]
      · simp [hfilter, h0, hk]
    · rw [hindeg, release_of_lookup hk]
      by_cases hb : b = a
      · subst hb
        simp [ha, hk]
      · simp [hb, AList.lookup_insert_ne]

theorem sdiff_snoc (s : Finset String) (l : List String) (a : String) :
    s \ (l ++ [a]).toFinset = (s \ l.toFinset).erase a := by
  ext b
  simp
  tauto

theorem isLeast_of_sorted {n : String} {rest ready : List String} {s : Finset String}
    (hs : ∀ a, a ∈ ready ↔ a ∈ s) (h : ready.insertionSort (· ≤ ·) = n :: rest) :
    IsLeast ↑s n := by
  have hperm : (n :: rest).Perm ready := h ▸ List.perm_insertionSort _ ready
  have hsorted : (n :: rest).Pairwise (· ≤ ·) := h ▸ List.pairwise_insertionSort _ ready
  refine ⟨(hs n).mp (hperm.mem_iff.mp List.mem_cons_self), fun a ha => ?_⟩
  rcases List.mem_cons.mp (hperm.mem_iff.mpr ((hs a).mpr ha)) with rfl | hmem
  · exact le_rfl
  · exact List.rel_of_pairwise_cons hsorted hmem

section
variable {s : Emission} {n : String} {rest : List String}

/-- With the smallest unit emitted, the counters of its users go down by one and the users whose
last dependency it was are ready. -/
theorem Emission.Inv.emit (h : s.Inv g) (hs : s.ready.insertionSort (· ≤ ·) = n :: rest)
    {users : List String} (hnodup : users.Nodup) (husers : ∀ a, a ∈ users ↔ n ∈ g.needs a) :
    (users.foldl UnitGraph.release ⟨rest, s.indeg, s.order ++ [n]⟩).Inv g := by
  have hperm : (n :: rest).Perm s.ready := hs ▸ List.perm_insertionSort _ s.ready
  obtain ⟨hnrest, hrest⟩ := List.nodup_cons.mp (hperm.nodup_iff.mpr h.nodup)
  have hmem : ∀ a, a ∈ rest ↔ a ∈ Graph.ready g.names.toFinset g.needs s.order ∧ a ≠ n := by
    intro a
    rw [← h.ready, ← hperm.mem_iff, List.mem_cons]
    refine ⟨fun ha => ⟨.inr ha, fun han => hnrest (han ▸ ha)⟩, fun ⟨ha, hne⟩ => ?_⟩
    exact ha.resolve_left hne
  obtain ⟨hn, hnew, hneeds⟩ := mem_ready.mp ((h.ready n).mp (hperm.mem_iff.mp List.mem_cons_self))
  have hname : ∀ a, n ∈ g.needs a → a ∈ g.names := by
    intro a ha
    by_contra hcon
    have := UnitGraph.needs_unknown (g := g) fun hm => hcon (List.mem_toFinset.mp hm)
    simp [this] at ha
  have hleft : ∀ a, n ∈ g.needs a → n ∈ g.needs a \ s.order.toFinset := fun a ha => by
    simpa [hnew] using ha
  have hcount : ∀ a ∈ users, ∃ k, s.indeg.lookup a = some (k+1) := by
    intro a ha
    have han := (husers a).mp ha
    refine ⟨(g.needs a \ s.order.toFinset).card-1, ?_⟩
    have hpos := Finset.card_pos.mpr ⟨n, hleft a han⟩
    rw [h.indeg, if_pos (hname a han)]
    congr 1
    omega
  obtain ⟨hready, hindeg⟩ := foldl_release (s := ⟨rest, s.indeg, s.order ++ [n]⟩) hnodup hcount
  have horder := foldl_release_order users ⟨rest, s.indeg, s.order ++ [n]⟩
  have hone : ∀ a, n ∈ g.needs a → (s.indeg.lookup a = some 1 ↔
      ∀ b ∈ g.needs a, b ∈ s.order ++ [n]) := by
    intro a ha
    rw [h.indeg, if_pos (hname a ha), Option.some.injEq, Finset.card_eq_one]
    constructor
    · rintro ⟨c, hc⟩ b hb
      by_cases hbo : b ∈ s.order
      · exact List.mem_append_left _ hbo
      · have hbc : b ∈ g.needs a \ s.order.toFinset := by simpa [hbo] using hb
        have hnc := hleft a ha
        rw [hc, Finset.mem_singleton] at hbc hnc
        simp [hbc, hnc]
    · intro hall
      refine ⟨n, Finset.eq_singleton_iff_unique_mem.mpr ⟨hleft a ha, fun b hb => ?_⟩⟩
      have hb' : b ∈ g.needs a ∧ b ∉ s.order := by simpa using hb
      simpa [hb'.2] using hall b hb'.1
  refine ⟨fun a => ?_, fun a => ?_, ?_, ?_⟩
  · rw [hindeg, horder, h.indeg, sdiff_snoc]
    by_cases ha : n ∈ g.needs a
    · simp only [(husers a).mpr ha, if_true, hname a ha, Option.map_some]
      rw [Finset.card_erase_of_mem (hleft a ha)]
    · have hout : n ∉ g.needs a \ s.order.toFinset := fun hcon =>
        ha (Finset.mem_sdiff.mp hcon).1
      rw [if_neg fun hu => ha ((husers a).mp hu), Finset.erase_eq_of_notMem hout]
  · rw [hready, horder, List.mem_append, hmem, List.mem_filter, husers, mem_ready, mem_ready]
    simp only [decide_eq_true_eq, List.mem_toFinset]
    constructor
    · rintro (⟨⟨ha, hout, hall⟩, hne⟩ | ⟨han, h1⟩)
      · exact ⟨ha, by simp [hout, hne], fun b hb => List.mem_append_left _ (hall b hb)⟩
      · refine ⟨hname a han, fun hcon => ?_, (hone a han).mp h1⟩
        rcases List.mem_append.mp hcon with ha | ha
        · exact hnew (h.closed a ha n han)
        · rw [List.mem_singleton] at ha
          exact hnew (hneeds n (ha ▸ han))
    · rintro ⟨ha, hout, hall⟩
      simp only [List.mem_append, List.mem_singleton, not_or] at hout
      by_cases han : n ∈ g.needs a
      · exact .inr ⟨han, (hone a han).mpr hall⟩
      · refine .inl ⟨⟨ha, hout.1, fun b hb => ?_⟩, hout.2⟩
        rcases List.mem_append.mp (hall b hb) with hbo | hbn
        · exact hbo
        · rw [List.mem_singleton] at hbn
          exact absurd (hbn ▸ hb) han
  · rw [hready, List.nodup_append]
    refine ⟨hrest, hnodup.filter _, fun a ha b hb => ?_⟩
    rintro rfl
    have hout := (mem_ready.mp ((hmem a).mp ha).1).2.2
    exact hnew (hout n ((husers a).mp (List.mem_of_mem_filter hb)))
  · rw [horder]
    intro a ha b hb
    rcases List.mem_append.mp ha with hao | han
    · exact List.mem_append_left _ (h.closed a hao b hb)
    · rw [List.mem_singleton] at han
      exact List.mem_append_left _ (hneeds b (han ▸ hb))

end

variable (σ) in
theorem loop_emitSmallest {reverse : NameTable (List String)}
    (hr : reverse.Rows fun b a => b ∈ g.needs a) (n : Nat) {s : Emission} (h : s.Inv g)
    (hnodup : s.order.Nodup) (hsub : ∀ a ∈ s.order, a ∈ g.names)
    (hn : g.names.length < n+s.order.length) :
    ∃ s' rest, loop (UnitGraph.emitSmallest σ reverse) n s = some s' ∧ s'.Inv g ∧
      s'.order = s.order ++ rest ∧ LeastFirst g.names.toFinset g.needs s.order rest := by
  induction n generalizing s with
  | zero =>
    have := (hnodup.subperm hsub).length_le
    omega
  | succ n ih =>
    cases hs : s.ready.insertionSort (· ≤ ·) with
    | nil =>
      have hnone : ∀ a, a ∉ s.ready := by
        intro a ha
        have := (List.perm_insertionSort (· ≤ ·) s.ready).mem_iff.mpr ha
        simp [hs] at this
      refine ⟨s, [], loop_done (by simp [UnitGraph.emitSmallest, hs]) n, h, by simp, .done ?_⟩
      exact Finset.eq_empty_of_forall_notMem fun a ha => hnone a ((h.ready a).mpr ha)
    | cons a rest =>
      have hleast := isLeast_of_sorted h.ready hs
      obtain ⟨ha, hnew, -⟩ := mem_ready.mp hleast.1
      let users := σ.walk (.dependentsOf a) (reverse.valueAt [] a)
      have hperm := σ.perm (.dependentsOf a) (reverse.valueAt [] a)
      let next := users.foldl UnitGraph.release ⟨rest, s.indeg, s.order ++ [a]⟩
      have hstep : UnitGraph.emitSmallest σ reverse s = .again next := by
        simp only [UnitGraph.emitSmallest, hs, next, users, NameTable.valueAt]
        cases reverse.lookup a with
        | none =>
          have hnil : σ.walk (.dependentsOf a) ([] : List String) = [] :=
            List.perm_nil.mp (σ.perm _ _)
          simp [hnil]
        | some users => rfl
      have hinv : next.Inv g := h.emit hs (hperm.nodup_iff.mpr (hr.nodup a)) fun b => by
        rw [hperm.mem_iff, hr.mem]
      have horder : next.order = s.order ++ [a] := foldl_release_order _ _
      obtain ⟨s', rest', hloop, hinv', hs', hleast'⟩ := ih hinv
        (by rw [horder]; exact nodup_snoc hnodup hnew)
        (by
          rw [horder]
          intro b hb
          rcases List.mem_append.mp hb with hb | hb
          · exact hsub b hb
          · rw [List.mem_singleton] at hb
            simpa [hb] using ha)
        (by rw [horder]; simp; omega)
      refine ⟨s', a :: rest', by rw [loop_again hstep, hloop], hinv', ?_, .place hleast ?_⟩
      · rw [hs', horder]
        simp
      · rwa [horder] at hleast'

variable (g σ) in
theorem first_inv :
    Emission.Inv g ⟨UnitGraph.readyAtFirst σ (g.dependencies σ).indeg,
      (g.dependencies σ).indeg, []⟩ := by
  have hcount := dependencies_count g σ
  have hneeds : ∀ a, ((g.dependencies σ).deps.valueAt [] a).toFinset = g.needs a := fun a => by
    ext b
    rw [List.mem_toFinset, hcount.rows.mem]
  have hindeg : ∀ a, (g.dependencies σ).indeg.lookup a =
      if a ∈ g.names then some (g.needs a).card else none := fun a => by
    rw [hcount.indeg, ← hneeds, List.toFinset_card_of_nodup (hcount.rows.nodup a)]
  have hperm := σ.perm .indegrees (g.dependencies σ).indeg.entries
  refine ⟨fun a => by simpa using hindeg a, fun a => ?_, ?_, by simp⟩
  · simp only [UnitGraph.readyAtFirst, (List.perm_insertionSort _ _).mem_iff, List.mem_map,
      List.mem_filter, hperm.mem_iff, mem_ready, List.not_mem_nil, not_false_eq_true, true_and,
      List.mem_toFinset]
    constructor
    · rintro ⟨⟨name, d⟩, ⟨hm, hd⟩, rfl⟩
      have hl := AList.mem_lookup_iff.mpr hm
      rw [hindeg] at hl
      by_cases ha : name ∈ g.names
      · refine ⟨ha, fun b hb => ?_⟩
        simp_all
      · simp [ha] at hl
    · rintro ⟨ha, hnone⟩
      refine ⟨⟨a, 0⟩, ⟨AList.mem_lookup_iff.mp ?_, by simp⟩, rfl⟩
      have : g.needs a = ∅ := Finset.eq_empty_of_forall_notMem hnone
      rw [hindeg, if_pos ha, this]
      simp
  · rw [UnitGraph.readyAtFirst, (List.perm_insertionSort _ _).nodup_iff]
    have hkeys : ((σ.walk .indegrees (g.dependencies σ).indeg.entries).map (·.1)).Nodup :=
      (hperm.map _).nodup_iff.mpr (g.dependencies σ).indeg.keys_nodup
    exact hkeys.sublist (List.filter_sublist.map _)

theorem mem_cycleEdges {deps : NameTable (List String)} {indeg : NameTable Nat} {a b : String} :
    (a, b) ∈ UnitGraph.cycleEdges σ deps indeg ↔
      (∃ d, indeg.lookup a = some d ∧ 0 < d) ∧ b ∈ deps.valueAt [] a := by
  have hrow : ∀ e : (_ : String) × Nat, (a, b) ∈ (if 0 < e.2 then
      match deps.lookup e.1 with
      | none => []
      | some known => (σ.walk (.remainingOf e.1) known).map fun dep => (e.1, dep)
      else []) ↔ e.1 = a ∧ 0 < e.2 ∧ b ∈ deps.valueAt [] a := by
    rintro ⟨name, d⟩
    by_cases hd : 0 < d
    · simp only [hd, if_true, true_and]
      cases hl : deps.lookup name with
      | none =>
        simp only [List.not_mem_nil, false_iff, not_and]
        rintro rfl
        simp [NameTable.valueAt, hl]
      | some known =>
        simp only [List.mem_map, (σ.perm _ known).mem_iff, Prod.mk.injEq]
        constructor
        · rintro ⟨dep, hm, rfl, rfl⟩
          exact ⟨rfl, by simpa [NameTable.valueAt, hl] using hm⟩
        · rintro ⟨rfl, hm⟩
          exact ⟨b, by simpa [NameTable.valueAt, hl] using hm, rfl, rfl⟩
    · simp [hd]
  simp only [UnitGraph.cycleEdges, List.mem_flatMap, (σ.perm .remaining _).mem_iff, hrow]
  constructor
  · rintro ⟨⟨name, d⟩, hm, rfl, hd, hb⟩
    exact ⟨⟨d, AList.mem_lookup_iff.mpr hm, hd⟩, hb⟩
  · rintro ⟨⟨d, hl, hd⟩, hb⟩
    exact ⟨⟨a, d⟩, AList.mem_lookup_iff.mp hl, rfl, hd, hb⟩

theorem Emission.Inv.left_out {s : Emission} (h : s.Inv g)
    (hnone : Graph.ready g.names.toFinset g.needs s.order = ∅) (a : String) :
    (∃ d, s.indeg.lookup a = some d ∧ 0 < d) ↔ a ∈ g.names ∧ a ∉ s.order := by
  rw [h.indeg]
  by_cases ha : a ∈ g.names
  · simp only [ha, if_true, Option.some.injEq, exists_eq_left', Finset.card_pos, true_and]
    constructor
    · rintro ⟨b, hb⟩ hao
      have hb' : b ∈ g.needs a ∧ b ∉ s.order := by simpa using hb
      exact hb'.2 (h.closed a hao b hb'.1)
    · intro hao
      by_contra hempty
      have : a ∈ Graph.ready g.names.toFinset g.needs s.order := by
        refine mem_ready.mpr ⟨List.mem_toFinset.mpr ha, hao, fun b hb => ?_⟩
        by_contra hbo
        exact hempty ⟨b, by simp [hb, hbo]⟩
      simp [hnone] at this
  · simp [ha]

theorem topoSort_spec (g : UnitGraph) (σ : HashOrder Traversal) : ∃ r, g.topoSort σ = some r ∧
    LeastFirst g.names.toFinset g.needs [] r.order ∧
    ∀ a b, (a, b) ∈ r.cycleEdges ↔ a ∈ g.names ∧ a ∉ r.order ∧ b ∈ g.needs a := by
  have hinv := first_inv g σ
  obtain ⟨s, rest, hloop, hs, horder, hleast⟩ := loop_emitSmallest σ
    (reversed_rows g σ) (g.units.length+1) hinv List.nodup_nil (by simp)
    (by simp [UnitGraph.names])
  rw [List.nil_append] at horder
  refine ⟨⟨s.order, UnitGraph.cycleEdges σ (g.dependencies σ).deps s.indeg⟩, ?_, ?_, ?_⟩
  · simp [UnitGraph.topoSort, hloop]
  · rwa [horder]
  · intro a b
    have hnone := hleast.none_ready
    rw [List.nil_append, ← horder] at hnone
    rw [mem_cycleEdges, hs.left_out hnone, (dependencies_count g σ).rows.mem, and_assoc]

/-- The order depends on the units alone, not on the order of their table. -/
theorem UnitGraph.needs_perm {g' : UnitGraph} (h : g'.units.Perm g.units) : g'.needs = g.needs := by
  ext name used
  simp only [UnitGraph.mem_needs, UnitGraph.names, h.mem_iff, (h.map _).mem_iff]

/-- The order of emission: it places every unit once, after the known units it uses in its
interface (a program: anywhere), leaves out the units that reach a cycle and no others, and takes
the smallest name there is, whatever the order of the hash tables. -/
theorem topoSort_order (g : UnitTable) (σ : HashOrder Traversal) : ∃ r, g.topoSort σ = some r ∧
    r.order.Nodup ∧ (∀ a ∈ r.order, a ∈ g.names) ∧
    (∀ before name after, r.order = before ++ name :: after → ∀ unit, (name, unit) ∈ g.units →
      ∀ used ∈ unit.topoUses, used ∈ g.names → used ∈ before) ∧
    ((∀ a ∈ g.names, a ∈ r.order) ↔ Acyclic g.needs) ∧
    (∀ a ∈ g.names, a ∉ r.order ↔ Stuck g.needs a) ∧
    LeastFirst g.names.toFinset g.needs [] r.order ∧
    ∀ (g' : UnitTable) (σ' : HashOrder Traversal), g'.units.Perm g.units →
      ∃ r', g'.topoSort σ' = some r' ∧ r'.order = r.order := by
  obtain ⟨r, hr, hleast, -⟩ := topoSort_spec g.toUnitGraph σ
  have hclosed : ∀ a ∈ g.names.toFinset, g.needs a ⊆ g.names.toFinset := fun a _ =>
    UnitGraph.needs_subset a
  refine ⟨r, hr, hleast.placing.nodup, fun a ha => List.mem_toFinset.mp (hleast.placing.mem_nodes ha), ?_, ?_, ?_,
    hleast, ?_⟩
  · intro before name after hs unit hunit used hused hknown
    exact hleast.placing.before hs (UnitGraph.mem_needs.mpr ⟨hknown, unit, hunit, hused⟩)
  · rw [← hleast.placing.complete_iff hclosed fun a => UnitGraph.needs_unknown]
    simp only [List.mem_toFinset]
  · intro a ha
    rw [hleast.placing.mem_iff hclosed (List.mem_toFinset.mpr ha), not_not]
  · intro g' σ' hperm
    obtain ⟨r', hr', hleast', -⟩ := topoSort_spec g'.toUnitGraph σ'
    have hnames : g'.names.toFinset = g.names.toFinset := by
      ext a
      simp only [UnitGraph.names, List.mem_toFinset, (hperm.map _).mem_iff]
    rw [hnames, UnitGraph.needs_perm hperm] at hleast'
    exact ⟨r', hr', hleast'.unique hleast⟩

/-- The reported edges are dependencies among units left out, every edge of a cycle among them,
and none where there is no cycle. -/
structure TopoResult.ReportsCycles (g : UnitGraph) (r : TopoResult) : Prop where
  leftOut : ∀ a b, (a, b) ∈ r.cycleEdges → b ∈ g.needs a ∧ a ∉ r.order ∧ b ∉ r.order
  complete : ∀ a b, b ∈ g.needs a → Reaches g.needs b a → (a, b) ∈ r.cycleEdges
  empty : Acyclic g.needs → r.cycleEdges = []

/-- The report holds edges of units left out only, exactly when no unit that reaches a cycle
depends on one that does not. -/
theorem topoSort_reportsCycles_iff (g : UnitTable) (σ : HashOrder Traversal) : ∃ r, g.topoSort σ = some r ∧
    (r.ReportsCycles g.toUnitGraph ↔
      ∀ a, Stuck g.needs a → ∀ b ∈ g.needs a, Stuck g.needs b) := by
  obtain ⟨r, hr, hleast, hedges⟩ := topoSort_spec g.toUnitGraph σ
  have hknown : ∀ a b, b ∈ g.needs a → a ∈ g.names := by
    intro a b hb
    obtain ⟨-, unit, hm, -⟩ := UnitGraph.mem_needs.mp hb
    exact List.mem_map_of_mem hm
  have hout : ∀ a ∈ g.names, a ∉ r.order ↔ Stuck g.needs a := by
    intro a ha
    rw [hleast.placing.mem_iff (fun a _ => UnitGraph.needs_subset a) (List.mem_toFinset.mpr ha), not_not]
  refine ⟨r, hr, fun h a ha b hb => ?_, fun h => ⟨fun a b hab => ?_, fun a b hb hba => ?_, ?_⟩⟩
  · have hab := (hedges a b).mpr ⟨hknown a b hb, (hout a (hknown a b hb)).mpr ha, hb⟩
    exact (hout b (UnitGraph.mem_needs.mp hb).1).mp (h.leftOut a b hab).2.2
  · obtain ⟨ha, hao, hb⟩ := (hedges a b).mp hab
    have hb' := h a ((hout a ha).mp hao) b hb
    exact ⟨hb, hao, (hout b (UnitGraph.mem_needs.mp hb).1).mpr hb'⟩
  · have hcycle : OnCycle g.needs a := Relation.TransGen.head' hb hba
    exact (hedges a b).mpr ⟨hknown a b hb, (hout a (hknown a b hb)).mpr hcycle.stuck, hb⟩
  · intro hac
    refine List.eq_nil_iff_forall_not_mem.mpr fun e he => ?_
    obtain ⟨ha, hao, -⟩ := (hedges e.1 e.2).mp he
    obtain ⟨c, -, hc⟩ := (hout e.1 ha).mp hao
    exact hac c hc

/-- `a` and `b` use each other, and `a` uses `c` besides. -/
def cycleAndLeaf : UnitTable :=
  ⟨⟨[("a", unitUsing ["b", "c"] []), ("b", unitUsing ["a"] []), ("c", unitUsing [] [])]⟩,
    by decide⟩

theorem topoSort_reports_ordered : ∃ r, cycleAndLeaf.topoSort .entries = some r ∧
    ("a", "c") ∈ r.cycleEdges ∧ r.order = ["c"] ∧
    ¬ r.ReportsCycles cycleAndLeaf.toUnitGraph := by
  obtain ⟨r, hr⟩ : ∃ r, cycleAndLeaf.topoSort .entries = some r :=
    Option.isSome_iff_exists.mp (by decide)
  have hr' : some r = some ⟨["c"], [("a", "b"), ("a", "c"), ("b", "a")]⟩ := by
    rw [← hr]
    decide
  cases hr'
  exact ⟨_, hr, by decide, rfl, fun h => absurd (h.leftOut "a" "c" (by decide)).2.2 (by decide)⟩

end
end Tp2cc
