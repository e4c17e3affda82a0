import Mathlib.Data.Finset.Card
import Mathlib.Logic.Relation
import Tp2cc.Machine.Loop
import Tp2cc.Units.InitOrder

/-! After both parse phases: a unit that uses a failed unit fails too. -/
set_option autoImplicit false

namespace Tp2cc
open Machine

namespace UnitGraph
variable (g : UnitGraph)

def unit? (name : String) : Option ParsedUnit := (g.units.find? (·.1 = name)).map (·.2)

def dependencyFailed (uses : List String) : Bool :=
  uses.any fun dependency =>
    match g.lookup dependency with
    | none => false
    | some unit => !unit.ok

def setFailed (name : String) : UnitGraph :=
  ⟨g.units.map fun e => if e.1 = name then (e.1, { e.2 with ok := false }) else e⟩

def failDependent (s : UnitGraph × Bool) (name : String) : UnitGraph × Bool :=
  match s.1.unit? name with
  | none => s
  | some unit =>
    match unit.ast with
    | none => s
    | some ast =>
      if unit.ok = false then s
      else if s.1.dependencyFailed ast.interfaceUses || s.1.dependencyFailed ast.implUses then
        (s.1.setFailed name, true)
      else s

/-- Each sweep meets the units in an order of its own. -/
def sweep (σ : HashOrder Nat) (s : UnitGraph × Nat) : LoopStep (UnitGraph × Nat) UnitGraph :=
  match (σ.walk s.2 s.1.names).foldl failDependent (s.1, false) with
  | (g', true) => .again (g', s.2+1)
  | (g', false) => .done g'

/-- `none` only when the fuel runs out. -/
def propagateFailures (σ : HashOrder Nat) : Option UnitGraph :=
  loop (sweep σ) (g.units.length+1) (g, 0)

/-- `a` is parsed and uses `b`, which is known. -/
def Uses (a b : String) : Prop := b ∈ g.names ∧
  ∃ unit ast, (a, unit) ∈ g.units ∧ unit.ast = some ast ∧
    b ∈ (ast.interfaceUses ++ ast.implUses).map toLower

/-- `a` leads to a unit that has failed. -/
def Failing (a : String) : Prop :=
  ∃ b unit, Relation.ReflTransGen g.Uses a b ∧ (b, unit) ∈ g.units ∧ unit.ok = false

def withFailed (failed : Finset String) : UnitGraph :=
  ⟨g.units.map fun e => (e.1, { e.2 with ok := e.2.ok && decide (e.1 ∉ failed) })⟩

end UnitGraph

section
variable {g : UnitGraph}

theorem find?_of_nodup {β : Type} {l : List (String × β)} (h : (l.map (·.1)).Nodup)
    {name : String} {b : β} : (l.find? (·.1 = name)).map (·.2) = some b ↔ (name, b) ∈ l := by
  induction l with
  | nil => simp
  | cons e l ih =>
    obtain ⟨hnew, hl⟩ := List.nodup_cons.mp h
    by_cases he : e.1 = name
    · subst he
      have hnot : (e.1, b) ∉ l := fun hm => hnew (List.mem_map.mpr ⟨_, hm, rfl⟩)
      simp [hnot, Prod.ext_iff, eq_comm]
    · have hne : (name, b) ≠ e := fun hm => he (by rw [← hm])
      simp [he, hne, ih hl]

@[simp] theorem withFailed_names (failed : Finset String) :
    (g.withFailed failed).names = g.names := by
  simp [UnitGraph.withFailed, UnitGraph.names]

theorem withFailed_empty : g.withFailed ∅ = g := by
  simp [UnitGraph.withFailed]

theorem withFailed_setFailed (failed : Finset String) (name : String) :
    (g.withFailed failed).setFailed name = g.withFailed (insert name failed) := by
  simp only [UnitGraph.setFailed, UnitGraph.withFailed, List.map_map, UnitGraph.mk.injEq]
  refine List.map_congr_left fun e _ => ?_
  by_cases h : e.1 = name <;> simp [h]

theorem mem_withFailed {failed : Finset String} {name : String} {unit : ParsedUnit} :
    (name, unit) ∈ (g.withFailed failed).units ↔ ∃ ok, (name, { unit with ok := ok }) ∈ g.units ∧
      unit.ok = (ok && decide (name ∉ failed)) := by
  simp only [UnitGraph.withFailed, List.mem_map, Prod.mk.injEq]
  constructor
  · rintro ⟨⟨name, unit⟩, hm, rfl, rfl⟩
    exact ⟨unit.ok, hm, rfl⟩
  · rintro ⟨ok, hm, hok⟩
    refine ⟨_, hm, rfl, ?_⟩
    rw [← hok]

def UnitGraph.Marked (g : UnitGraph) (failed : Finset String) (a : String) : Prop :=
  ∃ unit, (a, unit) ∈ g.units ∧ (unit.ok = false ∨ a ∈ failed)

/-- Only units that lead to a failed one are marked. -/
structure UnitGraph.Sound (g : UnitGraph) (failed : Finset String) : Prop where
  known : failed ⊆ g.names.toFinset
  failing : ∀ a ∈ failed, g.Failing a

def UnitGraph.Settled (g : UnitGraph) (failed : Finset String) (name : String) : Prop :=
  ∀ b, g.Uses name b → g.Marked failed b → g.Marked failed name

theorem UnitGraph.Sound.of_marked {failed : Finset String} (h : g.Sound failed) {a : String}
    (ha : g.Marked failed a) : g.Failing a := by
  obtain ⟨unit, hm, hfailed | hin⟩ := ha
  · exact ⟨a, unit, .refl, hm, hfailed⟩
  · exact h.failing a hin

theorem UnitGraph.Failing.of_uses {a b : String} (h : g.Uses a b) (hb : g.Failing b) :
    g.Failing a := by
  obtain ⟨c, unit, hr, hm, hfailed⟩ := hb
  exact ⟨c, unit, .head h hr, hm, hfailed⟩

theorem UnitGraph.Sound.insert {failed : Finset String} (h : g.Sound failed) {name b : String}
    (hname : name ∈ g.names) (hu : g.Uses name b) (hb : g.Marked failed b) :
    g.Sound (insert name failed) := by
  refine ⟨Finset.insert_subset (List.mem_toFinset.mpr hname) h.known, fun a ha => ?_⟩
  rcases Finset.mem_insert.mp ha with rfl | ha
  · exact (h.of_marked hb).of_uses hu
  · exact h.failing a ha

theorem UnitGraph.Failing.marked {failed : Finset String} (h : ∀ a ∈ g.names, g.Settled failed a)
    {a : String} (ha : g.Failing a) : g.Marked failed a := by
  obtain ⟨b, unit, hr, hm, hfailed⟩ := ha
  induction hr using Relation.ReflTransGen.head_induction_on with
  | refl => exact ⟨unit, hm, .inl hfailed⟩
  | head hac _ ih =>
    obtain ⟨-, unit', ast, hm', -, -⟩ := id hac
    exact h _ (List.mem_map.mpr ⟨_, hm', rfl⟩) _ hac ih

section
variable (hg : (g.units.map (·.1)).Nodup)
include hg

theorem unit?_withFailed {failed : Finset String} {name : String} {unit : ParsedUnit} :
    (g.withFailed failed).unit? name = some unit ↔ ∃ ok,
      (name, { unit with ok := ok }) ∈ g.units ∧ unit.ok = (ok && decide (name ∉ failed)) := by
  rw [← mem_withFailed]
  refine find?_of_nodup ?_
  have hnames : (g.withFailed failed).names.Nodup := by rwa [withFailed_names]
  exact hnames

theorem dependencyFailed_withFailed {failed : Finset String} {uses : List String} :
    (g.withFailed failed).dependencyFailed uses = true ↔
      ∃ used ∈ uses, g.Marked failed (toLower used) := by
  simp only [UnitGraph.dependencyFailed, List.any_eq_true]
  refine exists_congr fun used => and_congr_right fun _ => ?_
  have hu : (g.withFailed failed).lookup used = (g.withFailed failed).unit? (toLower used) := rfl
  rw [hu]
  constructor
  · intro h
    cases hl : (g.withFailed failed).unit? (toLower used) with
    | none => simp [hl] at h
    | some unit =>
      obtain ⟨ok, hm, hok⟩ := (unit?_withFailed hg).mp hl
      have hf : unit.ok = false := by simpa [hl] using h
      rw [hf] at hok
      refine ⟨_, hm, ?_⟩
      cases ok with
      | false => exact .inl rfl
      | true => exact .inr (by simpa using hok)
  · rintro ⟨unit, hm, hfailed⟩
    have hl : (g.withFailed failed).unit? (toLower used) =
        some { unit with ok := unit.ok && decide (toLower used ∉ failed) } :=
      (unit?_withFailed hg).mpr ⟨unit.ok, hm, rfl⟩
    rcases hfailed with hfailed | hin
    · simp [hl, hfailed]
    · simp [hl, hin]

theorem unit_unique {name : String} {unit unit' : ParsedUnit} (h : (name, unit) ∈ g.units)
    (h' : (name, unit') ∈ g.units) : unit = unit' :=
  Option.some.inj (((find?_of_nodup hg).mpr h).symm.trans ((find?_of_nodup hg).mpr h'))

theorem uses_iff {name b : String} {unit : ParsedUnit} {ast : UnitNode}
    (hm : (name, unit) ∈ g.units) (hast : unit.ast = some ast) : g.Uses name b ↔
      b ∈ g.names ∧ b ∈ (ast.interfaceUses ++ ast.implUses).map toLower := by
  refine and_congr_right fun _ => ⟨?_, fun hb => ⟨unit, ast, hm, hast, hb⟩⟩
  rintro ⟨unit', ast', hm', hast', hb⟩
  cases unit_unique hg hm hm'
  rw [hast] at hast'
  cases hast'
  exact hb

theorem anyDependencyFailed_iff (failed : Finset String) {name : String} {unit : ParsedUnit}
    {ast : UnitNode} (hm : (name, unit) ∈ g.units) (hast : unit.ast = some ast) :
    ((g.withFailed failed).dependencyFailed ast.interfaceUses ||
      (g.withFailed failed).dependencyFailed ast.implUses) = true ↔
        ∃ b, g.Uses name b ∧ g.Marked failed b := by
  rw [Bool.or_eq_true, dependencyFailed_withFailed hg, dependencyFailed_withFailed hg]
  simp only [uses_iff hg hm hast, List.map_append, List.mem_append, List.mem_map]
  constructor
  · rintro (⟨used, hu, unit', hm', hmark⟩ | ⟨used, hu, unit', hm', hmark⟩)
    · exact ⟨toLower used, ⟨List.mem_map.mpr ⟨_, hm', rfl⟩, .inl ⟨used, hu, rfl⟩⟩,
        unit', hm', hmark⟩
    · exact ⟨toLower used, ⟨List.mem_map.mpr ⟨_, hm', rfl⟩, .inr ⟨used, hu, rfl⟩⟩,
        unit', hm', hmark⟩
  · rintro ⟨b, ⟨-, ⟨used, hu, rfl⟩ | ⟨used, hu, rfl⟩⟩, hmark⟩
    · exact .inl ⟨used, hu, hmark⟩
    · exact .inr ⟨used, hu, hmark⟩

theorem failDependent_spec (failed : Finset String) (changed : Bool) (name : String) :
    (UnitGraph.failDependent (g.withFailed failed, changed) name = (g.withFailed failed, changed) ∧
      g.Settled failed name) ∨
    (UnitGraph.failDependent (g.withFailed failed, changed) name =
        (g.withFailed (insert name failed), true) ∧
      name ∉ failed ∧ name ∈ g.names ∧ ∃ b, g.Uses name b ∧ g.Marked failed b) := by
  unfold UnitGraph.failDependent
  cases hl : (g.withFailed failed).unit? name with
  | none =>
    refine .inl ⟨rfl, fun b hb => ?_⟩
    obtain ⟨-, unit, ast, hm, -, -⟩ := hb
    have hl' : (g.withFailed failed).unit? name =
        some { unit with ok := unit.ok && decide (name ∉ failed) } :=
      (unit?_withFailed hg).mpr ⟨unit.ok, hm, rfl⟩
    rw [hl] at hl'
    contradiction
  | some unit =>
    obtain ⟨ok, hm, hok⟩ := (unit?_withFailed hg).mp hl
    cases hast : unit.ast with
    | none =>
      refine .inl ⟨by simp [hast], fun b hb => ?_⟩
      obtain ⟨-, unit', ast, hm', hast', -⟩ := hb
      cases unit_unique hg hm hm'
      simp [hast] at hast'
    | some ast =>
      cases hf : unit.ok with
      | false =>
        refine .inl ⟨by simp [hast, hf], fun b _ _ => ⟨_, hm, ?_⟩⟩
        rw [hf] at hok
        cases ok with
        | false => exact .inl rfl
        | true => exact .inr (by simpa using hok)
      | true =>
        have hnew : ok = true ∧ name ∉ failed := by simpa [hf] using hok.symm
        have hdep := anyDependencyFailed_iff hg failed hm hast
        by_cases hd : ∃ b, g.Uses name b ∧ g.Marked failed b
        · refine .inr ⟨?_, hnew.2, List.mem_map.mpr ⟨_, hm, rfl⟩, hd⟩
          simp only [hast, hf, hdep.mpr hd, if_true, Bool.true_eq_false, if_false,
            withFailed_setFailed]
        · refine .inl ⟨?_, fun b hb hmark => absurd ⟨b, hb, hmark⟩ hd⟩
          simp only [hast, hf, Bool.true_eq_false, if_false]
          rw [if_neg fun hcon => hd (hdep.mp hcon)]

theorem foldl_failDependent (l : List String) {failed : Finset String} (hs : g.Sound failed)
    (changed : Bool) : ∃ failed' changed',
      l.foldl UnitGraph.failDependent (g.withFailed failed, changed) =
        (g.withFailed failed', changed') ∧ g.Sound failed' ∧
      (failed' = failed ∧ changed' = changed ∧ (∀ name ∈ l, g.Settled failed name) ∨
        changed' = true ∧ failed.card < failed'.card) := by
  induction l generalizing failed changed with
  | nil => exact ⟨failed, changed, rfl, hs, .inl ⟨rfl, rfl, by simp⟩⟩
  | cons name l ih =>
    rw [List.foldl_cons]
    rcases failDependent_spec hg failed changed name with
      ⟨hstep, hsettled⟩ | ⟨hstep, hnew, hname, b, hu, hb⟩
    · rw [hstep]
      obtain ⟨failed', changed', hfold, hs', ⟨rfl, rfl, hall⟩ | hmore⟩ := ih hs changed
      · refine ⟨_, _, hfold, hs', .inl ⟨rfl, rfl, fun other hm => ?_⟩⟩
        rcases List.mem_cons.mp hm with rfl | hm
        · exact hsettled
        · exact hall other hm
      · exact ⟨_, _, hfold, hs', .inr hmore⟩
    · rw [hstep]
      have hcard := Finset.card_insert_of_notMem hnew
      obtain ⟨failed', changed', hfold, hs', ⟨rfl, rfl, -⟩ | ⟨hc, hlt⟩⟩ :=
        ih (hs.insert hname hu hb) true
      · exact ⟨_, _, hfold, hs', .inr ⟨rfl, by omega⟩⟩
      · exact ⟨_, _, hfold, hs', .inr ⟨hc, by omega⟩⟩

theorem loop_sweep (σ : HashOrder Nat) (n k : Nat) {failed : Finset String} (hs : g.Sound failed)
    (hn : g.names.length < n+failed.card) : ∃ failed',
      loop (UnitGraph.sweep σ) n (g.withFailed failed, k) = some (g.withFailed failed') ∧
        g.Sound failed' ∧ ∀ a ∈ g.names, g.Settled failed' a := by
  induction n generalizing failed k with
  | zero =>
    have hcard := Finset.card_le_card hs.known
    have hlen := List.toFinset_card_le g.names
    omega
  | succ n ih =>
    have hperm := σ.perm k (g.withFailed failed).names
    obtain ⟨failed', changed', hfold, hs', hcase⟩ :=
      foldl_failDependent hg (σ.walk k (g.withFailed failed).names) hs false
    rcases hcase with ⟨rfl, rfl, hall⟩ | ⟨rfl, hlt⟩
    · refine ⟨failed', loop_done ?_ n, hs', fun a ha => hall a (hperm.mem_iff.mpr ?_)⟩
      · simp only [UnitGraph.sweep, hfold]
      · rwa [withFailed_names]
    · obtain ⟨final, hloop, hfinal⟩ := ih (k+1) hs' (by omega)
      refine ⟨final, ?_, hfinal⟩
      have hstep : UnitGraph.sweep σ (g.withFailed failed, k) =
          .again (g.withFailed failed', k+1) := by simp only [UnitGraph.sweep, hfold]
      rw [loop_again hstep, hloop]

theorem propagateFailures_spec (σ : HashOrder Nat) : ∃ failed,
    g.propagateFailures σ = some (g.withFailed failed) ∧
      ∀ a, g.Marked failed a ↔ g.Failing a := by
  have hs : g.Sound ∅ := ⟨by simp, by simp⟩
  obtain ⟨failed, hloop, hsound, hsettled⟩ := loop_sweep hg σ (g.units.length+1) 0 hs
    (by simp [UnitGraph.names])
  rw [withFailed_empty] at hloop
  exact ⟨failed, hloop, fun a => ⟨hsound.of_marked, fun ha => ha.marked hsettled⟩⟩

end

theorem ok_iff_not_marked (hg : (g.units.map (·.1)).Nodup) {failed : Finset String} {name : String}
    {unit : ParsedUnit} (hm : (name, unit) ∈ g.units) :
    (unit.ok && decide (name ∉ failed)) = true ↔ ¬ g.Marked failed name := by
  constructor
  · rintro h ⟨unit', hm', hmark⟩
    cases unit_unique hg hm hm'
    simp only [Bool.and_eq_true, decide_eq_true_eq] at h
    rcases hmark with hf | hin
    · simp [hf] at h
    · exact h.2 hin
  · intro h
    by_contra hcon
    refine h ⟨unit, hm, ?_⟩
    cases hok : unit.ok with
    | false => exact .inl rfl
    | true => exact .inr (by simpa [hok] using hcon)

theorem withFailed_congr (hg : (g.units.map (·.1)).Nodup) {failed failed' : Finset String}
    (h : ∀ a, g.Marked failed a ↔ g.Marked failed' a) :
    g.withFailed failed = g.withFailed failed' := by
  simp only [UnitGraph.withFailed, UnitGraph.mk.injEq]
  refine List.map_congr_left fun e hm => ?_
  have hiff : (e.2.ok && decide (e.1 ∉ failed)) = (e.2.ok && decide (e.1 ∉ failed')) := by
    rw [Bool.eq_iff_iff, ok_iff_not_marked hg hm, ok_iff_not_marked hg hm, h]
  rw [hiff]

/-- The propagation ends, and a unit is left ok exactly when every known unit it leads to was ok,
itself among them. The outcome is one for all orders of the visits. -/
theorem propagateFailures_ok (g : UnitTable) : ∃ g' : UnitGraph,
    (∀ σ, g.propagateFailures σ = some g') ∧ g'.names = g.names ∧
    ∀ name unit, (name, unit) ∈ g.units → ∃ ok, (name, { unit with ok := ok }) ∈ g'.units ∧
      (ok = true ↔ unit.ok = true ∧ ∀ other unit', Relation.ReflTransGen g.Uses name other →
        (other, unit') ∈ g.units → unit'.ok = true) := by
  obtain ⟨failed, -, hmarked⟩ := propagateFailures_spec g.nodup .entries
  refine ⟨g.withFailed failed, fun σ => ?_, withFailed_names failed, fun name unit hm => ?_⟩
  · obtain ⟨failed', hσ, hmarked'⟩ := propagateFailures_spec g.nodup σ
    rw [hσ, withFailed_congr g.nodup fun a => (hmarked' a).trans (hmarked a).symm]
  · refine ⟨unit.ok && decide (name ∉ failed), mem_withFailed.mpr ⟨unit.ok, hm, rfl⟩, ?_⟩
    rw [ok_iff_not_marked g.nodup hm, hmarked]
    constructor
    · intro h
      have hall : ∀ other unit', Relation.ReflTransGen g.Uses name other →
          (other, unit') ∈ g.units → unit'.ok = true := by
        intro other unit' hr hm'
        by_contra hf
        exact h ⟨other, unit', hr, hm', by simpa using hf⟩
      exact ⟨hall name unit .refl hm, hall⟩
    · rintro ⟨-, hall⟩ ⟨other, unit', hr, hm', hf⟩
      rw [hall other unit' hr hm'] at hf
      contradiction

end
end Tp2cc
