import Mathlib.Data.Finset.Card
import Mathlib.Logic.Relation

/-! Depth-first postorder over a graph whose edges come in two kinds, with a stack of active
nodes: a node met on the stack is skipped. -/
set_option autoImplicit false

namespace Graph

structure Edges (α : Type) where
  ok : α → Bool
  first : α → List α
  second : α → List α

structure Walk (α : Type) where
  out : List α
  active : Finset α
  emitted : Finset α

def visitAll {α : Type} (f : α → Walk α → Option (Walk α)) : List α → Walk α → Option (Walk α)
  | [], w => some w
  | a :: l, w => (f a w).bind (visitAll f l)

section
variable {α : Type} [DecidableEq α] (g : Edges α)

def finish (a : α) (w : Walk α) : Walk α :=
  let w' := { w with active := w.active.erase a }
  if a ∈ w'.emitted then w'
  else { w' with out := w'.out ++ [a], emitted := insert a w'.emitted }

/-- `none` only when the fuel runs out. -/
def visit : Nat → α → Walk α → Option (Walk α)
  | 0, _, _ => none
  | n+1, a, w =>
    if g.ok a = false ∨ a ∈ w.emitted ∨ a ∈ w.active then some w
    else
      ((visitAll (visit n) (g.first a) { w with active := insert a w.active }).bind
        (visitAll (visit n) (g.second a))).map (finish a)

end

namespace Edges
variable {α : Type} (g : Edges α)

def Next (a b : α) : Prop := b ∈ g.first a ++ g.second a ∧ g.ok b = true

def NextFirst (a b : α) : Prop := b ∈ g.first a ∧ g.ok b = true

def Reaches : α → α → Prop := Relation.ReflTransGen g.Next

theorem NextFirst.next {g : Edges α} {a b : α} (h : g.NextFirst a b) : g.Next a b :=
  ⟨List.mem_append_left _ h.1, h.2⟩

end Edges

section
variable {α : Type} (g : Edges α)

structure Walk.Inv (w : Walk α) : Prop where
  nodup : w.out.Nodup
  emitted : ∀ a, a ∈ w.emitted ↔ a ∈ w.out
  apart : ∀ a ∈ w.active, a ∉ w.out
  ok : ∀ a ∈ w.out, g.ok a = true
  closed : ∀ a ∈ w.out, ∀ b, g.Next a b → b ∈ w.out ∨ b ∈ w.active

/-- What visiting the nodes of `l` makes of a walk: the stack is back, the output is extended by
nodes of `R`, and each node of `l` that counts is in it or was on the stack. -/
structure Visited (R : α → Prop) (l : List α) (w w' : Walk α) : Prop where
  inv : w'.Inv g
  active : w'.active = w.active
  extended : ∃ new, w'.out = w.out ++ new ∧ ∀ b ∈ new, R b
  found : ∀ a ∈ l, g.ok a = true → a ∈ w'.out ∨ a ∈ w.active

def Ordered (out : List α) : Prop :=
  ∀ s a t, out = s ++ a :: t → ∀ b, g.NextFirst a b → b ∈ s

end

section
variable {α : Type} {g : Edges α} {R : α → Prop}

theorem Visited.nil {w : Walk α} (h : w.Inv g) : Visited g R [] w w :=
  ⟨h, rfl, ⟨[], by simp, by simp⟩, by simp⟩

theorem Visited.mono {R' : α → Prop} {l : List α} {w w' : Walk α} (h : Visited g R l w w')
    (hR : ∀ b, R b → R' b) : Visited g R' l w w' := by
  obtain ⟨new, e, r⟩ := h.extended
  exact ⟨h.inv, h.active, ⟨new, e, fun b hb => hR b (r b hb)⟩, h.found⟩

theorem Visited.append {l l' : List α} {w w₁ w₂ : Walk α} (h₁ : Visited g R l w w₁)
    (h₂ : Visited g R l' w₁ w₂) : Visited g R (l ++ l') w w₂ := by
  obtain ⟨new₁, e₁, r₁⟩ := h₁.extended
  obtain ⟨new₂, e₂, r₂⟩ := h₂.extended
  refine ⟨h₂.inv, h₂.active.trans h₁.active, ⟨new₁ ++ new₂, by rw [e₂, e₁, List.append_assoc],
    fun c hc => (List.mem_append.mp hc).elim (r₁ c) (r₂ c)⟩, fun c hc hok => ?_⟩
  cases List.mem_append.mp hc with
  | inl hc =>
    cases h₁.found c hc hok with
    | inl h => exact .inl (by rw [e₂]; exact List.mem_append_left _ h)
    | inr h => exact .inr h
  | inr hc => rw [← h₁.active]; exact h₂.found c hc hok

/-- A node of the list is on the stack or, after the visits, in the output, never both. -/
theorem Visited.mem_out_iff {l : List α} {w w' : Walk α} (h : Visited g R l w w') {a : α}
    (ha : a ∈ l) (hok : g.ok a = true) : a ∈ w'.out ↔ a ∉ w.active := by
  refine ⟨fun hm hact => h.inv.apart a (h.active ▸ hact) hm, fun hact => ?_⟩
  exact (h.found a ha hok).resolve_right hact

theorem ordered_append_singleton {out : List α} {a : α} :
    Ordered g (out ++ [a]) ↔ Ordered g out ∧ ∀ b, g.NextFirst a b → b ∈ out := by
  constructor
  · intro h
    exact ⟨fun s c t hs => h s c (t ++ [a]) (by rw [hs]; simp), h out a [] rfl⟩
  · rintro ⟨h, ha⟩ s c t hs
    cases t using List.reverseRecOn with
    | nil =>
      have := List.append_inj' hs rfl
      obtain ⟨rfl, hc⟩ := this
      cases hc
      exact ha
    | append_singleton t d =>
      have hs' : out ++ [a] = (s ++ c :: t) ++ [d] := by rw [hs]; simp
      exact h s c t (List.append_inj' hs' rfl).1

theorem Visited.skip {a : α} {w : Walk α} (hw : w.Inv g)
    (h : g.ok a = false ∨ a ∈ w.emitted ∨ a ∈ w.active) : Visited g R [a] w w := by
  refine ⟨hw, rfl, ⟨[], by simp, by simp⟩, fun b hb hok => ?_⟩
  rw [List.mem_singleton.mp hb] at hok ⊢
  rcases h with h | h | h
  · rw [hok] at h; contradiction
  · exact .inl ((hw.emitted a).mp h)
  · exact .inr h

def Walk.empty : Walk α := ⟨[], ∅, ∅⟩

theorem Walk.empty_inv : (Walk.empty : Walk α).Inv g := by
  constructor <;> simp [Walk.empty]

def FreshAll (f : α → Walk α → Option (Walk α)) (fresh : α → Walk α → Prop) :
    List α → Walk α → Prop
  | [], _ => True
  | a :: l, w => fresh a w ∧ ∀ w', f a w = some w' → FreshAll f fresh l w'

/-- The outcome of visits along `l`: they succeed, do what visits do, and keep the order exactly
where `fresh` holds. -/
def Succeeds (g : Edges α) (R : α → Prop) (l : List α) (w : Walk α) (result : Option (Walk α))
    (fresh : Prop) : Prop :=
  ∃ w', result = some w' ∧ Visited g R l w w' ∧ (Ordered g w'.out ↔ Ordered g w.out ∧ fresh)

theorem visitAll_spec {f : α → Walk α → Option (Walk α)} {fresh : α → Walk α → Prop} {l : List α}
    {w : Walk α} (hw : w.Inv g)
    (hf : ∀ a ∈ l, ∀ w₁ : Walk α, w₁.Inv g → w₁.active = w.active →
      Succeeds g R [a] w₁ (f a w₁) (fresh a w₁)) :
    Succeeds g R l w (visitAll f l w) (FreshAll f fresh l w) := by
  induction l generalizing w with
  | nil => exact ⟨w, rfl, .nil hw, by simp [FreshAll]⟩
  | cons a l ih =>
    obtain ⟨w₁, h₁, v₁, o₁⟩ := hf a (by simp) w hw rfl
    obtain ⟨w₂, h₂, v₂, o₂⟩ := ih v₁.inv fun b hb w₁' hi ha =>
      hf b (by simp [hb]) w₁' hi (ha.trans v₁.active)
    refine ⟨w₂, by rw [visitAll, h₁]; exact h₂, v₁.append v₂, ?_⟩
    rw [o₂, o₁]
    simp only [FreshAll, h₁, Option.some.injEq, forall_eq', and_assoc]

theorem visitAll_active {f : α → Walk α → Option (Walk α)}
    (hf : ∀ a w w', f a w = some w' → w'.active = w.active) {l : List α} {w w' : Walk α}
    (h : visitAll f l w = some w') : w'.active = w.active := by
  induction l generalizing w with
  | nil => cases h; rfl
  | cons a l ih =>
    obtain ⟨w₁, h₁, h₂⟩ := Option.bind_eq_some_iff.mp h
    exact (ih h₂).trans (hf a w w₁ h₁)

theorem freshAll_of {f : α → Walk α → Option (Walk α)} {fresh : α → Walk α → Prop}
    (hf : ∀ a w w', f a w = some w' → w'.active = w.active) {l : List α} {w : Walk α}
    (h : ∀ a ∈ l, ∀ w₁ : Walk α, w₁.active = w.active → fresh a w₁) : FreshAll f fresh l w := by
  induction l generalizing w with
  | nil => trivial
  | cons a l ih =>
    refine ⟨h a (by simp) w rfl, fun w₁ h₁ => ih fun b hb w₂ h₂ => ?_⟩
    exact h b (by simp [hb]) w₂ (h₂.trans (hf a w w₁ h₁))

end

section
variable {α : Type} [DecidableEq α] {g : Edges α}

theorem Visited.finish {a : α} {w w' : Walk α} (hok : g.ok a = true) (hact : a ∉ w.active)
    (h : Visited g (g.Reaches a) (g.first a ++ g.second a)
      { w with active := insert a w.active } w') :
    Visited g (g.Reaches a) [a] w (Graph.finish a w') ∧
      (Graph.finish a w').out = w'.out ++ [a] := by
  obtain ⟨new, e, r⟩ := h.extended
  simp only at e
  have hactive : w'.active = insert a w.active := h.active
  have hna : a ∉ w'.out := h.inv.apart a (by rw [hactive]; exact Finset.mem_insert_self _ _)
  have hne : a ∉ w'.emitted := fun hm => hna ((h.inv.emitted a).mp hm)
  have hfin : Graph.finish a w' =
      { out := w'.out ++ [a], active := w.active, emitted := insert a w'.emitted } := by
    simp [Graph.finish, hne, hactive, Finset.erase_insert hact]
  rw [hfin]
  have hin : a ∈ w'.out ++ [a] := by simp
  refine ⟨⟨⟨?_, ?_, ?_, ?_, ?_⟩, rfl, ⟨new ++ [a], by simp [e], ?_⟩, by simp⟩, rfl⟩
  · rw [List.nodup_append]
    exact ⟨h.inv.nodup, List.nodup_singleton a, fun b hb c hc hbc =>
      hna (List.mem_singleton.mp hc ▸ hbc ▸ hb)⟩
  · intro b
    simp [h.inv.emitted, or_comm]
  · intro b hb hm
    have hbw : b ∉ w'.out := h.inv.apart b (by rw [hactive]; exact Finset.mem_insert_of_mem hb)
    have hba : b ≠ a := fun h => hact (h ▸ hb)
    simp [hbw, hba] at hm
  · intro b hb
    cases List.mem_append.mp hb with
    | inl hb => exact h.inv.ok b hb
    | inr hb => rw [List.mem_singleton.mp hb]; exact hok
  · intro b hb c hc
    have key : c ∈ w'.out ∨ c ∈ insert a w.active := by
      rw [← hactive]
      cases List.mem_append.mp hb with
      | inl hb => exact h.inv.closed b hb c hc
      | inr hb =>
        rw [List.mem_singleton.mp hb] at hc
        rw [hactive]
        exact h.found c hc.1 hc.2
    cases key with
    | inl hc => exact .inl (List.mem_append_left _ hc)
    | inr hc =>
      cases Finset.mem_insert.mp hc with
      | inl hc => exact .inl (by simp [hc])
      | inr hc => exact .inr hc
  · intro b hb
    cases List.mem_append.mp hb with
    | inl hb => exact r b hb
    | inr hb => rw [List.mem_singleton.mp hb]; exact .refl

theorem visit_skip {n : Nat} {a : α} {w : Walk α}
    (h : g.ok a = false ∨ a ∈ w.emitted ∨ a ∈ w.active) : visit g (n+1) a w = some w := by
  rw [visit, if_pos h]

theorem Walk.Inv.push {w : Walk α} (hw : w.Inv g) {a : α} (h : a ∉ w.emitted) :
    ({ w with active := insert a w.active } : Walk α).Inv g := by
  refine ⟨hw.nodup, hw.emitted, fun b hb => ?_, hw.ok, fun b hb c hc => ?_⟩
  · cases Finset.mem_insert.mp hb with
    | inl hb => rw [hb]; exact fun hm => h ((hw.emitted a).mpr hm)
    | inr hb => exact hw.apart b hb
  · exact (hw.closed b hb c hc).imp_right (Finset.mem_insert_of_mem ·)

def Fresh (g : Edges α) : Nat → α → Walk α → Prop
  | 0, _, _ => True
  | n+1, a, w =>
    g.ok a = true → a ∉ w.emitted → a ∉ w.active →
      let w₁ : Walk α := { w with active := insert a w.active }
      (∀ b, g.NextFirst a b → b ∉ w₁.active) ∧
        FreshAll (visit g n) (Fresh g n) (g.first a) w₁ ∧
        ∀ w₂, visitAll (visit g n) (g.first a) w₁ = some w₂ →
          FreshAll (visit g n) (Fresh g n) (g.second a) w₂

/-- With fuel for every node off the stack a visit succeeds. The order survives it exactly when
no node it enters has an edge of the first kind into the stack. A node it enters goes out last. -/
theorem visit_spec {nodes : Finset α} (hnodes : ∀ a, g.ok a = true → a ∈ nodes) (n : Nat) {a : α}
    {w : Walk α} (hw : w.Inv g) (hn : (nodes \ w.active).card < n) :
    Succeeds g (fun b => g.ok a = true ∧ g.Reaches a b) [a] w (visit g n a w) (Fresh g n a w) ∧
      (¬ (g.ok a = false ∨ a ∈ w.emitted ∨ a ∈ w.active) → ∀ w', visit g n a w = some w' →
        ∃ new, w'.out = new ++ [a]) := by
  induction n generalizing a w with
  | zero => exact absurd hn (Nat.not_lt_zero _)
  | succ n ih =>
    by_cases hskip : g.ok a = false ∨ a ∈ w.emitted ∨ a ∈ w.active
    · refine ⟨⟨w, visit_skip hskip, .skip hw hskip, ?_⟩, fun h => absurd hskip h⟩
      have hfresh : Fresh g (n+1) a w := by
        intro h₁ h₂ h₃
        rcases hskip with h | h | h
        · rw [h₁] at h; contradiction
        · exact absurd h h₂
        · exact absurd h h₃
      simp [hfresh]
    · obtain ⟨hok, hemitted, hactive⟩ : g.ok a = true ∧ a ∉ w.emitted ∧ a ∉ w.active := by
        simpa using hskip
      have hfuel : (nodes \ insert a w.active).card < n := by
        have : nodes \ insert a w.active ⊂ nodes \ w.active := by
          refine Finset.ssubset_iff_of_subset (Finset.sdiff_subset_sdiff (le_refl _)
            (Finset.subset_insert _ _)) |>.mpr ⟨a, ?_, ?_⟩ <;> simp [hnodes a hok, hactive]
        have := Finset.card_lt_card this
        omega
      have hvisit (l : List α) (hl : ∀ b ∈ l, g.ok b = true → g.Next a b) {w₁ : Walk α}
          (hi : w₁.Inv g) (ha : w₁.active = insert a w.active) :
          Succeeds g (g.Reaches a) l w₁ (visitAll (visit g n) l w₁)
            (FreshAll (visit g n) (Fresh g n) l w₁) := by
        refine visitAll_spec hi fun b hb w₂ hi₂ ha₂ => ?_
        obtain ⟨w₃, h₃, v₃, o₃⟩ := (ih (a := b) hi₂ (by rw [ha₂, ha]; exact hfuel)).1
        exact ⟨w₃, h₃, v₃.mono fun c hc => .head (hl b hb hc.1) hc.2, o₃⟩
      obtain ⟨w₁, h₁, v₁, o₁⟩ := hvisit (g.first a)
        (fun b hb hok => ⟨List.mem_append_left _ hb, hok⟩) (hw.push hemitted) rfl
      obtain ⟨w₂, h₂, v₂, o₂⟩ := hvisit (g.second a)
        (fun b hb hok => ⟨List.mem_append_right _ hb, hok⟩) v₁.inv v₁.active
      have v₁₂ := v₁.append v₂
      obtain ⟨vfin, hout⟩ := Visited.finish hok hactive v₁₂
      have hrun : visit g (n+1) a w = some (Graph.finish a w₂) := by
        rw [visit, if_neg hskip, h₁, Option.bind_some, h₂]; rfl
      refine ⟨⟨_, hrun, vfin.mono fun b hb => ⟨hok, hb⟩, ?_⟩, fun _ w' hw' => ⟨w₂.out, ?_⟩⟩
      case refine_2 =>
        rw [hrun] at hw'
        cases hw'
        exact hout
      -- the node goes out after its first successors where none of them was on the stack
      have hlast : (∀ b, g.NextFirst a b → b ∈ w₂.out) ↔
          ∀ b, g.NextFirst a b → b ∉ insert a w.active :=
        forall_congr' fun b => imp_congr_right fun hb =>
          v₁₂.mem_out_iff (List.mem_append_left _ hb.1) hb.2
      rw [hout, ordered_append_singleton, hlast, o₂, o₁]
      simp only [Fresh, hok, hemitted, hactive, not_false_eq_true, forall_const, h₁,
        Option.some.injEq, forall_eq']
      tauto

theorem visit_active (n : Nat) (a : α) (w w' : Walk α) (h : visit g n a w = some w') :
    w'.active = w.active := by
  induction n generalizing a w w' with
  | zero => contradiction
  | succ n ih =>
    rw [visit] at h
    split_ifs at h with hskip
    · cases h; rfl
    · have hactive : a ∉ w.active := fun h => hskip (.inr (.inr h))
      obtain ⟨w₂, h₂, rfl⟩ := Option.map_eq_some_iff.mp h
      obtain ⟨w₁, h₁, h₂⟩ := Option.bind_eq_some_iff.mp h₂
      have e := (visitAll_active ih h₂).trans (visitAll_active ih h₁)
      simp only [finish]
      split_ifs <;> simp only [e, Finset.erase_insert hactive]

/-- No edge of the first kind, from a node that counts, lies on a cycle. -/
def Edges.FirstAcyclic (g : Edges α) : Prop :=
  ∀ a b, g.ok a = true → g.NextFirst a b → ¬ g.Reaches b a

/-- The stack leads to the node that is visited, so an edge of the first kind into it would lie
on a cycle. -/
theorem fresh_of_firstAcyclic (hg : g.FirstAcyclic) (n : Nat) {a : α} {w : Walk α}
    (hreach : g.ok a = true → ∀ b ∈ w.active, g.Reaches b a) : Fresh g n a w := by
  induction n generalizing a w with
  | zero => trivial
  | succ n ih =>
    intro hok _ _ w₁
    have hstack : ∀ b ∈ w₁.active, g.Reaches b a := by
      intro b hb
      cases Finset.mem_insert.mp hb with
      | inl hb => rw [hb]; exact .refl
      | inr hb => exact hreach hok b hb
    have hall (l : List α) (hl : ∀ b ∈ l, g.ok b = true → g.Next a b) {w₂ : Walk α}
        (h₂ : w₂.active = w₁.active) : FreshAll (visit g n) (Fresh g n) l w₂ :=
      freshAll_of (visit_active n) fun b hb w₃ h₃ => ih fun hokb c hc =>
        (hstack c (by rwa [h₃, h₂] at hc)).tail (hl b hb hokb)
    refine ⟨fun b hb hin => hg a b hok hb (hstack b hin), ?_, fun w₂ h₂ => ?_⟩
    · exact hall (g.first a) (fun b hb hokb => ⟨List.mem_append_left _ hb, hokb⟩) rfl
    · exact hall (g.second a) (fun b hb hokb => ⟨List.mem_append_right _ hb, hokb⟩)
        (visitAll_active (visit_active n) h₂)

/-- The walk from a list of roots ends in an output without repetitions that holds what the roots
reach, in order exactly when no node entered has an edge of the first kind into the stack. -/
theorem walk_spec {nodes : Finset α} (hnodes : ∀ a, g.ok a = true → a ∈ nodes) {n : Nat}
    (hn : nodes.card < n) (roots : List α) :
    ∃ w, visitAll (visit g n) roots .empty = some w ∧ w.out.Nodup ∧
      (∀ b, b ∈ w.out ↔ ∃ a ∈ roots, g.ok a = true ∧ g.Reaches a b) ∧
      (Ordered g w.out ↔ FreshAll (visit g n) (Fresh g n) roots .empty) := by
  have hstep (a : α) (ha : a ∈ roots) (w : Walk α) (hi : w.Inv g)
      (hactive : w.active = (Walk.empty : Walk α).active) :
      Succeeds g (fun b => ∃ a ∈ roots, g.ok a = true ∧ g.Reaches a b) [a] w (visit g n a w)
        (Fresh g n a w) := by
    obtain ⟨w', h, v, o⟩ := (visit_spec hnodes n (a := a) hi
      (by rw [hactive]; simpa [Walk.empty] using hn)).1
    exact ⟨w', h, v.mono fun b hb => ⟨a, ha, hb⟩, o⟩
  obtain ⟨w, h, v, o⟩ := visitAll_spec Walk.empty_inv hstep
  obtain ⟨new, e, r⟩ := v.extended
  have hempty : w.active = ∅ := v.active
  refine ⟨w, h, v.inv.nodup, fun b => ⟨fun hb => r b (by simpa [e, Walk.empty] using hb), ?_⟩, ?_⟩
  · rintro ⟨a, ha, hok, hr⟩
    induction hr with
    | refl => exact (v.found a ha hok).resolve_right (by simp [Walk.empty])
    | tail _ hbc ih => exact (v.inv.closed _ ih _ hbc).resolve_right (by simp [hempty])
  · rw [o]
    simp [Walk.empty, Ordered]

/-- Entered first, the end of a first edge on a cycle goes out after its source. -/
theorem firstAcyclic_of_ordered {nodes : Finset α} (hnodes : ∀ a, g.ok a = true → a ∈ nodes)
    {n : Nat} (hn : nodes.card < n)
    (h : ∀ a w, g.ok a = true → visitAll (visit g n) [a] .empty = some w → Ordered g w.out) :
    g.FirstAcyclic := by
  intro a b hok hfirst hr
  obtain ⟨w, hrun, hnodup, hmem, -⟩ := walk_spec hnodes hn [b]
  obtain ⟨w', hw', -⟩ := (visit_spec hnodes n (a := b) Walk.empty_inv
    (by simpa [Walk.empty] using hn)).1
  obtain ⟨new, hlast⟩ := (visit_spec hnodes n (a := b) Walk.empty_inv
    (by simpa [Walk.empty] using hn)).2 (by simp [hfirst.2, Walk.empty]) w' hw'
  have hsame : w' = w := by
    simpa [visitAll, hw'] using hrun
  subst hsame
  have ha : a ∈ w'.out := (hmem a).mpr ⟨b, by simp, hfirst.2, hr⟩
  obtain ⟨s, t, hst⟩ := List.append_of_mem ha
  have hb : b ∈ s := h b w' hfirst.2 hrun s a t hst b hfirst
  have hbt : b ∈ a :: t := by
    have : (s ++ a :: t).getLast? = some b := by rw [← hst, hlast]; simp
    rw [List.getLast?_append] at this
    exact List.mem_of_getLast? (by simpa using this)
  rw [hst, List.nodup_append] at hnodup
  exact hnodup.2.2 b hb b hbt rfl

end
end Graph
