import Tp2cc.Graph.LeastFirst
import Tp2cc.Machine.Loop
import Tp2cc.Units.InitOrder
import Tp2cc.Units.TypeMentions

/-! The order in which the type declarations of a scope are written: each after the declarations
its C++ type needs. -/
set_option autoImplicit false

namespace Tp2cc
open Graph Machine

variable {δ σ : Type}

structure BoundTypeDecl (δ σ : Type) where
  symbol : Option σ
  type : Option (BoundType δ)

def BoundType.isPointer : BoundType δ → Bool
  | .tyPointer _ => true
  | _ => false

def BoundType.isForwardDeclarable : BoundType δ → Bool
  | .tyRecord _ _ _ => true
  | .tyObject _ _ => true
  | .tyInterface _ => true
  | _ => false

def isForwardDeclarableType (declaration : BoundTypeDecl δ σ) : Bool :=
  declaration.type.any BoundType.isForwardDeclarable

/-- What the loop over the ready declarations keeps. The part of `ready` before `ready_index` is
`ordered`. -/
structure TypeOrdering where
  ordered : List Nat
  ready : List Nat
  indegree : Nat → Int

section
variable [DecidableEq δ] [DecidableEq σ] (links : TypeLinks δ σ)
  (declarations : List (BoundTypeDecl δ σ)) (order : HashOrder Nat)

def ownDescriptor (declaration : BoundTypeDecl δ σ) : Option δ := do
  let symbol ← declaration.symbol
  let descriptor ← links.descriptor symbol
  if links.symbol descriptor = some symbol then some descriptor else none

/-- The last declaration of a descriptor counts: a completed class replaces its forward entry. -/
def declarationForDescriptor : δ → Option Nat :=
  declarations.zipIdx.foldl (fun table entry =>
    match ownDescriptor links entry.1 with
    | none => table
    | some descriptor => Function.update table descriptor (some entry.2)) fun _ => none

/-- Does the use of a descriptor in declaration `i` need declaration `j` before it? -/
def needsEdge (i j : Nat) : Bool :=
  j ≠ i &&
    !(declarations[i]?.any (·.type.any BoundType.isPointer) &&
      declarations[j]?.any isForwardDeclarableType)

def addTypeDependency (i : Nat) (dependencies : Finset Nat) (descriptor : δ) : Finset Nat :=
  match declarationForDescriptor links declarations descriptor with
  | none => dependencies
  | some j => if needsEdge declarations i j then insert j dependencies else dependencies

def mentioned (i : Nat) : List δ :=
  match declarations[i]?.bind (·.type) with
  | none => []
  | some type => collectTypeDependencies links type []

def typeDependencies (i : Nat) : Finset Nat :=
  (order.walk i (mentioned links declarations i)).foldl (addTypeDependency links declarations i) ∅

def releaseType (dependencies : Nat → Finset Nat) (d : Nat) (s : TypeOrdering) (i : Nat) :
    TypeOrdering :=
  if d ∈ dependencies i then
    let left := s.indegree i - 1
    { s with
      indegree := Function.update s.indegree i left
      ready := if left = 0 then s.ready ++ [i] else s.ready }
  else s

def placeReady (dependencies : Nat → Finset Nat) (n : Nat) (s : TypeOrdering) :
    LoopStep TypeOrdering (List Nat) :=
  match s.ready with
  | [] => .done s.ordered
  | d :: ready =>
    .again ((List.range n).foldl (releaseType dependencies d)
      { s with ordered := s.ordered ++ [d], ready := ready })

def readyTypes (dependencies : Nat → Finset Nat) (n : Nat) : TypeOrdering where
  ordered := []
  ready := (List.range n).filter fun i => (dependencies i).card = 0
  indegree i := (dependencies i).card

/-- The positions of the declarations in their new order; `none` only when the fuel runs out. -/
def orderedPositions (dependencies : Nat → Finset Nat) (n : Nat) : Option (List Nat) := do
  let ordered ← loop (placeReady dependencies n) (n+1) (readyTypes dependencies n)
  return ordered ++ (List.range n).filter (· ∉ ordered)

def orderedTypeDecls : Option (List (BoundTypeDecl δ σ)) := do
  let positions ← orderedPositions (typeDependencies links declarations order) declarations.length
  return positions.filterMap (declarations[·]?)

/-- The descriptor is the one that the declaration itself stands for. -/
def BoundTypeDecl.Declares (declaration : BoundTypeDecl δ σ) (d : δ) : Prop :=
  ∃ s, declaration.symbol = some s ∧ links.descriptor s = some d ∧ links.symbol d = some s

/-- The last declaration of a descriptor completes it. -/
def DeclaredAt (d : δ) (j : Nat) : Prop :=
  (∃ declaration, declarations[j]? = some declaration ∧ declaration.Declares links d) ∧
    ∀ k declaration, j < k → declarations[k]? = some declaration → ¬declaration.Declares links d

/-- C++ can name the type before it is complete. -/
inductive ForwardDeclarable : BoundType δ → Prop
  | record {nestedTypes fields : List (Option (BoundType δ))}
      {variantPart : Option (BoundVariant δ)} :
      ForwardDeclarable (.tyRecord nestedTypes fields variantPart)
  | object {descriptor : Option δ} {members : List (BoundMember δ)} :
      ForwardDeclarable (.tyObject descriptor members)
  | interface {members : List (BoundMember δ)} : ForwardDeclarable (.tyInterface members)

/-- Declaration `i` needs `j` before it: its type mentions a type that is declared there, `j` is
another declaration, and this is not a pointer to a type that C++ can declare in advance. -/
def NeedsDecl (i j : Nat) : Prop :=
  ∃ declaration type d needed, declarations[i]? = some declaration ∧
    declaration.type = some type ∧ Mentions links type d ∧ DeclaredAt links declarations d j ∧
    declarations[j]? = some needed ∧ i ≠ j ∧
      ¬((∃ target, type = .tyPointer target) ∧ ∃ t, needed.type = some t ∧ ForwardDeclarable t)

/-- The declaration has needs, or needs of needs, on a cycle. -/
def StuckDecl (i : Nat) : Prop :=
  ∃ c, Relation.ReflTransGen (NeedsDecl links declarations) i c ∧
    Relation.TransGen (NeedsDecl links declarations) c c

end

section
variable [DecidableEq δ] [DecidableEq σ] {links : TypeLinks δ σ}
  {declarations : List (BoundTypeDecl δ σ)}

theorem declarationForDescriptor_concat (declaration : BoundTypeDecl δ σ) (descriptor : δ) :
    declarationForDescriptor links (declarations ++ [declaration]) descriptor =
      if ownDescriptor links declaration = some descriptor then some declarations.length
      else declarationForDescriptor links declarations descriptor := by
  rw [declarationForDescriptor, List.zipIdx_append, List.foldl_append]
  cases h : ownDescriptor links declaration with
  | none => simp [h, declarationForDescriptor]
  | some own =>
    by_cases hown : own = descriptor
    · simp [h, hown]
    · simp [h, hown, Ne.symm hown, declarationForDescriptor]

omit [DecidableEq δ] in
theorem ownDescriptor_iff {declaration : BoundTypeDecl δ σ} {d : δ} :
    ownDescriptor links declaration = some d ↔ declaration.Declares links d := by
  simp only [ownDescriptor, bind, Option.bind_eq_some_iff, BoundTypeDecl.Declares]
  apply exists_congr
  intro s
  apply and_congr_right
  intro _
  constructor
  · rintro ⟨own, hown, h⟩
    split at h
    · rename_i hsymbol
      cases h
      exact ⟨hown, hsymbol⟩
    · cases h
  · rintro ⟨hown, hsymbol⟩
    exact ⟨d, hown, if_pos hsymbol⟩

theorem declarationForDescriptor_declaredAt {d : δ} {j : Nat}
    (h : declarationForDescriptor links declarations d = some j) :
    DeclaredAt links declarations d j := by
  induction declarations using List.reverseRecOn with
  | nil => simp [declarationForDescriptor] at h
  | append_singleton declarations last ih =>
    rw [declarationForDescriptor_concat] at h
    split at h
    · rename_i hown
      cases h
      refine ⟨⟨last, by simp, ownDescriptor_iff.mp hown⟩, fun k declaration hk hget => ?_⟩
      have hlt : k < (declarations ++ [last]).length := (List.getElem?_eq_some_iff.mp hget).1
      rw [List.length_append, List.length_singleton] at hlt
      omega
    · rename_i hown
      obtain ⟨hfirst, hlast⟩ := ih h
      obtain ⟨declaration, hget, hdeclares⟩ := hfirst
      have hj := (List.getElem?_eq_some_iff.mp hget).1
      refine ⟨⟨declaration, by rw [List.getElem?_append_left hj, hget], hdeclares⟩, ?_⟩
      intro k declaration' hk hget'
      by_cases hlt : k < declarations.length
      · rw [List.getElem?_append_left hlt] at hget'
        exact hlast k declaration' hk hget'
      · rw [List.getElem?_append_right (Nat.not_lt.mp hlt), List.getElem?_singleton] at hget'
        split at hget'
        · cases hget'
          exact fun hdeclares' => hown (ownDescriptor_iff.mpr hdeclares')
        · cases hget'

theorem declarationForDescriptor_isSome {d : δ} {declaration : BoundTypeDecl δ σ}
    (hmem : declaration ∈ declarations) (h : declaration.Declares links d) :
    ∃ j, declarationForDescriptor links declarations d = some j := by
  induction declarations using List.reverseRecOn with
  | nil => cases hmem
  | append_singleton declarations last ih =>
    rw [declarationForDescriptor_concat]
    split
    · exact ⟨_, rfl⟩
    · rename_i hown
      rw [List.mem_append, List.mem_singleton] at hmem
      cases hmem with
      | inl hmem => exact ih hmem
      | inr hlast => exact absurd (ownDescriptor_iff.mpr (hlast ▸ h)) hown

theorem declarationForDescriptor_iff {d : δ} {j : Nat} :
    declarationForDescriptor links declarations d = some j ↔ DeclaredAt links declarations d j := by
  refine ⟨declarationForDescriptor_declaredAt, fun h => ?_⟩
  obtain ⟨declaration, hget, hdeclares⟩ := h.1
  obtain ⟨k, hk⟩ := declarationForDescriptor_isSome (List.mem_of_getElem? hget) hdeclares
  obtain ⟨declaration', hget', hdeclares'⟩ := (declarationForDescriptor_declaredAt hk).1
  cases lt_trichotomy j k with
  | inl hlt => exact absurd hdeclares' (h.2 k declaration' hlt hget')
  | inr hge =>
    cases hge with
    | inl heq => rw [hk, heq]
    | inr hlt =>
      exact absurd hdeclares ((declarationForDescriptor_declaredAt hk).2 j declaration hlt hget)

omit [DecidableEq δ] in
theorem isForwardDeclarable_iff {t : BoundType δ} :
    t.isForwardDeclarable = true ↔ ForwardDeclarable t := by
  constructor
  · intro h
    cases t with
    | tyRecord => exact .record
    | tyObject => exact .object
    | tyInterface => exact .interface
    | _ => cases h
  · intro h
    cases h <;> rfl

omit [DecidableEq δ] in
theorem isPointer_iff {t : BoundType δ} : t.isPointer = true ↔ ∃ target, t = .tyPointer target := by
  constructor
  · intro h
    cases t with
    | tyPointer target => exact ⟨target, rfl⟩
    | _ => cases h
  · rintro ⟨target, rfl⟩
    rfl

theorem needsDecl_iff {i j : Nat} : NeedsDecl links declarations i j ↔
    ∃ d ∈ mentioned links declarations i,
      declarationForDescriptor links declarations d = some j ∧ needsEdge declarations i j := by
  have hedge {declaration needed : BoundTypeDecl δ σ} {type : BoundType δ}
      (hi : declarations[i]? = some declaration) (htype : declaration.type = some type)
      (hj : declarations[j]? = some needed) : needsEdge declarations i j = true ↔ i ≠ j ∧
        ¬((∃ target, type = .tyPointer target) ∧
          ∃ t, needed.type = some t ∧ ForwardDeclarable t) := by
    have hforward : isForwardDeclarableType needed = true ↔
        ∃ t, needed.type = some t ∧ ForwardDeclarable t := by
      rw [isForwardDeclarableType, Option.any_eq_true]
      simp only [isForwardDeclarable_iff]
    rw [← isPointer_iff, ← hforward, needsEdge, hi, hj]
    simp only [Option.any_some, htype, Bool.and_eq_true, decide_eq_true_eq, Bool.not_eq_true',
      Bool.and_eq_false_iff, not_and_or, Bool.not_eq_true]
    exact and_congr_left fun _ => ne_comm
  constructor
  · rintro ⟨declaration, type, d, needed, hi, htype, hmentions, hdeclared, hj, hne, hforward⟩
    refine ⟨d, ?_, declarationForDescriptor_iff.mpr hdeclared,
      (hedge hi htype hj).mpr ⟨hne, hforward⟩⟩
    rw [mentioned, hi, Option.bind_some, htype]
    exact (mem_collectTypeDependencies type []).mpr (.inr hmentions)
  · rintro ⟨d, hmem, hdeclared, hneeds⟩
    rw [declarationForDescriptor_iff] at hdeclared
    obtain ⟨needed, hj, -⟩ := hdeclared.1
    unfold mentioned at hmem
    split at hmem
    · cases hmem
    · rename_i type htype
      obtain ⟨declaration, hi, htype⟩ := Option.bind_eq_some_iff.mp htype
      have hmentions := (mem_collectTypeDependencies type []).mp hmem
      obtain ⟨hne, hforward⟩ := (hedge hi htype hj).mp hneeds
      exact ⟨declaration, type, d, needed, hi, htype, hmentions.resolve_left List.not_mem_nil,
        hdeclared, hj, hne, hforward⟩

theorem mem_foldl_addTypeDependency (i j : Nat) (descriptors : List δ) (s : Finset Nat) :
    j ∈ descriptors.foldl (addTypeDependency links declarations i) s ↔
      j ∈ s ∨ ∃ descriptor ∈ descriptors,
        declarationForDescriptor links declarations descriptor = some j ∧
          needsEdge declarations i j := by
  induction descriptors generalizing s with
  | nil => simp
  | cons descriptor descriptors ih =>
    have hone : j ∈ addTypeDependency links declarations i s descriptor ↔
        j ∈ s ∨ declarationForDescriptor links declarations descriptor = some j ∧
          needsEdge declarations i j := by
      unfold addTypeDependency
      cases h : declarationForDescriptor links declarations descriptor with
      | none => simp
      | some k =>
        by_cases hk : k = j
        · subst hk
          by_cases hedge : needsEdge declarations i k <;> simp [hedge]
        · by_cases hedge : needsEdge declarations i k <;> simp [hedge, hk, Ne.symm hk]
    simp only [List.foldl_cons, ih, hone, List.exists_mem_cons_iff, or_assoc]

theorem mem_typeDependencies (order : HashOrder Nat) {i j : Nat} :
    j ∈ typeDependencies links declarations order i ↔ NeedsDecl links declarations i j := by
  simp only [typeDependencies, mem_foldl_addTypeDependency, (order.perm i _).mem_iff,
    Finset.notMem_empty, false_or, needsDecl_iff]

theorem typeDependencies_order (order order' : HashOrder Nat) :
    typeDependencies links declarations order = typeDependencies links declarations order' := by
  funext i
  ext j
  rw [mem_typeDependencies, mem_typeDependencies]

omit [DecidableEq δ] [DecidableEq σ] in
theorem NeedsDecl.lt {i j : Nat} (h : NeedsDecl links declarations i j) :
    i < declarations.length ∧ j < declarations.length := by
  obtain ⟨declaration, type, d, needed, hi, -, -, -, hj, -⟩ := h
  exact ⟨(List.getElem?_eq_some_iff.mp hi).1, (List.getElem?_eq_some_iff.mp hj).1⟩

end

section
variable {dependencies : Nat → Finset Nat} {n d : Nat}

/-- Between two rounds: each counter is the number of needs not yet placed, and the declarations
without such needs are the placed and the ready ones. -/
structure TypeOrdering.Inv (dependencies : Nat → Finset Nat) (n : Nat) (s : TypeOrdering) : Prop where
  indegree : ∀ i < n, s.indegree i = (dependencies i \ s.ordered.toFinset).card
  started : ∀ i, i ∈ s.ordered ++ s.ready ↔ i < n ∧ ∀ j ∈ dependencies i, j ∈ s.ordered
  nodup : (s.ordered ++ s.ready).Nodup
  before : ∀ before after i, s.ordered = before ++ i :: after → ∀ j ∈ dependencies i, j ∈ before

theorem foldl_releaseType (dependencies : Nat → Finset Nat) (d : Nat) {l : List Nat} (hl : l.Nodup) (s : TypeOrdering) :
    (l.foldl (releaseType dependencies d) s).ordered = s.ordered ∧
    (l.foldl (releaseType dependencies d) s).ready =
      s.ready ++ l.filter (fun i => d ∈ dependencies i ∧ s.indegree i = 1) ∧
    ∀ i, (l.foldl (releaseType dependencies d) s).indegree i =
      if i ∈ l ∧ d ∈ dependencies i then s.indegree i - 1 else s.indegree i := by
  induction l generalizing s with
  | nil => simp
  | cons a l ih =>
    obtain ⟨ha, hl⟩ := List.nodup_cons.mp hl
    obtain ⟨hordered, hready, hindegree⟩ := ih hl (releaseType dependencies d s a)
    by_cases hd : d ∈ dependencies a
    · have hstep : releaseType dependencies d s a =
          { s with
            indegree := Function.update s.indegree a (s.indegree a - 1)
            ready := if s.indegree a - 1 = 0 then s.ready ++ [a] else s.ready } := by
        simp [releaseType, hd]
      have hfilter : l.filter (fun i => d ∈ dependencies i ∧
            Function.update s.indegree a (s.indegree a - 1) i = 1) =
          l.filter (fun i => d ∈ dependencies i ∧ s.indegree i = 1) := by
        refine List.filter_congr fun i hi => ?_
        rw [Function.update_of_ne]
        intro hia
        exact ha (hia ▸ hi)
      rw [hstep] at hordered hready hindegree
      simp only [List.foldl_cons, hstep]
      refine ⟨hordered, ?_, fun i => ?_⟩
      · rw [hready, hfilter]
        by_cases hone : s.indegree a = 1
        · simp [hone, hd]
        · have hleft : s.indegree a - 1 ≠ 0 := by omega
          simp [hone, hleft]
      · rw [hindegree]
        by_cases hia : i = a
        · subst hia
          simp [ha, hd]
        · simp [hia]
    · have hstep : releaseType dependencies d s a = s := by simp [releaseType, hd]
      rw [hstep] at hordered hready hindegree
      simp only [List.foldl_cons, hstep]
      refine ⟨hordered, ?_, fun i => ?_⟩
      · rw [hready]
        simp [hd]
      · rw [hindegree]
        by_cases hia : i = a
        · subst hia
          simp [hd]
        · simp [hia]

variable {s : TypeOrdering}

theorem TypeOrdering.Inv.place (h : s.Inv dependencies n) {ready : List Nat} (hs : s.ready = d :: ready) :
    ((List.range n).foldl (releaseType dependencies d)
      { s with ordered := s.ordered ++ [d], ready := ready }).Inv dependencies n := by
  obtain ⟨hordered, hready, hindegree⟩ := foldl_releaseType dependencies d (@List.nodup_range n)
    { s with ordered := s.ordered ++ [d], ready := ready }
  have hd : d ∈ s.ordered ++ s.ready := by simp [hs]
  have hnew : d ∉ s.ordered := by
    have hnodup := h.nodup
    rw [hs, List.nodup_append] at hnodup
    intro hmem
    exact hnodup.2.2 d hmem d List.mem_cons_self rfl
  have hneeds := ((h.started d).mp hd).2
  -- How many needs are left, once one of them is placed.
  have hcard : ∀ i, d ∈ dependencies i →
      (dependencies i \ s.ordered.toFinset).card =
        (dependencies i \ (s.ordered ++ [d]).toFinset).card + 1 := by
    intro i hi
    have herase : dependencies i \ (s.ordered ++ [d]).toFinset =
        (dependencies i \ s.ordered.toFinset).erase d := by
      ext j
      simp
      tauto
    rw [herase, Finset.card_erase_add_one]
    simp [hi, hnew]
  have hsame : ∀ i, d ∉ dependencies i →
      dependencies i \ (s.ordered ++ [d]).toFinset = dependencies i \ s.ordered.toFinset := by
    intro i hi
    ext j
    simp only [Finset.mem_sdiff, List.toFinset_append, Finset.mem_union, List.mem_toFinset,
      List.mem_singleton, not_or]
    constructor
    · intro hj
      exact ⟨hj.1, hj.2.1⟩
    · intro hj
      exact ⟨hj.1, hj.2, fun hjd => hi (hjd ▸ hj.1)⟩
  -- Those that become ready had this one need left.
  have hfreed : ∀ i, i ∈ (List.range n).filter (fun i => d ∈ dependencies i ∧ s.indegree i = 1) ↔
      i < n ∧ d ∈ dependencies i ∧ ∀ j ∈ dependencies i, j ∈ s.ordered ++ [d] := by
    intro i
    simp only [List.mem_filter, List.mem_range, Bool.decide_and, Bool.and_eq_true, decide_eq_true_eq]
    refine and_congr_right fun hi => and_congr_right fun hdi => ?_
    rw [h.indegree i hi, hcard i hdi]
    have hzero : (((dependencies i \ (s.ordered ++ [d]).toFinset).card + 1 : Nat) : Int) = 1 ↔
        dependencies i \ (s.ordered ++ [d]).toFinset = ∅ := by
      rw [← Finset.card_eq_zero]
      omega
    rw [hzero, Finset.sdiff_eq_empty_iff_subset]
    simp [Finset.subset_iff, or_comm]
  refine ⟨?_, ?_, ?_, ?_⟩
  · intro i hi
    rw [hindegree, hordered]
    simp only [List.mem_range, hi, true_and]
    rw [h.indegree i hi]
    by_cases hdi : d ∈ dependencies i
    · rw [if_pos hdi, hcard i hdi]
      omega
    · rw [if_neg hdi, hsame i hdi]
  · intro i
    rw [hordered, hready, ← List.append_assoc, List.mem_append, hfreed]
    have hstarted := h.started i
    rw [hs] at hstarted
    have hmid : i ∈ (s.ordered ++ [d]) ++ ready ↔ i ∈ s.ordered ++ d :: ready := by simp
    rw [hmid, hstarted]
    constructor
    · intro hi
      cases hi with
      | inl hold => exact ⟨hold.1, fun j hj => List.mem_append_left _ (hold.2 j hj)⟩
      | inr hfree => exact ⟨hfree.1, hfree.2.2⟩
    · intro hi
      by_cases hdi : d ∈ dependencies i
      · exact .inr ⟨hi.1, hdi, hi.2⟩
      · refine .inl ⟨hi.1, fun j hj => ?_⟩
        have hj' := hi.2 j hj
        rw [List.mem_append, List.mem_singleton] at hj'
        exact hj'.resolve_right fun hjd => hdi (hjd ▸ hj)
  · have hnodup := h.nodup
    rw [hs] at hnodup
    rw [hordered, hready, ← List.append_assoc, List.nodup_append]
    refine ⟨by simpa using hnodup, List.nodup_range.filter _, ?_⟩
    intro i hi j hj hij
    subst hij
    -- A declaration that waited for this one was neither placed nor ready.
    have hmid : i ∈ s.ordered ++ s.ready := by
      rw [hs]
      simpa using hi
    exact hnew (((h.started i).mp hmid).2 d ((hfreed i).mp hj).2.1)
  · rw [hordered]
    intro before after i hsplit j hj
    cases List.eq_nil_or_concat after with
    | inl hnil =>
      subst hnil
      obtain ⟨hbefore, hlast⟩ := List.append_inj' hsplit rfl
      cases hlast
      rw [← hbefore]
      exact hneeds j hj
    | inr hconcat =>
      obtain ⟨init, last, hafter⟩ := hconcat
      rw [hafter, List.concat_eq_append, ← List.cons_append, ← List.append_assoc] at hsplit
      exact h.before before init i (List.append_inj' hsplit rfl).1 j hj

theorem TypeOrdering.Inv.length_le (h : s.Inv dependencies n) : (s.ordered ++ s.ready).length ≤ n := by
  have hsub : (s.ordered ++ s.ready).toFinset ⊆ Finset.range n := by
    intro i hi
    exact Finset.mem_range.mpr ((h.started i).mp (List.mem_toFinset.mp hi)).1
  have hcard := Finset.card_le_card hsub
  rwa [Finset.card_range, List.toFinset_card_of_nodup h.nodup] at hcard

theorem readyTypes_inv : (readyTypes dependencies n).Inv dependencies n where
  indegree i _ := by simp [readyTypes]
  started i := by
    simp [readyTypes, Finset.eq_empty_iff_forall_notMem]
  nodup := by simpa [readyTypes] using List.nodup_range.filter _
  before before after i hs := by simp [readyTypes] at hs

theorem loop_placeReady {fuel : Nat} (h : s.Inv dependencies n) (hfuel : n < s.ordered.length + fuel) :
    ∃ s' : TypeOrdering, loop (placeReady dependencies n) fuel s = some s'.ordered ∧
      s'.Inv dependencies n ∧ s'.ready = [] := by
  induction fuel generalizing s with
  | zero =>
    have hle := h.length_le
    rw [List.length_append] at hle
    omega
  | succ fuel ih =>
    cases hs : s.ready with
    | nil => exact ⟨s, loop_done (by simp [placeReady, hs]) fuel, h, hs⟩
    | cons d ready =>
      have hstep : placeReady dependencies n s =
          .again ((List.range n).foldl (releaseType dependencies d)
            { s with ordered := s.ordered ++ [d], ready := ready }) := by
        simp [placeReady, hs]
      rw [loop_again hstep]
      refine ih (h.place hs) ?_
      rw [(foldl_releaseType dependencies d List.nodup_range _).1, List.length_append, List.length_singleton]
      omega

theorem TypeOrdering.Inv.placing (h : s.Inv dependencies n) (hs : s.ready = []) :
    Placing (Finset.range n) dependencies s.ordered where
  nodup := by simpa [hs] using h.nodup
  isReady before after i hsplit := by
    have hnodup := h.nodup
    rw [hs, List.append_nil, hsplit] at hnodup
    have hi := (h.started i).mp (by rw [hsplit]; simp)
    refine mem_ready.mpr ⟨Finset.mem_range.mpr hi.1, ?_, h.before before after i hsplit⟩
    intro hmem
    exact (List.nodup_append.mp hnodup).2.2 i hmem i List.mem_cons_self rfl
  none_ready := by
    rw [Finset.eq_empty_iff_forall_notMem]
    intro i hi
    obtain ⟨hlt, hout, hneeds⟩ := mem_ready.mp hi
    have hin := (h.started i).mpr ⟨Finset.mem_range.mp hlt, hneeds⟩
    rw [hs, List.append_nil] at hin
    exact hout hin

end

section
variable [DecidableEq δ] [DecidableEq σ] (links : TypeLinks δ σ)
  (declarations : List (BoundTypeDecl δ σ))

/-- What the order of the positions must be: each declaration once, a declaration that is not stuck
behind its needs, and the stuck ones last, as they stood. -/
structure OrdersTypeDecls (positions : List Nat) : Prop where
  perm : positions.Perm (List.range declarations.length)
  needsFirst : ∀ i < declarations.length, ¬ StuckDecl links declarations i →
    ∀ j, NeedsDecl links declarations i j → positions.idxOf j < positions.idxOf i
  stuckLast : ∃ placed stuck, positions = placed ++ stuck ∧
    (∀ i ∈ placed, ¬ StuckDecl links declarations i) ∧
    (∀ i ∈ stuck, StuckDecl links declarations i) ∧ stuck.Pairwise (· < ·)

variable {links declarations}

theorem stuck_iff (order : HashOrder Nat) (i : Nat) :
    Stuck (typeDependencies links declarations order) i ↔ StuckDecl links declarations i := by
  have hneeds : Needs (typeDependencies links declarations order) = NeedsDecl links declarations := by
    funext a b
    exact propext (mem_typeDependencies order)
  simp only [Stuck, Reaches, OnCycle, hneeds, StuckDecl]

theorem filterMap_range_length {α : Type} (l : List α) :
    (List.range l.length).filterMap (l[·]?) = l := by
  induction l using List.reverseRecOn with
  | nil => rfl
  | append_singleton l a ih =>
    have hleft : (List.range l.length).filterMap ((l ++ [a])[·]?) =
        (List.range l.length).filterMap (l[·]?) := by
      refine List.filterMap_congr fun i hi => ?_
      rw [List.getElem?_append_left (List.mem_range.mp hi)]
    rw [List.length_append, List.length_singleton, List.range_succ, List.filterMap_append, hleft, ih]
    simp

theorem ordersTypeDecls_of_placing (order : HashOrder Nat) {placed : List Nat}
    (h : Placing (Finset.range declarations.length) (typeDependencies links declarations order) placed) :
    OrdersTypeDecls links declarations
      (placed ++ (List.range declarations.length).filter (· ∉ placed)) := by
  have hclosed : ∀ i ∈ Finset.range declarations.length,
      typeDependencies links declarations order i ⊆ Finset.range declarations.length := by
    intro i _ j hj
    exact Finset.mem_range.mpr ((mem_typeDependencies order).mp hj).lt.2
  have hmem : ∀ i < declarations.length, (i ∈ placed ↔ ¬ StuckDecl links declarations i) := by
    intro i hi
    rw [h.mem_iff hclosed (Finset.mem_range.mpr hi), stuck_iff]
  refine ⟨?_, ?_, placed, _, rfl, ?_, ?_, ?_⟩
  · refine (List.perm_ext_iff_of_nodup ?_ List.nodup_range).mpr fun i => ?_
    · rw [List.nodup_append]
      refine ⟨h.nodup, List.nodup_range.filter _, fun i hi j hj hij => ?_⟩
      simp [← hij, hi] at hj
    · by_cases hi : i ∈ placed
      · simpa [hi] using Finset.mem_range.mp (h.mem_nodes hi)
      · simp [hi]
  · intro i hi hstuck j hj
    have hplaced : i ∈ placed := (hmem i hi).mpr hstuck
    have hneed : j ∈ typeDependencies links declarations order i := (mem_typeDependencies order).mpr hj
    rw [List.idxOf_append_of_mem hplaced, List.idxOf_append_of_mem (h.needs_mem hplaced hneed)]
    exact h.idxOf_lt hplaced hneed
  · intro i hi
    exact (hmem i (Finset.mem_range.mp (h.mem_nodes hi))).mp hi
  · intro i hi
    simp only [List.mem_filter, List.mem_range, decide_eq_true_eq] at hi
    by_contra hstuck
    exact hi.2 ((hmem i hi.1).mpr hstuck)
  · exact List.pairwise_lt_range.filter _

end

/-- The order of the declarations is found, and is the same whatever way the hash sets are walked. -/
theorem orderedTypeDecls_spec [DecidableEq δ] [DecidableEq σ] (links : TypeLinks δ σ)
    (declarations : List (BoundTypeDecl δ σ)) :
    ∃ positions, OrdersTypeDecls links declarations positions ∧
      (positions.filterMap (declarations[·]?)).Perm declarations ∧
      ∀ order, orderedTypeDecls links declarations order =
        some (positions.filterMap (declarations[·]?)) := by
  let dependencies := typeDependencies links declarations .entries
  obtain ⟨s, hloop, hinv, hready⟩ : ∃ s : TypeOrdering,
      loop (placeReady dependencies declarations.length) (declarations.length+1)
        (readyTypes dependencies declarations.length) = some s.ordered ∧
      s.Inv dependencies declarations.length ∧ s.ready = [] :=
    loop_placeReady readyTypes_inv (by simp [readyTypes])
  have horders := ordersTypeDecls_of_placing .entries (hinv.placing hready)
  refine ⟨_, horders, ?_, fun order => ?_⟩
  · exact (horders.perm.filterMap _).trans (.of_eq (filterMap_range_length declarations))
  · rw [orderedTypeDecls, typeDependencies_order order .entries, orderedPositions, hloop]
    rfl

end Tp2cc
