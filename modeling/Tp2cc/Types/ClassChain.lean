import Mathlib.Data.Finset.Union
import Tp2cc.Graph.ParentChain

/-! The walks of `TypeRegistry` up a class's parents, which may form a circle. -/
set_option autoImplicit false

namespace Tp2cc
open Graph

/-- `inlineSeen` are the first `inline_count_` places of the array. -/
structure SeenClassChain (κ : Type) where
  inlineSeen : List κ
  overflowSeen : Finset κ
  inline_le : inlineSeen.length ≤ 16

namespace SeenClassChain
variable {κ : Type}

def empty : SeenClassChain κ := ⟨[], ∅, Nat.zero_le _⟩

variable [DecidableEq κ]

def members (s : SeenClassChain κ) : Finset κ := s.inlineSeen.toFinset ∪ s.overflowSeen

def insertOverflow (s : SeenClassChain κ) (overflow : Finset κ) (cls : κ) :
    Bool × SeenClassChain κ :=
  (decide (cls ∉ overflow), { s with overflowSeen := insert cls overflow })

def mark (s : SeenClassChain κ) : Option κ → Bool × SeenClassChain κ
  | none => (false, s)
  | some cls =>
    if cls ∈ s.inlineSeen then (false, s)
    else if s.overflowSeen.Nonempty then s.insertOverflow s.overflowSeen cls
    else if h : s.inlineSeen.length < 16 then
      (true, { s with
        inlineSeen := s.inlineSeen ++ [cls]
        inline_le := by rw [List.length_append]; exact h })
    else s.insertOverflow s.inlineSeen.toFinset cls

def marks (s : SeenClassChain κ) : List (Option κ) → List Bool × SeenClassChain κ
  | [] => ([], s)
  | cls :: rest => ((s.mark cls).1 :: ((s.mark cls).2.marks rest).1, ((s.mark cls).2.marks rest).2)

def insertMark (s : Finset κ) : Option κ → Bool × Finset κ
  | none => (false, s)
  | some cls => (decide (cls ∉ s), insert cls s)

def insertMarks (s : Finset κ) : List (Option κ) → List Bool × Finset κ
  | [] => ([], s)
  | cls :: rest =>
    ((insertMark s cls).1 :: (insertMarks (insertMark s cls).2 rest).1,
      (insertMarks (insertMark s cls).2 rest).2)

@[simp] theorem members_empty : (empty : SeenClassChain κ).members = ∅ := rfl

/-- A mark is an insertion into what is marked. The array is moved to the set when it is full. -/
theorem mark_eq (s : SeenClassChain κ) (cls : Option κ) :
    insertMark s.members cls = ((s.mark cls).1, (s.mark cls).2.members) := by
  cases cls with
  | none => rfl
  | some cls =>
    rw [insertMark, mark]
    by_cases hin : cls ∈ s.inlineSeen
    · have hmem : cls ∈ s.members := by simp [members, hin]
      simp [hin, hmem]
    · have hiff : cls ∈ s.members ↔ cls ∈ s.overflowSeen := by simp [members, hin]
      rw [if_neg hin]
      by_cases hover : s.overflowSeen.Nonempty
      · rw [if_pos hover]
        simp [insertOverflow, hin, members]
      · have hnil := Finset.not_nonempty_iff_eq_empty.mp hover
        have hnew : cls ∉ s.members := by simp [hiff, hnil]
        rw [if_neg hover]
        split
        · ext
          · simp [hnew]
          · simp [members, hnil]
        · ext
          · simp [insertOverflow, hnew, hin]
          · simp [insertOverflow, members, hnil]

theorem marks_eq (s : SeenClassChain κ) (classes : List (Option κ)) :
    insertMarks s.members classes = ((s.marks classes).1, (s.marks classes).2.members) := by
  induction classes generalizing s with
  | nil => rfl
  | cons cls rest ih =>
    have hmark := s.mark_eq cls
    rw [insertMarks, marks, hmark]
    dsimp only
    rw [ih]

theorem mark_some (s : SeenClassChain κ) (cls : κ) :
    (s.mark (some cls)).1 = decide (cls ∉ s.members) ∧
      (s.mark (some cls)).2.members = insert cls s.members := by
  have hmark := s.mark_eq (some cls)
  rw [insertMark, Prod.mk.injEq] at hmark
  exact ⟨hmark.1.symm, hmark.2.symm⟩

end SeenClassChain

section
variable {κ σ ρ : Type} [Fintype κ] [DecidableEq κ]

theorem card_compl_mark_lt {seen : SeenClassChain κ} {cls : κ}
    (h : (seen.mark (some cls)).1 = true) :
    (seen.mark (some cls)).2.membersᶜ.card < seen.membersᶜ.card := by
  rw [(seen.mark_some cls).1, decide_eq_true_eq] at h
  rw [(seen.mark_some cls).2]
  exact card_compl_insert_lt h

end

/-- `while (ci && seen.mark(ci)) { .. ci = lookup_parent_class(*ci); }` -/
def classWalk {κ σ ρ : Type} [Fintype κ] [DecidableEq κ] (parent : κ → Option κ)
    (body : σ → κ → ρ ⊕ σ) (exit : σ → ρ) (seen : SeenClassChain κ) (s : σ) : Option κ → ρ
  | none => exit s
  | some ci =>
    if _h : (seen.mark (some ci)).1 then
      match body s ci with
      | .inl r => r
      | .inr s' => classWalk parent body exit (seen.mark (some ci)).2 s' (parent ci)
    else exit s
termination_by seen.membersᶜ.card
decreasing_by exact card_compl_mark_lt _h

/-- What the walks read of a `ClassInfo`. -/
structure ClassInfo (δ τ φ ε μ π : Type) where
  descriptor : Option δ
  parentSymbol : Option τ
  interfaceSymbols : List τ
  fields : String → Option φ
  enumMembers : String → Option ε
  methods : String → Option (List μ)
  properties : String → Option π
  defaultPropertyName : String

/-- The classes `κ` of a registry and what leads from one to another: the descriptor of a type
symbol and the class of a descriptor. -/
structure ClassTable (κ δ τ φ ε μ π : Type) where
  info : κ → ClassInfo δ τ φ ε μ π
  symbolDescriptor : τ → Option δ
  descriptorClass : δ → Option κ
  isOverload : μ → Bool

namespace ClassTable
variable {κ δ τ φ ε μ π : Type} (r : ClassTable κ δ τ φ ε μ π)

def symbolClass (symbol : τ) : Option κ := (r.symbolDescriptor symbol).bind r.descriptorClass

def lookupParentClass (c : κ) : Option κ := (r.info c).parentSymbol.bind r.symbolClass

def sameClassIdentity [DecidableEq κ] [DecidableEq δ] (a b : κ) : Bool :=
  match (r.info a).descriptor, (r.info b).descriptor with
  | some d, some e => d = e
  | _, _ => a = b

section
variable [Fintype κ] [DecidableEq κ]

def walkFrom {σ ρ : Type} (body : σ → κ → ρ ⊕ σ) (exit : σ → ρ) (s : σ) (c : κ) : ρ :=
  classWalk r.lookupParentClass body exit .empty s (some c)

/-- A walk that returns at the first class where there is something. -/
def lookupIn {β : Type} (found : κ → Option β) (c : κ) : Option β :=
  r.walkFrom (searchBody found (fun _ : Unit => some) id) (fun _ => none) () c

def implementsBody [DecidableEq τ] (targetSymbol : Option τ) (_ : Unit) (ci : κ) : Bool ⊕ Unit :=
  if targetSymbol.any fun target => decide (target ∈ (r.info ci).interfaceSymbols) then .inl true
  else .inr ()

def classImplementsInterface [DecidableEq τ] (c : κ) (targetSymbol : Option τ) : Bool :=
  r.walkFrom (r.implementsBody targetSymbol) (fun _ => false) () c

def classAncestorDepth [DecidableEq δ] (ancestor descendant : κ) : Int :=
  r.walkFrom
    (searchBody (fun ci => if r.sameClassIdentity ancestor ci then some () else none)
      (fun depth _ => depth) (· + 1))
    (fun _ => -1) (0 : Int) descendant

def lookupClassField (c : κ) (member : String) : Option φ :=
  r.lookupIn (fun ci => (r.info ci).fields member) c

def lookupClassEnumMember (c : κ) (member : String) : Option ε :=
  r.lookupIn (fun ci => (r.info ci).enumMembers member) c

def classHasEnumMember (c : κ) (member : String) : Bool :=
  (r.lookupClassEnumMember c member).isSome

/-- One class of `lookup_class_methods`: where it has the name it hides the classes above it unless
one of its methods is an overload. -/
def methodsBody (member : String) (merged : List μ) (ci : κ) : List μ ⊕ List μ :=
  match (r.info ci).methods member with
  | none => .inr merged
  | some found => if found.any r.isOverload then .inr (merged ++ found) else .inl (merged ++ found)

def mergedMethods (c : κ) (member : String) : List μ :=
  r.walkFrom (r.methodsBody member) id [] c

/-- With the cache, whose key has the descriptor for the class. -/
def lookupClassMethods [DecidableEq δ] (cache : Option δ × String → Option (List μ)) (c : κ)
    (member : String) : Option (List μ) × (Option δ × String → Option (List μ)) :=
  let key := ((r.info c).descriptor, member)
  match cache key with
  | some merged => (if merged.isEmpty then none else some merged, cache)
  | none =>
    let merged := r.mergedMethods c member
    (if merged.isEmpty then none else some merged,
      fun k => if k = key then some merged else cache k)

def lookupClassProperty (c : κ) (member : String) : Option π :=
  r.lookupIn (fun ci => (r.info ci).properties member) c

def lookupDefaultProperty (c : κ) : Option π :=
  r.lookupIn
    (fun ci =>
      if (r.info ci).defaultPropertyName = "" then none
      else (r.info ci).properties (r.info ci).defaultPropertyName)
    c

end

end ClassTable

section
variable {κ σ ρ : Type} [Fintype κ] [DecidableEq κ] {parent : κ → Option κ}

theorem classWalk_eq (body : σ → κ → ρ ⊕ σ) (exit : σ → ρ) (seen : SeenClassChain κ) (s : σ)
    (ci : Option κ) :
    classWalk parent body exit seen s ci = along body exit s (visits parent seen.members ci) := by
  cases ci with
  | none => rw [classWalk, visits, along]
  | some ci =>
    obtain ⟨hanswer, hmembers⟩ := seen.mark_some ci
    rw [classWalk, visits]
    by_cases hin : ci ∈ seen.members
    · simp [hanswer, hin, along]
    · have hmark : (seen.mark (some ci)).1 = true := by simp [hanswer, hin]
      rw [dif_pos hmark, dif_neg hin, along]
      cases body s ci with
      | inl r => rfl
      | inr s' =>
        have hrest := classWalk_eq body exit (seen.mark (some ci)).2 s' (parent ci)
        rwa [hmembers] at hrest
termination_by seen.membersᶜ.card
decreasing_by exact card_compl_mark_lt hmark

end

/-- The methods that a name has on a path: those of the first class that hides the others, and of
those before it. -/
def visibleMethods {κ μ : Type} (methods : κ → Option (List μ)) (isOverload : μ → Bool) :
    List κ → List μ
  | [] => []
  | ci :: path =>
    match methods ci with
    | none => visibleMethods methods isOverload path
    | some found => found ++ if found.any isOverload then visibleMethods methods isOverload path else []

namespace ClassTable
variable {κ δ τ φ ε μ π : Type} (r : ClassTable κ δ τ φ ε μ π)

theorem along_implementsBody [DecidableEq τ] (target : τ) (path : List κ) :
    along (r.implementsBody (some target)) (fun _ => false) () path = true ↔
      ∃ ci ∈ path, target ∈ (r.info ci).interfaceSymbols := by
  induction path with
  | nil => simp [along]
  | cons ci path ih =>
    by_cases hci : target ∈ (r.info ci).interfaceSymbols
    · simp [along, implementsBody, hci]
    · simpa [along, implementsBody, hci] using ih

theorem along_methodsBody (member : String) (merged : List μ) (path : List κ) :
    along (r.methodsBody member) id merged path =
      merged ++ visibleMethods (fun ci => (r.info ci).methods member) r.isOverload path := by
  induction path generalizing merged with
  | nil => simp [along, visibleMethods]
  | cons ci path ih =>
    rw [along, visibleMethods, methodsBody]
    cases (r.info ci).methods member with
    | none => exact ih merged
    | some found =>
      cases hover : found.any r.isOverload with
      | true => simp only [hover, if_true, ih, List.append_assoc]
      | false => simp [hover]

variable [Fintype κ] [DecidableEq κ]

def ancestors (c : κ) : List κ := visits r.lookupParentClass ∅ (some c)

theorem ancestors_complete (c : κ) : Complete r.lookupParentClass c (r.ancestors c) :=
  visits_complete r.lookupParentClass c

theorem walkFrom_eq {σ ρ : Type} (body : σ → κ → ρ ⊕ σ) (exit : σ → ρ) (s : σ) (c : κ) :
    r.walkFrom body exit s c = along body exit s (r.ancestors c) :=
  classWalk_eq body exit .empty s (some c)

theorem lookupIn_nearest {β : Type} (found : κ → Option β) (c : κ) :
    Nearest r.lookupParentClass c found (fun _ => some) none (r.lookupIn found c) := by
  rw [lookupIn, walkFrom_eq]
  exact (r.ancestors_complete c).nearest ()

theorem classImplementsInterface_iff [DecidableEq τ] (c : κ) (target : τ) :
    r.classImplementsInterface c (some target) = true ↔
      ∃ n ci, link r.lookupParentClass n c = some ci ∧ target ∈ (r.info ci).interfaceSymbols := by
  have hmem := (r.ancestors_complete c).mem_iff
  rw [classImplementsInterface, walkFrom_eq, along_implementsBody]
  constructor
  case mp =>
    rintro ⟨ci, hci, ht⟩
    obtain ⟨n, hn⟩ := (hmem ci).mp hci
    exact ⟨n, ci, hn, ht⟩
  case mpr =>
    rintro ⟨n, ci, hn, ht⟩
    exact ⟨ci, (hmem ci).mpr ⟨n, hn⟩, ht⟩

theorem mergedMethods_eq (c : κ) (member : String) : r.mergedMethods c member =
    visibleMethods (fun ci => (r.info ci).methods member) r.isOverload (r.ancestors c) := by
  rw [mergedMethods, walkFrom_eq]
  exact r.along_methodsBody member [] (r.ancestors c)

/-- The cache has what the walk would give, for each class that a key stands for. -/
def Coherent (cache : Option δ × String → Option (List μ)) : Prop :=
  ∀ c member merged, cache ((r.info c).descriptor, member) = some merged →
    r.mergedMethods c member = merged

theorem lookupClassMethods_eq [DecidableEq δ] {cache : Option δ × String → Option (List μ)}
    (hcache : r.Coherent cache)
    (hidentity : ∀ c c', (r.info c).descriptor = (r.info c').descriptor → c = c')
    (c : κ) (member : String) :
    (r.lookupClassMethods cache c member).1 =
        (if (r.mergedMethods c member).isEmpty then none else some (r.mergedMethods c member)) ∧
      r.Coherent (r.lookupClassMethods cache c member).2 := by
  rw [lookupClassMethods]
  cases hkey : cache ((r.info c).descriptor, member) with
  | some merged =>
    rw [hcache c member merged hkey]
    exact ⟨rfl, hcache⟩
  | none =>
    refine ⟨rfl, ?_⟩
    intro c' member' merged hmerged
    dsimp only at hmerged
    split at hmerged
    next heq =>
      rw [Prod.mk.injEq] at heq
      rw [hidentity c' c heq.1, heq.2]
      exact Option.some.inj hmerged
    next => exact hcache c' member' merged hmerged

/-- The least number of parent links to a class of the same identity, or `-1`. -/
def IsAncestorDepth [DecidableEq δ] (ancestor descendant : κ) (depth : Int) : Prop :=
  (depth = -1 ∧ ∀ n ci, link r.lookupParentClass n descendant = some ci →
      r.sameClassIdentity ancestor ci = false) ∨
    ∃ n : Nat, ∃ ci, depth = n ∧ link r.lookupParentClass n descendant = some ci ∧
      r.sameClassIdentity ancestor ci = true ∧
      ∀ k < n, ∀ ci', link r.lookupParentClass k descendant = some ci' →
        r.sameClassIdentity ancestor ci' = false

theorem classAncestorDepth_least [DecidableEq δ] (ancestor descendant : κ) :
    r.IsAncestorDepth ancestor descendant (r.classAncestorDepth ancestor descendant) := by
  have hcount (n : Nat) : (· + 1)^[n] (0 : Int) = n := by
    induction n with
    | zero => rfl
    | succ n ih =>
      rw [Function.iterate_succ_apply', ih]
      rfl
  rw [classAncestorDepth, walkFrom_eq]
  cases (r.ancestors_complete descendant).nearest (0 : Int) with
  | inl hnone =>
    refine .inl ⟨hnone.1, ?_⟩
    intro n ci hci
    simpa using hnone.2 n ci hci
  | inr hsome =>
    obtain ⟨n, ci, u, hn, hfound, hout, hbefore⟩ := hsome
    refine .inr ⟨n, ci, hout.trans (hcount n), hn, by simpa using hfound, ?_⟩
    intro k hk ci' hci'
    simpa using hbefore k hk ci' hci'

/-- The marks are insertions into a set; a walk takes the classes that it can reach, each at most
once, and finds what is nearest. -/
structure WalksOnce [DecidableEq δ] (c : κ) : Prop where
  marks : ∀ classes : List (Option κ), SeenClassChain.insertMarks ∅ classes =
    ((SeenClassChain.empty.marks classes).1, (SeenClassChain.empty.marks classes).2.members)
  complete : Complete r.lookupParentClass c (r.ancestors c)
  walk : ∀ (σ ρ : Type) (body : σ → κ → ρ ⊕ σ) (exit : σ → ρ) (s : σ),
    r.walkFrom body exit s c = along body exit s (r.ancestors c)
  lookup : ∀ (β : Type) (found : κ → Option β),
    Nearest r.lookupParentClass c found (fun _ => some) none (r.lookupIn found c)
  depth : ∀ ancestor, r.IsAncestorDepth ancestor c (r.classAncestorDepth ancestor c)

theorem walksOnce [DecidableEq δ] (c : κ) : r.WalksOnce c where
  marks := SeenClassChain.empty.marks_eq
  complete := r.ancestors_complete c
  walk _ _ body exit s := r.walkFrom_eq body exit s c
  lookup _ found := r.lookupIn_nearest found c
  depth ancestor := r.classAncestorDepth_least ancestor c

end ClassTable

end Tp2cc
