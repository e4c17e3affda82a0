import Tp2cc.Runtime.Set

/-! Programs over set variables of any element types, and the sets of ordinals that the
same operations make. -/
set_option autoImplicit false

namespace Tp2cc.Rt
open Machine

variable {ι : Type}

/-- Expressions over the set variables `ι`, typed by the element type of the C++ result. A literal
has the integer primitive that its element type is, if it is one. -/
inductive SetExpr (elem : ι → ElemType) : ElemType → Type
  | var (x : ι) : SetExpr elem (elem x)
  | empty (E : ElemType) : SetExpr elem E
  | fromList (E : ElemType) (prim : Option IntType) (xs : List LiteralNumber) : SetExpr elem E
  | literal (E : ElemType) (prim : Option IntType) (xs : List (LiteralElem LiteralNumber)) :
      SetExpr elem E
  | ofRange (E : ElemType) (xs : List (SetElem E)) : SetExpr elem E
  | union {E F : ElemType} (a : SetExpr elem E) (b : SetExpr elem F) : SetExpr elem E
  | diff {E F : ElemType} (a : SetExpr elem E) (b : SetExpr elem F) : SetExpr elem E
  | inter {E F : ElemType} (a : SetExpr elem E) (b : SetExpr elem F) : SetExpr elem E
  | symmetricDifference {E : ElemType} (a b : SetExpr elem E) : SetExpr elem E
  | setCast {E : ElemType} (F : ElemType) (a : SetExpr elem E) : SetExpr elem F

/-- What a test of the source compares. `memEmpty` is the test in an `EmptySet`. -/
inductive SetTest (elem : ι → ElemType)
  | eq {E F : ElemType} (a : SetExpr elem E) (b : SetExpr elem F)
  | ne {E F : ElemType} (a : SetExpr elem E) (b : SetExpr elem F)
  | le {E F : ElemType} (a : SetExpr elem E) (b : SetExpr elem F)
  | ge {E F : ElemType} (a : SetExpr elem E) (b : SetExpr elem F)
  | mem {E : ElemType} (v : Int) (a : SetExpr elem E)
  | memEmpty (v : Int)

inductive SetStmt (elem : ι → ElemType)
  | assign (x : ι) (e : SetExpr elem (elem x))
  | pInclude (x : ι) (v : Int)
  | pExclude (x : ι) (v : Int)

variable {elem : ι → ElemType}

abbrev SetState (elem : ι → ElemType) : Type := (x : ι) → Tp2ccSet (elem x)

def LiteralElem.emitted (prim : Option IntType) (x : LiteralElem LiteralNumber) : LiteralElem Int :=
  x.map (·.emitted prim)

def LiteralElem.listed (x : LiteralElem LiteralNumber) : LiteralElem Int := x.map (·.value)

/-- There is no value when the counter of a literal's range would overflow. -/
def SetExpr.eval (σ : SetState elem) : {E : ElemType} → SetExpr elem E → Option (Tp2ccSet E)
  | _, .var x => some (σ x)
  | _, .empty E => some (.empty E)
  | _, .fromList E prim xs => some (.fromList E (xs.map fun n => E.convert (n.emitted prim)))
  | _, .literal E prim xs => literalSet E (xs.map (·.emitted prim))
  | _, .ofRange E xs => setOfRange E xs
  | _, .union a b => do return (← a.eval σ).union (← b.eval σ)
  | _, .diff a b => do return (← a.eval σ).diff (← b.eval σ)
  | _, .inter a b => do return (← a.eval σ).inter (← b.eval σ)
  | _, .symmetricDifference a b => do return (← a.eval σ).symmetricDifference (← b.eval σ)
  | _, .setCast F a => do return (← a.eval σ).setCast F

def SetTest.eval (σ : SetState elem) : SetTest elem → Option Bool
  | .eq a b => do return (← a.eval σ).eq (← b.eval σ)
  | .ne a b => do return (← a.eval σ).ne (← b.eval σ)
  | .le a b => do return (← a.eval σ).le (← b.eval σ)
  | .ge a b => do return (← a.eval σ).ge (← b.eval σ)
  | @mem _ _ E v a => do return (← a.eval σ).contains (E.convert v)
  | .memEmpty _ => some false

def LiteralElem.Has : LiteralElem Int → Int → Prop
  | .value v, w => w = v
  | .range lo hi, w => lo ≤ w ∧ w ≤ hi

def SetElem.literal {E : ElemType} (x : SetElem E) : LiteralElem Int :=
  if x.isRange then .range x.lo.val x.hi.val else .value x.lo.val

def literalOrdinals (xs : List (LiteralElem Int)) : Set Int := {w | Ordinal w ∧ ∃ x ∈ xs, x.Has w}

/-- The same expression on sets of ordinals. -/
def SetExpr.meaning (ρ : ι → Set Int) : {E : ElemType} → SetExpr elem E → Set Int
  | _, .var x => ρ x
  | _, .empty _ => ∅
  | _, .fromList _ _ xs => {w | Ordinal w ∧ ∃ n ∈ xs, w = n.value}
  | _, .literal _ _ xs => literalOrdinals (xs.map (·.listed))
  | _, .ofRange _ xs => literalOrdinals (xs.map SetElem.literal)
  | _, .union a b => a.meaning ρ ∪ b.meaning ρ
  | _, .diff a b => a.meaning ρ \ b.meaning ρ
  | _, .inter a b => a.meaning ρ ∩ b.meaning ρ
  | _, .symmetricDifference a b => symmDiff (a.meaning ρ) (b.meaning ρ)
  | _, .setCast _ a => a.meaning ρ

def SetTest.Meaning (ρ : ι → Set Int) : SetTest elem → Prop
  | .eq a b => a.meaning ρ = b.meaning ρ
  | .ne a b => a.meaning ρ ≠ b.meaning ρ
  | .le a b => a.meaning ρ ⊆ b.meaning ρ
  | .ge a b => b.meaning ρ ⊆ a.meaning ρ
  | .mem v a => v ∈ a.meaning ρ
  | .memEmpty _ => False

def LiteralElem.Ends : LiteralElem Int → Prop
  | .value _ => True
  | .range lo hi => cxxInt64.reduce lo ≤ cxxInt64.reduce hi → cxxInt64.reduce hi ≠ cxxInt64.hi

/-- The ordinals that the emitted code makes of an element. -/
def LiteralElem.Reaches (E : ElemType) : LiteralElem Int → Int → Prop
  | .value v, w => E.Lands v w
  | .range lo hi, w => ∃ v, (cxxInt64.reduce lo ≤ v ∧ v ≤ cxxInt64.reduce hi) ∧ E.Lands v w

/-- The emitted numbers become the ordinals that are listed. -/
structure LiteralElem.Builds (E : ElemType) (emitted listed : LiteralElem Int) : Prop where
  ends : emitted.Ends
  same : ∀ w, Ordinal w → (emitted.Reaches E w ↔ listed.Has w)

/-- Every number of the literals is kept on its way into the bit array. -/
def SetExpr.Kept : {E : ElemType} → SetExpr elem E → Prop
  | _, .fromList E prim xs =>
    ∀ n ∈ xs, LiteralElem.Builds E (.value (n.emitted prim)) (.value n.value)
  | _, .literal E prim xs => ∀ x ∈ xs, LiteralElem.Builds E (x.emitted prim) x.listed
  | _, .ofRange E xs => ∀ x ∈ xs, LiteralElem.Builds E x.literal x.literal
  | _, .union a b => a.Kept ∧ b.Kept
  | _, .diff a b => a.Kept ∧ b.Kept
  | _, .inter a b => a.Kept ∧ b.Kept
  | _, .symmetricDifference a b => a.Kept ∧ b.Kept
  | _, .setCast _ a => a.Kept
  | _, _ => True

def SetTest.Kept : SetTest elem → Prop
  | .eq a b => a.Kept ∧ b.Kept
  | .ne a b => a.Kept ∧ b.Kept
  | .le a b => a.Kept ∧ b.Kept
  | .ge a b => a.Kept ∧ b.Kept
  | @mem _ _ E v a => E.Keeps v v ∧ a.Kept
  | .memEmpty _ => True

def SetStmt.Kept : SetStmt elem → Prop
  | .assign _ e => e.Kept
  | .pInclude x v => (elem x).Keeps v v
  | .pExclude x v => (elem x).Keeps v v

section
variable [DecidableEq ι]

def SetStmt.exec (σ : SetState elem) : SetStmt elem → Option (SetState elem)
  | .assign x e => do return Function.update σ x (← e.eval σ)
  | .pInclude x v => some (Function.update σ x ((σ x).pInclude v))
  | .pExclude x v => some (Function.update σ x ((σ x).pExclude v))

def SetStmt.meaning (ρ : ι → Set Int) : SetStmt elem → ι → Set Int
  | .assign x e => Function.update ρ x (e.meaning ρ)
  | .pInclude x v => Function.update ρ x (ρ x ∪ {w | Ordinal w ∧ w = v})
  | .pExclude x v => Function.update ρ x (ρ x \ {v})

def runSets (σ : SetState elem) (stmts : List (SetStmt elem)) : Option (SetState elem) :=
  stmts.foldlM SetStmt.exec σ

def runOrdinals (ρ : ι → Set Int) (stmts : List (SetStmt elem)) : ι → Set Int :=
  stmts.foldl SetStmt.meaning ρ

end

theorem ElemType.convert_val {E : ElemType} (e : E.Value) : E.convert e.val = e := by
  cases E with
  | integer t => exact Word.ofInt_of_holds e.mem
  | char => exact Word.ofInt_of_holds e.mem
  | bool =>
    have hval : (if e.val = 0 then (0 : Int) else 1) = e.val := by
      obtain ⟨h₁, h₂⟩ := e.mem
      simp only [carrier, IntType.lo, IntType.hi, Bool.false_eq_true, if_false] at h₁ h₂
      split <;> omega
    simp only [convert, hval]
    exact Word.ofInt_of_holds e.mem

theorem SetElem.addTo_literal {E : ElemType} (s : Tp2ccSet E) (x : SetElem E) :
    x.addTo s = x.literal.addTo s := by
  unfold addTo literal
  split
  · rfl
  · simp only [LiteralElem.addTo, ElemType.convert_val]

theorem Tp2ccSet.ordinals_add_of_keeps {E : ElemType} {v : Int} (h : E.Keeps v v)
    (s : Tp2ccSet E) :
    (s.add (E.convert v)).ordinals = s.ordinals ∪ {w | Ordinal w ∧ w = v} := by
  ext w
  rw [mem_add_convert, Set.mem_union, Set.mem_ofPred_eq]
  apply or_congr_right
  apply and_congr_right
  intro hw
  exact ElemType.keeps_self_iff.mp h w hw

namespace LiteralElem
variable {E : ElemType}

theorem addTo_exists {x : LiteralElem Int} (h : x.Ends) (s : Tp2ccSet E) :
    ∃ s', x.addTo s = some s' := by
  cases x with
  | value v => exact ⟨_, rfl⟩
  | range lo hi =>
    rw [addTo, Tp2ccSet.addRange, if_neg]
    · exact ⟨_, rfl⟩
    · intro hends
      exact h hends.1 hends.2

theorem ends_of_addTo {x : LiteralElem Int} {s s' : Tp2ccSet E} (h : x.addTo s = some s') :
    x.Ends := by
  cases x with
  | value v => trivial
  | range lo hi =>
    intro hle hend
    rw [addTo, Tp2ccSet.addRange, if_pos ⟨hle, hend⟩] at h
    cases h

theorem mem_addTo {x : LiteralElem Int} {s s' : Tp2ccSet E} (h : x.addTo s = some s') (w : Int) :
    w ∈ s'.ordinals ↔ w ∈ s.ordinals ∨ Ordinal w ∧ x.Reaches E w := by
  cases x with
  | value v =>
    cases h
    exact Tp2ccSet.mem_add_convert s v w
  | range lo hi =>
    rw [addTo, Tp2ccSet.addRange] at h
    split at h
    · cases h
    · cases h
      exact Tp2ccSet.mem_addRange s _ _ w

theorem addTo_of_builds {x y : LiteralElem Int} (h : Builds E x y) (s : Tp2ccSet E) :
    ∃ s', x.addTo s = some s' ∧ s'.ordinals = s.ordinals ∪ {w | Ordinal w ∧ y.Has w} := by
  obtain ⟨s', hs⟩ := addTo_exists h.ends s
  refine ⟨s', hs, ?_⟩
  ext w
  rw [mem_addTo hs, Set.mem_union, Set.mem_ofPred_eq]
  apply or_congr_right
  apply and_congr_right
  intro hw
  exact h.same w hw

theorem addTo_iff_builds {x y : LiteralElem Int} : (∀ s : Tp2ccSet E, ∃ s',
    x.addTo s = some s' ∧ s'.ordinals = s.ordinals ∪ {w | Ordinal w ∧ y.Has w}) ↔
      Builds E x y := by
  refine ⟨fun h => ?_, addTo_of_builds⟩
  obtain ⟨s, hs, ho⟩ := h (.empty E)
  refine ⟨ends_of_addTo hs, fun w hw => ?_⟩
  have hmem := Set.ext_iff.mp ho w
  rw [mem_addTo hs] at hmem
  simpa [hw] using hmem

end LiteralElem

section
variable {E : ElemType} {α : Type} {xs : List α} {emitted listed : α → LiteralElem Int}

theorem addLiterals_of_builds (h : ∀ x ∈ xs, LiteralElem.Builds E (emitted x) (listed x))
    (s : Tp2ccSet E) : ∃ s', (xs.map emitted).foldlM LiteralElem.addTo s = some s' ∧
      s'.ordinals = s.ordinals ∪ literalOrdinals (xs.map listed) := by
  induction xs generalizing s with
  | nil => exact ⟨s, rfl, by simp [literalOrdinals]⟩
  | cons x xs ih =>
    obtain ⟨s₁, hs₁, ho₁⟩ := LiteralElem.addTo_of_builds (h x (by simp)) s
    obtain ⟨s₂, hs₂, ho₂⟩ := ih (fun y hy => h y (by simp [hy])) s₁
    refine ⟨s₂, ?_, ?_⟩
    · rw [List.map_cons, List.foldlM_cons, hs₁]
      exact hs₂
    · rw [ho₂, ho₁, Set.union_assoc]
      congr 1
      ext w
      simp only [literalOrdinals, Set.mem_union, Set.mem_ofPred_eq, List.map_cons, List.mem_cons,
        exists_eq_or_imp]
      tauto

theorem literalSet_of_builds (h : ∀ x ∈ xs, LiteralElem.Builds E (emitted x) (listed x)) :
    ∃ s, literalSet E (xs.map emitted) = some s ∧
      s.ordinals = literalOrdinals (xs.map listed) := by
  obtain ⟨s, hs, ho⟩ := addLiterals_of_builds h (.empty E)
  rw [Tp2ccSet.ordinals_empty, Set.empty_union] at ho
  exact ⟨s, hs, ho⟩

end

theorem setOfRange_literal {E : ElemType} (xs : List (SetElem E)) :
    setOfRange E xs = literalSet E (xs.map SetElem.literal) := by
  have hfun : (SetElem.addTo : Tp2ccSet E → SetElem E → _) =
      fun s x => x.literal.addTo s := by
    funext s x
    exact x.addTo_literal s
  rw [setOfRange, literalSet, List.foldlM_map, hfun]

theorem fromList_literal {E : ElemType} {α : Type} (f : α → Int) (xs : List α) :
    literalSet E (xs.map fun x => .value (f x)) =
      some (.fromList E (xs.map fun x => E.convert (f x))) := by
  have key (s : Tp2ccSet E) :
      (xs.map fun x => LiteralElem.value (f x)).foldlM LiteralElem.addTo s =
        some ((xs.map fun x => E.convert (f x)).foldl Tp2ccSet.add s) := by
    induction xs generalizing s with
    | nil => rfl
    | cons x xs ih => exact ih (s.add (E.convert (f x)))
  exact key (.empty E)

theorem fromList_of_builds {E : ElemType} {prim : Option IntType} {xs : List LiteralNumber}
    (h : ∀ n ∈ xs, LiteralElem.Builds E (.value (n.emitted prim)) (.value n.value)) :
    (Tp2ccSet.fromList E (xs.map fun n => E.convert (n.emitted prim))).ordinals =
      {w | Ordinal w ∧ ∃ n ∈ xs, w = n.value} := by
  obtain ⟨s, hs, ho⟩ := literalSet_of_builds h
  rw [fromList_literal] at hs
  cases hs
  rw [ho]
  ext w
  simp [literalOrdinals, LiteralElem.Has]

def SetState.Represents (σ : SetState elem) (ρ : ι → Set Int) : Prop := ∀ x, (σ x).ordinals = ρ x

theorem SetExpr.eval_of_kept {σ : SetState elem} {ρ : ι → Set Int}
    (hσ : SetState.Represents σ ρ) {E : ElemType} (e : SetExpr elem E) (h : e.Kept) :
    ∃ s, e.eval σ = some s ∧ s.ordinals = e.meaning ρ := by
  induction e with
  | var x => exact ⟨_, rfl, hσ x⟩
  | empty E => exact ⟨_, rfl, Tp2ccSet.ordinals_empty⟩
  | fromList E prim xs => exact ⟨_, rfl, fromList_of_builds h⟩
  | literal E prim xs => exact literalSet_of_builds h
  | ofRange E xs =>
    rw [SetExpr.eval, setOfRange_literal]
    exact literalSet_of_builds h
  | union a b iha ihb =>
    obtain ⟨s, hs, hso⟩ := iha h.1
    obtain ⟨t, ht, hto⟩ := ihb h.2
    exact ⟨s.union t, by simp [eval, hs, ht], by simp [meaning, hso, hto]⟩
  | diff a b iha ihb =>
    obtain ⟨s, hs, hso⟩ := iha h.1
    obtain ⟨t, ht, hto⟩ := ihb h.2
    exact ⟨s.diff t, by simp [eval, hs, ht], by simp [meaning, hso, hto]⟩
  | inter a b iha ihb =>
    obtain ⟨s, hs, hso⟩ := iha h.1
    obtain ⟨t, ht, hto⟩ := ihb h.2
    exact ⟨s.inter t, by simp [eval, hs, ht], by simp [meaning, hso, hto]⟩
  | symmetricDifference a b iha ihb =>
    obtain ⟨s, hs, hso⟩ := iha h.1
    obtain ⟨t, ht, hto⟩ := ihb h.2
    exact ⟨s.symmetricDifference t, by simp [eval, hs, ht], by simp [meaning, hso, hto]⟩
  | setCast F a ih =>
    obtain ⟨s, hs, hso⟩ := ih h
    exact ⟨s.setCast F, by simp [eval, hs], by simp [meaning, hso]⟩

theorem Tp2ccSet.contains_of_keeps {E : ElemType} {v : Int} (h : E.Keeps v v)
    (s : Tp2ccSet E) : s.contains (E.convert v) = true ↔ v ∈ s.ordinals := by
  rw [contains_iff]
  constructor
  · intro hi
    have hl := (idx_convert E v hi.1).mp rfl
    rwa [ElemType.keeps_self_iff.mp h _ hi.1 |>.mp hl] at hi
  · intro hv
    have hl := (ElemType.keeps_self_iff.mp h v hv.1).mpr rfl
    rwa [(idx_convert E v hv.1).mpr hl]

theorem Tp2ccSet.pExclude_of_keeps {E : ElemType} {v : Int} (h : E.Keeps v v)
    (s : Tp2ccSet E) : (s.pExclude v).ordinals = s.ordinals \ {v} := by
  ext w
  rw [mem_ordinals_pExclude, Set.mem_sdiff, Set.mem_singleton_iff]
  apply and_congr_right
  intro hw
  have hl := (idx_convert E v hw.1).trans (ElemType.keeps_self_iff.mp h w hw.1)
  rw [ne_eq, eq_comm, hl]

theorem SetTest.eval_of_kept {σ : SetState elem} {ρ : ι → Set Int}
    (hσ : SetState.Represents σ ρ) (test : SetTest elem) (h : test.Kept) :
    ∃ b, test.eval σ = some b ∧ (b = true ↔ test.Meaning ρ) := by
  cases test with
  | eq a b =>
    obtain ⟨s, hs, hso⟩ := a.eval_of_kept hσ h.1
    obtain ⟨t, ht, hto⟩ := b.eval_of_kept hσ h.2
    refine ⟨s.eq t, by simp [eval, hs, ht], ?_⟩
    rw [Tp2ccSet.eq_iff, hso, hto, Meaning]
  | ne a b =>
    obtain ⟨s, hs, hso⟩ := a.eval_of_kept hσ h.1
    obtain ⟨t, ht, hto⟩ := b.eval_of_kept hσ h.2
    refine ⟨s.ne t, by simp [eval, hs, ht], ?_⟩
    rw [Tp2ccSet.ne, Bool.not_eq_true', ← Bool.not_eq_true, Tp2ccSet.eq_iff, hso, hto, Meaning]
  | le a b =>
    obtain ⟨s, hs, hso⟩ := a.eval_of_kept hσ h.1
    obtain ⟨t, ht, hto⟩ := b.eval_of_kept hσ h.2
    refine ⟨s.le t, by simp [eval, hs, ht], ?_⟩
    rw [Tp2ccSet.le_iff, hso, hto, Meaning]
  | ge a b =>
    obtain ⟨s, hs, hso⟩ := a.eval_of_kept hσ h.1
    obtain ⟨t, ht, hto⟩ := b.eval_of_kept hσ h.2
    refine ⟨s.ge t, by simp [eval, hs, ht], ?_⟩
    rw [Tp2ccSet.ge, Tp2ccSet.le_iff, hso, hto, Meaning]
  | @mem E v a =>
    obtain ⟨s, hs, hso⟩ := a.eval_of_kept hσ h.2
    refine ⟨s.contains (E.convert v), by simp [eval, hs], ?_⟩
    rw [Tp2ccSet.contains_of_keeps h.1, hso, Meaning]
  | memEmpty v => exact ⟨false, rfl, by simp [Meaning]⟩

section
variable [DecidableEq ι]

theorem SetState.Represents.update {σ : SetState elem} {ρ : ι → Set Int}
    (hσ : SetState.Represents σ ρ) {x : ι} {s : Tp2ccSet (elem x)} {o : Set Int}
    (h : s.ordinals = o) :
    SetState.Represents (Function.update σ x s) (Function.update ρ x o) := by
  intro y
  by_cases hy : y = x
  · subst hy
    simpa using h
  · simpa [hy] using hσ y

theorem SetStmt.exec_of_kept {σ : SetState elem} {ρ : ι → Set Int}
    (hσ : SetState.Represents σ ρ) (stmt : SetStmt elem) (h : stmt.Kept) :
    ∃ σ', stmt.exec σ = some σ' ∧ SetState.Represents σ' (stmt.meaning ρ) := by
  cases stmt with
  | assign x e =>
    obtain ⟨s, hs, hso⟩ := e.eval_of_kept hσ h
    exact ⟨Function.update σ x s, by simp [exec, hs], hσ.update hso⟩
  | pInclude x v =>
    have hadd := Tp2ccSet.ordinals_add_of_keeps h (σ x)
    rw [hσ x] at hadd
    exact ⟨_, rfl, hσ.update hadd⟩
  | pExclude x v =>
    have hdel := Tp2ccSet.pExclude_of_keeps h (σ x)
    rw [hσ x] at hdel
    exact ⟨_, rfl, hσ.update hdel⟩

theorem runSets_of_kept {σ : SetState elem} {ρ : ι → Set Int}
    (hσ : SetState.Represents σ ρ) (stmts : List (SetStmt elem)) (h : ∀ stmt ∈ stmts, stmt.Kept) :
    ∃ σ', runSets σ stmts = some σ' ∧ SetState.Represents σ' (runOrdinals ρ stmts) := by
  induction stmts generalizing σ ρ with
  | nil => exact ⟨σ, rfl, hσ⟩
  | cons stmt stmts ih =>
    obtain ⟨σ₁, hrun, hσ₁⟩ := stmt.exec_of_kept hσ (h stmt (by simp))
    obtain ⟨σ₂, hrest, hσ₂⟩ := ih hσ₁ (fun st hst => h st (by simp [hst]))
    refine ⟨σ₂, ?_, hσ₂⟩
    rw [runSets, List.foldlM_cons, hrun]
    exact hrest

end

theorem Tp2ccSet.exists_singleton (E : ElemType) {w : Int} (hw : Ordinal w) :
    ∃ s : Tp2ccSet E, s.ordinals = {w} := by
  refine ⟨⟨BitArray.empty.set (slot w hw)⟩, ?_⟩
  ext v
  by_cases hv : Ordinal v
  · rw [mem_ordinals hv, BitArray.test_set, BitArray.test_empty, Bool.false_or,
      decide_eq_true_iff, slot_inj, Set.mem_singleton_iff]
  · exact ⟨fun h => absurd h.1 hv, fun h => absurd (h ▸ hw) hv⟩

theorem Tp2ccSet.contains_iff_keeps (E : ElemType) (v : Int) :
    (∀ s : Tp2ccSet E, s.contains (E.convert v) = true ↔ v ∈ s.ordinals) ↔ E.Keeps v v := by
  refine ⟨fun h => ?_, fun h s => contains_of_keeps h s⟩
  rw [ElemType.keeps_self_iff]
  intro w hw
  obtain ⟨s, hs⟩ := exists_singleton E hw
  have hmem := h s
  rw [contains_iff, hs, Set.mem_singleton_iff, Set.mem_singleton_iff, idx_convert E v hw] at hmem
  rw [hmem]
  exact eq_comm

theorem Tp2ccSet.add_iff_keeps (E : ElemType) (v : Int) :
    (∀ s : Tp2ccSet E, (s.add (E.convert v)).ordinals = s.ordinals ∪ {w | Ordinal w ∧ w = v}) ↔
      E.Keeps v v := by
  refine ⟨fun h => ?_, fun h s => ordinals_add_of_keeps h s⟩
  rw [ElemType.keeps_self_iff]
  intro w hw
  have hmem := Set.ext_iff.mp (h (.empty E)) w
  simpa [mem_add_convert, hw] using hmem

theorem Tp2ccSet.pExclude_iff_keeps (E : ElemType) (v : Int) :
    (∀ s : Tp2ccSet E, (s.pExclude v).ordinals = s.ordinals \ {v}) ↔ E.Keeps v v := by
  refine ⟨fun h => ?_, fun h s => pExclude_of_keeps h s⟩
  rw [ElemType.keeps_self_iff]
  intro w hw
  obtain ⟨s, hs⟩ := exists_singleton E hw
  have hmem := Set.ext_iff.mp (h s) w
  rw [mem_ordinals_pExclude, hs, Set.mem_sdiff, Set.mem_singleton_iff, Set.mem_singleton_iff]
    at hmem
  simp only [true_and] at hmem
  rw [← idx_convert E v hw, eq_comm]
  exact not_iff_not.mp hmem

def byteElem : ElemType := .integer ⟨false, 8, IntType.eight_pos⟩

def emptySets : SetState (fun _ : Unit => byteElem) := fun _ => .empty byteElem

def includeFortyFour : List (SetStmt fun _ : Unit => byteElem) := [.pInclude () 44]

theorem byteElem_keeps {v : Int} (h : Ordinal v) : byteElem.Keeps v v := by
  obtain ⟨h₁, h₂⟩ := h
  rw [ElemType.keeps_self_iff]
  intro w hw
  obtain ⟨h₃, h₄⟩ := hw
  have hwidth : min 8 32 = 8 := rfl
  simp only [ElemType.Lands, byteElem, ElemType.carrier, IntType.Holds, IntType.lo, IntType.hi,
    Bool.false_eq_true, if_false, hwidth]
  omega

theorem byteElem_builds {lo hi : Int} (hlo : Ordinal lo) (hhi : Ordinal hi) :
    LiteralElem.Builds byteElem (.range lo hi) (.range lo hi) := by
  have hint {v : Int} (hv : Ordinal v) : cxxInt64.reduce v = v := by
    obtain ⟨h₁, h₂⟩ := hv
    exact IntType.reduce_of_holds ⟨by simp [IntType.lo, cxxInt64]; omega,
      by simp [IntType.hi, cxxInt64]; omega⟩
  have hhi64 : hi < cxxInt64.hi := lt_trans hhi.2 (by decide)
  refine ⟨fun _ hmax => ?_, fun w hw => ?_⟩
  · rw [hint hhi] at hmax
    omega
  · simp only [LiteralElem.Reaches, LiteralElem.Has, hint hlo, hint hhi]
    obtain ⟨h₁, h₂⟩ := hlo
    obtain ⟨h₃, h₄⟩ := hhi
    constructor
    · rintro ⟨v, hv, hl⟩
      have := (ElemType.keeps_self_iff.mp (byteElem_keeps ⟨by omega, by omega⟩) w hw).mp hl
      omega
    · intro hr
      exact ⟨w, hr, (ElemType.keeps_self_iff.mp (byteElem_keeps hw) w hw).mpr rfl⟩

/-- `s := [0..9]; Include(s, 44)` -/
def digitsFortyFour : List (SetStmt fun _ : Unit => byteElem) :=
  [.assign () (.literal byteElem (some byteElem.carrier) [.range ⟨0, true⟩ ⟨9, true⟩]),
    .pInclude () 44]

end Tp2cc.Rt
