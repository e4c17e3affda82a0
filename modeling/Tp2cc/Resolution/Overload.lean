import Tp2cc.Ast
import Tp2cc.Order.Dominance
import Tp2cc.Primitive

/-! Overload resolution: the candidates that accept the arguments are compared by their conversion
scores, and one of them is picked where it dominates all others. -/
set_option autoImplicit false

namespace Tp2cc
open Dominance

inductive ConvRank where
  | exact | equal | setCompatible | classHierarchy | intDomainCompatible | intWideningSameSign
  | realWidening | realNarrowing | stringSameTagWiden | stringToShortString | stringToAnsiString
  | ordinalSignChange | intNarrowing | integerToReal | pointerValueConversion
  | classValueConversion | operator | variant
  | notViable
  deriving DecidableEq, Repr

def ConvRank.toNat : ConvRank → Nat
  | .exact => 1
  | .equal => 2
  | .setCompatible => 3
  | .classHierarchy => 4
  | .intDomainCompatible => 5
  | .intWideningSameSign => 6
  | .realWidening => 7
  | .realNarrowing => 8
  | .stringSameTagWiden => 9
  | .stringToShortString => 10
  | .stringToAnsiString => 11
  | .ordinalSignChange => 12
  | .intNarrowing => 13
  | .integerToReal => 14
  | .pointerValueConversion => 15
  | .classValueConversion => 16
  | .operator => 17
  | .variant => 18
  | .notViable => 255

structure ConvScore where
  rank : ConvRank
  distance : Int
  deriving DecidableEq, Repr

def ConvScore.viable (s : ConvScore) : Bool := s.rank ≠ .notViable

def ConvScore.none : ConvScore := ⟨.notViable, 0⟩

structure FlatCallParamInfo (κ : Type) where
  type : Option TypeExpr
  typeContext : Option κ
  untyped : Bool
  mutableRef : Bool
  defaultValue : Option Expr
  paramUnit : String
  paramDeclaringType : String

structure AnyCand (δ : Type) where
  decl : Option δ
  declarationUnit : String
  declaringType : String

structure ScoredCandidate (δ : Type) where
  decl : δ
  declarationUnit : String
  declaringType : String
  scores : List ConvScore

structure IntegerActualDomain where
  low : Int
  high : Int
  preferredKind : PrimitiveIntKind
  deriving DecidableEq, Repr

structure PickResult (δ : Type) where
  decl : Option δ
  ambiguous : Bool
  deriving DecidableEq, Repr

def PickResult.none {δ : Type} : PickResult δ := ⟨.none, false⟩

/-- What resolution asks of declarations, of types and of argument expressions. -/
structure CallAnalysis (δ κ : Type) where
  target : TargetInfo
  params : δ → List Param
  lookupContextForType : Option TypeExpr → Option κ
  lookupProcSignatureContext : δ → Option κ
  constParamNeedsMutableRef : Option TypeExpr → Bool
  scoreArgumentConversion : Expr → FlatCallParamInfo κ → Bool → ConvScore
  integerActualDomainForExpr : Expr → Option IntegerActualDomain
  /-- The integer primitive of the semantic shape of a type. -/
  integerFormal : Option TypeExpr → Option IntegerPrimitive
  /-- The integer primitive of the semantic shape of a type in a context. -/
  integerFormalInContext : Option TypeExpr → Option κ → Option IntegerPrimitive

def conversionScoreLess (a b : ConvScore) : Bool :=
  if a.rank ≠ b.rank then decide (a.rank.toNat < b.rank.toNat) else decide (a.distance < b.distance)

/-- Along the arguments, with whether one has been strictly better so far. -/
def dominatesFrom : Bool → List ConvScore → List ConvScore → Bool
  | anyStrict, x :: xs, y :: ys =>
    if conversionScoreLess y x then false
    else dominatesFrom (anyStrict || conversionScoreLess x y) xs ys
  | anyStrict, _, _ => anyStrict

section
variable {δ κ : Type}

def conversionCandidateDominates (a b : ScoredCandidate δ) : Bool :=
  dominatesFrom false a.scores b.scores

variable (h : CallAnalysis δ κ)

def flattenCallParamInfo (decl : δ) (paramUnit paramDeclaringType : String) :
    List (FlatCallParamInfo κ) :=
  (h.params decl).flatMap fun
    | .mk mode names type defaultValue =>
      List.replicate (if names.isEmpty then 1 else names.length)
        { type, defaultValue, paramUnit, paramDeclaringType
          untyped := type.isNone
          typeContext := (h.lookupContextForType type).or (h.lookupProcSignatureContext decl)
          mutableRef := mode = .var || mode = .out ||
            (mode = .const && h.constParamNeedsMutableRef type) }

def integerDomainFitsPrimitive (domain : IntegerActualDomain) (formal : IntegerPrimitive) : Bool :=
  decide ((formal.intType h.target).lo ≤ domain.low ∧ domain.high ≤ (formal.intType h.target).hi)

def rankIntegerDomainConversion (domain : IntegerActualDomain) (param : Option TypeExpr)
    (varParam : Bool) (paramContext : Option κ) : ConvScore :=
  if varParam then .none
  else
    match h.integerFormalInContext param paramContext with
    | none => .none
    | some formal =>
      if integerDomainFitsPrimitive h domain formal then
        let signMismatch : Int := if domain.preferredKind = formal.intKind then 0 else 1
        ⟨.intDomainCompatible, (formal.bits h.target : Int)*2+signMismatch⟩
      else .none

def rescore (formal : FlatCallParamInfo κ) (score : ConvScore) :
    Option IntegerActualDomain → Option ConvScore
  | none => some score
  | some domain =>
    if score.rank = .exact ∨ score.rank = .equal then some score
    else if formal.mutableRef then none
    else
      match h.integerFormal formal.type with
      | none => none
      | some _ =>
        let score := rankIntegerDomainConversion h domain formal.type false formal.typeContext
        if score.viable then some score else none

def rescoreAll : List (Option IntegerActualDomain) → List (FlatCallParamInfo κ) → List ConvScore →
    Option (List ConvScore)
  | domain :: domains, formal :: formals, score :: scores => do
    let score ← rescore h formal score domain
    return score :: (← rescoreAll domains formals scores)
  | _, _, scores => some scores

def integerDomainCandidate (args : List Expr) (candidate : ScoredCandidate δ) :
    Option (ScoredCandidate δ) :=
  let flat := flattenCallParamInfo h candidate.decl candidate.declarationUnit
    candidate.declaringType
  if flat.length < args.length then none
  else
    (rescoreAll h (args.map h.integerActualDomainForExpr) flat candidate.scores).map
      fun scores => { candidate with scores }

def pickDominating (candidates : List (ScoredCandidate δ)) : PickResult δ :=
  match pick conversionCandidateDominates candidates with
  | some best => ⟨some best.decl, false⟩
  | none => ⟨none, true⟩

def acceptingCandidates (viable : List (ScoredCandidate δ)) (args : List Expr) :
    List (ScoredCandidate δ) :=
  viable.filterMap (integerDomainCandidate h args)

def pickIntegerDomainOverload (viable : List (ScoredCandidate δ)) (args : List Expr) :
    Option (PickResult δ) :=
  if args.all (h.integerActualDomainForExpr · |>.isNone) then none
  else
    match acceptingCandidates h viable args with
    | [] => none
    | [candidate] => some ⟨some candidate.decl, false⟩
    | domainViable => some (pickDominating domainViable)

def scoreAll (allow : Bool) : List Expr → List (FlatCallParamInfo κ) → Option (List ConvScore)
  | arg :: args, formal :: formals =>
    let score := h.scoreArgumentConversion arg formal allow
    if score.viable then (scoreAll allow args formals).map (score :: ·) else none
  | _, _ => some []

def scoredCandidate (args : List Expr) (allow : Bool) (candidate : AnyCand δ) :
    Option (ScoredCandidate δ) :=
  match candidate.decl with
  | none => none
  | some decl =>
    let flat := flattenCallParamInfo h decl candidate.declarationUnit candidate.declaringType
    if flat.length < args.length then none
    else if (flat.drop args.length).any (·.defaultValue.isNone) then none
    else
      (scoreAll h allow args flat).map fun scores =>
        ⟨decl, candidate.declarationUnit, candidate.declaringType, scores⟩

def viableCandidates (candidates : List (AnyCand δ)) (args : List Expr) (allow : Bool) :
    List (ScoredCandidate δ) :=
  candidates.filterMap (scoredCandidate h args allow)

def pickOverloadFromCandidates (candidates : List (AnyCand δ)) (args : List Expr) (allow : Bool) :
    PickResult δ :=
  match viableCandidates h candidates args allow with
  | [] => .none
  | [candidate] => ⟨some candidate.decl, false⟩
  | viable =>
    match pickIntegerDomainOverload h viable args with
    | some integerPick => integerPick
    | none => pickDominating viable

end

section
variable {δ κ : Type}

theorem conversionScoreLess_iff {a b : ConvScore} : conversionScoreLess a b = true ↔
    a.rank.toNat < b.rank.toNat ∨ a.rank.toNat = b.rank.toNat ∧ a.distance < b.distance := by
  have hinj : a.rank = b.rank ↔ a.rank.toNat = b.rank.toNat := by
    cases a.rank <;> cases b.rank <;> decide
  unfold conversionScoreLess
  split
  · rename_i hne
    rw [ne_eq, hinj] at hne
    simp [hne]
  · rename_i heq
    rw [ne_eq, not_not] at heq
    simp [heq]

theorem conversionScoreLess_eq_false {a b : ConvScore} : conversionScoreLess a b = false ↔
    b.rank.toNat < a.rank.toNat ∨ b.rank.toNat = a.rank.toNat ∧ b.distance ≤ a.distance := by
  rw [← Bool.not_eq_true, conversionScoreLess_iff]
  omega

theorem dominatesFrom_iff {anyStrict : Bool} {xs ys : List ConvScore} :
    dominatesFrom anyStrict xs ys = true ↔
      (∀ (i : Nat) x y, xs[i]? = some x → ys[i]? = some y → conversionScoreLess y x = false) ∧
      (anyStrict = true ∨
        ∃ (i : Nat) (x y : ConvScore),
          xs[i]? = some x ∧ ys[i]? = some y ∧ conversionScoreLess x y = true) := by
  induction xs generalizing anyStrict ys with
  | nil => simp [dominatesFrom]
  | cons x xs ih =>
    cases ys with
    | nil => simp [dominatesFrom]
    | cons y ys =>
      simp only [dominatesFrom, Bool.if_false_left, Bool.and_eq_true, Bool.not_eq_true',
        Bool.decide_eq_true, ih, Bool.or_eq_true]
      constructor
      · rintro ⟨hworse, hrest, hstrict⟩
        refine ⟨fun i a b ha hb => ?_, ?_⟩
        · cases i with
          | zero =>
            cases ha
            cases hb
            exact hworse
          | succ i => exact hrest i a b ha hb
        · rcases hstrict with (hs | hxy) | ⟨i, a, b, hab⟩
          · exact .inl hs
          · exact .inr ⟨0, x, y, rfl, rfl, hxy⟩
          · exact .inr ⟨i+1, a, b, hab⟩
      · rintro ⟨hworse, hstrict⟩
        refine ⟨hworse 0 x y rfl rfl, fun i => hworse (i+1), ?_⟩
        rcases hstrict with hs | ⟨i, a, b, ha, hb, hab⟩
        · exact .inl (.inl hs)
        · cases i with
          | zero =>
            cases ha
            cases hb
            exact .inl (.inr hab)
          | succ i => exact .inr ⟨i, a, b, ha, hb, hab⟩

theorem dominates_irrefl (a : ScoredCandidate δ) : conversionCandidateDominates a a = false := by
  rw [← Bool.not_eq_true, conversionCandidateDominates, dominatesFrom_iff]
  rintro ⟨hworse, hf | ⟨i, x, y, hx, hy, hxy⟩⟩
  · contradiction
  · rw [hworse i y x hy hx] at hxy
    contradiction

theorem dominates_asymm (a b : ScoredCandidate δ)
    (h : conversionCandidateDominates a b = true) : conversionCandidateDominates b a = false := by
  rw [conversionCandidateDominates, dominatesFrom_iff] at h
  rw [← Bool.not_eq_true, conversionCandidateDominates, dominatesFrom_iff]
  obtain ⟨-, hf | ⟨i, x, y, hx, hy, hxy⟩⟩ := h
  · contradiction
  · rintro ⟨hworse, -⟩
    rw [hworse i y x hy hx] at hxy
    contradiction

theorem dominates_trans {a b c : ScoredCandidate δ} (hlen : a.scores.length = b.scores.length)
    (hlen' : b.scores.length = c.scores.length) (hab : conversionCandidateDominates a b = true)
    (hbc : conversionCandidateDominates b c = true) :
    conversionCandidateDominates a c = true := by
  rw [conversionCandidateDominates, dominatesFrom_iff] at hab hbc ⊢
  obtain ⟨hab, hf | ⟨i, x, y, hx, hy, hxy⟩⟩ := hab
  · contradiction
  obtain ⟨hbc, -⟩ := hbc
  refine ⟨fun j x z hx hz => ?_, .inr ?_⟩
  · obtain ⟨hj, -⟩ := List.getElem?_eq_some_iff.mp hx
    obtain ⟨y, hy⟩ : ∃ y, b.scores[j]? = some y := ⟨_, List.getElem?_eq_getElem (hlen ▸ hj)⟩
    have h₁ := hab j x y hx hy
    have h₂ := hbc j y z hy hz
    rw [conversionScoreLess_eq_false] at h₁ h₂ ⊢
    omega
  · obtain ⟨hi, -⟩ := List.getElem?_eq_some_iff.mp hy
    obtain ⟨z, hz⟩ : ∃ z, c.scores[i]? = some z := ⟨_, List.getElem?_eq_getElem (hlen' ▸ hi)⟩
    have h₂ := hbc i y z hy hz
    refine ⟨i, x, z, hx, hz, ?_⟩
    rw [conversionScoreLess_eq_false] at h₂
    rw [conversionScoreLess_iff] at hxy ⊢
    omega

variable {h : CallAnalysis δ κ} {args : List Expr}

theorem scoreAll_length {allow : Bool} {args : List Expr} {flat : List (FlatCallParamInfo κ)}
    {scores : List ConvScore} (hlen : args.length ≤ flat.length)
    (hs : scoreAll h allow args flat = some scores) : scores.length = args.length := by
  induction args generalizing flat scores with
  | nil =>
    cases hs
    rfl
  | cons arg args ih =>
    cases flat with
    | nil => simp at hlen
    | cons formal flat =>
      simp only [scoreAll, Option.ite_none_right_eq_some, Option.map_eq_some_iff] at hs
      obtain ⟨-, rest, hrest, rfl⟩ := hs
      rw [List.length_cons, List.length_cons, ih (by simpa using hlen) hrest]

theorem rescoreAll_length {domains : List (Option IntegerActualDomain)}
    {flat : List (FlatCallParamInfo κ)} {scores scores' : List ConvScore}
    (hs : rescoreAll h domains flat scores = some scores') : scores'.length = scores.length := by
  induction scores generalizing domains flat scores' with
  | nil =>
    cases domains <;> cases flat <;> cases hs <;> rfl
  | cons score scores ih =>
    cases domains with
    | nil =>
      cases hs
      rfl
    | cons domain domains =>
      cases flat with
      | nil =>
        cases hs
        rfl
      | cons formal flat =>
        simp only [rescoreAll, Option.bind_eq_bind, Option.bind_eq_some_iff, Option.pure_def,
          Option.some.injEq] at hs
        obtain ⟨first, -, rest, hrest, rfl⟩ := hs
        rw [List.length_cons, List.length_cons, ih hrest]

theorem scoredCandidate_length {allow : Bool} {candidate : AnyCand δ} {c : ScoredCandidate δ}
    (hc : scoredCandidate h args allow candidate = some c) : c.scores.length = args.length := by
  unfold scoredCandidate at hc
  cases hd : candidate.decl with
  | none => simp [hd] at hc
  | some decl =>
    simp only [hd, Option.ite_none_left_eq_some, Option.map_eq_some_iff] at hc
    obtain ⟨hlen, -, scores, hs, rfl⟩ := hc
    exact scoreAll_length (by omega) hs

theorem integerDomainCandidate_spec {c c' : ScoredCandidate δ}
    (hc : integerDomainCandidate h args c = some c') :
    c'.decl = c.decl ∧ c'.scores.length = c.scores.length := by
  unfold integerDomainCandidate at hc
  simp only [Option.ite_none_left_eq_some, Option.map_eq_some_iff] at hc
  obtain ⟨-, scores, hs, rfl⟩ := hc
  exact ⟨rfl, rescoreAll_length hs⟩

variable (h) in
def decidingCandidates (viable : List (ScoredCandidate δ)) (args : List Expr) :
    List (ScoredCandidate δ) :=
  if (∃ arg ∈ args, (h.integerActualDomainForExpr arg).isSome = true) ∧
      acceptingCandidates h viable args ≠ [] then acceptingCandidates h viable args
  else viable

theorem pickDominating_single (c : ScoredCandidate δ) :
    pickDominating [c] = ⟨some c.decl, false⟩ := by
  simp [pickDominating, pick, runningBest, verify]

theorem pickIntegerDomainOverload_eq (viable : List (ScoredCandidate δ)) :
    pickIntegerDomainOverload h viable args =
      if (∃ arg ∈ args, (h.integerActualDomainForExpr arg).isSome = true) ∧
        acceptingCandidates h viable args ≠ [] then
        some (pickDominating (acceptingCandidates h viable args))
      else none := by
  have hall : args.all (h.integerActualDomainForExpr · |>.isNone) = true ↔
      ¬ ∃ arg ∈ args, (h.integerActualDomainForExpr arg).isSome = true := by
    simp
  unfold pickIntegerDomainOverload
  by_cases hd : ∃ arg ∈ args, (h.integerActualDomainForExpr arg).isSome = true
  · rw [if_neg (mt hall.mp (not_not.mpr hd))]
    cases acceptingCandidates h viable args with
    | nil => simp
    | cons c rest =>
      cases rest with
      | nil => simp [hd, pickDominating_single]
      | cons c' rest => simp [hd]
  · rw [if_pos (hall.mpr hd), if_neg fun hcon => hd hcon.1]

variable (h args) in
theorem decidingCandidates_single (c : ScoredCandidate δ) :
    ∃ c', decidingCandidates h [c] args = [c'] ∧ c'.decl = c.decl := by
  unfold decidingCandidates
  split
  · rename_i hd
    cases hc : integerDomainCandidate h args c with
    | none => simp [acceptingCandidates, hc] at hd
    | some c' =>
      exact ⟨c', by simp [acceptingCandidates, hc], (integerDomainCandidate_spec hc).1⟩
  · exact ⟨c, rfl, rfl⟩

theorem pickOverload_eq (candidates : List (AnyCand δ)) (allow : Bool) :
    pickOverloadFromCandidates h candidates args allow =
      if viableCandidates h candidates args allow = [] then .none
      else
        pickDominating (decidingCandidates h (viableCandidates h candidates args allow) args) := by
  unfold pickOverloadFromCandidates
  cases viableCandidates h candidates args allow with
  | nil => rfl
  | cons c rest =>
    cases rest with
    | nil =>
      obtain ⟨c', hc', hdecl⟩ := decidingCandidates_single h args c
      rw [if_neg (by simp), hc', pickDominating_single, hdecl]
    | cons c' rest =>
      rw [if_neg (by simp)]
      dsimp only
      rw [pickIntegerDomainOverload_eq, decidingCandidates]
      split_ifs <;> rfl

variable (h args) in
theorem decidingCandidates_perm {viable viable' : List (ScoredCandidate δ)}
    (hp : viable.Perm viable') :
    (decidingCandidates h viable args).Perm (decidingCandidates h viable' args) := by
  have ha : (acceptingCandidates h viable args).Perm (acceptingCandidates h viable' args) :=
    hp.filterMap _
  have hnil : acceptingCandidates h viable args ≠ [] ↔ acceptingCandidates h viable' args ≠ [] :=
    not_congr ⟨fun hn => List.perm_nil.mp (hn ▸ ha.symm), fun hn => List.perm_nil.mp (hn ▸ ha)⟩
  unfold decidingCandidates
  by_cases hd : (∃ arg ∈ args, (h.integerActualDomainForExpr arg).isSome = true) ∧
      acceptingCandidates h viable args ≠ []
  · rw [if_pos hd, if_pos ⟨hd.1, hnil.mp hd.2⟩]
    exact ha
  · rw [if_neg hd, if_neg fun hcon => hd ⟨hcon.1, hnil.mpr hcon.2⟩]
    exact hp

theorem pickOverload_perm {candidates candidates' : List (AnyCand δ)}
    (hp : candidates.Perm candidates') (allow : Bool) :
    pickOverloadFromCandidates h candidates args allow =
      pickOverloadFromCandidates h candidates' args allow := by
  have hv : (viableCandidates h candidates args allow).Perm
      (viableCandidates h candidates' args allow) := hp.filterMap _
  have hnil : viableCandidates h candidates args allow = [] ↔
      viableCandidates h candidates' args allow = [] :=
    ⟨fun hn => List.perm_nil.mp (hn ▸ hv.symm), fun hn => List.perm_nil.mp (hn ▸ hv)⟩
  have hpick := pick_perm dominates_asymm (decidingCandidates_perm h args hv)
  rw [pickOverload_eq, pickOverload_eq, pickDominating, hpick]
  simp only [hnil]
  rfl

theorem decidingCandidates_length {candidates : List (AnyCand δ)} {allow : Bool}
    {c : ScoredCandidate δ}
    (hc : c ∈ decidingCandidates h (viableCandidates h candidates args allow) args) :
    c.scores.length = args.length := by
  have hviable : ∀ c ∈ viableCandidates h candidates args allow,
      c.scores.length = args.length := by
    intro c hc
    obtain ⟨candidate, -, hs⟩ := List.mem_filterMap.mp hc
    exact scoredCandidate_length hs
  unfold decidingCandidates at hc
  split at hc
  · obtain ⟨c', hc', hs⟩ := List.mem_filterMap.mp hc
    rw [(integerDomainCandidate_spec hs).2, hviable c' hc']
  · exact hviable c hc

theorem decidingCandidates_nil : decidingCandidates h [] args = [] := by
  simp [decidingCandidates, acceptingCandidates]

theorem pickDominating_some {l : List (ScoredCandidate δ)} {decl : δ} :
    pickDominating l = ⟨some decl, false⟩ ↔
      ∃ c, c.decl = decl ∧ Wins conversionCandidateDominates l c := by
  simp only [← pick_iff dominates_asymm, pickDominating]
  cases pick conversionCandidateDominates l with
  | none => simp
  | some c => simp

theorem pickDominating_none {l : List (ScoredCandidate δ)} :
    pickDominating l = ⟨none, true⟩ ↔ ¬ ∃ c, Wins conversionCandidateDominates l c := by
  simp only [← pick_iff dominates_asymm, pickDominating]
  cases pick conversionCandidateDominates l with
  | none => simp
  | some c => simp

theorem pickDominating_ne_none (l : List (ScoredCandidate δ)) : pickDominating l ≠ .none := by
  unfold pickDominating
  split <;> simp [PickResult.none]

/-- The first of two scores is better: of a better rank, or of the same one at less distance. -/
def ConvScore.Better (a b : ConvScore) : Prop :=
  a.rank.toNat < b.rank.toNat ∨ a.rank.toNat = b.rank.toNat ∧ a.distance < b.distance

/-- No argument is worse and at least one is strictly better. -/
structure ScoredCandidate.Dominates (a b : ScoredCandidate δ) : Prop where
  noWorse : ∀ (i : Nat) x y, a.scores[i]? = some x → b.scores[i]? = some y → ¬ y.Better x
  better : ∃ (i : Nat) (x y : ConvScore), a.scores[i]? = some x ∧ b.scores[i]? = some y ∧ x.Better y

theorem dominates_iff (a b : ScoredCandidate δ) :
    conversionCandidateDominates a b = true ↔ a.Dominates b := by
  rw [conversionCandidateDominates, dominatesFrom_iff]
  simp only [← Bool.not_eq_true, conversionScoreLess_iff]
  constructor
  · rintro ⟨hworse, hf | hbetter⟩
    · cases hf
    · exact ⟨hworse, hbetter⟩
  · exact fun hdom => ⟨hdom.noWorse, .inr hdom.better⟩

/-- A candidate that accepts the arguments, with its scores: every argument converts, and what is
left of the formals has defaults. -/
structure AcceptsArguments (h : CallAnalysis δ κ) (args : List Expr) (allow : Bool)
    (candidate : AnyCand δ) (c : ScoredCandidate δ) : Prop where
  decl : candidate.decl = some c.decl
  declarationUnit : c.declarationUnit = candidate.declarationUnit
  declaringType : c.declaringType = candidate.declaringType
  room : args.length ≤
    (flattenCallParamInfo h c.decl c.declarationUnit c.declaringType).length
  defaults : ∀ formal ∈ (flattenCallParamInfo h c.decl c.declarationUnit c.declaringType).drop
    args.length, formal.defaultValue.isSome = true
  scores : c.scores = args.zipWith (fun arg formal => h.scoreArgumentConversion arg formal allow)
    (flattenCallParamInfo h c.decl c.declarationUnit c.declaringType)
  viable : ∀ score ∈ c.scores, score.rank ≠ .notViable

theorem scoreAll_eq_some {allow : Bool} {args : List Expr} {flat : List (FlatCallParamInfo κ)}
    {scores : List ConvScore} : scoreAll h allow args flat = some scores ↔
      scores = args.zipWith (fun arg formal => h.scoreArgumentConversion arg formal allow) flat ∧
        ∀ score ∈ scores, score.rank ≠ .notViable := by
  induction args generalizing flat scores with
  | nil =>
    simp only [scoreAll, Option.some.injEq, List.zipWith_nil_left]
    constructor
    · rintro rfl
      exact ⟨rfl, by simp⟩
    · exact fun hs => hs.1.symm
  | cons arg args ih =>
    cases flat with
    | nil =>
      simp only [scoreAll, Option.some.injEq, List.zipWith_nil_right]
      constructor
      · rintro rfl
        exact ⟨rfl, by simp⟩
      · exact fun hs => hs.1.symm
    | cons formal flat =>
      simp only [scoreAll, Option.ite_none_right_eq_some, Option.map_eq_some_iff, ih,
        List.zipWith_cons_cons, ConvScore.viable, ne_eq, decide_not, Bool.not_eq_true',
        decide_eq_false_iff_not]
      constructor
      · rintro ⟨hfirst, rest, ⟨rfl, hrest⟩, rfl⟩
        exact ⟨rfl, List.forall_mem_cons.mpr ⟨hfirst, hrest⟩⟩
      · rintro ⟨rfl, hscores⟩
        obtain ⟨hfirst, hrest⟩ := List.forall_mem_cons.mp hscores
        exact ⟨hfirst, _, ⟨rfl, hrest⟩, rfl⟩

theorem scoredCandidate_eq_some {allow : Bool} {candidate : AnyCand δ} {c : ScoredCandidate δ} :
    scoredCandidate h args allow candidate = some c ↔
      AcceptsArguments h args allow candidate c := by
  unfold scoredCandidate
  constructor
  · intro hs
    split at hs
    · cases hs
    · rename_i decl hdecl
      simp only [Option.ite_none_left_eq_some, Option.map_eq_some_iff, scoreAll_eq_some] at hs
      obtain ⟨hroom, hdefaults, scores, ⟨hscores, hviable⟩, rfl⟩ := hs
      refine ⟨hdecl, rfl, rfl, Nat.le_of_not_lt hroom, fun formal hformal => ?_, hscores, hviable⟩
      rw [Bool.not_eq_true, List.any_eq_false] at hdefaults
      simpa [Option.isSome_iff_ne_none] using hdefaults formal hformal
  · intro hs
    obtain ⟨decl, unit, declaringType, scores⟩ := c
    obtain ⟨hdecl, rfl, rfl, hroom, hdefaults, hscores, hviable⟩ := hs
    simp only [hdecl, Option.ite_none_left_eq_some, Option.map_eq_some_iff, scoreAll_eq_some]
    refine ⟨Nat.not_lt.mpr hroom, ?_, scores, ⟨hscores, hviable⟩, rfl⟩
    rw [Bool.not_eq_true, List.any_eq_false]
    intro formal hformal
    simpa [Option.isSome_iff_ne_none] using hdefaults formal hformal

/-- The score of an argument by its integer domain: as before where it has none or the formal is of
its own type, else for an integer formal by value that holds the domain, by width and sign. -/
inductive Rescored (h : CallAnalysis δ κ) (domain : Option IntegerActualDomain)
    (formal : FlatCallParamInfo κ) (score : ConvScore) : ConvScore → Prop
  | noDomain : domain = none → Rescored h domain formal score score
  | exact : domain.isSome = true → score.rank = .exact ∨ score.rank = .equal →
      Rescored h domain formal score score
  | holds {d : IntegerActualDomain} {p : IntegerPrimitive} : domain = some d →
      ¬ (score.rank = .exact ∨ score.rank = .equal) → formal.mutableRef = false →
      (h.integerFormal formal.type).isSome = true →
      h.integerFormalInContext formal.type formal.typeContext = some p →
      (p.intType h.target).lo ≤ d.low ∧ d.high ≤ (p.intType h.target).hi →
      Rescored h domain formal score ⟨.intDomainCompatible,
        (p.bits h.target : Int)*2+if d.preferredKind = p.intKind then 0 else 1⟩

theorem rankIntegerDomainConversion_iff {d : IntegerActualDomain} {type : Option TypeExpr}
    {context : Option κ} {score : ConvScore} :
    (rankIntegerDomainConversion h d type false context).viable = true ∧
        rankIntegerDomainConversion h d type false context = score ↔
      ∃ p, h.integerFormalInContext type context = some p ∧
        ((p.intType h.target).lo ≤ d.low ∧ d.high ≤ (p.intType h.target).hi) ∧
        score = ⟨.intDomainCompatible,
          (p.bits h.target : Int)*2+if d.preferredKind = p.intKind then 0 else 1⟩ := by
  unfold rankIntegerDomainConversion
  rw [if_neg (by simp)]
  cases h.integerFormalInContext type context with
  | none => simp [ConvScore.none, ConvScore.viable]
  | some p =>
    by_cases hfits : (p.intType h.target).lo ≤ d.low ∧ d.high ≤ (p.intType h.target).hi
    · simp [integerDomainFitsPrimitive, hfits, ConvScore.viable, eq_comm]
    · simp [integerDomainFitsPrimitive, hfits, ConvScore.none, ConvScore.viable]

theorem rescore_eq_some {domain : Option IntegerActualDomain} {formal : FlatCallParamInfo κ}
    {score score' : ConvScore} :
    rescore h formal score domain = some score' ↔ Rescored h domain formal score score' := by
  cases domain with
  | none =>
    constructor
    · intro hs
      cases hs
      exact .noDomain rfl
    · intro hs
      cases hs with
      | noDomain _ => rfl
      | exact hd _ => cases hd
      | holds hd _ _ _ _ _ => cases hd
  | some d =>
    by_cases hexact : score.rank = .exact ∨ score.rank = .equal
    · rw [rescore, if_pos hexact]
      constructor
      · intro hs
        cases hs
        exact .exact rfl hexact
      · intro hs
        cases hs with
        | noDomain hd => cases hd
        | exact _ _ => rfl
        | holds _ hno _ _ _ _ => exact absurd hexact hno
    · rw [rescore, if_neg hexact]
      constructor
      · intro hs
        rw [Option.ite_none_left_eq_some, Bool.not_eq_true] at hs
        obtain ⟨hvalue, hs⟩ := hs
        cases hformal : h.integerFormal formal.type with
        | none =>
          rw [hformal] at hs
          cases hs
        | some q =>
          rw [hformal] at hs
          dsimp only at hs
          rw [Option.ite_none_right_eq_some, Option.some.injEq,
            rankIntegerDomainConversion_iff] at hs
          obtain ⟨p, hp, hfits, rfl⟩ := hs
          exact .holds rfl hexact hvalue (by rw [hformal]; rfl) hp hfits
      · intro hs
        cases hs with
        | noDomain hd => cases hd
        | exact _ hyes => exact absurd hyes hexact
        | @holds d' p hd _ hvalue hformal hp hfits =>
          cases hd
          obtain ⟨q, hq⟩ := Option.isSome_iff_exists.mp hformal
          rw [hvalue, if_neg (by simp), hq]
          dsimp only
          rw [Option.ite_none_right_eq_some, Option.some.injEq, rankIntegerDomainConversion_iff]
          exact ⟨p, hp, hfits, rfl⟩

theorem rescoreAll_eq_some {domains : List (Option IntegerActualDomain)}
    {flat : List (FlatCallParamInfo κ)} {scores scores' : List ConvScore}
    (hlen : scores.length = domains.length) (hroom : domains.length ≤ flat.length) :
    rescoreAll h domains flat scores = some scores' ↔ scores'.length = scores.length ∧
      ∀ (i : Nat) domain formal score score', domains[i]? = some domain → flat[i]? = some formal →
        scores[i]? = some score → scores'[i]? = some score' →
        Rescored h domain formal score score' := by
  induction domains generalizing flat scores scores' with
  | nil =>
    obtain rfl := List.length_eq_zero_iff.mp hlen
    simp only [rescoreAll, Option.some.injEq, List.length_nil, List.length_eq_zero_iff]
    constructor
    · rintro rfl
      exact ⟨rfl, by simp⟩
    · exact fun hs => hs.1.symm
  | cons domain domains ih =>
    obtain ⟨formal, flat, rfl⟩ :=
      List.exists_cons_of_length_pos (Nat.lt_of_lt_of_le (by simp) hroom)
    obtain ⟨score, scores, rfl⟩ := List.exists_cons_of_length_pos (by rw [hlen]; simp)
    have ih := fun scores' => @ih flat scores scores' (by simpa using hlen) (by simpa using hroom)
    simp only [rescoreAll, Option.bind_eq_bind, Option.bind_eq_some_iff, Option.pure_def,
      Option.some.injEq, ih, rescore_eq_some]
    constructor
    · rintro ⟨first, hfirst, rest, ⟨hlength, hrest⟩, rfl⟩
      refine ⟨by simp [hlength], fun i domain' formal' score₁ score₂ hd hf hs hs' => ?_⟩
      cases i with
      | zero =>
        cases hd
        cases hf
        cases hs
        cases hs'
        exact hfirst
      | succ i => exact hrest i _ _ _ _ hd hf hs hs'
    · rintro ⟨hlength, hscores⟩
      obtain ⟨first, rest, rfl⟩ := List.exists_cons_of_length_pos (by rw [hlength]; simp)
      exact ⟨first, hscores 0 _ _ _ _ rfl rfl rfl rfl, rest,
        ⟨by simpa using hlength, fun i => hscores (i+1)⟩, rfl⟩

/-- A candidate that accepts the integer domains of the arguments, and the one with its scores
there. -/
structure AcceptsDomains (h : CallAnalysis δ κ) (args : List Expr) (c c' : ScoredCandidate δ) :
    Prop where
  decl : c'.decl = c.decl
  declarationUnit : c'.declarationUnit = c.declarationUnit
  declaringType : c'.declaringType = c.declaringType
  length : c'.scores.length = c.scores.length
  scores : ∀ (i : Nat) arg formal score score', args[i]? = some arg →
    (flattenCallParamInfo h c.decl c.declarationUnit c.declaringType)[i]? = some formal →
    c.scores[i]? = some score → c'.scores[i]? = some score' →
    Rescored h (h.integerActualDomainForExpr arg) formal score score'

theorem integerDomainCandidate_eq_some {allow : Bool} {candidate : AnyCand δ}
    {c c' : ScoredCandidate δ} (hc : AcceptsArguments h args allow candidate c) :
    integerDomainCandidate h args c = some c' ↔ AcceptsDomains h args c c' := by
  have hlength := scoredCandidate_length (scoredCandidate_eq_some.mpr hc)
  have hroom := hc.room
  unfold integerDomainCandidate
  simp only [Nat.not_lt.mpr hroom, if_false, Option.map_eq_some_iff,
    rescoreAll_eq_some (show c.scores.length = (args.map h.integerActualDomainForExpr).length by
      rw [hlength, List.length_map]) (by rwa [List.length_map])]
  constructor
  · rintro ⟨scores, ⟨hscores, hplaces⟩, rfl⟩
    refine ⟨rfl, rfl, rfl, hscores, fun i arg formal score score' harg => ?_⟩
    exact hplaces i _ formal score score' (by rw [List.getElem?_map, harg]; rfl)
  · intro hs
    obtain ⟨decl, unit, declaringType, scores⟩ := c'
    obtain ⟨rfl, rfl, rfl, hscores, hplaces⟩ := hs
    refine ⟨scores, ⟨hscores, fun i domain formal score score' hd => ?_⟩, rfl⟩
    rw [List.getElem?_map, Option.map_eq_some_iff] at hd
    obtain ⟨arg, harg, rfl⟩ := hd
    exact hplaces i arg formal score score' harg

variable (h args) in
theorem mem_viableCandidates {candidates : List (AnyCand δ)} {allow : Bool}
    {c : ScoredCandidate δ} : c ∈ viableCandidates h candidates args allow ↔
      ∃ candidate ∈ candidates, AcceptsArguments h args allow candidate c := by
  simp only [viableCandidates, List.mem_filterMap, scoredCandidate_eq_some]

variable (h args) in
theorem mem_acceptingCandidates {candidates : List (AnyCand δ)} {allow : Bool}
    {c' : ScoredCandidate δ} :
    c' ∈ acceptingCandidates h (viableCandidates h candidates args allow) args ↔
      ∃ c ∈ viableCandidates h candidates args allow, AcceptsDomains h args c c' := by
  rw [acceptingCandidates, List.mem_filterMap]
  refine exists_congr fun c => and_congr_right fun hc => ?_
  obtain ⟨candidate, -, haccepts⟩ := (mem_viableCandidates h args).mp hc
  exact integerDomainCandidate_eq_some haccepts

variable (h) in
/-- The outcome for a list of candidates: no match when none is viable, else the one that dominates
all others in the deciding set, else an ambiguity. The viable candidates accept the arguments, those
of the integer domains accept them there, and to dominate is to be worse nowhere and better somewhere,
a strict order on the candidates of a call. The order of the candidates is of no account. -/
theorem pickOverloadFromCandidates_outcome (candidates : List (AnyCand δ)) (args : List Expr)
    (allow : Bool) :
    let viable := viableCandidates h candidates args allow
    let deciding := decidingCandidates h viable args
    let outcome := pickOverloadFromCandidates h candidates args allow
    (outcome = .none ↔ viable = []) ∧
    (∀ decl, outcome = ⟨some decl, false⟩ ↔
      ∃ c, c.decl = decl ∧ Wins conversionCandidateDominates deciding c) ∧
    (outcome = ⟨none, true⟩ ↔
      viable ≠ [] ∧ ¬ ∃ c, Wins conversionCandidateDominates deciding c) ∧
    (∀ a ∈ deciding, ∀ b ∈ deciding, ∀ c ∈ deciding,
      conversionCandidateDominates a a = false ∧
      (conversionCandidateDominates a b = true → conversionCandidateDominates b a = false) ∧
      (conversionCandidateDominates a b = true → conversionCandidateDominates b c = true →
        conversionCandidateDominates a c = true)) ∧
    (∀ c, c ∈ viable ↔ ∃ candidate ∈ candidates, AcceptsArguments h args allow candidate c) ∧
    (∀ c', c' ∈ acceptingCandidates h viable args ↔ ∃ c ∈ viable, AcceptsDomains h args c c') ∧
    (∀ a b : ScoredCandidate δ, conversionCandidateDominates a b = true ↔ a.Dominates b) ∧
    ∀ candidates', candidates'.Perm candidates →
      pickOverloadFromCandidates h candidates' args allow = outcome := by
  intro viable deciding outcome
  have hout : outcome = if viable = [] then .none else pickDominating deciding :=
    pickOverload_eq candidates allow
  have hempty : viable = [] → deciding = [] := by
    intro hv
    simp only [deciding, hv, decidingCandidates_nil]
  refine ⟨?_, fun decl => ?_, ?_, fun a ha b hb c hc => ?_, fun c => mem_viableCandidates h args,
    fun c' => mem_acceptingCandidates h args, dominates_iff, fun candidates' hp => ?_⟩
  · rw [hout]
    by_cases hv : viable = []
    · simp [hv]
    · simp [hv, pickDominating_ne_none]
  · rw [hout, ← pickDominating_some]
    by_cases hv : viable = []
    · simp [hv, hempty hv, PickResult.none, pickDominating, pick]
    · rw [if_neg hv]
  · rw [hout, ← pickDominating_none]
    by_cases hv : viable = []
    · simp [hv, PickResult.none]
    · simp [hv]
  · have ha' := decidingCandidates_length ha
    have hb' := decidingCandidates_length hb
    have hc' := decidingCandidates_length hc
    exact ⟨dominates_irrefl a, dominates_asymm a b,
      dominates_trans (ha'.trans hb'.symm) (hb'.trans hc'.symm)⟩
  · exact pickOverload_perm hp allow

end
end Tp2cc
