import Tp2cc.Analysis.ConstFold
import Tp2cc.Machine.CxxPrefix

set_option autoImplicit false

namespace Tp2cc
open Machine Rt

/-- A variable of an integer type, by its C++ name and the primitive that stores it. A subrange has
no primitive of its own. -/
structure IntegerVariable where
  name : List Char
  named : name ≠ [] ∧ name.all Cxx.nameChar
  storage : IntegerPrimitive
  plain : storage.Plain
  isSubrange : Bool

def IntegerVariable.intKind (x : IntegerVariable) : Option PrimitiveIntKind :=
  if x.isSubrange then none else some x.storage.intKind

structure SignOp where
  sign : Cxx.Sign
  qCheck : Bool
  deriving DecidableEq, Repr

def SignOp.unOp (op : SignOp) : UnOp :=
  match op.sign with
  | .plus => .plus
  | .minus => .neg

def negateCheckedName : List Char := "::rt::tp2cc_negate_checked".toList
def wrapNegateName : List Char := "::rt::tp2cc_wrap_negate".toList

def callText (function operand : List Char) : List Char := function ++ '(' :: (operand ++ [')'])

/-- The unary case of `expr_to_cxx`, on the text of an operand that is no literal. -/
def unaryToCxx (intKind : Option PrimitiveIntKind) (op : UnOp) (qCheck : Bool)
    (operand : List Char) : List Char :=
  match op with
  | .not => callText "::rt::p_not".toList operand
  | .neg =>
    if intKind = some .signed then
      callText (if qCheck then negateCheckedName else wrapNegateName) operand
    else if intKind = some .unsigned ∧ qCheck then callText negateCheckedName operand
    else '-' :: operand
  | .plus => '+' :: operand

/-- The text of a nest; the first sign is the outermost. -/
def nestToCxx (x : IntegerVariable) : List SignOp → List Char
  | [] => x.name
  | op :: ops => unaryToCxx x.intKind op.unOp op.qCheck (nestToCxx x ops)

def runtimeFunction (f : List Char) (v : Cxx.Value) : Option Cxx.Value :=
  if f = negateCheckedName then (tp2ccNegateChecked v.word).toOption.map fun w => ⟨v.type, w⟩
  else if f = wrapNegateName then some ⟨v.type, tp2ccWrapNegate v.word⟩
  else none

def nestConst : List SignOp → ConstExpr Unit
  | [] => .ident ()
  | op :: ops => .unary op.unOp (nestConst ops)

def constantEnv (info : ConstIntExprInfo) : IdentEnv Unit :=
  ⟨fun _ => .value info, fun _ => info.primitive⟩

def nestValue (ops : List SignOp) (v : Int) : Int :=
  ops.foldr (fun op v => op.sign.apply v) v

/-- The value and all partial results are in the signed 64-bit range. -/
def NestFits (ops : List SignOp) (v : Int) : Prop :=
  ∀ inner, inner <:+ ops → cxxInt64.Holds (nestValue inner v)

/-- The text denotes the value of the nest, leaves the variable alone and agrees with folding. -/
def NestDenotes (target : TargetInfo) (x : IntegerVariable) (ops : List SignOp)
    (content : Word (x.storage.intType target)) (constant : ConstIntExprInfo) : Prop :=
  ∃ e v, Cxx.read (nestToCxx x ops) = some e ∧
    e.eval x.name runtimeFunction ⟨content, 0⟩ = some (v,⟨content, 0⟩) ∧
    v.word.val = nestValue ops content.val ∧
    ∃ info, evalConstIntExpr target (constantEnv constant) (nestConst ops) = .value info ∧
      info.value.val = v.word.val

def SignOp.helper (x : IntegerVariable) (op : SignOp) : Option (List Char) :=
  match op.sign with
  | .plus => none
  | .minus =>
    if x.intKind = some .signed then
      some (if op.qCheck then negateCheckedName else wrapNegateName)
    else if x.intKind = some .unsigned ∧ op.qCheck then some negateCheckedName
    else none

/-- Two neighbours whose signs C++ reads as one token. -/
def Merges (x : IntegerVariable) (op op' : SignOp) : Prop :=
  op.sign = op'.sign ∧ op.helper x = none ∧ op'.helper x = none

instance (x : IntegerVariable) (op op' : SignOp) : Decidable (Merges x op op') :=
  inferInstanceAs (Decidable (_ ∧ _))

/-- No two neighbours become one token. -/
def SignsApart (x : IntegerVariable) (ops : List SignOp) : Prop :=
  ops.IsChain fun op op' => ¬Merges x op op'

/-- The innermost signs that C++ evaluates in the type of the variable: all of them unless the type
is narrower than `int`, else those within the first one that is not a helper. -/
def ownSigns (target : TargetInfo) (x : IntegerVariable) : List SignOp → List SignOp
  | [] => []
  | op :: ops =>
    if 32 ≤ x.storage.bits target ∨ ∀ o ∈ op :: ops, (o.helper x).isSome then op :: ops
    else ownSigns target x ops

/-- The type of the variable holds what its own signs make of the value, and from its signed minimum
only the wrapping helper negates. -/
def OwnSignsKept (target : TargetInfo) (x : IntegerVariable) (ops : List SignOp) (v : Int) : Prop :=
  (x.storage.intType target).Holds (nestValue (ownSigns target x ops) v) ∧
    (x.storage.intKind = .signed → v = (x.storage.intType target).lo →
      ∀ op ∈ ownSigns target x ops, op.sign = .minus → op.helper x = some wrapNegateName)

def SignOp.tree (x : IntegerVariable) (op : SignOp) (operand : Cxx.Expr) : Cxx.Expr :=
  match op.helper x with
  | none => .sign op.sign operand
  | some f => .call f operand

/-- The expression that C++ reads: neighbours of the same sign are an increment or a decrement. -/
def mergedTree (x : IntegerVariable) : List SignOp → Cxx.Expr
  | [] => .ident x.name
  | [op] => op.tree x (.ident x.name)
  | op :: op' :: ops =>
    if Merges x op op' then .step op.sign (mergedTree x ops)
    else op.tree x (mergedTree x (op' :: ops))

def nestTree (x : IntegerVariable) (ops : List SignOp) : Cxx.Expr :=
  ops.foldr (·.tree x) (.ident x.name)

section
variable {x : IntegerVariable} {op op' : SignOp} {ops : List SignOp}

theorem unaryToCxx_eq (op : SignOp) (operand : List Char) :
    unaryToCxx x.intKind op.unOp op.qCheck operand =
      match op.helper x with
      | none => op.sign.char :: operand
      | some f => callText f operand := by
  obtain ⟨sign, qCheck⟩ := op
  cases sign with
  | plus => rfl
  | minus =>
    simp only [unaryToCxx, SignOp.unOp, SignOp.helper]
    split_ifs <;> rfl

theorem helper_name {f : List Char} (h : op.helper x = some f) :
    f = negateCheckedName ∨ f = wrapNegateName := by
  unfold SignOp.helper at h
  split at h
  · cases h
  · split_ifs at h <;> cases h <;> simp

theorem helper_minus {f : List Char} (h : op.helper x = some f) : op.sign = .minus := by
  unfold SignOp.helper at h
  split at h
  · cases h
  · assumption

theorem lex_helper {f : List Char} (h : op.helper x = some f) (rest : List Char) :
    Cxx.lex (f ++ '(' :: rest) = (Cxx.lex rest).map fun ts => .name f :: .lparen :: ts := by
  have hname : f ≠ [] ∧ f.all Cxx.nameChar = true := by
    obtain rfl | rfl := helper_name h <;> exact ⟨by decide, by decide⟩
  rw [Cxx.lex_name hname.1 hname.2 rfl, Cxx.lex_lparen, Option.map_map]
  rfl

def EndsNest (rest : List Char) : Prop := ∀ c ∈ rest.head?, c = ')'

theorem lex_variable {rest : List Char} (h : EndsNest rest) :
    Cxx.lex (x.name ++ rest) = (Cxx.lex rest).map (.name x.name :: ·) := by
  refine Cxx.lex_name x.named.1 x.named.2 ?_
  cases rest with
  | nil => rfl
  | cons c rest =>
    obtain rfl := h c rfl
    rfl

theorem nestToCxx_head (x : IntegerVariable) (ops : List SignOp) (rest : List Char) :
    ∃ c cs, nestToCxx x ops ++ rest = c :: cs ∧
      (∀ op ∈ ops.head?, op.helper x = none → c = op.sign.char) ∧
      ((∀ op ∈ ops.head?, (op.helper x).isSome) → Cxx.nameChar c) := by
  cases ops with
  | nil =>
    obtain ⟨c, cs, hname⟩ := List.exists_cons_of_ne_nil x.named.1
    refine ⟨c, cs ++ rest, by rw [nestToCxx, hname]; rfl, fun op hop => (nomatch hop), fun _ => ?_⟩
    have hall := x.named.2
    rw [hname, List.all_cons, Bool.and_eq_true] at hall
    exact hall.1
  | cons op ops =>
    rw [nestToCxx, unaryToCxx_eq]
    cases hf : op.helper x with
    | none =>
      refine ⟨_, _, rfl, ?_, fun h => ?_⟩
      · rintro op ⟨⟩ -
        rfl
      · have := h op rfl
        rw [hf] at this
        cases this
    | some f =>
      obtain rfl | rfl := helper_name hf
      all_goals
        refine ⟨':', _, rfl, ?_, fun _ => rfl⟩
        rintro op ⟨⟩ hnone
        rw [hf] at hnone
        cases hnone

theorem nameChar_apart {c : Char} (h : Cxx.nameChar c = true) (s : Cxx.Sign) :
    c ≠ s.char ∧ c ≠ '=' ∧ c ≠ '>' := by
  refine ⟨Cxx.nameChar_ne h ?_, Cxx.nameChar_ne h rfl, Cxx.nameChar_ne h rfl⟩
  cases s <;> rfl

theorem sign_apart {s s' : Cxx.Sign} (h : s ≠ s') :
    s'.char ≠ s.char ∧ s'.char ≠ '=' ∧ s'.char ≠ '>' := by
  cases s <;> cases s' <;> first | exact absurd rfl h | decide

theorem lex_sign_nest (h : op.helper x = none) (hmerge : ∀ op' ∈ ops.head?, ¬Merges x op op')
    (rest : List Char) :
    Cxx.lex (op.sign.char :: (nestToCxx x ops ++ rest)) =
      (Cxx.lex (nestToCxx x ops ++ rest)).map (.sign op.sign :: ·) := by
  obtain ⟨c, cs, htext, hbare, hname⟩ := nestToCxx_head x ops rest
  have hc : c ≠ op.sign.char ∧ c ≠ '=' ∧ c ≠ '>' := by
    by_cases hhelper : ∀ op ∈ ops.head?, (op.helper x).isSome
    · exact nameChar_apart (hname hhelper) _
    · push Not at hhelper
      obtain ⟨op', hop', hnone⟩ := hhelper
      have hnone : op'.helper x = none := by simpa using hnone
      rw [hbare op' hop' hnone]
      exact sign_apart fun hsign => hmerge op' hop' ⟨hsign, h, hnone⟩
  rw [htext, Cxx.lex_sign hc.1 hc.2.1 hc.2.2]

theorem lex_apart {T : Cxx.Expr} (hmerge : ∀ op' ∈ ops.head?, ¬Merges x op op')
    (ih : ∀ rest, EndsNest rest → Cxx.lex (nestToCxx x ops ++ rest) =
      (Cxx.lex rest).map (T.tokens ++ ·)) {rest : List Char} (h : EndsNest rest) :
    Cxx.lex (nestToCxx x (op :: ops) ++ rest) =
      (Cxx.lex rest).map ((op.tree x T).tokens ++ ·) := by
  rw [nestToCxx, unaryToCxx_eq, SignOp.tree]
  cases hf : op.helper x with
  | none =>
    simp only [List.cons_append]
    rw [lex_sign_nest hf hmerge, ih rest h, Option.map_map]
    rfl
  | some f =>
    have hclose : EndsNest (')' :: rest) := by
      rintro c ⟨⟩
      rfl
    simp only [callText, List.append_assoc, List.cons_append, List.nil_append]
    rw [lex_helper hf, ih _ hclose, Cxx.lex_rparen, Option.map_map, Option.map_map]
    refine congrArg (Option.map · (Cxx.lex rest)) (funext fun ts => ?_)
    simp [Cxx.Expr.tokens]

theorem lex_merge (h : Merges x op op') (ops : List SignOp) (rest : List Char) :
    Cxx.lex (nestToCxx x (op :: op' :: ops) ++ rest) =
      (Cxx.lex (nestToCxx x ops ++ rest)).map (.step op.sign :: ·) := by
  obtain ⟨hsign, hbare, hbare'⟩ := h
  rw [nestToCxx, nestToCxx, unaryToCxx_eq, unaryToCxx_eq, hbare, hbare', ← hsign]
  exact Cxx.lex_step op.sign _

theorem lex_nest (x : IntegerVariable) (ops : List SignOp) {rest : List Char} (h : EndsNest rest) :
    Cxx.lex (nestToCxx x ops ++ rest) =
      (Cxx.lex rest).map ((mergedTree x ops).tokens ++ ·) := by
  induction ops using mergedTree.induct x generalizing rest with
  | case1 => exact lex_variable h
  | case2 op =>
    refine lex_apart ?_ (fun rest h => lex_variable h) h
    rintro op' ⟨⟩
  | case3 op op' ops hmerge ih =>
    rw [lex_merge hmerge, ih h, Option.map_map, mergedTree, if_pos hmerge]
    rfl
  | case4 op op' ops hmerge ih =>
    rw [mergedTree, if_neg hmerge]
    refine lex_apart ?_ (fun rest h => ih h) h
    rintro op'' ⟨⟩
    exact hmerge

theorem read_nest (x : IntegerVariable) (ops : List SignOp) :
    Cxx.read (nestToCxx x ops) = some (mergedTree x ops) := by
  have hlex : Cxx.lex (nestToCxx x ops ++ []) = _ := lex_nest x ops fun c hc => nomatch hc
  have hparse : Cxx.parse ((mergedTree x ops).tokens ++ []) = _ :=
    Cxx.parse_tokens _ fun t ht => nomatch ht
  rw [List.append_nil] at hlex hparse
  rw [Cxx.read, hlex]
  simp only [Cxx.lex, Option.map_some, List.append_nil, Option.bind_some, hparse]

theorem mergedTree_apart (h : SignsApart x ops) : mergedTree x ops = nestTree x ops := by
  induction ops using mergedTree.induct x with
  | case1 => rfl
  | case2 op => rfl
  | case3 op op' ops hmerge ih => exact absurd hmerge (List.isChain_cons_cons.mp h).1
  | case4 op op' ops hmerge ih =>
    rw [mergedTree, if_neg hmerge, ih (List.isChain_cons_cons.mp h).2]
    rfl

theorem mergedTree_steps (h : ¬SignsApart x ops) : (mergedTree x ops).steps ≠ 0 := by
  induction ops using mergedTree.induct x with
  | case1 => exact absurd .nil h
  | case2 op => exact absurd (.singleton op) h
  | case3 op op' ops hmerge ih =>
    rw [mergedTree, if_pos hmerge]
    exact Nat.succ_ne_zero _
  | case4 op op' ops hmerge ih =>
    have hsteps := ih fun hchain => h (List.isChain_cons_cons.mpr ⟨hmerge, hchain⟩)
    rw [mergedTree, if_neg hmerge, SignOp.tree]
    cases op.helper x <;> exact hsteps

def SignOp.apply (x : IntegerVariable) (op : SignOp) (v : Cxx.Value) : Option Cxx.Value :=
  match op.helper x with
  | none => v.sign op.sign
  | some f => runtimeFunction f v

def runSigns (x : IntegerVariable) (ops : List SignOp) (v : Cxx.Value) : Option Cxx.Value :=
  ops.foldr (fun op result => result.bind (op.apply x)) (some v)

theorem eval_nestTree {t : IntType} (ops : List SignOp) (cell : Cxx.Cell t) :
    (nestTree x ops).eval x.name runtimeFunction cell =
      (runSigns x ops ⟨t, cell.content⟩).map fun v => (v,cell) := by
  induction ops with
  | nil => exact if_pos rfl
  | cons op ops ih =>
    rw [nestTree, List.foldr_cons, ← nestTree, runSigns, List.foldr_cons, ← runSigns, SignOp.tree]
    cases hf : op.helper x with
    | none =>
      rw [Cxx.Expr.eval, ih]
      cases runSigns x ops ⟨t, cell.content⟩ with
      | none => rfl
      | some v =>
        simp only [Option.map_some, Option.bind_some, SignOp.apply, hf]
        cases h : v.sign op.sign <;> simp [h]
    | some f =>
      rw [Cxx.Expr.eval, ih]
      cases runSigns x ops ⟨t, cell.content⟩ with
      | none => rfl
      | some v =>
        simp only [Option.map_some, Option.bind_some, SignOp.apply, hf]
        cases h : runtimeFunction f v <;> simp [h]

def Yields (result : Option Cxx.Value) (t : IntType) (v : Int) : Prop :=
  ∃ w : Word t, result = some ⟨t, w⟩ ∧ w.val = v

def Refuses (x : IntegerVariable) (op : SignOp) (t : IntType) (v : Int) : Prop :=
  t.signed = true ∧ v = t.lo ∧ op.sign = .minus ∧ op.helper x ≠ some wrapNegateName

theorem neg_holds_iff {t : IntType} (hs : t.signed = true) {v : Int} (h : t.Holds v) :
    t.Holds (-v) ↔ v ≠ t.lo := by
  have hlo : t.lo = -(2^(t.bits-1)) := by simp [IntType.lo, hs]
  rw [IntType.holds_signed hs] at h ⊢
  omega

theorem arithmetic_yields {t : IntType} {v : Int} (h : ¬(t.signed = true ∧ ¬t.Holds v)) :
    Yields (Cxx.arithmetic t v) t (t.reduce v) := by
  refine ⟨.ofInt t v, ?_, rfl⟩
  rw [Cxx.arithmetic, if_neg h]

theorem apply_own {t : IntType} (ht : t.promote = t ∨ (op.helper x).isSome) (w : Word t) :
    (Refuses x op t w.val → op.apply x ⟨t, w⟩ = none) ∧
      (¬Refuses x op t w.val → Yields (op.apply x ⟨t, w⟩) t (t.reduce (op.sign.apply w.val))) := by
  rw [SignOp.apply]
  cases hf : op.helper x with
  | none =>
    have hpromote : t.promote = t := by simpa [hf] using ht
    simp only [Cxx.Value.sign, hpromote]
    have hrefuses : Refuses x op t w.val ↔ t.signed = true ∧ ¬t.Holds (op.sign.apply w.val) := by
      cases hsign : op.sign with
      | plus => simp [Refuses, hsign, Cxx.Sign.apply, w.mem]
      | minus =>
        simp only [Refuses, hsign, hf, Cxx.Sign.apply]
        constructor
        · rintro ⟨hs, hlo, -⟩
          exact ⟨hs, fun h => (neg_holds_iff hs w.mem).mp h hlo⟩
        · rintro ⟨hs, h⟩
          rw [neg_holds_iff hs w.mem, not_not] at h
          exact ⟨hs, h, trivial, nofun⟩
    rw [hrefuses]
    exact ⟨fun h => if_pos h, arithmetic_yields⟩
  | some f =>
    have hsign := helper_minus hf
    have hne : negateCheckedName ≠ wrapNegateName := by decide
    obtain rfl | rfl := helper_name hf
    · have hrefuses : Refuses x op t w.val ↔ t.signed = true ∧ w.val = t.lo := by
        simp [Refuses, hsign, hf, hne]
      simp only [runtimeFunction, if_pos, tp2ccNegateChecked]
      rw [hrefuses]
      refine ⟨fun h => by rw [if_pos h]; rfl, fun h => ⟨.ofInt t (-w.val), by rw [if_neg h]; rfl, ?_⟩⟩
      rw [hsign]
      rfl
    · have hrefuses : ¬Refuses x op t w.val := by simp [Refuses, hf]
      refine ⟨fun h => absurd h hrefuses, fun _ => ⟨tp2ccWrapNegate w, ?_, ?_⟩⟩
      · simp [runtimeFunction, hne.symm]
      · rw [tp2ccWrapNegate_val, hsign]
        rfl

theorem nestValue_sign (ops : List SignOp) :
    ∃ c : Int, (c = 1 ∨ c = -1) ∧ ∀ v, nestValue ops v = c*v := by
  induction ops with
  | nil => exact ⟨1, .inl rfl, fun v => (one_mul v).symm⟩
  | cons op ops ih =>
    obtain ⟨c, hc, hvalue⟩ := ih
    cases hsign : op.sign with
    | plus =>
      refine ⟨c, hc, fun v => ?_⟩
      rw [← hvalue, nestValue, List.foldr_cons, hsign]
      rfl
    | minus =>
      refine ⟨-c, by omega, fun v => ?_⟩
      rw [neg_mul, ← hvalue, nestValue, List.foldr_cons, hsign]
      rfl

theorem reduce_apply {t : IntType} (s : Cxx.Sign) (v : Int) :
    t.reduce (s.apply (t.reduce v)) = t.reduce (s.apply v) := by
  cases s with
  | plus => exact t.reduce_reduce v
  | minus =>
    have h := t.reduce_sub 0 v
    rw [IntType.reduce_of_holds t.holds_zero, Int.zero_sub, Int.zero_sub] at h
    exact h

theorem reduce_nestValue_lo {t : IntType} (hs : t.signed = true) {v : Int} (h : t.Holds v)
    (ops : List SignOp) : t.reduce (nestValue ops v) = t.lo ↔ v = t.lo := by
  have hlo : t.lo = -(2^(t.bits-1)) := by simp [IntType.lo, hs]
  obtain ⟨c, rfl | rfl, hvalue⟩ := nestValue_sign ops
  · rw [hvalue, one_mul, IntType.reduce_of_holds h]
  · rw [hvalue, neg_mul, one_mul]
    by_cases hv : v = t.lo
    · subst hv
      refine iff_of_true (IntType.eq_of_emod (t.reduce_holds _) h ?_) rfl
      rw [t.reduce_emod, hlo, neg_neg, t.two_pow_split]
      generalize (2 : Int)^(t.bits-1) = half
      have hhalf : -half + 2*half = half := by omega
      calc half % (2*half) = (-half + 2*half) % (2*half) := by rw [hhalf]
        _ = -half % (2*half) := Int.add_emod_right ..
    · rw [IntType.reduce_of_holds ((neg_holds_iff hs h).mpr hv)]
      have := (IntType.holds_signed hs v).mp h
      omega

/-- Signs that C++ applies in the type of the variable: the value comes out modulo the width, unless
one of them refuses the minimum. -/
theorem run_own {t : IntType} (w : Word t) {ops : List SignOp}
    (h : t.promote = t ∨ ∀ op ∈ ops, (op.helper x).isSome) :
    ((∃ op ∈ ops, Refuses x op t w.val) → runSigns x ops ⟨t, w⟩ = none) ∧
      ((¬∃ op ∈ ops, Refuses x op t w.val) →
        Yields (runSigns x ops ⟨t, w⟩) t (t.reduce (nestValue ops w.val))) := by
  induction ops with
  | nil =>
    refine ⟨fun h => ?_, fun _ => ⟨w, rfl, (IntType.reduce_of_holds w.mem).symm⟩⟩
    obtain ⟨op, hop, -⟩ := h
    cases hop
  | cons op ops ih =>
    obtain ⟨hnone, hyields⟩ := ih (h.imp_right fun h o ho => h o (List.mem_cons_of_mem _ ho))
    by_cases hinner : ∃ op ∈ ops, Refuses x op t w.val
    · have hrun : runSigns x (op :: ops) ⟨t, w⟩ = none := by
        rw [runSigns, List.foldr_cons, ← runSigns, hnone hinner]
        rfl
      obtain ⟨o, ho, hrefuses⟩ := hinner
      exact ⟨fun _ => hrun, fun h => absurd ⟨o, List.mem_cons_of_mem _ ho, hrefuses⟩ h⟩
    · obtain ⟨u, hu, hval⟩ := hyields hinner
      have hrun : runSigns x (op :: ops) ⟨t, w⟩ = op.apply x ⟨t, u⟩ := by
        rw [runSigns, List.foldr_cons, ← runSigns, hu]
        rfl
      have hmin : t.signed = true → (u.val = t.lo ↔ w.val = t.lo) := fun hs => by
        rw [hval, reduce_nestValue_lo hs w.mem]
      have hrefuses : Refuses x op t u.val ↔ ∃ o ∈ op :: ops, Refuses x o t w.val := by
        constructor
        · rintro ⟨hs, hlo, hop⟩
          exact ⟨op, List.mem_cons_self .., hs, (hmin hs).mp hlo, hop⟩
        · rintro ⟨o, ho, hrefuses⟩
          obtain rfl | ho := List.mem_cons.mp ho
          · exact ⟨hrefuses.1, (hmin hrefuses.1).mpr hrefuses.2.1, hrefuses.2.2⟩
          · exact absurd ⟨o, ho, hrefuses⟩ hinner
      obtain ⟨happly, happly'⟩ := apply_own
        (h.imp_right fun h => h op (List.mem_cons_self ..)) u
      rw [hrun, ← hrefuses]
      refine ⟨happly, fun hnot => ?_⟩
      have := happly' hnot
      rw [hval, reduce_apply] at this
      exact this

theorem narrow_bounds {t : IntType} (ht : t.bits ≤ 16) (w : Word t) :
    -(2^16) ≤ w.val ∧ w.val ≤ 2^16 := by
  have hlower := IntType.Holds.lower (t := t) (u := ⟨true, 16, IntType.sixteen_pos⟩) ht w.mem
  dsimp only at hlower
  omega

theorem holds_int (v : Int) : IntType.int.Holds v ↔ -(2^31) ≤ v ∧ v ≤ 2^31-1 :=
  IntType.holds_signed rfl v

theorem apply_int (op : SignOp) {w : Word IntType.int} (h : -(2^16) ≤ w.val ∧ w.val ≤ 2^16) :
    Yields (op.apply x ⟨.int, w⟩) .int (op.sign.apply w.val) := by
  have hrefuses : ¬Refuses x op .int w.val := by
    rintro ⟨-, hlo, -⟩
    have : IntType.int.lo = -(2^31) := rfl
    omega
  have hyields := (apply_own (.inl rfl) w).2 hrefuses
  rwa [IntType.reduce_of_holds] at hyields
  rw [holds_int]
  cases op.sign <;> simp only [Cxx.Sign.apply] <;> omega

theorem apply_promoting {t : IntType} (ht : t.bits ≤ 16) (hf : op.helper x = none) (w : Word t) :
    Yields (op.apply x ⟨t, w⟩) .int (op.sign.apply w.val) := by
  have hbounds := narrow_bounds ht w
  have hpromote : t.promote = .int := if_pos (by omega)
  have hholds : IntType.int.Holds (op.sign.apply w.val) := by
    rw [holds_int]
    cases op.sign <;> simp only [Cxx.Sign.apply] <;> omega
  simp only [SignOp.apply, hf, Cxx.Value.sign, hpromote]
  have hyields := arithmetic_yields (t := .int) fun h => h.2 hholds
  rwa [IntType.reduce_of_holds hholds] at hyields

section
variable (target : TargetInfo) (x)

/-- What a run of signs ends with: the result of the own signs, of which the others only change the
sign. -/
structure Ends (t : IntType) (ops own : List SignOp) (v : Int) (result : Option Cxx.Value) : Prop where
  refused : (∃ op ∈ own, Refuses x op t v) → result = none
  yields : (¬∃ op ∈ own, Refuses x op t v) → ∃ c s, (c = 1 ∨ c = -1) ∧
    nestValue ops v = c*nestValue own v ∧ Yields result s (c*t.reduce (nestValue own v)) ∧
    (s = t ∧ own = ops ∨ s = .int)

theorem run_all_own {t : IntType} (w : Word t) {ops : List SignOp}
    (h : t.promote = t ∨ ∀ op ∈ ops, (op.helper x).isSome) :
    Ends x t ops ops w.val (runSigns x ops ⟨t, w⟩) := by
  obtain ⟨hnone, hyields⟩ := run_own w h
  refine ⟨hnone, fun hnot => ⟨1, t, .inl rfl, (one_mul _).symm, ?_, .inl ⟨rfl, rfl⟩⟩⟩
  rw [one_mul]
  exact hyields hnot

/-- One more sign outside, where the signs within have promoted the value or this one does. -/
theorem Ends.promoted {t : IntType} (ht : t.bits ≤ 16) {ops own : List SignOp} {v : Int}
    {result : Option Cxx.Value} (h : Ends x t ops own v result)
    (hop : own = ops → op.helper x = none) :
    Ends x t (op :: ops) own v (result.bind (op.apply x)) := by
  refine ⟨fun hrefused => by rw [h.refused hrefused]; rfl, fun hnot => ?_⟩
  obtain ⟨c, s, hc, hvalue, ⟨w, rfl, hw⟩, hs⟩ := h.yields hnot
  have hstep : Yields (op.apply x ⟨s, w⟩) .int (op.sign.apply w.val) := by
    obtain ⟨rfl, hall⟩ | rfl := hs
    · exact apply_promoting ht (hop hall) w
    · have hreduce := narrow_bounds ht (.ofInt t (nestValue own v))
      simp only [Word.ofInt_val] at hreduce
      refine apply_int op ?_
      rw [hw]
      obtain rfl | rfl := hc <;> omega
  have hnest : nestValue (op :: ops) v = op.sign.apply (nestValue ops v) := rfl
  rw [hw] at hstep
  cases hsign : op.sign with
  | plus =>
    rw [hsign] at hstep hnest
    exact ⟨c, .int, hc, hnest.trans hvalue, hstep, .inr rfl⟩
  | minus =>
    rw [hsign] at hstep hnest
    refine ⟨-c, .int, by omega, ?_, ?_, .inr rfl⟩
    · rw [hnest, hvalue, Cxx.Sign.apply, neg_mul]
    · rw [neg_mul]
      exact hstep

theorem ownSigns_helpers (hnarrow : ¬32 ≤ x.storage.bits target) (ops : List SignOp) :
    ∀ o ∈ ownSigns target x ops, (o.helper x).isSome := by
  induction ops with
  | nil => exact fun o ho => nomatch ho
  | cons op ops ih =>
    rw [ownSigns]
    split
    · rename_i hown
      exact hown.resolve_left hnarrow
    · exact ih

theorem run_signs (ops : List SignOp) (w : Word (x.storage.intType target)) :
    Ends x (x.storage.intType target) ops (ownSigns target x ops) w.val
      (runSigns x ops ⟨_, w⟩) := by
  induction ops with
  | nil => exact run_all_own x w (.inr fun op hop => nomatch hop)
  | cons op ops ih =>
    rw [ownSigns]
    split
    · rename_i hown
      refine run_all_own x w (hown.imp_left fun hwide => ?_)
      exact if_neg (by simpa using hwide)
    · rename_i hown
      rw [not_or, not_le] at hown
      have hnarrow : (x.storage.intType target).bits ≤ 16 := by
        have := x.storage.bits_cases target
        rw [IntegerPrimitive.intType_bits]
        omega
      refine ih.promoted x hnarrow fun hall => ?_
      have hhelpers := ownSigns_helpers x target (not_le.mpr hown.1) ops
      rw [hall] at hhelpers
      by_contra hsome
      refine hown.2 fun o ho => ?_
      obtain rfl | ho := List.mem_cons.mp ho
      · exact Option.isSome_iff_ne_none.mpr hsome
      · exact hhelpers o ho

end

section
variable {target : TargetInfo}

theorem kept_iff (ops : List SignOp) (w : Word (x.storage.intType target)) :
    OwnSignsKept target x ops w.val ↔
      (¬∃ op ∈ ownSigns target x ops, Refuses x op (x.storage.intType target) w.val) ∧
        (x.storage.intType target).reduce (nestValue (ownSigns target x ops) w.val) =
          nestValue (ownSigns target x ops) w.val := by
  rw [OwnSignsKept, and_comm, IntType.reduce_eq_self_iff, ← IntegerPrimitive.signed_iff]
  refine and_congr_left fun _ => ?_
  constructor
  · rintro h ⟨op, hop, hs, hlo, hsign, hne⟩
    exact hne (h hs hlo op hop hsign)
  · intro h hs hlo op hop hsign
    by_contra hne
    exact h ⟨op, hop, hs, hlo, hsign, hne⟩

theorem run_value_iff (ops : List SignOp) (w : Word (x.storage.intType target)) :
    (∃ v, runSigns x ops ⟨_, w⟩ = some v ∧ v.word.val = nestValue ops w.val) ↔
      OwnSignsKept target x ops w.val := by
  have hends := run_signs x target ops w
  rw [kept_iff]
  by_cases hrefused : ∃ op ∈ ownSigns target x ops, Refuses x op (x.storage.intType target) w.val
  · refine iff_of_false ?_ fun h => h.1 hrefused
    rintro ⟨v, hv, -⟩
    rw [hends.refused hrefused] at hv
    cases hv
  · obtain ⟨c, s, hc, hvalue, ⟨u, hrun, hu⟩, -⟩ := hends.yields hrefused
    rw [hrun, hvalue]
    constructor
    · rintro ⟨v, hv, hval⟩
      cases hv
      refine ⟨hrefused, ?_⟩
      rw [hu] at hval
      obtain rfl | rfl := hc <;> omega
    · rintro ⟨-, hreduce⟩
      exact ⟨_, rfl, by rw [hu, hreduce]⟩

theorem foldUnary_neg_of_holds {info : ConstIntExprInfo} (h : cxxInt64.Holds (-info.value.val)) :
    ∃ info', foldUnary .neg info = .value info' ∧ info'.value.val = -info.value.val := by
  have hzero : (Word.ofInt cxxInt64 0).val = 0 := IntType.reduce_of_holds cxxInt64.holds_zero
  have hsub : checkedSubInt64 (.ofInt _ 0) info.value = some ((Word.ofInt _ 0).sub info.value) := by
    rw [holds_int64] at h
    rw [checkedSubInt64, hzero, if_neg (by omega)]
  refine ⟨_, by rw [foldUnary, hsub], ?_⟩
  rw [foldSigned, ConstIntExprInfo.ofValue, Word.sub_val, hzero, Int.zero_sub,
    IntType.reduce_of_holds h]

theorem evalConstIntExpr_nest (target : TargetInfo) {constant : ConstIntExprInfo} {v : Int}
    (hconstant : constant.value.val = v) {ops : List SignOp} (h : NestFits ops v) :
    ∃ info, evalConstIntExpr target (constantEnv constant) (nestConst ops) = .value info ∧
      info.value.val = nestValue ops v := by
  induction ops with
  | nil => exact ⟨constant, rfl, hconstant⟩
  | cons op ops ih =>
    obtain ⟨info, hinfo, hval⟩ := ih fun inner hinner => h inner (hinner.trans (List.suffix_cons ..))
    have hfits : cxxInt64.Holds (op.sign.apply (nestValue ops v)) := h _ (List.suffix_refl _)
    rw [nestConst, evalConstIntExpr, hinfo, Folded.bind]
    have hnest : nestValue (op :: ops) v = op.sign.apply (nestValue ops v) := rfl
    cases hsign : op.sign with
    | plus =>
      refine ⟨info, by rw [SignOp.unOp, hsign]; rfl, ?_⟩
      rw [hval, hnest, hsign, Cxx.Sign.apply]
    | minus =>
      rw [hsign, Cxx.Sign.apply, ← hval] at hfits
      obtain ⟨info', hneg, hval'⟩ := foldUnary_neg_of_holds hfits
      refine ⟨info', by rw [SignOp.unOp, hsign]; exact hneg, ?_⟩
      rw [hval', hval, hnest, hsign, Cxx.Sign.apply]

/-- The text of a nest denotes its value exactly where no two signs become one token and the own
signs of the variable's type keep the value. -/
theorem nestDenotes_iff (target : TargetInfo) (x : IntegerVariable) (ops : List SignOp)
    (content : Word (x.storage.intType target)) (constant : ConstIntExprInfo)
    (hconstant : constant.value.val = content.val) (hfits : NestFits ops content.val) :
    NestDenotes target x ops content constant ↔
      SignsApart x ops ∧ OwnSignsKept target x ops content.val := by
  rw [← run_value_iff]
  constructor
  · rintro ⟨e, v, hread, heval, hval, -⟩
    rw [read_nest] at hread
    cases hread
    have hstores := Cxx.Expr.eval_stores heval
    have hapart : SignsApart x ops := by
      by_contra hmerged
      have := mergedTree_steps hmerged
      dsimp only at hstores
      omega
    rw [mergedTree_apart hapart, eval_nestTree] at heval
    obtain ⟨u, hu, hpair⟩ := Option.map_eq_some_iff.mp heval
    obtain rfl := (Prod.mk.inj hpair).1
    exact ⟨hapart, u, hu, hval⟩
  · rintro ⟨hapart, v, hv, hval⟩
    obtain ⟨info, hinfo, hfolded⟩ := evalConstIntExpr_nest target hconstant hfits
    refine ⟨_, v, read_nest x ops, ?_, hval, info, hinfo, hfolded.trans hval.symm⟩
    rw [mergedTree_apart hapart, eval_nestTree, hv]
    rfl

end
end

theorem nestFits_of_small {v : Int} (h : -(2^63) < v ∧ v < 2^63) (ops : List SignOp) :
    NestFits ops v := by
  intro inner _
  obtain ⟨c, rfl | rfl, hvalue⟩ := nestValue_sign inner
  all_goals
    rw [hvalue, holds_int64]
    omega

theorem nameX : ['x'] ≠ [] ∧ ['x'].all Cxx.nameChar := by decide

theorem longInt_plain : (⟨.longInt, PrimitiveKind.longInt_integer⟩ : IntegerPrimitive).Plain := by
  decide

def longIntX : IntegerVariable := ⟨['x'], nameX, ⟨.longInt, PrimitiveKind.longInt_integer⟩,
  longInt_plain, false⟩

theorem nestDenotes_longInt :
    NestDenotes ⟨64, TargetInfo.sixtyFour⟩ longIntX [⟨.minus, false⟩, ⟨.plus, false⟩] (.ofInt _ 5)
        (foldSigned (.ofInt _ 5)) ↔
      SignsApart longIntX [⟨.minus, false⟩, ⟨.plus, false⟩] ∧
        OwnSignsKept ⟨64, TargetInfo.sixtyFour⟩ longIntX [⟨.minus, false⟩, ⟨.plus, false⟩] 5 :=
  nestDenotes_iff ⟨64, TargetInfo.sixtyFour⟩ longIntX [⟨.minus, false⟩, ⟨.plus, false⟩]
    (.ofInt _ 5) (foldSigned (.ofInt _ 5)) (by decide)
    (nestFits_of_small (by decide) [⟨.minus, false⟩, ⟨.plus, false⟩])

theorem word_integer : PrimitiveKind.word.info.intKind ≠ .none := by decide

theorem word_plain : (⟨.word, word_integer⟩ : IntegerPrimitive).Plain := by decide

def wordX : IntegerVariable := ⟨['x'], nameX, ⟨.word, word_integer⟩, word_plain, false⟩

/-- `-(-x)` of a word is the decrement `--x`. -/
theorem nestDenotes_word :
    NestFits [⟨.minus, false⟩, ⟨.minus, false⟩] 5 ∧
      ¬NestDenotes ⟨64, TargetInfo.sixtyFour⟩ wordX [⟨.minus, false⟩, ⟨.minus, false⟩]
        (.ofInt _ 5) (foldSigned (.ofInt _ 5)) := by
  refine ⟨nestFits_of_small (by decide) _, ?_⟩
  rintro ⟨e, v, hread, heval, -⟩
  rw [read_nest] at hread
  cases hread
  have hstores := Cxx.Expr.eval_stores heval
  revert hstores
  decide

end Tp2cc
