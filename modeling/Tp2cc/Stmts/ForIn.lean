import Tp2cc.Analysis.SetType
import Tp2cc.Machine.Jump
import Tp2cc.Stmts.ForLoop

/-! Loops over strings, arrays and sets, and the statements that their bodies are made of. -/
set_option autoImplicit false

namespace Tp2cc.ForIn
open Machine Rt

/-- `tp2cc_loop_break_N` and `tp2cc_loop_continue_N` -/
inductive LoopLabel where
  | brk (n : Nat)
  | cont (n : Nat)
  deriving DecidableEq

def LoopLabel.number : LoopLabel → Nat
  | .brk n => n
  | .cont n => n

structure Length where
  count : Nat
  fits : IntType.int.Holds count

/-- The expression behind `in`. The length of a value may depend on the state, as that of a string
behind a pointer does. A literal has a set type; others are reported. -/
inductive Collection (target : TargetInfo) (σ : Type) : Type → Type 1
  | string {H : Type} (expr : Effectful σ H) (length : H → σ → Length) : Collection target σ H
  | fixedArray {H : Type} (expr : Effectful σ H) (index : OrdinalType) (storage : IntegerPrimitive)
      (stored : index.Stored target storage) : Collection target σ H
  | countedArray {H : Type} (expr : Effectful σ H) (length : H → σ → Length) : Collection target σ H
  | set (type : SetType target) (expr : Effectful σ (Tp2ccSet type.elem)) : Collection target σ Unit
  | literal (elements : List (LiteralElement σ)) (type : SetType target)
      (deduced : deduceSetLiteralType target elements = some type) : Collection target σ Unit

mutual

/-- An absent `else` is an empty statement. `assign` gives the control variable the element at an
index, or with an ordinal. -/
inductive Stmt (target : TargetInfo) (σ : Type) : Type 1
  | empty
  | action (run : Effectful σ Unit)
  | breakStmt
  | continueStmt
  | sequence (first second : Stmt target σ)
  | compound (body : Stmt target σ)
  | ifStmt (cond : Effectful σ Bool) (yes no : Stmt target σ)
  | caseStmt {C : Type} (selector : Effectful σ C) (arms : Arms target σ C)
  | withStmt (receivers : List (Effectful σ Unit)) (body : Stmt target σ)
  | whileStmt (cond : Effectful σ Bool) (body : Stmt target σ)
  | repeatStmt (body : Stmt target σ) (cond : Effectful σ Bool)
  | forIn {H : Type} (collection : Collection target σ H) (assign : H → Int → Trace σ → Trace σ)
      (body : Stmt target σ)

inductive Arms (target : TargetInfo) (σ : Type) : Type → Type 1
  | otherwise {C : Type} (body : Stmt target σ) : Arms target σ C
  | arm {C : Type} (holds : C → Bool) (body : Stmt target σ) (rest : Arms target σ C) :
      Arms target σ C

end

/-- `tp2cc_string_N` or `tp2cc_array_N`, `tp2cc_index_N` and `tp2cc_high_N` -/
structure IndexVars (H : Type) (r : IntType) where
  container : H
  index : Word r
  high : Word r

/-- `tp2cc_set_N` and `tp2cc_item_N` -/
structure SetVars (E : ElemType) where
  set : Tp2ccSet E
  item : E.Value

section
variable {target : TargetInfo} {σ H S : Type}

abbrev Code (S : Type) := Jumping LoopLabel S

def forever (s : S) (b : Bool) (s' : S) : Prop := b = true ∧ s' = s

/-- `tp2cc_N = element;`, from the hidden variables. -/
def fetch {L : Type} (assign : L → Trace σ → Trace σ) : Code (L × Trace σ) :=
  .perform fun s s' => s' = (s.1,assign s.1 s.2)

def exitOrStep {L : Type} (last : L → Bool) (step : L → L → Prop) : Code (L × S) :=
  .seq (.branch (fun s b s' => b = last s.1 ∧ s' = s) .leave .skip)
    (.perform fun s s' => step s.1 s'.1 ∧ s'.2 = s.2)

def emitIndexedLoop {r : IntType} (n : Nat) (init : Trace σ → IndexVars H r → Trace σ → Prop)
    (assign : H → Int → Trace σ → Trace σ) (next : Word r → Except RuntimeError (Word r))
    (body : Code (Trace σ)) : Code (Trace σ) :=
  .seq
    (.declare init
      (.branch (fun s b s' => b = cxxLe s.1.index s.1.high ∧ s' = s)
        (.whileDo forever
          (.seq (fetch fun l => assign l.container l.index.val)
          (.seq (.outer body)
          (.seq (.label (.cont n))
          (exitOrStep (fun l => cxxEq l.index l.high)
            fun l l' => ∃ i, next l.index = .ok i ∧ l' = { l with index := i })))))
        .skip))
    (.label (.brk n))

def emitForInBuiltinString (n : Nat) (expr : Effectful σ H) (length : H → σ → Length)
    (assign : H → Int → Trace σ → Trace σ) (body : Code (Trace σ)) : Code (Trace σ) :=
  emitIndexedLoop n
    (fun t (l : IndexVars H .int) t' => expr.eval t = some (l.container,t') ∧
      l.index = .ofInt _ 1 ∧ l.high = .ofInt _ (length l.container t'.state).count)
    assign (fun i => .ok (tp2ccWrapAdd i (.ofInt _ 1))) body

def emitForInFixedArray (target : TargetInfo) (n : Nat) (expr : Effectful σ H) (index : OrdinalType)
    (storage : IntegerPrimitive) (assign : H → Int → Trace σ → Trace σ) (body : Code (Trace σ)) :
    Code (Trace σ) :=
  emitIndexedLoop n
    (fun t (l : IndexVars H (index.cxxType target storage)) t' =>
      expr.eval t = some (l.container,t') ∧ l.index = .ofInt _ (index.low target) ∧
        l.high = .ofInt _ (index.high target))
    assign (ordinalStepCxx (storage.intType target) false) body

/-- `emit_for_in_builtin_array` for an open or a dynamic array, with a longint as index. -/
def emitForInCountedArray (n : Nat) (expr : Effectful σ H) (length : H → σ → Length)
    (assign : H → Int → Trace σ → Trace σ) (body : Code (Trace σ)) : Code (Trace σ) :=
  emitIndexedLoop n
    (fun t (l : IndexVars H .int) t' => expr.eval t = some (l.container,t') ∧
      l.index = .ofInt _ 0 ∧
        l.high = .ofInt _ ((Word.ofInt .int (length l.container t'.state).count).val-1))
    assign (ordinalStepCxx .int false) body

def emitForInBuiltinSet (n : Nat) (type : SetType target)
    (value : Trace σ → Tp2ccSet type.elem × Trace σ → Prop)
    (assign : Unit → Int → Trace σ → Trace σ) (body : Code (Trace σ)) : Code (Trace σ) :=
  .seq
    (.declare (fun t (l : SetVars type.elem) t' =>
        value t (l.set,t') ∧ l.item = type.elem.convert type.low)
      (.whileDo forever
        (.seq
          (.branch (fun s b s' => b = s.1.set.contains s.1.item ∧ s' = s)
            (.seq (fetch fun l => assign () l.item.val)
            (.seq (.outer body)
            (.label (.cont n))))
            .skip)
        (exitOrStep (fun l => cxxEq l.item (type.elem.convert type.high))
          fun l l' => ∃ i, ordinalStepCxx (type.storage.intType target) false l.item = .ok i ∧
            l' = { l with item := i }))))
    (.label (.brk n))

def emitForInStmt (n : Nat) : {H : Type} → Collection target σ H →
    (H → Int → Trace σ → Trace σ) → Code (Trace σ) → Code (Trace σ)
  | _, .string expr length, assign, body => emitForInBuiltinString n expr length assign body
  | _, .fixedArray expr index storage _, assign, body =>
    emitForInFixedArray target n expr index storage assign body
  | _, .countedArray expr length, assign, body => emitForInCountedArray n expr length assign body
  | _, .set type expr, assign, body =>
    emitForInBuiltinSet n type (fun t r => expr.eval t = some r) assign body
  | _, .literal elements type _, assign, body =>
    emitForInBuiltinSet n type (setLiteralToCxx (type.element.integerPrimitive target)
      (elements.map LiteralElement.element)).Runs assign body

mutual

/-- `emit_stmt`, with the numbers of the enclosing loops, the innermost first, and the label counter. -/
def emitStmt : Stmt target σ → List Nat → Nat → Code (Trace σ) × Nat
  | .empty, _, n => (.skip,n)
  | .action run, _, n => (.perform fun t t' => run.eval t = some ((),t'),n)
  | .breakStmt, [], n => (.leave,n)
  | .breakStmt, k :: _, n => (.goto (.brk k),n)
  | .continueStmt, [], n => (.next,n)
  | .continueStmt, k :: _, n => (.goto (.cont k),n)
  | .sequence first second, labels, n =>
    let (first,n) := emitStmt first labels n
    let (second,n) := emitStmt second labels n
    (.seq first second,n)
  | .compound body, labels, n =>
    let (body,n) := emitStmt body labels n
    (.block body,n)
  | .ifStmt cond yes no, labels, n =>
    let (yes,n) := emitStmt yes labels n
    let (no,n) := emitStmt no labels n
    (.branch (fun t b t' => cond.eval t = some (b,t')) yes no,n)
  | .caseStmt selector arms, labels, n =>
    let (chain,n) := emitArms arms labels n
    (.declare (fun t c t' => selector.eval t = some (c,t')) chain,n)
  | .withStmt receivers body, labels, n =>
    let (body,n) := emitStmt body labels n
    (.declare (fun t us t' => Effectful.evalAll receivers t = some (us,t')) (.outer body),n)
  | .whileStmt cond body, labels, n =>
    let k := n+1
    let (body,n) := emitStmt body (k :: labels) k
    (.seq (.whileDo (fun t b t' => cond.eval t = some (b,t')) (.seq body (.label (.cont k))))
      (.label (.brk k)),n)
  | .repeatStmt body cond, labels, n =>
    let k := n+1
    let (body,n) := emitStmt body (k :: labels) k
    (.seq (.doWhile (.seq body (.label (.cont k))) fun t b t' => cond.eval t = some (!b,t'))
      (.label (.brk k)),n)
  | .forIn collection assign body, labels, n =>
    let k := n+1
    let (body,n) := emitStmt body (k :: labels) k
    (emitForInStmt k collection assign body,n)

def emitArms {C : Type} : Arms target σ C → List Nat → Nat → Code (C × Trace σ) × Nat
  | .otherwise body, labels, n =>
    let (body,n) := emitStmt body labels n
    (.outer body,n)
  | .arm holds body rest, labels, n =>
    let (body,n) := emitStmt body labels n
    let (rest,n) := emitArms rest labels n
    (.branch (fun s b s' => b = holds s.1 ∧ s' = s) (.outer body) rest,n)

end

abbrev Flow := Ending Empty

def flowEnding (labels : List Nat) : Flow → Ending LoopLabel
  | .normal => .normal
  | .broke => match labels with
    | [] => .broke
    | k :: _ => .jumped (.brk k)
  | .continued => match labels with
    | [] => .continued
    | k :: _ => .jumped (.cont k)

/-- The container that a collection is evaluated to, and the indices or ordinals of its elements. -/
abbrev Enumeration (target : TargetInfo) (σ : Type) :=
  {H : Type} → Collection target σ H → Trace σ → H → List Int → Trace σ → Prop

/-- One element: the control variable gets it, and the body runs. Only `break` ends the loop. -/
def loopVisit (body : Trace σ → Flow → Trace σ → Prop) (assign : Int → Trace σ → Trace σ) (v : Int)
    (t : Trace σ) (stop : Bool) (t' : Trace σ) : Prop :=
  ∃ f, body (assign v t) f t' ∧ stop = decide (f = .broke)

mutual

/-- What a statement does when its loops take the values of `values`. -/
def Stmt.Runs (values : Enumeration target σ) : Stmt target σ → Trace σ → Flow → Trace σ → Prop
  | .empty, t, f, t' => f = .normal ∧ t' = t
  | .action run, t, f, t' => f = .normal ∧ run.eval t = some ((),t')
  | .breakStmt, t, f, t' => f = .broke ∧ t' = t
  | .continueStmt, t, f, t' => f = .continued ∧ t' = t
  | .sequence first second, t, f, t' =>
    (∃ t₁, first.Runs values t .normal t₁ ∧ second.Runs values t₁ f t') ∨
      f ≠ .normal ∧ first.Runs values t f t'
  | .compound body, t, f, t' => body.Runs values t f t'
  | .ifStmt cond yes no, t, f, t' => ∃ b t₁, cond.eval t = some (b,t₁) ∧
      if b then yes.Runs values t₁ f t' else no.Runs values t₁ f t'
  | .caseStmt selector arms, t, f, t' => ∃ c t₁, selector.eval t = some (c,t₁) ∧
      arms.Runs values c t₁ f t'
  | .withStmt receivers body, t, f, t' => ∃ us t₁, Effectful.evalAll receivers t = some (us,t₁) ∧
      body.Runs values t₁ f t'
  | .whileStmt cond body, t, f, t' =>
    Rounds (fun t b t' => cond.eval t = some (b,t')) (body.Runs values) t f t'
  | .repeatStmt body cond, t, f, t' => ∃ f₁ t₁, body.Runs values t f₁ t₁ ∧
      if f₁ = .broke then f = .normal ∧ t' = t₁
      else Rounds (fun t b t' => cond.eval t = some (!b,t')) (body.Runs values) t₁ f t'
  | .forIn collection assign body, t, f, t' => f = .normal ∧ ∃ h vs t₁ stop,
      values collection t h vs t₁ ∧
        Visits (loopVisit (body.Runs values) (assign h)) vs t₁ stop t'

def Arms.Runs (values : Enumeration target σ) {C : Type} :
    Arms target σ C → C → Trace σ → Flow → Trace σ → Prop
  | .otherwise body, _, t, f, t' => body.Runs values t f t'
  | .arm holds body rest, c, t, f, t' =>
    if holds c then body.Runs values t f t' else rest.Runs values c t f t'

end

def itemRange {r : IntType} (first last : Word r) : List Int :=
  if first.val ≤ last.val then pascalRange false first.val last.val
  else pascalRange false first.val r.hi ++ pascalRange false r.lo last.val

def visitedOrdinals (type : SetType target) (s : Tp2ccSet type.elem) : List Int :=
  (itemRange (type.elem.convert type.low) (type.elem.convert type.high)).filter fun v =>
    s.contains (.ofInt _ v)

def emittedValues : Enumeration target σ
  | _, .string expr length, t, h, vs, t' => expr.eval t = some (h,t') ∧
      vs = pascalRange false 1 (length h t'.state).count
  | _, .fixedArray expr index _ _, t, h, vs, t' => expr.eval t = some (h,t') ∧
      vs = pascalRange false (index.low target) (index.high target)
  | _, .countedArray expr length, t, h, vs, t' => expr.eval t = some (h,t') ∧
      vs = pascalRange false 0 ((length h t'.state).count-1)
  | _, .set type expr, t, _, vs, t' => ∃ s, expr.eval t = some (s,t') ∧
      vs = visitedOrdinals type s
  | _, .literal elements type _, t, _, vs, t' => ∃ s,
      (setLiteralToCxx (type.element.integerPrimitive target)
        (elements.map LiteralElement.element)).Runs t (s,t') ∧ vs = visitedOrdinals type s

end

section
variable {r : IntType}

theorem cxxLe_same (a b : Word r) : cxxLe a b = decide (a.val ≤ b.val) := by
  have hwithin : r.Within (r.usual r) := by
    have hpromote : r.usual r = r.promote := by simp [IntType.usual]
    rw [hpromote]
    exact r.promote_within
  rw [cxxLe, Word.cast_val_of_holds (hwithin.holds a.mem), Word.cast_val_of_holds (hwithin.holds b.mem)]

theorem cxxEq_same (a b : Word r) : cxxEq a b = decide (a.val = b.val) := by
  rw [Bool.eq_iff_iff, cxxEq_iff b.mem, decide_eq_true_iff]

theorem stepUp {carrier : IntType} (h64 : carrier.bits ≤ 64) (hr : r.bits ≤ carrier.bits)
    (w : Word r) : ordinalStepCxx carrier false w = .ok (.ofInt r (w.val+1)) :=
  ordinalStepCxx_eq h64 hr false w

theorem mem_pascalRange {a b v : Int} : v ∈ pascalRange false a b ↔ a ≤ v ∧ v ≤ b := by
  simp only [pascalRange, direction, Bool.false_eq_true, if_false, List.mem_map, List.mem_range]
  constructor
  · rintro ⟨i, hi, hv⟩
    omega
  · rintro ⟨h₁, h₂⟩
    exact ⟨(v-a).toNat, by omega, by omega⟩

variable {L : Type} {last : L → Bool} {step : L → L} (f : Word r → L) {b : Word r}

theorem itemRange_holds {first last : Word r} {v : Int} (hv : v ∈ itemRange first last) :
    r.Holds v := by
  unfold itemRange at hv
  split at hv
  · obtain ⟨h₁, h₂⟩ := mem_pascalRange.mp hv
    exact ⟨first.mem.1.trans h₁, h₂.trans last.mem.2⟩
  · cases List.mem_append.mp hv with
    | inl hv =>
      obtain ⟨h₁, h₂⟩ := mem_pascalRange.mp hv
      exact ⟨first.mem.1.trans h₁, h₂⟩
    | inr hv =>
      obtain ⟨h₁, h₂⟩ := mem_pascalRange.mp hv
      exact ⟨h₁, h₂.trans last.mem.2⟩

theorem stepped_range (hlast : ∀ w, last (f w) = decide (w.val = b.val))
    (hstep : ∀ w, step (f w) = f (.ofInt r (w.val+1))) {a : Word r} (h : a.val ≤ b.val) :
    Stepped last step (f a) ((pascalRange false a.val b.val).map fun v => f (.ofInt r v)) := by
  obtain ⟨n, hn⟩ : ∃ n : Nat, b.val-a.val = n := ⟨_, (Int.toNat_of_nonneg (by omega)).symm⟩
  have hword (w : Word r) : Word.ofInt r w.val = w := Word.ofInt_of_holds w.mem
  induction n generalizing a with
  | zero =>
    have he : a.val = b.val := by omega
    have hone : pascalRange false a.val b.val = [a.val] := by
      rw [pascalRange_cons (by simp [direction, he]), pascalRange_empty]
      simp [direction, he]
    rw [hone, List.map_singleton, hword]
    exact .done (by simp [hlast, he])
  | succ n ih =>
    have hin : r.Holds (a.val+1) := ⟨by have := a.mem.1; omega, by have := b.mem.2; omega⟩
    have hnext : (Word.ofInt r (a.val+1)).val = a.val+1 := congrArg Word.val (Word.ofInt_of_holds hin)
    have hrest := @ih (.ofInt r (a.val+1)) (by omega) (by omega)
    rw [hnext] at hrest
    rw [pascalRange_cons (by simp [direction]; omega), List.map_cons, hword]
    refine .again (by rw [hlast]; simp; omega) ?_
    rw [hstep]
    exact hrest

theorem ofInt_hi_succ : Word.ofInt r (r.hi+1) = .minimum r := by
  have hmod : (r.hi+1) % 2^r.bits = r.lo % 2^r.bits := by
    have hwidth := r.hi_sub_lo
    rw [show r.hi+1 = r.lo+2^r.bits by omega, Int.add_emod_right]
  apply Word.ext
  rw [Word.ofInt_val, IntType.reduce_congr hmod]
  exact IntType.reduce_of_holds (Word.minimum r).mem

theorem stepped_itemRange (hlast : ∀ w, last (f w) = decide (w.val = b.val))
    (hstep : ∀ w, step (f w) = f (.ofInt r (w.val+1))) (a : Word r) :
    Stepped last step (f a) ((itemRange a b).map fun v => f (.ofInt r v)) := by
  unfold itemRange
  split
  · rename_i h
    exact stepped_range f hlast hstep h
  · rename_i h
    obtain ⟨n, hn⟩ : ∃ n : Nat, r.hi-a.val = n :=
      ⟨_, (Int.toNat_of_nonneg (by have := a.mem.2; omega)).symm⟩
    have hword (w : Word r) : Word.ofInt r w.val = w := Word.ofInt_of_holds w.mem
    induction n generalizing a with
    | zero =>
      have he : a.val = r.hi := by omega
      have hone : pascalRange false a.val r.hi = [a.val] := by
        rw [pascalRange_cons (by simp [direction, he]), pascalRange_empty]
        simp [direction, he]
      rw [hone, List.singleton_append, List.map_cons, hword]
      refine .again (by rw [hlast]; simp; omega) ?_
      rw [hstep, he, ofInt_hi_succ]
      exact stepped_range f hlast hstep b.mem.1
    | succ n ih =>
      have hin : r.Holds (a.val+1) := ⟨by have := a.mem.1; omega, by omega⟩
      have hnext : (Word.ofInt r (a.val+1)).val = a.val+1 :=
        congrArg Word.val (Word.ofInt_of_holds hin)
      have hrest := ih (.ofInt r (a.val+1)) (by omega) (by omega)
      rw [hnext] at hrest
      rw [pascalRange_cons (by simp [direction]; omega), List.cons_append, List.map_cons, hword]
      refine .again (by rw [hlast]; simp; omega) ?_
      rw [hstep]
      exact hrest

end

section
variable {σ H L : Type} {t t' : Trace σ} {e : Ending LoopLabel} {body : Code (Trace σ)}
  {source : Trace σ → Flow → Trace σ → Prop} {labels : List Nat} {n : Nat}

/-- What the code of a body has to do in the loop `n`, and that no label of its own is one of the
enclosing loops. -/
structure Emits (source : Trace σ → Flow → Trace σ → Prop) (labels : List Nat) (n : Nat)
    (code : Code (Trace σ)) : Prop where
  runs : ∀ t e t', code.Runs none t e t' ↔ ∃ f, source t f t' ∧ e = flowEnding labels f
  fresh : ∀ l ∈ code.labels, n < l.number

theorem flowEnding_jumped {f : Flow} {l : LoopLabel} (h : flowEnding labels f = .jumped l) :
    l.number ∈ labels := by
  cases f with
  | normal => cases h
  | broke =>
    cases labels with
    | nil => cases h
    | cons k labels =>
      cases h
      exact List.mem_cons_self
  | continued =>
    cases labels with
    | nil => cases h
    | cons k labels =>
      cases h
      exact List.mem_cons_self
  | jumped l => cases l

theorem Emits.jumped (h : Emits source labels n body) (hlabels : ∀ k ∈ labels, k ≤ n) (l : LoopLabel)
    (t t' : Trace σ) (hruns : body.Runs none t (.jumped l) t') : l.number ≤ n ∧ l ∉ body.labels := by
  obtain ⟨f, -, he⟩ := (h.runs ..).mp hruns
  have hle := hlabels _ (flowEnding_jumped he.symm)
  refine ⟨hle, ?_⟩
  intro hl
  have := h.fresh l hl
  omega

theorem exit_runs {S : Type} (last : S → Bool) (e : Ending LoopLabel) (s s' : S) :
    (Jumping.branch (fun s b s' => b = last s ∧ s' = s) .leave .skip : Code S).Runs none s e s' ↔
      s' = s ∧ e = if last s then .broke else .normal := by
  rw [Jumping.branch_runs]
  cases last s with
  | true => exact and_comm
  | false => exact and_comm

@[simp] theorem exitOrStep_labels {S : Type} {last : L → Bool} {step : L → L → Prop} :
    (exitOrStep last step : Code (L × S)).labels = [] := rfl

theorem exitOrStep_runs {S : Type} {last : L → Bool} {run : L → L → Prop} {step : L → L}
    (hrun : ∀ l l', run l l' ↔ l' = step l) {l l' : L} {s s' : S} :
    (exitOrStep last run).Runs none (l,s) e (l',s') ↔
      s' = s ∧ if last l then e = .broke ∧ l' = l else e = .normal ∧ l' = step l := by
  have hexit := exit_runs fun s : L × S => last s.1
  rw [exitOrStep, Jumping.seq_runs (fun m s s' h => by
    have he := ((hexit ..).mp h).2
    split at he <;> cases he)]
  simp only [hexit, Jumping.perform_runs, hrun]
  cases last l with
  | true =>
    simp only [if_true, Prod.mk.injEq, reduceCtorEq, and_false, false_and]
    grind
  | false =>
    simp only [Bool.false_eq_true, if_false, Prod.mk.injEq]
    grind

theorem cont_le {k : Nat} (hlabels : ∀ k ∈ labels, k ≤ n) (hk : k ∈ n :: labels) : k ≤ n := by
  cases hk with
  | head => exact le_refl n
  | tail _ hk => exact hlabels k hk

theorem outer_jumped (hbody : Emits source (n :: labels) n body) (hlabels : ∀ k ∈ labels, k ≤ n)
    (m : LoopLabel) (s s' : L × Trace σ) (h : (Jumping.outer body).Runs none s (.jumped m) s') :
    m ∉ (Jumping.outer (L := L) body).labels :=
  (hbody.jumped (fun _ hk => cont_le hlabels hk) m _ _ h.1).2

theorem indexedRound_runs {r : IntType} (hbody : Emits source (n :: labels) n body)
    (hlabels : ∀ k ∈ labels, k ≤ n) {assign : H → Int → Trace σ → Trace σ}
    {next : Word r → Except RuntimeError (Word r)}
    (hnext : ∀ w, next w = .ok (.ofInt r (w.val+1))) {l l' : IndexVars H r} :
    (Jumping.seq (fetch fun l : IndexVars H r => assign l.container l.index.val)
      (.seq (.outer body)
      (.seq (.label (.cont n))
      (exitOrStep (fun l => cxxEq l.index l.high)
        fun l l' => ∃ i, next l.index = .ok i ∧ l' = { l with index := i })))).Runs none (l,t) e (l',t')
      ↔ ∃ stop, loopVisit source (assign l.container) l.index.val t stop t' ∧
        if stop then e = .jumped (.brk n) ∧ l' = l
        else if cxxEq l.index l.high then e = .broke ∧ l' = l
        else e = .normal ∧ l' = { l with index := .ofInt r (l.index.val+1) } := by
  have hstep (l l' : IndexVars H r) : (∃ i, next l.index = .ok i ∧ l' = { l with index := i }) ↔
      l' = { l with index := .ofInt r (l.index.val+1) } := by
    simp [hnext]
  rw [Jumping.seq_runs (fun m s s' h => by cases h.1)]
  simp only [fetch, Jumping.perform_runs, Jumping.seq_label_runs exitOrStep_labels (outer_jumped hbody hlabels),
    exitOrStep_runs hstep]
  constructor
  · intro h
    cases h with
    | inr h => exact absurd h.2.1 h.1
    | inl h =>
      obtain ⟨_, ⟨-, rfl⟩, e₁, ⟨l₁, t₁⟩, ⟨hruns, rfl⟩, hrest⟩ := h
      obtain ⟨f, hf, rfl⟩ := (hbody.runs ..).mp hruns
      cases f with
      | normal => exact ⟨false, ⟨.normal, hrest.1 ▸ hf, rfl⟩, hrest.2⟩
      | continued =>
        rw [flowEnding, if_pos (.inr rfl)] at hrest
        exact ⟨false, ⟨.continued, hrest.1 ▸ hf, rfl⟩, hrest.2⟩
      | broke =>
        rw [flowEnding, if_neg (by simp)] at hrest
        obtain ⟨rfl, hp⟩ := hrest
        cases hp
        exact ⟨true, ⟨.broke, hf, rfl⟩, rfl, rfl⟩
      | jumped m => cases m
  · rintro ⟨stop, ⟨f, hf, hstop⟩, hend⟩
    refine .inl ⟨(l,assign l.container l.index.val t), ⟨trivial, rfl⟩, flowEnding (n :: labels) f,
      (l,t'), ⟨(hbody.runs ..).mpr ⟨f, hf, rfl⟩, rfl⟩, ?_⟩
    cases f with
    | normal =>
      cases hstop
      exact ⟨rfl, hend⟩
    | continued =>
      cases hstop
      rw [flowEnding, if_pos (.inr rfl)]
      exact ⟨rfl, hend⟩
    | broke =>
      cases hstop
      rw [flowEnding, if_neg (by simp)]
      exact ⟨hend.1, by rw [hend.2]⟩
    | jumped m => cases m

theorem visits_index {r : IntType} {a b : Word r} {container : H} {stop : Bool}
    {assign : H → Int → Trace σ → Trace σ} :
    Visits (fun l : IndexVars H r => loopVisit source (assign l.container) l.index.val)
        ((pascalRange false a.val b.val).map fun v => ⟨container, .ofInt r v, b⟩) t stop t' ↔
      Visits (loopVisit source (assign container)) (pascalRange false a.val b.val) t stop t' := by
  rw [visits_map]
  apply visits_congr
  intro v hv t stop t'
  obtain ⟨h₁, h₂⟩ := mem_pascalRange.mp hv
  have hholds : r.Holds v := ⟨a.mem.1.trans h₁, h₂.trans b.mem.2⟩
  rw [Word.ofInt_of_holds hholds]

theorem indexedBlock_runs {r : IntType} (hbody : Emits source (n :: labels) n body)
    (hlabels : ∀ k ∈ labels, k ≤ n) (assign : H → Int → Trace σ → Trace σ)
    {next : Word r → Except RuntimeError (Word r)}
    (hnext : ∀ w, next w = .ok (.ofInt r (w.val+1))) (l : IndexVars H r) (t t' : Trace σ)
    (e : Ending LoopLabel) :
    (∃ l', (Jumping.branch (fun s b s' => b = cxxLe s.1.index s.1.high ∧ s' = s)
      (.whileDo forever
        (.seq (fetch fun l : IndexVars H r => assign l.container l.index.val)
        (.seq (.outer body)
        (.seq (.label (.cont n))
        (exitOrStep (fun l => cxxEq l.index l.high)
          fun l l' => ∃ i, next l.index = .ok i ∧ l' = { l with index := i })))))
      .skip).Runs none (l,t) e (l',t')) ↔ ∃ stop, Visits (loopVisit source (assign l.container))
        (pascalRange false l.index.val l.high.val) t stop t' ∧
          e = if stop then .jumped (.brk n) else .normal := by
  simp only [Jumping.branch_runs fun s : IndexVars H r × Trace σ => cxxLe s.1.index s.1.high]
  simp only [cxxLe_same, decide_eq_true_iff]
  by_cases h : l.index.val ≤ l.high.val
  · have hsteps : Stepped (fun l : IndexVars H r => cxxEq l.index l.high)
        (fun l => { l with index := .ofInt r (l.index.val+1) }) l
        ((pascalRange false l.index.val l.high.val).map fun v => ⟨l.container, .ofInt r v, l.high⟩) :=
      stepped_range (fun w => (⟨l.container,w,l.high⟩ : IndexVars H r))
        (fun w => cxxEq_same w l.high) (fun w => rfl) h
    simp only [h, if_true, Jumping.whileDo_runs]
    refine (rounds_visits (fun l t e l' t' => indexedRound_runs hbody hlabels hnext) hsteps).trans ?_
    simp only [visits_index]
  · have hnone : pascalRange false l.index.val l.high.val = [] :=
      pascalRange_empty (by simp [direction]; omega)
    simp only [h, if_false, hnone, Jumping.skip_runs, Visits]
    constructor
    · rintro ⟨l', he, hl⟩
      cases hl
      exact ⟨false, ⟨rfl, rfl⟩, he⟩
    · rintro ⟨stop, ⟨hstop, ht⟩, he⟩
      rw [hstop] at he
      exact ⟨l, he, by rw [ht]⟩

theorem brk_end {stop : Bool} :
    (if (if stop then (.jumped (.brk n) : Ending LoopLabel) else .normal) = .jumped (.brk n)
      then .normal else (if stop then .jumped (.brk n) else .normal : Ending LoopLabel)) = .normal := by
  cases stop <;> simp

theorem emitIndexedLoop_runs {r : IntType} (hbody : Emits source (n :: labels) n body)
    (hlabels : ∀ k ∈ labels, k ≤ n) {init : Trace σ → IndexVars H r → Trace σ → Prop}
    {assign : H → Int → Trace σ → Trace σ} {next : Word r → Except RuntimeError (Word r)}
    (hnext : ∀ w, next w = .ok (.ofInt r (w.val+1))) :
    (emitIndexedLoop n init assign next body).Runs none t e t' ↔ e = .normal ∧ ∃ l t₁ stop,
      init t l t₁ ∧ Visits (loopVisit source (assign l.container))
        (pascalRange false l.index.val l.high.val) t₁ stop t' := by
  have hblock := indexedBlock_runs hbody hlabels assign hnext
  rw [emitIndexedLoop, Jumping.seq_last_label_runs (fun m s s' h => List.not_mem_nil)]
  simp only [Jumping.declare_runs]
  constructor
  · rintro ⟨e₁, t₁, ⟨l, t₂, l', hinit, hruns⟩, he, ht⟩
    obtain ⟨stop, hvisits, he₁⟩ := (hblock ..).mp ⟨l', hruns⟩
    rw [he₁, brk_end] at he
    exact ⟨he, l, t₂, stop, hinit, ht ▸ hvisits⟩
  · rintro ⟨he, l, t₁, stop, hinit, hvisits⟩
    obtain ⟨l', hruns⟩ := (hblock ..).mpr ⟨stop, hvisits, rfl⟩
    exact ⟨_, t', ⟨l, t₁, l', hinit, hruns⟩, by rw [brk_end, he], rfl⟩

theorem element_runs (hbody : Emits source (n :: labels) n body) (hlabels : ∀ k ∈ labels, k ≤ n)
    {assign : L → Trace σ → Trace σ} {visit : Int → Trace σ → Trace σ} {v : Int} {l l' : L}
    (hassign : assign l = visit v) :
    (Jumping.seq (fetch assign) (.seq (.outer body) (.label (.cont n)))).Runs none (l,t) e (l',t') ↔
      l' = l ∧ ∃ stop, loopVisit source visit v t stop t' ∧
        e = if stop then .jumped (.brk n) else .normal := by
  rw [Jumping.seq_runs (fun m s s' h => by cases h.1)]
  simp only [fetch, Jumping.perform_runs, Jumping.seq_last_label_runs (outer_jumped hbody hlabels)]
  constructor
  · intro h
    cases h with
    | inr h => exact absurd h.2.1 h.1
    | inl h =>
      obtain ⟨_, ⟨-, rfl⟩, e₁, ⟨l₁, t₁⟩, ⟨hruns, rfl⟩, he, hp⟩ := h
      cases hp
      obtain ⟨f, hf, rfl⟩ := (hbody.runs ..).mp hruns
      refine ⟨rfl, decide (f = .broke), ⟨f, hassign ▸ hf, rfl⟩, ?_⟩
      rw [he]
      cases f with
      | normal => rfl
      | broke => rfl
      | continued => simp [flowEnding]
      | jumped m => cases m
  · rintro ⟨hl, stop, ⟨f, hf, hstop⟩, he⟩
    refine .inl ⟨(l,assign l t), ⟨trivial, rfl⟩, flowEnding (n :: labels) f, (l,t'),
      ⟨(hbody.runs ..).mpr ⟨f, hassign ▸ hf, rfl⟩, rfl⟩, ?_, by rw [hl]⟩
    rw [he, hstop]
    cases f with
    | normal => rfl
    | broke => rfl
    | continued => simp [flowEnding]
    | jumped m => cases m

def itemVisit {E : ElemType} (source : Trace σ → Flow → Trace σ → Prop)
    (assign : Int → Trace σ → Trace σ) (l : SetVars E) (t : Trace σ) (stop : Bool) (t' : Trace σ) :
    Prop :=
  if l.set.contains l.item then loopVisit source assign l.item.val t stop t'
  else stop = false ∧ t' = t

theorem setRound_runs {E : ElemType} {high : E.Value} (hbody : Emits source (n :: labels) n body)
    (hlabels : ∀ k ∈ labels, k ≤ n) {assign : Unit → Int → Trace σ → Trace σ}
    {next : E.Value → Except RuntimeError E.Value}
    (hnext : ∀ w, next w = .ok (.ofInt _ (w.val+1))) {l l' : SetVars E} :
    (Jumping.seq
      (.branch (fun s b s' => b = s.1.set.contains s.1.item ∧ s' = s)
        (.seq (fetch fun l : SetVars E => assign () l.item.val)
        (.seq (.outer body)
        (.label (.cont n))))
        .skip)
      (exitOrStep (fun l => cxxEq l.item high)
        fun l l' => ∃ i, next l.item = .ok i ∧ l' = { l with item := i })).Runs none (l,t) e (l',t')
      ↔ ∃ stop, itemVisit source (assign ()) l t stop t' ∧
        if stop then e = .jumped (.brk n) ∧ l' = l
        else if cxxEq l.item high then e = .broke ∧ l' = l
        else e = .normal ∧ l' = { l with item := .ofInt _ (l.item.val+1) } := by
  have hstep (l l' : SetVars E) : (∃ i, next l.item = .ok i ∧ l' = { l with item := i }) ↔
      l' = { l with item := .ofInt _ (l.item.val+1) } := by
    simp [hnext]
  have hvisit (l l' : SetVars E) (t t' : Trace σ) (e : Ending LoopLabel) :
      (Jumping.branch (fun s b s' => b = s.1.set.contains s.1.item ∧ s' = s)
        (.seq (fetch fun l : SetVars E => assign () l.item.val)
        (.seq (.outer body)
        (.label (.cont n))))
        .skip).Runs none (l,t) e (l',t') ↔ l' = l ∧ ∃ stop, itemVisit source (assign ()) l t stop t' ∧
          e = if stop then .jumped (.brk n) else .normal := by
    rw [Jumping.branch_runs fun s : SetVars E × Trace σ => s.1.set.contains s.1.item]
    simp only [itemVisit]
    split
    · exact element_runs hbody hlabels rfl
    · rw [Jumping.skip_runs, Prod.mk.injEq]
      constructor
      · rintro ⟨he, hl, ht⟩
        exact ⟨hl, false, ⟨rfl, ht⟩, he⟩
      · rintro ⟨hl, stop, ⟨hstop, ht⟩, he⟩
        rw [hstop] at he
        exact ⟨he, hl, ht⟩
  rw [Jumping.seq_runs (fun m s s' h => ⟨List.not_mem_nil, List.not_mem_nil⟩)]
  constructor
  · intro h
    cases h with
    | inl h =>
      obtain ⟨⟨l₁, t₁⟩, hfirst, hsecond⟩ := h
      obtain ⟨rfl, stop, hstop, he⟩ := (hvisit ..).mp hfirst
      obtain ⟨rfl, hend⟩ := (exitOrStep_runs hstep).mp hsecond
      cases stop with
      | true => cases he
      | false => exact ⟨false, hstop, hend⟩
    | inr h =>
      obtain ⟨hl, stop, hstop, he⟩ := (hvisit ..).mp h.2
      cases stop with
      | true => exact ⟨true, hstop, he, hl⟩
      | false => exact absurd he h.1
  · rintro ⟨stop, hstop, hend⟩
    cases stop with
    | true => exact .inr ⟨by simp [hend.1], (hvisit ..).mpr ⟨hend.2, true, hstop, hend.1⟩⟩
    | false =>
      exact .inl ⟨(l,t'), (hvisit ..).mpr ⟨rfl, false, hstop, rfl⟩,
        (exitOrStep_runs hstep).mpr ⟨rfl, hend⟩⟩

theorem visits_item {E : ElemType} {set : Tp2ccSet E} {first last : E.Value} {stop : Bool}
    {assign : Int → Trace σ → Trace σ} :
    Visits (itemVisit source assign)
        ((itemRange first last).map fun v => ⟨set, .ofInt _ v⟩) t stop t' ↔
      Visits (loopVisit source assign)
        ((itemRange first last).filter fun v => set.contains (.ofInt _ v)) t stop t' := by
  rw [visits_map, visits_filter]
  apply visits_congr
  intro v hv t stop t'
  rw [itemVisit, Word.ofInt_of_holds (itemRange_holds hv)]

theorem emitForInBuiltinSet_runs {target : TargetInfo} {type : SetType target}
    (hbody : Emits source (n :: labels) n body) (hlabels : ∀ k ∈ labels, k ≤ n)
    {value : Trace σ → Tp2ccSet type.elem × Trace σ → Prop}
    {assign : Unit → Int → Trace σ → Trace σ} :
    (emitForInBuiltinSet n type value assign body).Runs none t e t' ↔ e = .normal ∧ ∃ set t₁ stop,
      value t (set,t₁) ∧ Visits (loopVisit source (assign ())) (visitedOrdinals type set) t₁ stop t' := by
  have hbits : type.elem.carrier.bits ≤ (type.storage.intType target).bits :=
    type.element.elemType_bits_le type.storage
  have hnext := stepUp (type.storage.bits_le target) hbits
  have hblock (set : Tp2ccSet type.elem) (t t' : Trace σ) (e : Ending LoopLabel) :
      (∃ l', Rounds forever ((Jumping.seq
        (.branch (fun s b s' => b = s.1.set.contains s.1.item ∧ s' = s)
          (.seq (fetch fun l : SetVars type.elem => assign () l.item.val)
          (.seq (.outer body)
          (.label (.cont n))))
          .skip)
        (exitOrStep (fun l => cxxEq l.item (type.elem.convert type.high))
          fun l l' => ∃ i, ordinalStepCxx (type.storage.intType target) false l.item = .ok i ∧
            l' = { l with item := i })).Runs none)
        (⟨set, type.elem.convert type.low⟩,t) e (l',t')) ↔
      ∃ stop, Visits (loopVisit source (assign ())) (visitedOrdinals type set) t stop t' ∧
        e = if stop then .jumped (.brk n) else .normal := by
    have hsteps : Stepped
        (fun l : SetVars type.elem => cxxEq l.item (type.elem.convert type.high))
        (fun l => { l with item := .ofInt _ (l.item.val+1) }) ⟨set, type.elem.convert type.low⟩
        ((itemRange (type.elem.convert type.low) (type.elem.convert type.high)).map fun v =>
          ⟨set, .ofInt _ v⟩) :=
      stepped_itemRange (fun w => (⟨set, w⟩ : SetVars type.elem))
        (fun w => cxxEq_same w (type.elem.convert type.high)) (fun w => rfl)
        (type.elem.convert type.low)
    refine (rounds_visits (fun l t e l' t' => setRound_runs hbody hlabels hnext) hsteps).trans ?_
    simp only [visits_item, visitedOrdinals]
  rw [emitForInBuiltinSet, Jumping.seq_last_label_runs (fun m s s' h => List.not_mem_nil)]
  simp only [Jumping.declare_runs, Jumping.whileDo_runs]
  constructor
  · rintro ⟨e₁, t₁, ⟨l, t₂, l', ⟨hvalue, hitem⟩, hruns⟩, he, ht⟩
    obtain ⟨set, item⟩ := l
    cases hitem
    obtain ⟨stop, hvisits, he₁⟩ := (hblock ..).mp ⟨l', hruns⟩
    rw [he₁, brk_end] at he
    exact ⟨he, set, t₂, stop, hvalue, ht ▸ hvisits⟩
  · rintro ⟨he, set, t₁, stop, hvalue, hvisits⟩
    obtain ⟨l', hruns⟩ := (hblock ..).mpr ⟨stop, hvisits, rfl⟩
    exact ⟨_, t', ⟨_, t₁, l', ⟨hvalue, rfl⟩, hruns⟩, by rw [brk_end, he], rfl⟩

theorem wrapAdd_one (w : Word .int) : tp2ccWrapAdd w (.ofInt .int 1) = .ofInt .int (w.val+1) :=
  tp2ccWrapAdd_eq (by decide) w (.ofInt .int 1)

theorem indexed_values {r : IntType} {expr : Effectful σ H} {low : Int} {high : H → Trace σ → Int}
    (hlow : r.Holds low) (hhigh : ∀ h t, r.Holds (high h t))
    {assign : H → Int → Trace σ → Trace σ} :
    (∃ (l : IndexVars H r) (t₁ : Trace σ) (stop : Bool), (expr.eval t = some (l.container,t₁) ∧
        l.index = .ofInt r low ∧ l.high = .ofInt r (high l.container t₁)) ∧
      Visits (loopVisit source (assign l.container)) (pascalRange false l.index.val l.high.val)
        t₁ stop t') ↔
    ∃ h vs t₁ stop, (expr.eval t = some (h,t₁) ∧ vs = pascalRange false low (high h t₁)) ∧
      Visits (loopVisit source (assign h)) vs t₁ stop t' := by
  constructor
  · rintro ⟨⟨h, i, j⟩, t₁, stop, ⟨heval, hi, hj⟩, hvisits⟩
    simp only [Word.ofInt_of_holds hlow, Word.ofInt_of_holds (hhigh _ _)] at hi hj
    cases hi
    cases hj
    exact ⟨h, _, t₁, stop, ⟨heval, rfl⟩, hvisits⟩
  · rintro ⟨h, vs, t₁, stop, ⟨heval, hvs⟩, hvisits⟩
    cases hvs
    refine ⟨⟨h, .ofInt r low, .ofInt r (high h t₁)⟩, t₁, stop, ⟨heval, rfl, rfl⟩, ?_⟩
    rw [Word.ofInt_of_holds hlow, Word.ofInt_of_holds (hhigh h t₁)]
    exact hvisits

theorem emitForInStmt_runs {target : TargetInfo} {H : Type} {collection : Collection target σ H}
    (hbody : Emits source (n :: labels) n body) (hlabels : ∀ k ∈ labels, k ≤ n)
    {assign : H → Int → Trace σ → Trace σ} :
    (emitForInStmt n collection assign body).Runs none t e t' ↔ e = .normal ∧ ∃ h vs t₁ stop,
      emittedValues collection t h vs t₁ ∧ Visits (loopVisit source (assign h)) vs t₁ stop t' := by
  cases collection with
  | string expr length =>
    rw [emitForInStmt, emitForInBuiltinString,
      emitIndexedLoop_runs hbody hlabels fun w => congrArg Except.ok (wrapAdd_one w)]
    exact and_congr_right fun _ => indexed_values (by decide) fun h t => (length h t.state).fits
  | fixedArray expr index storage stored =>
    have hbits : (index.cxxType target storage).bits ≤ (storage.intType target).bits :=
      index.cxxType_bits_le storage
    have hnext := stepUp (storage.bits_le target) hbits
    rw [emitForInStmt, emitForInFixedArray, emitIndexedLoop_runs hbody hlabels hnext]
    exact and_congr_right fun _ => indexed_values
      (stored.cxxType_holds ⟨le_refl _, stored.ordered⟩)
      fun _ _ => stored.cxxType_holds ⟨stored.ordered, le_refl _⟩
  | countedArray expr length =>
    have hint : IntType.int.bits ≤ 64 := by decide
    have hnext := stepUp hint (Nat.le_refl IntType.int.bits)
    have hcount (h : H) (t : Trace σ) :
        (Word.ofInt .int (length h t.state).count).val = (length h t.state).count := by
      rw [Word.ofInt_of_holds (length h t.state).fits]
    have hlast (h : H) (t : Trace σ) : IntType.int.Holds ((length h t.state).count-1) := by
      have hlo : IntType.int.lo ≤ -1 := by decide
      have hhi := (length h t.state).fits.2
      exact ⟨hlo.trans (by omega), by omega⟩
    rw [emitForInStmt, emitForInCountedArray, emitIndexedLoop_runs hbody hlabels hnext]
    simp only [hcount]
    exact and_congr_right fun _ => indexed_values (by decide) hlast
  | set type expr =>
    rw [emitForInStmt, emitForInBuiltinSet_runs hbody hlabels]
    apply and_congr_right
    intro _
    constructor
    · rintro ⟨set, t₁, stop, heval, hvisits⟩
      exact ⟨(), _, t₁, stop, ⟨set, heval, rfl⟩, hvisits⟩
    · rintro ⟨_, vs, t₁, stop, ⟨set, heval, hvs⟩, hvisits⟩
      exact ⟨set, t₁, stop, heval, hvs ▸ hvisits⟩
  | literal elements type deduced =>
    rw [emitForInStmt, emitForInBuiltinSet_runs hbody hlabels]
    apply and_congr_right
    intro _
    constructor
    · rintro ⟨set, t₁, stop, heval, hvisits⟩
      exact ⟨(), _, t₁, stop, ⟨set, heval, rfl⟩, hvisits⟩
    · rintro ⟨_, vs, t₁, stop, ⟨set, heval, hvs⟩, hvisits⟩
      exact ⟨set, t₁, stop, heval, hvs ▸ hvisits⟩

def loopEnding (k : Nat) : Flow → Ending LoopLabel
  | .normal | .continued => .normal
  | .broke => .jumped (.brk k)

theorem labelledBody_runs (hbody : Emits source (n :: labels) n body)
    (hlabels : ∀ k ∈ labels, k ≤ n) (t : Trace σ) (e : Ending LoopLabel) (t' : Trace σ) :
    (Jumping.seq body (.label (.cont n))).Runs none t e t' ↔
      ∃ f, source t f t' ∧ e = loopEnding n f := by
  have hjump := hbody.jumped fun _ hk => cont_le hlabels hk
  rw [Jumping.seq_last_label_runs (fun m s s' h => (hjump m s s' h).2)]
  constructor
  · rintro ⟨e₁, t₁, hruns, he, ht⟩
    obtain ⟨f, hf, rfl⟩ := (hbody.runs ..).mp hruns
    refine ⟨f, ht ▸ hf, ?_⟩
    rw [he]
    cases f with
    | normal => rfl
    | broke => rfl
    | continued => simp [flowEnding, loopEnding]
    | jumped m => cases m
  · rintro ⟨f, hf, he⟩
    refine ⟨flowEnding (n :: labels) f, t', (hbody.runs ..).mpr ⟨f, hf, rfl⟩, ?_, rfl⟩
    rw [he]
    cases f with
    | normal => rfl
    | broke => rfl
    | continued => simp [flowEnding, loopEnding]
    | jumped m => cases m

section
variable {test : Trace σ → Bool → Trace σ → Prop} {code : Trace σ → Ending LoopLabel → Trace σ → Prop}

theorem rounds_of_code (hcode : ∀ t e t', code t e t' ↔ ∃ f, source t f t' ∧ e = loopEnding n f)
    (h : Rounds test code t e t') :
    Rounds test source t .normal t' ∧ (e = .normal ∨ e = .jumped (.brk n)) := by
  induction h with
  | done htest => exact ⟨.done htest, .inl rfl⟩
  | broke htest hbody =>
    obtain ⟨f, hf, he⟩ := (hcode ..).mp hbody
    cases f with
    | normal => cases he
    | broke => cases he
    | continued => cases he
    | jumped m => cases m
  | jumped htest hbody =>
    obtain ⟨f, hf, he⟩ := (hcode ..).mp hbody
    cases f with
    | normal => cases he
    | broke =>
      cases he
      exact ⟨.broke htest hf, .inr rfl⟩
    | continued => cases he
    | jumped m => cases m
  | again htest hbody he hrest ih =>
    obtain ⟨f, hf, hend⟩ := (hcode ..).mp hbody
    cases f with
    | normal => exact ⟨.again htest hf (.inl rfl) ih.1, ih.2⟩
    | broke =>
      cases hend
      cases he with
      | inl he => cases he
      | inr he => cases he
    | continued => exact ⟨.again htest hf (.inr rfl) ih.1, ih.2⟩
    | jumped m => cases m

theorem code_of_rounds (hcode : ∀ t e t', code t e t' ↔ ∃ f, source t f t' ∧ e = loopEnding n f)
    {f : Flow} (h : Rounds test source t f t') :
    f = .normal ∧ ∃ e, Rounds test code t e t' ∧ (e = .normal ∨ e = .jumped (.brk n)) := by
  induction h with
  | done htest => exact ⟨rfl, .normal, .done htest, .inl rfl⟩
  | broke htest hbody =>
    exact ⟨rfl, _, .jumped htest ((hcode ..).mpr ⟨.broke, hbody, rfl⟩), .inr rfl⟩
  | @jumped _ _ _ m => cases m
  | again htest hbody he hrest ih =>
    obtain ⟨hf, e₁, hrounds, he₁⟩ := ih
    refine ⟨hf, e₁, .again htest ((hcode ..).mpr ⟨_, hbody, ?_⟩) (.inl rfl) hrounds, he₁⟩
    cases he with
    | inl he => rw [he, loopEnding]
    | inr he => rw [he, loopEnding]

theorem loop_runs (labels : List Nat) (test : Trace σ → Bool → Trace σ → Prop)
    (hcode : ∀ t e t', code t e t' ↔ ∃ f, source t f t' ∧ e = loopEnding n f) (t : Trace σ)
    (e : Ending LoopLabel) (t' : Trace σ) :
    (∃ e₁, Rounds test code t e₁ t' ∧ e = if e₁ = .jumped (.brk n) then .normal else e₁) ↔
      ∃ f, Rounds test source t f t' ∧ e = flowEnding labels f := by
  constructor
  · rintro ⟨e₁, hrounds, he⟩
    obtain ⟨h, he₁⟩ := rounds_of_code hcode hrounds
    refine ⟨.normal, h, ?_⟩
    cases he₁ with
    | inl he₁ => simp [he, he₁, flowEnding]
    | inr he₁ => simp [he, he₁, flowEnding]
  · rintro ⟨f, h, he⟩
    obtain ⟨rfl, e₁, hrounds, he₁⟩ := code_of_rounds hcode h
    refine ⟨e₁, hrounds, ?_⟩
    cases he₁ with
    | inl he₁ => simp [he, he₁, flowEnding]
    | inr he₁ => simp [he, he₁, flowEnding]

end

theorem block_emits (hbody : Emits source labels n body) : Emits source labels n (.block body) where
  runs := hbody.runs
  fresh _ hl := absurd hl List.not_mem_nil

theorem seq_emits {m : Nat} {second : Code (Trace σ)} {source' : Trace σ → Flow → Trace σ → Prop}
    (hbody : Emits source labels n body) (hsecond : Emits source' labels m second) (hm : n ≤ m)
    (hlabels : ∀ k ∈ labels, k ≤ n) :
    Emits (fun t f t' => (∃ t₁, source t .normal t₁ ∧ source' t₁ f t') ∨ f ≠ .normal ∧ source t f t')
      labels n (.seq body second) where
  runs t e t' := by
    rw [Jumping.seq_runs (fun l s s' h => by
      obtain ⟨hle, hl⟩ := hbody.jumped hlabels l s s' h
      refine ⟨hl, ?_⟩
      intro hl'
      have := hsecond.fresh l hl'
      omega)]
    simp only [hbody.runs, hsecond.runs]
    constructor
    · intro h
      cases h with
      | inl h =>
        obtain ⟨t₁, ⟨f₁, hf₁, he₁⟩, f, hf, he⟩ := h
        cases f₁ with
        | normal => exact ⟨f, .inl ⟨t₁, hf₁, hf⟩, he⟩
        | broke => cases labels <;> cases he₁
        | continued => cases labels <;> cases he₁
        | jumped m => cases m
      | inr h =>
        obtain ⟨hne, f, hf, he⟩ := h
        exact ⟨f, .inr ⟨fun hf => hne (by rw [he, hf, flowEnding]), hf⟩, he⟩
    · rintro ⟨f, h, he⟩
      cases h with
      | inl h =>
        obtain ⟨t₁, hf₁, hf⟩ := h
        exact .inl ⟨t₁, ⟨.normal, hf₁, rfl⟩, f, hf, he⟩
      | inr h =>
        refine .inr ⟨?_, f, h.2, he⟩
        intro hnormal
        cases f with
        | normal => exact h.1 rfl
        | broke => cases labels <;> cases he.symm.trans hnormal
        | continued => cases labels <;> cases he.symm.trans hnormal
        | jumped m => cases m
  fresh l hl := by
    cases List.mem_append.mp hl with
    | inl hl => exact hbody.fresh l hl
    | inr hl => exact Nat.lt_of_le_of_lt hm (hsecond.fresh l hl)

theorem while_emits (hbody : Emits source ((n+1) :: labels) (n+1) body) (hlabels : ∀ k ∈ labels, k ≤ n)
    {test : Trace σ → Bool → Trace σ → Prop} :
    Emits (Rounds test source) labels n
      (.seq (.whileDo test (.seq body (.label (.cont (n+1))))) (.label (.brk (n+1)))) where
  runs t e t' := by
    have hcode := labelledBody_runs hbody fun k hk => Nat.le_succ_of_le (hlabels k hk)
    rw [Jumping.seq_last_label_runs (fun m s s' h => List.not_mem_nil), ← loop_runs labels test hcode]
    simp only [Jumping.whileDo_runs]
    constructor
    · rintro ⟨e₁, t₁, h, he, ht⟩
      exact ⟨e₁, ht ▸ h, he⟩
    · rintro ⟨e₁, h, he⟩
      exact ⟨e₁, t', h, he, rfl⟩
  fresh l hl := by
    cases List.mem_singleton.mp hl
    exact Nat.lt_succ_self n

theorem repeat_emits (hbody : Emits source ((n+1) :: labels) (n+1) body)
    (hlabels : ∀ k ∈ labels, k ≤ n) {test : Trace σ → Bool → Trace σ → Prop} :
    Emits (fun t f t' => ∃ f₁ t₁, source t f₁ t₁ ∧
        if f₁ = .broke then f = .normal ∧ t' = t₁ else Rounds test source t₁ f t') labels n
      (.seq (.doWhile (.seq body (.label (.cont (n+1)))) test) (.label (.brk (n+1)))) where
  runs t e t' := by
    have hcode := labelledBody_runs hbody fun k hk => Nat.le_succ_of_le (hlabels k hk)
    have hrounds := loop_runs labels test hcode
    rw [Jumping.seq_last_label_runs (fun m s s' h => List.not_mem_nil)]
    simp only [Jumping.doWhile_runs]
    constructor
    · rintro ⟨e₁, t₁, ⟨e₂, t₂, hfirst, hrest⟩, he, ht⟩
      obtain ⟨f, hf, rfl⟩ := (hcode ..).mp hfirst
      cases ht
      cases f with
      | normal =>
        obtain ⟨f', hf', he'⟩ := (hrounds ..).mp ⟨e₁, hrest, he⟩
        exact ⟨f', ⟨.normal, t₂, hf, by simpa using hf'⟩, he'⟩
      | broke =>
        obtain ⟨rfl, rfl⟩ := hrest
        exact ⟨.normal, ⟨.broke, _, hf, by simp⟩, by simp [he, flowEnding]⟩
      | continued =>
        obtain ⟨f', hf', he'⟩ := (hrounds ..).mp ⟨e₁, hrest, he⟩
        exact ⟨f', ⟨.continued, t₂, hf, by simpa using hf'⟩, he'⟩
      | jumped m => cases m
    · rintro ⟨f, ⟨f₁, t₁, hf₁, hrest⟩, he⟩
      have hfirst := (hcode ..).mpr ⟨f₁, hf₁, rfl⟩
      cases f₁ with
      | normal =>
        obtain ⟨e₁, hrounds, he₁⟩ := (hrounds ..).mpr ⟨f, by simpa using hrest, he⟩
        exact ⟨e₁, t', ⟨_, t₁, hfirst, hrounds⟩, he₁, rfl⟩
      | broke =>
        simp only [if_true] at hrest
        obtain ⟨rfl, rfl⟩ := hrest
        exact ⟨_, _, ⟨_, _, hfirst, rfl, rfl⟩, by simp [he, flowEnding], rfl⟩
      | continued =>
        obtain ⟨e₁, hrounds, he₁⟩ := (hrounds ..).mpr ⟨f, by simpa using hrest, he⟩
        exact ⟨e₁, t', ⟨_, t₁, hfirst, hrounds⟩, he₁, rfl⟩
      | jumped m => cases m
  fresh l hl := by
    cases List.mem_singleton.mp hl
    exact Nat.lt_succ_self n

theorem le_succ_of_labels (hlabels : ∀ k ∈ labels, k ≤ n) : ∀ k ∈ (n+1) :: labels, k ≤ n+1 := by
  intro k hk
  cases hk with
  | head => exact Nat.le_refl _
  | tail _ hk => exact Nat.le_succ_of_le (hlabels k hk)

theorem Emits.mono {m : Nat} (h : Emits source labels m body) (hm : n ≤ m) :
    Emits source labels n body :=
  ⟨h.runs, fun l hl => Nat.lt_of_le_of_lt hm (h.fresh l hl)⟩

theorem forIn_emits {target : TargetInfo} {H : Type} {collection : Collection target σ H}
    (hbody : Emits source ((n+1) :: labels) (n+1) body) (hlabels : ∀ k ∈ labels, k ≤ n)
    {assign : H → Int → Trace σ → Trace σ} :
    Emits (fun t f t' => f = .normal ∧ ∃ h vs t₁ stop, emittedValues collection t h vs t₁ ∧
        Visits (loopVisit source (assign h)) vs t₁ stop t') labels n
      (emitForInStmt (n+1) collection assign body) where
  runs t e t' := by
    rw [emitForInStmt_runs hbody fun k hk => Nat.le_succ_of_le (hlabels k hk)]
    constructor
    · rintro ⟨he, h⟩
      exact ⟨.normal, ⟨rfl, h⟩, he⟩
    · rintro ⟨f, ⟨hf, h⟩, he⟩
      exact ⟨by rw [he, hf, flowEnding], h⟩
  fresh l hl := by
    have hl : l = .brk (n+1) := by
      cases collection <;> exact List.mem_singleton.mp hl
    rw [hl]
    exact Nat.lt_succ_self n

variable {target : TargetInfo}

mutual

/-- The emitted statement does what the statement does when its loops take the values that the
emitted loops take. Loop numbers only grow, so no jump is caught by a label of the code inside. -/
theorem emitStmt_emits : (stmt : Stmt target σ) → (labels : List Nat) → (n : Nat) →
    (∀ k ∈ labels, k ≤ n) →
      Emits (stmt.Runs emittedValues) labels n (emitStmt stmt labels n).1 ∧
        n ≤ (emitStmt stmt labels n).2
  | .empty, labels, n, _ => by
    refine ⟨⟨fun t e t' => ?_, fun _ hl => absurd hl List.not_mem_nil⟩, Nat.le_refl n⟩
    simp [emitStmt, Stmt.Runs, flowEnding]
    exact and_comm
  | .action run, labels, n, _ => by
    refine ⟨⟨fun t e t' => ?_, fun _ hl => absurd hl List.not_mem_nil⟩, Nat.le_refl n⟩
    simp [emitStmt, Stmt.Runs, flowEnding]
    exact and_comm
  | .breakStmt, labels, n, _ => by
    cases labels with
    | nil =>
      refine ⟨⟨fun t e t' => ?_, fun _ hl => absurd hl List.not_mem_nil⟩, Nat.le_refl n⟩
      simp [emitStmt, Stmt.Runs, Jumping.Runs, flowEnding]
      exact and_comm
    | cons k labels =>
      refine ⟨⟨fun t e t' => ?_, fun _ hl => absurd hl List.not_mem_nil⟩, Nat.le_refl n⟩
      simp [emitStmt, Stmt.Runs, Jumping.Runs, flowEnding]
      exact and_comm
  | .continueStmt, labels, n, _ => by
    cases labels with
    | nil =>
      refine ⟨⟨fun t e t' => ?_, fun _ hl => absurd hl List.not_mem_nil⟩, Nat.le_refl n⟩
      simp [emitStmt, Stmt.Runs, Jumping.Runs, flowEnding]
      exact and_comm
    | cons k labels =>
      refine ⟨⟨fun t e t' => ?_, fun _ hl => absurd hl List.not_mem_nil⟩, Nat.le_refl n⟩
      simp [emitStmt, Stmt.Runs, Jumping.Runs, flowEnding]
      exact and_comm
  | .sequence first second, labels, n, hlabels => by
    obtain ⟨h₁, hn₁⟩ := emitStmt_emits first labels n hlabels
    obtain ⟨h₂, hn₂⟩ := emitStmt_emits second labels (emitStmt first labels n).2
      fun k hk => (hlabels k hk).trans hn₁
    exact ⟨seq_emits h₁ h₂ hn₁ hlabels, hn₁.trans hn₂⟩
  | .compound body, labels, n, hlabels => by
    obtain ⟨h, hn⟩ := emitStmt_emits body labels n hlabels
    exact ⟨block_emits h, hn⟩
  | .ifStmt cond yes no, labels, n, hlabels => by
    obtain ⟨h₁, hn₁⟩ := emitStmt_emits yes labels n hlabels
    obtain ⟨h₂, hn₂⟩ := emitStmt_emits no labels (emitStmt yes labels n).2
      fun k hk => (hlabels k hk).trans hn₁
    refine ⟨⟨fun t e t' => ?_, fun _ hl => absurd hl List.not_mem_nil⟩, hn₁.trans hn₂⟩
    constructor
    · rintro ⟨b, t₁, hcond, hruns⟩
      cases b with
      | true =>
        obtain ⟨f, hf, he⟩ := (h₁.runs ..).mp hruns
        exact ⟨f, ⟨true, t₁, hcond, hf⟩, he⟩
      | false =>
        obtain ⟨f, hf, he⟩ := (h₂.runs ..).mp hruns
        exact ⟨f, ⟨false, t₁, hcond, hf⟩, he⟩
    · rintro ⟨f, ⟨b, t₁, hcond, hf⟩, he⟩
      cases b with
      | true => exact ⟨true, t₁, hcond, (h₁.runs ..).mpr ⟨f, hf, he⟩⟩
      | false => exact ⟨false, t₁, hcond, (h₂.runs ..).mpr ⟨f, hf, he⟩⟩
  | .caseStmt selector arms, labels, n, hlabels => by
    obtain ⟨h, hn⟩ := emitArms_runs arms labels n hlabels
    refine ⟨⟨fun t e t' => ?_, fun _ hl => absurd hl List.not_mem_nil⟩, hn⟩
    constructor
    · rintro ⟨c, t₁, c', hselector, hruns⟩
      obtain ⟨-, f, hf, he⟩ := (h ..).mp hruns
      exact ⟨f, ⟨c, t₁, hselector, hf⟩, he⟩
    · rintro ⟨f, ⟨c, t₁, hselector, hf⟩, he⟩
      exact ⟨c, t₁, c, hselector, (h ..).mpr ⟨rfl, f, hf, he⟩⟩
  | .withStmt receivers body, labels, n, hlabels => by
    obtain ⟨h, hn⟩ := emitStmt_emits body labels n hlabels
    refine ⟨⟨fun t e t' => ?_, fun _ hl => absurd hl List.not_mem_nil⟩, hn⟩
    constructor
    · rintro ⟨us, t₁, us', hreceivers, hruns, _⟩
      obtain ⟨f, hf, he⟩ := (h.runs ..).mp hruns
      exact ⟨f, ⟨us, t₁, hreceivers, hf⟩, he⟩
    · rintro ⟨f, ⟨us, t₁, hreceivers, hf⟩, he⟩
      exact ⟨us, t₁, us, hreceivers, (h.runs ..).mpr ⟨f, hf, he⟩, rfl⟩
  | .whileStmt cond body, labels, n, hlabels => by
    obtain ⟨h, hn⟩ := emitStmt_emits body ((n+1) :: labels) (n+1) (le_succ_of_labels hlabels)
    exact ⟨while_emits h hlabels, (Nat.le_succ n).trans hn⟩
  | .repeatStmt body cond, labels, n, hlabels => by
    obtain ⟨h, hn⟩ := emitStmt_emits body ((n+1) :: labels) (n+1) (le_succ_of_labels hlabels)
    exact ⟨repeat_emits h hlabels, (Nat.le_succ n).trans hn⟩
  | .forIn collection assign body, labels, n, hlabels => by
    obtain ⟨h, hn⟩ := emitStmt_emits body ((n+1) :: labels) (n+1) (le_succ_of_labels hlabels)
    exact ⟨forIn_emits h hlabels, (Nat.le_succ n).trans hn⟩

theorem emitArms_runs : {C : Type} → (arms : Arms target σ C) → (labels : List Nat) → (n : Nat) →
    (∀ k ∈ labels, k ≤ n) →
      (∀ c t e c' t', (emitArms arms labels n).1.Runs none (c,t) e (c',t') ↔
        c' = c ∧ ∃ f, arms.Runs emittedValues c t f t' ∧ e = flowEnding labels f) ∧
      n ≤ (emitArms arms labels n).2
  | _, .otherwise body, labels, n, hlabels => by
    obtain ⟨h, hn⟩ := emitStmt_emits body labels n hlabels
    refine ⟨fun c t e c' t' => ?_, hn⟩
    rw [emitArms, Jumping.outer_runs, h.runs]
    exact and_comm
  | _, .arm holds body rest, labels, n, hlabels => by
    obtain ⟨h₁, hn₁⟩ := emitStmt_emits body labels n hlabels
    obtain ⟨h₂, hn₂⟩ := emitArms_runs rest labels (emitStmt body labels n).2
      fun k hk => (hlabels k hk).trans hn₁
    refine ⟨fun c t e c' t' => ?_, hn₁.trans hn₂⟩
    rw [emitArms, Jumping.branch_runs fun s : _ × Trace σ => holds s.1]
    simp only [Arms.Runs]
    split
    · rw [Jumping.outer_runs, h₁.runs]
      exact and_comm
    · exact h₂ c t e c' t'

end

end
end Tp2cc.ForIn
