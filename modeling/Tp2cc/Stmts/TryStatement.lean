import Tp2cc.Machine.Unwind

/-! Statements that transfer control, among them `try`, and the C++ that they become. -/
set_option autoImplicit false

namespace Tp2cc.Control
open Machine

/-- The pointers that are thrown, each with its static type and its object. -/
structure ExceptionClasses (ξ κ : Type) where
  /-- The static type converts to `t_exception*`, so `catch (::rt::t_exception*)` takes the pointer.
  The checks of the runtime throw their errors as `t_tobject*`, which does not. -/
  isException : ξ → Bool
  /-- The object is of the class of a handler; `dynamic_cast` finds that out. -/
  instanceOf : κ → ξ → Bool

inductive Outcome (ξ : Type) where
  | normal
  | broke
  | continued
  | exited
  | raised (x : ξ)

namespace Outcome
variable {ξ : Type}

def loopEnds : LoopEnds (Outcome ξ) ξ where
  ends
    | normal => none
    | continued => none
    | broke => some normal
    | o => some o
  normal := normal
  thrown := raised

def ofRaised : Option ξ → Outcome ξ
  | none => normal
  | some x => raised x

end Outcome

mutual

/-- Evaluations see the exceptions of the handlers around them, the innermost first, and may raise.
`exitValue` is `exit` with a value, given as the assignment to the result. -/
inductive Stmt (σ ξ κ : Type) where
  | empty
  | action (run : List ξ → σ → Option ξ × σ)
  | breakStmt
  | continueStmt
  | exit
  | exitValue (store : List ξ → σ → Option ξ × σ)
  | raise (value : List ξ → σ → ξ × σ)
  | reraise
  | sequence (first second : Stmt σ ξ κ)
  | compound (body : Stmt σ ξ κ)
  | ifStmt (cond : List ξ → σ → Except ξ Bool × σ) (yes no : Stmt σ ξ κ)
  | whileStmt (cond : List ξ → σ → Except ξ Bool × σ) (body : Stmt σ ξ κ)
  | repeatStmt (body : Stmt σ ξ κ) (cond : List ξ → σ → Except ξ Bool × σ)
  | tryFinally (body cleanup : Stmt σ ξ κ)
  | tryExcept (body otherwise : Stmt σ ξ κ)
  | tryOn (body : Stmt σ ξ κ) (handlers : Handlers σ ξ κ)
  | tryOnElse (body : Stmt σ ξ κ) (handlers : Handlers σ ξ κ) (otherwise : Stmt σ ξ κ)

inductive Handlers (σ ξ κ : Type) where
  | last (class_name : κ) (body : Stmt σ ξ κ)
  | more (class_name : κ) (body : Stmt σ ξ κ) (rest : Handlers σ ξ κ)

end

def negated {ξ S : Type} (cond : List ξ → S → Except ξ Bool × S) (env : List ξ) (s : S) :
    Except ξ Bool × S :=
  ((cond env s).1.map (!·), (cond env s).2)

section
variable {σ ξ κ ρ : Type} (classes : ExceptionClasses ξ κ)

def Handlers.accepts (x : ξ) : Handlers σ ξ κ → Bool
  | .last c _ => classes.instanceOf c x
  | .more c _ rest => classes.instanceOf c x || rest.accepts x

mutual

/-- What Pascal asks for. -/
def Stmt.Runs : Stmt σ ξ κ → List ξ → σ → Outcome ξ → σ → Prop
  | .empty, _, s, o, s' => o = .normal ∧ s' = s
  | .action run, env, s, o, s' => o = .ofRaised (run env s).1 ∧ s' = (run env s).2
  | .breakStmt, _, s, o, s' => o = .broke ∧ s' = s
  | .continueStmt, _, s, o, s' => o = .continued ∧ s' = s
  | .exit, _, s, o, s' => o = .exited ∧ s' = s
  | .exitValue store, env, s, o, s' =>
    (match (store env s).1 with
      | none => o = .exited
      | some x => o = .raised x) ∧ s' = (store env s).2
  | .raise value, env, s, o, s' => o = .raised (value env s).1 ∧ s' = (value env s).2
  | .reraise, env, s, o, s' => (∃ x ∈ env.head?, o = .raised x) ∧ s' = s
  | .sequence first second, env, s, o, s' =>
    (∃ s₁, first.Runs env s .normal s₁ ∧ second.Runs env s₁ o s') ∨
      o ≠ .normal ∧ first.Runs env s o s'
  | .compound body, env, s, o, s' => body.Runs env s o s'
  | .ifStmt cond yes no, env, s, o, s' =>
    match cond env s with
    | (.ok true, s₁) => yes.Runs env s₁ o s'
    | (.ok false, s₁) => no.Runs env s₁ o s'
    | (.error x, s₁) => o = .raised x ∧ s' = s₁
  | .whileStmt cond body, env, s, o, s' =>
    Laps Outcome.loopEnds (cond env) (body.Runs env) s o s'
  | .repeatStmt body cond, env, s, o, s' =>
    LapsOnce Outcome.loopEnds (negated cond env) (body.Runs env) s o s'
  -- the cleanup runs on every way out, and a way out of its own takes the place of the other
  | .tryFinally body cleanup, env, s, o, s' =>
    ∃ o₁ s₁ o₂, body.Runs env s o₁ s₁ ∧ cleanup.Runs env s₁ o₂ s' ∧
      match o₂ with
      | .normal => o = o₁
      | o₂ => o = o₂
  | .tryExcept body otherwise, env, s, o, s' =>
    ∃ o₁ s₁, body.Runs env s o₁ s₁ ∧
      match o₁ with
      | .raised x => otherwise.Runs (x :: env) s₁ o s'
      | o₁ => o = o₁ ∧ s' = s₁
  | .tryOn body handlers, env, s, o, s' =>
    ∃ o₁ s₁, body.Runs env s o₁ s₁ ∧
      match o₁ with
      | .raised x =>
        if handlers.accepts classes x then handlers.Runs x env s₁ o s' else o = .raised x ∧ s' = s₁
      | o₁ => o = o₁ ∧ s' = s₁
  | .tryOnElse body handlers otherwise, env, s, o, s' =>
    ∃ o₁ s₁, body.Runs env s o₁ s₁ ∧
      match o₁ with
      | .raised x =>
        if handlers.accepts classes x then handlers.Runs x env s₁ o s'
        else otherwise.Runs (x :: env) s₁ o s'
      | o₁ => o = o₁ ∧ s' = s₁

def Handlers.Runs : Handlers σ ξ κ → ξ → List ξ → σ → Outcome ξ → σ → Prop
  | .last _ body, x, env, s, o, s' => body.Runs (x :: env) s o s'
  | .more c body rest, x, env, s, o, s' =>
    if classes.instanceOf c x then body.Runs (x :: env) s o s' else rest.Runs x env s o s'

end

/-! The C++ of a statement. -/

/-- `tp2cc_loop_break_N` and `tp2cc_loop_continue_N` -/
inductive LoopLabel where
  | brk (n : Nat)
  | cont (n : Nat)
  deriving DecidableEq

def LoopLabel.number : LoopLabel → Nat
  | .brk n => n
  | .cont n => n

/-- The variables of the routine, and each `tp2cc_handled_N`. -/
structure Frame (σ : Type) where
  vars : σ
  handled : Nat → Bool

abbrev Code (σ ξ ρ : Type) := Unwinding LoopLabel ρ ξ (Frame σ)

/-- `try_stmt_counter_` and `loop_label_counter_` -/
structure Counters where
  tryStmt : Nat
  loopLabel : Nat

def evaluate {α : Type} (run : List ξ → σ → α × σ) (env : List ξ) (t : Frame σ) : α × Frame σ :=
  ((run env t.vars).1, { t with vars := (run env t.vars).2 })

def setHandled (n : Nat) (value : Bool) : Code σ ξ ρ :=
  .perform fun _ t => (none, { t with handled := Function.update t.handled n value })

/-- `dynamic_cast` of the exception that was caught last. -/
def caughtTest (test : ξ → Bool) (env : List ξ) (t : Frame σ) : Except ξ Bool × Frame σ :=
  (.ok (env.head?.any test), t)

def emitHandler (n : Nat) (c : κ) (body rest : Code σ ξ ρ) : Code σ ξ ρ :=
  .branch (caughtTest (classes.instanceOf c)) (.seq (setHandled n true) body) rest

/-- The block of `catch (::rt::t_exception* tp2cc_exc_N)` around the chain of handlers. -/
def emitHandled (n : Nat) (chain : Code σ ξ ρ) : Code σ ξ ρ :=
  .block (.seq (setHandled n false) (.seq chain
    (.branch (fun _ t => (.ok (!t.handled n), t)) .rethrow .skip)))

variable (result : σ → ρ)

mutual

/-- `emit_stmt`, with the number of the loop around the statement. -/
def emitStmt : Stmt σ ξ κ → Option Nat → Counters → Code σ ξ ρ × Counters
  | .empty, _, c => (.skip, c)
  | .action run, _, c => (.perform (evaluate run), c)
  | .breakStmt, loop, c =>
    (match loop with
      | some n => .goto (.brk n)
      | none => .leave, c)
  | .continueStmt, loop, c =>
    (match loop with
      | some n => .goto (.cont n)
      | none => .next, c)
  | .exit, _, c => (.ret fun t => result t.vars, c)
  | .exitValue store, _, c => (.seq (.perform (evaluate store)) (.ret fun t => result t.vars), c)
  | .raise value, _, c =>
    (.perform fun env t => ((some (value env t.vars).1), { t with vars := (value env t.vars).2 }), c)
  | .reraise, _, c => (.rethrow, c)
  | .sequence first second, loop, c =>
    let (first, c) := emitStmt first loop c
    let (second, c) := emitStmt second loop c
    (.seq first second, c)
  | .compound body, loop, c =>
    let (body, c) := emitStmt body loop c
    (.block body, c)
  | .ifStmt cond yes no, loop, c =>
    let (yes, c) := emitStmt yes loop c
    let (no, c) := emitStmt no loop c
    (.branch (evaluate cond) (.block yes) (.block no), c)
  | .whileStmt cond body, _, c =>
    let n := c.loopLabel+1
    let (body, c) := emitStmt body (some n) { c with loopLabel := n }
    (.seq (.whileDo (evaluate cond) (.seq body (.label (.cont n)))) (.label (.brk n)), c)
  | .repeatStmt body cond, _, c =>
    let n := c.loopLabel+1
    let (body, c) := emitStmt body (some n) { c with loopLabel := n }
    (.seq (.doWhile (.seq body (.label (.cont n))) (negated (evaluate cond))) (.label (.brk n)), c)
  | .tryFinally body cleanup, loop, c =>
    let c := { c with tryStmt := c.tryStmt+1 }
    let (cleanup, c) := emitStmt cleanup loop c
    let (body, c) := emitStmt body loop c
    (.block (.guarded cleanup body), c)
  | .tryExcept body otherwise, loop, c =>
    let c := { c with tryStmt := c.tryStmt+1 }
    let (body, c) := emitStmt body loop c
    let (otherwise, c) := emitStmt otherwise loop c
    (.attempt (.block body) (fun _ => true) (.block otherwise), c)
  | .tryOn body handlers, loop, c =>
    let n := c.tryStmt+1
    let (body, c) := emitStmt body loop { c with tryStmt := n }
    let (chain, c) := emitHandlers n handlers loop c
    (.attempt (.block body) classes.isException (emitHandled n (chain .skip)), c)
  -- the part behind `else` stands at the end of the chain, and once more behind `catch (...)`
  | .tryOnElse body handlers otherwise, loop, c =>
    let n := c.tryStmt+1
    let (body, c) := emitStmt body loop { c with tryStmt := n }
    let (chain, c) := emitHandlers n handlers loop c
    let (unmatched, c) := emitStmt otherwise loop c
    let (foreign, c) := emitStmt otherwise loop c
    (.attempt (.block body) (fun _ => true)
      (.branch (caughtTest classes.isException)
        (emitHandled n (chain (.seq (setHandled n true) unmatched))) (.block foreign)), c)

def emitHandlers (n : Nat) : Handlers σ ξ κ → Option Nat → Counters →
    (Code σ ξ ρ → Code σ ξ ρ) × Counters
  | .last cls body, loop, c =>
    let (body, c) := emitStmt body loop c
    (emitHandler classes n cls body, c)
  | .more cls body rest, loop, c =>
    let (body, c) := emitStmt body loop c
    let (rest, c) := emitHandlers n rest loop c
    (fun final => emitHandler classes n cls body (rest final), c)

end

def emitRoutine (body : Stmt σ ξ κ) (c : Counters) : Code σ ξ ρ :=
  .seq (emitStmt classes result body none c).1 (.ret fun t => result t.vars)

/-! Calls of a routine: it returns a value, or raises an exception. -/

def Stmt.Calls (body : Stmt σ ξ κ) (s : σ) : ρ ⊕ ξ → σ → Prop
  | .inl v, s' => (body.Runs classes [] s .normal s' ∨ body.Runs classes [] s .exited s') ∧
      v = result s'
  | .inr x, s' => body.Runs classes [] s (.raised x) s'

def Code.Calls (code : Code σ ξ ρ) (t : Frame σ) : ρ ⊕ ξ → Frame σ → Prop
  | .inl v, t' => code.Runs [] none t (.returned v) t'
  | .inr x, t' => code.Runs [] none t (.thrown x) t'

end
end Tp2cc.Control
