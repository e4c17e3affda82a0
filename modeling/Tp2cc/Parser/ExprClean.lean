import Tp2cc.Parser.Spelled
import Tp2cc.Parser.ExprRun
import Tp2cc.Parsing.Extending

set_option autoImplicit false

namespace Tp2cc
open Machine Parsing

/-- The parser has gone on from the first state to the second: it takes no token and no error
back. -/
structure Before (s s' : PState) : Prop where
  toks : s'.toks <:+ s.toks
  eofModes : s'.eofModes = s.eofModes
  errors : s.errors <+: s'.errors

theorem Before.refl (s : PState) : Before s s := ⟨List.suffix_refl _, rfl, List.prefix_refl _⟩

theorem Before.trans {s s₁ s' : PState} (h : Before s s₁) (h' : Before s₁ s') : Before s s' :=
  ⟨h'.toks.trans h.toks, h'.eofModes.trans h.eofModes, h.errors.trans h'.errors⟩

theorem Before.clean {s s₁ s' : PState} (h : Before s s₁) (h' : Before s₁ s')
    (hc : s'.errors = s.errors) : s₁.errors = s.errors ∧ s'.errors = s₁.errors := by
  have hle := h.errors.length_le
  have hle' := h'.errors.length_le
  rw [hc] at hle'
  have := h.errors.eq_of_length (Nat.le_antisymm hle hle')
  exact ⟨this.symm, hc.trans this⟩

/-- Every run goes forward, and one that starts at a kind in `K` and adds no error ends in `Q`. -/
def Proceeds {α : Type} (K : Tok → Prop) (p : P α) (Q : α → Tok → Prop) : Prop :=
  ∀ s a s', p s = some (a, s') → Before s s' ∧
    (K s.cur.kind → s'.errors = s.errors → Q a s'.cur.kind)

abbrev Forward {α : Type} (p : P α) : Prop := Proceeds (fun _ => True) p fun _ _ => True

def RoundEnds {α β : Type} (I : Tok → Prop) (Q : β → Tok → Prop) : LoopStep α β → Tok → Prop
  | .again _, k => I k
  | .done b, k => Q b k

section
variable {α β : Type} {K K' : Tok → Prop} {Q Q' : α → Tok → Prop} {R : β → Tok → Prop} {p : P α}
  {f : α → P β}

theorem Proceeds.mono (h : Proceeds K p Q) (hK : ∀ k, K' k → K k) (hQ : ∀ a k, Q a k → Q' a k) :
    Proceeds K' p Q' := by
  intro s a s' hrun
  obtain ⟨hb, hq⟩ := h s a s' hrun
  exact ⟨hb, fun hk hc => hQ a _ (hq (hK _ hk) hc)⟩

theorem Proceeds.forward (h : Proceeds K p Q) : Proceeds K' p fun _ _ => True :=
  fun s a s' hrun => ⟨(h s a s' hrun).1, fun _ _ => trivial⟩

theorem Proceeds.pure {a : α} (h : ∀ k, K k → Q a k) : Proceeds K (Pure.pure a : P α) Q := by
  intro s b s' hrun
  cases hrun
  exact ⟨Before.refl s, fun hk _ => h _ hk⟩

theorem Proceeds.bind (hp : Proceeds K p Q) (hf : ∀ a, Proceeds (Q a) (f a) R) :
    Proceeds K (p >>= f) R := by
  intro s b s' hrun
  obtain ⟨a, s₁, ha, hb⟩ := bind_eq_some hrun
  obtain ⟨h₁, hq⟩ := hp s a s₁ ha
  obtain ⟨h₂, hr⟩ := hf a s₁ b s' hb
  refine ⟨h₁.trans h₂, fun hk hc => ?_⟩
  obtain ⟨hc₁, hc₂⟩ := h₁.clean h₂ hc
  exact hr (hq hk hc₁) hc₂

/-- Behind an error every run goes on, and none of them is clean. -/
theorem Proceeds.never (h : Forward p) : Proceeds (fun _ => False) p Q :=
  fun s a s' hrun => ⟨(h s a s' hrun).1, fun hk => hk.elim⟩

theorem Proceeds.then (hp : Forward p) (hf : ∀ a, Proceeds (fun _ => True) (f a) R) :
    Proceeds K (p >>= f) R :=
  Proceeds.bind hp.forward hf

theorem Proceeds.ite {c : Prop} [Decidable c] {q : P α} (h : Proceeds K p Q)
    (h' : Proceeds K q Q) : Proceeds K (if c then p else q) Q := by
  split
  · exact h
  · exact h'

theorem Proceeds.loop {body : α → P (LoopStep α β)} {n : Nat}
    (hbody : ∀ a, Proceeds K (body a) (RoundEnds K R)) (a : α) : Proceeds K (Parsing.loop body n a) R := by
  induction n generalizing a with
  | zero => exact fun s x s' h => nomatch h
  | succ n ih =>
    refine Proceeds.bind (hbody a) fun step => ?_
    cases step with
    | again a' => exact ih a'
    | done b => exact Proceeds.pure fun _ => id

theorem Forward.loop {body : α → P (LoopStep α β)} {n : Nat} (hbody : ∀ a, Forward (body a))
    (a : α) : Forward (Parsing.loop body n a) := by
  refine Proceeds.loop (fun a => (hbody a).mono (fun _ => id) fun step k _ => ?_) a
  cases step <;> trivial

theorem Proceeds.kinds {f : Tok → P β} (hf : ∀ k, Proceeds (fun k' => K k' ∧ k' = k) (f k) R) :
    Proceeds K (curKind >>= f) R := by
  intro s b s' hrun
  obtain ⟨hb, hr⟩ := hf s.cur.kind s b s' hrun
  exact ⟨hb, fun hk => hr ⟨hk, rfl⟩⟩

theorem Proceeds.tokens {f : Token → P β}
    (hf : ∀ t : Token, Proceeds (fun k' => K k' ∧ k' = t.kind) (f t) R) :
    Proceeds K (cur >>= f) R := by
  intro s b s' hrun
  obtain ⟨hb, hr⟩ := hf s.cur s b s' hrun
  exact ⟨hb, fun hk => hr ⟨hk, rfl⟩⟩

theorem advance_forward : Forward advance := by
  intro s a s' hrun
  cases hrun
  exact ⟨⟨List.tail_suffix _, rfl, List.prefix_refl _⟩, fun _ _ => trivial⟩

theorem overflowCheckActive_proceeds : Proceeds K overflowCheckActive fun _ => K := by
  intro s a s' hrun
  cases hrun
  exact ⟨Before.refl s, fun hk _ => hk⟩

theorem rangeCheckActive_forward : Forward rangeCheckActive := by
  intro s a s' hrun
  cases hrun
  exact ⟨Before.refl s, fun _ _ => trivial⟩

theorem longStringsActive_forward : Forward longStringsActive := by
  intro s a s' hrun
  cases hrun
  exact ⟨Before.refl s, fun _ _ => trivial⟩

theorem atEndOr_forward (ts : List Tok) : Forward (atEndOr ts) := by
  intro s a s' hrun
  cases hrun
  exact ⟨Before.refl s, fun _ _ => trivial⟩

theorem check_proceeds (t : Tok) :
    Proceeds K (check t) fun b k => K k ∧ (b = true ↔ k = t) := by
  intro s a s' hrun
  cases hrun
  exact ⟨Before.refl s, fun hk _ => ⟨hk, decide_eq_true_iff⟩⟩

theorem accept_proceeds (t : Tok) :
    Proceeds K (accept t) fun b k => b = false → K k ∧ k ≠ t := by
  refine Proceeds.bind (check_proceeds t) fun b => ?_
  cases b with
  | true => exact Proceeds.then advance_forward fun _ => Proceeds.pure fun _ _ h => nomatch h
  | false => exact Proceeds.pure fun k h _ => ⟨h.1, fun hk => Bool.false_ne_true (h.2.mpr hk)⟩

theorem Proceeds.accept {t : Tok} {q q' : P β} (hq : Proceeds (fun _ => True) q R)
    (hq' : Proceeds (fun k => K k ∧ k ≠ t) q' R) :
    Proceeds K (accept t >>= fun b => if b = true then q else q') R := by
  refine Proceeds.bind (accept_proceeds t) fun b => ?_
  cases b with
  | true => exact hq.mono (fun _ _ => trivial) fun _ _ => id
  | false => exact hq'.mono (fun _ h => h rfl) fun _ _ => id

theorem reportError_proceeds (msg : String) : Proceeds K (reportError msg) fun _ _ => False := by
  intro s a s' hrun
  cases hrun
  refine ⟨⟨List.suffix_refl _, rfl, List.prefix_append _ _⟩, fun _ hc => ?_⟩
  simp at hc

theorem afterError_proceeds (msg : String) (a : α) :
    Proceeds K (reportError msg >>= fun _ => advance >>= fun _ => (pure a : P α)) Q := by
  refine Proceeds.bind (reportError_proceeds msg) fun _ => Proceeds.never ?_
  exact Proceeds.then advance_forward fun _ => Proceeds.pure fun _ _ => trivial

theorem expect_forward (t : Tok) (ctx : String) : Forward (expect t ctx) := by
  refine Proceeds.bind (check_proceeds t) fun b => Proceeds.ite advance_forward.forward ?_
  exact Proceeds.tokens fun c => (reportError_proceeds (K := fun _ => True) _).forward

theorem consumeIdent_forward (ctx : String) : Forward (consumeIdent ctx) := by
  refine Proceeds.tokens fun t => Proceeds.ite ?_ ?_
  · exact Proceeds.then advance_forward fun _ => Proceeds.pure fun _ _ => trivial
  · exact Proceeds.then (expect_forward _ _) fun _ => Proceeds.pure fun _ _ => trivial

end

structure Routines.Clean (r : Routines) : Prop where
  parseExpr : Forward r.parseExpr
  parseFactor : Proceeds (fun _ => True) r.parseFactor fun _ => EndsPostfix

section
variable {r : Routines} {n : Nat} {K : Tok → Prop}

theorem moreAfterCommas_forward {α : Type} {p : P α} (hp : Forward p) (xs : List α) :
    Forward (moreAfterCommas r p xs) := by
  refine Forward.loop (fun xs => Proceeds.accept ?_ (Proceeds.pure fun _ _ => trivial)) xs
  exact Proceeds.then hp fun _ => Proceeds.pure fun _ _ => trivial

theorem parseCallArg_forward (h : r.Clean) : Forward (parseCallArg r) := by
  have done (a : CallArg) {K : Tok → Prop} : Proceeds K (pure a : P CallArg) fun _ _ => True :=
    Proceeds.pure fun _ _ => trivial
  refine Proceeds.then h.parseExpr fun arg => Proceeds.accept ?_ (done _)
  refine Proceeds.then h.parseExpr fun w => Proceeds.accept ?_ (done _)
  exact Proceeds.then h.parseExpr fun p => done _

theorem parseCallArgs_forward (h : r.Clean) : Forward (parseCallArgs r) := by
  refine Forward.loop (fun args => Proceeds.then (atEndOr_forward _) fun b => ?_) []
  refine Proceeds.ite (Proceeds.pure fun _ _ => trivial) (Proceeds.then (parseCallArg_forward h) ?_)
  exact fun _ => Proceeds.accept (Proceeds.pure fun _ _ => trivial) (Proceeds.pure fun _ _ => trivial)

theorem parsePostfix_proceeds (h : r.Clean) (lhs : Expr) :
    Proceeds (fun _ => True) (parsePostfix r lhs) fun _ => EndsPostfix := by
  refine Proceeds.loop (fun lhs => ?_) lhs
  have again {e : Expr} {K : Tok → Prop} : Proceeds K (pure (.again e) : P (LoopStep Expr Expr))
      (RoundEnds (fun _ => True) fun _ => EndsPostfix) := Proceeds.pure fun _ _ => trivial
  refine Proceeds.accept (Proceeds.then (consumeIdent_forward _) fun _ => again) ?_
  refine Proceeds.accept again (Proceeds.accept ?_ (Proceeds.accept ?_ ?_))
  · refine Proceeds.then h.parseExpr fun first => ?_
    refine Proceeds.then (moreAfterCommas_forward h.parseExpr _) fun indices => ?_
    exact Proceeds.then (expect_forward _ _) fun _ => again
  · refine Proceeds.then (parseCallArgs_forward h) fun args => ?_
    refine Proceeds.then (expect_forward _ _) fun _ => ?_
    refine Proceeds.bind overflowCheckActive_proceeds fun _ => ?_
    exact Proceeds.then rangeCheckActive_forward fun _ => again
  · refine Proceeds.pure fun k hk => ?_
    simp only [RoundEnds, EndsPostfix, List.mem_cons, List.not_mem_nil, or_false, not_or]
    exact ⟨hk.1.1.1.2, hk.1.1.2, hk.1.2, hk.2⟩

theorem parseSetLiteral_forward (h : r.Clean) : Forward (parseSetLiteral r) := by
  have more {xs : List Expr} {K : Tok → Prop} :
      Proceeds K (accept .comma >>= fun b => if b = true then pure (LoopStep.again xs)
        else pure (LoopStep.done xs : LoopStep (List Expr) (List Expr)) : P _) fun _ _ => True :=
    Proceeds.accept (Proceeds.pure fun _ _ => trivial) (Proceeds.pure fun _ _ => trivial)
  refine Proceeds.then (expect_forward _ _) fun _ => Proceeds.then (Forward.loop (fun es => ?_) []) ?_
  · refine Proceeds.then (atEndOr_forward _) fun b => Proceeds.ite (Proceeds.pure fun _ _ => trivial) ?_
    refine Proceeds.then h.parseExpr fun lo => Proceeds.then (Proceeds.accept ?_ ?_) fun _ => more
    · exact Proceeds.then h.parseExpr fun hi => Proceeds.pure fun _ _ => trivial
    · exact Proceeds.pure fun _ _ => trivial
  · exact fun _ => Proceeds.then (expect_forward _ _) fun _ => Proceeds.pure fun _ _ => trivial

/-- Without an error a primary was read, and the loop over its postfixes has ended. -/
theorem parsePrimary_proceeds (h : r.Clean) :
    Proceeds (fun _ => True) (parsePrimary r) fun _ => EndsPostfix := by
  have leaf {K : Tok → Prop} (e : Expr) :
      Proceeds K (advance >>= fun _ => parsePostfix r e) fun _ => EndsPostfix :=
    Proceeds.then advance_forward fun _ => parsePostfix_proceeds h e
  refine Proceeds.tokens fun t => ?_
  generalize t.kind = k
  split
  case h_7 =>
    refine Proceeds.then advance_forward fun _ => Proceeds.then h.parseExpr fun e => ?_
    exact Proceeds.then (expect_forward _ _) fun _ => parsePostfix_proceeds h e
  case h_8 => exact Proceeds.then (parseSetLiteral_forward h) fun e => parsePostfix_proceeds h e
  case h_9 =>
    refine Proceeds.then advance_forward fun _ => Proceeds.tokens fun m => Proceeds.ite (leaf _) ?_
    exact (parsePostfix_proceeds h _).mono (fun _ _ => trivial) fun _ _ => id
  case h_10 => exact Proceeds.then longStringsActive_forward fun _ => leaf _
  case h_14 => exact afterError_proceeds _ _
  all_goals exact leaf _

theorem parseFactor_proceeds (h : r.Clean) :
    Proceeds (fun _ => True) (parseFactor r) fun _ => EndsPostfix := by
  have signed (f : Expr → Bool → Expr) {K : Tok → Prop} : Proceeds K
      (advance >>= fun _ => r.parseFactor >>= fun x => overflowCheckActive >>= fun q =>
        pure (f x q)) fun _ => EndsPostfix := by
    refine Proceeds.then advance_forward fun _ => Proceeds.bind h.parseFactor fun x => ?_
    exact Proceeds.bind overflowCheckActive_proceeds fun q => Proceeds.pure fun _ => id
  have unsigned (f : Expr → Expr) {K : Tok → Prop} : Proceeds K
      (advance >>= fun _ => r.parseFactor >>= fun x => pure (f x)) fun _ => EndsPostfix := by
    refine Proceeds.then advance_forward fun _ => Proceeds.bind h.parseFactor fun x => ?_
    exact Proceeds.pure fun _ => id
  refine Proceeds.kinds fun k => ?_
  split
  · exact signed _
  · exact signed _
  · exact unsigned _
  · exact unsigned _
  · exact unsigned _
  · exact (parsePrimary_proceeds h).mono (fun _ _ => trivial) fun _ _ => id

theorem parseBinaryLevel_proceeds (operator : Tok → Option BinOp) {operand : P Expr}
    {ends : Tok → Prop} (h : Proceeds K operand fun _ => ends)
    (h' : Proceeds (fun _ => True) operand fun _ => ends) :
    Proceeds K (parseBinaryLevel r operator operand) fun _ k => ends k ∧ operator k = none := by
  refine Proceeds.bind h fun lhs => Proceeds.loop (fun lhs => Proceeds.kinds fun k => ?_) lhs
  split
  · rename_i hk
    exact Proceeds.pure fun k' hk' => ⟨hk'.1, hk'.2 ▸ hk⟩
  · refine Proceeds.then advance_forward fun _ => Proceeds.bind h' fun rhs => ?_
    exact Proceeds.bind overflowCheckActive_proceeds fun _ => Proceeds.pure fun _ => id

theorem parseExpr_proceeds (h : r.Clean) :
    Proceeds (fun _ => True) (parseExpr r) fun _ => EndsExpr := by
  have term := parseBinaryLevel_proceeds (r := r) multiplicativeOperator
    (parseFactor_proceeds h) (parseFactor_proceeds h)
  have simple := parseBinaryLevel_proceeds (r := r) additiveOperator term term
  exact parseBinaryLevel_proceeds _ simple simple

theorem routines_clean (n : Nat) : (routines n).Clean := by
  induction n with
  | zero => exact ⟨fun _ _ _ h => (nomatch h), fun _ _ _ h => (nomatch h)⟩
  | succ n ih => exact ⟨(parseExpr_proceeds ih).forward, parseFactor_proceeds ih⟩

theorem parseBinaryLevel_rejects (operator : Tok → Option BinOp) {operand : P Expr}
    (h : Proceeds K operand fun _ _ => False) (h' : Forward operand) :
    Proceeds K (parseBinaryLevel r operator operand) fun _ _ => False := by
  refine Proceeds.bind h fun lhs => Proceeds.never (Forward.loop (fun lhs => ?_) lhs)
  refine Proceeds.kinds fun k => ?_
  split
  · exact Proceeds.pure fun _ _ => trivial
  · refine Proceeds.then advance_forward fun _ => Proceeds.then h' fun rhs => ?_
    exact Proceeds.bind overflowCheckActive_proceeds fun _ => Proceeds.pure fun _ _ => trivial

/-- No expression starts with a closing parenthesis. -/
theorem parseExpr_rejects (h : r.Clean) :
    Proceeds (fun k => k = .rParen) (parseExpr r) fun _ _ => False := by
  have primary : Proceeds (fun k => k = .rParen) (parsePrimary r) fun _ _ => False := by
    intro s a s' hrun
    refine ⟨(parsePrimary_proceeds h s a s' hrun).1, fun hk hc => ?_⟩
    rw [parsePrimary, bind_of cur_gives] at hrun
    simp only [hk] at hrun
    exact (afterError_proceeds (K := fun _ => True) (Q := fun _ _ => False) _ _ s a s' hrun).2 trivial hc
  have factor : Proceeds (fun k => k = .rParen) (parseFactor r) fun _ _ => False := by
    intro s a s' hrun
    refine ⟨(parseFactor_proceeds h s a s' hrun).1, fun hk hc => ?_⟩
    rw [parseFactor, bind_of curKind_gives, hk] at hrun
    exact (primary s a s' hrun).2 hk hc
  have term := parseBinaryLevel_rejects (r := r) multiplicativeOperator factor
    (parseFactor_proceeds h).forward
  have forward := parseBinaryLevel_proceeds (r := r) multiplicativeOperator
    (parseFactor_proceeds h) (parseFactor_proceeds h)
  have simple := parseBinaryLevel_rejects (r := r) additiveOperator term
    forward.forward
  have forward' := parseBinaryLevel_proceeds (r := r) additiveOperator forward forward
  exact parseBinaryLevel_rejects _ simple forward'.forward

end
end Tp2cc
