import Tp2cc.Parser.Unit
import Tp2cc.Parsing.Extending

set_option autoImplicit false

namespace Tp2cc
open Machine Parsing

structure Routines.ReadAlso (r r' : Routines) : Prop where
  fuel : r.fuel ≤ r'.fuel
  parseExpr : Extends r.parseExpr r'.parseExpr
  parseFactor : Extends r.parseFactor r'.parseFactor

section
variable {r r' : Routines} {n m : Nat}

theorem moreAfterCommas_extends {α : Type} {p p' : P α} (h : r.ReadAlso r') (hp : Extends p p')
    (xs : List α) : Extends (moreAfterCommas r p xs) (moreAfterCommas r' p' xs) := by
  refine Extends.loop (fun xs => Extends.after fun b => Extends.ite ?_ (Extends.refl _)) h.fuel xs
  exact Extends.bind hp fun _ => Extends.refl _

theorem parseCallArg_extends (h : r.ReadAlso r') : Extends (parseCallArg r) (parseCallArg r') := by
  refine Extends.bind h.parseExpr fun arg => Extends.after fun b => ?_
  refine Extends.ite (Extends.bind h.parseExpr fun w => Extends.after fun b => ?_) (Extends.refl _)
  exact Extends.ite (Extends.bind h.parseExpr fun p => Extends.refl _) (Extends.refl _)

theorem parseCallArgs_extends (h : r.ReadAlso r') :
    Extends (parseCallArgs r) (parseCallArgs r') := by
  refine Extends.loop (fun args => Extends.after fun b => ?_) h.fuel []
  exact Extends.ite (Extends.refl _) (Extends.bind (parseCallArg_extends h) fun _ => Extends.refl _)

theorem parsePostfix_extends (h : r.ReadAlso r') (lhs : Expr) :
    Extends (parsePostfix r lhs) (parsePostfix r' lhs) := by
  refine Extends.loop (fun lhs => ?_) h.fuel lhs
  refine Extends.after fun b => Extends.ite (Extends.refl _) (Extends.after fun b => ?_)
  refine Extends.ite (Extends.refl _) (Extends.after fun b => Extends.ite ?_ ?_)
  · refine Extends.bind h.parseExpr fun first => ?_
    exact Extends.bind (moreAfterCommas_extends h h.parseExpr _) fun _ => Extends.refl _
  · refine Extends.after fun b => Extends.ite ?_ (Extends.refl _)
    exact Extends.bind (parseCallArgs_extends h) fun _ => Extends.refl _

theorem parseSetLiteral_extends (h : r.ReadAlso r') :
    Extends (parseSetLiteral r) (parseSetLiteral r') := by
  refine Extends.after fun _ => Extends.bind (Extends.loop (fun elements => ?_) h.fuel []) fun _ =>
    Extends.refl _
  refine Extends.after fun b => Extends.ite (Extends.refl _) (Extends.bind h.parseExpr fun lo => ?_)
  refine Extends.bind (Extends.after fun b => ?_) fun _ => Extends.refl _
  exact Extends.ite (Extends.bind h.parseExpr fun _ => Extends.refl _) (Extends.refl _)

theorem parsePrimary_extends (h : r.ReadAlso r') : Extends (parsePrimary r) (parsePrimary r') := by
  have leaf (e : Expr) : Extends (advance >>= fun _ => parsePostfix r e)
      (advance >>= fun _ => parsePostfix r' e) :=
    Extends.after fun _ => parsePostfix_extends h e
  refine Extends.after fun t => ?_
  generalize t.kind = k
  split
  case h_7 =>
    refine Extends.after fun _ => Extends.bind h.parseExpr fun e => Extends.after fun _ => ?_
    exact parsePostfix_extends h e
  case h_8 => exact Extends.bind (parseSetLiteral_extends h) fun e => parsePostfix_extends h e
  case h_9 =>
    refine Extends.after fun _ => Extends.after fun m => Extends.ite ?_ (parsePostfix_extends h _)
    exact leaf _
  case h_10 => exact Extends.after fun _ => leaf _
  case h_14 => exact Extends.refl _
  all_goals exact leaf _

theorem parseFactor_extends (h : r.ReadAlso r') : Extends (parseFactor r) (parseFactor r') := by
  refine Extends.after fun k => ?_
  split
  case h_6 => exact parsePrimary_extends h
  all_goals exact Extends.after fun _ => Extends.bind h.parseFactor fun _ => Extends.refl _

theorem parseBinaryLevel_extends (h : r.ReadAlso r') (operator : Tok → Option BinOp)
    {operand operand' : P Expr} (hop : Extends operand operand') :
    Extends (parseBinaryLevel r operator operand) (parseBinaryLevel r' operator operand') := by
  refine Extends.bind hop fun lhs => Extends.loop (fun lhs => Extends.after fun k => ?_) h.fuel lhs
  split
  · exact Extends.refl _
  · exact Extends.after fun _ => Extends.bind hop fun _ => Extends.refl _

theorem parseExpr_extends (h : r.ReadAlso r') : Extends (parseExpr r) (parseExpr r') := by
  refine parseBinaryLevel_extends h _ (parseBinaryLevel_extends h _ ?_)
  exact parseBinaryLevel_extends h _ (parseFactor_extends h)

theorem routines_readAlso (hle : n ≤ m) : (routines n).ReadAlso (routines m) := by
  induction n generalizing m with
  | zero =>
    refine ⟨?_, fun _ _ h => (nomatch h), fun _ _ h => (nomatch h)⟩
    cases m with
    | zero => exact Nat.le_refl _
    | succ m => exact Nat.succ_le_succ (Nat.zero_le _)
  | succ n ih =>
    obtain ⟨m, rfl⟩ : ∃ m', m = m'+1 := ⟨m-1, by omega⟩
    have h := ih (Nat.le_of_succ_le_succ hle)
    exact ⟨Nat.succ_le_succ hle, parseExpr_extends h, parseFactor_extends h⟩

/-- The fuel decides whether an expression is read, never what it is read as. -/
theorem parseExpr_agree {s : PState} {x y : Expr × PState}
    (hx : (routines n).parseExpr s = some x) (hy : (routines m).parseExpr s = some y) : x = y := by
  obtain hle | hle := Nat.le_total n m
  · exact Extends.agree (routines_readAlso hle).parseExpr hx hy
  · exact (Extends.agree (routines_readAlso hle).parseExpr hy hx).symm

end
end Tp2cc
