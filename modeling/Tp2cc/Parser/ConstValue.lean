import Tp2cc.Parser.ExprClean
import Tp2cc.Parser.ExprFuel
import Tp2cc.Parser.ExprRoundTrip

set_option autoImplicit false

namespace Tp2cc
open Machine Parsing

section
variable {r : Routines} {n m : Nat} {s s' : PState} {t : SourceToken} {tail rest : List SourceToken}
  {e : Expr} {operator : Tok → Option BinOp} {operand : P Expr}

theorem parseBinaryLevel_first (h : Forward operand)
    (hrun : parseBinaryLevel r operator operand s = some (e, s')) :
    ∃ lhs s₁, operand s = some (lhs, s₁) ∧ Before s₁ s' := by
  obtain ⟨lhs, s₁, hlhs, hloop⟩ := bind_eq_some hrun
  refine ⟨lhs, s₁, hlhs, ?_⟩
  refine (Forward.loop (fun lhs => Proceeds.kinds fun k => ?_) lhs s₁ e s' hloop).1
  split
  · exact Proceeds.pure fun _ _ => trivial
  · refine Proceeds.then advance_forward fun _ => Proceeds.then h fun rhs => ?_
    exact Proceeds.bind overflowCheckActive_proceeds fun _ => Proceeds.pure fun _ _ => trivial

theorem parseBinaryLevel_stops (h : operand s = some (e, s')) (hk : operator s'.cur.kind = none) :
    parseBinaryLevel (routines n) operator operand s = some (e, s') := by
  rw [parseBinaryLevel, bind_of h, routines_fuel]
  refine loop_last ?_
  rw [bind_of curKind_gives, hk]
  rfl

theorem parseBinaryLevel_congr {s₁ : PState} (h : operand s = operand s₁) :
    parseBinaryLevel r operator operand s = parseBinaryLevel r operator operand s₁ := by
  simp only [parseBinaryLevel, Bind.bind, StateT.bind, h]

theorem parseExpr_stops (hfactor : parseFactor (routines n) s = some (e, s'))
    (hk : EndsExpr s'.cur.kind) : parseExpr (routines n) s = some (e, s') := by
  refine parseBinaryLevel_stops (parseBinaryLevel_stops ?_ hk.1.2) hk.2
  exact parseBinaryLevel_stops hfactor hk.1.1.2

theorem parseExpr_factor (hrun : parseExpr (routines n) s = some (e, s')) :
    ∃ x s₁, parseFactor (routines n) s = some (x, s₁) ∧ Before s₁ s' := by
  have hf := parseFactor_proceeds (routines_clean n)
  have ht := parseBinaryLevel_proceeds (r := routines n) multiplicativeOperator hf hf
  have hs := parseBinaryLevel_proceeds (r := routines n) additiveOperator ht ht
  obtain ⟨x, s₁, hx, h₁⟩ := parseBinaryLevel_first hs.forward hrun
  obtain ⟨y, s₂, hy, h₂⟩ := parseBinaryLevel_first ht.forward hx
  obtain ⟨z, s₃, hz, h₃⟩ := parseBinaryLevel_first hf.forward hy
  exact ⟨z, s₃, hz, h₃.trans (h₂.trans h₁)⟩

theorem parseFactor_peeked (hs : s.toks = t :: tail) (ht : t.1.kind = .ident) :
    parseFactor r { s with havePeek := true } = parseFactor r s := by
  have hlexeme : t.1.lexeme = .ident t.1.text := by simp [Token.lexeme, ht]
  have hcur : s.cur.kind = .ident := by rw [cur_of hs, ht]
  have hcur' : PState.cur { s with havePeek := true } = s.cur := rfl
  rw [parseFactor, bind_of curKind_gives, bind_of curKind_gives, hcur', hcur]
  exact (parsePrimary_leaf (s := { s with havePeek := true }) rfl hs hlexeme).trans
    (parsePrimary_leaf rfl hs hlexeme).symm

theorem expect_clean {k : Tok} {ctx : String} {x : Unit} (hk : k ≠ .eof)
    (hrun : expect k ctx s = some (x, s')) (hc : s'.errors = s.errors) :
    ∃ t tail, s.toks = t :: tail ∧ t.1.kind = k ∧ s' = s.after tail := by
  by_cases h : s.cur.kind = k
  · obtain ⟨t, tail, hs⟩ := List.exists_cons_of_length_pos (toks_pos (s := s) (h ▸ hk))
    have ht : t.1.kind = k := by rw [← cur_of hs, h]
    rw [expect_yes hs ht] at hrun
    cases hrun
    exact ⟨t, tail, hs, ht, rfl⟩
  · rw [expect, bind_of check_gives, decide_eq_false h] at hrun
    exact ((reportError_proceeds (K := fun _ => True) _ s x s' hrun).2 trivial hc).elim

theorem cur_eq (h : s.toks = s'.toks) (he : s.eofModes = s'.eofModes) : s.cur = s'.cur := by
  simp only [PState.cur, PState.eofToken, h, he]

theorem parsePrimary_paren (hs : s.toks = t :: tail) (ht : t.1.kind = .lParen) :
    parseFactor r s = (r.parseExpr >>= fun e => expect .rParen "parenthesised expression" >>= fun _ =>
      parsePostfix r e) (s.after tail) := by
  have hcur : s.cur.kind = .lParen := by rw [cur_of hs, ht]
  have hfactor : parseFactor r s = parsePrimary r s := by
    rw [parseFactor, bind_of curKind_gives, hcur]
  rw [hfactor, parsePrimary, bind_of cur_gives]
  simp only [hcur]
  rw [bind_of (advance_gives hs)]

theorem parseExpr_closed {s₁ : PState} {u : SourceToken} {after : List SourceToken}
    (hs : s.toks = t :: tail) (ht : t.1.kind = .lParen)
    (he : (routines n).parseExpr (s.after tail) = some (e, s₁)) (hu : s₁.toks = u :: after)
    (hkind : u.1.kind = .rParen) (hend : EndsExpr (s₁.after after).cur.kind) :
    parseExpr (routines n) s = some (e, s₁.after after) := by
  obtain ⟨round, hloop, hround⟩ := parsePostfix_rounds (routines n)
  refine parseExpr_stops ?_ hend
  rw [parsePrimary_paren hs ht, bind_of he, bind_of (expect_yes hu hkind), hloop, routines_fuel]
  exact loop_last (hround.stop e _ hend.1.1.1)

/-- In an expression that begins with a parenthesis and is read without an error, the parenthesis
closes; what ends an expression follows and the expression is over, or it goes on. -/
theorem parseExpr_paren (hs : s.toks = t :: tail) (ht : t.1.kind = .lParen)
    (hrun : parseExpr (routines n) s = some (e, s')) (hc : s'.errors = s.errors) :
    ∃ e₁ s₁ u after, (routines n).parseExpr (s.after tail) = some (e₁, s₁) ∧
      s₁.errors = s.errors ∧ s₁.toks = u :: after ∧ u.1.kind = .rParen ∧
      if EndsExpr (s₁.after after).cur.kind then e = e₁ ∧ s' = s₁.after after
      else s'.toks.length < after.length := by
  obtain ⟨x, s₂, hx, h₂⟩ := parseExpr_factor hrun
  rw [parsePrimary_paren hs ht] at hx
  obtain ⟨e₁, s₁, he₁, hx⟩ := bind_eq_some hx
  obtain ⟨y, s₃, hexpect, hpost⟩ := bind_eq_some hx
  -- no part of the run adds an error
  have hb := (advance_forward s _ _ (advance_gives hs)).1
  have hb₁ := ((routines_clean n).parseExpr _ _ _ he₁).1
  have hb₃ := (expect_forward _ _ _ _ _ hexpect).1
  have hb₂ := (parsePostfix_proceeds (routines_clean n) e₁ _ _ _ hpost).1
  obtain ⟨hc₃, -⟩ := (hb.trans (hb₁.trans hb₃)).clean (hb₂.trans h₂) hc
  obtain ⟨hc₁, hc₃⟩ := (hb.trans hb₁).clean hb₃ hc₃
  obtain ⟨u, after, hu, hkind, rfl⟩ := expect_clean (by decide) hexpect hc₃
  refine ⟨e₁, s₁, u, after, he₁, hc₁, hu, hkind, ?_⟩
  split
  · rename_i hend
    have hwhole := parseExpr_closed hs ht he₁ hu hkind hend
    rw [hrun] at hwhole
    cases hwhole
    exact ⟨rfl, rfl⟩
  · rename_i hgoes
    have hb := hb₂.trans h₂
    obtain hlt | heq := Nat.lt_or_eq_of_le hb.toks.length_le
    · exact hlt
    · have htoks := hb.toks.eq_of_length heq
      have hend := (parseExpr_proceeds (routines_clean n) s e s' hrun).2 trivial hc
      rw [cur_eq htoks hb.eofModes] at hend
      exact absurd hend hgoes

def Accepts (s : PState) (rest : List SourceToken) : Prop :=
  ∃ n e s', (routines n).parseExpr s = some (e, s') ∧ s'.toks = rest ∧ s'.errors = s.errors

/-- What is consumed between the two states does not begin with a parenthesis, or it is an
expression that does not, in one pair of parentheses or more. -/
def OnlyAround (s s' : PState) : Prop :=
  s.cur.kind ≠ .lParen ∨ ∃ O U C : List SourceToken, s.toks = O ++ (U ++ (C ++ s'.toks)) ∧
    O ≠ [] ∧ O.length = C.length ∧ (∀ t ∈ O, t.1.kind = .lParen) ∧ (∀ t ∈ C, t.1.kind = .rParen) ∧
    (s.after (U ++ (C ++ s'.toks))).cur.kind ≠ .lParen ∧
    Accepts (s.after (U ++ (C ++ s'.toks))) (C ++ s'.toks)

theorem after_kind (s s' : PState) (rest : List SourceToken) :
    (s.after rest).cur.kind = (s'.after rest).cur.kind := by
  cases rest <;> rfl

theorem Accepts.parens {O U C rest : List SourceToken} (hlen : O.length = C.length)
    (hO : ∀ t ∈ O, t.1.kind = .lParen) (hC : ∀ t ∈ C, t.1.kind = .rParen)
    (hrest : EndsExpr (s.after rest).cur.kind)
    (h : Accepts (s.after (U ++ (C ++ rest))) (C ++ rest)) :
    Accepts (s.after (O ++ (U ++ (C ++ rest)))) rest := by
  induction O generalizing C rest with
  | nil =>
    rw [List.length_eq_zero_iff.mp hlen.symm] at h ⊢
    exact h
  | cons o O ih =>
    obtain ⟨C, c, rfl⟩ : ∃ C' c, C = C' ++ [c] := by
      refine ⟨C.dropLast, C.getLast ?_, (List.dropLast_append_getLast _).symm⟩
      rintro rfl
      cases hlen
    have hc := hC c (by simp)
    simp only [List.append_assoc, List.singleton_append, List.length_append, List.length_cons,
      List.length_nil, Nat.add_right_cancel_iff] at h hlen ⊢
    have hends : EndsExpr (s.after (c :: rest)).cur.kind := by
      rw [after_cur, hc]
      decide
    have hin := ih hlen (fun t ht => hO t (List.mem_cons_of_mem _ ht))
      (fun t ht => hC t (List.mem_append_left _ ht)) hends h
    obtain ⟨n, e, s₁, he, htoks, herrors⟩ := hin
    refine ⟨n+1, e, s₁.after rest, ?_, rfl, herrors⟩
    exact parseExpr_closed rfl (hO o List.mem_cons_self) he htoks hc (after_kind s₁ s rest ▸ hrest)

def peeked (s : PState) : PState :=
  if s.cur.kind = .ident then { s with havePeek := true } else s

@[simp] theorem peeked_after : (peeked s).after rest = s.after rest := by
  unfold peeked
  split <;> rfl

@[simp] theorem peeked_toks : (peeked s).toks = s.toks := by
  unfold peeked
  split <;> rfl

@[simp] theorem peeked_errors : (peeked s).errors = s.errors := by
  unfold peeked
  split <;> rfl

@[simp] theorem peeked_cur : (peeked s).cur = s.cur := by
  unfold peeked
  split <;> rfl

theorem checkPeek_gives (us : List Tok) : checkPeek .ident us s =
    some (decide (s.cur.kind = .ident ∧ s.lookahead.kind ∈ us), peeked s) := by
  unfold checkPeek peeked
  split <;> simp_all

theorem parseSimpleExpr_peeked : parseSimpleExpr r (peeked s) = parseSimpleExpr r s := by
  unfold peeked
  split
  · rename_i h
    obtain ⟨t, tail, hs⟩ := List.exists_cons_of_length_pos (toks_pos (s := s) (by simp [h]))
    have hfactor := parseFactor_peeked (r := r) hs (by rw [← cur_of hs, h])
    exact parseBinaryLevel_congr (parseBinaryLevel_congr hfactor)
  · rfl

theorem parseExpr_peeked : parseExpr r (peeked s) = parseExpr r s :=
  parseBinaryLevel_congr parseSimpleExpr_peeked

/-- A scalar in parentheses: no field follows the parenthesis, and no empty array. -/
theorem parseConstValue_paren {target : Option TypeExpr} (harray : isArrayTarget target = false)
    (hs : s.toks = t :: tail) (ht : t.1.kind = .lParen)
    (hfield : ¬((s.after tail).cur.kind = .ident ∧ (s.after tail).lookahead.kind ∈ [Tok.colon]))
    (hempty : (s.after tail).cur.kind ≠ .rParen) {v : Expr} {s₁ : PState}
    (hv : r.parseConstValue none (peeked (s.after tail)) = some (v, s₁))
    (hcomma : s₁.cur.kind ≠ .comma) : parseConstValue r target s =
      (expect .rParen "parenthesised constant" >>= fun _ => pure v : P Expr) s₁ := by
  have helement : elementTarget target = none := by
    unfold elementTarget
    split
    · cases harray
    · rfl
  rw [parseConstValue, bind_of check_gives, cur_of hs, ht, decide_eq_true rfl, if_pos rfl,
    bind_of (advance_gives hs), bind_of (checkPeek_gives _), decide_eq_false hfield,
    if_neg Bool.false_ne_true, parseArrayConst, bind_of check_gives, peeked_cur,
    decide_eq_false hempty, if_neg Bool.false_ne_true, helement, bind_of hv, bind_accept_no hcomma,
    harray, if_neg Bool.false_ne_true]

/-- What an expression in parentheses that is read without an error begins with is neither a field
of a record nor the end of an empty array. -/
theorem paren_inside {s₁ : PState} {u : SourceToken} {after : List SourceToken}
    (he : (routines n).parseExpr s = some (e, s₁)) (hc : s₁.errors = s.errors)
    (hu : s₁.toks = u :: after) (hkind : u.1.kind = .rParen) :
    ¬(s.cur.kind = .ident ∧ s.lookahead.kind ∈ [Tok.colon]) ∧ s.cur.kind ≠ .rParen := by
  constructor
  · rintro ⟨hident, hcolon⟩
    obtain ⟨t, tail, hs⟩ := List.exists_cons_of_length_pos (toks_pos (s := s) (by simp [hident]))
    cases tail with
    | nil => simp [PState.lookahead, hs, PState.eofToken] at hcolon
    | cons c tail =>
      have hk : c.1.kind = .colon := by simpa [PState.lookahead, hs] using hcolon
      have hlexeme : t.1.lexeme = .ident t.1.text := by
        simp [Token.lexeme, ← cur_of hs, hident]
      have hend : EndsExpr (s.after (c :: tail)).cur.kind := by
        rw [after_cur, hk]
        decide
      have hreads := (PrimaryText.leaf (x := .ident t.1.text) (l := .ident t.1.text) rfl).factor
      obtain ⟨x, hx, -⟩ := hreads.phrase_reads.inner.gives (s.toks.length+1) s (c :: tail)
        ⟨[t], hs, by rw [← hlexeme]; rfl⟩ (Nat.lt_succ_self _) hend
      have hsame := parseExpr_agree he hx
      cases hsame
      cases hu
      rw [hk] at hkind
      cases hkind
  · intro hclose
    cases n with
    | zero => cases he
    | succ n => exact (parseExpr_rejects (routines_clean n) _ _ _ he).2 hclose hc

theorem eq_cons_of_lParen (h : s.cur.kind = .lParen) :
    ∃ t tail, s.toks = t :: tail ∧ t.1.kind = .lParen := by
  obtain ⟨t, tail, hs⟩ := List.exists_cons_of_length_pos (toks_pos (s := s) (by simp [h]))
  exact ⟨t, tail, hs, by rw [← cur_of hs, h]⟩

def StopsEarly (s' s'' : PState) : Prop :=
  s'.toks.length < s''.toks.length ∧ ¬EndsExpr s''.cur.kind

theorem expect_no {k : Tok} (ctx : String) (h : s.cur.kind ≠ k) :
    ∃ s'', expect k ctx s = some ((), s'') ∧ s''.toks = s.toks ∧ s''.cur = s.cur := by
  rw [expect, bind_of check_gives, decide_eq_false h]
  exact ⟨_, rfl, rfl, rfl⟩

theorem OnlyAround.paren {s₁ : PState} {u : SourceToken} {after : List SourceToken}
    (hs : s.toks = t :: tail) (ht : t.1.kind = .lParen)
    (he : (routines n).parseExpr (s.after tail) = some (e, s₁)) (hc : s₁.errors = s.errors)
    (hu : s₁.toks = u :: after) (hkind : u.1.kind = .rParen)
    (h : OnlyAround (peeked (s.after tail)) s₁) : OnlyAround s (s₁.after after) := by
  refine .inr ?_
  obtain hplain | ⟨O, U, C, htail, -, hlen, hO, hC, hU, haccepts⟩ := h
  · obtain ⟨T, hT⟩ := ((routines_clean n).parseExpr _ _ _ he).1.toks
    rw [hu, after_toks] at hT
    rw [peeked_cur] at hplain
    refine ⟨[t], T, [u], by rw [hs, ← hT]; rfl, by simp, rfl, by simpa using ht,
      by simpa using hkind, ?_, ?_⟩
    · exact hT ▸ hplain
    · exact ⟨n, e, s₁, hT ▸ he, hu, hc⟩
  · rw [peeked_toks, after_toks, hu] at htail
    simp only [hu, peeked_after, after_after] at hU haccepts
    refine ⟨t :: O, U, C ++ [u], by rw [hs, htail]; simp, by simp, by simpa using hlen, ?_, ?_, ?_,
      ?_⟩
    · intro x hx
      obtain rfl | hx := List.mem_cons.mp hx
      · exact ht
      · exact hO x hx
    · intro x hx
      obtain hx | hx := List.mem_append.mp hx
      · exact hC x hx
      · rw [List.mem_singleton.mp hx]
        exact hkind
    · simpa using hU
    · simpa using haccepts

theorem parseConstValue_scalar {target : Option TypeExpr} (harray : isArrayTarget target = false)
    (hrun : parseExpr (routines n) s = some (e, s')) (hc : s'.errors = s.errors) :
    ∃ v s'', parseConstValue (routines n) target s = some (v, s'') ∧
      (v = e ∧ s'' = s' ∧ OnlyAround s s' ∨ StopsEarly s' s'') := by
  induction n generalizing s e s' target with
  | zero =>
    by_cases hp : s.cur.kind = .lParen
    · obtain ⟨t, tail, hs, ht⟩ := eq_cons_of_lParen hp
      obtain ⟨e₁, s₁, u, after, he₁, -⟩ := parseExpr_paren hs ht hrun hc
      cases he₁
    · refine ⟨e, s', ?_, .inl ⟨rfl, rfl, .inl hp⟩⟩
      rw [parseConstValue, bind_of check_gives, decide_eq_false hp]
      exact hrun
  | succ n ih =>
    by_cases hp : s.cur.kind = .lParen
    · obtain ⟨t, tail, hs, ht⟩ := eq_cons_of_lParen hp
      obtain ⟨e₁, s₁, u, after, he₁, hc₁, hu, hkind, hends⟩ := parseExpr_paren hs ht hrun hc
      obtain ⟨hfield, hempty⟩ := paren_inside he₁ hc₁ hu hkind
      have hin : parseExpr (routines n) (peeked (s.after tail)) = some (e₁, s₁) := by
        rw [parseExpr_peeked]
        exact he₁
      obtain ⟨v, s₂, hv, hcase⟩ := ih (show isArrayTarget none = false from rfl) hin (by rw [peeked_errors]; exact hc₁)
      have hvalue := parseConstValue_paren (r := routines (n+1)) harray hs ht hfield hempty hv
      obtain ⟨rfl, rfl, haround⟩ | hearly := hcase
      · have hcur : s₂.cur.kind = .rParen := by rw [cur_of hu, hkind]
        have hrun' : parseConstValue (routines (n+1)) target s = some (v, s₂.after after) := by
          rw [hvalue (by rw [hcur]; decide), bind_of (expect_yes hu hkind)]
          rfl
        refine ⟨v, s₂.after after, hrun', ?_⟩
        split at hends
        · obtain ⟨rfl, rfl⟩ := hends
          exact .inl ⟨rfl, rfl, .paren hs ht he₁ hc₁ hu hkind haround⟩
        · rename_i hgoes
          exact .inr ⟨hends, hgoes⟩
      · have hcomma : s₂.cur.kind ≠ .comma := fun h => hearly.2 (h ▸ by decide)
        have hclose : s₂.cur.kind ≠ .rParen := fun h => hearly.2 (h ▸ by decide)
        obtain ⟨s₃, hexpect, htoks, hcur⟩ := expect_no "parenthesised constant" hclose
        refine ⟨v, s₃, by rw [hvalue hcomma, bind_of hexpect]; rfl, .inr ⟨?_, hcur ▸ hearly.2⟩⟩
        have hlt := hearly.1
        rw [hu, List.length_cons] at hlt
        rw [htoks]
        split at hends
        · rw [hends.2]
          exact Nat.lt_trans (Nat.lt_succ_self _) hlt
        · omega
    · refine ⟨e, s', ?_, .inl ⟨rfl, rfl, .inl hp⟩⟩
      rw [parseConstValue, bind_of check_gives, decide_eq_false hp]
      exact hrun

theorem OnlyAround.inside {s₁ : PState} {u : SourceToken} {after : List SourceToken}
    (hs : s.toks = t :: tail) (ht : t.1.kind = .lParen)
    (he : (routines n).parseExpr (s.after tail) = some (e, s₁)) (hu : s₁.toks = u :: after)
    (h : OnlyAround s s') : after = s'.toks ∧ OnlyAround (peeked (s.after tail)) s₁ := by
  obtain hplain | ⟨O, U, C, htoks, hO, hlen, hopen, hclose, hU, haccepts⟩ := h
  · exact absurd (by rw [cur_of hs, ht]) hplain
  obtain ⟨o, O, rfl⟩ := List.exists_cons_of_ne_nil hO
  obtain ⟨C, c, rfl⟩ : ∃ C' c, C = C' ++ [c] := by
    refine ⟨C.dropLast, C.getLast ?_, (List.dropLast_append_getLast _).symm⟩
    rintro rfl
    cases hlen
  have hc := hclose c (by simp)
  simp only [List.append_assoc, List.nil_append, List.length_append, List.length_cons, hs,
    List.length_nil, Nat.add_right_cancel_iff, List.cons_append, List.cons.injEq] at htoks hlen hU haccepts
  obtain ⟨rfl, rfl⟩ := htoks
  have hopen' : ∀ t ∈ O, t.1.kind = .lParen := fun t ht => hopen t (List.mem_cons_of_mem _ ht)
  have hclose' : ∀ t ∈ C, t.1.kind = .rParen := fun t ht => hclose t (List.mem_append_left _ ht)
  have hends : EndsExpr (s.after (c :: s'.toks)).cur.kind := by
    rw [after_cur, hc]
    decide
  obtain ⟨m, e', s₂, he', htoks', -⟩ := haccepts.parens hlen hopen' hclose' hends
  cases parseExpr_agree he he'
  rw [hu] at htoks'
  cases htoks'
  refine ⟨rfl, ?_⟩
  cases O with
  | nil =>
    refine .inl ?_
    rw [List.length_eq_zero_iff.mp hlen.symm] at hU ⊢
    simpa using hU
  | cons o' O =>
    refine .inr ⟨o' :: O, U, C, ?_, by simp, hlen, hopen', hclose', ?_, ?_⟩
    · rw [peeked_toks, after_toks, hu]
    · rw [hu]
      simpa using hU
    · rw [hu]
      simpa using haccepts

theorem parseConstValue_around {target : Option TypeExpr} (harray : isArrayTarget target = false)
    (hrun : parseExpr (routines n) s = some (e, s')) (hc : s'.errors = s.errors)
    (h : OnlyAround s s') : parseConstValue (routines n) target s = some (e, s') := by
  induction n generalizing s e s' target with
  | zero =>
    have hp : s.cur.kind ≠ .lParen := by
      intro hp
      obtain ⟨t, tail, hs, ht⟩ := eq_cons_of_lParen hp
      obtain ⟨e₁, s₁, u, after, he₁, -⟩ := parseExpr_paren hs ht hrun hc
      cases he₁
    rw [parseConstValue, bind_of check_gives, decide_eq_false hp]
    exact hrun
  | succ n ih =>
    by_cases hp : s.cur.kind = .lParen
    · obtain ⟨t, tail, hs, ht⟩ := eq_cons_of_lParen hp
      obtain ⟨e₁, s₁, u, after, he₁, hc₁, hu, hkind, hends⟩ := parseExpr_paren hs ht hrun hc
      obtain ⟨hfield, hempty⟩ := paren_inside he₁ hc₁ hu hkind
      obtain ⟨rfl, hinside⟩ := h.inside hs ht he₁ hu
      rw [if_pos] at hends
      · obtain ⟨rfl, hs'⟩ := hends
        have hin : parseExpr (routines n) (peeked (s.after tail)) = some (e, s₁) := by
          rw [parseExpr_peeked]
          exact he₁
        have hv := ih (show isArrayTarget none = false from rfl) hin
          (by rw [peeked_errors]; exact hc₁) hinside
        have hcur : s₁.cur.kind = .rParen := by rw [cur_of hu, hkind]
        rw [parseConstValue_paren harray hs ht hfield hempty hv (by rw [hcur]; decide),
          bind_of (expect_yes hu hkind), ← hs']
        rfl
      · by_contra hgoes
        rw [if_neg hgoes] at hends
        exact absurd hends (Nat.lt_irrefl _)
    · rw [parseConstValue, bind_of check_gives, decide_eq_false hp]
      exact hrun

/-- Where `parse_expr` reads an expression without an error, a constant value of a type that is no
array is the same tree of the same tokens exactly where the expression does not begin with a
parenthesis or is, in one pair of parentheses or more, an expression that does not. -/
theorem parseConstValue_iff {target : Option TypeExpr} (harray : isArrayTarget target = false)
    (n : Nat) (s s' : PState) (e : Expr) (hrun : parseExpr (routines n) s = some (e, s'))
    (hc : s'.errors = s.errors) :
    (∃ s'', parseConstValue (routines n) target s = some (e, s'') ∧ s''.toks = s'.toks) ↔
      OnlyAround s s' := by
  constructor
  · rintro ⟨s'', hvalue, htoks⟩
    obtain ⟨v, s₂, hvalue', hcase⟩ := parseConstValue_scalar harray hrun hc
    rw [hvalue] at hvalue'
    cases hvalue'
    obtain ⟨-, -, haround⟩ | hearly := hcase
    · exact haround
    · exact absurd hearly.1 (by rw [htoks]; exact Nat.lt_irrefl _)
  · exact fun h => ⟨s', parseConstValue_around harray hrun hc h, rfl⟩

theorem Tok.lParen_ne_eof : Tok.lParen ≠ .eof := Tok.noConfusion
theorem Tok.rParen_ne_eof : Tok.rParen ≠ .eof := Tok.noConfusion
theorem Tok.plus_ne_eof : Tok.plus ≠ .eof := Tok.noConfusion

def openToken : SourceToken := ⟨{ kind := .lParen }, Tok.lParen_ne_eof⟩
def closeToken : SourceToken := ⟨{ kind := .rParen }, Tok.rParen_ne_eof⟩
def plusToken : SourceToken := ⟨{ kind := .plus }, Tok.plus_ne_eof⟩

def twice : PState :=
  { toks := [openToken, openToken, identToken "a", closeToken, closeToken] }

theorem parseConstValue_iff_twice :
    (∃ s'', parseConstValue (routines 6) (some (.tyName "integer")) twice = some (.ident "a", s'') ∧
      s''.toks = (twice.after []).toks) ↔ OnlyAround twice (twice.after []) :=
  parseConstValue_iff rfl 6 twice (twice.after []) (.ident "a") rfl rfl

def parenthesisedSum : PState :=
  { toks := [openToken, identToken "a", closeToken, plusToken, identToken "b"] }

theorem parenthesisedSum_value :
    parseConstValue (routines 6) (some (.tyName "integer")) parenthesisedSum =
      some (.ident "a", parenthesisedSum.after [plusToken, identToken "b"]) := rfl

/-- The value ends behind the parenthesis, and the expression does not. -/
theorem parseConstValue_sum :
    ∃ s', parseExpr (routines 6) parenthesisedSum =
        some (.binary .add (.ident "a") (.ident "b") false, s') ∧ s'.toks = [] ∧ s'.errors = [] ∧
      ¬∃ s'', parseConstValue (routines 6) (some (.tyName "integer")) parenthesisedSum =
        some (.binary .add (.ident "a") (.ident "b") false, s'') ∧ s''.toks = s'.toks := by
  refine ⟨_, rfl, rfl, rfl, ?_⟩
  rintro ⟨s'', hvalue, -⟩
  rw [parenthesisedSum_value] at hvalue
  cases hvalue

end
end Tp2cc
