import Tp2cc.Parser.ConstValue

set_option autoImplicit false

namespace Tp2cc
open Machine Parsing

def nameTail (parts : List String) : List Lexeme :=
  parts.flatMap fun part => [.mark .dot, .ident part]

def qualifiedName (name : String) (parts : List String) : String :=
  parts.foldl (fun name part => name ++ "." ++ part) name

/-- The text at the state is that of the type: two bounds that the parser reads without an error
and takes for constant, or a name that no bound goes on from. -/
inductive DenotesType (n : Nat) (s : PState) : TypeExpr → Prop
  | bounds {lo hi : Expr} {s₁ s₂ : PState} {t : SourceToken} {after : List SourceToken}
      (hparen : s.cur.kind ≠ .lParen)
      (hlo : parseSubrangeBound (routines n) s = some (lo, s₁)) (hc₁ : s₁.errors = s.errors)
      (hs₁ : s₁.toks = t :: after) (ht : t.1.kind = .dotDot)
      (hhi : parseSubrangeBound (routines n) (s₁.after after) = some (hi, s₂))
      (hc₂ : s₂.errors = s.errors) (hlow : isConstantSubrangeBoundExpr lo)
      (hhigh : isConstantSubrangeBoundExpr hi) : DenotesType n s (.tySubrange lo hi)
  | name {first : String} {parts : List String} {rest : List SourceToken}
      (hs : Spelled (.ident first :: nameTail parts) s rest) (hn : s.toks.length ≤ n)
      (hrest : (s.after rest).cur.kind = .dot → (s.after rest).lookahead.kind ≠ .ident)
      (hbound : parts = [] → (s.after rest).cur.kind ≠ .dotDot ∧
        ¬(isSubrangeBoundIntrinsic first ∧ (s.after rest).cur.kind = .lParen)) :
      DenotesType n s (.tyName (qualifiedName first parts))

/-- The parser expects a bound: at another token than an identifier, or at one with `..` behind it,
or at an intrinsic with an argument. -/
def StartsBound (s : PState) : Prop :=
  s.cur.kind ≠ .ident ∨ s.lookahead.kind = .dotDot ∨
    isSubrangeBoundIntrinsic s.cur.text ∧ s.lookahead.kind = .lParen

section
variable {r : Routines} {n : Nat} {s : PState}

@[simp] theorem peeked_peeked : peeked (peeked s) = peeked s := by
  unfold peeked
  split
  · split <;> rfl
  · rfl

@[simp] theorem peeked_lookahead : (peeked s).lookahead = s.lookahead := by
  unfold peeked
  split <;> rfl

theorem parseSimpleType_bound (hparen : s.cur.kind ≠ .lParen) (h : StartsBound s) :
    parseSimpleType r s = (parseSubrangeBound r >>= fun lo => parseSubrangeType r lo) s := by
  have hpeek : (parseSubrangeBound r >>= fun lo => parseSubrangeType r lo) (peeked s) =
      (parseSubrangeBound r >>= fun lo => parseSubrangeType r lo) s := by
    simp only [Bind.bind, StateT.bind, parseSubrangeBound, parseSimpleExpr_peeked]
  rw [parseSimpleType, bind_accept_no hparen, bind_of check_gives]
  by_cases hident : s.cur.kind = .ident
  · rw [decide_eq_true hident, if_pos rfl, bind_of (checkPeek_gives _)]
    by_cases hdots : s.lookahead.kind = .dotDot
    · rw [decide_eq_true ⟨hident, by simpa using hdots⟩, if_pos rfl]
      exact hpeek
    · obtain ⟨hname, hcall⟩ := (h.resolve_left (not_not_intro hident)).resolve_left hdots
      have hstarts : startsIntrinsicBound (peeked s) = some (true, peeked s) := by
        rw [startsIntrinsicBound, bind_of (checkPeek_gives _), peeked_peeked,
          decide_eq_true ⟨by simpa using hident, by simpa using hcall⟩, if_pos rfl,
          bind_of cur_gives, peeked_cur, hname]
        rfl
      rw [decide_eq_false (fun h => hdots (by simpa using h.2)), if_neg Bool.false_ne_true,
        bind_of hstarts, if_pos rfl]
      exact hpeek
  · rw [decide_eq_false hident, if_neg Bool.false_ne_true]

theorem parseSimpleType_name (hident : s.cur.kind = .ident) (h : ¬StartsBound s) :
    parseSimpleType r s = parseTypeName r (peeked s) := by
  simp only [StartsBound, not_or, not_and, not_not] at h
  obtain ⟨-, hdots, hcall⟩ := h
  rw [parseSimpleType, bind_accept_no (by rw [hident]; decide), bind_of check_gives,
    decide_eq_true hident, if_pos rfl, bind_of (checkPeek_gives _),
    decide_eq_false (fun h => hdots (by simpa using h.2)), if_neg Bool.false_ne_true]
  have hstarts : startsIntrinsicBound (peeked s) = some (false, peeked s) := by
    rw [startsIntrinsicBound, bind_of (checkPeek_gives _), peeked_peeked, peeked_cur, peeked_lookahead]
    by_cases hparen : s.lookahead.kind = .lParen
    · rw [decide_eq_true ⟨hident, by simpa using hparen⟩, if_pos rfl, bind_of cur_gives, peeked_cur]
      have hname : isSubrangeBoundIntrinsic s.cur.text = false := by
        by_contra hname
        exact hcall (by simpa using hname) hparen
      rw [hname]
      rfl
    · rw [decide_eq_false (fun h => hparen (by simpa using h.2)), if_neg Bool.false_ne_true]
      rfl
  rw [bind_of hstarts, if_neg Bool.false_ne_true]

structure NameRounds (round : String → P (LoopStep String String)) : Prop where
  part : ∀ name {s t u tail}, s.toks = t :: u :: tail → t.1.kind = .dot → u.1.kind = .ident →
    round name s = some (.again (name ++ "." ++ u.1.text), s.after tail)
  stop : ∀ name s, (s.cur.kind = .dot → s.lookahead.kind ≠ .ident) →
    ∃ s', round name s = some (.done name, s') ∧ s'.errors = s.errors

theorem parseTypeName_rounds (r : Routines) : ∃ round, parseTypeName r = (do
    let t ← cur
    advance
    return .tyName (← Parsing.loop round r.fuel t.text)) ∧ NameRounds round := by
  refine ⟨_, rfl, ?_, ?_⟩
  · intro name s t u tail hs ht hu
    rw [bind_accept_yes hs ht, bind_of check_gives, after_cur, hu, decide_eq_true rfl, if_pos rfl,
      bind_of cur_gives, bind_of (advance_gives rfl), after_cur]
    rfl
  · intro name s h
    by_cases hdot : s.cur.kind = .dot
    · obtain ⟨t, tail, hs⟩ := List.exists_cons_of_length_pos (toks_pos (s := s) (by simp [hdot]))
      have hnext : (s.after tail).cur.kind ≠ .ident := by
        have := h hdot
        cases tail with
        | nil => exact fun h => nomatch h
        | cons u tail => simpa [PState.lookahead, hs] using this
      refine ⟨s.after tail, ?_, rfl⟩
      rw [bind_accept_yes hs (by rw [← cur_of hs, hdot]), bind_of check_gives,
        decide_eq_false hnext]
      rfl
    · refine ⟨s, ?_, rfl⟩
      rw [bind_accept_no hdot]
      rfl

theorem nameRounds_run {round : String → P (LoopStep String String)} (hround : NameRounds round)
    {parts : List String} {mid rest : List SourceToken} {m : Nat} (name : String)
    (hs : Spelled (nameTail parts) (s.after mid) rest) (hm : mid.length < m)
    (hrest : (s.after rest).cur.kind = .dot → (s.after rest).lookahead.kind ≠ .ident) :
    ∃ s', Parsing.loop round m name (s.after mid) = some (qualifiedName name parts, s') ∧
      s'.errors = s.errors := by
  obtain ⟨m, rfl⟩ : ∃ m', m = m'+1 := ⟨m-1, by omega⟩
  induction parts generalizing name mid m with
  | nil =>
    cases hs.nil
    obtain ⟨s', hstop, herrors⟩ := hround.stop name _ hrest
    exact ⟨s', loop_last hstop, herrors⟩
  | cons part parts ih =>
    obtain ⟨t, tail, htoks, ht, hs⟩ := Spelled.cons (l := .mark .dot) hs
    obtain ⟨u, tail', htail, hu, hs⟩ := Spelled.cons (l := .ident part) hs
    cases htoks
    cases htail
    simp only [List.length_cons] at hm
    obtain ⟨m, rfl⟩ : ∃ m', m = m'+1 := ⟨m-1, by omega⟩
    obtain ⟨s', hrun, herrors⟩ := ih (name ++ "." ++ part) hs m (by omega)
    refine ⟨s', ?_, herrors⟩
    rw [loop_round (hround.part name rfl (kind_of_mark ht) (kind_of_ident hu)), text_of_ident hu]
    exact hrun

theorem parseTypeName_gives {first : String} {parts : List String} {rest : List SourceToken}
    (hs : Spelled (.ident first :: nameTail parts) s rest) (hn : s.toks.length ≤ n)
    (hrest : (s.after rest).cur.kind = .dot → (s.after rest).lookahead.kind ≠ .ident) :
    ∃ s', parseTypeName (routines n) s = some (.tyName (qualifiedName first parts), s') ∧
      s'.errors = s.errors := by
  obtain ⟨round, heq, hround⟩ := parseTypeName_rounds (routines n)
  obtain ⟨t, tail, htoks, ht, htail⟩ := hs.cons
  rw [htoks, List.length_cons] at hn
  obtain ⟨s', hrun, herrors⟩ := nameRounds_run hround (m := n+1) first htail (by omega) hrest
  refine ⟨s', ?_, herrors⟩
  rw [heq, bind_of cur_gives, bind_of (advance_gives htoks), cur_of htoks, text_of_ident ht,
    routines_fuel, bind_of hrun]
  rfl

theorem spelled_peeked {L : List Lexeme} {rest : List SourceToken} (h : Spelled L s rest) :
    Spelled L (peeked s) rest := by
  obtain ⟨T, hs, hT⟩ := h
  exact ⟨T, by simpa using hs, hT⟩

theorem named_ident {first : String} {parts : List String} {rest : List SourceToken}
    (hs : Spelled (.ident first :: nameTail parts) s rest) : s.cur.kind = .ident := by
  obtain ⟨t, tail, htoks, ht, -⟩ := hs.cons
  rw [cur_of htoks, kind_of_ident ht]

theorem named_not_bound {first : String} {parts : List String} {rest : List SourceToken}
    (hs : Spelled (.ident first :: nameTail parts) s rest)
    (hbound : parts = [] → (s.after rest).cur.kind ≠ .dotDot ∧
      ¬(isSubrangeBoundIntrinsic first ∧ (s.after rest).cur.kind = .lParen)) :
    ¬StartsBound s := by
  obtain ⟨t, tail, htoks, ht, htail⟩ := hs.cons
  have hlook : s.lookahead = (s.after tail).cur := by
    simp only [PState.lookahead, PState.cur, htoks, PState.after]
    cases tail <;> rfl
  have hcur : s.cur = t.1 := cur_of htoks
  simp only [StartsBound, not_or, not_not, hcur, kind_of_ident ht, text_of_ident ht, hlook, true_and]
  cases parts with
  | nil =>
    cases htail.nil
    exact hbound rfl
  | cons part parts =>
    obtain ⟨u, tail', hu, hdot, -⟩ := Spelled.cons (l := .mark .dot) htail
    have hkind : (s.after tail).cur.kind = .dot := by
      rw [cur_of hu, kind_of_mark hdot]
    rw [hkind]
    constructor
    · decide
    · intro h
      cases h.2

theorem parseSubrangeType_gives {lo hi : Expr} {s₁ s₂ : PState} {t : SourceToken}
    {after : List SourceToken} (hs₁ : s₁.toks = t :: after) (ht : t.1.kind = .dotDot)
    (hhi : parseSubrangeBound r (s₁.after after) = some (hi, s₂))
    (hlow : isConstantSubrangeBoundExpr lo) (hhigh : isConstantSubrangeBoundExpr hi) :
    parseSubrangeType r lo s₁ = some (.tySubrange lo hi, s₂) := by
  rw [parseSubrangeType, hlow]
  have hreport : reportIf (!true) "non-constant subrange bound" s₁ = some ((), s₁) := rfl
  rw [bind_of hreport, bind_of (expect_yes hs₁ ht), bind_of hhi, hhigh]
  rfl

/-- The parser reads a simple type without an error from the text of a name, and from that of two
constant bounds exactly where it expects a bound. -/
theorem parseSimpleType_iff (n : Nat) (s : PState) (type : TypeExpr) (h : DenotesType n s type) :
    (∃ s', parseSimpleType (routines n) s = some (type, s') ∧ s'.errors = s.errors) ↔
      StartsBound s ∨ ∃ name, type = .tyName name := by
  cases h with
  | bounds hparen hlo hc₁ hs₁ ht hhi hc₂ hlow hhigh =>
    constructor
    · rintro ⟨s', hrun, -⟩
      by_contra hnot
      simp only [not_or] at hnot
      have hident : s.cur.kind = .ident := by
        by_contra hident
        exact hnot.1 (.inl hident)
      obtain ⟨round, heq, -⟩ := parseTypeName_rounds (routines n)
      rw [parseSimpleType_name hident hnot.1, heq] at hrun
      obtain ⟨u, s₃, -, hrun⟩ := bind_eq_some hrun
      obtain ⟨v, s₄, -, hrun⟩ := bind_eq_some hrun
      obtain ⟨name, s₅, -, hrun⟩ := bind_eq_some hrun
      cases hrun
    · rintro (hstarts | ⟨name, hname⟩)
      · rw [parseSimpleType_bound hparen hstarts]
        refine ⟨_, (bind_of hlo).trans (parseSubrangeType_gives hs₁ ht hhi hlow hhigh), hc₂⟩
      · cases hname
  | @name first parts rest hs hn hrest hbound =>
    refine ⟨fun _ => .inr ⟨_, rfl⟩, fun _ => ?_⟩
    rw [parseSimpleType_name (named_ident hs) (named_not_bound hs hbound)]
    obtain ⟨s', hrun, herrors⟩ := parseTypeName_gives (spelled_peeked hs)
      (by simpa using hn) (by simpa using hrest)
    exact ⟨s', hrun, by simpa using herrors⟩

theorem Tok.dotDot_ne_eof : Tok.dotDot ≠ .eof := Tok.noConfusion

def dotDotToken : SourceToken := ⟨{ kind := .dotDot }, Tok.dotDot_ne_eof⟩

def namedBounds : PState := { toks := [identToken "a", dotDotToken, identToken "b"] }

theorem namedBounds_denotes : DenotesType 6 namedBounds (.tySubrange (.ident "a") (.ident "b")) :=
  have hlo : parseSubrangeBound (routines 6) namedBounds =
      some (.ident "a", namedBounds.after [dotDotToken, identToken "b"]) := rfl
  have hhi : parseSubrangeBound (routines 6) (namedBounds.after [identToken "b"]) =
      some (.ident "b", namedBounds.after []) := rfl
  .bounds (by decide) hlo rfl rfl rfl hhi rfl rfl rfl

theorem parseSimpleType_named :
    (∃ s', parseSimpleType (routines 6) namedBounds =
      some (.tySubrange (.ident "a") (.ident "b"), s') ∧ s'.errors = namedBounds.errors) ↔
      StartsBound namedBounds ∨ ∃ name, TypeExpr.tySubrange (.ident "a") (.ident "b") = .tyName name :=
  parseSimpleType_iff 6 namedBounds _ namedBounds_denotes

/-- `a + b..c` -/
def sumBounds : PState :=
  { toks := [identToken "a", plusToken, identToken "b", dotDotToken, identToken "c"] }

theorem sumBounds_denotes : DenotesType 6 sumBounds
    (.tySubrange (.binary .add (.ident "a") (.ident "b") false) (.ident "c")) :=
  have hlo : parseSubrangeBound (routines 6) sumBounds =
      some (.binary .add (.ident "a") (.ident "b") false,
        sumBounds.after [dotDotToken, identToken "c"]) := rfl
  have hhi : parseSubrangeBound (routines 6) (sumBounds.after [identToken "c"]) =
      some (.ident "c", sumBounds.after []) := rfl
  .bounds (by decide) hlo rfl rfl rfl hhi rfl rfl rfl

theorem sumBounds_type : ∃ s', parseSimpleType (routines 6) sumBounds = some (.tyName "a", s') :=
  ⟨_, rfl⟩

/-- The parser takes the first name of the sum for the whole type. -/
theorem parseSimpleType_sum :
    DenotesType 6 sumBounds
        (.tySubrange (.binary .add (.ident "a") (.ident "b") false) (.ident "c")) ∧
      ¬∃ s', parseSimpleType (routines 6) sumBounds =
        some (.tySubrange (.binary .add (.ident "a") (.ident "b") false) (.ident "c"), s') ∧
        s'.errors = sumBounds.errors := by
  refine ⟨sumBounds_denotes, ?_⟩
  rintro ⟨s', hrun, -⟩
  obtain ⟨s'', htype⟩ := sumBounds_type
  rw [htype] at hrun
  cases hrun

end
end Tp2cc
