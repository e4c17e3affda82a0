import Tp2cc.Parser.ExprRun

set_option autoImplicit false

namespace Tp2cc
open Machine Parsing

section
variable {n : Nat} {s s₁ s₂ : PState} {rest tail : List SourceToken} {t u : SourceToken}
  {lhs x : Expr} {L : List Lexeme}

structure PostfixRounds (r : Routines) (round : Expr → P (LoopStep Expr Expr)) : Prop where
  stop : ∀ lhs s, EndsPostfix s.cur.kind → round lhs s = some (.done lhs, s)
  member : ∀ lhs {s t u tail}, s.toks = t :: u :: tail → t.1.kind = .dot → u.1.kind = .ident →
    round lhs s = some (.again (.member lhs u.1.text), s.after tail)
  deref : ∀ lhs {s t tail}, s.toks = t :: tail → t.1.kind = .caret →
    round lhs s = some (.again (.deref lhs), s.after tail)
  index : ∀ lhs {s t tail s₁ s₂ u after Q R}, s.toks = t :: tail → t.1.kind = .lBrack →
    Gives r.parseExpr (s.after tail) Q s₁ →
    (∀ i, Q i → Gives (moreAfterCommas r r.parseExpr [i]) s₁ R s₂) →
    s₂.toks = u :: after → u.1.kind = .rBrack →
    ∃ is, round lhs s = some (.again (.index lhs is), s₂.after after) ∧ R is
  call : ∀ lhs {s t tail s₁ u after R}, s.toks = t :: tail → t.1.kind = .lParen →
    Gives (parseCallArgs r) (s.after tail) R s₁ → s₁.toks = u :: after → u.1.kind = .rParen →
    ∃ args q c, round lhs s = some (.again (.call lhs (args.map (·.arg)) (args.map (·.width))
      (args.map (·.precision)) q c), s₁.after after) ∧ R args

theorem parsePostfix_rounds (r : Routines) : ∃ round,
    (∀ lhs, parsePostfix r lhs = Parsing.loop round r.fuel lhs) ∧ PostfixRounds r round := by
  have other {k : Tok} {t : SourceToken} {tail : List SourceToken} {s : PState}
      (hs : s.toks = t :: tail) (hk : t.1.kind = k) (k' : Tok) (h : k ≠ k') : s.cur.kind ≠ k' := by
    rw [cur_of hs, hk]
    exact h
  refine ⟨_, fun _ => rfl, ?_, ?_, ?_, ?_, ?_⟩
  · intro lhs s h
    simp only [EndsPostfix, List.mem_cons, List.not_mem_nil, or_false, not_or] at h
    rw [bind_accept_no h.1, bind_accept_no h.2.1, bind_accept_no h.2.2.1, bind_accept_no h.2.2.2]
    rfl
  · intro lhs s t u tail hs ht hu
    rw [bind_accept_yes hs ht, consumeNameOrDirective,
      bind_of (consumeIdent_gives rfl hu)]
    rfl
  · intro lhs s t tail hs ht
    rw [bind_accept_no (other hs ht .dot (by decide)), bind_accept_yes hs ht]
    rfl
  · intro lhs s t tail s₁ s₂ u after Q R hs ht hfirst hmore hs₂ hu
    obtain ⟨i, hi, hq⟩ := hfirst
    obtain ⟨is, his, hr⟩ := hmore i hq
    refine ⟨is, ?_, hr⟩
    rw [bind_accept_no (other hs ht .dot (by decide)), bind_accept_no (other hs ht .caret (by decide)),
      bind_accept_yes hs ht, bind_of hi, bind_of his, bind_of (expect_yes hs₂ hu)]
    rfl
  · intro lhs s t tail s₁ u after R hs ht hargs hs₁ hu
    obtain ⟨args, hargs, hr⟩ := hargs
    refine ⟨args, (s₁.after after).modes.overflowCheck, (s₁.after after).modes.rangeCheck, ?_, hr⟩
    rw [bind_accept_no (other hs ht .dot (by decide)), bind_accept_no (other hs ht .caret (by decide)),
      bind_accept_no (other hs ht .lBrack (by decide)), bind_accept_yes hs ht, bind_of hargs,
      bind_of (expect_yes hs₁ hu), bind_of overflowCheckActive_gives,
      bind_of rangeCheckActive_gives]
    rfl

def StartsPrimary (k : Tok) : Prop :=
  k ∈ [Tok.ident, .kwSelf, .intLit, .realLit, .stringLit, .kwNil, .kwTrue, .kwFalse, .lParen, .lBrack]

instance (k : Tok) : Decidable (StartsPrimary k) := inferInstanceAs (Decidable (_ ∈ _))

/-- A primary of the text: what stands before the postfixes, and they in their order. -/
inductive PrimaryText : Expr → List Lexeme → Prop
  | head {x : Expr} {L : List Lexeme} (hstarts : ∃ l L', L = l :: L' ∧ StartsPrimary l.kind)
      (h : ∀ n s rest, Spelled L s rest → s.toks.length < n+1 →
        ∃ e, parsePrimary (routines n) s = parsePostfix (routines n) e (s.after rest) ∧
          e.unchecked = x) : PrimaryText x L
  | member {x : Expr} {L : List Lexeme} (h : PrimaryText x L) (name : String) :
      PrimaryText (.member x name) (L ++ [.mark .dot, .ident name])
  | deref {x : Expr} {L : List Lexeme} (h : PrimaryText x L) :
      PrimaryText (.deref x) (L ++ [.mark .caret])
  | index {x y : Expr} {ys : List Expr} {L K : List Lexeme} {Ks : List (List Lexeme)}
      (h : PrimaryText x L) (hy : Reads 0 EndsExpr (·.parseExpr) (·.unchecked) y K)
      (hys : List.Forall₂ (Reads 0 EndsExpr (·.parseExpr) (·.unchecked)) ys Ks) :
      PrimaryText (.index x (y :: ys))
        (L ++ .mark .lBrack :: withCommas (K :: Ks) ++ [.mark .rBrack])
  | call {x : Expr} {L : List Lexeme} {args : List CallArg} {Ks : List (List Lexeme)}
      (h : PrimaryText x L)
      (hargs : List.Forall₂ (Reads 0 EndsItem parseCallArg (·.unchecked)) args Ks) :
      PrimaryText (callOf x args) (L ++ parenthesise (withCommas Ks))

theorem PrimaryText.starts (h : PrimaryText x L) : ∃ l L', L = l :: L' ∧ StartsPrimary l.kind := by
  have left {L K : List Lexeme} : (∃ l L', L = l :: L' ∧ StartsPrimary l.kind) →
      ∃ l L', L ++ K = l :: L' ∧ StartsPrimary l.kind := by
    rintro ⟨l, L', rfl, hl⟩
    exact ⟨l, L' ++ K, rfl, hl⟩
  induction h with
  | head hstarts _ => exact hstarts
  | member _ _ ih => exact left ih
  | deref _ ih => exact left ih
  | index _ _ _ ih => exact left (left ih)
  | call _ _ ih => exact left ih

theorem parseCallArgs_eq (r : Routines) :
    parseCallArgs r = itemsUntil .rParen (parseCallArg r) r.fuel [] := rfl

theorem PrimaryText.run {round : Expr → P (LoopStep Expr Expr)}
    (hpost : ∀ lhs, parsePostfix (routines n) lhs = Parsing.loop round (routines n).fuel lhs)
    (hround : PostfixRounds (routines n) round) (h : PrimaryText x L) (hs : Spelled L s rest)
    (hn : s.toks.length < n+1) :
    ∃ m e, parsePrimary (routines n) s = Parsing.loop round m e (s.after rest) ∧
      rest.length < m ∧ e.unchecked = x := by
  induction h generalizing rest with
  | head hstarts h =>
    obtain ⟨e, he, hx⟩ := h n s rest hs hn
    refine ⟨n+1, e, ?_, by have := hs.length; omega, hx⟩
    rw [he, hpost, routines_fuel]
  | member h name ih =>
    rw [← List.singleton_append, ← List.append_assoc] at hs
    obtain ⟨u, hu, hs⟩ := hs.last
    obtain ⟨t, ht, hL⟩ := hs.last
    obtain ⟨m, lhs, hrun, hm, hlhs⟩ := ih hL
    simp only [List.length_cons] at hm
    obtain ⟨m, rfl⟩ : ∃ m', m = m'+1 := ⟨m-1, by omega⟩
    refine ⟨m, .member lhs name, ?_, by omega, by rw [Expr.unchecked, hlhs]⟩
    rw [hrun, ← text_of_ident hu]
    exact loop_round (hround.member lhs rfl (kind_of_mark ht) (kind_of_ident hu))
  | deref h ih =>
    obtain ⟨t, ht, hL⟩ := hs.last
    obtain ⟨m, lhs, hrun, hm, hlhs⟩ := ih hL
    simp only [List.length_cons] at hm
    obtain ⟨m, rfl⟩ : ∃ m', m = m'+1 := ⟨m-1, by omega⟩
    refine ⟨m, .deref lhs, ?_, by omega, by rw [Expr.unchecked, hlhs]⟩
    rw [hrun]
    exact loop_round (hround.deref lhs rfl (kind_of_mark ht))
  | @index x y ys L K Ks h hy hys ih =>
    obtain ⟨u, hu, hs⟩ := hs.last
    obtain ⟨t, tail, ht, hL, hlist⟩ := hs.middle
    rw [withCommas_cons] at hlist
    obtain ⟨mid, hK, hKs⟩ := hlist.append
    obtain ⟨m, lhs, hrun, hm, hlhs⟩ := ih hL
    have hlt := hL.length
    have hle := hK.length
    have hle' := hKs.length
    simp only [after_toks, List.length_cons] at hlt hle hle' hm
    have hend : EndsExpr (s.after (u :: rest)).cur.kind := by
      rw [after_cur, kind_of_mark hu]
      decide
    have hcomma : (s.after (u :: rest)).cur.kind ≠ .comma := by
      rw [after_cur, kind_of_mark hu]
      decide
    have hfirst := hy.gives n _ mid hK (by simp only [after_toks]; omega)
      (ends_between (by decide) hend hKs)
    have hmore (i : Expr) (hi : i.unchecked = y) :
        Gives (moreAfterCommas (routines n) (routines n).parseExpr [i]) (s.after mid)
          (fun is => is.map (·.unchecked) = y :: ys) (s.after (u :: rest)) := by
      have hgives := moreAfterCommas_gives (n := n) (by decide) hend hcomma hys (routines n) [i] hKs
        (by omega) (by rw [routines_fuel]; omega)
      exact hgives.mono fun is his => his.trans (by simp [hi])
    obtain ⟨is, hagain, his⟩ := hround.index lhs (s := s.after (t :: tail)) rfl (kind_of_mark ht) hfirst
      hmore rfl (kind_of_mark hu)
    obtain ⟨m, rfl⟩ : ∃ m', m = m'+1 := ⟨m-1, by omega⟩
    refine ⟨m, .index lhs is, ?_, by omega, ?_⟩
    · rw [hrun, loop_round hagain]
      rfl
    · rw [unchecked_index, hlhs, his]
  | @call x L args Ks h hargs ih =>
    rw [parenthesise, ← List.append_assoc] at hs
    obtain ⟨u, hu, hs⟩ := hs.last
    obtain ⟨t, tail, ht, hL, hlist⟩ := hs.middle
    obtain ⟨m, lhs, hrun, hm, hlhs⟩ := ih hL
    have hlt := hL.length
    have hle := hlist.length
    simp only [after_toks, List.length_cons] at hlt hle hm
    have hclose : (s.after (u :: rest)).cur.kind = .rParen := by rw [after_cur, kind_of_mark hu]
    have hgives : Gives (parseCallArgs (routines n)) (s.after tail)
        (fun ys => ys.map (·.unchecked) = args) (s.after (u :: rest)) := by
      rw [parseCallArgs_eq]
      exact itemsUntil_gives (by decide) (by decide) (by decide) hclose hargs [] hlist
        (by omega) (by rw [routines_fuel]; omega)
    obtain ⟨ys, q, c, hagain, hys⟩ := hround.call lhs (s := s.after (t :: tail)) rfl (kind_of_mark ht)
      hgives rfl (kind_of_mark hu)
    obtain ⟨m, rfl⟩ : ∃ m', m = m'+1 := ⟨m-1, by omega⟩
    refine ⟨m, .call lhs (ys.map (·.arg)) (ys.map (·.width)) (ys.map (·.precision)) q c, ?_, by omega,
      ?_⟩
    · rw [hrun, loop_round hagain]
      rfl
    · rw [unchecked_call, hlhs, hys]

theorem PrimaryText.factor (h : PrimaryText x L) : FactorText x L where
  opens := by
    obtain ⟨l, L', hL, hl⟩ := h.starts
    refine ⟨l, L', hL, fun hclose => ?_⟩
    cases hk : l.kind <;> simp_all [StartsPrimary]
  gives n s rest hs hn hk := by
    obtain ⟨round, hpost, hround⟩ := parsePostfix_rounds (routines n)
    obtain ⟨m, e, hrun, hm, he⟩ := h.run hpost hround hs hn
    obtain ⟨m, rfl⟩ : ∃ m', m = m'+1 := ⟨m-1, by omega⟩
    refine ⟨e, ?_, he⟩
    obtain ⟨l, L', rfl, hl⟩ := h.starts
    have hprimary : parseFactor (routines n) s = parsePrimary (routines n) s := by
      rw [parseFactor, bind_of curKind_gives, hs.kind]
      generalize l.kind = k at hl
      cases k <;> first | rfl | exact absurd hl (by decide)
    rw [hprimary, hrun]
    exact loop_last (hround.stop e _ hk)

theorem FactorText.phrase_reads (h : FactorText x L) :
    Reads 1 EndsExpr parseExpr (·.unchecked) x L :=
  PhraseText.reads (PhraseText.factor h)

def Lexeme.leaf : Lexeme → Option Expr
  | .ident name | .self name => some (.ident name)
  | .intLit v => some (.intLit v)
  | .realLit text => some (.realLit text)
  | .stringLit v => some (.stringLit v)
  | .mark .kwNil => some .nilLit
  | .mark .kwTrue => some (.boolLit true)
  | .mark .kwFalse => some (.boolLit false)
  | .mark _ => none

theorem Lexeme.leaf_unchecked {l : Lexeme} (h : l.leaf = some x) : x.unchecked = x := by
  unfold Lexeme.leaf at h
  split at h <;> first | (cases h; rfl) | cases h

theorem Lexeme.leaf_starts {l : Lexeme} (h : l.leaf = some x) : StartsPrimary l.kind := by
  unfold Lexeme.leaf at h
  split at h <;> first | exact of_decide_eq_true rfl | cases h

theorem parsePrimary_leaf {r : Routines} {l : Lexeme} (h : l.leaf = some x) (hs : s.toks = t :: tail)
    (ht : t.1.lexeme = l) : parsePrimary r s = parsePostfix r x (s.after tail) := by
  have hkind : t.1.kind = l.kind := ht ▸ (lexeme_kind t.1).symm
  rw [parsePrimary, bind_of cur_gives, cur_of hs]
  unfold Token.lexeme at ht
  unfold Lexeme.leaf at h
  split at h
  all_goals try cases h
  all_goals
    rw [hkind] at ht ⊢
    cases ht
    exact bind_of (advance_gives hs)

theorem PrimaryText.leaf {l : Lexeme} (h : l.leaf = some x) : PrimaryText x [l] := by
  refine .head ⟨l, [], rfl, Lexeme.leaf_starts h⟩ fun n s rest hs _ => ?_
  obtain ⟨t, tail, htoks, ht, hrest⟩ := hs.cons
  cases hrest.nil
  exact ⟨x, parsePrimary_leaf h htoks ht, Lexeme.leaf_unchecked h⟩

theorem PrimaryText.parens (h : Reads 1 EndsExpr parseExpr (·.unchecked) x L) :
    PrimaryText x (parenthesise L) := by
  refine .head ⟨_, _, rfl, by decide⟩ fun n s rest hs hn => ?_
  obtain ⟨t, tail, htoks, ht, hs⟩ := Spelled.cons hs
  obtain ⟨u, hu, hL⟩ := hs.last
  have hend : EndsExpr ((s.after tail).after (u :: rest)).cur.kind := by
    rw [after_cur, kind_of_mark hu]
    decide
  rw [htoks, List.length_cons] at hn
  obtain ⟨e, he, hx⟩ := h.inner.gives n _ _ hL (Nat.lt_of_succ_lt_succ hn) hend
  refine ⟨e, ?_, hx⟩
  rw [parsePrimary, bind_of cur_gives, cur_of htoks]
  simp only [kind_of_mark ht]
  rw [bind_of (advance_gives htoks), bind_of he, bind_of (expect_yes rfl (kind_of_mark hu))]
  rfl

def parseElement (r : Routines) : P Expr := do parseRangeEnd r (← r.parseExpr)

theorem parseSetLiteral_eq (r : Routines) : parseSetLiteral r = (do
    expect .lBrack "set literal"
    let elements ← itemsUntil .rBrack (parseElement r) r.fuel []
    expect .rBrack "set literal"
    return .setLit elements) := by
  simp only [parseSetLiteral, itemsUntil, parseElement, bind_assoc]

theorem PrimaryText.setLit {elements : List Expr} {Ks : List (List Lexeme)}
    (h : List.Forall₂ (Reads 0 EndsItem parseElement (·.unchecked)) elements Ks) :
    PrimaryText (.setLit elements) (.mark .lBrack :: withCommas Ks ++ [.mark .rBrack]) := by
  refine .head ⟨_, _, rfl, by decide⟩ fun n s rest hs hn => ?_
  obtain ⟨t, tail, htoks, ht, hs⟩ := Spelled.cons hs
  obtain ⟨u, hu, hlist⟩ := hs.last
  have hclose : ((s.after tail).after (u :: rest)).cur.kind = .rBrack := by
    rw [after_cur, kind_of_mark hu]
  rw [htoks, List.length_cons] at hn
  obtain ⟨es, hes, hmap⟩ := itemsUntil_gives (m := n+1) (by decide) (by decide) (by decide) hclose
    h [] hlist (Nat.lt_of_succ_lt_succ hn) (by omega)
  simp only [after_after] at hes
  refine ⟨.setLit es, ?_, by rw [unchecked_setLit, hmap]; rfl⟩
  rw [parsePrimary, bind_of cur_gives, cur_of htoks]
  simp only [kind_of_mark ht]
  have hlit : parseSetLiteral (routines n) s = some (.setLit es, s.after rest) := by
    rw [parseSetLiteral_eq, bind_of (expect_yes htoks (kind_of_mark ht)), routines_fuel,
      bind_of hes, bind_of (expect_yes rfl (kind_of_mark hu))]
    rfl
  rw [bind_of hlit]

section
variable {w p : Expr} {W P : List Lexeme}

theorem inner_gives (h : Reads 1 EndsExpr parseExpr (·.unchecked) x L) (hs : Spelled L s rest)
    (hn : s.toks.length < n) (hk : EndsExpr (s.after rest).cur.kind) :
    Gives (routines n).parseExpr s (·.unchecked = x) (s.after rest) :=
  h.inner.gives n s rest hs hn hk

theorem parseElement_single (h : Reads 1 EndsExpr parseExpr (·.unchecked) x L) :
    Reads 0 EndsItem parseElement (·.unchecked) x L where
  opens := h.opens
  gives n s rest hs hn hk := by
    refine Gives.bind (inner_gives h hs hn hk.1) fun e he => ⟨e, ?_, he⟩
    rw [parseRangeEnd, bind_accept_no hk.2.2]
    rfl

theorem parseElement_range (h : Reads 1 EndsExpr parseExpr (·.unchecked) x L)
    (hw : Reads 1 EndsExpr parseExpr (·.unchecked) w W) :
    Reads 0 EndsItem parseElement (·.unchecked) (.range x w) (L ++ .mark .dotDot :: W) where
  opens := by
    obtain ⟨l, L', rfl, hl⟩ := h.opens
    exact ⟨l, _, rfl, hl⟩
  gives n s rest hs hn hk := by
    obtain ⟨t, tail, ht, hL, hW⟩ := hs.middle
    have hend : EndsExpr (s.after (t :: tail)).cur.kind := by
      rw [after_cur, kind_of_mark ht]
      decide
    have hlt := hL.length
    simp only [List.length_cons] at hlt
    refine Gives.bind (inner_gives h hL hn hend) fun lo hlo => ?_
    have hhi := inner_gives (n := n) hw hW (by simp only [after_toks]; omega) hk.1
    obtain ⟨hi, hhi, hx⟩ := hhi
    refine ⟨.range lo hi, ?_, by simp only [Expr.unchecked, hlo, hx]⟩
    rw [parseRangeEnd, bind_accept_yes rfl (kind_of_mark ht)]
    exact bind_of hhi

theorem parseCallArg_plain (h : Reads 1 EndsExpr parseExpr (·.unchecked) x L) :
    Reads 0 EndsItem parseCallArg (·.unchecked) ⟨x, none, none⟩ L where
  opens := h.opens
  gives n s rest hs hn hk := by
    refine Gives.bind (inner_gives h hs hn hk.1) fun e he => ⟨⟨e, none, none⟩, ?_, ?_⟩
    · rw [bind_accept_no hk.2.1]
      rfl
    · simp only [CallArg.unchecked, uncheckedOption, he]

theorem inner_gives_colon (h : Reads 1 EndsExpr parseExpr (·.unchecked) x L)
    (ht : t.1.lexeme = .mark .colon) (hs : Spelled L s (t :: tail)) (hn : s.toks.length < n) :
    Gives (routines n).parseExpr s (·.unchecked = x) (s.after (t :: tail)) := by
  refine inner_gives h hs hn ?_
  rw [after_cur, kind_of_mark ht]
  decide

theorem parseCallArg_width (h : Reads 1 EndsExpr parseExpr (·.unchecked) x L)
    (hw : Reads 1 EndsExpr parseExpr (·.unchecked) w W) :
    Reads 0 EndsItem parseCallArg (·.unchecked) ⟨x, some w, none⟩ (L ++ .mark .colon :: W) where
  opens := by
    obtain ⟨l, L', rfl, hl⟩ := h.opens
    exact ⟨l, _, rfl, hl⟩
  gives n s rest hs hn hk := by
    obtain ⟨t, tail, ht, hL, hW⟩ := hs.middle
    have hlt := hL.length
    simp only [List.length_cons] at hlt
    refine Gives.bind (inner_gives_colon h ht hL hn) fun e he => ?_
    obtain ⟨e', hrun, he'⟩ := inner_gives (n := n) hw hW (by simp only [after_toks]; omega) hk.1
    refine ⟨⟨e, some e', none⟩, ?_, by simp only [CallArg.unchecked, uncheckedOption, he, he']⟩
    rw [bind_accept_yes rfl (kind_of_mark ht), after_after, bind_of hrun, after_after,
      bind_accept_no hk.2.1]
    rfl

theorem parseCallArg_precision (h : Reads 1 EndsExpr parseExpr (·.unchecked) x L)
    (hw : Reads 1 EndsExpr parseExpr (·.unchecked) w W)
    (hp : Reads 1 EndsExpr parseExpr (·.unchecked) p P) :
    Reads 0 EndsItem parseCallArg (·.unchecked) ⟨x, some w, some p⟩
      (L ++ (.mark .colon :: W ++ .mark .colon :: P)) where
  opens := by
    obtain ⟨l, L', rfl, hl⟩ := h.opens
    exact ⟨l, _, rfl, hl⟩
  gives n s rest hs hn hk := by
    rw [← List.append_assoc] at hs
    obtain ⟨u, after, hu, hs, hP⟩ := hs.middle
    obtain ⟨t, tail, ht, hL, hW⟩ := hs.middle
    have hlt := hL.length
    have hle := hW.length
    simp only [after_toks, List.length_cons] at hlt hle
    refine Gives.bind (inner_gives_colon h ht hL hn) fun e he => ?_
    obtain ⟨e', hrun, he'⟩ := inner_gives_colon (n := n) hw hu hW (by simp only [after_toks]; omega)
    obtain ⟨e'', hrun', he''⟩ := inner_gives (n := n) hp hP (by simp only [after_toks]; omega) hk.1
    refine ⟨⟨e, some e', some e''⟩, ?_,
      by simp only [CallArg.unchecked, uncheckedOption, he, he', he'']⟩
    rw [bind_accept_yes rfl (kind_of_mark ht), after_after, bind_of hrun, after_after,
      bind_accept_yes rfl (kind_of_mark hu), after_after]
    exact bind_of hrun'

end

theorem FactorText.unary {op : UnOp} (h : FactorText x L) :
    FactorText (.unary op x false) (.mark op.tok :: L) where
  opens := ⟨_, L, rfl, by cases op <;> decide⟩
  gives n s rest hs hn hk := by
    obtain ⟨t, tail, htoks, ht, hs⟩ := hs.cons
    rw [htoks, List.length_cons] at hn
    obtain ⟨e, he, hx⟩ := h.innerFactor.gives n _ rest hs (Nat.lt_of_succ_lt_succ hn) hk
    rw [Gives, parseFactor, bind_of curKind_gives, cur_of htoks, kind_of_mark ht]
    cases op with
    | not =>
      refine ⟨.unary .not e false, ?_, by simp only [Expr.unchecked, hx]⟩
      exact (bind_of (advance_gives htoks)).trans (bind_of he)
    | neg =>
      refine ⟨.unary .neg e (s.after rest).modes.overflowCheck, ?_, by simp only [Expr.unchecked, hx]⟩
      exact (bind_of (advance_gives htoks)).trans (bind_of he)
    | plus =>
      refine ⟨.unary .plus e (s.after rest).modes.overflowCheck, ?_, by simp only [Expr.unchecked, hx]⟩
      exact (bind_of (advance_gives htoks)).trans (bind_of he)

theorem FactorText.addrOf {double : Bool} (h : FactorText x L) :
    FactorText (.addrOf double x) (.mark (if double then .atAt else .atSign) :: L) where
  opens := ⟨_, L, rfl, by cases double <;> decide⟩
  gives n s rest hs hn hk := by
    obtain ⟨t, tail, htoks, ht, hs⟩ := hs.cons
    rw [htoks, List.length_cons] at hn
    obtain ⟨e, he, hx⟩ := h.innerFactor.gives n _ rest hs (Nat.lt_of_succ_lt_succ hn) hk
    rw [Gives, parseFactor, bind_of curKind_gives, cur_of htoks, kind_of_mark ht]
    refine ⟨.addrOf double e, ?_, by simp only [Expr.unchecked, hx]⟩
    cases double with
    | false => exact (bind_of (advance_gives htoks)).trans (bind_of he)
    | true => exact (bind_of (advance_gives htoks)).trans (bind_of he)

/-- The three readings of one text: as a phrase, where a factor stands and where a primary does. -/
structure TreeReads (t : ExprTree) : Prop where
  phrase : ∀ level, PhraseText (t.phrase level) (t.print level)
  factor : FactorText t.reading (t.print 4)
  primary : PrimaryText t.reading (t.print 5)

theorem TreeReads.expr {t : ExprTree} (h : TreeReads t) :
    Reads 1 EndsExpr parseExpr (·.unchecked) t.reading (t.print 1) :=
  (h.phrase 1).reads

theorem TreeReads.of_primary {t : ExprTree} (hphrase : ∀ level, t.phrase level = factorPhrase t.reading)
    (hprint : ∀ level, t.print level = t.print 5) (h : PrimaryText t.reading (t.print 5)) :
    TreeReads t where
  phrase level := by
    rw [hphrase, hprint]
    exact .factor h.factor
  factor := by
    rw [hprint]
    exact h.factor
  primary := h

theorem TreeReads.of_sign {t : ExprTree} {text : List Lexeme}
    (hphrase : ∀ level, t.phrase level = factorPhrase t.reading)
    (hprint : ∀ level, t.print level = if 4 < level then parenthesise text else text)
    (h : FactorText t.reading text) : TreeReads t := by
  have hprimary := PrimaryText.parens h.phrase_reads
  refine ⟨fun level => ?_, ?_, ?_⟩
  · rw [hphrase, hprint]
    split
    · exact .factor hprimary.factor
    · exact .factor h
  · rw [hprint, if_neg (by decide)]
    exact h
  · rw [hprint, if_pos (by decide)]
    exact hprimary

theorem TreeReads.binary {op : BinOp} {l r : ExprTree} (hl : TreeReads l) (hr : TreeReads r) :
    TreeReads (.binary op l r) := by
  have hlevel : 1 ≤ op.level ∧ op.level ≤ 3 := by cases op <;> decide
  have htext : PhraseText (glue op (l.phrase op.level) (r.phrase (op.level+1)))
      (l.print op.level ++ .mark op.tok :: r.print (op.level+1)) :=
    .glue (hl.phrase op.level) (hr.phrase (op.level+1))
  have hprimary := PrimaryText.parens htext.reads
  have hreading : (ExprTree.binary op l r).reading =
      phraseExpr (glue op (l.phrase op.level) (r.phrase (op.level+1))) := by
    rw [ExprTree.reading, ExprTree.phrase, if_neg (by omega)]
  refine ⟨fun level => ?_, ?_, ?_⟩
  · simp only [ExprTree.phrase, ExprTree.print]
    split
    · exact .factor hprimary.factor
    · exact htext
  · rw [hreading, ExprTree.print, if_pos (by omega)]
    exact hprimary.factor
  · rw [hreading, ExprTree.print, if_pos (by omega)]
    exact hprimary

theorem nameLexeme_leaf (name : String) : (nameLexeme name).leaf = some (.ident name) := by
  unfold nameLexeme
  split <;> rfl

theorem boolLexeme_leaf (b : Bool) :
    (Lexeme.mark (if b then .kwTrue else .kwFalse)).leaf = some (.boolLit b) := by
  cases b <;> rfl

mutual

/-- The parser reads the text of every tree, as the tree of the reading. -/
theorem ExprTree.reads : ∀ t : ExprTree, TreeReads t
  | .ident name => .of_primary (fun _ => rfl) (fun _ => rfl) (.leaf (nameLexeme_leaf name))
  | .intLit _ => .of_primary (fun _ => rfl) (fun _ => rfl) (.leaf rfl)
  | .realLit _ => .of_primary (fun _ => rfl) (fun _ => rfl) (.leaf rfl)
  | .stringLit _ => .of_primary (fun _ => rfl) (fun _ => rfl) (.leaf rfl)
  | .nilLit => .of_primary (fun _ => rfl) (fun _ => rfl) (.leaf rfl)
  | .boolLit b => .of_primary (fun _ => rfl) (fun _ => rfl) (.leaf (boolLexeme_leaf b))
  | .binary _ l r => .binary l.reads r.reads
  | .unary _ x => .of_sign (fun _ => rfl) (fun _ => rfl)
      (.unary (phraseExpr_phrase x 4 ▸ x.reads.factor))
  | .addrOf _ x => .of_sign (fun _ => rfl) (fun _ => rfl)
      (.addrOf (phraseExpr_phrase x 4 ▸ x.reads.factor))
  | .call callee args => .of_primary (fun _ => rfl) (fun _ => rfl)
      (.call (phraseExpr_phrase callee 5 ▸ callee.reads.primary) args.reads)
  | .index base first others => .of_primary (fun _ => rfl) (fun _ => rfl)
      (.index (phraseExpr_phrase base 5 ▸ base.reads.primary) first.reads.expr.inner others.reads)
  | .member base name => .of_primary (fun _ => rfl) (fun _ => rfl)
      (.member (phraseExpr_phrase base 5 ▸ base.reads.primary) name)
  | .deref x => .of_primary (fun _ => rfl) (fun _ => rfl)
      (.deref (phraseExpr_phrase x 5 ▸ x.reads.primary))
  | .setLit elements => .of_primary (fun _ => rfl) (fun _ => rfl) (.setLit elements.reads)

theorem ArgTrees.reads : ∀ args : ArgTrees,
    List.Forall₂ (Reads 0 EndsItem parseCallArg (·.unchecked)) args.readings args.prints
  | .nil => .nil
  | .cons arg format rest => .cons (format.reads arg.reads.expr) rest.reads

theorem FormatTree.reads {x : Expr} {L : List Lexeme}
    (h : Reads 1 EndsExpr parseExpr (·.unchecked) x L) : ∀ format : FormatTree,
    Reads 0 EndsItem parseCallArg (·.unchecked) (format.reading x) (L ++ format.print)
  | .plain => by
    rw [FormatTree.print, List.append_nil]
    exact parseCallArg_plain h
  | .width w => parseCallArg_width h w.reads.expr
  | .precision w p => parseCallArg_precision h w.reads.expr p.reads.expr

theorem IndexTrees.reads : ∀ indices : IndexTrees,
    List.Forall₂ (Reads 0 EndsExpr (·.parseExpr) (·.unchecked)) indices.readings indices.prints
  | .nil => .nil
  | .cons i rest => .cons i.reads.expr.inner rest.reads

theorem ElementTrees.reads : ∀ elements : ElementTrees,
    List.Forall₂ (Reads 0 EndsItem parseElement (·.unchecked)) elements.readings elements.prints
  | .nil => .nil
  | .single e rest => .cons (parseElement_single e.reads.expr) rest.reads
  | .range lo hi rest => .cons (parseElement_range lo.reads.expr hi.reads.expr) rest.reads

end

end
end Tp2cc
