import Tp2cc.Parser.Spelled
import Tp2cc.Parser.ExprReading
import Mathlib.Data.List.Forall2

set_option autoImplicit false

namespace Tp2cc
open Machine Parsing

def EndsPostfix (k : Tok) : Prop := k ∉ [Tok.dot, .caret, .lBrack, .lParen]

def EndsTerm (k : Tok) : Prop := EndsPostfix k ∧ multiplicativeOperator k = none
def EndsSimple (k : Tok) : Prop := EndsTerm k ∧ additiveOperator k = none
def EndsExpr (k : Tok) : Prop := EndsSimple k ∧ relationalOperator k = none

def EndsItem (k : Tok) : Prop := EndsExpr k ∧ k ≠ .colon ∧ k ≠ .dotDot

instance (k : Tok) : Decidable (EndsPostfix k) := inferInstanceAs (Decidable (_ ∉ _))
instance (k : Tok) : Decidable (EndsTerm k) := inferInstanceAs (Decidable (_ ∧ _))
instance (k : Tok) : Decidable (EndsSimple k) := inferInstanceAs (Decidable (_ ∧ _))
instance (k : Tok) : Decidable (EndsExpr k) := inferInstanceAs (Decidable (_ ∧ _))
instance (k : Tok) : Decidable (EndsItem k) := inferInstanceAs (Decidable (_ ∧ _))

section
variable {operator : Tok → Option BinOp} {operand : Routines → P Expr} {ends : Tok → Prop}
  {n : Nat} {s : PState} {rest : List SourceToken}

structure LevelRounds (operator : Tok → Option BinOp) (operand : P Expr)
    (round : Expr → P (LoopStep Expr Expr)) : Prop where
  stop : ∀ lhs s, operator s.cur.kind = none → round lhs s = some (.done lhs, s)
  again : ∀ {lhs : Expr} {s s' : PState} {t : SourceToken} {tail : List SourceToken} {op : BinOp}
    {Q : Expr → Prop}, s.toks = t :: tail → operator t.1.kind = some op →
    Gives operand (s.after tail) Q s' →
    ∃ rhs q, round lhs s = some (.again (.binary op lhs rhs q), s') ∧ Q rhs

theorem parseBinaryLevel_rounds (r : Routines) (operator : Tok → Option BinOp)
    (operand : P Expr) : ∃ round, parseBinaryLevel r operator operand =
      (operand >>= fun lhs => Parsing.loop round r.fuel lhs) ∧ LevelRounds operator operand round := by
  refine ⟨_, rfl, ?_, ?_⟩
  · intro lhs s h
    rw [bind_of curKind_gives, h]
    rfl
  · intro lhs s s' t tail op Q hs ht hop
    obtain ⟨rhs, hrhs, hQ⟩ := hop
    refine ⟨rhs, s'.modes.overflowCheck, ?_, hQ⟩
    rw [bind_of curKind_gives, cur_of hs, ht]
    simp only
    rw [bind_of (advance_gives hs), bind_of hrhs, bind_of overflowCheckActive_gives]
    rfl

variable {α : Type} {A : α → List Lexeme → Prop} {leaf : α → Expr}

/-- The loop has taken the chain, and the tree that it holds leans to the left. -/
theorem level_run {round : Expr → P (LoopStep Expr Expr)}
    (hround : LevelRounds operator (operand (routines n)) round)
    (hends : ∀ k op, operator k = some op → ends k)
    (hA : ∀ a T, A a T → Reads 1 ends operand (·.unchecked) (leaf a) T)
    {c : Chain BinOp α} {L : List Lexeme} (hc : Chain.Spells (fun l => operator l.kind) A c L)
    (hs : Spelled L s rest) (hn : s.toks.length < n+1) (hk : ends (s.after rest).cur.kind) :
    ∃ m e, (operand (routines n) >>= fun lhs => Parsing.loop round (n+1) lhs) s =
        Parsing.loop round m e (s.after rest) ∧ rest.length < m ∧ e.unchecked = c.fold leaf node := by
  induction hc generalizing rest with
  | one ha =>
    obtain ⟨e, he, hx⟩ := (hA _ _ ha).gives n s rest hs hn hk
    exact ⟨n+1, e, bind_of he, by have := hs.length; omega, hx⟩
  | @more c op a T U t hc ht ha ih =>
    obtain ⟨t, tail, rfl, hL, hrest⟩ := hs.middle
    rw [lexeme_kind] at ht
    obtain ⟨m, lhs, hrun, hm, hlhs⟩ := ih hL (hends _ _ ht)
    have hlt := hL.length
    have hle := hrest.length
    simp only [after_toks, List.length_cons] at hlt hle hm
    obtain ⟨rhs, q, hagain, hrhs⟩ : ∃ rhs q, round lhs (s.after (t :: tail)) =
        some (.again (.binary op lhs rhs q), s.after rest) ∧ rhs.unchecked = leaf a :=
      hround.again rfl ht ((hA _ _ ha).gives n _ rest hrest (by simp only [after_toks]; omega) hk)
    obtain ⟨m, rfl⟩ : ∃ m', m = m'+1 := ⟨m-1, by omega⟩
    refine ⟨m, .binary op lhs rhs q, ?_, by omega, ?_⟩
    · rw [hrun, loop_round hagain]
    · simp only [Expr.unchecked, hlhs, hrhs, Chain.fold, node]

theorem level_reads (hends : ∀ k op, operator k = some op → ends k)
    (hA : ∀ a T, A a T → Reads 1 ends operand (·.unchecked) (leaf a) T)
    {c : Chain BinOp α} {L : List Lexeme} (hc : Chain.Spells (fun l => operator l.kind) A c L) :
    Reads 1 (fun k => ends k ∧ operator k = none)
      (fun r => parseBinaryLevel r operator (operand r)) (·.unchecked) (c.fold leaf node) L where
  opens := by
    induction hc with
    | one ha => exact (hA _ _ ha).opens
    | more _ _ _ ih =>
      obtain ⟨l, L', rfl, hl⟩ := ih
      exact ⟨l, _, rfl, hl⟩
  gives n s rest hs hn hk := by
    obtain ⟨round, heq, hround⟩ := parseBinaryLevel_rounds (routines n) operator (operand (routines n))
    obtain ⟨m, e, hrun, hm, he⟩ := level_run hround hends hA hc hs hn hk.1
    obtain ⟨m, rfl⟩ : ∃ m', m = m'+1 := ⟨m-1, by omega⟩
    refine ⟨e, ?_, he⟩
    rw [heq, routines_fuel, hrun]
    exact loop_last (hround.stop e _ hk.2)

abbrev FactorText : Expr → List Lexeme → Prop := Reads 1 EndsPostfix parseFactor (·.unchecked)

abbrev TermText : TermChain → List Lexeme → Prop :=
  Chain.Spells (fun l => multiplicativeOperator l.kind) FactorText

abbrev SimpleText : SimpleChain → List Lexeme → Prop :=
  Chain.Spells (fun l => additiveOperator l.kind) TermText

abbrev PhraseText : Phrase → List Lexeme → Prop :=
  Chain.Spells (fun l => relationalOperator l.kind) SimpleText

theorem multiplicative_ends (k : Tok) (op : BinOp) (h : multiplicativeOperator k = some op) :
    EndsPostfix k := by
  cases k <;> first | decide | cases h

theorem additive_ends (k : Tok) (op : BinOp) (h : additiveOperator k = some op) :
    EndsTerm k := by
  cases k <;> first | decide | cases h

theorem relational_ends (k : Tok) (op : BinOp) (h : relationalOperator k = some op) :
    EndsSimple k := by
  cases k <;> first | decide | cases h

theorem TermText.reads {c : TermChain} {L : List Lexeme} (h : TermText c L) :
    Reads 1 EndsTerm parseTerm (·.unchecked) (termExpr c) L :=
  level_reads multiplicative_ends (fun _ _ => id) h

theorem SimpleText.reads {c : SimpleChain} {L : List Lexeme} (h : SimpleText c L) :
    Reads 1 EndsSimple parseSimpleExpr (·.unchecked) (simpleExpr c) L :=
  level_reads additive_ends (fun _ _ h => TermText.reads h) h

theorem PhraseText.reads {c : Phrase} {L : List Lexeme} (h : PhraseText c L) :
    Reads 1 EndsExpr parseExpr (·.unchecked) (phraseExpr c) L :=
  level_reads relational_ends (fun _ _ h => SimpleText.reads h) h

theorem PhraseText.factor {e : Expr} {L : List Lexeme} (h : FactorText e L) :
    PhraseText (factorPhrase e) L :=
  .one (.one (.one h))

theorem PhraseText.glue {op : BinOp} {c d : Phrase} {T U : List Lexeme} (hc : PhraseText c T)
    (hd : PhraseText d U) : PhraseText (glue op c d) (T ++ .mark op.tok :: U) := by
  unfold Tp2cc.glue
  split
  · rename_i h
    refine hc.append ?_ hd
    cases op <;> first | rfl | cases h
  · split
    · rename_i h
      refine Chain.Spells.join (fun ha hb => ha.append ?_ hb) hc hd
      cases op <;> first | rfl | cases h
    · rename_i h h'
      refine Chain.Spells.join (Chain.Spells.join fun ha hb => ha.append ?_ hb) hc hd
      cases op <;> first | rfl | exact absurd rfl h | exact absurd rfl h'

end

/-! Lists with commas between. -/
section
variable {α β : Type} {ends : Tok → Prop} {item : Routines → P α} {f : α → β} {xs : List β}
  {Ls : List (List Lexeme)} {n : Nat} {s : PState} {rest : List SourceToken}

theorem withCommas_cons (L : List Lexeme) (Ls : List (List Lexeme)) :
    withCommas (L :: Ls) = L ++ Ls.flatMap (.mark .comma :: ·) := by
  induction Ls generalizing L with
  | nil => simp [withCommas]
  | cons L' Ls ih =>
    have hih := ih L'
    unfold withCommas at hih ⊢
    rw [List.intercalate_cons_cons, hih, List.flatMap_cons]
    simp

/-- `while (!at_end() && !check(close)) { xs.push_back(item()); if (!accept(Tok::Comma)) break; }` -/
def itemsUntil (close : Tok) (item : P α) : Nat → List α → P (List α) :=
  Parsing.loop (fun xs => do
    if ← atEndOr [close] then return .done xs
    else do
      let x ← item
      if ← accept .comma then return .again (xs ++ [x])
      else return .done (xs ++ [x]))

theorem itemsUntil_done {close : Tok} {item : P α} {m : Nat} {acc : List α}
    (h : s.cur.kind = close) : itemsUntil close item (m+1) acc s = some (acc, s) := by
  refine loop_last ?_
  rw [bind_of (atEndOr_yes (by simp [h]))]
  rfl

theorem itemsUntil_item {close : Tok} {item : P α} {m : Nat} {acc : List α} {x : α} {s' : PState}
    (heof : s.cur.kind ≠ .eof) (hclose : s.cur.kind ≠ close) (hx : item s = some (x, s')) :
    itemsUntil close item (m+1) acc s =
      if s'.cur.kind = .comma then itemsUntil close item m (acc ++ [x]) (s'.after s'.toks.tail)
      else some (acc ++ [x], s') := by
  split
  · rename_i h
    obtain ⟨t, tail, hs⟩ := List.exists_cons_of_length_pos (toks_pos (s := s') (by simp [h]))
    refine loop_round ?_
    rw [bind_of (atEndOr_no heof (by simpa using hclose))]
    simp only [Bool.false_eq_true, if_false]
    rw [bind_of hx, bind_accept_yes hs (by rw [← cur_of hs, h]), hs]
    rfl
  · rename_i h
    refine loop_last ?_
    rw [bind_of (atEndOr_no heof (by simpa using hclose))]
    simp only [Bool.false_eq_true, if_false]
    rw [bind_of hx, bind_accept_no h]
    rfl

theorem itemsUntil_gives {close : Tok} (hclose : ¬ Opens close) (hcomma : ends .comma)
    (hend : ends close) (hrest : (s.after rest).cur.kind = close)
    (h : List.Forall₂ (Reads 0 ends item f) xs Ls) {mid : List SourceToken} {m : Nat}
    (acc : List α) (hs : Spelled (withCommas Ls) (s.after mid) rest) (hn : mid.length < n)
    (hm : mid.length < m) :
    Gives (itemsUntil close (item (routines n)) m acc) (s.after mid)
      (fun ys => ys.map f = acc.map f ++ xs) (s.after rest) := by
  obtain ⟨m, rfl⟩ : ∃ m', m = m'+1 := ⟨m-1, by omega⟩
  induction h generalizing mid m acc with
  | nil =>
    cases hs.nil
    exact ⟨acc, itemsUntil_done hrest, by simp⟩
  | @cons x L xs Ls hx hxs ih =>
    have hne : Tok.comma ≠ close := by
      rintro rfl
      exact hclose (by decide)
    have at_item {after : List SourceToken} (hL : Spelled L (s.after mid) after)
        (hk : ends (s.after after).cur.kind) : ∃ y, f y = x ∧
          itemsUntil close (item (routines n)) (m+1) acc (s.after mid) =
            if (s.after after).cur.kind = .comma then
              itemsUntil close (item (routines n)) m (acc ++ [y]) (s.after after.tail)
            else some (acc ++ [y], s.after after) := by
      obtain ⟨heof, hopens⟩ := hx.current hL
      obtain ⟨y, hy, hfy⟩ := hx.gives n _ after hL hn hk
      refine ⟨y, hfy, itemsUntil_item heof (fun he => ?_) hy⟩
      exact hclose (he ▸ hopens)
    cases hxs with
    | nil =>
      rw [withCommas_cons, List.flatMap_nil, List.append_nil] at hs
      obtain ⟨y, hfy, hrun⟩ := at_item hs (hrest ▸ hend)
      rw [if_neg (by rw [hrest]; exact hne.symm)] at hrun
      exact ⟨acc ++ [y], hrun, by simp [hfy]⟩
    | @cons x' L' xs Ls hx' hxs =>
      rw [withCommas_cons, List.flatMap_cons, List.cons_append, ← withCommas_cons] at hs
      obtain ⟨t, tail, ht, hL, htail⟩ := hs.middle
      have hcur : (s.after (t :: tail)).cur.kind = .comma := by
        rw [after_cur, kind_of_mark ht]
      obtain ⟨y, hfy, hrun⟩ := at_item hL (hcur ▸ hcomma)
      rw [if_pos hcur] at hrun
      have hlt := hx.rest_lt hL
      simp only [after_toks, List.length_cons] at hlt
      obtain ⟨m, rfl⟩ : ∃ m', m = m'+1 := ⟨m-1, by omega⟩
      obtain ⟨ys, hys, hmap⟩ := ih (acc ++ [y]) htail (by omega) m (by omega)
      exact ⟨ys, hrun.trans hys, hmap.trans (by simp [hfy])⟩

theorem ends_between (hcomma : ends .comma) (hend : ends (s.after rest).cur.kind)
    {mid : List SourceToken} (hs : Spelled (Ls.flatMap (.mark .comma :: ·)) (s.after mid) rest) :
    ends (s.after mid).cur.kind := by
  cases Ls with
  | nil =>
    cases hs.nil
    exact hend
  | cons L Ls =>
    rw [List.flatMap_cons] at hs
    exact hs.kind ▸ hcomma

theorem moreAfterCommas_gives (hcomma : ends .comma) (hend : ends (s.after rest).cur.kind)
    (hrest : (s.after rest).cur.kind ≠ .comma)
    (h : List.Forall₂ (Reads 0 ends item f) xs Ls) {mid : List SourceToken} (r : Routines)
    (acc : List α) (hs : Spelled (Ls.flatMap (.mark .comma :: ·)) (s.after mid) rest)
    (hn : mid.length < n) (hm : mid.length < r.fuel) :
    Gives (moreAfterCommas r (item (routines n)) acc) (s.after mid)
      (fun ys => ys.map f = acc.map f ++ xs) (s.after rest) := by
  unfold moreAfterCommas
  generalize r.fuel = m at hm
  obtain ⟨m, rfl⟩ : ∃ m', m = m'+1 := ⟨m-1, by omega⟩
  induction h generalizing mid m acc with
  | nil =>
    cases hs.nil
    refine ⟨acc, loop_last ?_, by simp⟩
    simp only [after_toks] at hrest ⊢
    rw [bind_accept_no hrest]
    rfl
  | @cons x L xs Ls hx hxs ih =>
    rw [List.flatMap_cons, List.cons_append] at hs
    obtain ⟨t, tail, hmid, ht, hs⟩ := hs.cons
    cases hmid
    obtain ⟨after, hL, hmore⟩ := hs.append
    have hk : ends (s.after after).cur.kind := ends_between hcomma hend hmore
    have hlt := hx.rest_lt hL
    simp only [after_toks, List.length_cons] at hlt hn hm
    obtain ⟨m, rfl⟩ : ∃ m', m = m'+1 := ⟨m-1, by omega⟩
    obtain ⟨y, hy, hfy⟩ := hx.gives n _ after hL (by simp only [after_toks]; omega) hk
    obtain ⟨ys, hys, hmap⟩ := @ih after (acc ++ [y]) hmore (by omega) m (by omega)
    refine ⟨ys, (loop_round ?_).trans hys, hmap.trans (by simp [hfy])⟩
    rw [bind_accept_yes (s := s.after (t :: tail)) rfl (kind_of_mark ht), bind_of hy]
    rfl

end
end Tp2cc
