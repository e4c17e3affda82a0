import Tp2cc.Parser.ExprTree
import Tp2cc.Parser.Unit
import Tp2cc.Parsing.Chain

set_option autoImplicit false

namespace Tp2cc
open Machine Parsing

def PState.after (s : PState) (rest : List SourceToken) : PState :=
  { s with toks := rest, havePeek := false }

section
variable {s : PState} {t : SourceToken} {tail mid rest : List SourceToken} {L L' : List Lexeme}
  {l : Lexeme} {k : Tok} {ctx : String}

@[simp] theorem after_toks : (s.after rest).toks = rest := rfl
@[simp] theorem after_after : (s.after mid).after rest = s.after rest := rfl
@[simp] theorem after_cur : (s.after (t :: tail)).cur = t.1 := rfl

theorem cur_of (h : s.toks = t :: tail) : s.cur = t.1 := by
  rw [PState.cur, h]

/-- The tokens before the rest read as the text. -/
def Spelled (L : List Lexeme) (s : PState) (rest : List SourceToken) : Prop :=
  ∃ T : List SourceToken, s.toks = T ++ rest ∧ T.map (·.1.lexeme) = L

theorem Spelled.nil (h : Spelled [] s rest) : s.toks = rest := by
  obtain ⟨T, hs, hT⟩ := h
  rw [List.map_eq_nil_iff.mp hT] at hs
  exact hs

theorem Spelled.cons (h : Spelled (l :: L) s rest) :
    ∃ t tail, s.toks = t :: tail ∧ t.1.lexeme = l ∧ Spelled L (s.after tail) rest := by
  obtain ⟨T, hs, hT⟩ := h
  obtain ⟨t, T, rfl, ht, hT⟩ := List.map_eq_cons_iff.mp hT
  exact ⟨t, T ++ rest, hs, ht, T, rfl, hT⟩

theorem Spelled.append (h : Spelled (L ++ L') s rest) :
    ∃ mid, Spelled L s mid ∧ Spelled L' (s.after mid) rest := by
  obtain ⟨T, hs, hT⟩ := h
  obtain ⟨T₁, T₂, rfl, h₁, h₂⟩ := List.map_eq_append_iff.mp hT
  exact ⟨T₂ ++ rest, ⟨T₁, by rw [hs, List.append_assoc], h₁⟩, T₂, rfl, h₂⟩

theorem Spelled.middle (h : Spelled (L ++ l :: L') s rest) :
    ∃ t tail, t.1.lexeme = l ∧ Spelled L s (t :: tail) ∧ Spelled L' (s.after tail) rest := by
  obtain ⟨mid, hL, hL'⟩ := h.append
  obtain ⟨t, tail, hmid, ht, hL'⟩ := hL'.cons
  cases hmid
  exact ⟨t, tail, ht, hL, hL'⟩

theorem Spelled.last (h : Spelled (L ++ [l]) s rest) :
    ∃ t, t.1.lexeme = l ∧ Spelled L s (t :: rest) := by
  obtain ⟨t, tail, ht, hL, hrest⟩ := h.middle
  cases hrest.nil
  exact ⟨t, ht, hL⟩

theorem kind_of_mark (h : t.1.lexeme = .mark k) : t.1.kind = k := by
  rw [← lexeme_kind, h, Lexeme.kind]

theorem kind_of_ident {name : String} (h : t.1.lexeme = .ident name) : t.1.kind = .ident := by
  rw [← lexeme_kind, h, Lexeme.kind]

theorem text_of_ident {name : String} (h : t.1.lexeme = .ident name) : t.1.text = name := by
  simpa [Token.lexeme, kind_of_ident h] using h

theorem Spelled.length (h : Spelled L s rest) : s.toks.length = L.length + rest.length := by
  obtain ⟨T, hs, rfl⟩ := h
  rw [hs, List.length_append, List.length_map]

theorem Spelled.kind (h : Spelled (l :: L) s rest) : s.cur.kind = l.kind := by
  obtain ⟨t, tail, hs, ht, -⟩ := h.cons
  rw [cur_of hs, ← ht, lexeme_kind]

theorem Spelled.not_eof (h : Spelled (l :: L) s rest) : s.cur.kind ≠ .eof := by
  obtain ⟨t, tail, hs, -, -⟩ := h.cons
  rw [cur_of hs]
  exact t.2

theorem cur_gives : cur s = some (s.cur, s) := rfl

theorem curKind_gives : curKind s = some (s.cur.kind, s) := rfl

theorem advance_gives (h : s.toks = t :: tail) : advance s = some ((), s.after tail) := by
  simp only [advance, PState.after, h, List.tail_cons]

theorem check_gives : check k s = some (decide (s.cur.kind = k), s) := rfl

theorem accept_yes (h : s.toks = t :: tail) (hk : t.1.kind = k) :
    accept k s = some (true, s.after tail) := by
  rw [accept, bind_of check_gives, cur_of h, hk, decide_eq_true rfl, if_pos rfl,
    bind_of (advance_gives h)]
  rfl

theorem accept_no (h : s.cur.kind ≠ k) : accept k s = some (false, s) := by
  rw [accept, bind_of check_gives, decide_eq_false h]
  rfl

theorem bind_accept_yes {β : Type} {q q' : P β} (h : s.toks = t :: tail) (hk : t.1.kind = k) :
    (accept k >>= fun b => if b = true then q else q') s = q (s.after tail) := by
  rw [bind_of (accept_yes h hk), if_pos rfl]

theorem bind_accept_no {β : Type} {q q' : P β} (h : s.cur.kind ≠ k) :
    (accept k >>= fun b => if b = true then q else q') s = q' s := by
  rw [bind_of (accept_no h), if_neg Bool.false_ne_true]

theorem expect_yes (h : s.toks = t :: tail) (hk : t.1.kind = k) :
    expect k ctx s = some ((), s.after tail) := by
  rw [expect, bind_of check_gives, cur_of h, hk, decide_eq_true rfl, if_pos rfl]
  exact advance_gives h

theorem consumeIdent_gives (h : s.toks = t :: tail) (hk : t.1.kind = .ident) :
    consumeIdent ctx s = some (t.1.text, s.after tail) := by
  rw [consumeIdent, bind_of cur_gives, cur_of h, if_pos hk, bind_of (advance_gives h)]
  rfl

theorem overflowCheckActive_gives :
    overflowCheckActive s = some (s.modes.overflowCheck, s) := rfl

theorem rangeCheckActive_gives : rangeCheckActive s = some (s.modes.rangeCheck, s) := rfl

theorem atEndOr_no {ts : List Tok} (h : s.cur.kind ≠ .eof) (ht : s.cur.kind ∉ ts) :
    atEndOr ts s = some (false, s) := by
  simp [atEndOr, h, ht]

theorem atEndOr_yes {ts : List Tok} (ht : s.cur.kind ∈ ts) : atEndOr ts s = some (true, s) := by
  simp [atEndOr, ht]

end

@[simp] theorem routines_fuel (n : Nat) : (routines n).fuel = n+1 := by
  cases n <;> rfl

section
variable {α β : Type}

def Opens (k : Tok) : Prop := k ∉ [Tok.rParen, .rBrack]

instance (k : Tok) : Decidable (Opens k) := inferInstanceAs (Decidable (_ ∉ _))

/-- With more tokens before it than `depth` routines need, the parser reads `x`, up to `f`,
from the text, where a token follows that ends it. -/
structure Reads (depth : Nat) (ends : Tok → Prop) (p : Routines → P α) (f : α → β) (x : β)
    (L : List Lexeme) : Prop where
  opens : ∃ l L', L = l :: L' ∧ Opens l.kind
  gives : ∀ n s rest, Spelled L s rest → s.toks.length < n + depth →
    ends (s.after rest).cur.kind → Gives (p (routines n)) s (fun a => f a = x) (s.after rest)

variable {depth n : Nat} {ends ends' : Tok → Prop} {p : Routines → P α} {f : α → β} {x : β}
  {L : List Lexeme} {s : PState} {rest : List SourceToken}

theorem Reads.mono (h : Reads depth ends p f x L) (he : ∀ k, ends' k → ends k) :
    Reads depth ends' p f x L :=
  ⟨h.opens, fun n s rest hs hn hk => h.gives n s rest hs hn (he _ hk)⟩

theorem Reads.current (h : Reads depth ends p f x L) (hs : Spelled L s rest) :
    s.cur.kind ≠ .eof ∧ Opens s.cur.kind := by
  obtain ⟨l, L', rfl, hl⟩ := h.opens
  exact ⟨hs.not_eof, hs.kind ▸ hl⟩

theorem Reads.rest_lt (h : Reads depth ends p f x L) (hs : Spelled L s rest) :
    rest.length < s.toks.length := by
  obtain ⟨l, L', rfl, hl⟩ := h.opens
  have := hs.length
  simp only [List.length_cons] at this
  omega

theorem Reads.inner {e : Expr} {f : Expr → Expr} (h : Reads 1 ends parseExpr f e L) :
    Reads 0 ends (·.parseExpr) f e L where
  opens := h.opens
  gives n s rest hs hn hk := by
    cases n with
    | zero => exact absurd hn (Nat.not_lt_zero _)
    | succ n => exact h.gives n s rest hs hn hk

theorem Reads.innerFactor {e : Expr} {f : Expr → Expr} (h : Reads 1 ends parseFactor f e L) :
    Reads 0 ends (·.parseFactor) f e L where
  opens := h.opens
  gives n s rest hs hn hk := by
    cases n with
    | zero => exact absurd hn (Nat.not_lt_zero _)
    | succ n => exact h.gives n s rest hs hn hk

end
end Tp2cc
