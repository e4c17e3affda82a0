import Tp2cc.Parser.ExprText

/-! Which trees the parser reads back from their text: those in which no `as` expression stands
where its operator would have to bind tighter than a relational one. -/
set_option autoImplicit false

namespace Tp2cc
open Machine Parsing

def ExprTree.isAs : ExprTree → Bool
  | .binary .as _ _ => true
  | _ => false

/-- Next to an operator no operand is an `as` expression that the text leaves without
parentheses and that the operator would take apart. -/
def asSafeAt (op : BinOp) (l r : ExprTree) : Bool :=
  match op.level with
  | 1 => !r.isAs
  | 2 => !l.isAs && !r.isAs
  | _ => op = .as || !l.isAs

mutual

/-- No `as` expression is an operand of an additive operator, the left operand of another
multiplicative operator or the right operand of a relational one, anywhere in the tree. -/
def ExprTree.asSafe : ExprTree → Bool
  | .binary op l r => asSafeAt op l r && l.asSafe && r.asSafe
  | .unary _ x | .addrOf _ x | .deref x | .member x _ => x.asSafe
  | .call callee args => callee.asSafe && args.asSafe
  | .index base first others => base.asSafe && first.asSafe && others.asSafe
  | .setLit elements => elements.asSafe
  | .ident _ | .intLit _ | .realLit _ | .stringLit _ | .nilLit | .boolLit _ => true

def ArgTrees.asSafe : ArgTrees → Bool
  | .nil => true
  | .cons arg format rest => arg.asSafe && format.asSafe && rest.asSafe

def FormatTree.asSafe : FormatTree → Bool
  | .plain => true
  | .width w => w.asSafe
  | .precision w p => w.asSafe && p.asSafe

def IndexTrees.asSafe : IndexTrees → Bool
  | .nil => true
  | .cons i rest => i.asSafe && rest.asSafe

def ElementTrees.asSafe : ElementTrees → Bool
  | .nil => true
  | .single e rest => e.asSafe && rest.asSafe
  | .range lo hi rest => lo.asSafe && hi.asSafe && rest.asSafe

end

section
variable {op : BinOp} {c d : Phrase} {t l r : ExprTree} {level : Nat}

theorem glue_relational (h : op.level = 1 ∨ op = .as) : glue op c d = .append op c d := by
  cases op <;> first | rfl | (rcases h with h | h <;> cases h)

theorem glue_additive (h : op.level = 2) : glue op c d = .join (.append op) c d := by
  cases op <;> first | rfl | cases h

theorem glue_multiplicative (h : op.level = 3) (has : op ≠ .as) :
    glue op c d = .join (.join (.append op)) c d := by
  cases op <;> first | rfl | exact absurd rfl has | cases h

/-- The shape of a phrase above the relational level: only `as` is a relational operator of it, and
above the additive level no other level shows either. -/
structure PhraseShape (level : Nat) (c : Phrase) : Prop where
  relational : 2 ≤ level → c.lastOp = none ∨ c.lastOp = some .as
  additive : 3 ≤ level → ∀ x, c = .one x → x.lastOp = none
  factor : 4 ≤ level → ∃ e, c = factorPhrase e

theorem PhraseShape.ofFactor (e : Expr) : PhraseShape level (factorPhrase e) where
  relational _ := .inl rfl
  additive _ x h := by
    cases h
    rfl
  factor _ := ⟨e, rfl⟩

theorem BinOp.level_bounds (op : BinOp) : 1 ≤ op.level ∧ op.level ≤ 3 := by
  cases op <;> decide

theorem lastOp_or {x y : Option BinOp} (hx : x = none ∨ x = some .as)
    (hy : y = none ∨ y = some .as) : x.or y = none ∨ x.or y = some .as := by
  obtain rfl | rfl := hx
  · simpa using hy
  · exact .inr rfl

theorem PhraseShape.glue (hc : PhraseShape op.level c) (hd : PhraseShape (op.level+1) d)
    (hlevel : level ≤ op.level) : PhraseShape level (glue op c d) where
  relational h := by
    have hd' := hd.relational (by omega)
    have hc' := hc.relational (by omega)
    by_cases has : op = .as
    · rw [glue_relational (.inr has), Chain.lastOp_append, has]
      exact lastOp_or hd' (.inr rfl)
    · have := op.level_bounds
      obtain h2 | h3 : op.level = 2 ∨ op.level = 3 := by omega
      · rw [glue_additive h2, Chain.lastOp_join]
        exact lastOp_or hd' hc'
      · rw [glue_multiplicative h3 has, Chain.lastOp_join]
        exact lastOp_or hd' hc'
  additive h x hx := by
    have h3 : op.level = 3 := Nat.le_antisymm op.level_bounds.2 (by omega)
    obtain ⟨f, rfl⟩ := hd.factor (by omega)
    by_cases has : op = .as
    · rw [glue_relational (.inr has)] at hx
      cases hx
    · rw [glue_multiplicative h3 has] at hx
      cases c with
      | one z =>
        cases hx
        rw [Chain.lastOp_join, hc.additive (by omega) z rfl]
        rfl
      | more c op' z => cases hx
  factor h := absurd op.level_bounds.2 (by omega)

theorem phrase_shape : ∀ (t : ExprTree) (level : Nat), PhraseShape level (t.phrase level)
  | .binary op l r, level => by
    simp only [ExprTree.phrase]
    split
    · exact .ofFactor _
    · exact .glue (phrase_shape l _) (phrase_shape r _) (by omega)
  | .unary _ _, _ | .addrOf _ _, _ | .call _ _, _ | .index _ _ _, _ | .member _ _, _ | .deref _, _
  | .setLit _, _ | .ident _, _ | .intLit _, _ | .realLit _, _ | .stringLit _, _ | .nilLit, _
  | .boolLit _, _ => .ofFactor _

theorem isAs_lastOp (h : t.isAs) (hlevel : level ≤ 3) : (t.phrase level).lastOp = some .as := by
  unfold ExprTree.isAs at h
  split at h
  · rename_i l r
    have hd := (phrase_shape r 4).factor (by decide)
    obtain ⟨e, hd⟩ := hd
    simp only [ExprTree.phrase]
    rw [if_neg (by simp [BinOp.level]; omega), glue_relational (.inr rfl), Chain.lastOp_append]
    simp only [BinOp.level]
    rw [hd]
    rfl
  · cases h

theorem asSafe_lastOp : ∀ {t : ExprTree} {level : Nat}, t.asSafe → ¬t.isAs → 2 ≤ level →
    (t.phrase level).lastOp = none
  | .binary op l r, level, hsafe, has, hlevel => by
    simp only [ExprTree.phrase]
    split
    · rfl
    · simp only [ExprTree.asSafe, Bool.and_eq_true] at hsafe
      have hop : op ≠ .as := by
        rintro rfl
        exact has rfl
      have := op.level_bounds
      obtain h2 | h3 : op.level = 2 ∨ op.level = 3 := by omega
      · have hat : ¬l.isAs ∧ ¬r.isAs := by simpa [asSafeAt, h2] using hsafe.1.1
        rw [glue_additive h2, Chain.lastOp_join, asSafe_lastOp hsafe.1.2 hat.1 (by omega),
          asSafe_lastOp hsafe.2 hat.2 (by omega)]
        rfl
      · have hat : ¬l.isAs := by simpa [asSafeAt, h3, hop] using hsafe.1.1
        obtain ⟨f, hf⟩ := (phrase_shape r (op.level+1)).factor (by omega)
        rw [glue_multiplicative h3 hop, Chain.lastOp_join, hf,
          asSafe_lastOp hsafe.1.2 hat (by omega)]
        rfl
  | .unary _ _, _, _, _, _ | .addrOf _ _, _, _, _, _ | .call _ _, _, _, _, _
  | .index _ _ _, _, _, _, _ | .member _ _, _, _, _, _ | .deref _, _, _, _, _
  | .setLit _, _, _, _, _ | .ident _, _, _, _, _ | .intLit _, _, _, _, _ | .realLit _, _, _, _, _
  | .stringLit _, _, _, _, _ | .nilLit, _, _, _, _ | .boolLit _, _, _, _, _ => rfl

def KeepsRoot (op : BinOp) (c d : Phrase) : Prop :=
  match op.level with
  | 1 => d.lastOp = none
  | 2 => c.lastOp = none ∧ d.lastOp = none
  | _ => op = .as ∨ c.lastOp = none

theorem glue_kept (hc : PhraseShape op.level c) (hd : PhraseShape (op.level+1) d)
    (h : KeepsRoot op c d) :
    phraseExpr (glue op c d) = node op (phraseExpr c) (phraseExpr d) := by
  have := op.level_bounds
  obtain h1 | h2 | h3 : op.level = 1 ∨ op.level = 2 ∨ op.level = 3 := by omega
  · simp only [KeepsRoot, h1] at h
    obtain ⟨x, rfl⟩ := Chain.eq_one h
    rw [glue_relational (.inl h1)]
    rfl
  · simp only [KeepsRoot, h2] at h
    obtain ⟨x, rfl⟩ := Chain.eq_one h.1
    obtain ⟨y, rfl⟩ := Chain.eq_one h.2
    obtain ⟨z, rfl⟩ := Chain.eq_one (hd.additive (by omega) y rfl)
    rw [glue_additive h2]
    rfl
  · obtain ⟨f, rfl⟩ := hd.factor (by omega)
    simp only [KeepsRoot, h3] at h
    by_cases has : op = .as
    · rw [glue_relational (.inr has)]
      rfl
    · obtain ⟨x, rfl⟩ := Chain.eq_one (h.resolve_left has)
      obtain ⟨z, rfl⟩ := Chain.eq_one (hc.additive (by omega) x rfl)
      rw [glue_multiplicative h3 has]
      rfl

theorem glue_broken (hc : PhraseShape op.level c) (hd : PhraseShape (op.level+1) d)
    (h : ¬KeepsRoot op c d) : op ≠ .as ∧ (glue op c d).lastOp = some .as := by
  have := op.level_bounds
  obtain h1 | h2 | h3 : op.level = 1 ∨ op.level = 2 ∨ op.level = 3 := by omega
  · simp only [KeepsRoot, h1] at h
    have hop : op ≠ .as := by
      rintro rfl
      cases h1
    refine ⟨hop, ?_⟩
    rw [glue_relational (.inl h1), Chain.lastOp_append,
      (hd.relational (by omega)).resolve_left h]
    rfl
  · simp only [KeepsRoot, h2] at h
    have hop : op ≠ .as := by
      rintro rfl
      cases h2
    refine ⟨hop, ?_⟩
    rw [glue_additive h2, Chain.lastOp_join]
    obtain hdn | hda := hd.relational (by omega)
    · obtain hcn | hca := hc.relational (by omega)
      · exact absurd ⟨hcn, hdn⟩ h
      · rw [hdn, hca]
        rfl
    · rw [hda]
      rfl
  · simp only [KeepsRoot, h3, not_or] at h
    obtain ⟨f, rfl⟩ := hd.factor (by omega)
    refine ⟨h.1, ?_⟩
    rw [glue_multiplicative h3 h.1, Chain.lastOp_join,
      (hc.relational (by omega)).resolve_left h.2]
    rfl

theorem glue_expr_iff (hc : PhraseShape op.level c) (hd : PhraseShape (op.level+1) d)
    {x y : Expr} : phraseExpr (glue op c d) = node op x y ↔
      KeepsRoot op c d ∧ phraseExpr c = x ∧ phraseExpr d = y := by
  constructor
  · intro h
    by_cases hk : KeepsRoot op c d
    · rw [glue_kept hc hd hk] at h
      cases h
      exact ⟨hk, rfl, rfl⟩
    · obtain ⟨hop, hlast⟩ := glue_broken hc hd hk
      obtain ⟨e, a, he⟩ := Chain.eq_more hlast
      rw [he] at h
      cases h
      exact absurd rfl hop
  · rintro ⟨hk, rfl, rfl⟩
    exact glue_kept hc hd hk

theorem keepsRoot_iff (hl : l.asSafe) (hr : r.asSafe) :
    KeepsRoot op (l.phrase op.level) (r.phrase (op.level+1)) ↔ asSafeAt op l r := by
  have at_level {t : ExprTree} (ht : t.asSafe) {level : Nat} (h2 : 2 ≤ level) (h3 : level ≤ 3) :
      (t.phrase level).lastOp = none ↔ ¬t.isAs := by
    refine ⟨fun h has => ?_, fun h => asSafe_lastOp ht h h2⟩
    rw [isAs_lastOp has h3] at h
    cases h
  have := op.level_bounds
  obtain h1 | h2 | h3 : op.level = 1 ∨ op.level = 2 ∨ op.level = 3 := by omega
  · simp [KeepsRoot, asSafeAt, h1, at_level hr]
  · simp [KeepsRoot, asSafeAt, h2, at_level hl, at_level hr]
  · simp [KeepsRoot, asSafeAt, h3, at_level hl]

theorem binary_reading_iff (hl : l.reading = l.expr ↔ l.asSafe) (hr : r.reading = r.expr ↔ r.asSafe) :
    (ExprTree.binary op l r).reading = (ExprTree.binary op l r).expr ↔
      (ExprTree.binary op l r).asSafe := by
  have hreading : (ExprTree.binary op l r).reading =
      phraseExpr (glue op (l.phrase op.level) (r.phrase (op.level+1))) := by
    have := op.level_bounds
    rw [ExprTree.reading, ExprTree.phrase, if_neg (by omega)]
  rw [hreading, ExprTree.expr, ← node, glue_expr_iff (phrase_shape l _) (phrase_shape r _),
    phraseExpr_phrase, phraseExpr_phrase, hl, hr]
  simp only [ExprTree.asSafe, Bool.and_eq_true]
  constructor
  · rintro ⟨hk, hl, hr⟩
    exact ⟨⟨(keepsRoot_iff hl hr).mp hk, hl⟩, hr⟩
  · rintro ⟨⟨hk, hl⟩, hr⟩
    exact ⟨(keepsRoot_iff hl hr).mpr hk, hl, hr⟩

theorem callOf_inj {x y : Expr} {xs ys : List CallArg} :
    callOf x xs = callOf y ys ↔ x = y ∧ xs = ys := by
  refine ⟨fun h => ?_, fun ⟨hx, hxs⟩ => hx ▸ hxs ▸ rfl⟩
  simp only [callOf, Expr.call.injEq, and_true] at h
  obtain ⟨hx, ha, hw, hp⟩ := h
  refine ⟨hx, ?_⟩
  clear hx
  induction xs generalizing ys with
  | nil =>
    cases ys with
    | nil => rfl
    | cons b ys => cases ha
  | cons a xs ih =>
    cases ys with
    | nil => cases ha
    | cons b ys =>
      simp only [List.map_cons, List.cons.injEq] at ha hw hp
      rw [ih ha.2 hw.2 hp.2]
      obtain ⟨_, _, _⟩ := a
      obtain ⟨_, _, _⟩ := b
      obtain ⟨rfl, -⟩ := ha
      obtain ⟨rfl, -⟩ := hw
      obtain ⟨rfl, -⟩ := hp
      rfl

mutual

/-- The parser's tree of the text is the tree that it was printed from exactly where no `as` takes
an operator's operands apart. -/
theorem ExprTree.reading_iff : ∀ t : ExprTree, t.reading = t.expr ↔ t.asSafe
  | .binary _ l r => binary_reading_iff l.reading_iff r.reading_iff
  | .unary _ x => by
    simp [ExprTree.expr, ExprTree.asSafe, ← x.reading_iff]
  | .addrOf _ x => by
    simp [ExprTree.expr, ExprTree.asSafe, ← x.reading_iff]
  | .call callee args => by
    simp [ExprTree.expr, ExprTree.asSafe, callOf_inj, ← callee.reading_iff,
      ← args.readings_iff]
  | .index base first others => by
    simp [ExprTree.expr, ExprTree.asSafe, ← base.reading_iff,
      ← first.reading_iff, ← others.readings_iff, and_assoc]
  | .member base name => by
    simp [ExprTree.expr, ExprTree.asSafe, ← base.reading_iff]
  | .deref x => by
    simp [ExprTree.expr, ExprTree.asSafe, ← x.reading_iff]
  | .setLit elements => by
    simp [ExprTree.expr, ExprTree.asSafe, ← elements.readings_iff]
  | .ident _ | .intLit _ | .realLit _ | .stringLit _ | .nilLit | .boolLit _ =>
    ⟨fun _ => rfl, fun _ => rfl⟩

theorem ArgTrees.readings_iff : ∀ args : ArgTrees, args.readings = args.exprs ↔ args.asSafe
  | .nil => ⟨fun _ => rfl, fun _ => rfl⟩
  | .cons arg format rest => by
    simp [ArgTrees.readings, ArgTrees.exprs, ArgTrees.asSafe, phraseExpr_phrase, format.reading_iff, ← arg.reading_iff,
      ← rest.readings_iff]

theorem FormatTree.reading_iff {x y : Expr} : ∀ format : FormatTree,
    format.reading x = format.expr y ↔ x = y ∧ format.asSafe
  | .plain => by simp [FormatTree.reading, FormatTree.expr, FormatTree.asSafe]
  | .width w => by simp [FormatTree.reading, FormatTree.expr, FormatTree.asSafe, phraseExpr_phrase, ← w.reading_iff]
  | .precision w p => by
    simp [FormatTree.reading, FormatTree.expr, FormatTree.asSafe, phraseExpr_phrase, ← w.reading_iff, ← p.reading_iff]

theorem IndexTrees.readings_iff : ∀ is : IndexTrees, is.readings = is.exprs ↔ is.asSafe
  | .nil => ⟨fun _ => rfl, fun _ => rfl⟩
  | .cons i rest => by
    simp [IndexTrees.readings, IndexTrees.exprs, IndexTrees.asSafe, phraseExpr_phrase, ← i.reading_iff, ← rest.readings_iff]

theorem ElementTrees.readings_iff : ∀ es : ElementTrees, es.readings = es.exprs ↔ es.asSafe
  | .nil => ⟨fun _ => rfl, fun _ => rfl⟩
  | .single e rest => by
    simp [ElementTrees.readings, ElementTrees.exprs, ElementTrees.asSafe, phraseExpr_phrase, ← e.reading_iff, ← rest.readings_iff]
  | .range lo hi rest => by
    simp [ElementTrees.readings, ElementTrees.exprs, ElementTrees.asSafe, phraseExpr_phrase, ← lo.reading_iff, ← hi.reading_iff,
      ← rest.readings_iff]

end

/-- The parser consumes the text of a tree and nothing behind it, and returns its reading. -/
theorem parseExpr_print {n : Nat} {s : PState} {rest : List SourceToken}
    (hs : Spelled (t.print 1) s rest) (hn : s.toks.length < n)
    (hk : EndsExpr (s.after rest).cur.kind) :
    Gives (routines n).parseExpr s (·.unchecked = t.reading) (s.after rest) :=
  inner_gives t.reads.expr hs hn hk

/-- From every stream of tokens that begins with the text of a tree and goes on with a token that
continues no expression, the parser returns the tree and leaves the rest exactly where no `as`
expression is an operand that a looser operator would take apart. -/
theorem parseExpr_print_iff (t : ExprTree) (s : PState) (rest : List SourceToken) (n : Nat)
    (hs : Spelled (t.print 1) s rest) (hn : s.toks.length < n)
    (hk : EndsExpr (s.after rest).cur.kind) :
    (∃ e, (routines n).parseExpr s = some (e, s.after rest) ∧ e.unchecked = t.expr) ↔
      t.asSafe := by
  obtain ⟨e, hrun, he⟩ := parseExpr_print hs hn hk
  rw [← t.reading_iff, ← he]
  constructor
  · rintro ⟨e', hrun', he'⟩
    rw [hrun] at hrun'
    cases hrun'
    exact he'
  · exact fun h => ⟨e, hrun, h⟩

theorem Tok.ident_ne_eof : Tok.ident ≠ .eof := Tok.noConfusion
theorem Tok.eq_ne_eof : Tok.eq ≠ .eof := Tok.noConfusion
theorem Tok.kwAs_ne_eof : Tok.kwAs ≠ .eof := Tok.noConfusion

def identToken (name : String) : SourceToken := ⟨{ kind := .ident, text := name }, Tok.ident_ne_eof⟩

def castFirst : PState :=
  { toks := [identToken "sender", ⟨{ kind := .kwAs }, Tok.kwAs_ne_eof⟩, identToken "tbutton",
      ⟨{ kind := .eq }, Tok.eq_ne_eof⟩, identToken "b"] }

theorem parseExpr_print_iff_castFirst :
    (∃ e, (routines 6).parseExpr castFirst = some (e, castFirst.after []) ∧ e.unchecked =
      (ExprTree.binary .eq (.binary .as (.ident "sender") (.ident "tbutton")) (.ident "b")).expr) ↔
      (ExprTree.binary .eq (.binary .as (.ident "sender") (.ident "tbutton"))
        (.ident "b")).asSafe :=
  parseExpr_print_iff _ castFirst [] 6 ⟨castFirst.toks, rfl, by decide⟩ (by decide) (by decide)

def castLast : PState :=
  { toks := [identToken "b", ⟨{ kind := .eq }, Tok.eq_ne_eof⟩, identToken "sender",
      ⟨{ kind := .kwAs }, Tok.kwAs_ne_eof⟩, identToken "tbutton"] }

def castLastTree : ExprTree :=
  .binary .eq (.ident "b") (.binary .as (.ident "sender") (.ident "tbutton"))

/-- The parser takes the comparison for what is cast. -/
theorem parseExpr_print_castLast : Spelled (castLastTree.print 1) castLast [] ∧
    ¬∃ e, (routines 6).parseExpr castLast = some (e, castLast.after []) ∧
      e.unchecked = castLastTree.expr := by
  have hs : Spelled (castLastTree.print 1) castLast [] := ⟨castLast.toks, rfl, by decide⟩
  refine ⟨hs, ?_⟩
  rintro ⟨e, hrun, he⟩
  obtain ⟨e', hrun', he'⟩ := parseExpr_print (n := 6) hs (by decide) (by decide)
  rw [hrun] at hrun'
  cases hrun'
  have hsafe := castLastTree.reading_iff.mp (he'.symm.trans he)
  exact absurd hsafe (by decide)

end
end Tp2cc
