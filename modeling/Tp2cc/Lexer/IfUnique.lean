import Tp2cc.Lexer.IfComplete

set_option autoImplicit false

namespace Tp2cc.IfExpr
open Machine Parsing

theorem HasWord.unique {word src rest rest' : List Char} (hw : word ≠ [])
    (h : HasWord word src rest) (h' : HasWord word src rest') : rest' = rest :=
  ((matchWord_detects hw).unique h h').symm

theorem HasIdent.unique {name name' : String} {src rest rest' : List Char}
    (h : HasIdent name src rest) (h' : HasIdent name' src rest') : name' = name ∧ rest' = rest := by
  rw [hasIdent_iff] at h h'
  exact ⟨h'.2.1.trans h.2.1.symm, h'.2.2.trans h.2.2.symm⟩

inductive Opening where
  | paren | numeral | name
  | word (word : List Char)

inductive Opens (src : List Char) : Opening → Prop
  | paren {rest : List Char} : HasMark '(' src rest → Opens src .paren
  | numeral {negative : Bool} {digits rest : List Char} : HasNumeral negative digits src rest →
      Opens src .numeral
  | name {name : String} {rest : List Char} : NoOther src → HasIdent name src rest →
      Opens src .name
  | word {word rest : List Char} : word ∈ [wordDefined, wordTrue, wordFalse] →
      HasWord word src rest → Opens src (.word word)

theorem operandWord {word : List Char} (h : word ∈ [wordDefined, wordTrue, wordFalse]) :
    word ∈ [wordNot, wordDefined, wordTrue, wordFalse] := List.mem_cons_of_mem _ h

theorem not_word_mark {word src rest : List Char} (h : word ∈ [wordDefined, wordTrue, wordFalse])
    (hword : HasWord word src rest) : ∀ rest, ¬ HasMark '(' src rest := by
  simp only [List.mem_cons, List.not_mem_nil, or_false] at h
  rcases h with rfl | rfl | rfl <;> exact (HasWord.only hword (by decide)).1

theorem operandWord_unique {word word' src rest rest' : List Char}
    (h : word ∈ [wordDefined, wordTrue, wordFalse]) (hword : HasWord word src rest)
    (h' : word' ∈ [wordDefined, wordTrue, wordFalse]) (hword' : HasWord word' src rest') :
    word = word' := by
  simp only [List.mem_cons, List.not_mem_nil, or_false] at h h'
  rcases h with rfl | rfl | rfl <;> rcases h' with rfl | rfl | rfl <;>
    first
    | rfl
    | exact absurd hword' ((HasWord.only hword (by decide)).2 _ _ (by decide) _)

theorem not_mark_ident {name : String} {src rest rest' : List Char} (h : HasMark '(' src rest)
    (h' : HasIdent name src rest') : False := by
  obtain ⟨d, hd, hchar⟩ := h'.head
  rw [h.head] at hd
  cases hd
  contradiction

theorem Opens.unique {src : List Char} {o o' : Opening} (h : Opens src o) (h' : Opens src o') :
    o = o' := by
  cases h with
  | paren hmark =>
    cases h' with
    | paren _ => rfl
    | numeral hint => exact absurd hmark (hint.only.1 _)
    | name _ hident => exact (not_mark_ident hmark hident).elim
    | word hmem hword => exact absurd hmark (not_word_mark hmem hword _)
  | numeral hint =>
    cases h' with
    | paren hmark => exact absurd hmark (hint.only.1 _)
    | numeral _ => rfl
    | name hother _ => exact absurd hint (hother.numeral _ _ _)
    | word hmem hword => exact absurd hword (hint.only.2 _ (operandWord hmem) _)
  | name hother hident =>
    cases h' with
    | paren hmark => exact (not_mark_ident hmark hident).elim
    | numeral hint => exact absurd hint (hother.numeral _ _ _)
    | name _ _ => rfl
    | word hmem hword => exact absurd hword (hother.word _ (operandWord hmem) _)
  | word hmem hword =>
    cases h' with
    | paren hmark => exact absurd hmark (not_word_mark hmem hword _)
    | numeral hint => exact absurd hword (hint.only.2 _ (operandWord hmem) _)
    | name hother _ => exact absurd hword (hother.word _ (operandWord hmem) _)
    | word hmem' hword' => exact congrArg Opening.word (operandWord_unique hmem hword hmem' hword')

theorem Joint.Ends.word {j : Joint} {src : List Char} (h : j.Ends src) :
    ∀ rest, ¬ HasWord j.word src rest := by
  cases j with
  | and => exact h
  | or => exact h .or

theorem Spells.unique {part : Part} {src rest rest' : List Char} {e e' : Cond}
    (h : Spells part src e rest) (hends : part.Ends rest) (h' : Spells part src e' rest')
    (hends' : part.Ends rest') : e' = e ∧ rest' = rest := by
  induction h generalizing e' rest' with
  | simple _ ih =>
    cases h' with
    | simple h' => exact ih hends.1 h' hends'.1
    | compare ha' hop' _ =>
      obtain ⟨-, rfl⟩ := ih hends.1 ha' hop'.ends
      exact absurd hop' (hends.2 _ _)
  | compare _ hop _ iha ihb =>
    cases h' with
    | simple h' =>
      obtain ⟨-, rfl⟩ := iha hop.ends h' hends'.1
      exact absurd hop (hends'.2 _ _)
    | compare ha' hop' hb' =>
      obtain ⟨rfl, rfl⟩ := iha hop.ends ha' hop'.ends
      obtain ⟨rfl, rfl⟩ := hop.unique hop'
      obtain ⟨rfl, rfl⟩ := ihb hends.1 hb' hends'.1
      exact ⟨rfl, rfl⟩
  | chain _ htail ihleft ih =>
    cases h' with
    | chain hleft' htail' =>
      obtain ⟨rfl, rfl⟩ := ihleft (operand_ends htail hends) hleft' (operand_ends htail' hends')
      exact ih hends htail' hends'
  | done =>
    cases h' with
    | done => exact ⟨rfl, rfl⟩
    | more hword' _ _ => exact absurd hword' (hends.word _)
  | @more j _ _ _ _ _ _ _ hword _ htail ihright ih =>
    cases h' with
    | done => exact absurd hword (hends'.word _)
    | more hword' hright' htail' =>
      obtain rfl := hword.unique j.word_ne hword'
      obtain ⟨rfl, rfl⟩ := ihright (operand_ends htail hends) hright' (operand_ends htail' hends')
      exact ih hends htail' hends'
  | not hword _ ih =>
    cases h' with
    | not hword' h' =>
      obtain rfl := hword.unique (by simp) hword'
      obtain ⟨rfl, rfl⟩ := ih trivial h' trivial
      exact ⟨rfl, rfl⟩
    | primary hp' => exact absurd hword (hp'.not_wordNot rfl _)
  | primary hp ih =>
    cases h' with
    | not hword' _ => exact absurd hword' (hp.not_wordNot rfl _)
    | primary hp' => exact ih trivial hp' trivial
  | paren hopen _ hclose ih =>
    cases h' with
    | paren hopen' h' hclose' =>
      obtain rfl := (matchChar_detects '(').unique hopen hopen'
      obtain ⟨rfl, rfl⟩ := ih hclose.ends h' hclose'.ends
      exact ⟨rfl, ((matchChar_detects ')').unique hclose hclose').symm⟩
    | defined hword' _ _ _ => cases Opens.unique (.paren hopen) (.word (by simp) hword')
    | wordTrue hword' => cases Opens.unique (.paren hopen) (.word (by simp) hword')
    | wordFalse hword' => cases Opens.unique (.paren hopen) (.word (by simp) hword')
    | int hint' => cases Opens.unique (.paren hopen) (.numeral hint')
    | symbol hother' hident' => cases Opens.unique (.paren hopen) (.name hother' hident')
  | defined hword hopen hident hclose =>
    have hopens := Opens.word (by simp) hword
    cases h' with
    | paren hopen' _ _ => cases hopens.unique (.paren hopen')
    | defined hword' hopen' hident' hclose' =>
      obtain rfl := hword.unique (by simp) hword'
      obtain rfl := (matchChar_detects '(').unique hopen hopen'
      obtain ⟨rfl, rfl⟩ := hident.unique hident'
      exact ⟨rfl, ((matchChar_detects ')').unique hclose hclose').symm⟩
    | wordTrue hword' => cases hopens.unique (.word (by simp) hword')
    | wordFalse hword' => cases hopens.unique (.word (by simp) hword')
    | int hint' => cases hopens.unique (.numeral hint')
    | symbol hother' hident' => cases hopens.unique (.name hother' hident')
  | wordTrue hword =>
    have hopens := Opens.word (by simp) hword
    cases h' with
    | paren hopen' _ _ => cases hopens.unique (.paren hopen')
    | defined hword' _ _ _ => cases hopens.unique (.word (by simp) hword')
    | wordTrue hword' => exact ⟨rfl, hword.unique (by simp [IfExpr.wordTrue]) hword'⟩
    | wordFalse hword' => cases hopens.unique (.word (by simp) hword')
    | int hint' => cases hopens.unique (.numeral hint')
    | symbol hother' hident' => cases hopens.unique (.name hother' hident')
  | wordFalse hword =>
    have hopens := Opens.word (by simp) hword
    cases h' with
    | paren hopen' _ _ => cases hopens.unique (.paren hopen')
    | defined hword' _ _ _ => cases hopens.unique (.word (by simp) hword')
    | wordTrue hword' => cases hopens.unique (.word (by simp) hword')
    | wordFalse hword' => exact ⟨rfl, hword.unique (by simp [IfExpr.wordFalse]) hword'⟩
    | int hint' => cases hopens.unique (.numeral hint')
    | symbol hother' hident' => cases hopens.unique (.name hother' hident')
  | int hint =>
    have hopens := Opens.numeral hint
    cases h' with
    | paren hopen' _ _ => cases hopens.unique (.paren hopen')
    | defined hword' _ _ _ => cases hopens.unique (.word (by simp) hword')
    | wordTrue hword' => cases hopens.unique (.word (by simp) hword')
    | wordFalse hword' => cases hopens.unique (.word (by simp) hword')
    | int hint' =>
      obtain ⟨rfl, rfl, rfl⟩ := hint.unique hint'
      exact ⟨rfl, rfl⟩
    | symbol hother' hident' => cases hopens.unique (.name hother' hident')
  | symbol hother hident =>
    have hopens := Opens.name hother hident
    cases h' with
    | paren hopen' _ _ => cases hopens.unique (.paren hopen')
    | defined hword' _ _ _ => cases hopens.unique (.word (by simp) hword')
    | wordTrue hword' => cases hopens.unique (.word (by simp) hword')
    | wordFalse hword' => cases hopens.unique (.word (by simp) hword')
    | int hint' => cases hopens.unique (.numeral hint')
    | symbol hother' hident' =>
      obtain ⟨rfl, rfl⟩ := hident.unique hident'
      exact ⟨rfl, rfl⟩

theorem Cond.IsText.unique {e e' : Cond} {expr : List Char} (h : e.IsText expr)
    (h' : e'.IsText expr) : e' = e := (Spells.unique h ends_nil h' ends_nil).1

end Tp2cc.IfExpr
