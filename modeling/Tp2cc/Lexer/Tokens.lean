import Tp2cc.Lexer.Spelling

set_option autoImplicit false

namespace Tp2cc
open Machine Parsing

theorem skipBraces_balanced {body : List Char} (h : Balanced '{' '}' body) (hzero : noChar ∉ body)
    (depth : Nat) (src : List Char) :
    skipBraces (depth+1) (body ++ src) = skipBraces (depth+1) src := by
  induction h generalizing depth src with
  | nil => rfl
  | @symbol c t hopen hclose _ ih =>
    rw [List.mem_cons, not_or] at hzero
    rw [List.cons_append, skipBraces, if_neg (Ne.symm hzero.1), if_neg hopen, if_neg hclose]
    exact ih hzero.2 depth src
  | @nest inner t _ _ ihinner iht =>
    simp only [List.mem_cons, List.mem_append, not_or] at hzero
    rw [List.cons_append, skipBraces, if_neg (by decide), if_pos rfl, List.append_assoc,
      ihinner hzero.2.1, List.cons_append, skipBraces, if_neg (by decide), if_neg (by decide),
      if_pos rfl]
    exact iht hzero.2.2.2 depth src

theorem skipParen_body {body : List Char} (h : ¬ parenEnd <:+: body ++ ['*']) (src : List Char) :
    skipParen (body ++ '*' :: ')' :: src) = src := by
  induction body with
  | nil => rfl
  | cons c body ih =>
    have hbody : ¬ parenEnd <:+: body ++ ['*'] :=
      fun hin => h (hin.trans (List.suffix_cons c _).isInfix)
    rw [List.cons_append, skipParen.eq_3]
    · exact ih hbody
    · intro l hc hl
      cases body with
      | nil => cases hl
      | cons d body =>
        cases hl
        subst hc
        exact h ⟨[], body ++ ['*'], rfl⟩

namespace Lexer

/-- The source is one file, at the place, and is accepted. -/
structure At (l : Lexer) (src : List Char) : Prop where
  stack : ∃ path, l.stack = [⟨path, src⟩]
  accepting : l.accepting = true

structure Moved (l l' : Lexer) (src : List Char) : Prop where
  at_place : l'.At src
  modes : l'.modes = l.modes
  diagnostics : l'.diagnostics = l.diagnostics

section
variable {files : IncludeFiles} {l l' l'' : Lexer} {c : Char} {src rest gap : List Char}

theorem At.contents (h : l.At src) : l.contents = src := by
  obtain ⟨path, hstack⟩ := h.stack
  simp [Lexer.contents, hstack]

theorem At.popInputIfEof (h : l.At src) : l.popInputIfEof = none := by
  obtain ⟨path, hstack⟩ := h.stack
  unfold Lexer.popInputIfEof
  rw [hstack]
  cases src <;> rfl

theorem At.goto (h : l.At src) (rest : List Char) : (l.goto rest).At rest where
  stack := by
    obtain ⟨path, hstack⟩ := h.stack
    exact ⟨path, by simp [Lexer.goto, hstack]⟩
  accepting := h.accepting

theorem At.moved (h : l.At src) (rest : List Char) : Moved l (l.goto rest) rest :=
  ⟨h.goto rest, rfl, rfl⟩

theorem Moved.trans (h : Moved l l' src) (h' : Moved l' l'' rest) : Moved l l'' rest :=
  ⟨h'.at_place, h'.modes.trans h.modes, h'.diagnostics.trans h.diagnostics⟩

theorem turn_blank (h : l.At (c :: src)) (hc : isSpace c = true) :
    l.turn files = .again (l.goto src) := by
  simp [turn, h.popInputIfEof, skipTurn, h.contents, hc]

theorem head_append_ne {body src : List Char} {c d : Char} (h : body.head? ≠ some d) (hc : c ≠ d) :
    (body ++ c :: src).head? ≠ some d := by
  cases body with
  | nil => simpa using hc
  | cons b body => exact h

theorem moved_pastComment {form : CommentForm} (h : l.At src) (hopens : l.Opens form)
    (hpast : ∀ path, l.stack = [⟨path, src⟩] → (l.pastComment src form).stack = [⟨path, rest⟩]) :
    ∃ l', l.turn files = .again l' ∧ Moved l l' rest := by
  refine ⟨_, turn_comment hopens, ?_⟩
  obtain ⟨path, hstack⟩ := h.stack
  rw [h.contents]
  refine ⟨⟨⟨path, hpast path hstack⟩, ?_⟩, ?_, ?_⟩
  · cases form <;> exact h.accepting
  · cases form <;> rfl
  · cases form <;> rfl

theorem gap_moved (files : IncludeFiles) (hgap : Gap rest gap) (h : l.At (gap ++ rest)) :
    ∃ l' k, k ≤ gap.length ∧ Moved l l' rest ∧ ∀ n, l.next files (k+n) = l'.next files n := by
  have step {l l₁ l' : Lexer} {k m : Nat} {src : List Char} (hturn : l.turn files = .again l₁)
      (hmoved : Moved l l₁ src) (h : k ≤ m ∧ Moved l₁ l' rest ∧
        ∀ n, l₁.next files (k+n) = l'.next files n) :
      k+1 ≤ m+1 ∧ Moved l l' rest ∧ ∀ n, l.next files (k+1+n) = l'.next files n := by
    refine ⟨by omega, hmoved.trans h.2.1, fun n => ?_⟩
    rw [← h.2.2 n, Nat.add_right_comm]
    exact loop_again hturn (k+n)
  induction hgap generalizing l with
  | nil => exact ⟨l, 0, Nat.le_refl _, ⟨h, rfl, rfl⟩, fun n => by rw [Nat.zero_add]⟩
  | @blank c gap hc _ ih =>
    obtain ⟨l', k, hk⟩ := ih (h.goto (gap ++ rest))
    exact ⟨l', k+1, step (turn_blank h hc) (h.moved _) hk⟩
  | @brace body gap hbody hzero hdollar _ ih =>
    rw [List.cons_append, List.append_assoc, List.cons_append] at h
    have hopens : l.Opens .brace := ⟨_, h.contents, head_append_ne hdollar (by decide)⟩
    obtain ⟨l₁, hturn, hmoved⟩ : ∃ l₁, l.turn files = .again l₁ ∧ Moved l l₁ (gap ++ rest) :=
      moved_pastComment h hopens fun path hstack => by
        simp [pastComment, skipBraceComment, Lexer.goto, hstack, skipBraceInputs,
          skipBraces_balanced hbody hzero, skipBraces, noChar]
    obtain ⟨l', k, hk⟩ := ih hmoved.at_place
    obtain ⟨hle, hrest⟩ := step hturn hmoved hk
    exact ⟨l', k+1, by simp; omega, hrest⟩
  | @paren body gap hbody hdollar _ ih =>
    rw [List.cons_append, List.cons_append, List.append_assoc, List.cons_append,
      List.cons_append] at h
    have hopens : l.Opens .paren := ⟨_, h.contents, head_append_ne hdollar (by decide)⟩
    obtain ⟨l₁, hturn, hmoved⟩ : ∃ l₁, l.turn files = .again l₁ ∧ Moved l l₁ (gap ++ rest) :=
      moved_pastComment h hopens fun path hstack => by
        simp [pastComment, Lexer.goto, hstack, skipParen_body hbody]
    obtain ⟨l', k, hk⟩ := ih hmoved.at_place
    obtain ⟨hle, hrest⟩ := step hturn hmoved hk
    exact ⟨l', k+1, by simp; omega, hrest⟩
  | @line body gap hbody hend _ ih =>
    rw [List.cons_append, List.cons_append, List.append_assoc] at h
    have hline : skipLine ('/' :: '/' :: (body ++ (gap ++ rest))) = gap ++ rest := by
      have hfront : ∀ c ∈ '/' :: '/' :: body, decide (c ≠ '\n') = true := by
        intro c hc
        simp only [List.mem_cons] at hc
        rw [decide_eq_true_eq]
        rintro rfl
        rcases hc with hc | hc | hc
        · cases hc
        · cases hc
        · exact hbody hc
      rw [← List.cons_append, ← List.cons_append]
      exact dropWhile_front hfront fun c hc => by simp [hend c hc]
    have hopens : l.Opens .line := ⟨_, h.contents⟩
    obtain ⟨l₁, hturn, hmoved⟩ : ∃ l₁, l.turn files = .again l₁ ∧ Moved l l₁ (gap ++ rest) :=
      moved_pastComment h hopens fun path hstack => by
        simp only [pastComment, Lexer.goto, hstack, hline, List.modifyHead_cons]
    obtain ⟨l', k, hk⟩ := ih hmoved.at_place
    obtain ⟨hle, hrest⟩ := step hturn hmoved hk
    exact ⟨l', k+1, by simp; omega, hrest⟩

theorem At.next_eof (h : l.At []) (n : Nat) :
    l.next files (n+1) = some ({ kind := .eof, modes := l.modes }, l) := by
  refine loop_done ?_ n
  simp [turn, h.popInputIfEof, skipTurn_nil h.contents, scanTurn, h.contents]

theorem At.next_token (files : IncludeFiles) {w : List Char} {t : Lexeme} (h : l.At (c :: (w ++ rest)))
    (hscan : ScansAs rest t c w) : ∃ token l', (∀ n, l.next files (n+1) = some (token, l')) ∧
      token.lexeme = t ∧ token.kind ≠ .eof ∧ Moved l l' rest := by
  have hturn : l.turn files = .done ({ (scan c (w ++ rest)).token with modes := l.modes },
      l.behind (scan c (w ++ rest))) := by
    simp [turn, h.popInputIfEof, hscan.front files l h.contents, scanTurn, h.contents, h.accepting]
  have hstack := (h.goto (scan c (w ++ rest)).rest).stack
  rw [hscan.behind] at hstack
  refine ⟨_, _, fun n => loop_done hturn n, hscan.token, hscan.not_eof, ⟨?_, h.accepting⟩, rfl, ?_⟩
  · simpa only [behind, hscan.behind] using hstack
  · simp [hscan.errors]

end

variable (files : IncludeFiles)

def tokens : Nat → Lexer → Option (List SourceToken × Lexer)
  | 0, _ => none
  | n+1, l =>
    match l.next files (n+1) with
    | none => none
    | some (t, l') =>
      if h : t.kind = .eof then some ([], l')
      else (tokens n l').map fun (ts, l'') => (⟨t, h⟩ :: ts, l'')

/-- However a list of tokens is written down, the lexer reads these tokens and reports nothing. -/
theorem tokens_written {L : List Lexeme} {src : List Char} (h : Writes L src) {l : Lexer}
    (hl : l.At src) {n : Nat} (hn : src.length < n) : ∃ ts l', l.tokens files n = some (ts, l') ∧
      ts.map (·.1.lexeme) = L ∧ Moved l l' [] := by
  induction h generalizing l n with
  | @nil gap hgap =>
    rw [← List.append_nil gap] at hl
    obtain ⟨l', k, hk, hmoved, hnext⟩ := gap_moved files hgap hl
    obtain ⟨n, rfl⟩ : ∃ n', n = k+n'+1 := ⟨n-k-1, by omega⟩
    refine ⟨[], l', ?_, rfl, hmoved⟩
    rw [tokens, Nat.add_assoc, hnext, hmoved.at_place.next_eof]
    rfl
  | @cons t L gap word rest hgap hspells _ ih =>
    obtain ⟨c, w, rfl, hscan⟩ := hspells.scans
    obtain ⟨l₁, k, hk, hmoved, hnext⟩ := gap_moved files hgap hl
    obtain ⟨token, l₂, htoken, hlexeme, hkind, hbehind⟩ :=
      hmoved.at_place.next_token files hscan
    simp only [List.length_append, List.length_cons] at hn
    obtain ⟨n, rfl⟩ : ∃ n', n = k+n'+1 := ⟨n-k-1, by omega⟩
    obtain ⟨ts, l', hts, hL, hend⟩ := ih hbehind.at_place (n := k+n) (by omega)
    refine ⟨⟨token, hkind⟩ :: ts, l', ?_, by simp [hlexeme, hL], hmoved.trans (hbehind.trans hend)⟩
    rw [tokens, Nat.add_assoc, hnext, htoken]
    simp only [hkind, dif_neg, not_false_eq_true, hts, Option.map_some]

end Lexer
end Tp2cc
