import Tp2cc.Lexer.Next
import Tp2cc.Parsing.Balanced
import Tp2cc.Parsing.Components

set_option autoImplicit false

namespace Tp2cc
open Machine Parsing

theorem skipBraces_eq (depth : Nat) (src : List Char) :
    ∃ depth', skipBraces depth src =
      (behindClose '{' '}' depth (src.takeWhile (· ≠ noChar))).elim
        (depth'+1, src.dropWhile (· ≠ noChar))
        fun rest => (0, rest ++ src.dropWhile (· ≠ noChar)) := by
  induction src generalizing depth with
  | nil => cases depth <;> simp [behindClose, skipBraces]
  | cons c src ih =>
    cases depth with
    | zero => exact ⟨0, by simp [skipBraces, behindClose, List.takeWhile_append_dropWhile]⟩
    | succ depth =>
      by_cases hzero : c = noChar
      · exact ⟨depth, by simp [hzero, skipBraces, behindClose]⟩
      · simp only [ne_eq, hzero, not_false_eq_true, decide_true, List.takeWhile_cons_of_pos,
          List.dropWhile_cons_of_pos, behindClose, skipBraces, if_false] at ih ⊢
        split
        · exact ih _
        · split
          · exact ih _
          · exact ih _

theorem skipBraces_append (depth : Nat) (src below : List Char) :
    skipBraces depth (src ++ below) =
      if (skipBraces depth src).1 ≠ 0 ∧ (skipBraces depth src).2 = [] then
        skipBraces (skipBraces depth src).1 below
      else ((skipBraces depth src).1, (skipBraces depth src).2 ++ below) := by
  induction src generalizing depth with
  | nil => cases depth <;> simp [skipBraces]
  | cons c src ih =>
    cases depth with
    | zero => simp [skipBraces]
    | succ depth =>
      simp only [List.cons_append, skipBraces]
      split
      · simp
      · split
        · exact ih _
        · split
          · exact ih _
          · exact ih _

def parenEnd : List Char := ['*', ')']

theorem parenEnd_infix_cons {c : Char} {src : List Char}
    (h : ∀ l, c = '*' → src = ')' :: l → False) : parenEnd <:+: c :: src ↔ parenEnd <:+: src := by
  refine ⟨fun hin => ?_, fun hin => hin.trans (List.suffix_cons c src).isInfix⟩
  rcases List.infix_cons_iff.mp hin with ⟨behind, hpre⟩ | hin
  · simp only [parenEnd, List.cons_append, List.nil_append, List.cons.injEq] at hpre
    exact (h behind hpre.1.symm hpre.2.symm).elim
  · exact hin

/-- The loop over a comment in parentheses stops behind the first `*)`, or at the end. -/
theorem skipParen_spec (src : List Char) :
    (∃ body, ¬ parenEnd <:+: body ++ ['*'] ∧ src = body ++ '*' :: ')' :: skipParen src) ∨
      skipParen src = [] ∧ ¬ parenEnd <:+: src := by
  fun_induction skipParen src with
  | case1 => exact .inr ⟨rfl, by decide⟩
  | case2 src => exact .inl ⟨[], by decide, rfl⟩
  | case3 c src hne ih =>
    rcases ih with ⟨body, hbody, hsrc⟩ | ⟨hrest, hsrc⟩
    · refine .inl ⟨c :: body, ?_, congrArg (c :: ·) hsrc⟩
      rw [List.cons_append, parenEnd_infix_cons]
      · exact hbody
      · intro l hc hl
        cases body with
        | nil => simp at hl
        | cons d body =>
          obtain rfl : d = ')' := (List.cons.inj hl).1
          exact hne _ hc hsrc
    · exact .inr ⟨hrest, (parenEnd_infix_cons hne).not.mpr hsrc⟩

def Lexer.Input.ahead (stack : List Lexer.Input) : List Char := stack.flatMap (·.contents)

theorem ahead_skipBraceInputs (depth : Nat) (stack : List Lexer.Input) :
    Lexer.Input.ahead (skipBraceInputs (depth+1) stack) =
      (skipBraces (depth+1) (Lexer.Input.ahead stack)).2 := by
  induction stack generalizing depth with
  | nil => rfl
  | cons input below ih =>
    have happend := skipBraces_append (depth+1) input.contents (Lexer.Input.ahead below)
    rw [show Lexer.Input.ahead (input :: below) = input.contents ++ Lexer.Input.ahead below from
      List.flatMap_cons, happend, skipBraceInputs]
    split
    · rename_i depth' heq
      rw [heq]
      simp only [ne_eq, Nat.succ_ne_zero, not_false_eq_true, and_self, if_true]
      split
      · rename_i hbelow
        simp [hbelow, Lexer.Input.ahead, skipBraces]
      · exact ih depth'
    · rename_i reached rest hnot heq
      rw [heq, if_neg]
      · simp [Lexer.Input.ahead]
      · rintro ⟨hreached, hrest⟩
        obtain ⟨d, hd⟩ := Nat.exists_eq_succ_of_ne_zero hreached
        dsimp only at hd hrest
        exact hnot d hd hrest

namespace Lexer
variable (l : Lexer)

/-- What is left of the source, a file that ends going on in the one that includes it. -/
def ahead : List Char := Input.ahead l.stack

/-- What is left of the source behind the current file. -/
def below : List Char := Input.ahead l.stack.tail

inductive CommentForm where
  | brace | paren | line

def Opens : CommentForm → Prop
  | .brace => ∃ src, l.contents = '{' :: src ∧ src.head? ≠ some '$'
  | .paren => ∃ src, l.contents = '(' :: '*' :: src ∧ src.head? ≠ some '$'
  | .line => ∃ src, l.contents = '/' :: '/' :: src

/-- The comment in front ends before `rest`: at its matching brace, at the first `*)`, or at the
end of the line, which may be the end of its file. -/
def Ends : CommentForm → List Char → Prop
  | .brace, rest => ∃ body, Balanced '{' '}' body ∧ l.ahead = '{' :: (body ++ '}' :: rest)
  | .paren, rest => ∃ body, ¬ parenEnd <:+: body ++ ['*'] ∧
      l.ahead = '(' :: '*' :: (body ++ '*' :: ')' :: rest)
  | .line, rest => ∃ line behind, '\n' ∉ line ∧ l.contents = line ++ behind ∧
      (∀ c ∈ behind.head?, c = '\n') ∧ rest = behind ++ l.below

/-- The comment in front is passed over as a whole, and one without an end is reported. -/
def SkipsComment (files : IncludeFiles) (form : CommentForm) : Prop :=
  ∃ l', l.turn files = .again l' ∧
    ((∃ rest, l.Ends form rest ∧ l'.ahead = rest ∧ l'.diagnostics = l.diagnostics) ∨
      (¬ ∃ rest, l.Ends form rest) ∧ l'.diagnostics ≠ l.diagnostics)

/-- The comment ends, in braces before any zero and in parentheses in its own file. -/
def CommentEnds : CommentForm → Prop
  | .brace => ∃ body rest, Balanced '{' '}' body ∧ noChar ∉ body ∧
      l.ahead = '{' :: (body ++ '}' :: rest)
  | .paren => ∃ body rest, l.contents = '(' :: '*' :: (body ++ '*' :: ')' :: rest)
  | .line => True

section
variable {l} {files : IncludeFiles} {src rest : List Char}

theorem ahead_eq (l : Lexer) : l.ahead = l.contents ++ l.below := by
  cases hs : l.stack with
  | nil => simp [ahead, contents, below, Input.ahead, hs]
  | cons input below => simp [ahead, contents, Lexer.below, Input.ahead, hs]

theorem ahead_goto (h : l.contents ≠ []) (rest : List Char) :
    (l.goto rest).ahead = rest ++ l.below := by
  cases hs : l.stack with
  | nil => simp [contents, hs] at h
  | cons input below => simp [ahead, goto, Lexer.below, Input.ahead, hs]

theorem ahead_skipBraceComment (l : Lexer) :
    l.skipBraceComment.ahead = (skipBraces 1 l.ahead).2 := ahead_skipBraceInputs 0 l.stack

def pastComment (l : Lexer) (src : List Char) : CommentForm → Lexer
  | .brace => (l.goto (src.drop 1)).skipBraceComment
  | .paren => l.goto (skipParen (src.drop 2))
  | .line => l.goto (skipLine src)

theorem Opens.exists_cons {form : CommentForm} (h : l.Opens form) :
    ∃ c src, l.contents = c :: src ∧ isSpace c = false := by
  cases form with
  | brace =>
    obtain ⟨src, hsrc, -⟩ := h
    exact ⟨_, _, hsrc, rfl⟩
  | paren =>
    obtain ⟨src, hsrc, -⟩ := h
    exact ⟨_, _, hsrc, rfl⟩
  | line =>
    obtain ⟨src, hsrc⟩ := h
    exact ⟨_, _, hsrc, rfl⟩

theorem skipTurn_comment {form : CommentForm} (h : l.Opens form) :
    l.skipTurn files = some (l.pastComment l.contents form) := by
  cases form with
  | brace =>
    obtain ⟨src, hsrc, hdollar⟩ := h
    simp only [skipTurn, hsrc]
    rw [if_neg (by decide)]
    split <;> simp_all [pastComment]
  | paren =>
    obtain ⟨src, hsrc, hdollar⟩ := h
    simp only [skipTurn, hsrc]
    rw [if_neg (by decide)]
    split <;> simp_all [pastComment]
  | line =>
    obtain ⟨src, hsrc⟩ := h
    rw [skipTurn, hsrc]
    rfl

theorem turn_comment {form : CommentForm} (h : l.Opens form) :
    l.turn files = .again (l.pastComment l.contents form) := by
  obtain ⟨c, src, hcons, -⟩ := h.exists_cons
  rw [turn, popInputIfEof_cons hcons, skipTurn_comment h]

theorem skipsComment_iff {form : CommentForm} (h : l.Opens form) :
    l.SkipsComment files form ↔ l.Ends form (l.pastComment l.contents form).ahead := by
  have hdiag : (l.pastComment l.contents form).diagnostics = l.diagnostics := by
    cases form <;> rfl
  constructor
  · rintro ⟨l', hturn, ⟨rest, hends, hahead, -⟩ | ⟨-, hnoted⟩⟩
    · rw [turn_comment h, LoopStep.again.injEq] at hturn
      rw [hturn, hahead]
      exact hends
    · rw [turn_comment h, LoopStep.again.injEq] at hturn
      rw [← hturn] at hnoted
      exact absurd hdiag hnoted
  · intro hends
    exact ⟨_, turn_comment h, .inl ⟨_, hends, rfl, hdiag⟩⟩

theorem ends_brace_iff (h : l.ahead = '{' :: src) :
    l.Ends .brace rest ↔ behindClose '{' '}' 1 src = some rest := by
  rw [behindClose_iff (by decide)]
  simp only [Ends, h, List.cons.injEq, true_and]

theorem closes_iff (src : List Char) :
    (∃ rest, behindClose '{' '}' 1 (src.takeWhile (· ≠ noChar)) = some rest) ↔
      ∃ body rest, Balanced '{' '}' body ∧ noChar ∉ body ∧ src = body ++ '}' :: rest := by
  simp only [behindClose_iff (show '{' ≠ '}' by decide)]
  constructor
  · rintro ⟨rest, body, hbody, hsrc⟩
    refine ⟨body, rest ++ src.dropWhile (· ≠ noChar), hbody, fun hzero => ?_, ?_⟩
    · have hmem : noChar ∈ src.takeWhile (· ≠ noChar) := by
        rw [hsrc]
        exact List.mem_append_left _ hzero
      simpa using List.mem_takeWhile_imp hmem
    · rw [← List.cons_append, ← List.append_assoc, ← hsrc, List.takeWhile_append_dropWhile]
  · rintro ⟨body, rest, hbody, hzero, rfl⟩
    refine ⟨rest.takeWhile (· ≠ noChar), body, hbody, ?_⟩
    have hall (c : Char) (hc : c ∈ body) : decide (c ≠ noChar) = true := by
      rw [decide_eq_true_eq]
      rintro rfl
      exact hzero hc
    rw [List.takeWhile_append_of_pos hall, List.takeWhile_cons_of_pos (by decide)]

theorem skipBraces_closes_iff (src : List Char) :
    behindClose '{' '}' 1 src = some (skipBraces 1 src).2 ↔
      ∃ body rest, Balanced '{' '}' body ∧ noChar ∉ body ∧ src = body ++ '}' :: rest := by
  rw [← closes_iff]
  obtain ⟨depth, heq⟩ := skipBraces_eq 1 src
  have hsrc : src.takeWhile (· ≠ noChar) ++ src.dropWhile (· ≠ noChar) = src :=
    List.takeWhile_append_dropWhile
  cases hclose : behindClose '{' '}' 1 (src.takeWhile (· ≠ noChar)) with
  | some rest =>
    obtain ⟨body, hbody, hclean⟩ := (behindClose_iff (by decide)).mp hclose
    refine iff_of_true ((behindClose_iff (by decide)).mpr ⟨body, hbody, ?_⟩) ⟨rest, rfl⟩
    rw [heq, hclose, Option.elim_some, ← List.cons_append, ← List.append_assoc, ← hclean, hsrc]
  | none =>
    refine iff_of_false (fun h => ?_) (by simp)
    rw [heq, hclose, Option.elim_none, behindClose_iff (by decide)] at h
    obtain ⟨body, hbody, hbehind⟩ := h
    -- What the loop leaves begins with the zero, so it has passed over the whole comment.
    have hclean : src.takeWhile (· ≠ noChar) = body ++ '}' :: [] := by
      apply List.append_cancel_right
      rw [hsrc, List.append_assoc]
      exact hbehind
    have hsome := (behindClose_iff (show '{' ≠ '}' by decide)).mpr ⟨body, hbody, hclean⟩
    rw [hclose] at hsome
    contradiction

theorem brace_iff (h : l.Opens .brace) :
    l.Ends .brace (l.pastComment l.contents .brace).ahead ↔ l.CommentEnds .brace := by
  obtain ⟨src, hsrc, -⟩ := h
  have hahead : l.ahead = '{' :: (src ++ l.below) := by rw [ahead_eq, hsrc]; rfl
  have hpast : (l.pastComment l.contents .brace).ahead = (skipBraces 1 (src ++ l.below)).2 := by
    rw [pastComment, ahead_skipBraceComment, ahead_goto (by simp [hsrc]), hsrc]
    rfl
  rw [ends_brace_iff hahead, hpast, skipBraces_closes_iff]
  simp only [CommentEnds, hahead, List.cons.injEq, true_and]

theorem paren_iff (h : l.Opens .paren) :
    l.Ends .paren (l.pastComment l.contents .paren).ahead ↔ l.CommentEnds .paren := by
  obtain ⟨src, hsrc, -⟩ := h
  have hpast : (l.pastComment l.contents .paren).ahead = skipParen src ++ l.below := by
    rw [pastComment, ahead_goto (by simp [hsrc]), hsrc]
    rfl
  rw [hpast]
  simp only [Ends, CommentEnds, ahead_eq l, hsrc, List.cons_append, List.cons.injEq, true_and]
  rcases skipParen_spec src with ⟨body, hbody, heq⟩ | ⟨hnil, hno⟩
  · refine iff_of_true ⟨body, hbody, ?_⟩ ⟨body, _, heq⟩
    calc src ++ l.below = body ++ '*' :: ')' :: skipParen src ++ l.below := by rw [← heq]
      _ = body ++ '*' :: ')' :: (skipParen src ++ l.below) := by simp
  · refine iff_of_false ?_ ?_
    · rintro ⟨body, -, heq⟩
      rw [hnil, List.nil_append] at heq
      have hsrc : src = body ++ parenEnd := by
        apply List.append_cancel_right
        rw [heq, List.append_assoc]
        rfl
      exact hno (hsrc ▸ (List.suffix_append body parenEnd).isInfix)
    · rintro ⟨body, behind, heq⟩
      exact hno ⟨body, behind, by simp [heq, parenEnd]⟩

theorem line_ends (l : Lexer) (h : l.contents ≠ []) :
    l.Ends .line (l.pastComment l.contents .line).ahead := by
  refine ⟨l.contents.takeWhile (· ≠ '\n'), skipLine l.contents, fun hnl => ?_,
    List.takeWhile_append_dropWhile.symm, fun c hc => ?_, ahead_goto h _⟩
  · simpa using List.mem_takeWhile_imp hnl
  · simpa using head_dropWhile (· ≠ '\n') l.contents c hc

/-- The lexer does right by a comment exactly where the comment ends, with no zero inside braces
and in its own file where it stands in parentheses. -/
theorem skipsComment_iff_commentEnds {form : CommentForm} (h : l.Opens form) :
    l.SkipsComment files form ↔ l.CommentEnds form := by
  rw [skipsComment_iff h]
  cases form with
  | brace => exact brace_iff h
  | paren => exact paren_iff h
  | line =>
    obtain ⟨src, hsrc⟩ := h
    exact iff_of_true (line_ends l (by simp [hsrc])) trivial

end

end Lexer
end Tp2cc
