import Tp2cc.Lexer.Comment
import Tp2cc.Lexer.Taken

/-! Runs of the lexer: the source falls into tokens, comments, directives and gaps, and a token
has no part of a comment. -/
set_option autoImplicit false

namespace Tp2cc
open Machine

inductive Passage where
  | gap (text : List Char)
  | directive (text : List Char)
  | comment (text : List Char)
  | token (text : List Char) (t : Token)

namespace Passage

def text : Passage → List Char
  | .gap text | .directive text | .comment text | .token text _ => text

def token? : Passage → Option Token
  | .token _ t => some t
  | _ => none

def IsDirective : Passage → Prop
  | .directive _ => True
  | _ => False

end Passage

namespace Settings
variable (s : Settings) (files : IncludeFiles)

theorem doInclude_stack (arg : List Char) :
    ∃ pushed, (s.doInclude files arg).1.stack = pushed ++ s.stack := by
  have hsame : ∃ pushed, s.stack = pushed ++ s.stack := ⟨[], rfl⟩
  have hpush (path : String) (contents : List Char) :
      ∃ pushed, (s.push path contents).stack = pushed ++ s.stack := ⟨[_], rfl⟩
  simp only [doInclude]
  split
  · exact hsame
  · split
    · unfold includeMacro
      split
      · exact hpush _ _
      · exact hpush _ _
      · exact hsame
    · split
      · exact hsame
      · split
        · exact hsame
        · exact hpush _ _

theorem obey_stack (head : String) (rest : List Char) :
    ∃ pushed, (s.obey files head rest).1.stack = pushed ++ s.stack := by
  have hsame : ∃ pushed, s.stack = pushed ++ s.stack := ⟨[], rfl⟩
  have hdefine : (s.define rest).stack = s.stack := by
    unfold define
    dsimp only
    split <;> rfl
  unfold obey
  split
  case h_1 => exact ⟨[], hdefine⟩
  case h_3 => exact s.doInclude_stack files rest
  case h_4 => exact s.doInclude_stack files rest
  all_goals first
    | exact hsame
    | (split <;> exact hsame)

end Settings

namespace Lexer
variable {files : IncludeFiles} {l l' : Lexer}

theorem evalCondition_stack (l : Lexer) (head : String) (rest : List Char) :
    (l.evalCondition head rest).2.stack = l.stack := by
  unfold evalCondition
  split <;> rfl

theorem handleIf_stack (l : Lexer) (rest : List Char) : (l.handleIf rest).stack = l.stack := by
  unfold handleIf
  split
  · exact evalCondition_stack l "if" rest
  · rfl

theorem handleElseif_stack (l : Lexer) (rest : List Char) :
    (l.handleElseif rest).stack = l.stack := by
  unfold handleElseif
  split
  · rfl
  · split
    · rfl
    · dsimp only
      split
      · exact evalCondition_stack l "elseif" rest
      · rfl

theorem handleElse_stack (l : Lexer) : l.handleElse.stack = l.stack := by
  unfold handleElse
  split
  · rfl
  · split <;> rfl

theorem handleEndif_stack (l : Lexer) : l.handleEndif.stack = l.stack := by
  unfold handleEndif
  split <;> rfl

theorem handleDirective_stack (l : Lexer) (files : IncludeFiles) (body : List Char) :
    ∃ pushed, (l.handleDirective files body).stack = pushed ++ l.stack := by
  unfold handleDirective
  dsimp only
  split
  · exact ⟨[], rfl⟩
  · exact ⟨[], rfl⟩
  · exact ⟨[], rfl⟩
  · exact ⟨[], handleIf_stack l _⟩
  · exact ⟨[], rfl⟩
  · exact ⟨[], handleElseif_stack l _⟩
  · exact ⟨[], handleElse_stack l⟩
  · exact ⟨[], handleEndif_stack l⟩
  · exact ⟨[], handleEndif_stack l⟩
  · split
    · exact l.obey_stack files _ _
    · exact ⟨[], rfl⟩

theorem handleDirective_ahead (l : Lexer) (files : IncludeFiles) (body : List Char) :
    ∃ included, (l.handleDirective files body).ahead = included ++ l.ahead := by
  obtain ⟨pushed, hpushed⟩ := l.handleDirective_stack files body
  exact ⟨Input.ahead pushed, by simp [ahead, Input.ahead, hpushed]⟩

/-- Every comment in front of the lexer ends, in braces before any zero and in parentheses in its
own file. -/
def CommentsEnd (l : Lexer) : Prop := ∀ form, l.Opens form → l.CommentEnds form

/-- Runs of the lexer from states of a kind, with the tokens they return. -/
inductive Turns (files : IncludeFiles) (kind : Lexer → Prop) : Lexer → List Token → Lexer → Prop
  | nil (l : Lexer) : Turns files kind l [] l
  | skip {l l₁ l' : Lexer} {tokens : List Token} : kind l → l.turn files = .again l₁ →
      Turns files kind l₁ tokens l' → Turns files kind l tokens l'
  | token {l l₁ l' : Lexer} {t : Token} {tokens : List Token} : kind l →
      l.turn files = .done (t, l₁) → Turns files kind l₁ tokens l' →
      Turns files kind l (t :: tokens) l'

/-- One passage of a source read by the book: a comment is in front of everything else and is
taken as a whole, a token is scanned from a text of its own, and where the source is accepted
nothing else is passed over than blanks and directives. -/
inductive Reads : Lexer → Passage → Lexer → Prop
  | comment {l l' : Lexer} {form : CommentForm} {text : List Char} : l.Opens form →
      l.Ends form l'.ahead → l.ahead = text ++ l'.ahead → Reads l (.comment text) l'
  | gap {l l' : Lexer} {text : List Char} : (∀ form, ¬ l.Opens form) →
      l.ahead = text ++ l'.ahead → (l.accepting = true → ∀ c ∈ text, isSpace c = true) →
      Reads l (.gap text) l'
  | directive {l l' : Lexer} {text included rest : List Char} :
      ['{', '$'] <+: text ∨ ['(', '*', '$'] <+: text → l.ahead = text ++ rest →
      l'.ahead = included ++ rest → Reads l (.directive text) l'
  | token {l l' : Lexer} {c : Char} {text : List Char} : (∀ form, ¬ l.Opens form) →
      l.accepting = true → l.ahead = (c :: text) ++ l'.ahead →
      Reads l (.token (c :: text) { (scan c text).token with modes := l.modes }) l'
  | eof {l : Lexer} : l.ahead = [] → Reads l (.token [] { kind := .eof, modes := l.modes }) l

inductive ReadsAll : Lexer → List Passage → Lexer → Prop
  | nil (l : Lexer) : ReadsAll l [] l
  | cons {l l₁ l' : Lexer} {p : Passage} {passages : List Passage} : Reads l p l₁ →
      ReadsAll l₁ passages l' → ReadsAll l (p :: passages) l'

theorem ReadsAll.joined {passages : List Passage} (h : ReadsAll l passages l')
    (hdir : ∀ p ∈ passages, ¬ p.IsDirective) :
    l.ahead = passages.flatMap Passage.text ++ l'.ahead := by
  induction h with
  | nil l => rfl
  | @cons l l₁ l' p passages hread _ ih =>
    rw [List.flatMap_cons, List.append_assoc,
      ← ih fun q hq => hdir q (List.mem_cons_of_mem _ hq)]
    cases hread with
    | comment _ _ hahead => exact hahead
    | gap _ hahead _ => exact hahead
    | directive => exact absurd trivial (hdir _ List.mem_cons_self)
    | token _ _ hahead => exact hahead
    | eof _ => rfl

theorem Ends.exists_text {form : CommentForm} {rest : List Char} (h : l.Ends form rest) :
    ∃ text, l.ahead = text ++ rest := by
  cases form with
  | brace =>
    obtain ⟨body, -, hahead⟩ := h
    exact ⟨'{' :: (body ++ ['}']), by simp [hahead]⟩
  | paren =>
    obtain ⟨body, -, hahead⟩ := h
    exact ⟨'(' :: '*' :: (body ++ ['*', ')']), by simp [hahead]⟩
  | line =>
    obtain ⟨line, behind, -, hcontents, -, rfl⟩ := h
    exact ⟨line, by rw [ahead_eq, hcontents, List.append_assoc]⟩

theorem not_opens_nil (h : l.contents = []) (form : CommentForm) : ¬ l.Opens form := by
  intro hopens
  obtain ⟨c, src, hcons, -⟩ := hopens.exists_cons
  simp [h] at hcons

theorem ahead_behind (h : l.contents ≠ []) (s : Scan) : (l.behind s).ahead = s.rest ++ l.below :=
  ahead_goto h s.rest

theorem ahead_nil (hpop : l.popInputIfEof = none) (h : l.contents = []) : l.ahead = [] := by
  cases hs : l.stack with
  | nil => simp [ahead, Input.ahead, hs]
  | cons input below =>
    obtain ⟨path, contents⟩ := input
    obtain rfl : contents = [] := by simpa [Lexer.contents, hs] using h
    cases below with
    | nil => simp [ahead, Input.ahead, hs]
    | cons second below => simp [popInputIfEof, hs] at hpop

theorem comment_reads {form : CommentForm} (hl : l.CommentsEnd) (hopens : l.Opens form)
    (h : l.turn files = .again l') : ∃ text, Reads l (.comment text) l' := by
  have hskips : l.SkipsComment files form :=
    (skipsComment_iff_commentEnds hopens).mpr (hl form hopens)
  have hends := (skipsComment_iff hopens).mp hskips
  rw [turn_comment hopens, LoopStep.again.injEq] at h
  rw [h] at hends
  obtain ⟨text, htext⟩ := hends.exists_text
  exact ⟨text, .comment hopens hends htext⟩

theorem pop_reads (h : l.popInputIfEof = some l') : Reads l (.gap []) l' := by
  unfold popInputIfEof at h
  split at h
  · rename_i path input below hstack
    cases h
    refine .gap (not_opens_nil (by simp [contents, hstack])) ?_ (by simp)
    simp [ahead, Input.ahead, hstack]
  · contradiction

theorem goto_reads (text : List Char) {rest : List Char} (h : l.contents = text ++ rest) (hne : l.contents ≠ [])
    (hopens : ∀ form, ¬ l.Opens form) (htext : l.accepting = true → ∀ c ∈ text, isSpace c = true) :
    Reads l (.gap text) (l.goto rest) := by
  refine .gap hopens ?_ htext
  rw [ahead_goto hne, ahead_eq, h, List.append_assoc]

theorem directive_reads (text : List Char) {rest body : List Char} (h : l.contents = text ++ rest)
    (hne : l.contents ≠ []) (htext : ['{', '$'] <+: text ∨ ['(', '*', '$'] <+: text) :
    Reads l (.directive text) ((l.goto rest).handleDirective files body) := by
  obtain ⟨included, hincluded⟩ := (l.goto rest).handleDirective_ahead files body
  rw [ahead_goto hne] at hincluded
  exact .directive htext (by rw [ahead_eq, h, List.append_assoc]) hincluded

theorem beforeParen_append (src : List Char) :
    ∃ text, src = text ++ skipParen src := by
  rcases skipParen_spec src with ⟨body, -, hsrc⟩ | ⟨hnil, -⟩
  · refine ⟨body ++ ['*', ')'], ?_⟩
    calc src = body ++ '*' :: ')' :: skipParen src := hsrc
      _ = body ++ ['*', ')'] ++ skipParen src := by simp
  · exact ⟨src, by simp [hnil]⟩

theorem skipTurn_reads (hopens : ∀ form, ¬ l.Opens form) (h : l.skipTurn files = some l') :
    ∃ p, Reads l p l' ∧ p.token? = none := by
  unfold skipTurn at h
  split at h
  · contradiction
  · rename_i c src hcons
    have hne : l.contents ≠ [] := by simp [hcons]
    split at h
    · rename_i hspace
      cases h
      exact ⟨_, goto_reads [c] hcons hne hopens (by simp [hspace]), rfl⟩
    · split at h
      · rename_i src _
        exact absurd ⟨src, hcons⟩ (hopens .line)
      · rename_i body _
        cases h
        have hbody := List.takeWhile_append_dropWhile (p := (· ≠ '}')) (l := body)
        refine ⟨_, directive_reads ('{' :: '$' :: (body.takeWhile (· ≠ '}') ++
          (body.dropWhile (· ≠ '}')).take 1)) ?_ hne (.inl ⟨_, rfl⟩), rfl⟩
        rw [hcons, List.cons_append, List.cons_append, List.append_assoc, List.take_append_drop,
          hbody]
      · rename_i hdollar
        refine absurd ⟨src, hcons, fun hhead => ?_⟩ (hopens .brace)
        obtain ⟨body, rfl⟩ := List.head?_eq_some_iff.mp hhead
        exact hdollar body rfl
      · rename_i body _
        cases h
        obtain ⟨text, hbody⟩ := beforeParen_append body
        refine ⟨_, directive_reads ('(' :: '*' :: '$' :: text) ?_ hne (.inr ⟨_, rfl⟩), rfl⟩
        rw [hcons, List.cons_append, List.cons_append, List.cons_append, ← hbody]
      · rename_i src hdollar _
        refine absurd ⟨src, hcons, fun hhead => ?_⟩ (hopens .paren)
        obtain ⟨body, rfl⟩ := List.head?_eq_some_iff.mp hhead
        exact hdollar body rfl
      · contradiction

theorem turn_again_reads (hl : l.CommentsEnd) (h : l.turn files = .again l') :
    ∃ p, Reads l p l' ∧ p.token? = none := by
  by_cases hopens : ∃ form, l.Opens form
  · obtain ⟨form, hform⟩ := hopens
    obtain ⟨text, hreads⟩ := comment_reads hl hform h
    exact ⟨_, hreads, rfl⟩
  · have hnot := not_exists.mp hopens
    unfold turn at h
    split at h
    · rename_i hpop
      cases h
      exact ⟨_, pop_reads hpop, rfl⟩
    · split at h
      · rename_i hskip
        cases h
        exact skipTurn_reads hnot hskip
      · unfold scanTurn at h
        split at h
        · contradiction
        · rename_i c src hcons
          have hne : l.contents ≠ [] := by simp [hcons]
          dsimp only at h
          split at h
          · contradiction
          · rename_i hrejected
            have hno (text : List Char) (ha : l.accepting = true) :
                ∀ c ∈ text, isSpace c = true := absurd ha hrejected
            split at h
            · rename_i hstring
              cases h
              obtain ⟨text, hrest, -⟩ := taken_string hstring src
              refine ⟨.gap (c :: text), .gap hnot ?_ (hno _), rfl⟩
              rw [ahead_behind hne, ahead_eq, hcons, ← List.append_assoc, ← hrest]
            · cases h
              exact ⟨_, goto_reads [c] hcons hne hnot (hno [c]), rfl⟩

theorem turn_done_reads {t : Token} (h : l.turn files = .done (t, l')) :
    ∃ p, Reads l p l' ∧ p.token? = some t := by
  unfold turn at h
  split at h
  · contradiction
  · rename_i hpop
    split at h
    · contradiction
    · rename_i hskip
      have hnot (form : CommentForm) : ¬ l.Opens form := by
        intro hopens
        rw [skipTurn_comment hopens] at hskip
        contradiction
      unfold scanTurn at h
      split at h
      · rename_i hnil
        cases h
        exact ⟨_, .eof (ahead_nil hpop hnil), rfl⟩
      · rename_i c src hcons
        dsimp only at h
        split at h
        · rename_i ha
          cases h
          obtain ⟨text, hrest, htoken⟩ := scan_taken c src
          refine ⟨.token (c :: text) _, ?_, rfl⟩
          rw [← htoken]
          refine .token hnot ha ?_
          rw [ahead_behind (by simp [hcons]), ahead_eq, hcons, List.cons_append, List.cons_append,
            ← List.append_assoc, ← hrest]
        · split at h <;> contradiction

theorem turns_read {tokens : List Token} (h : Turns files CommentsEnd l tokens l') :
    ∃ passages, ReadsAll l passages l' ∧ passages.filterMap Passage.token? = tokens := by
  induction h with
  | nil l => exact ⟨[], .nil l, rfl⟩
  | skip hl hturn _ ih =>
    obtain ⟨passages, hreads, htokens⟩ := ih
    obtain ⟨p, hp, hnone⟩ := turn_again_reads hl hturn
    exact ⟨p :: passages, .cons hp hreads, by simp [hnone, htokens]⟩
  | token hl hturn _ ih =>
    obtain ⟨passages, hreads, htokens⟩ := ih
    obtain ⟨p, hp, hsome⟩ := turn_done_reads hturn
    exact ⟨p :: passages, .cons hp hreads, by simp [hsome, htokens]⟩

/-- The lexer does right by a comment exactly where it ends, with no zero inside braces and in its
own file where it stands in parentheses; and in a run over such comments every token is scanned
from a text of its own, apart from all comments. -/
theorem comments_skipped_iff (files : IncludeFiles) :
    (∀ (l : Lexer) (form : CommentForm), l.Opens form →
      (l.SkipsComment files form ↔ l.CommentEnds form)) ∧
    ∀ (l : Lexer) (tokens : List Token) (l' : Lexer), Turns files CommentsEnd l tokens l' →
      ∃ passages, ReadsAll l passages l' ∧ passages.filterMap Passage.token? = tokens ∧
        ((∀ p ∈ passages, ¬ p.IsDirective) →
          l.ahead = passages.flatMap Passage.text ++ l'.ahead) := by
  refine ⟨fun l form => skipsComment_iff_commentEnds, fun l tokens l' h => ?_⟩
  obtain ⟨passages, hreads, htokens⟩ := turns_read h
  exact ⟨passages, hreads, htokens, hreads.joined⟩

theorem skipsComment_small :
    (ofSource "p.pas" ['{', 'a', '}', 'b']).SkipsComment noIncludes .brace := by
  refine ((comments_skipped_iff noIncludes).1 _ .brace ⟨['a', '}', 'b'], rfl, by decide⟩).mpr ?_
  exact ⟨['a'], ['b'], .symbol (by decide) (by decide) .nil, by decide, rfl⟩

/-- A zero ends a comment in braces early, and what is behind it is a token; of a comment without
an end nothing is said. -/
theorem not_skipsComment :
    ¬ (ofSource "p.pas" ['{', noChar, 'x', '}']).SkipsComment noIncludes .brace ∧
    (∃ t l₁ l₂, (ofSource "p.pas" ['{', noChar, 'x', '}']).next noIncludes 3 = some (t, l₁) ∧
      l₁.next noIncludes 1 = some ({ kind := .ident, text := "x" }, l₂)) ∧
    ∃ l₁, (ofSource "p.pas" ['{', 'x']).next noIncludes 3 = some ({ kind := .eof }, l₁) ∧
      l₁.diagnostics = [] := by
  refine ⟨fun h => ?_, ⟨_, _, _, rfl, rfl⟩, _, rfl, rfl⟩
  have hopens : (ofSource "p.pas" ['{', noChar, 'x', '}']).Opens .brace :=
    ⟨[noChar, 'x', '}'], rfl, by decide⟩
  obtain ⟨body, -, hbody⟩ := (skipsComment_iff hopens).mp h
  have hlength : 4 = (body ++ '}' :: [noChar, 'x', '}']).length+1 := congrArg List.length hbody
  simp only [List.length_append, List.length_cons] at hlength
  omega

end Lexer
end Tp2cc
