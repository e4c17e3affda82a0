import Tp2cc.Lexer.IfLaw

set_option autoImplicit false

namespace Tp2cc.IfExpr
open Machine Parsing

def Joint.Ends : Joint → List Char → Prop
  | .and, src => ∀ rest, ¬ HasWord Joint.and.word src rest
  | .or, src => ∀ (j : Joint) rest, ¬ HasWord j.word src rest

def Part.Ends : Part → List Char → Prop
  | .expr, src => Joint.or.Ends src ∧ ∀ op rest, ¬ HasRelop op src rest
  | .chain j, src | .tail j _, src => j.Ends src
  | .unary, _ | .primary, _ => True

section
variable {src rest : List Char}

theorem ends_of_head {c : Char} (h : src.head? = some c) (hc : c.toLower ≠ 'a')
    (hc' : c.toLower ≠ 'o') (j : Joint) : j.Ends src := by
  have hno (j : Joint) (rest : List Char) : ¬ HasWord j.word src rest := by
    intro hword
    cases j with
    | and =>
      obtain ⟨d, hd, hlower⟩ := HasWord.head hword
      obtain rfl : c = d := Option.some.inj (h.symm.trans hd)
      exact hc hlower
    | or =>
      obtain ⟨d, hd, hlower⟩ := HasWord.head hword
      obtain rfl : c = d := Option.some.inj (h.symm.trans hd)
      exact hc' hlower
  cases j with
  | and => exact hno .and
  | or => exact hno

theorem HasMark.ends (h : HasMark ')' src rest) : Part.expr.Ends src := by
  refine ⟨ends_of_head h.head (by decide) (by decide) .or, fun op rest hrelop => ?_⟩
  obtain ⟨d, hd, hmem⟩ := hrelop.head
  rw [h.head] at hd
  cases hd
  simp at hmem

theorem HasRelop.ends {op : RelOp} (h : HasRelop op src rest) : Joint.or.Ends src := by
  obtain ⟨d, hd, hmem⟩ := h.head
  simp only [List.mem_cons, List.not_mem_nil, or_false] at hmem
  rcases hmem with rfl | rfl | rfl <;> exact ends_of_head hd (by decide) (by decide) .or

theorem ends_nil : Part.expr.Ends [] := by
  refine ⟨fun j rest h => ?_, fun op rest h => ?_⟩
  · cases j <;> obtain ⟨d, hd, -⟩ := HasWord.head h <;> cases hd
  · obtain ⟨d, hd, -⟩ := h.head
    cases hd

theorem operand_ends {j : Joint} {left e : Cond} (h : Spells (.tail j left) src e rest)
    (hends : j.Ends rest) : j.operand.Ends src := by
  cases j with
  | and => trivial
  | or =>
    cases h with
    | done => exact hends .and
    | more hword _ _ =>
      obtain ⟨d, hd, hlower⟩ := HasWord.head hword
      have hd' : d.toLower ≠ 'a' := by
        rw [hlower]
        decide
      intro rest hand
      obtain ⟨d', hd'', hlower'⟩ := HasWord.head hand
      rw [hd] at hd''
      cases hd''
      exact hd' hlower'

end

theorem Denotes.unique {env : Env} (hsymbol : ∀ name v w, env.symbol name v → env.symbol name w → v = w)
    {e : Cond} {v w : Value} (hv : Denotes env e v) (hw : Denotes env e w) : v = w := by
  induction hv generalizing w with
  | defined => cases hw; rfl
  | bool => cases hw; rfl
  | int => cases hw; rfl
  | symbol h =>
    cases hw with
    | symbol h' => exact hsymbol _ _ _ h h'
  | not _ ih =>
    cases hw with
    | not h' =>
      cases ih h'
      rfl
  | join _ _ iha ihb =>
    cases hw with
    | join ha hb =>
      cases iha ha
      cases ihb hb
      rfl
  | bools hf _ _ iha ihb =>
    cases hw with
    | bools hf' ha hb =>
      cases iha ha
      cases ihb hb
      rw [hf] at hf'
      cases hf'
      rfl
    | ints ha _ => cases iha ha
  | ints _ _ iha ihb =>
    cases hw with
    | bools _ ha _ => cases iha ha
    | ints ha hb =>
      cases iha ha
      cases ihb hb
      rfl

theorem Denotes.reading_unique {defines : Symbols} {e : Cond} {v w : Value}
    (hv : Denotes (reading defines) e v) (hw : Denotes (reading defines) e w) : v = w := by
  refine hv.unique ?_ hw
  rintro name v w ⟨text, htext, hvalue⟩ ⟨text', htext', hvalue'⟩
  rw [htext] at htext'
  cases htext'
  rw [hvalue] at hvalue'
  exact Option.some.inj hvalue'

theorem Spells.left_value {env : Env} {part : Part} {src rest : List Char} {e : Cond}
    (h : Spells part src e rest) {j : Joint} {left : Cond} (hp : part = .tail j left) {v : Value}
    (hv : Denotes env e v) : ∃ u, Denotes env left u := by
  induction h generalizing j left v with
  | done =>
    cases hp
    exact ⟨v, hv⟩
  | more _ _ _ _ ih =>
    cases hp
    obtain ⟨u, hu⟩ := ih rfl hv
    cases hu with
    | join ha _ => exact ⟨_, ha⟩
  | _ => cases hp

/-- Where fewer than `n` characters are left the parser returns the value of the part in front. -/
def Complete (defines : Symbols) (part : Part) (n : Nat) (p : IP Value) : Prop :=
  ∀ (s : State) (e : Cond) (v : Value) (rest : List Char), s.src.length < n →
    Spells part (afterBlanks s.src) e rest → part.Ends rest → Denotes (reading defines) e v →
    ∃ src, p s = some (v, s.at src) ∧ afterBlanks src = rest ∧ src.length ≤ s.src.length

variable {defines : Symbols} {n : Nat}

section
variable {j : Joint} {operand : IP Value}

theorem chainLoop_complete (ho : Complete defines j.operand n operand) {m : Nat} {s : State}
    {left e : Cond} {v w : Value} {rest : List Char} (hm : s.src.length < m)
    (hn : s.src.length < n) (h : Spells (.tail j left) (afterBlanks s.src) e rest)
    (hends : j.Ends rest) (hv : Denotes (reading defines) left v)
    (hw : Denotes (reading defines) e w) :
    ∃ src, Parsing.loop (chainStep j.word j.apply operand) m v s = some (w, s.at src) ∧
      afterBlanks src = rest ∧ src.length ≤ s.src.length := by
  induction m generalizing s left v with
  | zero => exact absurd hm (Nat.not_lt_zero _)
  | succ m ih =>
    generalize hsrc : afterBlanks s.src = start at h
    cases h with
    | done =>
      cases hv.reading_unique hw
      have hno : ∀ rest, ¬ HasWord j.word (afterBlanks s.src) rest := by
        rw [hsrc]
        cases j with
        | and => exact hends
        | or => exact hends .or
      have hstep : chainStep j.word j.apply operand w s =
          some (.done w, s.at (afterBlanks s.src)) := (matchWord_detects j.word_ne).branch_no hno
      exact ⟨_, loop_last hstep, by rw [afterBlanks_afterBlanks, hsrc], afterBlanks_length _⟩
    | @more _ _ s₁ s₂ _ _ right _ hword hright htail =>
      obtain ⟨u, hu⟩ := htail.left_value rfl hw
      cases hu with
      | @join _ _ _ x y hx hy =>
        cases hv.reading_unique hx
        rw [← hsrc] at hword
        obtain ⟨src₁, hrun₁, rfl, hlt₁⟩ := (matchWord_detects j.word_ne).yes hword
        obtain ⟨src₂, hrun₂, rfl, hle₂⟩ := ho (s.at src₁) right _ s₂ (by simp only [State.at_src]; omega)
          hright (operand_ends htail hends) hy
        rw [State.at_src] at hle₂
        have hstep : chainStep j.word j.apply operand (.bool x) s =
            some (.again (.bool (j.apply x y)), s.at src₂) := by
          rw [chainStep, bind_of hrun₁, if_pos rfl, bind_of hrun₂]
          rfl
        obtain ⟨src₃, hrun₃, hrest, hle₃⟩ := ih (s := s.at src₂) (by simp only [State.at_src]; omega)
          (by simp only [State.at_src]; omega) htail (.join hx hy)
        rw [State.at_src] at hle₃
        exact ⟨src₃, by rw [loop_round hstep, hrun₃]; rfl, hrest, by omega⟩

theorem parseChain_complete (ho : Complete defines j.operand n operand) {r : Routines}
    (hr : n ≤ r.fuel) : Complete defines (.chain j) n (parseChain r j.word j.apply operand) := by
  intro s e v rest hn h hends hv
  cases h with
  | @chain _ _ s₁ _ left _ hleft htail =>
    obtain ⟨u, hu⟩ := htail.left_value rfl hv
    obtain ⟨src, hrun, rfl, hle⟩ := ho s left u s₁ hn hleft (operand_ends htail hends) hu
    obtain ⟨src', hloop, hrest, hle'⟩ := chainLoop_complete ho (s := s.at src)
      (by simp only [State.at_src]; omega) (by simp only [State.at_src]; omega) htail hends hu hv
      (m := r.fuel)
    refine ⟨src', ?_, hrest, hle'.trans hle⟩
    rw [parseChain_eq, bind_of hrun, hloop]
    rfl

end

section
variable {src rest : List Char}

theorem not_mark_of_head {c d : Char} (h : src.head? = some d) (hne : d ≠ c) :
    ∀ rest, ¬ HasMark c src rest := by
  intro rest hmark
  rw [hmark.head] at h
  exact hne (Option.some.inj h).symm

theorem not_word_of_head {c d : Char} {word : List Char} (h : src.head? = some d)
    (hne : d.toLower ≠ c) : ∀ rest, ¬ HasWord (c :: word) src rest := by
  intro rest hword
  obtain ⟨d', hd', hlower⟩ := hword.head
  rw [h] at hd'
  cases hd'
  exact hne hlower

theorem HasWord.only {c : Char} {word : List Char} (h : HasWord (c :: word) src rest)
    (hc : c ≠ '(') : (∀ rest, ¬ HasMark '(' src rest) ∧
      ∀ (c' : Char) (word' : List Char), c' ≠ c → ∀ rest, ¬ HasWord (c' :: word') src rest := by
  obtain ⟨d, hd, hlower⟩ := h.head
  refine ⟨not_mark_of_head hd ?_, fun c' word' hne => not_word_of_head hd ?_⟩
  · rintro rfl
    exact hc hlower.symm
  · rw [hlower]
    exact Ne.symm hne

theorem HasNumeral.only {negative : Bool} {digits : List Char}
    (h : HasNumeral negative digits src rest) : (∀ rest, ¬ HasMark '(' src rest) ∧
      ∀ word ∈ [wordNot, wordDefined, wordTrue, wordFalse], ∀ rest, ¬ HasWord word src rest := by
  obtain ⟨d, hd, hcases⟩ := h.head
  have hlower : d.toLower.isLower = false ∧ d ≠ '(' := by
    rcases hcases with rfl | rfl | hdigit
    · exact ⟨rfl, by decide⟩
    · exact ⟨rfl, by decide⟩
    · rw [toLower_digit hdigit]
      refine ⟨?_, ?_⟩
      · have hlow : d.isLower = (decide (d.val ≥ 97) && decide (d.val ≤ 122)) := rfl
        grind [Char.isDigit]
      · rintro rfl
        contradiction
  have hno {c : Char} {word : List Char} (hc : c.isLower = true) :
      ∀ rest, ¬ HasWord (c :: word) src rest := by
    refine not_word_of_head hd ?_
    rintro rfl
    rw [hlower.1] at hc
    contradiction
  refine ⟨not_mark_of_head hd hlower.2, fun word hword => ?_⟩
  simp only [List.mem_cons, List.not_mem_nil, or_false] at hword
  rcases hword with rfl | rfl | rfl | rfl <;> exact hno rfl

theorem Spells.not_wordNot {part : Part} {e : Cond} (h : Spells part src e rest)
    (hp : part = .primary) : ∀ rest, ¬ HasWord wordNot src rest := by
  cases h with
  | paren hopen _ _ => exact not_word_of_head hopen.head (by decide)
  | defined hword _ _ _ => exact (hword.only (by decide)).2 'n' _ (by decide)
  | wordTrue hword => exact (HasWord.only hword (by decide)).2 'n' _ (by decide)
  | wordFalse hword => exact (HasWord.only hword (by decide)).2 'n' _ (by decide)
  | int hnumeral => exact hnumeral.only.2 wordNot (by simp)
  | symbol hother _ => exact hother.word wordNot (by simp)
  | _ => cases hp

end

structure Routines.Complete (defines : Symbols) (r : Routines) (n : Nat) : Prop where
  fuel : n < r.fuel
  parseExpr : IfExpr.Complete defines .expr n r.parseExpr
  parseUnary : IfExpr.Complete defines .unary n r.parseUnary

theorem parseDefined_complete (defines : Symbols) {s : State} {sym : String} {s₁ s₂ rest : List Char}
    (hopen : HasMark '(' (afterBlanks s.src) s₁) (hident : HasIdent sym s₁ s₂)
    (hclose : HasMark ')' s₂ rest) :
    ∃ src, parseDefined defines s = some (.bool (decide (sym ∈ defines)), s.at src) ∧
      afterBlanks src = rest ∧ src.length ≤ s.src.length := by
  obtain ⟨src₁, hrun₁, rfl, hlt₁⟩ := (matchChar_detects '(').yes hopen
  obtain ⟨src₂, hrun₂, hne, rfl, hle₂⟩ := readIdent_yes (s := s.at src₁) hident
  obtain ⟨src₃, hrun₃, rfl, hlt₃⟩ := (matchChar_detects ')').yes (s := s.at src₂) hclose
  simp only [State.at_src, State.at_at] at hrun₂ hrun₃ hle₂ hlt₃
  refine ⟨src₃, ?_, rfl, by omega⟩
  rw [parseDefined, bind_of hrun₁, if_pos rfl, bind_of hrun₂, if_neg hne, bind_of hrun₃, if_pos rfl]
  rfl

theorem parseSymbol_complete {s : State} {name : String} {v : Value} {rest : List Char}
    (hident : HasIdent name (afterBlanks s.src) rest) (hv : (reading defines).symbol name v) :
    ∃ src, parseSymbol defines s = some (v, s.at src) ∧ afterBlanks src = rest ∧
      src.length ≤ s.src.length := by
  obtain ⟨src, hrun, hne, rfl, hle⟩ := readIdent_yes hident
  obtain ⟨text, htext, hvalue⟩ := hv
  refine ⟨src, ?_, rfl, hle⟩
  rw [parseSymbol, bind_of hrun, if_neg hne, htext]
  simp only [hvalue]
  rfl

variable {r : Routines} (hr : r.Complete defines n)
include hr

theorem parsePrimary_complete :
    Complete defines .primary (n+1) (parsePrimary defines r) := by
  intro s e v rest hn h _ hv
  cases h with
  | @paren _ s₁ s₂ _ _ hopen hexpr hclose =>
    obtain ⟨src₁, hrun₁, rfl, hlt₁⟩ := (matchChar_detects '(').yes hopen
    obtain ⟨src₂, hrun₂, rfl, hle₂⟩ := hr.parseExpr (s.at src₁) e v s₂
      (by simp only [State.at_src]; omega) hexpr hclose.ends hv
    obtain ⟨src₃, hrun₃, hrest, hlt₃⟩ := (matchChar_detects ')').yes (s := s.at src₂) hclose
    simp only [State.at_src, State.at_at] at hrun₂ hrun₃ hle₂ hlt₃
    refine ⟨src₃, ?_, hrest, by omega⟩
    rw [parsePrimary, bind_of hrun₁, if_pos rfl, bind_of hrun₂, bind_of hrun₃, if_pos rfl]
    rfl
  | defined hword hopen hident hclose =>
    obtain ⟨hparen, -⟩ := hword.only (by decide)
    cases hv
    obtain ⟨src₁, hrun₁, rfl, hlt₁⟩ := (matchWord_detects (by decide)).take (s := s) hword
    obtain ⟨src₂, hrun₂, hrest, hle₂⟩ := parseDefined_complete defines (s := s.at src₁) hopen
      hident hclose
    refine ⟨src₂, ?_, hrest, hle₂.trans hlt₁.le⟩
    rw [parsePrimary, (matchChar_detects '(').branch_no hparen, bind_of hrun₁, if_pos rfl, hrun₂]
    rfl
  | wordTrue hword =>
    obtain ⟨hparen, hother⟩ := hword.only (by decide)
    cases hv
    obtain ⟨src, hrun, rfl, hlt⟩ := (matchWord_detects (by decide)).take (s := s) hword
    refine ⟨src, ?_, rfl, hlt.le⟩
    rw [parsePrimary, (matchChar_detects '(').branch_no hparen,
      (matchWord_detects (by decide)).skip (hother 'd' _ (by decide)), bind_of hrun, if_pos rfl]
    rfl
  | wordFalse hword =>
    obtain ⟨hparen, hother⟩ := hword.only (by decide)
    have htrue : ∀ rest, ¬ HasWord wordTrue (afterBlanks s.src) rest := hother 't' _ (by decide)
    cases hv
    obtain ⟨src, hrun, rfl, hlt⟩ := (matchWord_detects (by decide)).take (s := s) hword
    refine ⟨src, ?_, rfl, hlt.le⟩
    rw [parsePrimary, (matchChar_detects '(').branch_no hparen,
      (matchWord_detects (by decide)).skip (hother 'd' _ (by decide)),
      (matchWord_detects (by decide)).skip htrue, bind_of hrun, if_pos rfl]
    rfl
  | int hnumeral =>
    obtain ⟨hparen, hother⟩ := hnumeral.only
    cases hv
    obtain ⟨src, hrun, rfl, hle⟩ := readInt_yes (s := s.at (afterBlanks s.src)) (by simpa using hnumeral)
    refine ⟨src, ?_, rfl, hle.trans (afterBlanks_length _)⟩
    rw [parsePrimary, (matchChar_detects '(').branch_no hparen,
      (matchWord_detects (by decide)).skip (hother wordDefined (by simp)),
      (matchWord_detects (by decide)).skip (hother wordTrue (by simp)),
      (matchWord_detects (by decide)).skip (hother wordFalse (by simp)), bind_of hrun]
    rfl
  | symbol hother hident =>
    have hparen : ∀ rest, ¬ HasMark '(' (afterBlanks s.src) rest := by
      obtain ⟨d, hd, hword⟩ := hident.head
      refine not_mark_of_head hd ?_
      rintro rfl
      simp [isWordChar] at hword
    have hnone : readInt (s.at (afterBlanks s.src)) = some (none, s.at (afterBlanks s.src)) := by
      rcases readInt_answer (s.at (afterBlanks s.src)) with
        ⟨negative, digits, src, -, h, -⟩ | ⟨hrun, -⟩
      · exact absurd (by simpa using h) (hother.numeral negative digits (afterBlanks src))
      · simpa using hrun
    cases hv with
    | symbol hv =>
      obtain ⟨src, hrun, hrest, hle⟩ := parseSymbol_complete (s := s.at (afterBlanks s.src))
        (by simpa using hident) hv
      refine ⟨src, ?_, hrest, hle.trans (afterBlanks_length _)⟩
      rw [parsePrimary, (matchChar_detects '(').branch_no hparen,
        (matchWord_detects (by decide)).skip (hother.word wordDefined (by simp)),
        (matchWord_detects (by decide)).skip (hother.word wordTrue (by simp)),
        (matchWord_detects (by decide)).skip (hother.word wordFalse (by simp)), bind_of hnone]
      exact hrun

theorem parseUnary_complete : Complete defines .unary (n+1) (parseUnary defines r) := by
  intro s e v rest hn h _ hv
  cases h with
  | @not _ s₁ _ _ hword hunary =>
    cases hv with
    | not hv =>
      obtain ⟨src₁, hrun₁, rfl, hlt₁⟩ := (matchWord_detects (by decide)).yes hword
      obtain ⟨src₂, hrun₂, hrest, hle₂⟩ := hr.parseUnary (s.at src₁) _ _ rest
        (by simp only [State.at_src]; omega) hunary trivial hv
      rw [State.at_src] at hle₂
      refine ⟨src₂, ?_, hrest, by omega⟩
      rw [parseUnary, bind_of hrun₁, if_pos rfl, bind_of hrun₂]
      rfl
  | primary hprimary =>
    have hno := hprimary.not_wordNot rfl
    obtain ⟨src, hrun, hrest, hle⟩ := parsePrimary_complete hr (s.at (afterBlanks s.src)) e v rest
      ((afterBlanks_length _).trans_lt hn) (by simpa using hprimary) trivial hv
    refine ⟨src, ?_, hrest, hle.trans (afterBlanks_length _)⟩
    rw [parseUnary, (matchWord_detects (by decide)).branch_no hno, hrun]
    rfl

theorem parseSimpleExpr_complete :
    Complete defines (.chain .or) (n+1) (parseSimpleExpr defines r) :=
  parseChain_complete (j := .or) (parseChain_complete (j := .and) (parseUnary_complete hr) hr.fuel)
    hr.fuel

omit hr in
theorem compareValues_complete {op : RelOp} {a b : Cond} {v : Value}
    (h : Denotes (reading defines) (.compare op a b) v) :
    ∃ x y, Denotes (reading defines) a x ∧ Denotes (reading defines) b y ∧
      ∀ s, compareValues op x y s = some (v, s) := by
  cases h with
  | bools hf hx hy =>
    refine ⟨_, _, hx, hy, fun s => ?_⟩
    cases op <;> cases hf <;> rfl
  | ints hx hy =>
    refine ⟨_, _, hx, hy, fun s => ?_⟩
    cases op <;> rfl

theorem parseExpr_complete : Complete defines .expr (n+1) (parseExpr defines r) := by
  intro s e v rest hn h hends hv
  cases h with
  | simple hsimple =>
    obtain ⟨src, hrun, rfl, hle⟩ := parseSimpleExpr_complete hr s e v rest hn hsimple hends.1 hv
    rcases matchRelop_answer (s.at src) with ⟨op, src₁, -, hrelop, -⟩ | ⟨hnone, -⟩
    · exact absurd hrelop (hends.2 op _)
    · refine ⟨afterBlanks src, ?_, afterBlanks_afterBlanks src, (afterBlanks_length src).trans hle⟩
      rw [parseExpr, bind_of hrun, bind_of hnone]
      rfl
  | @compare _ s₁ s₂ _ op a b ha hrelop hb =>
    obtain ⟨x, y, hx, hy, hcompare⟩ := compareValues_complete hv
    obtain ⟨src₁, hrun₁, rfl, hle₁⟩ := parseSimpleExpr_complete hr s a x s₁ hn ha hrelop.ends hx
    obtain ⟨src₂, hrun₂, rfl, hle₂⟩ := matchRelop_yes (s := s.at src₁) hrelop
    rw [State.at_src] at hle₂
    obtain ⟨src₃, hrun₃, hrest, hle₃⟩ := parseSimpleExpr_complete hr (s.at src₂) b y rest
      (by simp only [State.at_src]; omega) hb hends.1 hy
    rw [State.at_src] at hle₃
    refine ⟨src₃, ?_, hrest, by omega⟩
    rw [parseExpr, bind_of hrun₁, bind_of hrun₂]
    simp only [State.at_at]
    rw [bind_of hrun₃]
    exact hcompare _

omit hr in
theorem routines_complete (n : Nat) : (routines defines (n+1)).Complete defines n := by
  induction n with
  | zero =>
    refine ⟨by simp [routines], ?_, ?_⟩
    · intro s e v rest h
      exact absurd h (Nat.not_lt_zero _)
    · intro s e v rest h
      exact absurd h (Nat.not_lt_zero _)
  | succ n ih => exact ⟨by simp [routines], parseExpr_complete ih, parseUnary_complete ih⟩

def outcome (v : Value) (s : State) : Except String Bool :=
  if s.ok = false then .error s.error
  else
    match (afterBlanks s.src).isEmpty, v with
    | false, _ => .error ("unexpected text after \x7b$if\x7d expression: `" ++
        String.ofList (trim (afterBlanks s.src)) ++ "`")
    | true, .int _ => .error "\x7b$if\x7d expression does not produce a boolean value"
    | true, .bool b => .ok b

omit hr in
theorem evalOnFuel_run {expr : List Char} {v : Value} {s : State}
    (h : (routines defines (expr.length+2)).parseExpr { src := expr } = some (v, s)) :
    evalOnFuel defines expr = some (outcome v s) := by
  simp only [evalOnFuel, h, Option.bind_eq_bind, Option.bind_some, outcome]
  split
  · rfl
  · have heof : eof s = some ((afterBlanks s.src).isEmpty, s.at (afterBlanks s.src)) := rfl
    simp only [heof, Option.bind_some]
    cases (afterBlanks s.src).isEmpty <;> cases v <;> rfl

omit hr in
theorem eval_eq_iff {expr : List Char} {x : Except String Bool} :
    eval defines expr = x ↔ evalOnFuel defines expr = some x := by
  rw [eval, Option.eq_some_iff_get_eq]
  refine ⟨fun h => ⟨evalOnFuel_isSome defines expr, h⟩, ?_⟩
  rintro ⟨_, h⟩
  exact h

omit hr in
/-- The evaluator accepts exactly the conditions that have a value, with the integers it reads. -/
theorem eval_iff {expr : List Char} {b : Bool} :
    eval defines expr = .ok b ↔ ∃ e : Cond, e.IsText expr ∧ Denotes (reading defines) e (.bool b) := by
  rw [eval_eq_iff]
  constructor
  · intro h
    obtain ⟨v, s, hrun, -, -⟩ := (routines_return defines (expr.length+1)).parseExpr
      { src := expr } trivial (Nat.lt_succ_self _)
    rw [evalOnFuel_run hrun, Option.some.injEq] at h
    unfold outcome at h
    cases hok : s.ok with
    | false =>
      rw [if_pos hok] at h
      contradiction
    | true =>
      obtain ⟨-, e, hspells, hvalue⟩ := (routines_sound _).parseExpr _ _ _ hrun hok
      rw [if_neg (by simp [hok])] at h
      cases hsrc : afterBlanks s.src with
      | cons c src =>
        rw [hsrc] at h
        cases v <;> contradiction
      | nil =>
        rw [hsrc] at h hspells
        cases v with
        | int i => contradiction
        | bool b' =>
          cases h
          exact ⟨e, hspells, hvalue⟩
  · rintro ⟨e, htext, hvalue⟩
    obtain ⟨src, hrun, hrest, -⟩ := (routines_complete (expr.length+1)).parseExpr { src := expr } e _ []
      (Nat.lt_succ_self _) htext ends_nil hvalue
    rw [evalOnFuel_run hrun]
    simp [outcome, hrest]

end Tp2cc.IfExpr
