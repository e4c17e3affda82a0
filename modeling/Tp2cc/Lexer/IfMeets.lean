import Tp2cc.Lexer.IfComplete

set_option autoImplicit false

namespace Tp2cc.IfExpr
open Machine Parsing

theorem digit_val {c : Char} (h : c.isDigit = true) :
    ((c.toNat - '0'.toNat : Nat) : Int) = (c.toNat : Int)-('0'.toNat : Nat) := by
  have hle : '0'.toNat ≤ c.toNat := by
    rw [Char.isDigit, Bool.and_eq_true, decide_eq_true_eq] at h
    exact h.1
  omega

theorem readDigits_eq {digits : List Char} (h : ∀ c ∈ digits, c.isDigit = true) :
    readDigits digits = int64.reduce (integer false digits) := by
  induction digits using List.reverseRecOn with
  | nil => exact (IntType.reduce_of_holds (by decide)).symm
  | append_singleton digits d ih =>
    have hlast := digit_val (h d (by simp))
    have hstep : integer false (digits ++ [d]) =
        integer false digits*10+((d.toNat : Int)-('0'.toNat : Nat)) := by
      rw [← hlast]
      simp [integer]
    have hemod := IntType.reduce_emod int64 (integer false digits)
    rw [readDigits, List.foldl_append, ← readDigits, ih fun c hc => h c (by simp [hc]),
      List.foldl_cons, List.foldl_nil, hstep]
    refine IntType.reduce_congr ?_
    rw [Int.add_emod, Int.mul_emod, hemod, ← Int.mul_emod, ← Int.add_emod]

/-- The evaluator reads integers modulo the range of 64 bits. -/
theorem readInteger_eq {digits : List Char} (negative : Bool)
    (h : ∀ c ∈ digits, c.isDigit = true) :
    readInteger negative digits = int64.reduce (integer negative digits) := by
  cases negative with
  | false => exact readDigits_eq h
  | true =>
    have hneg : integer true digits = 0-integer false digits := by simp [integer]
    rw [hneg, readInteger, if_pos rfl, readDigits_eq h, ← Int.zero_sub]
    apply IntType.reduce_congr
    rw [Int.sub_emod, IntType.reduce_emod, ← Int.sub_emod]

def Cond.Numerals : Cond → Prop
  | .int _ digits => ∀ c ∈ digits, c.isDigit = true
  | .not e => e.Numerals
  | .join _ a b | .compare _ a b => a.Numerals ∧ b.Numerals
  | .defined _ | .bool _ | .symbol _ => True

def Part.Numerals : Part → Prop
  | .tail _ left => left.Numerals
  | _ => True

theorem Joint.operand_numerals (j : Joint) : j.operand.Numerals := by cases j <;> trivial

theorem Spells.numerals {part : Part} {src rest : List Char} {e : Cond}
    (h : Spells part src e rest) (hpart : part.Numerals) : e.Numerals := by
  induction h with
  | simple _ ih => exact ih trivial
  | compare _ _ _ iha ihb => exact ⟨iha trivial, ihb trivial⟩
  | @chain j src s rest left e _ _ ihleft ih => exact ih (ihleft j.operand_numerals)
  | done => exact hpart
  | @more j src s₁ s₂ rest left right e _ _ _ ihright ih =>
    exact ih ⟨hpart, ihright j.operand_numerals⟩
  | not _ _ ih => exact ih trivial
  | primary _ ih => exact ih trivial
  | paren _ _ _ ih => exact ih trivial
  | defined => trivial
  | wordTrue => trivial
  | wordFalse => trivial
  | int hint =>
    obtain ⟨sign, behind, -, -, -, hdigits, -⟩ := hint
    exact hdigits
  | symbol => trivial

inductive Kind where
  | boolean | integer

def Value.kind : Value → Kind
  | .bool _ => .boolean
  | .int _ => .integer

/-- A boolean word that does not end the text, and then an operand of the kind that does. -/
inductive Resumes (src : List Char) : Kind → Prop
  | false {rest : List Char} : HasWord wordTrue src rest → HasWord wordFalse rest [] →
      Resumes src .boolean
  | int {word rest digits : List Char} {negative : Bool} : word ∈ [wordTrue, wordFalse] →
      HasWord word src rest → HasNumeral negative digits rest [] → Resumes src .integer
  | both {s rest digits : List Char} {negative : Bool} : HasWord wordTrue src s →
      HasWord wordFalse s rest → HasNumeral negative digits rest [] → Resumes src .integer

/-- The evaluator accepts exactly the conditions that have a value, and gives that value. -/
def Meets (defines : Symbols) (expr : List Char) : Prop :=
  ∀ b, eval defines expr = .ok b ↔
    ∃ e : Cond, e.IsText expr ∧ Denotes (written defines) e (.bool b)

def Value.reduce : Value → Value
  | .bool b => .bool b
  | .int i => .int (int64.reduce i)

theorem eof_at {s : State} (h : afterBlanks s.src = []) : eof s = some (true, s.at []) := by
  rw [eof, bind_of (skipWs_at s), h]
  rfl

theorem matchLastWord_yes {word src : List Char} (hw : word ≠ [])
    (h : HasWord word (afterBlanks src) []) :
    matchLastWord word { src } = some (true, { src := [] }) := by
  obtain ⟨src', hrun, hrest, -⟩ := (matchWord_detects hw).branch_yes (s := { src }) h
  rw [matchLastWord, hrun, eof_at hrest]
  rfl

theorem matchLastWord_no {word src : List Char} (hw : word ≠ [])
    (h : ∀ rest, ¬ HasWord word (afterBlanks src) rest) :
    matchLastWord word { src } = some (false, { src := afterBlanks src }) := by
  rw [matchLastWord, (matchWord_detects hw).branch_no h]
  rfl

def lastInt : IP (Option Value) := do
  match ← readInt with
  | none => return none
  | some v => do
    if ← eof then return some (.int v) else return none

theorem parseMacroValue_eq : parseMacroValue = (do
    if ← matchLastWord wordTrue then return some (.bool true)
    else if ← matchLastWord wordFalse then return some (.bool false)
    else lastInt) := rfl

theorem lastInt_yes {negative : Bool} {digits src : List Char}
    (h : HasNumeral negative digits (afterBlanks src) []) :
    lastInt { src } = some (some (.int (readInteger negative digits)), { src := [] }) := by
  obtain ⟨src', hrun, hrest, -⟩ := readInt_yes (s := { src }) h
  rw [lastInt, bind_of hrun]
  dsimp only
  rw [bind_of (eof_at hrest)]
  rfl

theorem hasNumeral_of_lastInt {src : List Char} {v : Value} {s : State}
    (h : lastInt { src } = some (some v, s)) :
    v.kind = .integer ∧ ∃ negative digits, HasNumeral negative digits (afterBlanks src) [] := by
  rcases readInt_answer { src } with ⟨negative, digits, src', hrun, hint, -⟩ | ⟨hrun, -⟩
  · rw [lastInt, bind_of hrun] at h
    dsimp only at h
    cases hend : afterBlanks src' with
    | nil =>
      rw [bind_of (eof_at hend)] at h
      cases h
      exact ⟨rfl, negative, digits, hend ▸ hint⟩
    | cons c rest =>
      have hskip : skipWs (State.at { src } src') = some ((), State.at { src } (c :: rest)) :=
        hend ▸ skipWs_at _
      rw [eof, bind_assoc, bind_of hskip] at h
      cases h
  · rw [lastInt, bind_of hrun] at h
    cases h

theorem macroValue_of_isValue {text : String} {v : Value} (h : IsValue text.toList v) :
    macroValue text = some v.reduce := by
  have hwt : IfExpr.wordTrue ≠ [] := by simp [IfExpr.wordTrue]
  have hwf : IfExpr.wordFalse ≠ [] := by simp [IfExpr.wordFalse]
  rw [macroValue, parseMacroValue_eq]
  generalize text.toList = src at h
  cases h with
  | wordTrue h =>
    rw [bind_of (matchLastWord_yes hwt h)]
    rfl
  | wordFalse h =>
    have htrue := (h.only (by decide)).2 't' ['r', 'u', 'e'] (by decide)
    rw [bind_of (matchLastWord_no hwt htrue), if_neg (by simp),
      bind_of (matchLastWord_yes hwf (by simpa using h))]
    rfl
  | @int negative digits h =>
    have htrue := h.only.2 IfExpr.wordTrue (by simp)
    have hfalse := h.only.2 IfExpr.wordFalse (by simp)
    have hskipped : HasNumeral negative digits (afterBlanks (afterBlanks src)) [] := by simpa using h
    have hlast := lastInt_yes hskipped
    obtain ⟨sign, behind, -, -, -, hdigits, -⟩ := h
    rw [bind_of (matchLastWord_no hwt htrue), if_neg (by simp),
      bind_of (matchLastWord_no hwf (by simpa using hfalse)), if_neg (by simp),
      afterBlanks_afterBlanks, hlast, readInteger_eq negative hdigits]
    rfl

theorem matchLastWord_answer {word : List Char} (hw : word ≠ []) (s : State) :
    (∃ src, matchLastWord word s = some (true, s.at src) ∧ HasWord word (afterBlanks s.src) []) ∨
    ∃ src, matchLastWord word s = some (false, s.at src) ∧ afterBlanks src = src ∧
      (HasWord word (afterBlanks s.src) src ∨ src = afterBlanks s.src) := by
  rcases (matchWord_detects hw).answer s with ⟨src, hrun, hword, -⟩ | ⟨hrun, -⟩
  · cases hend : afterBlanks src with
    | nil =>
      rw [hend] at hword
      refine .inl ⟨[], ?_, hword⟩
      rw [matchLastWord, bind_of hrun, if_pos rfl, eof_at hend]
      rfl
    | cons c rest =>
      rw [hend] at hword
      have hsame := afterBlanks_afterBlanks src
      rw [hend] at hsame
      refine .inr ⟨c :: rest, ?_, hsame, .inl hword⟩
      have hskip : skipWs (s.at src) = some ((), s.at (c :: rest)) := hend ▸ skipWs_at (s.at src)
      rw [matchLastWord, bind_of hrun, if_pos rfl, eof, bind_of hskip]
      rfl
  · refine .inr ⟨afterBlanks s.src, ?_, afterBlanks_afterBlanks _, .inr rfl⟩
    rw [matchLastWord, bind_of hrun]
    rfl

theorem macroValue_cases {text : String} {v : Value} (h : macroValue text = some v) :
    (∃ w, IsValue text.toList w) ∨ Resumes (afterBlanks text.toList) v.kind := by
  have hwt : IfExpr.wordTrue ≠ [] := by simp [IfExpr.wordTrue]
  have hwf : IfExpr.wordFalse ≠ [] := by simp [IfExpr.wordFalse]
  rw [macroValue, parseMacroValue_eq] at h
  generalize text.toList = src at h ⊢
  rcases matchLastWord_answer hwt { src } with ⟨s₁, -, hword⟩ | ⟨s₁, hrun, hs₁, htrue⟩
  · exact .inl ⟨_, .wordTrue hword⟩
  rw [bind_of hrun, if_neg (by simp)] at h
  rcases matchLastWord_answer hwf (State.at { src } s₁) with
    ⟨s₂, hrun, hword⟩ | ⟨s₂, hrun, hs₂, hfalse⟩
  · rw [State.at_src, hs₁] at hword
    rw [bind_of hrun] at h
    cases h
    rcases htrue with htrue | rfl
    · exact .inr (.false htrue hword)
    · exact .inl ⟨_, .wordFalse hword⟩
  rw [State.at_src, hs₁] at hfalse
  rw [bind_of hrun, if_neg (by simp)] at h
  rw [Option.bind_eq_some_iff] at h
  obtain ⟨⟨found, s₃⟩, hlast, rfl⟩ := h
  obtain ⟨hkind, negative, digits, hint⟩ := @hasNumeral_of_lastInt s₂ _ _ hlast
  rw [hs₂] at hint
  rw [hkind]
  rcases htrue with htrue | rfl <;> rcases hfalse with hfalse | rfl
  · exact .inr (.both htrue hfalse hint)
  · exact .inr (.int (by simp) htrue hint)
  · exact .inr (.int (by simp) hfalse hint)
  · exact .inl ⟨_, .int hint⟩

theorem matchLastWord_stops {word src rest : List Char} (hw : word ≠ [])
    (h : HasWord word (afterBlanks src) rest) (hne : rest ≠ []) :
    matchLastWord word { src } = some (false, { src := rest }) ∧ afterBlanks rest = rest := by
  obtain ⟨src', hrun, rfl, -⟩ := (matchWord_detects hw).branch_yes (s := { src }) h
  refine ⟨?_, afterBlanks_afterBlanks src'⟩
  rw [matchLastWord, hrun, eof, bind_of (skipWs_at _)]
  exact congrArg (fun b => some (b, _)) (by simpa using hne)

theorem Resumes.macroValue {text : String} {k : Kind} (h : Resumes (afterBlanks text.toList) k) :
    ∃ v, IfExpr.macroValue text = some v ∧ v.kind = k := by
  have hwt : IfExpr.wordTrue ≠ [] := by simp [IfExpr.wordTrue]
  have hwf : IfExpr.wordFalse ≠ [] := by simp [IfExpr.wordFalse]
  rw [IfExpr.macroValue, parseMacroValue_eq]
  generalize text.toList = src at h
  cases h with
  | @false rest hword hnext =>
    obtain ⟨d, hd, -⟩ := hnext.head
    obtain ⟨hrun, hsame⟩ := matchLastWord_stops hwt hword (by rintro rfl; cases hd)
    rw [bind_of hrun, if_neg (by simp), bind_of (matchLastWord_yes hwf (hsame.symm ▸ hnext))]
    exact ⟨_, rfl, rfl⟩
  | @int word rest digits negative hmem hword hint =>
    obtain ⟨d, hd, -⟩ := hint.head
    have hne : rest ≠ [] := by rintro rfl; cases hd
    simp only [List.mem_cons, List.not_mem_nil, or_false] at hmem
    rcases hmem with rfl | rfl
    · obtain ⟨hrun, hsame⟩ := matchLastWord_stops hwt hword hne
      have hfalse := hint.only.2 IfExpr.wordFalse (by simp)
      rw [← hsame] at hfalse hint
      rw [bind_of hrun, if_neg (by simp), bind_of (matchLastWord_no hwf hfalse), if_neg (by simp),
        hsame, lastInt_yes hint]
      exact ⟨_, rfl, rfl⟩
    · have htrue := (hword.only (by decide)).2 't' ['r', 'u', 'e'] (by decide)
      obtain ⟨hrun, hsame⟩ := @matchLastWord_stops _ (afterBlanks src) _ hwf
        (by rwa [afterBlanks_afterBlanks]) hne
      rw [← hsame] at hint
      rw [bind_of (matchLastWord_no hwt htrue), if_neg (by simp), bind_of hrun, if_neg (by simp),
        lastInt_yes hint]
      exact ⟨_, rfl, rfl⟩
  | @both s rest digits negative hword hnext hint =>
    obtain ⟨d, hd, -⟩ := hnext.head
    obtain ⟨d', hd', -⟩ := hint.head
    obtain ⟨hrun, hsame⟩ := matchLastWord_stops hwt hword (by rintro rfl; cases hd)
    obtain ⟨hrun', hsame'⟩ := @matchLastWord_stops _ s _ hwf (hsame.symm ▸ hnext)
      (by rintro rfl; cases hd')
    rw [← hsame'] at hint
    rw [bind_of hrun, if_neg (by simp), bind_of hrun', if_neg (by simp), lastInt_yes hint]
    exact ⟨_, rfl, rfl⟩

end Tp2cc.IfExpr
