import Tp2cc.Lexer.Layout

set_option autoImplicit false

namespace Tp2cc
open Machine Parsing

def Blank (rest : List Char) : Prop := ∀ c ∈ rest.head?, c = ' '

def Lexeme.Writable (l : Lexeme) : Prop := ∃ word, ∀ rest, Blank rest → Spells rest l word

theorem Writes.blank {L : List Lexeme} {src : List Char} (h : Writes L src) :
    Writes L (' ' :: src) := by
  cases h with
  | nil hgap => exact .nil (.blank rfl hgap)
  | cons hgap hword hrest => exact .cons (.blank rfl hgap) hword hrest

theorem exists_writes {L : List Lexeme} (h : ∀ l ∈ L, l.Writable) : ∃ src, Writes L src := by
  have hblank : ∃ src, Blank src ∧ Writes L src := by
    induction L with
    | nil => exact ⟨[], by simp [Blank], .nil .nil⟩
    | cons l L ih =>
      obtain ⟨rest, hrest, hwrites⟩ := ih fun m hm => h m (List.mem_cons_of_mem _ hm)
      obtain ⟨word, hword⟩ := h l List.mem_cons_self
      have hcons : Writes (l :: L) ([] ++ (word ++ rest)) := .cons .nil (hword rest hrest) hwrites
      exact ⟨' ' :: _, fun c hc => (Option.some.inj hc).symm, hcons.blank⟩
  obtain ⟨src, -, hsrc⟩ := hblank
  exact ⟨src, hsrc⟩

section
variable {rest : List Char}

theorem Blank.not_of {p : Char → Bool} (h : Blank rest) (hp : p ' ' = false) :
    ∀ c ∈ rest.head?, p c = false := by
  intro c hc
  rw [h c hc, hp]

theorem numeral_toDigits (m : Nat) : numeral 10 ((Nat.toDigits 10 m).map digitVal) = m := by
  have hdigit : ∀ d < 10, digitVal (Nat.digitChar d) = d := by decide
  induction m using Nat.strongRecOn with
  | _ m ih =>
    by_cases hm : m < 10
    · rw [Nat.toDigits_of_lt_base hm, List.map_singleton, ← List.nil_append [digitVal _],
        numeral_snoc, numeral_nil, hdigit m hm, Nat.zero_mul, Nat.zero_add]
    · rw [Nat.toDigits_of_base_le (by decide) (by omega), List.map_append, List.map_singleton,
        numeral_snoc, ih (m/10) (by omega), hdigit _ (Nat.mod_lt _ (by decide))]
      omega

def decimalText (v : Nat) : IntegerText where
  base := .decimal
  digits := Nat.toDigits 10 v
  digits_ne := Nat.toDigits_ne_nil
  isDigit _ hc := Nat.isDigit_of_mem_toDigits (by decide) (by decide) hc

theorem decimalText_value (v : Nat) : (decimalText v).value = v := numeral_toDigits v

theorem writable_integer {v : Nat} (h : v < 2^64) : (Lexeme.intLit v).Writable := by
  refine ⟨(decimalText v).text, fun rest hrest => ?_⟩
  have hends : (decimalText v).EndsBefore rest := by
    refine ⟨hrest.not_of rfl, fun _ src hsrc => ?_, fun _ => ?_⟩
    · rw [hsrc] at hrest
      cases hrest '.' rfl
    · cases rest with
      | nil => simp
      | cons c rest => simp [hrest c rfl]
  have hspells := Spells.integer (decimalText v) (by rw [decimalText_value]; exact h) hends
  rw [decimalText_value] at hspells
  exact hspells

theorem writable_real (r : RealText) : (Lexeme.realLit (String.ofList r.text)).Writable := by
  refine ⟨r.text, fun rest hrest => .real r fun c hc => ?_⟩
  rw [hrest c hc]
  decide

theorem writable_word {c : Char} {w : List Char} (hc : isIdentStart c = true)
    (hw : ∀ d ∈ w, isIdentCont d = true) : (wordToken (lower (c :: w))).lexeme.Writable :=
  ⟨c :: w, fun _ hrest => .word hc hw (hrest.not_of rfl)⟩

/-- Pieces that begin with a code, unless the first character can stand in quotes. -/
theorem exists_stringText (value : List Char) : ∃ text,
    (value.head? = none ∨ value.head? = some '\n' → text.head? ≠ some '\'') ∧
    (∀ c ∈ text.head?, c.isDigit = false) ∧ (text = [] → value = []) ∧
    ∀ rest, Blank rest → StringText rest value text := by
  induction hn : value.length using Nat.strongRecOn generalizing value with
  | _ n ih =>
    subst hn
    cases value with
    | nil =>
      refine ⟨[], by simp, by simp, fun _ => rfl, fun rest hrest => .nil fun c hc => ?_⟩
      rw [hrest c hc]
      decide
    | cons c value =>
      by_cases hc : c = '\n'
      · obtain ⟨text, -, hdigit, -, htext⟩ := ih value.length (Nat.lt_succ_self _) value rfl
        refine ⟨'#' :: ((decimalText 10).text ++ text), by simp, by simp, by simp, fun rest hrest => ?_⟩
        have hnext : ∀ d ∈ (text ++ rest).head?, Char.isDigit d = false := by
          cases text with
          | nil => exact hrest.not_of rfl
          | cons b text => exact hdigit
        have hcode := StringText.code (decimalText 10) (.inl rfl) (by rw [decimalText_value]; decide)
          (htext rest hrest) hnext
        rw [decimalText_value] at hcode
        rw [hc]
        exact hcode
      · obtain ⟨text, hquote, -, -, htext⟩ := ih (value.dropWhile (· ≠ '\n')).length
          (Nat.lt_succ_of_le (List.dropWhile_sublist _).length_le) _ rfl
        have hbehind : text.head? ≠ some '\'' := by
          refine hquote ?_
          have hhead := head_dropWhile (· ≠ '\n') value
          cases hb : (value.dropWhile (· ≠ '\n')).head? with
          | none => exact .inl rfl
          | some b => simpa using hhead b hb
        refine ⟨'\'' :: (doubleQuotes (c :: value.takeWhile (· ≠ '\n')) ++ '\'' :: text), ?_, ?_, ?_,
          fun rest hrest => ?_⟩
        · simp [hc]
        · simp
        · simp
        · have hpiece : '\n' ∉ c :: value.takeWhile (· ≠ '\n') := by
            intro hmem
            rcases List.mem_cons.mp hmem with h | h
            · exact hc h.symm
            · simpa using List.mem_takeWhile_imp h
          have hnext : ∀ d ∈ (text ++ rest).head?, d ≠ '\'' := by
            intro d hd
            cases text with
            | nil =>
              rw [hrest d hd]
              decide
            | cons b text =>
              cases hd
              exact fun h => hbehind (congrArg some h)
          have hquoted := StringText.quoted hpiece (htext rest hrest) hnext
          rw [List.cons_append, List.takeWhile_append_dropWhile] at hquoted
          exact hquoted

theorem writable_string (value : List Char) : (Lexeme.stringLit (String.ofList value)).Writable := by
  obtain ⟨text, hquote, -, hne, htext⟩ := exists_stringText value
  by_cases h : text = []
  · rw [hne h]
    refine ⟨['\'', '\''], fun rest hrest => ?_⟩
    have hquote : ∀ c ∈ rest.head?, c ≠ '\'' ∧ c ≠ '#' := by
      intro c hc
      rw [hrest c hc]
      decide
    have hempty : StringText rest ([] ++ []) ['\'', '\''] :=
      .quoted List.not_mem_nil (.nil hquote) fun c hc => (hquote c hc).1
    exact .string hempty (by simp)
  · exact ⟨text, fun rest hrest => .string (htext rest hrest) h⟩

end

/-! Which tokens the lexer can make. -/
section

def signTable : List (List Char × Tok) :=
  [(['*', '*'], .starStar), (['<', '='], .ltEq), (['<', '>'], .notEq), (['>', '='], .gtEq),
   (['>', '<'], .symDiff), ([':', '='], .assign), (['@', '@'], .atAt), (['.', '.'], .dotDot),
   (['+'], .plus), (['-'], .minus), (['*'], .star), (['/'], .slash), (['='], .eq), (['<'], .lt),
   (['>'], .gt), ([':'], .colon), ([';'], .semi), ([','], .comma), (['('], .lParen),
   ([')'], .rParen), (['['], .lBrack), ([']'], .rBrack), (['^'], .caret), (['@'], .atSign),
   (['.'], .dot)]

/-- The tokens that are more than a sign: identifiers in lower case that are no keywords, numbers
that fit, and all strings. -/
inductive Lexeme.Sound : Lexeme → Prop
  | ident {c : Char} {w : List Char} : isIdentStart c = true → (∀ d ∈ w, isIdentCont d = true) →
      lower (c :: w) = String.ofList (c :: w) → keywordTable.lookup (lower (c :: w)) = none →
      Sound (.ident (String.ofList (c :: w)))
  | self : Sound (.self "self")
  | integer {v : Nat} : v < 2^64 → Sound (.intLit v)
  | real (r : RealText) : Sound (.realLit (String.ofList r.text))
  | string (value : List Char) : Sound (.stringLit (String.ofList value))
  | keyword {key : String} {k : Tok} : (key, k) ∈ keywordTable → k ≠ .kwSelf → Sound (.mark k)
  | sign {text : List Char} {k : Tok} : (text, k) ∈ signTable → Sound (.mark k)

theorem keywordTable_words : ∀ p ∈ keywordTable,
    keywordTable.lookup (lower p.1.toList) = some p.2 ∧ p.1.toList.head?.any isIdentStart ∧
      p.1.toList.all isIdentCont := by
  decide +kernel

theorem writable_keyword {key : String} {k : Tok} (h : (key, k) ∈ keywordTable) :
    (Token.lexeme { kind := k, text := lower key.toList }).Writable := by
  obtain ⟨hlookup, hstart, hcont⟩ := keywordTable_words _ h
  dsimp only at hlookup hstart hcont
  cases hkey : key.toList with
  | nil =>
    rw [hkey] at hstart
    cases hstart
  | cons c w =>
    rw [hkey] at hlookup hstart hcont
    have hword := writable_word (c := c) (w := w) hstart fun d hd =>
      List.all_eq_true.mp hcont d (List.mem_cons_of_mem _ hd)
    rw [wordToken, hlookup] at hword
    exact hword

def Tok.isMark : Tok → Bool
  | .ident | .kwSelf | .intLit | .realLit | .stringLit => false
  | _ => true

theorem lexeme_mark {k : Tok} (h : k.isMark = true) {text : String} :
    Token.lexeme { kind := k, text } = .mark k := by
  cases k <;> first | rfl | cases h

theorem keywordTable_marks : ∀ p ∈ keywordTable, p.2 ≠ .kwSelf → p.2.isMark = true := by decide

def scansSign : List Char → Tok → Bool
  | [c, d], k => pairPunctuation c d = some k
  | [c], k => singlePunctuation c = some k && pairPunctuation c ' ' = none
  | _, _ => false

theorem signTable_scanned : ∀ p ∈ signTable, scansSign p.1 p.2 = true := by decide

theorem writable_sign {text : List Char} {k : Tok} (h : (text, k) ∈ signTable) :
    (Lexeme.mark k).Writable := by
  have hscan := signTable_scanned _ h
  dsimp only at hscan
  rcases text with _ | ⟨c, _ | ⟨d, _ | ⟨e, text⟩⟩⟩
  · cases hscan
  · simp only [scansSign, Bool.and_eq_true, decide_eq_true_eq] at hscan
    refine ⟨[c], fun rest hrest => .single hscan.1 (fun d hd => ?_) (fun _ hd => ?_) fun _ hd => ?_⟩
    · rw [hrest d hd]
      exact hscan.2
    · cases hrest '/' hd
    · cases hrest '*' hd
  · exact ⟨_, fun _ _ => .pair (of_decide_eq_true hscan)⟩
  · cases hscan

theorem Lexeme.Sound.writable {l : Lexeme} (h : l.Sound) : l.Writable := by
  cases h with
  | ident hc hw hlower hnone =>
    have hword := writable_word hc hw
    rw [wordToken, hnone, hlower] at hword
    exact hword
  | self =>
    have hmem : ("self", Tok.kwSelf) ∈ keywordTable := by decide
    exact writable_keyword hmem
  | integer hv => exact writable_integer hv
  | real r => exact writable_real r
  | string value => exact writable_string value
  | keyword hmem hne =>
    have hword := writable_keyword hmem
    rw [lexeme_mark (keywordTable_marks _ hmem hne)] at hword
    exact hword
  | sign hmem => exact writable_sign hmem

end
end Tp2cc
