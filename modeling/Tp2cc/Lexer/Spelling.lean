import Tp2cc.Lexer.Layout
import Tp2cc.Lexer.Taken

set_option autoImplicit false

namespace Tp2cc
open Machine Parsing

structure ScansAs (rest : List Char) (l : Lexeme) (c : Char) (w : List Char) : Prop where
  token : (scan c (w ++ rest)).token.lexeme = l
  not_eof : (scan c (w ++ rest)).token.kind ≠ .eof
  behind : (scan c (w ++ rest)).rest = rest
  errors : (scan c (w ++ rest)).errors = []
  front : ∀ (files : IncludeFiles) (lexer : Lexer), lexer.contents = c :: (w ++ rest) →
    lexer.skipTurn files = none

section
variable {c : Char} {w rest : List Char}

theorem isIdentStart_plain (h : isIdentStart c = true) : Lexer.Plain c := by
  have hne (d : Char) (hd : isIdentStart d = false) : c ≠ d := by
    rintro rfl
    rw [h] at hd
    contradiction
  refine ⟨?_, hne _ rfl, hne _ rfl, hne _ rfl⟩
  simp [isSpace, hne ' ' rfl, hne '\t' rfl, hne '\r' rfl, hne '\n' rfl]

theorem front_of_plain (h : Lexer.Plain c) (files : IncludeFiles) (lexer : Lexer)
    (hc : lexer.contents = c :: (w ++ rest)) : lexer.skipTurn files = none :=
  Lexer.skipTurn_plain hc h

theorem mem_of_lookup {α β : Type} [BEq α] [LawfulBEq α] {key : α} {b : β} {l : List (α × β)}
    (h : l.lookup key = some b) : (key, b) ∈ l := by
  induction l with
  | nil => simp at h
  | cons p l ih =>
    obtain ⟨a, x⟩ := p
    rw [List.lookup_cons] at h
    split at h
    · rename_i heq
      obtain rfl := eq_of_beq heq
      cases h
      exact List.mem_cons_self
    · exact List.mem_cons_of_mem _ (ih h)

theorem wordToken_not_eof (key : String) : (wordToken key).kind ≠ .eof := by
  unfold wordToken
  cases h : keywordTable.lookup key with
  | none => exact (by decide : Tok.ident ≠ .eof)
  | some k =>
    have hall : ∀ p ∈ keywordTable, p.2 ≠ .eof := by decide
    exact hall _ (mem_of_lookup h)

theorem scansAs_word (hc : isIdentStart c = true) (hw : ∀ d ∈ w, isIdentCont d = true)
    (hrest : ∀ d ∈ rest.head?, isIdentCont d = false) :
    ScansAs rest (wordToken (lower (c :: w))).lexeme c w := by
  have hall : ∀ d ∈ c :: w, isIdentCont d = true := by
    intro d hd
    rcases List.mem_cons.mp hd with rfl | hd
    · simp [isIdentCont, hc]
    · exact hw d hd
  have hscan : scan c (w ++ rest) = { token := wordToken (lower (c :: w)), rest := rest } := by
    rw [scan, if_pos hc, ← List.cons_append, scanIdentifierOrKeyword]
    simp only [takeWhile_front hall hrest, dropWhile_front hall hrest]
    rfl
  refine ⟨?_, ?_, ?_, ?_, front_of_plain (isIdentStart_plain hc)⟩
  · rw [hscan]
  · rw [hscan]
    exact wordToken_not_eof _
  · rw [hscan]
  · rw [hscan]

theorem scansAs_integer {i : IntegerText} (hi : i.value < 2^64) (hend : i.EndsBefore rest) :
    ∃ c w, i.text = c :: w ∧ ScansAs rest (.intLit i.value) c w := by
  obtain ⟨c, w, htext, hopens⟩ := i.text_cons
  obtain ⟨hplain, hident⟩ := Lexer.opensNumber_plain hopens
  refine ⟨c, w, htext, ?_⟩
  have hscan : scan c (w ++ rest) = intLit i.text (i.value, false) rest := by
    rw [scan, hident, hopens, ← List.cons_append, ← htext, IntegerText.scanNumber_text hend,
      (IntegerText.accumulate hend).1 hi]
    rfl
  refine ⟨?_, ?_, ?_, ?_, front_of_plain hplain⟩
  · rw [hscan]
    rfl
  · rw [hscan]
    exact (by decide : Tok.intLit ≠ .eof)
  · rw [hscan]
    rfl
  · rw [hscan]
    rfl

end

/-! Real numbers. -/
section
variable {rest : List Char}

theorem scanExponentSign_digits {sign digits : List Char} (hsign : sign ∈ [[], ['+'], ['-']])
    (hne : digits ≠ []) (hdigits : ∀ c ∈ digits, c.isDigit = true) :
    scanExponentSign (sign ++ (digits ++ rest)) = (sign, digits ++ rest) := by
  obtain ⟨d, ds, rfl⟩ := List.exists_cons_of_ne_nil hne
  have hd : d.isDigit = true := hdigits d List.mem_cons_self
  simp only [List.mem_cons, List.not_mem_nil, or_false] at hsign
  rcases hsign with rfl | rfl | rfl
  · rw [List.nil_append, List.cons_append, scanExponentSign]
    · intro src h
      cases h
      cases hd
    · intro src h
      cases h
      cases hd
  · rfl
  · rfl

theorem scanExponent_text (r : RealText)
    (hrest : ∀ c ∈ rest.head?, c.isDigit = false ∧ c ≠ 'e' ∧ c ≠ 'E') :
    scanExponent (r.exponentText ++ rest) = (r.exponentText, rest) := by
  cases he : r.exponent with
  | none =>
    rw [RealText.exponentText, he]
    cases rest with
    | nil => rfl
    | cons c src =>
      obtain ⟨-, he, hE⟩ := hrest c rfl
      simp [scanExponent, he, hE]
  | some e =>
    obtain ⟨mark, sign, digits⟩ := e
    obtain ⟨hmark, hsign, hne, hall⟩ := r.exponent_all _ he
    have hdigit : ∀ c ∈ rest.head?, c.isDigit = false := fun c hc => (hrest c hc).1
    rw [RealText.exponentText, he]
    simp only [List.cons_append, List.append_assoc, scanExponent]
    rw [if_pos hmark, scanExponentSign_digits hsign hne hall]
    simp only [takeWhile_front hall hdigit, dropWhile_front hall hdigit]

theorem RealText.behind_digits (r : RealText)
    (hrest : ∀ c ∈ rest.head?, c.isDigit = false ∧ c ≠ 'e' ∧ c ≠ 'E') :
    ∀ c ∈ (r.exponentText ++ rest).head?, c.isDigit = false := by
  intro c hc
  cases he : r.exponent with
  | none =>
    rw [RealText.exponentText, he] at hc
    exact (hrest c hc).1
  | some e =>
    obtain ⟨mark, sign, digits⟩ := e
    rw [RealText.exponentText, he] at hc
    cases hc
    exact not_isDigit_of_exponent (r.exponent_all _ he).1

theorem scanFraction_text (r : RealText)
    (hrest : ∀ c ∈ rest.head?, c.isDigit = false ∧ c ≠ 'e' ∧ c ≠ 'E') :
    scanFraction (r.fractionText ++ (r.exponentText ++ rest)) =
      (r.fractionText, r.exponentText ++ rest) := by
  have hbehind := r.behind_digits hrest
  cases hf : r.fraction with
  | none =>
    have hexp : r.exponent ≠ none := by
      rcases r.isReal with h | h
      · exact absurd hf h
      · exact h
    obtain ⟨⟨mark, sign, digits⟩, he⟩ := Option.ne_none_iff_exists'.mp hexp
    have hmark : mark ≠ '.' := by
      rintro rfl
      rcases (r.exponent_all _ he).1 with h | h <;> cases h
    rw [RealText.fractionText, hf, RealText.exponentText, he]
    rw [List.nil_append, List.cons_append, scanFraction]
    rintro src ⟨⟩
    exact hmark rfl
  | some f =>
    obtain ⟨hne, hall⟩ := r.fraction_all f hf
    obtain ⟨d, ds, rfl⟩ := List.exists_cons_of_ne_nil hne
    have hd : d ≠ '.' := by
      rintro rfl
      cases hall '.' List.mem_cons_self
    rw [RealText.fractionText, hf]
    simp only [List.cons_append, scanFraction, List.head?_cons, Option.some.injEq, hd, if_false]
    rw [← List.cons_append, takeWhile_front hall hbehind, dropWhile_front hall hbehind]

theorem scansAs_real (r : RealText)
    (hrest : ∀ c ∈ rest.head?, c.isDigit = false ∧ c ≠ 'e' ∧ c ≠ 'E') :
    ∃ c w, r.text = c :: w ∧ ScansAs rest (.realLit (String.ofList r.text)) c w := by
  obtain ⟨c, ds, hdigits⟩ := List.exists_cons_of_ne_nil r.digits_ne
  have hc : c.isDigit = true := r.digits_all c (by simp [hdigits])
  have hopens : opensNumber c = true := by simp [opensNumber, hc]
  obtain ⟨hplain, hident⟩ := Lexer.opensNumber_plain hopens
  refine ⟨c, ds ++ r.fractionText ++ r.exponentText, by rw [RealText.text, hdigits]; rfl, ?_⟩
  have hsrc : c :: (ds ++ r.fractionText ++ r.exponentText ++ rest) =
      r.digits ++ (r.fractionText ++ (r.exponentText ++ rest)) := by
    rw [hdigits]
    simp
  have hstop : ∀ d ∈ (r.fractionText ++ (r.exponentText ++ rest)).head?, d.isDigit = false := by
    cases hf : r.fraction with
    | none =>
      rw [RealText.fractionText, hf]
      exact r.behind_digits hrest
    | some f =>
      rw [RealText.fractionText, hf]
      rintro d ⟨⟩
      rfl
  have hreal : ¬(r.fractionText = [] ∧ r.exponentText = []) := by
    rintro ⟨hf, he⟩
    rcases r.isReal with h | h
    · obtain ⟨f, hf'⟩ := Option.ne_none_iff_exists'.mp h
      rw [RealText.fractionText, hf'] at hf
      cases hf
    · obtain ⟨e, he'⟩ := Option.ne_none_iff_exists'.mp h
      rw [RealText.exponentText, he'] at he
      cases he
  have hscan : scan c (ds ++ r.fractionText ++ r.exponentText ++ rest) =
      { token := { kind := .realLit, text := String.ofList r.text }, rest := rest } := by
    rw [scan, hident, hopens]
    simp only [Bool.false_eq_true, if_false, if_true]
    rw [IntegerText.scanNumber_digit hc, hsrc, scanDecimal]
    simp only [takeWhile_front r.digits_all hstop, dropWhile_front r.digits_all hstop,
      scanFraction_text r hrest, scanExponent_text r hrest]
    rw [if_neg hreal]
    rfl
  refine ⟨?_, ?_, ?_, ?_, front_of_plain hplain⟩
  · rw [hscan]
    rfl
  · rw [hscan]
    exact (by decide : Tok.realLit ≠ .eof)
  · rw [hscan]
  · rw [hscan]

end

/-! String literals. -/
section
variable {rest : List Char}

theorem scanQuoted_text {piece : List Char} (hpiece : '\n' ∉ piece)
    (hrest : ∀ c ∈ rest.head?, c ≠ '\'') :
    scanQuoted (doubleQuotes piece ++ '\'' :: rest) = (piece, .closed, rest) := by
  induction piece with
  | nil =>
    refine scanQuoted_quote fun src hsrc => ?_
    rw [hsrc] at hrest
    exact hrest '\'' rfl rfl
  | cons c piece ih =>
    rw [List.mem_cons, not_or] at hpiece
    have ih := ih hpiece.2
    rw [doubleQuotes, List.flatMap_cons, ← doubleQuotes]
    by_cases hc : c = '\''
    · rw [if_pos hc]
      simp only [List.cons_append, List.nil_append]
      rw [scanQuoted, ih, hc]
    · rw [if_neg hc, List.singleton_append, List.cons_append, scanQuoted_char (Ne.symm hpiece.1) hc,
        ih]

theorem scanCode_text {i : IntegerText} (hb : i.base = .decimal ∨ i.base = .hex)
    (hi : i.value < 256) (hrest : ∀ c ∈ rest.head?, i.base.radix.isDigit c = false) :
    scanCode (i.text ++ rest) = ((i.value, false), rest) := by
  have htake := takeWhile_front i.isDigit hrest
  have hdrop := dropWhile_front i.isDigit hrest
  have hrun := ((accumulateDigit_accumulates 32 i.base.radix.base).run i.base.base_pos
    (i.digits.map i.base.radix.digit)).1 (show i.value < 2^32 by omega)
  rw [List.foldl_map] at hrun
  have hacc : i.base.radix.accumulate 32 (i.digits ++ rest) = (i.value, false) := by
    rw [Radix.accumulate, htake]
    exact hrun
  rcases hb with hb | hb
  · have htext : i.text = i.digits := by simp [IntegerText.text, hb, IntegerBase.radix, Radix.decimal]
    rw [hb] at hacc hdrop
    rw [htext, scanCode_decimal]
    · exact Prod.ext hacc hdrop
    · intro src hsrc
      obtain ⟨c, ds, hcons⟩ := List.exists_cons_of_ne_nil i.digits_ne
      have hc : i.base.radix.isDigit c = true := i.isDigit c (by simp [hcons])
      rw [hcons] at hsrc
      cases hsrc
      rw [hb] at hc
      cases hc
  · have htext : i.text = '$' :: i.digits := by simp [IntegerText.text, hb, IntegerBase.radix, Radix.hex]
    rw [hb] at hacc hdrop
    rw [htext, List.cons_append, scanCode]
    exact Prod.ext hacc hdrop

theorem scanStringPieces_text {value text : List Char} (h : StringText rest value text) :
    scanStringPieces (text ++ rest) = (value, [], rest) := by
  induction h with
  | nil hrest =>
    refine scanStringPieces_nil (fun src hsrc => ?_) (fun src hsrc => ?_)
    · rw [List.nil_append] at hsrc
      exact (hrest _ (by rw [hsrc]; rfl)).1 rfl
    · rw [List.nil_append] at hsrc
      exact (hrest _ (by rw [hsrc]; rfl)).2 rfl
  | @quoted piece value text hpiece _ hnext ih =>
    have hquoted := scanQuoted_text hpiece hnext
    rw [List.cons_append, List.append_assoc, List.cons_append, scanStringPieces_closed hquoted, ih]
  | @code value text i hb hi _ hnext ih =>
    rw [List.cons_append, List.append_assoc, scanStringPieces]
    simp only [scanCode_text hb hi hnext, ih, Bool.false_or]
    rw [if_neg (by simp only [decide_eq_true_eq]; omega)]

theorem StringText.opens {value text : List Char} (h : StringText rest value text) (hne : text ≠ []) :
    ∃ c w, text = c :: w ∧ (c = '\'' ∨ c = '#') := by
  cases h with
  | nil => exact absurd rfl hne
  | quoted => exact ⟨_, _, rfl, .inl rfl⟩
  | code => exact ⟨_, _, rfl, .inr rfl⟩

theorem scansAs_string {value text : List Char} (h : StringText rest value text) (hne : text ≠ []) :
    ∃ c w, text = c :: w ∧ ScansAs rest (.stringLit (String.ofList value)) c w := by
  obtain ⟨c, w, rfl, hc⟩ := h.opens hne
  refine ⟨c, w, rfl, ?_⟩
  have hkind : isIdentStart c = false ∧ opensNumber c = false ∧ opensString c = true ∧
      Lexer.Plain c := by
    rcases hc with rfl | rfl
    · decide
    · decide
  have hscan : scan c (w ++ rest) =
      { token := { kind := .stringLit, text := String.ofList value }, rest := rest } := by
    rw [scan, hkind.1, hkind.2.1, hkind.2.2.1]
    simp only [Bool.false_eq_true, if_false, if_true]
    rw [← List.cons_append, scanString, scanStringPieces_text h]
  refine ⟨?_, ?_, ?_, ?_, front_of_plain hkind.2.2.2⟩
  · rw [hscan]
    rfl
  · rw [hscan]
    exact (by decide : Tok.stringLit ≠ .eof)
  · rw [hscan]
  · rw [hscan]

end

/-! Punctuation. -/
section
variable {c d : Char} {k : Tok} {rest : List Char}

def Punctuates (c : Char) : Prop :=
  isIdentStart c = false ∧ opensNumber c = false ∧ opensString c = false

instance (c : Char) : Decidable (Punctuates c) := inferInstanceAs (Decidable (_ ∧ _))

/-- The token of the kind has no text of its own. -/
def IsMark (k : Tok) : Prop := ∀ text, ({ kind := k, text } : Token).lexeme = .mark k

theorem pairPunctuation_cases (h : pairPunctuation c d = some k) :
    Punctuates c ∧ Lexer.Plain c ∧ k ≠ .eof ∧ IsMark k := by
  unfold pairPunctuation at h
  split at h
  all_goals
    cases h
    try exact ⟨by decide, by decide, by decide, fun _ => rfl⟩

theorem singlePunctuation_cases (h : singlePunctuation c = some k) :
    Punctuates c ∧ (Lexer.Plain c ∨ c = '/' ∨ c = '(') ∧ k ≠ .eof ∧ IsMark k := by
  unfold singlePunctuation at h
  split at h
  all_goals
    cases h
    try exact ⟨by decide, by decide, by decide, fun _ => rfl⟩

theorem scan_punctuation (h : Punctuates c) (src : List Char) : scan c src = scanPunctuation c src := by
  rw [scan, h.1, h.2.1, h.2.2]
  rfl

theorem scansAs_pair (h : pairPunctuation c d = some k) : ScansAs rest (.mark k) c [d] := by
  obtain ⟨hpunct, hplain, hk, hmark⟩ := pairPunctuation_cases h
  have hscan : scan c (d :: rest) = { token := { kind := k, text := String.ofList [c, d] }, rest } := by
    rw [scan_punctuation hpunct, scanPunctuation, h]
  refine ⟨?_, ?_, ?_, ?_, front_of_plain hplain⟩
  · rw [List.singleton_append, hscan]
    exact hmark _
  · rw [List.singleton_append, hscan]
    exact hk
  · rw [List.singleton_append, hscan]
  · rw [List.singleton_append, hscan]

theorem scansAs_single (h : singlePunctuation c = some k)
    (hpair : ∀ d ∈ rest.head?, pairPunctuation c d = none) (hline : c = '/' → rest.head? ≠ some '/')
    (hparen : c = '(' → rest.head? ≠ some '*') : ScansAs rest (.mark k) c [] := by
  obtain ⟨hpunct, hplain, hk, hmark⟩ := singlePunctuation_cases h
  have hscan : scan c rest = { token := { kind := k, text := String.ofList [c] }, rest } := by
    rw [scan_punctuation hpunct]
    cases rest with
    | nil => simp only [scanPunctuation, scanSingle, h]
    | cons d rest => simp only [scanPunctuation, hpair d rfl, scanSingle, h]
  refine ⟨?_, ?_, ?_, ?_, fun files lexer hc => ?_⟩
  · rw [List.nil_append, hscan]
    exact hmark _
  · rw [List.nil_append, hscan]
    exact hk
  · rw [List.nil_append, hscan]
  · rw [List.nil_append, hscan]
  · rcases hplain with hplain | rfl | rfl
    · exact front_of_plain hplain files lexer hc
    · have := hline rfl
      rw [List.nil_append] at hc
      cases rest with
      | nil => simp [Lexer.skipTurn, hc, isSpace]
      | cons d rest =>
        simp only [List.head?_cons, ne_eq, Option.some.injEq] at this
        simp only [Lexer.skipTurn, hc]
        rw [if_neg (by decide)]
        split <;> simp_all
    · have := hparen rfl
      rw [List.nil_append] at hc
      cases rest with
      | nil => simp [Lexer.skipTurn, hc, isSpace]
      | cons d rest =>
        simp only [List.head?_cons, ne_eq, Option.some.injEq] at this
        simp only [Lexer.skipTurn, hc]
        rw [if_neg (by decide)]
        split <;> simp_all

end

theorem Spells.scans {rest : List Char} {l : Lexeme} {word : List Char} (h : Spells rest l word) :
    ∃ c w, word = c :: w ∧ ScansAs rest l c w := by
  cases h with
  | word hc hw hrest => exact ⟨_, _, rfl, scansAs_word hc hw hrest⟩
  | integer i hi hend => exact scansAs_integer hi hend
  | real r hrest => exact scansAs_real r hrest
  | string h hne => exact scansAs_string h hne
  | pair h => exact ⟨_, _, rfl, scansAs_pair h⟩
  | single h hpair hline hparen => exact ⟨_, _, rfl, scansAs_single h hpair hline hparen⟩

end Tp2cc
