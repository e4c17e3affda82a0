import Tp2cc.Lexer.Next
import Tp2cc.Parsing.Components

/-! Integers in the source: the numerals of the four bases, what the lexer makes of one, and of
two with a range between them. -/
set_option autoImplicit false

namespace Tp2cc
open Machine Parsing

theorem accumulateDigit_accumulates (w base : Nat) :
    Accumulates w base (accumulateDigit w base) where
  fits d h := by
    have hv := (Nat.le_add_right _ d).trans_lt h
    simp [accumulateDigit, Nat.not_le.mpr h, Nat.not_le.mpr hv]
  overflows {v} d h := by
    by_cases hv : 2^w ≤ v*base <;> simp [accumulateDigit, h, hv]
  stays v d := by simp [accumulateDigit]

inductive IntegerBase where
  | decimal | hex | octal | binary

def IntegerBase.radix : IntegerBase → Radix
  | .decimal => .decimal
  | .hex => .hex
  | .octal => .octal
  | .binary => .binary

theorem IntegerBase.base_pos (b : IntegerBase) : 0 < b.radix.base := by
  cases b <;> decide

/-- An integer as it is written: the mark of its base, and digits of the base. -/
structure IntegerText where
  base : IntegerBase
  digits : List Char
  digits_ne : digits ≠ []
  isDigit : ∀ c ∈ digits, base.radix.isDigit c = true

namespace IntegerText
variable (i : IntegerText)

def text : List Char := i.base.radix.mark ++ i.digits

def value : Nat := numeral i.base.radix.base (i.digits.map i.base.radix.digit)

/-- What follows is neither a further digit nor, behind decimal digits, a fraction or an
exponent. -/
structure EndsBefore (rest : List Char) : Prop where
  digit : ∀ c ∈ rest.head?, i.base.radix.isDigit c = false
  fraction : i.base = .decimal → ∀ src, rest = '.' :: src → src.head? = some '.'
  exponent : i.base = .decimal → rest.head? ≠ some 'e' ∧ rest.head? ≠ some 'E'

/-- The token of the integer, in the modes that are active. -/
structure IsToken (modes : Modes) (t : Token) : Prop where
  kind : t.kind = .intLit
  text : t.text = String.ofList i.text
  value : i.value < 2^64 → t.intValue = i.value
  modes : t.modes = modes

def overflow : List Diagnostic :=
  if i.value < 2^64 then [] else [.error "integer literal exceeds 64 bits"]

end IntegerText

namespace IntegerText
variable {i : IntegerText} {rest : List Char}

theorem accumulate (h : i.EndsBefore rest) :
    (i.value < 2^64 → i.base.radix.accumulate 64 (i.digits ++ rest) = (i.value, false)) ∧
    (2^64 ≤ i.value → (i.base.radix.accumulate 64 (i.digits ++ rest)).2 = true) := by
  have hrun := (accumulateDigit_accumulates 64 i.base.radix.base).run i.base.base_pos
    (i.digits.map i.base.radix.digit)
  rw [List.foldl_map] at hrun
  rw [Radix.accumulate, takeWhile_front i.isDigit h.digit]
  exact hrun

theorem scanFraction_none (h : i.EndsBefore rest) (hb : i.base = .decimal) :
    scanFraction rest = ([], rest) := by
  unfold scanFraction
  split
  · simp [h.fraction hb _ rfl]
  · rfl

theorem scanExponent_none (h : i.EndsBefore rest) (hb : i.base = .decimal) :
    scanExponent rest = ([], rest) := by
  cases rest with
  | nil => rfl
  | cons c src =>
    have he := h.exponent hb
    simp only [List.head?_cons, ne_eq, Option.some.injEq] at he
    simp [scanExponent, he]

theorem scanNumber_mark {b : IntegerBase} (hb : b ≠ .decimal) (src : List Char) :
    scanNumber (b.radix.mark ++ src) = scanMarked b.radix src := by
  cases b with
  | decimal => exact absurd rfl hb
  | hex => rfl
  | octal => rfl
  | binary => rfl

theorem scanNumber_digit {c : Char} (hc : c.isDigit = true) (src : List Char) :
    scanNumber (c :: src) = scanDecimal (c :: src) := by
  unfold scanNumber
  split <;> simp_all

theorem scanNumber_text (h : i.EndsBefore rest) :
    scanNumber (i.text ++ rest) =
      intLit i.text (i.base.radix.accumulate 64 (i.digits ++ rest)) rest := by
  have htake := takeWhile_front i.isDigit h.digit
  have hdrop := dropWhile_front i.isDigit h.digit
  by_cases hb : i.base = .decimal
  · have htext : i.text = i.digits := by simp [text, hb, IntegerBase.radix, Radix.decimal]
    obtain ⟨c, ds, hcons⟩ := List.exists_cons_of_ne_nil i.digits_ne
    have hc : i.base.radix.isDigit c = true := i.isDigit c (by simp [hcons])
    rw [hb] at htake hdrop hc
    have hnum : scanNumber (i.digits ++ rest) = scanDecimal (i.digits ++ rest) := by
      rw [hcons, List.cons_append]
      exact scanNumber_digit hc _
    rw [htext, hnum, scanDecimal]
    simp only [show (i.digits ++ rest).takeWhile Char.isDigit = i.digits from htake,
      show (i.digits ++ rest).dropWhile Char.isDigit = rest from hdrop, scanFraction_none h hb,
      scanExponent_none h hb, and_self, if_true, hb]
    rfl
  · rw [text, List.append_assoc, scanNumber_mark hb, scanMarked, Radix.afterDigits, htake, hdrop]

theorem text_cons (i : IntegerText) : ∃ c src, i.text = c :: src ∧ opensNumber c = true := by
  obtain ⟨c, ds, hcons⟩ := List.exists_cons_of_ne_nil i.digits_ne
  have hc : i.base.radix.isDigit c = true := i.isDigit c (by simp [hcons])
  rw [text, hcons]
  cases hb : i.base with
  | decimal =>
    rw [hb] at hc
    have hdigit : c.isDigit = true := hc
    exact ⟨c, ds, rfl, by simp [opensNumber, hdigit]⟩
  | hex => exact ⟨'$', c :: ds, rfl, by decide⟩
  | octal => exact ⟨'&', c :: ds, rfl, by decide⟩
  | binary => exact ⟨'%', c :: ds, rfl, by decide⟩

theorem endsBefore_range (i : IntegerText) (rest : List Char) :
    i.EndsBefore ('.' :: '.' :: rest) where
  digit c hc := by
    cases hc
    cases i.base <;> decide
  fraction _ src hsrc := by
    cases hsrc
    rfl
  exponent _ := by simp

end IntegerText

namespace Lexer
variable (files : IncludeFiles) {l : Lexer} {i : IntegerText} {rest : List Char}

/-- One token further, the lexer stands at `rest` with `noted` reported on the way. -/
structure Advances (files : IncludeFiles) (l : Lexer) (t : Token) (rest : List Char)
    (noted : List Diagnostic) (l' : Lexer) : Prop where
  next : ∀ n, l.next files (n+1) = some (t, l')
  contents : l'.contents = rest
  accepting : l'.accepting = l.accepting
  modes : l'.modes = l.modes
  diagnostics : l'.diagnostics = l.diagnostics ++ noted

theorem advances_scan {c : Char} {src : List Char} (h : l.contents = c :: src) (hc : Plain c)
    (ha : l.accepting = true) :
    Advances files l { (scan c src).token with modes := l.modes } (scan c src).rest
      ((scan c src).errors.map .error) (l.behind (scan c src)) where
  next n := loop_done (turn_scan h hc ha) n
  contents := contents_behind (by simp [h]) _
  accepting := rfl
  modes := rfl
  diagnostics := rfl

theorem advances_integer (ha : l.accepting = true) (h : l.contents = i.text ++ rest)
    (hend : i.EndsBefore rest) :
    ∃ t l', Advances files l t rest i.overflow l' ∧ i.IsToken l.modes t := by
  obtain ⟨c, src, htext, hopens⟩ := i.text_cons
  obtain ⟨hplain, hident⟩ := opensNumber_plain hopens
  have hcontents : l.contents = c :: (src ++ rest) := by rw [h, htext]; rfl
  have hscan : scan c (src ++ rest) =
      intLit i.text (i.base.radix.accumulate 64 (i.digits ++ rest)) rest := by
    rw [scan, hident, hopens, ← List.cons_append, ← htext, IntegerText.scanNumber_text hend]
    rfl
  have hadv := advances_scan files hcontents hplain ha
  obtain ⟨hfits, hlarge⟩ := IntegerText.accumulate hend
  rw [hscan] at hadv
  refine ⟨_, _, ⟨hadv.next, hadv.contents, hadv.accepting, hadv.modes, ?_⟩, rfl, rfl, ?_, rfl⟩
  · rw [hadv.diagnostics, IntegerText.overflow]
    by_cases hlt : i.value < 2^64
    · rw [if_pos hlt, hfits hlt]
      rfl
    · rw [if_neg hlt]
      simp [intLit, hlarge (Nat.le_of_not_lt hlt)]
  · intro hlt
    simp [intLit, hfits hlt]

theorem advances_dotDot (ha : l.accepting = true) (h : l.contents = '.' :: '.' :: rest) :
    ∃ l', Advances files l { kind := .dotDot, text := "..", modes := l.modes } rest [] l' :=
  ⟨_, advances_scan files h (by decide) ha⟩

/-- The lexer reads integers of every base exactly where they fit and reports exactly those that
do not, and between two integers it reads a range and no decimal point. -/
theorem next_integer (l : Lexer) (ha : l.accepting = true) (i : IntegerText)
    (rest : List Char) (h : l.contents = i.text ++ rest) :
    (i.EndsBefore rest →
      ∃ t l', Advances files l t rest i.overflow l' ∧ i.IsToken l.modes t) ∧
    ∀ (j : IntegerText) (behind : List Char), rest = '.' :: '.' :: (j.text ++ behind) →
      j.EndsBefore behind →
      ∃ t l₁ l₂ u l₃, Advances files l t rest i.overflow l₁ ∧ i.IsToken l.modes t ∧
        Advances files l₁ { kind := .dotDot, text := "..", modes := l.modes } (j.text ++ behind)
          [] l₂ ∧
        Advances files l₂ u behind j.overflow l₃ ∧ j.IsToken l.modes u := by
  refine ⟨advances_integer files ha h, ?_⟩
  rintro j behind rfl hend
  obtain ⟨t, l₁, h₁, ht⟩ := advances_integer files ha h (i.endsBefore_range _)
  have ha₁ := h₁.accepting.trans ha
  obtain ⟨l₂, h₂⟩ := advances_dotDot files ha₁ h₁.contents
  have ha₂ := h₂.accepting.trans ha₁
  obtain ⟨u, l₃, h₃, hu⟩ := advances_integer files ha₂ h₂.contents hend
  rw [h₂.modes, h₁.modes] at hu
  rw [h₁.modes] at h₂
  exact ⟨t, l₁, l₂, u, l₃, h₁, ht, h₂, h₃, hu⟩

/-- `12..$1F` -/
theorem next_integer_range :
    ∃ t l₁ l₂ u l₃, Advances noIncludes (.ofSource "p.pas" "12..$1F".toList) t "..$1F".toList [] l₁ ∧
      t.intValue = 12 ∧
      Advances noIncludes l₁ { kind := .dotDot, text := "..", modes := { } } "$1F".toList [] l₂ ∧
      Advances noIncludes l₂ u [] [] l₃ ∧ u.intValue = 31 := by
  have h := (next_integer noIncludes (.ofSource "p.pas" "12..$1F".toList) rfl
    ⟨.decimal, ['1', '2'], by simp, List.all_eq_true.mp rfl⟩ "..$1F".toList rfl).2
    ⟨.hex, ['1', 'F'], by simp, List.all_eq_true.mp rfl⟩ [] rfl ⟨by simp, by simp, by simp⟩
  obtain ⟨t, l₁, l₂, u, l₃, h₁, ht, h₂, h₃, hu⟩ := h
  exact ⟨t, l₁, l₂, u, l₃, h₁, ht.value (by decide), h₂, h₃, hu.value (by decide)⟩

end Lexer
end Tp2cc
