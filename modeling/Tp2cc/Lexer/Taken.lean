import Tp2cc.Lexer.Integer

set_option autoImplicit false

namespace Tp2cc
open Parsing

theorem Radix.accumulate_start {r : Radix} {src m : List Char} (w : Nat)
    (hm : m <+: r.afterDigits src) :
    r.accumulate w (src.takeWhile r.isDigit ++ m) = r.accumulate w src := by
  rw [accumulate, takeWhile_start hm, accumulate]

/-- The scanner makes its token of the text in front of what it leaves. -/
def Taken (scanner : List Char → Scan) (src text : List Char) : Prop :=
  src = text ++ (scanner src).rest ∧ (scanner text).token = (scanner src).token

theorem taken_identifier (src : List Char) :
    Taken scanIdentifierOrKeyword src (src.takeWhile isIdentCont) := by
  refine ⟨List.takeWhile_append_dropWhile.symm, ?_⟩
  simp only [scanIdentifierOrKeyword, List.takeWhile_idem]

theorem taken_marked (r : Radix) (src : List Char) :
    Taken (scanMarked r) src (src.takeWhile r.isDigit) := by
  refine ⟨List.takeWhile_append_dropWhile.symm, ?_⟩
  have hacc := r.accumulate_start 64 ( List.nil_prefix (l := r.afterDigits src))
  rw [List.append_nil] at hacc
  simp only [scanMarked, intLit, List.takeWhile_idem, hacc]

section
variable {src fraction exponent behind rest m : List Char}

theorem scanExponentSign_append (src : List Char) :
    src = (scanExponentSign src).1 ++ (scanExponentSign src).2 := by
  unfold scanExponentSign
  split <;> rfl

theorem scanExponentSign_start (src : List Char) (hm : m <+: (scanExponentSign src).2) :
    scanExponentSign ((scanExponentSign src).1 ++ m) = ((scanExponentSign src).1, m) := by
  unfold scanExponentSign at hm
  split at hm
  · rfl
  · rfl
  · rename_i src hplus hminus
    obtain ⟨behind, rfl⟩ := hm
    cases m with
    | nil => cases behind <;> simp_all [scanExponentSign]
    | cons d m => simp_all [scanExponentSign]

theorem scanExponent_taken (h : scanExponent src = (exponent, rest)) :
    src = exponent ++ rest ∧ scanExponent exponent = (exponent, []) ∧
      ∀ c ∈ exponent.head?, c = 'e' ∨ c = 'E' := by
  cases src with
  | nil =>
    cases h
    exact ⟨rfl, rfl, by simp⟩
  | cons c src =>
    by_cases hc : c = 'e' ∨ c = 'E'
    · simp only [scanExponent, hc, if_true, Prod.mk.injEq] at h
      obtain ⟨rfl, rfl⟩ := h
      have hsrc := scanExponentSign_append src
      have hsign := scanExponentSign_start src
        ( List.takeWhile_prefix Char.isDigit)
      refine ⟨?_, ?_, by simpa using hc⟩
      · rw [List.cons_append, List.cons_append, List.append_assoc,
          List.takeWhile_append_dropWhile, ← hsrc]
      · have hdrop := dropWhile_start ( List.nil_prefix (l := (scanExponentSign src).2.dropWhile
          Char.isDigit))
        rw [List.append_nil] at hdrop
        simp only [List.cons_append, scanExponent, hc, if_true, hsign, List.takeWhile_idem, hdrop]
    · simp only [scanExponent, hc, if_false, Prod.mk.injEq] at h
      obtain ⟨rfl, rfl⟩ := h
      exact ⟨rfl, rfl, by simp⟩

theorem not_isDigit_of_exponent {c : Char} (hc : c = 'e' ∨ c = 'E') : c.isDigit = false := by
  rcases hc with rfl | rfl <;> rfl

theorem scanFraction_exponent (hm : ∀ c ∈ m.head?, c = 'e' ∨ c = 'E') :
    scanFraction m = ([], m) := by
  unfold scanFraction
  split
  · rename_i src
    rcases hm '.' rfl with h | h <;> simp at h
  · rfl

theorem scanFraction_taken (h : scanFraction src = (fraction, behind)) :
    src = fraction ++ behind ∧ (∀ c ∈ fraction.head?, c = '.') ∧
      ∀ m, (∀ c ∈ m.head?, c = 'e' ∨ c = 'E') →
        scanFraction (fraction ++ m) = (fraction, m) := by
  unfold scanFraction at h
  split at h
  · rename_i src
    by_cases hdot : src.head? = some '.'
    · simp only [hdot, if_true, Prod.mk.injEq] at h
      obtain ⟨rfl, rfl⟩ := h
      exact ⟨rfl, by simp, fun m => scanFraction_exponent⟩
    · simp only [hdot, if_false, Prod.mk.injEq] at h
      obtain ⟨rfl, rfl⟩ := h
      refine ⟨?_, by simp, fun m hm => ?_⟩
      · rw [List.cons_append, List.takeWhile_append_dropWhile]
      · have hdigits (c : Char) (hc : c ∈ src.takeWhile Char.isDigit) : c.isDigit = true :=
          List.mem_takeWhile_imp hc
        have hhead (c : Char) (hc : c ∈ m.head?) : c.isDigit = false :=
          not_isDigit_of_exponent (hm c hc)
        have hdot' : (src.takeWhile Char.isDigit ++ m).head? ≠ some '.' := by
          intro hhd
          cases hd : src.takeWhile Char.isDigit with
          | nil =>
            rw [hd, List.nil_append] at hhd
            rcases hm '.' hhd with h | h <;> simp at h
          | cons d ds =>
            rw [hd, List.cons_append, List.head?_cons, Option.some.injEq] at hhd
            have hdigit := hdigits d (by simp [hd])
            rw [hhd] at hdigit
            contradiction
        simp only [List.cons_append, scanFraction, hdot', if_false,
          takeWhile_front hdigits hhead, dropWhile_front hdigits hhead]
  · simp only [Prod.mk.injEq] at h
    obtain ⟨rfl, rfl⟩ := h
    exact ⟨rfl, by simp, fun m => scanFraction_exponent⟩

end

theorem taken_decimal (src : List Char) : ∃ text, Taken scanDecimal src text ∧
    src.takeWhile Char.isDigit <+: text := by
  obtain ⟨⟨fraction, behind⟩, hfr⟩ : ∃ q, scanFraction (src.dropWhile Char.isDigit) = q := ⟨_, rfl⟩
  obtain ⟨⟨exponent, rest⟩, hex⟩ : ∃ q, scanExponent behind = q := ⟨_, rfl⟩
  obtain ⟨hdrop, hdot, hfraction⟩ := scanFraction_taken hfr
  obtain ⟨hbehind, hexponent, he⟩ := scanExponent_taken hex
  have hdigits (c : Char) (hc : c ∈ src.takeWhile Char.isDigit) : c.isDigit = true :=
    List.mem_takeWhile_imp hc
  have hhead : ∀ c ∈ (fraction ++ exponent).head?, c.isDigit = false := by
    intro c hc
    cases fraction with
    | nil => exact not_isDigit_of_exponent (he c hc)
    | cons d fraction =>
      have hcd : d = c := by simpa using hc
      have hd : d = '.' := hdot d rfl
      rw [← hcd, hd]
      rfl
  have htake := takeWhile_front hdigits hhead
  have hrest := dropWhile_front hdigits hhead
  refine ⟨src.takeWhile Char.isDigit ++ (fraction ++ exponent), ⟨?_, ?_⟩, List.prefix_append _ _⟩
  · have hleft : (scanDecimal src).rest = rest := by
      simp only [scanDecimal, hfr, hex]
      split <;> rfl
    rw [hleft, List.append_assoc, List.append_assoc, ← hbehind, ← hdrop,
      List.takeWhile_append_dropWhile]
  · have hacc : Radix.decimal.accumulate 64 (src.takeWhile Char.isDigit ++ (fraction ++ exponent)) =
        Radix.decimal.accumulate 64 src := by
      simp only [Radix.accumulate]
      exact congrArg (List.foldl _ _) htake
    simp only [scanDecimal, htake, hrest, hfraction exponent he, hexponent, hfr, hex, hacc]
    split <;> rfl

theorem taken_number {c : Char} (hc : opensNumber c = true) (src : List Char) :
    ∃ text, Taken scanNumber (c :: src) (c :: text) := by
  have hmark (b : IntegerBase) (hb : b ≠ .decimal) (src : List Char) :
      Taken scanNumber (b.radix.mark ++ src) (b.radix.mark ++ src.takeWhile b.radix.isDigit) := by
    obtain ⟨hrest, htoken⟩ := taken_marked b.radix src
    rw [Taken, IntegerText.scanNumber_mark hb, IntegerText.scanNumber_mark hb, List.append_assoc, ← hrest]
    exact ⟨rfl, htoken⟩
  by_cases hd : c.isDigit = true
  · obtain ⟨text, ⟨hrest, htoken⟩, hpre⟩ := taken_decimal (c :: src)
    rw [List.takeWhile_cons_of_pos hd] at hpre
    obtain ⟨more, rfl⟩ := hpre
    refine ⟨src.takeWhile Char.isDigit ++ more, ?_⟩
    rw [Taken, IntegerText.scanNumber_digit hd, IntegerText.scanNumber_digit hd]
    exact ⟨hrest, htoken⟩
  · simp only [opensNumber, hd, Bool.or_eq_true, decide_eq_true_eq] at hc
    rcases hc with ((h | rfl) | rfl) | rfl
    · contradiction
    · exact ⟨_, hmark .hex (by simp) src⟩
    · exact ⟨_, hmark .binary (by simp) src⟩
    · exact ⟨_, hmark .octal (by simp) src⟩

section
variable {src text rest m : List Char}

theorem scanQuoted_char {c : Char} (hnl : c ≠ '\n') (hquote : c ≠ '\'') (src : List Char) :
    scanQuoted (c :: src) = (c :: (scanQuoted src).1, (scanQuoted src).2.1, (scanQuoted src).2.2) :=
  scanQuoted.eq_5 c src hnl (fun _ h _ => hquote h) hquote

theorem scanQuoted_quote (h : ∀ src, m ≠ '\'' :: src) :
    scanQuoted ('\'' :: m) = ([], .closed, m) :=
  scanQuoted.eq_4 m h

theorem ne_of_start {d : Char} (h : ∀ l, rest ≠ d :: l) (hm : m <+: rest) : ∀ l, m ≠ d :: l := by
  rintro l rfl
  obtain ⟨behind, rfl⟩ := hm
  exact h _ rfl

theorem scanQuoted_closed (h : scanQuoted src = (text, .closed, rest)) :
    ∃ taken, src = taken ++ rest ∧
      ∀ m, m <+: rest → scanQuoted (taken ++ m) = (text, .closed, m) := by
  fun_induction scanQuoted src generalizing text with
  | case1 => cases h
  | case2 src => cases h
  | case3 src text' ending rest' heq ih =>
    cases h
    obtain ⟨taken, rfl, htaken⟩ := ih heq
    refine ⟨'\'' :: '\'' :: taken, rfl, fun m hm => ?_⟩
    rw [List.cons_append, List.cons_append, scanQuoted, htaken m hm]
  | case4 src hne =>
    cases h
    exact ⟨['\''], rfl, fun m hm => scanQuoted_quote (ne_of_start hne hm)⟩
  | case5 c src hnl hquotes hquote text' ending rest' heq ih =>
    cases h
    obtain ⟨taken, rfl, htaken⟩ := ih heq
    refine ⟨c :: taken, rfl, fun m hm => ?_⟩
    rw [List.cons_append, scanQuoted_char hnl hquote, htaken m hm]

theorem scanQuoted_open (h : (scanQuoted src).2.1 ≠ .closed) :
    ∃ taken, src = taken ++ (scanQuoted src).2.2 ∧
      scanQuoted taken = ((scanQuoted src).1, .endOfFile, []) := by
  fun_induction scanQuoted src with
  | case1 => exact ⟨[], rfl, rfl⟩
  | case2 src => exact ⟨[], rfl, rfl⟩
  | case3 src text ending rest heq ih =>
    rw [heq] at ih
    obtain ⟨taken, hsrc, htaken⟩ := ih h
    refine ⟨'\'' :: '\'' :: taken, by rw [hsrc]; rfl, ?_⟩
    rw [scanQuoted, htaken]
  | case4 src hne => exact absurd rfl h
  | case5 c src hnl hquotes hquote text ending rest heq ih =>
    rw [heq] at ih
    obtain ⟨taken, hsrc, htaken⟩ := ih h
    refine ⟨c :: taken, by rw [hsrc]; rfl, ?_⟩
    rw [scanQuoted_char hnl hquote, htaken]

theorem scanCode_decimal (h : ∀ l, src ≠ '$' :: l) :
    scanCode src = (Radix.decimal.accumulate 32 src, Radix.decimal.afterDigits src) :=
  scanCode.eq_2 src h

theorem scanCode_taken (src : List Char) :
    ∃ taken, src = taken ++ (scanCode src).2 ∧
      ∀ m, m <+: (scanCode src).2 → scanCode (taken ++ m) = ((scanCode src).1, m) := by
  by_cases h : ∃ l, src = '$' :: l
  · obtain ⟨src, rfl⟩ := h
    refine ⟨'$' :: src.takeWhile isHex,
      congrArg ('$' :: ·) List.takeWhile_append_dropWhile.symm, fun m hm => ?_⟩
    exact Prod.ext (Radix.accumulate_start (r := .hex) 32 hm) (dropWhile_start hm)
  · have hne : ∀ l, src ≠ '$' :: l := not_exists.mp h
    rw [scanCode_decimal hne]
    refine ⟨src.takeWhile Char.isDigit, List.takeWhile_append_dropWhile.symm, fun m hm => ?_⟩
    have hpre : src.takeWhile Char.isDigit ++ m <+: src := by
      have hm' : m <+: src.dropWhile Char.isDigit := hm
      have := (List.prefix_append_right_inj (src.takeWhile Char.isDigit)).mpr hm'
      rwa [List.takeWhile_append_dropWhile] at this
    rw [scanCode_decimal (ne_of_start hne hpre)]
    exact Prod.ext (Radix.accumulate_start (r := .decimal) 32 hm) (dropWhile_start hm)

theorem scanStringPieces_closed (h : scanQuoted src = (text, .closed, rest)) :
    scanStringPieces ('\'' :: src) = (text ++ (scanStringPieces rest).1,
      (scanStringPieces rest).2.1, (scanStringPieces rest).2.2) := by
  rw [scanStringPieces, h]

theorem scanStringPieces_open (h : (scanQuoted src).2.1 ≠ .closed) :
    (scanStringPieces ('\'' :: src)).1 = (scanQuoted src).1 ∧
      (scanStringPieces ('\'' :: src)).2.2 = (scanQuoted src).2.2 := by
  rw [scanStringPieces]
  split
  · contradiction
  · exact ⟨rfl, rfl⟩
  · exact ⟨rfl, rfl⟩

/-- The character of a code; one out of range is reported and stands for zero. -/
def codeChar (code : Nat × Bool) : Char :=
  if code.2 || decide (255 < code.1) then Char.ofNat 0 else Char.ofNat code.1

theorem scanStringPieces_code (src : List Char) :
    (scanStringPieces ('#' :: src)).1 =
        codeChar (scanCode src).1 :: (scanStringPieces (scanCode src).2).1 ∧
      (scanStringPieces ('#' :: src)).2.2 = (scanStringPieces (scanCode src).2).2.2 := by
  rw [scanStringPieces]
  simp only [codeChar]
  split
  · exact ⟨rfl, rfl⟩
  · exact ⟨rfl, rfl⟩

theorem scanStringPieces_nil (h : ∀ l, src ≠ '\'' :: l) (h' : ∀ l, src ≠ '#' :: l) :
    scanStringPieces src = ([], [], src) := by
  rw [scanStringPieces]
  · exact h
  · exact h'

theorem scanStringPieces_taken (src : List Char) :
    ∃ taken, src = taken ++ (scanStringPieces src).2.2 ∧
      (scanStringPieces taken).1 = (scanStringPieces src).1 ∧
      (src.head?.any opensString = true → taken.head? = src.head?) := by
  induction hn : src.length using Nat.strongRecOn generalizing src with
  | _ n ih =>
    subst hn
    by_cases hquote : ∃ l, src = '\'' :: l
    · obtain ⟨piece, rfl⟩ := hquote
      obtain ⟨⟨text, ending, rest⟩, hq⟩ : ∃ q, scanQuoted piece = q := ⟨_, rfl⟩
      by_cases hend : ending = .closed
      · subst hend
        obtain ⟨first, rfl, hfirst⟩ := scanQuoted_closed hq
        obtain ⟨more, hrest, hmore, -⟩ := ih rest.length (by simp) rest rfl
        have hpre : more <+: rest := ⟨_, hrest.symm⟩
        refine ⟨'\'' :: (first ++ more), ?_, ?_, fun _ => rfl⟩
        · rw [scanStringPieces_closed hq, List.cons_append, List.append_assoc, ← hrest]
        · rw [scanStringPieces_closed hq, scanStringPieces_closed (hfirst more hpre), hmore]
      · have hopen : (scanQuoted piece).2.1 ≠ .closed := by rwa [hq]
        obtain ⟨taken, hpiece, htaken⟩ := scanQuoted_open hopen
        have hopen' : (scanQuoted taken).2.1 ≠ .closed := by simp [htaken]
        refine ⟨'\'' :: taken, ?_, ?_, fun _ => rfl⟩
        · rw [(scanStringPieces_open hopen).2, List.cons_append, ← hpiece]
        · rw [(scanStringPieces_open hopen).1, (scanStringPieces_open hopen').1, htaken]
    · by_cases hcode : ∃ l, src = '#' :: l
      · obtain ⟨code, rfl⟩ := hcode
        obtain ⟨first, hsrc, hfirst⟩ := scanCode_taken code
        have hlen := scanCode_length_le code
        obtain ⟨more, hrest, hmore, -⟩ := ih _ (by simp; omega) (scanCode code).2 rfl
        have hpre : more <+: (scanCode code).2 := ⟨_, hrest.symm⟩
        refine ⟨'#' :: (first ++ more), ?_, ?_, fun _ => rfl⟩
        · rw [(scanStringPieces_code code).2, List.cons_append, List.append_assoc, ← hrest, ← hsrc]
        · rw [(scanStringPieces_code code).1, (scanStringPieces_code (first ++ more)).1,
            hfirst more hpre, hmore]
      · have hnil := scanStringPieces_nil (not_exists.mp hquote) (not_exists.mp hcode)
        refine ⟨[], by simp [hnil], by simp [hnil, scanStringPieces], fun hopens => ?_⟩
        cases src with
        | nil => rfl
        | cons c l =>
          simp only [List.head?_cons, Option.any_some, opensString, Bool.or_eq_true,
            decide_eq_true_eq] at hopens
          rcases hopens with rfl | rfl
          · exact absurd ⟨l, rfl⟩ hquote
          · exact absurd ⟨l, rfl⟩ hcode

end

theorem taken_string {c : Char} (hc : opensString c = true) (src : List Char) :
    ∃ text, Taken scanString (c :: src) (c :: text) := by
  obtain ⟨taken, hsrc, htext, hhead⟩ := scanStringPieces_taken (c :: src)
  cases taken with
  | nil => simp [hc] at hhead
  | cons d text =>
    have hd : d = c := by simpa [hc] using hhead
    subst hd
    exact ⟨text, hsrc, by simp [scanString, htext]⟩

theorem scanSingle_token (c : Char) (src rest : List Char) :
    (scanSingle c src).rest = src ∧ (scanSingle c rest).token = (scanSingle c src).token := by
  unfold scanSingle
  split
  · exact ⟨rfl, rfl⟩
  · exact ⟨rfl, rfl⟩

theorem taken_punctuation (c : Char) (src : List Char) :
    ∃ text, src = text ++ (scanPunctuation c src).rest ∧
      (scanPunctuation c text).token = (scanPunctuation c src).token := by
  cases src with
  | nil => exact ⟨[], (scanSingle_token c [] []).1.symm, rfl⟩
  | cons d src =>
    cases hpair : pairPunctuation c d with
    | some kind => exact ⟨[d], by simp [scanPunctuation, hpair], by simp [scanPunctuation, hpair]⟩
    | none =>
      obtain ⟨hrest, htoken⟩ := scanSingle_token c (d :: src) []
      exact ⟨[], by simp [scanPunctuation, hpair, hrest], by simp [scanPunctuation, hpair, htoken]⟩

theorem scan_taken (c : Char) (src : List Char) :
    ∃ text, src = text ++ (scan c src).rest ∧ (scan c text).token = (scan c src).token := by
  unfold scan
  split
  · rename_i hc
    obtain ⟨hrest, htoken⟩ := taken_identifier (c :: src)
    have hcont : isIdentCont c = true := by simp [isIdentCont, hc]
    rw [List.takeWhile_cons_of_pos hcont] at hrest htoken
    exact ⟨src.takeWhile isIdentCont, (List.cons.inj hrest).2, htoken⟩
  · split
    · rename_i hc
      obtain ⟨text, hrest, htoken⟩ := taken_number hc src
      exact ⟨text, (List.cons.inj hrest).2, htoken⟩
    · split
      · rename_i hc
        obtain ⟨text, hrest, htoken⟩ := taken_string hc src
        exact ⟨text, (List.cons.inj hrest).2, htoken⟩
      · exact taken_punctuation c src

end Tp2cc
