import Tp2cc.Machine.CxxString

set_option autoImplicit false

namespace Tp2cc
open Machine

/-- `static_cast<char>('0' + d)` -/
def digitChar (d : Nat) : Char := .ofNat (48+d)

def stringLiteralBodyCharToCxx (c : UInt8) : List Char :=
  if c = 92 then ['\\', '\\']
  else if c = 34 then ['\\', '"']
  else if c = 10 then ['\\', 'n']
  else if c = 13 then ['\\', 'r']
  else if c = 9 then ['\\', 't']
  else
    let b := c.toNat
    if b < 0x20 ∨ b ≥ 0x7f then
      ['\\', digitChar ((b >>> 6) &&& 7), digitChar ((b >>> 3) &&& 7), digitChar (b &&& 7)]
    else [.ofNat b]

def stringLiteralBody (value : List UInt8) : List Char := value.flatMap stringLiteralBodyCharToCxx

def pcharCast : List Char :=
  "const_cast<::rt::p_char*>(reinterpret_cast<const ::rt::p_char*>(\"".toList

def pcharStringLiteralToCxx (value : List UInt8) : List Char :=
  pcharCast ++ stringLiteralBody value ++ "\"))".toList

theorem octalDigit_digitChar {d : Nat} (h : d < 8) : Cxx.octalDigit? (digitChar d) = some d := by
  have hall : ∀ d < 8, Cxx.octalDigit? (digitChar d) = some d := by decide
  exact hall d h

theorem ofNat_toNat_ascii (n : Nat) (h : n < 128) : (Char.ofNat n).toNat = n := by
  have hall : ∀ n < 128, (Char.ofNat n).toNat = n := by decide
  exact hall n h

theorem and_seven (n : Nat) : n &&& 7 = n % 8 := Nat.and_two_pow_sub_one_eq_mod n 3

theorem readLiteral_byte (c : UInt8) (cs : List Char) :
    Cxx.readLiteral .plain (stringLiteralBodyCharToCxx c ++ cs) =
      Cxx.prepend [c] (Cxx.readLiteral .plain cs) := by
  unfold stringLiteralBodyCharToCxx
  split
  · rename_i hc
    exact hc ▸ Cxx.readLiteral_simple (by decide) (by decide)
  split
  · rename_i hc
    exact hc ▸ Cxx.readLiteral_simple (by decide) (by decide)
  split
  · rename_i hc
    exact hc ▸ Cxx.readLiteral_simple (by decide) (by decide)
  split
  · rename_i hc
    exact hc ▸ Cxx.readLiteral_simple (by decide) (by decide)
  split
  · rename_i hc
    exact hc ▸ Cxx.readLiteral_simple (by decide) (by decide)
  rename_i hback hquote hline hreturn htab
  have hlt := c.toNat_lt
  simp only
  split
  · have hsum : 64*((c.toNat >>> 6) &&& 7)+8*((c.toNat >>> 3) &&& 7)+(c.toNat &&& 7) = c.toNat := by
      simp only [and_seven, Nat.shiftRight_eq_div_pow]
      omega
    have h₂ : Cxx.octalDigit? (digitChar ((c.toNat >>> 6) &&& 7)) = some ((c.toNat >>> 6) &&& 7) :=
      octalDigit_digitChar (by rw [and_seven]; omega)
    have h₁ : Cxx.octalDigit? (digitChar ((c.toNat >>> 3) &&& 7)) = some ((c.toNat >>> 3) &&& 7) :=
      octalDigit_digitChar (by rw [and_seven]; omega)
    have h₀ : Cxx.octalDigit? (digitChar (c.toNat &&& 7)) = some (c.toNat &&& 7) :=
      octalDigit_digitChar (by rw [and_seven]; omega)
    simp only [List.cons_append, List.nil_append]
    rw [Cxx.readLiteral_digits h₂ h₁ h₀ (by rw [hsum]; exact hlt), hsum, UInt8.ofNat_toNat]
  · rename_i hprintable
    have hnat : (Char.ofNat c.toNat).toNat = c.toNat := ofNat_toNat_ascii c.toNat (by omega)
    have hne {d : UInt8} {e : Char} (hd : c ≠ d) (he : e.toNat = d.toNat) :
        Char.ofNat c.toNat ≠ e := by
      intro h
      apply hd
      apply UInt8.toNat_inj.mp
      rw [← he, ← h, hnat]
    simp only [List.cons_append, List.nil_append]
    rw [Cxx.readLiteral_plain (hne hquote rfl) (hne hline rfl) (hne hback rfl) (by rw [hnat]; omega),
      hnat, UInt8.ofNat_toNat]

theorem readLiteral_body (value : List UInt8) (rest : List Char) :
    Cxx.readLiteral .plain (stringLiteralBody value ++ '"' :: rest) = some (value,rest) := by
  induction value with
  | nil => rfl
  | cons c value ih =>
    rw [stringLiteralBody, List.flatMap_cons, List.append_assoc, readLiteral_byte]
    rw [stringLiteralBody] at ih
    rw [ih]
    rfl

theorem body_no_line (value : List UInt8) : ∀ c ∈ stringLiteralBody value, c ≠ '\n' := by
  intro c hc
  obtain ⟨b, -, hc⟩ := List.mem_flatMap.mp hc
  have hdigit {d : Nat} : digitChar (d &&& 7) ≠ '\n' := by
    have hall : ∀ d < 8, digitChar d ≠ '\n' := by decide
    exact hall _ (by rw [and_seven]; omega)
  unfold stringLiteralBodyCharToCxx at hc
  simp only at hc
  split_ifs at hc with hback hquote hline hreturn htab hcontrol
  · exact ne_of_mem_of_not_mem hc (by decide)
  · exact ne_of_mem_of_not_mem hc (by decide)
  · exact ne_of_mem_of_not_mem hc (by decide)
  · exact ne_of_mem_of_not_mem hc (by decide)
  · exact ne_of_mem_of_not_mem hc (by decide)
  · refine ne_of_mem_of_not_mem hc ?_
    simp only [List.mem_cons, List.not_mem_nil, or_false, not_or]
    exact ⟨by decide, hdigit.symm, hdigit.symm, hdigit.symm⟩
  · rw [List.mem_singleton.mp hc]
    intro h
    have hnat := congrArg Char.toNat h
    rw [ofNat_toNat_ascii b.toNat (by omega)] at hnat
    exact hline (UInt8.toNat_inj.mp hnat)

theorem readLiteral_spliced (value : List UInt8) (rest : List Char) :
    Cxx.readLiteral .plain (Cxx.spliceLines (stringLiteralBody value ++ '"' :: rest)) =
      some (value,Cxx.spliceLines rest) := by
  rw [Cxx.spliceLines_append (body_no_line value) (by simp), Cxx.spliceLines_cons (.inl (by decide))]
  exact readLiteral_body value (Cxx.spliceLines rest)

theorem readLiteral_pchar (value : List UInt8) (rest : List Char) :
    Cxx.readLiteral .plain
        (Cxx.spliceLines ((pcharStringLiteralToCxx value ++ rest).drop pcharCast.length)) =
      some (value,Cxx.spliceLines (')' :: ')' :: rest)) := by
  have htext : (pcharStringLiteralToCxx value ++ rest).drop pcharCast.length =
      stringLiteralBody value ++ '"' :: ')' :: ')' :: rest := by
    rw [pcharStringLiteralToCxx, List.append_assoc, List.append_assoc, List.drop_left]
    rfl
  rw [htext, readLiteral_spliced]

/-- The bytes come back from the literal, which ends at its closing quote, and no two lists of bytes
have the same literal. -/
theorem stringLiteral_exact :
    (∀ (value : List UInt8) (rest : List Char),
      Cxx.readLiteral .plain (Cxx.spliceLines (stringLiteralBody value ++ '"' :: rest)) =
        some (value,Cxx.spliceLines rest)) ∧
    Function.Injective stringLiteralBody := by
  refine ⟨readLiteral_spliced, ?_⟩
  intro v w h
  have hv := readLiteral_body v []
  rw [h, readLiteral_body w []] at hv
  cases hv
  rfl

end Tp2cc
