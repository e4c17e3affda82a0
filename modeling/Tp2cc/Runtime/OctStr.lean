import Mathlib.Data.Nat.Digits.Lemmas
import Tp2cc.Machine.Conversion
import Tp2cc.Runtime.Arithmetic
import Tp2cc.Runtime.ShortString

/-! `p_octstr`: octal digits that are produced from the last one on in a buffer on the stack. -/
set_option autoImplicit false

namespace Tp2cc.Rt
open Machine ShortString

def storeByte (buf : List UInt8) (i : Nat) (c : UInt8) : Option (List UInt8) :=
  if i < buf.length then some (buf.set i c) else none

def octDigit (bits : Nat) : UInt8 := .ofNat (48+(bits &&& 7))

/-- `do { .. } while (bits != 0);`, which gives the buffer and `len`. -/
def octDigitLoop (buf : List UInt8) (len bits : Nat) : Option (List UInt8 × Nat) := do
  let buf ← storeByte buf len (octDigit bits)
  if bits >>> 3 = 0 then return (buf, len+1) else octDigitLoop buf (len+1) (bits >>> 3)
termination_by bits
decreasing_by
  rename_i h
  rw [Nat.shiftRight_eq_div_pow] at h ⊢
  omega

/-- So many turns of `while (len < width) buf[len++] = '0';`. -/
def octPadLoop (buf : List UInt8) (len : Nat) : Nat → Option (List UInt8 × Nat)
  | 0 => some (buf, len)
  | turns+1 => do
    let buf ← storeByte buf len 48
    octPadLoop buf (len+1) turns

def octBuffer (bits : Nat) (width : Int) : Option (List UInt8 × Nat) := do
  let (buf, len) ← octDigitLoop (List.replicate 65 0) 0 bits
  octPadLoop buf len (width-len).toNat

def unsignedBits {s : IntType} (value : Word s) : Nat := (value.cast s.twin).val.toNat

def pOctstr {s : IntType} (value : Word s) (width : Int) : Option (ShortString .full) := do
  let (buf, len) ← octBuffer (unsignedBits value) width
  return .filled .full (buf.take len).reverse len

def octalDigits (bits : Nat) : List UInt8 :=
  if bits = 0 then [48] else (Nat.digits 8 bits).map fun d => .ofNat (48+d)

/-- The octal representation with zeros on the left up to the width. -/
def octal (bits : Nat) (width : Int) : List UInt8 :=
  List.replicate (width-(octalDigits bits).length).toNat 48 ++ (octalDigits bits).reverse

theorem storeByte_take {buf : List UInt8} {i : Nat} (h : i < buf.length) (c : UInt8) :
    ∃ buf', storeByte buf i c = some buf' ∧ buf'.length = buf.length ∧
      buf'.take (i+1) = buf.take i ++ [c] := by
  refine ⟨buf.set i c, if_pos h, List.length_set, ?_⟩
  rw [List.take_add_one, List.take_set_of_le (Nat.le_refl i), List.getElem?_set_self h]
  rfl

theorem octalDigits_of_lt {bits : Nat} (h : bits < 8) : octalDigits bits = [octDigit bits] := by
  interval_cases bits <;> simp [octalDigits, octDigit]

theorem octalDigits_step {bits : Nat} (h : 8 ≤ bits) :
    octalDigits bits = octDigit bits :: octalDigits (bits/8) := by
  have hmod : bits &&& 7 = bits % 8 := Nat.and_two_pow_sub_one_eq_mod bits 3
  have hne : ¬ bits = 0 := by omega
  have hne' : ¬ bits/8 = 0 := by omega
  rw [octalDigits, if_neg hne, Nat.digits_def' (by decide) (by omega), List.map_cons, octalDigits,
    if_neg hne', octDigit, hmod]

theorem octDigitLoop_eq {buf : List UInt8} {len bits : Nat}
    (h : len+(octalDigits bits).length ≤ buf.length) :
    ∃ buf', octDigitLoop buf len bits = some (buf', len+(octalDigits bits).length) ∧
      buf'.length = buf.length ∧
      buf'.take (len+(octalDigits bits).length) = buf.take len ++ octalDigits bits := by
  have hshift : bits >>> 3 = bits/8 := Nat.shiftRight_eq_div_pow bits 3
  by_cases hlt : bits < 8
  · have hdone : bits/8 = 0 := by omega
    rw [octalDigits_of_lt hlt] at h ⊢
    obtain ⟨buf', hstore, hlen, htake⟩ := storeByte_take (show len < buf.length from h) (octDigit bits)
    refine ⟨buf', ?_, hlen, htake⟩
    rw [octDigitLoop, hstore]
    simp [hshift, hdone]
  · have hmore : ¬ bits/8 = 0 := by omega
    rw [octalDigits_step (by omega), List.length_cons] at h ⊢
    obtain ⟨buf₁, hstore, hlen₁, htake₁⟩ :=
      storeByte_take (show len < buf.length by omega) (octDigit bits)
    obtain ⟨buf₂, hloop, hlen₂, htake₂⟩ :=
      @octDigitLoop_eq buf₁ (len+1) (bits/8) (by omega)
    refine ⟨buf₂, ?_, hlen₂.trans hlen₁, ?_⟩
    · rw [octDigitLoop, hstore, Option.bind_eq_bind, Option.bind_some, hshift, if_neg hmore, hloop]
      congr 2
      omega
    · rw [show len+((octalDigits (bits/8)).length+1) = len+1+(octalDigits (bits/8)).length by omega,
        htake₂, htake₁, List.append_assoc]
      rfl
termination_by bits
decreasing_by omega

theorem octPadLoop_eq {buf : List UInt8} {len turns : Nat} (h : len+turns ≤ buf.length) :
    ∃ buf', octPadLoop buf len turns = some (buf', len+turns) ∧ buf'.length = buf.length ∧
      buf'.take (len+turns) = buf.take len ++ List.replicate turns 48 := by
  induction turns generalizing buf len with
  | zero => exact ⟨buf, rfl, rfl, by simp⟩
  | succ turns ih =>
    obtain ⟨buf₁, hstore, hlen₁, htake₁⟩ := storeByte_take (show len < buf.length by omega) 48
    obtain ⟨buf₂, hloop, hlen₂, htake₂⟩ := @ih buf₁ (len+1) (by omega)
    refine ⟨buf₂, ?_, hlen₂.trans hlen₁, ?_⟩
    · rw [octPadLoop, hstore, Option.bind_eq_bind, Option.bind_some, hloop]
      congr 2
      omega
    · rw [show len+(turns+1) = len+1+turns by omega, htake₂, htake₁, List.append_assoc,
        List.replicate_succ]
      rfl

theorem octPadLoop_none {buf : List UInt8} {len turns : Nat} (hlen : len ≤ buf.length)
    (h : buf.length < len+turns) : octPadLoop buf len turns = none := by
  induction turns generalizing buf len with
  | zero => omega
  | succ turns ih =>
    rw [octPadLoop]
    by_cases hlt : len < buf.length
    · obtain ⟨buf₁, hstore, hlen₁, -⟩ := storeByte_take hlt 48
      rw [hstore, Option.bind_eq_bind, Option.bind_some, ih (by omega) (by omega)]
    · rw [storeByte, if_neg hlt]
      rfl

section
variable {s : IntType}

theorem octalDigits_length {bits : Nat} (h : bits < 2^64) : (octalDigits bits).length ≤ 22 := by
  rw [octalDigits]
  split
  · decide
  · rw [List.length_map, Nat.digits_length_le_iff (by decide)]
    exact h.trans_le (by decide)

theorem unsignedBits_lt (h64 : s.bits ≤ 64) (value : Word s) : unsignedBits value < 2^64 := by
  have hmem := (IntType.holds_unsigned (t := s.twin) rfl _).mp (value.cast s.twin).mem
  have hle := IntType.two_pow_mono h64
  have hbits : s.twin.bits = s.bits := rfl
  rw [hbits] at hmem
  unfold unsignedBits
  omega

theorem octDigitLoop_buffer {bits : Nat} (h : bits < 2^64) :
    ∃ buf, octDigitLoop (List.replicate 65 0) 0 bits = some (buf, (octalDigits bits).length) ∧
      buf.length = 65 ∧ buf.take (octalDigits bits).length = octalDigits bits := by
  have hdigits := octalDigits_length h
  obtain ⟨buf, hloop, hlen, htake⟩ :=
    @octDigitLoop_eq (List.replicate 65 0) 0 bits (by rw [List.length_replicate]; omega)
  rw [Nat.zero_add] at hloop htake
  exact ⟨buf, hloop, hlen.trans List.length_replicate, htake⟩

theorem octBuffer_eq {bits : Nat} (hbits : bits < 2^64) {width : Int} (h : width ≤ 65) :
    ∃ buf len, octBuffer bits width = some (buf, len) ∧ len ≤ 65 ∧ len ≤ buf.length ∧
      (buf.take len).reverse = octal bits width := by
  have hdigits := octalDigits_length hbits
  obtain ⟨buf, hloop, hlen, htake⟩ := octDigitLoop_buffer hbits
  generalize hn : (octalDigits bits).length = n at *
  obtain ⟨buf', hpad, hlen', htake'⟩ := @octPadLoop_eq buf n (width-n).toNat (by omega)
  refine ⟨buf', n+(width-n).toNat, ?_, by omega, by omega, ?_⟩
  · rw [octBuffer, hloop, Option.bind_eq_bind, Option.bind_some]
    exact hpad
  · rw [htake', htake, List.reverse_append, List.reverse_replicate, octal, hn]

theorem octBuffer_none {bits : Nat} (hbits : bits < 2^64) {width : Int} (h : 65 < width) :
    octBuffer bits width = none := by
  have hdigits := octalDigits_length hbits
  obtain ⟨buf, hloop, hlen, -⟩ := octDigitLoop_buffer hbits
  rw [octBuffer, hloop, Option.bind_eq_bind, Option.bind_some]
  exact octPadLoop_none (by omega) (by omega)

theorem pOctstr_eq (h64 : s.bits ≤ 64) (value : Word s) {width : Int} (h : width ≤ 65) :
    ∃ out, pOctstr value width = some out ∧
      out.Represents (octal (unsignedBits value) width) := by
  obtain ⟨buf, len, hrun, hcount, hlen, hbytes⟩ := octBuffer_eq (unsignedBits_lt h64 value) h
  refine ⟨.filled .full (buf.take len).reverse len, ?_, ?_⟩
  · rw [pOctstr, hrun]
    rfl
  · have hlength : (buf.take len).reverse.length = len := by
      rw [List.length_reverse, List.length_take]
      omega
    have hfilled := @filled_represents .full (buf.take len).reverse len
      (by rw [Capacity.full_val]; omega) hlength.ge
    rw [List.take_of_length_le hlength.le] at hfilled
    exact hbytes ▸ hfilled

theorem pOctstr_none (h64 : s.bits ≤ 64) (value : Word s) {width : Int} (h : 65 < width) :
    pOctstr value width = none := by
  rw [pOctstr, octBuffer_none (unsignedBits_lt h64 value) h]
  rfl

/-- All stores are in the buffer, and the string is the padded representation up to the
capacity. -/
def WritesOctal (value : Word s) (width : Int) : Prop :=
  ∃ out, pOctstr value width = some out ∧
    out.Represents ((octal (unsignedBits value) width).take 255)

/-- The padding stays in the buffer exactly up to a width of 65. -/
theorem writesOctal_iff (h64 : s.bits ≤ 64) (value : Word s) (width : Int) :
    WritesOctal value width ↔ width ≤ 65 := by
  constructor
  · rintro ⟨out, hout, -⟩
    by_contra h
    rw [pOctstr_none h64 value (by omega)] at hout
    cases hout
  · intro h
    obtain ⟨out, hout, hrepresents⟩ := pOctstr_eq h64 value h
    refine ⟨out, hout, ?_⟩
    rw [List.take_of_length_le (show _ ≤ 255 from hrepresents.le)]
    exact hrepresents

theorem writesOctal_byte : WritesOctal (Word.maximum ⟨false, 8, IntType.eight_pos⟩) 5 :=
  (writesOctal_iff (by decide) _ _).mpr (by decide)

theorem not_writesOctal_wide : ¬ WritesOctal (Word.ofInt .int 8) 66 := by
  rintro ⟨out, hout, -⟩
  rw [pOctstr_none (by decide) _ (by decide)] at hout
  cases hout

end
end Tp2cc.Rt
