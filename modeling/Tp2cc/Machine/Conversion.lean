import Tp2cc.Machine.Word

set_option autoImplicit false

namespace Machine

namespace IntType

def int : IntType := ⟨true, 32, thirtyTwo_pos⟩

/-- Integral promotion: `int` holds every value of a narrower type. -/
def promote (t : IntType) : IntType := if t.bits < 32 then int else t

/-- The common type of two operands: the wider one, and of equal width the unsigned one. -/
def usual (s t : IntType) : IntType :=
  let s' := s.promote
  let t' := t.promote
  if s'.bits < t'.bits then t'
  else if t'.bits < s'.bits then s'
  else if s'.signed then t' else s'

theorem promote_bits_le (t : IntType) : t.bits ≤ t.promote.bits := by
  unfold promote
  split_ifs with h
  · exact h.le
  · exact le_refl _

theorem usual_comm (s t : IntType) : usual s t = usual t s := by
  have h (a b : IntType) (hb : a.bits = b.bits) (hs : a.signed = b.signed) : a = b := by
    cases a; cases b; simp_all
  simp only [usual]
  split_ifs with h₁ h₂ h₃ h₄ h₅
  · omega
  · rfl
  · rfl
  · exact h _ _ (by omega) (by simp_all)
  · rfl
  · rfl
  · exact h _ _ (by omega) (by simp_all)

theorem usual_bits_le_left (s t : IntType) : s.bits ≤ (usual s t).bits := by
  have := s.promote_bits_le
  simp only [usual]
  split_ifs <;> omega

theorem usual_bits_le_right (s t : IntType) : t.bits ≤ (usual s t).bits := by
  have := t.promote_bits_le
  simp only [usual]
  split_ifs <;> omega

theorem promote_within (t : IntType) : t.Within t.promote := by
  unfold promote
  split_ifs with h
  · cases hs : t.signed
    · exact within_of_unsigned hs rfl h
    · exact within_of_same hs h.le
  · exact Within.refl t

theorem Within.trans {s t u : IntType} (h : s.Within t) (k : t.Within u) : s.Within u :=
  ⟨k.1.trans h.1, h.2.trans k.2⟩

theorem usual_within {s t : IntType} (h : (usual s t).signed = true) :
    s.Within (usual s t) ∧ t.Within (usual s t) := by
  have key : s.promote.Within (usual s t) ∧ t.promote.Within (usual s t) := by
    simp only [usual] at h ⊢
    split_ifs at h ⊢ with h₁ h₂ h₃
    · refine ⟨?_, Within.refl _⟩
      cases hs : s.promote.signed
      · exact within_of_unsigned hs h h₁
      · exact within_of_same (hs.trans h.symm) h₁.le
    · refine ⟨Within.refl _, ?_⟩
      cases ht : t.promote.signed
      · exact within_of_unsigned ht h h₂
      · exact within_of_same (ht.trans h.symm) h₂.le
    · exact ⟨within_of_same (h₃.trans h.symm) (by omega), Within.refl _⟩
    · exact absurd h h₃
  exact ⟨s.promote_within.trans key.1, t.promote_within.trans key.2⟩

theorem reduce_of_neg {t : IntType} (hs : t.signed = false) {v : Int} (h₁ : -(2^t.bits) ≤ v)
    (h₂ : v < 0) : t.reduce v = v+2^t.bits := by
  refine eq_of_emod (t.reduce_holds v) ((holds_unsigned hs _).mpr ⟨by omega, by omega⟩) ?_
  rw [reduce_emod]; simp

theorem Holds.lower {t u : IntType} (hb : t.bits ≤ u.bits) {v : Int} (h : t.Holds v) :
    -(2^u.bits) ≤ v ∧ v ≤ 2^u.bits-1 := by
  have hp := two_pow_mono hb
  have h2 := t.two_pow_split
  have h0 := two_pow_pos (t.bits-1)
  cases hs : t.signed with
  | true => rw [holds_signed hs] at h; omega
  | false => rw [holds_unsigned hs] at h; omega

end IntType

section
variable {s t : IntType}

def cxxLe (a : Word s) (b : Word t) : Bool :=
  (a.cast (s.usual t)).val ≤ (b.cast (s.usual t)).val

def cxxEq (a : Word s) (b : Word t) : Bool :=
  (a.cast (s.usual t)).val = (b.cast (s.usual t)).val

/-- Equality survives the conversions when one operand's type holds both values. -/
theorem cxxEq_iff {a : Word s} {b : Word t} (h : s.Holds b.val) :
    cxxEq a b = true ↔ a.val = b.val := by
  unfold cxxEq
  rw [decide_eq_true_iff, Word.cast_val, Word.cast_val]
  refine ⟨fun he => ?_, fun he => by rw [he]⟩
  have hb := IntType.usual_bits_le_left s t
  have ha := IntType.reduce_through (s := s.usual t) (t := s) hb a.val
  rw [he, IntType.reduce_through hb, IntType.reduce_of_holds h,
    IntType.reduce_of_holds a.mem] at ha
  exact ha.symm

/-- What `a <= b` decides when the common type is unsigned: a negative operand counts from the
top of the common type. -/
theorem cxxLe_unsigned (hs : (s.usual t).signed = false) (a : Word s) (b : Word t) :
    cxxLe a b = decide ((if a.val < 0 then a.val+2^(s.usual t).bits else a.val) ≤
      (if b.val < 0 then b.val+2^(s.usual t).bits else b.val)) := by
  have ha := a.mem.lower (IntType.usual_bits_le_left s t)
  have hb := b.mem.lower (IntType.usual_bits_le_right s t)
  have key {v : Int} (h : -(2^(s.usual t).bits) ≤ v ∧ v ≤ 2^(s.usual t).bits-1) :
      (s.usual t).reduce v = if v < 0 then v+2^(s.usual t).bits else v := by
    split_ifs with hn
    · exact IntType.reduce_of_neg hs h.1 hn
    · exact IntType.reduce_of_holds ((IntType.holds_unsigned hs v).mpr ⟨by omega, h.2⟩)
  simp only [cxxLe, Word.cast_val, key ha, key hb]

theorem cxxLe_signed (hs : (s.usual t).signed = true) (a : Word s) (b : Word t) :
    cxxLe a b = decide (a.val ≤ b.val) := by
  obtain ⟨h₁, h₂⟩ := IntType.usual_within hs
  simp only [cxxLe, Word.cast_val, IntType.reduce_of_holds (h₁.holds a.mem),
    IntType.reduce_of_holds (h₂.holds b.mem)]

end
end Machine
