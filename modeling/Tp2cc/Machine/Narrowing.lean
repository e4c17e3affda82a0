import Tp2cc.Machine.Word

set_option autoImplicit false

namespace Machine

def reduceAll (types : List IntType) (v : Int) : Int := types.foldr IntType.reduce v

def narrowest (types : List IntType) (start : Nat) : Nat :=
  types.foldr (fun t n => min t.bits n) start

@[simp] theorem reduceAll_nil (v : Int) : reduceAll [] v = v := rfl
@[simp] theorem reduceAll_cons (t : IntType) (types : List IntType) (v : Int) :
    reduceAll (t :: types) v = t.reduce (reduceAll types v) := rfl
@[simp] theorem narrowest_nil (start : Nat) : narrowest [] start = start := rfl
@[simp] theorem narrowest_cons (t : IntType) (types : List IntType) (start : Nat) :
    narrowest (t :: types) start = min t.bits (narrowest types start) := rfl

theorem narrowest_le (types : List IntType) (start : Nat) : narrowest types start ≤ start := by
  induction types with
  | nil => exact Nat.le_refl _
  | cons t types ih => exact (Nat.min_le_right _ _).trans ih

theorem emod_two_pow_of_le {m n : Nat} (h : m ≤ n) (v : Int) : v % 2^n % 2^m = v % 2^m :=
  Int.emod_emod_of_dvd v (pow_dvd_pow 2 h)

theorem emod_two_pow_min (m n : Nat) (v : Int) : v % 2^n % 2^m = v % 2^min m n := by
  by_cases h : m ≤ n
  · rw [Nat.min_eq_left h, emod_two_pow_of_le h]
  · have hpos := Int.emod_nonneg v (ne_of_gt (IntType.two_pow_pos n))
    have hlt := Int.emod_lt_of_pos v (IntType.two_pow_pos n)
    have hle : (2 : Int)^n ≤ 2^m := IntType.two_pow_mono (by omega)
    rw [Nat.min_eq_right (by omega), Int.emod_eq_of_lt hpos (by omega)]

theorem reduceAll_emod (types : List IntType) (start : Nat) (v : Int) :
    reduceAll types v % 2^narrowest types start = v % 2^narrowest types start := by
  induction types with
  | nil => rfl
  | cons t types ih =>
    have hleft := Nat.min_le_left t.bits (narrowest types start)
    have hright := Nat.min_le_right t.bits (narrowest types start)
    rw [reduceAll_cons, narrowest_cons, ← emod_two_pow_of_le hleft, t.reduce_emod,
      emod_two_pow_of_le hleft, ← emod_two_pow_of_le hright, ih, emod_two_pow_of_le hright]

/-- Fewer bits stand for the number alone where nothing is cut off. -/
theorem emod_two_pow_eq_iff {m n : Nat} (hmn : m ≤ n) {v : Int} (h₁ : -(2^(n-1)) ≤ v)
    (h₂ : v < 2^n) : v % 2^m = v % 2^n ↔ m = n ∨ 0 ≤ v ∧ v < 2^m := by
  have hlow := Int.emod_lt_of_pos v (IntType.two_pow_pos m)
  by_cases hn : m = n
  · exact iff_of_true (by rw [hn]) (.inl hn)
  have hm : (2 : Int)^m ≤ 2^(n-1) := IntType.two_pow_mono (by omega)
  have hdouble : (2 : Int)^n = 2*2^(n-1) := by
    rw [← pow_succ', Nat.sub_add_cancel (by omega)]
  by_cases hv : 0 ≤ v
  · rw [Int.emod_eq_of_lt hv h₂]
    constructor
    · intro h
      exact .inr ⟨hv, h ▸ hlow⟩
    · rintro (h | h)
      · exact absurd h hn
      · exact Int.emod_eq_of_lt hv h.2
  · have hwrap : v % 2^n = v+2^n := by
      rw [← Int.add_emod_right]
      exact Int.emod_eq_of_lt (by omega) (by omega)
    constructor
    · intro h
      omega
    · rintro (h | h)
      · exact absurd h hn
      · exact absurd h.1 hv

end Machine
