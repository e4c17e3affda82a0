import Mathlib.Data.Nat.Digits.Lemmas
import Mathlib.Tactic.Ring

/-! Numbers written in places, the highest first: numerals in a base, with accumulators of a fixed
width that watch for overflow while they read one, and bit fields, each masked and shifted to its
place. -/
set_option autoImplicit false

namespace Machine

section
variable {base : Nat}

def numeral (base : Nat) (digits : List Nat) : Nat := Nat.ofDigits base digits.reverse

@[simp] theorem numeral_nil : numeral base [] = 0 := rfl

@[simp] theorem numeral_snoc (digits : List Nat) (d : Nat) :
    numeral base (digits ++ [d]) = numeral base digits*base+d := by
  rw [numeral, List.reverse_append, List.reverse_singleton, List.singleton_append,
    Nat.ofDigits_cons, numeral, Nat.mul_comm, Nat.add_comm]

theorem numeral_le_snoc (hb : 0 < base) (digits : List Nat) (d : Nat) :
    numeral base digits ≤ numeral base (digits ++ [d]) := by
  rw [numeral_snoc]
  exact (Nat.le_mul_of_pos_right _ hb).trans (Nat.le_add_right _ _)

/-- An accumulator that holds the numeral so far where its flag is clear, and that has its flag
set for good from the first digit on whose numeral is too large. -/
structure Accumulates (w base : Nat) (push : Nat × Bool → Nat → Nat × Bool) : Prop where
  fits : ∀ {v : Nat} (d : Nat), v*base+d < 2^w → push (v, false) d = (v*base+d, false)
  overflows : ∀ {v : Nat} (d : Nat), 2^w ≤ v*base+d → (push (v, false) d).2 = true
  stays : ∀ (v d : Nat), (push (v, true) d).2 = true

variable {w : Nat} {push : Nat × Bool → Nat → Nat × Bool} (h : Accumulates w base push)
include h

theorem Accumulates.run (hb : 0 < base) (digits : List Nat) :
    (numeral base digits < 2^w → digits.foldl push (0, false) = (numeral base digits, false)) ∧
    (2^w ≤ numeral base digits → (digits.foldl push (0, false)).2 = true) := by
  induction digits using List.reverseRecOn with
  | nil => exact ⟨fun _ => rfl, fun hle => absurd hle (by simp)⟩
  | append_singleton digits d ih =>
    have hmono := numeral_le_snoc hb digits d
    rw [List.foldl_append, List.foldl_cons, List.foldl_nil]
    rw [numeral_snoc] at hmono ⊢
    by_cases hlt : numeral base digits < 2^w
    · rw [ih.1 hlt]
      exact ⟨h.fits d, h.overflows d⟩
    · have hset := ih.2 (Nat.le_of_not_lt hlt)
      refine ⟨fun hd => absurd (hmono.trans_lt hd) hlt, fun _ => ?_⟩
      rw [← Prod.mk.eta (p := digits.foldl push (0, false)), hset]
      exact h.stays _ d

end

def bitWidth (l : List (Nat × Nat)) : Nat := (l.map Prod.fst).sum

def bitFields : List (Nat × Nat) → Nat
  | [] => 0
  | (_, x) :: rest => x <<< bitWidth rest ||| bitFields rest

def placeValue : List (Nat × Nat) → Nat
  | [] => 0
  | (_, x) :: rest => x*2^bitWidth rest + placeValue rest

theorem bitFields_cons {w x : Nat} {rest : List (Nat × Nat)}
    (h : bitFields rest < 2^bitWidth rest) :
    bitFields ((w,x) :: rest) = x*2^bitWidth rest + bitFields rest := by
  rw [bitFields, ← Nat.shiftLeft_add_eq_or_of_lt h, Nat.shiftLeft_eq]

theorem bitFields_lt {l : List (Nat × Nat)} (h : ∀ f ∈ l, f.2 < 2^f.1) :
    bitFields l < 2^bitWidth l := by
  induction l with
  | nil => decide
  | cons f rest ih =>
    obtain ⟨w, x⟩ := f
    have hrest := ih fun g hg => h g (List.mem_cons_of_mem _ hg)
    have hx : x < 2^w := h (w,x) List.mem_cons_self
    have hwidth : 2^bitWidth ((w,x) :: rest) = 2^w*2^bitWidth rest := by
      simp [bitWidth, pow_add]
    rw [bitFields_cons hrest, hwidth]
    calc x*2^bitWidth rest + bitFields rest < x*2^bitWidth rest + 2^bitWidth rest := by omega
      _ = (x+1)*2^bitWidth rest := by ring
      _ ≤ 2^w*2^bitWidth rest := Nat.mul_le_mul_right _ hx

theorem bitFields_eq_placeValue {l : List (Nat × Nat)} (h : ∀ f ∈ l, f.2 < 2^f.1) :
    bitFields l = placeValue l := by
  induction l with
  | nil => rfl
  | cons f rest ih =>
    have hrest (g : Nat × Nat) (hg : g ∈ rest) : g.2 < 2^g.1 := h g (List.mem_cons_of_mem _ hg)
    rw [bitFields_cons (bitFields_lt hrest), ih hrest, placeValue]

section
variable {n : Nat}

theorem toNat_mask {w : Nat} (h : w ≤ n) : (BitVec.ofNat n (2^w-1)).toNat = 2^w-1 := by
  have hle : 2^w ≤ 2^n := Nat.pow_le_pow_right (by decide) h
  have hpos : 0 < 2^w := Nat.two_pow_pos w
  rw [BitVec.toNat_ofNat, Nat.mod_eq_of_lt (by omega)]

theorem toNat_placed (x : BitVec n) {w s : Nat} (h : w+s ≤ n) :
    ((x &&& BitVec.ofNat n (2^w-1)) <<< s).toNat = (x.toNat % 2^w) <<< s := by
  have hlt : (x.toNat % 2^w) <<< s < 2^n := by
    have hmod : x.toNat % 2^w < 2^w := Nat.mod_lt _ (Nat.two_pow_pos w)
    rw [Nat.shiftLeft_eq]
    calc x.toNat % 2^w * 2^s < 2^w * 2^s := Nat.mul_lt_mul_of_pos_right hmod (Nat.two_pow_pos s)
      _ = 2^(w+s) := (pow_add 2 w s).symm
      _ ≤ 2^n := Nat.pow_le_pow_right (by decide) h
  rw [BitVec.toNat_shiftLeft, BitVec.toNat_and, toNat_mask (by omega),
    Nat.and_two_pow_sub_one_eq_mod, Nat.mod_eq_of_lt hlt]

theorem toNat_field (x : BitVec n) {w s : Nat} (h : w ≤ n) :
    ((x >>> s) &&& BitVec.ofNat n (2^w-1)).toNat = x.toNat / 2^s % 2^w := by
  rw [BitVec.toNat_and, toNat_mask h, Nat.and_two_pow_sub_one_eq_mod, BitVec.toNat_ushiftRight,
    Nat.shiftRight_eq_div_pow]

end

end Machine
