import Mathlib.Data.List.Basic

/-! Loops that copy into a fixed-size array. A write behind the end of the array
is dropped, so an array keeps its size whatever is written. -/
set_option autoImplicit false

namespace Machine
universe u
variable {α : Type u}

/-- `for (i = 0; i < n; ++i) dest[off+i] = src[i];` over the `n` elements of `src`. -/
def writeAt (dest : List α) (off : Nat) : List α → List α
  | [] => dest
  | c :: src => writeAt (dest.set off c) (off+1) src

/-- `for (i = 0; i < n; ++i) a[dst+i] = a[src+i];` inside one array. -/
def copyDown (a : List α) (dst src : Nat) : Nat → List α
  | 0 => a
  | n+1 =>
    let a' := match a[src]? with
      | some c => a.set dst c
      | none => a
    copyDown a' (dst+1) (src+1) n

/-- `for (i = lo+n-1; i >= lo; --i) a[i] = a[i-shift];` inside one array. -/
def copyUp (a : List α) (lo shift : Nat) : Nat → List α
  | 0 => a
  | n+1 =>
    let a' := match a[lo+n-shift]? with
      | some c => a.set (lo+n) c
      | none => a
    copyUp a' lo shift n

/-- `memmove(a+dst, a+src, n)`: the source is read before anything is written. -/
def memmove (a : List α) (dst src n : Nat) : List α := writeAt a dst ((a.drop src).take n)

@[simp] theorem writeAt_length (dest : List α) (off : Nat) (src : List α) :
    (writeAt dest off src).length = dest.length := by
  induction src generalizing dest off with
  | nil => rfl
  | cons c src ih => simp [writeAt, ih]

theorem writeAt_eq {dest : List α} {off : Nat} {src : List α}
    (h : off+src.length ≤ dest.length) :
    writeAt dest off src = dest.take off ++ src ++ dest.drop (off+src.length) := by
  induction src generalizing dest off with
  | nil => simp [writeAt]
  | cons c src ih =>
    rw [List.length_cons] at h ⊢
    have hset : (dest.set off c).take (off+1) = dest.take off ++ [c] := by
      rw [List.take_add_one, List.take_set_of_le (Nat.le_refl off),
        List.getElem?_set_self (by omega)]
      rfl
    rw [writeAt, ih (by rw [List.length_set]; omega), hset, List.drop_set_of_lt (by omega)]
    simp [Nat.add_assoc, Nat.add_comm 1]

@[simp] theorem copyDown_length (a : List α) (dst src n : Nat) :
    (copyDown a dst src n).length = a.length := by
  induction n generalizing a dst src with
  | zero => rfl
  | succ n ih =>
    rw [copyDown, ih]
    split <;> simp

@[simp] theorem memmove_length (a : List α) (dst src n : Nat) :
    (memmove a dst src n).length = a.length := writeAt_length _ _ _

/-- Copying forward to a lower place reads only what it has not written yet. -/
theorem copyDown_eq_memmove {a : List α} {dst src n : Nat} (h : dst ≤ src)
    (hn : src+n ≤ a.length) : copyDown a dst src n = memmove a dst src n := by
  induction n generalizing a dst src with
  | zero => simp [copyDown, memmove, writeAt]
  | succ n ih =>
    have hs : src < a.length := by omega
    rw [copyDown, List.getElem?_eq_getElem hs]
    dsimp only
    rw [ih (by omega) (by rw [List.length_set]; omega), memmove, memmove,
      List.drop_set_of_lt (by omega), List.drop_eq_getElem_cons hs]
    rfl

@[simp] theorem copyUp_length (a : List α) (lo shift n : Nat) :
    (copyUp a lo shift n).length = a.length := by
  induction n generalizing a with
  | zero => rfl
  | succ n ih =>
    rw [copyUp, ih]
    split <;> simp

/-- Copying backward to a higher place reads only what it has not written yet. -/
theorem copyUp_eq_memmove {a : List α} {lo shift n : Nat} (h : shift ≤ lo) (hn : lo+n ≤ a.length) :
    copyUp a lo shift n = memmove a lo (lo-shift) n := by
  induction n generalizing a with
  | zero => simp [copyUp, memmove, writeAt]
  | succ n ih =>
    have hs : lo+n-shift < a.length := by omega
    have hsource : lo-shift+n < a.length := by omega
    have hrest : a.drop (lo+n) = a[lo+n] :: a.drop (lo+n+1) := List.drop_eq_getElem_cons (by omega)
    have htake : ((a.drop (lo-shift)).take n).length = n := by
      rw [List.length_take, List.length_drop]
      omega
    have hlast : (a.drop (lo-shift)).take (n+1) = (a.drop (lo-shift)).take n ++ [a[lo+n-shift]] := by
      rw [List.take_add_one, List.getElem?_drop, List.getElem?_eq_getElem hsource]
      simp only [Option.toList_some, show lo+n-shift = lo-shift+n by omega]
    rw [copyUp, List.getElem?_eq_getElem hs]
    dsimp only
    rw [ih (by rw [List.length_set]; omega), memmove, memmove, List.drop_set, if_neg (by omega),
      List.take_set_of_le (by omega), hlast, writeAt_eq (by rw [List.length_set]; omega),
      writeAt_eq (by rw [List.length_append, htake, List.length_singleton]; omega),
      List.take_set_of_le (by omega), htake, List.length_append, htake, List.length_singleton,
      List.drop_set, if_neg (by omega), hrest, Nat.sub_self, List.set_cons_zero]
    simp [Nat.add_assoc]

theorem take_writeAt_zero {dest src : List α} (h : src.length ≤ dest.length) :
    (writeAt dest 0 src).take src.length = src := by
  rw [writeAt_eq (by omega)]
  simp

end Machine
