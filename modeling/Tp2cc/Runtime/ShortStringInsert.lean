import Tp2cc.Runtime.ShortString

set_option autoImplicit false

namespace Tp2cc.Rt
open Machine ShortString

/-- How many characters stay before the inserted ones: the place is moved into the string or right
behind it. -/
def insertPlace (length : Nat) (pos : Int) : Nat :=
  let pos := if pos < 1 then 1 else pos
  let pos := if pos > (length : Int)+1 then (length : Int)+1 else pos
  (pos-1).toNat

/-- `p_insert(const tp2cc_ShortString<N>&, tp2cc_ShortString<M>&, int)` on two strings. -/
def pInsert {n m : Capacity} (src : ShortString n) (dest : ShortString m) (pos : Int) :
    ShortString m :=
  let place := insertPlace dest.length.toNat pos
  let need := dest.length.toNat+src.length.toNat
  let need := if need > m.val then m.val else need
  let shift := need-dest.length.toNat
  let lo := place+src.length.toNat
  { length := .ofNat need
    data := writeAt (copyUp dest.data lo shift (need-lo)) place
      (src.data.take (min src.length.toNat (m.val-place)))
    data_length := by rw [writeAt_length, copyUp_length, dest.data_length] }

def insertedBytes (src dest : List UInt8) (pos : Int) : List UInt8 :=
  dest.take (insertPlace dest.length pos) ++ src ++ dest.drop (insertPlace dest.length pos)

/-- The characters behind the place that the capacity has room for. -/
def keptCount (capacity : Nat) (src dest : List UInt8) (pos : Int) : Nat :=
  min (dest.length-insertPlace dest.length pos)
    (capacity-(insertPlace dest.length pos+src.length))

section
variable {n m : Capacity} {src : ShortString n} {dest : ShortString m} {s d : List UInt8}

theorem insertPlace_le (length : Nat) (pos : Int) : insertPlace length pos ≤ length := by
  unfold insertPlace
  simp only
  split_ifs <;> omega

theorem take_insertedBytes (capacity : Nat) (s d : List UInt8) (pos : Int) :
    (insertedBytes s d pos).take capacity =
      (d.take (insertPlace d.length pos) ++ s).take capacity ++
        (d.drop (insertPlace d.length pos)).take (keptCount capacity s d pos) := by
  have hplace := insertPlace_le d.length pos
  have hlen : (d.take (insertPlace d.length pos) ++ s).length = insertPlace d.length pos+s.length := by
    rw [List.length_append, List.length_take, Nat.min_eq_left hplace]
  rw [insertedBytes, List.take_append, hlen, keptCount, Nat.min_comm, ← List.take_take,
    ← List.length_drop, List.take_length]

theorem Represents.data_drop {b : List UInt8} (h : dest.Represents b) {k : Nat} (hk : k ≤ b.length) :
    (dest.data.drop (b.length-k)).take k = b.drop (b.length-k) := by
  have hdata := h.data
  rw [← hdata, List.drop_take, hdata]
  congr 1
  omega

theorem insert_room (hd : dest.Represents d) {place need : Nat} (hplace : place ≤ d.length)
    (hlo : place+s.length ≤ need) (hneed : need ≤ m.val) (hgrow : d.length ≤ need)
    (hshift : need ≤ d.length+s.length) :
    (writeAt (copyUp dest.data (place+s.length) (need-d.length) (need-(place+s.length))) place s).take
      need = d.take place ++ s ++ d.drop (d.length-(need-(place+s.length))) := by
  have hdata := dest.data_length
  generalize hk : need-(place+s.length) = k
  have hplaced : dest.data.take place = d.take place := by
    rw [← hd.data, List.take_take, Nat.min_eq_left hplace]
  have hlast := Represents.data_drop hd (show k ≤ d.length by omega)
  have hmoved : ((dest.data.drop (d.length-k)).take k).length = k := by
    rw [List.length_take, List.length_drop]
    omega
  have hcopied : copyUp dest.data (place+s.length) (need-d.length) k =
      dest.data.take (place+s.length) ++ (dest.data.drop (d.length-k)).take k ++
        dest.data.drop (place+s.length+k) := by
    rw [copyUp_eq_memmove (by omega) (by omega), memmove,
      show place+s.length-(need-d.length) = d.length-k by omega, writeAt_eq (by omega), hmoved]
  have hfirst : (dest.data.take (place+s.length)).length = place+s.length := by
    rw [List.length_take]
    omega
  rw [hlast] at hcopied hmoved
  have hbefore : (copyUp dest.data (place+s.length) (need-d.length) k).take place = d.take place := by
    rw [hcopied, List.append_assoc, List.take_append_of_le_length (by omega), List.take_take,
      Nat.min_eq_left (by omega), hplaced]
  have hbehind : (copyUp dest.data (place+s.length) (need-d.length) k).drop (place+s.length) =
      d.drop (d.length-k) ++ dest.data.drop (place+s.length+k) := by
    rw [hcopied, List.append_assoc, List.drop_left' hfirst]
  have hhead : (d.take place ++ s).length = place+s.length := by
    rw [List.length_append, List.length_take, Nat.min_eq_left hplace]
  rw [writeAt_eq (by rw [copyUp_length]; omega), hbefore, hbehind,
    show need = (d.take place ++ s).length+k by omega, List.take_length_add_append,
    List.take_left' hmoved]

/-- The loop moves the end of the string up by the places that the string grows by, so what stands
behind the inserted characters is the end of the old content. -/
theorem pInsert_represents (hs : src.Represents s) (hd : dest.Represents d) (pos : Int) :
    (pInsert src dest pos).Represents ((d.take (insertPlace d.length pos) ++ s).take m.val ++
      d.drop (d.length-keptCount m.val s d pos)) := by
  have hplace := insertPlace_le d.length pos
  have hle := hd.le
  have hdata := dest.data_length
  have hneed : (if dest.length.toNat+src.length.toNat > m.val then m.val
      else dest.length.toNat+src.length.toNat) = min m.val (d.length+s.length) := by
    rw [hs.length, hd.length]
    split <;> omega
  apply represents_mk
  · rw [hneed]
    exact Nat.min_le_left ..
  · rw [hneed, hs.length, hd.length, hs.data_take, keptCount]
    generalize insertPlace d.length pos = place at hplace ⊢
    by_cases hroom : place+s.length ≤ m.val
    · have hhead : (d.take place ++ s).take m.val = d.take place ++ s := by
        apply List.take_of_length_le
        rw [List.length_append, List.length_take]
        omega
      rw [List.take_of_length_le (show s.length ≤ m.val-place by omega), hhead,
        insert_room hd hplace (by omega) (by omega) (by omega) (by omega)]
      congr 2
      omega
    · have hnone : min m.val (d.length+s.length)-(place+s.length) = 0 := by omega
      have hcut : (s.take (m.val-place)).length = m.val-place := by
        rw [List.length_take]
        omega
      have hplaced : dest.data.take place = d.take place := by
        rw [← hd.data, List.take_take, Nat.min_eq_left hplace]
      rw [hnone, copyUp, writeAt_eq (by omega), hcut, show place+(m.val-place) = m.val by omega,
        show min m.val (d.length+s.length) = m.val by omega, hplaced,
        List.drop_of_length_le (by omega), show min (d.length-place) (m.val-(place+s.length)) = 0 by
        omega, Nat.sub_zero, List.drop_length, List.append_nil, List.append_nil, List.take_append,
        List.take_append, List.length_take, Nat.min_eq_left hplace, List.take_take, List.take_take,
        Nat.min_self]

/-- `Insert` leaves the joined characters, cut to the capacity. -/
def InsertsAt (src : ShortString n) (dest : ShortString m) (pos : Int) : Prop :=
  (pInsert src dest pos).Represents ((insertedBytes src.content dest.content pos).take m.val)

/-- The characters behind the place that stay are also the last ones of the string. -/
theorem insertsAt_iff (src : ShortString n) (dest : ShortString m) (pos : Int) (hsrc : src.Valid)
    (hdest : dest.Valid) : InsertsAt src dest pos ↔
      (dest.content.drop (insertPlace dest.content.length pos)).take
          (keptCount m.val src.content dest.content pos) =
        dest.content.drop (dest.content.length-keptCount m.val src.content dest.content pos) := by
  have h := pInsert_represents (represents_content hsrc) (represents_content hdest) pos
  rw [InsertsAt, take_insertedBytes]
  constructor
  · intro hinserts
    exact List.append_cancel_left (hinserts.content.symm.trans h.content)
  · intro hkept
    rwa [hkept]

theorem kept_of_fits {s d : List UInt8} {capacity : Nat} (h : d.length+s.length ≤ capacity) (pos : Int) :
    (d.drop (insertPlace d.length pos)).take (keptCount capacity s d pos) =
      d.drop (d.length-keptCount capacity s d pos) := by
  have hplace := insertPlace_le d.length pos
  have hall : keptCount capacity s d pos = d.length-insertPlace d.length pos := by
    unfold keptCount
    omega
  rw [hall, ← List.length_drop, List.take_length, List.length_drop]
  congr 1
  omega

theorem insertsAt_of_fits {src : ShortString n} {dest : ShortString m} (hsrc : src.Valid)
    (hdest : dest.Valid) (h : dest.content.length+src.content.length ≤ m.val) (pos : Int) :
    InsertsAt src dest pos := by
  rw [InsertsAt, take_insertedBytes, kept_of_fits h]
  exact pInsert_represents (represents_content hsrc) (represents_content hdest) pos

end

def fiveLetters : ShortString ⟨5, by decide, by decide⟩ :=
  tp2ccShortstringOfCStr _ (some [97, 98, 99, 100, 101])

def oneLetter : ShortString ⟨1, Nat.one_pos, Capacity.full.pos⟩ := tp2ccShortstringOfChar _ 120

theorem insertsAt_behind : InsertsAt oneLetter fiveLetters 5 :=
  (insertsAt_iff oneLetter fiveLetters 5 (by decide) (by decide)).mpr (by decide)

theorem not_insertsAt_full : ¬InsertsAt oneLetter fiveLetters 1 := by
  intro h
  exact absurd h.content (by decide)

end Tp2cc.Rt
