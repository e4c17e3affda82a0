import Tp2cc.Machine.Buffer

/-! `tp2cc_ShortString` of `tp2cc_rt/prelude.h` and the operations that build,
join and cut short strings. -/
set_option autoImplicit false

namespace Tp2cc.Rt
open Machine

/-- The `N` of `tp2cc_ShortString<N>`, as its `static_assert` admits it. -/
structure Capacity where
  val : Nat
  pos : 1 ≤ val
  le : val ≤ 255
  deriving DecidableEq, Repr

namespace Capacity

def full : Capacity := ⟨255, by decide, by decide⟩

def sum (n m : Capacity) : Capacity :=
  ⟨if n.val+m.val > 255 then 255 else n.val+m.val, by have := n.pos; split <;> omega,
    by split <;> omega⟩

theorem sum_val (n m : Capacity) : (n.sum m).val = min 255 (n.val+m.val) := by
  simp only [sum]
  split <;> omega

@[simp] theorem full_val : full.val = 255 := rfl

end Capacity

/-- One length byte and `N` content bytes. The type alone does not keep the length
within the capacity. -/
structure ShortString (n : Capacity) where
  length : UInt8
  data : List UInt8
  data_length : data.length = n.val
  deriving DecidableEq

namespace ShortString
variable {n m : Capacity}

def content (s : ShortString n) : List UInt8 := s.data.take s.length.toNat

def Valid (s : ShortString n) : Prop := s.length.toNat ≤ n.val

instance (s : ShortString n) : Decidable s.Valid := inferInstanceAs (Decidable (_ ≤ _))

theorem content_length {s : ShortString n} (h : s.Valid) : s.content.length = s.length.toNat := by
  rw [content, List.length_take, s.data_length]
  exact Nat.min_eq_left h

/-- `tp2cc_ShortString<N> out{};` followed by the length and the copy of the content. -/
def filled (n : Capacity) (src : List UInt8) (count : Nat) : ShortString n where
  length := .ofNat count
  data := writeAt (List.replicate n.val 0) 0 (src.take count)
  data_length := by rw [writeAt_length, List.length_replicate]

end ShortString

variable {n m : Capacity}

/-- The bytes a C string stands for: those before its terminator. A null pointer
stands for none. -/
def cString : Option (List UInt8) → List UInt8
  | none => []
  | some s => s.takeWhile (· ≠ 0)

/-- `while (s[n] && n < N) ++n;` -/
def cStringLength : List UInt8 → Nat → Nat
  | [], _ => 0
  | _, 0 => 0
  | c :: s, k+1 => if c = 0 then 0 else cStringLength s k+1

/-- `tp2cc_shortstring_of<N>` of a `const char*` and of a `const p_char*`. -/
def tp2ccShortstringOfCStr (n : Capacity) (s : Option (List UInt8)) : ShortString n :=
  match s with
  | none => .filled n [] 0
  | some s => .filled n s (cStringLength s n.val)

def tp2ccShortstringOfChar (n : Capacity) (c : UInt8) : ShortString n := .filled n [c] 1

def tp2ccShortstringOf (n : Capacity) (o : ShortString m) : ShortString n :=
  .filled n o.data (if o.length.toNat > n.val then n.val else o.length.toNat)

def ansiToShortString (n : Capacity) (s : List UInt8) : ShortString n :=
  .filled n s (if s.length > n.val then n.val else s.length)

/-- `operator tp2cc_ShortString<M>` of `tp2cc_ShortStringPtrValue` on the storage of `s`. -/
def derefValue (m : Capacity) (s : ShortString n) : ShortString m :=
  .filled m s.data (min s.length.toNat m.val)

def shortStringAdd (a : ShortString n) (b : ShortString m) : ShortString (n.sum m) :=
  let r := (n.sum m).val
  let total := a.length.toNat+b.length.toNat
  { length := .ofNat (if total > r then r else total)
    data :=
      writeAt (writeAt (List.replicate r 0) 0 (a.data.take (min a.length.toNat r)))
        a.length.toNat (b.data.take (min b.length.toNat (r-a.length.toNat)))
    data_length := by rw [writeAt_length, writeAt_length, List.length_replicate] }

/-- `operator+(const tp2cc_ShortString<N>&, const char*)`, whose result type is
`tp2cc_ShortString<N>` again. -/
def shortStringAddCStr (a : ShortString n) (b : Option (List UInt8)) : ShortString n :=
  tp2ccShortstringOf n (shortStringAdd a (tp2ccShortstringOfCStr n b))

def cStrAddShortString (a : Option (List UInt8)) (b : ShortString n) : ShortString n :=
  tp2ccShortstringOf n (shortStringAdd (tp2ccShortstringOfCStr n a) b)

def shortStringAddChar (a : ShortString n) (c : UInt8) : ShortString (n.sum .full) :=
  shortStringAdd a (tp2ccShortstringOfChar .full c)

def charAddShortString (c : UInt8) (b : ShortString n) : ShortString (Capacity.full.sum n) :=
  shortStringAdd (tp2ccShortstringOfChar .full c) b

def charConstAdd (a b : UInt8) : ShortString .full := .filled .full [a, b] 2

/-- The clamps of `p_copy`: how many characters it skips and how many it reads. -/
def copyRange (length : Nat) (start count : Int) : Nat × Nat :=
  let start := if start < 1 then 1 else start
  let avail := length-(start-1)
  let avail := if avail < 0 then 0 else avail
  let count := if count > avail then avail else count
  let count := if count < 0 then 0 else count
  ((start-1).toNat, count.toNat)

def pCopy (s : ShortString n) (start count : Int) : ShortString .full :=
  let (skip, count) := copyRange s.length.toNat start count
  .filled .full (s.data.drop skip) count

def assignChar (s : ShortString n) (c : UInt8) : ShortString n :=
  { length := 1, data := s.data.set 0 c, data_length := by rw [List.length_set, s.data_length] }

/-- `tp2cc_shortstring_assign` into a string used with capacity `limit`. -/
def assignWithin (limit : Capacity) (dest : ShortString n) (src : List UInt8) : ShortString n :=
  let count := min src.length limit.val
  { length := .ofNat count
    data := writeAt dest.data 0 (src.take count)
    data_length := by rw [writeAt_length, dest.data_length] }

def setFromCountedChars (limit : Capacity) (dest : ShortString n) (src : Option (List UInt8))
    (len : Int) : ShortString n :=
  match src with
  | none => { dest with length := 0 }
  | some src =>
    let count := if len ≤ 0 then 0 else if len > limit.val then limit.val else len.toNat
    { length := .ofNat count
      data := writeAt dest.data 0 (src.take count)
      data_length := by rw [writeAt_length, dest.data_length] }

/-- `p_setlength` on a string used with capacity `limit`. -/
def setLengthWithin (limit : Capacity) (s : ShortString n) (newLen : Int) : ShortString n :=
  let newLen := if newLen < 0 then 0 else newLen
  let newLen := if newLen > limit.val then (limit.val : Int) else newLen
  { length := .ofNat newLen.toNat
    data := writeAt s.data s.length.toNat (List.replicate (newLen.toNat-s.length.toNat) 0)
    data_length := by rw [writeAt_length, s.data_length] }

def pDelete (s : ShortString n) (start count : Int) : ShortString n :=
  if start < 1 ∨ start > s.length.toNat ∨ count ≤ 0 then s
  else
    let tail := s.length.toNat-(start-1)-count
    if tail < 0 then { s with length := .ofNat (start-1).toNat }
    else
      { length := .ofNat (s.length.toNat-count).toNat
        data := copyDown s.data (start-1).toNat (start-1+count).toNat tail.toNat
        data_length := by rw [copyDown_length, s.data_length] }

/-- `p_delete` on a reference: the string is deleted from in a copy and assigned back. -/
def deleteWithin (limit : Capacity) (s : ShortString n) (start count : Int) : ShortString n :=
  assignWithin limit s (pDelete (derefValue limit s) start count).content

namespace ShortString

/-- `s` is a well-formed string with content `b`. -/
structure Represents (s : ShortString n) (b : List UInt8) : Prop where
  valid : s.Valid
  content : s.content = b

theorem represents_content {s : ShortString n} (h : s.Valid) : s.Represents s.content := ⟨h, rfl⟩

theorem Represents.length {s : ShortString n} {b : List UInt8} (h : s.Represents b) :
    s.length.toNat = b.length := by
  rw [← h.content, content_length h.valid]

theorem Represents.le {s : ShortString n} {b : List UInt8} (h : s.Represents b) :
    b.length ≤ n.val := h.length ▸ h.valid

theorem Represents.data {s : ShortString n} {b : List UInt8} (h : s.Represents b) :
    s.data.take b.length = b := by
  rw [← h.length]
  exact h.content

theorem Represents.data_take {s : ShortString n} {b : List UInt8} (h : s.Represents b) (k : Nat) :
    s.data.take (min b.length k) = b.take k := by
  rw [Nat.min_comm, ← List.take_take, h.data]

theorem represents_mk {count : Nat} {data b : List UInt8} (hd : data.length = n.val)
    (hn : count ≤ n.val) (hb : data.take count = b) :
    (⟨.ofNat count, data, hd⟩ : ShortString n).Represents b := by
  have hle := n.le
  have hcount : (UInt8.ofNat count).toNat = count := by
    rw [UInt8.toNat_ofNat']
    exact Nat.mod_eq_of_lt (by omega)
  constructor
  · rw [Valid, hcount]
    exact hn
  · rw [ShortString.content, hcount]
    exact hb

theorem represents_write {count : Nat} {data src : List UInt8} (hd : data.length = n.val)
    (hn : count ≤ n.val) (hs : count ≤ src.length) :
    (⟨.ofNat count, writeAt data 0 (src.take count), by rw [writeAt_length, hd]⟩ :
      ShortString n).Represents (src.take count) := by
  have hlen : (src.take count).length = count := by
    rw [List.length_take]
    exact Nat.min_eq_left hs
  apply represents_mk _ hn
  have htake : (writeAt data 0 (src.take count)).take (src.take count).length = src.take count :=
    take_writeAt_zero (by omega)
  rwa [hlen] at htake

theorem filled_represents {src : List UInt8} {count : Nat} (hn : count ≤ n.val)
    (hs : count ≤ src.length) : (filled n src count).Represents (src.take count) :=
  represents_write (List.length_replicate) hn hs

end ShortString

open ShortString

theorem cStringLength_eq (s : List UInt8) (k : Nat) :
    cStringLength s k = min (s.takeWhile (· ≠ 0)).length k := by
  induction s generalizing k with
  | nil => simp [cStringLength]
  | cons c s ih =>
    cases k with
    | zero => simp [cStringLength]
    | succ k =>
      by_cases hc : c = 0
      · simp [cStringLength, hc]
      · simp only [cStringLength, hc, if_false, List.takeWhile_cons, decide_not, decide_false,
          Bool.not_false, if_true, List.length_cons, ih]
        omega

theorem tp2ccShortstringOfCStr_represents (n : Capacity) (s : Option (List UInt8)) :
    (tp2ccShortstringOfCStr n s).Represents ((cString s).take n.val) := by
  cases s with
  | none =>
    have h : (filled n [] 0).Represents _ := filled_represents (Nat.zero_le _) (Nat.zero_le _)
    simpa [tp2ccShortstringOfCStr, cString] using h
  | some s =>
    have hpre : s.takeWhile (· ≠ 0) <+: s := List.takeWhile_prefix _
    have hle := hpre.length_le
    have hlen := cStringLength_eq s n.val
    have htake : s.take (cStringLength s n.val) = (cString (some s)).take n.val := by
      rw [hlen, Nat.min_comm, ← List.take_take, ← List.prefix_iff_eq_take.mp hpre]
      rfl
    rw [← htake]
    exact filled_represents (by omega) (by omega)

theorem tp2ccShortstringOfChar_represents (n : Capacity) (c : UInt8) :
    (tp2ccShortstringOfChar n c).Represents [c] :=
  filled_represents n.pos (Nat.le_refl 1)

theorem tp2ccShortstringOf_represents (n : Capacity) {o : ShortString m} {b : List UInt8}
    (h : o.Represents b) : (tp2ccShortstringOf n o).Represents (b.take n.val) := by
  have hcount : (if o.length.toNat > n.val then n.val else o.length.toNat) =
      min b.length n.val := by
    rw [h.length]
    split <;> omega
  have hle := h.le
  rw [tp2ccShortstringOf, hcount, ← h.data_take]
  exact filled_represents (Nat.min_le_right ..) (by rw [o.data_length]; omega)

theorem ansiToShortString_represents (n : Capacity) (s : List UInt8) :
    (ansiToShortString n s).Represents (s.take n.val) := by
  have hcount : (if s.length > n.val then n.val else s.length) = min n.val s.length := by
    split <;> omega
  have htake : s.take (min n.val s.length) = s.take n.val := by
    rw [← List.take_take, List.take_length]
  rw [ansiToShortString, hcount, ← htake]
  exact filled_represents (Nat.min_le_left ..) (Nat.min_le_right ..)

theorem derefValue_represents (m : Capacity) {s : ShortString n} {b : List UInt8}
    (h : s.Represents b) : (derefValue m s).Represents (b.take m.val) := by
  have hle := h.le
  rw [derefValue, h.length, ← h.data_take]
  exact filled_represents (Nat.min_le_right ..) (by rw [s.data_length]; omega)

theorem shortStringAdd_represents {a : ShortString n} {b : ShortString m} {x y : List UInt8}
    (ha : a.Represents x) (hb : b.Represents y) :
    (shortStringAdd a b).Represents ((x ++ y).take (n.sum m).val) := by
  have hx : x.length ≤ (n.sum m).val := by
    have := ha.le
    have := n.le
    rw [Capacity.sum_val]
    omega
  have htotal : (if a.length.toNat+b.length.toNat > (n.sum m).val then (n.sum m).val
      else a.length.toNat+b.length.toNat) = min (n.sum m).val (x.length+y.length) := by
    rw [ha.length, hb.length]
    split <;> omega
  apply represents_mk
  · rw [htotal]
    exact Nat.min_le_left ..
  · rw [htotal, ha.length, hb.length, ha.data_take, hb.data_take, List.take_of_length_le hx,
      List.take_append, List.take_of_length_le hx]
    generalize (n.sum m).val = r at hx ⊢
    have hy : (x ++ y.take (r-x.length)).length = min r (x.length+y.length) := by
      rw [List.length_append, List.length_take]
      omega
    have hfirst : writeAt (List.replicate r 0) 0 x = x ++ List.replicate (r-x.length) 0 := by
      rw [writeAt_eq (by rw [List.length_replicate]; omega)]
      simp
    rw [hfirst, writeAt_eq (by
      rw [List.length_append, List.length_replicate, List.length_take]; omega),
      List.take_left, ← hy, List.take_left]

theorem charAddShortString_represents (c : UInt8) {b : ShortString n} {y : List UInt8}
    (hb : b.Represents y) : (charAddShortString c b).Represents ((c :: y).take 255) := by
  have h := shortStringAdd_represents (tp2ccShortstringOfChar_represents .full c) hb
  have := n.pos
  rwa [Capacity.sum_val, Capacity.full_val, Nat.min_eq_left (by omega)] at h

theorem shortStringAddChar_represents {a : ShortString n} {x : List UInt8} (c : UInt8)
    (ha : a.Represents x) : (shortStringAddChar a c).Represents ((x ++ [c]).take 255) := by
  have h := shortStringAdd_represents ha (tp2ccShortstringOfChar_represents .full c)
  have := n.pos
  rwa [Capacity.sum_val, Capacity.full_val, Nat.min_eq_left (by omega)] at h

theorem Capacity.le_sum_self (n : Capacity) : n.val ≤ (n.sum n).val := by
  have := n.le
  rw [Capacity.sum_val]
  omega

/-- The C string is cut to the capacity of the other operand, and so is the result. -/
theorem shortStringAddCStr_represents {a : ShortString n} {x : List UInt8}
    (ha : a.Represents x) (s : Option (List UInt8)) :
    (shortStringAddCStr a s).Represents ((x ++ cString s).take n.val) := by
  have h := tp2ccShortstringOf_represents n
    (shortStringAdd_represents ha (tp2ccShortstringOfCStr_represents n s))
  have hcut : (x ++ (cString s).take n.val).take n.val = (x ++ cString s).take n.val := by
    rw [List.take_append, List.take_append, List.take_take, Nat.min_eq_left (Nat.sub_le ..)]
  rwa [List.take_take, Nat.min_eq_left n.le_sum_self, hcut] at h

theorem cStrAddShortString_represents {b : ShortString n} {y : List UInt8}
    (s : Option (List UInt8)) (hb : b.Represents y) :
    (cStrAddShortString s b).Represents ((cString s ++ y).take n.val) := by
  have h := tp2ccShortstringOf_represents n
    (shortStringAdd_represents (tp2ccShortstringOfCStr_represents n s) hb)
  have hcut : ((cString s).take n.val ++ y).take n.val = (cString s ++ y).take n.val := by
    rw [List.take_append, List.take_append, List.take_take, Nat.min_self, List.length_take]
    congr 2
    omega
  rwa [List.take_take, Nat.min_eq_left n.le_sum_self, hcut] at h

theorem charConstAdd_represents (a b : UInt8) : (charConstAdd a b).Represents [a, b] :=
  filled_represents (by decide) (Nat.le_refl 2)

/-- `Copy` on the content: the start is counted from one and taken as one where it is less. -/
def copyBytes (b : List UInt8) (start count : Int) : List UInt8 :=
  (b.drop (start-1).toNat).take count.toNat

/-- `Delete` on the content: nothing happens where the start is not a place of it. -/
def deleteBytes (b : List UInt8) (start count : Int) : List UInt8 :=
  if start < 1 ∨ start > b.length ∨ count ≤ 0 then b
  else b.take (start-1).toNat ++ b.drop (start-1+count).toNat

/-- `SetLength` on the content: new places hold the character zero. -/
def setLengthBytes (b : List UInt8) (newLen : Int) : List UInt8 :=
  b.take newLen.toNat ++ List.replicate (newLen.toNat-b.length) 0

theorem copyRange_eq (length : Nat) (start count : Int) : copyRange length start count =
    ((start-1).toNat, min count.toNat (length-(start-1).toNat)) := by
  unfold copyRange
  ext
  · dsimp only
    split <;> omega
  · dsimp only
    split_ifs <;> omega

theorem pCopy_represents {s : ShortString n} {b : List UInt8} (h : s.Represents b)
    (start count : Int) : (pCopy s start count).Represents (copyBytes b start count) := by
  have hle := h.le
  have hn := n.le
  have hread : (s.data.drop (start-1).toNat).take
      (min count.toNat (b.length-(start-1).toNat)) = copyBytes b start count := by
    rw [copyBytes, ← List.take_take, ← List.drop_take, h.data]
  rw [pCopy, copyRange_eq, h.length]
  dsimp only
  rw [← hread]
  apply filled_represents
  · rw [Capacity.full_val]
    omega
  · rw [List.length_drop, s.data_length]
    omega

theorem pDelete_represents {s : ShortString n} {b : List UInt8} (h : s.Represents b)
    (start count : Int) : (pDelete s start count).Represents (deleteBytes b start count) := by
  have hle := h.le
  have hdata := s.data_length
  simp only [pDelete, deleteBytes, h.length]
  split_ifs with hout htail
  · exact h
  · have hskip : (start-1).toNat = min b.length (start-1).toNat := by omega
    rw [List.drop_of_length_le (by omega), List.append_nil]
    apply represents_mk
    · omega
    · rw [hskip, h.data_take, ← hskip]
  · obtain ⟨k, rfl⟩ : ∃ k : Nat, start = k+1 := ⟨(start-1).toNat, by omega⟩
    obtain ⟨c, rfl⟩ : ∃ c : Nat, count = c := ⟨count.toNat, by omega⟩
    have h₁ : ((k : Int)+1-1).toNat = k := by omega
    have h₂ : ((k : Int)+1-1+c).toNat = k+c := by omega
    have h₃ : ((b.length : Int)-(k+1-1)-c).toNat = b.length-(k+c) := by omega
    have h₄ : ((b.length : Int)-c).toNat = b.length-c := by omega
    simp only [h₁, h₂, h₃, h₄]
    have hk : b.take k = s.data.take k := by
      rw [← h.data, List.take_take, Nat.min_eq_left (by omega)]
    have hrest : b.drop (k+c) = (s.data.drop (k+c)).take (b.length-(k+c)) := by
      rw [← List.drop_take, h.data]
    have hlen : (b.take k ++ b.drop (k+c)).length = b.length-c := by
      rw [List.length_append, List.length_take, List.length_drop]
      omega
    apply represents_mk
    · omega
    · rw [copyDown_eq_memmove (by omega) (by omega), memmove, ← hrest,
        writeAt_eq (by rw [List.length_drop]; omega), ← hk, ← hlen, List.take_left]

theorem setLengthWithin_represents {limit : Capacity} (hl : limit.val ≤ n.val) {s : ShortString n}
    {b : List UInt8} (h : s.Represents b) (newLen : Int) :
    (setLengthWithin limit s newLen).Represents ((setLengthBytes b newLen).take limit.val) := by
  have hle := h.le
  have hdata := s.data_length
  have hclamp : (if (if newLen < 0 then 0 else newLen) > limit.val then (limit.val : Int)
      else if newLen < 0 then 0 else newLen).toNat = min newLen.toNat limit.val := by
    split_ifs <;> omega
  have hcut : (setLengthBytes b newLen).take limit.val =
      setLengthBytes b (min newLen.toNat limit.val : Nat) := by
    rw [setLengthBytes, setLengthBytes, List.take_append, List.take_take, List.length_take,
      List.take_replicate, Int.toNat_natCast, Nat.min_comm limit.val]
    congr 2
    omega
  rw [hcut]
  simp only [setLengthWithin, hclamp, h.length]
  have hk : min newLen.toNat limit.val ≤ n.val := by omega
  apply represents_mk _ hk
  generalize min newLen.toNat limit.val = k at hk ⊢
  rw [setLengthBytes, Int.toNat_natCast]
  by_cases hshrink : k ≤ b.length
  · have hzero : k-b.length = 0 := by omega
    rw [hzero, List.replicate_zero, List.append_nil, writeAt, ← h.data_take, Nat.min_eq_right hshrink]
  · have hlen : (b ++ List.replicate (k-b.length) (0 : UInt8)).length = k := by
      rw [List.length_append, List.length_replicate]
      omega
    have hb : b.take k = b := List.take_of_length_le (by omega)
    rw [writeAt_eq (by rw [List.length_replicate]; omega), h.data, List.take_left' hlen, hb]

theorem assignChar_represents (s : ShortString n) (c : UInt8) :
    (assignChar s c).Represents [c] := by
  have hdata := s.data_length
  have hpos := n.pos
  apply represents_mk
  · exact n.pos
  · cases hd : s.data with
    | nil => simp [hd] at hdata; omega
    | cons d rest => rfl

theorem assignWithin_represents {limit : Capacity} (hl : limit.val ≤ n.val) (s : ShortString n)
    (b : List UInt8) : (assignWithin limit s b).Represents (b.take limit.val) := by
  have htake : b.take (min b.length limit.val) = b.take limit.val := by
    rw [Nat.min_comm, ← List.take_take, List.take_length]
  rw [← htake]
  exact represents_write s.data_length (by omega) (by omega)

theorem setFromCountedChars_represents {limit : Capacity} (hl : limit.val ≤ n.val)
    (s : ShortString n) {src : List UInt8} {len : Int} (hlen : len ≤ src.length) :
    (setFromCountedChars limit s (some src) len).Represents
      ((src.take len.toNat).take limit.val) := by
  have hcount : (if len ≤ 0 then 0 else if len > limit.val then limit.val else len.toNat) =
      min limit.val len.toNat := by
    split_ifs <;> omega
  simp only [setFromCountedChars, hcount]
  rw [List.take_take]
  exact represents_write s.data_length (by omega) (by omega)

theorem deleteWithin_represents {limit : Capacity} (hl : limit.val ≤ n.val) {s : ShortString n}
    {b : List UInt8} (h : s.Represents b) (start count : Int) :
    (deleteWithin limit s start count).Represents
      ((deleteBytes (b.take limit.val) start count).take limit.val) := by
  have hdelete := pDelete_represents (derefValue_represents limit h) start count
  rw [deleteWithin, hdelete.content]
  exact assignWithin_represents hl s _

end Tp2cc.Rt
