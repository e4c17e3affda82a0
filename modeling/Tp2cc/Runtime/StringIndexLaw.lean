import Tp2cc.Runtime.StringIndex

set_option autoImplicit false

namespace Tp2cc.Rt
open Machine ShortString

theorem int_holds {v : Int} : IntType.int.Holds v ↔ -2147483648 ≤ v ∧ v ≤ 2147483647 := .rfl

theorem int_hi : IntType.int.hi = 2147483647 := rfl

theorem intOperation_eq {v : Int} (hlo : -2147483648 ≤ v) (hhi : v ≤ 2147483647) :
    intOperation v = some v := if_pos (int_holds.mpr ⟨hlo, hhi⟩)

theorem indexLoop_eq {length : Nat} (hlength : (length : Int) ≤ 2147483647) {first : Int}
    {turns : Nat} (h₀ : 0 ≤ first) (h : turns = 0 ∨ first+turns ≤ length) :
    indexLoop length first turns = some () := by
  induction turns generalizing first with
  | zero => rfl
  | succ turns ih =>
    have hin : 0 ≤ first ∧ first < length := by omega
    rw [indexLoop, intOperation_eq (by omega) (by omega)]
    simp only [Option.bind_eq_bind, Option.bind_some, hin, and_self, if_true]
    exact ih (by omega) (by omega)

theorem cStrLen_eq {s : List UInt8} {nl : Int} (h₀ : 0 ≤ nl)
    (h : nl+(cString (some s)).length < 2147483647) :
    cStrLen nl s = some (nl+(cString (some s)).length) := by
  induction s generalizing nl with
  | nil => simp [cStrLen, cString]
  | cons c s ih =>
    by_cases hc : c = 0
    · simp [cStrLen, cString, hc]
    · have hlen : (cString (some (c :: s))).length = (cString (some s)).length+1 := by
        simp [cString, hc]
      rw [hlen] at h ⊢
      push_cast at h
      rw [cStrLen, if_neg hc, intOperation_eq (by omega) (by omega), Option.bind_eq_bind,
        Option.bind_some, ih (by omega) (by omega)]
      congr 1
      push_cast
      omega

theorem take_cString (s : List UInt8) :
    s.take (cString (some s)).length = cString (some s) :=
  (List.prefix_iff_eq_take.mp (List.takeWhile_prefix _)).symm

section
variable {needle hay : List UInt8}

theorem matchLoop_eq {i j : Nat} (hhay : (hay.length : Int) < 2147483647)
    (hfit : i+j+needle.length ≤ hay.length) :
    matchLoop hay i j needle = some (decide (needle <+: hay.drop (i+j))) := by
  induction needle generalizing j with
  | nil => simp [matchLoop]
  | cons c needle ih =>
    rw [List.length_cons] at hfit
    have hlt : i+j < hay.length := by omega
    have hat : charAt hay (i+j) = some hay[i+j] := by
      have hcast : ((i : Int)+j).toNat = i+j := by omega
      rw [charAt, if_pos (by omega), hcast, List.getElem?_eq_getElem hlt]
    have hsplit : c :: needle <+: hay.drop (i+j) ↔
        c = hay[i+j] ∧ needle <+: hay.drop (i+j+1) := by
      rw [List.drop_eq_getElem_cons hlt, List.cons_prefix_cons]
    rw [matchLoop, intOperation_eq (by omega) (by omega)]
    simp only [Option.bind_eq_bind, Option.bind_some, hat, hsplit]
    by_cases hc : hay[i+j] = c
    · have hnext := @ih (j+1) (by omega)
      rw [Nat.cast_add, Nat.cast_one, ← Nat.add_assoc] at hnext
      rw [if_neg (by simp [hc]), intOperation_eq (by omega) (by omega), Option.bind_some, hnext]
      simp [hc]
    · have hc' : ¬ c = hay[i+j] := fun h => hc h.symm
      simp [hc, hc']

theorem OccursAt.fits {i : Nat} (h : OccursAt needle hay i) (hne : needle ≠ []) :
    i+needle.length ≤ hay.length := by
  have hle := h.length_le
  have hpos := List.length_pos_iff.mpr hne
  rw [List.length_drop] at hle
  omega

/-- By induction on the places left: the needle is at none of those before `i`. -/
theorem posLoop_isPos (hne : needle ≠ []) (hneedle : (needle.length : Int) < 2147483647)
    (hhay : (hay.length : Int) < 2147483647) (i : Nat) (hi : i = 0 ∨ i+needle.length ≤ hay.length+1)
    (hbefore : ∀ j < i, ¬OccursAt needle hay j) :
    ∃ p, posLoop needle hay i = some p ∧ IsPos needle hay p := by
  have hpos := List.length_pos_iff.mpr hne
  rw [posLoop, intOperation_eq (by omega) (by omega)]
  simp only [Option.bind_eq_bind, Option.bind_some]
  by_cases hfit : i+needle.length ≤ hay.length
  · have hmatch := matchLoop_eq (j := 0) hhay hfit
    rw [Nat.add_zero, Nat.cast_zero] at hmatch
    rw [if_pos hfit, hmatch, Option.bind_some, intOperation_eq (by omega) (by omega)]
    by_cases hocc : needle <+: hay.drop i
    · exact ⟨i+1, if_pos (decide_eq_true hocc), .inr ⟨i, rfl, hocc, hbefore⟩⟩
    · have hbefore' : ∀ j < i+1, ¬OccursAt needle hay j := by
        intro j hj
        cases Nat.lt_succ_iff_lt_or_eq.mp hj with
        | inl hj => exact hbefore j hj
        | inr hj => rwa [hj]
      have hno : decide (needle <+: hay.drop i) = false := decide_eq_false hocc
      simp only [hno, Bool.false_eq_true, if_false, Option.bind_some]
      exact posLoop_isPos hne hneedle hhay (i+1) (by omega) hbefore'
  · rw [if_neg hfit]
    refine ⟨0, rfl, .inl ⟨rfl, ?_⟩⟩
    intro j hocc
    have hj := hocc.fits hne
    exact hbefore j (by omega) hocc
termination_by hay.length+1-i

theorem occursAt_singleton {c : UInt8} {i : Nat} : OccursAt [c] hay i ↔ hay[i]? = some c := by
  have hhead : hay[i]? = (hay.drop i)[0]? := by rw [List.getElem?_drop, Nat.add_zero]
  rw [OccursAt, hhead]
  cases hay.drop i with
  | nil => simp
  | cons d rest => simp [List.cons_prefix_cons, eq_comm]

theorem posCharLoop_isPos {c : UInt8} (hhay : (hay.length : Int) < 2147483647) {i : Nat}
    {rest : List UInt8} (hrest : hay.drop i = rest) (hi : i ≤ hay.length)
    (hbefore : ∀ j < i, ¬OccursAt [c] hay j) :
    ∃ p, posCharLoop c i rest = some p ∧ IsPos [c] hay p := by
  induction rest generalizing i with
  | nil =>
    refine ⟨0, rfl, .inl ⟨rfl, ?_⟩⟩
    intro j hocc
    have hj := hocc.fits (by simp)
    have hend := congrArg List.length hrest
    rw [List.length_drop, List.length_nil] at hend
    rw [List.length_singleton] at hj
    exact hbefore j (by omega) hocc
  | cons d rest ih =>
    have hlen := congrArg List.length hrest
    rw [List.length_drop, List.length_cons] at hlen
    have hat : hay[i]? = some d := by
      rw [← Nat.add_zero i, ← List.getElem?_drop, hrest]
      rfl
    have hnext : hay.drop (i+1) = rest := by
      rw [← List.drop_drop, hrest]
      rfl
    rw [posCharLoop, intOperation_eq (by omega) (by omega)]
    simp only [Option.bind_eq_bind, Option.bind_some]
    by_cases hd : d = c
    · rw [hd] at hat
      exact ⟨i+1, if_pos hd, .inr ⟨i, rfl, occursAt_singleton.mpr hat, hbefore⟩⟩
    · rw [if_neg hd]
      apply ih hnext (by omega)
      intro j hj hocc
      cases Nat.lt_succ_iff_lt_or_eq.mp hj with
      | inl hj => exact hbefore j hj hocc
      | inr hj =>
        rw [hj, occursAt_singleton, hat] at hocc
        exact hd (Option.some.inj hocc)

theorem IsPos.unique {p q : Int} (hp : IsPos needle hay p) (hq : IsPos needle hay q) : p = q := by
  cases hp with
  | inl hp =>
    cases hq with
    | inl hq => rw [hp.1, hq.1]
    | inr hq =>
      obtain ⟨i, -, hocc, -⟩ := hq
      exact absurd hocc (hp.2 i)
  | inr hp =>
    obtain ⟨i, hpi, hocc, hleast⟩ := hp
    cases hq with
    | inl hq => exact absurd hocc (hq.2 i)
    | inr hq =>
      obtain ⟨k, hqk, hocc', hleast'⟩ := hq
      have hik : i = k := by
        by_contra hne
        cases Nat.lt_or_gt_of_ne hne with
        | inl hlt => exact hleast' i hlt hocc
        | inr hlt => exact hleast k hlt hocc'
      rw [hpi, hqk, hik]

end

theorem copyRangeSteps_eq {length : Nat} (hlen : (length : Int) < 2147483647) {start count : Int}
    (hstart : IntType.int.Holds start) (hcount : IntType.int.Holds count) :
    copyRangeSteps length start count =
      some (((start-1).toNat : Int), ((min count.toNat (length-(start-1).toNat) : Nat) : Int)) := by
  rw [int_holds] at hstart hcount
  obtain ⟨first, hfirst⟩ : ∃ first, (if start < 1 then 1 else start) = first := ⟨_, rfl⟩
  have hskip : first-1 = ((start-1).toNat : Int) := by
    split at hfirst <;> omega
  simp only [copyRangeSteps, hfirst, hskip]
  rw [intOperation_eq (by omega) (by omega), Option.bind_eq_bind, Option.bind_some,
    intOperation_eq (by omega) (by omega), Option.bind_some]
  congr 2
  split_ifs <;> omega

section
variable {n : Capacity} {s : ShortString n} {start count : Int}

theorem length_lt_int (s : ShortString n) : ((s.length.toNat : Nat) : Int) < 2147483647 := by
  have hlt := s.length.toNat_lt
  omega

theorem pCopySteps_eq (s : ShortString n) (hstart : IntType.int.Holds start)
    (hcount : IntType.int.Holds count) : pCopySteps s start count = some (pCopy s start count) := by
  have hlen := length_lt_int s
  rw [pCopySteps, copyRangeSteps_eq hlen hstart hcount, pCopy, copyRange_eq]
  simp only [Option.bind_eq_bind, Option.bind_some, Int.toNat_natCast]
  rw [indexLoop_eq (by omega) (by omega) (by omega)]
  rfl

theorem pDeleteSteps_eq (s : ShortString n) (hcount : IntType.int.Holds count) :
    pDeleteSteps s start count = some (pDelete s start count) := by
  have hlen := length_lt_int s
  rw [int_holds] at hcount
  rw [pDeleteSteps, pDelete]
  by_cases hout : start < 1 ∨ start > s.length.toNat ∨ count ≤ 0
  · rw [if_pos hout, if_pos hout]
  · rw [if_neg hout, if_neg hout, intOperation_eq (by omega) (by omega)]
    simp only [Option.bind_eq_bind, Option.bind_some]
    rw [intOperation_eq (by omega) (by omega), Option.bind_some,
      intOperation_eq (by omega) (by omega), Option.bind_some]
    by_cases htail : s.length.toNat-(start-1)-count < 0
    · rw [if_pos htail, if_pos htail]
      rfl
    · rw [if_neg htail, if_neg htail, intOperation_eq (by omega) (by omega), Option.bind_some,
        indexLoop_eq (by omega) (by omega) (by omega), Option.bind_some,
        indexLoop_eq (by omega) (by omega) (by omega), Option.bind_some,
        intOperation_eq (by omega) (by omega)]
      rfl

end

section
variable {m : Memory} {d : DataPtr} {start count : Int}

theorem ansi_length_lt (m : Memory) (d : DataPtr) :
    (((m.content d).length : Nat) : Int) < 2147483647 := by
  have hlt := m.content_length_lt d
  rwa [int_hi] at hlt

theorem pCopyAnsiSteps_eq (m : Memory) (d : DataPtr) (hstart : IntType.int.Holds start)
    (hcount : IntType.int.Holds count) :
    pCopyAnsiSteps m d start count = pCopyAnsi m d start count := by
  have hlen := ansi_length_lt m d
  rw [pCopyAnsiSteps, pCopyAnsi, Memory.length_eq, copyRangeSteps_eq hlen hstart hcount,
    Int.toNat_natCast, copyRange_eq]
  simp only [Option.bind_eq_bind, Option.bind_some, Int.toNat_natCast]
  rw [indexLoop_eq (by omega) (by omega) (by omega)]
  rfl

theorem pDeleteAnsiSteps_eq (m : Memory) (d : DataPtr) :
    pDeleteAnsiSteps m d start count = pDeleteAnsi m d start count := by
  have hlen := ansi_length_lt m d
  rw [pDeleteAnsiSteps, pDeleteAnsi, Memory.length_eq]
  generalize (m.content d).length = len at hlen
  by_cases hout : start < 1 ∨ start > (len : Int) ∨ count ≤ 0
  · rw [if_pos hout, if_pos hout]
  · rw [if_neg hout, if_neg hout, intOperation_eq (by omega) (by omega)]
    simp only [Option.bind_eq_bind, Option.bind_some]
    rw [intOperation_eq (by omega) (by omega), Option.bind_some]
    obtain ⟨cut, hcut⟩ : ∃ cut, (if count > (len : Int)-(start-1) then (len : Int)-(start-1)
        else count) = cut := ⟨_, rfl⟩
    have hrange : 0 < cut ∧ cut ≤ (len : Int)-(start-1) := by
      split at hcut <;> omega
    rw [hcut]
    cases AnsiString.ensureUnique m d with
    | none => rfl
    | some r =>
      rw [Option.bind_some, Option.bind_some, intOperation_eq (by omega) (by omega),
        Option.bind_some, intOperation_eq (by omega) (by omega), Option.bind_some,
        intOperation_eq (by omega) (by omega), Option.bind_some,
        indexLoop_eq (by omega) (by omega) (by omega), Option.bind_some,
        indexLoop_eq (by omega) (by omega) (by omega), Option.bind_some,
        intOperation_eq (by omega) (by omega)]
      rfl

end

/-- The operation is defined and leaves a string of content `b`, and all other strings alone. -/
def Gives (m : Memory) (r : Option (Memory × StringOperand)) (b : List UInt8) : Prop :=
  ∃ m' y, r = some (m', y) ∧ m.Extends m' ∧ y.Valid m' ∧ y.content m' = b

section
variable {m : Memory} {x : StringOperand} {start count : Int}

theorem gives_short {n : Capacity} {s : ShortString n} {b : List UInt8} (h : s.Represents b) :
    Gives m (some (m, .short s)) b := ⟨_, _, rfl, .refl m, h.valid, h.content⟩

theorem Yields.gives {r : Option (Memory × DataPtr)} {b : List UInt8} {clean : Prop}
    (h : Yields m r b clean) : Gives m (r.map fun r => (r.1, .ansi r.2)) b := by
  obtain ⟨m', d, hr, hext, hvalid, hb, -⟩ := h
  exact ⟨m', .ansi d, by rw [hr]; rfl, hext, hvalid, hb⟩

theorem StringOperand.content_length_lt (hx : x.Valid m) :
    (((x.content m).length : Nat) : Int) < 2147483647 := by
  cases x with
  | short s =>
    have hle := s.length.toNat_lt
    rw [content, ShortString.content_length hx]
    omega
  | reference limit s =>
    have hle := limit.le
    rw [content, List.length_take]
    omega
  | ansi d => exact ansi_length_lt m d

theorem derefValue_content {limit n : Capacity} {s : ShortString n} (hs : s.Valid) :
    (derefValue limit s).Represents (s.content.take limit.val) :=
  derefValue_represents limit (represents_content hs)

theorem pCopyOf_gives (hx : x.Valid m) (hstart : IntType.int.Holds start)
    (hcount : IntType.int.Holds count) :
    Gives m (pCopyOf m x start count) (copyBytes (x.content m) start count) := by
  cases x with
  | short s =>
    rw [pCopyOf, pCopySteps_eq s hstart hcount]
    exact gives_short (pCopy_represents (represents_content hx) start count)
  | reference limit s =>
    rw [pCopyOf, pCopySteps_eq _ hstart hcount]
    exact gives_short (pCopy_represents (derefValue_content hx.1) start count)
  | ansi d =>
    rw [pCopyOf, pCopyAnsiSteps_eq m d hstart hcount]
    exact (pCopyAnsi_yields hx start count).gives

theorem deleteBytes_length_le (b : List UInt8) (start count : Int) :
    (deleteBytes b start count).length ≤ b.length := by
  rw [deleteBytes]
  split
  · exact Nat.le_refl _
  · rw [List.length_append, List.length_take, List.length_drop]
    omega

theorem pDeleteOf_gives (hx : x.Valid m) (hcount : IntType.int.Holds count) :
    Gives m (pDeleteOf m x start count) (deleteBytes (x.content m) start count) := by
  cases x with
  | short s =>
    rw [pDeleteOf, pDeleteSteps_eq s hcount]
    exact gives_short (pDelete_represents (represents_content hx) start count)
  | reference limit s =>
    have hdelete := pDelete_represents (@derefValue_content limit _ s hx.1) start count
    have hassign := assignWithin_represents hx.2 s
      (deleteBytes (s.content.take limit.val) start count)
    have hle := deleteBytes_length_le (s.content.take limit.val) start count
    rw [List.length_take] at hle
    rw [pDeleteOf, pDeleteSteps_eq _ hcount, Option.map_some, hdelete.content]
    refine ⟨_, _, rfl, .refl m, ⟨hassign.valid, hx.2⟩, ?_⟩
    rw [StringOperand.content, hassign.content, List.take_take, Nat.min_self,
      List.take_of_length_le (by omega)]
    rfl
  | ansi d =>
    rw [pDeleteOf, pDeleteAnsiSteps_eq]
    exact (pDeleteAnsi_yields hx start count).gives

theorem pPos_isPos {needle : PosNeedle} (hneedle : needle.Valid m) (hne : needle.bytes m ≠ [])
    (hx : x.Valid m) :
    ∃ p, pPos m needle x = some p ∧ IsPos (needle.bytes m) (x.content m) p := by
  have hhay := StringOperand.content_length_lt hx
  have hstart : ∀ j < 0, ¬OccursAt (needle.bytes m) (x.content m) j := fun j hj => by omega
  cases needle with
  | cStr s =>
    have hlen := hneedle
    rw [PosNeedle.Valid, int_hi] at hlen
    have hcount := cStrLen_eq (s := s) (Int.le_refl 0) (by omega)
    have hloop := posLoop_isPos hne hlen hhay 0 (.inl rfl) hstart
    rw [pPos, hcount, Option.bind_eq_bind, Option.bind_some, Int.zero_add, Int.toNat_natCast,
      take_cString]
    exact hloop
  | char c => exact posCharLoop_isPos hhay (List.drop_zero) (Nat.zero_le _) hstart
  | text y =>
    exact posLoop_isPos hne (StringOperand.content_length_lt hneedle) hhay 0 (.inl rfl) hstart

theorem copyBytes_append (b : List UInt8) {k : Int} (h₀ : 0 ≤ k)
    (hlen : (b.length : Int) < 2147483647) :
    copyBytes b 1 k ++ copyBytes b (k+1) IntType.int.hi = b := by
  have hhi : IntType.int.hi.toNat = 2147483647 := rfl
  have hk : (k+1-1).toNat = k.toNat := by omega
  have hone : ((1 : Int)-1).toNat = 0 := rfl
  have hall : (b.drop k.toNat).take 2147483647 = b.drop k.toNat :=
    List.take_of_length_le (by rw [List.length_drop]; omega)
  rw [copyBytes, copyBytes, hk, hhi, hone, hall, List.drop_zero, List.take_append_drop]

end

/-- `Pos` of nonempty needles, `Copy` and `Delete` on a string, for one place and one count. -/
structure IndexLaw (m : Memory) (x : StringOperand) (start count : Word .int) : Prop where
  pos : ∀ needle : PosNeedle, needle.Valid m → needle.bytes m ≠ [] →
    ∃ p, pPos m needle x = some p ∧ IsPos (needle.bytes m) (x.content m) p
  copy : Gives m (pCopyOf m x start.val count.val)
    (((x.content m).drop (max start.val 1-1).toNat).take (max count.val 0).toNat)
  delete : 1 ≤ start.val ∧ start.val ≤ (x.content m).length ∧ 0 < count.val →
    Gives m (pDeleteOf m x start.val count.val)
      ((x.content m).take (start.val-1).toNat ++ (x.content m).drop (start.val-1+count.val).toNat)
  unchanged : ¬(1 ≤ start.val ∧ start.val ≤ (x.content m).length ∧ 0 < count.val) →
    Gives m (pDeleteOf m x start.val count.val) (x.content m)
  rejoined : ∀ k : Int, 0 ≤ k → k < IntType.int.hi → ∃ front back,
    Gives m (pCopyOf m x 1 k) front ∧ Gives m (pCopyOf m x (k+1) IntType.int.hi) back ∧
      front ++ back = x.content m

/-- The operations on two strings of the same content, each with its own overload. -/
structure Agree (m m' : Memory) (x y : StringOperand) (start count : Word .int) : Prop where
  pos : ∀ needle needle' : PosNeedle, needle.Valid m → needle'.Valid m' → needle.bytes m ≠ [] →
    needle'.bytes m' = needle.bytes m → pPos m needle x = pPos m' needle' y
  copy : ∃ b, Gives m (pCopyOf m x start.val count.val) b ∧
    Gives m' (pCopyOf m' y start.val count.val) b
  delete : ∃ b, Gives m (pDeleteOf m x start.val count.val) b ∧
    Gives m' (pDeleteOf m' y start.val count.val) b

theorem indexLaw {m : Memory} {x : StringOperand} (hx : x.Valid m) (start count : Word .int) :
    IndexLaw m x start count := by
  have hdelete := @pDeleteOf_gives m x start.val count.val hx count.mem
  constructor
  case pos => exact fun needle hneedle hne => pPos_isPos hneedle hne hx
  case copy =>
    have hskip : (max start.val 1-1).toNat = (start.val-1).toNat := by omega
    have hcount : (max count.val 0).toNat = count.val.toNat := by omega
    rw [hskip, hcount]
    exact pCopyOf_gives hx start.mem count.mem
  case delete =>
    intro hin
    rwa [deleteBytes, if_neg (by omega)] at hdelete
  case unchanged =>
    intro hout
    rwa [deleteBytes, if_pos (by omega)] at hdelete
  case rejoined =>
    intro k h₀ hk
    rw [int_hi] at hk
    have hlen := StringOperand.content_length_lt hx
    exact ⟨_, _, pCopyOf_gives hx (by decide) (int_holds.mpr (by omega)),
      pCopyOf_gives hx (int_holds.mpr (by omega)) (by decide), copyBytes_append _ h₀ hlen⟩

theorem agree_of_content_eq {m m' : Memory} {x y : StringOperand} (hx : x.Valid m)
    (hy : y.Valid m') (h : y.content m' = x.content m) (start count : Word .int) :
    Agree m m' x y start count := by
  constructor
  case pos =>
    intro needle needle' hneedle hneedle' hne hbytes
    obtain ⟨p, hp, hpos⟩ := pPos_isPos hneedle hne hx
    obtain ⟨q, hq, hpos'⟩ := pPos_isPos hneedle' (hbytes ▸ hne) hy
    rw [hbytes, h] at hpos'
    rw [hp, hq, hpos.unique hpos']
  case copy =>
    have hcopy := pCopyOf_gives hy start.mem count.mem
    rw [h] at hcopy
    exact ⟨_, pCopyOf_gives hx start.mem count.mem, hcopy⟩
  case delete =>
    have hdelete := @pDeleteOf_gives m' y start.val count.val hy count.mem
    rw [h] at hdelete
    exact ⟨_, pDeleteOf_gives hx count.mem, hdelete⟩

theorem indexesStrings {m : Memory} {x : StringOperand} (hx : x.Valid m) (start count : Word .int) :
    IndexLaw m x start count ∧ ∀ m' y, y.Valid m' → y.content m' = x.content m →
      Agree m m' x y start count :=
  ⟨indexLaw hx start count, fun _ _ hy h => agree_of_content_eq hx hy h start count⟩

/-- A string and the same one as a reference with room for four characters. -/
theorem indexesStrings_abcd :
    IndexLaw .start (.short (tp2ccShortstringOfCStr .full (some [97, 98, 99, 100]))) ⟨2, by decide⟩
        ⟨2147483647, by decide⟩ ∧
      Agree .start .start (.short (tp2ccShortstringOfCStr .full (some [97, 98, 99, 100])))
        (.reference ⟨4, by decide, by decide⟩ (tp2ccShortstringOfCStr .full (some [97, 98, 99, 100])))
        ⟨2, by decide⟩ ⟨2147483647, by decide⟩ := by
  have hvalid := (tp2ccShortstringOfCStr_represents .full (some [97, 98, 99, 100])).valid
  have h := @indexesStrings .start (.short (tp2ccShortstringOfCStr .full (some [97, 98, 99, 100])))
    hvalid ⟨2, by decide⟩ ⟨2147483647, by decide⟩
  exact ⟨h.1, h.2 .start _ ⟨hvalid, by decide⟩ (by decide)⟩

end Tp2cc.Rt
