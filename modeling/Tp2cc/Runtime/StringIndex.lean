import Tp2cc.Runtime.AnsiStringLaw

/-! `Pos`, `Copy` and `Delete` of the runtime with each `int` operation and each index that they
take. `none` is what C++ leaves undefined: a result that no `int` holds, a place outside the string. -/
set_option autoImplicit false

namespace Tp2cc.Rt
open Machine ShortString

def intOperation (exact : Int) : Option Int :=
  if IntType.int.Holds exact then some exact else none

def indexLoop (length : Nat) (first : Int) : Nat → Option Unit
  | 0 => some ()
  | turns+1 => do
    let index ← intOperation first
    if 0 ≤ index ∧ index < length then indexLoop length (first+1) turns else none

def charAt (b : List UInt8) (index : Int) : Option UInt8 :=
  if 0 ≤ index then b[index.toNat]? else none

/-- `for (j = 0; j < nl; ++j) if (hay.data[i + j] != needle[j]) ..` from one place of the needle
on. -/
def matchLoop (hay : List UInt8) (i j : Int) : List UInt8 → Option Bool
  | [] => some true
  | c :: needle => do
    let index ← intOperation (i+j)
    let d ← charAt hay index
    if d ≠ c then return false
    let j ← intOperation (j+1)
    matchLoop hay i j needle

/-- `for (; i + nl <= hay.length; ++i)` with the loop over the needle in it. -/
def posLoop (needle hay : List UInt8) (i : Nat) : Option Int := do
  let _ ← intOperation (i+needle.length)
  if i+needle.length ≤ hay.length then
    if ← matchLoop hay i 0 needle then intOperation (i+1)
    else
      let _ ← intOperation (i+1)
      posLoop needle hay (i+1)
  else return 0
termination_by hay.length+1-i

def posCharLoop (c : UInt8) (i : Nat) : List UInt8 → Option Int
  | [] => some 0
  | d :: hay => do
    let next ← intOperation (i+1)
    if d = c then return next else posCharLoop c (i+1) hay

/-- `while (needle[nl]) ++nl;` -/
def cStrLen (nl : Int) : List UInt8 → Option Int
  | [] => some nl
  | c :: s => if c = 0 then some nl else do
    let nl ← intOperation (nl+1)
    cStrLen nl s

/-- A string that an overload takes: a short string, a reference to the first places of one, or an
`AnsiString`. -/
inductive StringOperand where
  | short {n : Capacity} (s : ShortString n)
  | reference (limit : Capacity) {n : Capacity} (s : ShortString n)
  | ansi (data : DataPtr)

namespace StringOperand

def Valid (m : Memory) : StringOperand → Prop
  | .short s => s.Valid
  | .reference limit (n := n) s => s.Valid ∧ limit.val ≤ n.val
  | .ansi d => m.Valid d

def content (m : Memory) : StringOperand → List UInt8
  | .short s => s.content
  | .reference limit s => s.content.take limit.val
  | .ansi d => m.content d

end StringOperand

inductive PosNeedle where
  | cStr (s : List UInt8)
  | char (c : UInt8)
  | text (x : StringOperand)

namespace PosNeedle

def bytes (m : Memory) : PosNeedle → List UInt8
  | .cStr s => cString (some s)
  | .char c => [c]
  | .text x => x.content m

def Valid (m : Memory) : PosNeedle → Prop
  | .cStr s => ((cString (some s)).length : Int) < IntType.int.hi
  | .char _ => True
  | .text x => x.Valid m

end PosNeedle

def pPos (m : Memory) (needle : PosNeedle) (hay : StringOperand) : Option Int :=
  match needle with
  | .cStr s => do
    let nl ← cStrLen 0 s
    posLoop (s.take nl.toNat) (hay.content m) 0
  | .char c => posCharLoop c 0 (hay.content m)
  | .text x => posLoop (x.content m) (hay.content m) 0

/-- The clamps of `p_copy`, operation by operation. -/
def copyRangeSteps (length start count : Int) : Option (Int × Int) := do
  let start := if start < 1 then 1 else start
  let skip ← intOperation (start-1)
  let avail ← intOperation (length-skip)
  let avail := if avail < 0 then 0 else avail
  let count := if count > avail then avail else count
  let count := if count < 0 then 0 else count
  return (skip, count)

section
variable {n : Capacity}

def pCopySteps (s : ShortString n) (start count : Int) : Option (ShortString .full) := do
  let (skip, count) ← copyRangeSteps s.length.toNat start count
  indexLoop s.length.toNat skip count.toNat
  return .filled .full (s.data.drop skip.toNat) count.toNat

def pDeleteSteps (s : ShortString n) (start count : Int) : Option (ShortString n) :=
  if start < 1 ∨ start > s.length.toNat ∨ count ≤ 0 then some s
  else do
    let skip ← intOperation (start-1)
    let rest ← intOperation (s.length.toNat-skip)
    let tail ← intOperation (rest-count)
    if tail < 0 then return { s with length := .ofNat skip.toNat }
    let source ← intOperation (skip+count)
    indexLoop s.length.toNat source tail.toNat
    indexLoop s.length.toNat skip tail.toNat
    let left ← intOperation (s.length.toNat-count)
    return {
      length := .ofNat left.toNat
      data := copyDown s.data skip.toNat source.toNat tail.toNat
      data_length := by rw [copyDown_length, s.data_length] }

end

/-- The bytes are copied by `memcpy`, for which the same places are checked. -/
def pCopyAnsiSteps (m : Memory) (s : DataPtr) (start count : Int) :
    Option (Memory × DataPtr) := do
  let (skip, count) ← copyRangeSteps (AnsiString.length m s) start count
  let (m', r) ← AnsiString.setLength m .empty count
  indexLoop (AnsiString.length m s).toNat skip count.toNat
  let m' ← m'.doIf (count > 0) fun m' => m'.move r 0 s skip.toNat count.toNat
  return (m', r)

/-- The `memmove` takes the terminator behind the string too. -/
def pDeleteAnsiSteps (m : Memory) (s : DataPtr) (start count : Int) :
    Option (Memory × DataPtr) :=
  let len := AnsiString.length m s
  if start < 1 ∨ start > len ∨ count ≤ 0 then some (m, s)
  else do
    let skip ← intOperation (start-1)
    let rest ← intOperation (len-skip)
    let count := if count > rest then rest else count
    let (m, s) ← AnsiString.ensureUnique m s
    let source ← intOperation (skip+count)
    let behind ← intOperation (len-source)
    let moved ← intOperation (behind+1)
    indexLoop (len+1).toNat source moved.toNat
    indexLoop (len+1).toNat skip moved.toNat
    let m ← m.move s skip.toNat s source.toNat moved.toNat
    let left ← intOperation (len-count)
    AnsiString.setLength m s left

def pCopyOf (m : Memory) (x : StringOperand) (start count : Int) :
    Option (Memory × StringOperand) :=
  match x with
  | .short s => (pCopySteps s start count).map fun r => (m, .short r)
  | .reference limit s => (pCopySteps (derefValue limit s) start count).map fun r => (m, .short r)
  | .ansi d => (pCopyAnsiSteps m d start count).map fun r => (r.1, .ansi r.2)

def pDeleteOf (m : Memory) (x : StringOperand) (start count : Int) :
    Option (Memory × StringOperand) :=
  match x with
  | .short s => (pDeleteSteps s start count).map fun r => (m, .short r)
  | .reference limit s => (pDeleteSteps (derefValue limit s) start count).map fun r =>
      (m, .reference limit (assignWithin limit s r.content))
  | .ansi d => (pDeleteAnsiSteps m d start count).map fun r => (r.1, .ansi r.2)

def OccursAt (needle hay : List UInt8) (i : Nat) : Prop := needle <+: hay.drop i

/-- `Pos`: the least place counted from one, or zero. -/
def IsPos (needle hay : List UInt8) (p : Int) : Prop :=
  (p = 0 ∧ ∀ i, ¬OccursAt needle hay i) ∨
    ∃ i : Nat, p = i+1 ∧ OccursAt needle hay i ∧ ∀ j < i, ¬OccursAt needle hay j

end Tp2cc.Rt
