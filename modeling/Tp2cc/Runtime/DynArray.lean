import Tp2cc.Machine.Arena
import Tp2cc.Machine.Conversion
import Tp2cc.Machine.SharedHeap

/-! `tp2cc_DynArray`: dynamic arrays, also of dynamic arrays, and programs over variables of
these types. The types are given by their depth, which is 0 for a type that is not a dynamic
array. -/
set_option autoImplicit false

namespace Tp2cc.Rt
open Machine

variable {α : Type}

/-- A variable or an element: an array, which `ρ` refers to, or a value of another type. -/
inductive Slot (α ρ : Type)
  | plain (v : α)
  | array (d : ρ)
deriving DecidableEq

structure DynArray where
  data : Option Nat
  count : Int
deriving DecidableEq

def DynArray.nil : DynArray := ⟨none, 0⟩

def Slot.refs : Slot α DynArray → List Nat
  | .plain _ => []
  | .array d => d.data.toList

/-- The references of a block. `delete[]` drops the last element first. -/
def slotRefs (xs : List (Slot α DynArray)) : List Nat := xs.reverse.flatMap Slot.refs

structure ArrayState (α : Type) where
  heap : SharedHeap (List (Slot α DynArray))
  vars : List (Slot α DynArray)

/-- What a C++ reference to a variable or to an element refers to. -/
inductive Loc
  | var (x : Nat)
  | element (block i : Nat)
deriving DecidableEq

namespace ArrayState

def read (s : ArrayState α) : Loc → Option (Slot α DynArray)
  | .var x => s.vars[x]?
  | .element b i => (s.heap.get? b).bind (·[i]?)

def write (s : ArrayState α) (l : Loc) (c : Slot α DynArray) : Option (ArrayState α) :=
  match l with
  | .var x => if x < s.vars.length then some { s with vars := s.vars.set x c } else none
  | .element b i => do
    let xs ← s.heap.get? b
    if i < xs.length then return { s with heap := ← s.heap.put b (xs.set i c) } else none

def readArray (s : ArrayState α) (l : Loc) : Option DynArray :=
  match s.read l with
  | some (.array d) => some d
  | _ => none

def retainData (s : ArrayState α) : Option Nat → Option (ArrayState α)
  | none => some s
  | some i => (s.heap.retain i).map fun heap => { s with heap }

/-- The end of a `shared_ptr`. -/
def releaseData (s : ArrayState α) : Option Nat → Option (ArrayState α)
  | none => some s
  | some i => (s.heap.release slotRefs i).map fun heap => { s with heap }

def setData (s : ArrayState α) (p : Loc) (data : Option Nat) : Option (ArrayState α) := do
  let old ← s.readArray p
  let s ← s.write p (.array { old with data })
  s.releaseData old.data

def setCount (s : ArrayState α) (p : Loc) (count : Int) : Option (ArrayState α) := do
  let d ← s.readArray p
  s.write p (.array { d with count })

def assignNil (s : ArrayState α) (p : Loc) : Option (ArrayState α) := do
  (← s.setData p none).setCount p 0

/-- The implicit copy assignment, member by member: `q` is read again for its count. -/
def copyAssign (s : ArrayState α) (p q : Loc) : Option (ArrayState α) := do
  let src ← s.readArray q
  let s ← (← s.retainData src.data).setData p src.data
  s.setCount p (← s.readArray q).count

def moveAssign (s : ArrayState α) (p : Loc) (d : DynArray) : Option (ArrayState α) := do
  (← s.setData p d.data).setCount p d.count

def store (s : ArrayState α) (p : Loc) (v : α) : Option (ArrayState α) :=
  match s.read p with
  | some (.plain _) => s.write p (.plain v)
  | _ => none

def assignSlot (s : ArrayState α) (p q : Loc) : Option (ArrayState α) :=
  match s.read q with
  | some (.plain v) => s.store p v
  | some (.array _) => s.copyAssign p q
  | none => none

def elementAt (s : ArrayState α) (d : DynArray) (i : Int) : Option Loc := do
  let b ← d.data
  let xs ← s.heap.get? b
  if 0 ≤ i ∧ i < xs.length then some (.element b i.toNat) else none

/-- `for (; n > 0; ++i, --n) dest[i] = a.data[i];` -/
def copyElements (dest : Nat) (a : Loc) : Nat → Nat → ArrayState α → Option (ArrayState α)
  | 0, _, s => some s
  | n+1, i, s => do
    let src ← s.elementAt (← s.readArray a) i
    copyElements dest a n (i+1) (← s.assignSlot (.element dest i) src)

def storeElements (dest : Nat) : Nat → List α → ArrayState α → Option (ArrayState α)
  | _, [], s => some s
  | i, v :: vs, s => do storeElements dest (i+1) vs (← s.store (.element dest i) v)

def make (s : ArrayState α) (xs : List (Slot α DynArray)) : ArrayState α :=
  { s with heap := s.heap.make xs }

variable [Inhabited α]

def defaultSlot : Nat → Slot α DynArray
  | 0 => .plain default
  | _+1 => .array .nil

/-- `operator=(const tp2cc_Array<U, Lo, N>&)`, of the elements as values of `T`. -/
def assignFixed (s : ArrayState α) (p : Loc) (src : List α) : Option (ArrayState α) :=
  if src.length = 0 then s.assignNil p
  else do
    let block := s.heap.next
    let s := s.make (List.replicate src.length (defaultSlot 0))
    let s ← storeElements block 0 src s
    (← s.setData p (some block)).setCount p (IntType.int.reduce src.length)

/-- `p_setlength` of an array with elements of the depth. -/
def pSetlength (depth : Nat) (s : ArrayState α) (p : Loc) (newLen : Int) : Option (ArrayState α) :=
  if newLen ≤ 0 then s.assignNil p
  else do
    let block := s.heap.next
    let s := s.make (List.replicate newLen.toNat (defaultSlot depth))
    let copyCount := min (← s.readArray p).count newLen
    let s ← copyElements block p copyCount.toNat 0 s
    (← s.setData p (some block)).setCount p newLen

/-- The local variable `r` of a function starts as nil. -/
def declare (s : ArrayState α) : ArrayState α := { s with vars := s.vars ++ [.array .nil] }

/-- The function returns its last local variable, which is moved. -/
def leave (s : ArrayState α) : ArrayState α := { s with vars := s.vars.dropLast }

def pCopy (depth : Nat) (s : ArrayState α) (a : Loc) : Option (ArrayState α × DynArray) := do
  let r := Loc.var s.vars.length
  let s := s.declare
  let d ← s.readArray a
  if d.count ≤ 0 ∨ d.data = none then return (s.leave, ← s.readArray r)
  let s ← pSetlength depth s r d.count
  let block ← (← s.readArray r).data
  let s ← copyElements block a d.count.toNat 0 s
  return (s.leave, ← s.readArray r)

end ArrayState

/-- `x[i]…[j]`. -/
structure Place where
  root : Nat
  path : List Int
deriving DecidableEq

inductive ArrayStmt (α : Type)
  | store (p : Place) (v : α)
  | assign (p q : Place)
  | assignNil (depth : Nat) (p : Place)
  | assignFixed (p : Place) (src : List α)
  | setLength (depth : Nat) (p : Place) (newLen : Int)
  | copy (depth : Nat) (p q : Place)

namespace ArrayState

def locate (s : ArrayState α) : List Int → Loc → Option Loc
  | [], l => some l
  | i :: path, l => do s.locate path (← s.elementAt (← s.readArray l) i)

def place (s : ArrayState α) (p : Place) : Option Loc :=
  if p.root < s.vars.length then s.locate p.path (.var p.root) else none

/-- The right-hand side of an assignment comes first. -/
def exec [Inhabited α] (s : ArrayState α) : ArrayStmt α → Option (ArrayState α)
  | .store p v => do s.store (← s.place p) v
  | .assign p q => do
    let src ← s.place q
    s.assignSlot (← s.place p) src
  | .assignNil _ p => do s.assignNil (← s.place p)
  | .assignFixed p src => do s.assignFixed (← s.place p) src
  | .setLength depth p newLen => do pSetlength depth s (← s.place p) newLen
  | .copy depth p q => do
    let (s, d) ← pCopy depth s (← s.place q)
    s.moveAssign (← s.place p) d

def run [Inhabited α] (s : ArrayState α) (prog : List (ArrayStmt α)) : Option (ArrayState α) :=
  prog.foldlM exec s

def start [Inhabited α] (vars : List Nat) : ArrayState α := ⟨.empty, vars.map defaultSlot⟩

def finish (s : ArrayState α) : Option (SharedHeap (List (Slot α DynArray))) :=
  s.heap.releaseAll slotRefs (slotRefs s.vars)

def look (s : ArrayState α) (p : Place) : Option (Slot α Int) := do
  match ← s.read (← s.place p) with
  | .plain v => return .plain v
  | .array d => return .array d.count

end ArrayState

/-! The same programs over arrays that are objects: an array variable is nil or refers to
an object, whose length does not change and which is never freed. -/
structure ObjectState (α : Type) where
  objects : Arena (List (Slot α (Option Nat)))
  vars : List (Slot α (Option Nat))

namespace ObjectState

def read (t : ObjectState α) : Loc → Option (Slot α (Option Nat))
  | .var x => t.vars[x]?
  | .element b i => (t.objects.get? b).bind (·[i]?)

def write (t : ObjectState α) (l : Loc) (c : Slot α (Option Nat)) : ObjectState α :=
  match l with
  | .var x => { t with vars := t.vars.set x c }
  | .element b i =>
    { t with objects := t.objects.set b (((t.objects.get? b).getD []).set i c) }

def contents (t : ObjectState α) : Slot α (Option Nat) → List (Slot α (Option Nat))
  | .array (some i) => (t.objects.get? i).getD []
  | _ => []

def alloc (t : ObjectState α) (xs : List (Slot α (Option Nat))) : ObjectState α :=
  { t with objects := t.objects.push xs }

def create (t : ObjectState α) : List (Slot α (Option Nat)) → ObjectState α × Option Nat
  | [] => (t, none)
  | x :: xs => (t.alloc (x :: xs), some t.objects.next)

def elementAt (t : ObjectState α) (c : Slot α (Option Nat)) (i : Int) : Option Loc :=
  match c with
  | .array (some b) => if 0 ≤ i ∧ i < (t.contents c).length then some (.element b i.toNat) else none
  | _ => none

def locate (t : ObjectState α) : List Int → Loc → Option Loc
  | [], l => some l
  | i :: path, l => do t.locate path (← t.elementAt (← t.read l) i)

def place (t : ObjectState α) (p : Place) : Option Loc :=
  if p.root < t.vars.length then t.locate p.path (.var p.root) else none

variable [Inhabited α]

def defaultSlot : Nat → Slot α (Option Nat)
  | 0 => .plain default
  | _+1 => .array none

def resized (depth : Nat) (newLen : Int) (xs : List (Slot α (Option Nat))) :
    List (Slot α (Option Nat)) :=
  xs.take newLen.toNat ++ List.replicate (newLen.toNat-xs.length) (defaultSlot depth)

def exec (t : ObjectState α) : ArrayStmt α → Option (ObjectState α)
  | .store p v => do return t.write (← t.place p) (.plain v)
  | .assign p q => do
    let c ← t.read (← t.place q)
    return t.write (← t.place p) c
  | .assignNil _ p => do return t.write (← t.place p) (.array none)
  | .assignFixed p src => do
    let l ← t.place p
    let (t, d) := t.create (src.map .plain)
    return t.write l (.array d)
  | .setLength depth p newLen => do
    let l ← t.place p
    let (t, d) := t.create (resized depth newLen (t.contents (← t.read l)))
    return t.write l (.array d)
  | .copy _ p q => do
    let (t, d) := t.create (t.contents (← t.read (← t.place q)))
    return t.write (← t.place p) (.array d)

def run (t : ObjectState α) (prog : List (ArrayStmt α)) : Option (ObjectState α) :=
  prog.foldlM exec t

def start (vars : List Nat) : ObjectState α := ⟨.empty, vars.map defaultSlot⟩

def look (t : ObjectState α) (p : Place) : Option (Slot α Int) := do
  match ← t.read (← t.place p) with
  | .plain v => return .plain v
  | .array d => return .array (t.contents (.array d)).length

end ObjectState

/-! The types of a program. -/
section

def Place.depth (vars : List Nat) (p : Place) : Option Nat := do
  let k ← vars[p.root]?
  if p.path.length ≤ k then return k-p.path.length else none

def ArrayStmt.Typed (vars : List Nat) : ArrayStmt α → Prop
  | .store p _ => p.depth vars = some 0
  | .assign p q => (p.depth vars).isSome ∧ q.depth vars = p.depth vars
  | .assignNil depth p => p.depth vars = some (depth+1)
  | .assignFixed p src => p.depth vars = some 1 ∧ IntType.int.Holds src.length
  | .setLength depth p _ => p.depth vars = some (depth+1)
  | .copy depth p q => p.depth vars = some (depth+1) ∧ q.depth vars = some (depth+1)

end
end Tp2cc.Rt
