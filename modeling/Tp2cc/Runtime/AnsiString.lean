import Tp2cc.Machine.Arena
import Tp2cc.Machine.Buffer
import Tp2cc.Machine.Conversion
import Tp2cc.Runtime.ShortString

/-! `tp2cc_AnsiString` of the runtime: a pointer to a payload that copies of the string
share, and the operations that detach from it. `none` is what C++ leaves undefined. -/
set_option autoImplicit false

namespace Tp2cc.Rt
open Machine

/-- The header's length and the bytes behind the header, with one more than the length. -/
@[ext] structure Payload where
  len : Nat
  data : List UInt8
  len_lt : (len : Int) < IntType.int.hi
  size : data.length = len+1

namespace Payload

def zeros (len : Nat) (h : (len : Int) < IntType.int.hi) : Payload :=
  ⟨len, List.replicate (len+1) 0, h, by simp⟩

def write (p : Payload) (off : Nat) (bytes : List UInt8) : Payload :=
  { p with
    data := writeAt p.data off bytes
    size := by rw [writeAt_length, p.size] }

def content (p : Payload) : List UInt8 := p.data.take p.len

end Payload

/-- The one data member of a `tp2cc_AnsiString`. `empty` is the static array that all
empty strings share. -/
inductive DataPtr where
  | null
  | empty
  | payload (id : Nat)
  deriving DecidableEq, Repr

/-- `emptyStores` are the bytes stored so far in the one place of the static array, the
latest first. -/
structure Memory where
  payloads : Arena Payload
  emptyStores : List UInt8

namespace Memory

def start : Memory := ⟨.empty, []⟩

def emptyByte (m : Memory) : UInt8 := m.emptyStores.headD 0

def alloc (m : Memory) (p : Payload) : Memory × DataPtr :=
  ({ m with payloads := m.payloads.push p }, .payload m.payloads.next)

def bytesAt (m : Memory) : DataPtr → List UInt8
  | .null => []
  | .empty => [m.emptyByte]
  | .payload id =>
    match m.payloads.get? id with
    | some p => p.data
    | none => []

def loadBytes (m : Memory) (d : DataPtr) (off n : Nat) : Option (List UInt8) :=
  if off+n ≤ (m.bytesAt d).length then some (((m.bytesAt d).drop off).take n) else none

def storeBytes (m : Memory) (d : DataPtr) (off : Nat) (bytes : List UInt8) : Option Memory :=
  match d with
  | .null => if bytes = [] then some m else none
  | .empty =>
    if off+bytes.length ≤ 1 then
      some { m with emptyStores := bytes.reverse ++ m.emptyStores }
    else none
  | .payload id =>
    match m.payloads.get? id with
    | some p =>
      if off+bytes.length ≤ p.len+1 then
        some { m with payloads := m.payloads.set id (p.write off bytes) }
      else none
    | none => none

def move (m : Memory) (dst : DataPtr) (dstOff : Nat) (src : DataPtr) (srcOff n : Nat) :
    Option Memory := do
  let bytes ← m.loadBytes src srcOff n
  m.storeBytes dst dstOff bytes

def doIf (m : Memory) (c : Prop) [Decidable c] (act : Memory → Option Memory) : Option Memory :=
  if c then act m else some m

def load (m : Memory) (d : DataPtr) (index : Int) : Option UInt8 :=
  if 0 ≤ index then (m.bytesAt d)[index.toNat]? else none

def store (m : Memory) (d : DataPtr) (index : Int) (value : UInt8) : Option Memory :=
  if 0 ≤ index then m.storeBytes d index.toNat [value] else none

end Memory

/-- `tp2cc_ansistring_alloc_bytes`: `len + 1` must not overflow. -/
def tp2ccAnsistringAllocBytes (m : Memory) (len : Int) : Option (Memory × DataPtr) :=
  if h₀ : len ≤ 0 then some (m, .empty)
  else if h : len < IntType.int.hi then some (m.alloc (.zeros len.toNat (by omega)))
  else none

def tp2ccAnsistringAllocOwnedEmpty (m : Memory) : Memory × DataPtr :=
  m.alloc (.zeros 0 (by decide))

def tp2ccAnsistringIsEmptyBytes : DataPtr → Bool
  | .null => true
  | .empty => true
  | .payload _ => false

namespace AnsiString

def length (m : Memory) : DataPtr → Int
  | .payload id =>
    match m.payloads.get? id with
    | some p => p.len
    | none => 0
  | _ => 0

def ensureUnique (m : Memory) (data : DataPtr) : Option (Memory × DataPtr) :=
  if tp2ccAnsistringIsEmptyBytes data then some (tp2ccAnsistringAllocOwnedEmpty m)
  else do
    let len := length m data
    let (m, fresh) ← tp2ccAnsistringAllocBytes m len
    let m ← m.move fresh 0 data 0 (len+1).toNat
    return (m, fresh)

def setLength (m : Memory) (data : DataPtr) (newLen : Int) : Option (Memory × DataPtr) :=
  if newLen ≤ 0 then some (m, .empty)
  else do
    let oldLen := length m data
    let (m, fresh) ← tp2ccAnsistringAllocBytes m newLen
    let keep := if oldLen < newLen then oldLen else newLen
    let m ← m.doIf (keep > 0) fun m => m.move fresh 0 data 0 keep.toNat
    return (m, fresh)

def assignBytes (m : Memory) (src : List UInt8) : Option (Memory × DataPtr) :=
  if src = [] then some (m, .empty)
  else do
    let (m, fresh) ← tp2ccAnsistringAllocBytes m src.length
    let m ← m.storeBytes fresh 0 src
    return (m, fresh)

def assignChar (m : Memory) (data : DataPtr) (c : UInt8) : Option (Memory × DataPtr) := do
  let (m, data) ← setLength m data 1
  let m ← m.store data 0 c
  return (m, data)

def charRefAssign (m : Memory) (data : DataPtr) (index : Int) (value : UInt8) :
    Option (Memory × DataPtr) := do
  let (m, data) ← ensureUnique m data
  let m ← m.store data index value
  return (m, data)

end AnsiString

inductive StringArg where
  | ansi (data : DataPtr)
  | outside (bytes : List UInt8)
  deriving DecidableEq

def tp2ccStringLength (m : Memory) : StringArg → Int
  | .ansi d => AnsiString.length m d
  | .outside bytes => bytes.length

def copyFrom (m : Memory) (dst : DataPtr) (dstOff : Nat) (src : StringArg) (n : Nat) :
    Option Memory :=
  match src with
  | .ansi d => m.move dst dstOff d 0 n
  | .outside bytes => m.storeBytes dst dstOff (bytes.take n)

open AnsiString

def tp2ccConcatToAnsistring (m : Memory) (a b : StringArg) : Option (Memory × DataPtr) := do
  let aLen := tp2ccStringLength m a
  let bLen := tp2ccStringLength m b
  let (m, out) ← setLength m .empty (aLen+bLen)
  let m ← m.doIf (aLen > 0) fun m => copyFrom m out 0 a aLen.toNat
  let m ← m.doIf (bLen > 0) fun m => copyFrom m out aLen.toNat b bLen.toNat
  return (m, out)

/-- The start and the count are clipped as for a short string. -/
def pCopyAnsi (m : Memory) (s : DataPtr) (start count : Int) : Option (Memory × DataPtr) := do
  let (off, count) := copyRange (length m s).toNat start count
  let (m, r) ← setLength m .empty count
  let m ← m.doIf ((count : Int) > 0) fun m => m.move r 0 s off count
  return (m, r)

def pDeleteAnsi (m : Memory) (s : DataPtr) (start count : Int) : Option (Memory × DataPtr) :=
  let len := length m s
  if start < 1 ∨ start > len ∨ count ≤ 0 then some (m, s)
  else do
    let count := if count > len-(start-1) then len-(start-1) else count
    let (m, s) ← ensureUnique m s
    let m ← m.move s (start-1).toNat s (start-1+count).toNat (len-(start-1+count)+1).toNat
    setLength m s (len-count)

/-- The inserted bytes are copied when they are the bytes of `dest`. -/
def ownedSource (m : Memory) (src : StringArg) (dest : DataPtr) (srcLen : Nat) :
    Option StringArg :=
  if src = .ansi dest then (m.loadBytes dest 0 srcLen).map .outside else some src

def tp2ccInsertBytes (m : Memory) (src : StringArg) (dest : DataPtr) (pos : Int) :
    Option (Memory × DataPtr) :=
  let srcLen := tp2ccStringLength m src
  if srcLen ≤ 0 then some (m, dest)
  else do
    let ownedSrc ← ownedSource m src dest srcLen.toNat
    let oldLen := length m dest
    let pos := if pos < 1 then 1 else pos
    let pos := if pos > oldLen+1 then oldLen+1 else pos
    let (m, dest) ← setLength m dest (oldLen+srcLen)
    let m ← m.move dest (pos-1+srcLen).toNat dest (pos-1).toNat (oldLen-(pos-1)).toNat
    let m ← copyFrom m dest (pos-1).toNat ownedSrc srcLen.toNat
    return (m, dest)

/-- What a `p_char*` argument of `SetString` points to: bytes that no string holds, or
bytes of a payload. -/
inductive CharSource where
  | outside (bytes : List UInt8)
  | within (data : DataPtr) (off : Nat)

def CharSource.load (m : Memory) (count : Nat) : CharSource → Option (List UInt8)
  | .outside bytes => if count ≤ bytes.length then some (bytes.take count) else none
  | .within data off => m.loadBytes data off count

/-- `tp2cc_set_ansistring_from_counted_chars`, with no source for a null pointer. -/
def tp2ccSetAnsistringFromCountedChars (m : Memory) (dest : DataPtr) (src : Option CharSource)
    (len : Int) : Option (Memory × DataPtr) :=
  match src with
  | none => setLength m dest 0
  | some src =>
    let count := if len > 0 then len else 0
    do
      let (m, dest) ← setLength m dest count
      if count > 0 then do
        let (m, dest) ← ensureUnique m dest
        let m ← m.storeBytes dest 0 (← src.load m count.toNat)
        return (m, dest)
      else return (m, dest)

/-- `for (i = 1; i <= r.length(); ++i) r[i] = f(r[i]);` from the zero-based place `i` on,
for at most `n` characters. -/
def mapCharsFrom (f : UInt8 → UInt8) (m : Memory) (r : DataPtr) (i : Nat) :
    Nat → Option (Memory × DataPtr)
  | 0 => if (i : Int) < length m r then none else some (m, r)
  | n+1 =>
    if (i : Int) < length m r then do
      let c ← m.load r i
      let (m, r) ← charRefAssign m r i (f c)
      mapCharsFrom f m r (i+1) n
    else some (m, r)

def mapChars (f : UInt8 → UInt8) (m : Memory) (s : DataPtr) : Option (Memory × DataPtr) :=
  mapCharsFrom f m s 0 (length m s).toNat

def upcaseChar (b : UInt8) : UInt8 := if 97 ≤ b ∧ b ≤ 122 then b-32 else b
def lowercaseChar (b : UInt8) : UInt8 := if 65 ≤ b ∧ b ≤ 90 then b+32 else b

def pUpcaseAnsi (m : Memory) (s : DataPtr) : Option (Memory × DataPtr) := mapChars upcaseChar m s
def pLowercaseAnsi (m : Memory) (s : DataPtr) : Option (Memory × DataPtr) :=
  mapChars lowercaseChar m s

namespace Payload

theorem write_data (p : Payload) (off : Nat) (bytes : List UInt8) :
    (p.write off bytes).data = writeAt p.data off bytes := rfl

def ofBytes (len : Nat) (h : (len : Int) < IntType.int.hi) (b : List UInt8) : Payload :=
  (zeros len h).write 0 b

theorem ofBytes_data {len : Nat} (h : (len : Int) < IntType.int.hi) {b : List UInt8}
    (hb : b.length ≤ len+1) :
    (ofBytes len h b).data = b ++ List.replicate (len+1-b.length) 0 := by
  have hsize : 0+b.length ≤ (zeros len h).data.length := by
    rw [(zeros len h).size, Nat.zero_add]
    exact hb
  rw [ofBytes, write_data, writeAt_eq hsize]
  simp [zeros]

theorem ofBytes_content {len : Nat} (h : (len : Int) < IntType.int.hi) {b : List UInt8}
    (hb : b.length = len) : (ofBytes len h b).content = b := by
  rw [content, ofBytes_data h (by omega)]
  exact List.take_left' hb

theorem content_length (p : Payload) : p.content.length = p.len := by
  rw [content, List.length_take, p.size]
  omega

end Payload

namespace Memory
variable {m m' m'' : Memory} {d : DataPtr}

def Extends (m m' : Memory) : Prop :=
  m.payloads.Extends m'.payloads ∧ m.emptyStores <:+ m'.emptyStores

theorem Extends.refl (m : Memory) : m.Extends m := ⟨.refl _, List.suffix_refl _⟩

theorem Extends.trans (h : m.Extends m') (k : m'.Extends m'') : m.Extends m'' :=
  ⟨h.1.trans k.1, h.2.trans k.2⟩

theorem extends_alloc (m : Memory) (p : Payload) : m.Extends (m.alloc p).1 :=
  ⟨Arena.extends_push _ _, List.suffix_refl _⟩

@[simp] theorem alloc_emptyStores (m : Memory) (p : Payload) :
    (m.alloc p).1.emptyStores = m.emptyStores := rfl

def Valid (m : Memory) : DataPtr → Prop
  | .payload id => id < m.payloads.next
  | _ => True

def content (m : Memory) : DataPtr → List UInt8
  | .payload id =>
    match m.payloads.get? id with
    | some p => p.content
    | none => []
  | _ => []

theorem Valid.mono (hd : m.Valid d) (h : m.Extends m') : m'.Valid d := by
  cases d with
  | null => trivial
  | empty => trivial
  | payload id => exact lt_of_lt_of_le hd h.1.next_le

theorem Extends.content (h : m.Extends m') (hd : m.Valid d) : m'.content d = m.content d := by
  cases d with
  | null => rfl
  | empty => rfl
  | payload id => simp only [Memory.content, h.1.get? hd]

theorem Extends.bytesAt (h : m.Extends m') {id : Nat} (hd : m.Valid (.payload id)) :
    m'.bytesAt (.payload id) = m.bytesAt (.payload id) := by
  simp only [Memory.bytesAt, h.1.get? hd]

theorem valid_alloc (m : Memory) (p : Payload) : (m.alloc p).1.Valid (m.alloc p).2 := by
  simp [Valid, alloc]

@[simp] theorem content_alloc (m : Memory) (p : Payload) :
    (m.alloc p).1.content (m.alloc p).2 = p.content := by
  simp [content, alloc]

@[simp] theorem bytesAt_alloc (m : Memory) (p : Payload) :
    (m.alloc p).1.bytesAt (m.alloc p).2 = p.data := by
  simp [bytesAt, alloc]

theorem storeBytes_alloc (m : Memory) (p : Payload) (off : Nat) (bytes : List UInt8)
    (h : off+bytes.length ≤ p.len+1) :
    (m.alloc p).1.storeBytes (m.alloc p).2 off bytes = some (m.alloc (p.write off bytes)).1 := by
  simp [storeBytes, alloc, h]

theorem alloc_snd (m : Memory) (p q : Payload) : (m.alloc p).2 = (m.alloc q).2 := rfl

theorem content_eq_take (d : DataPtr) :
    m.content d = (m.bytesAt d).take (m.content d).length := by
  cases d with
  | null => rfl
  | empty => rfl
  | payload id =>
    cases h : m.payloads.get? id with
    | none => simp [content, bytesAt, h]
    | some p => simp [content, bytesAt, h, Payload.content, p.size]

theorem content_length_le (d : DataPtr) : (m.content d).length ≤ (m.bytesAt d).length := by
  rw [content_eq_take]
  exact List.length_take_le' ..

theorem content_length_lt (m : Memory) (d : DataPtr) :
    ((m.content d).length : Int) < IntType.int.hi := by
  have hnil : ((([] : List UInt8).length : Nat) : Int) < IntType.int.hi := by decide
  cases d with
  | null => exact hnil
  | empty => exact hnil
  | payload id =>
    cases h : m.payloads.get? id with
    | none => simpa only [content, h] using hnil
    | some p =>
      simp only [content, h, p.content_length]
      exact p.len_lt

theorem loadBytes_content {off n : Nat} (h : off+n ≤ (m.content d).length) :
    m.loadBytes d off n = some (((m.content d).drop off).take n) := by
  have hle := m.content_length_le d
  rw [loadBytes, if_pos (by omega), content_eq_take, List.drop_take, List.take_take,
    Nat.min_eq_left (by omega)]

theorem length_eq (m : Memory) (d : DataPtr) : AnsiString.length m d = (m.content d).length := by
  cases d with
  | null => rfl
  | empty => rfl
  | payload id =>
    cases h : m.payloads.get? id with
    | none => simp [content, AnsiString.length, h]
    | some p => simp [content, AnsiString.length, h, p.content_length]

theorem storeBytes_payload {id : Nat} {p : Payload} (h : m.payloads.get? id = some p) {off : Nat}
    {bytes : List UInt8} (hoff : off+bytes.length ≤ p.len+1) :
    m.storeBytes (.payload id) off bytes =
      some { m with payloads := m.payloads.set id (p.write off bytes) } := by
  simp [storeBytes, h, hoff]

theorem doIf_eq {c : Prop} [Decidable c] {act : Memory → Option Memory}
    (h₁ : c → act m = some m') (h₀ : ¬c → m = m') : m.doIf c act = some m' := by
  unfold doIf
  split
  · rename_i hc
    exact h₁ hc
  · rename_i hc
    rw [h₀ hc]

/-- Bytes of a string reach a fresh payload as they were before it was allocated. -/
theorem move_alloc (hd : m.Valid d) (p : Payload) (off : Nat) {srcOff n : Nat}
    (hn : srcOff+n ≤ (m.content d).length) (hoff : off+n ≤ p.len+1) :
    (m.alloc p).1.move (m.alloc p).2 off d srcOff n =
      some (m.alloc (p.write off (((m.content d).drop srcOff).take n))).1 := by
  have hc := (m.extends_alloc p).content hd
  have hlen : (((m.content d).drop srcOff).take n).length = n := by
    rw [List.length_take, List.length_drop]
    omega
  rw [move, loadBytes_content (by rw [hc]; exact hn), hc]
  exact storeBytes_alloc m p off _ (by rw [hlen]; exact hoff)

end Memory

/-- The operation returns a data pointer to a string of content `b`, and has left all
payloads alone that there were. It stores nothing in the static array exactly when `clean`. -/
def Yields (m : Memory) (r : Option (Memory × DataPtr)) (b : List UInt8) (clean : Prop) : Prop :=
  ∃ m' d, r = some (m', d) ∧ m.Extends m' ∧ m'.Valid d ∧ m'.content d = b ∧
    (m'.emptyStores = m.emptyStores ↔ clean)

def OwnedEmpty (m : Memory) (d : DataPtr) : Prop :=
  tp2ccAnsistringIsEmptyBytes d = false ∧ AnsiString.length m d = 0

section
variable {m : Memory} {d : DataPtr}

theorem yields_alloc (m : Memory) (p : Payload) : Yields m (some (m.alloc p)) p.content True :=
  ⟨_, _, rfl, m.extends_alloc p, m.valid_alloc p, m.content_alloc p, by simp⟩

theorem yields_empty (m : Memory) : Yields m (some (m, .empty)) [] True :=
  ⟨_, _, rfl, .refl m, trivial, rfl, by simp⟩

theorem yields_self (hd : m.Valid d) : Yields m (some (m, d)) (m.content d) True :=
  ⟨_, _, rfl, .refl m, hd, rfl, by simp⟩

theorem toNat_fits {n : Int} (h₀ : 0 < n) (h : n < IntType.int.hi) :
    (n.toNat : Int) < IntType.int.hi := by
  rwa [Int.toNat_of_nonneg h₀.le]

theorem allocBytes_eq {len : Int} (h₀ : 0 < len) (h : len < IntType.int.hi) :
    tp2ccAnsistringAllocBytes m len = some (m.alloc (.zeros len.toNat (toNat_fits h₀ h))) := by
  rw [tp2ccAnsistringAllocBytes, dif_neg (by omega), dif_pos h]

theorem setLength_eq (hd : m.Valid d) {n : Int} (h₀ : 0 < n) (h : n < IntType.int.hi) :
    AnsiString.setLength m d n =
      some (m.alloc (.ofBytes n.toNat (toNat_fits h₀ h) ((m.content d).take n.toNat))) := by
  have hkeep : (if AnsiString.length m d < n then AnsiString.length m d else n) =
      ((m.content d).take n.toNat).length := by
    rw [Memory.length_eq, List.length_take]
    split <;> omega
  have hle : ((m.content d).take n.toNat).length ≤ n.toNat := List.length_take_le ..
  have htake : ((m.content d).drop 0).take ((m.content d).take n.toNat).length =
      (m.content d).take n.toNat := by
    rw [List.drop_zero, List.length_take, ← List.take_eq_take_min]
  have hcopy : (m.alloc (.zeros n.toNat (toNat_fits h₀ h))).1.doIf
      ((((m.content d).take n.toNat).length : Int) > 0)
      (fun m' => m'.move (m.alloc (.zeros n.toNat (toNat_fits h₀ h))).2 0 d 0
        ((m.content d).take n.toNat).length) =
      some (m.alloc (.ofBytes n.toNat (toNat_fits h₀ h) ((m.content d).take n.toNat))).1 := by
    apply Memory.doIf_eq
    · intro _
      rw [Memory.move_alloc hd _ 0 (by rw [List.length_take]; omega)
        (by simp only [Payload.zeros]; omega), htake]
      rfl
    · intro hpos
      rw [List.length_eq_zero_iff.mp (by omega : ((m.content d).take n.toNat).length = 0)]
      rfl
  rw [AnsiString.setLength, if_neg (by omega), allocBytes_eq h₀ h]
  simp only [Option.bind_eq_bind, Option.bind_some, hkeep, Int.toNat_natCast, hcopy]
  rfl

theorem setLength_of_nonpos {n : Int} (h : n ≤ 0) :
    AnsiString.setLength m d n = some (m, .empty) := if_pos h

theorem setLength_yields (hd : m.Valid d) {n : Int} (h : n < IntType.int.hi) :
    Yields m (AnsiString.setLength m d n) (setLengthBytes (m.content d) n) True := by
  by_cases h₀ : 0 < n
  · have hle : ((m.content d).take n.toNat).length ≤ n.toNat := List.length_take_le ..
    have hcontent : (Payload.ofBytes n.toNat (toNat_fits h₀ h) ((m.content d).take n.toNat)).content =
        setLengthBytes (m.content d) n := by
      rw [Payload.content, Payload.ofBytes_data _ (by omega), setLengthBytes,
        List.take_append, List.take_take, List.take_replicate, Payload.ofBytes]
      simp only [Payload.write, Payload.zeros, Nat.min_self, List.length_take]
      congr 2
      omega
    rw [setLength_eq hd h₀ h, ← hcontent]
    exact yields_alloc m _
  · have hnil : setLengthBytes (m.content d) n = [] := by
      simp only [setLengthBytes, show n.toNat = 0 by omega]
      simp
    rw [setLength_of_nonpos (by omega), hnil]
    exact yields_empty m

theorem assignBytes_eq {src : List UInt8} (h₀ : src ≠ []) (h : (src.length : Int) < IntType.int.hi) :
    AnsiString.assignBytes m src = some (m.alloc (.ofBytes src.length h src)) := by
  have hpos : 0 < src.length := List.length_pos_iff.mpr h₀
  rw [AnsiString.assignBytes, if_neg h₀, allocBytes_eq (by omega) h]
  simp only [Option.bind_eq_bind, Option.bind_some, Int.toNat_natCast]
  rw [Memory.storeBytes_alloc m _ _ _ (by simp only [Payload.zeros]; omega)]
  rfl

theorem assignBytes_yields {src : List UInt8} (h : (src.length : Int) < IntType.int.hi) :
    Yields m (AnsiString.assignBytes m src) src True := by
  by_cases h₀ : src = []
  · rw [AnsiString.assignBytes, if_pos h₀, h₀]
    exact yields_empty m
  · have hyields := yields_alloc m (.ofBytes src.length h src)
    rwa [Payload.ofBytes_content h rfl, ← assignBytes_eq h₀ h] at hyields

theorem store_alloc (m : Memory) {p : Payload} {i : Int} (h₀ : 0 ≤ i) (h : i ≤ p.len)
    (c : UInt8) : (m.alloc p).1.store (m.alloc p).2 i c =
      some (m.alloc (p.write i.toNat [c])).1 := by
  rw [Memory.store, if_pos h₀]
  exact Memory.storeBytes_alloc m _ _ _ (by simp only [List.length_singleton]; omega)

theorem Payload.write_singleton_content (p : Payload) (i : Nat) (c : UInt8) :
    (p.write i [c]).content = p.content.set i c := by
  simp only [content, write, writeAt, List.take_set]

theorem assignChar_yields (hd : m.Valid d) (c : UInt8) :
    Yields m (AnsiString.assignChar m d c) [c] True := by
  have hlen : (1 : Int) < IntType.int.hi := by decide
  rw [AnsiString.assignChar, setLength_eq hd (by decide) hlen]
  generalize hq : Payload.ofBytes (1 : Int).toNat _ _ = q
  have hone : q.content.length = 1 := by
    rw [q.content_length, ← hq]
    rfl
  simp only [Option.bind_eq_bind, Option.bind_some]
  rw [store_alloc m (le_refl 0) (by omega)]
  have hset : q.content.set 0 c = [c] := by
    obtain ⟨x, hx⟩ := List.length_eq_one_iff.mp hone
    rw [hx]
    rfl
  have hyields := yields_alloc m (q.write 0 [c])
  rwa [q.write_singleton_content 0 c, hset] at hyields

theorem ensureUnique_of_empty (h : tp2ccAnsistringIsEmptyBytes d = true) :
    AnsiString.ensureUnique m d = some (m.alloc (.zeros 0 (by decide))) := if_pos h

theorem content_of_empty (h : tp2ccAnsistringIsEmptyBytes d = true) : m.content d = [] := by
  cases d with
  | null => rfl
  | empty => rfl
  | payload id => contradiction

theorem ensureUnique_of_pos {id : Nat} {p : Payload} (h : m.payloads.get? id = some p)
    (hp : 0 < p.len) : AnsiString.ensureUnique m (.payload id) = some (m.alloc p) := by
  have hlen : AnsiString.length m (.payload id) = p.len := by simp [AnsiString.length, h]
  have hbytes : (m.alloc (.zeros p.len p.len_lt)).1.bytesAt (.payload id) = p.data := by
    rw [(m.extends_alloc _).bytesAt (Arena.lt_next_of_get? h), Memory.bytesAt, h]
  have hload : (m.alloc (.zeros p.len p.len_lt)).1.loadBytes (.payload id) 0 (p.len+1) =
      some p.data := by
    rw [Memory.loadBytes, hbytes, if_pos (by rw [p.size]; omega), List.drop_zero, ← p.size,
      List.take_length]
  have hwrite : (Payload.zeros p.len p.len_lt).write 0 p.data = p := by
    apply Payload.ext
    · rfl
    · have hdata := Payload.ofBytes_data p.len_lt (b := p.data) (by rw [p.size])
      rwa [p.size, Nat.sub_self, List.replicate_zero, List.append_nil] at hdata
  have hcast : ((p.len : Int)+1).toNat = p.len+1 := by omega
  have halloc := allocBytes_eq (m := m) (by omega : (0 : Int) < p.len) p.len_lt
  simp only [AnsiString.ensureUnique, hlen, halloc, tp2ccAnsistringIsEmptyBytes,
    Bool.false_eq_true, if_false, Option.bind_eq_bind, Option.bind_some, Int.toNat_natCast,
    Memory.move, hcast, hload]
  rw [Memory.storeBytes_alloc m _ _ _ (by simp [Payload.zeros, p.size]), hwrite]
  rfl

theorem ensureUnique_of_owned {id : Nat} {p : Payload} (h : m.payloads.get? id = some p)
    (hp : p.len = 0) : AnsiString.ensureUnique m (.payload id) =
      some ({ m with emptyStores := p.data.reverse ++ m.emptyStores }, .empty) := by
  have hlen : AnsiString.length m (.payload id) = 0 := by simp [AnsiString.length, h, hp]
  have hsize : p.data.length = 1 := by rw [p.size, hp]
  have hload : m.loadBytes (.payload id) 0 1 = some p.data := by
    have htake : p.data.take 1 = p.data := List.take_of_length_le hsize.le
    simp [Memory.loadBytes, Memory.bytesAt, h, hsize, htake]
  have halloc : tp2ccAnsistringAllocBytes m 0 = some (m, .empty) := rfl
  simp [AnsiString.ensureUnique, hlen, halloc, tp2ccAnsistringIsEmptyBytes, Memory.move, hload,
    Memory.storeBytes, hsize]

/-- Detaching copies the payload, but stores in the static array when the payload is an
empty one that the string does not share. -/
theorem ensureUnique_cases (hd : m.Valid d) :
    (¬OwnedEmpty m d ∧ ∃ p, AnsiString.ensureUnique m d = some (m.alloc p) ∧
      p.content = m.content d) ∨
    (OwnedEmpty m d ∧ m.content d = [] ∧ ∃ c, AnsiString.ensureUnique m d =
      some ({ m with emptyStores := c :: m.emptyStores }, .empty)) := by
  cases he : tp2ccAnsistringIsEmptyBytes d with
  | true =>
    refine .inl ⟨fun h => by simp [OwnedEmpty, he] at h, _, ensureUnique_of_empty he, ?_⟩
    rw [content_of_empty he]
    rfl
  | false =>
    cases d with
    | null => contradiction
    | empty => contradiction
    | payload id =>
      obtain ⟨p, hp⟩ := Arena.exists_get? hd
      have hcontent : m.content (.payload id) = p.content := by simp [Memory.content, hp]
      have hown : OwnedEmpty m (.payload id) ↔ p.len = 0 := by
        simp [OwnedEmpty, he, AnsiString.length, hp]
      by_cases hlen : p.len = 0
      · obtain ⟨c, hc⟩ := List.length_eq_one_iff.mp (show p.data.length = 1 by rw [p.size, hlen])
        refine .inr ⟨hown.mpr hlen, ?_, c, ?_⟩
        · rw [hcontent, Payload.content, hlen, List.take_zero]
        · rw [ensureUnique_of_owned hp hlen, hc]
          rfl
      · exact .inl ⟨mt hown.mp hlen, p, ensureUnique_of_pos hp (by omega), hcontent.symm⟩

end

end Tp2cc.Rt
