import Tp2cc.Runtime.ShortString

/-! Programs over short string variables of any capacities, and the byte lists
their strings stand for. -/
set_option autoImplicit false

namespace Tp2cc.Rt
open Machine ShortString

inductive StringType where
  | short (n : Capacity)
  | ansi

def StringType.Value : StringType → Type
  | .short n => ShortString n
  | .ansi => List UInt8

/-- What `tp2cc_string_bytes` and `tp2cc_string_length` read. -/
def StringType.bytes : (t : StringType) → t.Value → List UInt8
  | .short _, s => ShortString.content s
  | .ansi, s => s

/-- A reference to a string of capacity `n`, used with a capacity of its own that the
storage it points to has room for. -/
structure Reference (n : Capacity) where
  limit : Capacity
  le : limit.val ≤ n.val

variable {ι : Type}

/-- Expressions over the short string variables `ι`, typed by the result of the C++
overload that each operand kind selects. -/
inductive StringExpr (cap : ι → Capacity) : StringType → Type
  | var (x : ι) : StringExpr cap (.short (cap x))
  | deref (x : ι) (r : Reference (cap x)) : StringExpr cap (.short r.limit)
  | ofCStr (n : Capacity) (s : Option (List UInt8)) : StringExpr cap (.short n)
  | ofChar (n : Capacity) (c : UInt8) : StringExpr cap (.short n)
  | ofShort (n : Capacity) {m : Capacity} (e : StringExpr cap (.short m)) :
      StringExpr cap (.short n)
  | ofAnsi (n : Capacity) (e : StringExpr cap .ansi) : StringExpr cap (.short n)
  | add {n m : Capacity} (a : StringExpr cap (.short n)) (b : StringExpr cap (.short m)) :
      StringExpr cap (.short (n.sum m))
  | addCStr {n : Capacity} (a : StringExpr cap (.short n)) (s : Option (List UInt8)) :
      StringExpr cap (.short n)
  | cStrAdd {n : Capacity} (s : Option (List UInt8)) (b : StringExpr cap (.short n)) :
      StringExpr cap (.short n)
  | addChar {n : Capacity} (a : StringExpr cap (.short n)) (c : UInt8) :
      StringExpr cap (.short (n.sum .full))
  | charAdd {n : Capacity} (c : UInt8) (b : StringExpr cap (.short n)) :
      StringExpr cap (.short (Capacity.full.sum n))
  | charAddChar (a b : UInt8) : StringExpr cap (.short .full)
  | copy {n : Capacity} (e : StringExpr cap (.short n)) (start count : Int) :
      StringExpr cap (.short .full)
  | ansiValue (s : List UInt8) : StringExpr cap .ansi
  | ansiOf {n : Capacity} (e : StringExpr cap (.short n)) : StringExpr cap .ansi
  | concatAnsi {t u : StringType} (a : StringExpr cap t) (b : StringExpr cap u) :
      StringExpr cap .ansi

variable {cap : ι → Capacity}

def StringExpr.eval (σ : (x : ι) → ShortString (cap x)) :
    {t : StringType} → StringExpr cap t → t.Value
  | _, .var x => σ x
  | _, .deref x r => derefValue r.limit (σ x)
  | _, .ofCStr n s => tp2ccShortstringOfCStr n s
  | _, .ofChar n c => tp2ccShortstringOfChar n c
  | _, .ofShort n e => tp2ccShortstringOf n (e.eval σ)
  | _, .ofAnsi n e => ansiToShortString n (e.eval σ)
  | _, .add a b => shortStringAdd (a.eval σ) (b.eval σ)
  | _, .addCStr a s => shortStringAddCStr (a.eval σ) s
  | _, .cStrAdd s b => cStrAddShortString s (b.eval σ)
  | _, .addChar a c => shortStringAddChar (a.eval σ) c
  | _, .charAdd c b => charAddShortString c (b.eval σ)
  | _, .charAddChar a b => charConstAdd a b
  | _, .copy e start count => pCopy (e.eval σ) start count
  | _, .ansiValue s => s
  | _, .ansiOf e => ShortString.content (e.eval σ)
  | _, @concatAnsi _ _ t u a b => t.bytes (a.eval σ) ++ u.bytes (b.eval σ)

/-- The capacity that the result of a short string expression should have. -/
def StringExpr.resultCapacity : {t : StringType} → StringExpr cap t → Nat
  | _, .var x => (cap x).val
  | _, .deref _ r => r.limit.val
  | _, .ofCStr n _ => n.val
  | _, .ofChar n _ => n.val
  | _, .ofShort n _ => n.val
  | _, .ofAnsi n _ => n.val
  | _, .add a b => min 255 (a.resultCapacity+b.resultCapacity)
  | _, .addCStr _ _ => 255
  | _, .cStrAdd _ _ => 255
  | _, .addChar a _ => min 255 (a.resultCapacity+1)
  | _, .charAdd _ b => min 255 (1+b.resultCapacity)
  | _, .charAddChar _ _ => 2
  | _, .copy _ _ _ => 255
  | _, _ => 255

/-- The same expression on byte lists: each result is cut on the right to its capacity. -/
def StringExpr.meaning (ρ : ι → List UInt8) :
    {t : StringType} → StringExpr cap t → List UInt8
  | _, .var x => ρ x
  | _, .deref x r => (ρ x).take r.limit.val
  | _, .ofCStr n s => (cString s).take n.val
  | _, .ofChar n c => [c].take n.val
  | _, .ofShort n e => (e.meaning ρ).take n.val
  | _, .ofAnsi n e => (e.meaning ρ).take n.val
  | _, .add a b => (a.meaning ρ ++ b.meaning ρ).take (min 255 (a.resultCapacity+b.resultCapacity))
  | _, .addCStr a s => (a.meaning ρ ++ cString s).take 255
  | _, .cStrAdd s b => (cString s ++ b.meaning ρ).take 255
  | _, .addChar a c => (a.meaning ρ ++ [c]).take (min 255 (a.resultCapacity+1))
  | _, .charAdd c b => (c :: b.meaning ρ).take (min 255 (1+b.resultCapacity))
  | _, .charAddChar a b => [a, b].take 2
  | _, .copy e start count => (copyBytes (e.meaning ρ) start count).take 255
  | _, .ansiValue s => s
  | _, .ansiOf e => e.meaning ρ
  | _, .concatAnsi a b => a.meaning ρ ++ b.meaning ρ

/-- No concatenation with a C string has more characters than the capacity of its
short string operand, unless that capacity is the greatest. -/
def StringExpr.Lossless (ρ : ι → List UInt8) : {t : StringType} → StringExpr cap t → Prop
  | _, .ofShort _ e => e.Lossless ρ
  | _, .ofAnsi _ e => e.Lossless ρ
  | _, .add a b => a.Lossless ρ ∧ b.Lossless ρ
  | _, @addCStr _ _ n a s =>
    a.Lossless ρ ∧ (n.val = 255 ∨ (a.meaning ρ).length+(cString s).length ≤ n.val)
  | _, @cStrAdd _ _ n s b =>
    b.Lossless ρ ∧ (n.val = 255 ∨ (cString s).length+(b.meaning ρ).length ≤ n.val)
  | _, .addChar a _ => a.Lossless ρ
  | _, .charAdd _ b => b.Lossless ρ
  | _, .copy e _ _ => e.Lossless ρ
  | _, .ansiOf e => e.Lossless ρ
  | _, .concatAnsi a b => a.Lossless ρ ∧ b.Lossless ρ
  | _, _ => True

/-- One operation on the variables. `assignThrough`, `setLength`, `deleteThrough` and
`setString` reach the variable through a reference, which may be to the whole of it. -/
inductive StringStmt (cap : ι → Capacity)
  | assign (x : ι) (e : StringExpr cap (.short (cap x)))
  | assignChar (x : ι) (c : UInt8)
  | assignThrough (x : ι) (r : Reference (cap x)) {t : StringType} (e : StringExpr cap t)
  | setLength (x : ι) (r : Reference (cap x)) (newLen : Int)
  | delete (x : ι) (start count : Int)
  | deleteThrough (x : ι) (r : Reference (cap x)) (start count : Int)
  | setStringNull (x : ι) (r : Reference (cap x)) (len : Int)
  | setString (x : ι) (r : Reference (cap x)) (src : List UInt8) (len : Int)
      (readable : len ≤ src.length)

def StringStmt.target : StringStmt cap → ι
  | .assign x _ | .assignChar x _ | .assignThrough x _ _ | .setLength x _ _ | .delete x _ _
  | .deleteThrough x _ _ _ | .setStringNull x _ _ | .setString x _ _ _ _ => x

def StringStmt.result (σ : (x : ι) → ShortString (cap x)) :
    (stmt : StringStmt cap) → ShortString (cap stmt.target)
  | .assign _ e => e.eval σ
  | .assignChar x c => Rt.assignChar (σ x) c
  | @assignThrough _ _ x r t e => assignWithin r.limit (σ x) (t.bytes (e.eval σ))
  | .setLength x r newLen => setLengthWithin r.limit (σ x) newLen
  | .delete x start count => pDelete (σ x) start count
  | .deleteThrough x r start count => deleteWithin r.limit (σ x) start count
  | .setStringNull x r len => setFromCountedChars r.limit (σ x) none len
  | .setString x r src len _ => setFromCountedChars r.limit (σ x) (some src) len

def StringStmt.meaning (ρ : ι → List UInt8) : StringStmt cap → List UInt8
  | .assign x e => (e.meaning ρ).take (cap x).val
  | .assignChar _ c => [c]
  | .assignThrough _ r e => (e.meaning ρ).take r.limit.val
  | .setLength x r newLen => (setLengthBytes (ρ x) newLen).take r.limit.val
  | .delete x start count => deleteBytes (ρ x) start count
  | .deleteThrough x r start count =>
    (deleteBytes ((ρ x).take r.limit.val) start count).take r.limit.val
  | .setStringNull _ _ _ => []
  | .setString _ r src len _ => (src.take len.toNat).take r.limit.val

def StringStmt.Lossless (ρ : ι → List UInt8) : StringStmt cap → Prop
  | .assign _ e => e.Lossless ρ
  | .assignThrough _ _ e => e.Lossless ρ
  | _ => True

section
variable [DecidableEq ι]

def StringStmt.exec (σ : (x : ι) → ShortString (cap x)) (stmt : StringStmt cap) :
    (x : ι) → ShortString (cap x) :=
  Function.update σ stmt.target (stmt.result σ)

def StringStmt.execBytes (ρ : ι → List UInt8) (stmt : StringStmt cap) : ι → List UInt8 :=
  Function.update ρ stmt.target (stmt.meaning ρ)

def runStrings (σ : (x : ι) → ShortString (cap x)) (stmts : List (StringStmt cap)) :
    (x : ι) → ShortString (cap x) :=
  stmts.foldl StringStmt.exec σ

def runBytes (ρ : ι → List UInt8) (stmts : List (StringStmt cap)) : ι → List UInt8 :=
  stmts.foldl StringStmt.execBytes ρ

def LosslessRun (ρ : ι → List UInt8) : List (StringStmt cap) → Prop
  | [] => True
  | stmt :: stmts => stmt.Lossless ρ ∧ LosslessRun (stmt.execBytes ρ) stmts

end

def StringType.Represents : (t : StringType) → t.Value → List UInt8 → Prop
  | .short _, s, b => ShortString.Represents s b
  | .ansi, s, b => s = b

theorem StringType.Represents.bytes {t : StringType} {v : t.Value} {b : List UInt8}
    (h : t.Represents v b) : t.bytes v = b := by
  cases t with
  | short n => exact h.content
  | ansi => exact h

theorem StringExpr.meaning_length_le {ρ : ι → List UInt8} (hρ : ∀ x, (ρ x).length ≤ (cap x).val)
    {n : Capacity} (e : StringExpr cap (.short n)) :
    (e.meaning ρ).length ≤ e.resultCapacity := by
  cases e with
  | var x => exact hρ x
  | deref x r => exact List.length_take_le ..
  | ofCStr n s => exact List.length_take_le ..
  | ofChar n c => exact List.length_take_le ..
  | ofShort n e => exact List.length_take_le ..
  | ofAnsi n e => exact List.length_take_le ..
  | add a b => exact List.length_take_le ..
  | addCStr a s => exact List.length_take_le ..
  | cStrAdd s b => exact List.length_take_le ..
  | addChar a c => exact List.length_take_le ..
  | charAdd c b => exact List.length_take_le ..
  | charAddChar a b => exact List.length_take_le ..
  | copy e start count => exact List.length_take_le ..

theorem ShortString.Represents.retake {n : Capacity} {s : ShortString n} {b : List UInt8}
    {i j : Nat} (h : s.Represents (b.take i)) (hij : min i b.length = min j b.length) :
    s.Represents (b.take j) := by
  rwa [List.take_eq_take_iff.mpr hij] at h

theorem StringExpr.eval_represents {σ : (x : ι) → ShortString (cap x)} {ρ : ι → List UInt8}
    (hσ : ∀ x, (σ x).Represents (ρ x)) {t : StringType} (e : StringExpr cap t)
    (h : e.Lossless ρ) : t.Represents (e.eval σ) (e.meaning ρ) := by
  have hρ : ∀ x, (ρ x).length ≤ (cap x).val := fun x => (hσ x).le
  induction e with
  | var x => exact hσ x
  | deref x r => exact derefValue_represents r.limit (hσ x)
  | ofCStr n s => exact tp2ccShortstringOfCStr_represents n s
  | ofChar n c =>
    have hc : [c].take n.val = [c] := List.take_of_length_le n.pos
    rw [StringExpr.meaning, hc]
    exact tp2ccShortstringOfChar_represents n c
  | ofShort n e ih => exact tp2ccShortstringOf_represents n (ih h)
  | ofAnsi n e ih =>
    have he : e.eval σ = e.meaning ρ := ih h
    rw [StringExpr.eval, he]
    exact ansiToShortString_represents n _
  | @add n m a b iha ihb =>
    have ha : ShortString.Represents _ _ := iha h.1
    have hb : ShortString.Represents _ _ := ihb h.2
    have hac := a.meaning_length_le hρ
    have hbc := b.meaning_length_le hρ
    have hal := ha.le
    have hbl := hb.le
    apply (shortStringAdd_represents ha hb).retake
    rw [Capacity.sum_val, List.length_append]
    omega
  | @addCStr n a s ih =>
    have ha : ShortString.Represents _ _ := ih h.1
    have hn := n.le
    have hroom := h.2
    apply (shortStringAddCStr_represents ha s).retake
    rw [List.length_append]
    omega
  | @cStrAdd n s b ih =>
    have hb : ShortString.Represents _ _ := ih h.1
    have hn := n.le
    have hroom := h.2
    apply (cStrAddShortString_represents s hb).retake
    rw [List.length_append]
    omega
  | @addChar n a c ih =>
    have ha : ShortString.Represents _ _ := ih h
    have hac := a.meaning_length_le hρ
    apply (shortStringAddChar_represents c ha).retake
    rw [List.length_append, List.length_singleton]
    omega
  | @charAdd n c b ih =>
    have hb : ShortString.Represents _ _ := ih h
    have hbc := b.meaning_length_le hρ
    apply (charAddShortString_represents c hb).retake
    rw [List.length_cons]
    omega
  | charAddChar a b => exact charConstAdd_represents a b
  | @copy n e start count ih =>
    have he : ShortString.Represents _ _ := ih h
    have hle : (copyBytes (e.meaning ρ) start count).length ≤ 255 :=
      (pCopy_represents he start count).le
    rw [StringExpr.meaning, List.take_of_length_le hle]
    exact pCopy_represents he start count
  | ansiValue s => rfl
  | ansiOf e ih => exact (ih h).content
  | concatAnsi a b iha ihb =>
    rw [StringExpr.eval, (iha h.1).bytes, (ihb h.2).bytes]
    rfl

def StringType.Valid : (t : StringType) → t.Value → Prop
  | .short _, s => ShortString.Valid s
  | .ansi, _ => True

theorem StringExpr.eval_valid {σ : (x : ι) → ShortString (cap x)} (hσ : ∀ x, (σ x).Valid)
    {t : StringType} (e : StringExpr cap t) : t.Valid (e.eval σ) := by
  induction e with
  | var x => exact hσ x
  | deref x r => exact (derefValue_represents r.limit (represents_content (hσ x))).valid
  | ofCStr n s => exact (tp2ccShortstringOfCStr_represents n s).valid
  | ofChar n c => exact (tp2ccShortstringOfChar_represents n c).valid
  | ofShort n e ih => exact (tp2ccShortstringOf_represents n (represents_content ih)).valid
  | ofAnsi n e ih => exact (ansiToShortString_represents n _).valid
  | add a b iha ihb =>
    exact (shortStringAdd_represents (represents_content iha) (represents_content ihb)).valid
  | addCStr a s ih => exact (shortStringAddCStr_represents (represents_content ih) s).valid
  | cStrAdd s b ih => exact (cStrAddShortString_represents s (represents_content ih)).valid
  | addChar a c ih => exact (shortStringAddChar_represents c (represents_content ih)).valid
  | charAdd c b ih => exact (charAddShortString_represents c (represents_content ih)).valid
  | charAddChar a b => exact (charConstAdd_represents a b).valid
  | copy e start count ih => exact (pCopy_represents (represents_content ih) start count).valid
  | ansiValue s => trivial
  | ansiOf e ih => trivial
  | concatAnsi a b iha ihb => trivial

theorem StringStmt.result_valid {σ : (x : ι) → ShortString (cap x)} (hσ : ∀ x, (σ x).Valid)
    (stmt : StringStmt cap) : (stmt.result σ).Valid := by
  cases stmt with
  | assign x e => exact e.eval_valid hσ
  | assignChar x c => exact (assignChar_represents _ c).valid
  | assignThrough x r e => exact (assignWithin_represents r.le _ _).valid
  | setLength x r newLen =>
    exact (setLengthWithin_represents r.le (represents_content (hσ x)) newLen).valid
  | delete x start count =>
    exact (pDelete_represents (represents_content (hσ x)) start count).valid
  | deleteThrough x r start count =>
    exact (deleteWithin_represents r.le (represents_content (hσ x)) start count).valid
  | setStringNull x r len => exact Nat.zero_le _
  | setString x r src len hlen => exact (setFromCountedChars_represents r.le _ hlen).valid

theorem StringStmt.result_represents {σ : (x : ι) → ShortString (cap x)} {ρ : ι → List UInt8}
    (hσ : ∀ x, (σ x).Represents (ρ x)) (stmt : StringStmt cap) (h : stmt.Lossless ρ) :
    (stmt.result σ).Represents (stmt.meaning ρ) := by
  cases stmt with
  | assign x e =>
    have he : ShortString.Represents _ _ := e.eval_represents hσ h
    rw [StringStmt.meaning, List.take_of_length_le he.le]
    exact he
  | assignChar x c => exact assignChar_represents _ c
  | assignThrough x r e =>
    rw [StringStmt.result, (e.eval_represents hσ h).bytes]
    exact assignWithin_represents r.le _ _
  | setLength x r newLen => exact setLengthWithin_represents r.le (hσ x) newLen
  | delete x start count => exact pDelete_represents (hσ x) start count
  | deleteThrough x r start count => exact deleteWithin_represents r.le (hσ x) start count
  | setStringNull x r len => exact ⟨Nat.zero_le _, List.take_zero⟩
  | setString x r src len hlen => exact setFromCountedChars_represents r.le _ hlen

section
variable [DecidableEq ι]

theorem StringStmt.exec_represents {σ : (x : ι) → ShortString (cap x)} {ρ : ι → List UInt8}
    (hσ : ∀ x, (σ x).Represents (ρ x)) (stmt : StringStmt cap) (h : stmt.Lossless ρ) (x : ι) :
    (stmt.exec σ x).Represents (stmt.execBytes ρ x) := by
  by_cases hx : x = stmt.target
  · subst hx
    simp only [StringStmt.exec, StringStmt.execBytes, Function.update_self]
    exact stmt.result_represents hσ h
  · simp only [StringStmt.exec, StringStmt.execBytes, Function.update_of_ne hx]
    exact hσ x

theorem StringStmt.exec_valid {σ : (x : ι) → ShortString (cap x)} (hσ : ∀ x, (σ x).Valid)
    (stmt : StringStmt cap) (x : ι) : (stmt.exec σ x).Valid := by
  by_cases hx : x = stmt.target
  · subst hx
    simp only [StringStmt.exec, Function.update_self]
    exact stmt.result_valid hσ
  · simp only [StringStmt.exec, Function.update_of_ne hx]
    exact hσ x

theorem runStrings_valid (stmts : List (StringStmt cap)) {σ : (x : ι) → ShortString (cap x)}
    (hσ : ∀ x, (σ x).Valid) (x : ι) : (runStrings σ stmts x).Valid := by
  induction stmts generalizing σ with
  | nil => exact hσ x
  | cons stmt stmts ih => exact ih (stmt.exec_valid hσ)

theorem runStrings_represents (stmts : List (StringStmt cap))
    {σ : (x : ι) → ShortString (cap x)} {ρ : ι → List UInt8}
    (hσ : ∀ x, (σ x).Represents (ρ x)) (h : LosslessRun ρ stmts) (x : ι) :
    (runStrings σ stmts x).Represents (runBytes ρ stmts x) := by
  induction stmts generalizing σ ρ with
  | nil => exact hσ x
  | cons stmt stmts ih => exact ih (stmt.exec_represents hσ h.1) h.2

end

theorem take_capacity_iff (n : Capacity) (b : List UInt8) :
    b.take n.val = b.take 255 ↔ n.val = 255 ∨ b.length ≤ n.val := by
  have := n.le
  rw [List.take_eq_take_iff]
  omega

/-- Every string of a run stays within its capacity. Its content is that of the byte
lists in a run whose concatenations with C strings are all lossless, and such a
concatenation of an operand that is right is right only when it is lossless. -/
theorem shortStrings_exact [DecidableEq ι] (cap : ι → Capacity)
    (σ : (x : ι) → ShortString (cap x)) (hσ : ∀ x, (σ x).Valid) :
    (∀ (stmts : List (StringStmt cap)) (x : ι), (runStrings σ stmts x).Valid) ∧
    (∀ stmts : List (StringStmt cap), LosslessRun (fun x => (σ x).content) stmts →
      ∀ x, (runStrings σ stmts x).content = runBytes (fun x => (σ x).content) stmts x) ∧
    ∀ {n : Capacity} (e : StringExpr cap (.short n)) (s : Option (List UInt8)),
      e.Lossless (fun x => (σ x).content) →
        (ShortString.content ((e.addCStr s).eval σ) =
            (e.addCStr s).meaning (fun x => (σ x).content) ↔
          (e.addCStr s).Lossless fun x => (σ x).content) ∧
        (ShortString.content ((e.cStrAdd s).eval σ) =
            (e.cStrAdd s).meaning (fun x => (σ x).content) ↔
          (e.cStrAdd s).Lossless fun x => (σ x).content) := by
  have hcontent : ∀ x, (σ x).Represents (σ x).content := fun x => represents_content (hσ x)
  refine ⟨fun stmts => runStrings_valid stmts hσ,
    fun stmts h x => (runStrings_represents stmts hcontent h x).content, fun {n} e s he => ?_⟩
  have hrep : ShortString.Represents _ _ := e.eval_represents hcontent he
  constructor
  · have hadd := (shortStringAddCStr_represents hrep s).content
    simp only [StringExpr.eval, StringExpr.meaning, StringExpr.Lossless, hadd, he, true_and,
      take_capacity_iff, List.length_append]
  · have hadd := (cStrAddShortString_represents s hrep).content
    simp only [StringExpr.eval, StringExpr.meaning, StringExpr.Lossless, hadd, he, true_and,
      take_capacity_iff, List.length_append]

def smallAndFull : Bool → Capacity
  | false => ⟨3, by decide, by decide⟩
  | true => .full

def emptyStrings (x : Bool) : ShortString (smallAndFull x) := tp2ccShortstringOfCStr _ none

/-- `small := "abc"; full := small + "d";` with `"d"` a C string. -/
def appendToSmall : List (StringStmt smallAndFull) :=
  [.assign false (.ofCStr _ (some [97, 98, 99])),
    .assign true (.ofShort _ (.addCStr (.var false) (some [100])))]

theorem emptyStrings_valid (x : Bool) : (emptyStrings x).Valid := Nat.zero_le _

/-- `full := "abc"; full := full + "d";`, where nothing is lost. -/
def appendToFull : List (StringStmt smallAndFull) :=
  [.assign true (.ofCStr _ (some [97, 98, 99])),
    .assign true (.ofShort _ (.addCStr (.var true) (some [100])))]

theorem shortStrings_exact_append :
    (runStrings emptyStrings appendToSmall true).Valid ∧
      ∀ x, (runStrings emptyStrings appendToFull x).content =
        runBytes (fun x => (emptyStrings x).content) appendToFull x := by
  have h := shortStrings_exact smallAndFull emptyStrings emptyStrings_valid
  exact ⟨h.1 appendToSmall true, h.2.1 appendToFull ⟨trivial, ⟨trivial, .inl rfl⟩, trivial⟩⟩

theorem shortStrings_lose_cString : ¬ ∀ (stmts : List (StringStmt smallAndFull)) (x : Bool),
    (runStrings emptyStrings stmts x).content =
      runBytes (fun x => (emptyStrings x).content) stmts x := by
  intro h
  have hlost := h appendToSmall true
  revert hlost
  decide

end Tp2cc.Rt
