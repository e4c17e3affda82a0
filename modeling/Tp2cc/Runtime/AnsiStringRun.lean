import Tp2cc.Runtime.AnsiStringLaw

/-! Programs over `tp2cc_AnsiString` variables and data pointers taken from them, and the
same programs on a list of bytes for each variable. -/
set_option autoImplicit false

namespace Tp2cc.Rt
open Machine

variable {ι κ : Type}

/-- Expressions over the string variables `ι`. Every other operand is bytes. -/
inductive AnsiExpr (ι : Type)
  | var (x : ι)
  | ofBytes (src : List UInt8)
  | ofChar (c : UInt8)
  | concat (a b : AnsiExpr ι)
  | concatBytes (a : AnsiExpr ι) (src : List UInt8)
  | bytesConcat (src : List UInt8) (b : AnsiExpr ι)
  | copy (e : AnsiExpr ι) (start count : Int)
  | upcase (e : AnsiExpr ι)
  | lowercase (e : AnsiExpr ι)

inductive SourceExpr (ι : Type)
  | outside (bytes : List UInt8)
  | within (y : ι) (off : Nat)

/-- One operation. `takePointer p x i` is `p := @x[i]`, which detaches, `castPointer p x` is
`p := PChar(x)`, which does not, and `storeThrough p k c` is `p[k] := c`, with any
operations in between. -/
inductive AnsiStmt (ι κ : Type)
  | assign (x : ι) (e : AnsiExpr ι)
  | assignChar (x : ι) (c : UInt8)
  | assignNil (x : ι)
  | setChar (x : ι) (i : Int) (c : UInt8)
  | copyChar (x : ι) (i : Int) (y : ι) (j : Int)
  | setLength (x : ι) (newLen : Int)
  | insert (x : ι) (e : AnsiExpr ι) (pos : Int)
  | insertBytes (x : ι) (src : List UInt8) (pos : Int)
  | delete (x : ι) (start count : Int)
  | setString (x : ι) (src : Option (SourceExpr ι)) (len : Int)
  | takePointer (p : κ) (x : ι) (i : Int)
  | castPointer (p : κ) (x : ι)
  | storeThrough (p : κ) (k : Int) (c : UInt8)

structure AnsiState (ι κ : Type) where
  mem : Memory
  vars : ι → DataPtr
  ptrs : κ → Option (DataPtr × Int)

structure PrivateState (ι κ : Type) where
  lists : ι → List UInt8
  ptrs : κ → Option (ι × Int)

def AnsiExpr.eval (m : Memory) (vars : ι → DataPtr) : AnsiExpr ι → Option (Memory × DataPtr)
  | .var x => some (m, vars x)
  | .ofBytes src => AnsiString.assignBytes m src
  | .ofChar c => AnsiString.assignChar m .empty c
  | .concat a b => do
    let (m, x) ← a.eval m vars
    let (m, y) ← b.eval m vars
    tp2ccConcatToAnsistring m (.ansi x) (.ansi y)
  | .concatBytes a src => do
    let (m, x) ← a.eval m vars
    tp2ccConcatToAnsistring m (.ansi x) (.outside src)
  | .bytesConcat src b => do
    let (m, y) ← b.eval m vars
    tp2ccConcatToAnsistring m (.outside src) (.ansi y)
  | .copy e start count => do
    let (m, x) ← e.eval m vars
    pCopyAnsi m x start count
  | .upcase e => do
    let (m, x) ← e.eval m vars
    pUpcaseAnsi m x
  | .lowercase e => do
    let (m, x) ← e.eval m vars
    pLowercaseAnsi m x

def AnsiExpr.meaning (lists : ι → List UInt8) : AnsiExpr ι → List UInt8
  | .var x => lists x
  | .ofBytes src => src
  | .ofChar c => [c]
  | .concat a b => a.meaning lists ++ b.meaning lists
  | .concatBytes a src => a.meaning lists ++ src
  | .bytesConcat src b => src ++ b.meaning lists
  | .copy e start count => copyBytes (e.meaning lists) start count
  | .upcase e => (e.meaning lists).map upcaseChar
  | .lowercase e => (e.meaning lists).map lowercaseChar

def LengthFits (n : Nat) : Prop := (n : Int) < IntType.int.hi

def AnsiExpr.Fits (lists : ι → List UInt8) : AnsiExpr ι → Prop
  | .var _ => True
  | .ofBytes src => LengthFits src.length
  | .ofChar _ => True
  | .concat a b => a.Fits lists ∧ b.Fits lists ∧
      LengthFits (a.meaning lists ++ b.meaning lists).length
  | .concatBytes a src => a.Fits lists ∧ LengthFits (a.meaning lists ++ src).length
  | .bytesConcat src b => b.Fits lists ∧ LengthFits (src ++ b.meaning lists).length
  | .copy e _ _ => e.Fits lists
  | .upcase e => e.Fits lists
  | .lowercase e => e.Fits lists

def SourceExpr.charSource (vars : ι → DataPtr) : SourceExpr ι → CharSource
  | .outside bytes => .outside bytes
  | .within y off => .within (vars y) off

def SourceExpr.meaning (lists : ι → List UInt8) (n : Nat) : SourceExpr ι → List UInt8
  | .outside bytes => bytes.take n
  | .within y off => ((lists y).drop off).take n

def SourceExpr.Fits (lists : ι → List UInt8) (n : Nat) : SourceExpr ι → Prop
  | .outside bytes => n ≤ bytes.length
  | .within y off => n = 0 ∨ off+n ≤ (lists y).length

/-- Positions are those of a character or of the NUL behind the last, and no length
passes what a header holds. -/
def AnsiStmt.Fits (ρ : PrivateState ι κ) : AnsiStmt ι κ → Prop
  | .assign _ e => e.Fits ρ.lists
  | .setChar x i _ => 1 ≤ i ∧ i ≤ (ρ.lists x).length+1
  | .copyChar x i y j =>
    (1 ≤ i ∧ i ≤ (ρ.lists x).length+1) ∧ 1 ≤ j ∧ j ≤ (ρ.lists y).length
  | .setLength _ newLen => newLen < IntType.int.hi
  | .insert x e _ =>
    e.Fits ρ.lists ∧ LengthFits ((ρ.lists x).length+(e.meaning ρ.lists).length)
  | .insertBytes x src _ => LengthFits ((ρ.lists x).length+src.length)
  | .setString _ (some src) len => src.Fits ρ.lists len.toNat ∧ len < IntType.int.hi
  | .storeThrough p k _ =>
    ∃ x off, ρ.ptrs p = some (x, off) ∧ 0 ≤ off+k ∧ off+k ≤ (ρ.lists x).length
  | _ => True

/-- A pointer that is stored through points into the payload that its variable has, and
no other variable has it. -/
def AnsiStmt.Live (σ : AnsiState ι κ) (ρ : PrivateState ι κ) : AnsiStmt ι κ → Prop
  | .storeThrough p _ _ => ∃ x off id, ρ.ptrs p = some (x, off) ∧
      σ.ptrs p = some (.payload id, off) ∧ σ.vars x = .payload id ∧
      ∀ y, y ≠ x → σ.vars y ≠ .payload id
  | _ => True

/-- No character of a string with an empty payload of its own is written or taken a
pointer to. -/
def AnsiStmt.Clean (σ : AnsiState ι κ) : AnsiStmt ι κ → Prop
  | .setChar x _ _ => ¬OwnedEmpty σ.mem (σ.vars x)
  | .copyChar x _ _ _ => ¬OwnedEmpty σ.mem (σ.vars x)
  | .takePointer _ x _ => ¬OwnedEmpty σ.mem (σ.vars x)
  | _ => True

section
variable [DecidableEq ι] [DecidableEq κ]

def AnsiState.setVar (σ : AnsiState ι κ) (x : ι) (r : Memory × DataPtr) : AnsiState ι κ :=
  { σ with mem := r.1, vars := Function.update σ.vars x r.2 }

def AnsiStmt.exec (σ : AnsiState ι κ) : AnsiStmt ι κ → Option (AnsiState ι κ)
  | .assign x e => (e.eval σ.mem σ.vars).map (σ.setVar x)
  | .assignChar x c => (AnsiString.assignChar σ.mem (σ.vars x) c).map (σ.setVar x)
  | .assignNil x => some (σ.setVar x (σ.mem, .empty))
  | .setChar x i c => (AnsiString.charRefAssign σ.mem (σ.vars x) (i-1) c).map (σ.setVar x)
  | .copyChar x i y j => do
    let c ← σ.mem.load (σ.vars y) (j-1)
    (AnsiString.charRefAssign σ.mem (σ.vars x) (i-1) c).map (σ.setVar x)
  | .setLength x newLen => (AnsiString.setLength σ.mem (σ.vars x) newLen).map (σ.setVar x)
  | .insert x e pos => (do
      let (m, y) ← e.eval σ.mem σ.vars
      tp2ccInsertBytes m (.ansi y) (σ.vars x) pos).map (σ.setVar x)
  | .insertBytes x src pos =>
    (tp2ccInsertBytes σ.mem (.outside src) (σ.vars x) pos).map (σ.setVar x)
  | .delete x start count => (pDeleteAnsi σ.mem (σ.vars x) start count).map (σ.setVar x)
  | .setString x src len => (tp2ccSetAnsistringFromCountedChars σ.mem (σ.vars x)
      (src.map (SourceExpr.charSource σ.vars)) len).map (σ.setVar x)
  | .takePointer p x i => do
    let (m, d) ← AnsiString.ensureUnique σ.mem (σ.vars x)
    return { σ.setVar x (m, d) with ptrs := Function.update σ.ptrs p (some (d, i-1)) }
  | .castPointer p x => some { σ with ptrs := Function.update σ.ptrs p (some (σ.vars x, 0)) }
  | .storeThrough p k c => do
    let (d, off) ← σ.ptrs p
    return { σ with mem := ← σ.mem.store d (off+k) c }

def PrivateState.setList (ρ : PrivateState ι κ) (x : ι) (b : List UInt8) : PrivateState ι κ :=
  { ρ with lists := Function.update ρ.lists x b }

def AnsiStmt.meaning (ρ : PrivateState ι κ) : AnsiStmt ι κ → PrivateState ι κ
  | .assign x e => ρ.setList x (e.meaning ρ.lists)
  | .assignChar x c => ρ.setList x [c]
  | .assignNil x => ρ.setList x []
  | .setChar x i c => ρ.setList x ((ρ.lists x).set (i-1).toNat c)
  | .copyChar x i y j =>
    ρ.setList x ((ρ.lists x).set (i-1).toNat ((ρ.lists y).getD (j-1).toNat 0))
  | .setLength x newLen => ρ.setList x (setLengthBytes (ρ.lists x) newLen)
  | .insert x e pos => ρ.setList x (Rt.insertBytes (e.meaning ρ.lists) (ρ.lists x) pos)
  | .insertBytes x src pos => ρ.setList x (Rt.insertBytes src (ρ.lists x) pos)
  | .delete x start count => ρ.setList x (deleteBytes (ρ.lists x) start count)
  | .setString x (some src) len => ρ.setList x (src.meaning ρ.lists len.toNat)
  | .setString x none _ => ρ.setList x []
  | .takePointer p x i => { ρ with ptrs := Function.update ρ.ptrs p (some (x, i-1)) }
  | .castPointer p x => { ρ with ptrs := Function.update ρ.ptrs p (some (x, 0)) }
  | .storeThrough p k c =>
    match ρ.ptrs p with
    | some (x, off) => ρ.setList x ((ρ.lists x).set (off+k).toNat c)
    | none => ρ

def runAnsi (σ : AnsiState ι κ) (stmts : List (AnsiStmt ι κ)) : Option (AnsiState ι κ) :=
  stmts.foldlM AnsiStmt.exec σ

def runPrivate (ρ : PrivateState ι κ) (stmts : List (AnsiStmt ι κ)) : PrivateState ι κ :=
  stmts.foldl AnsiStmt.meaning ρ

def Along (P : AnsiState ι κ → PrivateState ι κ → AnsiStmt ι κ → Prop) (σ : AnsiState ι κ)
    (ρ : PrivateState ι κ) : List (AnsiStmt ι κ) → Prop
  | [] => True
  | stmt :: stmts => P σ ρ stmt ∧ ∀ σ', stmt.exec σ = some σ' → Along P σ' (stmt.meaning ρ) stmts

end

theorem LengthFits.mono {n k : Nat} (h : LengthFits n) (hk : k ≤ n) : LengthFits k :=
  lt_of_le_of_lt (Nat.cast_le.mpr hk) h

/-- The variables have payloads that the runtime made, with the bytes of the lists. -/
def Holds (m : Memory) (vars : ι → DataPtr) (lists : ι → List UInt8) : Prop :=
  ∀ x, m.Valid (vars x) ∧ m.content (vars x) = lists x

theorem Holds.mono {m m' : Memory} {vars : ι → DataPtr} {lists : ι → List UInt8}
    (h : Holds m vars lists) (hext : m.Extends m') : Holds m' vars lists := by
  intro x
  obtain ⟨hvalid, hcontent⟩ := h x
  exact ⟨hvalid.mono hext, (hext.content hvalid).trans hcontent⟩

theorem AnsiExpr.eval_yields {m : Memory} {vars : ι → DataPtr} {lists : ι → List UInt8}
    (h : Holds m vars lists) (e : AnsiExpr ι) (hfits : e.Fits lists) :
    Yields m (e.eval m vars) (e.meaning lists) True := by
  induction e generalizing m with
  | var x =>
    obtain ⟨hvalid, hcontent⟩ := h x
    rw [eval, meaning, ← hcontent]
    exact yields_self hvalid
  | ofBytes src => exact assignBytes_yields hfits
  | ofChar c => exact assignChar_yields (d := .empty) trivial c
  | concat a b iha ihb =>
    obtain ⟨hfa, hfb, hlen⟩ := hfits
    apply (iha h hfa).bind
    intro m₁ x hext₁ hx hxa
    apply (ihb (h.mono hext₁) hfb).bind
    intro m₂ y hext₂ hy hyb
    have hxc := (hext₂.content hx).trans hxa
    have hcat := tp2ccConcatToAnsistring_yields (a := .ansi x) (b := .ansi y) (hx.mono hext₂) hy
    simp only [StringArg.bytes, hxc, hyb] at hcat
    exact hcat hlen
  | concatBytes a src iha =>
    obtain ⟨hfa, hlen⟩ := hfits
    apply (iha h hfa).bind
    intro m₁ x hext₁ hx hxa
    have hcat := tp2ccConcatToAnsistring_yields (a := .ansi x) (b := .outside src) hx
    simp only [StringArg.bytes, StringArg.Valid, hxa] at hcat
    have hsrc : LengthFits src.length := hlen.mono (by rw [List.length_append]; omega)
    exact hcat hsrc hlen
  | bytesConcat src b ihb =>
    obtain ⟨hfb, hlen⟩ := hfits
    apply (ihb h hfb).bind
    intro m₁ y hext₁ hy hyb
    have hcat := tp2ccConcatToAnsistring_yields (a := .outside src) (b := .ansi y) (m := m₁)
    simp only [StringArg.bytes, StringArg.Valid, hyb] at hcat
    have hsrc : LengthFits src.length := hlen.mono (by rw [List.length_append]; omega)
    exact hcat hsrc hy hlen
  | copy e start count ih =>
    apply (ih h hfits).bind
    intro m₁ x hext₁ hx hxe
    rw [meaning, ← hxe]
    exact pCopyAnsi_yields hx start count
  | upcase e ih =>
    apply (ih h hfits).bind
    intro m₁ x hext₁ hx hxe
    rw [meaning, ← hxe]
    exact mapChars_yields upcaseChar hx
  | lowercase e ih =>
    apply (ih h hfits).bind
    intro m₁ x hext₁ hx hxe
    rw [meaning, ← hxe]
    exact mapChars_yields lowercaseChar hx

def Represents (σ : AnsiState ι κ) (ρ : PrivateState ι κ) : Prop :=
  Holds σ.mem σ.vars ρ.lists

/-- The step returns, with the lists of `ρ'`. It stores nothing in the static array
exactly when `clean`. -/
def Steps (σ : AnsiState ι κ) (r : Option (AnsiState ι κ)) (ρ' : PrivateState ι κ)
    (clean : Prop) : Prop :=
  ∃ σ', r = some σ' ∧ Represents σ' ρ' ∧ σ.mem.emptyStores <:+ σ'.mem.emptyStores ∧
    (σ'.mem.emptyStores = σ.mem.emptyStores ↔ clean)

theorem Memory.store_payload {m : Memory} {id : Nat} {p : Payload}
    (hp : m.payloads.get? id = some p) {i : Int} (h₀ : 0 ≤ i) (h : i ≤ p.len) (c : UInt8) :
    ∃ m', m.store (.payload id) i c = some m' ∧ m'.emptyStores = m.emptyStores ∧
      (∀ d, m.Valid d → m'.Valid d) ∧
      m'.content (.payload id) = (m.content (.payload id)).set i.toNat c ∧
      ∀ d, d ≠ .payload id → m'.content d = m.content d := by
  have hlt := Arena.lt_next_of_get? hp
  refine ⟨{ m with payloads := m.payloads.set id (p.write i.toNat [c]) }, ?_, rfl, ?_, ?_, ?_⟩
  · rw [Memory.store, if_pos h₀]
    exact Memory.storeBytes_payload hp (by simp only [List.length_singleton]; omega)
  · intro d hd
    cases d with
    | null => trivial
    | empty => trivial
    | payload j => simpa [Memory.Valid] using hd
  · simp only [Memory.content, Arena.get?_set_self hlt, hp, Payload.write_singleton_content]
  · intro d hd
    cases d with
    | null => rfl
    | empty => rfl
    | payload j =>
      have hj : id ≠ j := fun he => hd (by rw [he])
      simp only [Memory.content, Arena.get?_set_ne hj]

section
variable [DecidableEq ι] [DecidableEq κ] {σ : AnsiState ι κ} {ρ : PrivateState ι κ}

theorem Holds.update {m m' : Memory} {vars : ι → DataPtr} {lists : ι → List UInt8}
    (h : Holds m vars lists) (hext : m.Extends m') {x : ι} {d : DataPtr} {b : List UInt8}
    (hd : m'.Valid d) (hb : m'.content d = b) :
    Holds m' (Function.update vars x d) (Function.update lists x b) := by
  intro y
  by_cases hy : y = x
  · subst hy
    simpa using ⟨hd, hb⟩
  · simpa [hy] using h.mono hext y

omit [DecidableEq κ] in
theorem Represents.setVar (hσ : Represents σ ρ) {x : ι} {r : Option (Memory × DataPtr)}
    {b : List UInt8} {clean : Prop} (h : Yields σ.mem r b clean) :
    Steps σ (r.map (σ.setVar x)) (ρ.setList x b) clean := by
  obtain ⟨m', d, rfl, hext, hvalid, hb, hclean⟩ := h
  exact ⟨σ.setVar x (m', d), rfl, Holds.update hσ hext hvalid hb, hext.2, hclean⟩

omit [DecidableEq ι] [DecidableEq κ] in
theorem SourceExpr.readable (hσ : Represents σ ρ) {src : SourceExpr ι} {n : Nat}
    (h : src.Fits ρ.lists n) : (src.charSource σ.vars).Readable σ.mem n ∧
      (src.charSource σ.vars).bytes σ.mem n = src.meaning ρ.lists n := by
  cases src with
  | outside bytes => exact ⟨h, rfl⟩
  | within y off =>
    obtain ⟨hvalid, hcontent⟩ := hσ y
    simp only [charSource, CharSource.Readable, CharSource.bytes, meaning, hcontent]
    exact ⟨⟨hvalid, h⟩, trivial⟩

theorem AnsiStmt.exec_steps (hσ : Represents σ ρ) (stmt : AnsiStmt ι κ) (hfits : stmt.Fits ρ)
    (hlive : stmt.Live σ ρ) :
    Steps σ (stmt.exec σ) (stmt.meaning ρ) (stmt.Clean σ) := by
  cases stmt with
  | assign x e => exact hσ.setVar (e.eval_yields hσ hfits)
  | assignChar x c => exact hσ.setVar (assignChar_yields (hσ x).1 c)
  | assignNil x => exact hσ.setVar (yields_empty σ.mem)
  | setChar x i c =>
    obtain ⟨hvalid, hcontent⟩ := hσ x
    rw [meaning, ← hcontent]
    exact hσ.setVar (charRefAssign_yields hvalid (by have := hfits.1; omega)
      (by have := hfits.2; rw [hcontent]; omega) c)
  | copyChar x i y j =>
    obtain ⟨hvalid, hcontent⟩ := hσ x
    obtain ⟨⟨hi₁, hi₂⟩, hj₁, hj₂⟩ := hfits
    have hget : (σ.mem.content (σ.vars y))[(j-1).toNat]? =
        some ((ρ.lists y).getD (j-1).toNat 0) := by
      rw [(hσ y).2, List.getD_eq_getElem?_getD, List.getElem?_eq_getElem (by omega)]
      rfl
    have hload := Memory.load_content hget
    rw [Int.toNat_of_nonneg (by omega)] at hload
    simp only [exec, hload, Option.bind_eq_bind, Option.bind_some]
    rw [meaning, ← hcontent]
    exact hσ.setVar (charRefAssign_yields hvalid (by omega) (by rw [hcontent]; omega) _)
  | setLength x newLen =>
    rw [meaning, ← (hσ x).2]
    exact hσ.setVar (setLength_yields (hσ x).1 hfits)
  | insert x e pos =>
    obtain ⟨hfe, hlen⟩ := hfits
    obtain ⟨hvalid, hcontent⟩ := hσ x
    apply hσ.setVar
    apply (e.eval_yields hσ hfe).bind
    intro m d hext hd hde
    have hx := (hext.content hvalid).trans hcontent
    have hins := tp2ccInsertBytes_yields (hvalid.mono hext) (.ansi d) hd pos
    simp only [StringArg.bytes, hx, hde] at hins
    exact hins hlen
  | insertBytes x src pos =>
    have hsrc : LengthFits src.length := LengthFits.mono hfits (by omega)
    have hins := tp2ccInsertBytes_yields (hσ x).1 (.outside src) hsrc pos
    simp only [StringArg.bytes, (hσ x).2] at hins
    exact hσ.setVar (hins hfits)
  | delete x start count =>
    rw [meaning, ← (hσ x).2]
    exact hσ.setVar (pDeleteAnsi_yields (hσ x).1 start count)
  | setString x src len =>
    cases src with
    | none => exact hσ.setVar (tp2ccSetAnsistring_null σ.mem (σ.vars x) len)
    | some src =>
      obtain ⟨hread, hbytes⟩ := SourceExpr.readable hσ hfits.1
      rw [meaning, ← hbytes]
      exact hσ.setVar (tp2ccSetAnsistring_yields (hσ x).1 hread hfits.2)
  | takePointer p x i =>
    obtain ⟨m', d, hunique, hext, hvalid, hcontent, hclean⟩ := ensureUnique_yields (hσ x).1
    have hupdate := Holds.update hσ hext (x := x) hvalid (hcontent.trans (hσ x).2)
    rw [Function.update_eq_self] at hupdate
    simp only [exec, hunique, Option.bind_eq_bind, Option.bind_some]
    exact ⟨_, rfl, hupdate, hext.2, hclean⟩
  | castPointer p x => exact ⟨_, rfl, hσ, List.suffix_refl _, by simp [Clean]⟩
  | storeThrough p k c =>
    obtain ⟨x, off, hρ, hlo, hhi⟩ := hfits
    obtain ⟨x', off', id, hρ', hptr, hvar, hsole⟩ := hlive
    rw [hρ] at hρ'
    obtain ⟨rfl, rfl⟩ := Prod.mk.inj (Option.some.inj hρ')
    obtain ⟨hvalid, hcontent⟩ := hσ x
    rw [hvar] at hvalid hcontent
    obtain ⟨q, hq⟩ := Arena.exists_get? hvalid
    have hlen : q.len = (ρ.lists x).length := by
      rw [← hcontent, ← q.content_length]
      simp [Memory.content, hq]
    obtain ⟨m', hstore, hstores, hvalids, hset, hrest⟩ :=
      Memory.store_payload hq hlo (by omega) c
    simp only [exec, hptr, Option.bind_eq_bind, Option.bind_some, hstore, meaning, hρ]
    refine ⟨_, rfl, ?_, by rw [hstores], by simp [hstores, Clean]⟩
    intro y
    refine ⟨hvalids _ (hσ y).1, ?_⟩
    by_cases hy : y = x
    · subst hy
      simp [PrivateState.setList, hvar, hset, hcontent]
    · simp [PrivateState.setList, hy, hrest _ (hsole y hy), (hσ y).2]

theorem suffix_trans_eq_iff {α : Type} {a b c : List α} (hab : a <:+ b) (hbc : b <:+ c) :
    c = a ↔ b = a ∧ c = b := by
  constructor
  · intro h
    have hlen : b.length = a.length := by
      have := hab.length_le
      have := hbc.length_le
      rw [h] at this
      omega
    have hb : b = a := (hab.eq_of_length hlen.symm).symm
    exact ⟨hb, h.trans hb.symm⟩
  · intro h
    rw [h.2, h.1]

theorem runAnsi_steps (stmts : List (AnsiStmt ι κ)) (hσ : Represents σ ρ)
    (h : Along (fun σ ρ stmt => stmt.Fits ρ ∧ stmt.Live σ ρ) σ ρ stmts) :
    Steps σ (runAnsi σ stmts) (runPrivate ρ stmts)
      (Along (fun σ _ stmt => stmt.Clean σ) σ ρ stmts) := by
  induction stmts generalizing σ ρ with
  | nil => exact ⟨σ, rfl, hσ, List.suffix_refl _, by simp [Along]⟩
  | cons stmt stmts ih =>
    obtain ⟨hok, hrest⟩ := h
    obtain ⟨σ₁, hexec, hσ₁, hsuffix₁, hclean₁⟩ := stmt.exec_steps hσ hok.1 hok.2
    obtain ⟨σ₂, hrun, hσ₂, hsuffix₂, hclean₂⟩ := ih hσ₁ (hrest σ₁ hexec)
    refine ⟨σ₂, ?_, hσ₂, hsuffix₁.trans hsuffix₂, ?_⟩
    · rw [runAnsi, List.foldlM_cons, hexec]
      exact hrun
    · rw [suffix_trans_eq_iff hsuffix₁ hsuffix₂, hclean₁, hclean₂, Along]
      apply and_congr_right
      intro _
      simp [hexec]

/-- A pointer is live right after it was taken, unless it is one to the static array. -/
theorem takePointer_live (hσ : Represents σ ρ) {p : κ} {x : ι} {i : Int}
    (hclean : (AnsiStmt.takePointer p x i).Clean σ) {σ' : AnsiState ι κ}
    (h : (AnsiStmt.takePointer p x i).exec σ = some σ') (k : Int) (c : UInt8) :
    (AnsiStmt.storeThrough p k c).Live σ' ((AnsiStmt.takePointer p x i).meaning ρ) := by
  cases ensureUnique_cases (hσ x).1 with
  | inl hcase =>
    obtain ⟨_, q, hq, _⟩ := hcase
    simp only [AnsiStmt.exec, hq, Option.bind_eq_bind, Option.bind_some] at h
    obtain rfl := Option.some.inj h
    refine ⟨x, i-1, σ.mem.payloads.next, by simp [AnsiStmt.meaning], by simp [Memory.alloc],
      by simp [AnsiState.setVar, Memory.alloc], fun y hy hyv => ?_⟩
    have hvalid := (hσ y).1
    simp only [AnsiState.setVar, Function.update_of_ne hy] at hyv
    rw [hyv] at hvalid
    exact lt_irrefl _ hvalid
  | inr hcase => exact absurd hcase.1 hclean

end

def AnsiState.start (κ : Type) (zeroed : ι → Bool) : AnsiState ι κ :=
  ⟨.start, fun x => if zeroed x then .null else .empty, fun _ => none⟩

def PrivateState.start (ι κ : Type) : PrivateState ι κ := ⟨fun _ => [], fun _ => none⟩

theorem start_represents (κ : Type) (zeroed : ι → Bool) :
    Represents (AnsiState.start κ zeroed) (PrivateState.start ι κ) := by
  intro x
  simp only [AnsiState.start, PrivateState.start]
  split <;> exact ⟨trivial, rfl⟩

/-- In every run each variable has the bytes of its own list, as long as positions and
lengths fit and pointers are stored through while they are live. The shared empty payload
is never written exactly when no operation of the run detaches an empty payload that its
string does not share. -/
theorem ansiStrings_exact [DecidableEq ι] [DecidableEq κ] (zeroed : ι → Bool)
    (stmts : List (AnsiStmt ι κ))
    (h : Along (fun σ ρ stmt => stmt.Fits ρ ∧ stmt.Live σ ρ) (.start κ zeroed) (.start ι κ) stmts) :
    ∃ σ', runAnsi (.start κ zeroed) stmts = some σ' ∧
      (∀ x, σ'.mem.content (σ'.vars x) = (runPrivate (.start ι κ) stmts).lists x) ∧
      (σ'.mem.emptyStores = [] ↔
        Along (fun σ _ stmt => stmt.Clean σ) (.start κ zeroed) (.start ι κ) stmts) := by
  obtain ⟨σ', hrun, hσ', _, hclean⟩ := runAnsi_steps stmts (start_represents κ zeroed) h
  exact ⟨σ', hrun, fun x => (hσ' x).2, hclean⟩

/-- `original := 'abc'; copy := original; copy[1] := 'z';` -/
def copyOnWrite : List (AnsiStmt Bool Unit) :=
  [.assign false (.ofBytes [97, 98, 99]), .assign true (.var false), .setChar true 1 122]

theorem copyOnWrite_admissible : Along (fun σ ρ stmt => stmt.Fits ρ ∧ stmt.Live σ ρ)
    (.start Unit fun _ => false) (.start Bool Unit) copyOnWrite := by
  have hlen : LengthFits 3 := (by decide : (3 : Int) < IntType.int.hi)
  exact ⟨⟨hlen, trivial⟩, fun _ _ => ⟨⟨trivial, trivial⟩, fun _ _ =>
    ⟨⟨⟨by decide, by decide⟩, trivial⟩, fun _ _ => trivial⟩⟩⟩

theorem ansiStrings_exact_copyOnWrite :
    ∃ σ', runAnsi (.start Unit fun _ => false) copyOnWrite = some σ' ∧
      (∀ x, σ'.mem.content (σ'.vars x) = (runPrivate (.start Bool Unit) copyOnWrite).lists x) ∧
      (σ'.mem.emptyStores = [] ↔ Along (fun σ _ stmt => stmt.Clean σ)
        (.start Unit fun _ => false) (.start Bool Unit) copyOnWrite) :=
  ansiStrings_exact (fun _ => false) copyOnWrite copyOnWrite_admissible

/-- The second pointer to the first character of one empty string is a pointer to the static
array, after a store there. -/
theorem ansiStrings_write_empty : ¬ ∀ stmts : List (AnsiStmt Unit Unit),
    Along (fun σ ρ stmt => stmt.Fits ρ ∧ stmt.Live σ ρ) (.start Unit fun _ => false)
      (.start Unit Unit) stmts →
    ∃ σ', runAnsi (.start Unit fun _ => false) stmts = some σ' ∧
      (∀ x, σ'.mem.content (σ'.vars x) = (runPrivate (.start Unit Unit) stmts).lists x) ∧
      σ'.mem.emptyStores = [] := by
  intro h
  obtain ⟨σ', hrun, _, hstores⟩ := h [.takePointer () () 1, .takePointer () () 1]
    ⟨⟨trivial, trivial⟩, fun _ _ => ⟨⟨trivial, trivial⟩, fun _ _ => trivial⟩⟩
  have hwritten : (runAnsi (.start Unit fun _ => false)
      [AnsiStmt.takePointer () () 1, .takePointer () () 1]).map
        (fun σ : AnsiState Unit Unit => (σ.mem.emptyStores, σ.vars (), σ.ptrs ())) =
      some ([0], .empty, some (.empty, 0)) := by decide
  rw [hrun, Option.map_some, hstores] at hwritten
  simp at hwritten

end Tp2cc.Rt
