import Tp2cc.Ast
import Tp2cc.Machine.Layout

/-! The C++ text of a record type, with the offset of each field as an expression over the sizes of
the field types. -/
set_option autoImplicit false

namespace Tp2cc
open Machine

inductive SizeExpr where
  | zero
  | sizeof (typeCxx : String)
  | sum (left right : SizeExpr)
  | max (sizes : List SizeExpr)

namespace SizeExpr

mutual

def text : SizeExpr → String
  | .zero => "0"
  | .sizeof typeCxx => "sizeof(" ++ typeCxx ++ ")"
  | .sum left right => "(" ++ left.text ++ " + " ++ right.text ++ ")"
  | .max sizes => "::std::max(\x7b" ++ ", ".intercalate (texts sizes) ++ "\x7d)"

def texts : List SizeExpr → List String
  | [] => []
  | e :: es => ("static_cast<::std::size_t>(" ++ e.text ++ ")") :: texts es

end

mutual

def eval (sizes : String → Nat) : SizeExpr → Nat
  | .zero => 0
  | .sizeof typeCxx => sizes typeCxx
  | .sum left right => left.eval sizes + right.eval sizes
  | .max es => maximum sizes es

def maximum (sizes : String → Nat) : List SizeExpr → Nat
  | [] => 0
  | e :: es => Max.max (e.eval sizes) (maximum sizes es)

end
end SizeExpr

def recordLayoutAddSize : SizeExpr → SizeExpr → SizeExpr
  | .zero, right => right
  | left, .zero => left
  | left, right => .sum left right

def recordLayoutAddOffset (base : SizeExpr) : SizeExpr → SizeExpr
  | .zero => base
  | delta => recordLayoutAddSize base delta

def recordLayoutMaxSize : List SizeExpr → SizeExpr
  | [] => .zero
  | [size] => size
  | sizes => .max sizes

section
variable {sizes : String → Nat}

theorem SizeExpr.text_eq_zero (e : SizeExpr) : e.text = "0" ↔ e = .zero := by
  refine ⟨fun h => ?_, fun h => h ▸ rfl⟩
  have hchars := congrArg String.toList h
  cases e <;> simp [SizeExpr.text] at hchars ⊢

theorem recordLayoutAddSize_text (left right : SizeExpr) :
    (recordLayoutAddSize left right).text =
      if left.text = "0" then right.text else if right.text = "0" then left.text
      else "(" ++ left.text ++ " + " ++ right.text ++ ")" := by
  by_cases hleft : left = .zero
  · subst hleft
    cases right <;> rfl
  · rw [if_neg (mt left.text_eq_zero.mp hleft)]
    by_cases hright : right = .zero
    · subst hright
      cases left <;> rfl
    · rw [if_neg (mt right.text_eq_zero.mp hright)]
      cases left <;> cases right <;> first | rfl | exact absurd rfl hleft | exact absurd rfl hright

@[simp] theorem recordLayoutAddSize_eval (left right : SizeExpr) :
    (recordLayoutAddSize left right).eval sizes = left.eval sizes + right.eval sizes := by
  cases left <;> cases right <;> simp [recordLayoutAddSize, SizeExpr.eval]

@[simp] theorem recordLayoutAddOffset_eval (base delta : SizeExpr) :
    (recordLayoutAddOffset base delta).eval sizes = base.eval sizes + delta.eval sizes := by
  cases delta <;> simp [recordLayoutAddOffset, SizeExpr.eval]

@[simp] theorem recordLayoutMaxSize_eval (es : List SizeExpr) :
    (recordLayoutMaxSize es).eval sizes = SizeExpr.maximum sizes es := by
  rcases es with _ | ⟨e, _ | ⟨e', es⟩⟩ <;> simp [recordLayoutMaxSize, SizeExpr.eval, SizeExpr.maximum]

theorem SizeExpr.maximum_append (es es' : List SizeExpr) :
    maximum sizes (es ++ es') = Max.max (maximum sizes es) (maximum sizes es') := by
  induction es with
  | nil => simp [maximum]
  | cons e es ih => rw [List.cons_append, maximum, ih, maximum, Nat.max_assoc]

end

/-- What the type emitter writes for a type and for a declaration. -/
structure EmitTypes where
  typeToCxx : TypeExpr → String
  fieldCxxName : String → String
  namedTypeToCxx : TypeExpr → String → String

structure EmitRecordFieldDecl where
  type : TypeExpr
  typeCxx : String
  mangledName : String
  decl : String

structure EmitPackedRecordLayout where
  fieldOffsets : List (String × SizeExpr)
  sizeExpr : SizeExpr

structure CxxRecordLayout where
  declLines : List String
  inlineText : String
  packedLayout : EmitPackedRecordLayout

structure RecordLayoutBuilder where
  isPacked : Bool
  declLines : List String := []
  inlineText : String
  fieldOffsets : List (String × SizeExpr) := []
  sizeExpr : SizeExpr := .zero

section
variable (types : EmitTypes)

def recordFieldDecl (type : TypeExpr) (name : String) : EmitRecordFieldDecl :=
  let mangledName := types.fieldCxxName name
  { type, typeCxx := types.typeToCxx type, mangledName
    decl := types.namedTypeToCxx type mangledName }

def RecordField.decls : RecordField → List EmitRecordFieldDecl
  | .mk names type => names.map (recordFieldDecl types type)

def recordFieldDecls (fields : List RecordField) : List EmitRecordFieldDecl :=
  fields.flatMap (·.decls types)

namespace RecordLayoutBuilder

def structOpen (isPacked : Bool) : String :=
  "struct " ++ if isPacked then "[[gnu::packed]] " else ""

def init (isPacked : Bool) : RecordLayoutBuilder :=
  { isPacked, inlineText := structOpen isPacked ++ "\x7b " }

def emit (b : RecordLayoutBuilder) (line inline : String) : RecordLayoutBuilder :=
  { b with declLines := b.declLines ++ [line], inlineText := b.inlineText ++ inline }

def appendField (field : EmitRecordFieldDecl) (base : SizeExpr)
    (s : RecordLayoutBuilder × SizeExpr) : RecordLayoutBuilder × SizeExpr :=
  let b := s.1.emit (field.decl ++ ";") (field.typeCxx ++ " " ++ field.mangledName ++ "; ")
  ({ b with fieldOffsets :=
      b.fieldOffsets ++ [(field.mangledName,recordLayoutAddOffset base s.2)] },
    recordLayoutAddSize s.2 (.sizeof field.typeCxx))

def appendFields (fields : List RecordField) (base : SizeExpr)
    (s : RecordLayoutBuilder × SizeExpr) : RecordLayoutBuilder × SizeExpr :=
  (recordFieldDecls types fields).foldl (fun s field => appendField field base s) s

mutual

def appendVariantPart (base : SizeExpr) (b : RecordLayoutBuilder) :
    VariantPart → RecordLayoutBuilder × SizeExpr
  | .mk tagName tagType cases =>
    let (b,prefixSize) :=
      if tagName ≠ "" then appendField (recordFieldDecl types tagType tagName) base (b,.zero)
      else (b,.zero)
    let b := b.emit "union \x7b" "union \x7b "
    let (b,caseSizes) := appendCases (recordLayoutAddOffset base prefixSize) (b,[]) cases
    let b := b.emit "\x7d;" "\x7d; "
    (b,recordLayoutAddSize prefixSize (recordLayoutMaxSize caseSizes))

/-- The loop over the cases, which leaves out the empty ones. -/
def appendCases (unionOffset : SizeExpr) (s : RecordLayoutBuilder × List SizeExpr) :
    List VariantCase → RecordLayoutBuilder × List SizeExpr
  | [] => s
  | vc :: rest => appendCases unionOffset (appendCase unionOffset s vc) rest

def appendCase (unionOffset : SizeExpr) (s : RecordLayoutBuilder × List SizeExpr) :
    VariantCase → RecordLayoutBuilder × List SizeExpr
  | .mk _ fields variantPart =>
    if fields.isEmpty && variantPart.isNone then s
    else
      let caseOpen := structOpen s.1.isPacked
      let b := s.1.emit (caseOpen ++ "\x7b") (caseOpen ++ "\x7b ")
      let (b,caseSize) := appendFields types fields unionOffset (b,.zero)
      let (b,caseSize) := match variantPart with
        | none => (b,caseSize)
        | some part =>
          let (b,size) := appendVariantPart (recordLayoutAddOffset unionOffset caseSize) b part
          (b,recordLayoutAddSize caseSize size)
      (b.emit "\x7d;" "\x7d; ",s.2 ++ [caseSize])

end

def appendRootFields (b : RecordLayoutBuilder) (fields : List RecordField) : RecordLayoutBuilder :=
  let (b,size) := appendFields types fields .zero (b,b.sizeExpr)
  { b with sizeExpr := size }

def appendRootVariantPart (b : RecordLayoutBuilder) : Option VariantPart → RecordLayoutBuilder
  | none => { b with sizeExpr := recordLayoutAddSize b.sizeExpr .zero }
  | some part =>
    let (b',size) := appendVariantPart types b.sizeExpr b part
    { b' with sizeExpr := recordLayoutAddSize b.sizeExpr size }

def finish (b : RecordLayoutBuilder) : CxxRecordLayout :=
  { declLines := b.declLines, inlineText := b.inlineText ++ "\x7d"
    packedLayout := { fieldOffsets := b.fieldOffsets, sizeExpr := b.sizeExpr } }

end RecordLayoutBuilder

def computeRecordLayout (fields : List RecordField) (variantPart : Option VariantPart)
    (isPacked : Bool) : CxxRecordLayout :=
  let b := RecordLayoutBuilder.init isPacked
  let b := b.appendRootFields types fields
  let b := b.appendRootVariantPart types variantPart
  b.finish

/-! The layout that the record's declaration asks for. -/

mutual

def VariantPart.layout : VariantPart → Layout EmitRecordFieldDecl
  | .mk tagName tagType cases =>
    if tagName ≠ "" then .field (recordFieldDecl types tagType tagName) (casesLayout cases)
    else casesLayout cases

def casesLayout : List VariantCase → Layout EmitRecordFieldDecl
  | [] => .nil
  | vc :: rest => .alt (VariantCase.layout vc) (casesLayout rest)

def VariantCase.layout : VariantCase → Layout EmitRecordFieldDecl
  | .mk _ fields variantPart => .fields (recordFieldDecls types fields) <|
    match variantPart with
    | none => .nil
    | some part => VariantPart.layout part

end

/-- The fixed part of a record is laid out as a case is. -/
def recordLayout (fields : List RecordField) (variantPart : Option VariantPart) :
    Layout EmitRecordFieldDecl :=
  VariantCase.layout types (.mk [] fields variantPart)

def EmitRecordFieldDecl.size (sizes : String → Nat) (field : EmitRecordFieldDecl) : Nat :=
  sizes field.typeCxx

def named (ps : List (EmitRecordFieldDecl × Nat)) : List (String × Nat) :=
  ps.map fun p => (p.1.mangledName,p.2)

def offsets (sizes : String → Nat) (fieldOffsets : List (String × SizeExpr)) : List (String × Nat) :=
  fieldOffsets.map fun f => (f.1,f.2.eval sizes)

end

namespace RecordLayoutBuilder
variable {types : EmitTypes} {sizes : String → Nat}

def Places (sizes : String → Nat) (l : Layout EmitRecordFieldDecl) (start : Nat)
    (b b' : RecordLayoutBuilder) : Prop :=
  offsets sizes b'.fieldOffsets =
    offsets sizes b.fieldOffsets ++ named (l.place (·.size sizes) start)

@[simp] theorem emit_fieldOffsets (b : RecordLayoutBuilder) (line inline : String) :
    (b.emit line inline).fieldOffsets = b.fieldOffsets := rfl

theorem Places.append (fs : List EmitRecordFieldDecl) {l : Layout EmitRecordFieldDecl}
    {start next : Nat} {b b' b'' : RecordLayoutBuilder}
    (h : Places sizes (.fields fs .nil) start b b') (h' : Places sizes l next b' b'')
    (hnext : next = start + (fs.map (·.size sizes)).sum) :
    Places sizes (.fields fs l) start b b'' := by
  subst hnext
  rw [Places, h', h, Layout.place_fields fs l, named, named, named, List.map_append,
    List.append_assoc]

section
variable (types sizes)

theorem appendField_places (field : EmitRecordFieldDecl) (base : SizeExpr)
    (s : RecordLayoutBuilder × SizeExpr) :
    Places sizes (.field field .nil) (base.eval sizes + s.2.eval sizes) s.1
      (appendField field base s).1 := by
  simp [Places, appendField, emit, offsets, named, Layout.place]

theorem appendField_size (field : EmitRecordFieldDecl) (base : SizeExpr)
    (s : RecordLayoutBuilder × SizeExpr) :
    (appendField field base s).2.eval sizes = s.2.eval sizes + field.size sizes := by
  simp [appendField, SizeExpr.eval, EmitRecordFieldDecl.size]

theorem appendFields_places (fields : List RecordField) (base : SizeExpr)
    (s : RecordLayoutBuilder × SizeExpr) :
    Places sizes (.fields (recordFieldDecls types fields) .nil) (base.eval sizes + s.2.eval sizes)
        s.1 (appendFields types fields base s).1 ∧
      (appendFields types fields base s).2.eval sizes =
        s.2.eval sizes + ((recordFieldDecls types fields).map (·.size sizes)).sum := by
  unfold appendFields
  generalize recordFieldDecls types fields = fs
  induction fs generalizing s with
  | nil => simp [Places, Layout.place, named]
  | cons f fs ih =>
    obtain ⟨hplaces, hsize⟩ := ih (appendField f base s)
    rw [appendField_size] at hplaces hsize
    constructor
    · exact Places.append [f] (appendField_places sizes f base s) hplaces (by simp [Nat.add_assoc])
    · rw [List.foldl_cons, hsize, List.map_cons, List.sum_cons, Nat.add_assoc]

mutual

theorem appendVariantPart_places (base : SizeExpr) (b : RecordLayoutBuilder) : ∀ part : VariantPart,
    Places sizes (part.layout types) (base.eval sizes) b (appendVariantPart types base b part).1 ∧
      (appendVariantPart types base b part).2.eval sizes = (part.layout types).total (·.size sizes)
  | .mk tagName tagType cases => by
    have hcases := fun (s : RecordLayoutBuilder × SizeExpr) line inline =>
      appendCases_places (recordLayoutAddOffset base s.2) (s.1.emit line inline,[]) cases
    simp only [SizeExpr.maximum, Nat.zero_max, recordLayoutAddOffset_eval] at hcases
    simp only [appendVariantPart, VariantPart.layout]
    split
    · generalize recordFieldDecl types tagType tagName = field
      have htag := appendField_places sizes field base (b,.zero)
      have hsize := appendField_size sizes field base (b,.zero)
      obtain ⟨hplaces, hmax⟩ := hcases (appendField field base (b,.zero)) _ _
      constructor
      · exact Places.append [field] htag hplaces (by rw [hsize]; simp [SizeExpr.eval])
      · rw [recordLayoutAddSize_eval, recordLayoutMaxSize_eval, hmax, hsize, Layout.total]
        simp [SizeExpr.eval]
    · obtain ⟨hplaces, hmax⟩ := hcases (b,.zero) _ _
      constructor
      · exact hplaces
      · rw [recordLayoutAddSize_eval, recordLayoutMaxSize_eval, hmax]
        simp [SizeExpr.eval]

theorem appendCases_places (unionOffset : SizeExpr) (s : RecordLayoutBuilder × List SizeExpr) :
    ∀ cases : List VariantCase,
    Places sizes (casesLayout types cases) (unionOffset.eval sizes) s.1
        (appendCases types unionOffset s cases).1 ∧
      SizeExpr.maximum sizes (appendCases types unionOffset s cases).2 =
        max (SizeExpr.maximum sizes s.2) ((casesLayout types cases).total (·.size sizes))
  | [] => by simp [appendCases, casesLayout, Places, Layout.place, Layout.total, named]
  | vc :: rest => by
    obtain ⟨hcase, hmax⟩ := appendCase_places unionOffset s vc
    obtain ⟨hrest, hmax'⟩ := appendCases_places unionOffset (appendCase types unionOffset s vc) rest
    constructor
    · rw [appendCases, Places, hrest, hcase, casesLayout, Layout.place, named, named, named,
        List.map_append, List.append_assoc]
    · rw [appendCases, hmax', hmax, casesLayout, Layout.total, Nat.max_assoc]

theorem appendCase_places (unionOffset : SizeExpr) (s : RecordLayoutBuilder × List SizeExpr) :
    ∀ vc : VariantCase,
    Places sizes (vc.layout types) (unionOffset.eval sizes) s.1
        (appendCase types unionOffset s vc).1 ∧
      SizeExpr.maximum sizes (appendCase types unionOffset s vc).2 =
        max (SizeExpr.maximum sizes s.2) ((vc.layout types).total (·.size sizes))
  | .mk labels fields variantPart => by
    have hfields := fun b => appendFields_places types sizes fields unionOffset (b,.zero)
    simp only [SizeExpr.eval, Nat.add_zero, Nat.zero_add] at hfields
    rw [appendCase]
    split
    · rename_i hempty
      obtain ⟨hfields, hpart⟩ : fields = [] ∧ variantPart = none := by simpa using hempty
      subst hfields hpart
      simp [VariantCase.layout, recordFieldDecls, Places, Layout.place, Layout.total, named]
    · cases variantPart with
      | none =>
        obtain ⟨hplaces, hsize⟩ := hfields (s.1.emit _ _)
        constructor
        · exact hplaces
        · rw [SizeExpr.maximum_append]
          simp only [SizeExpr.maximum, Nat.max_zero, VariantCase.layout, Layout.total_fields,
            Layout.total, hsize, Nat.add_zero]
      | some part =>
        obtain ⟨hplaces, hsize⟩ := hfields (s.1.emit _ _)
        have hpart := fun s : RecordLayoutBuilder × SizeExpr =>
          appendVariantPart_places (recordLayoutAddOffset unionOffset s.2) s.1 part
        obtain ⟨hpart, htotal⟩ := hpart (appendFields types fields unionOffset (s.1.emit _ _,.zero))
        constructor
        · exact Places.append _ hplaces hpart (by rw [recordLayoutAddOffset_eval, hsize])
        · rw [SizeExpr.maximum_append]
          simp only [SizeExpr.maximum, Nat.max_zero, VariantCase.layout, Layout.total_fields,
            recordLayoutAddSize_eval, hsize, htotal]

end

end
end RecordLayoutBuilder

section
variable (types : EmitTypes) (sizes : String → Nat)

/-- The offset expressions place the fields as the layout asks for. -/
structure IsPacked (layout : Layout EmitRecordFieldDecl) (packed : EmitPackedRecordLayout) : Prop where
  placed : offsets sizes packed.fieldOffsets = named (layout.place (·.size sizes) 0)
  size : packed.sizeExpr.eval sizes = layout.total (·.size sizes)
  inside : ∀ p ∈ layout.place (·.size sizes) 0, p.2 + p.1.size sizes ≤ packed.sizeExpr.eval sizes
  contiguous : ∀ path ∈ layout.paths (·.size sizes) 0, Layout.Contiguous (·.size sizes) 0 path
  disjoint : ∀ path ∈ layout.paths (·.size sizes) 0,
    path.Pairwise fun p q => p.2 + p.1.size sizes ≤ q.2
  largest : ∃ path ∈ layout.paths (·.size sizes) 0,
    packed.sizeExpr.eval sizes = Layout.extent (·.size sizes) path
  sameStart : ∀ pre₁ p post₁ pre₂ q post₂, pre₁ ++ p :: post₁ ∈ layout.paths (·.size sizes) 0 →
    pre₂ ++ q :: post₂ ∈ layout.paths (·.size sizes) 0 →
    pre₁.map (·.1) = pre₂.map (·.1) → p.2 = q.2

theorem computeRecordLayout_places (fields : List RecordField) (variantPart : Option VariantPart)
    (isPacked : Bool) :
    let packed := (computeRecordLayout types fields variantPart isPacked).packedLayout
    let layout := recordLayout types fields variantPart
    offsets sizes packed.fieldOffsets = named (layout.place (·.size sizes) 0) ∧
      packed.sizeExpr.eval sizes = layout.total (·.size sizes) := by
  obtain ⟨hplaces, hsize⟩ := RecordLayoutBuilder.appendFields_places types sizes fields .zero
    (.init isPacked,.zero)
  simp only [SizeExpr.eval, Nat.add_zero, Nat.zero_add] at hplaces hsize
  cases variantPart with
  | none =>
    constructor
    · exact hplaces
    · refine (recordLayoutAddSize_eval _ _).trans ?_
      rw [recordLayout, VariantCase.layout, Layout.total_fields]
      exact congrArg (· + 0) hsize
  | some part =>
    have hpart := fun s : RecordLayoutBuilder × SizeExpr =>
      RecordLayoutBuilder.appendVariantPart_places types sizes s.2
        { s.1 with sizeExpr := s.2 } part
    obtain ⟨hpart, htotal⟩ := hpart
      (RecordLayoutBuilder.appendFields types fields .zero (.init isPacked,.zero))
    constructor
    · exact RecordLayoutBuilder.Places.append _ hplaces hpart (by rw [hsize, Nat.zero_add])
    · refine (recordLayoutAddSize_eval _ _).trans ?_
      rw [recordLayout, VariantCase.layout, Layout.total_fields, ← hsize, ← htotal]
      rfl

/-- Every field follows the one before it on its case path, whatever the sizes are, and the record is
as large as its largest case path. -/
theorem computeRecordLayout_packed (fields : List RecordField) (variantPart : Option VariantPart)
    (isPacked : Bool) : IsPacked sizes (recordLayout types fields variantPart)
      (computeRecordLayout types fields variantPart isPacked).packedLayout := by
  obtain ⟨hplaced, hsize⟩ := computeRecordLayout_places types sizes fields variantPart isPacked
  constructor
  · exact hplaced
  · exact hsize
  · intro p hp
    obtain ⟨path, hpath, hp⟩ := Layout.mem_place.mp hp
    have hbound := ((Layout.paths_contiguous hpath).bounds p hp).2
    rw [hsize]
    exact Nat.le_trans hbound (by simpa using Layout.paths_extent_le hpath)
  · intro path hpath
    exact Layout.paths_contiguous hpath
  · intro path hpath
    exact (Layout.paths_contiguous hpath).disjoint
  · obtain ⟨path, hpath, hextent⟩ := Layout.exists_path_extent
      (recordLayout types fields variantPart) 0
    exact ⟨path, hpath, by rw [hsize, hextent]⟩
  · intro pre₁ p post₁ pre₂ q post₂ h₁ h₂ hpre
    exact Layout.same_start h₁ h₂ hpre

end
end Tp2cc
