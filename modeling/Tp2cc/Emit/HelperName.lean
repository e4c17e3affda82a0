import Mathlib.Data.Nat.Digits.Lemmas
import Tp2cc.Lexer.Scan

/-! The C++ names of operator helpers, which spell the token, the parameters and the result. -/
set_option autoImplicit false

namespace Tp2cc.HelperName

structure TypeSymbol where
  definingUnit : String
  ownerPath : List String
  name : String
  ne_empty : name.toList ≠ []
  identifier : ∀ c ∈ name.toList, isIdentCont c = true

mutual

/-- A type with what the registry has bound to it. `owned` is any type whose descriptor has an
owner; the other constructors are the kinds of syntax. `ρ` is what tells apart types of one
kind, where nothing of it is read. -/
inductive BoundType (ρ : Type) where
  | owned (symbol : TypeSymbol)
  | tyName (descriptor : ρ)
  | tyArray (arrayKind : ArrayKind) (dims : List ρ) (element : Option (BoundType ρ))
      (isPacked : Bool)
  | tyRecord (declaration : ρ)
  | tyObject (isReferenceType : Bool) (declaration : ρ)
  | tyInterface (declaration : ρ)
  | tySet (element : BoundType ρ)
  | tyFile (element : Option (BoundType ρ)) (isText : Bool)
  | tyPointer (target : Option (BoundType ρ))
  | tyProcedural (isFunction : Bool) (params : BoundParams ρ) (returnType : Option (BoundType ρ))
      (isCdecl isMethod : Bool)
  | tyEnum (declaration : ρ)
  | tySubrange (bounds : ρ)
  | tyString (maxLength : Option ρ)
  | tyMetaclass (target : TypeSymbol ⊕ ρ)
  | tyDistinct (underlying : BoundType ρ)

inductive BoundParams (ρ : Type) where
  | nil
  | cons (mode : ParamMode) (names : List String) (type : Option (BoundType ρ))
      (rest : BoundParams ρ)

end

variable {ρ : Type}

def hexDigit (n : Nat) : Char := "0123456789abcdef".toList.getD n '0'

def encodeChar (ch : Char) : List Char :=
  if 65 ≤ ch.toNat ∧ ch.toNat ≤ 90 then [Char.ofNat (ch.toNat-65+97)]
  else if (97 ≤ ch.toNat ∧ ch.toNat ≤ 122) ∨ (48 ≤ ch.toNat ∧ ch.toNat ≤ 57) then [ch]
  else if ch = '_' then ['_', 'u']
  else ['x', hexDigit (ch.toNat >>> 4 &&& 15), hexDigit (ch.toNat &&& 15)]

def encodeHelperIdent (name : String) : String :=
  if name = "" then "empty" else String.ofList (name.toList.flatMap encodeChar)

def encodeHelperParamMode : ParamMode → String
  | .value => "value"
  | .var => "var"
  | .const => "const"
  | .constRef => "constref"
  | .out => "out"

/-- `for (size_t i = 0; i < repeats; ++i)` of `encode_helper_params`. -/
def repeatParam (mode : ParamMode) (typeCode : String) : Nat → String → String
  | 0, out => out
  | repeats+1, out =>
    let out := if out ≠ "" then out ++ "_" else out
    repeatParam mode typeCode repeats (out ++ encodeHelperParamMode mode ++ "_" ++ typeCode)

def repeats (names : List String) : Nat := if names = [] then 1 else names.length

/-- `if (params.empty()) return "noargs";` in front of the text of the loop. -/
def orNoargs : BoundParams ρ → String → String
  | .nil, _ => "noargs"
  | .cons .., out => out

def metaclassCode : TypeSymbol ⊕ ρ → String
  | .inl target => "metaclass_" ++ encodeHelperIdent target.name
  | .inr _ => "metaclass_unbound"

mutual

def encodeHelperType : BoundType ρ → String
  | .owned symbol => "name_" ++ encodeHelperIdent symbol.name
  | .tyName _ => "unbound"
  | .tyArray arrayKind dims element _ =>
    let out :=
      match arrayKind with
      | .open => "openarr"
      | .dynamic => "dynarr"
      | .fixed => "arr" ++ toString dims.length
    out ++ "_" ++ codeOr "void" element
  | .tyRecord _ => "record"
  | .tyObject isReferenceType _ => if isReferenceType then "class" else "object"
  | .tyInterface _ => "interface"
  | .tySet element => "set_" ++ encodeHelperType element
  | .tyFile element isText =>
    if isText then "text" else "file_" ++ codeOr "untyped" element
  | .tyPointer target => "ptr_" ++ codeOr "void" target
  | .tyProcedural isFunction params returnType _ isMethod =>
    (if isMethod then "method" else "proc") ++
      (if isFunction then "_fn_" else "_proc_") ++
      orNoargs params (paramLoop params "") ++ "_ret_" ++
      if isFunction then codeOr "void" returnType else "void"
  | .tyEnum _ => "enum"
  | .tySubrange _ => "subrange"
  | .tyString maxLength => if maxLength.isSome then "string_sized" else "string"
  | .tyMetaclass target => metaclassCode target
  | .tyDistinct underlying => "distinct_" ++ encodeHelperType underlying

/-- `for (const auto& param : params)`, from a group on. -/
def paramLoop : BoundParams ρ → String → String
  | .nil, out => out
  | .cons mode names type rest, out =>
    paramLoop rest (repeatParam mode (codeOr "untyped" type) (repeats names) out)

def codeOr (none : String) : Option (BoundType ρ) → String
  | .some t => encodeHelperType t
  | .none => none

end

def encodeHelperParams (params : BoundParams ρ) : String :=
  orNoargs params (paramLoop params "")

inductive OperatorToken where
  | assign | plus | minus | star | slash | eq | lt | gt | ltEq | gtEq | notEq
  | div | mod | and | or | xor | shl | shr | enumerator
  deriving DecidableEq

def OperatorToken.text : OperatorToken → String
  | .assign => ":="
  | .plus => "+"
  | .minus => "-"
  | .star => "*"
  | .slash => "/"
  | .eq => "="
  | .lt => "<"
  | .gt => ">"
  | .ltEq => "<="
  | .gtEq => ">="
  | .notEq => "<>"
  | .div => "div"
  | .mod => "mod"
  | .and => "and"
  | .or => "or"
  | .xor => "xor"
  | .shl => "shl"
  | .shr => "shr"
  | .enumerator => "enumerator"

def pascalOperatorCxxToken : OperatorToken → String
  | .plus => "+"
  | .minus => "-"
  | .star => "*"
  | .slash => "/"
  | .mod => "%"
  | .eq => "=="
  | .notEq => "!="
  | .lt => "<"
  | .gt => ">"
  | .ltEq => "<="
  | .gtEq => ">="
  | .and => "&"
  | .or => "|"
  | .xor => "^"
  | .shl => "<<"
  | .shr => ">>"
  | .assign | .div | .enumerator => ""

structure OperatorDecl (ρ : Type) where
  operatorToken : OperatorToken
  params : BoundParams ρ
  returnType : Option (BoundType ρ)

def pascalOperatorDeclUsesNamedHelper (pd : OperatorDecl ρ) : Bool :=
  pd.operatorToken == .assign || pascalOperatorCxxToken pd.operatorToken == ""

def signatureText (pd : OperatorDecl ρ) : String :=
  "_params_" ++ encodeHelperParams pd.params ++ "_ret_" ++
    codeOr "void" pd.returnType

def pascalOperatorNamedHelperName (pd : OperatorDecl ρ) : String :=
  "tp2cc_operator_" ++ encodeHelperIdent pd.operatorToken.text ++ signatureText pd

def pascalAssignmentOperatorHelperName (pd : OperatorDecl ρ) : String :=
  "tp2cc_operator_assign" ++ signatureText pd

def pascalOperatorDeclNameToCxx (pd : OperatorDecl ρ) : String :=
  if pd.operatorToken = .assign then pascalAssignmentOperatorHelperName pd
  else if pascalOperatorDeclUsesNamedHelper pd then pascalOperatorNamedHelperName pd
  else "operator" ++ pascalOperatorCxxToken pd.operatorToken

mutual

/-- The type without the names and the groups of the parameters of procedural types. -/
def BoundType.unnamed : BoundType ρ → BoundType ρ
  | .owned symbol => .owned symbol
  | .tyName descriptor => .tyName descriptor
  | .tyArray arrayKind dims element isPacked =>
    .tyArray arrayKind dims (unnamedOption element) isPacked
  | .tyRecord declaration => .tyRecord declaration
  | .tyObject isReferenceType declaration => .tyObject isReferenceType declaration
  | .tyInterface declaration => .tyInterface declaration
  | .tySet element => .tySet element.unnamed
  | .tyFile element isText => .tyFile (unnamedOption element) isText
  | .tyPointer target => .tyPointer (unnamedOption target)
  | .tyProcedural isFunction params returnType isCdecl isMethod =>
    .tyProcedural isFunction params.unnamed (unnamedOption returnType) isCdecl isMethod
  | .tyEnum declaration => .tyEnum declaration
  | .tySubrange bounds => .tySubrange bounds
  | .tyString maxLength => .tyString maxLength
  | .tyMetaclass target => .tyMetaclass target
  | .tyDistinct underlying => .tyDistinct underlying.unnamed

def BoundParams.unnamed : BoundParams ρ → BoundParams ρ
  | .nil => .nil
  | .cons mode names type rest =>
    (List.replicate (repeats names) (unnamedOption type)).foldr (.cons mode []) rest.unnamed

def unnamedOption : Option (BoundType ρ) → Option (BoundType ρ)
  | .none => .none
  | .some t => .some t.unnamed

end

def BoundParams.list : BoundParams ρ → List (ParamMode × Option (BoundType ρ))
  | .nil => []
  | .cons mode names type rest =>
    List.replicate (repeats names) (mode, unnamedOption type) ++ rest.list

/-- What tells two operators apart; the names of parameters do not. -/
structure Signature (ρ : Type) where
  operatorToken : OperatorToken
  params : List (ParamMode × Option (BoundType ρ))
  returnType : Option (BoundType ρ)

def OperatorDecl.signature (pd : OperatorDecl ρ) : Signature ρ :=
  ⟨pd.operatorToken, pd.params.list, unnamedOption pd.returnType⟩

inductive LeafWord where
  | unbound | record | classType | object | interface | textFile | enum | subrange | void | untyped
  deriving DecidableEq

inductive UnaryWord where
  | openarr | dynarr | set | file | ptr | distinct
  deriving DecidableEq

inductive NameWord where
  | name | metaclass
  deriving DecidableEq

mutual

/-- What the code of a type keeps of it. -/
inductive Kept where
  | leaf (word : LeafWord)
  | string (sized : Bool)
  | unary (word : UnaryWord) (inner : Kept)
  | array (dims : Nat) (element : Kept)
  | named (word : NameWord) (name : List Char)
  | procedural (isMethod isFunction : Bool) (params : KeptParams) (result : Kept)

inductive KeptParams where
  | nil
  | cons (mode : ParamMode) (type : Kept) (rest : KeptParams)

end

def KeptParams.push (mode : ParamMode) (type : Kept) : Nat → KeptParams → KeptParams
  | 0, rest => rest
  | n+1, rest => .cons mode type (push mode type n rest)

def foldChar (ch : Char) : Char :=
  if 65 ≤ ch.toNat ∧ ch.toNat ≤ 90 then Char.ofNat (ch.toNat-65+97) else ch

/-- Without a class the code is that of a class of this name. -/
def metaclassName : TypeSymbol ⊕ ρ → String
  | .inl target => target.name
  | .inr _ => "unbound"

def foldName (name : String) : List Char := name.toList.map foldChar

mutual

/-- Of a type with an owner only the name of the owner is kept, of an array the number of its
dimensions, and of most anonymous types nothing but their kind. -/
def BoundType.kept : BoundType ρ → Kept
  | .owned symbol => .named .name (foldName symbol.name)
  | .tyName _ => .leaf .unbound
  | .tyArray arrayKind dims element _ =>
    match arrayKind with
    | .open => .unary .openarr (keptOr .void element)
    | .dynamic => .unary .dynarr (keptOr .void element)
    | .fixed => .array dims.length (keptOr .void element)
  | .tyRecord _ => .leaf .record
  | .tyObject isReferenceType _ => if isReferenceType then .leaf .classType else .leaf .object
  | .tyInterface _ => .leaf .interface
  | .tySet element => .unary .set element.kept
  | .tyFile element isText =>
    if isText then .leaf .textFile else .unary .file (keptOr .untyped element)
  | .tyPointer target => .unary .ptr (keptOr .void target)
  | .tyProcedural isFunction params returnType _ isMethod =>
    .procedural isMethod isFunction params.kept
      (if isFunction then keptOr .void returnType else .leaf .void)
  | .tyEnum _ => .leaf .enum
  | .tySubrange _ => .leaf .subrange
  | .tyString maxLength => .string maxLength.isSome
  | .tyMetaclass target => .named .metaclass (foldName (metaclassName target))
  | .tyDistinct underlying => .unary .distinct underlying.kept

def BoundParams.kept : BoundParams ρ → KeptParams
  | .nil => .nil
  | .cons mode names type rest =>
    .push mode (keptOr .untyped type) (repeats names) rest.kept

def keptOr (none : LeafWord) : Option (BoundType ρ) → Kept
  | .some t => t.kept
  | .none => .leaf none

end

def OperatorDecl.Alike (p q : OperatorDecl ρ) : Prop :=
  p.operatorToken = q.operatorToken ∧ p.params.kept = q.params.kept ∧
    keptOr .void p.returnType = keptOr .void q.returnType

end Tp2cc.HelperName
