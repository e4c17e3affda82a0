/-! The syntax tree of the front end, without source locations and without the
descriptors that later passes attach to a node. -/
set_option autoImplicit false

namespace Tp2cc

inductive BinOp where
  | add | sub | mul | realDiv | intDiv | mod | shl | shr
  | and | or | xor
  | eq | notEq | lt | gt | ltEq | gtEq
  | in | is | as
  | symDiff
  deriving DecidableEq, Repr

inductive UnOp where
  | neg | plus | not
  deriving DecidableEq, Repr

inductive Expr where
  | ident (name : String)
  | intLit (value : Nat)
  | realLit (text : String)
  | stringLit (value : String)
  | nilLit
  | boolLit (value : Bool)
  | binary (op : BinOp) (lhs rhs : Expr) (qCheck : Bool)
  | unary (op : UnOp) (operand : Expr) (qCheck : Bool)
  | call (callee : Expr) (args : List Expr) (width precision : List (Option Expr))
      (qCheck rCheck : Bool)
  | index (base : Expr) (indices : List Expr)
  | member (base : Expr) (name : String)
  | deref (operand : Expr)
  | addrOf (doubleAddr : Bool) (operand : Expr)
  | setLit (elements : List Expr)
  | range (lo hi : Expr)
  | arrayConst (elements : List Expr)
  | recordConst (fields : List (String × Expr))

mutual

inductive Stmt where
  | compound (body : List Stmt)
  | assign (target value : Expr) (rCheck : Bool)
  | exprStmt (expr : Expr)
  | ifStmt (cond : Expr) (thenBranch : Stmt) (elseBranch : Option Stmt)
  | whileStmt (cond : Expr) (body : Stmt)
  | repeatStmt (body : List Stmt) (cond : Expr)
  | forTo (var : String) (start stop : Expr) (downto : Bool) (body : Stmt)
  | forIn (var : String) (inExpr : Expr) (body : Stmt)
  | caseStmt (selector : Expr) (arms : List CaseArm) (elseBranch : Option Stmt)
  | withStmt (exprs : List Expr) (body : Stmt)
  | goto (label : String)
  | labeled (label : String) (body : Stmt)
  | emptyStmt
  | asmStmt
  | tryStmt (body : List Stmt) (isFinally : Bool) (handlers : List ExceptHandler)
      (exceptElse : Option Stmt) (finallyBody : List Stmt)
  | raise (value : Option Expr)

inductive CaseArm where
  | mk (labels : List Expr) (body : Stmt)

/-- `var_name` is empty when the handler binds no variable. -/
inductive ExceptHandler where
  | mk (varName className : String) (body : Stmt)

end

inductive ParamMode where
  | value | var | const | constRef | out
  deriving DecidableEq, Repr

inductive ProcKind where
  | procedure | function | constructor | destructor
  deriving DecidableEq, Repr

structure ProcModifiers where
  isVirtual : Bool := false
  isAbstract : Bool := false
  isOverride : Bool := false
  isFinal : Bool := false
  isForward : Bool := false
  isInline : Bool := false
  isCdecl : Bool := false
  isNoreturn : Bool := false
  isExternal : Bool := false
  isAssembler : Bool := false
  isOverload : Bool := false
  externalLib : String := ""
  externalName : String := ""
  deriving DecidableEq, Repr

inductive ArrayKind where
  | fixed | open | dynamic
  deriving DecidableEq, Repr

inductive RecordMemberKind where
  | field | type
  deriving DecidableEq, Repr

structure RecordMember where
  kind : RecordMemberKind
  index : Nat
  deriving DecidableEq, Repr

inductive Visibility where
  | publicSection | privateSection | protectedSection | strictPrivate | strictProtected
  deriving DecidableEq, Repr

structure EnumMember where
  name : String
  value : Option Expr

mutual

inductive TypeExpr where
  | tyName (name : String)
  | tyArray (dims : List TypeExpr) (element : TypeExpr) (isPacked : Bool) (arrayKind : ArrayKind)
  | tyRecord (fields : List RecordField) (nestedTypes : List Decl)
      (memberOrder : List RecordMember) (variantPart : Option VariantPart) (isPacked : Bool)
  | tyObject (parent : String) (interfaces : List String) (members : List ObjectMember)
      (isReferenceType isAbstract isForward : Bool)
  | tyInterface (metadataString : String) (members : List ObjectMember)
  | tySet (element : TypeExpr)
  | tyFile (element : Option TypeExpr)
  | tyPointer (target : TypeExpr)
  | tyDistinct (underlying : TypeExpr)
  | tyMetaclass (className : String)
  | tyProcedural (isFunction : Bool) (params : List Param) (returnType : Option TypeExpr)
      (isCdecl isMethod : Bool)
  | tyEnum (packenum : Nat) (members : List EnumMember)
  | tySubrange (lo hi : Expr)
  | tyString (maxLength : Expr)

inductive Decl where
  | constDecl (name : String) (type : Option TypeExpr) (value : Expr)
  | typeDecl (name : String) (type : TypeExpr) (typeSectionId : Nat)
  | varDecl (names : List String) (type : TypeExpr) (init : Option Expr)
      (isAbsolute isExternal : Bool) (absoluteTarget : String) (externalName : Option Expr)
      (externalLib : String)
  | labelDecl (labels : List String)
  | procDecl (pkind : ProcKind) (name : String) (isOperator : Bool) (operatorToken ofType : String)
      (isClassMethod : Bool) (params : List Param) (returnType : Option TypeExpr)
      (modifiers : ProcModifiers) (locals : List Decl) (body : Option Stmt)

inductive Param where
  | mk (mode : ParamMode) (names : List String) (type : Option TypeExpr)
      (defaultValue : Option Expr)

inductive RecordField where
  | mk (names : List String) (type : TypeExpr)

inductive VariantPart where
  | mk (tagName : String) (tagType : TypeExpr) (cases : List VariantCase)

inductive VariantCase where
  | mk (labels : List Expr) (fields : List RecordField) (variantPart : Option VariantPart)

inductive ObjectMember where
  | field (vis : Visibility) (names : List String) (type : TypeExpr) (isClassVar : Bool)
  | method (vis : Visibility) (decl : Decl)
  | property (vis : Visibility) (name : String) (params : List Param) (type : TypeExpr)
      (readAccessor writeAccessor : List String) (isDefault : Bool)
  | typeDecl (vis : Visibility) (decl : Decl)

end

structure UnitNode where
  name : String
  interfaceUses : List String
  interfaceDecls : List Decl
  implUses : List String
  implDecls : List Decl
  initBody : Option Stmt
  finalBody : Option Stmt
  isProgram : Bool

end Tp2cc
