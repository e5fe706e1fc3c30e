import Mathlib.Logic.Basic

/-!
# The input language (`Language.SimpleC`, outside the repository)

The front end hands over an abstract syntax and one control-flow graph for each function. Only what
the transformers of `Domain/` look at is modelled; every expression form they reject with an
`error` is one constructor, `unsupported`.

| here | there |
| --- | --- |
| `SExpression`                      | `Expression SymId ()` |
| `BinaryOp`, `AssignOp`, `UnaryOp`  | `Language.C.Syntax.Ops` |
| `Constant`                         | `Language.C.Syntax.Constants`, by the `Value` that `toValue` gives |
| `SDeclaration`, `Declr`            | `TypeDecl`, `Decl`, `DeclElem`, `Declr`; types are left out but for array sizes |
| `Graph`, `EdgeInfo`, `EdgeTag`     | `Language.SimpleC.Flow`; `cond` stands for the tags of which `is_cond` holds |
-/

namespace Poet

abbrev NodeId := Int
abbrev EdgeId := Int

structure SymId where
  symId : Int
deriving DecidableEq, Repr

/-- `Value`: `VInt`, `VBool`, and the six constructors no transformer matches on as one. -/
inductive Value where
  | int (n : Int)
  | bool (b : Bool)
  | other (text : String)
deriving DecidableEq, Repr

structure Constant where
  toValue : Value
deriving DecidableEq, Repr

inductive BinaryOp where
  | mul | div | rmd | add | sub | shl | shr
  | le | gr | leq | geq | eq | neq
  | and | xor | or | lnd | lor
deriving DecidableEq, Repr

inductive AssignOp where
  | assign | mul | div | rmd | add | sub | shl | shr | and | xor | or
deriving DecidableEq, Repr

inductive UnaryOp where
  | preInc | preDec | postInc | postDec | adr | ind | plus | min | comp | neg
deriving DecidableEq, Repr

inductive SExpression where
  | assign (op : AssignOp) (lhs rhs : SExpression)
  | binary (op : BinaryOp) (lhs rhs : SExpression)
  | call (fn : SExpression) (args : List SExpression)
  | cast (e : SExpression)
  | cond (c : SExpression) (mThen : Option SExpression) (els : SExpression)
  | const (k : Constant)
  | index (arr idx : SExpression)
  | skip
  | unary (op : UnaryOp) (e : SExpression)
  | var (id : SymId)
  | unsupported (what : String)

inductive DerivedDeclr where
  /-- `ArrDeclr t (ArrSize b size)`. -/
  | arr (size : SExpression)
  | other

structure Declr where
  declrIdent : Option SymId
  declrType : List DerivedDeclr

inductive Initializer where
  | initExpr (e : SExpression)
  | initList

inductive SDeclaration where
  | typeDecl
  | decl (declarator : Option Declr) (init : Option Initializer)

/-- The code of an edge. -/
inductive EdgeCode where
  | D (decl : SDeclaration)
  | E (expr : SExpression)

inductive EdgeTag where
  | loopHead | ifJoin | exit | cond | other
deriving DecidableEq, Repr

structure EdgeInfo where
  tags : List EdgeTag
  code : EdgeCode

/-- A control-flow graph. Of its node table only the keys are kept, in ascending order: the collapse
resets every entry at the start of a run (`Class.hs:176`). -/
structure Graph where
  entryNode : NodeId
  nodes : List NodeId
  succs : NodeId → List (EdgeId × NodeId)
  edgeInfo : EdgeId → EdgeInfo
  parameters : List SDeclaration

end Poet
