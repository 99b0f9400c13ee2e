import Reyn.Lib.Number

/-! # Expressions

The syntax trees of the expression language. The arguments of a combinator are those that its
name asks for, so a lambda stands nowhere but in its own slot, and the path of `get` is a text.
-/
namespace Reyn.Expr

/-- The value of a literal; a number has no sign. -/
inductive Literal where
  | null
  | bool (b : Bool)
  | int (i : ℤ)
  | float (x : Float)
  | str (s : String)

inductive UnaryOp where
  | not
  | neg
  deriving DecidableEq

inductive CmpOp where
  | eq | ne | lt | gt | le | ge
  deriving DecidableEq

inductive ArithOp where
  | add | sub | mul | div
  deriving DecidableEq

inductive BinaryOp where
  | and
  | or
  | cmp (op : CmpOp)
  | arith (op : ArithOp)
  deriving DecidableEq

def CmpOp.text : CmpOp → String
  | eq => "=="
  | ne => "!="
  | lt => "<"
  | gt => ">"
  | le => "<="
  | ge => ">="

def ArithOp.text : ArithOp → String
  | add => "+"
  | sub => "-"
  | mul => "*"
  | div => "/"

/-- `_LAMBDA_COMBINATORS` -/
inductive LambdaCombinator where
  | map | filter | all | any | find
  deriving DecidableEq

/-- The combinators of one argument. -/
inductive PlainCombinator where
  | count | sum | parseJson
  deriving DecidableEq

def LambdaCombinator.name : LambdaCombinator → String
  | map => "map"
  | filter => "filter"
  | all => "all"
  | any => "any"
  | find => "find"

def PlainCombinator.name : PlainCombinator → String
  | count => "count"
  | sum => "sum"
  | parseJson => "parse_json"

inductive ExprNode where
  | literal (value : Literal)
  | path (first : String) (rest : List String)
  | listLit (items : List ExprNode)
  | objectLit (fields : List (String × ExprNode))
  | unary (op : UnaryOp) (operand : ExprNode)
  | binary (op : BinaryOp) (left right : ExprNode)
  | lambda (name : LambdaCombinator) (items : ExprNode) (param : String) (body : ExprNode)
  | plain (name : PlainCombinator) (arg : ExprNode)
  | join (items sep : ExprNode)
  | get (base : ExprNode) (path : String)
  | getOr (base : ExprNode) (path : String) (default : ExprNode)

end Reyn.Expr
