import Reyn.Lib.JsonDecode
import Reyn.Pipeline.Expr
import Reyn.Pipeline.Parser

/-! # The evaluator

A walk over the tree against a context. Integers have any size; an integer that meets a float
is converted to one first, and a quotient of integers is a float before it is found exact.
What the decoder says of a text that is no JSON is a parameter.
-/
namespace Reyn.Expr
open Py Reyn.Parser

/-- A value of the language. A number or a name is as it is in JSON; a float may be an infinity or no number. -/
inductive Val where
  | null
  | bool (b : Bool)
  | int (i : ℤ)
  | float (x : Float)
  | str (s : String)
  | list (items : List Val)
  | obj (fields : List (String × Val))

abbrev Context := List (String × Val)

inductive Failure where
  | evalError (message : Message)
  | overflowError
  | valueError

abbrev Eval := Except Failure

def fail {A : Type} (message : Message) : Eval A := .error (.evalError message)

namespace Val

def ofLiteral : Literal → Val
  | .null => null
  | .bool b => bool b
  | .int i => int i
  | .float x => float x
  | .str s => str s

mutual
def ofJson : Json → Val
  | .null => null
  | .bool b => bool b
  | .int i => int i
  | .float f => float f.toFloat
  | .str s => str s
  | .arr xs => list (ofJsonItems xs)
  | .obj fields => obj (ofJsonFields fields)
def ofJsonItems : List Json → List Val
  | [] => []
  | x :: xs => ofJson x :: ofJsonItems xs
def ofJsonFields : List (String × Json) → List (String × Val)
  | [] => []
  | (k,v) :: rest => (k,ofJson v) :: ofJsonFields rest
end

def typeName : Val → String
  | null => "NoneType"
  | bool _ => "bool"
  | int _ => "int"
  | float _ => "float"
  | str _ => "str"
  | list _ => "list"
  | obj _ => "dict"

def isZero (x : Float) : Bool := floatValue x == some (((0 : ℚ) : WithTop ℚ) : Extended)

def truthy : Val → Bool
  | null => false
  | bool b => b
  | int i => i != 0
  | float x => !isZero x
  | str s => s != ""
  | list items => !items.isEmpty
  | obj fields => !fields.isEmpty

/-- The number that a value is for `==` and `<`. -/
def numeric? : Val → Option Extended
  | bool b => some (((if b then 1 else 0 : ℚ) : WithTop ℚ) : Extended)
  | int i => some (((i : ℚ) : WithTop ℚ) : Extended)
  | float x => floatValue x
  | _ => none

def isNumeric : Val → Bool
  | bool _ | int _ | float _ => true
  | _ => false

mutual
/-- `a == b` -/
def pyEq : Val → Val → Bool
  | null, null => true
  | str a, str b => a == b
  | list xs, list ys => pyEqItems xs ys
  | obj xs, obj ys => xs.length == ys.length && pyEqFields xs ys
  | bool a, b => Value.sameNumber (numeric? (bool a)) (numeric? b)
  | int a, b => Value.sameNumber (numeric? (int a)) (numeric? b)
  | float a, b => Value.sameNumber (numeric? (float a)) (numeric? b)
  | _, _ => false
termination_by structural a => a
def pyEqItems : List Val → List Val → Bool
  | [], [] => true
  | x :: xs, y :: ys => pyEq x y && pyEqItems xs ys
  | _, _ => false
termination_by structural a => a
def pyEqFields : List (String × Val) → List (String × Val) → Bool
  | [], _ => true
  | (k,x) :: rest, ys => (ys.any fun p => k == p.1 && pyEq x p.2) && pyEqFields rest ys
termination_by structural a => a
end

end Val

/-! ## Paths -/

def missingStructuredHint (part : String) (current : List (String × Val)) : String :=
  if part != "structured" || (current.lookup "text").isNone then ""
  else " -- this producer's canonical result carries no `structured` attachment (text-only " ++
    "or a legit-empty result), and `structured` is ABSENT-WHEN-EMPTY by design (see " ++
    "canonical_to_ctx_fields), not a pipeline bug. If this producer SHOULD support " ++
    "list-style iteration (e.g. `for_each`), its canonical mapper " ++
    "(reyn.core.offload.canonical) needs to emit a `structured` attachment for the data " ++
    "(see `web_search_to_canonical` / `file_to_canonical`'s `glob` branch for the " ++
    "pattern); if it genuinely has no list data, read `.text` instead"

/-- The rest of a path, from what the parts before it lead to. -/
def resolveParts (parts : List String) : List String → List String → Val → Eval Val
  | _, [], current => .ok current
  | consumed, part :: rest, .obj fields =>
    match fields.lookup part with
    | some v => resolveParts parts (consumed ++ [part]) rest v
    | none => fail [.text "path ",.repr (.str (".".intercalate parts)),.text " is absent: no field ",
        .repr (.str (".".intercalate (consumed ++ [part]))),.text (" in context" ++ missingStructuredHint part fields)]
  | consumed, part :: _, _ =>
    let at_ := ".".intercalate consumed
    fail [.text "path ",.repr (.str (".".intercalate parts)),
      .text (" is absent: " ++ (if at_ = "" then "<root>" else at_) ++ " is not an object, cannot access "),.repr (.str part)]

def resolvePath (parts : List String) (context : Context) : Eval Val := resolveParts parts [] parts (.obj context)

def resolvePathSafe (default : Val) : List String → Val → Val
  | [], current => current
  | part :: rest, .obj fields =>
    match fields.lookup part with
    | some v => resolvePathSafe default rest v
    | none => default
  | _ :: _, _ => default

/-- `text.split(".")` -/
def splitDots (text : String) : List String := (text.toList.splitOn '.').map String.ofList

/-! ## Operators -/

/-- The least number that rounds to none of the floats: halfway between the largest and `2 ^ 1024`. -/
def floatBound : ℕ := 2 ^ 1024 - 2 ^ 970

/-- `float(i)` -/
def toFloat (i : ℤ) : Eval Float :=
  if i.natAbs < floatBound then .ok (.ofModel (.pack (.ofInt .binary64 i))) else .error .overflowError

/-- The exact integer, before any rounding. -/
def unrounded (i : ℤ) : Float.Model.UnpackedFloat :=
  if h : 0 < i.natAbs then .finite (if 0 < i then .positive else .negative) i.natAbs 0 h else .zero .positive

/-- `a / b` of integers: the float next to the quotient. -/
def trueDivide (a b : ℤ) : Eval Float :=
  if floatBound * b.natAbs ≤ a.natAbs then .error .overflowError
  else .ok (.ofModel (.pack (.div .binary64 (unrounded a) (unrounded b))))

def evalUnary (op : UnaryOp) (value : Val) : Eval Val :=
  match op with
  | .not => .ok (.bool (!value.truthy))
  | .neg =>
    match value with
    | .int i => .ok (.int (-i))
    | .float x => .ok (.float (-x))
    | _ => fail [.text ("unary '-' requires a number, got " ++ value.typeName)]

/-- An order on the numbers that values are; a float that is no number is in none. -/
def orderNumbers (r : Extended → Extended → Bool) (left right : Val) : Bool :=
  match left.numeric?, right.numeric? with
  | some a, some b => r a b
  | _, _ => false

def evalOrdering (op : CmpOp) (numbers : Extended → Extended → Bool) (texts : String → String → Bool) (left right : Val) : Eval Val :=
  match left, right with
  | .str a, .str b => .ok (.bool (texts a b))
  | _, _ =>
    if left.isNumeric && right.isNumeric then .ok (.bool (orderNumbers numbers left right))
    else fail [.text "comparison ",.repr (.str op.text),
      .text (" requires two numbers or two strings, got " ++ left.typeName ++ " and " ++ right.typeName)]

def evalComparison (op : CmpOp) (left right : Val) : Eval Val :=
  match op with
  | .eq => .ok (.bool (left.pyEq right))
  | .ne => .ok (.bool (!left.pyEq right))
  | .lt => evalOrdering op (fun a b => a < b) (fun a b => a < b) left right
  | .gt => evalOrdering op (fun a b => b < a) (fun a b => b < a) left right
  | .le => evalOrdering op (fun a b => a ≤ b) (fun a b => a ≤ b) left right
  | .ge => evalOrdering op (fun a b => b ≤ a) (fun a b => b ≤ a) left right

def divisionByZero {A : Type} : Eval A := fail [.text "division by zero"]

def evalInts (op : ArithOp) (a b : ℤ) : Eval Val :=
  match op with
  | .add => .ok (.int (a + b))
  | .sub => .ok (.int (a - b))
  | .mul => .ok (.int (a * b))
  | .div =>
    if b = 0 then divisionByZero
    else (trueDivide a b).map fun result => if a % b = 0 then .int (a / b) else .float result

def evalFloats (op : ArithOp) (x y : Float) : Eval Val :=
  match op with
  | .add => .ok (.float (x + y))
  | .sub => .ok (.float (x - y))
  | .mul => .ok (.float (x * y))
  | .div => if Val.isZero y then divisionByZero else .ok (.float (x / y))

def evalArithmetic (op : ArithOp) (left right : Val) : Eval Val :=
  match left, right with
  | .int a, .int b => evalInts op a b
  | .float x, .float y => evalFloats op x y
  | .int a, .float y =>
    -- the divisor is compared with 0 before the dividend is converted
    if op = .div ∧ Val.isZero y then divisionByZero else (toFloat a).bind fun x => evalFloats op x y
  | .float x, .int b =>
    if op = .div ∧ b = 0 then divisionByZero else (toFloat b).bind fun y => evalFloats op x y
  | .str a, .str b => if op = .add then .ok (.str (a ++ b)) else refuseOperands left right
  | .list xs, .list ys => if op = .add then .ok (.list (xs ++ ys)) else refuseOperands left right
  | _, _ => refuseOperands left right
where
  refuseOperands (left right : Val) : Eval Val :=
    fail [.text "arithmetic ",.repr (.str op.text),.text (" requires two numbers (or '+' on two strings/lists), got " ++
      left.typeName ++ " and " ++ right.typeName)]

/-! ## Combinators -/

def requireList (combinator : String) : Val → Eval (List Val)
  | .list items => .ok items
  | v => fail [.text (combinator ++ "() requires a list, got " ++ v.typeName)]

/-- A combinator over the items of a list, from what the lambda does with one. -/
def evalLambda (name : LambdaCombinator) (items : List Val) (body : Val → Eval Val) : Eval Val :=
  let verdict := fun item => (body item).map Val.truthy
  match name with
  | .map => (items.mapM body).map .list
  | .filter => (items.filterM verdict).map .list
  | .all => (items.allM verdict).map .bool
  | .any => (items.anyM verdict).map .bool
  | .find => (items.findM? verdict).map fun found => found.getD .null

/-- `total += item` over the items -/
def sumItems : Val → List Val → Eval Val
  | total, [] => .ok total
  | total, item :: rest =>
    match item with
    | .int _ | .float _ => (evalArithmetic .add total item).bind fun total => sumItems total rest
    | _ => fail [.text ("sum() requires a list of numbers, found " ++ item.typeName)]

def requireTexts : List Val → Eval (List String)
  | [] => .ok []
  | .str s :: rest => (requireTexts rest).map (s :: ·)
  | item :: _ => fail [.text ("join() requires a list of strings, found " ++ item.typeName)]

def joinItems (items : List Val) (sep : Val) : Eval Val :=
  match sep with
  | .str s => (requireTexts items).map fun texts => .str (s.intercalate texts)
  | _ => fail [.text ("join() separator must be a string, got " ++ sep.typeName)]

section Evaluator
variable (decoderError : String → String)

def parseJson (value : Val) : Eval Val :=
  match value with
  | .str s =>
    match Json.decode s with
    | .ok v => .ok (.ofJson v)
    | .error .malformed => fail [.text ("parse_json() failed to decode: " ++ decoderError s)]
    -- only `JSONDecodeError` is caught
    | .error .tooLong => .error .valueError
  | _ => fail [.text ("parse_json() requires a string, got " ++ value.typeName)]

def evalPlain (name : PlainCombinator) (value : Val) : Eval Val :=
  match name with
  | .count => (requireList name.name value).map fun items => .int items.length
  | .sum => (requireList name.name value).bind (sumItems (.int 0))
  | .parseJson => parseJson decoderError value

mutual
def evaluate : ExprNode → Context → Eval Val
  | .literal value, _ => .ok (.ofLiteral value)
  | .path first rest, context => resolvePath (first :: rest) context
  | .listLit items, context => (evaluateItems items context).map .list
  | .objectLit fields, context => (evaluateFields fields context).map fun fields => .obj (Dict.ofList fields).items
  | .unary op operand, context => (evaluate operand context).bind (evalUnary op)
  | .binary .and left right, context =>
    (evaluate left context).bind fun value => if value.truthy then evaluate right context else .ok value
  | .binary .or left right, context =>
    (evaluate left context).bind fun value => if value.truthy then .ok value else evaluate right context
  | .binary (.cmp op) left right, context =>
    (evaluate left context).bind fun a => (evaluate right context).bind (evalComparison op a)
  | .binary (.arith op) left right, context =>
    (evaluate left context).bind fun a => (evaluate right context).bind (evalArithmetic op a)
  | .lambda name items param body, context =>
    (evaluate items context).bind fun value =>
      (requireList name.name value).bind fun items =>
        evalLambda name items fun item => evaluate body ((param,item) :: context)
  | .plain name arg, context => (evaluate arg context).bind (evalPlain decoderError name)
  | .join items sep, context =>
    (evaluate items context).bind fun value =>
      (requireList "join" value).bind fun items => (evaluate sep context).bind (joinItems items)
  | .get base path, context => (evaluate base context).map (resolvePathSafe .null (splitDots path))
  | .getOr base path default, context =>
    (evaluate base context).bind fun value =>
      (evaluate default context).map fun default => resolvePathSafe default (splitDots path) value
def evaluateItems : List ExprNode → Context → Eval (List Val)
  | [], _ => .ok []
  | item :: rest, context => (evaluate item context).bind fun v => (evaluateItems rest context).map (v :: ·)
def evaluateFields : List (String × ExprNode) → Context → Eval (List (String × Val))
  | [], _ => .ok []
  | (key,value) :: rest, context =>
    (evaluate value context).bind fun v => (evaluateFields rest context).map ((key,v) :: ·)
end

end Evaluator
end Reyn.Expr
