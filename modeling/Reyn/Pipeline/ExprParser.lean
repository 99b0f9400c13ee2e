import Reyn.Lib.Descent
import Reyn.Lib.TextFile
import Reyn.Pipeline.Expr

/-! # The parser of expressions

A text is cut into tokens by an alternation of patterns, the first that matches at a
position, and the tokens are read by recursive descent. The end of the list of tokens is
the `EOF` token. The reader of an expression is handed to the readers of its parts, so
that only the nesting of brackets is bounded: by the number of tokens, which no text
exceeds. What `\d` matches beyond ASCII and the values of numerals are parameters.
-/
namespace Reyn.Expr
open Descent

/-! ## Tokens -/

inductive Symbol where
  | number (text : List Char)
  | string (raw : List Char)
  | arrow
  | dot
  | cmp (op : CmpOp)
  | lparen
  | rparen
  | lbrace
  | rbrace
  | lbracket
  | rbracket
  | comma
  | colon
  | plus
  | minus
  | star
  | slash
  | ident (name : String)
  deriving DecidableEq

structure Token where
  symbol : Symbol
  pos : ℕ
  deriving DecidableEq

inductive Expected where
  | eof | lparen | rparen | rbrace | rbracket | comma | colon | arrow | ident | string
  deriving DecidableEq

/-- Why a text is no expression; each stands for a message with its data. `valueError` is what `int` raises on its own, and
`tooDeep` that the brackets are nested deeper than there are tokens. -/
inductive ParseFailure where
  | emptySource
  | unexpectedCharacter (pos : ℕ)
  | expected (what : Expected) (found : Option Token)
  | unexpectedToken (found : Option Token)
  | keywordAsExpression (name : String) (pos : ℕ)
  | notACombinator (name : String) (pos : ℕ)
  | keywordAsParameter (name : String) (pos : ℕ)
  | valueError (text : List Char)
  | tooDeep
  deriving DecidableEq

/-- `\d`, `int` of a text of digits (`none` for one that is too long), and `float`. -/
structure Numerals where
  isDigit : Char → Bool
  int : List Char → Option ℕ
  float : List Char → Float

/-! ## Cutting a text -/

def isBlank (c : Char) : Bool := c == ' ' || c == '\t' || c == '\r' || c == '\n'

def isIdentStart (c : Char) : Bool := ('A' ≤ c && c ≤ 'Z') || ('a' ≤ c && c ≤ 'z') || c == '_'

def isIdentPart (c : Char) : Bool := isIdentStart c || ('0' ≤ c && c ≤ '9')

/-- The body of a quoted text with its closing quote; `.` does not match a newline. -/
def quotedBody (quote : Char) : List Char → Option (List Char)
  | [] => none
  | c :: cs =>
    if c = quote then some [c]
    else if c = '\\' then
      match cs with
      | [] => none
      | d :: ds => if d = '\n' then none else (quotedBody quote ds).map fun body => c :: d :: body
    else (quotedBody quote cs).map (c :: ·)

section Scan
variable (n : Numerals)

/-- `\d+\.\d+|\d+` at a digit. -/
def numberText (cs : List Char) : List Char :=
  match cs.dropWhile n.isDigit with
  | '.' :: d :: ds => if n.isDigit d then cs.takeWhile n.isDigit ++ '.' :: (d :: ds).takeWhile n.isDigit else cs.takeWhile n.isDigit
  | _ => cs.takeWhile n.isDigit

/-- The symbols of one and two characters. -/
def punctuation : List Char → Option (Symbol × List Char)
  | '-' :: '>' :: _ => some (.arrow,['-','>'])
  | '.' :: _ => some (.dot,['.'])
  | '=' :: '=' :: _ => some (.cmp .eq,['=','='])
  | '!' :: '=' :: _ => some (.cmp .ne,['!','='])
  | '<' :: '=' :: _ => some (.cmp .le,['<','='])
  | '>' :: '=' :: _ => some (.cmp .ge,['>','='])
  | '<' :: _ => some (.cmp .lt,['<'])
  | '>' :: _ => some (.cmp .gt,['>'])
  | '(' :: _ => some (.lparen,['('])
  | ')' :: _ => some (.rparen,[')'])
  | '{' :: _ => some (.lbrace,['{'])
  | '}' :: _ => some (.rbrace,['}'])
  | '[' :: _ => some (.lbracket,['['])
  | ']' :: _ => some (.rbracket,[']'])
  | ',' :: _ => some (.comma,[','])
  | ':' :: _ => some (.colon,[':'])
  | '+' :: _ => some (.plus,['+'])
  | '-' :: _ => some (.minus,['-'])
  | '*' :: _ => some (.star,['*'])
  | '/' :: _ => some (.slash,['/'])
  | _ => none

/-- What `_TOKEN_RE` matches at a position: the symbol, or none for blanks, and the text. -/
def scan : List Char → Option (Option Symbol × List Char)
  | [] => none
  | c :: cs =>
    if isBlank c then some (none,c :: cs.takeWhile isBlank)
    else if n.isDigit c then some (some (.number (numberText n (c :: cs))),numberText n (c :: cs))
    else if c = '\'' ∨ c = '"' then (quotedBody c cs).map fun body => (some (.string (c :: body)),c :: body)
    else match punctuation (c :: cs) with
      | some (symbol,text) => some (some symbol,text)
      | none =>
        if isIdentStart c then some (some (.ident (String.ofList (c :: cs.takeWhile isIdentPart))),c :: cs.takeWhile isIdentPart)
        else none

/-- The loop of `_tokenize`; every match takes a character. -/
def tokenizeLoop : ℕ → ℕ → List Char → Except ParseFailure (List Token)
  | _, _, [] => .ok []
  | 0, pos, _ => .error (.unexpectedCharacter pos)
  | fuel + 1, pos, c :: cs =>
    match scan n (c :: cs) with
    | none => .error (.unexpectedCharacter pos)
    | some (none,text) => tokenizeLoop fuel (pos + text.length) ((c :: cs).drop text.length)
    | some (some symbol,text) =>
      (tokenizeLoop fuel (pos + text.length) ((c :: cs).drop text.length)).map fun tokens => ⟨symbol,pos⟩ :: tokens

def tokenize (src : List Char) : Except ParseFailure (List Token) := tokenizeLoop n src.length 0 src

end Scan

def escaped (c : Char) : Char :=
  if c = 'n' then '\n' else if c = 't' then '\t' else c

def unescapeBody : List Char → List Char
  | [] => []
  | c :: cs =>
    if c = '\\' then
      match cs with
      | [] => [c]
      | d :: ds => escaped d :: unescapeBody ds
    else c :: unescapeBody cs

/-- `_unescape_string`: without the quotes around it. -/
def unescapeString (raw : List Char) : String := String.ofList (unescapeBody (raw.drop 1).dropLast)

/-! ## Reading tokens -/

abbrev ExprReader := Reader ParseFailure Token ExprNode

def Expected.accepts : Expected → Symbol → Bool
  | .lparen, .lparen => true
  | .rparen, .rparen => true
  | .rbrace, .rbrace => true
  | .rbracket, .rbracket => true
  | .comma, .comma => true
  | .colon, .colon => true
  | .arrow, .arrow => true
  | .ident, .ident _ => true
  | .string, .string _ => true
  | _, _ => false

/-- `_expect` -/
def expect (what : Expected) : Reader ParseFailure Token Unit :=
  token (fun ts => .expected what ts.head?) fun t => if what.accepts t.symbol then some () else none

def identOf (t : Token) : Option (String × ℕ) :=
  match t.symbol with
  | .ident name => some (name,t.pos)
  | _ => none

def nameOf (t : Token) : Option String := (identOf t).map Prod.fst

def rawOf (t : Token) : Option (List Char) :=
  match t.symbol with
  | .string raw => some raw
  | _ => none

def expectIdent : Reader ParseFailure Token (String × ℕ) := token (fun ts => .expected .ident ts.head?) identOf

def expectName : Reader ParseFailure Token String := token (fun ts => .expected .ident ts.head?) nameOf

def expectString : Reader ParseFailure Token (List Char) := token (fun ts => .expected .string ts.head?) rawOf

def isComma (t : Token) : Bool := t.symbol == .comma

def isDot (t : Token) : Bool := t.symbol == .dot

def isOr (t : Token) : Option BinaryOp := if t.symbol = .ident "or" then some .or else none

def isAnd (t : Token) : Option BinaryOp := if t.symbol = .ident "and" then some .and else none

/-- `_CMP_OPS` -/
def isComparison (t : Token) : Option CmpOp :=
  match t.symbol with
  | .cmp op => some op
  | _ => none

def isAdditive (t : Token) : Option BinaryOp :=
  match t.symbol with
  | .plus => some (.arith .add)
  | .minus => some (.arith .sub)
  | _ => none

def isMultiplicative (t : Token) : Option BinaryOp :=
  match t.symbol with
  | .star => some (.arith .mul)
  | .slash => some (.arith .div)
  | _ => none

/-- `_KEYWORDS` -/
def keywords : List String := ["true","false","null","not","and","or"]

def constantOf (name : String) : Option Literal :=
  if name = "true" then some (.bool true)
  else if name = "false" then some (.bool false)
  else if name = "null" then some .null
  else none

/-- `COMBINATOR_NAMES`, by the arguments they take. -/
inductive CombinatorName where
  | lambda (name : LambdaCombinator)
  | plain (name : PlainCombinator)
  | join
  | get
  deriving DecidableEq

def combinators : List (String × CombinatorName) :=
  [("map",.lambda .map),("filter",.lambda .filter),("all",.lambda .all),("any",.lambda .any),("find",.lambda .find),
    ("count",.plain .count),("sum",.plain .sum),("parse_json",.plain .parseJson),("join",.join),("get",.get)]

/-- The path of its names. -/
def pathOf : List String → ExprNode
  | [] => .path "" []
  | first :: rest => .path first rest

section Read
variable (n : Numerals) (expr : ExprReader)

def numberLiteral (text : List Char) : Except ParseFailure Literal :=
  if '.' ∈ text then .ok (.float (n.float text))
  else match n.int text with
    | some i => .ok (.int i)
    | none => .error (.valueError text)

/-- What stands up to a closing bracket: nothing, or items. -/
def enclosed {A : Type} (closer : Expected) (items : Reader ParseFailure Token (List A)) : Reader ParseFailure Token (List A) := fun ts =>
  (if ts.head?.any (fun t => closer.accepts t.symbol) then .ok ([],ts) else items ts).bind fun r =>
    (expect closer r.2).map fun c => (r.1,c.2)

def parseList : ExprReader := fun ts => (enclosed .rbracket (sepBy isComma expr) ts).map fun r => (.listLit r.1,r.2)

def parseObjectField : Reader ParseFailure Token (String × ExprNode) := fun ts =>
  (expectName ts).bind fun key => (expect .colon key.2).bind fun c => (expr c.2).map fun value => ((key.1,value.1),value.2)

def parseObject : ExprReader := fun ts =>
  (enclosed .rbrace (sepBy isComma (parseObjectField expr)) ts).map fun r => (.objectLit r.1,r.2)

def parseLambda : Reader ParseFailure Token (String × ExprNode) := fun ts =>
  (expectIdent ts).bind fun param =>
    if param.1.1 ∈ keywords then .error (.keywordAsParameter param.1.1 param.1.2)
    else (expect .arrow param.2).bind fun c => (expr c.2).map fun body => ((param.1.1,body.1),body.2)

/-- What a combinator takes in its brackets, without the closing one. -/
def parseArgs : CombinatorName → ExprReader
  | .lambda name, ts =>
    (expr ts).bind fun items => (expect .comma items.2).bind fun c =>
      (parseLambda expr c.2).map fun lam => (.lambda name items.1 lam.1.1 lam.1.2,lam.2)
  | .plain name, ts => (expr ts).map fun arg => (.plain name arg.1,arg.2)
  | .join, ts =>
    (expr ts).bind fun items => (expect .comma items.2).bind fun c => (expr c.2).map fun sep => (.join items.1 sep.1,sep.2)
  | .get, ts =>
    (expr ts).bind fun base => (expect .comma base.2).bind fun c => (expectString c.2).bind fun path =>
      match path.2 with
      | t :: rest =>
        if isComma t then (expr rest).map fun default => (.getOr base.1 (unescapeString path.1) default.1,default.2)
        else .ok (.get base.1 (unescapeString path.1),t :: rest)
      | [] => .ok (.get base.1 (unescapeString path.1),[])

def parseCombinator (name : CombinatorName) : ExprReader := fun ts =>
  (expect .lparen ts).bind fun o => (parseArgs expr name o.2).bind fun r => (expect .rparen r.2).map fun c => (r.1,c.2)

/-- `_parse_ident_led`, at the name. -/
def parseIdentLed (name : String) (t : Token) : ExprReader := fun rest =>
  match constantOf name with
  | some value => .ok (.literal value,rest)
  | none =>
    if name ∈ keywords then .error (.keywordAsExpression name t.pos)
    else if rest.head?.any (fun o => o.symbol == .lparen) then
      match combinators.lookup name with
      | some combinator => parseCombinator expr combinator rest
      | none => .error (.notACombinator name t.pos)
    else (sepBy isDot expectName (t :: rest)).map fun r => (pathOf r.1,r.2)

def parsePrimary : ExprReader
  | [] => .error (.unexpectedToken none)
  | t :: rest =>
    match t.symbol with
    | .number text => (numberLiteral n text).map fun value => (.literal value,rest)
    | .string raw => .ok (.literal (.str (unescapeString raw)),rest)
    | .lparen => (expr rest).bind fun r => (expect .rparen r.2).map fun c => (r.1,c.2)
    | .lbracket => parseList expr rest
    | .lbrace => parseObject expr rest
    | .ident name => parseIdentLed expr name t rest
    | _ => .error (.unexpectedToken (some t))

def parseUnary : ExprReader
  | [] => parsePrimary n expr []
  | t :: rest =>
    if t.symbol = .minus then (parseUnary rest).map fun r => (.unary .neg r.1,r.2) else parsePrimary n expr (t :: rest)

def parseMultiplicative : ExprReader := chained isMultiplicative .binary (parseUnary n expr)

def parseAdditive : ExprReader := chained isAdditive .binary (parseMultiplicative n expr)

def parseComparison : ExprReader := fun ts =>
  (parseAdditive n expr ts).bind fun left =>
    match left.2 with
    | [] => .ok left
    | t :: rest =>
      match isComparison t with
      | some op => (parseAdditive n expr rest).map fun right => (.binary (.cmp op) left.1 right.1,right.2)
      | none => .ok left

def parseNot : ExprReader
  | [] => parseComparison n expr []
  | t :: rest =>
    if t.symbol = .ident "not" then (parseNot rest).map fun r => (.unary .not r.1,r.2) else parseComparison n expr (t :: rest)

def parseAnd : ExprReader := chained isAnd .binary (parseNot n expr)

def parseOrOf : ExprReader := chained isOr .binary (parseAnd n expr)

end Read

/-- `_parse_or` with brackets nested at most so deep. -/
def parseOr (n : Numerals) : ℕ → ExprReader
  | 0 => fun _ => .error .tooDeep
  | depth + 1 => parseOrOf n (parseOr n depth)

def parseProgram (n : Numerals) (tokens : List Token) : Except ParseFailure ExprNode :=
  (parseOr n (tokens.length + 1) tokens).bind fun r =>
    match r.2 with
    | [] => .ok r.1
    | t :: _ => .error (.expected .eof (some t))

/-- A text of blanks is refused before it is cut. -/
def parse (n : Numerals) (src : List Char) : Except ParseFailure ExprNode :=
  if src.all Py.isSpace then .error .emptySource else (tokenize n src).bind (parseProgram n)

end Reyn.Expr
