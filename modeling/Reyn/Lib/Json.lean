import Mathlib

/-! # JSON values

Objects keep their members in order, as a text lists them. A number without a
fraction and an exponent is an integer; any other number is kept as its numeral,
since no arithmetic is done on it.
-/
namespace Py

/-- The digits of an integer part: a lone zero, or a run that does not start with zero. -/
def natPart : List Char → Option (List Char)
  | '0' :: rest => some rest
  | c :: rest => if c.isDigit then some (rest.dropWhile Char.isDigit) else none
  | [] => none

def digitsPart : List Char → Option (List Char)
  | c :: rest => if c.isDigit then some (rest.dropWhile Char.isDigit) else none
  | [] => none

def fracPart : List Char → Option (List Char)
  | '.' :: rest => digitsPart rest
  | rest => some rest

def expPart : List Char → Option (List Char)
  | 'e' :: '+' :: rest | 'E' :: '+' :: rest | 'e' :: '-' :: rest | 'E' :: '-' :: rest => digitsPart rest
  | 'e' :: rest | 'E' :: rest => digitsPart rest
  | rest => some rest

def unsigned : List Char → List Char
  | '-' :: rest => rest
  | rest => rest

/-- The characters a number is made of. -/
def numChar (c : Char) : Bool := c.isDigit || c == '-' || c == '+' || c == '.' || c == 'e' || c == 'E'

def isInteger (cs : List Char) : Bool := natPart (unsigned cs) == some []

def isNumber (cs : List Char) : Bool := (((natPart (unsigned cs)).bind fracPart).bind expPart) == some []

/-- A number with a fraction or an exponent. -/
def isReal (cs : List Char) : Bool := cs.all numChar && isNumber cs && !isInteger cs

/-- The numeral of a floating-point value, the three non-finite ones included. -/
structure FloatLit where
  text : List Char
  wf : isReal text ∨ text = "NaN".toList ∨ text = "Infinity".toList ∨ text = "-Infinity".toList
  deriving DecidableEq

inductive Json where
  | null
  | bool (b : Bool)
  | int (i : Int)
  | float (f : FloatLit)
  | str (s : String)
  | arr (items : List Json)
  | obj (fields : List (String × Json))
  deriving Inhabited

namespace Json

mutual
def beq : Json → Json → Bool
  | null, null => true
  | bool a, bool b => a == b
  | int a, int b => a == b
  | float a, float b => a == b
  | str a, str b => a == b
  | arr xs, arr ys => beqItems xs ys
  | obj xs, obj ys => beqFields xs ys
  | _, _ => false
termination_by structural a => a
def beqItems : List Json → List Json → Bool
  | [], [] => true
  | x :: xs, y :: ys => beq x y && beqItems xs ys
  | _, _ => false
termination_by structural a => a
def beqFields : List (String × Json) → List (String × Json) → Bool
  | [], [] => true
  | (a,x) :: xs, (b,y) :: ys => a == b && (beq x y && beqFields xs ys)
  | _, _ => false
termination_by structural a => a
end

mutual
theorem beq_iff : ∀ a b, beq a b = true ↔ a = b
  | null, b | bool _, b | int _, b | float _, b | str _, b => by cases b <;> simp [beq]
  | arr xs, b => by cases b <;> simp [beq,beqItems_iff xs]
  | obj xs, b => by cases b <;> simp [beq,beqFields_iff xs]
theorem beqItems_iff : ∀ xs ys, beqItems xs ys = true ↔ xs = ys
  | [], ys => by cases ys <;> simp [beqItems]
  | x :: xs, ys => by cases ys <;> simp [beqItems,beq_iff x,beqItems_iff xs]
theorem beqFields_iff : ∀ xs ys, beqFields xs ys = true ↔ xs = ys
  | [], ys => by cases ys <;> simp [beqFields]
  | (a,x) :: xs, ys => by cases ys <;> simp [beqFields,beq_iff x,beqFields_iff xs,Prod.ext_iff,and_assoc]
end

instance : DecidableEq Json := fun a b => decidable_of_iff _ (beq_iff a b)

/-- The value of an integer; a boolean counts as one, as `isinstance(v, int)` has it. -/
def asInt : Json → Option Int
  | int i => some i
  | bool b => some (if b then 1 else 0)
  | _ => none

def asStr : Json → Option String
  | str s => some s
  | _ => none

def asArr : Json → Option (List Json)
  | arr xs => some xs
  | _ => none

/-- An optional string: `None` is written `null`. -/
def ofStr? : Option String → Json
  | some s => str s
  | none => null

@[simp] theorem asInt_int (i : Int) : asInt (int i) = some i := rfl
@[simp] theorem asStr_str (s : String) : asStr (str s) = some s := rfl
@[simp] theorem asArr_arr (xs : List Json) : asArr (arr xs) = some xs := rfl

end Json
end Py
