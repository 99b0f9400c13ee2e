import Reyn.Lib.Value

/-! # Pipelines

The step dataclasses of the executor. A field that the parser does not check keeps the
value the document has there.
-/
namespace Reyn
open Py

/-- A value of `ToolStep.args`: a literal, or an `ExprRef`. -/
inductive Arg where
  | literal (value : Value)
  | exprRef (src : String)

structure TransformStep where
  value : String
  output : Value

structure ToolStep where
  name : String
  args : List (Value × Arg)
  output : Value
  schema : Option String
  onError : Option String

structure AgentStep where
  prompt : String
  identity : Option String
  capabilities : Option (List String)
  schema : Option String
  model : Option String
  output : Value

structure CallStep where
  pipeline : String
  pass : List (String × String)
  output : Option String

structure MatchCase where
  pipeline : String
  pass : List (String × String)

structure MatchStep where
  on : String
  cases : List (Value × MatchCase)
  default : Option MatchCase
  output : Option String

/-- The list source of a `fold` or a `for_each`. -/
structure ListSource where
  over_ : Option String
  items : Option (List Value)

inductive Step where
  | transform (step : TransformStep)
  | tool (step : ToolStep)
  | agent (step : AgentStep)
  | call (step : CallStep)
  | match (step : MatchStep)
  | fold (init : String) (run : Step) (output : String) (source : ListSource) (maxItems : Option ℕ)
  | forEach (run collect : Step) (onError : String) (source : ListSource) (maxParallel : Option ℕ) (output : Option String)
  | parallel (branches : List (Value × Step)) (collect : Step) (onError : String) (output : Option String)

structure Pipeline where
  steps : List Step
  description : String
  name : String

/-! ## The failure policy -/

/-- The zeros of the decimal digits that `\d` matches and `int` reads. -/
def decimalZeros : List ℕ :=
  [0x30,0x660,0x6f0,0x7c0,0x966,0x9e6,0xa66,0xae6,0xb66,0xbe6,0xc66,0xce6,0xd66,0xde6,0xe50,0xed0,0xf20,0x1040,0x1090,
    0x17e0,0x1810,0x1946,0x19d0,0x1a80,0x1a90,0x1b50,0x1bb0,0x1c40,0x1c50,0xa620,0xa8d0,0xa900,0xa9d0,0xa9f0,0xaa50,
    0xabf0,0xff10,0x104a0,0x10d30,0x11066,0x110f0,0x11136,0x111d0,0x112f0,0x11450,0x114d0,0x11650,0x116c0,0x11730,
    0x118e0,0x11950,0x11c50,0x11d50,0x11da0,0x16a60,0x16ac0,0x16b50,0x1d7ce,0x1d7d8,0x1d7e2,0x1d7ec,0x1d7f6,0x1e140,
    0x1e2f0,0x1e950,0x1fbf0]

def decimalValue (c : Char) : Option ℕ :=
  (decimalZeros.find? fun z => z ≤ c.toNat ∧ c.toNat < z + 10).map (c.toNat - ·)

inductive OnError where
  | continue
  | abort
  | retry (retries : ℕ)
  deriving DecidableEq

/-- Why a policy has no normal form: no such policy, or a number `int` does not read. -/
inductive OnErrorFault where
  | unknown
  | tooLong
  deriving DecidableEq

/-- The digits in `retry(n)`; `$` also matches before a line break at the end. -/
def retryDigits (raw : String) : Option (List ℕ) :=
  let body := raw.toList.drop 6
  let body := if body.getLast? = some '\n' then body.dropLast else body
  if "retry(".toList.isPrefixOf raw.toList ∧ body.getLast? = some ')' ∧ body.dropLast ≠ [] then
    body.dropLast.mapM decimalValue
  else none

/-- What the parser accepts as a policy. -/
def isOnError (raw : String) : Bool := raw == "continue" || raw == "abort" || (retryDigits raw).isSome

/-- `_parse_on_error` -/
def parseOnError (raw : String) : Except OnErrorFault OnError :=
  if raw = "continue" then .ok .continue
  else if raw = "abort" then .ok .abort
  else
    match retryDigits raw with
    | none => .error .unknown
    | some ds => if ds.length ≤ 4300 then .ok (.retry (ds.foldl (fun n d => 10 * n + d) 0)) else .error .tooLong

/-- The attempts at an item. -/
def OnError.attempts : OnError → ℕ
  | .retry n => 1 + n
  | _ => 1

/-- An accepted policy fails to normalise only by its length. -/
theorem parseOnError_of_isOnError {raw : String} (h : isOnError raw = true) : parseOnError raw ≠ .error .unknown := by
  intro he
  unfold parseOnError at he
  split at he
  · cases he
  · rename_i hcontinue
    split at he
    · cases he
    · rename_i habort
      split at he
      · rename_i hdigits
        simp [isOnError,hcontinue,habort,hdigits] at h
      · split at he <;> cases he

end Reyn
