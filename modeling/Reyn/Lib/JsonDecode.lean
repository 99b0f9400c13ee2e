import Reyn.Lib.JsonText

/-! # Decoding with its errors

`json.loads` of any text, with the exception that the first fault on the way raises: a text
that is no JSON, or an integer with more digits than are converted. A `String` holds no lone
surrogate, so a U+FFFD stands for each one that is escaped.
-/
namespace Py
namespace Json

inductive DecodeError where
  /-- `JSONDecodeError` -/
  | malformed
  /-- The `ValueError` of an integer of more than 4300 digits. -/
  | tooLong
  deriving DecidableEq

abbrev Decode := Except DecodeError

def codeChar (n : ℕ) : Char := if 0xD800 ≤ n ∧ n ≤ 0xDFFF then Char.ofNat 0xFFFD else Char.ofNat n

/-- The character of a `\u` escape that was read, and what follows it. -/
def escaped (n : ℕ) (after : List Char) : Char × List Char :=
  if 0xD800 ≤ n ∧ n ≤ 0xDBFF then (lowSurrogate n after).getD (codeChar n,after) else (codeChar n,after)

def decodeStr : ℕ → List Char → Decode (List Char × List Char)
  | 0, _ => .error .malformed
  | _ + 1, [] => .error .malformed
  | fuel + 1, c :: rest =>
    if c = '"' then .ok ([],rest)
    else if c = '\\' then
      match rest with
      | 'u' :: h₁ :: h₂ :: h₃ :: h₄ :: after =>
        match hex4 h₁ h₂ h₃ h₄ with
        | none => .error .malformed
        | some n => (decodeStr fuel (escaped n after).2).map fun p => ((escaped n after).1 :: p.1,p.2)
      | e :: after =>
        match unescape e with
        | none => .error .malformed
        | some c => (decodeStr fuel after).map fun p => (c :: p.1,p.2)
      | [] => .error .malformed
    else if c.toNat < 32 then .error .malformed
    else (decodeStr fuel rest).map fun p => (c :: p.1,p.2)

def maxStrDigits : ℕ := 4300

/-- The words and the numbers; an integer is converted as soon as it is read. -/
def decodeWord (cs : List Char) : Decode (Json × List Char) :=
  match parseWord cs with
  | none => .error .malformed
  | some (int i,rest) =>
    if maxStrDigits < (unsigned (cs.take (cs.length - rest.length))).length then .error .tooLong else .ok (int i,rest)
  | some (v,rest) => .ok (v,rest)

mutual
def decodeValue : ℕ → List Char → Decode (Json × List Char)
  | 0, _ => .error .malformed
  | fuel + 1, cs =>
    match cs with
    | '"' :: rest => (decodeStr (rest.length + 1) rest).map fun p => (str (String.ofList p.1),p.2)
    | '[' :: rest =>
      match skipWs rest with
      | ']' :: after => .ok (arr [],after)
      | rest => (decodeItems fuel rest).map fun p => (arr p.1,p.2)
    | '{' :: rest =>
      match skipWs rest with
      | '}' :: after => .ok (obj [],after)
      | rest => (decodeFields fuel rest).map fun p => (obj (collapse p.1),p.2)
    | cs => decodeWord cs
def decodeItems : ℕ → List Char → Decode (List Json × List Char)
  | 0, _ => .error .malformed
  | fuel + 1, cs => do
    let (x,rest) ← decodeValue fuel cs
    match skipWs rest with
    | ']' :: after => return ([x],after)
    | ',' :: after =>
      let (xs,after) ← decodeItems fuel (skipWs after)
      return (x :: xs,after)
    | _ => throw .malformed
def decodeFields : ℕ → List Char → Decode (List (String × Json) × List Char)
  | 0, _ => .error .malformed
  | fuel + 1, cs => do
    match cs with
    | '"' :: rest =>
      let (k,rest) ← decodeStr (rest.length + 1) rest
      match skipWs rest with
      | ':' :: rest =>
        let (v,rest) ← decodeValue fuel (skipWs rest)
        match skipWs rest with
        | '}' :: after => return ([(String.ofList k,v)],after)
        | ',' :: after =>
          let (fields,after) ← decodeFields fuel (skipWs after)
          return ((String.ofList k,v) :: fields,after)
        | _ => throw .malformed
      | _ => throw .malformed
    | _ => throw .malformed
end

/-- `json.loads(s)`; each bracket is met by a value and by its items. -/
def decode (s : String) : Decode Json :=
  match decodeValue (2 * s.toList.length + 2) (skipWs s.toList) with
  | .ok (v,rest) => if skipWs rest = [] then .ok v else .error .malformed
  | .error e => .error e

end Json
end Py
