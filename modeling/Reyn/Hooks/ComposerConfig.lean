import Reyn.Lib.DepthFirst
import Reyn.Lib.Dict
import Reyn.Lib.TextFile
import Reyn.Pipeline.Parser

/-! # Composer definitions

The `composers:` block of a configuration, read from the values a YAML loader builds,
and the check that the composers do not feed each other in a cycle. What `float()`
makes of a text is a parameter.
-/
namespace Reyn
open Py Reyn.Parser

inductive ComposerOp where
  | all | any | seq | window | debounce | correlateBy | count | deadline
  deriving DecidableEq

def ComposerOp.ofValue : Value → Option ComposerOp
  | .str "all" => some .all
  | .str "any" => some .any
  | .str "seq" => some .seq
  | .str "window" => some .window
  | .str "debounce" => some .debounce
  | .str "correlate_by" => some .correlateBy
  | .str "count" => some .count
  | .str "deadline" => some .deadline
  | _ => none

inductive QueuePolicy where
  | dropOldest | dropNewest | reject
  deriving DecidableEq

def QueuePolicy.ofValue : Value → Option QueuePolicy
  | .str "drop_oldest" => some .dropOldest
  | .str "drop_newest" => some .dropNewest
  | .str "reject" => some .reject
  | _ => none

/-- A Python float, with exact arithmetic on the finite ones. -/
inductive PyFloat where
  | finite (q : ℚ)
  | inf | negInf | nan
  deriving DecidableEq

/-- What `<= 0` does not hold of. -/
def PyFloat.Positive : PyFloat → Prop
  | .finite q => 0 < q
  | .negInf => False
  | .inf | .nan => True

/-- The pattern's kind is the input's; the payload predicate is the mapping under `match`. -/
structure ComposerInput where
  kind : String
  payload : Option (List (Value × Value))
  deriving DecidableEq

structure ComposerPolicy where
  capacity : ℕ := 10
  overflow : QueuePolicy := .dropOldest
  ttlSeconds : PyFloat := .finite 300
  maxEventsPerKey : ℕ := 1000
  deriving DecidableEq

structure ComposerDef where
  name : String
  op : ComposerOp
  inputs : List ComposerInput
  emitKind : String
  policy : ComposerPolicy
  correlateBy : Option String
  threshold : Option ℕ
  untilInput : Option ComposerInput
  durable : Bool
  deriving DecidableEq

def composedKindPrefix : String := "composed:"

namespace ComposerConfig

inductive LoadFailure where
  /-- A `ComposerConfigError`. -/
  | refused (message : Message)
  /-- The `OverflowError` of an integer that no float reaches. -/
  | overflow

abbrev Load (A : Type) := Except LoadFailure A

def refuse {A : Type} (message : Message) : Load A := .error (.refused message)

/-- `isinstance(value, int)` -/
def asInt : Value → Option ℤ
  | .int i => some i
  | .bool b => some (if b then 1 else 0)
  | _ => none

/-- A positive integer, or a refusal. -/
def positive (v : Value) (message : Message) : Load ℕ :=
  match asInt v with
  | some i => if 1 ≤ i then .ok i.toNat else refuse message
  | none => refuse message

section Parse
variable (floatOf : String → Option PyFloat)

def scale : PyFloat → ℚ → PyFloat
  | .finite q, unit => .finite (q * unit)
  | f, _ => f

/-- `float(int)` raises beyond the largest float. -/
@[irreducible] def floatRange : ℕ := 2 ^ 1024 - 2 ^ 970

def durationUnit : Char → Option ℚ
  | 's' => some 1
  | 'm' => some 60
  | 'h' => some 3600
  | _ => none

def durationText (raw : Value) (text : List Char) : Load PyFloat :=
  match text.getLast?.bind durationUnit with
  | some unit =>
    match floatOf (String.ofList text.dropLast) with
    | some f => .ok (scale f unit)
    | none => refuse [.text "invalid duration ",.repr raw]
  | none =>
    match floatOf (String.ofList text) with
    | some f => .ok f
    | none => refuse [.text "invalid duration ",.repr raw]

def parseDuration (raw : Value) : Load PyFloat :=
  match raw with
  | .bool b => .ok (.finite (if b then 1 else 0))
  | .int i => if i.natAbs < floatRange then .ok (.finite i) else .error .overflow
  | .float f => durationText floatOf raw f.text
  | .str s => durationText floatOf raw (strip s.toList)
  | .other _ _ text => durationText floatOf raw (strip text.toList)
  | .none => durationText floatOf raw "None".toList
  -- the text of a container ends with a bracket
  | .tuple _ | .list _ | .dict _ => refuse [.text "invalid duration ",.repr raw]

def isBlank (s : String) : Bool := strip s.toList == []

def parseEventPattern (kind matcher source : Value) (context : Message) (fieldName : String) : Load ComposerInput :=
  match kind with
  | .str s =>
    if isBlank s then refuse (context ++ [.text ("." ++ fieldName ++ " is required.")])
    else match matcher with
      | .none => checkSource s none
      | .dict fields => checkSource s (some fields)
      | _ => refuse (context ++ [.text ".match must be a mapping."])
  | _ => refuse (context ++ [.text ("." ++ fieldName ++ " is required.")])
where
  checkSource (s : String) (payload : Option (List (Value × Value))) : Load ComposerInput :=
    if source = .none ∨ source = .str "builtin" then .ok ⟨s,payload⟩
    else refuse (context ++ [.text ".source=",.repr source,.text (" can never match — " ++
      "the HookBus only ever carries source=\"builtin\" (kind + payload already encode the " ++
      "source instance; see reyn.hooks.event_pattern.EventPattern.source). Omit `source` " ++
      "and correlate on a payload field instead.")])

def parseInput (raw : Value) (composerName : String) (index : ℕ) : Load ComposerInput :=
  let context : Message := [.text ("composers[" ++ composerName ++ "].inputs[" ++ toString index ++ "]")]
  match raw with
  | .dict raw => parseEventPattern (field raw "kind") (field raw "match") (field raw "source") context "kind"
  | raw => refuse (context ++ [.text " must be a mapping, got ",.repr (.str (typeName raw)),.text "."])

/-- The `{on, matcher}` pattern of a deadline or of its `until` block. -/
def parseDeadlinePattern (raw : Value) (context : Message) : Load ComposerInput :=
  match raw with
  | .dict raw => parseEventPattern (field raw "on") (field raw "matcher") (field raw "source") context "on"
  | raw => refuse (context ++ [.text " must be a mapping, got ",.repr (.str (typeName raw)),.text "."])

def parsePolicy (raw : Value) (composerName : String) : Load ComposerPolicy :=
  let at_ := "composers[" ++ composerName ++ "].policy"
  match raw with
  | .none => .ok {}
  | .dict raw => do
    let capacity ← positive ((Value.get? raw "capacity").getD (.int 10)) [.text (at_ ++ ".capacity must be a positive int.")]
    let overflowRaw := (Value.get? raw "overflow").getD (.str "drop_oldest")
    match QueuePolicy.ofValue overflowRaw with
    | none => refuse [.text (at_ ++ ".overflow="),.repr overflowRaw,
        .text " — must be one of ['drop_oldest', 'drop_newest', 'reject'] (Backpressure is v1-excluded)."]
    | some overflow =>
      let ttl ← parseDuration floatOf ((Value.get? raw "ttl").getD (.int 300))
      match ttl with
      | .negInf => refuse [.text (at_ ++ ".ttl must be positive.")]
      | .finite q =>
        if q ≤ 0 then refuse [.text (at_ ++ ".ttl must be positive.")]
        else withEvents raw at_ capacity overflow ttl
      -- neither is at most zero
      | .inf | .nan => withEvents raw at_ capacity overflow ttl
  | _ => refuse [.text (at_ ++ " must be a mapping.")]
where
  withEvents (raw : List (Value × Value)) (at_ : String) (capacity : ℕ) (overflow : QueuePolicy) (ttl : PyFloat) :
      Load ComposerPolicy := do
    let maxEvents ← positive ((Value.get? raw "max_events_per_key").getD (.int 1000))
      [.text (at_ ++ ".max_events_per_key must be a positive int.")]
    return ⟨capacity,overflow,ttl,maxEvents⟩

/-- The input patterns and the `until` pattern. -/
def parsePatterns (raw : List (Value × Value)) (name : String) (op : ComposerOp) :
    Load (List ComposerInput × Option ComposerInput) :=
  let at_ := "composers[" ++ name ++ "]"
  if op = .deadline then do
    let on ← parseDeadlinePattern (.dict raw) [.text at_]
    match field raw "until" with
    | .none => refuse [.text (at_ ++ ".op=deadline requires an `until` mapping.")]
    | untilRaw =>
      let untilInput ← parseDeadlinePattern untilRaw [.text (at_ ++ ".until")]
      return ([on],some untilInput)
  else
    match field raw "inputs" with
    | .list (first :: rest) => do
      let inputs ← ((first :: rest).zipIdx).mapM fun p => parseInput p.1 name p.2
      return (inputs,none)
    | _ => refuse [.text (at_ ++ ".inputs must be a non-empty list.")]

def parseEmit (raw : List (Value × Value)) (name : String) (op : ComposerOp) : Load String :=
  let at_ := "composers[" ++ name ++ "]"
  match field raw "emit" with
  | .none => if op = .deadline then .ok (composedKindPrefix ++ name) else refuse [.text (at_ ++ ".emit.kind is required.")]
  | .dict emit =>
    match field emit "kind" with
    | .str kind =>
      if composedKindPrefix.toList.isPrefixOf kind.toList then .ok kind
      else refuse [.text (at_ ++ ".emit.kind="),.repr (.str kind),.text (" must start with 'composed:' " ++
        "(bare `emit`/non-namespaced kinds collide with the P6 audit-event surface — " ++
        "CLAUDE.md's 3-event naming rule).")]
    | _ => refuse [.text (at_ ++ ".emit.kind is required.")]
  | _ => refuse [.text (at_ ++ ".emit.kind is required.")]

def parseCorrelateBy (raw : List (Value × Value)) (name : String) (op : ComposerOp) : Load (Option String) :=
  let at_ := "composers[" ++ name ++ "]"
  match field raw "correlate_by" with
  | .none => if op = .correlateBy then refuse [.text (at_ ++ ".op=correlate_by requires `correlate_by`.")] else .ok none
  | .str s =>
    if op = .correlateBy ∧ s = "" then refuse [.text (at_ ++ ".op=correlate_by requires `correlate_by`.")]
    else .ok (some s)
  | _ => refuse [.text (at_ ++ ".correlate_by must be a string field name.")]

def parseThreshold (raw : List (Value × Value)) (name : String) (op : ComposerOp) : Load (Option ℕ) :=
  let at_ := "composers[" ++ name ++ "]"
  match field raw "count" with
  | .none => if op = .count then refuse [.text (at_ ++ ".op=count requires `count` (the threshold).")] else .ok none
  | v => (positive v [.text (at_ ++ ".count must be a positive int.")]).map some

/-- A deadline's `ttl` stands beside the policy; the policy's own goes first. -/
def policyRaw (raw : List (Value × Value)) (op : ComposerOp) : Value :=
  let policy := field raw "policy"
  if op = .deadline ∧ field raw "ttl" ≠ .none then
    match policy with
    | .dict fields => .dict (if (Value.get? fields "ttl").isSome then fields else fields ++ [(.str "ttl",field raw "ttl")])
    | _ => .dict [(.str "ttl",field raw "ttl")]
  else policy

def parseOne (raw : Value) (index : ℕ) : Load ComposerDef :=
  match raw with
  | .dict raw =>
    match field raw "name" with
    | .str name =>
      if isBlank name then refuse [.text ("composers[" ++ toString index ++ "].name is required.")]
      else
        let at_ := "composers[" ++ name ++ "]"
        match ComposerOp.ofValue (field raw "op") with
        | none => refuse [.text (at_ ++ ".op="),.repr (field raw "op"),.text (" — must be one of ['all', 'any', 'seq', " ++
            "'window', 'debounce', 'correlate_by', 'count', 'deadline'].")]
        | some op => do
          let (inputs,untilInput) ← parsePatterns raw name op
          let emitKind ← parseEmit raw name op
          let correlateBy ← parseCorrelateBy raw name op
          let threshold ← parseThreshold raw name op
          if op = .seq ∧ inputs.length < 2 then refuse [.text (at_ ++ ".op=seq requires at least 2 inputs.")]
          else
            let policy ← parsePolicy floatOf (policyRaw raw op) name
            if op = .count ∧ threshold.any (policy.maxEventsPerKey < ·) then
              refuse [.text (at_ ++ ".count=" ++ toString (threshold.getD 0) ++ " exceeds policy.max_events_per_key=" ++
                toString policy.maxEventsPerKey ++ " — count could never reach its threshold.")]
            else
              match field raw "durable" with
              | .none => return ⟨name,op,inputs,emitKind,policy,correlateBy,threshold,untilInput,op = .deadline⟩
              | .bool durable => return ⟨name,op,inputs,emitKind,policy,correlateBy,threshold,untilInput,durable⟩
              | v => refuse [.text (at_ ++ ".durable must be a boolean (got "),.repr (.str (typeName v)),.text ")."]
    | _ => refuse [.text ("composers[" ++ toString index ++ "].name is required.")]
  | raw => refuse [.text ("composers[" ++ toString index ++ "] must be a mapping, got "),.repr (.str (typeName raw)),.text "."]

end Parse

/-! ## The check for cycles -/

section Cycles
variable (definitions : List ComposerDef)

/-- The last composer of the list that emits a kind. -/
def emitToName : Dict String String := .ofList (definitions.map fun d => (d.emitKind,d.name))

def byName : Dict String ComposerDef := .ofList (definitions.map fun d => (d.name,d))

/-- The other composers that the inputs of a composer lead to. -/
def depsOf (d : ComposerDef) : List String :=
  d.inputs.filterMap fun inp => ((emitToName definitions).get? inp.kind).filter (· ≠ d.name)

def edges : Dict String (List String) := .ofList (definitions.map fun d => (d.name,depsOf definitions d))

def edgesFrom (name : String) : List String := ((edges definitions).get? name).getD []

/-- A composer that takes the kind it emits. -/
def feedsItself (d : ComposerDef) : Bool := d.inputs.any fun inp => inp.kind == d.emitKind

def checkNoCycles : Load Unit :=
  match definitions.find? feedsItself with
  | some d => refuse [.text "composer ",.repr (.str d.name),.text " feeds its own composed kind — a 1-cycle."]
  | none =>
    match DepthFirst.search (edgesFrom definitions) (byName definitions).keys with
    | .ok _ => .ok ()
    | .error cycle => refuse [.text ("composer composition cycle detected: " ++ String.intercalate " -> " cycle)]

end Cycles

/-- The entries of the block, one after the other. -/
def parseAll (floatOf : String → Option PyFloat) (raw : List Value) : Load (List ComposerDef) :=
  raw.zipIdx.mapM fun p => parseOne floatOf p.1 p.2

def loadComposers (floatOf : String → Option PyFloat) (raw : Value) : Load (List ComposerDef) :=
  match raw with
  | .none => .ok []
  | .list raw => do
    let definitions ← parseAll floatOf raw
    let names := definitions.map (·.name)
    if names.Nodup then
      checkNoCycles definitions
      return definitions
    else refuse [.text "duplicate composer name(s) in composers: ",.repr (.list (names.map .str))]
  | raw => refuse [.text "composers must be a list, got ",.repr (.str (typeName raw)),.text "."]

end ComposerConfig
end Reyn
