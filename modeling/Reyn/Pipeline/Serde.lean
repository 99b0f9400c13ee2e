import Reyn.Pipeline.Steps

/-! # Pipelines as dictionaries

The encoders and decoders of a stored pipeline. A decoder gives `none` where the code raises
and on a field of a type that no encoder writes.
-/
namespace Reyn.Serde
open Py

/-- `PipelineSerdeError`: a literal argument with the reserved key. -/
structure PipelineSerdeError where
  stepName : String
  key : Value

def exprrefKey : String := "__exprref__"

/-- A dictionary with names for keys. -/
def named (fields : List (String × Value)) : Value := .dict (fields.map fun p => (.str p.1,p.2))

/-! ## Encoders -/

def encodeArg (stepName : String) (key : Value) : Arg → Except PipelineSerdeError Value
  | .exprRef src => .ok (named [(exprrefKey,.str src)])
  | .literal (.dict fields) => if (Value.get? fields exprrefKey).isSome then .error ⟨stepName,key⟩ else .ok (.dict fields)
  | .literal v => .ok v

def encodeTransform (step : TransformStep) : Value :=
  named [("kind",.str "transform"),("value",.str step.value),("output",step.output)]

def encodeTool (step : ToolStep) : Except PipelineSerdeError Value :=
  (step.args.mapM fun p => (encodeArg step.name p.1 p.2).map fun v => (p.1,v)).map fun args =>
    named [("kind",.str "tool"),("name",.str step.name),("args",.dict args),("output",step.output),
      ("schema",.ofStr? step.schema),("on_error",.ofStr? step.onError)]

def encodeStrings : Option (List String) → Value
  | some names => .list (names.map .str)
  | none => .none

def encodeAgent (step : AgentStep) : Value :=
  named [("kind",.str "agent"),("prompt",.str step.prompt),("identity",.ofStr? step.identity),
    ("capabilities",encodeStrings step.capabilities),("schema",.ofStr? step.schema),("model",.ofStr? step.model),
    ("output",step.output)]

def encodePassEntries (entries : List (String × String)) : Value := .list (entries.map fun p => .list [.str p.1,.str p.2])

def encodeCall (step : CallStep) : Value :=
  named [("kind",.str "call"),("pipeline",.str step.pipeline),("pass",encodePassEntries step.pass),
    ("output",.ofStr? step.output)]

def encodeMatchCase (case_ : MatchCase) : Value :=
  named [("pipeline",.str case_.pipeline),("pass",encodePassEntries case_.pass)]

def encodeDefault : Option MatchCase → Value
  | some case_ => encodeMatchCase case_
  | none => .none

def encodeMatch (step : MatchStep) : Value :=
  named [("kind",.str "match"),("on",.str step.on),("cases",.dict (step.cases.map fun p => (p.1,encodeMatchCase p.2))),
    ("default",encodeDefault step.default),("output",.ofStr? step.output)]

def encodeItems : Option (List Value) → Value
  | some items => .list items
  | none => .none

def encodeBound : Option ℕ → Value
  | some n => .int n
  | none => .none

def encodeFold (init : String) (run : Value) (output : String) (source : ListSource) (maxItems : Option ℕ) : Value :=
  named [("kind",.str "fold"),("over",.ofStr? source.over_),("items",encodeItems source.items),("init",.str init),("do",run),
    ("output",.str output),("max_items",encodeBound maxItems)]

def encodeForEach (run collect : Value) (onError : String) (source : ListSource) (maxParallel : Option ℕ)
    (output : Option String) : Value :=
  named [("kind",.str "for_each"),("over",.ofStr? source.over_),("items",encodeItems source.items),
    ("max_parallel",encodeBound maxParallel),("on_error",.str onError),("do",run),("collect",collect),
    ("output",.ofStr? output)]

def encodeParallel (branches : List (Value × Value)) (collect : Value) (onError : String) (output : Option String) : Value :=
  named [("kind",.str "parallel"),("branches",.dict branches),("collect",collect),("on_error",.str onError),
    ("output",.ofStr? output)]

mutual
def stepToDict : Step → Except PipelineSerdeError Value
  | .transform step => .ok (encodeTransform step)
  | .tool step => encodeTool step
  | .agent step => .ok (encodeAgent step)
  | .call step => .ok (encodeCall step)
  | .match step => .ok (encodeMatch step)
  | .fold init run output source maxItems => (stepToDict run).map fun run => encodeFold init run output source maxItems
  | .forEach run collect onError source maxParallel output => do
    let run ← stepToDict run
    let collect ← stepToDict collect
    return encodeForEach run collect onError source maxParallel output
  | .parallel branches collect onError output => do
    let branches ← branchesToDict branches
    let collect ← stepToDict collect
    return encodeParallel branches collect onError output
def branchesToDict : List (Value × Step) → Except PipelineSerdeError (List (Value × Value))
  | [] => .ok []
  | (name,step) :: rest => do
    let v ← stepToDict step
    let vs ← branchesToDict rest
    return (name,v) :: vs
end

def pipelineToDict (pipeline : Pipeline) : Except PipelineSerdeError Value :=
  (pipeline.steps.mapM stepToDict).map fun steps =>
    named [("description",.str pipeline.description),("name",.str pipeline.name),("steps",.list steps)]

/-! ## Decoders -/

/-- `data.get(key)` -/
def field (data : List (Value × Value)) (key : String) : Value := (Value.get? data key).getD .none

def decodeArg : Value → Arg
  | .dict [(.str key,.str src)] => if key = exprrefKey then .exprRef src else .literal (.dict [(.str key,.str src)])
  | v => .literal v

def str? : Value → Option String
  | .str s => some s
  | _ => none

/-- A string or `None`. -/
def optStr? : Value → Option (Option String)
  | .none => some none
  | .str s => some (some s)
  | _ => none

/-- The members of a dictionary; `dict(data or {})`. -/
def members? : Value → Option (List (Value × Value))
  | .none => some []
  | .dict fields => some fields
  | _ => none

def decodeTransform (data : List (Value × Value)) : Option TransformStep := do
  let value ← (Value.get? data "value").bind str?
  return ⟨value,field data "output"⟩

def decodeTool (data : List (Value × Value)) : Option ToolStep := do
  let name ← (Value.get? data "name").bind str?
  let args ← members? (field data "args")
  let schema ← optStr? (field data "schema")
  let onError ← optStr? (field data "on_error")
  return ⟨name,args.map fun p => (p.1,decodeArg p.2),field data "output",schema,onError⟩

def decodeStrings : Value → Option (Option (List String))
  | .none => some none
  | .list xs => (xs.mapM str?).map some
  | _ => none

def decodeAgent (data : List (Value × Value)) : Option AgentStep := do
  let prompt ← (Value.get? data "prompt").bind str?
  let identity ← optStr? (field data "identity")
  let capabilities ← decodeStrings (field data "capabilities")
  let schema ← optStr? (field data "schema")
  let model ← optStr? (field data "model")
  return ⟨prompt,identity,capabilities,schema,model,field data "output"⟩

def decodePassEntry : Value → Option (String × String)
  | .list [.str name,.str expr] => some (name,expr)
  | _ => none

def decodePassEntries : Value → Option (List (String × String))
  | .none => some []
  | .list entries => entries.mapM decodePassEntry
  | _ => none

def decodeCall (data : List (Value × Value)) : Option CallStep := do
  let pipeline ← (Value.get? data "pipeline").bind str?
  let pass ← decodePassEntries (field data "pass")
  let output ← optStr? (field data "output")
  return ⟨pipeline,pass,output⟩

def decodeMatchCase : Value → Option MatchCase
  | .dict data => do
    let pipeline ← (Value.get? data "pipeline").bind str?
    let pass ← decodePassEntries (field data "pass")
    return ⟨pipeline,pass⟩
  | _ => none

def decodeDefault : Value → Option (Option MatchCase)
  | .none => some none
  | v => (decodeMatchCase v).map some

def decodeMatch (data : List (Value × Value)) : Option MatchStep := do
  let on ← (Value.get? data "on").bind str?
  let cases ← members? (field data "cases")
  let cases ← cases.mapM fun p => (decodeMatchCase p.2).map fun case_ => (p.1,case_)
  let default ← decodeDefault (field data "default")
  let output ← optStr? (field data "output")
  return ⟨on,cases,default,output⟩

def decodeItems : Value → Option (Option (List Value))
  | .none => some none
  | .list items => some (some items)
  | _ => none

def decodeBound : Value → Option (Option ℕ)
  | .none => some none
  | .int i => some (some i.toNat)
  | _ => none

def decodeSource (data : List (Value × Value)) : Option ListSource := do
  let over_ ← optStr? (field data "over")
  let items ← decodeItems (field data "items")
  return ⟨over_,items⟩

section Nested
variable (stepFromDict : Value → Option Step)

def decodeFold (data : List (Value × Value)) : Option Step := do
  let init ← (Value.get? data "init").bind str?
  let run ← (Value.get? data "do").bind stepFromDict
  let output ← (Value.get? data "output").bind str?
  let source ← decodeSource data
  let maxItems ← decodeBound (field data "max_items")
  return .fold init run output source maxItems

def decodeForEach (data : List (Value × Value)) : Option Step := do
  let run ← (Value.get? data "do").bind stepFromDict
  let collect ← (Value.get? data "collect").bind stepFromDict
  let onError ← (Value.get? data "on_error").bind str?
  let source ← decodeSource data
  let maxParallel ← decodeBound (field data "max_parallel")
  let output ← optStr? (field data "output")
  return .forEach run collect onError source maxParallel output

def decodeParallel (data : List (Value × Value)) : Option Step := do
  let branches ← members? (field data "branches")
  let branches ← branches.mapM fun p => (stepFromDict p.2).map fun step => (p.1,step)
  let collect ← (Value.get? data "collect").bind stepFromDict
  let onError ← optStr? (field data "on_error")
  let output ← optStr? (field data "output")
  return .parallel branches collect (match onError with
    | none | some "" => "abort"
    | some policy => policy) output

end Nested

/-- The depth of the data bounds the recursion. -/
def stepFromDict : ℕ → Value → Option Step
  | 0, _ => none
  | fuel + 1, .dict data =>
    match field data "kind" with
    | .str "transform" => (decodeTransform data).map .transform
    | .str "tool" => (decodeTool data).map .tool
    | .str "agent" => (decodeAgent data).map .agent
    | .str "call" => (decodeCall data).map .call
    | .str "match" => (decodeMatch data).map .match
    | .str "fold" => decodeFold (stepFromDict fuel) data
    | .str "for_each" => decodeForEach (stepFromDict fuel) data
    | .str "parallel" => decodeParallel (stepFromDict fuel) data
    | _ => none
  | _ + 1, _ => none

def pipelineFromDict : Value → Option Pipeline
  | .dict data => do
    let steps ← match (Value.get? data "steps").getD (.list []) with
      | .list steps => steps.mapM (stepFromDict (Value.dict data).depth)
      | _ => none
    let description ← optStr? (field data "description")
    let name ← optStr? (field data "name")
    return ⟨steps,description.getD "",name.getD ""⟩
  | _ => none

end Reyn.Serde
