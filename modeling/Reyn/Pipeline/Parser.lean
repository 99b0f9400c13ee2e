import Reyn.Pipeline.Steps

/-! # The pipeline parser

From the value of a YAML document to a pipeline. The syntax of expressions is a
parameter: `exprError src` is the text of the `ExprParseError` of `src`, if there is one.
-/
namespace Reyn.Parser
open Py

/-- Fixed text, the `repr` or the `str` of a value, or the `repr` of a sorted list of keys. -/
inductive MessagePart where
  | text (s : String)
  | repr (v : Value)
  | str (v : Value)
  | sorted (keys : List Value)

abbrev Message := List MessagePart

inductive ParseFailure where
  /-- A `PipelineParseError`. -/
  | refused (message : Message)
  /-- The `TypeError` of sorting keys of different types. -/
  | unsortable
  | recursion

abbrev Parse (A : Type) := Except ParseFailure A

def refuse {A : Type} (message : Message) : Parse A := .error (.refused message)

def typeName : Value → String
  | .none => "NoneType"
  | .bool _ => "bool"
  | .int _ => "int"
  | .float _ => "float"
  | .str _ => "str"
  | .other type _ _ => type
  | .tuple _ => "tuple"
  | .list _ => "list"
  | .dict _ => "dict"

/-- The source of an `_ExprTag`. -/
def exprTag? : Value → Option String
  | .other "_ExprTag" src _ => some src
  | _ => none

/-- The truth of a value; an object of another type is false when it holds nothing. -/
def truthy : Value → Bool
  | .none => false
  | .bool b => b
  | .int i => i != 0
  | .float f => !(f.text.all fun c => c == '-' || c == '0' || c == '.')
  | .str s => s != ""
  | .other type data _ => type == "_ExprTag" || data != ""
  | .tuple xs | .list xs => !xs.isEmpty
  | .dict fields => !fields.isEmpty

/-- `value or {}` -/
def orEmpty (v : Value) : Value := if truthy v then v else .dict []

/-- `doc.get(key)` -/
def field (doc : List (Value × Value)) (key : String) : Value := (Value.get? doc key).getD .none

/-- What a mapping holds under a key is not as deep. -/
theorem field_depth_lt {fields : List (Value × Value)} {key : String} (h : field fields key ≠ .none) :
    (field fields key).depth < (Value.dict fields).depth := by
  rw [field] at h ⊢
  cases hget : Value.get? fields key with
  | none => exact absurd (by rw [hget]; rfl) h
  | some v =>
    obtain ⟨front,rest,heq,-⟩ := List.lookup_eq_some_iff.mp hget
    exact Value.depth_lt_dict (p := (.str key,v)) (by rw [heq]; simp)

theorem wf_field {fields : List (Value × Value)} (h : (Value.dict fields).wf = true) (key : String) :
    (field fields key).wf = true := by
  rw [field]
  cases hget : Value.get? fields key with
  | none => rfl
  | some v =>
    obtain ⟨front,rest,heq,-⟩ := List.lookup_eq_some_iff.mp hget
    rw [Value.wf,Bool.and_eq_true] at h
    exact Value.wfFields_iff.mp h.2 (.str key,v) (by rw [heq]; simp)

/-- The values that `<` compares with each other; `None` and an `_ExprTag` are compared with none. -/
def orderClass : Value → Option String
  | .bool _ | .int _ | .float _ => some "number"
  | .none => none
  | .other "_ExprTag" _ _ => none
  -- a datetime with an offset is not compared with one that has none
  | .other "datetime" _ text => some (if (text.toList.drop 10).any (fun c => c == '+' || c == '-') then "aware" else "naive")
  | v => some (typeName v)

/-- Keys that `sorted` puts in an order. -/
def sortable (keys : List Value) : Bool :=
  match keys with
  | [] | [_] => true
  | k :: rest => (orderClass k).isSome && rest.all fun j => orderClass j == orderClass k

def rejectUnknownKeys (doc : List (Value × Value)) (allowed : List String) (at_ : Message) : Parse Unit :=
  let extra := (doc.map Prod.fst).filter fun k => !(allowed.any fun a => k == .str a)
  if extra = [] then .ok ()
  else if sortable extra then
    refuse (at_ ++ [.text ": field(s) ",.sorted extra,.text (" are not supported by the linear executor (later slice — " ++
      "see PipelineExecutor's module docstring for current scope)")])
  else .error .unsortable

section Parser
variable (exprError : String → Option String)

def validateExprSource (src : Value) (at_ : Message) : Parse String :=
  match src with
  | .str s =>
    match exprError s with
    | none => .ok s
    | some exc => refuse (at_ ++ [.text ": malformed expression ",.repr src,.text (": " ++ exc)])
  | _ => refuse (at_ ++ [.text (": expected an expression string, got " ++ typeName src)])

mutual
def rejectNestedExprTag (v : Value) (at_ : Message) : Parse Unit :=
  match v with
  | .other type _ _ =>
    if type = "_ExprTag" then
      refuse (at_ ++ [.text ": '!expr' is only supported as the entire value of an args entry, not nested inside a list/mapping"])
    else .ok ()
  | .dict fields => rejectNestedFields fields at_
  | .list xs => rejectNestedItems xs 0 at_
  | _ => .ok ()
def rejectNestedFields (fields : List (Value × Value)) (at_ : Message) : Parse Unit :=
  match fields with
  | [] => .ok ()
  | (k,v) :: rest => do
    rejectNestedExprTag v (at_ ++ [.text ".",.str k])
    rejectNestedFields rest at_
def rejectNestedItems (xs : List Value) (i : ℕ) (at_ : Message) : Parse Unit :=
  match xs with
  | [] => .ok ()
  | x :: rest => do
    rejectNestedExprTag x (at_ ++ [.text ("[" ++ toString i ++ "]")])
    rejectNestedItems rest (i + 1) at_
end

def resolveArgValue (v : Value) (at_ : Message) : Parse Arg :=
  match exprTag? v with
  | some src => (validateExprSource exprError (.str src) at_).map .exprRef
  | none => (rejectNestedExprTag v at_).map fun _ => .literal v

def parsePassEntries (rawPass : Value) (at_ : Message) : Parse (List (String × String)) :=
  match rawPass with
  | .dict fields => fields.mapM fun p =>
    match p.1 with
    | .str name =>
      if name = "" then refuse (at_ ++ [.text ": key ",.repr p.1,.text " must be a non-empty store-name string"])
      else (validateExprSource exprError p.2 (at_ ++ [.text " entry ",.repr p.1])).map fun src => (name,src)
    | _ => refuse (at_ ++ [.text ": key ",.repr p.1,.text " must be a non-empty store-name string"])
  | _ => refuse (at_ ++ [.text ": expected a {NAME: EXPR} mapping, got ",.repr rawPass])

/-- A field that is a string or absent. -/
def optString (v : Value) (message : Message) : Parse (Option String) :=
  match v with
  | .none => .ok none
  | .str s => .ok (some s)
  | _ => refuse message

def parseTransformStep (body : List (Value × Value)) : Parse TransformStep := do
  rejectUnknownKeys body ["value","output"] [.text "transform step"]
  match Value.get? body "value" with
  | none => refuse [.text "transform step: missing required field 'value'"]
  | some raw =>
    let value ← validateExprSource exprError raw [.text "transform step 'value'"]
    return ⟨value,field body "output"⟩

/-- A failure policy that is given or absent. -/
def optOnError (raw : Value) (message : Message) : Parse (Option String) :=
  match raw with
  | .none => .ok none
  | .str s => if isOnError s then .ok (some s) else refuse message
  | _ => refuse message

def parseToolStep (body : List (Value × Value)) : Parse ToolStep := do
  rejectUnknownKeys body ["name","args","schema","output","on_error"] [.text "tool step"]
  match Value.get? body "name" with
  | none => refuse [.text "tool step: missing required field 'name'"]
  | some (.str name) =>
    match orEmpty (field body "args") with
    | .dict rawArgs =>
      let args ← rawArgs.mapM fun p =>
        (resolveArgValue exprError p.2 [.text "tool ",.repr (.str name),.text " arg ",.repr p.1]).map fun v => (p.1,v)
      let schema ← optString (field body "schema")
        [.text ("tool step 'schema': expected a schema-name string, got " ++ typeName (field body "schema"))]
      let onError ← optOnError (field body "on_error")
        [.text "tool step 'on_error': must be 'continue', 'abort', or 'retry(n)' (a positive integer n), got ",
          .repr (field body "on_error")]
      return ⟨name,args,field body "output",schema,onError⟩
    | rawArgs => refuse [.text ("tool step 'args': expected a mapping, got " ++ typeName rawArgs)]
  | some name => refuse [.text ("tool step 'name': expected a literal string, got " ++ typeName name)]

/-- A list of strings. -/
def strings? : Value → Option (List String)
  | .list xs => xs.mapM fun
    | .str s => some s
    | _ => none
  | _ => none

def parseCapabilities (raw : Value) : Parse (Option (List String)) :=
  match raw with
  | .none => .ok none
  | .dict caps =>
    match Value.get? caps "tools" with
    | none => refuse [.text "agent step 'capabilities': expected {tools: [NAME*]} per Appendix B, got ",.repr raw]
    | some tools =>
      match strings? tools with
      | some names => .ok (some names)
      | none => refuse [.text "agent step 'capabilities.tools': expected a list of literal strings"]
  | _ => refuse [.text "agent step 'capabilities': expected {tools: [NAME*]} per Appendix B, got ",.repr raw]

def parseAgentStep (body : List (Value × Value)) : Parse AgentStep := do
  rejectUnknownKeys body ["prompt","identity","capabilities","schema","model","output"] [.text "agent step"]
  match Value.get? body "prompt" with
  | none => refuse [.text "agent step: missing required field 'prompt'"]
  | some (.str prompt) =>
    let identity ← optString (field body "identity")
      [.text ("agent step 'identity': expected a literal string, got " ++ typeName (field body "identity"))]
    let capabilities ← parseCapabilities (field body "capabilities")
    let schema ← optString (field body "schema")
      [.text ("agent step 'schema': expected a schema-name string, got " ++ typeName (field body "schema"))]
    let model ← optString (field body "model")
      [.text ("agent step 'model': expected a model-class literal string, got " ++ typeName (field body "model"))]
    return ⟨prompt,identity,capabilities,schema,model,field body "output"⟩
  | some prompt => refuse [.text ("agent step 'prompt': expected a TPL string, got " ++ typeName prompt)]

/-- The output of a compositional step. -/
def optOutput (body : List (Value × Value)) (kind : String) : Parse (Option String) :=
  optString (field body "output")
    [.text (kind ++ " step 'output': expected a store-name string, got " ++ typeName (field body "output"))]

def parseCallStep (body : List (Value × Value)) : Parse CallStep := do
  rejectUnknownKeys body ["pipeline","pass","output"] [.text "call step"]
  match Value.get? body "pipeline" with
  | none => refuse [.text "call step: missing required field 'pipeline'"]
  | some name =>
    match name with
    | .str s =>
      if s = "" then refuse [.text "call step 'pipeline': expected a non-empty literal pipeline name, got ",.repr name]
      else
        let pass ← parsePassEntries exprError (orEmpty (field body "pass")) [.text "call step 'pass'"]
        let output ← optOutput body "call"
        return ⟨s,pass,output⟩
    | _ => refuse [.text "call step 'pipeline': expected a non-empty literal pipeline name, got ",.repr name]

def parseMatchCase (body : Value) (at_ : Message) : Parse MatchCase :=
  match body with
  | .dict body => do
    rejectUnknownKeys body ["pipeline","pass"] at_
    match Value.get? body "pipeline" with
    | none => refuse (at_ ++ [.text ": missing required field 'pipeline'"])
    | some name =>
      match name with
      | .str s =>
        if s = "" then refuse (at_ ++ [.text " 'pipeline': expected a non-empty literal pipeline name, got ",.repr name])
        else
          let pass ← parsePassEntries exprError (orEmpty (field body "pass")) (at_ ++ [.text " 'pass'"])
          return ⟨s,pass⟩
      | _ => refuse (at_ ++ [.text " 'pipeline': expected a non-empty literal pipeline name, got ",.repr name])
  | _ => refuse (at_ ++ [.text (": expected a mapping {pipeline, pass?}, got " ++ typeName body)])

def parseMatchStep (body : List (Value × Value)) : Parse MatchStep := do
  rejectUnknownKeys body ["on","cases","default","output"] [.text "match step"]
  match Value.get? body "on" with
  | none => refuse [.text "match step: missing required field 'on'"]
  | some raw =>
    let on ← validateExprSource exprError raw [.text "match step 'on'"]
    match field body "cases" with
    | .dict (c :: cs) =>
      let cases ← (c :: cs).mapM fun p =>
        (parseMatchCase exprError p.2 [.text "match step case ",.repr p.1]).map fun case_ => (p.1,case_)
      let default ← match field body "default" with
        | .none => pure none
        | rawDefault => (parseMatchCase exprError rawDefault [.text "match step 'default'"]).map some
      let output ← optOutput body "match"
      return ⟨on,cases,default,output⟩
    | _ => refuse [.text "match step: 'cases' must be a non-empty mapping of LABEL -> {pipeline, pass?}"]

/-- `over` and `items` of a `fold` or a `for_each`. -/
def parseListSource (body : List (Value × Value)) (kind : String) : Parse ListSource := do
  if (Value.get? body "over").isSome ∧ (Value.get? body "items").isSome then
    refuse [.text (kind ++ " step: 'over' and 'items' are mutually exclusive list sources")]
  else
    let over_ ← match field body "over" with
      | .none => pure none
      | raw => (validateExprSource exprError raw [.text (kind ++ " step 'over'")]).map some
    match field body "items" with
    | .none => return ⟨over_,none⟩
    | .list items =>
      rejectNestedItems items 0 [.text (kind ++ " step 'items'")]
      return ⟨over_,some items⟩
    | raw => refuse [.text (kind ++ " step 'items': expected a list, got " ++ typeName raw)]

/-- A bound that is a positive integer or absent. -/
def optPositive (raw : Value) (at_ : String) : Parse (Option ℕ) :=
  match raw with
  | .none => .ok none
  | .int i => if 0 < i then .ok (some i.toNat) else refuse [.text (at_ ++ ": expected a positive integer, got "),.repr raw]
  | _ => refuse [.text (at_ ++ ": expected a positive integer, got "),.repr raw]

/-- `_SUPPORTED_STEP_KINDS` -/
def stepKinds : List String := ["transform","tool","agent","call","match","fold","for_each","parallel"]

def allStepKinds : MessagePart := .repr (.tuple (stepKinds.map .str))

def branchErrorsKey : String := "__branch_errors__"

section Nested
variable (parse : Value → Message → Parse Step)

def parseFoldStep (body : List (Value × Value)) (index : Message) : Parse Step := do
  rejectUnknownKeys body ["over","items","init","do","output","max_items"] [.text "fold step"]
  let source ← parseListSource exprError body "fold"
  match Value.get? body "init" with
  | none => refuse [.text "fold step: missing required field 'init'"]
  | some rawInit =>
    let init ← validateExprSource exprError rawInit [.text "fold step 'init'"]
    match Value.get? body "do" with
    | none => refuse [.text "fold step: missing required field 'do'"]
    | some rawDo =>
      let run ← parse rawDo (index ++ [.text " (fold do)"])
      match field body "output" with
      | .str output =>
        if output = "" then
          refuse [.text "fold step 'output': expected a non-empty store-name string, got ",.repr (.str output)]
        else
          let maxItems ← optPositive (field body "max_items") "fold step 'max_items'"
          return .fold init run output source maxItems
      | output => refuse [.text "fold step 'output': expected a non-empty store-name string, got ",.repr output]

def parseForEachStep (body : List (Value × Value)) (index : Message) : Parse Step := do
  rejectUnknownKeys body ["over","items","max_parallel","on_error","do","collect","output"] [.text "for_each step"]
  let source ← parseListSource exprError body "for_each"
  let badOnError : Message :=
    [.text "for_each step 'on_error': REQUIRED — must be 'continue', 'abort', or 'retry(n)' (a positive integer n), got ",
      .repr (field body "on_error")]
  match ← optOnError (field body "on_error") badOnError with
  | none => refuse badOnError
  | some onError =>
    match Value.get? body "do" with
    | none => refuse [.text "for_each step: missing required field 'do'"]
    | some rawDo =>
      let run ← parse rawDo (index ++ [.text " (for_each do)"])
      match Value.get? body "collect" with
      | none => refuse [.text "for_each step: missing required field 'collect'"]
      | some rawCollect =>
        let collect ← parse rawCollect (index ++ [.text " (for_each collect)"])
        let maxParallel ← optPositive (field body "max_parallel") "for_each step 'max_parallel'"
        let output ← optOutput body "for_each"
        return .forEach run collect onError source maxParallel output

def parseParallelStep (body : List (Value × Value)) (index : Message) : Parse Step := do
  rejectUnknownKeys body ["branches","collect","on_error","output"] [.text "parallel step"]
  match field body "branches" with
  | .dict (b :: bs) =>
    if (Value.get? (b :: bs) branchErrorsKey).isSome then
      refuse [.text "parallel step: branch name ",.repr (.str branchErrorsKey),
        .text (" is reserved (the executor uses it to carry dropped-branch error text into collect's `pipe`) -- " ++
          "rename this branch")]
    else
      let branches ← (b :: bs).mapM fun p =>
        (parse p.2 (index ++ [.text " (parallel branch ",.repr p.1,.text ")"])).map fun step => (p.1,step)
      let badOnError : Message :=
        [.text "parallel step 'on_error': must be 'continue', 'abort', or 'retry(n)' (a positive integer n), got ",
          .repr (field body "on_error")]
      -- an absent policy is the default, a null one is refused
      let onError ← match Value.get? body "on_error" with
        | none => pure "abort"
        | some raw => (optOnError raw badOnError) >>= fun
          | none => refuse badOnError
          | some policy => pure policy
      match Value.get? body "collect" with
      | none => refuse [.text "parallel step: missing required field 'collect'"]
      | some rawCollect =>
        let collect ← parse rawCollect (index ++ [.text " (parallel collect)"])
        let output ← optOutput body "parallel"
        return .parallel branches collect onError output
  | _ => refuse [.text "parallel step: 'branches' must be a non-empty mapping of NAME -> Step"]

end Nested

/-- `_parse_step`; the depth of the document bounds the recursion. -/
def parseStep : ℕ → Value → Message → Parse Step
  | 0, _, _ => .error .recursion
  | fuel + 1, raw, index =>
    match raw with
    | .dict [(kind,body)] =>
      let bodyOf (body : Value) : Parse (List (Value × Value)) :=
        match body with
        | .dict fields => .ok fields
        | _ => refuse ([.text "step "] ++ index ++
          [.text " (",.repr kind,.text ("): expected a mapping body, got " ++ typeName body)])
      match kind with
      | .str "fold" => bodyOf body >>= fun body => parseFoldStep exprError (parseStep fuel) body index
      | .str "for_each" => bodyOf body >>= fun body => parseForEachStep exprError (parseStep fuel) body index
      | .str "parallel" => bodyOf body >>= fun body => parseParallelStep (parseStep fuel) body index
      | .str "transform" => bodyOf body >>= fun body => (parseTransformStep exprError body).map .transform
      | .str "tool" => bodyOf body >>= fun body => (parseToolStep exprError body).map .tool
      | .str "agent" => bodyOf body >>= fun body => (parseAgentStep body).map .agent
      | .str "call" => bodyOf body >>= fun body => (parseCallStep exprError body).map .call
      | .str "match" => bodyOf body >>= fun body => (parseMatchStep exprError body).map .match
      | _ => refuse ([.text "step "] ++ index ++ [.text ": unknown step kind ",.repr kind,.text " (expected one of ",allStepKinds,.text ")"])
    | _ =>
      refuse ([.text "step "] ++ index ++
        [.text ": expected a single-key mapping naming its step kind (one of ",allStepKinds,.text "), got ",.repr raw])

def parsePipelineDoc (doc : List (Value × Value)) : Parse Pipeline := do
  rejectUnknownKeys doc ["pipeline","description","steps"] [.text "pipeline"]
  match field doc "pipeline" with
  | .str name =>
    if name = "" then refuse [.text "pipeline document: 'pipeline' must be a non-empty name string"]
    else if name.toList.contains '.' then
      refuse [.text "pipeline name ",.repr (.str name),.text (" contains a reserved '.' — '.' is the namespace separator " ++
        "(a registered pipeline's global name is '<entry-key>.<local-name>'); a declared 'pipeline:' name must not contain it")]
    else
      match (Value.get? doc "description").getD (.str "") with
      | .str description =>
        match field doc "steps" with
        | .list (s :: ss) =>
          let fuel := (Value.list (s :: ss)).depth
          let steps ← (s :: ss).zipIdx.mapM fun p => parseStep exprError fuel p.1 [.text (toString p.2)]
          return ⟨steps,description,name⟩
        | _ => refuse [.text "pipeline ",.repr (.str name),.text ": 'steps' must be a non-empty list"]
      | description =>
        refuse [.text "pipeline ",.repr (.str name),.text (": 'description' must be a string, got " ++ typeName description)]
  | _ => refuse [.text "pipeline document: 'pipeline' must be a non-empty name string"]

end Parser
end Reyn.Parser
