import Reyn.Lib.TextFile
import Reyn.Pipeline.Parser
import Reyn.Pipeline.StoredPipeline

/-! # The work order

`invocation.json`: what a driver session is born with. A pipeline comes back from the file
as it was exactly when JSON has a form for all that is in it.
-/
namespace Reyn
open Py Serde

structure PipelineWorkOrder where
  runId : String
  pipelineName : String
  pipeline : Value
  input : Value
  replyToAgent : String
  replyToSid : String
  driverAgent : String
  driverSid : String
  spawnSeq : Value
  schemaDefs : Value
  onSettle : String

namespace PipelineWorkOrder

/-- The fields under their names. -/
def fields (order : PipelineWorkOrder) : List (String × Value) :=
  [("run_id",.str order.runId),("pipeline_name",.str order.pipelineName),("pipeline",order.pipeline),("input",order.input),
    ("reply_to_agent",.str order.replyToAgent),("reply_to_sid",.str order.replyToSid),("driver_agent",.str order.driverAgent),
    ("driver_sid",.str order.driverSid),("spawn_seq",order.spawnSeq),("schema_defs",order.schemaDefs),
    ("on_settle",.str order.onSettle)]

def asdict (order : PipelineWorkOrder) : Value := named order.fields

def fieldNames : List String :=
  ["run_id","pipeline_name","pipeline","input","reply_to_agent","reply_to_sid","driver_agent","driver_sid","spawn_seq",
    "schema_defs","on_settle"]

/-- `PipelineWorkOrder(**data)`; `none` for the `TypeError` of a missing or an unknown name. -/
def ofFields (data : List (Value × Value)) : Option PipelineWorkOrder := do
  if data.all fun p => fieldNames.any fun name => p.1 == .str name then
    let runId ← (Value.get? data "run_id").bind str?
    let pipelineName ← (Value.get? data "pipeline_name").bind str?
    let pipeline ← Value.get? data "pipeline"
    let input ← Value.get? data "input"
    let replyToAgent ← (Value.get? data "reply_to_agent").bind str?
    let replyToSid ← (Value.get? data "reply_to_sid").bind str?
    let driverAgent ← (Value.get? data "driver_agent").bind str?
    let driverSid ← (Value.get? data "driver_sid").bind str?
    let onSettle ← str? ((Value.get? data "on_settle").getD (.str "deliver"))
    return ⟨runId,pipelineName,pipeline,input,replyToAgent,replyToSid,driverAgent,driverSid,field data "spawn_seq",
      field data "schema_defs",onSettle⟩
  else none

end PipelineWorkOrder

/-- The bytes of `invocation.json`; `none` where the writer raises. -/
def writeInvocation (order : PipelineWorkOrder) : Option Bytes := order.asdict.toJson.map fun j => encode j.text

/-- The work order in a file; `none` for a corrupt one. -/
def loadInvocation (file : Bytes) : Option PipelineWorkOrder :=
  ((decode file).bind fun text => Json.loads (String.ofList text)).bind fun j =>
    match Value.ofJson j with
    | .dict data => PipelineWorkOrder.ofFields data
    | _ => none

/-- The launch of a run: its pipeline in its work order. -/
def writePipeline (order : PipelineWorkOrder) (pipeline : Pipeline) : Option Bytes :=
  match pipelineToDict pipeline with
  | .ok v => writeInvocation { order with pipeline := v }
  | .error _ => none

/-- The pipeline that the driver runs. -/
def storedPipeline (file : Bytes) : Option Pipeline := (loadInvocation file).bind fun order => pipelineFromDict order.pipeline

/-! ## What is written -/

section Writable
variable {A E : Type}

def okAnd (p : A → Bool) : Except E A → Bool
  | .ok a => p a
  | .error _ => false

end Writable

def Arg.writable : Arg → Bool
  | .literal (.dict fields) => (Value.get? fields exprrefKey).isNone && (Value.dict fields).writable
  | .literal v => v.writable
  | .exprRef _ => true

def keysWritable (names : List Value) : Bool := names.all fun k => (Value.keyText k).isSome

def ListSource.writable (source : ListSource) : Bool := (source.items.getD []).all Value.writable

def boundWritable : Option ℕ → Bool
  | some n => Value.hasText n
  | none => true

mutual
/-- No reserved key in a dictionary argument, a text for every key and every integer. -/
def Step.writable : Step → Bool
  | .transform step => step.output.writable
  | .tool step => step.args.all (fun p => (Value.keyText p.1).isSome && p.2.writable) && step.output.writable
  | .agent step => step.output.writable
  | .call _ => true
  | .match step => keysWritable (step.cases.map Prod.fst)
  | .fold _ run _ source maxItems => run.writable && source.writable && boundWritable maxItems
  | .forEach run collect _ source maxParallel _ =>
    run.writable && collect.writable && source.writable && boundWritable maxParallel
  | .parallel branches collect _ _ => branchesWritable branches && collect.writable
def branchesWritable : List (Value × Step) → Bool
  | [] => true
  | (name,step) :: rest => (Value.keyText name).isSome && step.writable && branchesWritable rest
end

def Pipeline.writable (pipeline : Pipeline) : Bool := pipeline.steps.all Step.writable

/-- What a work order carries beside its pipeline. -/
def PipelineWorkOrder.writable (order : PipelineWorkOrder) : Bool :=
  order.input.writable && order.spawnSeq.writable && order.schemaDefs.writable

theorem writableFields_eq_all (fields) : Value.writableFields fields = fields.all fun p => (Value.keyText p.1).isSome && p.2.writable := by
  induction fields with
  | nil => rfl
  | cons p rest ih => rw [Value.writableFields,List.all_cons,ih,Bool.and_assoc]

theorem writableItems_eq_all (xs) : Value.writableItems xs = xs.all Value.writable := by
  induction xs with
  | nil => rfl
  | cons x xs ih => rw [Value.writableItems,List.all_cons,ih]

theorem writable_named (fields : List (String × Value)) : (named fields).writable = fields.all fun p => p.2.writable := by
  rw [named,Value.writable,writableFields_eq_all,List.all_map]
  rfl

@[simp] theorem writable_str (s : String) : (Value.str s).writable = true := rfl

@[simp] theorem writable_ofStr? (s : Option String) : (Value.ofStr? s).writable = true := by cases s <;> rfl

@[simp] theorem writable_bound (n : Option ℕ) : (encodeBound n).writable = boundWritable n := by cases n <;> rfl

@[simp] theorem writable_items (items : Option (List Value)) : (encodeItems items).writable = (items.getD []).all Value.writable := by
  cases items with
  | none => rfl
  | some items => exact writableItems_eq_all items

@[simp] theorem writable_strings (names : Option (List String)) : (encodeStrings names).writable = true := by
  cases names with
  | none => rfl
  | some names =>
    rw [encodeStrings,Value.writable,writableItems_eq_all,List.all_map]
    exact List.all_eq_true.mpr fun _ _ => rfl

@[simp] theorem writable_passEntries (entries : List (String × String)) : (encodePassEntries entries).writable = true := by
  rw [encodePassEntries,Value.writable,writableItems_eq_all,List.all_map]
  exact List.all_eq_true.mpr fun _ _ => rfl

@[simp] theorem writable_matchCase (case_ : MatchCase) : (encodeMatchCase case_).writable = true := by
  simp [encodeMatchCase,writable_named]

@[simp] theorem writable_default (default : Option MatchCase) : (encodeDefault default).writable = true := by
  cases default with
  | none => rfl
  | some case_ => exact writable_matchCase case_

theorem okAnd_encodeArg (name : String) (key : Value) (a : Arg) : okAnd Value.writable (encodeArg name key a) = a.writable := by
  cases a with
  | exprRef src => rfl
  | literal v =>
    cases v with
    | dict fields =>
      rw [encodeArg,Arg.writable]
      cases Value.get? fields exprrefKey <;> rfl
    | _ => rfl

theorem okAnd_encodeArgs (name : String) (args : List (Value × Arg)) :
    okAnd Value.writableFields (args.mapM fun p => (encodeArg name p.1 p.2).map fun v => (p.1,v)) =
      args.all fun p => (Value.keyText p.1).isSome && p.2.writable := by
  induction args with
  | nil => rfl
  | cons p args ih =>
    rw [List.mapM_cons,List.all_cons,← ih,← okAnd_encodeArg name p.1 p.2]
    cases encodeArg name p.1 p.2 with
    | error e => simp [okAnd,Except.map,bind,Except.bind]
    | ok v =>
      cases args.mapM fun p => (encodeArg name p.1 p.2).map fun v => (p.1,v) with
      | error e => simp [okAnd,Except.map,bind,Except.bind]
      | ok args =>
        simp only [okAnd,Except.map,bind,Except.bind,pure,Except.pure,Value.writableFields,Bool.and_assoc]

theorem okAnd_map {A B E : Type} (p : B → Bool) (f : A → B) (x : Except E A) : okAnd p (x.map f) = okAnd (p ∘ f) x := by
  cases x <;> rfl

theorem okAnd_and {A E : Type} (p : A → Bool) (b : Bool) (x : Except E A) : okAnd (fun a => p a && b) x = (okAnd p x && b) := by
  cases x <;> rfl

theorem okAnd_bind {A B E : Type} {p : B → Bool} {q : A → Bool} {b : Bool} {f : A → Except E B} {x : Except E A}
    (h : ∀ a, okAnd p (f a) = (q a && b)) : okAnd p (x >>= f) = (okAnd q x && b) := by
  cases x with
  | error e => rfl
  | ok a => exact h a

mutual
theorem okAnd_stepToDict : ∀ s : Step, okAnd Value.writable (stepToDict s) = s.writable
  | .transform step => by simp [stepToDict,okAnd,encodeTransform,writable_named,Step.writable]
  | .tool step => by
    rw [stepToDict,encodeTool,okAnd_map,Step.writable,← okAnd_encodeArgs step.name,← okAnd_and]
    congr 1
    funext args
    simp [writable_named,Value.writable]
  | .agent step => by simp [stepToDict,okAnd,encodeAgent,writable_named,Step.writable]
  | .call step => by simp [stepToDict,okAnd,encodeCall,writable_named,Step.writable]
  | .match step => by
    simp [stepToDict,okAnd,encodeMatch,writable_named,Step.writable,Value.writable,writableFields_eq_all,keysWritable,List.all_map,
      Function.comp_def]
  | .fold init run output source maxItems => by
    rw [stepToDict,okAnd_map,Step.writable,← okAnd_stepToDict run,Bool.and_assoc,← okAnd_and]
    congr 1
    funext v
    simp [encodeFold,writable_named,ListSource.writable,Bool.and_comm,Bool.and_assoc]
  | .forEach run collect onError source maxParallel output => by
    rw [stepToDict,Step.writable,← okAnd_stepToDict run,← okAnd_stepToDict collect,Bool.and_assoc,Bool.and_assoc]
    apply okAnd_bind
    intro v
    cases stepToDict collect with
    | error e => exact (Bool.and_false _).symm
    | ok u =>
      simp [okAnd,bind,Except.bind,pure,Except.pure,encodeForEach,writable_named,ListSource.writable,Bool.and_comm,Bool.and_left_comm,Bool.and_assoc]
  | .parallel branches collect onError output => by
    rw [stepToDict,Step.writable,← okAnd_branchesToDict branches,← okAnd_stepToDict collect]
    apply okAnd_bind
    intro vs
    cases stepToDict collect with
    | error e => exact (Bool.and_false _).symm
    | ok u => simp [okAnd,bind,Except.bind,pure,Except.pure,encodeParallel,writable_named,Value.writable]
theorem okAnd_branchesToDict : ∀ branches : List (Value × Step),
    okAnd Value.writableFields (branchesToDict branches) = branchesWritable branches
  | [] => rfl
  | (name,s) :: rest => by
    rw [branchesToDict,branchesWritable,← okAnd_stepToDict s,← okAnd_branchesToDict rest,Bool.and_comm (Value.keyText name).isSome,
      Bool.and_assoc]
    apply okAnd_bind
    intro v
    cases branchesToDict rest with
    | error e => simp [okAnd,bind,Except.bind]
    | ok vs => simp [okAnd,bind,Except.bind,pure,Except.pure,Value.writableFields,Bool.and_left_comm]
end

theorem okAnd_pipelineToDict (pipeline : Pipeline) : okAnd Value.writable (pipelineToDict pipeline) = pipeline.writable := by
  have hsteps : ∀ steps : List Step, okAnd Value.writableItems (steps.mapM stepToDict) = steps.all Step.writable := by
    intro steps
    induction steps with
    | nil => rfl
    | cons s steps ih =>
      rw [List.mapM_cons,List.all_cons,← ih,← okAnd_stepToDict s]
      apply okAnd_bind
      intro v
      cases steps.mapM stepToDict with
      | error e => exact (Bool.and_false _).symm
      | ok vs => rfl
  rw [pipelineToDict,okAnd_map,Pipeline.writable,← hsteps]
  congr 1
  funext vs
  simp [writable_named,Value.writable]

theorem isSome_writeInvocation (order : PipelineWorkOrder) :
    (writeInvocation order).isSome = (order.pipeline.writable && order.writable) := by
  rw [writeInvocation,Option.isSome_map,Value.isSome_toJson,PipelineWorkOrder.asdict,writable_named]
  simp [PipelineWorkOrder.fields,PipelineWorkOrder.writable,Bool.and_assoc]

/-- When a work order is written. -/
theorem isSome_writePipeline (order : PipelineWorkOrder) (pipeline : Pipeline) :
    (writePipeline order pipeline).isSome = (pipeline.writable && order.writable) := by
  rw [← okAnd_pipelineToDict,writePipeline]
  cases pipelineToDict pipeline with
  | error e => rfl
  | ok v => exact isSome_writeInvocation _

/-! ## What is read -/

def PipelineWorkOrder.reload (order : PipelineWorkOrder) : PipelineWorkOrder :=
  { order with
    pipeline := order.pipeline.reload
    input := order.input.reload
    spawnSeq := order.spawnSeq.reload
    schemaDefs := order.schemaDefs.reload }

theorem loadInvocation_of_write {order : PipelineWorkOrder} {file : Bytes} (h : writeInvocation order = some file) :
    loadInvocation file = some order.reload := by
  obtain ⟨j,hj,rfl⟩ := Option.map_eq_some_iff.mp h
  have hread : (decode (encode j.text)).bind (fun text => Json.loads (String.ofList text)) = some j.reread := by
    rw [decode_encode]
    exact Json.loads_dumps_reread j
  have hvalue : Value.ofJson j.reread = named (order.fields.map fun p => (p.1,p.2.reload)) := by
    rw [Value.ofJson_reread hj,PipelineWorkOrder.asdict]
    apply reload_named
    simp [PipelineWorkOrder.fields]
  rw [loadInvocation,hread]
  show (match Value.ofJson j.reread with | .dict data => PipelineWorkOrder.ofFields data | _ => none) = _
  rw [hvalue]
  simp [named,PipelineWorkOrder.fields,PipelineWorkOrder.ofFields,PipelineWorkOrder.fieldNames,field,get?_str,Value.reload,
    PipelineWorkOrder.reload]

/-- The pipeline a driver gets from the file of a launch. -/
theorem storedPipeline_of_write {order : PipelineWorkOrder} {pipeline : Pipeline} {file : Bytes}
    (h : writePipeline order pipeline = some file) : storedPipeline file = some pipeline.reload := by
  unfold writePipeline at h
  split at h
  · rename_i v hv
    rw [storedPipeline,loadInvocation_of_write h]
    exact pipelineFromDict_reload hv
  · cases h

/-- Every file that a launch writes gives the pipeline back exactly when the pipeline is kept. -/
theorem storedPipeline_iff (order : PipelineWorkOrder) (pipeline : Pipeline) :
    (∀ file, writePipeline order pipeline = some file → storedPipeline file = some pipeline) ↔
      ((pipeline.writable && order.writable) = true → pipeline.kept = true) := by
  rw [← isSome_writePipeline,← Pipeline.reload_eq_iff]
  constructor
  · intro hall hsome
    obtain ⟨file,hfile⟩ := Option.isSome_iff_exists.mp hsome
    exact Option.some.inj ((storedPipeline_of_write hfile).symm.trans (hall file hfile))
  · intro hkept file hfile
    rw [storedPipeline_of_write hfile,hkept (Option.isSome_iff_exists.mpr ⟨file,hfile⟩)]

theorem hasText_small {i : ℤ} (h : i.natAbs < 10) : Value.hasText i = true := by
  have hlt := Nat.le_self_pow (n := 4300) (by decide) 10
  unfold Value.hasText
  exact decide_eq_true (lt_of_lt_of_le h hlt)

/-- `match` on the number one, whose case label is that number. -/
def numberedCases : List (Value × Value) :=
  [(.str "pipeline",.str "numbered"),(.str "steps",.list [.dict [(.str "match",
    .dict [(.str "on",.str "1"),(.str "cases",.dict [(.int 1,.dict [(.str "pipeline",.str "first")])])])]])]

def numberedPipeline : Pipeline where
  steps := [.match ⟨"1",[(.int 1,⟨"first",[]⟩)],none,none⟩]
  description := ""
  name := "numbered"

def launchOrder : PipelineWorkOrder where
  runId := "pipeline-numbered"
  pipelineName := "numbered"
  pipeline := .none
  input := .none
  replyToAgent := "main"
  replyToSid := "s"
  driverAgent := "main"
  driverSid := "d"
  spawnSeq := .int 1
  schemaDefs := .none
  onSettle := "deliver"

/-- The label comes back as a string. -/
theorem numberedCases_label : Parser.parsePipelineDoc (fun _ => none) numberedCases = .ok numberedPipeline ∧
    ∃ file, writePipeline launchOrder numberedPipeline = some file ∧ storedPipeline file ≠ some numberedPipeline := by
  refine ⟨rfl,?_⟩
  have hone : Value.hasText 1 = true := hasText_small (by decide)
  have hwritable : (numberedPipeline.writable && launchOrder.writable) = true := by
    simp [Pipeline.writable,numberedPipeline,Step.writable,keysWritable,Value.keyText,launchOrder,PipelineWorkOrder.writable,Value.writable,
      hone]
  rw [← isSome_writePipeline] at hwritable
  obtain ⟨file,hfile⟩ := Option.isSome_iff_exists.mp hwritable
  refine ⟨file,hfile,?_⟩
  rw [storedPipeline_of_write hfile]
  intro he
  have hkept : numberedPipeline.kept = true := Pipeline.reload_eq_iff.mp (Option.some.inj he)
  cases hkept

end Reyn
