import Reyn.Lib.TextFile
import Reyn.Pipeline.Documents

/-! # Loading the pipelines of a configuration

Each entry names a file, and every pipeline of the file is registered as `<key>.<name>`
with its targets resolved. The files, the YAML loader and the syntax of expressions are
parameters. The warnings and events about entries that are skipped are left out.
-/
namespace Reyn.Loader
open Py Reyn.Parser Reyn.Schema Fallible

inductive EntryFailure where
  /-- A `PipelineLoadError`. -/
  | refused (message : Message)
  /-- The `ValueError` of a path, or of bytes that are no text. -/
  | unreadable
  /-- What the YAML loader raises that is no `YAMLError`. -/
  | loader
  | docs (f : DocsFailure)
  /-- The `ValueError` of a name that is taken. -/
  | taken

abbrev Loading (A : Type) := Except EntryFailure A

def refuseEntry {A : Type} (message : Message) : Loading A := .error (.refused message)

/-- Each name with its pipeline and the schemas it was registered with. -/
abbrev PipelineRegistry := Dict String (Pipeline × SchemaRegistry)

/-! ## Targets -/

def resolveRef (target key : String) (siblings : List String) (at_ : Message) : Loading String :=
  if target.toList.contains '.' then .ok target
  else if target ∈ siblings then .ok (key ++ "." ++ target)
  else refuseEntry (at_ ++ [.text ": dot-less call/match target ",.repr (.str target),
    .text " does not match any sibling pipeline in the same file (siblings: ",.sorted (siblings.map .str),
    .text (") — a dot-less target resolves to a same-file sibling only; use " ++
      "'<entry-key>.<name>' to target a pipeline registered from another entry")])

def namespaceCase (key : String) (siblings : List String) (at_ : Message) (case_ : MatchCase) : Loading MatchCase :=
  (resolveRef case_.pipeline key siblings at_).map fun target => { case_ with pipeline := target }

def namespaceDefault (key : String) (siblings : List String) (at_ : Message) : Option MatchCase → Loading (Option MatchCase)
  | none => .ok none
  | some case_ => (namespaceCase key siblings at_ case_).map some

mutual
def namespaceStep (key : String) (siblings : List String) (at_ : Message) : Step → Loading Step
  | .call step => (resolveRef step.pipeline key siblings at_).map fun target => .call { step with pipeline := target }
  | .match step => do
    let cases ← step.cases.mapM fun p =>
      (namespaceCase key siblings (at_ ++ [.text " match case ",.repr p.1]) p.2).map fun case_ => (p.1,case_)
    let default ← namespaceDefault key siblings (at_ ++ [.text " match default"]) step.default
    return .match { step with cases := cases, default := default }
  | .fold init run output source maxItems => do
    let run ← namespaceStep key siblings at_ run
    return .fold init run output source maxItems
  | .forEach run collect onError source maxParallel output => do
    let run ← namespaceStep key siblings at_ run
    let collect ← namespaceStep key siblings at_ collect
    return .forEach run collect onError source maxParallel output
  | .parallel branches collect onError output => do
    let branches ← namespaceBranches key siblings at_ branches
    let collect ← namespaceStep key siblings at_ collect
    return .parallel branches collect onError output
  | step => .ok step
def namespaceBranches (key : String) (siblings : List String) (at_ : Message) :
    List (Value × Step) → Loading (List (Value × Step))
  | [] => .ok []
  | (name,step) :: rest => do
    let step ← namespaceStep key siblings at_ step
    let rest ← namespaceBranches key siblings at_ rest
    return (name,step) :: rest
end

def namespacePipeline (pipeline : Pipeline) (key : String) (siblings : List String) : Loading Pipeline := do
  let at_ : Message := [.text "pipeline ",.repr (.str pipeline.name)]
  let steps ← pipeline.steps.zipIdx.mapM fun p =>
    namespaceStep key siblings (at_ ++ [.text (" step " ++ toString p.2)]) p.1
  return { pipeline with name := key ++ "." ++ pipeline.name, steps := steps }

/-! ## One entry -/

inductive FileRead where
  | bytes (b : Bytes)
  | osError (exc : String)
  /-- The `ValueError` of a path with a null character. -/
  | valueError

inductive LoadedText where
  | docs (docs : List Value)
  | yamlError (exc : String)
  /-- Another exception, as of a constructor that is given a date that does not exist. -/
  | raises

/-- What the loader is run with; `repr` is Python's, for the values that are no text. -/
structure Setup where
  root : String
  read : String → FileRead
  load : List Char → LoadedText
  exprError : String → Option String
  exceeds : Value → Value → Bool
  repr : Value → String

/-- `str(value)` -/
def Setup.str (w : Setup) : Value → String
  | .str s => s
  | .other _ _ text => text
  | v => w.repr v

def entryPath (root rawPath : String) : String := if rawPath.startsWith "/" then rawPath else root ++ "/" ++ rawPath

/-- Line ends as reading a file as text gives them. -/
def translateNewlines : List Char → List Char
  | '\r' :: '\n' :: cs => '\n' :: translateNewlines cs
  | '\r' :: cs => '\n' :: translateNewlines cs
  | c :: cs => c :: translateNewlines cs
  | [] => []

def rawPath (w : Setup) (raw : List (Value × Value)) : List Char :=
  strip (if Parser.truthy (field raw "path") then w.str (field raw "path") else "").toList

/-- The file of an entry as the YAML loader gives it. -/
def readFile (w : Setup) (entry : Message) (path : String) : Loading (Except String (List Value)) :=
  match w.read path with
  | .osError exc => refuseEntry (entry ++ [.text (": could not read " ++ path ++ ": " ++ exc)])
  | .valueError => .error .unreadable
  | .bytes b =>
    match decode b with
    | none => .error .unreadable
    | some text =>
      match w.load (translateNewlines text) with
      | .docs docs => .ok (.ok docs)
      | .yamlError exc => .ok (.error exc)
      | .raises => .error .loader

def parseFile (w : Setup) (entry : Message) (path : String) (loaded : Except String (List Value)) :
    Loading (List Pipeline × SchemaRegistry) :=
  match parsePipelineDocs w.exprError w.exceeds loaded .empty with
  | (.ok pipelines,schemas) => .ok (pipelines,schemas)
  | (.error (.parse (.refused message)),_) =>
    refuseEntry (entry ++ [.text (": malformed pipeline file " ++ path ++ ": ")] ++ message)
  | (.error f,_) => .error (.docs f)

/-- The path of an entry, and the pipelines of the file there with their schemas. -/
def entryPipelines (w : Setup) (key : String) (raw : List (Value × Value)) :
    Loading (String × List Pipeline × SchemaRegistry) :=
  let entry : Message := [.text "pipelines.entries.",.repr (.str key)]
  if key.toList.contains '.' then
    refuseEntry (entry ++ [.text (": a config entry key must not contain '.' — '.' is the namespace separator " ++
      "(a registered pipeline's global name is '<entry-key>.<pipeline-name>').")])
  else if rawPath w raw = [] then
    refuseEntry (entry ++ [.text " has no 'path' — a pipeline entry must declare the DSL file to load."])
  else
    let path := entryPath w.root (String.ofList (rawPath w raw))
    (readFile w entry path >>= parseFile w entry path).map fun pipelines => (path,pipelines)

/-- The pipelines as they will be registered; `seen` are the names that are taken. -/
def stage (key path : String) (siblings : List String) : List String → List Pipeline → Loading (List Pipeline)
  | _, [] => .ok []
  | seen, p :: rest =>
    let entry : Message := [.text "pipelines.entries.",.repr (.str key)]
    if p.name = "" then
      refuseEntry (entry ++ [.text (": file " ++ path ++
        " produced a pipeline with no declared name — a 'pipeline:' name is required.")])
    else do
      let namespaced ← namespacePipeline p key siblings
      if namespaced.name ∈ seen then
        refuseEntry (entry ++ [.text (": file " ++ path ++ " registers name "),.repr (.str namespaced.name),
          .text " which is already registered by an earlier entry."])
      else
        let staged ← stage key path siblings (namespaced.name :: seen) rest
        return namespaced :: staged

/-- `PipelineRegistry.register` -/
def registerPipeline (schemas : SchemaRegistry) (registry : PipelineRegistry) (p : Pipeline) : Loading PipelineRegistry :=
  if p.name ∈ registry.keys then .error .taken else .ok (registry.set p.name (p,schemas))

def loadOneEntry (w : Setup) (key : String) (raw : List (Value × Value)) (registry : PipelineRegistry) :
    Loading PipelineRegistry := do
  let (path,pipelines,schemas) ← entryPipelines w key raw
  let staged ← stage key path (pipelines.map Pipeline.name) registry.keys pipelines
  staged.foldlM (registerPipeline schemas) registry

def isEnabled (raw : List (Value × Value)) : Bool := Parser.truthy ((Value.get? raw "enabled").getD (.bool true))

def loadEntry (w : Setup) (strict : Bool) (registry : PipelineRegistry) (entry : Value × Value) : Loading PipelineRegistry :=
  match entry.2 with
  | .dict raw =>
    if isEnabled raw then
      match loadOneEntry w (w.str entry.1) raw registry with
      | .error (.refused message) => if strict then .error (.refused message) else .ok registry
      | outcome => outcome
    else .ok registry
  | _ => .ok registry

/-- `pipelines.entries`, when there is one. -/
def entriesOf (rawPipelines : Value) : List (Value × Value) :=
  match rawPipelines with
  | .dict fields =>
    match field fields "entries" with
    | .dict entries => entries
    | _ => []
  | _ => []

mutual
/-- The targets in a step, at any depth. -/
def targets : Step → List String
  | .call step => [step.pipeline]
  | .match step => step.cases.map (fun p => p.2.pipeline) ++ (step.default.map MatchCase.pipeline).toList
  | .fold _ run _ _ _ => targets run
  | .forEach run collect _ _ _ _ => targets run ++ targets collect
  | .parallel branches collect _ _ => branchTargets branches ++ targets collect
  | .transform _ | .tool _ | .agent _ => []
def branchTargets : List (Value × Step) → List String
  | [] => []
  | (_,step) :: rest => targets step ++ branchTargets rest
end

def MatchCase.mapTarget (f : String → String) (case_ : MatchCase) : MatchCase := { case_ with pipeline := f case_.pipeline }

mutual
/-- A step with other targets. -/
def mapTargets (f : String → String) : Step → Step
  | .call step => .call { step with pipeline := f step.pipeline }
  | .match step => .match { step with
      cases := step.cases.map fun p => (p.1,MatchCase.mapTarget f p.2),
      default := step.default.map (MatchCase.mapTarget f) }
  | .fold init run output source maxItems => .fold init (mapTargets f run) output source maxItems
  | .forEach run collect onError source maxParallel output =>
    .forEach (mapTargets f run) (mapTargets f collect) onError source maxParallel output
  | .parallel branches collect onError output => .parallel (mapBranches f branches) (mapTargets f collect) onError output
  | .transform step => .transform step
  | .tool step => .tool step
  | .agent step => .agent step
def mapBranches (f : String → String) : List (Value × Step) → List (Value × Step)
  | [] => []
  | (name,step) :: rest => (name,mapTargets f step) :: mapBranches f rest
end

mutual
theorem targets_mapTargets (f : String → String) : ∀ step, targets (mapTargets f step) = (targets step).map f
  | .call step => by simp [targets,mapTargets]
  | .match step => by cases h : step.default <;> simp [targets,mapTargets,MatchCase.mapTarget,h]
  | .fold _ run _ _ _ => by simp [targets,mapTargets,targets_mapTargets f run]
  | .forEach run collect _ _ _ _ => by simp [targets,mapTargets,targets_mapTargets f run,targets_mapTargets f collect]
  | .parallel branches collect _ _ => by
    simp [targets,mapTargets,branchTargets_mapBranches f branches,targets_mapTargets f collect]
  | .transform _ | .tool _ | .agent _ => by simp [targets,mapTargets]
theorem branchTargets_mapBranches (f : String → String) :
    ∀ branches, branchTargets (mapBranches f branches) = (branchTargets branches).map f
  | [] => by simp [branchTargets,mapBranches]
  | (_,step) :: rest => by simp [branchTargets,mapBranches,targets_mapTargets f step,branchTargets_mapBranches f rest]
end

def Dotted (name : String) : Prop := '.' ∈ name.toList

/-- A target as it is registered: one with a dot stays, and a sibling gets the key. -/
def globalName (key target : String) : String := if target.toList.contains '.' then target else key ++ "." ++ target

/-- A target that has a dot, or is one of the names of the file. -/
def Resolvable (siblings : List String) (target : String) : Prop := Dotted target ∨ target ∈ siblings

section Rewriting
variable {key : String} {siblings : List String}

theorem resolveRef_ok {target target' : String} {at_ : Message} (h : resolveRef target key siblings at_ = .ok target') :
    target' = globalName key target ∧ Resolvable siblings target := by
  unfold resolveRef at h
  unfold globalName
  split at h
  · rename_i hdot
    cases h
    exact ⟨(if_pos hdot).symm,.inl (by simpa [Dotted] using hdot)⟩
  · rename_i hdot
    split at h
    · rename_i hmem
      cases h
      exact ⟨(if_neg hdot).symm,.inr hmem⟩
    · cases h

theorem namespaceCase_ok {case_ case_' : MatchCase} {at_ : Message} (h : namespaceCase key siblings at_ case_ = .ok case_') :
    case_' = MatchCase.mapTarget (globalName key) case_ ∧ Resolvable siblings case_.pipeline := by
  unfold namespaceCase at h
  cases hresolve : resolveRef case_.pipeline key siblings at_ with
  | error f =>
    rw [hresolve] at h
    cases h
  | ok target =>
    rw [hresolve] at h
    cases h
    obtain ⟨rfl,hresolvable⟩ := resolveRef_ok hresolve
    exact ⟨rfl,hresolvable⟩

theorem namespaceDefault_ok {default default' : Option MatchCase} {at_ : Message}
    (h : namespaceDefault key siblings at_ default = .ok default') :
    default' = default.map (MatchCase.mapTarget (globalName key)) ∧
      ∀ t ∈ (default.map MatchCase.pipeline).toList, Resolvable siblings t := by
  cases default with
  | none =>
    cases h
    exact ⟨rfl,nofun⟩
  | some case_ =>
    obtain ⟨case_',hcase,rfl⟩ := map_eq_ok h
    obtain ⟨rfl,hresolvable⟩ := namespaceCase_ok hcase
    exact ⟨rfl,by simpa using hresolvable⟩

theorem namespaceMatch_ok {step : MatchStep} {step' : Step} {at_ : Message}
    (h : namespaceStep key siblings at_ (.match step) = .ok step') :
    step' = mapTargets (globalName key) (.match step) ∧ ∀ t ∈ targets (.match step), Resolvable siblings t := by
  rw [namespaceStep] at h
  obtain ⟨cases_,hcases,h⟩ := bind_ok h
  obtain ⟨default,hdefault,h⟩ := bind_ok h
  cases h
  have hmap : cases_ = step.cases.map fun p => (p.1,MatchCase.mapTarget (globalName key) p.2) := by
    apply mapM_ok_eq_map hcases
    intro p q hq
    obtain ⟨case_,hcase,rfl⟩ := map_eq_ok hq
    rw [(namespaceCase_ok hcase).1]
  have hresolvable : ∀ p ∈ step.cases, Resolvable siblings p.2.pipeline := by
    intro p hp
    obtain ⟨q,hq⟩ := mapM_ok_iff.mp ⟨_,hcases⟩ p hp
    obtain ⟨case_,hcase,-⟩ := map_eq_ok hq
    exact (namespaceCase_ok hcase).2
  obtain ⟨rfl,hdefaultTarget⟩ := namespaceDefault_ok hdefault
  rw [mapTargets,targets,hmap]
  refine ⟨rfl,List.forall_mem_append.mpr ⟨fun t ht => ?_,hdefaultTarget⟩⟩
  obtain ⟨p,hp,rfl⟩ := List.mem_map.mp ht
  exact hresolvable p hp

mutual
/-- A step that is taken has its targets resolved and is else the same. -/
theorem namespaceStep_ok : ∀ {step step' : Step} {at_ : Message}, namespaceStep key siblings at_ step = .ok step' →
    step' = mapTargets (globalName key) step ∧ ∀ t ∈ targets step, Resolvable siblings t
  | .call step, step', at_, h => by
    rw [namespaceStep] at h
    obtain ⟨target,htarget,rfl⟩ := map_eq_ok h
    obtain ⟨rfl,hresolvable⟩ := resolveRef_ok htarget
    rw [mapTargets,targets]
    exact ⟨rfl,by simpa using hresolvable⟩
  | .match step, step', at_, h => namespaceMatch_ok h
  | .fold init run output source maxItems, step', at_, h => by
    rw [namespaceStep] at h
    obtain ⟨run',hrun,h⟩ := bind_ok h
    cases h
    obtain ⟨rfl,hresolvable⟩ := namespaceStep_ok hrun
    rw [mapTargets,targets]
    exact ⟨rfl,hresolvable⟩
  | .forEach run collect onError source maxParallel output, step', at_, h => by
    rw [namespaceStep] at h
    obtain ⟨run',hrun,h⟩ := bind_ok h
    obtain ⟨collect',hcollect,h⟩ := bind_ok h
    cases h
    obtain ⟨rfl,hrunTargets⟩ := namespaceStep_ok hrun
    obtain ⟨rfl,hcollectTargets⟩ := namespaceStep_ok hcollect
    rw [mapTargets,targets]
    exact ⟨rfl,List.forall_mem_append.mpr ⟨hrunTargets,hcollectTargets⟩⟩
  | .parallel branches collect onError output, step', at_, h => by
    rw [namespaceStep] at h
    obtain ⟨branches',hbranches,h⟩ := bind_ok h
    obtain ⟨collect',hcollect,h⟩ := bind_ok h
    cases h
    obtain ⟨rfl,hbranchesTargets⟩ := namespaceBranches_ok hbranches
    obtain ⟨rfl,hcollectTargets⟩ := namespaceStep_ok hcollect
    rw [mapTargets,targets]
    exact ⟨rfl,List.forall_mem_append.mpr ⟨hbranchesTargets,hcollectTargets⟩⟩
  | .transform step, step', at_, h | .tool step, step', at_, h | .agent step, step', at_, h => by
    rw [namespaceStep] at h
    · cases h
      rw [mapTargets,targets]
      exact ⟨rfl,nofun⟩
    all_goals exact nofun
theorem namespaceBranches_ok : ∀ {branches branches' : List (Value × Step)} {at_ : Message},
    namespaceBranches key siblings at_ branches = .ok branches' →
      branches' = mapBranches (globalName key) branches ∧ ∀ t ∈ branchTargets branches, Resolvable siblings t
  | [], branches', at_, h => by
    rw [namespaceBranches] at h
    cases h
    rw [mapBranches,branchTargets]
    exact ⟨rfl,nofun⟩
  | (name,step) :: rest, branches', at_, h => by
    rw [namespaceBranches] at h
    obtain ⟨step',hstep,h⟩ := bind_ok h
    obtain ⟨rest',hrest,h⟩ := bind_ok h
    cases h
    obtain ⟨rfl,hstepTargets⟩ := namespaceStep_ok hstep
    obtain ⟨rfl,hrestTargets⟩ := namespaceBranches_ok hrest
    rw [mapBranches,branchTargets]
    exact ⟨rfl,List.forall_mem_append.mpr ⟨hstepTargets,hrestTargets⟩⟩
end

end Rewriting

/-- The computation ends with something that is no `PipelineLoadError`. -/
def Escapes {A : Type} (x : Loading A) : Prop := ∃ f, x = .error f ∧ ∀ message, f ≠ .refused message

section Escapes
variable {A B : Type}

theorem not_escapes_ok (a : A) : ¬Escapes (.ok a : Loading A) := fun ⟨_,h,_⟩ => nomatch h

theorem not_escapes_refuse (message : Message) : ¬Escapes (refuseEntry message : Loading A) := by
  rintro ⟨f,h,hf⟩
  cases h
  exact hf message rfl

theorem escapes_bind {x : Loading A} {f : A → Loading B} :
    Escapes (x.bind f) ↔ Escapes x ∨ ∃ a, x = .ok a ∧ Escapes (f a) := by
  cases x with
  | ok a =>
    constructor
    · exact fun h => .inr ⟨a,rfl,h⟩
    · rintro (h | ⟨a',ha',h⟩)
      · exact absurd h (not_escapes_ok a)
      · cases ha'
        exact h
  | error e =>
    constructor
    · rintro ⟨f,h,hf⟩
      cases h
      exact .inl ⟨e,rfl,hf⟩
    · rintro (⟨f,h,hf⟩ | ⟨_,h,_⟩)
      · cases h
        exact ⟨e,rfl,hf⟩
      · cases h

theorem not_escapes_bind {x : Loading A} {f : A → Loading B} (hx : ¬Escapes x) (hf : ∀ a, ¬Escapes (f a)) :
    ¬Escapes (x.bind f) := by
  rw [escapes_bind]
  rintro (h | ⟨a,-,h⟩)
  · exact hx h
  · exact hf a h

theorem escapes_map {x : Loading A} {f : A → B} : Escapes (x.map f) ↔ Escapes x := by
  cases x with
  | ok a => exact iff_of_false (not_escapes_ok (f a)) (not_escapes_ok a)
  | error e =>
    constructor
    all_goals
      rintro ⟨e',h,he⟩
      cases h
      exact ⟨e,rfl,he⟩

theorem not_escapes_map {x : Loading A} {f : A → B} (hx : ¬Escapes x) : ¬Escapes (x.map f) := mt escapes_map.mp hx

theorem not_escapes_mapM {f : A → Loading B} {l : List A} (hf : ∀ a, ¬Escapes (f a)) : ¬Escapes (l.mapM f) := by
  induction l with
  | nil => exact not_escapes_ok []
  | cons a rest ih =>
    rw [List.mapM_cons]
    exact not_escapes_bind (hf a) fun _ => not_escapes_bind ih fun _ => not_escapes_ok _

variable (key : String) (siblings : List String)

theorem resolveRef_escapes (target : String) (at_ : Message) : ¬Escapes (resolveRef target key siblings at_) := by
  unfold resolveRef
  split
  · exact not_escapes_ok _
  · split
    · exact not_escapes_ok _
    · exact not_escapes_refuse _

theorem namespaceCase_escapes (at_ : Message) (case_ : MatchCase) : ¬Escapes (namespaceCase key siblings at_ case_) :=
  not_escapes_map (resolveRef_escapes key siblings _ _)

theorem namespaceDefault_escapes (at_ : Message) (default : Option MatchCase) :
    ¬Escapes (namespaceDefault key siblings at_ default) := by
  cases default with
  | none => exact not_escapes_ok _
  | some case_ => exact not_escapes_map (namespaceCase_escapes key siblings _ _)

mutual
theorem namespaceStep_escapes : ∀ (step : Step) (at_ : Message), ¬Escapes (namespaceStep key siblings at_ step)
  | .call step, at_ => by
    rw [namespaceStep]
    exact not_escapes_map (resolveRef_escapes key siblings _ _)
  | .match step, at_ => by
    rw [namespaceStep]
    apply not_escapes_bind
    · exact not_escapes_mapM fun p => not_escapes_map (namespaceCase_escapes key siblings _ _)
    · exact fun _ => not_escapes_bind (namespaceDefault_escapes key siblings _ _) fun _ => not_escapes_ok _
  | .fold _ run _ _ _, at_ => by
    rw [namespaceStep]
    exact not_escapes_bind (namespaceStep_escapes run at_) fun _ => not_escapes_ok _
  | .forEach run collect _ _ _ _, at_ => by
    rw [namespaceStep]
    exact not_escapes_bind (namespaceStep_escapes run at_) fun _ =>
      not_escapes_bind (namespaceStep_escapes collect at_) fun _ => not_escapes_ok _
  | .parallel branches collect _ _, at_ => by
    rw [namespaceStep]
    exact not_escapes_bind (namespaceBranches_escapes branches at_) fun _ =>
      not_escapes_bind (namespaceStep_escapes collect at_) fun _ => not_escapes_ok _
  | .transform _, at_ | .tool _, at_ | .agent _, at_ => by
    rw [namespaceStep]
    · exact not_escapes_ok _
    all_goals exact nofun
theorem namespaceBranches_escapes : ∀ (branches : List (Value × Step)) (at_ : Message),
    ¬Escapes (namespaceBranches key siblings at_ branches)
  | [], _ => by
    rw [namespaceBranches]
    exact not_escapes_ok _
  | (_,step) :: rest, at_ => by
    rw [namespaceBranches]
    exact not_escapes_bind (namespaceStep_escapes step at_) fun _ =>
      not_escapes_bind (namespaceBranches_escapes rest at_) fun _ => not_escapes_ok _
end

end Escapes

/-! ## Registering a file -/

/-- The items of a registry that a file adds. -/
def added (schemas : SchemaRegistry) (staged : List Pipeline) : List (String × (Pipeline × SchemaRegistry)) :=
  staged.map fun p => (p.name,(p,schemas))

end Reyn.Loader
