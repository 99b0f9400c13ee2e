import Reyn.Lib.Dict
import Reyn.Pipeline.Parser

/-! # The schema registry

Registering a schema checks its shape and then, with the schema in place, that no schema
leads to itself by references. What Python's `>` says of two numbers is a parameter.
-/
namespace Reyn.Schema
open Py Reyn.Parser

inductive SchemaFailure where
  /-- A `SchemaError`. -/
  | refused (message : Message)
  /-- The `TypeError` of a value that is not hashable, or of references that cannot be sorted. -/
  | typeError
  /-- A `KeyError` or an `AttributeError`, of a schema that no check has seen. -/
  | lookup

abbrev Checked (A : Type) := Except SchemaFailure A

def deny {A : Type} (message : Message) : Checked A := .error (.refused message)

/-- Each name with the items of its schema. -/
abbrev SchemaRegistry := Dict String (List (Value × Value))

def knownTypes : List Value := ["bool","enum","list","number","object","ref","string"].map .str

mutual
def hashable : Value → Bool
  | .list _ | .dict _ => false
  | .tuple xs => hashableItems xs
  | .other type _ _ => type != "set"
  | _ => true
def hashableItems : List Value → Bool
  | [] => true
  | x :: xs => hashable x && hashableItems xs
end

section Shape
variable (exceeds : Value → Value → Bool)

/-- A bound is absent or a number, and no bool. -/
def checkBound (key : String) (bound : Value) (path : Message) : Checked Unit :=
  match bound with
  | .none | .int _ | .float _ => .ok ()
  | _ => deny (path ++ [.text (": '" ++ key ++ "' must be a number, got " ++ typeName bound)])

def checkNumberBoundsShape (ft : List (Value × Value)) (path : Message) : Checked Unit := do
  let minimum := field ft "minimum"
  let maximum := field ft "maximum"
  checkBound "minimum" minimum path
  checkBound "maximum" maximum path
  if minimum ≠ .none ∧ maximum ≠ .none ∧ exceeds minimum maximum then
    deny (path ++ [.text ": 'minimum' (",.repr minimum,.text ") must not exceed 'maximum' (",.repr maximum,.text ")"])
  else .ok ()

def checkFieldTypeShape (ft : Value) (path : Message) (allowList : Bool) : Checked Unit :=
  match ft with
  | .dict fields =>
    if hashable (field fields "type") then
      match field fields "type" with
      | .str "bool" | .str "string" => .ok ()
      | .str "number" => checkNumberBoundsShape exceeds fields path
      | .str "enum" =>
        match field fields "values" with
        | .list (_ :: _) => .ok ()
        | _ => deny (path ++ [.text ": enum type requires non-empty 'values'"])
      | .str "list" =>
        if allowList then
          if _h : field fields "of" = .none then deny (path ++ [.text ": list type requires 'of' (no untyped lists)"])
          else checkFieldTypeShape (field fields "of") (path ++ [.text ".of"]) false
        else deny (path ++ [.text ": list element type may not itself be a list"])
      | .str "object" =>
        match _h : field fields "fields" with
        | .dict (f :: fs) => (f :: fs).attach.forM fun p =>
          checkFieldTypeShape p.1.2 (path ++ [.text ".",.str p.1.1]) true
        | _ => deny (path ++ [.text ": object type requires non-empty 'fields'"])
      | .str "ref" =>
        if Parser.truthy (field fields "schema") then .ok () else deny (path ++ [.text ": ref type requires 'schema'"])
      | t => deny (path ++ [.text ": unknown field type ",.repr t,.text " (expected one of ",.sorted knownTypes,.text ")"])
    else .error .typeError
  | ft => deny (path ++ [.text (": field type must be a dict, got " ++ typeName ft)])
termination_by ft.depth
decreasing_by
  · exact field_depth_lt _h
  · have hp := Value.depth_lt_dict p.2
    have hne : field fields "fields" ≠ .none := by
      rw [_h]
      exact Value.noConfusion
    have hf := field_depth_lt hne
    rw [_h] at hf
    exact hp.trans hf

def checkSchemaShape (name : String) (schema : List (Value × Value)) : Checked Unit :=
  match field schema "fields" with
  | .dict (f :: fs) => (f :: fs).forM fun p =>
    checkFieldTypeShape exceeds p.2 [.text (name ++ "."),.str p.1] true
  | _ => deny [.text "schema ",.repr (.str name),.text " requires non-empty 'fields'"]

end Shape

/-! ## References -/

/-- Why the search for a cycle ends early: a cycle, or an exception it does not expect. -/
inductive RefStop where
  | cycle (names : List String)
  | typeError
  | lookup

/-- The `ref` names that are reached directly from a field type. -/
def directRefs (ft : Value) : Except RefStop (List Value) :=
  match ft with
  | .dict fields =>
    match field fields "type" with
    | .str "ref" =>
      match Value.get? fields "schema" with
      | some name => if hashable name then .ok [name] else .error .typeError
      | none => .error .lookup
    | .str "list" => if _h : field fields "of" = .none then .error .lookup else directRefs (field fields "of")
    | .str "object" =>
      match _h : field fields "fields" with
      | .dict fs => (fs.attach.mapM fun p => directRefs p.1.2).map List.flatten
      | _ => .error .lookup
    | _ => .ok []
  | _ => .error .lookup
termination_by ft.depth
decreasing_by
  · exact field_depth_lt _h
  · have hp := Value.depth_lt_dict p.2
    have hne : field fields "fields" ≠ .none := by
      rw [_h]
      exact Value.noConfusion
    have hf := field_depth_lt hne
    rw [_h] at hf
    exact hp.trans hf

def schemaDirectRefs (schema : List (Value × Value)) : Except RefStop (List Value) :=
  match field schema "fields" with
  | .dict fs => (fs.mapM fun p => directRefs p.2).map List.flatten
  | _ => .error .lookup

/-- The references of a schema that name schemas, sorted. -/
def refsOf (schemas : SchemaRegistry) (node : String) : Except RefStop (List String) :=
  match schemaDirectRefs ((schemas.get? node).getD []) with
  | .error stop => .error stop
  | .ok refs =>
    if sortable refs.dedup then
      .ok ((schemas.keys.filter fun name => .str name ∈ refs).mergeSort (· ≤ ·))
    else .error .typeError

/-- The search from one schema: the stack it is on, and the schemas it is done with. -/
def followRefs (schemas : SchemaRegistry) : ℕ → List String → List String → String → Except RefStop (List String)
  | 0, _, finished, _ => .ok finished
  | fuel + 1, stack, finished, node => do
    let refs ← refsOf schemas node
    let finished ← refs.foldlM (fun finished ref =>
      if ref ∈ stack ++ [node] then .error (.cycle ((stack ++ [node]).drop ((stack ++ [node]).idxOf ref) ++ [ref]))
      else if ref ∈ finished then .ok finished
      else followRefs schemas fuel (stack ++ [node]) finished ref) finished
    return finished ++ [node]

/-- `_find_ref_cycle`; a stack never holds a name twice. -/
def findRefCycle (schemas : SchemaRegistry) : Except RefStop (List String) :=
  schemas.keys.foldlM (fun finished name =>
    if name ∈ finished then .ok finished else followRefs schemas schemas.keys.length [] finished name) []

/-- `register`, with the registry as it is left. A cycle is rolled back. -/
def register (exceeds : Value → Value → Bool) (schemas : SchemaRegistry) (name : String) (schema : List (Value × Value)) :
    Checked Unit × SchemaRegistry :=
  match checkSchemaShape exceeds name schema with
  | .error f => (.error f,schemas)
  | .ok () =>
    let normalized := if (Value.get? schema "name").isSome then schema else schema ++ [(.str "name",.str name)]
    let changed := schemas.set name normalized
    match findRefCycle changed with
    | .ok _ => (.ok (),changed)
    | .error .typeError => (.error .typeError,changed)
    | .error .lookup => (.error .lookup,changed)
    | .error (.cycle names) =>
      (deny [.text ("recursive schema detected: " ++ String.intercalate " -> " names)],
        match schemas.get? name with
        | none => changed.pop name
        | some previous => changed.set name previous)

/-- A refused schema leaves the registry as it was. -/
theorem register_refused {exceeds : Value → Value → Bool} {schemas after : SchemaRegistry} {name : String}
    {schema : List (Value × Value)} {message : Message}
    (h : register exceeds schemas name schema = (.error (.refused message),after)) : after = schemas := by
  rw [register] at h
  split at h
  · cases h
    rfl
  · dsimp only at h
    split at h
    · cases h
    · cases h
    · cases h
    · cases h
      cases hget : schemas.get? name with
      | none => exact Dict.pop_set_of_none hget _
      | some previous => exact Dict.set_set_of_some hget _

/-- A schema that is registered stands under its name. -/
theorem register_ok {exceeds : Value → Value → Bool} {schemas after : SchemaRegistry} {name : String}
    {schema : List (Value × Value)} (h : register exceeds schemas name schema = (.ok (),after)) :
    ∃ normalized, after = schemas.set name normalized := by
  rw [register] at h
  split at h
  · cases h
  · dsimp only at h
    split at h
    · cases h
      exact ⟨_,rfl⟩
    · cases h
    · cases h
    · cases h

end Reyn.Schema
