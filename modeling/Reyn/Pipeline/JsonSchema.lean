import Reyn.Pipeline.Validate

/-! # The generated JSON Schema

A schema becomes a JSON Schema with every reference expanded where it stands. The depth
of the expansion is bounded by a parameter; when no schema leads to itself there is a
bound from which on the result is the same.
-/
namespace Reyn.Schema
open Py Reyn.Parser Fallible

inductive ConversionFailure where
  | failed (f : SchemaFailure)
  /-- The expansion goes deeper than the bound. -/
  | recursion

abbrev Conversion (A : Type) := Except ConversionFailure A

def isRequired (ft : Value) : Bool :=
  match ft with
  | .dict ft => Parser.truthy (field ft "required")
  | _ => false

/-- `_fields_to_json_schema` -/
def fieldsToJsonSchema (convert : Value → Conversion Value) (fields : List (Value × Value)) : Conversion Value := do
  let properties ← fields.mapM fun p => (convert p.2).map fun js => (p.1,js)
  let required := (fields.filter fun p => isRequired p.2).map Prod.fst
  return .dict ([(.str "type",.str "object"),(.str "properties",.dict properties)] ++
    if required = [] then [] else [(.str "required",.list required)])

def boundItems (ft : List (Value × Value)) (key : String) : List (Value × Value) :=
  if field ft key = .none then [] else [(.str key,field ft key)]

section Convert
variable (registry : SchemaRegistry)

def fieldTypeToJsonSchema : ℕ → Value → Conversion Value
  | 0, _ => .error .recursion
  | fuel + 1, ft =>
    match ft with
    | .dict ft =>
      match field ft "type" with
      | .str "bool" => .ok (.dict [(.str "type",.str "boolean")])
      | .str "string" => .ok (.dict [(.str "type",.str "string")])
      | .str "number" => .ok (.dict ([(.str "type",.str "number")] ++ boundItems ft "minimum" ++ boundItems ft "maximum"))
      | .str "enum" =>
        match field ft "values" with
        | .list values => .ok (.dict [(.str "enum",.list values)])
        | _ => .error (.failed .lookup)
      | .str "list" => (fieldTypeToJsonSchema fuel (field ft "of")).map fun items =>
        .dict [(.str "type",.str "array"),(.str "items",items)]
      | .str "object" =>
        match field ft "fields" with
        | .dict fields => fieldsToJsonSchema (fieldTypeToJsonSchema fuel) fields
        | _ => .error (.failed .lookup)
      | .str "ref" =>
        match Value.get? ft "schema" with
        | none => .error (.failed .lookup)
        | some target =>
          if hashable target then
            match registered registry target with
            | none => .error (.failed .lookup)
            | some schema =>
              match field schema "fields" with
              | .dict fields => fieldsToJsonSchema (fieldTypeToJsonSchema fuel) fields
              | _ => .error (.failed .lookup)
          else .error (.failed .typeError)
      | t => .error (.failed (.refused [.text "to_json_schema: unknown field type ",.repr t]))
    | _ => .error (.failed .lookup)

def toJsonSchema (fuel : ℕ) (schema : Value) : Conversion Value :=
  match fieldsOfSchema registry schema with
  | .ok fields => fieldsToJsonSchema (fieldTypeToJsonSchema registry fuel) fields
  | .error f => .error (.failed f)

end Convert

/-! ## References -/

/-- The field type holds a reference to the schema of a name. -/
inductive RefersTo : Value → String → Prop
  | ref {ft : List (Value × Value)} {name : String} (type : field ft "type" = .str "ref")
      (target : Value.get? ft "schema" = some (.str name)) : RefersTo (.dict ft) name
  | list {ft : List (Value × Value)} {name : String} (type : field ft "type" = .str "list")
      (of : RefersTo (field ft "of") name) : RefersTo (.dict ft) name
  | object {ft fs : List (Value × Value)} {name : String} {p : Value × Value} (type : field ft "type" = .str "object")
      (fields : field ft "fields" = .dict fs) (mem : p ∈ fs) (sub : RefersTo p.2 name) : RefersTo (.dict ft) name

/-- A field of the schema holds a reference. -/
def SchemaRefersTo (schema : List (Value × Value)) (name : String) : Prop :=
  ∃ fs, field schema "fields" = .dict fs ∧ ∃ p ∈ fs, RefersTo p.2 name

/-- One registered schema refers to another one that is registered. -/
def Refers (registry : SchemaRegistry) (a b : String) : Prop :=
  b ∈ registry.keys ∧ ∃ schema, registry.get? a = some schema ∧ SchemaRefersTo schema b

/-! ## The depth of the expansion -/

/-- From some bound on the outcome does not change, and the expansion ends. -/
def Settles {A : Type} (outcome : ℕ → Conversion A) : Prop :=
  ∃ n result, result ≠ .error .recursion ∧ ∀ m, n ≤ m → outcome m = result

theorem Settles.const {A : Type} {result : Conversion A} (hne : result ≠ .error .recursion) : Settles fun _ => result :=
  ⟨0,result,hne,fun _ _ => rfl⟩

theorem Settles.shift {A : Type} {outcome : ℕ → Conversion A} (h : Settles fun m => outcome (m + 1)) : Settles outcome := by
  obtain ⟨n,result,hne,hall⟩ := h
  refine ⟨n + 1,result,hne,fun m hm => ?_⟩
  obtain ⟨k,rfl⟩ := Nat.exists_eq_succ_of_ne_zero (Nat.pos_iff_ne_zero.mp (Nat.lt_of_lt_of_le (Nat.succ_pos n) hm))
  exact hall k (Nat.succ_le_succ_iff.mp hm)

theorem Settles.mapM {A B : Type} {convert : ℕ → A → Conversion B} {l : List A}
    (h : ∀ a ∈ l, Settles fun m => convert m a) : Settles fun m => l.mapM (convert m) := by
  induction l with
  | nil => exact ⟨0,.ok [],nofun,fun _ _ => rfl⟩
  | cons a l ih =>
    obtain ⟨n,result,hne,hall⟩ := h a List.mem_cons_self
    obtain ⟨n',result',hne',hall'⟩ := ih fun b hb => h b (List.mem_cons_of_mem _ hb)
    refine ⟨max n n',result.bind fun b => result'.map (b :: ·),?_,fun m hm => ?_⟩
    · cases result with
      | error e => exact fun heq => hne (congrArg Except.error (Except.error.inj heq))
      | ok b =>
        cases result' with
        | error e => exact fun heq => hne' (congrArg Except.error (Except.error.inj heq))
        | ok bs => exact nofun
    · dsimp only at hall hall' ⊢
      rw [List.mapM_cons,hall m (Nat.le_trans (Nat.le_max_left _ _) hm),hall' m (Nat.le_trans (Nat.le_max_right _ _) hm)]
      cases result with
      | error e => rfl
      | ok b => cases result' <;> rfl

theorem Settles.map {A B : Type} {outcome : ℕ → Conversion A} (h : Settles outcome) (f : A → B) :
    Settles fun m => (outcome m).map f := by
  obtain ⟨n,result,hne,hall⟩ := h
  refine ⟨n,result.map f,?_,fun m hm => congrArg (Except.map f) (hall m hm)⟩
  cases result with
  | error e => exact fun heq => hne (congrArg Except.error (Except.error.inj heq))
  | ok b => exact nofun

variable {registry : SchemaRegistry}

theorem settles_fields {fields : List (Value × Value)} (h : ∀ p ∈ fields, Settles fun m => fieldTypeToJsonSchema registry m p.2) :
    Settles fun m => fieldsToJsonSchema (fieldTypeToJsonSchema registry m) fields :=
  (Settles.mapM fun p hp => (h p hp).map fun js => (p.1,js)).map _

/-- All fields of a schema settle. -/
def SchemaSettles (registry : SchemaRegistry) (schema : List (Value × Value)) : Prop :=
  ∀ fs, field schema "fields" = .dict fs → ∀ p ∈ fs, Settles fun m => fieldTypeToJsonSchema registry m p.2

/-- A field type settles when the schemas it refers to do. -/
theorem settles_of_refs (ft : Value) (h : ∀ name, RefersTo ft name → ∀ schema, registry.get? name = some schema →
    SchemaSettles registry schema) : Settles fun m => fieldTypeToJsonSchema registry m ft := by
  induction hdepth : ft.depth using Nat.strong_induction_on generalizing ft with
  | h depth ih =>
    subst hdepth
    apply Settles.shift
    simp only [fieldTypeToJsonSchema]
    split
    · rename_i ft
      split
      · exact .const nofun
      · exact .const nofun
      · exact .const nofun
      · split
        · exact .const nofun
        · exact .const nofun
      · rename_i htype
        apply Settles.map
        by_cases hof : field ft "of" = .none
        · rw [hof]
          exact .shift (.const nofun)
        · exact ih _ (field_depth_lt hof) _ (fun name href => h name (.list htype href)) rfl
      · rename_i htype
        split
        · rename_i fs hfields
          have hne : field ft "fields" ≠ .none := by
            rw [hfields]
            exact Value.noConfusion
          have hlt := field_depth_lt hne
          rw [hfields] at hlt
          exact settles_fields fun p hp =>
            ih _ ((Value.depth_lt_dict hp).trans hlt) _ (fun name href => h name (.object htype hfields hp href)) rfl
        · exact .const nofun
      · rename_i htype
        split
        · exact .const nofun
        · rename_i target htarget
          split
          · split
            · exact .const nofun
            · rename_i schema hschema
              split
              · rename_i fs hfields
                cases target with
                | str name => exact settles_fields (h name (.ref htype htarget) schema hschema fs hfields)
                | _ => cases hschema
              · exact .const nofun
          · exact .const nofun
      · exact .const nofun
    · exact .const nofun

end Reyn.Schema
