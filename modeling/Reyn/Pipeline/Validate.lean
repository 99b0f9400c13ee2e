import Reyn.Lib.Fallible
import Reyn.Lib.Number
import Reyn.Pipeline.Schema

/-! # Validation and static paths

A value is checked against a schema through its objects, its lists and the references,
and every violation is reported. A dotted path through the schema leads to a field type,
and what the path leads to in a value that conforms is of that type.
-/
namespace Reyn.Schema
open Py Reyn.Parser Fallible

inductive ErrorKind where
  | missingRequired
  | typeMismatch
  | enumInvalid
  | unresolvedRef
  | unknownType
  | outOfRange
  deriving DecidableEq

structure ValidationError where
  path : Message
  message : Message
  kind : ErrorKind

structure ValidationResult where
  conforming : Bool
  errors : List ValidationError

/-- The path of a member, of which the first is the name itself. -/
def fieldPath (path : Message) (fname : Value) : Message :=
  match path with
  | [] => [.str fname]
  | [.str name] => if Parser.truthy name then [.str name,.text ".",.str fname] else [.str fname]
  | path => path ++ [.text ".",.str fname]

def mismatch (path : Message) (expected : Message) (value : Value) : ValidationError :=
  ⟨path,[.text "expected "] ++ expected ++ [.text (", got " ++ typeName value)],.typeMismatch⟩

def validateNumberBounds (value : Value) (ft : List (Value × Value)) (path : Message) : List ValidationError :=
  let minimum := field ft "minimum"
  let maximum := field ft "maximum"
  (if minimum ≠ .none ∧ minimum.exceeds value then
    [⟨path,[.repr value,.text " is below minimum ",.repr minimum],.outOfRange⟩] else []) ++
  (if maximum ≠ .none ∧ value.exceeds maximum then
    [⟨path,[.repr value,.text " is above maximum ",.repr maximum],.outOfRange⟩] else [])

theorem depth_member {fields : List (Value × Value)} {key v : Value} (h : Value.member? fields key = some v) :
    v.depth < (Value.dict fields).depth := by
  obtain ⟨p,hfind,rfl⟩ := Option.map_eq_some_iff.mp h
  exact Value.depth_lt_dict (List.mem_of_find?_eq_some hfind)

section Validate
variable (registry : SchemaRegistry)

/-- The schema under a name; a name of another type is in no registry. -/
def registered (target : Value) : Option (List (Value × Value)) :=
  match target with
  | .str name => registry.get? name
  | _ => none

mutual
def validateObjectFields (value : List (Value × Value)) (fields : List (Value × Value)) (path : Message) :
    Checked (List ValidationError) :=
  (fields.mapM fun (p : Value × Value) =>
    match _h : Value.member? value p.1 with
    | some fvalue => validateField fvalue p.2 (fieldPath path p.1)
    | none =>
      match p.2 with
      | .dict ft =>
        if Parser.truthy (field ft "required") then
          .ok [⟨fieldPath path p.1,[.text "required field missing"],.missingRequired⟩]
        else .ok []
      | _ => .error .lookup).map List.flatten
termination_by ((Value.dict value).depth,0)
decreasing_by exact Prod.Lex.left _ _ (depth_member _h)

def validateField (value ft : Value) (path : Message) : Checked (List ValidationError) :=
  match ft with
  | .dict ft =>
    if hashable (field ft "type") then
      match field ft "type" with
      | .str "bool" =>
        match value with
        | .bool _ => .ok []
        | value => .ok [mismatch path [.text "bool"] value]
      | .str "string" =>
        match value with
        | .str _ => .ok []
        | value => .ok [mismatch path [.text "string"] value]
      | .str "number" =>
        match value with
        | .int i => .ok (validateNumberBounds (.int i) ft path)
        | .float f => .ok (validateNumberBounds (.float f) ft path)
        | value => .ok [mismatch path [.text "number"] value]
      | .str "enum" =>
        match field ft "values" with
        | .list values =>
          if values.any (Value.pyEq value) then .ok []
          else .ok [⟨path,[.repr value,.text " not in ",.str (.list values)],.enumInvalid⟩]
        | _ => .error .lookup
      | .str "list" =>
        match value with
        | .list items =>
          (items.attach.zipIdx.mapM fun p =>
            validateField p.1.1 (field ft "of") (path ++ [.text ("[" ++ toString p.2 ++ "]")])).map List.flatten
        | value => .ok [mismatch path [.text "list"] value]
      | .str "object" =>
        match value with
        | .dict value =>
          match field ft "fields" with
          | .dict fields => validateObjectFields value fields path
          | _ => .error .lookup
        | value => .ok [mismatch path [.text "object"] value]
      | .str "ref" =>
        match Value.get? ft "schema" with
        | none => .error .lookup
        | some target =>
          if hashable target then
            match registered registry target with
            | none => .ok [⟨path,[.text "unresolved ref: ",.str target],.unresolvedRef⟩]
            | some schema =>
              match value with
              | .dict value =>
                match field schema "fields" with
                | .dict fields => validateObjectFields value fields path
                | _ => .error .lookup
              | value => .ok [mismatch path [.text "object (ref ",.str target,.text ")"] value]
          else .error .typeError
      | t => .ok [⟨path,[.text "unknown field type: ",.repr t],.unknownType⟩]
    else .error .typeError
  | _ => .error .lookup
termination_by (value.depth,1)
decreasing_by
  · exact Prod.Lex.left _ _ (Value.depth_lt_list p.1.2)
  all_goals exact Prod.Lex.right _ Nat.zero_lt_one
end

/-- A schema, or the name of one. -/
def schemaOf (schema : Value) : Checked (List (Value × Value)) :=
  match schema with
  | .dict schema => .ok schema
  | .str name =>
    match registry.get? name with
    | some schema => .ok schema
    | none => .error .lookup
  | _ => .error .lookup

def fieldsOfSchema (schema : Value) : Checked (List (Value × Value)) :=
  (schemaOf registry schema).bind fun schema =>
    match field schema "fields" with
    | .dict fields => .ok fields
    | _ => .error .lookup

def validate (value schema : Value) : Checked ValidationResult :=
  (schemaOf registry schema).bind fun schema =>
    match value with
    | .dict value =>
      match field schema "fields" with
      | .dict fields => (validateObjectFields registry value fields []).map fun errors => ⟨errors.isEmpty,errors⟩
      | _ => .error .lookup
    | value => .ok ⟨false,[mismatch [] [.text "object"] value]⟩

/-! ## Paths -/

/-- `_fields_of` -/
def fieldsOf (ft : Value) : Checked (Option (List (Value × Value))) :=
  match ft with
  | .dict fields =>
    match field fields "type" with
    | .str "object" =>
      match field fields "fields" with
      | .dict fs => .ok (some fs)
      | _ => .error .lookup
    | .str "ref" =>
      match Value.get? fields "schema" with
      | none => .error .lookup
      | some target =>
        if hashable target then
          match registered registry target with
          | none => .ok none
          | some schema =>
            match field schema "fields" with
            | .dict fs => .ok (some fs)
            | _ => .error .lookup
        else .error .typeError
    | .str "list" => if _h : field fields "of" = .none then .error .lookup else fieldsOf (field fields "of")
    | _ => .ok none
  | _ => .error .lookup
termination_by ft.depth
decreasing_by exact field_depth_lt _h

def resolveParts (fields : List (Value × Value)) : List String → Checked (Option Value)
  | [] => .ok none
  | [part] => .ok (Value.get? fields part)
  | part :: next :: rest =>
    match Value.get? fields part with
    | none => .ok none
    | some current => (fieldsOf registry current).bind fun nested =>
      match nested with
      | none => .ok none
      | some fields => resolveParts fields (next :: rest)

/-- `path.split(".")` -/
def pathParts (path : String) : List String := (path.toList.splitOn '.').map String.ofList

def resolvePath (schema : Value) (path : String) : Checked (Option Value) :=
  (fieldsOfSchema registry schema).bind fun fields => resolveParts registry fields (pathParts path)

/-! ## Values that conform -/

/-- The members of an object type, or of the schema a reference names. -/
inductive ObjectFields (ft : List (Value × Value)) : List (Value × Value) → Prop
  | object {fs : List (Value × Value)} (type : field ft "type" = .str "object") (fields : field ft "fields" = .dict fs) :
      ObjectFields ft fs
  | ref {fs schema : List (Value × Value)} {name : String} (type : field ft "type" = .str "ref")
      (target : Value.get? ft "schema" = some (.str name)) (known : registry.get? name = some schema)
      (fields : field schema "fields" = .dict fs) : ObjectFields ft fs

/-- The value has no member of a field type that is not required. -/
def MayMiss (ft : Value) : Prop := ∃ sub, ft = .dict sub ∧ Parser.truthy (field sub "required") = false

inductive Conforms : Value → Value → Prop
  | bool {ft : List (Value × Value)} {b : Bool} (type : field ft "type" = .str "bool") : Conforms (.bool b) (.dict ft)
  | string {ft : List (Value × Value)} {s : String} (type : field ft "type" = .str "string") :
      Conforms (.str s) (.dict ft)
  | int {ft : List (Value × Value)} {i : ℤ} (type : field ft "type" = .str "number")
      (bounds : validateNumberBounds (.int i) ft [] = []) : Conforms (.int i) (.dict ft)
  | float {ft : List (Value × Value)} {f : FloatLit} (type : field ft "type" = .str "number")
      (bounds : validateNumberBounds (.float f) ft [] = []) : Conforms (.float f) (.dict ft)
  | enum {ft : List (Value × Value)} {v : Value} {values : List Value} (type : field ft "type" = .str "enum")
      (listed : field ft "values" = .list values) (mem : values.any (Value.pyEq v) = true) : Conforms v (.dict ft)
  | list {ft : List (Value × Value)} {items : List Value} (type : field ft "type" = .str "list")
      (each : ∀ x ∈ items, Conforms x (field ft "of")) : Conforms (.list items) (.dict ft)
  | members {ft fs value : List (Value × Value)} (fields : ObjectFields registry ft fs)
      (present : ∀ p ∈ fs, ∀ x, Value.member? value p.1 = some x → Conforms x p.2)
      (absent : ∀ p ∈ fs, Value.member? value p.1 = none → MayMiss p.2) : Conforms (.dict value) (.dict ft)

variable {registry}

theorem validateNumberBounds_nil_iff {value : Value} {ft : List (Value × Value)} {path : Message} :
    validateNumberBounds value ft path = [] ↔
      (field ft "minimum" ≠ .none → (field ft "minimum").exceeds value = false) ∧
        (field ft "maximum" ≠ .none → value.exceeds (field ft "maximum") = false) := by
  unfold validateNumberBounds
  rw [List.append_eq_nil_iff]
  apply and_congr
  all_goals
    split
    · rename_i h
      simp [h.1,h.2]
    · rename_i h
      simpa using h

theorem validateObjectFields_nil_iff {value fields : List (Value × Value)} {path : Message} :
    validateObjectFields registry value fields path = .ok [] ↔ ∀ p ∈ fields,
      (∀ x, Value.member? value p.1 = some x → validateField registry x p.2 (fieldPath path p.1) = .ok []) ∧
        (Value.member? value p.1 = none → MayMiss p.2) := by
  rw [validateObjectFields,mapM_flatten_nil_iff]
  apply forall₂_congr
  intro p _
  split
  · rename_i x hget
    simp [hget]
  · rename_i hget
    simp only [hget,reduceCtorEq,false_implies,implies_true,true_and,forall_const]
    split
    · rename_i ft hft
      split
      · rename_i hrequired
        refine iff_of_false (fun h => nomatch h) ?_
        rintro ⟨sub,heq,hnot⟩
        cases hft.symm.trans heq
        rw [hrequired] at hnot
        cases hnot
      · rename_i hrequired
        exact iff_of_true rfl ⟨ft,hft,Bool.eq_false_iff.mpr hrequired⟩
    · rename_i hnot
      refine iff_of_false (fun h => nomatch h) ?_
      rintro ⟨sub,heq,-⟩
      exact hnot sub heq

/-- Validation reports nothing exactly if the value conforms. -/
theorem validateField_nil_iff {value ft : Value} {path : Message} :
    validateField registry value ft path = .ok [] ↔ Conforms registry value ft := by
  constructor
  · intro h
    induction hdepth : value.depth using Nat.strong_induction_on generalizing value ft path with
    | h depth ih =>
      subst hdepth
      have hmembers : ∀ {vs fs ft : List (Value × Value)}, value = .dict vs → ObjectFields registry ft fs →
          validateObjectFields registry vs fs path = .ok [] → Conforms registry value (.dict ft) := by
        intro vs fs ft hvalue hfields hvalidate
        subst hvalue
        rw [validateObjectFields_nil_iff] at hvalidate
        exact .members hfields (fun p hp x hx => ih _ (depth_member hx) ((hvalidate p hp).1 x hx) rfl)
          fun p hp => (hvalidate p hp).2
      cases ft with
      | dict ft =>
        rw [validateField.eq_def] at h
        dsimp only at h
        split at h
        · split at h
          · rename_i htype
            split at h
            · exact .bool htype
            · cases h
          · rename_i htype
            split at h
            · exact .string htype
            · cases h
          · rename_i htype
            split at h
            · exact .int htype (validateNumberBounds_nil_iff.mpr (validateNumberBounds_nil_iff.mp (Except.ok.inj h)))
            · exact .float htype (validateNumberBounds_nil_iff.mpr (validateNumberBounds_nil_iff.mp (Except.ok.inj h)))
            · cases h
          · rename_i htype
            split at h
            · rename_i values hvalues
              split at h
              · exact .enum htype hvalues ‹_›
              · cases h
            · cases h
          · rename_i htype
            split at h
            · rename_i items
              rw [mapM_flatten_nil_iff] at h
              refine .list htype fun x hx => ?_
              obtain ⟨i,hi⟩ := List.mem_iff_getElem?.mp (List.mem_attach items ⟨x,hx⟩)
              exact ih _ (Value.depth_lt_list hx) (h (⟨x,hx⟩,i) (List.mem_zipIdx_iff_getElem?.mpr hi)) rfl
            · cases h
          · rename_i htype
            split at h
            · split at h
              · exact hmembers rfl (.object htype ‹_›) h
              · cases h
            · cases h
          · rename_i htype
            split at h
            · cases h
            · rename_i target htarget
              split at h
              · split at h
                · cases h
                · rename_i schema hschema
                  split at h
                  · split at h
                    · cases target with
                      | str name => exact hmembers rfl (.ref htype htarget hschema ‹_›) h
                      | _ => cases hschema
                    · cases h
                  · cases h
              · cases h
          · cases h
        · cases h
      | _ =>
        rw [validateField.eq_def] at h
        cases h
  · intro h
    induction h generalizing path with
    | bool htype =>
      rw [validateField.eq_def]
      simp [htype,hashable]
    | string htype =>
      rw [validateField.eq_def]
      simp [htype,hashable]
    | int htype hbounds =>
      have hnil := (@validateNumberBounds_nil_iff _ _ path).mpr (validateNumberBounds_nil_iff.mp hbounds)
      rw [validateField.eq_def]
      simp [htype,hashable,hnil]
    | float htype hbounds =>
      have hnil := (@validateNumberBounds_nil_iff _ _ path).mpr (validateNumberBounds_nil_iff.mp hbounds)
      rw [validateField.eq_def]
      simp [htype,hashable,hnil]
    | enum htype hlisted hmem =>
      rw [validateField.eq_def]
      simp only [htype,hashable,if_true,hlisted,hmem]
    | list htype _ ih =>
      rw [validateField.eq_def]
      simp only [htype,hashable,if_true]
      exact mapM_flatten_nil_iff.mpr fun p _ => ih _ p.1.2
    | members hfields _ habsent ih =>
      have hall := (@validateObjectFields_nil_iff _ _ _ path).mpr fun p hp => ⟨fun x hx => ih p hp x hx,habsent p hp⟩
      rw [validateField.eq_def]
      cases hfields with
      | object htype hfs => simp only [htype,hashable,if_true,hfs,hall]
      | ref htype htarget hknown hfs => simp only [htype,hashable,if_true,htarget,registered,hknown,hfs,hall]

/-! ## What a path leads to -/

/-- A value itself, and of a list also what its elements lead to. -/
inductive Enters : Value → Value → Prop
  | self (v : Value) : Enters v v
  | element {items : List Value} {x y : Value} (mem : x ∈ items) (rest : Enters x y) : Enters (.list items) y

/-- From mapping to mapping by the segments of a path; a list on the way is entered. -/
inductive Follows : Value → List String → Value → Prop
  | last {value : List (Value × Value)} {part : String} {x : Value} (get : Value.get? value part = some x) :
      Follows (.dict value) [part] x
  | more {value : List (Value × Value)} {part : String} {parts : List String} {x y z : Value}
      (get : Value.get? value part = some x) (enters : Enters x y) (rest : Follows y parts z) :
      Follows (.dict value) (part :: parts) z

theorem fieldsOf_object {ft fs : List (Value × Value)} (h : ObjectFields registry ft fs) :
    fieldsOf registry (.dict ft) = .ok (some fs) := by
  rw [fieldsOf.eq_def]
  cases h with
  | object type fields => simp only [type,fields]
  | ref type target known fields => simp only [type,target,hashable,if_true,registered,known,fields]

/-- What a value that conforms leads to has members of the types that the path goes on with. -/
theorem members_conform {v ft : Value} {fs value : List (Value × Value)} (hconforms : Conforms registry v ft)
    (hfields : fieldsOf registry ft = .ok (some fs)) (henters : Enters v (.dict value)) :
    ∀ p ∈ fs, ∀ x, Value.member? value p.1 = some x → Conforms registry x p.2 := by
  generalize hw : Value.dict value = w at henters
  induction henters generalizing ft with
  | self v =>
    subst hw
    cases hconforms with
    | enum type =>
      rw [fieldsOf.eq_def] at hfields
      simp [type] at hfields
    | members hobject hpresent _ =>
      rw [fieldsOf_object hobject] at hfields
      cases hfields
      exact hpresent
  | element hmem _ ih =>
    cases hconforms with
    | enum type =>
      rw [fieldsOf.eq_def] at hfields
      simp [type] at hfields
    | list type heach =>
      rw [fieldsOf.eq_def] at hfields
      simp only [type] at hfields
      split at hfields
      · cases hfields
      · exact ih (heach _ hmem) hfields hw

theorem resolveParts_sound {fields value : List (Value × Value)} {parts : List String} {ft x : Value}
    (hmembers : ∀ p ∈ fields, ∀ y, Value.member? value p.1 = some y → Conforms registry y p.2)
    (hresolve : resolveParts registry fields parts = .ok (some ft)) (hfollows : Follows (.dict value) parts x) :
    Conforms registry x ft := by
  induction parts generalizing fields value with
  | nil => cases hfollows
  | cons part parts ih =>
    have hmember : ∀ {y current}, Value.get? value part = some y → Value.get? fields part = some current →
        Conforms registry y current := by
      intro y current hget hcurrent
      obtain ⟨front,rest,heq,-⟩ := List.lookup_eq_some_iff.mp hcurrent
      exact hmembers (.str part,current) (by rw [heq]; simp) y (by rw [Value.member?_str]; exact hget)
    cases hfollows with
    | last hget => exact hmember hget (Except.ok.inj hresolve)
    | more hget henters hrest =>
      cases parts with
      | nil => cases hrest
      | cons next rest =>
        rw [resolveParts] at hresolve
        split at hresolve
        · cases hresolve
        · rename_i current hcurrent
          obtain ⟨nested,hnested,hresolve⟩ := bind_ok hresolve
          cases nested with
          | none => cases hresolve
          | some fs =>
            cases hrest with
            | last hget' =>
              exact ih (members_conform (hmember hget hcurrent) hnested henters) hresolve (.last hget')
            | more hget' henters' hrest' =>
              exact ih (members_conform (hmember hget hcurrent) hnested henters) hresolve (.more hget' henters' hrest')

/-- What the path leads to in a value that conforms to the schema is of the type that the path resolves to. -/
theorem resolvePath_sound {value schema ft x : Value} {path : String} {result : ValidationResult}
    (hvalidate : validate registry value schema = .ok result) (hconforming : result.conforming = true)
    (hresolve : resolvePath registry schema path = .ok (some ft)) (hfollows : Follows value (pathParts path) x)
    (at_ : Message) : validateField registry x ft at_ = .ok [] := by
  obtain ⟨s,hs,hvalidate⟩ := bind_ok hvalidate
  obtain ⟨fields,hfields,hresolve⟩ := bind_ok hresolve
  obtain ⟨s',hs',hfields⟩ := bind_ok hfields
  cases hs.symm.trans hs'
  split at hvalidate
  · split at hvalidate
    · rename_i value fields' heq
      rw [heq] at hfields
      cases hfields
      obtain ⟨errors,herrors,rfl⟩ := map_eq_ok hvalidate
      cases List.isEmpty_iff.mp hconforming
      rw [validateObjectFields_nil_iff] at herrors
      apply validateField_nil_iff.mpr
      exact resolveParts_sound (fun p hp y hy => validateField_nil_iff.mp ((herrors p hp).1 y hy)) hresolve hfollows
    · cases hvalidate
  · cases hvalidate
    cases hconforming

end Validate

/-! A list of references, and a path through it. -/

def fileType : List (Value × Value) := [(.str "type",.str "string")]

def fileRef : List (Value × Value) := [(.str "type",.str "ref"),(.str "schema",.str "file")]

def fileRegistry : SchemaRegistry := .ofList [("file",[(.str "fields",.dict [(.str "path",.dict fileType)])])]

def suspectsFields : List (Value × Value) :=
  [(.str "suspects",.dict [(.str "type",.str "list"),(.str "of",.dict fileRef)])]

def suspects : List (Value × Value) :=
  [(.str "suspects",.list [.dict [(.str "path",.str "a")],.dict [(.str "path",.str "b")]])]

theorem file_conforms (s : String) : Conforms fileRegistry (.dict [(.str "path",.str s)]) (.dict fileRef) := by
  apply Conforms.members (.ref rfl rfl rfl rfl)
  · intro p hp x hx
    rw [List.mem_singleton.mp hp,Value.member?_str] at hx
    cases hx
    rw [List.mem_singleton.mp hp]
    exact .string rfl
  · intro p hp hx
    rw [List.mem_singleton.mp hp,Value.member?_str] at hx
    cases hx

theorem suspects_conform : validateObjectFields fileRegistry suspects suspectsFields [] = .ok [] := by
  apply validateObjectFields_nil_iff.mpr
  intro p hp
  rw [List.mem_singleton.mp hp,Value.member?_str]
  refine ⟨fun x hx => ?_,nofun⟩
  cases hx
  apply validateField_nil_iff.mpr
  apply Conforms.list rfl
  intro x hx
  rcases List.mem_pair.mp hx with rfl | rfl
  · exact file_conforms "a"
  · exact file_conforms "b"

theorem suspects_path_sound : validateField fileRegistry (.str "b") (.dict fileType) [] = .ok [] := by
  have hparts : pathParts "suspects.path" = ["suspects","path"] := by decide_cbv
  apply @resolvePath_sound fileRegistry (.dict suspects) (.dict [(.str "fields",.dict suspectsFields)]) _ _
    "suspects.path" ⟨true,[]⟩
  · exact congrArg (Except.map _) suspects_conform
  · rfl
  · have hlist : fieldsOf fileRegistry (.dict [(.str "type",.str "list"),(.str "of",.dict fileRef)]) =
        .ok (some [(.str "path",.dict fileType)]) := by
      rw [fieldsOf.eq_def]
      exact fieldsOf_object (.ref rfl rfl rfl rfl)
    rw [resolvePath,hparts]
    change Except.bind (fieldsOf fileRegistry (.dict [(.str "type",.str "list"),(.str "of",.dict fileRef)])) _ = _
    rw [hlist]
    rfl
  · rw [hparts]
    exact .more (y := .dict [(.str "path",.str "b")]) (x := .list [.dict [(.str "path",.str "a")],.dict [(.str "path",.str "b")]])
      rfl (.element (List.mem_cons_of_mem _ List.mem_cons_self) (.self _)) (.last rfl)

end Reyn.Schema
