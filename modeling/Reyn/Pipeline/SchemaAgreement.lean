import Reyn.Pipeline.RefCycles

/-! # The validator and the generated JSON Schema

Both go through a field type along its expansion. What satisfies the JSON Schema
conforms; the other way round this fails where `==` finds a value in a list of values
that JSON does not, and at a bound that is no number.
-/
namespace Reyn.Schema
open Py Reyn.Parser Relation

/-! ## JSON Schema -/

def typeIs : Value → Value → Bool
  | .str "object", .dict _ | .str "array", .list _ | .str "string", .str _ | .str "boolean", .bool _
  | .str "number", .int _ | .str "number", .float _ => true
  | _, _ => false

/-- The value is at least, or at most, a bound. -/
def Within (le : Extended → Extended → Prop) (bound value : Value) : Prop :=
  ∀ x, value.number? = some x → ∃ y, bound.number? = some y ∧ le y x

/-- The value has a member of each name. -/
def HasAll (names : List Value) (members : List (Value × Value)) : Prop :=
  ∀ name ∈ names, ∃ s, name = .str s ∧ (Value.get? members s).isSome

/-- What a JSON Schema with the keywords `type`, `enum`, `minimum`, `maximum`, `required`, `properties` and
`items` says of a value. -/
def Satisfies (schema value : Value) : Prop :=
  match schema with
  | .dict schema =>
    (∀ t, Value.get? schema "type" = some t → typeIs t value = true) ∧
    (∀ values, Value.get? schema "enum" = some (.list values) → values.any (Value.jsonEq value) = true) ∧
    (∀ bound, Value.get? schema "minimum" = some bound → Within (· ≤ ·) bound value) ∧
    (∀ bound, Value.get? schema "maximum" = some bound → Within (· ≥ ·) bound value) ∧
    (∀ names, Value.get? schema "required" = some (.list names) → ∀ members, value = .dict members → HasAll names members) ∧
    (∀ properties, Value.get? schema "properties" = some (.dict properties) → ∀ members, value = .dict members →
      ∀ p ∈ properties, ∀ s, p.1 = .str s → ∀ x, (_h : Value.member? members (.str s) = some x ∧ value = .dict members) →
        Satisfies p.2 x) ∧
    (∀ items, Value.get? schema "items" = some items → ∀ xs, value = .list xs →
      ∀ x, (_h : x ∈ xs ∧ value = .list xs) → Satisfies items x)
  | _ => False
termination_by value.depth
decreasing_by
  · rw [_h.2]
    exact depth_member _h.1
  · rw [_h.2]
    exact Value.depth_lt_list _h.1

/-! ## The expansion of a field type -/

def numberSchema (ft : List (Value × Value)) : Value :=
  .dict ([(.str "type",.str "number")] ++ boundItems ft "minimum" ++ boundItems ft "maximum")

def requiredNames (fs : List (Value × Value)) : List Value := (fs.filter fun p => isRequired p.2).map Prod.fst

def objectSchema (fs properties : List (Value × Value)) : Value :=
  .dict ([(.str "type",.str "object"),(.str "properties",.dict properties)] ++
    if requiredNames fs = [] then [] else [(.str "required",.list (requiredNames fs))])

/-- A bound that the shape check takes. -/
def IsBound (v : Value) : Prop := v = .none ∨ (∃ i, v = .int i) ∨ ∃ f, v = .float f

variable (registry : SchemaRegistry)

/-- The JSON Schema of a field type that the shape check takes, every reference of which can be expanded. -/
inductive Generates : Value → Value → Prop
  | bool {ft : List (Value × Value)} (type : field ft "type" = .str "bool") :
      Generates (.dict ft) (.dict [(.str "type",.str "boolean")])
  | string {ft : List (Value × Value)} (type : field ft "type" = .str "string") :
      Generates (.dict ft) (.dict [(.str "type",.str "string")])
  | number {ft : List (Value × Value)} (type : field ft "type" = .str "number") (minimum : IsBound (field ft "minimum"))
      (maximum : IsBound (field ft "maximum"))
      (ordered : field ft "minimum" ≠ .none → field ft "maximum" ≠ .none →
        (field ft "minimum").exceeds (field ft "maximum") = false) : Generates (.dict ft) (numberSchema ft)
  | enum {ft : List (Value × Value)} {values : List Value} (type : field ft "type" = .str "enum")
      (listed : field ft "values" = .list values) : Generates (.dict ft) (.dict [(.str "enum",.list values)])
  | list {ft : List (Value × Value)} {items : Value} (type : field ft "type" = .str "list")
      (of : Generates (field ft "of") items) :
      Generates (.dict ft) (.dict [(.str "type",.str "array"),(.str "items",items)])
  | members {ft fs : List (Value × Value)} {schemas : Value → Value} (fields : ObjectFields registry ft fs)
      (distinct : (fs.map Prod.fst).Nodup) (each : ∀ p ∈ fs, Generates p.2 (schemas p.2)) :
      Generates (.dict ft) (objectSchema fs (fs.map fun p => (p.1,schemas p.2)))

/-- A field type that some JSON value conforms to: no list of values without a JSON value is required. -/
inductive Satisfiable : Value → Prop
  | bool {ft : List (Value × Value)} (type : field ft "type" = .str "bool") : Satisfiable (.dict ft)
  | string {ft : List (Value × Value)} (type : field ft "type" = .str "string") : Satisfiable (.dict ft)
  | number {ft : List (Value × Value)} (type : field ft "type" = .str "number") : Satisfiable (.dict ft)
  | enum {ft : List (Value × Value)} {values : List Value} {v : Value} (type : field ft "type" = .str "enum")
      (listed : field ft "values" = .list values) (json : v.isJson = true) (mem : values.any (Value.pyEq v) = true) :
      Satisfiable (.dict ft)
  | list {ft : List (Value × Value)} (type : field ft "type" = .str "list") : Satisfiable (.dict ft)
  | members {ft fs : List (Value × Value)} (fields : ObjectFields registry ft fs)
      (name : ∀ p ∈ fs, isRequired p.2 = true → Value.isText p.1 = true)
      (required : ∀ p ∈ fs, isRequired p.2 = true → Satisfiable p.2) : Satisfiable (.dict ft)

/-- In the expansion of the field type, beside required members that are satisfiable, there is a list of values that
a JSON value is in by `==` and not as JSON, or a bound that is not a number. -/
inductive Confused : Value → Prop
  | enum {ft : List (Value × Value)} {values : List Value} {v : Value} (type : field ft "type" = .str "enum")
      (listed : field ft "values" = .list values) (json : v.isJson = true) (mem : values.any (Value.pyEq v) = true)
      (notMem : values.any (Value.jsonEq v) = false) : Confused (.dict ft)
  | bound {ft : List (Value × Value)} {key : String} (type : field ft "type" = .str "number")
      (isKey : key = "minimum" ∨ key = "maximum") (given : field ft key ≠ .none) (nan : (field ft key).number? = none) :
      Confused (.dict ft)
  | list {ft : List (Value × Value)} (type : field ft "type" = .str "list") (of : Confused (field ft "of")) :
      Confused (.dict ft)
  | member {ft fs : List (Value × Value)} {p : Value × Value} (fields : ObjectFields registry ft fs) (mem : p ∈ fs)
      (name : Value.isText p.1 = true) (sub : Confused p.2)
      (others : ∀ q ∈ fs, q ≠ p → isRequired q.2 = true → Value.isText q.1 = true ∧ Satisfiable registry q.2) :
      Confused (.dict ft)

variable {registry}

theorem ObjectFields.unique {ft fs fs' : List (Value × Value)} (h : ObjectFields registry ft fs)
    (h' : ObjectFields registry ft fs') : fs = fs' := by
  have heq := (fieldsOf_object h).symm.trans (fieldsOf_object h')
  exact Option.some.inj (Except.ok.inj heq)

theorem ObjectFields.type_mem {ft fs : List (Value × Value)} (h : ObjectFields registry ft fs) :
    field ft "type" = .str "object" ∨ field ft "type" = .str "ref" := by
  cases h with
  | object type => exact .inl type
  | ref type => exact .inr type

theorem ObjectFields.type_ne {ft fs : List (Value × Value)} (h : ObjectFields registry ft fs) {t : String}
    (htype : field ft "type" = .str t) : t = "object" ∨ t = "ref" := by
  rcases h.type_mem with h | h
  · exact .inl (Value.str.inj (htype.symm.trans h))
  · exact .inr (Value.str.inj (htype.symm.trans h))

/-! ## What satisfies the expansion -/

theorem satisfies_type_iff {name : String} {value : Value} :
    Satisfies (.dict [(.str "type",.str name)]) value ↔ typeIs (.str name) value = true := by
  rw [Satisfies.eq_def]
  simp [Value.get?_cons_str,Value.get?_nil]

theorem satisfies_enum_iff {values : List Value} {value : Value} :
    Satisfies (.dict [(.str "enum",.list values)]) value ↔ values.any (Value.jsonEq value) = true := by
  rw [Satisfies.eq_def]
  simp [Value.get?_cons_str,Value.get?_nil]

theorem satisfies_list_iff {items value : Value} :
    Satisfies (.dict [(.str "type",.str "array"),(.str "items",items)]) value ↔
      ∃ xs, value = .list xs ∧ ∀ x ∈ xs, Satisfies items x := by
  rw [Satisfies.eq_def]
  simp only [Value.get?_cons_str,Value.get?_nil]
  cases value <;> simp [typeIs]

theorem satisfies_number_iff {ft : List (Value × Value)} {value : Value} : Satisfies (numberSchema ft) value ↔
    typeIs (.str "number") value = true ∧
      (field ft "minimum" ≠ .none → Within (· ≤ ·) (field ft "minimum") value) ∧
      (field ft "maximum" ≠ .none → Within (· ≥ ·) (field ft "maximum") value) := by
  rw [numberSchema,Satisfies.eq_def,boundItems,boundItems]
  by_cases hmin : field ft "minimum" = .none
  · by_cases hmax : field ft "maximum" = .none
    · simp [hmin,hmax,Value.get?_cons_str,Value.get?_nil]
    · simp [hmin,hmax,Value.get?_cons_str,Value.get?_nil]
  · by_cases hmax : field ft "maximum" = .none
    · simp [hmin,hmax,Value.get?_cons_str,Value.get?_nil]
    · simp [hmin,hmax,Value.get?_cons_str,Value.get?_nil]

theorem satisfies_object_iff {fs properties : List (Value × Value)} {value : Value} :
    Satisfies (objectSchema fs properties) value ↔ ∃ members, value = .dict members ∧ HasAll (requiredNames fs) members ∧
      ∀ p ∈ properties, ∀ s, p.1 = .str s → ∀ x, Value.get? members s = some x → Satisfies p.2 x := by
  rw [objectSchema,Satisfies.eq_def]
  cases value with
  | dict members =>
    by_cases hrequired : requiredNames fs = []
    · simp [hrequired,Value.get?_cons_str,Value.get?_nil,typeIs,HasAll,Value.member?_str]
    · simp [hrequired,Value.get?_cons_str,Value.get?_nil,typeIs,Value.member?_str]
  | _ => simp [Value.get?_cons_str,Value.get?_nil,typeIs]

/-! ## The expansion is what is generated -/

/-- From some bound on the expansion ends with the schema. -/
def Converts (registry : SchemaRegistry) (ft schema : Value) : Prop :=
  ∃ n, ∀ m, n ≤ m → fieldTypeToJsonSchema registry m ft = .ok schema

theorem fieldsToJsonSchema_eq {convert : Value → Conversion Value} {schemas : Value → Value} {fs : List (Value × Value)}
    (h : ∀ p ∈ fs, convert p.2 = .ok (schemas p.2)) :
    fieldsToJsonSchema convert fs = .ok (objectSchema fs (fs.map fun p => (p.1,schemas p.2))) := by
  have hmap : fs.mapM (fun p => (convert p.2).map fun js => (p.1,js)) = .ok (fs.map fun p => (p.1,schemas p.2)) := by
    induction fs with
    | nil => rfl
    | cons p rest ih =>
      rw [List.mapM_cons,h p List.mem_cons_self,ih fun q hq => h q (List.mem_cons_of_mem _ hq)]
      rfl
  unfold fieldsToJsonSchema
  rw [hmap]
  rfl

/-- One bound for all fields. -/
theorem converts_fields {schemas : Value → Value} {fs : List (Value × Value)}
    (h : ∀ p ∈ fs, Converts registry p.2 (schemas p.2)) :
    ∃ n, ∀ m, n ≤ m → ∀ p ∈ fs, fieldTypeToJsonSchema registry m p.2 = .ok (schemas p.2) := by
  induction fs with
  | nil => exact ⟨0,fun _ _ _ hp => absurd hp List.not_mem_nil⟩
  | cons p rest ih =>
    obtain ⟨n,hn⟩ := h p List.mem_cons_self
    obtain ⟨n',hn'⟩ := ih fun q hq => h q (List.mem_cons_of_mem _ hq)
    refine ⟨max n n',fun m hm q hq => ?_⟩
    rcases List.mem_cons.mp hq with rfl | hq
    · exact hn m (Nat.le_trans (Nat.le_max_left _ _) hm)
    · exact hn' m (Nat.le_trans (Nat.le_max_right _ _) hm) q hq

theorem Converts.shift {ft schema : Value}
    (h : ∃ n, ∀ m, n ≤ m → fieldTypeToJsonSchema registry (m + 1) ft = .ok schema) : Converts registry ft schema := by
  obtain ⟨n,hn⟩ := h
  refine ⟨n + 1,fun m hm => ?_⟩
  obtain ⟨k,rfl⟩ := Nat.exists_eq_succ_of_ne_zero (Nat.pos_iff_ne_zero.mp (Nat.lt_of_lt_of_le (Nat.succ_pos n) hm))
  exact hn k (Nat.succ_le_succ_iff.mp hm)

theorem fieldTypeToJsonSchema_object {ft fs : List (Value × Value)} (h : ObjectFields registry ft fs) (m : ℕ) :
    fieldTypeToJsonSchema registry (m + 1) (.dict ft) = fieldsToJsonSchema (fieldTypeToJsonSchema registry m) fs := by
  cases h with
  | object type fields => simp only [fieldTypeToJsonSchema,type,fields]
  | ref type target known fields =>
    simp only [fieldTypeToJsonSchema,type,target,hashable,if_true,registered,known,fields]

theorem Generates.converts {ft schema : Value} (h : Generates registry ft schema) : Converts registry ft schema := by
  induction h with
  | bool type => exact .shift ⟨0,fun _ _ => by simp only [fieldTypeToJsonSchema,type]⟩
  | string type => exact .shift ⟨0,fun _ _ => by simp only [fieldTypeToJsonSchema,type]⟩
  | number type => exact .shift ⟨0,fun _ _ => by simp only [fieldTypeToJsonSchema,type,numberSchema]⟩
  | enum type listed => exact .shift ⟨0,fun _ _ => by simp only [fieldTypeToJsonSchema,type,listed]⟩
  | list type _ ih =>
    obtain ⟨n,hn⟩ := ih
    refine .shift ⟨n,fun m hm => ?_⟩
    simp only [fieldTypeToJsonSchema,type,hn m hm]
    rfl
  | members fields _ _ ih =>
    obtain ⟨n,hn⟩ := converts_fields ih
    exact .shift ⟨n,fun m hm => (fieldTypeToJsonSchema_object fields m).trans (fieldsToJsonSchema_eq (hn m hm))⟩

/-- A field type that is a mapping. -/
theorem Generates.dict {ft schema : Value} (h : Generates registry ft schema) : ∃ fields, ft = .dict fields := by
  cases h <;> exact ⟨_,rfl⟩

theorem mayMiss_iff {ft : Value} (h : ∃ fields, ft = .dict fields) : MayMiss ft ↔ isRequired ft = false := by
  obtain ⟨fields,rfl⟩ := h
  constructor
  · rintro ⟨sub,heq,hnot⟩
    cases heq
    exact hnot
  · exact fun hnot => ⟨fields,rfl,hnot⟩

theorem mem_requiredNames {fs : List (Value × Value)} {name : Value} :
    name ∈ requiredNames fs ↔ ∃ p ∈ fs, isRequired p.2 = true ∧ p.1 = name := by
  simp [requiredNames,and_assoc]

/-! ## What satisfies conforms -/

theorem exceeds_eq_false_iff {a b : Value} {x y : Extended} (ha : a.numeric? = some x) (hb : b.numeric? = some y) :
    a.exceeds b = false ↔ x ≤ y := by
  rw [Value.exceeds,ha,hb]
  simp

theorem exceeds_of_none {a b : Value} (h : a.numeric? = none ∨ b.numeric? = none) : a.exceeds b = false := by
  rw [Value.exceeds]
  rcases h with h | h
  · rw [h]
  · rw [h]
    cases a.numeric? <;> rfl

theorem IsBound.numeric?_eq {v : Value} (h : IsBound v) : v.numeric? = v.number? := by
  rcases h with rfl | ⟨i,rfl⟩ | ⟨f,rfl⟩
  · rfl
  · rfl
  · rfl

theorem typeIs_number {v : Value} (h : typeIs (.str "number") v = true) : IsBound v ∧ v ≠ .none := by
  cases v with
  | int i => exact ⟨.inr (.inl ⟨i,rfl⟩),nofun⟩
  | float f => exact ⟨.inr (.inr ⟨f,rfl⟩),nofun⟩
  | _ => cases h

theorem conforms_number {ft : List (Value × Value)} {v : Value} (type : field ft "type" = .str "number")
    (h : typeIs (.str "number") v = true) (hmin : field ft "minimum" ≠ .none → (field ft "minimum").exceeds v = false)
    (hmax : field ft "maximum" ≠ .none → v.exceeds (field ft "maximum") = false) : Conforms registry v (.dict ft) := by
  cases v with
  | int i => exact .int type (validateNumberBounds_nil_iff.mpr ⟨hmin,hmax⟩)
  | float f => exact .float type (validateNumberBounds_nil_iff.mpr ⟨hmin,hmax⟩)
  | _ => cases h

/-- JSON values that satisfy the generated schema conform. -/
theorem Generates.conforms_of_satisfies {ft schema value : Value} (h : Generates registry ft schema)
    (hjson : value.isJson = true) (hsatisfies : Satisfies schema value) : Conforms registry value ft := by
  induction h generalizing value with
  | bool type =>
    rw [satisfies_type_iff] at hsatisfies
    cases value with
    | bool b => exact .bool type
    | _ => cases hsatisfies
  | string type =>
    rw [satisfies_type_iff] at hsatisfies
    cases value with
    | str s => exact .string type
    | _ => cases hsatisfies
  | number type hminimum hmaximum =>
    obtain ⟨hnumber,hmin,hmax⟩ := satisfies_number_iff.mp hsatisfies
    have hvalue := (typeIs_number hnumber).1.numeric?_eq
    apply conforms_number type hnumber
    · intro hne
      cases hx : value.number? with
      | none => exact exceeds_of_none (.inr (hvalue.trans hx))
      | some x =>
        obtain ⟨y,hy,hle⟩ := hmin hne x hx
        exact (exceeds_eq_false_iff (hminimum.numeric?_eq.trans hy) (hvalue.trans hx)).mpr hle
    · intro hne
      cases hx : value.number? with
      | none => exact exceeds_of_none (.inl (hvalue.trans hx))
      | some x =>
        obtain ⟨y,hy,hle⟩ := hmax hne x hx
        exact (exceeds_eq_false_iff (hvalue.trans hx) (hmaximum.numeric?_eq.trans hy)).mpr hle
  | enum type listed =>
    obtain ⟨e,he,heq⟩ := List.any_eq_true.mp (satisfies_enum_iff.mp hsatisfies)
    exact .enum type listed (List.any_eq_true.mpr ⟨e,he,Value.pyEq_of_jsonEq hjson heq⟩)
  | list type _ ih =>
    obtain ⟨xs,rfl,hall⟩ := satisfies_list_iff.mp hsatisfies
    exact .list type fun x hx => ih (Value.isJsonItems_iff.mp hjson x hx) (hall x hx)
  | members fields _ each ih =>
    obtain ⟨members,rfl,hrequired,hall⟩ := satisfies_object_iff.mp hsatisfies
    apply Conforms.members fields
    · intro p hp x hx
      obtain ⟨s,hs,hget⟩ := Value.member?_of_isJson hjson hx
      exact ih p hp (Value.isJson_get? hjson hget) (hall _ (List.mem_map_of_mem hp) s hs x hget)
    · intro p hp hnone
      rw [mayMiss_iff (each p hp).dict]
      by_contra hnot
      rw [Bool.not_eq_false] at hnot
      obtain ⟨s,hs,hsome⟩ := hrequired p.1 (mem_requiredNames.mpr ⟨p,hp,hnot,rfl⟩)
      rw [hs,Value.member?_str] at hnone
      rw [hnone] at hsome
      cases hsome

/-! ## What conforms satisfies -/

theorem Conforms.satisfiable {ft value : Value} (h : Conforms registry value ft) (hjson : value.isJson = true) :
    Satisfiable registry ft := by
  induction h with
  | bool type => exact .bool type
  | string type => exact .string type
  | int type => exact .number type
  | float type => exact .number type
  | enum type listed mem => exact .enum type listed hjson mem
  | list type => exact .list type
  | @members ft fs members fields _ absent ih =>
    have hmember : ∀ p ∈ fs, isRequired p.2 = true → ∃ x, Value.member? members p.1 = some x := by
      intro p hp hrequired
      cases hget : Value.member? members p.1 with
      | some x => exact ⟨x,rfl⟩
      | none =>
        obtain ⟨sub,hsub,hnot⟩ := absent p hp hget
        rw [hsub,isRequired,hnot] at hrequired
        cases hrequired
    apply Satisfiable.members fields
    · intro p hp hrequired
      obtain ⟨x,hx⟩ := hmember p hp hrequired
      obtain ⟨s,hs,-⟩ := Value.member?_of_isJson hjson hx
      exact Value.isText_iff.mpr ⟨s,hs⟩
    · intro p hp hrequired
      obtain ⟨x,hx⟩ := hmember p hp hrequired
      obtain ⟨s,-,hget⟩ := Value.member?_of_isJson hjson hx
      exact ih p hp x hx (Value.isJson_get? hjson hget)

theorem within_of_exceeds {bound value : Value} {le : Extended → Extended → Prop} (hnan : bound.number? ≠ none)
    (h : ∀ x y, value.number? = some x → bound.number? = some y → le y x) : Within le bound value := by
  intro x hx
  obtain ⟨y,hy⟩ := Option.ne_none_iff_exists'.mp hnan
  exact ⟨y,hy,h x y hx hy⟩

/-- What a value that conforms is, by the type. -/
def ConformsAs (registry : SchemaRegistry) (value : Value) (ft : List (Value × Value)) : String → Prop
  | "bool" => ∃ b, value = .bool b
  | "string" => ∃ s, value = .str s
  | "number" => typeIs (.str "number") value = true ∧
      (field ft "minimum" ≠ .none → (field ft "minimum").exceeds value = false) ∧
      (field ft "maximum" ≠ .none → value.exceeds (field ft "maximum") = false)
  | "enum" => ∃ values, field ft "values" = .list values ∧ values.any (Value.pyEq value) = true
  | "list" => ∃ items, value = .list items ∧ ∀ x ∈ items, Conforms registry x (field ft "of")
  | "object" | "ref" => ∃ fs members, ObjectFields registry ft fs ∧ value = .dict members ∧
      (∀ p ∈ fs, ∀ x, Value.member? members p.1 = some x → Conforms registry x p.2) ∧
      ∀ p ∈ fs, Value.member? members p.1 = none → MayMiss p.2
  | _ => False

theorem Conforms.as {ft : List (Value × Value)} {value : Value} {t : String} (h : Conforms registry value (.dict ft))
    (type : field ft "type" = .str t) : ConformsAs registry value ft t := by
  cases h with
  | bool type' =>
    obtain rfl := Value.str.inj (type'.symm.trans type)
    exact ⟨_,rfl⟩
  | string type' =>
    obtain rfl := Value.str.inj (type'.symm.trans type)
    exact ⟨_,rfl⟩
  | int type' bounds =>
    obtain rfl := Value.str.inj (type'.symm.trans type)
    exact ⟨rfl,validateNumberBounds_nil_iff.mp bounds⟩
  | float type' bounds =>
    obtain rfl := Value.str.inj (type'.symm.trans type)
    exact ⟨rfl,validateNumberBounds_nil_iff.mp bounds⟩
  | enum type' listed mem =>
    obtain rfl := Value.str.inj (type'.symm.trans type)
    exact ⟨_,listed,mem⟩
  | list type' each =>
    obtain rfl := Value.str.inj (type'.symm.trans type)
    exact ⟨_,rfl,each⟩
  | members fields present absent =>
    rcases fields.type_ne type with rfl | rfl
    · exact ⟨_,_,fields,rfl,present,absent⟩
    · exact ⟨_,_,fields,rfl,present,absent⟩

theorem Conforms.objectMembers {ft fs : List (Value × Value)} {value : Value} (h : Conforms registry value (.dict ft))
    (fields : ObjectFields registry ft fs) : ∃ members, value = .dict members ∧
      (∀ p ∈ fs, ∀ x, Value.member? members p.1 = some x → Conforms registry x p.2) ∧
        ∀ p ∈ fs, Value.member? members p.1 = none → MayMiss p.2 := by
  have hmembers : ConformsAs registry value ft "object" := by
    rcases fields.type_mem with type | type
    · exact h.as type
    · exact (h.as type : ConformsAs registry value ft "ref")
  obtain ⟨fs',members,fields',hvalue,present,absent⟩ := hmembers
  cases fields.unique fields'
  exact ⟨members,hvalue,present,absent⟩

theorem Satisfiable.objectMembers {ft fs : List (Value × Value)} (h : Satisfiable registry (.dict ft))
    (fields : ObjectFields registry ft fs) (p : Value × Value) (hp : p ∈ fs) (hrequired : isRequired p.2 = true) :
    Value.isText p.1 = true ∧ Satisfiable registry p.2 := by
  cases h with
  | members fields' name required =>
    cases fields.unique fields'
    exact ⟨name p hp hrequired,required p hp hrequired⟩
  | bool type => rcases fields.type_ne type with h | h <;> exact absurd h (by decide)
  | string type => rcases fields.type_ne type with h | h <;> exact absurd h (by decide)
  | number type => rcases fields.type_ne type with h | h <;> exact absurd h (by decide)
  | enum type => rcases fields.type_ne type with h | h <;> exact absurd h (by decide)
  | list type => rcases fields.type_ne type with h | h <;> exact absurd h (by decide)

theorem Generates.satisfies_of_conforms {ft schema value : Value} (h : Generates registry ft schema)
    (hclear : ¬Confused registry ft) (hjson : value.isJson = true) (hconforms : Conforms registry value ft) :
    Satisfies schema value := by
  induction h generalizing value with
  | bool type =>
    obtain ⟨b,rfl⟩ := hconforms.as type
    exact satisfies_type_iff.mpr rfl
  | string type =>
    obtain ⟨s,rfl⟩ := hconforms.as type
    exact satisfies_type_iff.mpr rfl
  | number type hminimum hmaximum =>
    obtain ⟨hnumber,hmin,hmax⟩ := hconforms.as type
    have hvalue := (typeIs_number hnumber).1.numeric?_eq
    apply satisfies_number_iff.mpr
    refine ⟨hnumber,fun hne => ?_,fun hne => ?_⟩
    · refine within_of_exceeds (fun hnan => hclear (.bound type (.inl rfl) hne hnan)) fun x y hx hy => ?_
      exact (exceeds_eq_false_iff (hminimum.numeric?_eq.trans hy) (hvalue.trans hx)).mp (hmin hne)
    · refine within_of_exceeds (fun hnan => hclear (.bound type (.inr rfl) hne hnan)) fun x y hx hy => ?_
      exact (exceeds_eq_false_iff (hvalue.trans hx) (hmaximum.numeric?_eq.trans hy)).mp (hmax hne)
  | enum type listed =>
    obtain ⟨values,listed',mem⟩ := hconforms.as type
    cases listed.symm.trans listed'
    apply satisfies_enum_iff.mpr
    by_contra hnot
    exact hclear (.enum type listed hjson mem (Bool.eq_false_iff.mpr hnot))
  | list type _ ih =>
    obtain ⟨items,rfl,each⟩ := hconforms.as type
    refine satisfies_list_iff.mpr ⟨items,rfl,fun x hx => ?_⟩
    exact ih (fun hconfused => hclear (.list type hconfused)) (Value.isJsonItems_iff.mp hjson x hx) (each x hx)
  | @members ft fs schemas fields _ each ih =>
    have hrequired := (hconforms.satisfiable hjson).objectMembers fields
    obtain ⟨members,rfl,present,absent⟩ := hconforms.objectMembers fields
    refine satisfies_object_iff.mpr ⟨members,rfl,?_,?_⟩
    · intro name hname
      obtain ⟨p,hp,hp',rfl⟩ := mem_requiredNames.mp hname
      obtain ⟨s,hs⟩ := Value.isText_iff.mp (hrequired p hp hp').1
      refine ⟨s,hs,?_⟩
      cases hget : Value.get? members s with
      | some x => rfl
      | none =>
        have hnone := absent p hp (by rw [hs,Value.member?_str]; exact hget)
        rw [mayMiss_iff (each p hp).dict,hp'] at hnone
        cases hnone
    · intro q hq s hs x hget
      obtain ⟨p,hp,rfl⟩ := List.mem_map.mp hq
      have hmember : Value.member? members p.1 = some x := by
        rw [hs,Value.member?_str]
        exact hget
      refine ih p hp (fun hconfused => hclear ?_) (Value.isJson_get? hjson hget) (present p hp x hmember)
      exact .member fields hp (Value.isText_iff.mpr ⟨s,hs⟩) hconfused fun q hq _ hq' => hrequired q hq hq'

/-! ## Values that conform and do not satisfy -/

section Choice
variable {fs : List (Value × Value)} (choice : Value × Value → Option Value)

/-- The object with the chosen members. -/
def chosen (fs : List (Value × Value)) : List (Value × Value) := fs.filterMap fun p => (choice p).map fun x => (p.1,x)

variable {choice}

theorem mem_chosen {q : Value × Value} : q ∈ chosen choice fs ↔ ∃ p ∈ fs, choice p = some q.2 ∧ p.1 = q.1 := by
  obtain ⟨name,x⟩ := q
  simp only [chosen,List.mem_filterMap,Option.map_eq_some_iff,Prod.mk.injEq]
  constructor
  · rintro ⟨p,hp,y,hy,hname,rfl⟩
    exact ⟨p,hp,hy,hname⟩
  · rintro ⟨p,hp,hy,hname⟩
    exact ⟨p,hp,x,hy,hname,rfl⟩

theorem nodup_chosen (hdistinct : (fs.map Prod.fst).Nodup) : ((chosen choice fs).map Prod.fst).Nodup := by
  have hsub : List.Sublist ((chosen choice fs).map Prod.fst) (fs.map Prod.fst) := by
    clear hdistinct
    induction fs with
    | nil => exact List.Sublist.slnil
    | cons p rest ih =>
      rw [chosen,List.filterMap_cons]
      cases choice p with
      | none => exact ih.cons _
      | some x => exact ih.cons_cons _
  exact List.Nodup.sublist hsub hdistinct

theorem isJson_chosen (hdistinct : (fs.map Prod.fst).Nodup)
    (h : ∀ p ∈ fs, ∀ x, choice p = some x → Value.isText p.1 = true ∧ x.isJson = true) :
    (Value.dict (chosen choice fs)).isJson = true := by
  refine Value.isJson_dict_iff.mpr ⟨nodup_chosen hdistinct,fun q hq => ?_⟩
  obtain ⟨p,hp,hx,hname⟩ := mem_chosen.mp hq
  rw [← hname]
  exact h p hp q.2 hx

/-- A member is found under its name, and only if it was chosen. -/
theorem member?_chosen (hdistinct : (fs.map Prod.fst).Nodup)
    (h : ∀ p ∈ fs, ∀ x, choice p = some x → Value.isText p.1 = true ∧ x.isJson = true) {p : Value × Value} (hp : p ∈ fs) :
    Value.member? (chosen choice fs) p.1 = choice p := by
  have hjson := isJson_chosen hdistinct h
  have hfound : ∀ x, Value.member? (chosen choice fs) p.1 = some x → choice p = some x := by
    intro x hx
    obtain ⟨s,hs,hget⟩ := Value.member?_of_isJson hjson hx
    obtain ⟨front,rest,heq,-⟩ := List.lookup_eq_some_iff.mp hget
    obtain ⟨q,hq,hqx,hname⟩ := mem_chosen.mp (show (Value.str s,x) ∈ chosen choice fs by rw [heq]; simp)
    have hpq : q = p := List.inj_on_of_nodup_map hdistinct hq hp (hname.trans hs.symm)
    rw [← hpq]
    exact hqx
  cases hcase : choice p with
  | none =>
    cases hget : Value.member? (chosen choice fs) p.1 with
    | none => rfl
    | some x => cases hcase.symm.trans (hfound x hget)
  | some x =>
    obtain ⟨s,hs⟩ := Value.isText_iff.mp (h p hp x hcase).1
    cases hget : Value.member? (chosen choice fs) p.1 with
    | some y => rw [← hfound y hget,hcase]
    | none =>
      rw [hs,Value.member?_str] at hget
      have hmem : (Value.str s,x) ∈ chosen choice fs := mem_chosen.mpr ⟨p,hp,hcase,hs⟩
      exact absurd hmem fun hmem => by
        have hnone := List.lookup_eq_none_iff.mp hget _ hmem
        simp at hnone

theorem conforms_chosen {ft : List (Value × Value)} (fields : ObjectFields registry ft fs)
    (hdistinct : (fs.map Prod.fst).Nodup)
    (hsome : ∀ p ∈ fs, ∀ x, choice p = some x → Value.isText p.1 = true ∧ x.isJson = true ∧ Conforms registry x p.2)
    (hnone : ∀ p ∈ fs, choice p = none → MayMiss p.2) :
    (Value.dict (chosen choice fs)).isJson = true ∧ Conforms registry (.dict (chosen choice fs)) (.dict ft) := by
  have hjson : ∀ p ∈ fs, ∀ x, choice p = some x → Value.isText p.1 = true ∧ x.isJson = true :=
    fun p hp x hx => ⟨(hsome p hp x hx).1,(hsome p hp x hx).2.1⟩
  refine ⟨isJson_chosen hdistinct hjson,.members fields ?_ ?_⟩
  · intro p hp x hx
    rw [member?_chosen hdistinct hjson hp] at hx
    exact (hsome p hp x hx).2.2
  · intro p hp hx
    rw [member?_chosen hdistinct hjson hp] at hx
    exact hnone p hp hx

end Choice

/-- Between bounds that the shape check takes there is a number. -/
theorem exists_number {ft : List (Value × Value)} (type : field ft "type" = .str "number")
    (minimum : IsBound (field ft "minimum")) (maximum : IsBound (field ft "maximum"))
    (ordered : field ft "minimum" ≠ .none → field ft "maximum" ≠ .none →
      (field ft "minimum").exceeds (field ft "maximum") = false) : ∃ v, v.isJson = true ∧ Conforms registry v (.dict ft) := by
  have hself : ∀ v : Value, v.exceeds v = false := by
    intro v
    rw [Value.exceeds]
    cases v.numeric? <;> simp
  have hbound : ∀ v, IsBound v → v ≠ .none → v.number? ≠ none → v.isJson = true ∧ typeIs (.str "number") v = true := by
    intro v hv hne hnumber
    rcases hv with rfl | ⟨i,rfl⟩ | ⟨f,rfl⟩
    · exact absurd rfl hne
    · exact ⟨rfl,rfl⟩
    · exact ⟨Option.isSome_iff_ne_none.mpr hnumber,rfl⟩
  by_cases hmax : field ft "maximum" ≠ .none ∧ (field ft "maximum").number? ≠ none
  · obtain ⟨hjson,hnumber⟩ := hbound _ maximum hmax.1 hmax.2
    exact ⟨_,hjson,conforms_number type hnumber (fun hne => ordered hne hmax.1) fun _ => hself _⟩
  · have hnan : field ft "maximum" ≠ .none → (field ft "maximum").numeric? = none := by
      intro hne
      rw [maximum.numeric?_eq]
      by_contra hnumber
      exact hmax ⟨hne,hnumber⟩
    by_cases hmin : field ft "minimum" ≠ .none ∧ (field ft "minimum").number? ≠ none
    · obtain ⟨hjson,hnumber⟩ := hbound _ minimum hmin.1 hmin.2
      exact ⟨_,hjson,conforms_number type hnumber (fun _ => hself _) fun hne => exceeds_of_none (.inr (hnan hne))⟩
    · have hnan' : field ft "minimum" ≠ .none → (field ft "minimum").numeric? = none := by
        intro hne
        rw [minimum.numeric?_eq]
        by_contra hnumber
        exact hmin ⟨hne,hnumber⟩
      exact ⟨.int 0,rfl,conforms_number type rfl (fun hne => exceeds_of_none (.inl (hnan' hne)))
        fun hne => exceeds_of_none (.inr (hnan hne))⟩

theorem Generates.exists_conforming {ft schema : Value} (h : Generates registry ft schema)
    (hsatisfiable : Satisfiable registry ft) : ∃ v, v.isJson = true ∧ Conforms registry v ft := by
  induction h with
  | bool type => exact ⟨.bool true,rfl,.bool type⟩
  | string type => exact ⟨.str "",rfl,.string type⟩
  | number type minimum maximum ordered => exact exists_number type minimum maximum ordered
  | enum type listed =>
    cases hsatisfiable with
    | enum _ listed' json mem => exact ⟨_,json,.enum type listed' mem⟩
    | bool type' => exact absurd (Value.str.inj (type.symm.trans type')) (by decide)
    | string type' => exact absurd (Value.str.inj (type.symm.trans type')) (by decide)
    | number type' => exact absurd (Value.str.inj (type.symm.trans type')) (by decide)
    | list type' => exact absurd (Value.str.inj (type.symm.trans type')) (by decide)
    | members fields => rcases fields.type_ne type with h | h <;> exact absurd h (by decide)
  | list type => exact ⟨.list [],rfl,.list type fun x hx => absurd hx List.not_mem_nil⟩
  | @members ft fs schemas fields distinct each ih =>
    have hrequired := hsatisfiable.objectMembers fields
    let witness (ft : Value) : Value := Classical.epsilon fun v => v.isJson = true ∧ Conforms registry v ft
    have hwitness : ∀ p ∈ fs, isRequired p.2 = true → (witness p.2).isJson = true ∧ Conforms registry (witness p.2) p.2 :=
      fun p hp hp' => Classical.epsilon_spec (ih p hp (hrequired p hp hp').2)
    refine ⟨_,@conforms_chosen _ _ (fun p => if isRequired p.2 then some (witness p.2) else none) _ fields distinct ?_ ?_⟩
    · intro p hp x hx
      obtain ⟨hp',heq⟩ := Option.ite_none_right_eq_some.mp hx
      obtain rfl := Option.some.inj heq
      exact ⟨(hrequired p hp hp').1,hwitness p hp hp'⟩
    · intro p hp hx
      rw [mayMiss_iff (each p hp).dict]
      by_contra hnot
      rw [Bool.not_eq_false] at hnot
      simp [hnot] at hx

/-- Where a field type is confused, by the type. -/
def ConfusedAs (registry : SchemaRegistry) (ft : List (Value × Value)) : String → Prop
  | "enum" => ∃ values v, field ft "values" = .list values ∧ v.isJson = true ∧ values.any (Value.pyEq v) = true ∧
      values.any (Value.jsonEq v) = false
  | "number" => ∃ key, (key = "minimum" ∨ key = "maximum") ∧ field ft key ≠ .none ∧ (field ft key).number? = none
  | "list" => Confused registry (field ft "of")
  | "object" | "ref" => ∃ fs p, ObjectFields registry ft fs ∧ p ∈ fs ∧ Value.isText p.1 = true ∧ Confused registry p.2 ∧
      ∀ q ∈ fs, q ≠ p → isRequired q.2 = true → Value.isText q.1 = true ∧ Satisfiable registry q.2
  | _ => False

theorem Confused.as {ft : List (Value × Value)} {t : String} (h : Confused registry (.dict ft))
    (type : field ft "type" = .str t) : ConfusedAs registry ft t := by
  cases h with
  | enum type' listed json mem notMem =>
    obtain rfl := Value.str.inj (type'.symm.trans type)
    exact ⟨_,_,listed,json,mem,notMem⟩
  | bound type' isKey given nan =>
    obtain rfl := Value.str.inj (type'.symm.trans type)
    exact ⟨_,isKey,given,nan⟩
  | list type' of =>
    obtain rfl := Value.str.inj (type'.symm.trans type)
    exact of
  | member fields mem name sub others =>
    rcases fields.type_ne type with rfl | rfl
    · exact ⟨_,_,fields,mem,name,sub,others⟩
    · exact ⟨_,_,fields,mem,name,sub,others⟩

theorem Confused.objectMember {ft fs : List (Value × Value)} (h : Confused registry (.dict ft))
    (fields : ObjectFields registry ft fs) : ∃ p, p ∈ fs ∧ Value.isText p.1 = true ∧ Confused registry p.2 ∧
      ∀ q ∈ fs, q ≠ p → isRequired q.2 = true → Value.isText q.1 = true ∧ Satisfiable registry q.2 := by
  have hmember : ConfusedAs registry ft "object" := by
    rcases fields.type_mem with type | type
    · exact h.as type
    · exact (h.as type : ConfusedAs registry ft "ref")
  obtain ⟨fs',p,fields',hp⟩ := hmember
  cases fields.unique fields'
  exact ⟨p,hp⟩

theorem Generates.exists_differing {ft schema : Value} (h : Generates registry ft schema) (hconfused : Confused registry ft) :
    ∃ v, v.isJson = true ∧ Conforms registry v ft ∧ ¬Satisfies schema v := by
  induction h with
  | bool type => exact (hconfused.as type).elim
  | string type => exact (hconfused.as type).elim
  | number type minimum maximum ordered =>
    obtain ⟨v,hjson,hconforms⟩ := @exists_number registry _ type minimum maximum ordered
    refine ⟨v,hjson,hconforms,fun hsatisfies => ?_⟩
    obtain ⟨hnumber,hmin,hmax⟩ := satisfies_number_iff.mp hsatisfies
    obtain ⟨x,hx⟩ : ∃ x, v.number? = some x := by
      cases v with
      | int i => exact ⟨_,rfl⟩
      | float f => exact Option.isSome_iff_exists.mp hjson
      | _ => cases hnumber
    obtain ⟨key,isKey,given,nan⟩ := hconfused.as type
    rcases isKey with rfl | rfl
    · obtain ⟨y,hy,-⟩ := hmin given x hx
      cases nan.symm.trans hy
    · obtain ⟨y,hy,-⟩ := hmax given x hx
      cases nan.symm.trans hy
  | enum type listed =>
    obtain ⟨values,v,listed',json,mem,notMem⟩ := hconfused.as type
    cases listed.symm.trans listed'
    refine ⟨v,json,.enum type listed mem,fun hsatisfies => ?_⟩
    rw [satisfies_enum_iff,notMem] at hsatisfies
    cases hsatisfies
  | list type _ ih =>
    obtain ⟨v,hjson,hconforms,hnot⟩ := ih (hconfused.as type)
    refine ⟨.list [v],Value.isJsonItems_iff.mpr ?_,.list type ?_,?_⟩
    · intro x hx
      rw [List.mem_singleton.mp hx]
      exact hjson
    · intro x hx
      rw [List.mem_singleton.mp hx]
      exact hconforms
    · intro hsatisfies
      obtain ⟨xs,heq,hall⟩ := satisfies_list_iff.mp hsatisfies
      cases heq
      exact hnot (hall v (List.mem_singleton_self v))
  | @members ft fs schemas fields distinct each ih =>
    obtain ⟨p,mem,name,sub,others⟩ := hconfused.objectMember fields
    obtain ⟨v,hjson,hconforms,hnot⟩ := ih p mem sub
    let witness (ft : Value) : Value := Classical.epsilon fun v => v.isJson = true ∧ Conforms registry v ft
    have hwitness : ∀ q ∈ fs, q ≠ p → isRequired q.2 = true →
        (witness q.2).isJson = true ∧ Conforms registry (witness q.2) q.2 :=
      fun q hq hne hq' => Classical.epsilon_spec ((each q hq).exists_conforming (others q hq hne hq').2)
    let choice (q : Value × Value) : Option Value :=
      if q = p then some v else if isRequired q.2 then some (witness q.2) else none
    have hsome : ∀ q ∈ fs, ∀ x, choice q = some x →
        Value.isText q.1 = true ∧ x.isJson = true ∧ Conforms registry x q.2 := by
      intro q hq x hx
      by_cases hqp : q = p
      · obtain rfl := Option.some.inj ((if_pos hqp).symm.trans hx)
        rw [hqp]
        exact ⟨name,hjson,hconforms⟩
      · obtain ⟨hq',heq⟩ := Option.ite_none_right_eq_some.mp ((if_neg hqp).symm.trans hx)
        obtain rfl := Option.some.inj heq
        exact ⟨(others q hq hqp hq').1,hwitness q hq hqp hq'⟩
    have hnone : ∀ q ∈ fs, choice q = none → MayMiss q.2 := by
      intro q hq hx
      rw [mayMiss_iff (each q hq).dict]
      by_cases hqp : q = p
      · cases (if_pos hqp).symm.trans hx
      · by_contra hq'
        rw [Bool.not_eq_false] at hq'
        cases ((if_pos hq').symm.trans ((if_neg hqp).symm.trans hx))
    obtain ⟨hobject,hconforming⟩ := conforms_chosen fields distinct hsome hnone
    refine ⟨_,hobject,hconforming,fun hsatisfies => ?_⟩
    obtain ⟨members,heq,-,hall⟩ := satisfies_object_iff.mp hsatisfies
    cases heq
    obtain ⟨s,hs⟩ := Value.isText_iff.mp name
    have hget := member?_chosen distinct (fun q hq x hx => ⟨(hsome q hq x hx).1,(hsome q hq x hx).2.1⟩) mem
    rw [hs,Value.member?_str] at hget
    exact hnot (hall _ (List.mem_map_of_mem mem) s hs v (hget.trans (if_pos rfl)))

/-- The two agree on a field type exactly if nothing in it is confused. -/
theorem Generates.agree_iff {ft schema : Value} (h : Generates registry ft schema) :
    (∀ v, v.isJson = true → (Conforms registry v ft ↔ Satisfies schema v)) ↔ ¬Confused registry ft := by
  constructor
  · intro hagree hconfused
    obtain ⟨v,hjson,hconforms,hnot⟩ := h.exists_differing hconfused
    exact hnot ((hagree v hjson).mp hconforms)
  · intro hclear v hjson
    exact ⟨h.satisfies_of_conforms hclear hjson,h.conforms_of_satisfies hjson⟩

/-! ## Registries -/

/-- What a field type refers to. -/
inductive RefTarget : Value → Value → Prop
  | ref {ft : List (Value × Value)} {target : Value} (type : field ft "type" = .str "ref")
      (get : Value.get? ft "schema" = some target) : RefTarget (.dict ft) target
  | list {ft : List (Value × Value)} {target : Value} (type : field ft "type" = .str "list")
      (of : RefTarget (field ft "of") target) : RefTarget (.dict ft) target
  | object {ft fs : List (Value × Value)} {target : Value} {p : Value × Value} (type : field ft "type" = .str "object")
      (fields : field ft "fields" = .dict fs) (mem : p ∈ fs) (sub : RefTarget p.2 target) : RefTarget (.dict ft) target

/-- Schemas that the shape check takes, without a cycle, where every reference names a schema. The keys of a mapping
are distinct. -/
structure AcceptedRegistry (schemas : SchemaRegistry) : Prop where
  shaped : ∀ name schema, schemas.get? name = some schema →
    ∃ fs, field schema "fields" = .dict fs ∧ ∀ p ∈ fs, Accepted Value.exceeds p.2
  distinct : ∀ name schema, schemas.get? name = some schema → (Value.dict schema).wf = true
  acyclic : ∀ name, ¬TransGen (Refers schemas) name name
  resolved : ∀ name schema fs, schemas.get? name = some schema → field schema "fields" = .dict fs → ∀ p ∈ fs,
    ∀ target, RefTarget p.2 target → ∃ other ∈ schemas.keys, target = .str other

theorem RefTarget.refersTo {ft : Value} {name : String} (h : RefTarget ft (.str name)) : RefersTo ft name := by
  generalize htarget : Value.str name = target at h
  induction h with
  | ref type get =>
    subst htarget
    exact .ref type get
  | list type _ ih => exact .list type (ih htarget)
  | object type fields mem _ ih => exact .object type fields mem (ih htarget)

/-- The fields of the schema have distinct names, and each is expanded. -/
def FieldsGenerate (registry : SchemaRegistry) (schema : List (Value × Value)) : Prop :=
  ∃ fs, field schema "fields" = .dict fs ∧ (fs.map Prod.fst).Nodup ∧ ∀ p ∈ fs, ∃ js, Generates registry p.2 js

theorem generates_members {ft fs : List (Value × Value)} (fields : ObjectFields registry ft fs)
    (distinct : (fs.map Prod.fst).Nodup) (each : ∀ p ∈ fs, ∃ js, Generates registry p.2 js) :
    ∃ js, Generates registry (.dict ft) js :=
  ⟨_,@Generates.members registry ft fs (fun sub => Classical.epsilon (Generates registry sub)) fields distinct
    fun p hp => Classical.epsilon_spec (each p hp)⟩

theorem checkBound_ok {key : String} {bound : Value} {path : Message} (h : checkBound key bound path = .ok ()) :
    IsBound bound := by
  unfold checkBound at h
  split at h
  · exact .inl rfl
  · exact .inr (.inl ⟨_,rfl⟩)
  · exact .inr (.inr ⟨_,rfl⟩)
  · cases h

theorem checkNumberBoundsShape_ok {ft : List (Value × Value)} {path : Message}
    (h : checkNumberBoundsShape Value.exceeds ft path = .ok ()) :
    IsBound (field ft "minimum") ∧ IsBound (field ft "maximum") ∧
      (field ft "minimum" ≠ .none → field ft "maximum" ≠ .none →
        (field ft "minimum").exceeds (field ft "maximum") = false) := by
  obtain ⟨u,hmin,h⟩ := Fallible.bind_ok h
  obtain ⟨u',hmax,h⟩ := Fallible.bind_ok h
  refine ⟨checkBound_ok hmin,checkBound_ok hmax,fun hne hne' => ?_⟩
  by_contra hexceeds
  rw [Bool.not_eq_false] at hexceeds
  rw [if_pos ⟨hne,hne',hexceeds⟩] at h
  cases h

/-- A field type that the shape check takes is expanded when the schemas it refers to are. -/
theorem generates_of_accepted {ft : Value} {path : Message} {allowList : Bool}
    (hcheck : checkFieldTypeShape Value.exceeds ft path allowList = .ok ()) (hwf : ft.wf = true)
    (hrefs : ∀ target, RefTarget ft target → ∃ name schema, target = .str name ∧ registry.get? name = some schema ∧
      FieldsGenerate registry schema) : ∃ js, Generates registry ft js := by
  induction hdepth : ft.depth using Nat.strong_induction_on generalizing ft path allowList with
  | h depth ih =>
    subst hdepth
    rw [checkFieldTypeShape.eq_def] at hcheck
    split at hcheck
    · rename_i ft
      split at hcheck
      · split at hcheck
        · exact ⟨_,.bool ‹_›⟩
        · exact ⟨_,.string ‹_›⟩
        · obtain ⟨hmin,hmax,hordered⟩ := checkNumberBoundsShape_ok hcheck
          exact ⟨_,.number ‹_› hmin hmax hordered⟩
        · split at hcheck
          · exact ⟨_,.enum ‹_› ‹_›⟩
          · cases hcheck
        · rename_i htype
          split at hcheck
          · split at hcheck
            · cases hcheck
            · rename_i hof
              obtain ⟨js,hjs⟩ := ih _ (field_depth_lt hof) hcheck (wf_field hwf "of")
                (fun target htarget => hrefs target (.list htype htarget)) rfl
              exact ⟨_,.list htype hjs⟩
          · cases hcheck
        · rename_i htype
          split at hcheck
          · rename_i p ps hfields
            have hattach := @Fallible.forM_attach _ _ (fun q : Value × Value =>
              checkFieldTypeShape Value.exceeds q.2 (path ++ [.text ".",.str q.1]) true) (p :: ps)
            rw [hattach,Fallible.forM_ok_iff] at hcheck
            have hsub := wf_field hwf "fields"
            have hne : field ft "fields" ≠ .none := by
              rw [hfields]
              exact Value.noConfusion
            have hlt := field_depth_lt hne
            rw [hfields] at hlt hsub
            simp only [Value.wf,Bool.and_eq_true,decide_eq_true_eq] at hsub
            refine generates_members (.object htype hfields) hsub.1 fun q hq => ?_
            exact ih _ ((Value.depth_lt_dict hq).trans hlt) (hcheck q hq) (Value.wfFields_iff.mp hsub.2 q hq)
              (fun target htarget => hrefs target (.object htype hfields hq htarget)) rfl
          · cases hcheck
        · rename_i htype
          split at hcheck
          · rename_i htruthy
            cases hget : Value.get? ft "schema" with
            | none =>
              rw [field,hget] at htruthy
              cases htruthy
            | some target =>
              obtain ⟨name,schema,rfl,hknown,fs,hfields,hdistinct,heach⟩ := hrefs target (.ref htype hget)
              exact generates_members (.ref htype hget hknown hfields) hdistinct heach
          · cases hcheck
        · cases hcheck
      · cases hcheck
    · cases hcheck

theorem AcceptedRegistry.generates {schemas : SchemaRegistry} (h : AcceptedRegistry schemas) (name : String) :
    ∀ schema, schemas.get? name = some schema → FieldsGenerate schemas schema := by
  induction name using refers_induction h.acyclic with
  | h name ih =>
    intro schema hget
    obtain ⟨fs,hfields,haccepted⟩ := h.shaped name schema hget
    have hwf := wf_field (h.distinct name schema hget) "fields"
    rw [hfields] at hwf
    simp only [Value.wf,Bool.and_eq_true,decide_eq_true_eq] at hwf
    refine ⟨fs,hfields,hwf.1,fun p hp => ?_⟩
    obtain ⟨path,hcheck⟩ := haccepted p hp
    refine generates_of_accepted hcheck (Value.wfFields_iff.mp hwf.2 p hp) fun target htarget => ?_
    obtain ⟨other,hother,rfl⟩ := h.resolved name schema fs hget hfields p hp target htarget
    obtain ⟨schema',hget'⟩ := Dict.mem_keys_iff.mp hother
    have href : Refers schemas name other := ⟨hother,schema,hget,fs,hfields,p,hp,htarget.refersTo⟩
    exact ⟨other,schema',rfl,hget',ih other href schema' hget'⟩

/-- The field type that refers to a schema. -/
def refTo (name : String) : Value := .dict [(.str "type",.str "ref"),(.str "schema",.str name)]

theorem toJsonSchema_name {name : String} {schema fs : List (Value × Value)} (hget : registry.get? name = some schema)
    (hfields : field schema "fields" = .dict fs) (fuel : ℕ) :
    toJsonSchema registry fuel (.str name) = fieldTypeToJsonSchema registry (fuel + 1) (refTo name) := by
  have hschema : fieldsOfSchema registry (.str name) = .ok fs := by
    rw [fieldsOfSchema,schemaOf,hget]
    dsimp only [Except.bind]
    rw [hfields]
  rw [toJsonSchema,hschema,refTo,fieldTypeToJsonSchema_object (.ref rfl rfl hget hfields)]

theorem validate_iff_conforms {name : String} {schema fs : List (Value × Value)} {value : Value}
    (hget : registry.get? name = some schema) (hfields : field schema "fields" = .dict fs) :
    (∃ result, validate registry value (.str name) = .ok result ∧ result.conforming = true) ↔
      Conforms registry value (refTo name) := by
  have hobject : ObjectFields registry [(.str "type",.str "ref"),(.str "schema",.str name)] fs := .ref rfl rfl hget hfields
  rw [validate,schemaOf,hget]
  dsimp only [Except.bind]
  constructor
  · rintro ⟨result,hresult,hconforming⟩
    split at hresult
    · rw [hfields] at hresult
      obtain ⟨errors,herrors,rfl⟩ := Fallible.map_eq_ok hresult
      cases List.isEmpty_iff.mp hconforming
      rw [validateObjectFields_nil_iff] at herrors
      exact .members hobject (fun p hp x hx => validateField_nil_iff.mp ((herrors p hp).1 x hx)) fun p hp => (herrors p hp).2
    · cases hresult
      cases hconforming
  · intro hconforms
    obtain ⟨members,rfl,present,absent⟩ := Conforms.objectMembers hconforms hobject
    have hnil := (@validateObjectFields_nil_iff registry members fs []).mpr fun p hp =>
      ⟨fun x hx => validateField_nil_iff.mpr (present p hp x hx),absent p hp⟩
    refine ⟨⟨true,[]⟩,?_,rfl⟩
    dsimp only
    rw [hfields]
    exact congrArg (Except.map fun errors => (⟨errors.isEmpty,errors⟩ : ValidationResult)) hnil

/-- The validator and the generated schema agree on all JSON values exactly if nothing in the schema is confused. -/
theorem validate_agrees_iff (haccepted : AcceptedRegistry registry) {name : String} {schema : List (Value × Value)}
    (hget : registry.get? name = some schema) :
    ∃ js bound, (∀ fuel, bound ≤ fuel → toJsonSchema registry fuel (.str name) = .ok js) ∧
      ((∀ value, value.isJson = true →
        ((∃ result, validate registry value (.str name) = .ok result ∧ result.conforming = true) ↔ Satisfies js value)) ↔
        ¬Confused registry (refTo name)) := by
  obtain ⟨fs,hfields,hdistinct,heach⟩ := haccepted.generates name schema hget
  have hobject : ObjectFields registry [(.str "type",.str "ref"),(.str "schema",.str name)] fs := .ref rfl rfl hget hfields
  obtain ⟨js,hjs⟩ := generates_members hobject hdistinct heach
  obtain ⟨bound,hbound⟩ := hjs.converts
  refine ⟨js,bound,fun fuel hfuel => ?_,?_⟩
  · exact (toJsonSchema_name hget hfields fuel).trans (hbound (fuel + 1) (Nat.le_succ_of_le hfuel))
  · refine Iff.trans ?_ hjs.agree_iff
    apply forall₂_congr
    intro value _
    rw [validate_iff_conforms hget hfields]
    rfl

/-! Registries of one schema with one field. -/

def oneField (ft : Value) : List (Value × Value) := [(.str "fields",.dict [(.str "x",ft)])]

def oneSchema (ft : Value) : SchemaRegistry := .ofList [("s",oneField ft)]

theorem oneSchema_get? {ft : Value} {name : String} {schema : List (Value × Value)}
    (h : (oneSchema ft).get? name = some schema) : schema = oneField ft := by
  change List.lookup name [("s",oneField ft)] = some schema at h
  rw [List.lookup_cons] at h
  split at h
  · exact (Option.some.inj h).symm
  · cases h

theorem oneSchema_accepted {ft : Value} (haccepted : Accepted Value.exceeds ft) (hwf : ft.wf = true)
    (hrefs : ∀ target, ¬RefTarget ft target) (hrefers : ∀ name, ¬RefersTo ft name) : AcceptedRegistry (oneSchema ft) := by
  constructor
  · intro name schema hget
    obtain rfl := oneSchema_get? hget
    refine ⟨_,rfl,fun p hp => ?_⟩
    rw [List.mem_singleton.mp hp]
    exact haccepted
  · intro name schema hget
    obtain rfl := oneSchema_get? hget
    simp [oneField,Value.wf,Value.wfFields,hwf]
  · intro name hcycle
    obtain ⟨other,⟨-,schema,hget,fs,hfields,p,hp,href⟩,-⟩ := TransGen.head'_iff.mp hcycle
    obtain rfl := oneSchema_get? hget
    cases hfields
    rw [List.mem_singleton.mp hp] at href
    exact hrefers other href
  · intro name schema fs hget hfields p hp target htarget
    obtain rfl := oneSchema_get? hget
    cases hfields
    rw [List.mem_singleton.mp hp] at htarget
    exact absurd htarget (hrefs target)

/-- A field type that is no list, object or reference. -/
theorem oneSchema_accepted_of_type {ft : List (Value × Value)} (haccepted : Accepted Value.exceeds (.dict ft))
    (hwf : (Value.dict ft).wf = true) {t : String} (type : field ft "type" = .str t) (ht : t ∉ ["ref","list","object"]) :
    AcceptedRegistry (oneSchema (.dict ft)) := by
  apply oneSchema_accepted haccepted hwf
  · intro target htarget
    cases htarget with
    | ref type' => exact ht (by simp [Value.str.inj (type.symm.trans type')])
    | list type' => exact ht (by simp [Value.str.inj (type.symm.trans type')])
    | object type' => exact ht (by simp [Value.str.inj (type.symm.trans type')])
  · intro name href
    cases href with
    | ref type' => exact ht (by simp [Value.str.inj (type.symm.trans type')])
    | list type' => exact ht (by simp [Value.str.inj (type.symm.trans type')])
    | object type' => exact ht (by simp [Value.str.inj (type.symm.trans type')])

theorem accepted_of_string : Accepted Value.exceeds (.dict fileType) :=
  ⟨[],by rw [checkFieldTypeShape.eq_def]; rfl⟩

theorem string_schema_agrees : ∃ js bound, (∀ fuel, bound ≤ fuel → toJsonSchema (oneSchema (.dict fileType)) fuel (.str "s") = .ok js) ∧
      ((∀ value, value.isJson = true → ((∃ result, validate (oneSchema (.dict fileType)) value (.str "s") = .ok result ∧
        result.conforming = true) ↔ Satisfies js value)) ↔ ¬Confused (oneSchema (.dict fileType)) (refTo "s")) :=
  validate_agrees_iff (oneSchema_accepted_of_type accepted_of_string (by decide) rfl (by decide)) rfl

def trueEnum : List (Value × Value) := [(.str "type",.str "enum"),(.str "values",.list [.bool true])]

theorem true_enum_disagrees : ¬∀ (registry : SchemaRegistry) (name : String) (schema : List (Value × Value)),
    AcceptedRegistry registry → registry.get? name = some schema → ∀ (js : Value) (bound : ℕ),
      (∀ fuel, bound ≤ fuel → toJsonSchema registry fuel (.str name) = .ok js) → ∀ value : Value, value.isJson = true →
        ((∃ result, validate registry value (.str name) = .ok result ∧ result.conforming = true) ↔ Satisfies js value) := by
  intro hall
  have haccepted : Accepted Value.exceeds (.dict trueEnum) := ⟨[],by rw [checkFieldTypeShape.eq_def]; rfl⟩
  have hgenerates : Generates (oneSchema (.dict trueEnum)) (.dict trueEnum) (.dict [(.str "enum",.list [.bool true])]) :=
    .enum rfl rfl
  have hmembers : Generates (oneSchema (.dict trueEnum)) (refTo "s") _ :=
    @Generates.members _ _ _ (fun _ => .dict [(.str "enum",.list [.bool true])]) (.ref rfl rfl rfl rfl)
      (by simp) fun p hp => by
        rw [List.mem_singleton.mp hp]
        exact hgenerates
  obtain ⟨bound,hbound⟩ := hmembers.converts
  have hagree := hall (oneSchema (.dict trueEnum)) "s" (oneField (.dict trueEnum))
    (oneSchema_accepted_of_type haccepted (by decide) rfl (by decide)) rfl _ bound
    (fun fuel hfuel => (toJsonSchema_name rfl rfl fuel).trans (hbound (fuel + 1) (Nat.le_succ_of_le hfuel)))
    (.dict [(.str "x",.int 1)]) rfl
  rw [validate_iff_conforms rfl rfl] at hagree
  have hconforms : Conforms (oneSchema (.dict trueEnum)) (.dict [(.str "x",.int 1)]) (refTo "s") := by
    apply Conforms.members (.ref rfl rfl rfl rfl)
    · intro p hp x hx
      rw [List.mem_singleton.mp hp,Value.member?_str] at hx
      cases hx
      rw [List.mem_singleton.mp hp]
      exact .enum rfl rfl (by decide)
    · intro p hp hx
      rw [List.mem_singleton.mp hp,Value.member?_str] at hx
      cases hx
  obtain ⟨members,heq,-,hproperties⟩ := satisfies_object_iff.mp (hagree.mp hconforms)
  cases heq
  have henum := hproperties _ (List.mem_singleton_self _) "x" rfl (.int 1) rfl
  rw [satisfies_enum_iff] at henum
  exact absurd henum (by decide)

end Reyn.Schema
