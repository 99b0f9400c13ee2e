import Reyn.Lib.DepthFirst
import Reyn.Pipeline.JsonSchema

/-! # Registration and cycles of references

The search for a cycle is the depth-first search over the references of the registered
schemas. Where all references can be sorted, a registration is refused and leaves the
registry as it was, or it leaves one without a cycle.
-/
namespace Reyn.Schema
open Py Reyn.Parser Fallible Relation

/-- `register`, of any value -/
def registerValue (exceeds : Value → Value → Bool) (schemas : SchemaRegistry) (name : String) (schema : Value) :
    Checked Unit × SchemaRegistry :=
  match schema with
  | .dict schema => register exceeds schemas name schema
  | _ => (deny [.text "schema ",.repr (.str name),.text " must be a dict"],schemas)

/-! ## Direct references -/

theorem mapM_flatten_ok_mem {A B E : Type} {f : A → Except E (List B)} {l : List A} {bs : List B}
    (h : (l.mapM f).map List.flatten = .ok bs) (b : B) : b ∈ bs ↔ ∃ a ∈ l, ∃ bs', f a = .ok bs' ∧ b ∈ bs' := by
  obtain ⟨bss,hmap,rfl⟩ := map_eq_ok h
  have hmembers := mapM_ok_members hmap
  clear h hmap
  induction hmembers with
  | nil => simp
  | @cons a bs' rest rest' hf _ ih => simp [ih,hf]

theorem directRefs_iff {ft : Value} {refs : List Value} (h : directRefs ft = .ok refs) (name : String) :
    .str name ∈ refs ↔ RefersTo ft name := by
  induction hdepth : ft.depth using Nat.strong_induction_on generalizing ft refs with
  | h depth ih =>
    subst hdepth
    rw [directRefs.eq_def] at h
    split at h
    · rename_i fields
      split at h
      · rename_i htype
        split at h
        · rename_i target htarget
          split at h
          · cases h
            constructor
            · intro hmem
              obtain rfl := List.mem_singleton.mp hmem
              exact .ref htype htarget
            · intro href
              cases href with
              | ref _ htarget' =>
                cases htarget.symm.trans htarget'
                exact List.mem_singleton_self _
              | list htype' => exact absurd (Value.str.inj (htype.symm.trans htype')) (by decide)
              | object htype' => exact absurd (Value.str.inj (htype.symm.trans htype')) (by decide)
          · cases h
        · cases h
      · rename_i htype
        split at h
        · cases h
        · rename_i hof
          rw [ih _ (field_depth_lt hof) h rfl]
          constructor
          · exact .list htype
          · intro href
            cases href with
            | ref htype' => exact absurd (Value.str.inj (htype.symm.trans htype')) (by decide)
            | list _ hof' => exact hof'
            | object htype' => exact absurd (Value.str.inj (htype.symm.trans htype')) (by decide)
      · rename_i htype
        split at h
        · rename_i fs hfields
          have hne : field fields "fields" ≠ .none := by
            rw [hfields]
            exact Value.noConfusion
          have hlt := field_depth_lt hne
          rw [hfields] at hlt
          rw [mapM_flatten_ok_mem h]
          constructor
          · rintro ⟨p,-,bs,hbs,hmem⟩
            exact .object htype hfields p.2 ((ih _ ((Value.depth_lt_dict p.2).trans hlt) hbs rfl).mp hmem)
          · intro href
            cases href with
            | ref htype' => exact absurd (Value.str.inj (htype.symm.trans htype')) (by decide)
            | list htype' => exact absurd (Value.str.inj (htype.symm.trans htype')) (by decide)
            | @object _ fs' _ p _ hfields' hp hsub =>
              cases hfields.symm.trans hfields'
              obtain ⟨bss,hmap,-⟩ := map_eq_ok h
              obtain ⟨bs,hbs⟩ := mapM_ok_iff.mp ⟨bss,hmap⟩ ⟨p,hp⟩ (List.mem_attach _ _)
              exact ⟨⟨p,hp⟩,List.mem_attach _ _,bs,hbs,(ih _ ((Value.depth_lt_dict hp).trans hlt) hbs rfl).mpr hsub⟩
        · cases h
      · rename_i hnotref hnotlist hnotobject
        cases h
        refine iff_of_false List.not_mem_nil fun href => ?_
        cases href with
        | ref htype => exact hnotref htype
        | list htype => exact hnotlist htype
        | object htype => exact hnotobject htype
    · cases h

theorem schemaDirectRefs_iff {schema : List (Value × Value)} {refs : List Value} (h : schemaDirectRefs schema = .ok refs)
    (name : String) : .str name ∈ refs ↔ SchemaRefersTo schema name := by
  unfold schemaDirectRefs at h
  split at h
  · rename_i fs hfields
    rw [mapM_flatten_ok_mem h]
    constructor
    · rintro ⟨p,hp,bs,hbs,hmem⟩
      exact ⟨fs,hfields,p,hp,(directRefs_iff hbs name).mp hmem⟩
    · rintro ⟨fs',hfields',p,hp,href⟩
      cases hfields.symm.trans hfields'
      obtain ⟨bss,hmap,-⟩ := map_eq_ok h
      obtain ⟨bs,hbs⟩ := mapM_ok_iff.mp ⟨bss,hmap⟩ p hp
      exact ⟨p,hp,bs,hbs,(directRefs_iff hbs name).mpr href⟩
  · cases h

/-- The references of the schema can be put in a set and sorted. -/
def RefsOrdered (schema : List (Value × Value)) : Prop :=
  ∃ refs, schemaDirectRefs schema = .ok refs ∧ sortable refs.dedup = true

/-! ## The search -/

/-- The registered schemas that a schema refers to, in the order of the search. -/
def edges (schemas : SchemaRegistry) (name : String) : List String :=
  match refsOf schemas name with
  | .ok refs => refs
  | .error _ => []

theorem refsOf_eq {schemas : SchemaRegistry} {name : String} {schema : List (Value × Value)}
    (hget : schemas.get? name = some schema) (h : RefsOrdered schema) : refsOf schemas name = .ok (edges schemas name) := by
  obtain ⟨refs,hrefs,hsortable⟩ := h
  simp only [edges,refsOf,hget,Option.getD_some,hrefs,hsortable,if_true]

theorem mem_edges_iff {schemas : SchemaRegistry} (hordered : ∀ name schema, schemas.get? name = some schema → RefsOrdered schema)
    (a b : String) : b ∈ edges schemas a ↔ Refers schemas a b := by
  cases hget : schemas.get? a with
  | none =>
    have hnone : edges schemas a = [] := by simp [edges,refsOf,hget,schemaDirectRefs,field,Value.get?]
    rw [hnone]
    refine iff_of_false List.not_mem_nil ?_
    rintro ⟨-,schema,hschema,-⟩
    cases hget.symm.trans hschema
  | some schema =>
    obtain ⟨refs,hrefs,hsortable⟩ := hordered a schema hget
    simp only [edges,refsOf,hget,Option.getD_some,hrefs,hsortable,if_true,List.mem_mergeSort,List.mem_filter,decide_eq_true_eq,
      schemaDirectRefs_iff hrefs]
    constructor
    · rintro ⟨hkey,href⟩
      exact ⟨hkey,schema,hget,href⟩
    · rintro ⟨hkey,schema',hschema',href⟩
      cases hget.symm.trans hschema'
      exact ⟨hkey,href⟩

/-- The references of registered schemas stay among the registered ones. -/
theorem edges_closed {schemas : SchemaRegistry} (hordered : ∀ name schema, schemas.get? name = some schema → RefsOrdered schema)
    (a b : String) (h : DepthFirst.Edge (edges schemas) a b) : a ∈ schemas.keys ∧ b ∈ schemas.keys := by
  obtain ⟨hb,schema,hget,-⟩ := (mem_edges_iff hordered a b).mp h
  exact ⟨Dict.mem_keys_iff.mpr ⟨schema,hget⟩,hb⟩

theorem followRefs_eq {schemas : SchemaRegistry} (hordered : ∀ name schema, schemas.get? name = some schema → RefsOrdered schema)
    {fuel : ℕ} {stack finished : List String} {node : String} (hnode : node ∈ schemas.keys) :
    followRefs schemas fuel stack finished node =
      (DepthFirst.visit (edges schemas) fuel stack finished node).mapError .cycle := by
  induction fuel generalizing stack finished node with
  | zero => rfl
  | succ fuel ih =>
    obtain ⟨schema,hget⟩ := Dict.mem_keys_iff.mp hnode
    have hfold := @foldlM_mapError _ _ _ _ (DepthFirst.look (DepthFirst.visit (edges schemas) fuel) (stack ++ [node]))
      (fun finished ref =>
        if ref ∈ stack ++ [node] then .error (.cycle ((stack ++ [node]).drop ((stack ++ [node]).idxOf ref) ++ [ref]))
        else if ref ∈ finished then .ok finished
        else followRefs schemas fuel (stack ++ [node]) finished ref) RefStop.cycle (edges schemas node) finished (by
      intro finished ref href
      rw [DepthFirst.look]
      split
      · rfl
      · split
        · rfl
        · exact ih (edges_closed hordered node ref href).2)
    rw [followRefs,DepthFirst.visit,refsOf_eq hget (hordered node schema hget)]
    change Except.bind ((edges schemas node).foldlM _ finished) _ = _
    rw [hfold]
    change _ = Except.mapError _ (Except.bind _ _)
    cases (edges schemas node).foldlM (DepthFirst.look (DepthFirst.visit (edges schemas) fuel) (stack ++ [node])) finished <;> rfl

theorem findRefCycle_eq {schemas : SchemaRegistry} (hordered : ∀ name schema, schemas.get? name = some schema → RefsOrdered schema) :
    findRefCycle schemas = (DepthFirst.search (edges schemas) schemas.keys).mapError .cycle := by
  apply foldlM_mapError
  intro finished name hname
  rw [DepthFirst.look,if_neg List.not_mem_nil]
  split
  · rfl
  · exact followRefs_eq hordered hname

/-- A registry that every registration may go on from. -/
structure SoundRegistry (schemas : SchemaRegistry) : Prop where
  ordered : ∀ name schema, schemas.get? name = some schema → RefsOrdered schema
  acyclic : ∀ name, ¬TransGen (Refers schemas) name name

/-- The search ends exactly if there is no cycle. -/
theorem findRefCycle_ok_iff {schemas : SchemaRegistry}
    (hordered : ∀ name schema, schemas.get? name = some schema → RefsOrdered schema) :
    (∃ done, findRefCycle schemas = .ok done) ↔ ∀ name, ¬TransGen (Refers schemas) name name := by
  have hedge : DepthFirst.Edge (edges schemas) = Refers schemas := by
    funext a b
    exact propext (mem_edges_iff hordered a b)
  rw [← hedge,← DepthFirst.search_ok_iff (edges_closed hordered),findRefCycle_eq hordered]
  cases DepthFirst.search (edges schemas) schemas.keys with
  | error walk => exact iff_of_false (fun ⟨_,h⟩ => nomatch h) (fun ⟨_,h⟩ => nomatch h)
  | ok done => exact iff_of_true ⟨_,rfl⟩ ⟨_,rfl⟩

theorem findRefCycle_error {schemas : SchemaRegistry}
    (hordered : ∀ name schema, schemas.get? name = some schema → RefsOrdered schema) {stop : RefStop}
    (h : findRefCycle schemas = .error stop) : ∃ names, stop = .cycle names := by
  rw [findRefCycle_eq hordered] at h
  cases hsearch : DepthFirst.search (edges schemas) schemas.keys with
  | ok done =>
    rw [hsearch] at h
    cases h
  | error walk =>
    rw [hsearch] at h
    cases h
    exact ⟨walk,rfl⟩

/-! ## Expansion ends -/

/-- Where no schema leads to itself, what holds of a schema when it holds of those it refers to holds of all. -/
theorem refers_induction {schemas : SchemaRegistry} (hacyclic : ∀ name, ¬TransGen (Refers schemas) name name)
    {P : String → Prop} (h : ∀ a, (∀ b, Refers schemas a b → P b) → P a) (a : String) : P a := by
  classical
  let edges (a : String) : List String := schemas.keys.filter fun b => Refers schemas a b
  have hedge : DepthFirst.Edge edges = Refers schemas := by
    funext a b
    apply propext
    show b ∈ schemas.keys.filter _ ↔ _
    rw [List.mem_filter,decide_eq_true_eq]
    exact ⟨And.right,fun href => ⟨href.1,href⟩⟩
  have hclosed : ∀ u v, DepthFirst.Edge edges u v → u ∈ schemas.keys ∧ v ∈ schemas.keys := by
    intro u v huv
    rw [hedge] at huv
    obtain ⟨hv,schema,hget,-⟩ := huv
    exact ⟨Dict.mem_keys_iff.mpr ⟨schema,hget⟩,hv⟩
  obtain ⟨order,horder⟩ := (DepthFirst.search_ok_iff hclosed).mpr (hedge ▸ hacyclic)
  obtain ⟨hfinished,hall⟩ := DepthFirst.search_finished hclosed horder
  have hdone : ∀ a ∈ order, P a := by
    clear hall horder
    induction hfinished with
    | nil => exact fun a ha => absurd ha List.not_mem_nil
    | concat _ hdeps ih =>
      intro a ha
      rcases List.mem_append.mp ha with ha | ha
      · exact ih a ha
      · obtain rfl := List.mem_singleton.mp ha
        exact h a fun b href => ih b (hdeps b (hedge.symm ▸ href : DepthFirst.Edge edges a b))
  exact h a fun b href => hdone b (hall b href.1)

/-- The expansion of every schema ends. -/
theorem SoundRegistry.settles {schemas : SchemaRegistry} (h : SoundRegistry schemas) (schema : Value) :
    Settles fun fuel => toJsonSchema schemas fuel schema := by
  have hregistered : ∀ name schema, schemas.get? name = some schema → SchemaSettles schemas schema := by
    intro name
    induction name using refers_induction h.acyclic with
    | h name ih =>
      intro schema hget fs hfields p hp
      apply settles_of_refs
      intro target href schema' hget'
      exact ih target ⟨Dict.mem_keys_iff.mpr ⟨schema',hget'⟩,schema,hget,fs,hfields,p,hp,href⟩ schema' hget'
  unfold toJsonSchema
  cases fieldsOfSchema schemas schema with
  | error f => exact .const nofun
  | ok fields =>
    exact settles_fields fun p _ => settles_of_refs p.2 fun name _ schema hget => hregistered name schema hget

/-! ## Where the shape check raises something else -/

mutual
/-- No integer in the value has more than 4300 digits, so that it has a `repr`. -/
def printable : Value → Bool
  | .none | .bool _ | .float _ | .str _ | .other _ _ _ => true
  | .int i => Value.hasText i
  | .tuple xs | .list xs => printableItems xs
  | .dict fields => printableFields fields
def printableItems : List Value → Bool
  | [] => true
  | x :: xs => printable x && printableItems xs
def printableFields : List (Value × Value) → Bool
  | [] => true
  | (k,v) :: rest => printable k && (printable v && printableFields rest)
end

def partPrints : MessagePart → Bool
  | .text _ => true
  | .repr v | .str v => printable v
  | .sorted keys => keys.all printable

/-- The text of the message can be built. -/
def Prints (message : Message) : Prop := ∀ part ∈ message, partPrints part = true

section Meets
variable (exceeds : Value → Value → Bool)

/-- The shape check takes the field type. -/
def Accepted (ft : Value) : Prop := ∃ path, checkFieldTypeShape exceeds ft path true = .ok ()

/-- The shape check of a field type comes to a type that is not hashable, or to a text that cannot be built. -/
inductive ShapeMeets : Bool → Value → Prop
  | type {allowList : Bool} {ft : List (Value × Value)} (h : hashable (field ft "type") = false) : ShapeMeets allowList (.dict ft)
  | unknown {allowList : Bool} {ft : List (Value × Value)} (hashable : hashable (field ft "type") = true)
      (unknown : field ft "type" ∉ knownTypes) (h : printable (field ft "type") = false) : ShapeMeets allowList (.dict ft)
  | bounds {allowList : Bool} {ft : List (Value × Value)} (type : field ft "type" = .str "number")
      (exceeded : exceeds (field ft "minimum") (field ft "maximum") = true)
      (h : printable (field ft "minimum") = false ∨ printable (field ft "maximum") = false) : ShapeMeets allowList (.dict ft)
  | of {ft : List (Value × Value)} (type : field ft "type" = .str "list") (some : field ft "of" ≠ .none)
      (sub : ShapeMeets false (field ft "of")) : ShapeMeets true (.dict ft)
  | name {allowList : Bool} {ft front rest : List (Value × Value)} {p : Value × Value}
      (type : field ft "type" = .str "object") (fields : field ft "fields" = .dict (front ++ p :: rest))
      (before : ∀ q ∈ front, Accepted exceeds q.2) (h : printable p.1 = false) : ShapeMeets allowList (.dict ft)
  | sub {allowList : Bool} {ft front rest : List (Value × Value)} {p : Value × Value}
      (type : field ft "type" = .str "object") (fields : field ft "fields" = .dict (front ++ p :: rest))
      (before : ∀ q ∈ front, Accepted exceeds q.2) (sub : ShapeMeets true p.2) : ShapeMeets allowList (.dict ft)

/-- The same of a schema. -/
def SchemaMeets (schema : Value) : Prop :=
  ∃ s front p rest, schema = .dict s ∧ field s "fields" = .dict (front ++ p :: rest) ∧ (∀ q ∈ front, Accepted exceeds q.2) ∧
    (printable p.1 = false ∨ ShapeMeets exceeds true p.2)

/-- The shape check comes to nothing it does not expect, and if it takes the schema its references can be sorted. -/
def Regular (schema : Value) : Prop :=
  ¬SchemaMeets exceeds schema ∧ ∀ s fs, schema = .dict s → field s "fields" = .dict fs → (∀ p ∈ fs, Accepted exceeds p.2) →
    RefsOrdered s

end Meets

theorem Prints.append {a b : Message} (ha : Prints a) (hb : Prints b) : Prints (a ++ b) := by
  intro part hpart
  rcases List.mem_append.mp hpart with hpart | hpart
  · exact ha part hpart
  · exact hb part hpart

theorem Prints.snoc {a : Message} {part : MessagePart} (ha : Prints a) (hpart : partPrints part = true) :
    Prints (a ++ [part]) := by
  apply ha.append
  intro q hq
  rw [List.mem_singleton.mp hq]
  exact hpart

/-- The failure is a refusal with a text. -/
def Refusal (f : SchemaFailure) : Prop := ∃ message, f = .refused message ∧ Prints message

section Check
variable {exceeds : Value → Value → Bool}

theorem refusal_of_deny {A : Type} {message : Message} {f : SchemaFailure} (hprints : Prints message)
    (h : (deny message : Checked A) = .error f) : Refusal f := by
  cases h
  exact ⟨message,rfl,hprints⟩

theorem checkBound_error {key : String} {bound : Value} {path : Message} {f : SchemaFailure} (hpath : Prints path)
    (h : checkBound key bound path = .error f) : Refusal f := by
  unfold checkBound at h
  split at h
  · cases h
  · cases h
  · cases h
  · exact refusal_of_deny (hpath.snoc rfl) h

theorem checkNumberBoundsShape_error {ft : List (Value × Value)} {path : Message} {f : SchemaFailure} (hpath : Prints path)
    (hprintable : exceeds (field ft "minimum") (field ft "maximum") = true →
      printable (field ft "minimum") = true ∧ printable (field ft "maximum") = true)
    (h : checkNumberBoundsShape exceeds ft path = .error f) : Refusal f := by
  unfold checkNumberBoundsShape at h
  change Except.bind _ _ = _ at h
  cases hmin : checkBound "minimum" (field ft "minimum") path with
  | error e =>
    rw [hmin] at h
    cases h
    exact checkBound_error hpath hmin
  | ok u =>
    rw [hmin] at h
    change Except.bind _ _ = _ at h
    cases hmax : checkBound "maximum" (field ft "maximum") path with
    | error e =>
      rw [hmax] at h
      cases h
      exact checkBound_error hpath hmax
    | ok u =>
      rw [hmax] at h
      change (if _ then _ else _) = _ at h
      split at h
      · rename_i hexceeds
        obtain ⟨hprintmin,hprintmax⟩ := hprintable hexceeds.2.2
        refine refusal_of_deny (hpath.append ?_) h
        intro part hpart
        simp only [List.mem_cons,List.not_mem_nil,or_false] at hpart
        rcases hpart with rfl | rfl | rfl | rfl | rfl
        · rfl
        · exact hprintmin
        · rfl
        · exact hprintmax
        · rfl
      · cases h

/-- Where the shape check comes to nothing it does not expect, it refuses with a text. -/
theorem checkFieldTypeShape_error {ft : Value} {path : Message} {allowList : Bool} {f : SchemaFailure} (hpath : Prints path)
    (hnot : ¬ShapeMeets exceeds allowList ft) (h : checkFieldTypeShape exceeds ft path allowList = .error f) : Refusal f := by
  induction hdepth : ft.depth using Nat.strong_induction_on generalizing ft path allowList with
  | h depth ih =>
    subst hdepth
    rw [checkFieldTypeShape.eq_def] at h
    split at h
    · rename_i fields
      split at h
      · rename_i hhashable
        split at h
        · cases h
        · cases h
        · rename_i htype
          refine checkNumberBoundsShape_error hpath (fun hexceeds => ?_) h
          by_contra hprint
          rw [not_and_or,Bool.not_eq_true,Bool.not_eq_true] at hprint
          exact hnot (.bounds htype hexceeds hprint)
        · split at h
          · cases h
          · exact refusal_of_deny (hpath.snoc rfl) h
        · rename_i htype
          split at h
          · split at h
            · exact refusal_of_deny (hpath.snoc rfl) h
            · rename_i hallow hof
              subst hallow
              exact ih _ (field_depth_lt hof) (hpath.snoc rfl) (fun hsub => hnot (.of htype hof hsub)) h rfl
          · exact refusal_of_deny (hpath.snoc rfl) h
        · rename_i htype
          split at h
          · rename_i p ps hfields
            have hattach := @forM_attach _ _ (fun q : Value × Value =>
              checkFieldTypeShape exceeds q.2 (path ++ [.text ".",.str q.1]) true) (p :: ps)
            rw [hattach] at h
            obtain ⟨front,a,rest,hsplit,hfront,ha⟩ := forM_error h
            have hbefore : ∀ q ∈ front, Accepted exceeds q.2 := fun q hq => ⟨_,hfront q hq⟩
            rw [hsplit] at hfields
            have hlt : a.2.depth < (Value.dict fields).depth := by
              have hne : field fields "fields" ≠ .none := by
                rw [hfields]
                exact Value.noConfusion
              have hlt := field_depth_lt hne
              rw [hfields] at hlt
              exact (Value.depth_lt_dict (List.mem_append_right _ List.mem_cons_self)).trans hlt
            have hname : printable a.1 = true := by
              by_contra hprint
              exact hnot (.name htype hfields hbefore (Bool.eq_false_iff.mpr hprint))
            have hsub : Prints (path ++ [.text ".",.str a.1]) := by
              rw [← List.singleton_append,← List.append_assoc]
              exact (hpath.snoc rfl).snoc hname
            exact ih _ hlt hsub (fun hmeets => hnot (.sub htype hfields hbefore hmeets)) ha rfl
          · exact refusal_of_deny (hpath.snoc rfl) h
        · split at h
          · cases h
          · exact refusal_of_deny (hpath.snoc rfl) h
        · rename_i hbool hstring hnumber henum hlist hobject href
          have hunknown : field fields "type" ∉ knownTypes := by
            intro hmem
            obtain ⟨t,ht,heq⟩ := List.mem_map.mp hmem
            simp only [List.mem_cons,List.not_mem_nil,or_false] at ht
            rcases ht with rfl | rfl | rfl | rfl | rfl | rfl | rfl
            · exact hbool heq.symm
            · exact henum heq.symm
            · exact hlist heq.symm
            · exact hnumber heq.symm
            · exact hobject heq.symm
            · exact href heq.symm
            · exact hstring heq.symm
          have hprint : printable (field fields "type") = true := by
            by_contra hprint
            exact hnot (.unknown hhashable hunknown (Bool.eq_false_iff.mpr hprint))
          refine refusal_of_deny (hpath.append ?_) h
          intro part hpart
          simp only [List.mem_cons,List.not_mem_nil,or_false] at hpart
          rcases hpart with rfl | rfl | rfl | rfl | rfl
          · rfl
          · exact hprint
          · rfl
          · rfl
          · rfl
      · rename_i hhashable
        exact absurd (.type (Bool.eq_false_iff.mpr hhashable)) hnot
    · exact refusal_of_deny (hpath.snoc rfl) h

theorem checkSchemaShape_error {name : String} {schema : List (Value × Value)} {f : SchemaFailure}
    (hnot : ¬SchemaMeets exceeds (.dict schema)) (h : checkSchemaShape exceeds name schema = .error f) : Refusal f := by
  unfold checkSchemaShape at h
  split at h
  · rename_i p ps hfields
    obtain ⟨front,a,rest,hsplit,hfront,ha⟩ := forM_error h
    have hbefore : ∀ q ∈ front, Accepted exceeds q.2 := fun q hq => ⟨_,hfront q hq⟩
    rw [hsplit] at hfields
    have hname : printable a.1 = true := by
      by_contra hprint
      exact hnot ⟨schema,front,a,rest,rfl,hfields,hbefore,.inl (Bool.eq_false_iff.mpr hprint)⟩
    have hpath : Prints [.text (name ++ "."),.str a.1] := by
      intro part hpart
      rcases List.mem_pair.mp hpart with rfl | rfl
      · rfl
      · exact hname
    exact checkFieldTypeShape_error hpath
      (fun hmeets => hnot ⟨schema,front,a,rest,rfl,hfields,hbefore,.inr hmeets⟩) ha
  · refine refusal_of_deny (fun part hpart => ?_) h
    simp only [List.mem_cons,List.not_mem_nil,or_false] at hpart
    rcases hpart with rfl | rfl | rfl
    · rfl
    · rfl
    · rfl

theorem checkSchemaShape_ok {name : String} {schema : List (Value × Value)}
    (h : checkSchemaShape exceeds name schema = .ok ()) :
    ∃ fs, field schema "fields" = .dict fs ∧ ∀ p ∈ fs, Accepted exceeds p.2 := by
  unfold checkSchemaShape at h
  split at h
  · rename_i p ps hfields
    exact ⟨p :: ps,hfields,fun q hq => ⟨_,forM_ok_iff.mp h q hq⟩⟩
  · cases h

/-- The name that registration adds is no reference. -/
theorem schemaDirectRefs_append {schema fs : List (Value × Value)} (h : field schema "fields" = .dict fs) (p : Value × Value) :
    schemaDirectRefs (schema ++ [p]) = schemaDirectRefs schema := by
  have hget : Value.get? schema "fields" = some (.dict fs) := by
    rw [field] at h
    cases hcase : Value.get? schema "fields" with
    | none =>
      rw [hcase] at h
      cases h
    | some v =>
      rw [hcase] at h
      exact congrArg some h
  have happend : field (schema ++ [p]) "fields" = .dict fs := by
    rw [field,Value.get?,List.lookup_append,← Value.get?,hget]
    rfl
  rw [schemaDirectRefs,schemaDirectRefs,happend,h]

/-! ## One call -/

/-- What is to hold after a call: no cycle, a refusal that changes nothing, and expansions that end. -/
structure CallSound (exceeds : Value → Value → Bool) (schemas : SchemaRegistry) (name : String) (schema : Value) : Prop where
  acyclic : ∀ node, ¬TransGen (Refers (registerValue exceeds schemas name schema).2) node node
  atomic : ∀ f, (registerValue exceeds schemas name schema).1 = .error f → (registerValue exceeds schemas name schema).2 = schemas
  refusal : ∀ f, (registerValue exceeds schemas name schema).1 = .error f → Refusal f
  expands : ∀ target, Settles fun fuel => toJsonSchema (registerValue exceeds schemas name schema).2 fuel target

/-- The registry is as before once the previous entry is back. -/
theorem put_back (schemas : SchemaRegistry) (name : String) (normalized : List (Value × Value)) :
    (match schemas.get? name with
      | none => (schemas.set name normalized).pop name
      | some previous => (schemas.set name normalized).set name previous) = schemas := by
  cases hget : schemas.get? name with
  | none => exact Dict.pop_set_of_none hget _
  | some previous => exact Dict.set_set_of_some hget _

theorem register_sound {schemas : SchemaRegistry} {name : String} {schema : Value} (hsound : SoundRegistry schemas)
    (hregular : Regular exceeds schema) :
    SoundRegistry (registerValue exceeds schemas name schema).2 ∧
      ∀ f, (registerValue exceeds schemas name schema).1 = .error f →
        (registerValue exceeds schemas name schema).2 = schemas ∧ Refusal f := by
  obtain ⟨hnot,hrefs⟩ := hregular
  cases schema with
  | dict schema =>
    rw [registerValue,register]
    cases hshape : checkSchemaShape exceeds name schema with
    | error f =>
      refine ⟨hsound,fun f' hf => ⟨rfl,?_⟩⟩
      cases hf
      exact checkSchemaShape_error hnot hshape
    | ok u =>
      obtain ⟨fs,hfields,haccepted⟩ := checkSchemaShape_ok hshape
      have hschema := hrefs schema fs rfl hfields haccepted
      dsimp only
      generalize hnormalized : (if (Value.get? schema "name").isSome then schema else schema ++ [(.str "name",.str name)]) =
        normalized
      have hnormal : RefsOrdered normalized := by
        rw [← hnormalized]
        split
        · exact hschema
        · obtain ⟨refs,hdirect,hsortable⟩ := hschema
          exact ⟨refs,(schemaDirectRefs_append hfields _).trans hdirect,hsortable⟩
      have hordered : ∀ node schema, (schemas.set name normalized).get? node = some schema → RefsOrdered schema := by
        intro node schema' hget
        rw [Dict.get?_set] at hget
        split at hget
        · cases hget
          exact hnormal
        · exact hsound.ordered node schema' hget
      cases hcycle : findRefCycle (schemas.set name normalized) with
      | ok done =>
        refine ⟨⟨hordered,(findRefCycle_ok_iff hordered).mp ⟨done,hcycle⟩⟩,fun f hf => ?_⟩
        cases hf
      | error stop =>
        obtain ⟨names,rfl⟩ := findRefCycle_error hordered hcycle
        have hback := put_back schemas name normalized
        refine ⟨(congrArg SoundRegistry hback).mpr hsound,fun f hf => ⟨hback,?_⟩⟩
        cases hf
        refine ⟨_,rfl,fun part hpart => ?_⟩
        rw [List.mem_singleton.mp hpart]
        rfl
  | _ =>
    refine ⟨hsound,fun f hf => ⟨rfl,?_⟩⟩
    refine refusal_of_deny (fun part hpart => ?_) hf
    simp only [List.mem_cons,List.not_mem_nil,or_false] at hpart
    rcases hpart with rfl | rfl | rfl
    · rfl
    · rfl
    · rfl

/-! ## Every sequence of calls -/

variable (exceeds) in
def registerAll (calls : List (String × Value)) : SchemaRegistry :=
  calls.foldl (fun schemas call => (registerValue exceeds schemas call.1 call.2).2) .empty

theorem soundRegistry_empty : SoundRegistry .empty := by
  constructor
  · intro name schema hget
    cases hget
  · intro name hcycle
    obtain ⟨other,⟨hkey,-⟩,-⟩ := TransGen.head'_iff.mp hcycle
    cases hkey

theorem soundRegistry_registerAll {calls : List (String × Value)} (h : ∀ call ∈ calls, Regular exceeds call.2) :
    SoundRegistry (registerAll exceeds calls) := by
  induction calls using List.reverseRecOn with
  | nil => exact soundRegistry_empty
  | append_singleton calls call ih =>
    rw [registerAll,List.foldl_append]
    exact (register_sound (ih fun c hc => h c (List.mem_append_left _ hc)) (h call (by simp))).1

/-- In every sequence of calls that the shape check and the search for cycles take or refuse, each call is sound. -/
theorem registrations_sound {calls : List (String × Value)} (hregular : ∀ call ∈ calls, Regular exceeds call.2)
    (front rest : List (String × Value)) (call : String × Value) (hcalls : calls = front ++ call :: rest) :
    CallSound exceeds (registerAll exceeds front) call.1 call.2 := by
  subst hcalls
  have hfront := soundRegistry_registerAll fun c hc => hregular c (List.mem_append_left _ hc)
  obtain ⟨hsound,hrefused⟩ := @register_sound _ _ call.1 _ hfront (hregular call (by simp))
  exact ⟨hsound.acyclic,fun f hf => (hrefused f hf).1,fun f hf => (hrefused f hf).2,hsound.settles⟩

end Check

/-! A schema that refers to the other one, each way, and a reference to a list of names. -/

def refSchema (target : Value) : Value :=
  .dict [(.str "fields",.dict [(.str "x",.dict [(.str "type",.str "ref"),(.str "schema",target)])])]

theorem directRefs_ref (target : Value) : directRefs (.dict [(.str "type",.str "ref"),(.str "schema",target)]) =
    if hashable target then .ok [target] else .error .typeError := by
  rw [directRefs.eq_def]
  rfl

theorem refSchema_regular (target : String) : Regular Value.exceeds (refSchema (.str target)) := by
  constructor
  · rintro ⟨s,front,p,rest,hs,hfields,-,hmeets⟩
    cases hs
    have hp : p = (.str "x",.dict [(.str "type",.str "ref"),(.str "schema",.str target)]) := by
      have hmem : p ∈ [((.str "x",.dict [(.str "type",.str "ref"),(.str "schema",.str target)]) : Value × Value)] := by
        rw [Value.dict.inj hfields]
        exact List.mem_append_right _ List.mem_cons_self
      exact List.mem_singleton.mp hmem
    subst hp
    have htype : field [(.str "type",.str "ref"),(.str "schema",.str target)] "type" = .str "ref" := rfl
    rcases hmeets with hname | hmeets
    · cases hname
    · cases hmeets with
      | type h =>
        rw [htype] at h
        cases h
      | unknown _ hunknown => exact hunknown (by rw [htype]; decide)
      | bounds hnumber => exact absurd (Value.str.inj (htype.symm.trans hnumber)) (by decide)
      | of hlist => exact absurd (Value.str.inj (htype.symm.trans hlist)) (by decide)
      | name hobject => exact absurd (Value.str.inj (htype.symm.trans hobject)) (by decide)
      | sub hobject => exact absurd (Value.str.inj (htype.symm.trans hobject)) (by decide)
  · intro s fs hs _ _
    cases hs
    refine ⟨[.str target],?_,rfl⟩
    have hrefs := mapM_singleton (f := fun p : Value × Value => directRefs p.2)
      ((.str "x",.dict [(.str "type",.str "ref"),(.str "schema",.str target)]) : Value × Value)
    exact (congrArg (Except.map List.flatten) hrefs).trans (by rw [directRefs_ref]; rfl)

theorem mutual_references_sound : CallSound Value.exceeds (registerAll Value.exceeds [("a",refSchema (.str "b"))]) "b"
    (refSchema (.str "a")) := by
  apply @registrations_sound _ [("a",refSchema (.str "b")),("b",refSchema (.str "a"))] _ [("a",refSchema (.str "b"))] []
    ("b",refSchema (.str "a")) rfl
  intro call hcall
  rcases List.mem_pair.mp hcall with rfl | rfl
  · exact refSchema_regular "b"
  · exact refSchema_regular "a"

/-- References that cannot be sorted are found with the schema in place. -/
theorem register_typeError {exceeds : Value → Value → Bool} {schemas : SchemaRegistry} {name : String}
    {schema : List (Value × Value)} (hshape : checkSchemaShape exceeds name schema = .ok ())
    (hcycle : findRefCycle (schemas.set name
      (if (Value.get? schema "name").isSome then schema else schema ++ [(.str "name",.str name)])) = .error .typeError) :
    register exceeds schemas name schema = (.error .typeError,schemas.set name
      (if (Value.get? schema "name").isSome then schema else schema ++ [(.str "name",.str name)])) := by
  rw [register,hshape]
  dsimp only
  rw [hcycle]

theorem unhashable_reference_raises : ¬∀ (calls front rest : List (String × Value)) (call : String × Value),
    calls = front ++ call :: rest → CallSound Value.exceeds (registerAll Value.exceeds front) call.1 call.2 := by
  intro hall
  have hsound := hall [("a",refSchema (.list [.str "b"]))] [] [] _ rfl
  have hshape : checkSchemaShape Value.exceeds "a" [(.str "fields",.dict [(.str "x",.dict [(.str "type",.str "ref"),
      (.str "schema",.list [.str "b"])])])] = .ok () := by
    apply forM_ok_iff.mpr
    intro p hp
    rw [List.mem_singleton.mp hp,checkFieldTypeShape.eq_def]
    rfl
  have hrefs := mapM_singleton (f := fun p : Value × Value => directRefs p.2)
    ((.str "x",.dict [(.str "type",.str "ref"),(.str "schema",.list [.str "b"])]) : Value × Value)
  have hdirect : schemaDirectRefs [(.str "fields",.dict [(.str "x",.dict [(.str "type",.str "ref"),
      (.str "schema",.list [.str "b"])])]),(.str "name",.str "a")] = .error .typeError :=
    (congrArg (Except.map List.flatten) hrefs).trans (by rw [directRefs_ref]; rfl)
  have hrefsOf : refsOf (Dict.set .empty "a" [(.str "fields",.dict [(.str "x",.dict [(.str "type",.str "ref"),
      (.str "schema",.list [.str "b"])])]),(.str "name",.str "a")]) "a" = .error .typeError := by
    rw [refsOf,Dict.get?_set_self,Option.getD_some,hdirect]
  have hcycle : findRefCycle (Dict.set .empty "a" [(.str "fields",.dict [(.str "x",.dict [(.str "type",.str "ref"),
      (.str "schema",.list [.str "b"])])]),(.str "name",.str "a")]) = .error .typeError := by
    change Except.bind (followRefs _ 1 [] [] "a") _ = _
    rw [followRefs,hrefsOf]
    rfl
  have hfails := register_typeError hshape hcycle
  obtain ⟨message,hrefused,-⟩ := hsound.refusal _ (congrArg Prod.fst hfails)
  cases hrefused

end Reyn.Schema
