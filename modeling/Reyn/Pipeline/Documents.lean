import Reyn.Pipeline.MixedKeys
import Reyn.Pipeline.Schema

/-! # Pipeline texts

A text is a stream of YAML documents. Schema documents are registered as they are read,
then the pipeline documents are parsed. What the YAML loader makes of the text is a
parameter: its documents, or the text of its error.
-/
namespace Reyn.Parser
open Py Reyn.Schema Fallible

inductive DocsFailure where
  | parse (f : ParseFailure)
  | schema (f : SchemaFailure)

def refuseDocs {A : Type} (message : Message) : Except DocsFailure A := .error (.parse (.refused message))

/-- The schema registry and the pipeline documents that were read. -/
structure Reading where
  registry : SchemaRegistry
  docs : List (List (Value × Value))

variable (exprError : String → Option String) (exceeds : Value → Value → Bool)

def schemaKeys : List String := ["schema","fields"]

/-- `_parse_schema_doc`, with the registry as it is left. -/
def parseSchemaDoc (doc : List (Value × Value)) (registry : SchemaRegistry) : Except DocsFailure Unit × SchemaRegistry :=
  match field doc "schema" with
  | .str name =>
    if name = "" then (refuseDocs [.text "schema document: 'schema' must be a non-empty name string"],registry)
    else
      match rejectUnknownKeys doc schemaKeys [.text "schema ",.repr (.str name)] with
      | .error f => (.error (.parse f),registry)
      | .ok () =>
        match field doc "fields" with
        | .dict (f :: fs) =>
          match register exceeds registry name [(.str "fields",.dict (f :: fs))] with
          | (.ok (),registry) => (.ok (),registry)
          | (.error f,registry) => (.error (.schema f),registry)
        | _ => (refuseDocs [.text "schema ",.repr (.str name),.text ": 'fields' must be a non-empty mapping"],registry)
  | _ => (refuseDocs [.text "schema document: 'schema' must be a non-empty name string"],registry)

def unsupportedPipelineKeys : List String := ["input","defaults","refine"]

def hasKey (doc : List (Value × Value)) (key : String) : Bool := (Value.get? doc key).isSome

/-- One document of the stream; a failure comes with the registry as it is left. -/
def readDoc (s : Reading) (doc : Value) : Except (DocsFailure × SchemaRegistry) Reading :=
  match doc with
  | .none => .ok s
  | .dict doc =>
    if hasKey doc "schema" then
      match parseSchemaDoc exceeds doc s.registry with
      | (.ok (),registry) => .ok { s with registry := registry }
      | (.error f,registry) => .error (f,registry)
    else if hasKey doc "pipeline" then .ok { s with docs := s.docs ++ [doc] }
    else
      match unsupportedPipelineKeys.find? (hasKey doc) with
      | some badKey => .error (.parse (.refused [.text "top-level document has ",.repr (.str badKey),
          .text " but no 'pipeline' name — ",.repr (.str badKey),
          .text " is also not yet supported (later slice) even when a 'pipeline' key is present"]),s.registry)
      | none =>
        if sortable (doc.map Prod.fst) then
          .error (.parse (.refused [.text "top-level document must have either a 'schema' or a 'pipeline' key, got keys ",
            .sorted (doc.map Prod.fst)]),s.registry)
        else .error (.parse .unsortable,s.registry)
  | doc => .error (.parse (.refused [.text ("top-level document must be a mapping, got " ++ typeName doc)]),s.registry)

def readDocs (registry : SchemaRegistry) (docs : List Value) : Except (DocsFailure × SchemaRegistry) Reading :=
  docs.foldlM (readDoc exceeds) ⟨registry,[]⟩

/-- The first name that an earlier pipeline has. -/
def duplicateName : List String → List Pipeline → Option String
  | _, [] => none
  | seen, p :: rest => if p.name ∈ seen then some p.name else duplicateName (p.name :: seen) rest

def parsePipelines (docs : List (List (Value × Value))) : Except ParseFailure (List Pipeline) :=
  if docs = [] then refuse [.text "expected at least one 'pipeline:' document, found 0"]
  else do
    let pipelines ← docs.mapM (parsePipelineDoc exprError)
    match duplicateName [] pipelines with
    | some name => refuse [.text "duplicate 'pipeline:' name ",.repr (.str name),.text (" — two documents in " ++
        "one DSL text may not declare the same name (each declared name must be unique within the file)")]
    | none => return pipelines

/-- `parse_pipeline_docs`, with the schema registry as it is left. -/
def parsePipelineDocs (loaded : Except String (List Value)) (registry : SchemaRegistry) :
    Except DocsFailure (List Pipeline) × SchemaRegistry :=
  match loaded with
  | .error exc => (refuseDocs [.text ("invalid YAML: " ++ exc)],registry)
  | .ok rawDocs =>
    match readDocs exceeds registry rawDocs with
    | .error (f,registry) => (.error f,registry)
    | .ok s =>
      match parsePipelines exprError s.docs with
      | .ok pipelines => (.ok pipelines,s.registry)
      | .error f => (.error (.parse f),s.registry)

variable {exprError exceeds}

/-! ## One document -/

/-- The keys of the document cannot be sorted where the parser sorts them. -/
inductive DocMeets : Value → Prop
  | schema (doc : List (Value × Value)) (hschema : hasKey doc "schema" = true) (name : String)
      (hname : field doc "schema" = .str name) (hne : name ≠ "") (h : Mixed doc schemaKeys) : DocMeets (.dict doc)
  | neither (doc : List (Value × Value)) (hschema : hasKey doc "schema" = false) (hpipeline : hasKey doc "pipeline" = false)
      (hnone : unsupportedPipelineKeys.find? (hasKey doc) = none) (h : sortable (doc.map Prod.fst) = false) :
      DocMeets (.dict doc)

variable (exceeds) in
/-- A schema document that is well formed, and whose schema cannot be registered. -/
inductive SchemaRaises (registry : SchemaRegistry) : Value → Prop
  | intro (doc : List (Value × Value)) (hschema : hasKey doc "schema" = true) (name : String)
      (hname : field doc "schema" = .str name) (hne : name ≠ "") (hkeys : unknownKeys doc schemaKeys = [])
      (f : Value × Value) (fs : List (Value × Value)) (hfields : field doc "fields" = .dict (f :: fs))
      (failure : SchemaFailure)
      (h : (register exceeds registry name [(.str "fields",.dict (f :: fs))]).1 = .error failure) :
      SchemaRaises registry (.dict doc)

theorem DocMeets.raises {d : Value} (h : DocMeets d) (s : Reading) :
    readDoc exceeds s d = .error (.parse .unsortable,s.registry) := by
  cases h with
  | schema doc hschema name hname hne h =>
    have hreject := (rejectUnknownKeys_raises doc schemaKeys [.text "schema ",.repr (.str name)]).iff.mpr h
    simp only [readDoc,hschema,if_true,parseSchemaDoc,hname,if_neg hne,hreject]
  | neither doc hschema hpipeline hnone h => simp [readDoc,hschema,hpipeline,hnone,h]

theorem SchemaRaises.raises {registry : SchemaRegistry} {d : Value} (h : SchemaRaises exceeds registry d)
    {docs : List (List (Value × Value))} :
    ∃ failure after, readDoc exceeds ⟨registry,docs⟩ d = .error (.schema failure,after) := by
  cases h with
  | intro doc hschema name hname hne hkeys f fs hfields failure h =>
    have hreject := (@rejectUnknownKeys_ok _ _ [.text "schema ",.repr (.str name)]).mpr hkeys
    cases hregister : register exceeds registry name [(.str "fields",.dict (f :: fs))] with
    | mk outcome after =>
      rw [hregister] at h
      cases h
      refine ⟨failure,after,?_⟩
      simp only [readDoc,hschema,if_true,parseSchemaDoc,hname,if_neg hne,hreject,hfields,hregister]

variable (exprError) in
/-- The parser gets to a pipeline document with mixed unknown keys. -/
def PipelinesMeet (docs : List (List (Value × Value))) : Prop :=
  ∃ front doc rest, docs = front ++ doc :: rest ∧ (∀ x ∈ front, ∃ p, parsePipelineDoc exprError x = .ok p) ∧
    PipelineMeets exprError doc

theorem parsePipelines_raises (docs : List (List (Value × Value))) :
    Raises (parsePipelines exprError docs) (PipelinesMeet exprError docs) := by
  unfold parsePipelines
  split
  · rename_i hnil
    refine (Raises.refuse _).congr ⟨False.elim,?_⟩
    rintro ⟨front,doc,rest,heq,-⟩
    rw [hnil] at heq
    cases front <;> cases heq
  · apply (Raises.mapM fun doc _ => parsePipelineDoc_raises doc).bind_rest
    intro pipelines _
    split
    · exact .refuse _
    · exact .ok _

variable (exprError exceeds) in
/-- The parser gets to keys that it cannot sort, or to a schema that it cannot register. -/
inductive DocsMeet (registry : SchemaRegistry) (docs : List Value) : Prop
  | doc (front : List Value) (d : Value) (rest : List Value) (s : Reading) (hdocs : docs = front ++ d :: rest)
      (hfront : readDocs exceeds registry front = .ok s) (h : DocMeets d ∨ SchemaRaises exceeds s.registry d)
  | pipeline (s : Reading) (hread : readDocs exceeds registry docs = .ok s) (h : PipelinesMeet exprError s.docs)

theorem readDocs_error {registry : SchemaRegistry} {docs front rest : List Value} {d : Value} {s : Reading}
    {failure : DocsFailure × SchemaRegistry} (hdocs : docs = front ++ d :: rest)
    (hfront : readDocs exceeds registry front = .ok s) (h : readDoc exceeds s d = .error failure) :
    readDocs exceeds registry docs = .error failure :=
  foldlM_error_iff.mpr ⟨front,d,rest,s,hdocs,hfront,h⟩

theorem DocsMeet.raises {registry : SchemaRegistry} {docs : List Value} (h : DocsMeet exprError exceeds registry docs) :
    ∃ failure after, parsePipelineDocs exprError exceeds (.ok docs) registry = (.error failure,after) ∧
      ∀ message, failure ≠ .parse (.refused message) := by
  unfold parsePipelineDocs
  dsimp only
  cases h with
  | doc front d rest s hdocs hfront h =>
    rcases h with h | h
    · rw [readDocs_error hdocs hfront (h.raises s)]
      exact ⟨_,_,rfl,nofun⟩
    · obtain ⟨failure,after,h⟩ := h.raises
      rw [readDocs_error hdocs hfront h]
      exact ⟨_,_,rfl,nofun⟩
  | pipeline s hread h =>
    have hraises := (parsePipelines_raises s.docs).iff.mpr h
    simp only [hread,hraises]
    exact ⟨_,_,rfl,nofun⟩

end Reyn.Parser
