import Reyn.Runtime.PurgeNarrowing
import Reyn.Runtime.World

/-! # Topologies under a rewind

Every change of a topology goes through a seam: the map changes first, then the whole
configuration is appended to the log. A global rewind takes the latest active record of
each topology the log still names, and makes the map say what the record says; without an
active record the topology is dropped. A topology the log does not name is left alone.
-/
namespace Reyn
open Py

def TopologyKind.text : TopologyKind → String
  | .network => "network"
  | .team => "team"
  | .pipeline => "pipeline"

def TopologyKind.ofText? : String → Option TopologyKind
  | "network" => some .network
  | "team" => some .team
  | "pipeline" => some .pipeline
  | _ => none

@[simp] theorem TopologyKind.ofText?_text (k : TopologyKind) : TopologyKind.ofText? k.text = some k := by
  cases k <;> decide

/-- A topology as it is stored, with the text of its creation time. -/
structure TopologyConfig extends DeclaredTopology where
  createdAt : String

/-- What building a topology from a payload raises: the checks of `__post_init__`, with what
their messages quote, and a member of the payload of another type. -/
inductive TopologyError where
  | wrongType (key : String)
  | invalidKind (kind : String)
  | duplicateMembers (name : String) (members : List String)
  | bindsNonMembers (name : String) (unknown : List String)
  | leaderRequired (name : String)
  | leaderNotMember (name leader : String)
  | leaderOnlyForTeam (name : String)
  | unreadable (e : PyError)

namespace TopologyConfig

/-- `__post_init__` -/
def build (name kind : String) (members : List String) (leader : Option String) (createdAt : String)
    (profiles : List (String × String)) : Except TopologyError TopologyConfig :=
  match TopologyKind.ofText? kind with
  | none => .error (.invalidKind kind)
  | some k =>
    if hd : members.Nodup then
      if hb : ∀ p ∈ profiles, p.1 ∈ members then
        if hk : k = .team then
          match leader with
          | none => .error (.leaderRequired name)
          | some l =>
            if hl : l ∈ members then
              .ok ⟨⟨⟨name,members,profiles⟩,k,some l,hd,hb,fun _ => ⟨l,hl,rfl⟩,fun hn => absurd hk hn⟩,createdAt⟩
            else .error (.leaderNotMember name l)
        else if hl : leader = none then
          .ok ⟨⟨⟨name,members,profiles⟩,k,leader,hd,hb,fun ht => absurd ht hk,fun _ => hl⟩,createdAt⟩
        else .error (.leaderOnlyForTeam name)
      else .error (.bindsNonMembers name ((profiles.map Prod.fst).filter (· ∉ members)))
    else .error (.duplicateMembers name members)

/-- Building a topology from its own parts gives it back. -/
theorem build_self (t : TopologyConfig) :
    build t.name t.kind.text t.members t.leader t.createdAt t.profiles = .ok t := by
  obtain ⟨⟨⟨name,members,profiles⟩,kind,leader,hd,hb,hled,hunled⟩,createdAt⟩ := t
  simp only [build,TopologyKind.ofText?_text,dif_pos hd,dif_pos hb]
  by_cases hk : kind = .team
  · obtain ⟨l,hl,rfl⟩ := hled hk
    simp only [dif_pos hk,dif_pos hl]
  · simp only [dif_neg hk,dif_pos (hunled hk)]

end TopologyConfig

/-- `_topology_payload` -/
def topologyPayload (t : TopologyConfig) : Json :=
  .obj [("name",.str t.name),("kind",.str t.kind.text),("members",.arr (t.members.map .str)),
    ("leader",.ofStr? t.leader),("created_at",.str t.createdAt),
    ("profiles",.obj (t.profiles.map fun p => (p.1,.str p.2)))]

section Payload

/-- A member of a payload; an absent or an empty one is the default. -/
def payloadText (fields : List (String × Json)) (key d : String) : Except TopologyError String :=
  match fields.lookup key with
  | none => .ok d
  | some v => (v.asStr).elim (.error (.wrongType key)) .ok

def payloadTexts (fields : List (String × Json)) (key : String) : Except TopologyError (List String) :=
  match fields.lookup key with
  | none | some .null => .ok []
  | some (.arr items) => (items.mapM Json.asStr).elim (.error (.wrongType key)) .ok
  | some _ => .error (.wrongType key)

def payloadBindings (fields : List (String × Json)) (key : String) : Except TopologyError (List (String × String)) :=
  match fields.lookup key with
  | none | some .null => .ok []
  | some (.obj members) =>
    (members.mapM fun p : String × Json => p.2.asStr.map fun s => (p.1,s)).elim (.error (.wrongType key)) .ok
  | some _ => .error (.wrongType key)

def payloadLeader (fields : List (String × Json)) : Except TopologyError (Option String) :=
  match fields.lookup "leader" with
  | none | some .null => .ok none
  | some (.str l) => .ok (some l)
  | some _ => .error (.wrongType "leader")

/-- The topology a payload describes, with the defaults of the reconstruction. -/
def topologyOfPayload (name : String) (payload : Json) : Except TopologyError TopologyConfig := do
  let fields ← match payload with
    | .obj fields => pure fields
    | .null => pure []
    | _ => .error (.wrongType "topology")
  let name ← payloadText fields "name" name
  let kind ← payloadText fields "kind" "network"
  let members ← payloadTexts fields "members"
  let leader ← payloadLeader fields
  let createdAt ← payloadText fields "created_at" ""
  let profiles ← payloadBindings fields "profiles"
  TopologyConfig.build name kind members leader createdAt profiles

theorem mapM_asStr (items : List String) : (items.map Json.str).mapM Json.asStr = some items := by
  induction items with
  | nil => rfl
  | cons s rest ih =>
    rw [List.map_cons,List.mapM_cons,ih]
    rfl

theorem mapM_binding (members : List (String × String)) :
    (members.map fun p => (p.1,Json.str p.2)).mapM (fun p : String × Json => p.2.asStr.map fun s => (p.1,s)) =
      some members := by
  induction members with
  | nil => rfl
  | cons p rest ih =>
    rw [List.map_cons,List.mapM_cons,ih]
    rfl

/-- What the seam writes is what the reconstruction reads. -/
theorem topologyOfPayload_payload (name : String) (t : TopologyConfig) :
    topologyOfPayload name (topologyPayload t) = .ok t := by
  have hleader : payloadLeader [("name",.str t.name),("kind",.str t.kind.text),("members",.arr (t.members.map .str)),
      ("leader",.ofStr? t.leader),("created_at",.str t.createdAt),
      ("profiles",.obj (t.profiles.map fun p => (p.1,.str p.2)))] = .ok t.leader := by
    cases hl : t.leader <;> simp [payloadLeader,Dict.lookup_cons,Json.ofStr?]
  simp only [topologyPayload,topologyOfPayload,pure_bind,hleader]
  simp only [payloadText,payloadTexts,payloadBindings,Dict.lookup_cons,mapM_asStr,mapM_binding,Json.asStr_str,
    String.reduceEq,if_true,if_false,Option.elim_some]
  exact t.build_self

end Payload

/-- One change of a topology, as the seams record it. -/
inductive TopologyChange where
  | created (t : TopologyConfig)
  | updated (t : TopologyConfig)
  | removed

structure TopologyRecord where
  name : String
  change : TopologyChange

def topologyKinds : List String := ["topology_created","topology_updated","topology_removed"]

namespace TopologyRecord

def kind (r : TopologyRecord) : String :=
  match r.change with
  | .created _ => "topology_created"
  | .updated _ => "topology_updated"
  | .removed => "topology_removed"

/-- The configuration the topology has after the change. -/
def config (r : TopologyRecord) : Option TopologyConfig :=
  match r.change with
  | .created t | .updated t => some t
  | .removed => none

/-- The fields of `_emit_topology`. -/
def fields (r : TopologyRecord) : WalFields :=
  match r.config with
  | some t => ⟨[("name",.str r.name),("topology",topologyPayload t)],by simp,by simp⟩
  | none => ⟨[("name",.str r.name)],by simp,by simp⟩

theorem kind_mem (r : TopologyRecord) : r.kind ∈ topologyKinds := by
  unfold kind topologyKinds
  split <;> simp

theorem kind_ne_rewind (r : TopologyRecord) : r.kind ≠ "rewind" := by
  intro h
  have := r.kind_mem
  rw [h] at this
  simp [topologyKinds] at this

theorem lookup_fields (r : TopologyRecord) {k : String} (hn : k ≠ "name") (ht : k ≠ "topology") :
    r.fields.items.lookup k = none := by
  unfold fields
  split <;> simp [Dict.lookup_cons,hn,ht]

theorem lookup_name (r : TopologyRecord) : r.fields.items.lookup "name" = some (.str r.name) := by
  unfold fields
  split <;> simp

def registryRecord (r : TopologyRecord) : RegistryRecord :=
  ⟨r.kind,r.fields,r.kind_ne_rewind,r.lookup_fields (by simp) (by simp),r.lookup_fields (by simp) (by simp)⟩

end TopologyRecord

/-- A lifecycle event of a topology as the scan of the log keeps it: the payload of a removal
is not read. -/
structure TopologyEvent where
  seq : ℕ
  kind : String
  payload : Json

def topologyEvent? (e : Event) : Option (String × TopologyEvent) := do
  let kind ← e.kind.asStr
  if kind ∈ topologyKinds then
    let name ← (e.get? "name") >>= Json.asStr
    let seq ← e.seq?
    return (name,⟨seq.toNat,kind,if kind = "topology_removed" then .null else e.getD "topology" .null⟩)
  else none

/-- `events.setdefault(name, []).append(event)` -/
def addTopologyEvent (events : Dict String (List TopologyEvent)) (p : String × TopologyEvent) :
    Dict String (List TopologyEvent) :=
  events.set p.1 ((events.get? p.1).getD [] ++ [p.2])

/-- `_topology_lifecycle` -/
def topologyLifecycle (wal : List Event) : Dict String (List TopologyEvent) :=
  (wal.filterMap topologyEvent?).foldl addTopologyEvent .empty

/-- The latest of the active events. -/
def latestActive (isActive : ℕ → Bool) (events : List TopologyEvent) : Option TopologyEvent :=
  (events.filter fun e => isActive e.seq).argmax (·.seq)

/-- What the reconciliation does to one topology. -/
def reconcileTopology (isActive : ℕ → Bool) (topologies : Dict String TopologyConfig) (name : String)
    (events : List TopologyEvent) : Except TopologyError (Dict String TopologyConfig) :=
  match latestActive isActive events with
  | none => .ok (topologies.pop name)
  | some latest =>
    if latest.kind = "topology_removed" then .ok (topologies.pop name)
    else (topologyOfPayload name latest.payload).map (topologies.set name)

/-- `_reconcile_topologies_as_of_cut`, with a log; the files follow the map. -/
def reconcileTopologiesAsOfCut (topologies : Dict String TopologyConfig) (wal : List Event) :
    Except TopologyError (Dict String TopologyConfig) :=
  match buildActivePredicate wal none with
  | .error e => .error (.unreadable e)
  | .ok isActive =>
    (topologyLifecycle wal).items.foldlM (fun ts p => reconcileTopology isActive ts p.1 p.2) topologies

section Seams

/-- `_validate_topology_name`; the `$` of the pattern lets one line feed stand at the end. -/
def validTopologyName (name : String) : Bool :=
  let cs := name.toList
  let body := if cs.getLast? = some '\n' then cs.dropLast else cs
  let start := fun c : Char => ('a' ≤ c && c ≤ 'z') || ('0' ≤ c && c ≤ '9')
  match body with
  | [] => false
  | c :: rest => name ≠ "default" && start c && rest.all (fun c => start c || c = '_' || c = '-') && rest.length ≤ 31

namespace TopologyConfig
variable (t : TopologyConfig) (agent : String)

/-- `with_member_added` -/
def withMemberAdded (h : agent ∉ t.members) : TopologyConfig where
  name := t.name
  members := t.members ++ [agent]
  profiles := t.profiles
  kind := t.kind
  leader := t.leader
  distinct := t.distinct.append (List.nodup_singleton agent) (by simpa using h)
  bound p hp := List.mem_append_left _ (t.bound p hp)
  led hk := by
    obtain ⟨l,hl,he⟩ := t.led hk
    exact ⟨l,List.mem_append_left _ hl,he⟩
  unled := t.unled
  createdAt := t.createdAt

/-- `with_member_removed`, for a member that does not lead the team. -/
def withMemberRemoved (h : t.ledBy agent = false) : TopologyConfig := ⟨t.toDeclaredTopology.without agent h,t.createdAt⟩

/-- What the removal of an agent leaves of a topology it is a member of. -/
def cascaded : Option TopologyConfig := (t.toDeclaredTopology.cascade agent).map fun d => ⟨d,t.createdAt⟩

end TopologyConfig

/-- The map after a change. -/
def applyChange (topologies : Dict String TopologyConfig) (r : TopologyRecord) : Dict String TopologyConfig :=
  match r.config with
  | some t => topologies.set r.name t
  | none => topologies.pop r.name

/-- The changes `_cascade_agent_removal` makes, and hands to its caller to record. -/
def cascadeChanges (topologies : Dict String TopologyConfig) (agent : String) : List TopologyRecord :=
  (topologies.items.filter fun p => agent ∈ p.2.members).map fun p =>
    ⟨p.1,match p.2.cascaded agent with
      | some t => .updated t
      | none => .removed⟩

end Seams

/-- The log and the sessions with the map of the topologies. A caller of the cascade records its
changes one by one: the ones still to be recorded are `due`. -/
structure TopologyWorld where
  world : World
  topologies : Dict String TopologyConfig
  due : List TopologyRecord

inductive TopologyAction where
  | createTopology (t : TopologyConfig)
  | addTopologyMember (name agent : String)
  | removeTopologyMember (name agent : String)
  | deleteTopology (name : String)
  | cascadeAgentRemoval (agent : String)
  | emit (index : ℕ)
  | system (a : Action)

namespace TopologyWorld

/-- The first state of a process that finds these topologies on disk. -/
def start (topologies : Dict String TopologyConfig) : TopologyWorld := ⟨.init,topologies,[]⟩

/-- `_emit_topology`: hand the record to the worker. -/
def emitTopology (w : World) (r : TopologyRecord) : World :=
  { w with queue := w.queue ++ [.registryAppend r.registryRecord] }

variable (s : TopologyWorld)

/-- A seam: the map changes, and the change is recorded. -/
def seam (key : String) (r : TopologyRecord) : TopologyWorld :=
  { s with topologies := applyChange s.topologies ⟨key,r.change⟩, world := emitTopology s.world r }

/-- The rest of a checkout. A rewind of one session leaves the topologies alone. -/
def checkout (ts : String) : Option TopologyWorld :=
  (s.world.checkout ts).bind fun w =>
    match s.world.admitted with
    | some (_,none) => (reconcileTopologiesAsOfCut s.topologies (w.wal.map (·.event))).toOption.map fun topologies =>
      { s with world := w, topologies := topologies }
    | _ => some { s with world := w }

/-- Whether the members a call names are agents is not asked. Nobody but the seams writes a
record of a topology. -/
def step (cfg : Config) (s : TopologyWorld) : TopologyAction → Option TopologyWorld
  | .createTopology t =>
    if validTopologyName t.name ∧ s.topologies.get? t.name = none then some (s.seam t.name ⟨t.name,.created t⟩)
    else none
  | .addTopologyMember name agent =>
    (s.topologies.get? name).bind fun t =>
      if h : agent ∉ t.members then some (s.seam name ⟨t.name,.updated (t.withMemberAdded agent h)⟩) else none
  | .removeTopologyMember name agent =>
    (s.topologies.get? name).bind fun t =>
      if h : agent ∈ t.members ∧ t.ledBy agent = false then
        some (s.seam name ⟨t.name,.updated (t.withMemberRemoved agent h.2)⟩)
      else none
  | .deleteTopology name =>
    (s.topologies.get? name).map fun _ => s.seam name ⟨name,.removed⟩
  | .cascadeAgentRemoval agent =>
    let changes := cascadeChanges s.topologies agent
    some { s with topologies := changes.foldl applyChange s.topologies, due := s.due ++ changes }
  | .emit index =>
    (s.due[index]?).map fun r => { s with world := emitTopology s.world r, due := s.due.eraseIdx index }
  | .system (.record r) =>
    if r.kind ∈ topologyKinds then none else (s.world.step cfg (.record r)).map fun w => { s with world := w }
  | .system (.checkout ts) => s.checkout ts
  | .system a => (s.world.step cfg a).map fun w => { s with world := w }

end TopologyWorld
end Reyn
