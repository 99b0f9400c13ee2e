import Reyn.Events.BranchModel
import Reyn.Runtime.ResolvedProfile
import Reyn.Runtime.SnapshotJournal

/-! # Agents and sessions under a rewind

A rewind decides from the log which agents and sessions are there. It collapses the
records of a kind to the latest for each entity and asks whether that one is on the
active branch; a purge is permanent on every branch. The spawn edges are rebuilt from
the identity generations at or below the target.
-/
namespace Reyn
open Py

/-- The parent an agent was spawned by and the identity of the parent's directory then. -/
abbrev SpawnEdge := String × Option DirectoryIdentity

/-- The identity a purge stamps on the edges of the children; no directory has it. -/
def invalidatedSpawnParentIdentity : DirectoryIdentity := (-1,none)

/-- A directory identity in JSON: the inode and the birth time, when the system has one. -/
def identityJson : Option DirectoryIdentity → Json
  | none => .null
  | some (ino,birth) => .arr [.int ino,match birth with
    | none => .null
    | some t => .int t]

def decodeIdentity : Json → Option DirectoryIdentity
  | .arr [.int ino,.null] => some (ino,none)
  | .arr [.int ino,.int birth] => some (ino,some birth.toNat)
  | _ => none

@[simp] theorem decodeIdentity_identityJson (i : Option DirectoryIdentity) : decodeIdentity (identityJson i) = i := by
  rcases i with - | ⟨ino,- | birth⟩ <;> simp [identityJson,decodeIdentity]

/-- The records of agents and sessions coming and going, as their writers build them. -/
inductive LifecycleRecord where
  | agentCreated (name : String) (parent : Option String) (parentSeq : Option DirectoryIdentity) (agentId : ℕ)
      (profile : Json)
  | agentArchived (name : String)
  | agentPurged (name : String)
  | sessionSpawned (name sid : String) (mode narrowing baseDir sandbox : Json)
  | sessionVanished (name sid : String)

namespace LifecycleRecord

def kind : LifecycleRecord → String
  | agentCreated .. => "agent_created"
  | agentArchived _ => "agent_archived"
  | agentPurged _ => "agent_purged"
  | sessionSpawned .. => "session_spawned"
  | sessionVanished .. => "session_vanished"

def fields : LifecycleRecord → WalFields
  | agentCreated name parent parentSeq agentId profile =>
    ⟨[("entity_kind",.str "agent"),("name",.str name),("sid",.str ""),("parent",.ofStr? parent),
      ("parent_seq",identityJson parentSeq),("agent_id",.int agentId),("profile",profile)],by simp,by simp⟩
  | agentArchived name | agentPurged name => ⟨[("entity_kind",.str "agent"),("name",.str name)],by simp,by simp⟩
  | sessionSpawned name sid mode narrowing baseDir sandbox =>
    ⟨[("entity_kind",.str "session"),("name",.str name),("sid",.str sid),("mode",mode),("narrowing",narrowing),
      ("base_dir",baseDir),("sandbox",sandbox)],by simp,by simp⟩
  | sessionVanished name sid =>
    ⟨[("entity_kind",.str "session"),("name",.str name),("sid",.str sid)],by simp,by simp⟩

end LifecycleRecord

/-- The records of agents and sessions coming and going. -/
def lifecycleKinds : List String :=
  ["agent_created","agent_archived","agent_purged","session_spawned","session_vanished"]

/-- The name a record carries under a key. -/
def Event.text (e : Event) (key : String) : String := ((e.get? key).bind Json.asStr).getD ""

/-- `_LIFECYCLE_CREATE_KINDS` -/
def createEventKinds : List Json := [.str "agent_created",.str "session_spawned"]

def createRecord? (e : Event) : Option ((String × String × String) × ℕ) :=
  if e.kind ∈ createEventKinds then
    e.seq?.map fun seq => ((e.text "entity_kind",e.text "name",e.text "sid"),seq.toNat)
  else none

/-- `_created_at_map`: the last create-record of each entity. -/
def createdAtMap (wal : List Event) : Dict (String × String × String) ℕ :=
  .ofList (wal.filterMap createRecord?)

def vanishRecord? (e : Event) : Option (SessionKey × ℕ) :=
  if e.kind = .str "session_vanished" then do
    let name ← (e.get? "name") >>= Json.asStr
    let sid ← (e.get? "sid") >>= Json.asStr
    let seq ← e.seq?
    return ((name,sid),seq.toNat)
  else none

/-- `_session_vanished_map`: the last vanish of each session. -/
def sessionVanishedMap (wal : List Event) : Dict SessionKey ℕ := .ofList (wal.filterMap vanishRecord?)

/-- What an `agent_created` record tells: its sequence number and the spawn edge. -/
structure AgentCreated where
  seq : ℕ
  parent : Option String
  parentSeq : Option DirectoryIdentity
  deriving DecidableEq

/-- The name and the sequence number of a record of one kind. -/
def agentRecord? (kind : String) (e : Event) : Option (String × ℕ) :=
  if e.kind = .str kind then do
    let name ← (e.get? "name") >>= Json.asStr
    let seq ← e.seq?
    return (name,seq.toNat)
  else none

def createdRecord? (e : Event) : Option (String × AgentCreated) :=
  (agentRecord? "agent_created" e).map fun p =>
    (p.1,⟨p.2,(e.get? "parent").bind Json.asStr,decodeIdentity (e.getD "parent_seq" .null)⟩)

structure AgentLifecycle where
  created : Dict String AgentCreated
  archived : Dict String ℕ
  purged : List String

/-- `_agent_lifecycle`: the last creation and the last archival of each agent, and the purged names. -/
def agentLifecycle (wal : List Event) : AgentLifecycle where
  created := .ofList (wal.filterMap createdRecord?)
  archived := .ofList (wal.filterMap (agentRecord? "agent_archived"))
  purged := (wal.filterMap (agentRecord? "agent_purged")).map Prod.fst

/-- The directory of an agent: its identity, the tombstone and the spawned sessions in it. -/
structure AgentDir where
  identity : DirectoryIdentity
  archived : Bool
  sessions : List String
  deriving DecidableEq

/-- One identity generation: the edge as it was at the spawn. -/
structure IdentityGeneration where
  name : String
  seq : ℕ
  spawnParent : Option String
  spawnParentSeq : Option DirectoryIdentity
  deriving DecidableEq

/-- The files of the identity generations. -/
abbrev AgentIdentityGenerationStore := List IdentityGeneration

namespace AgentIdentityGenerationStore

/-- `record`: a generation at the same sequence number is overwritten. -/
def record (store : AgentIdentityGenerationStore) (gen : IdentityGeneration) : AgentIdentityGenerationStore :=
  store.filter (fun g => ¬ (g.name = gen.name ∧ g.seq = gen.seq)) ++ [gen]

/-- The highest generation of a name at or below the cut. -/
def latestAtOrBelow (store : AgentIdentityGenerationStore) (name : String) (cut : ℕ) : Option IdentityGeneration :=
  ((store.filter fun g => g.name = name ∧ g.seq ≤ cut).insertionSort fun a b => a.seq ≤ b.seq).getLast?

/-- `prune_below`: of the generations of a name under the floor only the highest stays. -/
def pruneBelow (store : AgentIdentityGenerationStore) (minKeepSeq : ℕ) : AgentIdentityGenerationStore :=
  store.filter fun g => minKeepSeq ≤ g.seq ||
    store.all fun h => !(h.name = g.name && h.seq < minKeepSeq && g.seq < h.seq)

end AgentIdentityGenerationStore

/-- What the registry holds of its agents: the directories, the loaded sessions and the spawn edges.
Every agent has a main session; `sessions` and `loaded` list the spawned ones. -/
structure AgentRegistry where
  dirs : Dict String AgentDir
  loaded : List SessionKey
  spawnLineage : Dict String SpawnEdge

/-- `build_active_predicate` over reset-records read before. -/
def activeIn (records : List RewindRecord) (scope : Scope) : ℕ → Bool :=
  makeIsActive (abandonedIntervals (visibleRecords records scope))

section Materialize
variable (wal : List Event) (isActive : Scope → ℕ → Bool)

/-- Spawned on an abandoned branch, or vanished on the active one. -/
def sessionDropped (key : SessionKey) : Bool :=
  ((createdAtMap wal).get? ("session",key.1,key.2)).any (fun seq => !isActive (some key) seq) ||
    ((sessionVanishedMap wal).get? key).any fun seq => isActive (some key) seq

/-- Purged, or created on an abandoned branch. -/
def agentDropped (name : String) : Bool :=
  name ∈ (agentLifecycle wal).purged ||
    ((createdAtMap wal).get? ("agent",name,"")).any fun seq => !isActive none seq

/-- The agents a forward checkout brings back: created on the active branch, not purged, not there. -/
def rematerialised (dirs : Dict String AgentDir) : List String :=
  ((agentLifecycle wal).created.items.filter fun p =>
    !((agentLifecycle wal).purged.contains p.1) && isActive none p.2.seq && (dirs.get? p.1).isNone).map Prod.fst

/-- `_reconcile_archived_as_of_cut`, for one agent. -/
def reconcileArchived (name : String) (d : AgentDir) : AgentDir :=
  match (agentLifecycle wal).archived.get? name with
  | none => d
  | some seq => { d with archived := isActive none seq }

/-- The identity at a cut: from the generations, and from the log where there is none. -/
def identityAsOfCut (store : AgentIdentityGenerationStore) (dropCut : ℕ) (name : String) :
    Option (Option String × Option DirectoryIdentity) :=
  match store.latestAtOrBelow name dropCut with
  | some gen => some (gen.spawnParent,gen.spawnParentSeq)
  | none => (((agentLifecycle wal).created.get? name).filter (·.seq ≤ dropCut)).map fun c => (c.parent,c.parentSeq)

/-- The rebuilt edge of an agent that is there; an empty parent is none. -/
def rebuiltEdge (store : AgentIdentityGenerationStore) (dropCut : ℕ) (name : String) : Option SpawnEdge :=
  if name ∈ (agentLifecycle wal).purged then none
  else match identityAsOfCut wal store dropCut name with
    | some (some parent,identity) => if parent = "" then none else some (parent,identity)
    | _ => none

namespace AgentRegistry
variable (reg : AgentRegistry)

/-- `_discover_session_ids`, without the main one. -/
def discoverSessionIds (name : String) (d : AgentDir) : List String :=
  (d.sessions ++ (reg.loaded.filter (·.1 = name)).map Prod.snd).dedup

/-- The agents after the create and the drop pass, with their sessions and tombstones. -/
def materializeDirs (fresh : String → DirectoryIdentity) : Dict String AgentDir :=
  let present := (rematerialised wal isActive reg.dirs).foldl
    (fun dirs name => dirs.set name ⟨fresh name,false,[]⟩) reg.dirs
  (present.filterKeys fun name => !agentDropped wal isActive name).mapVal fun name d =>
    reconcileArchived wal isActive name
      { d with sessions := (reg.discoverSessionIds name d).filter fun sid => !sessionDropped wal isActive (name,sid) }

/-- The global pass: agents, sessions, tombstones and spawn edges. -/
def materializeAll (store : AgentIdentityGenerationStore) (dropCut : ℕ) (fresh : String → DirectoryIdentity) :
    AgentRegistry :=
  let dirs := reg.materializeDirs wal isActive fresh
  { dirs := dirs
    loaded := reg.loaded.filter fun key => (dirs.get? key.1).isNone || !sessionDropped wal isActive key
    spawnLineage := .ofList (dirs.keys.filterMap fun name =>
      (rebuiltEdge wal store dropCut name).map fun edge => (name,edge)) }

/-- A scoped pass touches the one session only. -/
def materializeSession (key : SessionKey) : AgentRegistry :=
  if sessionDropped wal isActive key then
    { reg with
      dirs := reg.dirs.modify key.1 fun d => { d with sessions := d.sessions.filter (· ≠ key.2) }
      loaded := reg.loaded.filter (· ≠ key) }
  else { reg with
    dirs := reg.dirs.modify key.1 fun d =>
      { d with sessions := if key.2 = "main" ∨ key.2 ∈ d.sessions then d.sessions else d.sessions ++ [key.2] } }

end AgentRegistry
end Materialize

/-- `_materialize_rewind`, for what it does to agents, sessions and spawn edges. A directory that
is made again has a fresh identity. -/
def materializeRewind (wal : List Event) (store : AgentIdentityGenerationStore) (scope : Scope) (dropCut : ℕ)
    (fresh : String → DirectoryIdentity) (reg : AgentRegistry) : Except PyError AgentRegistry := do
  let records ← rewindRecordsWithScope wal
  match scope with
  | some key => return reg.materializeSession wal (activeIn records) key
  | none => return reg.materializeAll wal (activeIn records) store dropCut fresh

end Reyn
