import Reyn.Security.CapabilityProfile

/-! # The resolved narrowing of an agent

Every restrict-only layer composes into one narrowing: the topology bindings, the
delegate floor of an unbound delegate, the per-session configuration, and the
narrowing of the parent the agent was spawned by. The parent resolves at the agent
envelope, with the construction transient of whichever agent is being loaded.
-/
namespace Reyn

/-- A profile file: missing, not loadable, or loaded. -/
inductive ProfileFile where
  | absent
  | malformed
  | parsed (p : CapabilityProfile)
  deriving DecidableEq

structure Topology where
  name : String
  members : List String
  profiles : List (String × String)
  deriving DecidableEq

/-- The capability profile a topology binds to a member. -/
def Topology.profileFor (t : Topology) (member : String) : Option String := t.profiles.lookup member

/-- The identity of an agent directory: inode and birth time. -/
abbrev DirectoryIdentity := Int × Option ℕ

/-- The spawn edges, from a child to its parent and the parent's identity frozen at the
spawn. The edges form no cycle. -/
structure SpawnLineage where
  edge : String → Option (String × Option DirectoryIdentity)
  rank : String → ℕ
  acyclic : ∀ child parent identity, edge child = some (parent,identity) → rank parent < rank child

/-- What `resolved_profile_for` reads of the registry. -/
structure Registry where
  topologies : List Topology
  profileFile : String → ProfileFile
  sessionConfig : String → String → ProfileFile
  delegationCapabilityDefault : String
  spawnLineage : SpawnLineage
  /-- The identity of the agent's directory, when there is one. -/
  directory : String → Option DirectoryIdentity
  constructingAsDelegate : Bool

namespace Registry
variable (R : Registry)

/-- Topologies the agent belongs to; the automatic one binds no profile. -/
def topologiesForAgent (agent : String) : List Topology := R.topologies.filter (agent ∈ ·.members)

def loadDelegateProfile : CapabilityProfile :=
  match R.profileFile "_delegate" with
  | .parsed p => p
  | _ => builtinDelegateProfile

/-- The restrictive floor, as a term. -/
def delegateFloor : Resolved := resolveProfile R.loadDelegateProfile

/-- The term a binding contributes: a profile that cannot be loaded fails closed. -/
def bindingTerm (name : String) : Resolved :=
  match R.profileFile name with
  | .parsed p => resolveProfile p
  | _ => R.delegateFloor

def bindingTerms (agent : String) : List Resolved :=
  (R.topologiesForAgent agent).filterMap fun t =>
    match t.profileFor agent with
    | none => none
    | some name => if name = "" then none else some (R.bindingTerm name)

/-- The floor of a delegate no topology binds, under `capability_default: deny`. -/
def floorTerms (bindings : List Resolved) (isDelegate : Option Bool) : List Resolved :=
  if bindings.isEmpty && isDelegate.getD R.constructingAsDelegate && R.delegationCapabilityDefault == "deny" then
    [R.delegateFloor]
  else []

/-- The narrowing the spawner wrote for one session; a malformed file is skipped. -/
def sessionTerms (agent : String) (sid : Option String) : List Resolved :=
  match sid with
  | none => []
  | some sid =>
    match R.sessionConfig agent sid with
    | .parsed p => [resolveProfile p]
    | _ => []

/-- The edge points to an identity that is gone, or to no directory at all. -/
def edgeDead (parent : String) (identity : Option DirectoryIdentity) : Bool :=
  (identity.isSome && R.directory parent != identity) || (R.directory parent).isNone

def narrowingTerms : Narrowing → List Resolved
  | (none,_) => []
  | (some ctx,excluded) => [(ctx,excluded)]

/-- The composition of the layers; without a layer nothing is narrowed. -/
def effective (resolved : List Resolved) : Narrowing :=
  if resolved.isEmpty then (none,∅) else ((composeResolved resolved).map some id)

def resolvedProfileFor (agent : String) (isDelegate : Option Bool) (sid : Option String) : Narrowing :=
  let bindings := R.bindingTerms agent
  let parentTerms :=
    match h : R.spawnLineage.edge agent with
    | none => []
    | some (parent,identity) =>
      if R.edgeDead parent identity then [R.delegateFloor]
      else
        have := R.spawnLineage.acyclic agent parent identity h
        narrowingTerms (resolvedProfileFor parent none none)
  effective (bindings ++ R.floorTerms bindings isDelegate ++ R.sessionTerms agent sid ++ parentTerms)
termination_by R.spawnLineage.rank agent

/-- The narrowing an agent's session is constructed with: the transient is published for
the construction, and the factory asks without a status of its own. -/
def loadedNarrowing (agent : String) (isDelegate : Bool) (sid : Option String) : Narrowing :=
  { R with constructingAsDelegate := isDelegate }.resolvedProfileFor agent none sid

end Registry
end Reyn
