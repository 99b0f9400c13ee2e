import Reyn.Runtime.NoEscalation
import Reyn.Runtime.AgentLifecycle

/-! # Purging an agent

A purge takes three things from the survivors at once: the teams the agent led go with
their bindings, the agent leaves every other topology, and the edges of its children
point to an identity no directory has. The floor stands in for a parent that is gone.
-/
namespace Reyn
open Py

inductive TopologyKind where
  | network
  | team
  | pipeline
  deriving DecidableEq

/-- A topology as it is declared: distinct members, profiles for members only, and a leader
exactly for a team. -/
structure DeclaredTopology extends Topology where
  kind : TopologyKind
  leader : Option String
  distinct : members.Nodup
  bound : ∀ p ∈ profiles, p.1 ∈ members
  led : kind = .team → ∃ l ∈ members, leader = some l
  unled : kind ≠ .team → leader = none

/-- The registry with its declared topologies. -/
structure TopologyRegistry extends Registry where
  declared : List DeclaredTopology
  topologies_eq : topologies = declared.map (·.toTopology)

namespace DeclaredTopology
variable (t : DeclaredTopology) (agent : String)

/-- A team that loses its leader. -/
def ledBy : Bool := t.kind = .team && t.leader = some agent

/-- The topology without a member that is not its leader. -/
def without (h : t.ledBy agent = false) : DeclaredTopology where
  name := t.name
  members := t.members.filter (· ≠ agent)
  profiles := t.profiles.filter (·.1 ≠ agent)
  kind := t.kind
  leader := t.leader
  distinct := t.distinct.filter _
  bound p hp := by
    obtain ⟨hmem,hne⟩ := List.mem_filter.mp hp
    exact List.mem_filter.mpr ⟨t.bound p hmem,hne⟩
  led hk := by
    obtain ⟨l,hl,he⟩ := t.led hk
    refine ⟨l,List.mem_filter.mpr ⟨hl,?_⟩,he⟩
    have : l ≠ agent := by
      rintro rfl
      simp [ledBy,hk,he] at h
    simpa using this
  unled := t.unled

/-- `_cascade_agent_removal`, for one topology. -/
def cascade : Option DeclaredTopology :=
  if agent ∉ t.members then some t
  else if h : t.ledBy agent = true then none
  else
    let shrunk := t.without agent (Bool.eq_false_iff.mpr h)
    if shrunk.members.isEmpty then none else some shrunk

end DeclaredTopology

namespace TopologyRegistry

/-- `remove(agent, purge=True)`: the directory, the edges of the children, the topologies. -/
def purge (T : TopologyRegistry) (agent : String) : TopologyRegistry where
  topologies := (T.declared.filterMap (·.cascade agent)).map (·.toTopology)
  profileFile := T.profileFile
  sessionConfig name sid := if name = agent then .absent else T.sessionConfig name sid
  delegationCapabilityDefault := T.delegationCapabilityDefault
  spawnLineage :=
    { edge := fun child => (T.spawnLineage.edge child).map fun e =>
        if e.1 = agent then (e.1,some invalidatedSpawnParentIdentity) else e
      rank := T.spawnLineage.rank
      acyclic := by
        intro child parent identity h
        obtain ⟨e,he,hp⟩ := Option.map_eq_some_iff.mp h
        have hparent : e.1 = parent := by split at hp <;> exact (Prod.mk.inj hp).1
        exact T.spawnLineage.acyclic child parent e.2 (hparent ▸ he) }
  directory name := if name = agent then none else T.directory name
  constructingAsDelegate := T.constructingAsDelegate
  declared := T.declared.filterMap (·.cascade agent)
  topologies_eq := rfl

variable (T : TopologyRegistry) (agent : String)

/-- The term one topology contributes to the narrowing of a member. -/
def termFor (name : String) (t : DeclaredTopology) : Option Resolved :=
  if name ∈ t.members then
    match t.profileFor name with
    | none => none
    | some profile => if profile = "" then none else some (T.bindingTerm profile)
  else none

theorem bindingTerms_eq (name : String) : T.bindingTerms name = T.declared.filterMap (T.termFor name) := by
  rw [Registry.bindingTerms,Registry.topologiesForAgent,T.topologies_eq]
  induction T.declared with
  | nil => rfl
  | cons t rest ih =>
    rw [List.map_cons]
    by_cases h : name ∈ t.members
    · rw [List.filter_cons_of_pos (by simpa using h),List.filterMap_cons,List.filterMap_cons,ih]
      cases hp : t.profileFor name with
      | none => simp only [termFor,if_pos h,hp]
      | some profile => simp only [termFor,if_pos h,hp]
    · rw [List.filter_cons_of_neg (by simpa using h),List.filterMap_cons_none (by simp [termFor,h]),ih]

/-- The bindings a survivor keeps: those of the topologies the agent does not lead. -/
def keptTerms (name : String) : List Resolved :=
  (T.declared.filter fun t => !t.ledBy agent).filterMap (T.termFor name)

/-- The bindings that go with the teams the agent leads. -/
def ledTerms (name : String) : List Resolved :=
  (T.declared.filter (·.ledBy agent)).filterMap (T.termFor name)

theorem mem_bindingTerms (name : String) (r : Resolved) :
    r ∈ T.bindingTerms name ↔ r ∈ T.keptTerms agent name ∨ r ∈ T.ledTerms agent name := by
  simp only [bindingTerms_eq,keptTerms,ledTerms,List.mem_filterMap,List.mem_filter,Bool.not_eq_true']
  constructor
  · rintro ⟨t,ht,hr⟩
    cases hl : t.ledBy agent with
    | false => exact .inl ⟨t,⟨ht,hl⟩,hr⟩
    | true => exact .inr ⟨t,⟨ht,hl⟩,hr⟩
  · rintro (⟨t,⟨ht,-⟩,hr⟩ | ⟨t,⟨ht,-⟩,hr⟩) <;> exact ⟨t,ht,hr⟩

theorem DeclaredTopology.termFor_without (t : DeclaredTopology) (h : t.ledBy agent = false) {name : String}
    (hne : name ≠ agent) : (T.purge agent).termFor name (t.without agent h) = T.termFor name t := by
  have hmem : name ∈ t.members.filter (· ≠ agent) ↔ name ∈ t.members := by simp [hne]
  have hprofile : (t.profiles.filter (·.1 ≠ agent)).lookup name = t.profiles.lookup name := by
    rw [Dict.lookup_filter_ne,if_neg hne]
  simp only [termFor,DeclaredTopology.without,Topology.profileFor,hmem,hprofile]
  rfl

/-- A survivor's bindings after the purge. -/
theorem bindingTerms_purge {name : String} (hne : name ≠ agent) :
    (T.purge agent).bindingTerms name = T.keptTerms agent name := by
  rw [bindingTerms_eq,keptTerms]
  show (T.declared.filterMap (·.cascade agent)).filterMap ((T.purge agent).termFor name) = _
  induction T.declared with
  | nil => rfl
  | cons t rest ih =>
    by_cases hm : agent ∈ t.members
    · cases hl : t.ledBy agent with
      | true =>
        have hc : t.cascade agent = none := by simp [DeclaredTopology.cascade,hm,hl]
        rw [List.filterMap_cons_none (f := fun t : DeclaredTopology => t.cascade agent) hc,List.filter_cons_of_neg (by simp [hl]),ih]
      | false =>
        rw [List.filter_cons_of_pos (by simp [hl]),List.filterMap_cons (f := T.termFor name),
          ← DeclaredTopology.termFor_without T agent t hl hne]
        by_cases he : (t.without agent hl).members = []
        · have hc : t.cascade agent = none := by simp [DeclaredTopology.cascade,hm,hl,he]
          have hnone : (T.purge agent).termFor name (t.without agent hl) = none := by simp [termFor,he]
          rw [List.filterMap_cons_none (f := fun t : DeclaredTopology => t.cascade agent) hc,hnone,ih]
        · have hc : t.cascade agent = some (t.without agent hl) := by
            simp [DeclaredTopology.cascade,hm,hl,he]
          rw [List.filterMap_cons_some (f := fun t : DeclaredTopology => t.cascade agent) hc,List.filterMap_cons,ih]
    · have hl : t.ledBy agent = false := by
        rw [Bool.eq_false_iff]
        intro hl
        simp only [DeclaredTopology.ledBy,Bool.and_eq_true,decide_eq_true_eq] at hl
        obtain ⟨l,hmem,he⟩ := t.led hl.1
        rw [hl.2] at he
        cases he
        exact hm hmem
      have hc : t.cascade agent = some t := by simp [DeclaredTopology.cascade,hm]
      rw [List.filterMap_cons_some (f := fun t : DeclaredTopology => t.cascade agent) hc,List.filter_cons_of_pos (by simp [hl]),List.filterMap_cons,
        List.filterMap_cons,ih]
      rfl

/-- `x` is the survivor or one of its live ancestors below the agent. -/
inductive ChainBelow : String → String → Prop
  | self (name : String) : ChainBelow name name
  | up {child parent x : String} : T.LiveEdge child parent → parent ≠ agent → ChainBelow parent x →
      ChainBelow child x

section Chain
variable {T agent}

theorem ChainBelow.ne {b x : String} (h : T.ChainBelow agent b x) (hb : b ≠ agent) : x ≠ agent := by
  induction h with
  | self => exact hb
  | up _ hne _ ih => exact ih hne

theorem ChainBelow.live {b x : String} (h : T.ChainBelow agent b x) : T.LiveChain b x := by
  induction h with
  | self => exact .self _
  | up hedge _ _ ih => exact .up hedge ih

/-- A live ancestor is below the agent, or it is the agent's. -/
theorem liveChain_split {b x : String} (h : T.LiveChain b x) (hb : b ≠ agent) :
    T.ChainBelow agent b x ∨ T.LiveChain b agent ∧ T.LiveChain agent x := by
  induction h with
  | self => exact .inl (.self _)
  | @up child parent x hedge hx ih =>
    by_cases hp : parent = agent
    · subst hp
      exact .inr ⟨.up hedge (.self _),hx⟩
    · rcases ih hp with h | ⟨ha,hx'⟩
      · exact .inl (.up hedge hp h)
      · exact .inr ⟨.up hedge ha,hx'⟩

theorem liveChain_cases {b x : String} (h : T.LiveChain b x) :
    b = x ∨ ∃ parent, T.LiveEdge b parent ∧ T.LiveChain parent x := by
  cases h with
  | self => exact .inl rfl
  | up hedge hx => exact .inr ⟨_,hedge,hx⟩

theorem LiveChain.trans {a b c : String} (h : T.LiveChain a b) (h' : T.LiveChain b c) : T.LiveChain a c := by
  induction h with
  | self => exact h'
  | up hedge _ ih => exact .up hedge (ih h')

theorem purge_edge {child parent : String} {identity : Option DirectoryIdentity}
    (h : (T.purge agent).spawnLineage.edge child = some (parent,identity)) :
    ∃ before, T.spawnLineage.edge child = some (parent,before) ∧
      ((T.purge agent).edgeDead parent identity = true ↔ parent = agent ∨ T.edgeDead parent before = true) := by
  obtain ⟨⟨p,i⟩,he,hp⟩ := Option.map_eq_some_iff.mp h
  by_cases ha : p = agent
  · subst ha
    rw [if_pos rfl] at hp
    obtain ⟨rfl,rfl⟩ := Prod.mk.inj hp
    exact ⟨i,he,by simp [Registry.edgeDead,purge]⟩
  · rw [if_neg ha] at hp
    obtain ⟨rfl,rfl⟩ := Prod.mk.inj hp
    exact ⟨i,he,by simp [Registry.edgeDead,purge,ha]⟩

theorem purge_edge_of {child parent : String} {before : Option DirectoryIdentity}
    (h : T.spawnLineage.edge child = some (parent,before)) :
    ∃ identity, (T.purge agent).spawnLineage.edge child = some (parent,identity) ∧
      ((T.purge agent).edgeDead parent identity = true ↔ parent = agent ∨ T.edgeDead parent before = true) := by
  obtain ⟨identity,he⟩ : ∃ identity, (T.purge agent).spawnLineage.edge child = some (parent,identity) := by
    show ∃ identity, (T.spawnLineage.edge child).map _ = some (parent,identity)
    rw [h,Option.map_some]
    split
    · exact ⟨_,rfl⟩
    · exact ⟨_,rfl⟩
  obtain ⟨before',hb,hdead⟩ := purge_edge he
  rw [h] at hb
  cases hb
  exact ⟨identity,he,hdead⟩

theorem purge_liveEdge {child parent : String} :
    (T.purge agent).LiveEdge child parent ↔ T.LiveEdge child parent ∧ parent ≠ agent := by
  constructor
  · rintro ⟨identity,he,hd⟩
    obtain ⟨before,hb,hdead⟩ := purge_edge he
    have hno : ¬ (parent = agent ∨ T.edgeDead parent before = true) := by
      rw [← hdead,hd]
      exact Bool.false_ne_true
    exact ⟨⟨before,hb,by simpa using fun h => hno (.inr h)⟩,fun h => hno (.inl h)⟩
  · rintro ⟨⟨before,hb,hd⟩,hne⟩
    obtain ⟨identity,he,hdead⟩ := purge_edge_of hb
    refine ⟨identity,he,?_⟩
    rw [Bool.eq_false_iff,ne_eq,hdead,hd]
    simpa using hne

theorem purge_liveChain {b x : String} : (T.purge agent).LiveChain b x ↔ T.ChainBelow agent b x := by
  constructor
  · intro h
    induction h with
    | self => exact .self _
    | up hedge _ ih =>
      obtain ⟨hlive,hne⟩ := purge_liveEdge.mp hedge
      exact .up hlive hne ih
  · intro h
    induction h with
    | self => exact .self _
    | up hedge hne _ ih => exact .up (purge_liveEdge.mpr ⟨hedge,hne⟩) ih

end Chain

/-- What the layers that stay to a survivor admit: its session configuration, the bindings kept by it and
by its live ancestors below the agent, the floor at an edge that is dead or leads to the agent, and the
floor of a delegate that has no binding left. -/
def RemainingAdmits (b : String) (sid : Option String) (p : Access) : Prop :=
  T.SessionAdmits b sid p ∧ ∀ x, T.ChainBelow agent b x →
    (∀ r ∈ T.keptTerms agent x, r.admits p) ∧
    (∀ parent identity, T.spawnLineage.edge x = some (parent,identity) →
      parent = agent ∨ T.edgeDead parent identity = true → T.delegateFloor.admits p) ∧
    (T.constructingAsDelegate = true → T.delegationCapabilityDefault = "deny" → T.keptTerms agent x = [] →
      T.delegateFloor.admits p)

/-- What the layers the purge takes away admit: the bindings of the teams the agent led, and the agent's
own narrowing when it is a live ancestor. -/
def TakenAdmits (b : String) (p : Access) : Prop :=
  (∀ x, T.ChainBelow agent b x → ∀ r ∈ T.ledTerms agent x, r.admits p) ∧
    (T.LiveChain b agent → (T.resolvedProfileFor agent none none).admits p)

variable {T agent} in
theorem admits_purge {b : String} (hb : b ≠ agent) (sid : Option String) (p : Access) :
    ((T.purge agent).resolvedProfileFor b none sid).admits p ↔ T.RemainingAdmits agent b sid p := by
  have hsession : (T.purge agent).SessionAdmits b sid p ↔ T.SessionAdmits b sid p := by
    cases sid <;> simp [Registry.SessionAdmits,Registry.sessionTerms,purge,hb]
  rw [Registry.admits_iff_chain,RemainingAdmits,hsession]
  refine and_congr_right fun _ => forall_congr' fun x => ?_
  rw [purge_liveChain]
  refine forall_congr' fun hx => ?_
  have hbind := T.bindingTerms_purge agent (hx.ne hb)
  have hunbound : (T.purge agent).Unbound x ↔ T.keptTerms agent x = [] := by rw [Registry.Unbound,hbind]
  rw [Registry.DeclaredAdmits,hbind,hunbound,and_assoc]
  refine and_congr_right fun _ => and_congr_left fun _ => ?_
  constructor
  · intro h parent before he hdead
    obtain ⟨identity,he',hiff⟩ := purge_edge_of he
    exact h parent identity he' (hiff.mpr hdead)
  · intro h parent identity he hdead
    obtain ⟨before,hb',hiff⟩ := purge_edge he
    exact h parent before hb' (hiff.mp hdead)

variable {T agent} in
theorem admits_of_remaining_taken {b : String} (hb : b ≠ agent) {sid : Option String} {p : Access}
    (hr : T.RemainingAdmits agent b sid p) (ht : T.TakenAdmits agent b p) :
    (T.resolvedProfileFor b none sid).admits p := by
  rw [Registry.admits_iff_chain]
  refine ⟨hr.1,fun x hx => ?_⟩
  rcases liveChain_split hx hb with hbelow | ⟨hagent,hx'⟩
  · obtain ⟨hkept,hdead,hfloor⟩ := hr.2 x hbelow
    refine ⟨⟨fun r hmem => ?_,fun parent identity he hd => hdead parent identity he (.inr hd)⟩,fun hc hd hu => ?_⟩
    · rcases (T.mem_bindingTerms agent x r).mp hmem with h | h
      · exact hkept r h
      · exact ht.1 x hbelow r h
    · refine hfloor hc hd ?_
      by_contra hne
      obtain ⟨r,hmem⟩ := List.exists_mem_of_ne_nil _ hne
      have : r ∈ T.bindingTerms x := (T.mem_bindingTerms agent x r).mpr (.inl hmem)
      rw [hu] at this
      cases this
  · exact ((T.admits_iff_chain agent none p).mp (ht.2 hagent)).2 x hx'

variable {T agent} in
theorem taken_of_admits {b : String} {sid : Option String} {p : Access}
    (h : (T.resolvedProfileFor b none sid).admits p) : T.TakenAdmits agent b p := by
  obtain ⟨-,hchain⟩ := (T.admits_iff_chain b sid p).mp h
  refine ⟨fun x hx r hmem => ?_,fun hagent => ?_⟩
  · exact (hchain x hx.live).1.1 r ((T.mem_bindingTerms agent x r).mpr (.inr hmem))
  · rw [Registry.admits_iff_chain]
    exact ⟨by simp [Registry.SessionAdmits,Registry.sessionTerms],fun x hx => hchain x (LiveChain.trans hagent hx)⟩

/-- Every tool and every server permitted after was permitted before. -/
def NoWider (after before : Narrowing) : Prop :=
  (∀ tool, after.permitsTool tool → before.permitsTool tool) ∧
    ∀ server, after.permitsMcp server → before.permitsMcp server

/-- A tool or a server. -/
def isGrant : Access → Prop
  | .category _ => False
  | _ => True

theorem noWider_iff (after before : Narrowing) :
    NoWider after before ↔ ∀ p, isGrant p → after.admits p → before.admits p := by
  constructor
  · rintro ⟨htool,hmcp⟩ p hp h
    cases p with
    | tool name => exact htool name h
    | mcp server => exact hmcp server h
    | category name => exact hp.elim
  · intro h
    exact ⟨fun tool => h (.tool tool) trivial,fun server => h (.mcp server) trivial⟩

/-- A purge widens no survivor exactly when every tool and every server the remaining layers admit is
admitted by the layers it takes away. -/
theorem purge_noWider_iff {b : String} (hb : b ≠ agent) (sid : Option String) :
    NoWider ((T.purge agent).resolvedProfileFor b none sid) (T.resolvedProfileFor b none sid) ↔
      ∀ p, isGrant p → T.RemainingAdmits agent b sid p → T.TakenAdmits agent b p := by
  rw [noWider_iff]
  refine forall_congr' fun p => forall_congr' fun _ => ?_
  rw [admits_purge hb]
  constructor
  · exact fun h hr => taken_of_admits (h hr)
  · exact fun h hr => admits_of_remaining_taken hb hr (h hr)

/-- A parent that a network binds to one tool, its child, and a peer. -/
def boundParent : TopologyRegistry where
  topologies := [⟨"net",["parent"],[("parent","reader")]⟩]
  profileFile name := if name = "reader" then .parsed ⟨none,some ["read_file"],[],none,[]⟩ else .absent
  sessionConfig _ _ := .absent
  delegationCapabilityDefault := "inherit"
  spawnLineage := Registry.spawnedPair.spawnLineage
  directory := Registry.spawnedPair.directory
  constructingAsDelegate := false
  declared := [{
    name := "net",members := ["parent"],profiles := [("parent","reader")],kind := .network,leader := none
    distinct := by simp,bound := by simp,led := nofun,unled := fun _ => rfl }]
  topologies_eq := rfl

theorem boundParent_edge {child parent : String} {identity : Option DirectoryIdentity}
    (h : boundParent.spawnLineage.edge child = some (parent,identity)) : child = "child" ∧ parent = "parent" := by
  by_cases hc : child = "child"
  · subst hc
    cases h
    exact ⟨rfl,rfl⟩
  · simp [boundParent,Registry.spawnedPair,hc] at h

theorem purge_noWider_peer : NoWider ((boundParent.purge "parent").resolvedProfileFor "peer" none none)
    (boundParent.resolvedProfileFor "peer" none none) := by
  refine (purge_noWider_iff boundParent "parent" (by decide) none).mpr fun p _ _ => ⟨fun x _ r hr => ?_,fun h => ?_⟩
  · simp [ledTerms,boundParent,DeclaredTopology.ledBy] at hr
  · rcases liveChain_cases h with he | ⟨parent,⟨identity,he,-⟩,-⟩
    · exact absurd he (by decide)
    · exact absurd (boundParent_edge he).1 (by decide)

/-- The parent was confined to one tool; the floor that stands in for it denies a list of others. -/
theorem purge_widens_child : ¬ ∀ (T : TopologyRegistry) (agent b : String), b ≠ agent →
    NoWider ((T.purge agent).resolvedProfileFor b none none) (T.resolvedProfileFor b none none) := by
  intro h
  have hwide := (h boundParent "parent" "child" (by decide)).1 "write_file"
  have hafter : ((boundParent.purge "parent").resolvedProfileFor "child" none none).admits (.tool "write_file") := by
    rw [admits_purge (by decide)]
    refine ⟨by simp [Registry.SessionAdmits,Registry.sessionTerms],fun x hx => ⟨?_,?_,?_⟩⟩
    · have hne := hx.ne (by decide)
      simp [keptTerms,boundParent,DeclaredTopology.ledBy,termFor,hne]
    · intro parent identity _ _
      show (resolveProfile builtinDelegateProfile).1.allowsTool "write_file"
      refine ⟨fun a ha => ?_,by decide⟩
      cases ha
    · exact fun hd => absurd hd (by simp [boundParent])
  have hbefore := hwide hafter
  have hlive : boundParent.LiveChain "child" "parent" :=
    .up ⟨some (7,none),by decide,by decide⟩ (.self _)
  have hparent := ((boundParent.admits_iff_chain "child" none (.tool "write_file")).mp hbefore).2 "parent" hlive
  have hbound := hparent.1.1 (resolveProfile ⟨none,some ["read_file"],[],none,[]⟩)
    (by rw [bindingTerms_eq]; decide)
  exact absurd (hbound.1 _ rfl) (by decide)

end TopologyRegistry
end Reyn
