import Reyn.Runtime.Existence
import Reyn.Runtime.NoEscalation
import Reyn.Runtime.WorldInvariant

/-! # Spawn edges over the life of the registry

The edges live in memory. A global rewind rebuilds them from the identity generations
and the log, cut at the target of the rewind; a restart starts without edges and
rebuilds them only when the latest reset-record is a global one, with the cut of that
record. The generations outlive truncation, the records of the log do not.
-/
namespace Reyn
open Py Transition

/-- What waits at the worker. -/
inductive LifecycleJob where
  | created (name : String) (parent : Option String) (parentSeq : Option DirectoryIdentity) (agentId : ℕ) (profile : Json)
  | identity (name : String) (edge : Option SpawnEdge)
  | append (kind : String) (fields : WalFields)

/-- How an agent that is there came to be; the code keeps none of it. `record` and `generation` are where
its creation and its identity generation are, once they are written. -/
structure Origin where
  edge : Option SpawnEdge
  record : Option ℕ
  generation : Option ℕ

/-- `hist` is every entry ever appended. -/
structure LineageWorld where
  hist : Wal
  wal : List WalLine
  queue : List LifecycleJob
  store : AgentIdentityGenerationStore
  reg : AgentRegistry
  createCounter : ℕ
  origins : Dict String Origin

/-- The kinds that have an action of their own. -/
def ownKinds : List String := ["rewind","agent_created","agent_purged"]

inductive LineageAction where
  | create (name : String) (parent : Option String) (identity : DirectoryIdentity) (profile : Json)
  | append (kind : String) (fields : WalFields) (h : kind ∉ ownKinds)
  | work (ts : String)
  | purge (name ts : String)
  | rewind (target : ℕ) (scope : Scope) (ts : String) (fresh : String → DirectoryIdentity)
  | truncate (minKeepSeq : ℕ)
  | pruneIdentities (minKeepSeq : ℕ)
  | restart (fresh : String → DirectoryIdentity)

/-- The walk of the cycle guard; one longer than the number of edges repeats a name. -/
def climbsTo (lineage : Dict String SpawnEdge) (child : String) : ℕ → String → Bool
  | 0, _ => false
  | fuel + 1, cursor => cursor = child || match lineage.get? cursor with
    | none => false
    | some edge => climbsTo lineage child fuel edge.1

/-- `_record_spawn_lineage`: refused for a self-link, another parent or a cycle. -/
def recordSpawnLineage (lineage : Dict String SpawnEdge) (child parent : String) (identity : Option DirectoryIdentity) :
    Option (Dict String SpawnEdge) :=
  if child = parent then none
  else if (lineage.get? child).any (·.1 ≠ parent) then none
  else if climbsTo lineage child (lineage.items.length + 1) parent then none
  else some (lineage.set child (parent,identity))

/-- `recover_rewind_if_needed`: the latest reset-record is carried out again. -/
def recoverRewind (wal : List Event) (store : AgentIdentityGenerationStore) (fresh : String → DirectoryIdentity)
    (reg : AgentRegistry) : Except PyError AgentRegistry := do
  match ← activeRewindTargetWithScope wal with
  | none => return reg
  | some (target,none) => materializeRewind wal store none target fresh reg
  | some (target,some [.str name,.str sid]) => materializeRewind wal store (some (name,sid)) target fresh reg
  | some (_,some _) => throw (.typeError "scope")

/-- `shutil.rmtree`, and the invalidation of the edges of the children. -/
def AgentRegistry.purge (reg : AgentRegistry) (name : String) : AgentRegistry where
  dirs := reg.dirs.pop name
  loaded := reg.loaded.filter (·.1 ≠ name)
  spawnLineage := reg.spawnLineage.mapVal fun _ edge =>
    if edge.1 = name then (edge.1,some invalidatedSpawnParentIdentity) else edge

namespace LineageWorld

def init : LineageWorld := ⟨⟨[],Wal.increasing_nil⟩,[],[],[],⟨.empty,[],.empty⟩,0,.empty⟩

/-- `create_agent`: the directory comes first, then the edge, then the two jobs. A refused edge leaves
the directory behind. -/
def create (w : LineageWorld) (name : String) (parent : Option String) (identity : DirectoryIdentity) (profile : Json) :
    Option LineageWorld :=
  if name = "" ∨ parent = some "" ∨ (w.reg.dirs.get? name).isSome then none
  else
    let dirs := w.reg.dirs.set name ⟨identity,false,[]⟩
    match parent with
    | none =>
      some { w with
        reg := { w.reg with dirs := dirs }
        queue := w.queue ++ [.created name none none (w.createCounter + 1) profile,.identity name (w.reg.spawnLineage.get? name)]
        createCounter := w.createCounter + 1
        origins := w.origins.set name ⟨none,none,none⟩ }
    | some p =>
      let parentSeq := (dirs.get? p).map (·.identity)
      match recordSpawnLineage w.reg.spawnLineage name p parentSeq with
      | none =>
        some { w with
          reg := { w.reg with dirs := dirs }
          origins := w.origins.set name ⟨some (p,parentSeq),none,none⟩ }
      | some lineage =>
        some { w with
          reg := { w.reg with dirs := dirs, spawnLineage := lineage }
          queue := w.queue ++ [.created name (some p) parentSeq (w.createCounter + 1) profile,.identity name (some (p,parentSeq))]
          createCounter := w.createCounter + 1
          origins := w.origins.set name ⟨some (p,parentSeq),none,none⟩ }

/-- An append, in the history and in the file. -/
def appendLine (w : LineageWorld) (l : WalLine) (h : w.hist.head < l.seq) (rest : List LifecycleJob)
    (origins : Dict String Origin) (reg : AgentRegistry) : LineageWorld :=
  { w with hist := w.hist.snoc l h, wal := w.wal ++ [l], queue := rest, origins := origins, reg := reg }

def recordLine (w : LineageWorld) (ts : String) (r : LifecycleRecord) : WalLine :=
  r.line (w.hist.head + 1) ts (Nat.succ_pos _)

theorem lt_recordLine (w : LineageWorld) (ts : String) (r : LifecycleRecord) :
    w.hist.head < (w.recordLine ts r).seq := Nat.lt_succ_self _

def plainLine (w : LineageWorld) (ts kind : String) (fields : WalFields) (h : kind ≠ "rewind") : WalLine :=
  .ordinary (w.hist.head + 1) ts kind fields (Nat.succ_pos _) h

theorem lt_plainLine (w : LineageWorld) (ts kind : String) (fields : WalFields) (h : kind ≠ "rewind") :
    w.hist.head < (w.plainLine ts kind fields h).seq := Nat.lt_succ_self _

def resetLine (w : LineageWorld) (ts : String) (target : ℕ) (scope : Scope) (h : target < w.hist.head + 1) : WalLine :=
  .reset (w.hist.head + 1) ts target (some w.hist.head) scope h

theorem lt_resetLine (w : LineageWorld) (ts : String) (target : ℕ) (scope : Scope) (h : target < w.hist.head + 1) :
    w.hist.head < (w.resetLine ts target scope h).seq := Nat.lt_succ_self _

/-- The worker runs the first job; a generation is stamped with the number of the last append. -/
def work (w : LineageWorld) (ts : String) : Option LineageWorld :=
  match w.queue with
  | [] => none
  | .created name parent parentSeq agentId profile :: rest =>
    let r := LifecycleRecord.agentCreated name parent parentSeq agentId profile
    some (w.appendLine (w.recordLine ts r) (w.lt_recordLine ts r) rest
      (w.origins.modify name fun o => { o with record := some (w.hist.head + 1) }) w.reg)
  | .identity name edge :: rest =>
    some { w with
      queue := rest
      store := w.store.record ⟨name,w.hist.head,edge.map Prod.fst,edge.bind Prod.snd⟩
      origins := w.origins.modify name fun o => { o with generation := some w.hist.head } }
  | .append kind fields :: rest =>
    if h : kind ≠ "rewind" then
      some (w.appendLine (w.plainLine ts kind fields h) (w.lt_plainLine ts kind fields h) rest w.origins w.reg)
    else none

/-- `archive_agent(name, purge=True)`, its record awaited. -/
def purge (w : LineageWorld) (name ts : String) : Option LineageWorld :=
  if w.queue = [] ∧ (w.reg.dirs.get? name).isSome then
    some (w.appendLine (w.recordLine ts (.agentPurged name)) (w.lt_recordLine ts _) [] w.origins (w.reg.purge name))
  else none

/-- The awaited reset-record, and its materialisation. -/
def rewind (w : LineageWorld) (target : ℕ) (scope : Scope) (ts : String) (fresh : String → DirectoryIdentity) :
    Option LineageWorld :=
  if h : w.queue = [] ∧ target < w.hist.head + 1 then
    match materializeRewind ((w.wal ++ [w.resetLine ts target scope h.2]).map (·.event)) w.store scope target fresh w.reg with
    | .error _ => none
    | .ok reg =>
      some (w.appendLine (w.resetLine ts target scope h.2) (w.lt_resetLine ts target scope h.2) [] w.origins reg)
  else none

/-- A crash, and a new registry over the same directory followed by `restore_all`. -/
def restart (w : LineageWorld) (fresh : String → DirectoryIdentity) : Option LineageWorld :=
  match recoverRewind (w.wal.map (·.event)) w.store fresh ⟨w.reg.dirs,[],.empty⟩ with
  | .error _ => none
  | .ok reg => some { w with queue := [], reg := reg, createCounter := 0 }

def step (w : LineageWorld) : LineageAction → Option LineageWorld
  | .create name parent identity profile => w.create name parent identity profile
  | .append kind fields _ => some { w with queue := w.queue ++ [.append kind fields] }
  | .work ts => w.work ts
  | .purge name ts => w.purge name ts
  | .rewind target scope ts fresh => w.rewind target scope ts fresh
  | .truncate minKeepSeq => some { w with wal := doTruncate minKeepSeq w.wal }
  | .pruneIdentities minKeepSeq => some { w with store := w.store.pruneBelow minKeepSeq }
  | .restart fresh => w.restart fresh

end LineageWorld

/-- There after a global pass: not dropped, and there before or made again. -/
def survives (wal : List Event) (isActive : Scope → ℕ → Bool) (dirs : Dict String AgentDir) (name : String) : Bool :=
  !agentDropped wal isActive name && ((dirs.get? name).isSome || name ∈ rematerialised wal isActive dirs)

/-- The creation can be found at the cut: its identity generation is at or below it, or its record is in
the file at or below it and no generation of the name is. -/
def Origin.Traceable (o : Origin) (name : String) (store : AgentIdentityGenerationStore) (wal : List WalLine) (cut : ℕ) :
    Prop :=
  (∃ c, o.generation = some c ∧ c ≤ cut) ∨
    store.latestAtOrBelow name cut = none ∧ ∃ c, o.record = some c ∧ c ≤ cut ∧ ∃ l ∈ wal, l.seq = c

namespace LineageWorld

/-- Every spawned agent that survives a global pass is traceable at its cut. -/
def TracedAt (w : LineageWorld) (wal : List WalLine) (cut : ℕ) : Prop :=
  ∀ records, rewindRecordsWithScope (wal.map (·.event)) = .ok records → ∀ name o, w.origins.get? name = some o →
    o.edge.isSome → survives (wal.map (·.event)) (activeIn records) w.reg.dirs name = true →
      o.Traceable name w.store wal cut

/-- A step that loses no edge: no spawn is refused after its directory was made, global rewinds and
recoveries find the creations at their cut, and a restart that recovers no global rewind finds no
spawned agent. -/
def Traced (w : LineageWorld) : LineageAction → Prop
  | .create name (some p) identity _ =>
    recordSpawnLineage w.reg.spawnLineage name p
      (((w.reg.dirs.set name ⟨identity,false,[]⟩).get? p).map (·.identity)) ≠ none
  | .rewind target none ts _ =>
    ∀ h : target < w.hist.head + 1, w.TracedAt (w.wal ++ [w.resetLine ts target none h]) target
  | .restart _ =>
    match activeRewindTargetWithScope (w.wal.map (·.event)) with
    | .ok (some (target,none)) => w.TracedAt w.wal target
    | _ => ∀ name o, w.origins.get? name = some o → o.edge.isSome → w.reg.dirs.get? name = none
  | _ => True

/-- Every agent that is there and was created with a parent has its edge, with the identity frozen at the
spawn or the one a purge stamps. -/
def KeepsEdges (w : LineageWorld) : Prop :=
  ∀ name d, w.reg.dirs.get? name = some d → ∀ o, w.origins.get? name = some o → ∀ parent identity,
    o.edge = some (parent,identity) → w.reg.spawnLineage.get? name = some (parent,identity) ∨
      w.reg.spawnLineage.get? name = some (parent,some invalidatedSpawnParentIdentity)

/-- The newest identity generation of a name is this one. -/
def NewestGeneration (store : AgentIdentityGenerationStore) (gen : IdentityGeneration) : Prop :=
  gen ∈ store ∧ ∀ g ∈ store, g.name = gen.name → g = gen ∨ g.seq < gen.seq

/-- The last creation on record of a name is this one, and it is the entry there. -/
def LastCreation (hist : Wal) (name : String) (c : AgentCreated) : Prop :=
  c.seq ≤ hist.head ∧ (∀ l ∈ hist.lines, l.seq = c.seq → createdRecord? l.event = some (name,c)) ∧
    ∀ l ∈ hist.lines, ∀ c', createdRecord? l.event = some (name,c') → l.seq ≤ c.seq

structure OriginInv (w : LineageWorld) (name : String) (o : Origin) (parent : String) (identity : Option DirectoryIdentity) :
    Prop where
  named : parent ≠ ""
  generation : ∀ c, o.generation = some c → NewestGeneration w.store ⟨name,c,some parent,identity⟩
  record : ∀ c, o.record = some c → LastCreation w.hist name ⟨c,some parent,identity⟩
  createJob : ∀ p s a profile, LifecycleJob.created name p s a profile ∈ w.queue → p = some parent ∧ s = identity
  identityJob : ∀ edge, LifecycleJob.identity name edge ∈ w.queue → edge = some (parent,identity)

structure Inv (w : LineageWorld) : Prop where
  kept : Kept w.hist w.wal
  store : ∀ g ∈ w.store, g.seq ≤ w.hist.head
  origins : ∀ name o, w.origins.get? name = some o → ∀ parent identity, o.edge = some (parent,identity) →
    OriginInv w name o parent identity
  jobs : ∀ job ∈ w.queue, match job with
    | .created name .. => (w.reg.dirs.get? name).isSome
    | .identity name _ => (w.reg.dirs.get? name).isSome
    | .append kind _ => kind ∉ ownKinds
  edges : w.KeepsEdges

end LineageWorld

namespace AgentIdentityGenerationStore
variable {store : AgentIdentityGenerationStore} {gen : IdentityGeneration}

/-- The newest generation of a name is the latest at every cut from it on. -/
theorem latestAtOrBelow_newest (h : LineageWorld.NewestGeneration store gen) {cut : ℕ} (hc : gen.seq ≤ cut) :
    store.latestAtOrBelow gen.name cut = some gen := by
  unfold latestAtOrBelow
  set below := store.filter fun g => g.name = gen.name ∧ g.seq ≤ cut with hbelow
  have hmem : gen ∈ below := List.mem_filter.mpr ⟨h.1,by simp [hc]⟩
  have hsorted := List.pairwise_insertionSort (fun a b : IdentityGeneration => a.seq ≤ b.seq) below
  have hin : gen ∈ below.insertionSort fun a b => a.seq ≤ b.seq := (List.mem_insertionSort _).mpr hmem
  obtain ⟨front,last,hlist⟩ := (List.eq_nil_or_concat (below.insertionSort fun a b => a.seq ≤ b.seq)).resolve_left
    (List.ne_nil_of_mem hin)
  rw [List.concat_eq_append] at hlist
  rw [hlist] at hin hsorted ⊢
  have hlast : last ∈ below := (List.mem_insertionSort (fun a b : IdentityGeneration => a.seq ≤ b.seq)).mp (by simp [hlist])
  have hname := (List.mem_filter.mp hlast).2
  simp only [Bool.decide_and,Bool.and_eq_true,decide_eq_true_eq] at hname
  rw [List.getLast?_append_of_ne_nil _ (by simp),List.getLast?_singleton]
  rcases h.2 last (List.mem_of_mem_filter hlast) hname.1 with he | hlt
  · rw [he]
  · rcases List.mem_append.mp hin with hf | hf
    · have := (List.pairwise_append.mp hsorted).2.2 gen hf last (List.mem_singleton_self _)
      omega
    · rw [List.mem_singleton.mp hf]

theorem newest_record_other (h : LineageWorld.NewestGeneration store gen) {new : IdentityGeneration}
    (hne : new.name ≠ gen.name) : LineageWorld.NewestGeneration (store.record new) gen := by
  refine ⟨List.mem_append_left _ (List.mem_filter.mpr ⟨h.1,?_⟩),fun g hg hname => ?_⟩
  · have : gen.name ≠ new.name := fun hc => hne hc.symm
    simp [this]
  · rcases List.mem_append.mp hg with hg | hg
    · exact h.2 g (List.mem_of_mem_filter hg) hname
    · rw [List.mem_singleton.mp hg] at hname
      exact absurd hname hne

/-- A generation stamped with the head is the newest. -/
theorem newest_record_self {new : IdentityGeneration} (h : ∀ g ∈ store, g.seq ≤ new.seq) :
    LineageWorld.NewestGeneration (store.record new) new := by
  refine ⟨List.mem_append_right _ (List.mem_singleton_self _),fun g hg hname => ?_⟩
  rcases List.mem_append.mp hg with hg | hg
  · obtain ⟨hmem,hp⟩ := List.mem_filter.mp hg
    have hseq : g.seq ≠ new.seq := fun hs => by simp [hname,hs] at hp
    have := h g hmem
    exact .inr (by omega)
  · exact .inl (List.mem_singleton.mp hg)

theorem newest_pruneBelow (h : LineageWorld.NewestGeneration store gen) (minKeepSeq : ℕ) :
    LineageWorld.NewestGeneration (store.pruneBelow minKeepSeq) gen := by
  refine ⟨List.mem_filter.mpr ⟨h.1,?_⟩,fun g hg => h.2 g (List.mem_of_mem_filter hg)⟩
  rw [Bool.or_eq_true]
  right
  rw [List.all_eq_true]
  intro g hg
  by_cases hname : g.name = gen.name
  · rcases h.2 g hg hname with rfl | hlt
    · simp
    · have : ¬ gen.seq < g.seq := by omega
      simp [this]
  · simp [hname]

end AgentIdentityGenerationStore

section Record
variable {e : Event} {name : String} {c : AgentCreated}

theorem createdRecord?_kind (h : createdRecord? e = some (name,c)) : e.kind = .str "agent_created" := by
  obtain ⟨p,hp,-⟩ := Option.map_eq_some_iff.mp h
  unfold agentRecord? at hp
  split at hp
  · assumption
  · cases hp

theorem createdRecord?_agentCreated (seq : ℕ) (ts name : String) (parent : Option String)
    (parentSeq : Option DirectoryIdentity) (agentId : ℕ) (profile : Json) :
    createdRecord? (walEntry seq ts "agent_created"
      (LifecycleRecord.agentCreated name parent parentSeq agentId profile).fields) =
        some (name,⟨seq,parent,parentSeq⟩) := by
  have hparent : (Json.ofStr? parent).asStr = parent := by cases parent <;> rfl
  simp [createdRecord?,agentRecord?,walEntry_get?,walEntry_getD,LifecycleRecord.fields,Dict.lookup_cons,hparent]

/-- A creation is on record with its own sequence number. -/
theorem WalLine.createdRecord?_seq {l : WalLine} (h : createdRecord? l.event = some (name,c)) : c.seq = l.seq := by
  obtain ⟨⟨n,seq⟩,hr,hp⟩ := Option.map_eq_some_iff.mp h
  obtain ⟨rfl,rfl⟩ := Prod.mk.inj hp
  unfold agentRecord? at hr
  split at hr
  · obtain ⟨n',hn,hr⟩ := Option.bind_eq_some_iff.mp hr
    obtain ⟨i,hi,hr⟩ := Option.bind_eq_some_iff.mp hr
    rw [l.stamped] at hi
    cases hi
    obtain ⟨-,rfl⟩ := Prod.mk.inj (Option.some.inj hr)
    rfl
  · cases hr

theorem WalLine.ofAgent_of_created {l : WalLine} (h : createdRecord? l.event = some (name,c)) :
    l.ofAgent "agent_created" name = true := by
  obtain ⟨⟨n,seq⟩,hr,hp⟩ := Option.map_eq_some_iff.mp h
  obtain ⟨rfl,-⟩ := Prod.mk.inj hp
  by_contra hno
  exact WalLine.agentRecord?_ne_some (Bool.eq_false_iff.mpr hno) seq hr

end Record

namespace LineageWorld

section LastCreation
variable {hist : Wal} {name : String} {c : AgentCreated} {l : WalLine}

theorem LastCreation.snoc (h : LastCreation hist name c) (hl : hist.head < l.seq) (hn : ∀ c', createdRecord? l.event ≠ some (name,c')) :
    LastCreation (hist.snoc l hl) name c := by
  obtain ⟨hle,hat,hlast⟩ := h
  refine ⟨?_,fun a ha hs => ?_,fun a ha c' hc => ?_⟩
  · rw [Wal.snoc_head]
    omega
  · rcases List.mem_append.mp ha with ha | ha
    · exact hat a ha hs
    · rw [List.mem_singleton.mp ha] at hs
      omega
  · rcases List.mem_append.mp ha with ha | ha
    · exact hlast a ha c' hc
    · rw [List.mem_singleton.mp ha] at hc
      exact absurd hc (hn c')

theorem LastCreation.snoc_self (hl : hist.head < l.seq) (hc : createdRecord? l.event = some (name,c)) :
    LastCreation (hist.snoc l hl) name c := by
  have hseq := WalLine.createdRecord?_seq hc
  refine ⟨by rw [Wal.snoc_head,hseq],fun a ha hs => ?_,fun a ha _ _ => ?_⟩
  · rcases List.mem_append.mp ha with ha | ha
    · have := hist.seq_le_head ha
      omega
    · rw [List.mem_singleton.mp ha]
      exact hc
  · rcases List.mem_append.mp ha with ha | ha
    · have := hist.seq_le_head ha
      omega
    · rw [List.mem_singleton.mp ha,hseq]

/-- What the file says of an agent whose last creation is still in it. -/
theorem LastCreation.created {wal : List WalLine} (h : LastCreation hist name c) (hk : Kept hist wal)
    (hin : ∃ l ∈ wal, l.seq = c.seq) : (agentLifecycle (wal.map (·.event))).created.get? name = some c := by
  obtain ⟨l₀,hmem,hseq⟩ := hin
  have hrec := h.2.1 l₀ (hk.sub.subset hmem) hseq
  let file : Wal := ⟨wal,hk.increasing⟩
  have hget := file.createdLast name
  have hfilter : l₀ ∈ wal.filter (·.ofAgent "agent_created" name) :=
    List.mem_filter.mpr ⟨hmem,WalLine.ofAgent_of_created hrec⟩
  cases hx : (wal.filter (·.ofAgent "agent_created" name)).getLast? with
  | none =>
    rw [List.getLast?_eq_none_iff.mp hx] at hfilter
    cases hfilter
  | some x =>
    have hxin := List.mem_filter.mp (List.mem_of_getLast? hx)
    have hxrec : createdRecord? x.event = some (name,⟨x.seq,(x.event.get? "parent").bind Json.asStr,
        decodeIdentity (x.event.getD "parent_seq" .null)⟩) := by
      simp [createdRecord?,WalLine.agentRecord?_eq_some hxin.2]
    have hle := h.2.2 x (hk.sub.subset hxin.1) _ hxrec
    have hsame : l₀ = x := by
      rcases KeyedLog.eq_or_lt_getLast (hk.increasing.sublist List.filter_sublist) hx hfilter with he | hlt
      · exact he
      · omega
    subst hsame
    rw [hrec] at hxrec
    obtain ⟨-,hcx⟩ := Prod.mk.inj (Option.some.inj hxrec)
    refine hget.trans ?_
    show ((wal.filter (·.ofAgent "agent_created" name)).getLast?).map _ = _
    rw [hx,hcx]
    rfl

end LastCreation

theorem identityAsOfCut_of_traceable {w : LineageWorld} {name : String} {o : Origin} {parent : String}
    {identity : Option DirectoryIdentity} (ho : OriginInv w name o parent identity) {hist : Wal} {wal : List WalLine}
    {cut : ℕ} (hk : Kept hist wal) (hrec : ∀ c, o.record = some c → LastCreation hist name ⟨c,some parent,identity⟩)
    (ht : o.Traceable name w.store wal cut) :
    identityAsOfCut (wal.map (·.event)) w.store cut name = some (some parent,identity) := by
  rw [identityAsOfCut]
  rcases ht with ⟨c,hc,hle⟩ | ⟨hnone,c,hc,hle,hin⟩
  · have := AgentIdentityGenerationStore.latestAtOrBelow_newest (ho.generation c hc) hle
    simp only at this
    rw [this]
  · have hcreated := (hrec c hc).created hk hin
    rw [hnone,hcreated]
    simp [hle]

section Materialize
variable {wal : List Event} {isActive : Scope → ℕ → Bool} {reg : AgentRegistry} {fresh : String → DirectoryIdentity}
  {store : AgentIdentityGenerationStore} {cut : ℕ} {name : String}

theorem survives_of_materializeDirs {d : AgentDir} (h : (reg.materializeDirs wal isActive fresh).get? name = some d) :
    survives wal isActive reg.dirs name = true := by
  rw [AgentRegistry.materializeDirs_get?] at h
  split at h
  · cases h
  · rename_i hdrop
    obtain ⟨d',hd',-⟩ := Option.map_eq_some_iff.mp h
    rw [survives,Bool.and_eq_true,Bool.or_eq_true]
    refine ⟨by simpa using hdrop,?_⟩
    split at hd'
    · rename_i hre
      exact .inr (by simpa using hre)
    · exact .inl (by rw [hd']; rfl)

/-- The rebuilt edge of an agent that is there. -/
theorem materializeAll_edge {d : AgentDir} (h : (reg.materializeAll wal isActive store cut fresh).dirs.get? name = some d)
    {edge : SpawnEdge} (he : rebuiltEdge wal store cut name = some edge) :
    (reg.materializeAll wal isActive store cut fresh).spawnLineage.get? name = some edge := by
  have hkey : name ∈ (reg.materializeDirs wal isActive fresh).keys := Dict.mem_keys_iff.mpr ⟨d,h⟩
  rw [AgentRegistry.materializeAll]
  have hget := Dict.get?_ofList_filterMap (reg.materializeDirs wal isActive fresh).keys
    (fun name => (rebuiltEdge wal store cut name).map fun edge => (name,edge)) name (fun n => n = name)
    (fun _ => edge) (fun n _ hn => ?_) fun n _ hn v hv => ?_
  · refine hget.trans ?_
    have hmem : name ∈ (reg.materializeDirs wal isActive fresh).keys.filter fun n => n = name :=
      List.mem_filter.mpr ⟨hkey,by simp⟩
    rw [List.getLast?_eq_some_getLast (List.ne_nil_of_mem hmem)]
    rfl
  · obtain rfl : n = name := by simpa using hn
    simp [he]
  · obtain ⟨e,-,hp⟩ := Option.map_eq_some_iff.mp hv
    exact absurd (Prod.mk.inj hp).1 (by simpa using hn)

end Materialize

section Step
variable {w w' : LineageWorld} {name : String} {o : Origin} {parent : String} {identity : Option DirectoryIdentity}

/-- What an append of another entry leaves of a creation. -/
theorem OriginInv.appendLine (h : OriginInv w name o parent identity) {l : WalLine} {hl : w.hist.head < l.seq}
    {rest : List LifecycleJob} {origins : Dict String Origin} {reg : AgentRegistry}
    (hn : ∀ c', createdRecord? l.event ≠ some (name,c')) (hq : ∀ job ∈ rest, job ∈ w.queue) :
    OriginInv (w.appendLine l hl rest origins reg) name o parent identity where
  named := h.named
  generation := h.generation
  record c hc := (h.record c hc).snoc hl hn
  createJob p s a profile hj := h.createJob p s a profile (hq _ hj)
  identityJob edge hj := h.identityJob edge (hq _ hj)

theorem KeepsEdges.of_reg (h : w.KeepsEdges) (hdirs : ∀ name, (w'.reg.dirs.get? name).isSome → (w.reg.dirs.get? name).isSome)
    (hl : w'.reg.spawnLineage = w.reg.spawnLineage)
    (ho : ∀ name o', w'.origins.get? name = some o' → ∃ o, w.origins.get? name = some o ∧ o.edge = o'.edge) :
    w'.KeepsEdges := by
  intro name d hd o' ho' parent identity he
  obtain ⟨d',hd'⟩ := Option.isSome_iff_exists.mp (hdirs name (by rw [hd]; rfl))
  obtain ⟨o,hor,heq⟩ := ho name o' ho'
  rw [hl]
  exact h name d' hd' o hor parent identity (heq.trans he)

theorem store_snoc {l : WalLine} (h : ∀ g ∈ w.store, g.seq ≤ w.hist.head) (hl : w.hist.head < l.seq) :
    ∀ g ∈ w.store, g.seq ≤ (w.hist.snoc l hl).head := by
  intro g hg
  have := h g hg
  rw [Wal.snoc_head]
  omega

theorem not_created_of_kind {e : Event} {kind : String} (hk : e.kind = .str kind) (hne : kind ≠ "agent_created")
    (name : String) (c' : AgentCreated) : createdRecord? e ≠ some (name,c') := by
  intro h
  have := createdRecord?_kind h
  rw [hk] at this
  simp [hne] at this

theorem Inv.work {ts : String} (h : w.Inv) (hw : w.work ts = some w') : w'.Inv := by
  unfold LineageWorld.work at hw
  split at hw
  · cases hw
  · rename_i name p s a profile rest hq
    cases hw
    have hrest : ∀ job ∈ rest, job ∈ w.queue := fun _ hj => hq ▸ List.mem_cons_of_mem _ hj
    have hcreated := createdRecord?_agentCreated (w.hist.head + 1) ts name p s a profile
    refine ⟨h.kept.snoc (w.lt_recordLine ts _),store_snoc h.store (w.lt_recordLine ts _),fun n o' ho' parent identity he => ?_,
      fun job hj => h.jobs job (hrest job hj),h.edges.of_reg (fun _ hd => hd) rfl fun n o' ho' => ?_⟩
    · obtain ⟨o,ho,⟨rfl,rfl⟩ | ⟨hne,rfl⟩⟩ := Dict.modify_cases ho'
      · have hi := h.origins n o ho parent identity he
        obtain ⟨rfl,rfl⟩ := hi.createJob p s a profile (hq ▸ List.mem_cons_self)
        refine ⟨hi.named,hi.generation,fun c hc => ?_,fun p s a profile hj => hi.createJob p s a profile (hrest _ hj),
          fun edge hj => hi.identityJob edge (hrest _ hj)⟩
        cases hc
        exact LastCreation.snoc_self (w.lt_recordLine ts _) hcreated
      · refine (h.origins n o' ho parent identity he).appendLine (fun c' hc => ?_) hrest
        rw [show (w.recordLine ts _).event = _ from rfl] at hc
        exact hne (Prod.mk.inj (Option.some.inj (hcreated.symm.trans hc))).1.symm
    · obtain ⟨o,ho,⟨rfl,rfl⟩ | ⟨-,rfl⟩⟩ := Dict.modify_cases ho'
      · exact ⟨o,ho,rfl⟩
      · exact ⟨o',ho,rfl⟩
  · rename_i name edge rest hq
    cases hw
    have hrest : ∀ job ∈ rest, job ∈ w.queue := fun _ hj => hq ▸ List.mem_cons_of_mem _ hj
    refine ⟨h.kept,fun g hg => ?_,fun n o' ho' parent identity he => ?_,fun job hj => h.jobs job (hrest job hj),
      h.edges.of_reg (fun _ hd => hd) rfl fun n o' ho' => ?_⟩
    · rcases List.mem_append.mp hg with hg | hg
      · exact h.store g (List.mem_of_mem_filter hg)
      · rw [List.mem_singleton.mp hg]
    · obtain ⟨o,ho,⟨rfl,rfl⟩ | ⟨hne,rfl⟩⟩ := Dict.modify_cases ho'
      · have hi := h.origins n o ho parent identity he
        obtain rfl := hi.identityJob edge (hq ▸ List.mem_cons_self)
        refine ⟨hi.named,fun c hc => ?_,hi.record,fun p s a profile hj => hi.createJob p s a profile (hrest _ hj),
          fun edge hj => hi.identityJob edge (hrest _ hj)⟩
        cases hc
        exact AgentIdentityGenerationStore.newest_record_self h.store
      · have hi := h.origins n o' ho parent identity he
        exact ⟨hi.named,fun c hc => AgentIdentityGenerationStore.newest_record_other (hi.generation c hc) (Ne.symm hne),
          hi.record,fun p s a profile hj => hi.createJob p s a profile (hrest _ hj),
          fun edge hj => hi.identityJob edge (hrest _ hj)⟩
    · obtain ⟨o,ho,⟨rfl,rfl⟩ | ⟨-,rfl⟩⟩ := Dict.modify_cases ho'
      · exact ⟨o,ho,rfl⟩
      · exact ⟨o',ho,rfl⟩
  · rename_i kind fields rest hq
    have hrest : ∀ job ∈ rest, job ∈ w.queue := fun _ hj => hq ▸ List.mem_cons_of_mem _ hj
    have hkind : kind ∉ ownKinds := h.jobs _ (hq ▸ List.mem_cons_self)
    split at hw
    · rename_i hk
      cases hw
      have hne : kind ≠ "agent_created" := fun he => hkind (by simp [he,ownKinds])
      refine ⟨h.kept.snoc (w.lt_plainLine ts _ _ hk),store_snoc h.store (w.lt_plainLine ts _ _ hk),fun n o ho parent identity he => ?_,
        fun job hj => h.jobs job (hrest job hj),h.edges.of_reg (fun _ hd => hd) rfl fun n o ho => ⟨o,ho,rfl⟩⟩
      exact (h.origins n o ho parent identity he).appendLine
        (fun c' => not_created_of_kind (walEntry_kind _ _ _ _) hne n c') hrest
    · cases hw

/-- An append that is no creation, with nothing left at the worker. -/
theorem Inv.appendLine (h : w.Inv) {l : WalLine} (hl : w.hist.head < l.seq)
    (hn : ∀ name c, createdRecord? l.event ≠ some (name,c)) {reg : AgentRegistry}
    (he : (w.appendLine l hl [] w.origins reg).KeepsEdges) : (w.appendLine l hl [] w.origins reg).Inv where
  kept := h.kept.snoc hl
  store := store_snoc h.store hl
  origins name o ho parent identity hedge := (h.origins name o ho parent identity hedge).appendLine (hn name) nofun
  jobs := nofun
  edges := he

/-- The jobs name agents that still have their directories. -/
theorem Inv.jobs_of_dirs {dirs : Dict String AgentDirectory} (h : w.Inv)
    (hdirs : ∀ n, (w.reg.dirs.get? n).isSome → (dirs.get? n).isSome) : ∀ job ∈ w.queue, match job with
      | .created n .. => (dirs.get? n).isSome
      | .identity n _ => (dirs.get? n).isSome
      | .append kind _ => kind ∉ ownKinds := by
  intro job hj
  have := h.jobs job hj
  cases job with
  | created n => exact hdirs n this
  | identity n => exact hdirs n this
  | append => exact this

theorem Inv.create {profile : Json} {dir : DirectoryIdentity} {p : Option String} (h : w.Inv)
    (hg : w.Traced (.create name p dir profile)) (hw : w.create name p dir profile = some w') : w'.Inv := by
  unfold LineageWorld.create at hw
  split at hw
  · cases hw
  rename_i hpre
  simp only [not_or,Bool.not_eq_true,Option.isSome_eq_false_iff,Option.isNone_iff_eq_none] at hpre
  obtain ⟨-,hparent,habsent⟩ := hpre
  have hnew : ∀ job ∈ w.queue, (∀ p s a profile, job ≠ .created name p s a profile) ∧ ∀ edge, job ≠ .identity name edge := by
    intro job hj
    have := h.jobs job hj
    constructor
    · rintro p s a profile rfl
      simp [habsent] at this
    · rintro edge rfl
      simp [habsent] at this
  have hdirs : ∀ n, (w.reg.dirs.get? n).isSome → ((w.reg.dirs.set name ⟨dir,false,[]⟩).get? n).isSome := by
    intro n hn
    rw [Dict.get?_set]
    split <;> simp [hn]
  have hself : ((w.reg.dirs.set name ⟨dir,false,[]⟩).get? name).isSome := by simp
  have hjobs := h.jobs_of_dirs hdirs
  cases p with
  | none =>
    cases hw
    refine ⟨h.kept,h.store,fun n o ho parent identity he => ?_,fun job hj => ?_,fun n d hd o ho parent identity he => ?_⟩
    · rw [Dict.get?_set] at ho
      split at ho
      · cases ho
        cases he
      · rename_i hne
        have hi := h.origins n o ho parent identity he
        refine ⟨hi.named,hi.generation,hi.record,fun p s a profile hj => ?_,fun edge hj => ?_⟩
        · rcases List.mem_append.mp hj with hj | hj
          · exact hi.createJob p s a profile hj
          · simp [hne] at hj
        · rcases List.mem_append.mp hj with hj | hj
          · exact hi.identityJob edge hj
          · simp [hne] at hj
    · rcases List.mem_append.mp hj with hj | hj
      · exact hjobs job hj
      · simp only [List.mem_cons,List.not_mem_nil,or_false] at hj
        rcases hj with rfl | rfl
        · exact hself
        · exact hself
    · simp only [Dict.get?_set] at hd ho
      split at ho
      · cases ho
        cases he
      · rename_i hne
        rw [if_neg hne] at hd
        exact h.edges n d hd o ho parent identity he
  | some p =>
    simp only [Traced] at hg
    simp only at hw
    split at hw
    · rename_i hnone
      exact absurd hnone hg
    rename_i lineage hlineage
    cases hw
    have hset : lineage = w.reg.spawnLineage.set name (p,((w.reg.dirs.set name ⟨dir,false,[]⟩).get? p).map (·.identity)) := by
      unfold recordSpawnLineage at hlineage
      split at hlineage
      · cases hlineage
      split at hlineage
      · cases hlineage
      split at hlineage
      · cases hlineage
      · exact (Option.some.inj hlineage).symm
    refine ⟨h.kept,h.store,fun n o ho parent identity he => ?_,fun job hj => ?_,fun n d hd o ho parent identity he => ?_⟩
    · rw [Dict.get?_set] at ho
      split at ho
      · rename_i heq
        subst heq
        cases ho
        cases he
        refine ⟨fun hc => hparent (by rw [hc]),fun c hc => ?_,fun c hc => ?_,fun p s a profile hj => ?_,fun edge hj => ?_⟩
        · cases hc
        · cases hc
        · rcases List.mem_append.mp hj with hj | hj
          · exact absurd rfl ((hnew _ hj).1 p s a profile)
          · simp only [List.mem_cons,List.not_mem_nil,or_false,reduceCtorEq,LifecycleJob.created.injEq] at hj
            exact ⟨hj.2.1,hj.2.2.1⟩
        · rcases List.mem_append.mp hj with hj | hj
          · exact absurd rfl ((hnew _ hj).2 edge)
          · simp only [List.mem_cons,List.not_mem_nil,or_false,false_or,reduceCtorEq,LifecycleJob.identity.injEq] at hj
            exact hj.2
      · rename_i hne
        have hi := h.origins n o ho parent identity he
        refine ⟨hi.named,hi.generation,hi.record,fun p s a profile hj => ?_,fun edge hj => ?_⟩
        · rcases List.mem_append.mp hj with hj | hj
          · exact hi.createJob p s a profile hj
          · simp [hne] at hj
        · rcases List.mem_append.mp hj with hj | hj
          · exact hi.identityJob edge hj
          · simp [hne] at hj
    · rcases List.mem_append.mp hj with hj | hj
      · exact hjobs job hj
      · simp only [List.mem_cons,List.not_mem_nil,or_false] at hj
        rcases hj with rfl | rfl
        · exact hself
        · exact hself
    · simp only [Dict.get?_set] at hd ho
      simp only [hset,Dict.get?_set]
      split at ho
      · rename_i heq
        cases ho
        cases he
        simp [heq]
      · rename_i hne
        rw [if_neg hne] at hd
        rw [if_neg hne]
        exact h.edges n d hd o ho parent identity he

theorem Inv.purge {ts : String} (h : w.Inv) (hw : w.purge name ts = some w') : w'.Inv := by
  unfold LineageWorld.purge at hw
  split at hw
  · cases hw
    have hkind : ∀ n c, createdRecord? (w.recordLine ts (.agentPurged name)).event ≠ some (n,c) :=
      not_created_of_kind (walEntry_kind _ _ _ _) (by simp [LifecycleRecord.kind])
    refine h.appendLine (w.lt_recordLine ts _) hkind fun n d hd o ho parent identity he => ?_
    have hd' : (w.reg.purge name).dirs.get? n = some d := hd
    rw [AgentRegistry.purge,Dict.get?_pop] at hd'
    split at hd'
    · cases hd'
    · have hedge := h.edges n d hd' o ho parent identity he
      show (w.reg.purge name).spawnLineage.get? n = _ ∨ (w.reg.purge name).spawnLineage.get? n = _
      rw [AgentRegistry.purge,Dict.get?_mapVal]
      by_cases hp : parent = name
      · right
        rcases hedge with hedge | hedge
        · simp [hedge,hp]
        · simp [hedge,hp]
      · rcases hedge with hedge | hedge
        · left
          simp [hedge,hp]
        · right
          simp [hedge,hp]
  · cases hw

/-- A pass is the global one or that of one session. -/
theorem materializeRewind_cases {wal : List Event} {store : AgentIdentityGenerationStore} {scope : Scope} {cut : ℕ}
    {fresh : String → DirectoryIdentity} {reg reg' : AgentRegistry}
    (h : materializeRewind wal store scope cut fresh reg = .ok reg') :
    ∃ records, rewindRecordsWithScope wal = .ok records ∧
      (scope = none ∧ reg' = reg.materializeAll wal (activeIn records) store cut fresh ∨
        ∃ key, scope = some key ∧ reg' = reg.materializeSession wal (activeIn records) key) := by
  rw [materializeRewind] at h
  cases hr : rewindRecordsWithScope wal with
  | error e =>
    rw [hr] at h
    cases h
  | ok records =>
    rw [hr] at h
    cases scope with
    | none =>
      cases h
      exact ⟨records,rfl,.inl ⟨rfl,rfl⟩⟩
    | some key =>
      cases h
      exact ⟨records,rfl,.inr ⟨key,rfl,rfl⟩⟩

/-- A recovery leaves the registry alone, or carries out a global or a scoped reset-record again. -/
theorem recoverRewind_cases {wal : List Event} {store : AgentIdentityGenerationStore}
    {fresh : String → DirectoryIdentity} {reg reg' : AgentRegistry} (h : recoverRewind wal store fresh reg = .ok reg') :
    activeRewindTargetWithScope wal = .ok none ∧ reg' = reg ∨
      (∃ cut records, activeRewindTargetWithScope wal = .ok (some (cut,none)) ∧
        rewindRecordsWithScope wal = .ok records ∧ reg' = reg.materializeAll wal (activeIn records) store cut fresh) ∨
      ∃ cut scope records key, activeRewindTargetWithScope wal = .ok (some (cut,some scope)) ∧
        reg' = reg.materializeSession wal (activeIn records) key := by
  rw [recoverRewind] at h
  cases ht : activeRewindTargetWithScope wal with
  | error e =>
    rw [ht] at h
    cases h
  | ok latest =>
    rw [ht] at h
    simp only [bind,Except.bind] at h
    split at h
    · cases h
      exact .inl ⟨rfl,rfl⟩
    · rename_i cut
      obtain ⟨records,hr,⟨-,rfl⟩ | ⟨key,hc,-⟩⟩ := materializeRewind_cases h
      · exact .inr (.inl ⟨cut,records,rfl,hr,rfl⟩)
      · cases hc
    · rename_i cut name sid
      obtain ⟨records,-,⟨hc,-⟩ | ⟨key,-,rfl⟩⟩ := materializeRewind_cases h
      · cases hc
      · exact .inr (.inr ⟨cut,_,records,key,rfl,rfl⟩)
    · cases h

/-- A global pass rebuilds the edge of every agent that is traceable at the cut. -/
theorem KeepsEdges.of_materializeAll (h : w.Inv) {hist : Wal} {wal : List WalLine} (hk : Kept hist wal)
    (hrec : ∀ name o, w.origins.get? name = some o → ∀ parent identity, o.edge = some (parent,identity) →
      ∀ c, o.record = some c → LastCreation hist name ⟨c,some parent,identity⟩)
    {cut : ℕ} (ht : w.TracedAt wal cut) {records : List RewindRecord}
    (hr : rewindRecordsWithScope (wal.map (·.event)) = .ok records) {loaded : List SessionKey}
    {lineage : Dict String SpawnEdge} {fresh : String → DirectoryIdentity} {d : AgentDir}
    (hd : ((⟨w.reg.dirs,loaded,lineage⟩ : AgentRegistry).materializeAll (wal.map (·.event)) (activeIn records) w.store cut
      fresh).dirs.get? name = some d)
    (ho : w.origins.get? name = some o) (he : o.edge = some (parent,identity)) :
    ((⟨w.reg.dirs,loaded,lineage⟩ : AgentRegistry).materializeAll (wal.map (·.event)) (activeIn records) w.store cut
      fresh).spawnLineage.get? name = some (parent,identity) := by
  have hsurvives := survives_of_materializeDirs hd
  have htrace := ht records hr name o ho (by rw [he]; rfl) hsurvives
  have hi := h.origins name o ho parent identity he
  refine materializeAll_edge hd ?_
  have hpurged : name ∉ (agentLifecycle (wal.map (·.event))).purged := by
    intro hp
    simp [survives,agentDropped,hp] at hsurvives
  rw [rebuiltEdge,if_neg hpurged,identityAsOfCut_of_traceable hi hk (hrec name o ho parent identity he) htrace]
  simp [hi.named]

/-- An agent found after a scoped pass was there before. -/
theorem materializeSession_found {wal : List Event} {isActive : Scope → ℕ → Bool} {reg : AgentRegistry} {key : SessionKey}
    {d : AgentDir} (h : (reg.materializeSession wal isActive key).dirs.get? name = some d) :
    ∃ d₀, reg.dirs.get? name = some d₀ := by
  have hsome : (reg.dirs.get? name).isSome := by
    rw [← (AgentRegistry.materializeSession_dirs name).1,h]
    rfl
  exact Option.isSome_iff_exists.mp hsome

theorem materializeSession_keeps {wal : List Event} {isActive : Scope → ℕ → Bool} {reg : AgentRegistry} {key : SessionKey} :
    (reg.materializeSession wal isActive key).spawnLineage = reg.spawnLineage := by
  unfold AgentRegistry.materializeSession
  split <;> rfl

theorem Inv.rewind {target : ℕ} {scope : Scope} {ts : String} {fresh : String → DirectoryIdentity} (h : w.Inv)
    (hg : w.Traced (.rewind target scope ts fresh)) (hw : w.rewind target scope ts fresh = some w') : w'.Inv := by
  unfold LineageWorld.rewind at hw
  split at hw
  · rename_i hpre
    set l := w.resetLine ts target scope hpre.2 with hl
    have hlt : w.hist.head < l.seq := w.lt_resetLine ts target scope hpre.2
    have hkind : ∀ n c, createdRecord? l.event ≠ some (n,c) := not_created_of_kind (walEntry_kind _ _ _ _) (by decide)
    split at hw
    · cases hw
    rename_i reg hreg
    cases hw
    refine h.appendLine hlt hkind fun n d hd o ho parent identity he => ?_
    have hd' : reg.dirs.get? n = some d := hd
    show reg.spawnLineage.get? n = _ ∨ reg.spawnLineage.get? n = _
    obtain ⟨records,hrecords,⟨rfl,rfl⟩ | ⟨key,rfl,rfl⟩⟩ := materializeRewind_cases hreg
    · refine .inl (KeepsEdges.of_materializeAll h (h.kept.snoc hlt) (fun name o ho parent identity he c hc => ?_)
        (hg hpre.2) hrecords hd' ho he)
      exact ((h.origins name o ho parent identity he).record c hc).snoc hlt (hkind name)
    · obtain ⟨d₀,hd₀⟩ := materializeSession_found hd'
      rw [materializeSession_keeps]
      exact h.edges n d₀ hd₀ o ho parent identity he
  · cases hw

theorem Inv.truncate {minKeepSeq : ℕ} (h : w.Inv) : ({ w with wal := doTruncate minKeepSeq w.wal } : LineageWorld).Inv :=
  ⟨doTruncate_kept h.kept _,h.store,fun name o ho parent identity he =>
    let hi := h.origins name o ho parent identity he
    ⟨hi.named,hi.generation,hi.record,hi.createJob,hi.identityJob⟩,h.jobs,h.edges⟩

theorem Inv.pruneIdentities {minKeepSeq : ℕ} (h : w.Inv) :
    ({ w with store := w.store.pruneBelow minKeepSeq } : LineageWorld).Inv := by
  refine ⟨h.kept,fun g hg => h.store g (List.mem_of_mem_filter hg),fun name o ho parent identity he => ?_,h.jobs,h.edges⟩
  have hi := h.origins name o ho parent identity he
  exact ⟨hi.named,fun c hc => AgentIdentityGenerationStore.newest_pruneBelow (hi.generation c hc) _,hi.record,
    hi.createJob,hi.identityJob⟩

theorem Inv.append {kind : String} {fields : WalFields} (h : w.Inv) (hk : kind ∉ ownKinds) :
    ({ w with queue := w.queue ++ [.append kind fields] } : LineageWorld).Inv := by
  refine ⟨h.kept,h.store,fun name o ho parent identity he => ?_,fun job hj => ?_,h.edges⟩
  · have hi := h.origins name o ho parent identity he
    exact ⟨hi.named,hi.generation,hi.record,fun p s a profile hj => hi.createJob p s a profile (by simpa using hj),
      fun edge hj => hi.identityJob edge (by simpa using hj)⟩
  · rcases List.mem_append.mp hj with hj | hj
    · exact h.jobs job hj
    · obtain rfl := List.mem_singleton.mp hj
      exact hk

/-- With nothing at the worker and another registry over the same files. -/
theorem Inv.withRegistry (h : w.Inv) {reg : AgentRegistry} {n : ℕ}
    (he : ({ w with queue := [], reg := reg, createCounter := n } : LineageWorld).KeepsEdges) :
    ({ w with queue := [], reg := reg, createCounter := n } : LineageWorld).Inv where
  kept := h.kept
  store := h.store
  origins name o ho parent identity hedge :=
    let hi := h.origins name o ho parent identity hedge
    ⟨hi.named,hi.generation,hi.record,nofun,nofun⟩
  jobs := nofun
  edges := he

theorem Inv.restart {fresh : String → DirectoryIdentity} (h : w.Inv) (hg : w.Traced (.restart fresh))
    (hw : w.restart fresh = some w') : w'.Inv := by
  unfold LineageWorld.restart at hw
  split at hw
  · cases hw
  rename_i reg hreg
  cases hw
  refine h.withRegistry fun n d hd o ho parent identity he => ?_
  have hd' : reg.dirs.get? n = some d := hd
  have hspawned : o.edge.isSome := by rw [he]; rfl
  rw [Traced] at hg
  obtain ⟨ht,rfl⟩ | ⟨cut,records,ht,hrecords,rfl⟩ | ⟨cut,scope,records,key,ht,rfl⟩ := recoverRewind_cases hreg
  · rw [ht] at hg
    rw [hg n o ho hspawned] at hd'
    cases hd'
  · rw [ht] at hg
    exact .inl (KeepsEdges.of_materializeAll h h.kept
      (fun name o ho parent identity he => (h.origins name o ho parent identity he).record) hg hrecords hd' ho he)
  · rw [ht] at hg
    obtain ⟨d₀,hd₀⟩ := materializeSession_found hd'
    rw [hg n o ho hspawned] at hd₀
    cases hd₀

theorem Inv.init : LineageWorld.init.Inv :=
  ⟨Kept.refl _,nofun,nofun,nofun,nofun⟩

theorem Inv.step {a : LineageAction} (h : w.Inv) (hg : w.Traced a) (hw : w.step a = some w') : w'.Inv := by
  cases a with
  | create name parent identity profile => exact h.create hg hw
  | append kind fields hk => cases hw; exact h.append hk
  | work ts => exact h.work hw
  | purge name ts => exact h.purge hw
  | rewind target scope ts fresh => exact h.rewind hg hw
  | truncate minKeepSeq => cases hw; exact h.truncate
  | pruneIdentities minKeepSeq => cases hw; exact h.pruneIdentities
  | restart fresh => exact h.restart hg hw

theorem inv_run (hr : Runs LineageWorld.step Traced LineageWorld.init w) : w.Inv :=
  hr.invariant Inv.init fun _ _ _ h hg hw => h.step hg hw

end Step

/-- `R` resolves over the edges and the directories of the registry. -/
structure Resolves (w : LineageWorld) (R : Registry) : Prop where
  edge : ∀ name, R.spawnLineage.edge name = w.reg.spawnLineage.get? name
  directory : ∀ name, R.directory name = (w.reg.dirs.get? name).map (·.identity)

/-- No agent that is there and was created with a parent is resolved without it: what it may do, the parent
may, or the floor where the parent's identity is gone. -/
def ParentCapped (w : LineageWorld) : Prop :=
  ∀ name d, w.reg.dirs.get? name = some d → ∀ o, w.origins.get? name = some o → ∀ parent identity,
    o.edge = some (parent,identity) → ∃ stamp, (stamp = identity ∨ stamp = some invalidatedSpawnParentIdentity) ∧
      w.reg.spawnLineage.get? name = some (parent,stamp) ∧ ∀ R, w.Resolves R → ∀ isDelegate sid a,
        (R.resolvedProfileFor name isDelegate sid).admits a →
          if R.edgeDead parent stamp then R.delegateFloor.admits a else (R.resolvedProfileFor parent none none).admits a

theorem KeepsEdges.parentCapped {w : LineageWorld} (h : w.KeepsEdges) : w.ParentCapped := by
  intro name d hd o ho parent identity he
  have hcap : ∀ stamp, w.reg.spawnLineage.get? name = some (parent,stamp) → ∀ R, w.Resolves R → ∀ isDelegate sid a,
      (R.resolvedProfileFor name isDelegate sid).admits a →
        if R.edgeDead parent stamp then R.delegateFloor.admits a else (R.resolvedProfileFor parent none none).admits a := by
    intro stamp hs R hR isDelegate sid a ha
    exact ((R.admits_resolvedProfileFor name isDelegate sid a).mp ha).2.2.2 parent stamp ((hR.edge name).trans hs)
  rcases h name d hd o ho parent identity he with hs | hs
  · exact ⟨identity,.inl rfl,hs,hcap _ hs⟩
  · exact ⟨_,.inr rfl,hs,hcap _ hs⟩

/-- In a run whose steps lose no edge, every spawned agent stays under its parent. -/
theorem parentCapped_run {w : LineageWorld} (hr : Runs step Traced init w) : w.ParentCapped := by
  have hinv : w.Inv := inv_run hr
  exact hinv.edges.parentCapped

def spawnParent : List LineageAction := [.create "p" none (1,none) .null,.work "t",.work "t"]

def spawnChild : List LineageAction := [.create "c" (some "p") (2,none) .null,.work "t",.work "t"]

/-- The purged parent leaves its stamp on the edge of the child. -/
theorem parentCapped_run_purged : ∃ w, Runs step Traced init w ∧ w.ParentCapped ∧
    w.reg.spawnLineage.get? "c" = some ("p",some invalidatedSpawnParentIdentity) := by
  have hparent : (runAll step init spawnParent).map (fun w =>
      (recordSpawnLineage w.reg.spawnLineage "c" "p"
        (((w.reg.dirs.set "c" ⟨(2,none),false,[]⟩).get? "p").map (·.identity))).isSome &&
      ((runAll step w (spawnChild ++ [.purge "p" "t"])).map fun w => w.reg.spawnLineage.get? "c") =
        some (some ("p",some invalidatedSpawnParentIdentity))) = some true := by decide_cbv
  obtain ⟨t,ht,hview⟩ := Option.map_eq_some_iff.mp hparent
  rw [Bool.and_eq_true,decide_eq_true_eq] at hview
  obtain ⟨hchild,hrest⟩ := hview
  obtain ⟨w,hw,hedge⟩ := Option.map_eq_some_iff.mp hrest
  obtain ⟨u,hu,hwork⟩ := Option.bind_eq_some_iff.mp hw
  have hrun : Runs step Traced init t := .of_runAll (.refl _) (by simp [spawnParent,Traced]) ht
  have hguard : t.Traced (.create "c" (some "p") (2,none) .null) := Option.isSome_iff_ne_none.mp hchild
  have hspawn : Runs step Traced init u := .step hrun hguard hu
  have hpurge : Runs step Traced init w := hspawn.of_runAll (by simp [Traced]) hwork
  exact ⟨w,hpurge,parentCapped_run hpurge,hedge⟩

/-- After a restart without a reset-record the child is there and its edge is not. -/
theorem restart_loses_edge : ¬ ∀ w, Runs step (fun _ _ => True) init w → w.ParentCapped := by
  intro h
  have hrun : (runAll step init (spawnParent ++ spawnChild ++ [.restart fun _ => (3,none)])).map (fun w =>
      (w.reg.dirs.get? "c").isSome && (w.origins.get? "c").map (·.edge) = some (some ("p",some (1,none))) &&
        (w.reg.spawnLineage.get? "c").isNone) = some true := by decide_cbv
  obtain ⟨w,hw,hview⟩ := Option.map_eq_some_iff.mp hrun
  simp only [Bool.and_eq_true,decide_eq_true_eq] at hview
  obtain ⟨⟨hdir,horigin⟩,hedge⟩ := hview
  obtain ⟨d,hd⟩ := Option.isSome_iff_exists.mp hdir
  obtain ⟨o,ho,he⟩ := Option.map_eq_some_iff.mp horigin
  obtain ⟨stamp,-,hs,-⟩ := h w (.of_runAll (.refl _) (fun _ _ _ => trivial) hw) "c" d hd o ho "p" (some (1,none)) he
  rw [hs] at hedge
  cases hedge

end LineageWorld
end Reyn
