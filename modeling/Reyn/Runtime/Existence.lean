import Reyn.Runtime.AgentLifecycle
import Reyn.Runtime.SessionHistory

/-! # What exists after a rewind

The code keeps the latest record of each kind and forgets the order of the kinds. For
an entity that is not created again over a standing removal this is the order of the
records: the entity is there exactly when the last record that stands is a creation.
A record stands when it is on the active lineage; a purge stands for good.
-/
namespace Reyn
open Py TimeTravel

/-- A lifecycle record is one its writer built. -/
def WalLine.Recorded (l : WalLine) : Prop :=
  (∃ ts r, l.event = walEntry l.seq ts (LifecycleRecord.kind r) r.fields) ∨ ∀ k ∈ lifecycleKinds, l.event.kind ≠ .str k

/-- A log whose lifecycle records are those of the registry. -/
def Wal.Recorded (w : Wal) : Prop := ∀ l ∈ w.lines, l.Recorded

/-- A record of an agent. -/
def WalLine.ofAgent (kind name : String) (l : WalLine) : Bool :=
  l.event.kind = .str kind && l.event.get? "name" = some (.str name)

/-- A record of a session. -/
def WalLine.ofSession (kind : String) (key : SessionKey) (l : WalLine) : Bool :=
  l.event.kind = .str kind && (l.event.get? "name" = some (.str key.1) && l.event.get? "sid" = some (.str key.2))

section Record
variable {l : WalLine}

theorem WalLine.agentRecord?_eq_some {kind name : String} (h : l.ofAgent kind name = true) :
    agentRecord? kind l.event = some (name,l.seq) := by
  simp only [ofAgent,Bool.and_eq_true,decide_eq_true_eq] at h
  simp [agentRecord?,h.1,h.2,l.stamped]

theorem WalLine.agentRecord?_ne_some {kind name : String} (h : l.ofAgent kind name = false) (seq : ℕ) :
    agentRecord? kind l.event ≠ some (name,seq) := by
  intro hs
  unfold agentRecord? at hs
  split at hs
  · rename_i hk
    obtain ⟨n,hn,hs⟩ := Option.bind_eq_some_iff.mp hs
    obtain ⟨v,hv,hvn⟩ := Option.bind_eq_some_iff.mp hn
    obtain ⟨i,hi,hs⟩ := Option.bind_eq_some_iff.mp hs
    obtain ⟨rfl,-⟩ := Prod.mk.inj (Option.some.inj hs)
    cases v <;> simp [Json.asStr] at hvn
    subst hvn
    simp [ofAgent,hk,hv] at h
  · cases hs

theorem WalLine.vanishRecord?_eq_some {key : SessionKey} (h : l.ofSession "session_vanished" key = true) :
    vanishRecord? l.event = some (key,l.seq) := by
  simp only [ofSession,Bool.and_eq_true,decide_eq_true_eq] at h
  simp [vanishRecord?,h.1,h.2.1,h.2.2,l.stamped]

theorem WalLine.vanishRecord?_ne_some {key : SessionKey} (h : l.ofSession "session_vanished" key = false)
    (seq : ℕ) : vanishRecord? l.event ≠ some (key,seq) := by
  intro hs
  unfold vanishRecord? at hs
  split at hs
  · rename_i hk
    obtain ⟨n,hn,hs⟩ := Option.bind_eq_some_iff.mp hs
    obtain ⟨v,hv,hvn⟩ := Option.bind_eq_some_iff.mp hn
    obtain ⟨m,hm,hs⟩ := Option.bind_eq_some_iff.mp hs
    obtain ⟨u,hu,hum⟩ := Option.bind_eq_some_iff.mp hm
    obtain ⟨i,hi,hs⟩ := Option.bind_eq_some_iff.mp hs
    obtain ⟨rfl,-⟩ := Prod.mk.inj (Option.some.inj hs)
    cases v <;> simp [Json.asStr] at hvn
    cases u <;> simp [Json.asStr] at hum
    subst hvn hum
    simp [ofSession,hk,hv,hu] at h
  · cases hs

/-- The entity a create-record names. -/
theorem LifecycleRecord.createRecord? (r : LifecycleRecord) (seq : ℕ) (ts : String) :
    Reyn.createRecord? (walEntry seq ts r.kind r.fields) = match r with
      | agentCreated name .. => some (("agent",name,""),seq)
      | sessionSpawned name sid .. => some (("session",name,sid),seq)
      | _ => none := by
  cases r <;> simp [Reyn.createRecord?,createEventKinds,kind,Event.text,walEntry_get?,fields,Dict.lookup_cons]

theorem WalLine.Recorded.createRecord?_agent (h : l.Recorded) {name : String} :
    (l.ofAgent "agent_created" name = true → Reyn.createRecord? l.event = some (("agent",name,""),l.seq)) ∧
      (l.ofAgent "agent_created" name = false → ∀ seq, Reyn.createRecord? l.event ≠ some (("agent",name,""),seq)) := by
  rcases h with ⟨ts,r,he⟩ | hno
  · rw [he,r.createRecord?,ofAgent,he]
    cases r <;> simp [LifecycleRecord.kind,walEntry_get?,LifecycleRecord.fields,Dict.lookup_cons]
  · have hc := hno "agent_created" (by simp [lifecycleKinds])
    have hs := hno "session_spawned" (by simp [lifecycleKinds])
    simp [ofAgent,hc,hs,Reyn.createRecord?,createEventKinds]

theorem WalLine.Recorded.createRecord?_session (h : l.Recorded) {key : SessionKey} :
    (l.ofSession "session_spawned" key = true →
        Reyn.createRecord? l.event = some (("session",key.1,key.2),l.seq)) ∧
      (l.ofSession "session_spawned" key = false →
        ∀ seq, Reyn.createRecord? l.event ≠ some (("session",key.1,key.2),seq)) := by
  obtain ⟨name,sid⟩ := key
  rcases h with ⟨ts,r,he⟩ | hno
  · rw [he,r.createRecord?,ofSession,he]
    cases r <;> simp [LifecycleRecord.kind,walEntry_get?,LifecycleRecord.fields,Dict.lookup_cons]
  · have hc := hno "agent_created" (by simp [lifecycleKinds])
    have hs := hno "session_spawned" (by simp [lifecycleKinds])
    simp [ofSession,hc,hs,Reyn.createRecord?,createEventKinds]

end Record

/-- On the active lineage of the scope. -/
def Wal.stands (w : Wal) (scope : Scope) (l : WalLine) : Bool := l.seq ∈ (w.resets scope).lineage w.head

section Maps
variable {w : Wal}

theorem Wal.isActive_line {l : WalLine} (hl : l ∈ w.lines) (scope : Scope) :
    w.isActive scope l.seq = w.stands scope l := by
  rw [Bool.eq_iff_iff,w.isActive_iff scope l.pos (w.seq_le_head hl),Wal.stands,decide_eq_true_iff]

theorem Wal.createdAt_agent (hw : w.Recorded) (name : String) : (createdAtMap w.events).get? ("agent",name,"") =
    ((w.lines.filter (·.ofAgent "agent_created" name)).getLast?).map (·.seq) := by
  rw [createdAtMap,Wal.events,List.filterMap_map]
  exact Dict.get?_ofList_filterMap _ _ _ _ _ (fun l hl => (hw l hl).createRecord?_agent.1)
    fun l hl => (hw l hl).createRecord?_agent.2

theorem Wal.createdAt_session (hw : w.Recorded) (key : SessionKey) :
    (createdAtMap w.events).get? ("session",key.1,key.2) =
      ((w.lines.filter (·.ofSession "session_spawned" key)).getLast?).map (·.seq) := by
  rw [createdAtMap,Wal.events,List.filterMap_map]
  exact Dict.get?_ofList_filterMap _ _ _ _ _ (fun l hl => (hw l hl).createRecord?_session.1)
    fun l hl => (hw l hl).createRecord?_session.2

theorem Wal.sessionVanished (w : Wal) (key : SessionKey) : (sessionVanishedMap w.events).get? key =
    ((w.lines.filter (·.ofSession "session_vanished" key)).getLast?).map (·.seq) := by
  rw [sessionVanishedMap,Wal.events,List.filterMap_map]
  exact Dict.get?_ofList_filterMap _ _ _ _ _ (fun _ _ h => WalLine.vanishRecord?_eq_some h)
    fun _ _ h => WalLine.vanishRecord?_ne_some h

theorem Wal.archivedAt (w : Wal) (name : String) : (agentLifecycle w.events).archived.get? name =
    ((w.lines.filter (·.ofAgent "agent_archived" name)).getLast?).map (·.seq) := by
  simp only [agentLifecycle,Wal.events,List.filterMap_map]
  exact Dict.get?_ofList_filterMap _ _ _ _ _ (fun _ _ h => WalLine.agentRecord?_eq_some h)
    fun _ _ h => WalLine.agentRecord?_ne_some h

/-- The last creation of an agent, with the edge its record carries. -/
theorem Wal.createdLast (w : Wal) (name : String) : (agentLifecycle w.events).created.get? name =
    ((w.lines.filter (·.ofAgent "agent_created" name)).getLast?).map fun l =>
      ⟨l.seq,(l.event.get? "parent").bind Json.asStr,decodeIdentity (l.event.getD "parent_seq" .null)⟩ := by
  rw [agentLifecycle,Wal.events,List.filterMap_map]
  refine Dict.get?_ofList_filterMap _ _ _ _ _ (fun l _ h => ?_) fun l _ h v hv => ?_
  · simp [createdRecord?,WalLine.agentRecord?_eq_some h]
  · obtain ⟨⟨n,seq⟩,hr,hp⟩ := Option.map_eq_some_iff.mp hv
    obtain ⟨rfl,-⟩ := Prod.mk.inj hp
    exact WalLine.agentRecord?_ne_some h seq hr

theorem Wal.mem_purged (w : Wal) (name : String) : name ∈ (agentLifecycle w.events).purged ↔
    ∃ l ∈ w.lines, l.ofAgent "agent_purged" name = true := by
  simp only [agentLifecycle,Wal.events,List.filterMap_map,List.mem_map,List.mem_filterMap,Function.comp]
  constructor
  · rintro ⟨⟨n,seq⟩,⟨l,hl,hr⟩,rfl⟩
    refine ⟨l,hl,?_⟩
    by_contra hno
    exact WalLine.agentRecord?_ne_some (Bool.eq_false_iff.mpr hno) seq hr
  · rintro ⟨l,hl,h⟩
    exact ⟨(name,l.seq),⟨l,hl,WalLine.agentRecord?_eq_some h⟩,rfl⟩

end Maps

section Dropped
variable {w : Wal}

theorem Wal.agentDropped_iff (hw : w.Recorded) (name : String) : agentDropped w.events w.isActive name = true ↔
    (∃ l ∈ w.lines, l.ofAgent "agent_purged" name = true) ∨
      ∃ l, (w.lines.filter (·.ofAgent "agent_created" name)).getLast? = some l ∧ w.stands none l = false := by
  rw [agentDropped,Wal.createdAt_agent hw,Bool.or_eq_true,decide_eq_true_iff,w.mem_purged]
  refine or_congr_right ?_
  cases hl : (w.lines.filter (·.ofAgent "agent_created" name)).getLast? with
  | none => simp
  | some l =>
    have hmem : l ∈ w.lines := List.mem_of_mem_filter (List.mem_of_getLast? hl)
    simp [Wal.isActive_line hmem]

theorem Wal.sessionDropped_iff (hw : w.Recorded) (key : SessionKey) :
    sessionDropped w.events w.isActive key = true ↔
      (∃ l, (w.lines.filter (·.ofSession "session_spawned" key)).getLast? = some l ∧
        w.stands (some key) l = false) ∨
      ∃ l, (w.lines.filter (·.ofSession "session_vanished" key)).getLast? = some l ∧
        w.stands (some key) l = true := by
  rw [sessionDropped,Wal.createdAt_session hw,w.sessionVanished,Bool.or_eq_true]
  refine or_congr ?_ ?_
  · cases hl : (w.lines.filter (·.ofSession "session_spawned" key)).getLast? with
    | none => simp
    | some l =>
      have hmem : l ∈ w.lines := List.mem_of_mem_filter (List.mem_of_getLast? hl)
      simp [Wal.isActive_line hmem]
  · cases hl : (w.lines.filter (·.ofSession "session_vanished" key)).getLast? with
    | none => simp
    | some l =>
      have hmem : l ∈ w.lines := List.mem_of_mem_filter (List.mem_of_getLast? hl)
      simp [Wal.isActive_line hmem]

theorem Wal.mem_rematerialised (w : Wal) (dirs : Dict String AgentDir) (name : String) :
    name ∈ rematerialised w.events w.isActive dirs ↔ (¬ ∃ l ∈ w.lines, l.ofAgent "agent_purged" name = true) ∧
      (∃ l, (w.lines.filter (·.ofAgent "agent_created" name)).getLast? = some l ∧ w.stands none l = true) ∧
      dirs.get? name = none := by
  rw [← w.mem_purged]
  simp only [rematerialised,List.mem_map,List.mem_filter,Bool.and_eq_true,Bool.not_eq_true',
    List.contains_eq_mem,decide_eq_false_iff_not,Option.isNone_iff_eq_none]
  constructor
  · rintro ⟨⟨n,c⟩,⟨hmem,⟨hp,ha⟩,hd⟩,rfl⟩
    have hget := Dict.get?_of_mem hmem
    rw [w.createdLast] at hget
    obtain ⟨l,hl,rfl⟩ := Option.map_eq_some_iff.mp hget
    have hline : l ∈ w.lines := List.mem_of_mem_filter (List.mem_of_getLast? hl)
    exact ⟨hp,⟨l,hl,Wal.isActive_line hline none ▸ ha⟩,hd⟩
  · rintro ⟨hp,⟨l,hl,hs⟩,hd⟩
    have hline : l ∈ w.lines := List.mem_of_mem_filter (List.mem_of_getLast? hl)
    have hget := w.createdLast name
    rw [hl,Option.map_some] at hget
    exact ⟨_,⟨Dict.mem_of_get? hget,⟨hp,(Wal.isActive_line hline none).trans hs⟩,hd⟩,rfl⟩

end Dropped

section Dirs
variable {wal : List Event} {isActive : Scope → ℕ → Bool} {reg : AgentRegistry} {fresh : String → DirectoryIdentity}

theorem foldl_set_get? {V : Type} (names : List String) (value : String → V) (dirs : Dict String V) (name : String) :
    (names.foldl (fun dirs name => dirs.set name (value name)) dirs).get? name =
      if name ∈ names then some (value name) else dirs.get? name := by
  induction names generalizing dirs with
  | nil => rfl
  | cons n rest ih =>
    rw [List.foldl_cons,ih,Dict.get?_set]
    by_cases hr : name ∈ rest
    · simp [hr]
    · by_cases hn : name = n
      · simp [hn]
      · simp [hr,hn]

/-- An agent after the passes: made again, or as it was, less the sessions dropped. -/
theorem AgentRegistry.materializeDirs_get? (name : String) :
    (reg.materializeDirs wal isActive fresh).get? name =
      if agentDropped wal isActive name then none
      else (if name ∈ rematerialised wal isActive reg.dirs then some ⟨fresh name,false,[]⟩
          else reg.dirs.get? name).map fun d => reconcileArchived wal isActive name
        { d with sessions := (reg.discoverSessionIds name d).filter fun sid =>
            !sessionDropped wal isActive (name,sid) } := by
  simp only [materializeDirs,Dict.get?_mapVal,Dict.get?_filterKeys,foldl_set_get?]
  by_cases h : agentDropped wal isActive name = true <;> simp [h]

theorem rematerialised_absent {dirs : Dict String AgentDir} {name : String}
    (h : name ∈ rematerialised wal isActive dirs) : dirs.get? name = none := by
  obtain ⟨p,hp,rfl⟩ := List.mem_map.mp h
  have := (List.mem_filter.mp hp).2
  simp only [Bool.and_eq_true,Option.isNone_iff_eq_none] at this
  exact this.2

@[simp] theorem reconcileArchived_sessions (name : String) (d : AgentDir) :
    (reconcileArchived wal isActive name d).sessions = d.sessions := by
  unfold reconcileArchived
  split <;> rfl

end Dirs

/-- There, and not hidden by a tombstone. -/
def AgentRegistry.present (reg : AgentRegistry) (name : String) : Bool :=
  (reg.dirs.get? name).any fun d => !d.archived

def AgentRegistry.hasSession (reg : AgentRegistry) (key : SessionKey) : Bool :=
  (reg.dirs.get? key.1).any fun d => d.sessions.contains key.2

/-- On disk or loaded. -/
def AgentRegistry.discovers (reg : AgentRegistry) (key : SessionKey) : Bool :=
  reg.hasSession key || reg.loaded.contains key

/-- The tombstone of an agent, when there is one, is on record. -/
def Wal.TombstoneRecorded (w : Wal) (reg : AgentRegistry) (name : String) : Prop :=
  (∃ l ∈ w.lines, l.ofAgent "agent_archived" name = true) ∨
    ∀ d, reg.dirs.get? name = some d → d.archived = false

section Present
variable {w : Wal} {reg : AgentRegistry} {fresh : String → DirectoryIdentity} {name : String} {key : SessionKey}

theorem Wal.reconcileArchived_archived (w : Wal) (d : AgentDir)
    (hc : KeyedLog.Collapses w.lines (·.ofAgent "agent_archived" name) (w.stands none))
    (ht : (∃ l ∈ w.lines, l.ofAgent "agent_archived" name = true) ∨ d.archived = false) :
    (reconcileArchived w.events w.isActive name d).archived = false ↔
      ∀ l ∈ w.lines, l.ofAgent "agent_archived" name = true → w.stands none l = false := by
  unfold reconcileArchived
  rw [w.archivedAt]
  cases hl : (w.lines.filter (·.ofAgent "agent_archived" name)).getLast? with
  | none =>
    have hnone : ∀ l ∈ w.lines, ¬ l.ofAgent "agent_archived" name = true := by
      simpa [List.getLast?_eq_none_iff,List.filter_eq_nil_iff] using hl
    have hd : d.archived = false := by
      rcases ht with ⟨l,hmem,h⟩ | ht
      · exact absurd h (hnone l hmem)
      · exact ht
    simp only [Option.map_none,hd,true_iff]
    exact fun l hmem h => absurd h (hnone l hmem)
  | some a =>
    obtain ⟨hmem,ha⟩ := List.mem_filter.mp (List.mem_of_getLast? hl)
    simp only [Option.map_some,Wal.isActive_line hmem]
    constructor
    · intro hstands l hl' h
      by_contra hno
      obtain ⟨x,hx,hxs⟩ := hc l hl' h (by simpa using hno)
      rw [hl] at hx
      cases hx
      rw [hstands] at hxs
      cases hxs
    · exact fun h => h a hmem ha

/-- An agent on record is there after a global pass when it was never purged, its latest creation
stands and no archival does. -/
theorem Wal.materializeAll_present (hw : w.Recorded) (hcreated : ∃ l ∈ w.lines, l.ofAgent "agent_created" name = true)
    (hc : KeyedLog.Collapses w.lines (·.ofAgent "agent_archived" name) (w.stands none))
    (ht : w.TombstoneRecorded reg name) (store : AgentIdentityGenerationStore) (dropCut : ℕ) :
    (reg.materializeAll w.events w.isActive store dropCut fresh).present name = true ↔
      (∃ l, (w.lines.filter (·.ofAgent "agent_created" name)).getLast? = some l ∧ w.stands none l = true) ∧
      (¬ ∃ l ∈ w.lines, l.ofAgent "agent_purged" name = true) ∧
      ∀ l ∈ w.lines, l.ofAgent "agent_archived" name = true → w.stands none l = false := by
  obtain ⟨c,hcmem,hcname⟩ := hcreated
  have hlast : ∃ l, (w.lines.filter (·.ofAgent "agent_created" name)).getLast? = some l := by
    have hne : w.lines.filter (·.ofAgent "agent_created" name) ≠ [] :=
      List.ne_nil_of_mem (List.mem_filter.mpr ⟨hcmem,hcname⟩)
    exact ⟨_,List.getLast?_eq_some_getLast hne⟩
  obtain ⟨l,hl⟩ := hlast
  rw [AgentRegistry.present,AgentRegistry.materializeAll,AgentRegistry.materializeDirs_get?]
  by_cases hp : ∃ l ∈ w.lines, l.ofAgent "agent_purged" name = true
  · rw [if_pos ((Wal.agentDropped_iff hw name).mpr (.inl hp))]
    simp [hp]
  · cases hs : w.stands none l with
    | false =>
      rw [if_pos ((Wal.agentDropped_iff hw name).mpr (.inr ⟨l,hl,hs⟩))]
      simp [hl,hs]
    | true =>
      have hnot : ¬ agentDropped w.events w.isActive name = true := by
        rw [Wal.agentDropped_iff hw]
        rintro (h | ⟨l',hl',hs'⟩)
        · exact hp h
        · rw [hl] at hl'
          cases hl'
          rw [hs] at hs'
          cases hs'
      rw [if_neg hnot]
      have hdir : ∃ d, (if name ∈ rematerialised w.events w.isActive reg.dirs then some ⟨fresh name,false,[]⟩
          else reg.dirs.get? name) = some d ∧
          ((∃ l ∈ w.lines, l.ofAgent "agent_archived" name = true) ∨ d.archived = false) := by
        cases hd : reg.dirs.get? name with
        | none => exact ⟨_,if_pos ((w.mem_rematerialised reg.dirs name).mpr ⟨hp,⟨l,hl,hs⟩,hd⟩),.inr rfl⟩
        | some d =>
          refine ⟨d,?_,ht.imp id fun h => h d hd⟩
          rw [if_neg]
          intro hmem
          have := ((w.mem_rematerialised reg.dirs name).mp hmem).2.2
          rw [hd] at this
          cases this
      obtain ⟨d,hd,htd⟩ := hdir
      rw [hd,Option.map_some,Option.any_some,Bool.not_eq_true']
      have harchived := fun sessions => w.reconcileArchived_archived { d with sessions := sessions } hc htd
      rw [harchived]
      exact ⟨fun h => ⟨⟨l,hl,hs⟩,hp,h⟩,fun h => h.2.2⟩

/-- A session is there after a global pass when it was, its agent is, and it is not dropped. -/
theorem AgentRegistry.materializeAll_hasSession {wal : List Event} {isActive : Scope → ℕ → Bool}
    (store : AgentIdentityGenerationStore) (dropCut : ℕ) :
    (reg.materializeAll wal isActive store dropCut fresh).hasSession key = true ↔
      ((reg.materializeAll wal isActive store dropCut fresh).dirs.get? key.1).isSome ∧ reg.discovers key = true ∧
        sessionDropped wal isActive key = false := by
  rw [hasSession,materializeAll,materializeDirs_get?]
  by_cases hdrop : agentDropped wal isActive key.1 = true
  · simp [hdrop]
  rw [if_neg hdrop]
  have hmem : ∀ d : AgentDir, key.2 ∈ reg.discoverSessionIds key.1 d ↔ key.2 ∈ d.sessions ∨ key ∈ reg.loaded := by
    intro d
    simp only [discoverSessionIds,List.mem_dedup,List.mem_append,List.mem_map,List.mem_filter]
    refine or_congr_right ⟨?_,fun h => ⟨key,⟨h,by simp⟩,rfl⟩⟩
    rintro ⟨k,⟨hk,hn⟩,hs⟩
    have hn : k.1 = key.1 := by simpa using hn
    have : k = key := Prod.ext hn hs
    exact this ▸ hk
  split
  · rename_i hre
    have habsent := rematerialised_absent hre
    simp [hmem,discovers,hasSession,habsent]
  · cases hd : reg.dirs.get? key.1 with
    | none => simp
    | some d => simp [hmem,discovers,hasSession,hd]

/-- A scoped pass leaves its session in the directory of the agent, or drops it. -/
theorem AgentRegistry.materializeSession_hasSession {wal : List Event} {isActive : Scope → ℕ → Bool}
    (hmain : key.2 ≠ "main") : (reg.materializeSession wal isActive key).hasSession key = true ↔
      (reg.dirs.get? key.1).isSome ∧ sessionDropped wal isActive key = false := by
  unfold materializeSession hasSession
  split
  · rename_i hdrop
    cases hd : reg.dirs.get? key.1 <;> simp [Dict.get?_modify,hd,hdrop]
  · rename_i hdrop
    rw [Bool.not_eq_true] at hdrop
    cases hd : reg.dirs.get? key.1 with
    | none => simp [Dict.get?_modify,hd]
    | some d =>
      simp only [Dict.get?_modify,if_true,hd,Option.map_some,Option.any_some,hmain,false_or,hdrop]
      by_cases hin : key.2 ∈ d.sessions <;> simp [hin]

theorem AgentRegistry.materializeSession_dirs {wal : List Event} {isActive : Scope → ℕ → Bool} (name : String) :
    ((reg.materializeSession wal isActive key).dirs.get? name).isSome = (reg.dirs.get? name).isSome ∧
      (reg.materializeSession wal isActive key).present name = reg.present name := by
  unfold materializeSession present
  split <;>
  · simp only [Dict.get?_modify]
    split
    · cases reg.dirs.get? name <;> simp
    · exact ⟨rfl,rfl⟩

theorem AgentRegistry.materializeSession_other {wal : List Event} {isActive : Scope → ℕ → Bool} {other : SessionKey}
    (h : other ≠ key) :
    (reg.materializeSession wal isActive key).hasSession other = reg.hasSession other := by
  unfold materializeSession hasSession
  by_cases hn : other.1 = key.1
  · have hsid : other.2 ≠ key.2 := fun hs => h (Prod.ext hn hs)
    split
    · cases hd : reg.dirs.get? key.1 <;> simp [Dict.get?_modify,hn,hd,hsid]
    · simp only [Dict.get?_modify,hn,if_true]
      cases hd : reg.dirs.get? key.1 with
      | none => rfl
      | some d =>
        simp only [Option.map_some,Option.any_some]
        split <;> simp [hsid]
  · split <;> simp [Dict.get?_modify,hn]

end Present

/-- A removal of an agent: an archival or a purge. -/
def WalLine.endsAgent (name : String) (l : WalLine) : Bool :=
  l.ofAgent "agent_archived" name || l.ofAgent "agent_purged" name

/-- A record of an agent stands on the active lineage, a purge on every one. -/
def Wal.agentStands (w : Wal) (name : String) (l : WalLine) : Bool :=
  l.ofAgent "agent_purged" name || w.stands none l

/-- The last record of an agent that stands. -/
def Wal.lastAgentRecord (w : Wal) (name : String) : Option WalLine :=
  (w.lines.filter fun l =>
    (l.ofAgent "agent_created" name || l.endsAgent name) && w.agentStands name l).getLast?

/-- The last record of a session on the active lineage. -/
def Wal.lastSessionRecord (w : Wal) (key : SessionKey) : Option WalLine :=
  (w.lines.filter fun l =>
    (l.ofSession "session_spawned" key || l.ofSession "session_vanished" key) && w.stands (some key) l).getLast?

/-- The name is not created again over a standing removal, and of each kind of record the latest
stands whenever one does. -/
structure Wal.AgentSettled (w : Wal) (name : String) : Prop where
  reuse : ∀ c ∈ w.lines, c.ofAgent "agent_created" name = true → ∀ r ∈ w.lines, r.endsAgent name = true →
    w.agentStands name r = true → ¬ r.seq < c.seq
  created : KeyedLog.Collapses w.lines (·.ofAgent "agent_created" name) (w.stands none)
  archived : KeyedLog.Collapses w.lines (·.ofAgent "agent_archived" name) (w.stands none)

structure Wal.SessionSettled (w : Wal) (key : SessionKey) : Prop where
  reuse : ∀ c ∈ w.lines, c.ofSession "session_spawned" key = true → ∀ r ∈ w.lines,
    r.ofSession "session_vanished" key = true → w.stands (some key) r = true → ¬ r.seq < c.seq
  spawned : KeyedLog.Collapses w.lines (·.ofSession "session_spawned" key) (w.stands (some key))
  vanished : KeyedLog.Collapses w.lines (·.ofSession "session_vanished" key) (w.stands (some key))

section Settled
variable {w : Wal} {name : String} {key : SessionKey}

theorem WalLine.ofAgent_kind {l : WalLine} {kind : String} (h : l.ofAgent kind name = true) : l.event.kind = .str kind := by
  simp only [ofAgent,Bool.and_eq_true,decide_eq_true_eq] at h
  exact h.1

theorem WalLine.ofSession_kind {l : WalLine} {kind : String} (h : l.ofSession kind key = true) :
    l.event.kind = .str kind := by
  simp only [ofSession,Bool.and_eq_true,decide_eq_true_eq] at h
  exact h.1

theorem WalLine.ofAgent_ne {l : WalLine} {kind kind' : String} (h : l.ofAgent kind name = true) (hne : kind ≠ kind') :
    l.ofAgent kind' name = false := by
  rw [ofAgent,ofAgent_kind h]
  simp [hne]

theorem Wal.AgentSettled.last_iff (h : w.AgentSettled name) :
    (∃ l, w.lastAgentRecord name = some l ∧ l.ofAgent "agent_created" name = true) ↔
      (∃ l, (w.lines.filter (·.ofAgent "agent_created" name)).getLast? = some l ∧ w.stands none l = true) ∧
      (¬ ∃ l ∈ w.lines, l.ofAgent "agent_purged" name = true) ∧
      ∀ l ∈ w.lines, l.ofAgent "agent_archived" name = true → w.stands none l = false := by
  have hcreated : ∀ l, l.ofAgent "agent_created" name = true → w.agentStands name l = w.stands none l := by
    intro l hl
    rw [agentStands,WalLine.ofAgent_ne hl (by decide),Bool.false_or]
  have hcollapse : KeyedLog.Collapses w.lines (·.ofAgent "agent_created" name) (w.agentStands name) := by
    intro a ha hp hs
    obtain ⟨x,hx,hxs⟩ := h.created a ha hp (hcreated a hp ▸ hs)
    exact ⟨x,hx,(hcreated x (List.mem_filter.mp (List.mem_of_getLast? hx)).2).trans hxs⟩
  have hdisj : ∀ a ∈ w.lines, a.ofAgent "agent_created" name = true → a.endsAgent name = false := by
    intro a _ ha
    rw [WalLine.endsAgent,WalLine.ofAgent_ne ha (by decide),WalLine.ofAgent_ne ha (by decide)]
    rfl
  rw [lastAgentRecord,KeyedLog.last_standing_iff w.increasing hdisj h.reuse hcollapse]
  refine and_congr ?_ ?_
  · refine exists_congr fun l => and_congr_right fun hl => ?_
    rw [hcreated l (List.mem_filter.mp (List.mem_of_getLast? hl)).2]
  · constructor
    · intro hno
      refine ⟨?_,fun l hl ha => ?_⟩
      · rintro ⟨l,hl,hp⟩
        have := hno l hl (by simp [WalLine.endsAgent,hp])
        simp [agentStands,hp] at this
      · have := hno l hl (by simp [WalLine.endsAgent,ha])
        simp only [agentStands,Bool.or_eq_false_iff] at this
        exact this.2
    · rintro ⟨hpurged,harchived⟩ l hl he
      have hp : l.ofAgent "agent_purged" name = false := Bool.eq_false_iff.mpr fun hp => hpurged ⟨l,hl,hp⟩
      rw [WalLine.endsAgent,hp,Bool.or_false] at he
      rw [agentStands,hp,harchived l hl he]
      rfl

theorem Wal.SessionSettled.last_iff (h : w.SessionSettled key) (hw : w.Recorded)
    (hspawned : ∃ l ∈ w.lines, l.ofSession "session_spawned" key = true) :
    (∃ l, w.lastSessionRecord key = some l ∧ l.ofSession "session_spawned" key = true) ↔
      sessionDropped w.events w.isActive key = false := by
  have hdisj : ∀ a ∈ w.lines, a.ofSession "session_spawned" key = true →
      a.ofSession "session_vanished" key = false := by
    intro a _ ha
    rw [WalLine.ofSession,WalLine.ofSession_kind ha]
    simp
  obtain ⟨c,hcmem,hcs⟩ := hspawned
  have hne : w.lines.filter (·.ofSession "session_spawned" key) ≠ [] :=
    List.ne_nil_of_mem (List.mem_filter.mpr ⟨hcmem,hcs⟩)
  have hlast := List.getLast?_eq_some_getLast hne
  rw [lastSessionRecord,KeyedLog.last_standing_iff w.increasing hdisj h.reuse h.spawned,Bool.eq_false_iff,ne_eq,
    Wal.sessionDropped_iff hw,not_or]
  refine and_congr ?_ ?_
  · constructor
    · rintro ⟨l,hl,hs⟩ ⟨l',hl',hs'⟩
      rw [hl] at hl'
      cases hl'
      rw [hs] at hs'
      cases hs'
    · intro hno
      refine ⟨_,hlast,?_⟩
      by_contra hs
      exact hno ⟨_,hlast,by simpa using hs⟩
  · constructor
    · rintro hno ⟨l,hl,hs⟩
      obtain ⟨hmem,hv⟩ := List.mem_filter.mp (List.mem_of_getLast? hl)
      rw [hno l hmem hv] at hs
      cases hs
    · intro hno l hl hv
      by_contra hs
      exact hno (h.vanished l hl hv (by simpa using hs))

end Settled

/-- After a rewind or a recovery, an agent is present exactly when its last standing record is a
creation, and a spawned session exactly when it was there, its agent is, and its last standing record
is a spawn. A scoped rewind decides its own session only. -/
theorem materializeRewind_existence (w : Wal) (hw : w.Recorded) (store : AgentIdentityGenerationStore) (scope : Scope)
    (dropCut : ℕ) (fresh : String → DirectoryIdentity) (reg : AgentRegistry) :
    ∃ reg', materializeRewind w.events store scope dropCut fresh reg = .ok reg' ∧
      (∀ name, scope = none → w.AgentSettled name → w.TombstoneRecorded reg name →
        (∃ l ∈ w.lines, l.ofAgent "agent_created" name = true) →
        (reg'.present name = true ↔
          ∃ l, w.lastAgentRecord name = some l ∧ l.ofAgent "agent_created" name = true)) ∧
      (∀ key, scope = none ∨ scope = some key → key.2 ≠ "main" → w.SessionSettled key →
        (∃ l ∈ w.lines, l.ofSession "session_spawned" key = true) →
        (reg'.hasSession key = true ↔ (reg'.dirs.get? key.1).isSome ∧ (scope = none → reg.discovers key = true) ∧
          ∃ l, w.lastSessionRecord key = some l ∧ l.ofSession "session_spawned" key = true)) ∧
      ∀ key, scope = some key → (∀ name, reg'.present name = reg.present name) ∧
        ∀ other ≠ key, reg'.hasSession other = reg.hasSession other := by
  cases scope with
  | none =>
    refine ⟨reg.materializeAll w.events w.isActive store dropCut fresh,?_,?_,?_,fun key h => ?_⟩
    · rw [materializeRewind,w.rewindRecordsWithScope]
      rfl
    · intro name _ hset htomb hcreated
      rw [Wal.materializeAll_present hw hcreated hset.archived htomb,hset.last_iff]
    · intro key _ _ hset hspawned
      rw [AgentRegistry.materializeAll_hasSession,hset.last_iff hw hspawned]
      simp
    · cases h
  | some key =>
    refine ⟨reg.materializeSession w.events w.isActive key,?_,fun name h => ?_,?_,?_⟩
    · rw [materializeRewind,w.rewindRecordsWithScope]
      rfl
    · cases h
    · rintro key' (h | h) hmain hset hspawned
      · cases h
      · cases h
        rw [AgentRegistry.materializeSession_hasSession hmain,hset.last_iff hw hspawned,
          (AgentRegistry.materializeSession_dirs key.1).1]
        simp
    · rintro key' h
      cases h
      exact ⟨fun name => (AgentRegistry.materializeSession_dirs name).2,
        fun other hne => AgentRegistry.materializeSession_other hne⟩

/-- The line of a lifecycle record. -/
def LifecycleRecord.line (r : LifecycleRecord) (seq : ℕ) (ts : String) (pos : 0 < seq) : WalLine :=
  .ordinary seq ts r.kind r.fields pos (by cases r <;> simp [kind])

theorem LifecycleRecord.line_recorded (r : LifecycleRecord) (seq : ℕ) (ts : String) (pos : 0 < seq) :
    (r.line seq ts pos).Recorded := .inl ⟨ts,r,rfl⟩

theorem WalLine.reset_recorded (seq : ℕ) (ts : String) (targetSeq : ℕ) (supersedes : Option ℕ) (scope : Scope)
    (h : targetSeq < seq) : (WalLine.reset seq ts targetSeq supersedes scope h).Recorded :=
  .inr (by simp [WalLine.reset,lifecycleKinds])

theorem first_lt_third : 1 < 3 := by decide

/-- An agent is created, a session spawned under it, and the spawn undone. -/
def spawnedLines : List WalLine :=
  [(LifecycleRecord.agentCreated "a" none none 1 .null).line 1 "t" Nat.one_pos,
    (LifecycleRecord.sessionSpawned "a" "s" .null .null .null .null).line 2 "t" Nat.two_pos,
    .reset 3 "t" 1 (some 2) none first_lt_third]

theorem spawnedLines_increasing : spawnedLines.Pairwise (·.seq < ·.seq) := by
  simp [spawnedLines,LifecycleRecord.line,WalLine.ordinary,WalLine.reset]

def spawnedWal : Wal := ⟨spawnedLines,spawnedLines_increasing⟩

/-- The agent and the session as they were before. -/
def spawnedRegistry : AgentRegistry := ⟨.ofList [("a",⟨(7,none),false,["s"]⟩)],[],.empty⟩

theorem materializeRewind_existence_spawned : ∃ reg',
    materializeRewind spawnedWal.events [] none 1 (fun _ => (8,none)) spawnedRegistry = .ok reg' ∧
    (reg'.present "a" = true ↔
      ∃ l, spawnedWal.lastAgentRecord "a" = some l ∧ l.ofAgent "agent_created" "a" = true) ∧
    (reg'.hasSession ("a","s") = true ↔
      (reg'.dirs.get? "a").isSome ∧ ((none : Scope) = none → spawnedRegistry.discovers ("a","s") = true) ∧
      ∃ l, spawnedWal.lastSessionRecord ("a","s") = some l ∧ l.ofSession "session_spawned" ("a","s") = true) := by
  have hw : spawnedWal.Recorded := by
    intro l hl
    simp only [spawnedWal,spawnedLines,List.mem_cons,List.not_mem_nil,or_false] at hl
    rcases hl with rfl | rfl | rfl
    · exact LifecycleRecord.line_recorded ..
    · exact LifecycleRecord.line_recorded ..
    · exact WalLine.reset_recorded ..
  have hends : ∀ r ∈ spawnedWal.lines, r.endsAgent "a" = false := by decide_cbv
  have hvanish : ∀ r ∈ spawnedWal.lines, r.ofSession "session_vanished" ("a","s") = false := by decide_cbv
  have hagent : spawnedWal.AgentSettled "a" :=
    ⟨fun _ _ _ r hr he => absurd he (by simp [hends r hr]),.of_length_le_one (by decide_cbv) _,
      .of_length_le_one (by decide_cbv) _⟩
  have hsession : spawnedWal.SessionSettled ("a","s") :=
    ⟨fun _ _ _ r hr hv => absurd hv (by simp [hvanish r hr]),.of_length_le_one (by decide_cbv) _,
      .of_length_le_one (by decide_cbv) _⟩
  have htomb : spawnedWal.TombstoneRecorded spawnedRegistry "a" := by
    refine .inr fun d hd => ?_
    have : spawnedRegistry.dirs.get? "a" = some ⟨(7,none),false,["s"]⟩ := by decide_cbv
    rw [this] at hd
    cases hd
    rfl
  obtain ⟨reg',hok,hpresent,hhas,-⟩ :=
    materializeRewind_existence spawnedWal hw [] none 1 (fun _ => (8,none)) spawnedRegistry
  exact ⟨reg',hok,hpresent "a" rfl hagent htomb ⟨_,List.mem_cons_self,by decide⟩,
    hhas ("a","s") (.inl rfl) (by decide) hsession ⟨_,List.mem_cons_of_mem _ List.mem_cons_self,by decide⟩⟩

/-- A purge that a rewind goes back before. -/
def purgedLines : List WalLine :=
  [(LifecycleRecord.agentCreated "a" none none 1 .null).line 1 "t" Nat.one_pos,
    (LifecycleRecord.agentPurged "a").line 2 "t" Nat.two_pos,.reset 3 "t" 1 (some 2) none first_lt_third]

theorem purgedLines_increasing : purgedLines.Pairwise (·.seq < ·.seq) := by
  simp [purgedLines,LifecycleRecord.line,WalLine.ordinary,WalLine.reset]

def purgedWal : Wal := ⟨purgedLines,purgedLines_increasing⟩

/-- The creation is the last record on the active lineage, and the purged agent stays away. -/
theorem purged_not_rematerialised : ¬ ∀ (w : Wal), w.Recorded → ∀ (store : AgentIdentityGenerationStore)
    (dropCut : ℕ) (fresh : String → DirectoryIdentity) (reg reg' : AgentRegistry),
    materializeRewind w.events store none dropCut fresh reg = .ok reg' → ∀ name, (reg'.present name = true ↔
      ∃ l, (w.lines.filter fun l => (l.ofAgent "agent_created" name || l.endsAgent name) &&
        w.stands none l).getLast? = some l ∧ l.ofAgent "agent_created" name = true) := by
  intro h
  have hw : purgedWal.Recorded := by
    intro l hl
    simp only [purgedWal,purgedLines,List.mem_cons,List.not_mem_nil,or_false] at hl
    rcases hl with rfl | rfl | rfl
    · exact LifecycleRecord.line_recorded ..
    · exact LifecycleRecord.line_recorded ..
    · exact WalLine.reset_recorded ..
  obtain ⟨reg',hok⟩ : ∃ reg', materializeRewind purgedWal.events [] none 1 (fun _ => (8,none))
      ⟨.empty,[],.empty⟩ = .ok reg' := by
    rw [materializeRewind,purgedWal.rewindRecordsWithScope]
    exact ⟨_,rfl⟩
  have habsent : reg'.present "a" = false := by
    have : ((materializeRewind purgedWal.events [] none 1 (fun _ => (8,none)) ⟨.empty,[],.empty⟩).map
        (·.present "a")).toOption = some false := by decide_cbv
    rw [hok] at this
    simpa [Except.map,Except.toOption] using this
  have hlast : ((purgedWal.lines.filter fun l => (l.ofAgent "agent_created" "a" || l.endsAgent "a") &&
      purgedWal.stands none l).getLast?).any (·.ofAgent "agent_created" "a") = true := by
    have hcongr : purgedWal.lines.filter (fun l => (l.ofAgent "agent_created" "a" || l.endsAgent "a") &&
        purgedWal.stands none l) = purgedWal.lines.filter fun l =>
          (l.ofAgent "agent_created" "a" || l.endsAgent "a") && purgedWal.isActive none l.seq :=
      List.filter_congr fun l hl => by rw [Wal.isActive_line hl]
    rw [hcongr]
    decide +kernel
  obtain ⟨l,hl,hc⟩ := (Option.any_eq_true _ _).mp hlast
  rw [(h purgedWal hw [] 1 _ _ _ hok "a").mpr ⟨l,hl,hc⟩] at habsent
  cases habsent

end Reyn
