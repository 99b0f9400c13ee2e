import Reyn.Runtime.TopologyLifecycle
import Reyn.Runtime.WorldInvariant

/-! # Which topologies a rewind restores

The file is the history above a floor, with the reset-records below it. A rewind restores a
topology from the file alone: it finds the last record of the topology on the lineage of the
target exactly when that record is above the floor. A topology of which only abandoned
records are left above it is taken for one that was never created.
-/
namespace Reyn
open Py TimeTravel Transition

section LogSteps
variable {w w' : World}

/-- What one step does to the log: nothing, one entry more, or a truncation. -/
inductive LogStep (w w' : World) : Prop
  | same (hist : w'.hist = w.hist) (wal : w'.wal = w.wal)
  | append (l : WalLine) (hl : w.hist.head < l.seq) (hist : w'.hist = w.hist.snoc l hl) (wal : w'.wal = w.wal ++ [l])
      (source : (∃ ts r, Job.registryAppend r ∈ w.queue ∧ l.event = walEntry l.seq ts r.kind r.fields) ∨
        (∃ key kind fields, Job.append key kind fields ∈ w.queue ∧ l.event.kind = .str kind) ∨
        l.event.kind = .str "rewind")
  | truncate (minKeepSeq : ℕ) (hist : w'.hist = w.hist) (wal : w'.wal = doTruncate minKeepSeq w.wal)

theorem World.work_log {ts : String} (h : w.work ts = some w') : LogStep w w' := by
  unfold World.work at h
  split at h
  · cases h
  · rename_i key kind fields rest hq
    split at h
    · rename_i hk
      cases h
      refine .append _ (w.lt_nextLine ts kind fields hk) rfl rfl (.inr (.inl ⟨key,kind,fields,?_,?_⟩))
      · rw [hq]
        exact List.mem_cons_self
      · exact walEntry_kind _ _ _ _
    · cases h
  · rename_i r rest hq
    cases h
    refine .append _ (w.lt_nextLine ts r.kind r.fields r.ordinary) rfl rfl (.inl ⟨ts,r,?_,rfl⟩)
    rw [hq]
    exact List.mem_cons_self
  · cases h
    exact .same rfl rfl
  · cases h
    exact .same rfl rfl
  · cases h
    exact .same rfl rfl
  · rename_i minKeepSeq rest hq
    cases h
    exact .truncate minKeepSeq rfl rfl

theorem World.step_log {cfg : Config} {a : Action} (h : World.step cfg w a = some w') : LogStep w w' := by
  cases a with
  | work ts => exact World.work_log h
  | checkout ts =>
    obtain ⟨target,scope,ht,hco⟩ := World.checkout_cases h
    refine .append _ (w.lt_resetLine ts target scope ht) hco.hist hco.wal (.inr (.inr ?_))
    exact walEntry_kind _ _ _ _
  | load key =>
    simp only [World.step] at h
    split at h
    · cases h
    · cases h
      exact .same rfl rfl
  | mutate key m =>
    obtain ⟨s,-,rfl⟩ := Option.map_eq_some_iff.mp h
    exact .same rfl rfl
  | cutGeneration key =>
    obtain ⟨s,-,rfl⟩ := Option.map_eq_some_iff.mp h
    exact .same rfl rfl
  | close key =>
    obtain ⟨s,-,rfl⟩ := Option.map_eq_some_iff.mp h
    exact .same rfl rfl
  | record r =>
    cases h
    exact .same rfl rfl
  | truncateWal =>
    cases h
    unfold World.truncateWal
    dsimp only
    split <;> exact .same rfl rfl
  | prune =>
    simp only [World.step] at h
    split at h
    · cases h
    · cases h
      exact .same rfl rfl
  | admission target scope =>
    simp only [World.step,World.admission] at h
    obtain ⟨-,h⟩ := Option.ite_none_right_eq_some.mp h
    cases h
    exact .same rfl rfl

/-- What holds of the jobs at the worker after a step: the new appends are those of a journal's
mutation and of the registry. -/
theorem World.step_jobs {cfg : Config} {a : Action} {P : Job → Prop} (h : World.step cfg w a = some w')
    (hother : ∀ job : Job, (∀ key kind fields, job ≠ .append key kind fields) → (∀ r, job ≠ .registryAppend r) → P job)
    (hmutation : ∀ key s m r, Mutation.recording s m = some r → P (.append key r.kind r.fields))
    (hrecord : ∀ r, a = .record r → P (.registryAppend r)) (hq : ∀ job ∈ w.queue, P job) : ∀ job ∈ w'.queue, P job := by
  have hmore : ∀ jobs : List Job, (∀ job ∈ jobs, P job) → ∀ job ∈ w.queue ++ jobs, P job := by
    intro jobs hjobs job hj
    exact (List.mem_append.mp hj).elim (hq job) (hjobs job)
  cases a with
  | work ts =>
    simp only [World.step] at h
    unfold World.work at h
    split at h
    · cases h
    · rename_i key kind fields rest hqueue
      split at h
      · cases h
        exact fun job hj => hq job (hqueue ▸ List.mem_cons_of_mem _ hj)
      · cases h
    · rename_i r rest hqueue
      cases h
      exact fun job hj => hq job (hqueue ▸ List.mem_cons_of_mem _ hj)
    · rename_i key payload rest hqueue
      cases h
      intro job hj
      rcases List.mem_cons.mp hj with rfl | hj
      · exact hother _ (fun _ _ _ => Job.noConfusion) fun _ => Job.noConfusion
      · exact hq job (hqueue ▸ List.mem_cons_of_mem _ hj)
    · rename_i key seq rest hqueue
      cases h
      exact fun job hj => hq job (hqueue ▸ List.mem_cons_of_mem _ hj)
    · rename_i key payload rest hqueue
      cases h
      exact fun job hj => hq job (hqueue ▸ List.mem_cons_of_mem _ hj)
    · rename_i minKeepSeq rest hqueue
      cases h
      exact fun job hj => hq job (hqueue ▸ List.mem_cons_of_mem _ hj)
  | checkout ts =>
    obtain ⟨target,scope,ht,hco⟩ := World.checkout_cases h
    rw [hco.queue]
    exact List.forall_mem_nil _
  | load key =>
    simp only [World.step] at h
    split at h
    · cases h
    · cases h
      exact hq
  | mutate key m =>
    obtain ⟨s,-,rfl⟩ := Option.map_eq_some_iff.mp h
    refine hmore _ fun job hj => ?_
    obtain ⟨sub,hsub,rfl⟩ := List.mem_map.mp hj
    unfold SnapshotJournal.issue at hsub
    cases hr : m.recording s.journal.snapshot with
    | none => simp [hr] at hsub
    | some r =>
      simp only [hr,SnapshotJournal.record,List.mem_cons] at hsub
      rcases hsub with rfl | hsub
      · exact hmutation key _ m r hr
      · unfold SnapshotJournal.saveNowait at hsub
        split at hsub
        · cases hsub
        · rw [List.mem_singleton.mp hsub]
          exact hother _ (fun _ _ _ => Job.noConfusion) fun _ => Job.noConfusion
  | cutGeneration key =>
    obtain ⟨s,-,rfl⟩ := Option.map_eq_some_iff.mp h
    refine hmore _ fun job hj => ?_
    rw [List.mem_singleton.mp hj]
    exact hother _ (fun _ _ _ => Job.noConfusion) fun _ => Job.noConfusion
  | close key =>
    obtain ⟨s,-,rfl⟩ := Option.map_eq_some_iff.mp h
    refine hmore _ fun job hj => ?_
    rw [List.mem_singleton.mp hj]
    exact hother _ (fun _ _ _ => Job.noConfusion) fun _ => Job.noConfusion
  | record r =>
    cases h
    refine hmore _ fun job hj => ?_
    rw [List.mem_singleton.mp hj]
    exact hrecord r rfl
  | truncateWal =>
    cases h
    unfold World.truncateWal
    dsimp only
    split
    · exact hq
    · refine hmore _ fun job hj => ?_
      rw [List.mem_singleton.mp hj]
      exact hother _ (fun _ _ _ => Job.noConfusion) fun _ => Job.noConfusion
  | prune =>
    simp only [World.step] at h
    split at h
    · cases h
    · cases h
      exact hq
  | admission target scope =>
    simp only [World.step,World.admission] at h
    obtain ⟨-,h⟩ := Option.ite_none_right_eq_some.mp h
    cases h
    exact hq

end LogSteps

section Cut

/-- The file is the history above a floor, with the reset-records below it. -/
structure CutAt (hist : Wal) (wal : List WalLine) (floor : ℕ) : Prop where
  le : floor ≤ hist.head
  wal : wal = hist.lines.filter fun l => floor ≤ l.seq || isRewind l.event

def Cut (hist : Wal) (wal : List WalLine) : Prop := ∃ floor, CutAt hist wal floor

variable {hist : Wal} {wal : List WalLine}

theorem Cut.kept (h : Cut hist wal) : Kept hist wal := by
  obtain ⟨floor,hcut⟩ := h
  rw [hcut.wal]
  exact (Kept.refl hist).filter fun l _ hr => by simp [hr]

theorem Cut.init : Cut World.init.hist World.init.wal := ⟨0,le_rfl,rfl⟩

theorem Cut.snoc (h : Cut hist wal) {l : WalLine} (hl : hist.head < l.seq) : Cut (hist.snoc l hl) (wal ++ [l]) := by
  obtain ⟨floor,hle,hwal⟩ := h
  have habove : floor ≤ l.seq := hle.trans hl.le
  refine ⟨floor,?_,?_⟩
  · rw [Wal.snoc_head]
    exact habove
  · rw [Wal.snoc_lines,List.filter_append,← hwal]
    simp [habove]

theorem highestSeq_le (hwal : ∀ l ∈ wal, l ∈ hist.lines) : highestSeq wal ≤ hist.head := by
  unfold highestSeq
  induction wal with
  | nil => exact Nat.zero_le _
  | cons l rest ih =>
    rw [List.map_cons,List.foldr_cons]
    exact max_le (hist.seq_le_head (hwal l List.mem_cons_self)) (ih fun a ha => hwal a (List.mem_cons_of_mem _ ha))

theorem Cut.truncate (h : Cut hist wal) (minKeepSeq : ℕ) : Cut hist (doTruncate minKeepSeq wal) := by
  have hmem : ∀ l ∈ wal, l ∈ hist.lines := fun l hl => h.kept.sub.subset hl
  obtain ⟨floor,hle,hwal⟩ := h
  refine ⟨max (min minKeepSeq (highestSeq wal)) floor,?_,?_⟩
  · exact max_le ((min_le_right _ _).trans (highestSeq_le hmem)) hle
  · unfold doTruncate
    dsimp only
    generalize min minKeepSeq (highestSeq wal) = low
    rw [hwal,List.filter_filter]
    apply List.filter_congr
    intro l _
    cases isRewind l.event <;> simp

theorem Cut.step {w w' : World} (h : Cut w.hist w.wal) (hstep : LogStep w w') : Cut w'.hist w'.wal := by
  cases hstep with
  | same hist wal =>
    rw [hist,wal]
    exact h
  | append l hl hist wal _ =>
    rw [hist,wal]
    exact h.snoc hl
  | truncate minKeepSeq hist wal =>
    rw [hist,wal]
    exact h.truncate minKeepSeq

/-- An entry that is gone is older than every other entry of the file. -/
theorem Cut.lt_of_not_mem (h : Cut hist wal) {l a : WalLine} (hl : l ∈ hist.lines) (hgone : l ∉ wal) (ha : a ∈ wal)
    (hr : isRewind a.event = false) : l.seq < a.seq := by
  obtain ⟨floor,-,rfl⟩ := h
  have hlow : ¬ floor ≤ l.seq := by
    intro hle
    exact hgone (List.mem_filter.mpr ⟨hl,by simp [hle]⟩)
  have hhigh : floor ≤ a.seq := by simpa [hr] using (List.mem_filter.mp ha).2
  omega

end Cut

/-! ## What the history says of a topology -/

/-- A record of a topology. -/
def WalLine.ofTopology (name : String) (l : WalLine) : Bool :=
  (l.event.kind.asStr).any (· ∈ topologyKinds) && l.event.get? "name" = some (.str name)

/-- The event the scan of the log makes of a record. -/
def WalLine.topologyEvent (l : WalLine) : TopologyEvent :=
  let kind := (l.event.kind.asStr).getD ""
  ⟨l.seq,kind,if kind = "topology_removed" then .null else l.event.getD "topology" .null⟩

/-- The configuration a record leaves the topology with. -/
def WalLine.topologyConfig (l : WalLine) : Option TopologyConfig :=
  if l.event.kind = .str "topology_removed" then none
  else (topologyOfPayload (l.event.text "name") (l.event.getD "topology" .null)).toOption

/-- The last record of a topology on the lineage of a position. -/
def Wal.lastTopologyRecord (w : Wal) (name : String) (h : ℕ) : Option WalLine :=
  (w.lines.filter fun l => l.ofTopology name && l.seq ∈ (w.resets none).lineage h).getLast?

/-- The state of a topology at a position of the history. -/
def Wal.topologyAt (w : Wal) (name : String) (h : ℕ) : Option TopologyConfig :=
  (w.lastTopologyRecord name h).bind (·.topologyConfig)

/-- The records of topologies are those of the seams. -/
def WalLine.TopologyRecorded (l : WalLine) : Prop :=
  (∃ ts r, l.event = walEntry l.seq ts (TopologyRecord.kind r) r.fields) ∨
    ∀ k ∈ topologyKinds, l.event.kind ≠ .str k

section Scan
variable {l : WalLine} {name : String}

theorem WalLine.topologyEvent?_of (h : l.ofTopology name = true) :
    topologyEvent? l.event = some (name,l.topologyEvent) := by
  simp only [ofTopology,Bool.and_eq_true,decide_eq_true_eq] at h
  obtain ⟨hkind,hname⟩ := h
  cases hk : l.event.kind.asStr with
  | none => simp [hk] at hkind
  | some kind =>
    have hmem : kind ∈ topologyKinds := by simpa [hk] using hkind
    simp [topologyEvent?,topologyEvent,hk,hmem,hname,l.stamped]

theorem WalLine.topologyEvent?_ne (h : l.ofTopology name = false) (e : TopologyEvent) :
    topologyEvent? l.event ≠ some (name,e) := by
  intro hs
  simp only [topologyEvent?,bind,Option.bind_eq_some_iff] at hs
  obtain ⟨kind,hk,hs⟩ := hs
  obtain ⟨hmem,hs⟩ := Option.ite_none_right_eq_some.mp hs
  simp only [Option.bind_eq_some_iff,pure,Option.some.injEq,Prod.mk.injEq] at hs
  obtain ⟨n,⟨v,hv,hvn⟩,seq,-,rfl,-⟩ := hs
  cases v with
  | str u =>
    cases hvn
    simp [ofTopology,hk,hmem,hv] at h
  | _ => cases hvn

theorem foldl_addTopologyEvent (events : List (String × TopologyEvent)) (d : Dict String (List TopologyEvent))
    (name : String) : (events.foldl addTopologyEvent d).get? name =
      match d.get? name, (events.filter (·.1 = name)).map Prod.snd with
      | none, [] => none
      | before, found => some (before.getD [] ++ found) := by
  induction events generalizing d with
  | nil => cases h : d.get? name <;> simp [h]
  | cons p rest ih =>
    rw [List.foldl_cons,ih]
    by_cases hp : p.1 = name
    · subst hp
      cases h : d.get? p.1 <;> simp [addTopologyEvent,h]
    · have hne : name ≠ p.1 := fun he => hp he.symm
      simp [addTopologyEvent,Dict.get?_set_ne d hne,hp]

/-- The scan finds of a topology the records the file holds, in order. -/
theorem topologyLifecycle_get? (lines : List WalLine) (name : String) :
    (topologyLifecycle (lines.map (·.event))).get? name =
      if lines.filter (·.ofTopology name) = [] then none
      else some ((lines.filter (·.ofTopology name)).map (·.topologyEvent)) := by
  have hfound : (((lines.map (·.event)).filterMap topologyEvent?).filter (·.1 = name)).map Prod.snd =
      (lines.filter (·.ofTopology name)).map (·.topologyEvent) := by
    induction lines with
    | nil => rfl
    | cons l rest ih =>
      rw [List.map_cons,List.filterMap_cons]
      cases hl : l.ofTopology name with
      | true =>
        rw [WalLine.topologyEvent?_of hl,List.filter_cons_of_pos hl,List.filter_cons_of_pos (by simp),List.map_cons,
          List.map_cons,ih]
      | false =>
        rw [List.filter_cons_of_neg (by simp [hl]),← ih]
        cases he : topologyEvent? l.event with
        | none => rfl
        | some p =>
          have hne : p.1 ≠ name := by
            rintro rfl
            exact WalLine.topologyEvent?_ne hl p.2 he
          simp [hne]
  rw [topologyLifecycle,foldl_addTopologyEvent,hfound]
  cases lines.filter (·.ofTopology name) with
  | nil => rfl
  | cons a rest => simp

/-- In a log the latest active record is the last. -/
theorem latestActive_lines (isActive : ℕ → Bool) {lines : List WalLine} (h : lines.Pairwise (·.seq < ·.seq)) :
    latestActive isActive (lines.map (·.topologyEvent)) =
      ((lines.filter fun l => isActive l.seq).getLast?).map (·.topologyEvent) := by
  have hsub : (lines.filter fun l => isActive l.seq).Pairwise (·.seq < ·.seq) := h.sublist List.filter_sublist
  rw [latestActive,List.filter_map]
  change List.argmax _ ((lines.filter fun l => isActive l.seq).map _) = _
  generalize lines.filter (fun l => isActive l.seq) = ls at hsub ⊢
  induction ls using List.reverseRecOn with
  | nil => rfl
  | append_singleton front l ih =>
    rw [List.map_append,List.map_singleton,List.argmax_concat,ih (hsub.sublist (List.sublist_append_left _ _)),
      List.getLast?_concat]
    cases hlast : front.getLast? with
    | none => rfl
    | some a =>
      have hlt : a.seq < l.seq := (List.pairwise_append.mp hsub).2.2 a (List.mem_of_getLast? hlast) l
        (List.mem_singleton_self l)
      simp [WalLine.topologyEvent,hlt]

end Scan

section Recorded
variable {l : WalLine} {name : String}

theorem WalLine.ofTopology_kind (h : l.ofTopology name = true) : ∃ kind ∈ topologyKinds, l.event.kind = .str kind := by
  simp only [ofTopology,Bool.and_eq_true] at h
  cases hk : l.event.kind with
  | str kind => exact ⟨kind,by simpa [hk] using h.1,rfl⟩
  | _ => simp [hk,Json.asStr] at h

theorem WalLine.not_ofTopology (h : ∀ k ∈ topologyKinds, l.event.kind ≠ .str k) (name : String) :
    l.ofTopology name = false := by
  refine Bool.eq_false_iff.mpr fun hof => ?_
  obtain ⟨kind,hmem,hk⟩ := ofTopology_kind hof
  exact h kind hmem hk

theorem WalLine.not_rewind_of_ofTopology (h : l.ofTopology name = true) : isRewind l.event = false := by
  obtain ⟨kind,hmem,hk⟩ := ofTopology_kind h
  have hne : kind ≠ "rewind" := by
    rintro rfl
    simp [topologyKinds] at hmem
  simp [isRewind,hk,hne]

/-- The record of a seam is read back as it was written. -/
theorem WalLine.TopologyRecorded.reads (h : l.TopologyRecorded) (hof : l.ofTopology name = true) :
    l.topologyEvent.kind = "topology_removed" ∧ l.topologyConfig = none ∨
      l.topologyEvent.kind ≠ "topology_removed" ∧
        ∃ t, l.topologyConfig = some t ∧ topologyOfPayload name l.topologyEvent.payload = .ok t := by
  obtain ⟨kind,hmem,hkind⟩ := ofTopology_kind hof
  rcases h with ⟨ts,r,he⟩ | hno
  · obtain ⟨rname,change⟩ := r
    have hk : l.event.kind = .str (TopologyRecord.kind ⟨rname,change⟩) := he ▸ walEntry_kind _ _ _ _
    cases change with
    | removed => exact .inl (by simp [topologyEvent,topologyConfig,hk,TopologyRecord.kind])
    | created t | updated t =>
      refine .inr ?_
      have hpayload : l.event.getD "topology" .null = topologyPayload t := by
        rw [he,walEntry_getD _ _ _ _ _ (by simp)]
        simp [TopologyRecord.fields,TopologyRecord.config,Dict.lookup_cons]
      simp [topologyEvent,topologyConfig,hk,TopologyRecord.kind,hpayload,topologyOfPayload_payload,Except.toOption]
  · exact absurd hkind (hno kind hmem)

theorem WalLine.topologyEvent_kind (h : l.ofTopology name = true) : l.event.kind = .str l.topologyEvent.kind := by
  obtain ⟨kind,-,hk⟩ := ofTopology_kind h
  simp [topologyEvent,hk]

theorem WalLine.TopologyRecorded.config_eq_none_iff (h : l.TopologyRecorded) (hof : l.ofTopology name = true) :
    l.topologyConfig = none ↔ l.event.kind = .str "topology_removed" := by
  rw [WalLine.topologyEvent_kind hof,Json.str.injEq]
  rcases h.reads hof with ⟨hk,hc⟩ | ⟨hk,t,hc,-⟩
  · simp [hk,hc]
  · simp [hk,hc]

/-- What the map says of a topology is settled by one state. -/
def settle (topologies : Dict String TopologyConfig) (name : String) : Option TopologyConfig → Dict String TopologyConfig
  | none => topologies.pop name
  | some t => topologies.set name t

theorem settle_get? (topologies : Dict String TopologyConfig) (name other : String) (state : Option TopologyConfig) :
    (settle topologies name state).get? other = if other = name then state else topologies.get? other := by
  cases state with
  | none => rw [settle,Dict.get?_pop]
  | some t => rw [settle,Dict.get?_set]

theorem reconcileTopology_lines {isActive : ℕ → Bool} {lines : List WalLine} (h : lines.Pairwise (·.seq < ·.seq))
    (hrec : ∀ l ∈ lines, l.TopologyRecorded) (hof : ∀ l ∈ lines, l.ofTopology name = true)
    (topologies : Dict String TopologyConfig) :
    reconcileTopology isActive topologies name (lines.map (·.topologyEvent)) = .ok (settle topologies name
      (((lines.filter fun l => isActive l.seq).getLast?).bind (·.topologyConfig))) := by
  rw [reconcileTopology,latestActive_lines isActive h]
  cases hlast : (lines.filter fun l => isActive l.seq).getLast? with
  | none => rfl
  | some l =>
    have hmem := List.mem_of_mem_filter (List.mem_of_getLast? hlast)
    rcases (hrec l hmem).reads (hof l hmem) with ⟨hk,hc⟩ | ⟨hk,t,hc,hread⟩
    · simp [hk,hc,settle]
    · simp [hk,hc,hread,settle,Except.map]

/-- Topologies are reconciled one by one, each on its own. -/
theorem foldlM_settle {isActive : ℕ → Bool} (state : String → Option TopologyConfig)
    {items : List (String × List TopologyEvent)} (hn : (items.map Prod.fst).Nodup)
    (hstep : ∀ p ∈ items, ∀ topologies,
      reconcileTopology isActive topologies p.1 p.2 = .ok (settle topologies p.1 (state p.1)))
    (topologies : Dict String TopologyConfig) :
    ∃ topologies', items.foldlM (fun ts p => reconcileTopology isActive ts p.1 p.2) topologies = .ok topologies' ∧
      ∀ name, topologies'.get? name = if name ∈ items.map Prod.fst then state name else topologies.get? name := by
  induction items generalizing topologies with
  | nil => exact ⟨topologies,rfl,fun name => by simp⟩
  | cons p rest ih =>
    rw [List.map_cons,List.nodup_cons] at hn
    obtain ⟨topologies',hrest,hget⟩ := ih hn.2 (fun q hq => hstep q (List.mem_cons_of_mem _ hq))
      (settle topologies p.1 (state p.1))
    refine ⟨topologies',?_,fun name => ?_⟩
    · rw [List.foldlM_cons,hstep p List.mem_cons_self topologies]
      exact hrest
    · rw [hget,settle_get?,List.map_cons]
      by_cases hp : name = p.1
      · subst hp
        rw [if_neg hn.1,if_pos rfl,if_pos List.mem_cons_self]
      · have hiff : name ∈ p.1 :: rest.map Prod.fst ↔ name ∈ rest.map Prod.fst := List.mem_cons.trans (or_iff_right hp)
        simp only [hiff,if_neg hp]

/-- What the scan finds of a topology settles it by its last active record. -/
theorem reconcileTopology_lifecycle {isActive : ℕ → Bool} {wal : List WalLine} (h : wal.Pairwise (·.seq < ·.seq))
    (hrec : ∀ l ∈ wal, l.TopologyRecorded) {p : String × List TopologyEvent}
    (hp : p ∈ (topologyLifecycle (wal.map (·.event))).items) (topologies : Dict String TopologyConfig) :
    reconcileTopology isActive topologies p.1 p.2 = .ok (settle topologies p.1
      (((wal.filter fun l => l.ofTopology p.1 && isActive l.seq).getLast?).bind (·.topologyConfig))) := by
  have hfound := topologyLifecycle_get? wal p.1
  rw [Dict.get?_of_mem hp] at hfound
  obtain ⟨-,hevents⟩ := Option.ite_none_left_eq_some.mp hfound.symm
  have hlines : reconcileTopology isActive topologies p.1 ((wal.filter (·.ofTopology p.1)).map (·.topologyEvent)) = _ :=
    reconcileTopology_lines (h.sublist List.filter_sublist) (fun l hl => hrec l (List.mem_of_mem_filter hl))
      (fun l hl => (List.mem_filter.mp hl).2) topologies
  rw [Option.some.inj hevents,List.filter_filter] at hlines
  simp only [hlines,Bool.and_comm]

/-- What a reconciliation leaves: the last active record in the file decides, and a topology without
one in the file is left alone. -/
theorem reconcileTopologiesAsOfCut_get? {hist : Wal} {wal : List WalLine} (hk : Kept hist wal)
    (hrec : ∀ l ∈ wal, l.TopologyRecorded) (topologies : Dict String TopologyConfig) :
    ∃ topologies', reconcileTopologiesAsOfCut topologies (wal.map (·.event)) = .ok topologies' ∧
      ∀ name, topologies'.get? name = if wal.any (·.ofTopology name) then
        (wal.filter fun l => l.ofTopology name && hist.isActive none l.seq).getLast?.bind (·.topologyConfig)
      else topologies.get? name := by
  rw [reconcileTopologiesAsOfCut,hk.buildActivePredicate]
  obtain ⟨topologies',hfold,hget⟩ := foldlM_settle
    (fun name => ((wal.filter fun l => l.ofTopology name && hist.isActive none l.seq).getLast?).bind (·.topologyConfig))
    (topologyLifecycle (wal.map (·.event))).nodup
    (fun _ hp ts => reconcileTopology_lifecycle hk.increasing hrec hp ts)
    topologies
  refine ⟨topologies',hfold,fun name => ?_⟩
  rw [hget]
  have hkeys : name ∈ (topologyLifecycle (wal.map (·.event))).items.map Prod.fst ↔ wal.any (·.ofTopology name) = true := by
    have hmem := Dict.mem_keys_iff (d := topologyLifecycle (wal.map (·.event))) (k := name)
    rw [Dict.keys] at hmem
    rw [hmem,topologyLifecycle_get?,List.any_eq_true]
    by_cases hnone : wal.filter (·.ofTopology name) = []
    · simpa [hnone] using List.filter_eq_nil_iff.mp hnone
    · obtain ⟨l,hl⟩ := List.exists_mem_of_ne_nil _ hnone
      simpa [hnone] using ⟨l,List.mem_filter.mp hl⟩
  by_cases hany : wal.any (·.ofTopology name) = true
  · rw [if_pos (hkeys.mpr hany),if_pos hany]
  · rw [if_neg (fun hc => hany (hkeys.mp hc)),if_neg hany]

end Recorded

/-! ## Runs -/

/-- No journal writes a record of a topology, and what the registry writes is a seam's. -/
def Job.TopologyRecorded : Job → Prop
  | .append _ kind _ => kind ∉ topologyKinds
  | .registryAppend r => r.kind ∉ topologyKinds ∨ ∃ t : TopologyRecord, r = t.registryRecord
  | _ => True

theorem Mutation.kind_notMem {s : AgentSnapshot} {m : Mutation} {r : Recording} (h : m.recording s = some r) :
    r.kind ∉ topologyKinds := by
  cases m with
  | consumeInbox msgId =>
    cases msgId with
    | none => cases h
    | some i =>
      cases h
      simp [pruneInbox,topologyKinds]
  | cancelInbox msgId =>
    cases msgId with
    | none => cases h
    | some i =>
      obtain ⟨-,h⟩ := Option.ite_none_right_eq_some.mp h
      cases h
      simp [pruneInbox,topologyKinds]
  | _ =>
    cases h
    simp [topologyKinds,Reyn.appendInbox,recordChainRegister,recordChainUpdate,recordChainResolve,
      recordChainTimeoutFired,dropChain,recordInterventionDispatched,recordInterventionResolved,
      recordInterventionAnswerBuffered,recordInterventionAnswerConsumed,recordNextTurnContextStaged,
      recordNextTurnContextCleared]

/-- What every run keeps of the log, for the topologies. -/
structure World.TopologyInv (w : World) : Prop where
  cut : Cut w.hist w.wal
  jobs : ∀ job ∈ w.queue, job.TopologyRecorded
  recorded : ∀ l ∈ w.hist.lines, l.TopologyRecorded

namespace World.TopologyInv
variable {w w' : World}

theorem init : World.init.TopologyInv := ⟨.init,nofun,nofun⟩

theorem recorded_step (h : w.TopologyInv) (hlog : LogStep w w') : ∀ l ∈ w'.hist.lines, l.TopologyRecorded := by
  cases hlog with
  | same hist _ => exact hist ▸ h.recorded
  | truncate _ hist _ => exact hist ▸ h.recorded
  | append l hl hist _ source =>
    rw [hist]
    intro a ha
    rcases List.mem_append.mp ha with ha | ha
    · exact h.recorded a ha
    · rw [List.mem_singleton.mp ha]
      rcases source with ⟨ts,r,hr,he⟩ | ⟨key,kind,fields,hj,hk⟩ | hk
      · rcases h.jobs _ hr with hno | ⟨t,rfl⟩
        · refine .inr fun k hk heq => hno ?_
          rw [he,walEntry_kind] at heq
          exact Json.str.inj heq ▸ hk
        · exact .inl ⟨ts,t,he⟩
      · refine .inr fun k hmem heq => h.jobs _ hj ?_
        exact Json.str.inj (hk.symm.trans heq) ▸ hmem
      · refine .inr fun k hmem heq => ?_
        rw [← Json.str.inj (hk.symm.trans heq)] at hmem
        simp [topologyKinds] at hmem

theorem step (h : w.TopologyInv) {cfg : Config} {a : Action} (hs : World.step cfg w a = some w')
    (ha : ∀ r, a = .record r → r.kind ∉ topologyKinds) : w'.TopologyInv where
  cut := h.cut.step (World.step_log hs)
  jobs := by
    refine World.step_jobs hs ?_ (fun _ _ _ _ hr => Mutation.kind_notMem hr) (fun r hr => .inl (ha r hr)) h.jobs
    intro job happend hrecord
    cases job with
    | append key kind fields => exact absurd rfl (happend key kind fields)
    | registryAppend r => exact absurd rfl (hrecord r)
    | _ => trivial
  recorded := h.recorded_step (World.step_log hs)

theorem emitTopology (h : w.TopologyInv) (r : TopologyRecord) : (TopologyWorld.emitTopology w r).TopologyInv where
  cut := h.cut
  jobs job hj := by
    rcases List.mem_append.mp hj with hj | hj
    · exact h.jobs job hj
    · rw [List.mem_singleton.mp hj]
      exact .inr ⟨r,rfl⟩
  recorded := h.recorded

end World.TopologyInv

namespace TopologyWorld
variable {s s' : TopologyWorld} {cfg : Config}

/-- A checkout is one of the log and the sessions. -/
theorem checkout_world {ts : String} (h : s.checkout ts = some s') : s.world.checkout ts = some s'.world := by
  obtain ⟨w,hw,h⟩ := Option.bind_eq_some_iff.mp h
  rw [hw]
  split at h
  · obtain ⟨topologies,-,rfl⟩ := Option.map_eq_some_iff.mp h
    rfl
  · cases h
    rfl

theorem step_inv (h : s.world.TopologyInv) {a : TopologyAction} (hs : step cfg s a = some s') :
    s'.world.TopologyInv := by
  cases a with
  | createTopology t =>
    obtain ⟨-,hs⟩ := Option.ite_none_right_eq_some.mp hs
    cases hs
    exact h.emitTopology _
  | addTopologyMember name agent =>
    obtain ⟨t,-,hs⟩ := Option.bind_eq_some_iff.mp hs
    obtain ⟨hn,hs⟩ := Option.dite_none_right_eq_some.mp hs
    cases hs
    exact h.emitTopology _
  | removeTopologyMember name agent =>
    obtain ⟨t,-,hs⟩ := Option.bind_eq_some_iff.mp hs
    obtain ⟨hn,hs⟩ := Option.dite_none_right_eq_some.mp hs
    cases hs
    exact h.emitTopology _
  | deleteTopology name =>
    obtain ⟨t,-,rfl⟩ := Option.map_eq_some_iff.mp hs
    exact h.emitTopology _
  | cascadeAgentRemoval agent =>
    cases hs
    exact h
  | emit index =>
    obtain ⟨r,-,rfl⟩ := Option.map_eq_some_iff.mp hs
    exact h.emitTopology r
  | system a =>
    cases a with
    | record r =>
      obtain ⟨hr,hs⟩ := Option.ite_none_left_eq_some.mp hs
      obtain ⟨w,hw,rfl⟩ := Option.map_eq_some_iff.mp hs
      exact h.step hw fun r' he => by cases he; exact hr
    | checkout ts =>
      have hw : World.step cfg s.world (.checkout ts) = some s'.world := checkout_world hs
      exact h.step hw fun _ he => by cases he
    | truncateWal =>
      cases hs
      have hw : World.step cfg s.world .truncateWal = some (s.world.truncateWal cfg) := rfl
      exact h.step hw fun _ he => by cases he
    | _ =>
      obtain ⟨w,hw,rfl⟩ := Option.map_eq_some_iff.mp hs
      exact h.step hw fun _ he => by cases he

theorem run_inv {topologies : Dict String TopologyConfig}
    (hr : Runs (step cfg) (fun _ _ => True) (start topologies) s) : s.world.TopologyInv :=
  hr.invariant (I := fun s => s.world.TopologyInv) .init fun _ _ _ h _ hs => step_inv h hs

end TopologyWorld

section Checkout
variable {w w' : World} {ts name : String} {target : ℕ} {ht : target < w.lastSeq + 1}

theorem World.lineage_global_resetLine (ts : String) (ht : target < w.lastSeq + 1) :
    ((w.hist.snoc (w.resetLine ts target none ht) (w.lt_resetLine ts target none ht)).resets none).lineage
        (w.resetLine ts target none ht).seq =
      insert (w.resetLine ts target none ht).seq ((w.hist.resets none).lineage target) := by
  refine Wal.lineage_snoc_reset (WalLine.reset_record? _ _ _ _ _ _) ?_ (Nat.le_of_lt_succ ht)
  simp [RewindRecord.visible,Scope.tuple]

theorem World.resetLine_not_ofTopology (ts : String) (ht : target < w.lastSeq + 1) (name : String) :
    (w.resetLine ts target none ht).ofTopology name = false := by
  refine WalLine.not_ofTopology (fun k hk he => ?_) name
  have hkind : (w.resetLine ts target none ht).event.kind = .str "rewind" := walEntry_kind _ _ _ _
  rw [← Json.str.inj (hkind.symm.trans he)] at hk
  simp [topologyKinds] at hk

/-- A record of a topology stands after a global rewind when it is on the lineage of the target. -/
theorem CheckedOut.stands (hco : CheckedOut w w' ts target none ht) {l : WalLine} (hl : l ∈ w.hist.lines) :
    l.seq ∈ (w'.hist.resets none).lineage w'.hist.head ↔ l.seq ∈ (w.hist.resets none).lineage target := by
  have hlt : l.seq < (w.resetLine ts target none ht).seq := (w.hist.seq_le_head hl).trans_lt (w.lt_resetLine ts target none ht)
  have hhead : w'.hist.head = (w.resetLine ts target none ht).seq := hco.head
  rw [hhead,hco.hist,World.lineage_global_resetLine ts ht,Finset.mem_insert]
  exact or_iff_right hlt.ne

theorem CheckedOut.filter_stands (hco : CheckedOut w w' ts target none ht) {lines : List WalLine}
    (hl : ∀ l ∈ lines, l ∈ w.hist.lines) (p : ℕ → Bool)
    (hp : ∀ l ∈ lines, p l.seq = true ↔ l.seq ∈ (w'.hist.resets none).lineage w'.hist.head) (name : String) :
    (lines ++ [w.resetLine ts target none ht]).filter (fun l => l.ofTopology name && p l.seq) =
      lines.filter fun l => l.ofTopology name && l.seq ∈ (w.hist.resets none).lineage target := by
  have hreset := World.resetLine_not_ofTopology ts ht name
  rw [List.filter_append,List.filter_cons_of_neg (by simp [hreset]),List.filter_nil,List.append_nil]
  refine List.filter_congr fun l hmem => ?_
  have hiff := (hp l hmem).trans (hco.stands (hl l hmem))
  congr 1
  rw [Bool.eq_iff_iff,hiff,decide_eq_true_iff]

/-- The history's state of a topology after a global rewind is its state at the target. -/
theorem CheckedOut.topologyAt (hco : CheckedOut w w' ts target none ht) (name : String) :
    w'.hist.topologyAt name w'.hist.head = w.hist.topologyAt name target := by
  have hfilter := hco.filter_stands (fun _ hl => hl)
    (fun seq => decide (seq ∈ (w'.hist.resets none).lineage w'.hist.head)) (fun l _ => decide_eq_true_iff) name
  rw [Wal.topologyAt,Wal.topologyAt,Wal.lastTopologyRecord,Wal.lastTopologyRecord,← hfilter]
  congr 3
  rw [hco.hist,Wal.snoc_lines]

/-- The last record of a kind in the file is the last of the history, when that one is in the file. -/
theorem Cut.last_iff {hist : Wal} {wal : List WalLine} (h : Cut hist wal) {p : WalLine → Bool}
    (hp : ∀ l ∈ hist.lines, p l = true → isRewind l.event = false) (x : WalLine) :
    (wal.filter p).getLast? = some x ↔ (hist.lines.filter p).getLast? = some x ∧ x ∈ wal := by
  have hsub : (wal.filter p).Sublist (hist.lines.filter p) := h.kept.sub.filter p
  have hinc : (hist.lines.filter p).Pairwise (·.seq < ·.seq) := hist.increasing.sublist List.filter_sublist
  constructor
  · intro hkept
    obtain ⟨hx,hpx⟩ := List.mem_filter.mp (List.mem_of_getLast? hkept)
    have hmem := hsub.subset (List.mem_of_getLast? hkept)
    refine ⟨?_,hx⟩
    cases hlast : (hist.lines.filter p).getLast? with
    | none =>
      rw [List.getLast?_eq_none_iff.mp hlast] at hmem
      cases hmem
    | some l =>
      obtain ⟨hl,hpl⟩ := List.mem_filter.mp (List.mem_of_getLast? hlast)
      rcases KeyedLog.eq_or_lt_getLast hinc hlast hmem with rfl | hlt
      · rfl
      -- a later one would still be in the file
      · by_cases hin : l ∈ wal
        · rcases KeyedLog.eq_or_lt_getLast (hinc.sublist hsub) hkept (List.mem_filter.mpr ⟨hin,hpl⟩) with rfl | hlt'
          · rfl
          · exact absurd hlt' (Nat.lt_asymm hlt)
        · exact absurd (h.lt_of_not_mem hl hin hx (hp x (h.kept.sub.subset hx) hpx)) (Nat.lt_asymm hlt)
  · rintro ⟨hlast,hx⟩
    obtain ⟨hl,hpx⟩ := List.mem_filter.mp (List.mem_of_getLast? hlast)
    have hmem : x ∈ wal.filter p := List.mem_filter.mpr ⟨hx,hpx⟩
    cases hkept : (wal.filter p).getLast? with
    | none =>
      rw [List.getLast?_eq_none_iff.mp hkept] at hmem
      cases hmem
    | some y =>
      rcases KeyedLog.eq_or_lt_getLast (hinc.sublist hsub) hkept hmem with rfl | hlt
      · rfl
      · rcases KeyedLog.eq_or_lt_getLast hinc hlast (hsub.subset (List.mem_of_getLast? hkept)) with rfl | hlt'
        · rfl
        · exact absurd hlt' (Nat.lt_asymm hlt)

end Checkout

namespace TopologyWorld

/-- What a rewind to a target needs to restore a topology. When the file holds a record of it, the last
record on the target's lineage is in the file too, or removes it; when the file holds none, the
map is as it was at the target already. -/
def Remembered (s : TopologyWorld) (target : ℕ) (name : String) : Prop :=
  if s.world.wal.any (·.ofTopology name) then
    ∀ l, s.world.hist.lastTopologyRecord name target = some l → l.event.kind = .str "topology_removed" ∨ l ∈ s.world.wal
  else s.topologies.get? name = s.world.hist.topologyAt name target

/-- In every run, a global rewind leaves a topology in the state its last active record in the whole
history gives it exactly when it is remembered. -/
theorem checkout_restores_iff (cfg : Config) (topologies : Dict String TopologyConfig) (s : TopologyWorld)
    (hr : Runs (step cfg) (fun _ _ => True) (start topologies) s) (ts : String) (target : ℕ) (w' : World)
    (hadm : s.world.admitted = some (target,none)) (hc : s.world.checkout ts = some w') :
    ∃ s', step cfg s (.system (.checkout ts)) = some s' ∧ s'.world = w' ∧
      ∀ name, (∃ l ∈ w'.hist.lines, l.ofTopology name = true) →
        (s'.topologies.get? name = w'.hist.topologyAt name w'.hist.head ↔ s.Remembered target name) := by
  have hinv := run_inv hr
  obtain ⟨target',scope,ht,hco⟩ := World.checkout_cases hc
  obtain ⟨rfl,rfl⟩ := Prod.mk.inj (Option.some.inj (hco.admitted.symm.trans hadm))
  have hkept : Kept w'.hist w'.wal := by
    rw [hco.hist,hco.wal]
    exact hinv.cut.kept.snoc (s.world.lt_resetLine ts target' none ht)
  have hrec : ∀ l ∈ w'.wal, l.TopologyRecorded := fun l hl =>
    hinv.recorded_step (@World.step_log _ _ cfg (.checkout ts) hc) l (hkept.sub.subset hl)
  obtain ⟨after,hafter,hget⟩ := reconcileTopologiesAsOfCut_get? hkept hrec s.topologies
  refine ⟨{ s with world := w', topologies := after },?_,rfl,fun name htracked => ?_⟩
  · simp only [step,checkout,hc,hadm,Option.bind_some,hafter,Except.toOption,Option.map_some]
  have hmem : ∀ l ∈ s.world.wal, l ∈ s.world.hist.lines := fun l hl => hinv.cut.kept.sub.subset hl
  have hany : w'.wal.any (·.ofTopology name) = s.world.wal.any (·.ofTopology name) := by
    rw [hco.wal,List.any_append]
    simp [World.resetLine_not_ofTopology ts ht name]
  have hlast : ∀ x, (w'.wal.filter fun l => l.ofTopology name && w'.hist.isActive none l.seq).getLast? = some x ↔
      s.world.hist.lastTopologyRecord name target' = some x ∧ x ∈ s.world.wal := by
    intro x
    rw [hco.wal,hco.filter_stands hmem (w'.hist.isActive none) (fun l hl => w'.hist.isActive_iff none l.pos ?_) name]
    · refine hinv.cut.last_iff (fun l _ hp => ?_) x
      exact WalLine.not_rewind_of_ofTopology (Bool.and_eq_true_iff.mp hp).1
    · rw [hco.hist]
      exact (Wal.seq_le_head _ (List.mem_append_left _ (hmem l hl)))
  rw [hget,hany,hco.topologyAt,Remembered]
  split
  · rw [Wal.topologyAt]
    cases hl : s.world.hist.lastTopologyRecord name target' with
    | none =>
      have hnone : (w'.wal.filter fun l => l.ofTopology name && w'.hist.isActive none l.seq).getLast? = none := by
        refine Option.eq_none_iff_forall_ne_some.mpr fun x hx => ?_
        rw [((hlast x).mp hx).1] at hl
        cases hl
      simp [hnone]
    | some l =>
      obtain ⟨hlines,hp⟩ := List.mem_filter.mp (List.mem_of_getLast? hl)
      have hof : l.ofTopology name = true := (Bool.and_eq_true_iff.mp hp).1
      by_cases hin : l ∈ s.world.wal
      · simp [(hlast l).mpr ⟨hl,hin⟩,hin]
      · have hnone : (w'.wal.filter fun l => l.ofTopology name && w'.hist.isActive none l.seq).getLast? = none := by
          refine Option.eq_none_iff_forall_ne_some.mpr fun x hx => ?_
          obtain ⟨hx,hmemx⟩ := (hlast x).mp hx
          rw [Option.some.inj (hl.symm.trans hx)] at hin
          exact hin hmemx
        have hremoved := (hinv.recorded l hlines).config_eq_none_iff hof
        rw [hnone]
        constructor
        · intro he l' hl'
          rw [← Option.some.inj hl']
          exact .inl (hremoved.mp he.symm)
        · intro hall
          exact (hremoved.mpr ((hall l rfl).resolve_right hin)).symm
  · rfl

theorem ops_distinct : ["a"].Nodup := List.nodup_singleton "a"

theorem ops_bound : ∀ p ∈ ([] : List (String × String)), p.1 ∈ ["a"] := List.forall_mem_nil _

theorem ops_led : TopologyKind.network = .team → ∃ l ∈ ["a"], none = some l := TopologyKind.noConfusion

theorem ops_unled : TopologyKind.network ≠ .team → (none : Option String) = none := fun _ => rfl

/-- A network of one agent. -/
def sampleTopology : TopologyConfig :=
  ⟨⟨⟨"ops",["a"],[]⟩,.network,none,ops_distinct,ops_bound,ops_led,ops_unled⟩,""⟩

/-- The topology is created, gains a member, and a rewind to its creation is admitted. -/
def grownActions : List TopologyAction :=
  [.createTopology sampleTopology,.system (.work "t"),.addTopologyMember "ops" "b",.system (.work "t"),
    .system (.admission 1 none)]

def grownRun : Computed (runAll (step ⟨20,none⟩) (start .empty) grownActions) (fun s =>
    s.world.admitted == some (1,none) && (s.world.checkout "t").isSome &&
      (s.world.wal.any (·.ofTopology "ops") && decide (s.world.wal.length = s.world.hist.lines.length))) :=
  .of _ _ (by decide +kernel)

theorem checkout_restores_grown : ∃ s s', step ⟨20,none⟩ s (.system (.checkout "t")) = some s' ∧
    s'.topologies.get? "ops" = s'.world.hist.topologyAt "ops" s'.world.hist.head := by
  obtain ⟨s,hs,hseen⟩ := grownRun
  simp only [Bool.and_eq_true,beq_iff_eq,decide_eq_true_eq] at hseen
  obtain ⟨⟨hadm,hsome⟩,hany,hlength⟩ := hseen
  obtain ⟨w',hw'⟩ := Option.isSome_iff_exists.mp hsome
  have hrun : Runs _ (fun _ _ => True) _ s := Runs.of_runAll (.refl _) (fun _ _ _ => trivial) hs
  have hwhole : s.world.wal = s.world.hist.lines := (run_inv hrun).cut.kept.sub.eq_of_length hlength
  obtain ⟨s',hstep,hworld,hiff⟩ := checkout_restores_iff ⟨20,none⟩ .empty s hrun "t" 1 w' hadm hw'
  refine ⟨s,s',hstep,?_⟩
  rw [hworld]
  refine (hiff "ops" ?_).mpr ?_
  · obtain ⟨l,hl,hof⟩ := List.any_eq_true.mp hany
    obtain ⟨target,scope,ht,hco⟩ := World.checkout_cases hw'
    refine ⟨l,?_,hof⟩
    rw [hco.hist]
    exact List.mem_append_left _ (hwhole ▸ hl)
  · rw [Remembered,if_pos hany]
    intro l hl
    exact .inr (hwhole ▸ List.mem_of_mem_filter (List.mem_of_getLast? hl))

/-- The creation is truncated, a member is added, and a rewind to before that is admitted. -/
def forgottenActions : List TopologyAction :=
  let stage := Action.mutate ("a","main") (.nextTurnContextStaged "note" .null)
  [.createTopology sampleTopology] ++
    [.work "t",.load ("a","main"),stage,.work "t",.close ("a","main"),.work "t",.work "t",stage,.work "t",.truncateWal,
      .work "t"].map .system ++
    [.addTopologyMember "ops" "b",.system (.work "t"),.system (.admission 3 none)]

/-- The members the last record on the active branch of the history gives a topology. -/
def activeMembers (w : Wal) (name : String) : Option (List String) :=
  ((w.lines.filter fun l => l.ofTopology name && w.isActive none l.seq).getLast?.bind (·.topologyConfig)).map (·.members)

theorem activeMembers_eq (w : Wal) (name : String) :
    activeMembers w name = (w.topologyAt name w.head).map (·.members) := by
  rw [activeMembers,Wal.topologyAt,Wal.lastTopologyRecord]
  congr 3
  refine List.filter_congr fun l hl => ?_
  congr 1
  rw [Bool.eq_iff_iff,w.isActive_iff none l.pos (w.seq_le_head hl),decide_eq_true_iff]

def forgottenRun : Computed (runAll (step ⟨20,none⟩) (start .empty) forgottenActions) (fun s =>
    s.world.admitted == some (3,none) && ((s.topologies.get? "ops").map (·.members) == some ["a","b"] &&
      ((step ⟨20,none⟩ s (.system (.checkout "t"))).map fun s' =>
        ((s'.topologies.get? "ops").map (·.members),activeMembers s'.world.hist "ops")) == some (none,some ["a"]))) :=
  .of _ _ (by decide +kernel)

/-- A topology the history gives a state to is recorded there. -/
theorem exists_record_of_topologyAt {w : Wal} {name : String} {h : ℕ} {t : TopologyConfig}
    (ht : w.topologyAt name h = some t) : ∃ l ∈ w.lines, l.ofTopology name = true := by
  obtain ⟨l,hl,-⟩ := Option.bind_eq_some_iff.mp ht
  obtain ⟨hmem,hp⟩ := List.mem_filter.mp (List.mem_of_getLast? hl)
  exact ⟨l,hmem,(Bool.and_eq_true_iff.mp hp).1⟩

/-- The topology was there at the target, and the rewind deletes it. -/
theorem checkout_deletes_truncated :
    ¬ ∀ (cfg : Config) (topologies : Dict String TopologyConfig) (s s' : TopologyWorld) (ts : String) (target : ℕ),
      Runs (step cfg) (fun _ _ => True) (start topologies) s → s.world.admitted = some (target,none) →
      step cfg s (.system (.checkout ts)) = some s' →
      ∀ name, (∃ l ∈ s'.world.hist.lines, l.ofTopology name = true) →
        s'.topologies.get? name = s'.world.hist.topologyAt name s'.world.hist.head := by
  intro h
  obtain ⟨s,hs,hseen⟩ := forgottenRun
  simp only [Bool.and_eq_true,beq_iff_eq] at hseen
  obtain ⟨hadm,-,hstep⟩ := hseen
  obtain ⟨s',hs',he⟩ := Option.map_eq_some_iff.mp hstep
  obtain ⟨hgone,hwas⟩ := Prod.mk.inj he
  rw [activeMembers_eq] at hwas
  obtain ⟨t,ht,-⟩ := Option.map_eq_some_iff.mp hwas
  have hkept := h ⟨20,none⟩ .empty s s' "t" 3 (Runs.of_runAll (.refl _) (fun _ _ _ => trivial) hs) hadm hs' "ops"
    (exists_record_of_topologyAt ht)
  rw [ht,Option.map_eq_none_iff.mp hgone] at hkept
  cases hkept

end TopologyWorld
end Reyn
