import Reyn.Events.WalEntry

/-! # Snapshot generations and the branch model

A generation is a snapshot kept under the sequence number it was cut at. The
branch model derives the active timeline from the reset-records alone, latest
first, and `reconstruct` replays the active delta over the nearest active
generation.
-/
namespace Reyn
open Py

/-- The generations of one session, in increasing order of their sequence numbers. -/
structure SnapshotGenerationStore where
  gens : List (ℕ × AgentSnapshot)
  sorted : gens.Pairwise (·.1 < ·.1)
  deriving DecidableEq

namespace SnapshotGenerationStore

def empty : SnapshotGenerationStore := ⟨[],List.Pairwise.nil⟩

def seqs (store : SnapshotGenerationStore) : List ℕ := store.gens.map Prod.fst

def load? (store : SnapshotGenerationStore) (seq : ℕ) : Option AgentSnapshot := store.gens.lookup seq

/-- `prune_below`: drop the generations under the floor. -/
def pruneBelow (store : SnapshotGenerationStore) (minKeepSeq : ℕ) : SnapshotGenerationStore :=
  ⟨store.gens.filter fun g => minKeepSeq ≤ g.1,store.sorted.sublist List.filter_sublist⟩

/-- Insert in order; a generation at the same sequence number is overwritten. -/
def insertGen (seq : ℕ) (payload : AgentSnapshot) : List (ℕ × AgentSnapshot) → List (ℕ × AgentSnapshot)
  | [] => [(seq,payload)]
  | g :: rest =>
    if seq < g.1 then (seq,payload) :: g :: rest
    else if seq = g.1 then (seq,payload) :: rest
    else g :: insertGen seq payload rest

theorem insertGen_mem {seq : ℕ} {payload : AgentSnapshot} {l : List (ℕ × AgentSnapshot)} {g : ℕ × AgentSnapshot}
    (h : g ∈ insertGen seq payload l) : g = (seq,payload) ∨ g ∈ l := by
  induction l with
  | nil => exact .inl (List.mem_singleton.mp h)
  | cons x rest ih =>
    simp only [insertGen] at h
    split at h
    · exact List.mem_cons.mp h
    · split at h
      · rcases List.mem_cons.mp h with h | h
        · exact .inl h
        · exact .inr (List.mem_cons_of_mem _ h)
      · rcases List.mem_cons.mp h with rfl | h
        · exact .inr List.mem_cons_self
        · exact (ih h).imp id (List.mem_cons_of_mem _)

theorem insertGen_sorted (seq : ℕ) (payload : AgentSnapshot) {l : List (ℕ × AgentSnapshot)}
    (h : l.Pairwise (·.1 < ·.1)) : (insertGen seq payload l).Pairwise (·.1 < ·.1) := by
  induction l with
  | nil => exact List.pairwise_singleton _ _
  | cons x rest ih =>
    obtain ⟨hx,hrest⟩ := List.pairwise_cons.mp h
    simp only [insertGen]
    split
    · rename_i hlt
      refine List.pairwise_cons.mpr ⟨fun g hg => ?_,h⟩
      rcases List.mem_cons.mp hg with rfl | hg
      · exact hlt
      · exact hlt.trans (hx g hg)
    · split
      · rename_i heq
        exact List.pairwise_cons.mpr ⟨fun g hg => heq ▸ hx g hg,hrest⟩
      · refine List.pairwise_cons.mpr ⟨fun g hg => ?_,ih hrest⟩
        rcases insertGen_mem hg with rfl | hg
        · dsimp only; omega
        · exact hx g hg

/-- `record_payload`: keep the payload, stamped, under its sequence number. -/
def recordPayload (store : SnapshotGenerationStore) (payload : AgentSnapshot) (seq : ℕ) :
    SnapshotGenerationStore :=
  ⟨insertGen seq { payload with appliedSeq := seq } store.gens,insertGen_sorted _ _ store.sorted⟩

end SnapshotGenerationStore

/-- A reset-record: its own sequence number, its target and the session it is confined to. -/
structure RewindRecord where
  r : ℕ
  targetN : ℕ
  scope : Option (List Json)
  deriving DecidableEq

/-- The scope of a query or of a rewind: one (agent, session), or every session. -/
abbrev Scope := Option (String × String)

def Scope.tuple (scope : Scope) : Option (List Json) := scope.map fun k => [.str k.1,.str k.2]

/-- The fields `checkout` appends with the kind `rewind`; a global record has no `scope` key. -/
def checkoutFields (targetSeq : ℕ) (supersedes : Option ℕ) (scope : Scope) : WalFields where
  items := ("target_n",.int targetSeq) :: ("supersedes",match supersedes with
    | some n => .int n
    | none => .null) :: (scope.tuple.map fun xs => ("scope",Json.arr xs)).toList
  distinct := by cases scope <;> simp [Scope.tuple]
  unstamped := by cases scope <;> simp [Scope.tuple]

def decodeScope : Json → Except PyError (Option (List Json))
  | .null => .ok none
  | v => (needArr "scope" v).map some

/-- The fields `_RewindIndex.records` reads; sequence numbers and targets are not negative. -/
def decodeRewind (e : Event) : Except PyError RewindRecord := do
  let seq ← (e.item "seq") >>= needInt "seq"
  let n ← (e.item "target_n") >>= needInt "target_n"
  let scope ← decodeScope (e.getD "scope" .null)
  return ⟨seq.toNat,n.toNat,scope⟩

def isRewind (e : Event) : Bool := e.kind = .str "rewind"

def rewindRecordsWithScope (wal : List Event) : Except PyError (List RewindRecord) :=
  (wal.filter isRewind).mapM decodeRewind

/-- A global record is visible to every query, a scoped one to its own session's. -/
def RewindRecord.visible (record : RewindRecord) (scope : Scope) : Bool :=
  record.scope = none || record.scope = scope.tuple

def isInside (abandoned : List (ℕ × ℕ)) (s : ℕ) : Bool := abandoned.any fun p => p.1 < s && s < p.2

/-- The latest-first loop of `_abandoned_intervals`. -/
def abandonStep (abandoned : List (ℕ × ℕ)) (record : ℕ × ℕ) : List (ℕ × ℕ) :=
  if isInside abandoned record.1 then abandoned else abandoned ++ [(record.2,record.1)]

/-- Open intervals `(target_n, R)` abandoned by the records `(R, target_n)`. -/
def abandonedIntervals (rewinds : List (ℕ × ℕ)) : List (ℕ × ℕ) :=
  (rewinds.insertionSort fun a b => b.1 ≤ a.1).foldl abandonStep []

def makeIsActive (abandoned : List (ℕ × ℕ)) (s : ℕ) : Bool := !isInside abandoned s

def visibleRecords (records : List RewindRecord) (scope : Scope) : List (ℕ × ℕ) :=
  (records.filter (·.visible scope)).map fun record => (record.r,record.targetN)

def buildActivePredicate (wal : List Event) (scope : Scope) : Except PyError (ℕ → Bool) := do
  let records ← rewindRecordsWithScope wal
  return makeIsActive (abandonedIntervals (visibleRecords records scope))

/-- The record with the highest sequence number. -/
def latestRewind (records : List RewindRecord) : Option RewindRecord :=
  records.foldl (fun best record =>
    match best with
    | none => some record
    | some b => if b.r < record.r then some record else some b) none

def activeRewindTargetWithScope (wal : List Event) : Except PyError (Option (ℕ × Option (List Json))) := do
  let records ← rewindRecordsWithScope wal
  return (latestRewind records).map fun record => (record.targetN,record.scope)

/-- `iter_from(min_seq)` over the parsed entries. -/
def iterFrom (wal : List Event) (minSeq : ℕ) : List Event :=
  wal.filter fun e => match e.seq? with
    | some i => (minSeq : Int) ≤ i
    | none => false

/-- The nearest active generation at or below the target. -/
def baseSeq (store : SnapshotGenerationStore) (isActive : ℕ → Bool) (targetSeq : ℕ) : Option ℕ :=
  store.seqs.reverse.find? fun s => s ≤ targetSeq && isActive s

def baseSnapshot (agentName sessionId : String) (store : SnapshotGenerationStore) (base : Option ℕ) :
    AgentSnapshot :=
  (base.bind store.load?).getD (.empty agentName sessionId)

/-- State of a session as of `target_seq` on the active branch. -/
def reconstruct (agentName sessionId : String) (store : SnapshotGenerationStore) (wal : List Event)
    (targetSeq : ℕ) (scope : Scope) : Except PyError AgentSnapshot := do
  let isActive ← buildActivePredicate wal scope
  let base := baseSnapshot agentName sessionId store (baseSeq store isActive targetSeq)
  let delta := (iterFrom wal (base.appliedSeq + 1)).filter fun e => match e.seq? with
    | some i => i ≤ targetSeq && isActive i.toNat
    | none => false
  base.applyEvents delta

end Reyn
