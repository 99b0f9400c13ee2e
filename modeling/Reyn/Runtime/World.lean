import Reyn.Runtime.SessionHistory
import Reyn.Lib.Runs

/-! # The running sessions, the log and the durability worker

Every session has a journal in memory, a snapshot file and a store of generations.
The journals and the registry hand their writes to one worker, which runs them in
the order they came: an append takes the next sequence number, a snapshot or a
generation is stamped with the number of the last append. A rewind is admitted
against the log as it is, and carried out once the worker has drained.
-/
namespace Reyn
open Py

/-- A blocking append of the registry; it names no session to route to. -/
structure RegistryRecord where
  kind : String
  fields : WalFields
  ordinary : kind ≠ "rewind"
  untargeted : fields.items.lookup "target" = none
  unowned : fields.items.lookup "agent" = none

/-- What waits at the worker. A snapshot that has been written is acknowledged to its
journal before the next job runs. -/
inductive Job where
  | append (key : SessionKey) (kind : String) (fields : WalFields)
  | registryAppend (record : RegistryRecord)
  | snapshot (key : SessionKey) (payload : AgentSnapshot)
  | acknowledge (key : SessionKey) (seq : ℕ)
  | generation (key : SessionKey) (payload : AgentSnapshot)
  | truncate (minKeepSeq : ℕ)

def Submission.job (key : SessionKey) : Submission → Job
  | .append kind fields => .append key kind fields
  | .snapshot payload => .snapshot key payload

structure Session where
  journal : SnapshotJournal
  store : SnapshotGenerationStore
  file : Option AgentSnapshot

def Session.new (key : SessionKey) (snapshotInterval : ℕ) : Session :=
  ⟨.new key.1 key.2 snapshotInterval,.empty,none⟩

/-- `journal.snapshot.applied_seq`, the watermark the truncation floor reads. -/
def Session.applied (s : Session) : ℕ := s.journal.snapshot.appliedSeq

def Session.acknowledge (s : Session) (seq : ℕ) : Session :=
  { s with journal := { s.journal with snapshot := { s.journal.snapshot with appliedSeq := seq } } }

structure Config where
  snapshotInterval : ℕ
  keepGenerations : Option ℕ

/-- `hist` is every entry ever appended and `written` every file the worker wrote; the
code keeps neither. The counter of the log is the head of `hist`. -/
structure World where
  hist : Wal
  wal : List WalLine
  queue : List Job
  sessions : Dict SessionKey Session
  pruneDue : List (SessionKey × ℕ)
  admitted : Option (ℕ × Scope)
  written : List (SessionKey × AgentSnapshot)

inductive Action where
  | load (key : SessionKey)
  | mutate (key : SessionKey) (m : Mutation)
  | cutGeneration (key : SessionKey)
  | close (key : SessionKey)
  | record (r : RegistryRecord)
  | work (ts : String)
  | truncateWal
  | prune
  | admission (target : ℕ) (scope : Scope)
  | checkout (ts : String)

/-- The highest sequence number in the file, 0 for an empty one. -/
def highestSeq (wal : List WalLine) : ℕ := (wal.map (·.seq)).foldr max 0

/-- `_do_truncate`: the entry with the highest number and every reset-record stay. -/
def doTruncate (minKeepSeq : ℕ) (wal : List WalLine) : List WalLine :=
  let effectiveFloor := min minKeepSeq (highestSeq wal)
  wal.filter fun l => effectiveFloor ≤ l.seq || isRewind l.event

/-- The `n`-th newest checkpoint, or the oldest one, holds the floor down. -/
def computeRetentionFloor (keepGenerations : Option ℕ) (liveFloor : ℕ) (checkpointSeqs : List ℕ) : ℕ :=
  match keepGenerations with
  | none => liveFloor
  | some n =>
    match checkpointSeqs[checkpointSeqs.length - max 1 n]? with
    | none => liveFloor
    | some oldest => min liveFloor oldest

/-- Bring a session to what `reconstruct` finds at the reset-record. -/
def Session.rewind (s : Session) (key : SessionKey) (wal : List WalLine) (resetSeq : ℕ) : Session :=
  match reconstruct key.1 key.2 s.store (wal.map (·.event)) resetSeq (some key) with
  | .error _ => s
  | .ok snap =>
    let pinned := { snap with appliedSeq := resetSeq }
    { s with journal := { s.journal with snapshot := pinned }, file := some pinned }

namespace World

def init : World := ⟨⟨[],Wal.increasing_nil⟩,[],[],.empty,[],none,[]⟩

/-- `last_assigned_seq` -/
def lastSeq (w : World) : ℕ := w.hist.head

/-- The write job of an append, in the history and in the file. -/
def appendLine (w : World) (l : WalLine) (h : w.hist.head < l.seq) (rest : List Job) : World :=
  { w with hist := w.hist.snoc l h, wal := w.wal ++ [l], queue := rest }

@[simp] theorem appendLine_head (w : World) (l : WalLine) (h : w.hist.head < l.seq) (rest : List Job) :
    (w.appendLine l h rest).hist.head = l.seq := by simp [appendLine]

def nextLine (w : World) (ts kind : String) (fields : WalFields) (h : kind ≠ "rewind") : WalLine :=
  .ordinary (w.lastSeq + 1) ts kind fields (Nat.succ_pos _) h

theorem lt_nextLine (w : World) (ts kind : String) (fields : WalFields) (h : kind ≠ "rewind") :
    w.hist.head < (w.nextLine ts kind fields h).seq := Nat.lt_succ_self _

def resetLine (w : World) (ts : String) (target : ℕ) (scope : Scope) (h : target < w.lastSeq + 1) : WalLine :=
  .reset (w.lastSeq + 1) ts target (some w.lastSeq) scope h

theorem lt_resetLine (w : World) (ts : String) (target : ℕ) (scope : Scope) (h : target < w.lastSeq + 1) :
    w.hist.head < (w.resetLine ts target scope h).seq := Nat.lt_succ_self _

/-- `min(applied_seq) + 1` over the sessions that have one, or 0. -/
def computeLiveFloor (w : World) : ℕ :=
  match ((w.sessions.items.map fun p => p.2.applied).filter (0 < ·)).min? with
  | none => 0
  | some low => low + 1

/-- The generations of the main sessions, sorted. -/
def checkpointSeqs (w : World) : List ℕ :=
  ((w.sessions.items.filter fun p => p.1.2 = "main").flatMap fun p => p.2.store.seqs).dedup.insertionSort (· ≤ ·)

def computeTruncateFloor (cfg : Config) (w : World) : ℕ :=
  if cfg.keepGenerations = none ∨ w.computeLiveFloor = 0 then w.computeLiveFloor
  else computeRetentionFloor cfg.keepGenerations w.computeLiveFloor w.checkpointSeqs

/-- `_oldest_kept_seq`: the first entry the file yields. -/
def oldestKeptSeq (w : World) : Option ℕ := w.wal.head?.map (·.seq)

/-- The sessions a rewind of the scope materialises. -/
def rewinds (scope : Scope) (key : SessionKey) : Bool := scope = none || scope = some key

/-- The worker runs the first job. -/
def work (w : World) (ts : String) : Option World :=
  match w.queue with
  | [] => none
  | .append _ kind fields :: rest =>
    if h : kind ≠ "rewind" then some (w.appendLine (w.nextLine ts kind fields h) (w.lt_nextLine ts kind fields h) rest)
    else none
  | .registryAppend r :: rest =>
    some (w.appendLine (w.nextLine ts r.kind r.fields r.ordinary) (w.lt_nextLine ts r.kind r.fields r.ordinary) rest)
  | .snapshot key payload :: rest =>
    let stamped := { payload with appliedSeq := w.lastSeq }
    some { w with
      sessions := w.sessions.modify key fun s => { s with file := some stamped }
      queue := .acknowledge key w.lastSeq :: rest
      written := w.written ++ [(key,stamped)] }
  | .acknowledge key seq :: rest =>
    some { w with sessions := w.sessions.modify key (·.acknowledge seq), queue := rest }
  | .generation key payload :: rest =>
    some { w with
      sessions := w.sessions.modify key fun s => { s with store := s.store.recordPayload payload w.lastSeq }
      queue := rest
      written := w.written ++ [(key,{ payload with appliedSeq := w.lastSeq })] }
  | .truncate minKeepSeq :: rest => some { w with wal := doTruncate minKeepSeq w.wal, queue := rest }

/-- `truncate_wal_if_eligible`: hand the rewrite to the worker, then prune every store. -/
def truncateWal (cfg : Config) (w : World) : World :=
  let floor := computeTruncateFloor cfg w
  if floor = 0 then w
  else { w with
    queue := w.queue ++ [.truncate floor]
    pruneDue := w.pruneDue ++ w.sessions.keys.map (·,floor) }

/-- The retention guard of `checkout`, over a sequence number of the log. -/
def admission (w : World) (target : ℕ) (scope : Scope) : Option World :=
  let retained := w.oldestKeptSeq.all (· ≤ target)
  let known := scope.all fun key => (w.sessions.get? key).isSome
  if w.admitted = none ∧ target ≤ w.lastSeq ∧ retained ∧ known then
    some { w with admitted := some (target,scope) }
  else none

/-- `_materialize_rewind` over the log that ends with the reset-record. -/
def materializeRewind (w : World) (scope : Scope) (resetSeq : ℕ) : World :=
  { w with
    admitted := none
    sessions := w.sessions.mapVal fun key s => if rewinds scope key then s.rewind key w.wal resetSeq else s }

/-- The rest of `checkout`: the awaited append of the reset-record, and its materialisation. -/
def checkout (w : World) (ts : String) : Option World :=
  match w.admitted with
  | none => none
  | some (target,scope) =>
    if h : w.queue = [] ∧ target < w.lastSeq + 1 then
      let appended := w.appendLine (w.resetLine ts target scope h.2) (w.lt_resetLine ts target scope h.2) []
      some (appended.materializeRewind scope (w.lastSeq + 1))
    else none

def step (cfg : Config) (w : World) : Action → Option World
  | .load key =>
    match w.sessions.get? key with
    | some _ => none
    | none => some { w with sessions := w.sessions.set key (.new key cfg.snapshotInterval) }
  | .mutate key m =>
    (w.sessions.get? key).map fun s =>
      let issued := s.journal.issue m
      { w with
        sessions := w.sessions.set key { s with journal := issued.1 }
        queue := w.queue ++ issued.2.map (·.job key) }
  | .cutGeneration key =>
    (w.sessions.get? key).map fun s =>
      { w with queue := w.queue ++ [.generation key s.journal.snapshot] }
  | .close key =>
    (w.sessions.get? key).map fun s =>
      let closed := s.journal.close
      { w with
        sessions := w.sessions.set key { s with journal := closed.1 }
        queue := w.queue ++ closed.2.map (·.job key) }
  | .record r => some { w with queue := w.queue ++ [.registryAppend r] }
  | .work ts => w.work ts
  | .truncateWal => some (truncateWal cfg w)
  | .prune =>
    match w.pruneDue with
    | [] => none
    | (key,floor) :: rest =>
      some { w with
        sessions := w.sessions.modify key fun s => { s with store := s.store.pruneBelow floor }
        pruneDue := rest }
  | .admission target scope => w.admission target scope
  | .checkout ts => w.checkout ts

end World
end Reyn
