import Reyn.Events.WalEntry

/-! # The snapshot journal

Every mutator appends one entry to the log, mirrors the change into the live
snapshot and counts towards the next snapshot write. A mutator is its recording:
the entry it appends and the mirror. Cancelling an absent message and consuming
no message record nothing.
-/
namespace Reyn
open Py

/-- The (agent, session) a snapshot, a journal or a log entry belongs to. -/
abbrev SessionKey := String × String

/-- An identifier that is not the empty string (message, run and intervention ids are UUIDs). -/
abbrev Ident := {s : String // s ≠ ""}

def AgentSnapshot.key (s : AgentSnapshot) : SessionKey := (s.agentName,s.sessionId)

/-- One mutation: the entry it appends and what it does to the live snapshot. -/
structure Recording where
  kind : String
  fields : WalFields
  mirror : AgentSnapshot → AgentSnapshot

/-- What `ChainManager.register` persists about a new chain. -/
structure ChainRegistration where
  requesterAgent : String
  requesterSession : String
  originDepth : Int
  originalRequest : String
  waitingOn : List String
  taskKind : Option String
  registeredAt : String
  deriving DecidableEq

def strings (xs : List String) : Json := .arr (xs.map .str)

def ChainRegistration.fields (r : ChainRegistration) : List (String × Json) :=
  [("requester",.obj [("agent_name",.str r.requesterAgent),("session_id",.str r.requesterSession)]),
   ("origin_depth",.int r.originDepth),("original_request",.str r.originalRequest),
   ("waiting_on",strings r.waitingOn),("task_kind",.ofStr? r.taskKind),
   ("registered_at",.str r.registeredAt)]

/-- The fields `ChainManager` passes to an update: one of three. -/
inductive ChainUpdate where
  | waitingOn (names : List String)
  | armAt (iso : String)
  | cancelRequestedAt (iso : String)
  deriving DecidableEq

def ChainUpdate.fields : ChainUpdate → List (String × Json)
  | .waitingOn names => [("waiting_on",strings names)]
  | .armAt iso => [("arm_at",.str iso)]
  | .cancelRequestedAt iso => [("cancel_requested_at",.str iso)]

section Mutators
variable (s : AgentSnapshot)

def appendInbox (msgId : Ident) (kind : String) (payload : Dict String Json) : Recording :=
  let fullPayload := Json.obj (payload.set "_msg_id" (.str msgId)).items
  { kind := "inbox_put"
    fields := ⟨[("session_id",.str s.sessionId),("target",.str s.agentName),("msg_id",.str msgId),
      ("msg_kind",.str kind),("payload",fullPayload)],by simp,by simp⟩
    mirror := fun s => { s with inbox := s.inbox ++ [⟨.str msgId,.str kind,fullPayload⟩] } }

/-- `consume_inbox` and `cancel_inbox` differ in the kind they append. -/
def pruneInbox (kind : String) (msgId : Ident) : Recording :=
  { kind := kind
    fields := ⟨[("session_id",.str s.sessionId),("agent",.str s.agentName),("msg_id",.str msgId)],
      by simp,by simp⟩
    mirror := fun s => { s with inbox := s.inbox.filter fun m => m.id != .str msgId } }

def consumeInbox : Option Ident → Option Recording
  | none => none
  | some msgId => some (pruneInbox s "inbox_consume" msgId)

def cancelInbox : Option Ident → Option Recording
  | none => none
  | some msgId =>
    if s.inbox.any (fun m => m.id == .str msgId) then some (pruneInbox s "inbox_cancel" msgId) else none

def recordChainRegister (chainId : String) (r : ChainRegistration) : Recording :=
  let chain := Dict.ofList (("chain_id",.str chainId) :: r.fields)
  { kind := "chain_register"
    fields := ⟨("session_id",.str s.sessionId) :: ("agent",.str s.agentName) ::
      ("chain_id",.str chainId) :: r.fields,by simp [ChainRegistration.fields],by simp [ChainRegistration.fields]⟩
    mirror := fun s => { s with pendingChains := s.pendingChains.set chainId chain } }

def recordChainUpdate (chainId : String) (u : ChainUpdate) : Recording :=
  { kind := "chain_update"
    fields := ⟨("session_id",.str s.sessionId) :: ("agent",.str s.agentName) ::
      ("chain_id",.str chainId) :: u.fields,by cases u <;> simp [ChainUpdate.fields],
      by cases u <;> simp [ChainUpdate.fields]⟩
    mirror := fun s =>
      match s.pendingChains.get? chainId with
      | none => s
      | some chain => { s with pendingChains := s.pendingChains.set chainId (chain.update u.fields) } }

/-- `record_chain_resolve` and `record_chain_timeout_fired` differ in the kind they append. -/
def dropChain (kind chainId : String) : Recording :=
  { kind := kind
    fields := ⟨[("session_id",.str s.sessionId),("agent",.str s.agentName),("chain_id",.str chainId)],
      by simp,by simp⟩
    mirror := fun s => { s with pendingChains := s.pendingChains.pop chainId } }

def recordChainResolve (chainId : String) : Recording := dropChain s "chain_resolve" chainId
def recordChainTimeoutFired (chainId : String) : Recording := dropChain s "chain_timeout_fired" chainId

def recordInterventionDispatched (id : Ident) (ivDict : List (String × Json)) : Recording :=
  { kind := "intervention_dispatched"
    fields := ⟨[("session_id",.str s.sessionId),("target",.str s.agentName),("intervention_id",.str id),
      ("iv_dict",.obj ivDict)],by simp,by simp⟩
    mirror := fun s => { s with outstandingInterventions := s.outstandingInterventions.set id (.obj ivDict) } }

def recordInterventionResolved (id : Ident) : Recording :=
  { kind := "intervention_resolved"
    fields := ⟨[("session_id",.str s.sessionId),("target",.str s.agentName),("intervention_id",.str id)],
      by simp,by simp⟩
    mirror := fun s => { s with outstandingInterventions := s.outstandingInterventions.pop id } }

def recordInterventionAnswerBuffered (runId : Ident) (text : String) (choiceId : Option String) : Recording :=
  let answer := .obj [("text",.str text),("choice_id",.ofStr? choiceId)]
  { kind := "intervention_answer_buffered"
    fields := ⟨[("session_id",.str s.sessionId),("target",.str s.agentName),("run_id",.str runId),
      ("text",.str text),("choice_id",.ofStr? choiceId)],by simp,by simp⟩
    mirror := fun s => { s with bufferedInterventionAnswers := s.bufferedInterventionAnswers.set runId answer } }

def recordInterventionAnswerConsumed (runId : Ident) : Recording :=
  { kind := "intervention_answer_consumed"
    fields := ⟨[("session_id",.str s.sessionId),("target",.str s.agentName),("run_id",.str runId)],
      by simp,by simp⟩
    mirror := fun s => { s with bufferedInterventionAnswers := s.bufferedInterventionAnswers.pop runId } }

def recordNextTurnContextStaged (kind : String) (payload : Json) : Recording :=
  let entry := Json.obj [("kind",.str kind),("payload",payload)]
  { kind := "next_turn_context_staged"
    fields := ⟨[("session_id",.str s.sessionId),("target",.str s.agentName),("entry",entry)],by simp,by simp⟩
    mirror := fun s => { s with nextTurnContext := s.nextTurnContext ++ [entry] } }

def recordNextTurnContextCleared : Recording :=
  { kind := "next_turn_context_cleared"
    fields := ⟨[("session_id",.str s.sessionId),("target",.str s.agentName)],by simp,by simp⟩
    mirror := fun s => { s with nextTurnContext := [] } }

end Mutators

/-- A call of one of the journal's mutators. -/
inductive Mutation where
  | appendInbox (msgId : Ident) (kind : String) (payload : Dict String Json)
  | consumeInbox (msgId : Option Ident)
  | cancelInbox (msgId : Option Ident)
  | chainRegister (chainId : String) (r : ChainRegistration)
  | chainUpdate (chainId : String) (u : ChainUpdate)
  | chainResolve (chainId : String)
  | chainTimeoutFired (chainId : String)
  | interventionDispatched (id : Ident) (ivDict : List (String × Json))
  | interventionResolved (id : Ident)
  | answerBuffered (runId : Ident) (text : String) (choiceId : Option String)
  | answerConsumed (runId : Ident)
  | nextTurnContextStaged (kind : String) (payload : Json)
  | nextTurnContextCleared

/-- What a call records over the live snapshot, if anything. -/
def Mutation.recording (s : AgentSnapshot) : Mutation → Option Recording
  | .appendInbox msgId kind payload => some (Reyn.appendInbox s msgId kind payload)
  | .consumeInbox msgId => Reyn.consumeInbox s msgId
  | .cancelInbox msgId => Reyn.cancelInbox s msgId
  | .chainRegister chainId r => some (recordChainRegister s chainId r)
  | .chainUpdate chainId u => some (recordChainUpdate s chainId u)
  | .chainResolve chainId => some (recordChainResolve s chainId)
  | .chainTimeoutFired chainId => some (recordChainTimeoutFired s chainId)
  | .interventionDispatched id ivDict => some (recordInterventionDispatched s id ivDict)
  | .interventionResolved id => some (recordInterventionResolved s id)
  | .answerBuffered runId text choiceId => some (recordInterventionAnswerBuffered s runId text choiceId)
  | .answerConsumed runId => some (recordInterventionAnswerConsumed s runId)
  | .nextTurnContextStaged kind payload => some (recordNextTurnContextStaged s kind payload)
  | .nextTurnContextCleared => some (recordNextTurnContextCleared s)

/-- What a journal hands to the durability worker, in order. A snapshot carries the payload
captured when it was handed over; its `applied_seq` is stamped by the worker. -/
inductive Submission where
  | append (kind : String) (fields : WalFields)
  | snapshot (payload : AgentSnapshot)

structure SnapshotJournal where
  snapshot : AgentSnapshot
  walAppendsSinceSnapshot : ℕ
  snapshotInterval : ℕ

namespace SnapshotJournal

def new (agentName sessionId : String) (snapshotInterval : ℕ) : SnapshotJournal :=
  ⟨.empty agentName sessionId,0,snapshotInterval⟩

/-- Count the append; every `snapshot_interval`-th one captures and submits the snapshot. -/
def saveNowait (j : SnapshotJournal) : SnapshotJournal × List Submission :=
  if j.walAppendsSinceSnapshot + 1 < j.snapshotInterval then
    ({ j with walAppendsSinceSnapshot := j.walAppendsSinceSnapshot + 1 },[])
  else ({ j with walAppendsSinceSnapshot := 0 },[.snapshot j.snapshot])

/-- The common body of the mutators: append, mirror, count. -/
def record (j : SnapshotJournal) (r : Recording) : SnapshotJournal × List Submission :=
  let saved := saveNowait { j with snapshot := r.mirror j.snapshot }
  (saved.1,.append r.kind r.fields :: saved.2)

def issue (j : SnapshotJournal) (m : Mutation) : SnapshotJournal × List Submission :=
  match m.recording j.snapshot with
  | none => (j,[])
  | some r => j.record r

/-- The unconditional final capture. -/
def close (j : SnapshotJournal) : SnapshotJournal × List Submission :=
  ({ j with walAppendsSinceSnapshot := 0 },[.snapshot j.snapshot])

@[simp] theorem saveNowait_snapshot (j : SnapshotJournal) : j.saveNowait.1.snapshot = j.snapshot := by
  unfold saveNowait
  split <;> rfl

@[simp] theorem record_snapshot (j : SnapshotJournal) (r : Recording) :
    (j.record r).1.snapshot = r.mirror j.snapshot := by simp [record]

end SnapshotJournal
end Reyn
