import Reyn.Lib.Dict
import Reyn.Lib.Json

/-! # Agent snapshots and their replay from the write-ahead log

A log entry is a dictionary of JSON values. The replay reads its fields by name,
so that a missing key is the `KeyError` the code raises. The identifiers of
chains, interventions and runs are strings wherever an entry carries them, and
`origin_depth` is an integer; any other type is a `TypeError` here.
-/
namespace Reyn
open Py

/-- One entry of the write-ahead log, as the readers see it. -/
abbrev Event := Dict String Json

inductive PyError where
  | keyError (key : String)
  | typeError (key : String)
  deriving DecidableEq

/-- `event[key]` -/
def Event.item (e : Event) (key : String) : Except PyError Json :=
  match e.get? key with
  | some v => .ok v
  | none => .error (.keyError key)

/-- `event.get(key, default)` -/
def Event.getD (e : Event) (key : String) (d : Json) : Json := (e.get? key).getD d

/-- `isinstance(event.get("seq"), int)`, with the value. -/
def Event.seq? (e : Event) : Option Int := (e.get? "seq").bind Json.asInt

def Event.kind (e : Event) : Json := e.getD "kind" .null

def needStr (key : String) (v : Json) : Except PyError String :=
  match v.asStr with
  | some s => .ok s
  | none => .error (.typeError key)

def needInt (key : String) (v : Json) : Except PyError Int :=
  match v.asInt with
  | some i => .ok i
  | none => .error (.typeError key)

def needArr (key : String) (v : Json) : Except PyError (List Json) :=
  match v.asArr with
  | some xs => .ok xs
  | none => .error (.typeError key)

/-- A dictionary lookup with a string key: another hashable value finds nothing. -/
def lookupKey (key : String) : Json → Except PyError (Option String)
  | .str s => .ok (some s)
  | .arr _ | .obj _ => .error (.typeError key)
  | _ => .ok none

/-- The truth value of a JSON value; a number is false when its significant digits are all zero. -/
def truthy : Json → Bool
  | .null => false
  | .bool b => b
  | .int i => i != 0
  | .float f => (f.text.takeWhile fun c => c != 'e' && c != 'E').any fun c => c != '0' && c != '.' && c != '-'
  | .str s => s != ""
  | .arr xs => !xs.isEmpty
  | .obj xs => !xs.isEmpty

structure InboxItem where
  id : Json
  kind : Json
  payload : Json
  deriving DecidableEq

/-- The fields of a pending chain, serialised as a dictionary. -/
abbrev Chain := Dict String Json

/-- Recovery-critical state of one (agent, session). -/
structure AgentSnapshot where
  agentName : String
  sessionId : String
  appliedSeq : ℕ
  inbox : List InboxItem
  pendingChains : Dict String Chain
  outstandingInterventions : Dict String Json
  bufferedInterventionAnswers : Dict String Json
  nextTurnContext : List Json
  deriving DecidableEq

/-- The keys of a `chain_update` entry that are not chain state. -/
def chainEventMetaKeys : List String := ["kind","seq","target","agent","session_id","chain_id"]

namespace AgentSnapshot

def empty (agentName sessionId : String) : AgentSnapshot :=
  ⟨agentName,sessionId,0,[],.empty,.empty,.empty,[]⟩

/-- The (agent, session) bucket an entry routes to. -/
def eventRouteKey (e : Event) : Option (Json × Json) :=
  let agent := if e.getD "target" .null = .null then e.getD "agent" .null else e.getD "target" .null
  if agent = .null then none else some (agent,e.getD "session_id" (.str "main"))

def matchesAgent (s : AgentSnapshot) (e : Event) : Bool :=
  eventRouteKey e = some (.str s.agentName,.str s.sessionId)

/-- The nested reply address of a registered chain; the legacy flat keys are normalised. -/
def requesterOf (e : Event) : Json :=
  match e.get? "requester" with
  | some r => r
  | none =>
    let sid := e.getD "origin_sid" .null
    .obj [("agent_name",e.getD "origin_agent" (.str "")),
      ("session_id",if truthy sid then sid else .str "main")]

/-- The chain a `chain_register` entry replays to. -/
def registeredChain (e : Event) : Except PyError Chain := do
  let chainId ← e.item "chain_id"
  let depth ← (e.item "origin_depth") >>= needInt "origin_depth"
  let request ← e.item "original_request"
  let waiting ← needArr "waiting_on" (e.getD "waiting_on" (.arr []))
  return Dict.ofList [("chain_id",chainId),("origin_depth",.int depth),("original_request",request),
    ("waiting_on",.arr waiting),("task_kind",e.getD "task_kind" .null),("requester",requesterOf e)]

/-- One key of a `chain_update` entry written into the chain. -/
def writeBack (chain : Chain) (p : String × Json) : Except PyError Chain :=
  if p.1 ∈ chainEventMetaKeys then .ok chain
  else if p.1 = "waiting_on" then do
    let xs ← needArr p.1 p.2
    return chain.set p.1 (.arr xs)
  else .ok (chain.set p.1 p.2)

/-- `if key: ...` on an identifier field of the entry. -/
def withId (e : Event) (key : String) (s : AgentSnapshot) (f : String → AgentSnapshot) :
    Except PyError AgentSnapshot :=
  let v := e.getD key .null
  if truthy v then (needStr key v).map f else .ok s

def dropInbox (s : AgentSnapshot) (msgId : Json) : AgentSnapshot :=
  { s with inbox := s.inbox.filter fun m => m.id != msgId }

/-- Absorb one entry that routes to this snapshot. -/
def applyOne (s : AgentSnapshot) (e : Event) : Except PyError AgentSnapshot :=
  match e.kind with
  | .str "inbox_put" => do
    let id ← e.item "msg_id"
    let kind ← e.item "msg_kind"
    return { s with inbox := s.inbox ++ [⟨id,kind,e.getD "payload" (.obj [])⟩] }
  | .str "inbox_consume" | .str "inbox_cancel" => .ok (s.dropInbox (e.getD "msg_id" .null))
  | .str "chain_register" => do
    let chain ← registeredChain e
    let chainId ← (e.item "chain_id") >>= needStr "chain_id"
    return { s with pendingChains := s.pendingChains.set chainId chain }
  | .str "chain_update" => do
    let key ← (e.item "chain_id") >>= lookupKey "chain_id"
    match key.bind fun id => (s.pendingChains.get? id).map (id,·) with
    | none => return s
    | some (id,chain) =>
      let chain ← e.items.foldlM writeBack chain
      return { s with pendingChains := s.pendingChains.set id chain }
  | .str "chain_resolve" | .str "chain_timeout_fired" => do
    match ← lookupKey "chain_id" (e.getD "chain_id" .null) with
    | none => return s
    | some id => return { s with pendingChains := s.pendingChains.pop id }
  | .str "intervention_dispatched" =>
    withId e "intervention_id" s fun id =>
      { s with outstandingInterventions := s.outstandingInterventions.set id (e.getD "iv_dict" (.obj [])) }
  | .str "intervention_resolved" =>
    withId e "intervention_id" s fun id =>
      { s with outstandingInterventions := s.outstandingInterventions.pop id }
  | .str "intervention_answer_buffered" =>
    withId e "run_id" s fun id =>
      let answer := .obj [("text",e.getD "text" (.str "")),("choice_id",e.getD "choice_id" .null)]
      { s with bufferedInterventionAnswers := s.bufferedInterventionAnswers.set id answer }
  | .str "intervention_answer_consumed" =>
    withId e "run_id" s fun id =>
      { s with bufferedInterventionAnswers := s.bufferedInterventionAnswers.pop id }
  | .str "next_turn_context_staged" =>
    match e.getD "entry" .null with
    | .obj fields => .ok (if fields.isEmpty then s else
        { s with nextTurnContext := s.nextTurnContext ++ [.obj fields] })
    | _ => .ok s
  | .str "next_turn_context_cleared" => .ok { s with nextTurnContext := [] }
  | _ => .ok s

theorem applyOne_cleared (s : AgentSnapshot) {e : Event} (h : e.kind = .str "next_turn_context_cleared") :
    s.applyOne e = .ok { s with nextTurnContext := [] } := by
  simp [applyOne,h]

/-- The body of the `apply_events` loop. -/
def applyEvent (s : AgentSnapshot) (e : Event) : Except PyError AgentSnapshot :=
  match e.seq? with
  | none => .ok s
  | some seq =>
    if seq ≤ s.appliedSeq then .ok s
    else if s.matchesAgent e then do
      let s' ← s.applyOne e
      return { s' with appliedSeq := seq.toNat }
    else .ok s

def applyEvents (s : AgentSnapshot) (es : List Event) : Except PyError AgentSnapshot :=
  es.foldlM applyEvent s

end AgentSnapshot
end Reyn
