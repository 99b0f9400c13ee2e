import Reyn.Lib.Fallible
import Reyn.Lib.UtcTime
import Reyn.Runtime.JournalRun
import Reyn.Runtime.ReplayLaws

/-! # Pending chains across a restart

A chain is held in memory, mirrored as a dictionary in the live snapshot and recorded in
the log. A restart loads the last snapshot file, replays the entries after it and decodes
the chains again. The callers of `update` pass the names that are waited on.
-/
namespace Reyn.Chains
open Py Fallible

structure Requester where
  agentName : String
  sessionId : String
  deriving DecidableEq

/-- `_PendingChain`, without what is never persisted. -/
structure PendingChain where
  chainId : String
  requester : Requester
  originDepth : Int
  originalRequest : String
  waitingOn : Finset String
  kind : Option String
  armAt : Option UtcTime
  registeredAt : Option UtcTime
  cancelRequestedAt : Option UtcTime
  deriving DecidableEq

/-- A watchdog: when it was started, and for how many microseconds. -/
structure Watchdog where
  started : UtcTime
  duration : Int
  deriving DecidableEq

/-- Whether `chain_timeout_seconds` is positive, and its microseconds. -/
structure Timeout where
  enabled : Bool
  window : Int

structure ChainManager where
  journal : SnapshotJournal
  chains : Dict String PendingChain
  timers : Dict String Watchdog

/-! ## The lifecycle -/

def sorted (names : Finset String) : List String := names.sort (· ≤ ·)

/-- A field of a chain that an update writes. -/
inductive Amendment where
  | waitingOn (names : Finset String)
  | armAt (t : UtcTime)
  | cancelRequestedAt (t : UtcTime)

def Amendment.on (chain : PendingChain) : Amendment → PendingChain
  | .waitingOn names => { chain with waitingOn := names }
  | .armAt t => { chain with armAt := some t }
  | .cancelRequestedAt t => { chain with cancelRequestedAt := some t }

def Amendment.recorded : Amendment → ChainUpdate
  | .waitingOn names => .waitingOn (sorted names)
  | .armAt t => .armAt t.isoformat
  | .cancelRequestedAt t => .cancelRequestedAt t.isoformat

structure RegisterArgs where
  chainId : String
  depth : Int
  originalText : String
  sender : Option String
  waitingOn : Finset String
  requester : Option Requester
  originDepth : Int
  kind : Option String

/-- The chain that `register` makes at a time. -/
def RegisterArgs.chain (a : RegisterArgs) (now : UtcTime) : PendingChain where
  chainId := a.chainId
  requester := a.requester.getD ⟨a.sender.getD "","main"⟩
  originDepth := if a.originDepth ≠ 0 then a.originDepth else a.depth
  originalRequest := a.originalText
  waitingOn := a.waitingOn
  kind := a.kind
  armAt := none
  registeredAt := some now
  cancelRequestedAt := none

def PendingChain.registration (chain : PendingChain) (now : UtcTime) : ChainRegistration where
  requesterAgent := chain.requester.agentName
  requesterSession := chain.requester.sessionId
  originDepth := chain.originDepth
  originalRequest := chain.originalRequest
  waitingOn := sorted chain.waitingOn
  taskKind := chain.kind
  registeredAt := now.isoformat

namespace ChainManager

def new (agentName sessionId : String) (snapshotInterval : ℕ) : ChainManager :=
  ⟨.new agentName sessionId snapshotInterval,.empty,.empty⟩

/-- Each call gives the manager before its journal record, and what it records. -/
abbrev Recorded := ChainManager × Option Mutation

def register (m : ChainManager) (a : RegisterArgs) (now : UtcTime) : Recorded :=
  let chain := a.chain now
  ({ m with chains := m.chains.set a.chainId chain },some (.chainRegister a.chainId (chain.registration now)))

/-- An amendment of a chain that is pending, in memory and in the journal. -/
def amend (m : ChainManager) (chainId : String) (u : Amendment) : Recorded :=
  match m.chains.get? chainId with
  | none => (m,none)
  | some chain => ({ m with chains := m.chains.set chainId (u.on chain) },some (.chainUpdate chainId u.recorded))

def update (m : ChainManager) (chainId : String) (waitingOn : Finset String) : Recorded :=
  m.amend chainId (.waitingOn waitingOn)

def markCancelRequested (m : ChainManager) (chainId : String) (now : UtcTime) : Recorded :=
  m.amend chainId (.cancelRequestedAt now)

def resolve (m : ChainManager) (chainId : String) : Recorded :=
  ({ m with chains := m.chains.pop chainId, timers := m.timers.pop chainId },some (.chainResolve chainId))

/-- `disposed`: the disposition ended without an exception. -/
def settle (m : ChainManager) (chainId : String) (disposed : Bool) : Recorded :=
  if disposed then m.resolve chainId else (m,none)

def fireTimeout (m : ChainManager) (chainId : String) : Recorded :=
  ({ m with chains := m.chains.pop chainId, timers := m.timers.pop chainId },some (.chainTimeoutFired chainId))

/-- A deadline beyond the years raises before anything changes. -/
def armTimeout (w : Timeout) (m : ChainManager) (chainId : String) (now : UtcTime) : Recorded :=
  if w.enabled then
    match UtcTime.ofMicros? (now.micros + w.window) with
    | none => (m,none)
    | some armAt =>
      let amended := m.amend chainId (.armAt armAt)
      ({ amended.1 with timers := amended.1.timers.set chainId ⟨now,w.window⟩ },amended.2)
  else (m,none)

end ChainManager

/-! ## Restoring -/

/-- The datetime of an optional text; an empty text counts as none. -/
def restoreTime (key : String) (v : Option Json) : Except PyError (Option UtcTime) :=
  if truthy (v.getD .null) then do
    let text ← needStr key (v.getD .null)
    match UtcTime.fromisoformat text with
    | some t => return some t
    | none => .error (.typeError key)
  else .ok none

/-- A nested reply address, or the flat one of an older entry. -/
def restoreRequester (c : Chain) : Except PyError Requester :=
  match (c.get? "requester").getD .null with
  | .null => do
    let agentName ← needStr "origin_agent" (Event.getD c "origin_agent" (.str ""))
    let sid := Event.getD c "origin_sid" .null
    let sessionId ← needStr "origin_sid" (if truthy sid then sid else .str "main")
    return ⟨agentName,sessionId⟩
  | .obj fields => do
    let agentName ← (Event.item (Dict.ofList fields) "agent_name") >>= needStr "agent_name"
    let sessionId ← (Event.item (Dict.ofList fields) "session_id") >>= needStr "session_id"
    return ⟨agentName,sessionId⟩
  | _ => .error (.typeError "requester")

def restoreKind (v : Option Json) : Except PyError (Option String) :=
  match v.getD .null with
  | .null => .ok none
  | v => (needStr "task_kind" v).map some

def restoreNames (v : Option Json) : Except PyError (Finset String) := do
  let names ← needArr "waiting_on" (v.getD (.arr []))
  let names ← names.mapM (needStr "waiting_on")
  return names.toFinset

def restoreChain (c : Chain) : Except PyError PendingChain := do
  let requester ← restoreRequester c
  let armAt ← restoreTime "arm_at" (c.get? "arm_at")
  let registeredAt ← restoreTime "registered_at" (c.get? "registered_at")
  let cancelRequestedAt ← restoreTime "cancel_requested_at" (c.get? "cancel_requested_at")
  let chainId ← (Event.item c "chain_id") >>= needStr "chain_id"
  let originDepth ← (Event.item c "origin_depth") >>= needInt "origin_depth"
  let originalRequest ← (Event.item c "original_request") >>= needStr "original_request"
  let waitingOn ← restoreNames (c.get? "waiting_on")
  let kind ← restoreKind (c.get? "task_kind")
  return ⟨chainId,requester,originDepth,originalRequest,waitingOn,kind,armAt,registeredAt,cancelRequestedAt⟩

/-- The watchdog of a restored chain: what is left of its deadline, or a fresh window. -/
def restoredWatchdog (w : Timeout) (now : UtcTime) (chain : PendingChain) : Watchdog :=
  match chain.armAt with
  | some armAt => ⟨now,max 0 (armAt.micros - now.micros)⟩
  | none => ⟨now,w.window⟩

/-- One round of `restore`; the clock is read at each chain. -/
def restoreOne (w : Timeout) (clock : String → UtcTime) (m : ChainManager) (item : String × Chain) :
    Except PyError ChainManager := do
  let chain ← restoreChain item.2
  let m := { m with chains := m.chains.set item.1 chain }
  return if w.enabled then { m with timers := m.timers.set item.1 (restoredWatchdog w (clock item.1) chain) } else m

/-- `restore` of a new manager whose journal holds a recovered snapshot. -/
def restore (w : Timeout) (clock : String → UtcTime) (journal : SnapshotJournal) : Except PyError ChainManager :=
  journal.snapshot.pendingChains.items.foldlM (restoreOne w clock) ⟨journal,.empty,.empty⟩

/-! ## What a chain dictionary holds -/

/-- The parts of a dictionary that decodes. -/
structure Reads (c : Chain) (chain : PendingChain) : Prop where
  requester : restoreRequester c = .ok chain.requester
  armAt : restoreTime "arm_at" (c.get? "arm_at") = .ok chain.armAt
  registeredAt : restoreTime "registered_at" (c.get? "registered_at") = .ok chain.registeredAt
  cancelRequestedAt : restoreTime "cancel_requested_at" (c.get? "cancel_requested_at") = .ok chain.cancelRequestedAt
  chainId : (Event.item c "chain_id" >>= needStr "chain_id") = .ok chain.chainId
  originDepth : (Event.item c "origin_depth" >>= needInt "origin_depth") = .ok chain.originDepth
  originalRequest : (Event.item c "original_request" >>= needStr "original_request") = .ok chain.originalRequest
  waitingOn : restoreNames (c.get? "waiting_on") = .ok chain.waitingOn
  kind : restoreKind (c.get? "task_kind") = .ok chain.kind

theorem restoreChain_eq_ok {c : Chain} {chain : PendingChain} : restoreChain c = .ok chain ↔ Reads c chain := by
  constructor
  · intro h
    obtain ⟨requester,hrequester,h⟩ := bind_ok h
    obtain ⟨armAt,harm,h⟩ := bind_ok h
    obtain ⟨registeredAt,hregistered,h⟩ := bind_ok h
    obtain ⟨cancelRequestedAt,hcancel,h⟩ := bind_ok h
    obtain ⟨chainId,hid,h⟩ := bind_ok h
    obtain ⟨originDepth,hdepth,h⟩ := bind_ok h
    obtain ⟨originalRequest,hrequest,h⟩ := bind_ok h
    obtain ⟨waitingOn,hwaiting,h⟩ := bind_ok h
    obtain ⟨kind,hkind,h⟩ := bind_ok h
    cases h
    exact ⟨hrequester,harm,hregistered,hcancel,hid,hdepth,hrequest,hwaiting,hkind⟩
  · rintro ⟨hrequester,harm,hregistered,hcancel,hid,hdepth,hrequest,hwaiting,hkind⟩
    unfold restoreChain
    rw [hrequester,harm,hregistered,hcancel,hid,hdepth,hrequest,hwaiting,hkind]
    rfl

/-- The keys that `restore` looks at. -/
def chainKeys : List String :=
  ["requester","origin_agent","origin_sid","arm_at","registered_at","cancel_requested_at","chain_id","origin_depth",
    "original_request","waiting_on","task_kind"]

theorem restoreRequester_congr {c d : Chain} (h : ∀ k ∈ ["requester","origin_agent","origin_sid"], c.get? k = d.get? k) :
    restoreRequester c = restoreRequester d := by
  simp only [List.forall_mem_cons] at h
  obtain ⟨h1,h2,h3,-⟩ := h
  unfold restoreRequester Event.getD
  rw [h1,h2,h3]

theorem item_congr {c d : Event} {k : String} (h : c.get? k = d.get? k) : c.item k = d.item k := by
  rw [Event.item,Event.item,h]

/-- A key that `restore` does not look at makes no difference. -/
theorem restoreChain_congr {c d : Chain} (h : ∀ k ∈ chainKeys, c.get? k = d.get? k) : restoreChain c = restoreChain d := by
  simp only [chainKeys,List.forall_mem_cons] at h
  obtain ⟨h1,h2,h3,h4,h5,h6,h7,h8,h9,h10,h11,-⟩ := h
  have hrequester : restoreRequester c = restoreRequester d := restoreRequester_congr (by simp [h1,h2,h3])
  simp only [restoreChain,hrequester,h4,h5,h6,item_congr h7,item_congr h8,item_congr h9,h10,h11]

theorem restoreTime_iso (key : String) (t : UtcTime) : restoreTime key (some (.str t.isoformat)) = .ok (some t) := by
  have htruthy : truthy (.str t.isoformat) = true := by simpa [truthy] using t.isoformat_ne
  simp [restoreTime,htruthy,needStr,t.fromisoformat_isoformat,bind,Except.bind,pure,Except.pure]

theorem restoreNames_sorted (names : Finset String) : restoreNames (some (strings (sorted names))) = .ok names := by
  have hread : ∀ l : List String, (l.map Json.str).mapM (needStr "waiting_on") = .ok l := by
    intro l
    induction l with
    | nil => rfl
    | cons name rest ih =>
      rw [List.map_cons,List.mapM_cons,ih]
      rfl
  have hsorted : (sorted names).toFinset = names := Finset.sort_toFinset names _
  simp [restoreNames,strings,needArr,hread,hsorted,bind,Except.bind,pure,Except.pure]

theorem restoreKind_ofStr? (kind : Option String) : restoreKind (some (.ofStr? kind)) = .ok kind := by
  cases kind <;> rfl

def PendingChain.undated (chain : PendingChain) : PendingChain := { chain with registeredAt := none }

section Registration
variable (chain : PendingChain) (now : UtcTime)

/-- What the live snapshot holds after a registration, looked up by a key. -/
theorem get?_registered (k : String) :
    (Dict.ofList (("chain_id",.str chain.chainId) :: (chain.registration now).fields)).get? k =
      (("chain_id",Json.str chain.chainId) :: (chain.registration now).fields).lookup k :=
  Dict.get?_ofList_of_nodup (by simp [ChainRegistration.fields]) k

theorem get?_replayed (k : String) :
    ((chain.registration now).replayed chain.chainId).get? k =
      [("chain_id",Json.str chain.chainId),("origin_depth",.int chain.originDepth),
        ("original_request",.str chain.originalRequest),("waiting_on",strings (sorted chain.waitingOn)),
        ("task_kind",.ofStr? chain.kind),("requester",.obj [("agent_name",.str chain.requester.agentName),
          ("session_id",.str chain.requester.sessionId)])].lookup k :=
  Dict.get?_ofList_of_nodup (by simp) k

theorem restoreRequester_nested {c : Chain} (requester : Requester) (h : c.get? "requester" =
    some (.obj [("agent_name",.str requester.agentName),("session_id",.str requester.sessionId)])) :
    restoreRequester c = .ok requester := by
  simp [restoreRequester,h,Event.item,Dict.get?_ofList_of_nodup,Dict.lookup_cons,needStr,bind,Except.bind,pure,Except.pure]

/-- The dictionary of a registration decodes to the chain. -/
theorem restoreChain_registered (harm : chain.armAt = none) (hregistered : chain.registeredAt = some now)
    (hcancel : chain.cancelRequestedAt = none) :
    restoreChain (Dict.ofList (("chain_id",.str chain.chainId) :: (chain.registration now).fields)) = .ok chain := by
  rw [restoreChain_eq_ok]
  have hget := get?_registered chain now
  simp only [ChainRegistration.fields,PendingChain.registration,Dict.lookup_cons] at hget
  constructor
  · apply restoreRequester_nested
    simp [ChainRegistration.fields,PendingChain.registration,hget]
  all_goals simp [ChainRegistration.fields,PendingChain.registration,hget,harm,hregistered,hcancel,restoreTime_iso,
    restoreNames_sorted,restoreKind_ofStr?,Event.item,needStr,needInt,bind,Except.bind]
  all_goals rfl

/-- The replay of a registration decodes to the chain without its date. -/
theorem restoreChain_replayed (harm : chain.armAt = none) (hcancel : chain.cancelRequestedAt = none) :
    restoreChain ((chain.registration now).replayed chain.chainId) = .ok chain.undated := by
  rw [restoreChain_eq_ok]
  have hget := get?_replayed chain now
  simp only [Dict.lookup_cons] at hget
  constructor
  · apply restoreRequester_nested
    simp [hget,PendingChain.undated]
  all_goals simp [hget,harm,hcancel,PendingChain.undated,restoreNames_sorted,restoreKind_ofStr?,Event.item,needStr,needInt,
    bind,Except.bind]
  all_goals rfl

end Registration

/-- The one key that an amendment writes. -/
def Amendment.key : Amendment → String
  | .waitingOn _ => "waiting_on"
  | .armAt _ => "arm_at"
  | .cancelRequestedAt _ => "cancel_requested_at"

theorem Amendment.get?_update (u : Amendment) (c : Chain) {k : String} (h : k ≠ u.key) :
    (c.update u.recorded.fields).get? k = c.get? k := by
  cases u with
  | _ => exact c.get?_set_ne h _

/-- An amendment written into a dictionary is made on the chain it decodes to. -/
theorem restoreChain_amended {c : Chain} {chain : PendingChain} (u : Amendment) (h : restoreChain c = .ok chain) :
    restoreChain (c.update u.recorded.fields) = .ok (u.on chain) := by
  rw [restoreChain_eq_ok] at h ⊢
  obtain ⟨h1,h2,h3,h4,h5,h6,h7,h8,h9⟩ := h
  have hrequester : restoreRequester (c.update u.recorded.fields) = .ok chain.requester := by
    rw [← h1]
    apply restoreRequester_congr
    intro k hk
    apply u.get?_update
    rintro rfl
    cases u <;> simp [Amendment.key] at hk
  have hsame : ∀ {A : Type} {k : String} {f : Option Json → Except PyError A} {a : A}, k ≠ u.key → f (c.get? k) = .ok a →
      f ((c.update u.recorded.fields).get? k) = .ok a := by
    intro A k f a hk hf
    rw [u.get?_update c hk]
    exact hf
  have hitem : ∀ {A : Type} {k : String} {f : Json → Except PyError A} {a : A}, k ≠ u.key →
      (Event.item c k >>= f) = .ok a → (Event.item (c.update u.recorded.fields) k >>= f) = .ok a := by
    intro A k f a hk hf
    rw [item_congr (u.get?_update c hk)]
    exact hf
  cases u with
  | waitingOn names =>
    refine ⟨hrequester,hsame ?_ h2,hsame ?_ h3,hsame ?_ h4,hitem ?_ h5,hitem ?_ h6,hitem ?_ h7,?_,hsame ?_ h9⟩
    case refine_7 => exact (congrArg restoreNames (c.get?_set_self _ _)).trans (restoreNames_sorted names)
    all_goals simp [Amendment.key]
  | armAt t =>
    refine ⟨hrequester,?_,hsame ?_ h3,hsame ?_ h4,hitem ?_ h5,hitem ?_ h6,hitem ?_ h7,hsame ?_ h8,hsame ?_ h9⟩
    case refine_1 => exact (congrArg (restoreTime _) (c.get?_set_self _ _)).trans (restoreTime_iso _ t)
    all_goals simp [Amendment.key]
  | cancelRequestedAt t =>
    refine ⟨hrequester,hsame ?_ h2,hsame ?_ h3,?_,hitem ?_ h5,hitem ?_ h6,hitem ?_ h7,hsame ?_ h8,hsame ?_ h9⟩
    case refine_3 => exact (congrArg (restoreTime _) (c.get?_set_self _ _)).trans (restoreTime_iso _ t)
    all_goals simp [Amendment.key]

theorem restoreChain_ts {c : Chain} (ts : String) : restoreChain (c.set "ts" (.str ts)) = restoreChain c := by
  apply restoreChain_congr
  intro k hk
  apply Dict.get?_set_ne
  rintro rfl
  simp [chainKeys] at hk

/-! ## Calls -/

/-- The mutation is about no chain. -/
def chainless : Mutation → Bool
  | .chainRegister _ _ | .chainUpdate _ _ | .chainResolve _ | .chainTimeoutFired _ => false
  | _ => true

inductive Call where
  | register (a : RegisterArgs)
  | update (chainId : String) (waitingOn : Finset String)
  | markCancelRequested (chainId : String)
  | armTimeout (chainId : String)
  | resolve (chainId : String)
  | settle (chainId : String) (disposed : Bool)
  | fireTimeout (chainId : String)
  /-- What the rest of the session records. -/
  | other (m : Mutation) (h : chainless m = true)

def Call.apply (w : Timeout) (now : UtcTime) (m : ChainManager) : Call → ChainManager.Recorded
  | .register a => m.register a now
  | .update chainId waitingOn => m.update chainId waitingOn
  | .markCancelRequested chainId => m.markCancelRequested chainId now
  | .armTimeout chainId => m.armTimeout w chainId now
  | .resolve chainId => m.resolve chainId
  | .settle chainId disposed => m.settle chainId disposed
  | .fireTimeout chainId => m.fireTimeout chainId
  | .other mutation _ => (m,some mutation)

/-- What a call does to the chains, and what it records of it. -/
inductive Moves (w : Timeout) (m : ChainManager) : ChainManager.Recorded → Prop
  | put (chain : PendingChain) (now : UtcTime) (m' : ChainManager) (hjournal : m'.journal = m.journal)
      (harm : chain.armAt = none) (hregistered : chain.registeredAt = some now) (hcancel : chain.cancelRequestedAt = none)
      (hchains : m'.chains = m.chains.set chain.chainId chain) :
      Moves w m (m',some (.chainRegister chain.chainId (chain.registration now)))
  | amend (chainId : String) (u : Amendment) (chain : PendingChain) (m' : ChainManager) (hjournal : m'.journal = m.journal)
      (hchain : m.chains.get? chainId = some chain) (hchains : m'.chains = m.chains.set chainId (u.on chain))
      (harm : ∀ t, u = .armAt t → w.enabled = true) : Moves w m (m',some (.chainUpdate chainId u.recorded))
  | drop (chainId : String) (mutation : Mutation) (m' : ChainManager) (hjournal : m'.journal = m.journal)
      (hmutation : mutation = .chainResolve chainId ∨ mutation = .chainTimeoutFired chainId)
      (hchains : m'.chains = m.chains.pop chainId) : Moves w m (m',some mutation)
  | keep (mutation : Option Mutation) (m' : ChainManager) (hjournal : m'.journal = m.journal)
      (hmutation : ∀ μ, mutation = some μ → chainless μ = true) (hchains : m'.chains = m.chains) : Moves w m (m',mutation)

theorem moves_amend {w : Timeout} {u : Amendment} (harm : ∀ t, u = .armAt t → w.enabled = true) (m : ChainManager)
    (chainId : String) : Moves w m (m.amend chainId u) := by
  unfold ChainManager.amend
  split
  · exact .keep none m rfl nofun rfl
  · rename_i chain hchain
    exact .amend chainId u chain _ rfl hchain rfl harm

/-- The timers make no difference. -/
theorem Moves.withTimers {w : Timeout} {m : ChainManager} {r : ChainManager.Recorded} (h : Moves w m r)
    (timers : Dict String Watchdog) : Moves w m ({ r.1 with timers := timers },r.2) := by
  cases h with
  | put chain now m' hjournal harm hregistered hcancel hchains =>
    exact .put chain now _ hjournal harm hregistered hcancel hchains
  | amend chainId u chain m' hjournal hchain hchains harm => exact .amend chainId u chain _ hjournal hchain hchains harm
  | drop chainId mutation m' hjournal hmutation hchains => exact .drop chainId mutation _ hjournal hmutation hchains
  | keep mutation m' hjournal hmutation hchains => exact .keep mutation _ hjournal hmutation hchains

theorem Call.moves (w : Timeout) (now : UtcTime) (m : ChainManager) (call : Call) : Moves w m (call.apply w now m) := by
  cases call with
  | register a => exact .put (a.chain now) now _ rfl rfl rfl rfl rfl
  | update chainId waitingOn => exact moves_amend (u := .waitingOn waitingOn) (fun _ h => nomatch h) m chainId
  | markCancelRequested chainId => exact moves_amend (u := .cancelRequestedAt now) (fun _ h => nomatch h) m chainId
  | armTimeout chainId =>
    unfold Call.apply ChainManager.armTimeout
    dsimp only
    split
    · rename_i henabled
      split
      · exact .keep none m rfl nofun rfl
      · exact (moves_amend (fun _ _ => henabled) m chainId).withTimers _
    · exact .keep none m rfl nofun rfl
  | resolve chainId => exact .drop chainId _ _ rfl (.inl rfl) rfl
  | settle chainId disposed =>
    unfold Call.apply ChainManager.settle
    dsimp only
    split
    · exact .drop chainId _ _ rfl (.inl rfl) rfl
    · exact .keep none m rfl nofun rfl
  | fireTimeout chainId => exact .drop chainId _ _ rfl (.inr rfl) rfl
  | other mutation h => exact .keep _ m rfl (fun _ heq => by cases heq; exact h) rfl

/-! ## The dictionaries and the chains -/

/-- The registration of a chain is among the entries. -/
def registered (tail : List Event) (id : String) : Bool :=
  tail.any fun e => e.kind == .str "chain_register" && e.get? "chain_id" == some (.str id)

/-- A chain as a replay knows it: of a registration that was replayed the date is lost. -/
def PendingChain.known (chain : PendingChain) (lost : Bool) : PendingChain := if lost then chain.undated else chain

/-- The dictionaries decode to the chains, those that are lost without their dates. -/
def Decodes (lost : String → Bool) (dicts : Dict String Chain) (chains : Dict String PendingChain) : Prop :=
  ∀ id, (dicts.get? id).map restoreChain = (chains.get? id).map fun chain => .ok (chain.known (lost id))

theorem Amendment.on_known (u : Amendment) (chain : PendingChain) (lost : Bool) :
    u.on (chain.known lost) = (u.on chain).known lost := by
  cases lost <;> cases u <;> rfl

theorem walEntry_chainId (seq : ℕ) (ts : String) (s : AgentSnapshot) (id : String) (g : ChainRegistration) :
    (walEntry seq ts "chain_register" (recordChainRegister s id g).fields).get? "chain_id" = some (.str id) :=
  walEntry_get? seq ts "chain_register" _ (by simp)

theorem registered_append (tail : List Event) (e : Event) (id : String) : registered (tail ++ [e]) id =
    (registered tail id || (e.kind == .str "chain_register" && e.get? "chain_id" == some (.str id))) := by
  simp [registered]

theorem Decodes.of_get? {lost : String → Bool} {dicts : Dict String Chain} {chains : Dict String PendingChain}
    (h : Decodes lost dicts chains) {id : String} {chain : PendingChain} (hchain : chains.get? id = some chain) :
    ∃ c, dicts.get? id = some c ∧ restoreChain c = .ok (chain.known (lost id)) := by
  have hid := h id
  rw [hchain,Option.map_some] at hid
  exact Option.map_eq_some_iff.mp hid

theorem Decodes.set {lost lost' : String → Bool} {dicts : Dict String Chain} {chains : Dict String PendingChain}
    (h : Decodes lost dicts chains) {id : String} {c : Chain} {chain : PendingChain}
    (hc : restoreChain c = .ok (chain.known (lost' id))) (hlost : ∀ j, j ≠ id → lost' j = lost j) :
    Decodes lost' (dicts.set id c) (chains.set id chain) := by
  intro j
  by_cases hj : j = id
  · subst hj
    simp [hc]
  · rw [Dict.get?_set_ne _ hj,Dict.get?_set_ne _ hj,hlost j hj]
    exact h j

theorem Decodes.pop {lost : String → Bool} {dicts : Dict String Chain} {chains : Dict String PendingChain}
    (h : Decodes lost dicts chains) (id : String) : Decodes lost (dicts.pop id) (chains.pop id) := by
  intro j
  rw [Dict.get?_pop,Dict.get?_pop]
  split
  · rfl
  · exact h j

theorem chainless_mirror {s : AgentSnapshot} {m : Mutation} {r : Recording} (hm : chainless m = true)
    (hr : m.recording s = some r) (u : AgentSnapshot) : (r.mirror u).pendingChains = u.pendingChains := by
  cases m with
  | chainRegister | chainUpdate | chainResolve | chainTimeoutFired => cases hm
  | consumeInbox msgId => cases msgId <;> cases hr; rfl
  | cancelInbox msgId =>
    cases msgId with
    | none => cases hr
    | some msgId =>
      simp only [Mutation.recording,Reyn.cancelInbox] at hr
      split at hr <;> cases hr
      rfl
  | _ => cases hr; rfl

theorem chainless_effect {s : AgentSnapshot} {m : Mutation} {r : Recording} (hm : chainless m = true)
    (hr : m.recording s = some r) (seq : ℕ) (ts id : String) (c : Option Chain) :
    AgentSnapshot.chainEffect (walEntry seq ts r.kind r.fields) id c = c ∧
      (walEntry seq ts r.kind r.fields).kind ≠ .str "chain_register" := by
  rw [AgentSnapshot.chainEffect,walEntry_kind]
  cases m with
  | chainRegister | chainUpdate | chainResolve | chainTimeoutFired => cases hm
  | consumeInbox msgId =>
    cases msgId <;> cases hr
    simp [pruneInbox]
  | cancelInbox msgId =>
    cases msgId with
    | none => cases hr
    | some msgId =>
      simp only [Mutation.recording,Reyn.cancelInbox] at hr
      split at hr <;> cases hr
      simp [pruneInbox]
  | _ =>
    cases hr
    simp [Reyn.appendInbox,recordInterventionDispatched,recordInterventionResolved,recordInterventionAnswerBuffered,
      recordInterventionAnswerConsumed,recordNextTurnContextStaged,recordNextTurnContextCleared]

section Sides
variable {w : Timeout} {m m' : ChainManager} {μ : Mutation} {s t t' : AgentSnapshot} {r : Recording}

/-- The live snapshot follows the chains. -/
theorem Moves.mirror (h : Moves w m (m',some μ)) (hr : μ.recording s = some r)
    (hd : Decodes (fun _ => false) t.pendingChains m.chains) :
    Decodes (fun _ => false) (r.mirror t).pendingChains m'.chains := by
  cases h with
  | put chain now _ hjournal harm hregistered hcancel hchains =>
    cases hr
    rw [hchains]
    exact hd.set (restoreChain_registered chain now harm hregistered hcancel) fun _ _ => rfl
  | amend chainId u chain _ hjournal hchain hchains hwindow =>
    cases hr
    obtain ⟨c,hc,hread⟩ := hd.of_get? hchain
    rw [recordChainUpdate_mirror,hc,hchains]
    exact hd.set (restoreChain_amended u hread) fun _ _ => rfl
  | drop chainId mutation _ hjournal hmutation hchains =>
    rw [hchains]
    rcases hmutation with rfl | rfl
    all_goals
      cases hr
      exact hd.pop chainId
  | keep mutation _ hjournal hmutation hchains =>
    rw [hchains,chainless_mirror (hmutation μ rfl) hr]
    exact hd

/-- The replay of the entry follows the chains. -/
theorem Moves.replay {tail : List Event} {seq : ℕ} {ts : String} (h : Moves w m (m',some μ)) (hr : μ.recording s = some r)
    (hd : Decodes (registered tail) t.pendingChains m.chains)
    (hap : t.applyOne (walEntry seq ts r.kind r.fields) = .ok t') :
    Decodes (registered (tail ++ [walEntry seq ts r.kind r.fields])) t'.pendingChains m'.chains := by
  cases h with
  | put chain now _ hjournal harm hregistered hcancel hchains =>
    cases hr
    have hlost : ∀ j, registered (tail ++ [walEntry seq ts "chain_register" (recordChainRegister s chain.chainId
        (chain.registration now)).fields]) j = (registered tail j || decide (j = chain.chainId)) := by
      intro j
      rw [registered_append,walEntry_chainId,Bool.eq_iff_iff]
      simp [eq_comm (a := j)]
    cases (applyOne_chainRegister s t seq ts chain.chainId _).symm.trans hap
    rw [hchains]
    apply hd.set
    · change restoreChain _ = .ok (chain.known (registered (tail ++ [walEntry seq ts "chain_register" _]) _))
      rw [hlost,decide_eq_true rfl,Bool.or_true]
      exact restoreChain_replayed chain now harm hcancel
    · intro j hj
      exact (hlost j).trans (by rw [decide_eq_false hj,Bool.or_false])
  | amend chainId u chain _ hjournal hchain hchains hwindow =>
    have hlost : ∀ j, registered (tail ++ [walEntry seq ts r.kind r.fields]) j = registered tail j := by
      intro j
      rw [registered_append]
      cases hr
      simp [recordChainUpdate]
    cases hr
    obtain ⟨c,hc,hread⟩ := hd.of_get? hchain
    have happly := applyOne_chainUpdate s t seq ts chainId u.recorded
    rw [hc] at happly
    cases happly.symm.trans hap
    rw [hchains]
    apply hd.set
    · rw [hlost,← u.on_known]
      apply restoreChain_amended
      rw [restoreChain_ts]
      exact hread
    · exact fun j _ => hlost j
  | drop chainId mutation _ hjournal hmutation hchains =>
    have hlost : registered (tail ++ [walEntry seq ts r.kind r.fields]) = registered tail := by
      funext j
      rw [registered_append]
      rcases hmutation with rfl | rfl
      all_goals
        cases hr
        simp [recordChainResolve,recordChainTimeoutFired,dropChain]
    rw [hlost,hchains]
    rcases hmutation with rfl | rfl
    · cases hr
      cases (applyOne_dropChain s t seq ts (.inl rfl) chainId).symm.trans hap
      exact hd.pop chainId
    · cases hr
      cases (applyOne_dropChain s t seq ts (.inr rfl) chainId).symm.trans hap
      exact hd.pop chainId
  | keep mutation _ hjournal hmutation hchains =>
    intro id
    obtain ⟨heffect,hkind⟩ := chainless_effect (hmutation μ rfl) hr seq ts id (t.pendingChains.get? id)
    rw [AgentSnapshot.applyOne_get? hap,heffect,hchains,registered_append,beq_eq_false_iff_ne.mpr hkind,Bool.false_and,
      Bool.or_false]
    exact hd id

end Sides

/-! ## Processes and restarts -/

/-- A session's manager with what is on disk: the last snapshot file and the entries after it. -/
structure Process where
  manager : ChainManager
  saved : AgentSnapshot
  tail : List Event
  stamped : ℕ

/-- The sequence number that was handed out last. -/
def lastSeq (c : Stamps) (n : ℕ) : ℕ := if n = 0 then 0 else c.seq (n - 1)

namespace Process

def new (agentName sessionId : String) (snapshotInterval : ℕ) : Process :=
  ⟨.new agentName sessionId snapshotInterval,.empty agentName sessionId,[],0⟩

/-- The record of a call is appended to the log. -/
def record (c : Stamps) (p : Process) (r : ChainManager.Recorded) : Process :=
  match r.2 with
  | none => { p with manager := r.1 }
  | some mutation =>
    let issued := r.1.journal.issue mutation
    { p with
      manager := { r.1 with journal := issued.1 },
      tail := p.tail ++ c.entries p.stamped issued.2,
      stamped := p.stamped + issued.2.countP Submission.isAppend }

/-- The live snapshot is written to the file. -/
def save (c : Stamps) (p : Process) : Process :=
  { p with saved := { p.manager.journal.snapshot with appliedSeq := lastSeq c p.stamped }, tail := [] }

/-- A crash, and the recovery from the file and the entries after it. -/
def restart (w : Timeout) (clock : String → UtcTime) (p : Process) : Except PyError Process := do
  let snapshot ← p.saved.applyEvents p.tail
  let manager ← restore w clock ⟨snapshot,0,p.manager.journal.snapshotInterval⟩
  return { p with manager := manager }

end Process

inductive Step (c : Stamps) (w : Timeout) : Process → Process → Prop
  | call (p : Process) (now : UtcTime) (call : Call) : Step c w p (p.record c (call.apply w now p.manager))
  | save (p : Process) : Step c w p (p.save c)
  | restart (p q : Process) (clock : String → UtcTime) (h : p.restart w clock = .ok q) : Step c w p q

/-- The processes of a session, over any number of restarts. -/
inductive Reachable (c : Stamps) (w : Timeout) : Process → Prop
  | new (agentName sessionId : String) (snapshotInterval : ℕ) : Reachable c w (.new agentName sessionId snapshotInterval)
  | step {p q : Process} (hp : Reachable c w p) (h : Step c w p q) : Reachable c w q

/-- What the restart is to give back: the chains as they were, and each armed one with what is left of its deadline. -/
structure Restored (clock : String → UtcTime) (before after : ChainManager) : Prop where
  chains : ∀ id, after.chains.get? id = before.chains.get? id
  watched : ∀ id chain armAt, before.chains.get? id = some chain → chain.armAt = some armAt →
    after.timers.get? id = some ⟨clock id,max 0 (armAt.micros - (clock id).micros)⟩

/-- The pending chains that were registered after the snapshot file have no date to lose. -/
def Covered (p : Process) : Prop :=
  ∀ id chain, p.manager.chains.get? id = some chain → registered p.tail id = true → chain.registeredAt = none

section Restore
variable {w : Timeout} {clock : String → UtcTime}

/-- Dictionaries that decode are all restored. -/
theorem restoreItems (items : List (String × Chain)) (m : ChainManager) (hnodup : (items.map Prod.fst).Nodup)
    (hitems : ∀ item ∈ items, ∃ chain, restoreChain item.2 = .ok chain) :
    ∃ m', items.foldlM (restoreOne w clock) m = .ok m' ∧ m'.journal = m.journal ∧
      (∀ id, items.lookup id = none → m'.chains.get? id = m.chains.get? id ∧ m'.timers.get? id = m.timers.get? id) ∧
      ∀ id c chain, items.lookup id = some c → restoreChain c = .ok chain → m'.chains.get? id = some chain ∧
        (w.enabled = true → m'.timers.get? id = some (restoredWatchdog w (clock id) chain)) := by
  induction items generalizing m with
  | nil => exact ⟨m,rfl,rfl,fun _ _ => ⟨rfl,rfl⟩,fun _ _ _ h => nomatch h⟩
  | cons item rest ih =>
    obtain ⟨id,c⟩ := item
    rw [List.map_cons,List.nodup_cons] at hnodup
    rw [List.forall_mem_cons] at hitems
    obtain ⟨⟨chain,hchain⟩,hrest⟩ := hitems
    have hone : ∃ m₁, restoreOne w clock m (id,c) = .ok m₁ ∧ m₁.journal = m.journal ∧
        m₁.chains = m.chains.set id chain ∧
        m₁.timers = if w.enabled then m.timers.set id (restoredWatchdog w (clock id) chain) else m.timers := by
      unfold restoreOne
      rw [hchain]
      cases w.enabled
      · exact ⟨_,rfl,rfl,rfl,rfl⟩
      · exact ⟨_,rfl,rfl,rfl,rfl⟩
    obtain ⟨m₁,hm₁,hjournal,hchains,htimers⟩ := hone
    obtain ⟨m',hm',hjournal',hout,hin⟩ := ih m₁ hnodup.2 hrest
    have hnone : rest.lookup id = none := by
      rw [List.lookup_eq_none_iff]
      intro p hp
      rw [bne_iff_ne]
      intro heq
      exact hnodup.1 (List.mem_map.mpr ⟨p,hp,heq.symm⟩)
    refine ⟨m',?_,hjournal'.trans hjournal,?_,?_⟩
    · rw [List.foldlM_cons,hm₁]
      exact hm'
    · intro j hj
      rw [Dict.lookup_cons] at hj
      split at hj
      · cases hj
      · rename_i hne
        obtain ⟨h1,h2⟩ := hout j hj
        rw [h1,h2,hchains,htimers]
        refine ⟨Dict.get?_set_ne _ hne _,?_⟩
        split
        · exact Dict.get?_set_ne _ hne _
        · rfl
    · intro j c' chain' hj hread
      rw [Dict.lookup_cons] at hj
      split at hj
      · rename_i heq
        cases hj
        cases hchain.symm.trans hread
        subst heq
        obtain ⟨h1,h2⟩ := hout j hnone
        rw [h1,h2,hchains,htimers]
        refine ⟨Dict.get?_set_self _ _ _,fun henabled => ?_⟩
        rw [if_pos henabled]
        exact Dict.get?_set_self _ _ _
      · exact hin j c' chain' hj hread

end Restore

/-- What a session keeps: the live snapshot decodes to the chains, the replay of the disk to the chains without the dates it
loses, and only an enabled timeout has armed a chain. -/
structure Inv (c : Stamps) (w : Timeout) (p : Process) : Prop where
  live : Decodes (fun _ => false) p.manager.journal.snapshot.pendingChains p.manager.chains
  replay : ∃ t, p.saved.applyEvents p.tail = .ok t ∧ Agree p.manager.journal.snapshot t ∧
    t.appliedSeq < c.seq p.stamped ∧ Decodes (registered p.tail) t.pendingChains p.manager.chains
  armed : ∀ id chain, p.manager.chains.get? id = some chain → chain.armAt ≠ none → w.enabled = true

section Invariant
variable {c : Stamps} {w : Timeout} {p : Process}

theorem Moves.armed {m : ChainManager} {r : ChainManager.Recorded} (h : Moves w m r)
    (harmed : ∀ id chain, m.chains.get? id = some chain → chain.armAt ≠ none → w.enabled = true) :
    ∀ id chain, r.1.chains.get? id = some chain → chain.armAt ≠ none → w.enabled = true := by
  intro id chain hchain hne
  cases h with
  | put added now _ hjournal harm hregistered hcancel hchains =>
    rw [hchains,Dict.get?_set] at hchain
    split at hchain
    · cases hchain
      exact absurd harm hne
    · exact harmed id chain hchain hne
  | amend chainId u before _ hjournal hbefore hchains hwindow =>
    rw [hchains,Dict.get?_set] at hchain
    split at hchain
    · cases hchain
      cases u with
      | waitingOn names => exact harmed chainId before hbefore hne
      | armAt t => exact hwindow t rfl
      | cancelRequestedAt t => exact harmed chainId before hbefore hne
    · exact harmed id chain hchain hne
  | drop chainId mutation _ hjournal hmutation hchains =>
    rw [hchains,Dict.get?_pop] at hchain
    split at hchain
    · cases hchain
    · exact harmed id chain hchain hne
  | keep mutation _ hjournal hmutation hchains =>
    rw [hchains] at hchain
    exact harmed id chain hchain hne

theorem Moves.journal_eq {m : ChainManager} {r : ChainManager.Recorded} (h : Moves w m r) : r.1.journal = m.journal := by
  cases h <;> assumption

/-- A call that records nothing leaves the chains. -/
theorem Moves.unrecorded {m m' : ChainManager} {o : Option Mutation} (h : Moves w m (m',o))
    (hnone : ∀ μ, o = some μ → ∃ s, μ.recording s = none) : m'.chains = m.chains := by
  cases h with
  | put chain now _ hjournal harm hregistered hcancel hchains =>
    obtain ⟨s,hs⟩ := hnone _ rfl
    cases hs
  | amend chainId u chain _ hjournal hchain hchains hwindow =>
    obtain ⟨s,hs⟩ := hnone _ rfl
    cases hs
  | drop chainId mutation _ hjournal hmutation hchains =>
    obtain ⟨s,hs⟩ := hnone _ rfl
    rcases hmutation with rfl | rfl <;> cases hs
  | keep mutation _ hjournal hmutation hchains => exact hchains

/-- What the journal appends for a recording. -/
theorem issue_recorded (c : Stamps) (n : ℕ) {j : SnapshotJournal} {μ : Mutation} {r : Recording}
    (hr : μ.recording j.snapshot = some r) : (j.issue μ).1.snapshot = r.mirror j.snapshot ∧
      c.entries n (j.issue μ).2 = [walEntry (c.seq n) (c.ts n) r.kind r.fields] ∧
      (j.issue μ).2.countP Submission.isAppend = 1 := by
  have hsave := fun k => SnapshotJournal.entries_saveNowait c k { j with snapshot := r.mirror j.snapshot }
  unfold SnapshotJournal.issue
  rw [hr]
  refine ⟨j.record_snapshot r,?_,?_⟩
  · simp [SnapshotJournal.record,Stamps.entries,hsave]
  · simp [SnapshotJournal.record,List.countP_cons,Submission.isAppend,(hsave 0).2]

/-- A manager with other timers. -/
theorem Inv.keep (h : Inv c w p) {m' : ChainManager} (hjournal : m'.journal = p.manager.journal)
    (hchains : m'.chains = p.manager.chains) : Inv c w { p with manager := m' } := by
  obtain ⟨hlive,hreplay,harmed⟩ := h
  rw [← hjournal,← hchains] at hlive
  simp only [← hjournal,← hchains] at hreplay harmed
  exact ⟨hlive,hreplay,harmed⟩

theorem Inv.record (h : Inv c w p) {r : ChainManager.Recorded} (hmoves : Moves w p.manager r) : Inv c w (p.record c r) := by
  obtain ⟨m',o⟩ := r
  have hjournal : m'.journal = p.manager.journal := hmoves.journal_eq
  cases o with
  | none => exact h.keep hjournal (hmoves.unrecorded nofun)
  | some μ =>
    cases hr : μ.recording m'.journal.snapshot with
    | none =>
      have hchains : m'.chains = p.manager.chains := hmoves.unrecorded fun _ heq => by cases heq; exact ⟨_,hr⟩
      have hissue : m'.journal.issue μ = (m'.journal,[]) := by rw [SnapshotJournal.issue,hr]
      have hrecord : p.record c (m',some μ) = { p with manager := m' } := by
        simp [Process.record,hissue,Stamps.entries]
      rw [hrecord]
      exact h.keep hjournal hchains
    | some r =>
      obtain ⟨hsnapshot,hentries,hcount⟩ := issue_recorded c p.stamped hr
      obtain ⟨t,ht,hagree,hseq,hdecodes⟩ := h.replay
      have hkey : t.key = m'.journal.snapshot.key := by
        rw [hjournal]
        exact Prod.ext hagree.agentName.symm hagree.sessionId.symm
      obtain ⟨t',happly,hone,habs⟩ :=
        μ.applyEvent_one m'.journal.snapshot t (c.seq p.stamped) (c.ts p.stamped) hr hkey hseq
      refine ⟨?_,⟨{ t' with appliedSeq := c.seq p.stamped },?_,?_,?_,?_⟩,hmoves.armed h.armed⟩
      · change Decodes _ (m'.journal.issue μ).1.snapshot.pendingChains m'.chains
        rw [hsnapshot,hjournal]
        exact hmoves.mirror hr h.live
      · change p.saved.applyEvents (p.tail ++ c.entries p.stamped (m'.journal.issue μ).2) = _
        rw [hentries,AgentSnapshot.applyEvents,List.foldlM_append]
        change (p.saved.applyEvents p.tail >>= fun t => t.applyEvent _ >>= pure) = _
        rw [ht]
        change (t.applyEvent _ >>= pure) = _
        rw [happly]
        rfl
      · change Agree (m'.journal.issue μ).1.snapshot _
        rw [hsnapshot,hjournal]
        exact (habs.agree _ hagree).withSeq _
      · change c.seq p.stamped < c.seq (p.stamped + (m'.journal.issue μ).2.countP Submission.isAppend)
        rw [hcount]
        exact c.mono (Nat.lt_succ_self _)
      · change Decodes (registered (p.tail ++ c.entries p.stamped (m'.journal.issue μ).2)) t'.pendingChains m'.chains
        rw [hentries]
        exact hmoves.replay hr hdecodes hone

theorem Inv.save (h : Inv c w p) : Inv c w (p.save c) := by
  refine ⟨h.live,⟨_,rfl,(Agree.refl _).withSeq _,?_,h.live⟩,h.armed⟩
  change lastSeq c p.stamped < c.seq p.stamped
  unfold lastSeq
  split
  · rename_i hzero
    rw [hzero]
    exact c.pos
  · exact c.mono (by omega)

theorem Inv.new (c : Stamps) (w : Timeout) (agentName sessionId : String) (snapshotInterval : ℕ) :
    Inv c w (.new agentName sessionId snapshotInterval) :=
  ⟨fun _ => rfl,⟨_,rfl,Agree.refl _,c.pos,fun _ => rfl⟩,fun _ _ h => by cases h⟩

/-- A restart gives back every chain, and the registration of those that were replayed is not dated. -/
theorem Inv.restart (h : Inv c w p) (clock : String → UtcTime) : ∃ q, p.restart w clock = .ok q ∧ Inv c w q ∧
    (∀ id, q.manager.chains.get? id =
      (p.manager.chains.get? id).map fun chain => chain.known (registered p.tail id)) ∧
    ∀ id chain, p.manager.chains.get? id = some chain → w.enabled = true →
      q.manager.timers.get? id = some (restoredWatchdog w (clock id) chain) := by
  obtain ⟨t,ht,hagree,hseq,hdecodes⟩ := h.replay
  have hitems : ∀ item ∈ t.pendingChains.items, ∃ chain, restoreChain item.2 = .ok chain := by
    intro item hitem
    have hid := hdecodes item.1
    rw [Dict.get?_of_mem hitem] at hid
    obtain ⟨chain,-,hchain⟩ := Option.map_eq_some_iff.mp hid.symm
    exact ⟨_,hchain.symm⟩
  obtain ⟨m',hm',hjournal,hout,hin⟩ := @restoreItems w clock t.pendingChains.items
    ⟨⟨t,0,p.manager.journal.snapshotInterval⟩,.empty,.empty⟩ t.pendingChains.nodup hitems
  have hchains : ∀ id, m'.chains.get? id =
      (p.manager.chains.get? id).map fun chain => chain.known (registered p.tail id) := by
    intro id
    cases hchain : p.manager.chains.get? id with
    | none =>
      have hid := hdecodes id
      rw [hchain,Option.map_none,Option.map_eq_none_iff] at hid
      exact (hout id hid).1
    | some chain =>
      obtain ⟨dict,hdict,hread⟩ := hdecodes.of_get? hchain
      exact (hin id dict _ hdict hread).1
  have hknown : ∀ (chain : PendingChain) lost, (chain.known lost).known lost = chain.known lost := by
    intro chain lost
    cases lost <;> rfl
  have harmAt : ∀ (chain : PendingChain) lost, (chain.known lost).armAt = chain.armAt := by
    intro chain lost
    cases lost <;> rfl
  refine ⟨{ p with manager := m' },?_,⟨?_,⟨t,ht,?_,hseq,?_⟩,?_⟩,hchains,?_⟩
  · unfold Process.restart restore
    rw [ht]
    change (_ >>= fun manager => (pure { p with manager := manager } : Except PyError Process)) = _
    rw [hm']
    rfl
  · intro id
    have hid := hdecodes id
    rw [hjournal,hid,hchains id,Option.map_map]
    rfl
  · rw [hjournal]
    exact Agree.refl t
  · intro id
    have hid := hdecodes id
    rw [hid,hchains id,Option.map_map]
    simp only [Function.comp_def,hknown]
  · intro id chain hchain hne
    rw [hchains id] at hchain
    obtain ⟨before,hbefore,rfl⟩ := Option.map_eq_some_iff.mp hchain
    rw [harmAt] at hne
    exact h.armed id before hbefore hne
  · intro id chain hchain henabled
    obtain ⟨dict,hdict,hread⟩ := hdecodes.of_get? hchain
    rw [(hin id dict _ hdict hread).2 henabled]
    simp only [restoredWatchdog,harmAt]

theorem Inv.step (h : Inv c w p) {q : Process} (hstep : Step c w p q) : Inv c w q := by
  cases hstep with
  | call now call => exact h.record (call.moves w now p.manager)
  | save => exact h.save
  | restart _ clock hq =>
    obtain ⟨q',hq',hinv,-⟩ := h.restart clock
    cases hq'.symm.trans hq
    exact hinv

theorem Reachable.inv (h : Reachable c w p) : Inv c w p := by
  induction h with
  | new agentName sessionId snapshotInterval => exact .new c w agentName sessionId snapshotInterval
  | step _ hstep ih => exact ih.step hstep

end Invariant

/-- A restart gives back the chains and their deadlines exactly when no pending chain with a date was registered after the
snapshot file. -/
theorem restart_restores_iff {c : Stamps} {w : Timeout} {p : Process} (hp : Reachable c w p) (clock : String → UtcTime) :
    (∃ q, p.restart w clock = .ok q ∧ Restored clock p.manager q.manager) ↔ Covered p := by
  obtain ⟨q,hq,-,hchains,htimers⟩ := hp.inv.restart clock
  have hsame : (∀ id, q.manager.chains.get? id = p.manager.chains.get? id) ↔ Covered p := by
    constructor
    · intro h id chain hchain hregistered
      have hid := (hchains id).symm.trans (h id)
      rw [hchain,Option.map_some,hregistered] at hid
      have hundated : chain.undated = chain := Option.some.inj hid
      rw [← hundated]
      rfl
    · intro h id
      rw [hchains id]
      cases hchain : p.manager.chains.get? id with
      | none => rfl
      | some chain =>
        rw [Option.map_some,Option.some.injEq]
        cases hregistered : registered p.tail id with
        | false => rfl
        | true =>
          have hnone := h id chain hchain hregistered
          change chain.undated = chain
          rw [PendingChain.undated,← hnone]
  constructor
  · rintro ⟨q',hq',hrestored⟩
    cases hq.symm.trans hq'
    exact hsame.mp hrestored.chains
  · intro h
    refine ⟨q,hq,hsame.mpr h,?_⟩
    intro id chain armAt hchain harm
    have henabled := hp.inv.armed id chain hchain (by rw [harm]; exact nofun)
    rw [htimers id chain hchain henabled,restoredWatchdog,harm]

/-! ## A chain that is registered and not settled -/

def epoch : UtcTime := ⟨0,by decide⟩
def everySecond : Stamps := ⟨fun n => n + 1,fun _ => "",Nat.zero_lt_one,strictMono_id.add_const 1⟩
def request : RegisterArgs := ⟨"c1",1,"look it up",some "user",{"helper"},none,0,some "prompt"⟩

/-- The registration of a chain, with no snapshot file since. -/
def registeredOnly : Process :=
  (Process.new "a" "main" 10).record everySecond ((Call.register request).apply ⟨true,60000000⟩ epoch (.new "a" "main" 10))

theorem registeredOnly_reachable : Reachable everySecond ⟨true,60000000⟩ registeredOnly :=
  .step (.new "a" "main" 10) (.call _ epoch (.register request))

/-- From the snapshot file the chain comes back. -/
theorem saved_chain_restored :
    ∃ q, (registeredOnly.save everySecond).restart ⟨true,60000000⟩ (fun _ => epoch) = .ok q ∧
      Restored (fun _ => epoch) (registeredOnly.save everySecond).manager q.manager :=
  (restart_restores_iff (.step registeredOnly_reachable (.save registeredOnly)) fun _ => epoch).mpr
    fun _ _ _ hregistered => nomatch hregistered

/-- From the log alone the chain comes back without its date. -/
theorem replayed_chain_undated : ¬∀ c w p clock, Reachable c w p →
    ∃ q, p.restart w clock = .ok q ∧ Restored clock p.manager q.manager := by
  intro h
  obtain ⟨q,hq,hrestored⟩ := h everySecond ⟨true,60000000⟩ registeredOnly (fun _ => epoch) registeredOnly_reachable
  obtain ⟨q',hq',-,hchains,-⟩ := registeredOnly_reachable.inv.restart fun _ => epoch
  cases hq.symm.trans hq'
  have hpending : registeredOnly.manager.chains.get? "c1" = some (request.chain epoch) := rfl
  have hregistered : registered registeredOnly.tail "c1" = true := by
    rw [registered,registeredOnly]
    decide_cbv
  have hid := (hchains "c1").symm.trans (hrestored.chains "c1")
  rw [hpending,Option.map_some,hregistered] at hid
  cases congrArg PendingChain.registeredAt (Option.some.inj hid)

end Reyn.Chains
