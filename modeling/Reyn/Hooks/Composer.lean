import Reyn.Hooks.ComposerConfig

/-! # A composer at work

A composer keeps a pending record for each correlation key. An event of the bus goes
through the handler of its op, and a sweep goes through the records by the clock. What
`str()` makes of a payload value, what `fnmatch` says and the value of a float are
parameters; the payload of an event is a mapping with string keys.
-/
namespace Reyn
open Py

/-- The points that ship with the runtime, by their bare names. -/
def bareToKind : Dict String String := .ofList
  ((["session_start","session_end","turn_start","turn_end"].map fun p => (p,"builtin:lifecycle:" ++ p)) ++
    (["mcp_resource_updated","file_changed","cron_fired","webhook_received"].map fun p => (p,"builtin:external:" ++ p)) ++
    [("task_settled","builtin:task:task_settled")])

def canonicalKind (point : String) : String :=
  if point ∈ bareToKind.items.map Prod.snd then point else (bareToKind.get? point).getD point

structure HookEvent where
  kind : String
  payload : Dict String Value
  deriving DecidableEq

structure PendingRecord where
  events : List HookEvent
  matchedInputs : Finset ℕ
  seqPos : ℕ
  createdAt : ℚ
  lastAt : ℚ
  deriving DecidableEq

/-- The pending records of one composer by correlation key. -/
abbrev Pending := Dict String PendingRecord

/-- A composed event that is published, with its `composer_fired`; or a `composer_dropped`. -/
inductive Effect where
  | fired (key : String) (composed : HookEvent)
  | dropped (key reason : String)
  deriving DecidableEq

/-- What the standard library does with the values of payloads. -/
structure Payloads where
  str : Value → String
  fnmatch : String → String → Bool
  ofFloat : PyFloat → Value

def globFields : List String := ["uri","path"]

namespace Composer
variable (lib : Payloads)

/-- `matches` of the payload predicate; `none` is the `TypeError` of a glob pattern that is no string. -/
def payloadMatches (payload : Dict String Value) : List (Value × Value) → Option Bool
  | [] => some true
  | (fieldName,pattern) :: rest =>
    let value := match fieldName with
      | .str name => (payload.get? name).getD .none
      | _ => .none
    if value = .none then some false
    else if globFields.any fun g => fieldName == .str g then
      match pattern with
      | .str glob => if lib.fnmatch (lib.str value) glob then payloadMatches payload rest else some false
      | _ => none
    else if pattern = .str (lib.str value) then payloadMatches payload rest
    else some false

/-- The source predicate is not set on the pattern of an input. -/
def inputMatches (inp : ComposerInput) (event : HookEvent) : Option Bool :=
  if canonicalKind inp.kind ≠ canonicalKind event.kind then some false
  else match inp.payload with
    | none => some true
    | some fields => payloadMatches lib event.payload fields

def defaultCorrelationKey : String := "__default__"

variable (d : ComposerDef)

def correlationKey (event : HookEvent) : String :=
  match d.correlateBy with
  | none => defaultCorrelationKey
  | some name =>
    match (event.payload.get? name).getD .none with
    | .none => defaultCorrelationKey
    | value => lib.str value

def matchedInputIndices (event : HookEvent) : Option (List ℕ) :=
  (d.inputs.mapM (inputMatches lib · event)).map fun bs => (bs.zipIdx.filter (·.1)).map (·.2)

/-- The key of the record that was created first. -/
def oldestKey (pending : Pending) : Option (String × PendingRecord) :=
  pending.items.foldl (fun oldest p => match oldest with
    | none => some p
    | some q => if p.2.createdAt < q.2.createdAt then some p else some q) none

/-- Whether a key may be admitted, with the records that stay. -/
def admitNewKey (pending : Pending) (key : String) : Bool × Pending × List Effect :=
  if key ∈ pending.keys ∨ pending.keys.length < d.policy.capacity then (true,pending,[])
  else match d.policy.overflow with
    | .dropOldest =>
      match oldestKey pending with
      | some (oldest,_) => (true,pending.pop oldest,[.dropped oldest "capacity_drop_oldest"])
      | none => (true,pending,[])
    | .dropNewest => (false,pending,[.dropped key "capacity_drop_newest"])
    | .reject => (false,pending,[.dropped key "capacity_reject"])

/-- The record of a key, or a new one when the key is admitted. -/
def recordOf (now : ℚ) (pending : Pending) (key : String) : Option PendingRecord × Pending × List Effect :=
  match pending.get? key with
  | some record => (some record,pending,[])
  | none =>
    match admitNewKey d pending key with
    | (true,pending,effects) => (some ⟨[],∅,0,now,now⟩,pending,effects)
    | (false,pending,effects) => (none,pending,effects)

/-- Append an event, and drop from the front what exceeds the cap. -/
def appendEventBounded (record : PendingRecord) (event : HookEvent) (key : String) : PendingRecord × List Effect :=
  let events := record.events ++ [event]
  let excess := events.length - d.policy.maxEventsPerKey
  ({ record with events := events.drop excess },List.replicate excess (.dropped key "per_key_event_cap"))

def composed (key : String) (events : List HookEvent) (extra : List (String × Value)) : HookEvent :=
  ⟨d.emitKind,(Dict.ofList [("inputs",.list (events.map fun e => .dict (e.payload.items.map fun p => (.str p.1,p.2)))),
    ("correlation_key",.str key)]).update extra⟩

def emitComposed (key : String) (events : List HookEvent) (extra : List (String × Value)) : Effect :=
  .fired key (composed d key events extra)

/-- The common shape of the handlers that buffer: take the record, append the event, update the record, and fire when
it is complete. -/
def buffer (now : ℚ) (pending : Pending) (event : HookEvent) (key : String) (change : PendingRecord → PendingRecord)
    (complete : PendingRecord → Bool) : Pending × List Effect :=
  match recordOf d now pending key with
  | (none,pending,effects) => (pending,effects)
  | (some record,pending,effects) =>
    let appended := appendEventBounded d record event key
    let record := { change appended.1 with lastAt := now }
    if complete record then (pending.pop key,effects ++ appended.2 ++ [emitComposed d key record.events []])
    else (pending.set key record,effects ++ appended.2)

def handleAllOrCorrelate (now : ℚ) (pending : Pending) (event : HookEvent) (key : String) (indices : List ℕ) :
    Pending × List Effect :=
  buffer d now pending event key (fun r => { r with matchedInputs := r.matchedInputs ∪ indices.toFinset })
    fun r => decide (d.inputs.length ≤ r.matchedInputs.card)

def handleSeq (now : ℚ) (pending : Pending) (event : HookEvent) (key : String) : Option (Pending × List Effect) := do
  let expected ← d.inputs[(pending.get? key).elim 0 PendingRecord.seqPos]?
  if ← inputMatches lib expected event then
    return buffer d now pending event key (fun r => { r with seqPos := r.seqPos + 1 })
      fun r => decide (d.inputs.length ≤ r.seqPos)
  else return (pending,[])

def handleWindow (now : ℚ) (pending : Pending) (event : HookEvent) (key : String) : Pending × List Effect :=
  buffer d now pending event key id fun _ => false

/-- Only the last event is kept. -/
def handleDebounce (now : ℚ) (pending : Pending) (event : HookEvent) (key : String) : Pending × List Effect :=
  match recordOf d now pending key with
  | (none,pending,effects) => (pending,effects)
  | (some record,pending,effects) => (pending.set key { record with events := [event], lastAt := now },effects)

def handleCount (now : ℚ) (pending : Pending) (event : HookEvent) (key : String) : Pending × List Effect :=
  buffer d now pending event key id fun r => decide (d.threshold.getD 1 ≤ r.events.length)

/-- A deadline is armed by its input and disarmed by its `until` pattern. -/
def handleDeadlineEvent (now : ℚ) (pending : Pending) (event : HookEvent) : Option (Pending × List Effect) := do
  let untilInput ← d.untilInput
  let key := correlationKey lib d event
  if ← inputMatches lib untilInput event then return (pending.pop key,[])
  else
    let armInput ← d.inputs.head?
    if ← inputMatches lib armInput event then
      if (pending.get? key).isSome then return (pending,[])
      else match admitNewKey d pending key with
        | (true,pending,effects) => return (pending.set key ⟨[event],∅,0,now,now⟩,effects)
        | (false,pending,effects) => return (pending,effects)
    else return (pending,[])

/-- One event of the bus; `none` when an exception ends the composer's task. -/
def handleEvent (now : ℚ) (pending : Pending) (event : HookEvent) : Option (Pending × List Effect) :=
  if d.op = .deadline then handleDeadlineEvent lib d now pending event
  else do
    let indices ← matchedInputIndices lib d event
    if indices = [] then return (pending,[])
    else
      let key := correlationKey lib d event
      match d.op with
      | .any => return (pending,[emitComposed d key [event] []])
      | .all | .correlateBy => return handleAllOrCorrelate d now pending event key indices
      | .seq => handleSeq lib d now pending event key
      | .window => return handleWindow d now pending event key
      | .debounce => return handleDebounce d now pending event key
      | .count => return handleCount d now pending event key
      | .deadline => return (pending,[])

/-- `elapsed >= ttl` -/
def reached : PyFloat → ℚ → Bool
  | .finite ttl, elapsed => decide (ttl ≤ elapsed)
  | .negInf, _ => true
  | .inf, _ | .nan, _ => false

/-- The clock reading a record expires by. -/
def since (record : PendingRecord) : ℚ := if d.op = .debounce then record.lastAt else record.createdAt

def expired (now : ℚ) (record : PendingRecord) : Bool := reached d.policy.ttlSeconds (now - since d record)

/-- The payload a missed deadline has beside the usual one. -/
def missed (record : PendingRecord) : List (String × Value) :=
  [("armed_at",lib.ofFloat (.finite record.createdAt)),("ttl",lib.ofFloat d.policy.ttlSeconds),
    ("awaited",match d.untilInput with
      | none => .none
      | some u => .dict [(.str "kind",.str u.kind),(.str "match",(u.payload.map Value.dict).getD .none)])]

/-- What becomes of a record whose time is over. -/
def onExpiry (key : String) (record : PendingRecord) : Effect :=
  match d.op with
  | .window | .debounce => emitComposed d key record.events []
  | .deadline => emitComposed d key record.events (missed lib d record)
  | .all | .any | .seq | .correlateBy | .count => .dropped key "ttl_evict"

/-- The records whose time is over leave, in the order of the store. -/
def sweep (now : ℚ) (pending : Pending) : Pending × List Effect :=
  (pending.filterKeys fun key => !(pending.get? key).any (expired d now),
    (pending.items.filter fun p => expired d now p.2).map fun p => onExpiry lib d p.1 p.2)

/-! ## What a step publishes -/

def published (effects : List Effect) : List HookEvent :=
  effects.filterMap fun
    | .fired _ e => some e
    | .dropped _ _ => none

@[simp] theorem published_nil : published [] = [] := rfl
@[simp] theorem published_append (l l' : List Effect) : published (l ++ l') = published l ++ published l' :=
  List.filterMap_append
@[simp] theorem published_cons_fired (key : String) (e : HookEvent) (l : List Effect) :
    published (.fired key e :: l) = e :: published l := rfl
@[simp] theorem published_cons_dropped (key reason : String) (l : List Effect) :
    published (.dropped key reason :: l) = published l := rfl
@[simp] theorem published_replicate_dropped (n : ℕ) (key reason : String) :
    published (List.replicate n (.dropped key reason)) = [] := by
  rw [published,List.filterMap_eq_nil_iff]
  intro effect heffect
  rw [List.eq_of_mem_replicate heffect]

/-- A step of the composer: its events are of its kind, and each is paid for by a record that leaves or by the event
that came in. -/
structure Paid (pending : Pending) (room : ℕ) (result : Pending × List Effect) : Prop where
  own : ∀ e ∈ published result.2, e.kind = d.emitKind
  paid : (published result.2).length + result.1.items.length ≤ pending.items.length + room

variable {d}

theorem composed_kind (key : String) (events : List HookEvent) (extra : List (String × Value)) :
    (composed d key events extra).kind = d.emitKind := rfl

theorem Paid.silent {pending left : Pending} {effects : List Effect} {room : ℕ} (hnone : published effects = [])
    (hle : left.items.length ≤ pending.items.length + room) : Paid d pending room (left,effects) := by
  refine ⟨fun e he => ?_,?_⟩
  · rw [hnone] at he
    cases he
  · rw [hnone]
    simpa using hle

theorem Paid.refl (pending : Pending) (room : ℕ) : Paid d pending room (pending,[]) := .silent rfl (Nat.le_add_right ..)

theorem admitNewKey_silent {pending left : Pending} {key : String} {admitted : Bool} {effects : List Effect}
    (h : admitNewKey d pending key = (admitted,left,effects)) :
    published effects = [] ∧ left.items.length ≤ pending.items.length := by
  rw [admitNewKey] at h
  split at h
  · cases h
    exact ⟨rfl,le_rfl⟩
  · split at h
    · split at h
      · cases h
        exact ⟨rfl,pending.length_pop_le _⟩
      · cases h
        exact ⟨rfl,le_rfl⟩
    · cases h
      exact ⟨rfl,le_rfl⟩
    · cases h
      exact ⟨rfl,le_rfl⟩

theorem recordOf_silent {now : ℚ} {pending left : Pending} {key : String} {record : Option PendingRecord}
    {effects : List Effect} (h : recordOf d now pending key = (record,left,effects)) :
    published effects = [] ∧ left.items.length ≤ pending.items.length := by
  rw [recordOf] at h
  split at h
  · cases h
    exact ⟨rfl,le_rfl⟩
  · split at h
    · cases h
      exact admitNewKey_silent ‹_›
    · cases h
      exact admitNewKey_silent ‹_›

theorem buffer_paid (now : ℚ) (pending : Pending) (event : HookEvent) (key : String)
    (change : PendingRecord → PendingRecord) (complete : PendingRecord → Bool) :
    Paid d pending 1 (buffer d now pending event key change complete) := by
  rw [buffer]
  split
  · obtain ⟨hnone,hle⟩ := recordOf_silent ‹_›
    exact .silent hnone (hle.trans (Nat.le_add_right ..))
  · rename_i record left effects hrecord
    obtain ⟨hnone,hle⟩ := recordOf_silent hrecord
    have happended : published (appendEventBounded d record event key).2 = [] := published_replicate_dropped ..
    dsimp only
    split
    · refine ⟨?_,?_⟩
      · simp [hnone,happended,emitComposed,composed_kind]
      · have hpop := left.length_pop_le key
        simp only [published_append,hnone,happended,emitComposed,published_cons_fired,published_nil,List.nil_append,
          List.length_singleton]
        omega
    · apply Paid.silent (by simp [hnone,happended])
      exact (left.length_set_le key _).trans (Nat.add_le_add_right hle 1)

theorem handleDebounce_paid (now : ℚ) (pending : Pending) (event : HookEvent) (key : String) :
    Paid d pending 1 (handleDebounce d now pending event key) := by
  rw [handleDebounce]
  split
  · obtain ⟨hnone,hle⟩ := recordOf_silent ‹_›
    exact .silent hnone (hle.trans (Nat.le_add_right ..))
  · rename_i record left effects hrecord
    obtain ⟨hnone,hle⟩ := recordOf_silent hrecord
    exact .silent hnone ((left.length_set_le key _).trans (Nat.add_le_add_right hle 1))

variable (d) in
/-- The event matches an input. -/
def Wants (event : HookEvent) : Prop := ∃ inp ∈ d.inputs, inputMatches lib inp event = some true

instance (event : HookEvent) : Decidable (Wants lib d event) := inferInstanceAs (Decidable (∃ _ ∈ d.inputs, _))

variable {lib}

theorem handleDeadlineEvent_paid {now : ℚ} {pending : Pending} {event : HookEvent} {result : Pending × List Effect}
    (h : handleDeadlineEvent lib d now pending event = some result) :
    Paid d pending (if Wants lib d event then 1 else 0) result := by
  simp only [handleDeadlineEvent,bind,Option.bind_eq_some_iff,pure] at h
  obtain ⟨untilInput,-,matched,-,h⟩ := h
  split at h
  · cases h
    exact .silent rfl ((pending.length_pop_le _).trans (Nat.le_add_right ..))
  · obtain ⟨armInput,harm,h⟩ := Option.bind_eq_some_iff.mp h
    obtain ⟨armed,harmed,h⟩ := Option.bind_eq_some_iff.mp h
    split at h
    · rename_i htrue
      subst htrue
      have hwants : Wants lib d event := ⟨armInput,List.mem_of_head? harm,harmed⟩
      rw [if_pos hwants]
      split at h
      · cases h
        exact .refl pending 1
      · split at h
        · cases h
          obtain ⟨hnone,hle⟩ := admitNewKey_silent ‹_›
          exact .silent hnone ((Dict.length_set_le _ _ _).trans (Nat.add_le_add_right hle 1))
        · cases h
          obtain ⟨hnone,hle⟩ := admitNewKey_silent ‹_›
          exact .silent hnone (hle.trans (Nat.le_add_right ..))
    · cases h
      exact .refl pending _

theorem handleSeq_paid {now : ℚ} {pending : Pending} {event : HookEvent} {key : String}
    {result : Pending × List Effect} (h : handleSeq lib d now pending event key = some result) :
    Paid d pending 1 result := by
  simp only [handleSeq,bind,Option.bind_eq_some_iff,pure] at h
  obtain ⟨expected,-,matched,-,h⟩ := h
  split at h
  · cases h
    exact buffer_paid ..
  · cases h
    exact .refl pending 1

/-- An event with a matching index matches an input. -/
theorem wants_of_indices {event : HookEvent} {indices : List ℕ} (h : matchedInputIndices lib d event = some indices)
    (hne : indices ≠ []) : Wants lib d event := by
  obtain ⟨bs,hbs,rfl⟩ := Option.map_eq_some_iff.mp h
  obtain ⟨i,hi⟩ := List.exists_mem_of_ne_nil _ hne
  obtain ⟨⟨b,j⟩,hmem,-⟩ := List.mem_map.mp hi
  obtain ⟨hmem,hb⟩ := List.mem_filter.mp hmem
  obtain rfl : b = true := hb
  have hget : bs[j]? = some true := List.mem_zipIdx_iff_getElem?.mp hmem
  obtain ⟨hlength,hall⟩ := List.forall₂_iff_get.mp (Fallible.mapM_some_members hbs)
  obtain ⟨hj,htrue⟩ := List.getElem?_eq_some_iff.mp hget
  have hmatch := hall j (hlength ▸ hj) hj
  rw [List.get_eq_getElem,List.get_eq_getElem,htrue] at hmatch
  exact ⟨_,List.getElem_mem _,hmatch⟩

theorem not_wants_of_indices {event : HookEvent} (h : matchedInputIndices lib d event = some []) :
    ¬ Wants lib d event := by
  rintro ⟨inp,hinp,hmatch⟩
  obtain ⟨bs,hbs,hnone⟩ := Option.map_eq_some_iff.mp h
  obtain ⟨hlength,hall⟩ := List.forall₂_iff_get.mp (Fallible.mapM_some_members hbs)
  obtain ⟨j,hj,rfl⟩ := List.getElem_of_mem hinp
  have htrue : bs.get ⟨j,hlength ▸ hj⟩ = true := Option.some.inj ((hall j hj (hlength ▸ hj)).symm.trans hmatch)
  have hmem : (true,j) ∈ bs.zipIdx := by
    rw [← htrue]
    exact List.mem_zipIdx_iff_getElem?.mpr (List.getElem?_eq_getElem _)
  have hfilter : (true,j) ∈ bs.zipIdx.filter (·.1) := List.mem_filter.mpr ⟨hmem,rfl⟩
  rw [List.map_eq_nil_iff.mp hnone] at hfilter
  cases hfilter

theorem handleEvent_paid {now : ℚ} {pending : Pending} {event : HookEvent} {result : Pending × List Effect}
    (h : handleEvent lib d now pending event = some result) :
    Paid d pending (if Wants lib d event then 1 else 0) result := by
  rw [handleEvent] at h
  split at h
  · exact handleDeadlineEvent_paid h
  · simp only [bind,Option.bind_eq_some_iff,pure] at h
    obtain ⟨indices,hindices,h⟩ := h
    split at h
    · cases h
      exact .refl pending _
    · rename_i hne
      rw [if_pos (wants_of_indices hindices hne)]
      split at h
      · cases h
        refine ⟨?_,?_⟩
        · simp [emitComposed,composed_kind]
        · simp [emitComposed,Nat.add_comm]
      · cases h
        exact buffer_paid ..
      · cases h
        exact buffer_paid ..
      · exact handleSeq_paid h
      · cases h
        exact buffer_paid ..
      · cases h
        exact handleDebounce_paid ..
      · cases h
        exact buffer_paid ..
      · cases h
        exact .refl pending 1

/-- What is left after a sweep. -/
theorem sweep_items (now : ℚ) (pending : Pending) :
    (sweep lib d now pending).1.items = pending.items.filter fun p => !expired d now p.2 := by
  apply List.filter_congr
  intro p hp
  simp only [Dict.get?_of_mem hp,Option.any_some]

theorem onExpiry_published (key : String) (record : PendingRecord) :
    ∀ e ∈ published [onExpiry lib d key record], e.kind = d.emitKind := by
  rw [onExpiry]
  split <;> simp [emitComposed,composed_kind]

theorem published_map_length_le (f : String × PendingRecord → Effect) (l : List (String × PendingRecord)) :
    (published (l.map f)).length ≤ l.length :=
  (List.length_filterMap_le ..).trans (List.length_map ..).le

theorem sweep_paid (now : ℚ) (pending : Pending) : Paid d pending 0 (sweep lib d now pending) := by
  refine ⟨?_,?_⟩
  · intro e he
    obtain ⟨effect,heffect,hsome⟩ := List.mem_filterMap.mp he
    obtain ⟨p,-,rfl⟩ := List.mem_map.mp heffect
    exact onExpiry_published p.1 p.2 e (List.mem_filterMap.mpr ⟨_,List.mem_singleton_self _,hsome⟩)
  · have hfired := published_map_length_le (fun p => onExpiry lib d p.1 p.2)
      (pending.items.filter fun p => expired d now p.2)
    have hsplit := List.length_eq_length_filter_add (l := pending.items) (fun p => expired d now p.2)
    rw [sweep_items]
    simp only [sweep]
    omega

end Composer
end Reyn
