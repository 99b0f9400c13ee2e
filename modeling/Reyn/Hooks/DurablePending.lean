import Reyn.Hooks.Composer
import Reyn.Lib.Number
import Reyn.Lib.Runs

/-! # The durable pending store

The whole pending set is one file, replaced on every change. The file is kept by the tree that its
text stands for; a decoded record has the types of the fields. Only a failure of the disk is caught
around a write: a payload that JSON has no form for raises.
-/
namespace Reyn
open Py Transition

/-- A hook event with all its fields; the payload is any mapping. -/
structure BusEvent where
  kind : String
  payload : List (Value × Value)
  source : String
  chainId : Option String
  id : String
  emittedAt : FloatLit
  deriving DecidableEq

/-- A pending record, with its times as the floats that are written. -/
structure ArmedRecord where
  events : List BusEvent
  matchedInputs : Finset ℕ
  seqPos : ℤ
  createdAt : FloatLit
  lastAt : FloatLit
  deriving DecidableEq

/-- Records by composer and correlation key. -/
abbrev PendingSet := Dict (String × String) ArmedRecord

namespace DurablePendingStore

def schemaVersion : ℤ := 1

/-! ## Encoding -/

/-- `dataclasses.asdict` -/
def asdict (e : BusEvent) : Value :=
  .dict [(.str "kind",.str e.kind),(.str "payload",.dict e.payload),(.str "source",.str e.source),
    (.str "chain_id",Value.ofStr? e.chainId),(.str "id",.str e.id),(.str "emitted_at",.float e.emittedAt)]

def encode (r : ArmedRecord) : Value :=
  .dict [(.str "events",.list (r.events.map asdict)),
    (.str "matched_inputs",.list ((r.matchedInputs.sort (· ≤ ·)).map fun i : ℕ => .int i)),(.str "seq_pos",.int r.seqPos),
    (.str "created_at",.float r.createdAt),(.str "last_at",.float r.lastAt)]

def asText : Value → Option String
  | .str s => some s
  | _ => none

def asFloat : Value → Option FloatLit
  | .float f => some f
  | _ => none

def asList : Value → Option (List Value)
  | .list xs => some xs
  | _ => none

def asDict : Value → Option (List (Value × Value))
  | .dict fields => some fields
  | _ => none

def asOptText : Value → Option (Option String)
  | .none => some none
  | .str s => some (some s)
  | _ => none

def asInt : Value → Option ℤ
  | .int i => some i
  | _ => none

/-- `HookEvent(**e)` -/
def hookEvent (v : Value) : Option BusEvent := do
  let e ← asDict v
  let kind ← (Value.get? e "kind").bind asText
  let payload ← (Value.get? e "payload").bind asDict
  let source ← (Value.get? e "source").bind asText
  let chainId ← (Value.get? e "chain_id").bind asOptText
  let id ← (Value.get? e "id").bind asText
  let emittedAt ← (Value.get? e "emitted_at").bind asFloat
  if e.all fun p => p.1 ∈ ["kind","payload","source","chain_id","id","emitted_at"].map Value.str then
    return ⟨kind,payload,source,chainId,id,emittedAt⟩
  else none

def decode (v : Value) : Option ArmedRecord := do
  let raw ← asDict v
  let events ← ((Value.get? raw "events").bind asList).bind (·.mapM hookEvent)
  let matched ← ((Value.get? raw "matched_inputs").bind asList).bind (·.mapM asInt)
  let seqPos ← (Value.get? raw "seq_pos").bind asInt
  let createdAt ← (Value.get? raw "created_at").bind asFloat
  let lastAt ← (Value.get? raw "last_at").bind asFloat
  return ⟨events,(matched.map Int.toNat).toFinset,seqPos,createdAt,lastAt⟩

/-! ## The file -/

/-- `json.dump` without a default; `none` where it raises. -/
def dump (v : Value) : Option Json := if v.native then v.toJson else none

/-- The order of the keys of the set: by composer, then by key. -/
def keyLe (a b : String × String) : Bool := decide (a.1 < b.1 ∨ a.1 = b.1 ∧ a.2 ≤ b.2)

def sortedItems (data : PendingSet) : List ((String × String) × ArmedRecord) :=
  data.items.mergeSort fun p q => keyLe p.1 q.1

def entry (p : (String × String) × ArmedRecord) : Value :=
  .dict [(.str "composer",.str p.1.1),(.str "key",.str p.1.2),(.str "record",encode p.2)]

def payload (data : PendingSet) : Value :=
  .dict [(.str "version",.int schemaVersion),(.str "records",.list ((sortedItems data).map entry))]

/-- What lies at the path of the store. -/
inductive StoreFile where
  | absent
  | unreadable
  | text (j : Json)

/-- A stored entry; one that is no mapping, or lacks a member, is dropped. -/
def loadEntry (v : Value) : Option ((String × String) × ArmedRecord) := do
  let fields ← asDict v
  let record ← (Value.get? fields "record").bind decode
  let composer ← (Value.get? fields "composer").bind asText
  let key ← (Value.get? fields "key").bind asText
  return ((composer,key),record)

/-- `_load`; `none` where it raises. -/
def load : StoreFile → Option PendingSet
  | .absent | .unreadable => some .empty
  | .text j =>
    match Value.ofJson j.reread with
    | .dict raw =>
      if (Value.get? raw "version").any fun v => v.pyEq (.int schemaVersion) then
        match (Value.get? raw "records").getD (.list []) with
        | .list entries => some (.ofList (entries.filterMap loadEntry))
        -- what a loop over them yields is no mapping
        | .str _ | .dict _ | .tuple _ | .other _ _ _ => some .empty
        | .none | .bool _ | .int _ | .float _ => none
      else some .empty
    | _ => some .empty

/-- `_flush`, up to the disk; `none` where it raises. -/
def flush (data : PendingSet) : Option Json := dump (payload data)

/-! ## Operations -/

inductive StoreOp where
  | put (composer key : String) (record : ArmedRecord)
  | delete (composer key : String)
  | retainComposers (names : List String)

namespace StoreOp

def apply (data : PendingSet) : StoreOp → PendingSet
  | put composer key record => data.set (composer,key) record
  | delete composer key => data.pop (composer,key)
  | retainComposers names => data.filterKeys fun k => decide (k.1 ∈ names)

/-- Whether the file is written. -/
def writes (data : PendingSet) : StoreOp → Bool
  | put _ _ _ => true
  | delete composer key => (data.get? (composer,key)).isSome
  | retainComposers names => data.keys.any fun k => decide (k.1 ∉ names)

end StoreOp

/-- A store on its file, whether an operation has raised, and the operations that count: those that were completed, and
those that a crash cut off behind the rename. -/
structure StoreWorld where
  file : StoreFile
  data : PendingSet
  raised : Bool
  counted : List StoreOp

inductive StoreAction where
  | op (o : StoreOp)
  /-- The disk fails, which is logged. -/
  | diskFails (o : StoreOp)
  /-- The process dies inside an operation, before or after the rename, and the store is built anew. -/
  | crash (o : StoreOp) (renamed : Bool)
  | restart

namespace StoreWorld

def start : StoreWorld := ⟨.absent,.empty,false,[]⟩

/-- A new store on the file. -/
def reopen (file : StoreFile) (counted : List StoreOp) : StoreWorld :=
  match load file with
  | some data => ⟨file,data,false,counted⟩
  | none => ⟨file,.empty,true,counted⟩

def step (w : StoreWorld) : StoreAction → Option StoreWorld
  | .op o =>
    if o.writes w.data then
      match flush (o.apply w.data) with
      | some j => some { w with file := .text j, data := o.apply w.data, counted := w.counted ++ [o] }
      | none => some { w with data := o.apply w.data, raised := true }
    else some { w with data := o.apply w.data, counted := w.counted ++ [o] }
  | .diskFails o =>
    if o.writes w.data then
      match flush (o.apply w.data) with
      | some _ => some { w with data := o.apply w.data, counted := w.counted ++ [o] }
      | none => some { w with data := o.apply w.data, raised := true }
    else none
  | .crash o renamed =>
    if o.writes w.data && renamed then
      match flush (o.apply w.data) with
      | some j => some (reopen (.text j) (w.counted ++ [o]))
      | none => none
    else some (reopen w.file w.counted)
  | .restart => some (reopen w.file w.counted)

end StoreWorld

/-- The pending set after some operations. -/
def pendingAfter (ops : List StoreOp) : PendingSet := ops.foldl StoreOp.apply .empty

/-! ## What can be stored -/

/-- A value that is written, and read as it was. -/
def storable (v : Value) : Bool := v.kept && v.writable

/-- The payloads of its events have a form in JSON, and its numbers a text. -/
def Storable (r : ArmedRecord) : Prop := (∀ e ∈ r.events, storable (.dict e.payload) = true) ∧
  (∀ i ∈ r.matchedInputs, Value.hasText i = true) ∧ Value.hasText r.seqPos = true

/-- The record that an action puts can be stored. -/
def PutsStorable : StoreAction → Prop
  | .op (.put _ _ r) | .diskFails (.put _ _ r) | .crash (.put _ _ r) _ => Storable r
  | _ => True

def DiskWorks : StoreAction → Prop
  | .diskFails _ => False
  | _ => True

/-! ## The codec -/

theorem mapM_map_some {A B : Type} {f : A → B} {g : B → Option A} (h : ∀ a, g (f a) = some a) (l : List A) :
    (l.map f).mapM g = some l := by
  induction l with
  | nil => rfl
  | cons a l ih =>
    rw [List.map_cons,List.mapM_cons,h,ih]
    rfl

theorem hookEvent_asdict (e : BusEvent) : hookEvent (asdict e) = some e := by
  obtain ⟨kind,payload,source,chainId,id,emittedAt⟩ := e
  cases chainId <;> rfl

theorem encode_get? (r : ArmedRecord) : ∀ fields, encode r = .dict fields →
    Value.get? fields "events" = some (.list (r.events.map asdict)) ∧
    Value.get? fields "matched_inputs" = some (.list ((r.matchedInputs.sort (· ≤ ·)).map fun i : ℕ => .int i)) ∧
    Value.get? fields "seq_pos" = some (.int r.seqPos) ∧
    Value.get? fields "created_at" = some (.float r.createdAt) ∧ Value.get? fields "last_at" = some (.float r.lastAt) := by
  intro fields h
  cases h
  exact ⟨rfl,rfl,rfl,rfl,rfl⟩

/-- A record comes back from its encoding. -/
theorem decode_encode (r : ArmedRecord) : decode (encode r) = some r := by
  have hevents := mapM_map_some hookEvent_asdict r.events
  have hmatched : ((r.matchedInputs.sort (· ≤ ·)).map fun i : ℕ => Value.int i).mapM asInt =
      some ((r.matchedInputs.sort (· ≤ ·)).map fun i : ℕ => (i : ℤ)) := by
    induction r.matchedInputs.sort (· ≤ ·) with
    | nil => rfl
    | cons i l ih =>
      rw [List.map_cons,List.mapM_cons,ih]
      rfl
  have hset : (((r.matchedInputs.sort (· ≤ ·)).map fun i : ℕ => (i : ℤ)).map Int.toNat).toFinset = r.matchedInputs := by
    rw [List.map_map]
    have hid : (Int.toNat ∘ fun i : ℕ => (i : ℤ)) = id := funext fun i => Int.toNat_natCast i
    rw [hid,List.map_id,Finset.sort_toFinset]
  obtain ⟨hget₁,hget₂,hget₃,hget₄,hget₅⟩ := encode_get? r _ rfl
  simp only [decode,encode,asDict,hget₁,hget₂,hget₃,hget₄,hget₅,Option.bind_eq_bind,Option.bind_some,asList,asInt,asFloat,hevents,hmatched,hset,pure]

theorem loadEntry_entry (p : (String × String) × ArmedRecord) : loadEntry (entry p) = some p := by
  change ((decode (encode p.2)).bind fun record => some ((p.1.1,p.1.2),record)) = some p
  rw [decode_encode]
  rfl

theorem storable_iff {v : Value} : storable v = true ↔ v.wf = true ∧ v.plain = true ∧ v.writable = true := by
  rw [storable,Value.kept,Bool.and_eq_true,Bool.and_eq_true,and_assoc]

@[simp] theorem storable_str (s : String) : storable (.str s) = true := rfl
@[simp] theorem storable_float (x : FloatLit) : storable (.float x) = true := rfl

theorem storable_int {i : ℤ} (h : Value.hasText i = true) : storable (.int i) = true := storable_iff.mpr ⟨rfl,rfl,h⟩

theorem storable_list {xs : List Value} (h : ∀ x ∈ xs, storable x = true) : storable (.list xs) = true := by
  rw [storable_iff]
  induction xs with
  | nil => exact ⟨rfl,rfl,rfl⟩
  | cons x xs ih =>
    obtain ⟨hwf,hplain,hwritable⟩ := storable_iff.mp (h x List.mem_cons_self)
    obtain ⟨hwf',hplain',hwritable'⟩ := ih fun x hx => h x (List.mem_cons_of_mem _ hx)
    rw [Value.wf] at hwf'
    rw [Value.plain] at hplain'
    rw [Value.writable] at hwritable'
    simp [Value.wf,Value.plain,Value.writable,Value.wfItems,Value.plainItems,Value.writableItems,hwf,hplain,hwritable,
      hwf',hplain',hwritable']

theorem storable_dict {fields : List (Value × Value)} (hkeys : (fields.map Prod.fst).Nodup)
    (h : ∀ p ∈ fields, Value.isText p.1 = true ∧ storable p.2 = true) : storable (.dict fields) = true := by
  have hmembers : ∀ fields : List (Value × Value), (∀ p ∈ fields, Value.isText p.1 = true ∧ storable p.2 = true) →
      Value.wfFields fields = true ∧ Value.plainFields fields = true ∧ Value.writableFields fields = true := by
    intro fields h
    induction fields with
    | nil => exact ⟨rfl,rfl,rfl⟩
    | cons p rest ih =>
      obtain ⟨k,v⟩ := p
      obtain ⟨htext,hv⟩ := h (k,v) List.mem_cons_self
      obtain ⟨hwf,hplain,hwritable⟩ := storable_iff.mp hv
      obtain ⟨hwf',hplain',hwritable'⟩ := ih fun p hp => h p (List.mem_cons_of_mem _ hp)
      obtain ⟨s,rfl⟩ := Value.isText_iff.mp htext
      simp [Value.wfFields,Value.plainFields,Value.writableFields,Value.isText,Value.keyText,hwf,hplain,hwritable,
        hwf',hplain',hwritable']
  obtain ⟨hwf,hplain,hwritable⟩ := hmembers fields h
  rw [storable_iff,Value.wf,Value.plain,Value.writable,hwf,Bool.and_true]
  exact ⟨decide_eq_true hkeys,hplain,hwritable⟩

theorem storable_asdict {e : BusEvent} (h : storable (.dict e.payload) = true) : storable (asdict e) = true := by
  apply storable_dict
  · have hkeys : (["kind","payload","source","chain_id","id","emitted_at"].map Value.str).Nodup := by decide
    exact hkeys
  have hchain : storable (Value.ofStr? e.chainId) = true := by
    cases e.chainId <;> rfl
  simp [Value.isText,h,hchain]

theorem storable_encode {r : ArmedRecord} (h : Storable r) : storable (encode r) = true := by
  obtain ⟨hevents,hmatched,hseq⟩ := h
  have hlist : storable (.list (r.events.map asdict)) = true := by
    apply storable_list
    intro v hv
    obtain ⟨e,he,rfl⟩ := List.mem_map.mp hv
    exact storable_asdict (hevents e he)
  have hinputs : storable (.list ((r.matchedInputs.sort (· ≤ ·)).map fun i : ℕ => .int i)) = true := by
    apply storable_list
    intro v hv
    obtain ⟨i,hi,rfl⟩ := List.mem_map.mp hv
    exact storable_int (hmatched i ((Finset.mem_sort _).mp hi))
  apply storable_dict
  · have hkeys : (["events","matched_inputs","seq_pos","created_at","last_at"].map Value.str).Nodup := by decide
    exact hkeys
  · simp [Value.isText,hlist,hinputs,storable_int hseq]

/-! ## Writing and loading -/

def AllStorable (data : PendingSet) : Prop := ∀ k r, data.get? k = some r → Storable r

theorem mem_sortedItems {data : PendingSet} {p : (String × String) × ArmedRecord} :
    p ∈ sortedItems data ↔ p ∈ data.items := (List.mergeSort_perm _ _).mem_iff

theorem storable_payload {data : PendingSet} (h : AllStorable data) : storable (payload data) = true := by
  have hrecords : storable (.list ((sortedItems data).map entry)) = true := by
    apply storable_list
    intro v hv
    obtain ⟨p,hp,rfl⟩ := List.mem_map.mp hv
    have hrecord := storable_encode (h p.1 p.2 (Dict.get?_of_mem (mem_sortedItems.mp hp)))
    apply storable_dict
    · have hkeys : (["composer","key","record"].map Value.str).Nodup := by decide
      exact hkeys
    · simp [Value.isText,hrecord]
  have hversion : Value.hasText schemaVersion = true := by
    unfold Value.hasText
    rw [decide_eq_true_eq]
    exact Nat.one_lt_pow (by decide) (by decide)
  apply storable_dict
  · have hkeys : (["version","records"].map Value.str).Nodup := by decide
    exact hkeys
  · simp [Value.isText,hrecords,storable_int hversion]

theorem dump_storable {v : Value} (h : storable v = true) : ∃ j, dump v = some j ∧ Value.ofJson j.reread = v := by
  obtain ⟨hwf,hplain,hwritable⟩ := storable_iff.mp h
  rw [← Value.isSome_toJson] at hwritable
  obtain ⟨j,hj⟩ := Option.isSome_iff_exists.mp hwritable
  refine ⟨j,?_,?_⟩
  · rw [dump,if_pos (Value.native_of_plain hplain),hj]
  · rw [Value.ofJson_reread hj,(Value.reload_eq_iff hwf).mpr hplain]

theorem nodup_sortedItems (data : PendingSet) : ((sortedItems data).map Prod.fst).Nodup :=
  ((List.mergeSort_perm _ _).map Prod.fst).nodup_iff.mpr data.nodup

theorem same_ofList_sortedItems (data : PendingSet) : (Dict.ofList (sortedItems data)).Same data := by
  intro k
  apply Option.ext
  intro r
  rw [Dict.get?_ofList_of_nodup (nodup_sortedItems data)]
  change (⟨sortedItems data,nodup_sortedItems data⟩ : PendingSet).get? k = some r ↔ _
  constructor
  · intro h
    exact Dict.get?_of_mem (mem_sortedItems.mp (Dict.mem_of_get? h))
  · intro h
    exact Dict.get?_of_mem (mem_sortedItems.mpr (Dict.mem_of_get? h))

theorem loadEntry_entries (l : List ((String × String) × ArmedRecord)) : (l.map entry).filterMap loadEntry = l := by
  rw [List.filterMap_map]
  have hsome : loadEntry ∘ entry = some := funext loadEntry_entry
  rw [hsome,List.filterMap_some]

/-- What was flushed is loaded. -/
theorem load_flush {data : PendingSet} (h : AllStorable data) :
    ∃ j d, flush data = some j ∧ load (.text j) = some d ∧ d.Same data := by
  obtain ⟨j,hj,hread⟩ := dump_storable (storable_payload h)
  have hversion : Value.pyEq (.int schemaVersion) (.int schemaVersion) = true := by
    simp [Value.pyEq,Value.sameNumber,Value.numeric?,Value.number?]
  refine ⟨j,_,hj,?_,same_ofList_sortedItems data⟩
  rw [load,hread,payload]
  change (if Value.pyEq (.int schemaVersion) (.int schemaVersion) = true then
    some (Dict.ofList (((sortedItems data).map entry).filterMap loadEntry)) else some .empty) = _
  rw [if_pos hversion,loadEntry_entries]

/-! ## Operations on equal sets -/

namespace StoreOp
variable {data data' : PendingSet}

theorem same_apply (h : data.Same data') (o : StoreOp) : (o.apply data).Same (o.apply data') := by
  intro k
  cases o with
  | put composer key record =>
    rw [apply,apply,Dict.get?_set,Dict.get?_set,h k]
  | delete composer key =>
    rw [apply,apply,Dict.get?_pop,Dict.get?_pop,h k]
  | retainComposers names =>
    rw [apply,apply,Dict.get?_filterKeys,Dict.get?_filterKeys,h k]

/-- What is not written changes nothing. -/
theorem same_of_idle {o : StoreOp} (h : o.writes data = false) : (o.apply data).Same data := by
  intro k
  cases o with
  | put composer key record => cases h
  | delete composer key =>
    rw [apply,Dict.get?_pop]
    split
    · rename_i hk
      rw [hk]
      exact (Option.not_isSome_iff_eq_none.mp (Bool.eq_false_iff.mp h)).symm
    · rfl
  | retainComposers names =>
    rw [apply,Dict.get?_filterKeys]
    split
    · rfl
    · rename_i hk
      symm
      rw [Dict.get?_eq_none_iff]
      intro hmem
      rw [writes,List.any_eq_false] at h
      exact h k hmem (by simpa using hk)

theorem storable_apply {o : StoreOp} (h : AllStorable data) (ho : ∀ c k r, o = .put c k r → Storable r) :
    AllStorable (o.apply data) := by
  intro k r hr
  cases o with
  | put composer key record =>
    rw [apply,Dict.get?_set] at hr
    split at hr
    · cases hr
      exact ho _ _ _ rfl
    · exact h k r hr
  | delete composer key =>
    rw [apply,Dict.get?_pop] at hr
    split at hr
    · cases hr
    · exact h k r hr
  | retainComposers names =>
    rw [apply,Dict.get?_filterKeys] at hr
    split at hr
    · exact h k r hr
    · cases hr

end StoreOp

/-! ## Runs -/

theorem pendingAfter_concat (ops : List StoreOp) (o : StoreOp) : pendingAfter (ops ++ [o]) = o.apply (pendingAfter ops) :=
  List.foldl_concat ..

namespace StoreWorld
variable {w w' : StoreWorld} {a : StoreAction}

/-- Nothing has raised, and what there is can be stored. -/
structure Sound (w : StoreWorld) : Prop where
  calm : w.raised = false
  data : AllStorable w.data
  file : ∃ d, load w.file = some d ∧ AllStorable d

/-- The file and the set in memory are what the counted operations make. -/
structure Durable (w : StoreWorld) : Prop where
  file : ∃ d, load w.file = some d ∧ d.Same (pendingAfter w.counted)
  data : w.data.Same (pendingAfter w.counted)

theorem reopen_of_load {file : StoreFile} {d : PendingSet} (h : load file = some d) (counted : List StoreOp) :
    reopen file counted = ⟨file,d,false,counted⟩ := by
  rw [reopen,h]

theorem AllStorable.same {d data : PendingSet} (hd : d.Same data) (h : AllStorable data) : AllStorable d :=
  fun k r hr => h k r ((hd k).symm.trans hr)

theorem Sound.start : start.Sound := by
  have hnone : AllStorable .empty := by
    intro k r hr
    cases hr
  exact ⟨rfl,hnone,.empty,rfl,hnone⟩

theorem Sound.reopen (h : w.Sound) : (reopen w.file w.counted).Sound := by
  obtain ⟨d,hload,hd⟩ := h.file
  rw [reopen_of_load hload]
  exact ⟨rfl,hd,d,hload,hd⟩

/-- What an operation makes can be stored, when what it puts can. -/
theorem Sound.applied (h : w.Sound) {o : StoreOp} (ho : ∀ c k r, o = .put c k r → Storable r) :
    AllStorable (o.apply w.data) := StoreOp.storable_apply h.data ho

theorem Sound.step (h : w.Sound) (ha : PutsStorable a) (hs : StoreWorld.step w a = some w') : w'.Sound := by
  cases a with
  | op o =>
    have hdata := h.applied (o := o) fun c k r ho => by rw [ho] at ha; exact ha
    obtain ⟨j,d,hflush,hload,hsame⟩ := load_flush hdata
    simp only [StoreWorld.step,hflush] at hs
    split at hs
    · cases hs
      exact ⟨h.calm,hdata,d,hload,AllStorable.same hsame hdata⟩
    · cases hs
      exact ⟨h.calm,hdata,h.file⟩
  | diskFails o =>
    have hdata := h.applied (o := o) fun c k r ho => by rw [ho] at ha; exact ha
    obtain ⟨j,d,hflush,-,-⟩ := load_flush hdata
    simp only [StoreWorld.step,hflush] at hs
    split at hs
    · cases hs
      exact ⟨h.calm,hdata,h.file⟩
    · cases hs
  | crash o renamed =>
    have hdata := h.applied (o := o) fun c k r ho => by rw [ho] at ha; exact ha
    obtain ⟨j,d,hflush,hload,hsame⟩ := load_flush hdata
    simp only [StoreWorld.step,hflush] at hs
    split at hs
    · cases hs
      rw [reopen_of_load hload]
      exact ⟨rfl,AllStorable.same hsame hdata,d,hload,AllStorable.same hsame hdata⟩
    · cases hs
      exact h.reopen
  | restart =>
    cases hs
    exact h.reopen

theorem Durable.start : start.Durable := ⟨⟨.empty,rfl,.refl _⟩,.refl _⟩

theorem Durable.reopen (h : w.Durable) : (reopen w.file w.counted).Durable := by
  obtain ⟨d,hload,hd⟩ := h.file
  rw [reopen_of_load hload]
  exact ⟨⟨d,hload,hd⟩,hd⟩

/-- The set an operation makes is that of the operations with it. -/
theorem Durable.applied (h : w.Durable) (o : StoreOp) : (o.apply w.data).Same (pendingAfter (w.counted ++ [o])) := by
  rw [pendingAfter_concat]
  exact o.same_apply h.data

theorem Durable.step (h : w.Durable) (hsound : w.Sound) (ha : PutsStorable a) (hdisk : DiskWorks a)
    (hs : StoreWorld.step w a = some w') : w'.Durable := by
  cases a with
  | op o =>
    have hdata := hsound.applied (o := o) fun c k r ho => by rw [ho] at ha; exact ha
    obtain ⟨j,d,hflush,hload,hsame⟩ := load_flush hdata
    simp only [StoreWorld.step,hflush] at hs
    split at hs
    · cases hs
      exact ⟨⟨d,hload,hsame.trans (h.applied o)⟩,h.applied o⟩
    · rename_i hidle
      cases hs
      obtain ⟨d,hload,hd⟩ := h.file
      have hsame := StoreOp.same_of_idle (Bool.eq_false_iff.mpr hidle)
      exact ⟨⟨d,hload,(hd.trans h.data.symm).trans (hsame.symm.trans (h.applied o))⟩,h.applied o⟩
  | diskFails o => cases hdisk
  | crash o renamed =>
    have hdata := hsound.applied (o := o) fun c k r ho => by rw [ho] at ha; exact ha
    obtain ⟨j,d,hflush,hload,hsame⟩ := load_flush hdata
    simp only [StoreWorld.step,hflush] at hs
    split at hs
    · cases hs
      rw [reopen_of_load hload]
      exact ⟨⟨d,hload,hsame.trans (h.applied o)⟩,hsame.trans (h.applied o)⟩
    · cases hs
      exact h.reopen
  | restart =>
    cases hs
    exact h.reopen

end StoreWorld

theorem zero_isReal : isReal "0.0".toList ∨ "0.0".toList = "NaN".toList ∨ "0.0".toList = "Infinity".toList ∨
    "0.0".toList = "-Infinity".toList := .inl (by decide)

def zeroTime : FloatLit := ⟨"0.0".toList,zero_isReal⟩

def armed (payload : List (Value × Value)) : ArmedRecord := ⟨[⟨"asked",payload,"builtin",none,"1",zeroTime⟩],∅,0,zeroTime,zeroTime⟩

end DurablePendingStore
end Reyn
