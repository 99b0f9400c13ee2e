import Reyn.Lib.TextLines
import Reyn.Lib.Value

/-! # The approval ledger

One line of JSON for each decision, appended without a look at the file, and the fold of
the file that a reader makes. `float` of an integer is a parameter.
-/
namespace Reyn
open Py

/-- What `append_approval` and `append_identity_bind` write. -/
inductive ApprovalEntry where
  | approval (key : String) (approved : Bool) (scope : Option String)
  | identityBind (key : String) (ino : ℤ) (birthtime : Option FloatLit)
  deriving DecidableEq

def scopeWorkspace : String := "workspace"

def scopeLegacyWorkspace : String := "legacy-workspace"

def scopeForAgent (agentName : String) : String := "agent:" ++ agentName

namespace ApprovalEntry

def birthtimeJson : Option FloatLit → Json
  | some f => .float f
  | none => .null

def record (ts : String) : ApprovalEntry → List (String × Json)
  | approval key approved scope =>
    [("ts",.str ts),("kind",.str "approval"),("key",.str key),("approved",.bool approved)] ++
      scope.toList.map fun s => ("scope",.str s)
  | identityBind key ino birthtime =>
    [("ts",.str ts),("kind",.str "identity_bind"),("key",.str key),("ino",.int ino),("birthtime",birthtimeJson birthtime)]

/-- The line of `_write_record`. -/
def line (ts : String) (e : ApprovalEntry) : Bytes := encode ((Json.obj (e.record ts)).text ++ ['\n'])

theorem record_wf (ts : String) (e : ApprovalEntry) : (Json.obj (e.record ts)).wf = true := by
  cases e with
  | approval key approved scope => cases scope <;> simp [record,Json.wf,Json.wfFields]
  | identityBind key ino birthtime => cases birthtime <;> simp [record,birthtimeJson,Json.wf,Json.wfFields]

end ApprovalEntry

/-! ## The fold -/

/-- The three maps of `fold`. -/
structure Approvals where
  approvals : Dict String Bool
  bound : Dict String (ℤ × Option FloatLit)
  scopes : Dict String String

namespace ApprovalLedger

def empty : Approvals := ⟨.empty,.empty,.empty⟩

/-- The scope of a decision: an absent, empty or ill-typed one is a legacy scope. -/
def scopeOf : Option Json → String
  | some (.str s) => if s = "" then scopeLegacyWorkspace else s
  | _ => scopeLegacyWorkspace

section Fold
variable (floatOf : ℤ → FloatLit)

def birthtimeOf : Option Json → Option FloatLit
  | some (.float f) => some f
  | some (.int i) => some (floatOf i)
  | some (.bool b) => some (floatOf (if b then 1 else 0))
  | _ => none

def foldRecord (maps : Approvals) (record : List (String × Json)) : Approvals :=
  match record.lookup "key" with
  | some (.str key) =>
    match record.lookup "kind" with
    | some (.str "approval") =>
      match record.lookup "approved" with
      | some (.bool approved) =>
        { approvals := maps.approvals.set key approved
          bound := if approved then maps.bound else maps.bound.pop key
          scopes := maps.scopes.set key (scopeOf (record.lookup "scope")) }
      | _ => maps
    | some (.str "identity_bind") =>
      match (record.lookup "ino").bind Json.asInt with
      | some ino => { maps with bound := maps.bound.set key (ino,birthtimeOf floatOf (record.lookup "birthtime")) }
      | none => maps
    | _ => maps
  | _ => maps

/-- `none` for a `UnicodeDecodeError`; a missing file has no records. -/
def iterRecords : Option Bytes → Option (List (List (String × Json)))
  | none => some []
  | some b => textObjects b

def fold (file : Option Bytes) : Option Approvals := (iterRecords file).map fun records => records.foldl (foldRecord floatOf) empty

end Fold

/-! ## The legacy snapshot -/

/-- The bound identity of a legacy row. -/
def boundEntry (floatOf : ℤ → FloatLit) (key : String) (entry : List (Value × Value)) : Option ApprovalEntry :=
  match Value.get? entry "ino" with
  | some (.int ino) => some (.identityBind key ino (birthtime? (Value.get? entry "birthtime")))
  | some (.bool b) => some (.identityBind key (if b then 1 else 0) (birthtime? (Value.get? entry "birthtime")))
  | _ => none
where
  birthtime? : Option Value → Option FloatLit
    | some (.float f) => some f
    | some (.int i) => some (floatOf i)
    | some (.bool b) => some (floatOf (if b then 1 else 0))
    | _ => none

/-- The records `migrate_legacy_snapshot` makes of the rows of a snapshot. -/
def legacyEntries (floatOf : ℤ → FloatLit) (data : List (String × Value)) : List ApprovalEntry :=
  let rows := data.filterMap fun
    | ("_bound_identities",_) => none
    | (key,.bool value) => some (ApprovalEntry.approval key value none)
    | _ => none
  let bound := match data.lookup "_bound_identities" with
    | some (.dict fields) => fields
    | _ => []
  rows ++ bound.filterMap fun
    | (.str key,.dict entry) => boundEntry floatOf key entry
    | _ => none

/-! ## What the fold finds -/

/-- The decision of an entry on a key, with its scope. -/
def decisionOn (key : String) : ApprovalEntry → Option (Bool × String)
  | .approval k approved scope => if k = key then some (approved,scopeOf (scope.map .str)) else none
  | .identityBind _ _ _ => none

/-- The last decision on a key. -/
def lastDecision (entries : List ApprovalEntry) (key : String) : Option (Bool × String) :=
  (entries.filterMap (decisionOn key)).getLast?

section Spec
variable {floatOf : ℤ → FloatLit} {maps : Approvals} {ts key : String}

theorem foldRecord_approval (approved : Bool) (scope : Option String) :
    foldRecord floatOf maps ((ApprovalEntry.approval key approved scope).record ts) =
      { approvals := maps.approvals.set key approved
        bound := if approved then maps.bound else maps.bound.pop key
        scopes := maps.scopes.set key (scopeOf (scope.map .str)) } := by
  cases scope with
  | none => simp [foldRecord,ApprovalEntry.record,List.lookup]
  | some s => simp [foldRecord,ApprovalEntry.record,List.lookup]

theorem foldRecord_identityBind (ino : ℤ) (birthtime : Option FloatLit) :
    foldRecord floatOf maps ((ApprovalEntry.identityBind key ino birthtime).record ts) =
      { maps with bound := maps.bound.set key (ino,birthtime) } := by
  cases birthtime with
  | none => simp [foldRecord,ApprovalEntry.record,ApprovalEntry.birthtimeJson,birthtimeOf,List.lookup]
  | some f => simp [foldRecord,ApprovalEntry.record,ApprovalEntry.birthtimeJson,birthtimeOf,List.lookup]

theorem lastDecision_concat (entries : List ApprovalEntry) (e : ApprovalEntry) (key : String) :
    lastDecision (entries ++ [e]) key = (decisionOn key e).or (lastDecision entries key) := by
  rw [lastDecision,List.filterMap_append,lastDecision]
  cases h : decisionOn key e with
  | none => simp [h]
  | some d => simp [h]

/-- The fold of records keeps the last decision on each key and its scope. -/
theorem foldl_lastDecision (entries : List (ApprovalEntry × String)) (key : String) :
    let maps := (entries.map fun e => e.1.record e.2).foldl (foldRecord floatOf) empty
    maps.approvals.get? key = (lastDecision (entries.map Prod.fst) key).map Prod.fst ∧
      maps.scopes.get? key = (lastDecision (entries.map Prod.fst) key).map Prod.snd := by
  induction entries using List.reverseRecOn with
  | nil => exact ⟨rfl,rfl⟩
  | append_singleton entries e ih =>
    obtain ⟨e,ts⟩ := e
    simp only [List.map_append,List.map_cons,List.map_nil,List.foldl_append,List.foldl_cons,List.foldl_nil,lastDecision_concat] at ih ⊢
    cases e with
    | approval k approved scope =>
      rw [foldRecord_approval]
      by_cases h : k = key
      · subst h
        simp [decisionOn]
      · have hne : key ≠ k := fun he => h he.symm
        simp [decisionOn,h,Dict.get?_set_ne _ hne,ih.1,ih.2]
    | identityBind k ino birthtime =>
      rw [foldRecord_identityBind]
      exact ih

end Spec
end ApprovalLedger
end Reyn
