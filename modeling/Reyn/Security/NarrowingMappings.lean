import Reyn.Lib.Dict
import Reyn.Lib.Fallible
import Reyn.Security.CapabilityProfile

/-! # Raw narrowing mappings

A narrowing travels between sessions as the mapping of its file. Loading reads it into a
profile; composing two mappings must come to the same as composing what they load to.
-/
namespace Reyn
open Py

/-- The value of an axis key. -/
inductive AxisValue where
  | null
  | text (s : String)
  | texts (l : List String)
  deriving DecidableEq

abbrev NarrowingMapping := Dict String AxisValue

inductive NarrowingFailure where
  | valueError (message : String)
  | typeError
  deriving DecidableEq

namespace NarrowingMapping

/-- `_as_tuple` of a value that is there -/
def asTuple : AxisValue → Option (List String)
  | .null => none
  | .text s => some [s]
  | .texts l => some l

/-- `_as_tuple(data.get(key))` -/
def field (data : NarrowingMapping) (key : String) : Option (List String) := (data.get? key).bind asTuple

def renamedToolNames : Dict String String := .ofList
  [("agent_spawn","'agent_spawn' was renamed to 'spawn_agent' (#4004)."),
    ("session_spawn","'session_spawn' was renamed to 'spawn_session' (#4004)."),
    ("topology_create","'topology_create' was renamed to 'create_topology' (#4004).")]

def checkNoRenamedToolNames (names : List String) (axis : String) : Except NarrowingFailure Unit :=
  match names.findSome? renamedToolNames.get? with
  | some guidance => .error (.valueError ("capability_profile " ++ axis ++ " is invalid: " ++ guidance))
  | none => .ok ()

def loadCapabilityProfile (data : NarrowingMapping) : Except NarrowingFailure CapabilityProfile := do
  let toolAllow := field data "tool_allow"
  let toolDeny := (field data "tool_deny").getD []
  checkNoRenamedToolNames (toolAllow.getD []) "tool_allow"
  checkNoRenamedToolNames toolDeny "tool_deny"
  return ⟨field data "categories",toolAllow,toolDeny,field data "mcp_allow",(field data "mcp_deny").getD []⟩

/-- A missing file or an empty one is no narrowing. -/
def loadNarrowing (data : Option NarrowingMapping) : Except NarrowingFailure CapabilityProfile :=
  loadCapabilityProfile (data.getD .empty)

def narrowingAllowKeys : List String := ["tool_allow","mcp_allow","categories"]
def narrowingDenyKeys : List String := ["tool_deny","mcp_deny"]

/-- What a key of the child becomes beside the parent's value. -/
def composeKey (parent : NarrowingMapping) (key : String) (value : AxisValue) : Except NarrowingFailure AxisValue :=
  if key ∈ narrowingDenyKeys then
    let base := (field parent key).getD []
    .ok (.texts (base ++ ((asTuple value).getD []).filter (· ∉ base)))
  else if key ∈ narrowingAllowKeys then
    match field parent key, asTuple value with
    | none, some theirs => .ok (.texts theirs)
    | some mine, none => .ok (.texts mine)
    -- `list(None)`
    | none, none => .error .typeError
    | some mine, some theirs => .ok (.texts (theirs.filter (· ∈ mine)))
  else .ok value

/-- The keys of the child, one after the other. -/
def composeItems (parent : NarrowingMapping) (items : List (String × AxisValue)) (out : NarrowingMapping) :
    Except NarrowingFailure NarrowingMapping :=
  items.foldlM (fun out p => (composeKey parent p.1 p.2).map fun v => out.set p.1 v) out

def nonempty (mapping : Option NarrowingMapping) : Option NarrowingMapping := mapping.filter (·.items ≠ [])

/-- Compose two mappings; nothing to inherit or nothing to impose leaves the other as it is. -/
def composeNarrowingMappings (parent child : Option NarrowingMapping) :
    Except NarrowingFailure (Option NarrowingMapping) :=
  match nonempty parent with
  | none => .ok (nonempty child)
  | some parent =>
    match nonempty child with
    | none => .ok (some parent)
    | some child => (composeItems parent child.items parent).map some

/-! ## What the loop leaves -/

variable {parent : NarrowingMapping}

theorem composeItems_ok {items : List (String × AxisValue)} {out result : NarrowingMapping}
    (hnodup : (items.map Prod.fst).Nodup) (h : composeItems parent items out = .ok result) (key : String) :
    (∀ value, (key,value) ∈ items → ∃ v, composeKey parent key value = .ok v ∧ result.get? key = some v) ∧
      (key ∉ items.map Prod.fst → result.get? key = out.get? key) := by
  induction items generalizing out with
  | nil =>
    cases h
    exact ⟨nofun,fun _ => rfl⟩
  | cons p rest ih =>
    rw [composeItems,List.foldlM_cons] at h
    obtain ⟨out',hout',h⟩ := Fallible.bind_ok h
    cases hkey : composeKey parent p.1 p.2 with
    | error failure =>
      rw [hkey] at hout'
      cases hout'
    | ok v =>
      rw [hkey] at hout'
      cases hout'
      obtain ⟨hnot,hrest⟩ := List.nodup_cons.mp hnodup
      obtain ⟨hin,hout⟩ := ih hrest h
      refine ⟨fun value hmem => ?_,fun hnotin => ?_⟩
      · rcases List.mem_cons.mp hmem with rfl | hmem
        · exact ⟨v,hkey,(hout hnot).trans (Dict.get?_set_self ..)⟩
        · exact hin value hmem
      · rw [List.map_cons,List.mem_cons,not_or] at hnotin
        exact (hout hnotin.2).trans (Dict.get?_set_ne _ hnotin.1 _)

theorem composeItems_error {items : List (String × AxisValue)} {out : NarrowingMapping} {failure : NarrowingFailure}
    (h : composeItems parent items out = .error failure) :
    ∃ p ∈ items, composeKey parent p.1 p.2 = .error failure := by
  obtain ⟨p,hp,out',hfail⟩ := Fallible.foldlM_error h
  refine ⟨p,hp,?_⟩
  cases hkey : composeKey parent p.1 p.2 with
  | error f =>
    rw [hkey] at hfail
    cases hfail
    rfl
  | ok v =>
    rw [hkey] at hfail
    cases hfail

theorem composeKey_error {key : String} {value : AxisValue} {failure : NarrowingFailure}
    (h : composeKey parent key value = .error failure) :
    key ∈ narrowingAllowKeys ∧ field parent key = none ∧ value = .null := by
  rw [composeKey] at h
  split at h
  · cases h
  · split at h
    · rename_i hkey
      split at h
      · cases h
      · cases h
      · rename_i hmine htheirs
        refine ⟨hkey,hmine,?_⟩
        cases value with
        | null => rfl
        | text s => cases htheirs
        | texts l => cases htheirs
      · cases h
    · cases h

theorem composeKey_null {key : String} (hkey : key ∈ narrowingAllowKeys) (hmine : field parent key = none) :
    composeKey parent key .null = .error .typeError := by
  have hdeny : ∀ key ∈ narrowingAllowKeys, key ∉ narrowingDenyKeys := by decide
  rw [composeKey,if_neg (hdeny key hkey),if_pos hkey,hmine]
  rfl

/-- What an allow key becomes: the intersection, where both sides constrain it. -/
def meetAllow : Option (List String) → Option (List String) → Option (List String)
  | none, theirs => theirs
  | mine, none => mine
  | some mine, some theirs => some (theirs.filter (· ∈ mine))

theorem meetAllow_none (mine : Option (List String)) : meetAllow mine none = mine := by
  cases mine <;> rfl

theorem composeKey_allow {key : String} {value v : AxisValue} (hkey : key ∈ narrowingAllowKeys)
    (h : composeKey parent key value = .ok v) : asTuple v = meetAllow (field parent key) (asTuple value) := by
  have hdeny : ∀ key ∈ narrowingAllowKeys, key ∉ narrowingDenyKeys := by decide
  rw [composeKey,if_neg (hdeny key hkey),if_pos hkey] at h
  split at h
  · rename_i hmine htheirs
    cases h
    rw [hmine,htheirs]
    rfl
  · rename_i hmine htheirs
    cases h
    rw [hmine,htheirs]
    rfl
  · cases h
  · rename_i hmine htheirs
    cases h
    rw [hmine,htheirs]
    rfl

theorem composeKey_deny {key : String} {value v : AxisValue} (hkey : key ∈ narrowingDenyKeys)
    (h : composeKey parent key value = .ok v) (name : String) :
    name ∈ (asTuple v).getD [] ↔ name ∈ (field parent key).getD [] ∨ name ∈ (asTuple value).getD [] := by
  rw [composeKey,if_pos hkey] at h
  cases h
  simp only [asTuple,Option.getD_some,List.mem_append,List.mem_filter,decide_not,Bool.not_eq_true',decide_eq_false_iff_not]
  tauto

/-! ## What a composed mapping loads to -/

theorem nonempty_none {mapping : Option NarrowingMapping} (h : nonempty mapping = none) (key : String) :
    (mapping.getD .empty).get? key = none := by
  cases mapping with
  | none => rfl
  | some m =>
    have hitems : m.items = [] := by simpa [nonempty] using h
    rw [Option.getD_some,Dict.get?,hitems]
    rfl

theorem nonempty_some {mapping : Option NarrowingMapping} {m : NarrowingMapping} (h : nonempty mapping = some m) :
    mapping = some m := (Option.filter_eq_some_iff.mp h).1

theorem nonempty_getD (mapping : Option NarrowingMapping) (key : String) :
    ((nonempty mapping).getD .empty).get? key = (mapping.getD .empty).get? key := by
  cases h : nonempty mapping with
  | none => exact (nonempty_none h key).symm
  | some m => rw [nonempty_some h]

/-- What each key of the result comes from. -/
theorem compose_get? {parent child result : Option NarrowingMapping} (h : composeNarrowingMappings parent child = .ok result)
    (key : String) :
    (∃ value v, (child.getD .empty).get? key = some value ∧ composeKey (parent.getD .empty) key value = .ok v ∧
      (result.getD .empty).get? key = some v) ∨
    (child.getD .empty).get? key = none ∧ (result.getD .empty).get? key = (parent.getD .empty).get? key ∨
    (∀ key, (parent.getD .empty).get? key = none) ∧ (result.getD .empty).get? key = (child.getD .empty).get? key := by
  rw [composeNarrowingMappings] at h
  split at h
  · rename_i hparent
    cases h
    exact .inr (.inr ⟨nonempty_none hparent,nonempty_getD child key⟩)
  · rename_i p hparent
    cases nonempty_some hparent
    split at h
    · rename_i hchild
      cases h
      exact .inr (.inl ⟨nonempty_none hchild key,rfl⟩)
    · rename_i c hchild
      cases nonempty_some hchild
      cases hitems : composeItems p c.items p with
      | error failure =>
        rw [hitems] at h
        cases h
      | ok m =>
        rw [hitems] at h
        cases h
        obtain ⟨hin,hout⟩ := composeItems_ok c.nodup hitems key
        cases hget : c.get? key with
        | none => exact .inr (.inl ⟨hget,hout (Dict.get?_eq_none_iff.mp hget)⟩)
        | some value =>
          obtain ⟨v,hv,hresult⟩ := hin value (Dict.mem_of_get? hget)
          exact .inl ⟨value,v,hget,hv,hresult⟩

theorem compose_allow {parent child result : Option NarrowingMapping} {key : String}
    (h : composeNarrowingMappings parent child = .ok result) (hkey : key ∈ narrowingAllowKeys) :
    field (result.getD .empty) key = meetAllow (field (parent.getD .empty) key) (field (child.getD .empty) key) := by
  rcases compose_get? h key with ⟨value,v,hchild,hv,hresult⟩ | ⟨hchild,hresult⟩ | ⟨hparent,hresult⟩
  · rw [field,hresult,Option.bind_some,composeKey_allow hkey hv,field,field,hchild]
    rfl
  · rw [field,hresult,field,field,hchild,Option.bind_none,meetAllow_none]
  · rw [field,hresult,field,field,hparent,Option.bind_none]
    rfl

theorem compose_deny {parent child result : Option NarrowingMapping} {key : String}
    (h : composeNarrowingMappings parent child = .ok result) (hkey : key ∈ narrowingDenyKeys) (name : String) :
    name ∈ (field (result.getD .empty) key).getD [] ↔
      name ∈ (field (parent.getD .empty) key).getD [] ∨ name ∈ (field (child.getD .empty) key).getD [] := by
  rcases compose_get? h key with ⟨value,v,hchild,hv,hresult⟩ | ⟨hchild,hresult⟩ | ⟨hparent,hresult⟩
  · rw [field,hresult,Option.bind_some,composeKey_deny hkey hv,field,field,hchild]
    rfl
  · rw [field,hresult,field,field,hchild]
    simp
  · rw [field,hresult,field,field,hparent]
    simp

theorem checkNoRenamedToolNames_ok {names : List String} {axis : String} :
    checkNoRenamedToolNames names axis = .ok () ↔ ∀ name ∈ names, renamedToolNames.get? name = none := by
  rw [checkNoRenamedToolNames,← List.findSome?_eq_none_iff]
  split
  · rename_i guidance hsome
    rw [hsome]
    apply iff_of_false
    · intro h
      cases h
    · exact Option.some_ne_none guidance
  · exact ⟨fun _ => ‹_›,fun _ => rfl⟩

/-- The profile a mapping stands for. -/
def profileOf (data : NarrowingMapping) : CapabilityProfile :=
  ⟨field data "categories",field data "tool_allow",(field data "tool_deny").getD [],field data "mcp_allow",
    (field data "mcp_deny").getD []⟩

theorem loadCapabilityProfile_ok {data : NarrowingMapping} {p : CapabilityProfile} :
    loadCapabilityProfile data = .ok p ↔ p = profileOf data ∧
      (∀ name ∈ (field data "tool_allow").getD [], renamedToolNames.get? name = none) ∧
      ∀ name ∈ (field data "tool_deny").getD [], renamedToolNames.get? name = none := by
  constructor
  · intro h
    obtain ⟨⟨⟩,hallow,h⟩ := Fallible.bind_ok h
    obtain ⟨⟨⟩,hdeny,h⟩ := Fallible.bind_ok h
    cases h
    exact ⟨rfl,checkNoRenamedToolNames_ok.mp hallow,checkNoRenamedToolNames_ok.mp hdeny⟩
  · rintro ⟨rfl,hallow,hdeny⟩
    change (checkNoRenamedToolNames _ _).bind _ = _
    rw [checkNoRenamedToolNames_ok.mpr hallow]
    change (checkNoRenamedToolNames _ _).bind _ = _
    rw [checkNoRenamedToolNames_ok.mpr hdeny]
    rfl

theorem mem_meetAllow {mine theirs : Option (List String)} {name : String} :
    (∀ l, meetAllow mine theirs = some l → name ∈ l) ↔
      (∀ l, mine = some l → name ∈ l) ∧ ∀ l, theirs = some l → name ∈ l := by
  cases mine with
  | none => simp [meetAllow]
  | some mine =>
    cases theirs with
    | none => simp [meetAllow]
    | some theirs => simp [meetAllow,and_comm]

theorem meetAllow_subset {mine theirs : Option (List String)} {name : String}
    (h : name ∈ (meetAllow mine theirs).getD []) : name ∈ mine.getD [] ∨ name ∈ theirs.getD [] := by
  cases mine with
  | none => exact .inr h
  | some mine =>
    cases theirs with
    | none => exact .inl h
    | some theirs => exact .inr (List.mem_of_mem_filter h)

/-- What an open or a set axis of a profile lets through. -/
theorem allowsValue_toFinset (allow : Option (List String)) (deny : List String) (value : String) :
    allowsValue (allow.map List.toFinset) deny.toFinset value ↔ (∀ l, allow = some l → value ∈ l) ∧ value ∉ deny := by
  rw [allowsValue]
  cases allow with
  | none => simp
  | some l => simp

theorem shown_iff (categories : Option (List String)) (name : String) :
    name ∉ (match categories with
      | none => ∅
      | some shown => catalogCategories \ shown.toFinset : Finset String) ↔
      name ∈ catalogCategories → ∀ l, categories = some l → name ∈ l := by
  cases categories with
  | none => simp
  | some l => simp

/-- A profile whose axes are the meets of two others admits what both admit. -/
theorem admits_meet {p c q : CapabilityProfile} (htool : q.toolAllow = meetAllow p.toolAllow c.toolAllow)
    (htoolDeny : ∀ name, name ∈ q.toolDeny ↔ name ∈ p.toolDeny ∨ name ∈ c.toolDeny)
    (hmcp : q.mcpAllow = meetAllow p.mcpAllow c.mcpAllow)
    (hmcpDeny : ∀ name, name ∈ q.mcpDeny ↔ name ∈ p.mcpDeny ∨ name ∈ c.mcpDeny)
    (hcategories : q.categories = meetAllow p.categories c.categories) (a : Access) :
    (resolveProfile q).admits a ↔ (resolveProfile p).admits a ∧ (resolveProfile c).admits a := by
  cases a with
  | tool name =>
    refine (allowsValue_toFinset _ _ name).trans ?_
    rw [htool,mem_meetAllow,htoolDeny]
    have hp := allowsValue_toFinset p.toolAllow p.toolDeny name
    have hc := allowsValue_toFinset c.toolAllow c.toolDeny name
    refine Iff.trans ?_ (and_congr hp.symm hc.symm)
    tauto
  | mcp server =>
    refine (allowsValue_toFinset _ _ server).trans ?_
    rw [hmcp,mem_meetAllow,hmcpDeny]
    have hp := allowsValue_toFinset p.mcpAllow p.mcpDeny server
    have hc := allowsValue_toFinset c.mcpAllow c.mcpDeny server
    refine Iff.trans ?_ (and_congr hp.symm hc.symm)
    tauto
  | category name =>
    refine (shown_iff q.categories name).trans ?_
    rw [hcategories,mem_meetAllow]
    refine Iff.trans ?_ (and_congr (shown_iff p.categories name).symm (shown_iff c.categories name).symm)
    tauto

/-- A key that the child sets to null and the parent leaves open. -/
def NullOnOpenAxis (parent child : Option NarrowingMapping) : Prop :=
  nonempty parent ≠ none ∧ ∃ key ∈ narrowingAllowKeys, (child.getD .empty).get? key = some .null ∧
    field (parent.getD .empty) key = none

theorem compose_error_iff {parent child : Option NarrowingMapping} :
    (∃ failure, composeNarrowingMappings parent child = .error failure) ↔ NullOnOpenAxis parent child := by
  constructor
  · rintro ⟨failure,h⟩
    rw [composeNarrowingMappings] at h
    split at h
    · cases h
    · rename_i p hparent
      split at h
      · cases h
      · rename_i c hchild
        cases nonempty_some hchild
        refine ⟨by rw [hparent]; exact Option.some_ne_none _,?_⟩
        cases nonempty_some hparent
        cases hitems : composeItems p c.items p with
        | ok m =>
          rw [hitems] at h
          cases h
        | error failure' =>
          obtain ⟨⟨key,value⟩,hmem,hkey⟩ := composeItems_error hitems
          obtain ⟨hallow,hopen,rfl⟩ := composeKey_error hkey
          exact ⟨key,hallow,Dict.get?_of_mem hmem,hopen⟩
  · rintro ⟨hparent,key,hkey,hnull,hopen⟩
    cases h : composeNarrowingMappings parent child with
    | error failure => exact ⟨failure,rfl⟩
    | ok result =>
      rcases compose_get? h key with ⟨value,v,hchild,hv,-⟩ | ⟨hchild,-⟩ | ⟨hnone,-⟩
      · cases hchild.symm.trans hnull
        rw [composeKey_null hkey hopen] at hv
        cases hv
      · cases hchild.symm.trans hnull
      · obtain ⟨p,hp⟩ := Option.ne_none_iff_exists'.mp hparent
        have hitems : p.items ≠ [] := by simpa [nonempty] using (Option.filter_eq_some_iff.mp hp).2
        obtain ⟨⟨key',value⟩,hmem⟩ := List.exists_mem_of_ne_nil _ hitems
        have hget := hnone key'
        rw [nonempty_some hp,Option.getD_some,Dict.get?_of_mem hmem] at hget
        cases hget

/-- Composing two mappings that load comes to composing what they load to, exactly when the child does not set an
allow-shaped key to null that a parent with any key at all leaves open. -/
theorem compose_loads_to_meet_iff {parent child : Option NarrowingMapping} {p c : CapabilityProfile}
    (hp : loadNarrowing parent = .ok p) (hc : loadNarrowing child = .ok c) :
    (∃ result q, composeNarrowingMappings parent child = .ok result ∧ loadNarrowing result = .ok q ∧
      ∀ a, (resolveProfile q).admits a ↔ (composeResolved [resolveProfile p,resolveProfile c]).admits a) ↔
    ¬ NullOnOpenAxis parent child := by
  constructor
  · rintro ⟨result,q,h,-,-⟩ hnull
    obtain ⟨failure,hfail⟩ := compose_error_iff.mpr hnull
    rw [h] at hfail
    cases hfail
  · intro hnull
    cases h : composeNarrowingMappings parent child with
    | error failure => exact absurd (compose_error_iff.mp ⟨failure,h⟩) hnull
    | ok result =>
      obtain ⟨rfl,hpallow,hpdeny⟩ := loadCapabilityProfile_ok.mp hp
      obtain ⟨rfl,hcallow,hcdeny⟩ := loadCapabilityProfile_ok.mp hc
      refine ⟨result,profileOf (result.getD .empty),rfl,loadCapabilityProfile_ok.mpr ⟨rfl,?_,?_⟩,fun a => ?_⟩
      · intro name hname
        rw [compose_allow h (by decide)] at hname
        rcases meetAllow_subset hname with hname | hname
        · exact hpallow name hname
        · exact hcallow name hname
      · intro name hname
        rcases (compose_deny h (by decide) name).mp hname with hname | hname
        · exact hpdeny name hname
        · exact hcdeny name hname
      · rw [admits_composeResolved,List.forall_mem_cons,List.forall_mem_singleton]
        exact admits_meet (compose_allow h (by decide)) (compose_deny h (by decide)) (compose_allow h (by decide))
          (compose_deny h (by decide)) (compose_allow h (by decide)) a

/-- A parent and a child that both list tools. -/
theorem compose_loads_to_meet_iff_lists :
    (∃ result q, composeNarrowingMappings (some (.ofList [("tool_allow",.texts ["a","b"])]))
        (some (.ofList [("tool_allow",.text "b")])) = .ok result ∧ loadNarrowing result = .ok q ∧
      ∀ a, (resolveProfile q).admits a ↔
        (composeResolved [resolveProfile ⟨none,some ["a","b"],[],none,[]⟩,resolveProfile ⟨none,some ["b"],[],none,[]⟩]).admits a) ↔
    ¬ NullOnOpenAxis (some (.ofList [("tool_allow",.texts ["a","b"])])) (some (.ofList [("tool_allow",.text "b")])) :=
  compose_loads_to_meet_iff (by rfl) (by rfl)

/-- The child sets a key to null that the parent does not have. -/
theorem null_on_open_axis_raises : ¬ ∀ (parent child : NarrowingMapping) (p c : CapabilityProfile),
    loadCapabilityProfile parent = .ok p → loadCapabilityProfile child = .ok c →
    ∃ result q, composeNarrowingMappings (some parent) (some child) = .ok result ∧ loadNarrowing result = .ok q ∧
      ∀ a, (resolveProfile q).admits a ↔ (composeResolved [resolveProfile p,resolveProfile c]).admits a := by
  intro h
  obtain ⟨result,q,hresult,-⟩ := h (.ofList [("tool_deny",.texts ["exec"])]) (.ofList [("tool_allow",.null)])
    ⟨none,none,["exec"],none,[]⟩ ⟨none,none,[],none,[]⟩ (by rfl) (by rfl)
  cases hresult

end NarrowingMapping
end Reyn
