import Mathlib

/-! # Capability profiles

A profile is a declarative narrowing of tools, MCP servers and visible categories.
Resolving it gives one restrict-only term, and composing terms takes the union of
the denials and of the hidden categories and the intersection of the allow-lists.
The terms' provenance, which only the deny message reads, is not kept.
-/
namespace Reyn

structure CapabilityProfile where
  categories : Option (List String)
  toolAllow : Option (List String)
  toolDeny : List String
  mcpAllow : Option (List String)
  mcpDeny : List String
  deriving DecidableEq

/-- A contextual term: an allow-list is unconstrained when it is `none`. -/
structure ContextualPermission where
  toolAllow : Option (Finset String)
  toolDeny : Finset String
  mcpAllow : Option (Finset String)
  mcpDeny : Finset String
  deriving DecidableEq

/-- A resolved profile: the enforced term and the hidden categories. -/
abbrev Resolved := ContextualPermission × Finset String

/-- The effective narrowing of an agent; without a term nothing is narrowed. -/
abbrev Narrowing := Option ContextualPermission × Finset String

/-- The catalog categories. -/
def catalogCategories : Finset String :=
  {"multi_agent","mcp","file","web","memory_operation","reyn_repo","exec","skill_management","pipeline",
    "pipeline_management","task","presentation_management","plugin_management","knowledge","embedding"}

/-- The tools the built-in floors deny, class after class. -/
def builtinUntrustedDeny : List String :=
  ["remember_shared","remember_agent","forget_memory","run_prompt","send_to_session","exec",
    "mcp_install_registry","mcp_install_package","mcp_install_local","skill_install_local",
    "skill_install_source","pipeline_install_local","pipeline_install_source","spawn_session","spawn_agent",
    "create_topology","run_pipeline"]

def builtinDelegateProfile : CapabilityProfile := ⟨none,none,builtinUntrustedDeny,none,[]⟩

def resolveProfile (p : CapabilityProfile) : Resolved :=
  (⟨p.toolAllow.map List.toFinset,p.toolDeny.toFinset,p.mcpAllow.map List.toFinset,p.mcpDeny.toFinset⟩,
    match p.categories with
    | none => ∅
    | some shown => catalogCategories \ shown.toFinset)

/-- The intersection of the set allow-lists; none of them set leaves the axis open. -/
def composeAllow : List (Option (Finset String)) → Option (Finset String)
  | [] => none
  | none :: rest => composeAllow rest
  | some allow :: rest => some (match composeAllow rest with
    | none => allow
    | some others => allow ∩ others)

def composeDeny (denies : List (Finset String)) : Finset String := denies.foldr (· ∪ ·) ∅

/-- Most restrictive wins, on every axis. -/
def composeResolved (resolved : List Resolved) : Resolved :=
  (⟨composeAllow (resolved.map (·.1.toolAllow)),composeDeny (resolved.map (·.1.toolDeny)),
    composeAllow (resolved.map (·.1.mcpAllow)),composeDeny (resolved.map (·.1.mcpDeny))⟩,
    composeDeny (resolved.map (·.2)))

/-- `ContextualLayer.allows` on one axis. -/
def allowsValue (allow : Option (Finset String)) (deny : Finset String) (value : String) : Prop :=
  (∀ names, allow = some names → value ∈ names) ∧ value ∉ deny

def ContextualPermission.allowsTool (c : ContextualPermission) (tool : String) : Prop :=
  allowsValue c.toolAllow c.toolDeny tool

def ContextualPermission.allowsMcp (c : ContextualPermission) (server : String) : Prop :=
  allowsValue c.mcpAllow c.mcpDeny server

/-- A narrowing permits a tool when its term, if any, allows it. -/
def Narrowing.permitsTool (n : Narrowing) (tool : String) : Prop := ∀ c, n.1 = some c → c.allowsTool tool

def Narrowing.permitsMcp (n : Narrowing) (server : String) : Prop := ∀ c, n.1 = some c → c.allowsMcp server

/-- What a narrowing can take away: a tool, a server, or the sight of a category. -/
inductive Access where
  | tool (name : String)
  | mcp (server : String)
  | category (name : String)

def Resolved.admits (r : Resolved) : Access → Prop
  | .tool name => r.1.allowsTool name
  | .mcp server => r.1.allowsMcp server
  | .category name => name ∉ r.2

def Narrowing.admits (n : Narrowing) : Access → Prop
  | .tool name => n.permitsTool name
  | .mcp server => n.permitsMcp server
  | .category name => name ∉ n.2

theorem notMem_composeDeny (denies : List (Finset String)) (value : String) :
    value ∉ composeDeny denies ↔ ∀ deny ∈ denies, value ∉ deny := by
  induction denies with
  | nil => simp [composeDeny]
  | cons deny rest ih =>
    simp only [composeDeny,List.foldr_cons,Finset.mem_union,not_or,List.forall_mem_cons] at ih ⊢
    rw [ih]

theorem mem_composeAllow (allows : List (Option (Finset String))) (value : String) :
    (∀ names, composeAllow allows = some names → value ∈ names) ↔
      ∀ allow ∈ allows, ∀ names, allow = some names → value ∈ names := by
  induction allows with
  | nil => simp [composeAllow]
  | cons allow rest ih =>
    cases allow with
    | none => simpa [composeAllow] using ih
    | some names =>
      cases hc : composeAllow rest with
      | none => rw [hc] at ih; simpa [composeAllow,hc] using fun _ => ih
      | some others => rw [hc] at ih; simpa [composeAllow,hc] using fun _ => ih

theorem allowsValue_compose (allows : List (Option (Finset String))) (denies : List (Finset String))
    (value : String) :
    allowsValue (composeAllow allows) (composeDeny denies) value ↔
      (∀ allow ∈ allows, ∀ names, allow = some names → value ∈ names) ∧ ∀ deny ∈ denies, value ∉ deny :=
  and_congr (mem_composeAllow allows value) (notMem_composeDeny denies value)

/-- A composition admits what every term admits. -/
theorem admits_composeResolved (resolved : List Resolved) (a : Access) :
    (composeResolved resolved).admits a ↔ ∀ r ∈ resolved, r.admits a := by
  cases a with
  | tool name =>
    refine (allowsValue_compose _ _ name).trans ?_
    simp only [List.forall_mem_map,← forall_and]
    rfl
  | mcp server =>
    refine (allowsValue_compose _ _ server).trans ?_
    simp only [List.forall_mem_map,← forall_and]
    rfl
  | category name =>
    refine (notMem_composeDeny _ name).trans ?_
    simp only [List.forall_mem_map]
    rfl

theorem Narrowing.admits_some (c : ContextualPermission) (excluded : Finset String) (a : Access) :
    Narrowing.admits (some c,excluded) a ↔ Resolved.admits (c,excluded) a := by
  cases a <;> simp [Narrowing.admits,Resolved.admits,Narrowing.permitsTool,Narrowing.permitsMcp]

theorem Narrowing.admits_open (a : Access) : Narrowing.admits (none,∅) a := by
  cases a <;> simp [Narrowing.admits,Narrowing.permitsTool,Narrowing.permitsMcp]

end Reyn
