import Reyn.Security.CapabilityProfile

/-! # Composed narrowings and their terms

The composed value is what the gate evaluates. For the deny message it also keeps the
terms it was composed from; an input that is itself composed contributes its own terms.
-/
namespace Reyn

/-- Where a narrowing comes from, why it is there and when it lifts. -/
structure NarrowingOrigin where
  label : String
  cause : String
  liftsWhen : String
  deriving DecidableEq

/-- A contextual term with its provenance. -/
inductive AttributedPermission where
  | mk (term : ContextualPermission) (origin : Option NarrowingOrigin) (composedFrom : List AttributedPermission)

namespace AttributedPermission

def term : AttributedPermission → ContextualPermission
  | mk term _ _ => term

def origin : AttributedPermission → Option NarrowingOrigin
  | mk _ origin _ => origin

def composedFrom : AttributedPermission → List AttributedPermission
  | mk _ _ composedFrom => composedFrom

/-- `composed_from or (contextual,)` -/
def narrowingTerms (c : AttributedPermission) : List AttributedPermission :=
  if c.composedFrom.isEmpty then [c] else c.composedFrom

end AttributedPermission

/-- The axes; a contextual term constrains the first two. -/
inductive CapabilityAxis where
  | tool | mcp
  | fileRead | fileWrite | networkHost | subprocess | secretWrite | env | envExpand
  deriving DecidableEq

/-- `ContextualLayer.allows` -/
def ContextualPermission.allows (c : ContextualPermission) (axis : CapabilityAxis) (value : String) : Bool :=
  match axis with
  | .tool => c.toolAllow.all (decide <| value ∈ ·) && decide (value ∉ c.toolDeny)
  | .mcp => c.mcpAllow.all (decide <| value ∈ ·) && decide (value ∉ c.mcpDeny)
  | _ => true

/-- The first term that rejects the value. -/
def rejectingTerm (contextual : AttributedPermission) (axis : CapabilityAxis) (value : String) :
    Option AttributedPermission :=
  contextual.narrowingTerms.find? fun t => !t.term.allows axis value

def attributeDeny (contextual : Option AttributedPermission) (axis : CapabilityAxis) (value : String) :
    Option NarrowingOrigin :=
  contextual.bind fun c => (rejectingTerm c axis value).bind (·.origin)

/-- A resolved profile with its provenance. -/
abbrev AttributedResolved := AttributedPermission × Finset String

def AttributedResolved.flat (r : AttributedResolved) : Resolved := (r.1.term,r.2)

def resolveProfileFor (p : CapabilityProfile) (origin : Option NarrowingOrigin) : AttributedResolved :=
  (.mk (resolveProfile p).1 origin [],(resolveProfile p).2)

/-- `compose_resolved`, with the list of terms. -/
def composeAttributed (resolved : List AttributedResolved) : AttributedResolved :=
  (.mk (composeResolved (resolved.map (·.flat))).1 none (resolved.flatMap (·.1.narrowingTerms)),
    (composeResolved (resolved.map (·.flat))).2)

/-! ## Values that are resolved or composed -/

/-- The values that profiles and compositions of such values give. -/
inductive IsResolved : AttributedResolved → Prop
  | profile (p : CapabilityProfile) (origin : Option NarrowingOrigin) : IsResolved (resolveProfileFor p origin)
  | compose (resolved : List AttributedResolved) (h : ∀ r ∈ resolved, IsResolved r) : IsResolved (composeAttributed resolved)

abbrev ResolvedProfile := {r : AttributedResolved // IsResolved r}

namespace ResolvedProfile

def compose (inputs : List ResolvedProfile) : ResolvedProfile :=
  ⟨composeAttributed (inputs.map Subtype.val),.compose _ fun r hr => by
    obtain ⟨x,-,rfl⟩ := List.mem_map.mp hr
    exact x.2⟩

def admits (r : ResolvedProfile) (a : Access) : Prop := r.1.flat.admits a

/-- The compositions of a list of values, one inside the other in any way. -/
inductive Composition : List ResolvedProfile → ResolvedProfile → Prop
  | input (r : ResolvedProfile) : Composition [r] r
  | group (parts : List (List ResolvedProfile × ResolvedProfile)) (h : ∀ p ∈ parts, Composition p.1 p.2) :
      Composition (parts.flatMap Prod.fst) (compose (parts.map Prod.snd))

end ResolvedProfile

theorem ContextualPermission.allows_tool (c : ContextualPermission) (value : String) :
    c.allows .tool value = true ↔ c.allowsTool value := by
  rw [allows,allowsTool,allowsValue]
  cases c.toolAllow with
  | none => simp
  | some names => simp

theorem ContextualPermission.allows_mcp (c : ContextualPermission) (value : String) :
    c.allows .mcp value = true ↔ c.allowsMcp value := by
  rw [allows,allowsMcp,allowsValue]
  cases c.mcpAllow with
  | none => simp
  | some names => simp

/-- On every axis a composed term allows what all its inputs allow. -/
theorem allows_composeResolved (resolved : List Resolved) (axis : CapabilityAxis) (value : String) :
    (composeResolved resolved).1.allows axis value = true ↔ ∀ r ∈ resolved, r.1.allows axis value = true := by
  cases axis with
  | tool =>
    rw [ContextualPermission.allows_tool]
    refine (admits_composeResolved resolved (.tool value)).trans ?_
    exact forall₂_congr fun r _ => (ContextualPermission.allows_tool r.1 value).symm
  | mcp =>
    rw [ContextualPermission.allows_mcp]
    refine (admits_composeResolved resolved (.mcp value)).trans ?_
    exact forall₂_congr fun r _ => (ContextualPermission.allows_mcp r.1 value).symm
  | _ => exact ⟨fun _ _ _ => rfl,fun _ => rfl⟩

/-- A value allows what its terms allow. -/
def Attributed (c : AttributedPermission) : Prop :=
  ∀ axis value, c.term.allows axis value = true ↔ ∀ t ∈ c.narrowingTerms, t.term.allows axis value = true

theorem narrowingTerms_ne_nil (c : AttributedPermission) : c.narrowingTerms ≠ [] := by
  rw [AttributedPermission.narrowingTerms]
  split
  · exact List.cons_ne_nil _ _
  · exact fun h => ‹¬ _› (by rw [h]; rfl)

theorem Attributed.leaf (term : ContextualPermission) (origin : Option NarrowingOrigin) :
    Attributed (.mk term origin []) := by
  intro axis value
  constructor
  · intro h t ht
    rw [List.mem_singleton.mp ht]
    exact h
  · exact fun h => h _ (List.mem_singleton_self _)

theorem Attributed.compose {resolved : List AttributedResolved} (h : ∀ r ∈ resolved, Attributed r.1) :
    Attributed (composeAttributed resolved).1 := by
  cases resolved with
  | nil => exact .leaf _ none
  | cons r rest =>
    intro axis value
    have hterms : (composeAttributed (r :: rest)).1.narrowingTerms = (r :: rest).flatMap (·.1.narrowingTerms) := by
      rw [AttributedPermission.narrowingTerms,if_neg]
      · rfl
      · intro hempty
        have hnil := List.flatMap_eq_nil_iff.mp (List.isEmpty_iff.mp hempty) r List.mem_cons_self
        exact narrowingTerms_ne_nil r.1 hnil
    rw [hterms]
    refine (allows_composeResolved _ axis value).trans ?_
    constructor
    · intro hall t ht
      obtain ⟨x,hx,ht⟩ := List.mem_flatMap.mp ht
      exact (h x hx axis value).mp (hall _ (List.mem_map_of_mem hx)) t ht
    · intro hall y hy
      obtain ⟨x,hx,rfl⟩ := List.mem_map.mp hy
      exact (h x hx axis value).mpr fun t ht => hall t (List.mem_flatMap.mpr ⟨x,hx,ht⟩)

theorem IsResolved.attributed {r : AttributedResolved} (h : IsResolved r) : Attributed r.1 := by
  induction h with
  | profile p origin => exact .leaf _ origin
  | compose resolved _ ih => exact .compose ih

/-- A rejecting term is found exactly when the value rejects the name. -/
theorem rejectingTerm_isSome {c : AttributedPermission} (h : Attributed c) (axis : CapabilityAxis) (value : String) :
    (rejectingTerm c axis value).isSome ↔ c.term.allows axis value = false := by
  rw [rejectingTerm,List.find?_isSome,← Bool.not_eq_true,h axis value]
  simp

namespace ResolvedProfile

theorem admits_compose (inputs : List ResolvedProfile) (a : Access) :
    (compose inputs).admits a ↔ ∀ r ∈ inputs, r.admits a := by
  refine (admits_composeResolved _ a).trans ?_
  simp only [List.forall_mem_map]
  rfl

/-- A composition of compositions admits what every one of its inputs admits. -/
theorem Composition.admits {inputs : List ResolvedProfile} {r : ResolvedProfile} (h : Composition inputs r)
    (a : Access) : r.admits a ↔ ∀ x ∈ inputs, x.admits a := by
  induction h with
  | input r => simp
  | group parts _ ih =>
    rw [admits_compose]
    constructor
    · intro hall x hx
      obtain ⟨p,hp,hx⟩ := List.mem_flatMap.mp hx
      exact (ih p hp).mp (hall _ (List.mem_map_of_mem hp)) x hx
    · intro hall y hy
      obtain ⟨p,hp,rfl⟩ := List.mem_map.mp hy
      exact (ih p hp).mpr fun x hx => hall x (List.mem_flatMap.mpr ⟨p,hp,hx⟩)

/-- The origin that is named is that of a term that rejects the value. -/
theorem attributeDeny_origin {c : AttributedPermission} {axis : CapabilityAxis} {value : String} {o : NarrowingOrigin}
    (h : attributeDeny (some c) axis value = some o) :
    ∃ t ∈ c.narrowingTerms, t.origin = some o ∧ t.term.allows axis value = false := by
  have hterm : (rejectingTerm c axis value).bind (·.origin) = some o := h
  obtain ⟨t,ht,ho⟩ := Option.bind_eq_some_iff.mp hterm
  refine ⟨t,List.mem_of_find?_eq_some ht,ho,?_⟩
  simpa using List.find?_some ht

/-- Composition is the meet on every axis, in any order and grouping, and a rejecting term is found exactly when the
composed value rejects the name. -/
theorem compose_is_meet (inputs : List ResolvedProfile) :
    (∀ tool, (compose inputs).admits (.tool tool) ↔ ∀ r ∈ inputs, r.admits (.tool tool)) ∧
    (∀ server, (compose inputs).admits (.mcp server) ↔ ∀ r ∈ inputs, r.admits (.mcp server)) ∧
    (∀ category, category ∈ (compose inputs).1.2 ↔ ∃ r ∈ inputs, category ∈ r.1.2) ∧
    (∀ r r' inputs', Composition inputs r → inputs.Perm inputs' → Composition inputs' r' → ∀ a, r.admits a ↔ r'.admits a) ∧
    (∀ axis value, (rejectingTerm (compose inputs).1.1 axis value).isSome ↔
      (compose inputs).1.1.term.allows axis value = false) := by
  refine ⟨fun tool => admits_compose inputs _,fun server => admits_compose inputs _,fun category => ?_,?_,?_⟩
  · have hmeet := (admits_compose inputs (.category category)).not
    rw [not_forall₂] at hmeet
    simpa [admits,Resolved.admits,AttributedResolved.flat] using hmeet
  · intro r r' inputs' h hperm h' a
    rw [h.admits a,h'.admits a]
    exact forall_congr' fun x => imp_congr_left hperm.mem_iff
  · exact rejectingTerm_isSome (compose inputs).2.attributed

end ResolvedProfile
end Reyn
