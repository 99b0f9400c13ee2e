import Reyn.Runtime.ResolvedProfile

/-! # Spawning and escalation

The narrowing of an agent admits exactly what every layer on its chain of live
parents admits. The delegate floor is the one layer that depends on how the agent
is loaded, and it is decided for the whole chain by the status of the agent at the
bottom, so the cap holds exactly when that status does not drop a floor the parent
itself is loaded with.
-/
namespace Reyn
namespace Registry
variable (R : Registry)

theorem effective_none {terms : List Resolved} (h : (effective terms).1 = none) : effective terms = (none,∅) := by
  unfold effective at h ⊢
  split at h
  · rename_i he
    rw [if_pos he]
  · cases h

theorem admits_effective (terms : List Resolved) (a : Access) :
    (effective terms).admits a ↔ ∀ r ∈ terms, r.admits a := by
  cases terms with
  | nil => simp [effective,Narrowing.admits_open]
  | cons r rest =>
    rw [← admits_composeResolved]
    exact Narrowing.admits_some _ _ a

theorem resolvedProfileFor_none (agent : String) (isDelegate : Option Bool) (sid : Option String)
    (h : (R.resolvedProfileFor agent isDelegate sid).1 = none) :
    R.resolvedProfileFor agent isDelegate sid = (none,∅) := by
  rw [resolvedProfileFor] at h ⊢
  exact effective_none h

theorem admits_narrowingTerms (agent : String) (isDelegate : Option Bool) (sid : Option String) (a : Access) :
    (∀ r ∈ narrowingTerms (R.resolvedProfileFor agent isDelegate sid), r.admits a) ↔
      (R.resolvedProfileFor agent isDelegate sid).admits a := by
  have hnone := R.resolvedProfileFor_none agent isDelegate sid
  rcases hn : R.resolvedProfileFor agent isDelegate sid with ⟨ctx,excluded⟩
  rw [hn] at hnone
  cases ctx with
  | none =>
    cases hnone rfl
    simp [narrowingTerms,Narrowing.admits_open]
  | some ctx => simp [narrowingTerms,Narrowing.admits_some]

/-- What an agent's narrowing admits, layer by layer. -/
theorem admits_resolvedProfileFor (agent : String) (isDelegate : Option Bool) (sid : Option String) (a : Access) :
    (R.resolvedProfileFor agent isDelegate sid).admits a ↔
      (∀ r ∈ R.bindingTerms agent, r.admits a) ∧
      (∀ r ∈ R.floorTerms (R.bindingTerms agent) isDelegate, r.admits a) ∧
      (∀ r ∈ R.sessionTerms agent sid, r.admits a) ∧
      ∀ parent identity, R.spawnLineage.edge agent = some (parent,identity) →
        if R.edgeDead parent identity then R.delegateFloor.admits a
        else (R.resolvedProfileFor parent none none).admits a := by
  rw [resolvedProfileFor,admits_effective]
  simp only [List.forall_mem_append,and_assoc]
  refine and_congr_right fun _ => and_congr_right fun _ => and_congr_right fun _ => ?_
  split
  · rename_i he
    simp [he]
  · rename_i parent identity he
    rw [he]
    simp only [Option.some.injEq,Prod.mk.injEq,and_imp]
    constructor
    · rintro h p i rfl rfl
      split at h
      · rename_i hd
        rw [if_pos hd]
        exact h _ (List.mem_singleton_self _)
      · rename_i hd
        rw [if_neg hd,← admits_narrowingTerms]
        exact h
    · intro h
      have hp := h parent identity rfl rfl
      split
      · rename_i hd
        rw [if_pos hd] at hp
        simpa using hp
      · rename_i hd
        rw [if_neg hd,← admits_narrowingTerms] at hp
        exact hp

/-- The agent has a spawn edge to a parent that is there under the frozen identity. -/
def LiveEdge (child parent : String) : Prop :=
  ∃ identity, R.spawnLineage.edge child = some (parent,identity) ∧ R.edgeDead parent identity = false

/-- `x` is the agent or one of its live ancestors. -/
inductive LiveChain : String → String → Prop
  | self (agent : String) : LiveChain agent agent
  | up {child parent x : String} : R.LiveEdge child parent → LiveChain parent x → LiveChain child x

/-- No topology binds the agent. -/
def Unbound (agent : String) : Prop := R.bindingTerms agent = []

/-- The layers of an agent that do not depend on how it is loaded: its bindings, and
the floor in place of a parent that is gone. -/
def DeclaredAdmits (agent : String) (a : Access) : Prop :=
  (∀ r ∈ R.bindingTerms agent, r.admits a) ∧
  ∀ parent identity, R.spawnLineage.edge agent = some (parent,identity) → R.edgeDead parent identity = true →
    R.delegateFloor.admits a

def SessionAdmits (agent : String) (sid : Option String) (a : Access) : Prop :=
  ∀ r ∈ R.sessionTerms agent sid, r.admits a

theorem forall_mem_floorTerms (agent : String) (a : Access) :
    (∀ r ∈ R.floorTerms (R.bindingTerms agent) none, r.admits a) ↔
      (R.constructingAsDelegate = true → R.delegationCapabilityDefault = "deny" → R.Unbound agent →
        R.delegateFloor.admits a) := by
  unfold floorTerms Unbound
  split
  · rename_i h
    simp only [Option.getD_none,Bool.and_eq_true,List.isEmpty_iff,beq_iff_eq] at h
    simp [h]
  · rename_i h
    simp only [Option.getD_none,Bool.and_eq_true,List.isEmpty_iff,beq_iff_eq] at h
    constructor
    · intro _ hd hm hu
      exact absurd ⟨⟨hu,hd⟩,hm⟩ h
    · simp

/-- The narrowing of an agent admits what every layer of its live chain admits. -/
theorem admits_iff_chain (agent : String) (sid : Option String) (a : Access) :
    (R.resolvedProfileFor agent none sid).admits a ↔
      R.SessionAdmits agent sid a ∧ ∀ x, R.LiveChain agent x → R.DeclaredAdmits x a ∧
        (R.constructingAsDelegate = true → R.delegationCapabilityDefault = "deny" → R.Unbound x →
          R.delegateFloor.admits a) := by
  induction hk : R.spawnLineage.rank agent using Nat.strong_induction_on generalizing agent sid with
  | _ k ih =>
    subst hk
    rw [admits_resolvedProfileFor,forall_mem_floorTerms]
    constructor
    · rintro ⟨hbind,hfloor,hsession,hparent⟩
      refine ⟨hsession,fun x hx => ?_⟩
      cases hx with
      | self =>
        refine ⟨⟨hbind,fun parent identity he hd => ?_⟩,hfloor⟩
        simpa [hd] using hparent parent identity he
      | @up _ parent x hedge hx =>
        obtain ⟨identity,he,hd⟩ := hedge
        have hp := hparent parent identity he
        rw [hd,if_neg Bool.false_ne_true] at hp
        exact ((ih _ (R.spawnLineage.acyclic _ _ _ he) parent none rfl).mp hp).2 x hx
    · rintro ⟨hsession,hchain⟩
      obtain ⟨⟨hbind,hdead⟩,hfloor⟩ := hchain agent (.self agent)
      refine ⟨hbind,hfloor,hsession,fun parent identity he => ?_⟩
      split
      · rename_i hd
        exact hdead parent identity he hd
      · rename_i hd
        have hedge : R.LiveEdge agent parent := ⟨identity,he,by simpa using hd⟩
        refine (ih _ (R.spawnLineage.acyclic _ _ _ he) parent none rfl).mpr ⟨?_,fun x hx => hchain x (.up hedge hx)⟩
        simp [SessionAdmits,sessionTerms]

/-- The transient is the only thing a load changes, and no layer but the floor reads it. -/
theorem admits_loadedNarrowing (agent : String) (isDelegate : Bool) (sid : Option String) (a : Access) :
    (R.loadedNarrowing agent isDelegate sid).admits a ↔
      R.SessionAdmits agent sid a ∧ ∀ x, R.LiveChain agent x → R.DeclaredAdmits x a ∧
        (isDelegate = true → R.delegationCapabilityDefault = "deny" → R.Unbound x →
          R.delegateFloor.admits a) := by
  have hchain : ∀ x, { R with constructingAsDelegate := isDelegate }.LiveChain agent x ↔ R.LiveChain agent x := by
    intro x
    constructor
    · intro h
      induction h with
      | self => exact .self _
      | up hedge _ ih => exact .up hedge ih
    · intro h
      induction h with
      | self => exact .self _
      | up hedge _ ih => exact .up hedge ih
  refine (admits_iff_chain { R with constructingAsDelegate := isDelegate } agent sid a).trans ?_
  refine and_congr_right fun _ => forall_congr' fun x => ?_
  rw [hchain x]
  rfl

/-- The child's narrowing stays within the parent's: every tool and every server it is
permitted, and it hides every category the parent hides. -/
def WithinParent (child parent : Narrowing) : Prop :=
  (∀ tool, child.permitsTool tool → parent.permitsTool tool) ∧
  (∀ server, child.permitsMcp server → parent.permitsMcp server) ∧
  parent.2 ⊆ child.2

theorem withinParent_iff (child parent : Narrowing) :
    WithinParent child parent ↔ ∀ a, child.admits a → parent.admits a := by
  constructor
  · rintro ⟨htool,hmcp,hcat⟩ a h
    cases a with
    | tool name => exact htool name h
    | mcp server => exact hmcp server h
    | category name => exact fun hm => h (hcat hm)
  · intro h
    refine ⟨fun tool => h (.tool tool),fun server => h (.mcp server),fun name hm => ?_⟩
    by_contra hn
    exact h (.category name) hn hm

/-- The floor denies nothing that the child's own chain does not deny already. -/
def FloorImplied (child : String) (sid : Option String) : Prop :=
  ∀ a, R.SessionAdmits child sid a → (∀ x, R.LiveChain child x → R.DeclaredAdmits x a) →
    R.delegateFloor.admits a

/-- A spawned agent is within its parent, each loaded with its own status, exactly when
the child is loaded as a delegate, or the parent is not, or delegates are not floored,
or every agent from the parent up is bound, or the floor adds nothing to the chain. -/
theorem loadedNarrowing_within_parent_iff {child parent : String} (hedge : R.LiveEdge child parent)
    (childDelegate parentDelegate : Bool) (sid : Option String) :
    WithinParent (R.loadedNarrowing child childDelegate sid) (R.loadedNarrowing parent parentDelegate none) ↔
      childDelegate = true ∨ parentDelegate = false ∨ R.delegationCapabilityDefault ≠ "deny" ∨
      (∀ x, R.LiveChain parent x → ¬ R.Unbound x) ∨ R.FloorImplied child sid := by
  simp only [withinParent_iff,admits_loadedNarrowing]
  have hnosession : ∀ a, R.SessionAdmits parent none a := fun a => by simp [SessionAdmits,sessionTerms]
  constructor
  · intro hwithin
    by_contra hno
    simp only [not_or,not_forall,not_not,Bool.not_eq_true,Bool.not_eq_false] at hno
    obtain ⟨hchild,hparent,hdeny,⟨x,hx,hunbound⟩,himplied⟩ := hno
    apply himplied
    intro a hsession hdeclared
    refine ((hwithin a ⟨hsession,fun y hy => ⟨hdeclared y hy,fun h => ?_⟩⟩).2 x hx).2 hparent hdeny hunbound
    rw [hchild] at h
    cases h
  · intro h a hadmits
    refine ⟨hnosession a,fun x hx => ?_⟩
    have hup := hadmits.2 x (.up hedge hx)
    refine ⟨hup.1,fun hparent hdeny hunbound => ?_⟩
    rcases h with h | h | h | h | h
    · exact hup.2 h hdeny hunbound
    · rw [h] at hparent
      cases hparent
    · exact absurd hdeny h
    · exact absurd hunbound (h x hx)
    · exact h a hadmits.1 fun y hy => (hadmits.2 y hy).1

/-- An unbound parent and its child, under `capability_default: deny`. -/
def spawnedPair : Registry where
  topologies := []
  profileFile _ := .absent
  sessionConfig _ _ := .absent
  delegationCapabilityDefault := "deny"
  spawnLineage :=
    { edge := fun agent => if agent = "child" then some ("parent",some (7,none)) else none
      rank := fun agent => if agent = "child" then 1 else 0
      acyclic := by
        intro child parent identity h
        by_cases hc : child = "child"
        · simp only [hc,if_true,Option.some.injEq,Prod.mk.injEq] at h
          simp [← h.1,hc]
        · simp [hc] at h }
  directory agent := if agent = "parent" then some (7,none) else some (8,none)
  constructingAsDelegate := false

theorem spawnedPair_liveEdge : spawnedPair.LiveEdge "child" "parent" := ⟨some (7,none),by decide,by decide⟩

/-- Both loaded as delegates, the child is within its parent. -/
theorem loadedNarrowing_within_parent_spawnedPair :
    WithinParent (spawnedPair.loadedNarrowing "child" true none) (spawnedPair.loadedNarrowing "parent" true none) :=
  (loadedNarrowing_within_parent_iff spawnedPair spawnedPair_liveEdge true true none).mpr (.inl rfl)

/-- A top-level load of the child of a delegate may run `exec`, which the delegate may not. -/
theorem loadedNarrowing_exceeds_parent :
    ¬ WithinParent (spawnedPair.loadedNarrowing "child" false none)
      (spawnedPair.loadedNarrowing "parent" true none) := by
  rw [withinParent_iff]
  intro h
  have hchild : (spawnedPair.loadedNarrowing "child" false none).admits (.tool "exec") := by
    rw [admits_loadedNarrowing]
    refine ⟨by simp [SessionAdmits,sessionTerms],fun x _ => ⟨⟨by simp [bindingTerms,topologiesForAgent,spawnedPair],?_⟩,nofun⟩⟩
    intro parent identity he hd
    by_cases hx : x = "child"
    · simp only [spawnedPair,hx,if_true,Option.some.injEq,Prod.mk.injEq] at he
      obtain ⟨rfl,rfl⟩ := he
      exact absurd hd (by decide)
    · simp [spawnedPair,hx] at he
  have hparent := ((spawnedPair.admits_loadedNarrowing "parent" true none (.tool "exec")).mp (h _ hchild)).2
    "parent" (.self _)
  have hdenied := (hparent.2 rfl rfl rfl).2
  revert hdenied
  decide

end Registry
end Reyn
