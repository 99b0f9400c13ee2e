import Reyn.Hooks.Composer

/-! # Composers that feed each other

The load-time check looks, for the kind of an input, at the last composer of the list
that emits the kind. On the bus an event matches whatever composer emitted it.
-/
namespace Reyn
open Py Relation Fallible

/-! ## Kinds -/

def IsComposed (kind : String) : Prop := composedKindPrefix.toList <+: kind.toList

theorem builtin_not_composed {p : String × String} (h : p ∈ bareToKind.items) :
    ¬ IsComposed p.1 ∧ ¬ IsComposed p.2 := by
  have hall : (bareToKind.items.all fun p => !composedKindPrefix.toList.isPrefixOf p.1.toList &&
      !composedKindPrefix.toList.isPrefixOf p.2.toList) = true := by decide_cbv
  have hp := List.all_eq_true.mp hall p h
  simp only [Bool.and_eq_true,Bool.not_eq_true'] at hp
  rw [IsComposed,IsComposed,← List.isPrefixOf_iff_prefix,← List.isPrefixOf_iff_prefix,hp.1,hp.2]
  simp

theorem canonicalKind_composed {kind : String} (h : IsComposed kind) : canonicalKind kind = kind := by
  rw [canonicalKind]
  split
  · rfl
  · cases hget : bareToKind.get? kind with
    | none => rfl
    | some v => exact absurd h (builtin_not_composed (Dict.mem_of_get? hget)).1

/-- Only the kind itself is matched with a composed kind. -/
theorem eq_of_canonicalKind {kind other : String} (h : IsComposed kind)
    (heq : canonicalKind other = canonicalKind kind) : other = kind := by
  rw [canonicalKind_composed h,canonicalKind] at heq
  split at heq
  · exact heq
  · cases hget : bareToKind.get? other with
    | none => simpa [hget] using heq
    | some v =>
      rw [hget,Option.getD_some] at heq
      exact absurd (heq ▸ h) (builtin_not_composed (Dict.mem_of_get? hget)).2

namespace ComposerConfig

theorem parseEmit_composed {raw : List (Value × Value)} {name : String} {op : ComposerOp} {kind : String}
    (h : parseEmit raw name op = .ok kind) : IsComposed kind := by
  simp only [parseEmit] at h
  split at h
  · split at h
    · cases h
      rw [IsComposed,String.toList_append]
      exact List.prefix_append ..
    · cases h
  · split at h
    · split at h
      · cases h
        exact List.isPrefixOf_iff_prefix.mp ‹_›
      · cases h
    · cases h
  · cases h

variable {floatOf : String → Option PyFloat}

/-- The kind and the policy of an accepted entry come from their parsers. -/
theorem parseOne_ok {raw : Value} {index : ℕ} {d : ComposerDef} (h : parseOne floatOf raw index = .ok d) :
    ∃ fields name op policyRaw, parseEmit fields name op = .ok d.emitKind ∧
      parsePolicy floatOf policyRaw name = .ok d.policy := by
  simp only [parseOne] at h
  split at h
  · split at h
    · split at h
      · cases h
      · split at h
        · cases h
        · obtain ⟨patterns,-,h⟩ := bind_ok h
          obtain ⟨emitKind,hemit,h⟩ := bind_ok h
          obtain ⟨correlateBy,-,h⟩ := bind_ok h
          obtain ⟨threshold,-,h⟩ := bind_ok h
          split at h
          · cases h
          · obtain ⟨policy,hpolicy,h⟩ := bind_ok h
            split at h
            · cases h
            · split at h
              · cases h
                exact ⟨_,_,_,_,hemit,hpolicy⟩
              · cases h
                exact ⟨_,_,_,_,hemit,hpolicy⟩
              · cases h
    · cases h
  · cases h

theorem parseOne_composed {raw : Value} {index : ℕ} {d : ComposerDef} (h : parseOne floatOf raw index = .ok d) :
    IsComposed d.emitKind := by
  obtain ⟨_,_,_,_,hemit,-⟩ := parseOne_ok h
  exact parseEmit_composed hemit

theorem parsePolicy_positive {raw : Value} {name : String} {policy : ComposerPolicy}
    (h : parsePolicy floatOf raw name = .ok policy) : policy.ttlSeconds.Positive := by
  have hevents : ∀ {fields at_ capacity overflow ttl}, parsePolicy.withEvents fields at_ capacity overflow ttl = .ok policy →
      policy.ttlSeconds = ttl := by
    intro fields at_ capacity overflow ttl h
    obtain ⟨maxEvents,-,h⟩ := bind_ok h
    cases h
    rfl
  cases raw with
  | none =>
    cases h
    exact (by norm_num : (0 : ℚ) < 300)
  | dict fields =>
    obtain ⟨capacity,-,h⟩ := bind_ok h
    dsimp only at h
    split at h
    · cases h
    · obtain ⟨ttl,-,h⟩ := bind_ok h
      split at h
      · cases h
      · split at h
        · cases h
        · rw [hevents h]
          exact not_le.mp ‹_›
      · rw [hevents h]
        exact trivial
      · rw [hevents h]
        exact trivial
  | _ => cases h

/-- What `load_composers` accepts. -/
theorem loadComposers_ok_iff {entries : List Value} {defs : List ComposerDef} :
    loadComposers floatOf (.list entries) = .ok defs ↔
      parseAll floatOf entries = .ok defs ∧ (defs.map (·.name)).Nodup ∧ checkNoCycles defs = .ok () := by
  rw [loadComposers]
  constructor
  · intro h
    obtain ⟨defs',hparse,h⟩ := bind_ok h
    dsimp only at h
    split at h
    · obtain ⟨⟨⟩,hcheck,h⟩ := bind_ok h
      cases h
      exact ⟨hparse,‹_›,hcheck⟩
    · cases h
  · rintro ⟨hparse,hnodup,hcheck⟩
    rw [hparse]
    simp only [bind,Except.bind]
    rw [if_pos hnodup,hcheck]
    rfl

theorem parseAll_composed {entries : List Value} {defs : List ComposerDef} (h : parseAll floatOf entries = .ok defs) :
    ∀ d ∈ defs, IsComposed d.emitKind := by
  intro d hd
  obtain ⟨p,-,hp⟩ := mapM_ok_mem h hd
  exact parseOne_composed hp

theorem loadComposers_positive {raw : Value} {defs : List ComposerDef} (h : loadComposers floatOf raw = .ok defs) :
    ∀ d ∈ defs, d.policy.ttlSeconds.Positive := by
  intro d hd
  cases raw with
  | none =>
    cases h
    cases hd
  | list entries =>
    obtain ⟨hparse,-,-⟩ := loadComposers_ok_iff.mp h
    obtain ⟨p,-,hp⟩ := mapM_ok_mem hparse hd
    obtain ⟨_,_,_,_,-,hpolicy⟩ := parseOne_ok hp
    exact parsePolicy_positive hpolicy
  | _ => cases h

/-! ## The graph that is searched -/

/-- An input of the second composer names the kind that the first one emits. -/
def FeedsKind (a b : ComposerDef) : Prop := ∃ inp ∈ b.inputs, inp.kind = a.emitKind

variable (defs : List ComposerDef)

/-- The composer is the last of the list to emit its kind. -/
def IsLastEmitter (a : ComposerDef) : Prop := (defs.filter (·.emitKind = a.emitKind)).getLast? = some a

def LastFeeds (a b : ComposerDef) : Prop := IsLastEmitter defs a ∧ IsLastEmitter defs b ∧ FeedsKind a b

variable {defs}

theorem IsLastEmitter.mem {a : ComposerDef} (h : IsLastEmitter defs a) : a ∈ defs :=
  List.mem_of_mem_filter (List.mem_of_getLast? h)

theorem emitToName_get? (kind : String) :
    (emitToName defs).get? kind = ((defs.filter (·.emitKind = kind)).getLast?).map (·.name) := by
  rw [emitToName,Dict.get?_ofList,List.filter_map,List.getLast?_map,Option.map_map]
  rfl

theorem emitToName_eq_some {kind name : String} :
    (emitToName defs).get? kind = some name ↔ ∃ a, IsLastEmitter defs a ∧ a.emitKind = kind ∧ a.name = name := by
  rw [emitToName_get?,Option.map_eq_some_iff]
  constructor
  · rintro ⟨a,hlast,rfl⟩
    have hkind : a.emitKind = kind := by simpa using (List.mem_filter.mp (List.mem_of_getLast? hlast)).2
    subst hkind
    exact ⟨a,hlast,rfl,rfl⟩
  · rintro ⟨a,hlast,rfl,rfl⟩
    exact ⟨a,hlast,rfl⟩

theorem mem_depsOf {d : ComposerDef} {name : String} :
    name ∈ depsOf defs d ↔ ∃ a, IsLastEmitter defs a ∧ FeedsKind a d ∧ a.name = name ∧ a.name ≠ d.name := by
  rw [depsOf,List.mem_filterMap]
  constructor
  · rintro ⟨inp,hinp,h⟩
    obtain ⟨hget,hne⟩ := Option.filter_eq_some_iff.mp h
    obtain ⟨a,hlast,hkind,rfl⟩ := emitToName_eq_some.mp hget
    exact ⟨a,hlast,⟨inp,hinp,hkind.symm⟩,rfl,by simpa using hne⟩
  · rintro ⟨a,hlast,⟨inp,hinp,hkind⟩,rfl,hne⟩
    refine ⟨inp,hinp,Option.filter_eq_some_iff.mpr ⟨?_,by simpa using hne⟩⟩
    exact emitToName_eq_some.mpr ⟨a,hlast,hkind.symm,rfl⟩

section Names
variable (hnodup : (defs.map (·.name)).Nodup)
include hnodup

theorem items_ofList {V : Type} (f : ComposerDef → V) :
    (Dict.ofList (defs.map fun d => (d.name,f d))).items = defs.map fun d => (d.name,f d) := by
  have hkeys : ((defs.map fun d => (d.name,f d)).map Prod.fst).Nodup := by
    rw [List.map_map]
    exact hnodup
  exact (Dict.update_items hkeys fun _ _ => List.not_mem_nil).trans (List.nil_append _)

theorem eq_of_name {a b : ComposerDef} (ha : a ∈ defs) (hb : b ∈ defs) (h : a.name = b.name) : a = b :=
  List.inj_on_of_nodup_map hnodup ha hb h

theorem mem_edgesFrom {n m : String} : m ∈ edgesFrom defs n ↔ ∃ d ∈ defs, d.name = n ∧ m ∈ depsOf defs d := by
  rw [edgesFrom,edges]
  cases hget : (Dict.ofList (defs.map fun d => (d.name,depsOf defs d))).get? n with
  | none =>
    rw [Dict.get?_eq_none_iff,Dict.keys,items_ofList hnodup,List.map_map] at hget
    simp only [Option.getD_none,List.not_mem_nil,false_iff,not_exists,not_and]
    rintro d hd rfl
    exact absurd (List.mem_map_of_mem hd) hget
  | some deps =>
    have hmem := Dict.mem_of_get? hget
    rw [items_ofList hnodup] at hmem
    obtain ⟨d,hd,heq⟩ := List.mem_map.mp hmem
    obtain ⟨rfl,rfl⟩ := Prod.mk.inj heq
    rw [Option.getD_some]
    constructor
    · intro hm
      exact ⟨d,hd,rfl,hm⟩
    · rintro ⟨d',hd',hname,hm⟩
      rwa [eq_of_name hnodup hd hd' hname.symm]

theorem edge_iff {n m : String} : DepthFirst.Edge (edgesFrom defs) n m ↔ ∃ a b, IsLastEmitter defs a ∧ b ∈ defs ∧
    FeedsKind a b ∧ a.name = m ∧ b.name = n ∧ a.name ≠ b.name := by
  rw [DepthFirst.Edge,mem_edgesFrom hnodup]
  constructor
  · rintro ⟨b,hb,rfl,hm⟩
    obtain ⟨a,hlast,hfeeds,rfl,hne⟩ := mem_depsOf.mp hm
    exact ⟨a,b,hlast,hb,hfeeds,rfl,rfl,hne⟩
  · rintro ⟨a,b,hlast,hb,hfeeds,rfl,rfl,hne⟩
    exact ⟨b,hb,rfl,mem_depsOf.mpr ⟨a,hlast,hfeeds,rfl,hne⟩⟩

/-- The search goes from a composer to those that feed it. -/
theorem reaches_of_lastFeeds (hself : ∀ d ∈ defs, ¬ FeedsKind d d) {a b : ComposerDef}
    (h : TransGen (LastFeeds defs) a b) : TransGen (DepthFirst.Edge (edgesFrom defs)) b.name a.name := by
  have hedge : ∀ a b, LastFeeds defs a b → DepthFirst.Edge (edgesFrom defs) b.name a.name := by
    rintro a b ⟨ha,hb,hfeeds⟩
    refine (edge_iff hnodup).mpr ⟨a,b,ha,hb.mem,hfeeds,rfl,rfl,?_⟩
    intro hname
    obtain rfl := eq_of_name hnodup ha.mem hb.mem hname
    exact hself a ha.mem hfeeds
  induction h with
  | single hab => exact .single (hedge _ _ hab)
  | tail _ hbc ih => exact .head (hedge _ _ hbc) ih

/-- Every composer that an edge leads to is the last to emit its kind. -/
theorem lastFeeds_of_reaches {c : ComposerDef} {m : String} (hc : IsLastEmitter defs c)
    (h : TransGen (DepthFirst.Edge (edgesFrom defs)) c.name m) :
    ∃ a, IsLastEmitter defs a ∧ a.name = m ∧ TransGen (LastFeeds defs) a c := by
  induction h with
  | single hedge =>
    obtain ⟨a,b,ha,hb,hfeeds,rfl,hname,-⟩ := (edge_iff hnodup).mp hedge
    obtain rfl := eq_of_name hnodup hb hc.mem hname
    exact ⟨a,ha,rfl,.single ⟨ha,hc,hfeeds⟩⟩
  | tail _ hedge ih =>
    obtain ⟨b,hb,rfl,hbc⟩ := ih
    obtain ⟨a,b',ha,hb',hfeeds,rfl,hname,-⟩ := (edge_iff hnodup).mp hedge
    obtain rfl := eq_of_name hnodup hb' hb.mem hname
    exact ⟨a,ha,rfl,.head ⟨ha,hb,hfeeds⟩ hbc⟩

theorem exists_cycle_iff (hself : ∀ d ∈ defs, ¬ FeedsKind d d) :
    (∃ n, TransGen (DepthFirst.Edge (edgesFrom defs)) n n) ↔ ∃ d, TransGen (LastFeeds defs) d d := by
  constructor
  · rintro ⟨n,hcycle⟩
    obtain ⟨m,-,hedge⟩ := TransGen.tail'_iff.mp hcycle
    obtain ⟨a,b,ha,-,-,rfl,-⟩ := (edge_iff hnodup).mp hedge
    obtain ⟨a',ha',hname,hreach⟩ := lastFeeds_of_reaches hnodup ha hcycle
    obtain rfl := eq_of_name hnodup ha'.mem ha.mem hname
    exact ⟨a',hreach⟩
  · rintro ⟨d,hcycle⟩
    exact ⟨d.name,reaches_of_lastFeeds hnodup hself hcycle⟩

omit hnodup in
theorem feedsItself_iff {d : ComposerDef} : feedsItself d = true ↔ FeedsKind d d := by
  simp [feedsItself,FeedsKind]

/-- The check passes when no composer takes its own kind and the last emitters do not feed each other in a cycle. -/
theorem checkNoCycles_ok_iff : checkNoCycles defs = .ok () ↔
    (∀ d ∈ defs, ¬ FeedsKind d d) ∧ ¬ ∃ d, TransGen (LastFeeds defs) d d := by
  rw [checkNoCycles]
  cases hfind : defs.find? feedsItself with
  | some d =>
    refine iff_of_false nofun fun h => h.1 d (List.mem_of_find?_eq_some hfind) ?_
    exact feedsItself_iff.mp (List.find?_some hfind)
  | none =>
    have hself : ∀ d ∈ defs, ¬ FeedsKind d d := by
      intro d hd hfeeds
      exact List.find?_eq_none.mp hfind d hd (feedsItself_iff.mpr hfeeds)
    have hnames : (byName defs).keys = defs.map (·.name) := by
      rw [byName,Dict.keys,items_ofList hnodup,List.map_map]
      rfl
    have hedges : ∀ u v, DepthFirst.Edge (edgesFrom defs) u v → u ∈ (byName defs).keys ∧ v ∈ (byName defs).keys := by
      intro u v hedge
      obtain ⟨a,b,ha,hb,-,rfl,rfl,-⟩ := (edge_iff hnodup).mp hedge
      rw [hnames]
      exact ⟨List.mem_map_of_mem hb,List.mem_map_of_mem ha.mem⟩
    have hsearch := DepthFirst.search_ok_iff hedges
    rw [← exists_cycle_iff hnodup hself,not_exists,← hsearch]
    cases hs : DepthFirst.search (edgesFrom defs) (byName defs).keys with
    | ok done => exact ⟨fun _ => ⟨hself,done,rfl⟩,fun _ => rfl⟩
    | error cycle => simp [refuse]

end Names
end ComposerConfig
end Reyn
