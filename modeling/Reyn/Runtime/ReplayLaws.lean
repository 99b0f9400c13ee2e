import Reyn.Runtime.JournalReplay
import Reyn.Events.BranchModel
import Reyn.Lib.KeyedLog

/-! # Replaying the log of many sessions

Every entry is either recorded by the journal of one session or routed to no
session at all. Replays of such a log never fail. Two replays that start from
agreeing snapshots end in agreeing ones, and a chain they disagree on is brought
back together by the next entry that registers or removes it.
-/
namespace Reyn
open Py KeyedLog

/-- The entry settles the chain or registers it anew: what it held before is gone. -/
def Event.renews (e : Event) (id : String) : Bool :=
  e.kind ∈ [Json.str "chain_register",.str "chain_resolve",.str "chain_timeout_fired"] ∧
    e.get? "chain_id" = some (.str id)

/-- The entry was recorded by the journal of a session. -/
def Journaled (k : SessionKey) (l : WalLine) : Prop :=
  ∃ s m r ts, AgentSnapshot.key s = k ∧ Mutation.recording s m = some r ∧
    l.event = walEntry l.seq ts r.kind r.fields

/-- The entry is routed to no session. -/
def Foreign (l : WalLine) : Prop := AgentSnapshot.eventRouteKey l.event = none

def Sound (l : WalLine) : Prop := Foreign l ∨ ∃ k, Journaled k l

def routeOf (k : SessionKey) : Option (Json × Json) := some (.str k.1,.str k.2)

/-- The entry is routed to the session. -/
def WalLine.routes (l : WalLine) (k : SessionKey) : Bool := AgentSnapshot.eventRouteKey l.event = routeOf k

theorem routeOf_inj {k k' : SessionKey} (h : routeOf k = routeOf k') : k = k' := by
  simp only [routeOf,Option.some.injEq,Prod.mk.injEq,Json.str.injEq] at h
  exact Prod.ext h.1 h.2

theorem Journaled.route {k : SessionKey} {l : WalLine} (h : Journaled k l) :
    AgentSnapshot.eventRouteKey l.event = routeOf k := by
  obtain ⟨s,m,r,ts,rfl,hr,he⟩ := h
  rw [he]
  exact m.routes s l.seq ts hr

theorem Journaled.routes {k : SessionKey} {l : WalLine} (h : Journaled k l) : l.routes k = true := by
  simp [WalLine.routes,h.route]

theorem Sound.journaled {k : SessionKey} {l : WalLine} (h : Sound l) (hk : l.routes k = true) : Journaled k l := by
  have hroute : AgentSnapshot.eventRouteKey l.event = routeOf k := by simpa [WalLine.routes] using hk
  rcases h with h | ⟨k',h⟩
  · rw [Foreign,hroute] at h
    cases h
  · have hkk : k = k' := routeOf_inj (hroute.symm.trans h.route)
    exact hkk ▸ h

theorem Foreign.not_routes {l : WalLine} (h : Foreign l) (k : SessionKey) : l.routes k = false := by
  rw [Foreign] at h
  simp [WalLine.routes,h,routeOf]

namespace AgentSnapshot

theorem matchesAgent_eq_routes (s : AgentSnapshot) (l : WalLine) : s.matchesAgent l.event = l.routes s.key := rfl

/-- One line over a snapshot, whatever the watermark. -/
def absorb (s : AgentSnapshot) (l : WalLine) : Except PyError AgentSnapshot :=
  if l.routes s.key then do
    let s' ← s.applyOne l.event
    return { s' with appliedSeq := l.seq }
  else .ok s

def absorbAll (s : AgentSnapshot) (ls : List WalLine) : Except PyError AgentSnapshot := ls.foldlM absorb s

theorem absorb_of_not_routes {s : AgentSnapshot} {l : WalLine} (h : l.routes s.key = false) :
    s.absorb l = .ok s := by
  rw [absorb,if_neg (by simp [h])]

theorem applyEvent_line {s : AgentSnapshot} {l : WalLine} (h : s.appliedSeq < l.seq) :
    s.applyEvent l.event = s.absorb l := by
  have hlt : ¬ (l.seq : Int) ≤ (s.appliedSeq : Int) := by omega
  simp only [applyEvent,l.stamped,if_neg hlt,absorb,matchesAgent_eq_routes,Int.toNat_natCast]
  rfl

theorem absorb_appliedSeq {s t : AgentSnapshot} {l : WalLine} (h : s.absorb l = .ok t) :
    t.appliedSeq = s.appliedSeq ∨ t.appliedSeq = l.seq := by
  unfold absorb at h
  split at h
  · cases ha : s.applyOne l.event with
    | error e => rw [ha] at h; cases h
    | ok u =>
      rw [ha] at h
      cases h
      exact .inr rfl
  · cases h
    exact .inl rfl

/-- Above the watermark `apply_events` absorbs line after line. -/
theorem applyEvents_lines {s : AgentSnapshot} {ls : List WalLine} (hp : ls.Pairwise (·.seq < ·.seq))
    (hs : ∀ l ∈ ls, s.appliedSeq < l.seq) : s.applyEvents (ls.map (·.event)) = s.absorbAll ls := by
  induction ls generalizing s with
  | nil => rfl
  | cons l rest ih =>
    obtain ⟨hl,hrest⟩ := List.pairwise_cons.mp hp
    have hstep := applyEvent_line (hs l List.mem_cons_self)
    simp only [applyEvents,absorbAll,List.map_cons,List.foldlM_cons,hstep]
    cases ht : s.absorb l with
    | error e => rfl
    | ok t =>
      refine ih hrest fun l' hl' => ?_
      have hlow := hs l' (List.mem_cons_of_mem _ hl')
      have hup := hl l' hl'
      rcases absorb_appliedSeq ht with h | h <;> omega

/-- What an entry does to one chain of the snapshot. -/
def chainEffect (e : Event) (id : String) (chain : Option Chain) : Option Chain :=
  match e.kind with
  | .str "chain_register" => if e.get? "chain_id" = some (.str id) then (registeredChain e).toOption else chain
  | .str "chain_update" =>
    if e.get? "chain_id" = some (.str id) then chain.bind fun c => (e.items.foldlM writeBack c).toOption else chain
  | .str "chain_resolve" | .str "chain_timeout_fired" => if e.get? "chain_id" = some (.str id) then none else chain
  | _ => chain

theorem item_eq_ok {e : Event} {key : String} {v : Json} (h : e.item key = .ok v) : e.get? key = some v := by
  unfold Event.item at h
  cases hg : e.get? key with
  | none => rw [hg] at h; cases h
  | some w => rw [hg] at h; cases h; rfl

theorem withId_chains {e : Event} {key : String} {s s' : AgentSnapshot} {f : String → AgentSnapshot}
    (h : withId e key s f = .ok s') (hf : ∀ id, (f id).pendingChains = s.pendingChains) :
    s'.pendingChains = s.pendingChains := by
  simp only [withId] at h
  split at h
  · cases hn : needStr key (e.getD key .null) with
    | error err => rw [hn] at h; cases h
    | ok id => rw [hn] at h; cases h; exact hf id
  · cases h; rfl

theorem lookupKey_eq_ok {key : String} {v : Json} {o : Option String} (h : lookupKey key v = .ok o) (id : String) :
    o = some id ↔ v = .str id := by
  cases v <;> simp_all [lookupKey,eq_comm]

theorem needStr_eq_ok {key id : String} {v : Json} (h : needStr key v = .ok id) : v = .str id := by
  cases v <;> simp_all [needStr,Json.asStr]

theorem getD_null_eq_str {e : Event} {key id : String} :
    e.getD key .null = .str id ↔ e.get? key = some (.str id) := by
  cases h : e.get? key <;> simp [Event.getD,h]

/-- Removing the chain an entry names. -/
theorem get?_popNamed {s s' : AgentSnapshot} {e : Event} {key : Option String}
    (hkey : lookupKey "chain_id" (e.getD "chain_id" .null) = .ok key)
    (hs : s'.pendingChains = key.elim s.pendingChains s.pendingChains.pop) (id : String) :
    s'.pendingChains.get? id =
      if e.get? "chain_id" = some (.str id) then none else s.pendingChains.get? id := by
  have hiff := (lookupKey_eq_ok hkey id).trans getD_null_eq_str
  rw [hs]
  cases key with
  | none => simp [← hiff]
  | some id' =>
    rw [Option.elim_some,Dict.get?_pop]
    simp only [← hiff,Option.some.injEq,eq_comm]

/-- The lookups of the chains after an entry are the effects of the entry on those before. -/
theorem applyOne_get? {s s' : AgentSnapshot} {e : Event} (h : s.applyOne e = .ok s') (id : String) :
    s'.pendingChains.get? id = chainEffect e id (s.pendingChains.get? id) := by
  have keep : s'.pendingChains = s.pendingChains → (∀ c, chainEffect e id c = c) →
      s'.pendingChains.get? id = chainEffect e id (s.pendingChains.get? id) := by
    intro hs he
    rw [hs,he]
  unfold applyOne at h
  split at h <;> rename_i hk
  · obtain ⟨msgId,-,h⟩ := bind_eq_ok.mp h
    obtain ⟨msgKind,-,h⟩ := bind_eq_ok.mp h
    cases h
    exact keep rfl (by simp [chainEffect,hk])
  · cases h
    exact keep rfl (by simp [chainEffect,hk])
  · cases h
    exact keep rfl (by simp [chainEffect,hk])
  · obtain ⟨chain,hchain,h⟩ := bind_eq_ok.mp h
    obtain ⟨chainId,hid,h⟩ := bind_eq_ok.mp h
    obtain ⟨v,hitem,hneed⟩ := bind_eq_ok.mp hid
    cases h
    have hget : e.get? "chain_id" = some (.str chainId) := needStr_eq_ok hneed ▸ item_eq_ok hitem
    by_cases hi : id = chainId
    · subst hi
      simp [chainEffect,hk,hget,hchain,Except.toOption]
    · have hi' : chainId ≠ id := fun he => hi he.symm
      simp [chainEffect,hk,hget,Dict.get?_set,hi,hi']
  · obtain ⟨key,hkey,h⟩ := bind_eq_ok.mp h
    obtain ⟨v,hitem,hlook⟩ := bind_eq_ok.mp hkey
    have hiff : key = some id ↔ e.get? "chain_id" = some (.str id) := by
      rw [item_eq_ok hitem,Option.some.injEq]
      exact lookupKey_eq_ok hlook id
    simp only [chainEffect,hk,← hiff]
    cases key with
    | none => cases h; simp
    | some id' =>
      cases hc : s.pendingChains.get? id' with
      | none =>
        simp only [Option.bind_some,hc,Option.map_none] at h
        cases h
        by_cases hi : id' = id
        · subst hi
          simp [hc]
        · simp [hi]
      | some chain =>
        simp only [Option.bind_some,hc,Option.map_some] at h
        obtain ⟨chain',hfold,h⟩ := bind_eq_ok.mp h
        cases h
        by_cases hi : id = id'
        · subst hi
          simp [hc,hfold,Except.toOption]
        · have hi' : id' ≠ id := fun he => hi he.symm
          simp [Dict.get?_set,hi,hi']
  · obtain ⟨key,hlook,h⟩ := bind_eq_ok.mp h
    have hs : s'.pendingChains = key.elim s.pendingChains s.pendingChains.pop := by
      cases key <;> cases h <;> rfl
    simpa [chainEffect,hk] using get?_popNamed hlook hs id
  · obtain ⟨key,hlook,h⟩ := bind_eq_ok.mp h
    have hs : s'.pendingChains = key.elim s.pendingChains s.pendingChains.pop := by
      cases key <;> cases h <;> rfl
    simpa [chainEffect,hk] using get?_popNamed hlook hs id
  · exact keep (withId_chains h fun _ => rfl) (by simp [chainEffect,hk])
  · exact keep (withId_chains h fun _ => rfl) (by simp [chainEffect,hk])
  · exact keep (withId_chains h fun _ => rfl) (by simp [chainEffect,hk])
  · exact keep (withId_chains h fun _ => rfl) (by simp [chainEffect,hk])
  · refine keep ?_ (by simp [chainEffect,hk])
    split at h
    · cases h
      split <;> rfl
    · cases h
      rfl
  · cases h
    exact keep rfl (by simp [chainEffect,hk])
  · cases h
    refine keep rfl fun c => ?_
    unfold chainEffect
    split <;> simp_all

theorem chainEffect_of_renews {e : Event} {id : String} (h : e.renews id = true) (a b : Option Chain) :
    chainEffect e id a = chainEffect e id b := by
  simp only [Event.renews,List.mem_cons,List.not_mem_nil,or_false,decide_eq_true_eq] at h
  obtain ⟨hk | hk | hk,hid⟩ := h <;> simp [chainEffect,hk,hid]

end AgentSnapshot

/-- Agreement, with equal contents of every pending chain outside `E`. -/
structure AgreeOff (E : String → Prop) (s t : AgentSnapshot) : Prop where
  agree : Agree s t
  chains : ∀ id, ¬ E id → s.pendingChains.get? id = t.pendingChains.get? id

/-- Equality up to `applied_seq`. -/
def EqUpToSeq (s t : AgentSnapshot) : Prop := t = { s with appliedSeq := t.appliedSeq }

theorem Agree.off {s t : AgentSnapshot} (h : Agree s t) : AgreeOff (· ∈ s.pendingChains.keys) s t := by
  refine ⟨h,fun id hid => ?_⟩
  rw [Dict.get?_eq_none_iff.mpr hid,Dict.get?_eq_none_iff.mpr (h.chainIds ▸ hid)]

theorem Agree.key {s t : AgentSnapshot} (h : Agree s t) : s.key = t.key := Prod.ext h.agentName h.sessionId

/-- Snapshots that disagree on no chain are equal up to `applied_seq`. -/
theorem AgreeOff.eqUpToSeq {E : String → Prop} {s t : AgentSnapshot} (h : AgreeOff E s t)
    (hE : ∀ id ∈ s.pendingChains.keys, ¬ E id) : EqUpToSeq s t := by
  have hchains : s.pendingChains = t.pendingChains := by
    refine Dict.ext_get? h.agree.chainIds fun id => ?_
    by_cases hid : id ∈ s.pendingChains.keys
    · exact h.chains id (hE id hid)
    · exact (h.agree.off).chains id hid
  obtain ⟨h1,h2,h3,-,h5,h6,h7⟩ := h.agree
  cases s; cases t
  simp_all [EqUpToSeq]

theorem EqUpToSeq.agreeOff {s t : AgentSnapshot} (h : EqUpToSeq s t) : AgreeOff (fun _ => False) s t := by
  rw [EqUpToSeq] at h
  rw [h]
  exact ⟨⟨rfl,rfl,rfl,rfl,rfl,rfl,rfl⟩,fun _ _ => rfl⟩

section Absorb
open AgentSnapshot

/-- A recorded entry absorbs its mutation on every side it routes to. -/
theorem absorb_recorded {l : WalLine} {s t : AgentSnapshot} {m : Mutation} {r : Recording} {ts : String}
    (hr : m.recording s = some r) (he : l.event = walEntry l.seq ts r.kind r.fields) (hk : t.key = s.key) :
    ∃ t', t.applyOne l.event = .ok t' ∧ t.absorb l = .ok { t' with appliedSeq := l.seq } ∧ Absorbs t r t' := by
  obtain ⟨t',hap,habs⟩ := m.replays s t l.seq ts hr
  rw [← he] at hap
  have hj : Journaled t.key l := ⟨s,m,r,ts,hk.symm,hr,he⟩
  refine ⟨t',hap,?_,habs⟩
  rw [absorb,if_pos hj.routes,hap]
  rfl

/-- One entry over two sides that disagree on the chains of `E`. -/
theorem AgreeOff.absorb {E : String → Prop} {s t : AgentSnapshot} {l : WalLine} (h : AgreeOff E s t)
    (hl : Sound l) : ∃ s' t', s.absorb l = .ok s' ∧ t.absorb l = .ok t' ∧ s'.key = s.key ∧
      AgreeOff (fun id => E id ∧ ¬ (l.routes s.key ∧ l.event.renews id)) s' t' := by
  cases hroute : l.routes s.key with
  | false =>
    refine ⟨s,t,absorb_of_not_routes hroute,absorb_of_not_routes (h.agree.key ▸ hroute),rfl,h.agree,?_⟩
    intro id hid
    exact h.chains id fun hE => hid ⟨hE,by simp⟩
  | true =>
    obtain ⟨u,m,r,ts,hk,hr,he⟩ := hl.journaled hroute
    obtain ⟨s',hs,hsa,habs⟩ := absorb_recorded hr he hk.symm
    obtain ⟨t',ht,hta,habt⟩ := absorb_recorded hr he (h.agree.key.symm.trans hk.symm)
    have hagree : Agree s' t' := (habs.agree s (Agree.refl s)).symm.trans (habt.agree s h.agree)
    refine ⟨_,_,hsa,hta,Prod.ext habs.routed.1 habs.routed.2,?_,?_⟩
    · exact ⟨hagree.1,hagree.2,hagree.3,hagree.4,hagree.5,hagree.6,hagree.7⟩
    · intro id hid
      show s'.pendingChains.get? id = t'.pendingChains.get? id
      rw [applyOne_get? hs,applyOne_get? ht]
      by_cases hrenew : l.event.renews id = true
      · exact chainEffect_of_renews hrenew _ _
      · rw [h.chains id fun hE => hid ⟨hE,fun hc => hrenew hc.2⟩]

/-- A whole replay over two sides: an entry of the session that renews a chain ends the
disagreement on it. -/
theorem AgreeOff.absorbAll {E : String → Prop} {s t : AgentSnapshot} {ls : List WalLine} (h : AgreeOff E s t)
    (hl : ∀ l ∈ ls, Sound l) : ∃ s' t', s.absorbAll ls = .ok s' ∧ t.absorbAll ls = .ok t' ∧ s'.key = s.key ∧
      AgreeOff (fun id => E id ∧ ∀ l ∈ ls, ¬ (l.routes s.key ∧ l.event.renews id)) s' t' := by
  induction ls generalizing s t E with
  | nil => exact ⟨s,t,rfl,rfl,rfl,by simpa using h⟩
  | cons l rest ih =>
    obtain ⟨s₁,t₁,hs,ht,hk,h₁⟩ := h.absorb (hl l List.mem_cons_self)
    obtain ⟨s₂,t₂,hs',ht',hk',h₂⟩ := ih h₁ fun l' hl' => hl l' (List.mem_cons_of_mem _ hl')
    refine ⟨s₂,t₂,?_,?_,hk'.trans hk,h₂.agree,fun id hid => h₂.chains id fun hE => hid ?_⟩
    · simp only [AgentSnapshot.absorbAll,List.foldlM_cons,hs]
      exact hs'
    · simp only [AgentSnapshot.absorbAll,List.foldlM_cons,ht]
      exact ht'
    · rw [hk] at hE
      exact ⟨hE.1.1,List.forall_mem_cons.mpr ⟨hE.1.2,hE.2⟩⟩

/-- The replay of a sound log never fails. -/
theorem absorbAll_ok (s : AgentSnapshot) {ls : List WalLine} (hl : ∀ l ∈ ls, Sound l) :
    ∃ s', s.absorbAll ls = .ok s' ∧ s'.key = s.key := by
  obtain ⟨s',-,hs,-,hk,-⟩ := (Agree.refl s).off.absorbAll hl
  exact ⟨s',hs,hk⟩

theorem Agree.absorbAll {s t s' t' : AgentSnapshot} {ls : List WalLine} (h : Agree s t) (hl : ∀ l ∈ ls, Sound l)
    (hs : s.absorbAll ls = .ok s') (ht : t.absorbAll ls = .ok t') : Agree s' t' := by
  obtain ⟨u,v,hu,hv,-,huv⟩ := h.off.absorbAll hl
  rw [hs] at hu
  rw [ht] at hv
  cases hu
  cases hv
  exact huv.agree

/-- Entries of other sessions can be left out of a replay. -/
theorem absorbAll_filter_routes {s : AgentSnapshot} {ls : List WalLine} (hl : ∀ l ∈ ls, Sound l) :
    s.absorbAll ls = s.absorbAll (ls.filter (·.routes s.key)) := by
  refine foldlM_filter (I := fun t => t.key = s.key) rfl ?_ ?_
  · intro t ht l _ hq
    exact absorb_of_not_routes (ht ▸ hq)
  · intro t ht l hmem t' ht'
    obtain ⟨u,-,hu,-,hk,-⟩ := (Agree.refl t).off.absorb (hl l hmem)
    rw [ht'] at hu
    cases hu
    exact hk.trans ht

theorem absorbAll_append (s : AgentSnapshot) (xs ys : List WalLine) :
    s.absorbAll (xs ++ ys) = s.absorbAll xs >>= (·.absorbAll ys) := by
  simp [AgentSnapshot.absorbAll,List.foldlM_append]

end Absorb
end Reyn
