import Reyn.Runtime.SnapshotJournal

/-! # The live mirror against the replay

A mutator changes the live snapshot in place and its entry is replayed by
`_apply_one` after a crash. The two agree on everything but the contents of the
pending chains: the replay of a registration drops `registered_at`, and the replay
of an update writes the entry's `ts` into the chain.
-/
namespace Reyn
open Py

/-- Equality of snapshots up to `applied_seq` and up to the contents of the pending chains. -/
structure Agree (s t : AgentSnapshot) : Prop where
  agentName : s.agentName = t.agentName
  sessionId : s.sessionId = t.sessionId
  inbox : s.inbox = t.inbox
  chainIds : s.pendingChains.keys = t.pendingChains.keys
  outstanding : s.outstandingInterventions = t.outstandingInterventions
  buffered : s.bufferedInterventionAnswers = t.bufferedInterventionAnswers
  nextTurn : s.nextTurnContext = t.nextTurnContext

/-- Equality up to `applied_seq`, with dictionaries compared as Python compares them. -/
structure SameState (s t : AgentSnapshot) : Prop where
  agentName : s.agentName = t.agentName
  sessionId : s.sessionId = t.sessionId
  inbox : s.inbox = t.inbox
  chains : ∀ id, Option.Rel Dict.Same (s.pendingChains.get? id) (t.pendingChains.get? id)
  outstanding : s.outstandingInterventions.Same t.outstandingInterventions
  buffered : s.bufferedInterventionAnswers.Same t.bufferedInterventionAnswers
  nextTurn : s.nextTurnContext = t.nextTurnContext

def EveryChain (P : Chain → Prop) (s : AgentSnapshot) : Prop :=
  ∀ id chain, s.pendingChains.get? id = some chain → P chain

def Dated (chain : Chain) : Prop := chain.get? "registered_at" ≠ none

def Undated (chain : Chain) : Prop := chain.get? "registered_at" = none

theorem Agree.refl (s : AgentSnapshot) : Agree s s := ⟨rfl,rfl,rfl,rfl,rfl,rfl,rfl⟩
theorem Agree.symm {s t : AgentSnapshot} (h : Agree s t) : Agree t s :=
  ⟨h.1.symm,h.2.symm,h.3.symm,h.4.symm,h.5.symm,h.6.symm,h.7.symm⟩
theorem Agree.trans {s t u : AgentSnapshot} (h : Agree s t) (h' : Agree t u) : Agree s u :=
  ⟨h.1.trans h'.1,h.2.trans h'.2,h.3.trans h'.3,h.4.trans h'.4,h.5.trans h'.5,h.6.trans h'.6,
    h.7.trans h'.7⟩

theorem Agree.withSeq {s t : AgentSnapshot} (h : Agree s t) (n : ℕ) :
    Agree s { t with appliedSeq := n } := ⟨h.1,h.2,h.3,h.4,h.5,h.6,h.7⟩

/-- Without pending chains, agreeing snapshots differ in `applied_seq` only. -/
theorem Agree.eq_of_chainless {s t : AgentSnapshot} (h : Agree s t) (hs : s.pendingChains = .empty) :
    t = { s with appliedSeq := t.appliedSeq } := by
  have ht : t.pendingChains = .empty := by
    apply Dict.keys_eq_nil_iff.mp
    rw [← h.chainIds,hs]
    rfl
  obtain ⟨h1,h2,h3,-,h5,h6,h7⟩ := h
  cases s; cases t
  simp_all

section Chains
variable {P : Chain → Prop} {s : AgentSnapshot}

theorem EveryChain.congr {t : AgentSnapshot} (h : EveryChain P s) (he : t.pendingChains = s.pendingChains) :
    EveryChain P t := by
  intro id chain hc
  exact h id chain (he ▸ hc)

theorem EveryChain.set (h : EveryChain P s) {id : String} {chain : Chain} (hc : P chain) :
    EveryChain P { s with pendingChains := s.pendingChains.set id chain } := by
  intro id' chain' hg
  simp only [Dict.get?_set] at hg
  split at hg
  · cases hg; exact hc
  · exact h id' chain' hg

theorem EveryChain.pop (h : EveryChain P s) (id : String) :
    EveryChain P { s with pendingChains := s.pendingChains.pop id } := by
  intro id' chain' hg
  simp only [Dict.get?_pop] at hg
  split at hg
  · cases hg
  · exact h id' chain' hg

end Chains

/-- A live side and a replayed one that agree are the same state exactly when no chain is pending. -/
theorem Agree.sameState_iff {s t : AgentSnapshot} (h : Agree s t) (hd : EveryChain Dated s)
    (hu : EveryChain Undated t) : SameState s t ↔ ∀ id, s.pendingChains.get? id = none := by
  constructor
  · intro hs id
    have hrel := hs.chains id
    cases hc : s.pendingChains.get? id with
    | none => rfl
    | some chain =>
      cases ht : t.pendingChains.get? id with
      | none => rw [hc,ht] at hrel; cases hrel
      | some chain' =>
        rw [hc,ht] at hrel
        cases hrel with
        | some hsame => exact absurd ((hsame "registered_at").trans (hu id chain' ht)) (hd id chain hc)
  · intro hnone
    have hnone' : ∀ id, t.pendingChains.get? id = none := by
      intro id
      rw [Dict.get?_eq_none_iff,← h.chainIds,← Dict.get?_eq_none_iff]
      exact hnone id
    refine ⟨h.1,h.2,h.3,fun id => ?_,fun k => by rw [h.5],fun k => by rw [h.6],h.7⟩
    rw [hnone id,hnone' id]
    exact .none

/-- What one recorded mutation does on both sides: `t'` is the replay of its entry over `t`. -/
structure Absorbs (t : AgentSnapshot) (r : Recording) (t' : AgentSnapshot) : Prop where
  agree : ∀ u, Agree u t → Agree (r.mirror u) t'
  dated : ∀ u, EveryChain Dated u → EveryChain Dated (r.mirror u)
  undated : EveryChain Undated t → EveryChain Undated t'
  routed : t'.agentName = t.agentName ∧ t'.sessionId = t.sessionId

section Mutators
variable (s t : AgentSnapshot) (seq : ℕ) (ts : String)

/-- The entry replays without an error, to a state that absorbs the mutation. -/
def Replays (r : Recording) : Prop :=
  ∃ t', t.applyOne (walEntry seq ts r.kind r.fields) = .ok t' ∧ Absorbs t r t'

theorem appendInbox_replays (msgId : Ident) (kind : String) (payload : Dict String Json) :
    Replays t seq ts (appendInbox s msgId kind payload) := by
  refine ⟨_,by simp [AgentSnapshot.applyOne,appendInbox,walEntry_item,walEntry_getD,Dict.lookup_cons]; rfl,?_⟩
  refine ⟨fun _ h => ?_,fun _ h => h.congr rfl,fun h => h.congr rfl,rfl,rfl⟩
  exact ⟨h.1,h.2,by simp [appendInbox,h.inbox],h.4,h.5,h.6,h.7⟩

theorem pruneInbox_replays {kind : String} (hk : kind = "inbox_consume" ∨ kind = "inbox_cancel")
    (msgId : Ident) : Replays t seq ts (pruneInbox s kind msgId) := by
  refine ⟨t.dropInbox (.str msgId),?_,?_⟩
  · rcases hk with rfl | rfl <;>
      simp [AgentSnapshot.applyOne,pruneInbox,walEntry_getD,Dict.lookup_cons]
  · refine ⟨fun _ h => ?_,fun _ h => h.congr rfl,fun h => h.congr rfl,rfl,rfl⟩
    exact ⟨h.1,h.2,by simp [pruneInbox,AgentSnapshot.dropInbox,h.inbox],h.4,h.5,h.6,h.7⟩

/-- The chain a registration replays to: everything but `registered_at`. -/
def ChainRegistration.replayed (r : ChainRegistration) (chainId : String) : Chain :=
  Dict.ofList [("chain_id",.str chainId),("origin_depth",.int r.originDepth),
    ("original_request",.str r.originalRequest),("waiting_on",strings r.waitingOn),
    ("task_kind",.ofStr? r.taskKind),("requester",.obj [("agent_name",.str r.requesterAgent),
      ("session_id",.str r.requesterSession)])]

theorem ChainRegistration.replayed_undated (r : ChainRegistration) (chainId : String) :
    Undated (r.replayed chainId) := by
  rw [Undated,ChainRegistration.replayed,Dict.ofList,Dict.get?_update_of_notMem _ (by simp),Dict.get?_empty]

theorem ChainRegistration.dated (r : ChainRegistration) (chainId : String) :
    Dated (Dict.ofList (("chain_id",.str chainId) :: r.fields)) := by
  simp [Dated,Dict.ofList,Dict.update,ChainRegistration.fields]

theorem applyOne_chainRegister (chainId : String) (r : ChainRegistration) :
    t.applyOne (walEntry seq ts "chain_register" (recordChainRegister s chainId r).fields) =
      .ok { t with pendingChains := t.pendingChains.set chainId (r.replayed chainId) } := by
  simp [AgentSnapshot.applyOne,AgentSnapshot.registeredChain,AgentSnapshot.requesterOf,recordChainRegister,
    ChainRegistration.fields,ChainRegistration.replayed,walEntry_item,walEntry_getD,walEntry_get?,
    Dict.lookup_cons,needInt,needArr,needStr,strings,bind,Except.bind,pure,Except.pure]

theorem recordChainRegister_replays (chainId : String) (r : ChainRegistration) :
    Replays t seq ts (recordChainRegister s chainId r) := by
  refine ⟨{ t with pendingChains := t.pendingChains.set chainId (r.replayed chainId) },?_,?_⟩
  · exact applyOne_chainRegister s t seq ts chainId r
  · refine ⟨fun _ h => ?_,fun _ h => h.set (r.dated chainId),fun h => h.set (r.replayed_undated chainId),rfl,rfl⟩
    exact ⟨h.1,h.2,h.3,by simp [recordChainRegister,Dict.keys_set,h.chainIds],h.5,h.6,h.7⟩

/-- Writing an update entry back also writes its time stamp. -/
theorem foldlM_writeBack (chain : Chain) (chainId : String) (u : ChainUpdate) :
    (walEntry seq ts "chain_update" (recordChainUpdate s chainId u).fields).items.foldlM
      AgentSnapshot.writeBack chain = .ok ((chain.set "ts" (.str ts)).update u.fields) := by
  rw [walEntry_items]
  cases u <;>
    simp [recordChainUpdate,ChainUpdate.fields,AgentSnapshot.writeBack,chainEventMetaKeys,needArr,strings,
      Dict.update,bind,Except.bind,pure,Except.pure]

theorem ChainUpdate.get?_registeredAt (u : ChainUpdate) (chain : Chain) :
    (chain.update u.fields).get? "registered_at" = chain.get? "registered_at" :=
  Dict.get?_update_of_notMem _ (by cases u <;> simp [ChainUpdate.fields])

theorem applyOne_chainUpdate (chainId : String) (u : ChainUpdate) :
    t.applyOne (walEntry seq ts "chain_update" (recordChainUpdate s chainId u).fields) =
      match t.pendingChains.get? chainId with
      | none => .ok t
      | some chain =>
        let chain' := (chain.set "ts" (.str ts)).update u.fields
        .ok { t with pendingChains := t.pendingChains.set chainId chain' } := by
  have hid : Event.item (walEntry seq ts "chain_update" (recordChainUpdate s chainId u).fields) "chain_id" =
      .ok (.str chainId) := walEntry_item _ _ _ _ (by simp) (by simp [recordChainUpdate,Dict.lookup_cons])
  cases hc : t.pendingChains.get? chainId with
  | none => simp [AgentSnapshot.applyOne,hid,lookupKey,hc,bind,Except.bind,pure,Except.pure]
  | some chain =>
    simp [AgentSnapshot.applyOne,hid,lookupKey,hc,foldlM_writeBack,bind,Except.bind,pure,Except.pure]

theorem recordChainUpdate_mirror (chainId : String) (u : ChainUpdate) (s' : AgentSnapshot) :
    (recordChainUpdate s chainId u).mirror s' =
      match s'.pendingChains.get? chainId with
      | none => s'
      | some chain => { s' with pendingChains := s'.pendingChains.set chainId (chain.update u.fields) } := rfl

/-- Assigning to a pending chain keeps the chain ids. -/
theorem keys_set_of_get? {d : Dict String Chain} {id : String} {chain : Chain} (h : d.get? id = some chain)
    (chain' : Chain) : (d.set id chain').keys = d.keys := by
  rw [Dict.keys_set,if_pos (Dict.mem_keys_iff.mpr ⟨chain,h⟩)]

theorem recordChainUpdate_replays (chainId : String) (u : ChainUpdate) :
    Replays t seq ts (recordChainUpdate s chainId u) := by
  have hdated : ∀ u', EveryChain Dated u' → EveryChain Dated ((recordChainUpdate s chainId u).mirror u') := by
    intro u' h
    rw [recordChainUpdate_mirror]
    cases hc : u'.pendingChains.get? chainId with
    | none => exact h
    | some chain =>
      apply h.set
      rw [Dated,u.get?_registeredAt]
      exact h chainId chain hc
  have hmirror : ∀ u', Agree ((recordChainUpdate s chainId u).mirror u') u' := by
    intro u'
    rw [recordChainUpdate_mirror]
    cases hc : u'.pendingChains.get? chainId with
    | none => exact Agree.refl u'
    | some chain => exact ⟨rfl,rfl,rfl,keys_set_of_get? hc _,rfl,rfl,rfl⟩
  have hap := applyOne_chainUpdate s t seq ts chainId u
  cases hc : t.pendingChains.get? chainId with
  | none =>
    rw [hc] at hap
    exact ⟨t,hap,fun u' h => (hmirror u').trans h,hdated,id,rfl,rfl⟩
  | some chain =>
    rw [hc] at hap
    refine ⟨_,hap,fun u' h => (hmirror u').trans (h.trans ?_),hdated,fun h => h.set ?_,rfl,rfl⟩
    · exact ⟨rfl,rfl,rfl,(keys_set_of_get? hc _).symm,rfl,rfl,rfl⟩
    · rw [Undated,u.get?_registeredAt,Dict.get?_set_ne _ (by decide)]
      exact h chainId chain hc

theorem applyOne_dropChain {kind : String} (hk : kind = "chain_resolve" ∨ kind = "chain_timeout_fired") (chainId : String) :
    t.applyOne (walEntry seq ts kind (dropChain s kind chainId).fields) =
      .ok { t with pendingChains := t.pendingChains.pop chainId } := by
  rcases hk with rfl | rfl <;>
    simp [AgentSnapshot.applyOne,dropChain,walEntry_getD,Dict.lookup_cons,lookupKey,bind,Except.bind,pure,Except.pure]

theorem dropChain_replays {kind : String} (hk : kind = "chain_resolve" ∨ kind = "chain_timeout_fired")
    (chainId : String) : Replays t seq ts (dropChain s kind chainId) := by
  refine ⟨{ t with pendingChains := t.pendingChains.pop chainId },?_,?_⟩
  · exact applyOne_dropChain s t seq ts hk chainId
  · refine ⟨fun _ h => ?_,fun _ h => h.pop chainId,fun h => h.pop chainId,rfl,rfl⟩
    exact ⟨h.1,h.2,h.3,by simp [dropChain,Dict.keys_pop,h.chainIds],h.5,h.6,h.7⟩

theorem withId_of_ne (e : Event) {key : String} (id : Ident) (h : e.getD key .null = .str id.val)
    (f : String → AgentSnapshot) : AgentSnapshot.withId e key t f = .ok (f id) := by
  simp [AgentSnapshot.withId,h,truthy,needStr,id.property,Except.map]

theorem recordInterventionDispatched_replays (id : Ident) (ivDict : List (String × Json)) :
    Replays t seq ts (recordInterventionDispatched s id ivDict) := by
  refine ⟨{ t with outstandingInterventions := t.outstandingInterventions.set id (.obj ivDict) },?_,?_⟩
  · simp only [AgentSnapshot.applyOne,recordInterventionDispatched,walEntry_kind]
    rw [withId_of_ne _ _ id (by simp [walEntry_getD,Dict.lookup_cons])]
    simp [walEntry_getD,Dict.lookup_cons]
  · refine ⟨fun _ h => ?_,fun _ h => h.congr rfl,fun h => h.congr rfl,rfl,rfl⟩
    exact ⟨h.1,h.2,h.3,h.4,by simp [recordInterventionDispatched,h.outstanding],h.6,h.7⟩

theorem recordInterventionResolved_replays (id : Ident) :
    Replays t seq ts (recordInterventionResolved s id) := by
  refine ⟨{ t with outstandingInterventions := t.outstandingInterventions.pop id },?_,?_⟩
  · simp only [AgentSnapshot.applyOne,recordInterventionResolved,walEntry_kind]
    rw [withId_of_ne _ _ id (by simp [walEntry_getD,Dict.lookup_cons])]
  · refine ⟨fun _ h => ?_,fun _ h => h.congr rfl,fun h => h.congr rfl,rfl,rfl⟩
    exact ⟨h.1,h.2,h.3,h.4,by simp [recordInterventionResolved,h.outstanding],h.6,h.7⟩

theorem recordInterventionAnswerBuffered_replays (runId : Ident) (text : String) (choiceId : Option String) :
    Replays t seq ts (recordInterventionAnswerBuffered s runId text choiceId) := by
  let answer := Json.obj [("text",.str text),("choice_id",.ofStr? choiceId)]
  refine ⟨{ t with bufferedInterventionAnswers := t.bufferedInterventionAnswers.set runId answer },?_,?_⟩
  · simp only [AgentSnapshot.applyOne,recordInterventionAnswerBuffered,walEntry_kind]
    rw [withId_of_ne _ _ runId (by simp [walEntry_getD,Dict.lookup_cons])]
    simp [walEntry_getD,Dict.lookup_cons,answer]
  · refine ⟨fun _ h => ?_,fun _ h => h.congr rfl,fun h => h.congr rfl,rfl,rfl⟩
    exact ⟨h.1,h.2,h.3,h.4,h.5,by simp [recordInterventionAnswerBuffered,h.buffered,answer],h.7⟩

theorem recordInterventionAnswerConsumed_replays (runId : Ident) :
    Replays t seq ts (recordInterventionAnswerConsumed s runId) := by
  refine ⟨{ t with bufferedInterventionAnswers := t.bufferedInterventionAnswers.pop runId },?_,?_⟩
  · simp only [AgentSnapshot.applyOne,recordInterventionAnswerConsumed,walEntry_kind]
    rw [withId_of_ne _ _ runId (by simp [walEntry_getD,Dict.lookup_cons])]
  · refine ⟨fun _ h => ?_,fun _ h => h.congr rfl,fun h => h.congr rfl,rfl,rfl⟩
    exact ⟨h.1,h.2,h.3,h.4,h.5,by simp [recordInterventionAnswerConsumed,h.buffered],h.7⟩

theorem recordNextTurnContextStaged_replays (kind : String) (payload : Json) :
    Replays t seq ts (recordNextTurnContextStaged s kind payload) := by
  refine ⟨{ t with nextTurnContext := t.nextTurnContext ++ [.obj [("kind",.str kind),("payload",payload)]] },
    ?_,?_⟩
  · simp [AgentSnapshot.applyOne,recordNextTurnContextStaged,walEntry_getD,Dict.lookup_cons]
  · refine ⟨fun _ h => ?_,fun _ h => h.congr rfl,fun h => h.congr rfl,rfl,rfl⟩
    exact ⟨h.1,h.2,h.3,h.4,h.5,h.6,by simp [recordNextTurnContextStaged,h.nextTurn]⟩

theorem recordNextTurnContextCleared_replays : Replays t seq ts (recordNextTurnContextCleared s) := by
  refine ⟨{ t with nextTurnContext := [] },?_,?_⟩
  · exact t.applyOne_cleared (walEntry_kind ..)
  · exact ⟨fun _ h => ⟨h.1,h.2,h.3,h.4,h.5,h.6,rfl⟩,fun _ h => h.congr rfl,fun h => h.congr rfl,rfl,rfl⟩

/-- Whatever a mutator records replays without an error and absorbs the mutation. -/
theorem Mutation.replays {m : Mutation} {r : Recording} (hr : m.recording s = some r) :
    Replays t seq ts r := by
  cases m with
  | appendInbox msgId kind payload => cases hr; exact appendInbox_replays s t seq ts msgId kind payload
  | consumeInbox msgId =>
    cases msgId with
    | none => cases hr
    | some msgId => cases hr; exact pruneInbox_replays s t seq ts (.inl rfl) msgId
  | cancelInbox msgId =>
    cases msgId with
    | none => cases hr
    | some msgId =>
      simp only [Mutation.recording,Reyn.cancelInbox] at hr
      split at hr
      · cases hr; exact pruneInbox_replays s t seq ts (.inr rfl) msgId
      · cases hr
  | chainRegister chainId r => cases hr; exact recordChainRegister_replays s t seq ts chainId r
  | chainUpdate chainId u => cases hr; exact recordChainUpdate_replays s t seq ts chainId u
  | chainResolve chainId => cases hr; exact dropChain_replays s t seq ts (.inl rfl) chainId
  | chainTimeoutFired chainId => cases hr; exact dropChain_replays s t seq ts (.inr rfl) chainId
  | interventionDispatched id ivDict => cases hr; exact recordInterventionDispatched_replays s t seq ts id ivDict
  | interventionResolved id => cases hr; exact recordInterventionResolved_replays s t seq ts id
  | answerBuffered runId text choiceId =>
    cases hr; exact recordInterventionAnswerBuffered_replays s t seq ts runId text choiceId
  | answerConsumed runId => cases hr; exact recordInterventionAnswerConsumed_replays s t seq ts runId
  | nextTurnContextStaged kind payload =>
    cases hr; exact recordNextTurnContextStaged_replays s t seq ts kind payload
  | nextTurnContextCleared => cases hr; exact recordNextTurnContextCleared_replays s t seq ts

/-- The entry a mutator records routes to the session it was recorded for. -/
theorem Mutation.routes {m : Mutation} {r : Recording} (hr : m.recording s = some r) :
    AgentSnapshot.eventRouteKey (walEntry seq ts r.kind r.fields) = some (.str s.agentName,.str s.sessionId) := by
  cases m with
  | consumeInbox msgId =>
    cases msgId with
    | none => cases hr
    | some msgId => cases hr; simp [AgentSnapshot.eventRouteKey,walEntry_getD,pruneInbox,Dict.lookup_cons]
  | cancelInbox msgId =>
    cases msgId with
    | none => cases hr
    | some msgId =>
      simp only [Mutation.recording,Reyn.cancelInbox] at hr
      split at hr
      · cases hr; simp [AgentSnapshot.eventRouteKey,walEntry_getD,pruneInbox,Dict.lookup_cons]
      · cases hr
  | chainUpdate chainId u =>
    cases hr
    cases u <;> simp [AgentSnapshot.eventRouteKey,walEntry_getD,Dict.lookup_cons,recordChainUpdate,
      ChainUpdate.fields]
  | _ =>
    cases hr
    simp [AgentSnapshot.eventRouteKey,walEntry_getD,Dict.lookup_cons,Reyn.appendInbox,recordChainRegister,
      ChainRegistration.fields,recordChainResolve,recordChainTimeoutFired,dropChain,recordInterventionDispatched,
      recordInterventionResolved,recordInterventionAnswerBuffered,recordInterventionAnswerConsumed,
      recordNextTurnContextStaged,recordNextTurnContextCleared]

/-- A mirror does not touch the watermark. -/
theorem Mutation.mirror_appliedSeq {m : Mutation} {r : Recording} (hr : m.recording s = some r)
    (u : AgentSnapshot) : (r.mirror u).appliedSeq = u.appliedSeq := by
  cases m with
  | consumeInbox msgId => cases msgId <;> cases hr; rfl
  | cancelInbox msgId =>
    cases msgId with
    | none => cases hr
    | some msgId =>
      simp only [Mutation.recording,Reyn.cancelInbox] at hr
      split at hr <;> cases hr
      rfl
  | chainUpdate chainId update =>
    cases hr
    rw [recordChainUpdate_mirror]
    split <;> rfl
  | _ => cases hr; rfl

/-- One step of `apply_events` over a recorded entry above the snapshot's watermark. -/
theorem Mutation.applyEvent_one {m : Mutation} {r : Recording} (hr : m.recording s = some r)
    (hkey : t.key = s.key) (hseq : t.appliedSeq < seq) :
    ∃ t', t.applyEvent (walEntry seq ts r.kind r.fields) = .ok { t' with appliedSeq := seq } ∧
      t.applyOne (walEntry seq ts r.kind r.fields) = .ok t' ∧ Absorbs t r t' := by
  obtain ⟨t',hap,habs⟩ := m.replays s t seq ts hr
  refine ⟨t',?_,hap,habs⟩
  have hroute := m.routes s seq ts hr
  obtain ⟨ha,hs⟩ := Prod.ext_iff.mp hkey
  simp only [AgentSnapshot.key] at ha hs
  have hm : t.matchesAgent (walEntry seq ts r.kind r.fields) = true := by
    simp [AgentSnapshot.matchesAgent,hroute,ha,hs]
  have hlt : ¬ (seq : Int) ≤ (t.appliedSeq : Int) := by omega
  simp only [AgentSnapshot.applyEvent,walEntry_seq?,if_neg hlt,hm,if_true,hap]
  rfl

theorem Mutation.applyEvent {m : Mutation} {r : Recording} (hr : m.recording s = some r)
    (hkey : t.key = s.key) (hseq : t.appliedSeq < seq) :
    ∃ t', t.applyEvent (walEntry seq ts r.kind r.fields) = .ok { t' with appliedSeq := seq } ∧
      Absorbs t r t' := by
  obtain ⟨t',happly,-,habs⟩ := m.applyEvent_one s t seq ts hr hkey hseq
  exact ⟨t',happly,habs⟩

end Mutators

end Reyn
