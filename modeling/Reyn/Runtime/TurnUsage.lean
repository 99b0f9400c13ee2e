import Reyn.Lib.FifoHistory

/-! # The usage of a turn

The tracker keeps the figures of the last turns in parallel maps and evicts the oldest turn.
The maps are images of one history: the calls of each turn since it came in. A turn that
records again after its eviction comes in anew.
-/
namespace Reyn.TurnUsage
open Py

/-- Where the numbers of a call came from. -/
inductive UsageSource where
  | provider
  | estimated
  | unknown
  deriving DecidableEq

/-- `_SOURCE_CONFIDENCE` -/
def UsageSource.confidence : UsageSource → ℕ
  | .provider => 2
  | .unknown => 1
  | .estimated => 0

/-- `merge_usage_sources` of two: the first of the least confident. -/
def mergeUsageSources (a b : UsageSource) : UsageSource := if b.confidence < a.confidence then b else a

structure TokenUsage where
  promptTokens : ℤ
  completionTokens : ℤ
  source : UsageSource

def TokenUsage.totalTokens (u : TokenUsage) : ℤ := u.promptTokens + u.completionTokens

/-- A call as `record_llm` gets it: its turn, if it has one, its usage and its price. -/
structure Call (C : Type) where
  chainId : Option String
  usage : TokenUsage
  costUsd : C

def turnBucketCap : ℕ := 64

/-- `_PER_TURN_BUCKETS` -/
structure TurnBuckets (C : Type) where
  turnTokens : Dict String ℤ
  turnPromptTokens : Dict String ℤ
  turnCompletionTokens : Dict String ℤ
  turnCostUsd : Dict String C
  turnUsageSource : Dict String UsageSource

/-- What `turn_usage` reports. -/
structure Figure (C : Type) where
  chainId : String
  tokens : ℤ
  promptTokens : ℤ
  completionTokens : ℤ
  costUsd : C
  usageSource : UsageSource
  deriving DecidableEq

section Tracker
variable {C : Type} [Zero C] [Add C]

def TurnBuckets.empty : TurnBuckets C := ⟨.empty,.empty,.empty,.empty,.empty⟩

def TurnBuckets.pop (b : TurnBuckets C) (c : String) : TurnBuckets C where
  turnTokens := b.turnTokens.pop c
  turnPromptTokens := b.turnPromptTokens.pop c
  turnCompletionTokens := b.turnCompletionTokens.pop c
  turnCostUsd := b.turnCostUsd.pop c
  turnUsageSource := b.turnUsageSource.pop c

/-- Evict the oldest turn from every bucket while there are too many; each pass takes one. -/
def TurnBuckets.evict : ℕ → TurnBuckets C → TurnBuckets C
  | 0, b => b
  | passes + 1, b =>
    if turnBucketCap < b.turnTokens.items.length then
      match b.turnTokens.items with
      | [] => b
      | oldest :: _ => (b.pop oldest.1).evict passes
    else b

def recordTurnUsage (b : TurnBuckets C) (c : String) (usage : TokenUsage) (costUsd : C) : TurnBuckets C :=
  let b : TurnBuckets C :=
    { turnTokens := b.turnTokens.set c ((b.turnTokens.get? c).getD 0 + usage.totalTokens)
      turnPromptTokens := b.turnPromptTokens.set c ((b.turnPromptTokens.get? c).getD 0 + usage.promptTokens)
      turnCompletionTokens := b.turnCompletionTokens.set c ((b.turnCompletionTokens.get? c).getD 0 + usage.completionTokens)
      turnCostUsd := b.turnCostUsd.set c ((b.turnCostUsd.get? c).getD 0 + costUsd)
      turnUsageSource := b.turnUsageSource.set c (match b.turnUsageSource.get? c with
        | none => usage.source
        | some prev => mergeUsageSources prev usage.source) }
  b.evict b.turnTokens.items.length

/-- The part of `record_llm` that is about turns. -/
def recordLlm (b : TurnBuckets C) (call : Call C) : TurnBuckets C :=
  match call.chainId with
  | none => b
  | some c => recordTurnUsage b c call.usage call.costUsd

def recordAll (calls : List (Call C)) : TurnBuckets C := calls.foldl recordLlm .empty

def turnUsage (b : TurnBuckets C) (c : String) : Option (Figure C) :=
  if (b.turnTokens.get? c).isSome then
    some
      { chainId := c
        tokens := (b.turnTokens.get? c).getD 0
        promptTokens := (b.turnPromptTokens.get? c).getD 0
        completionTokens := (b.turnCompletionTokens.get? c).getD 0
        costUsd := (b.turnCostUsd.get? c).getD 0
        usageSource := (b.turnUsageSource.get? c).getD .unknown }
  else none

end Tracker

/-! ## The history -/

section History
variable {C : Type}

/-- The calls that have a turn, under it. -/
def turnCalls (calls : List (Call C)) : List (String × TokenUsage × C) :=
  calls.filterMap fun call => call.chainId.map fun c => (c,call.usage,call.costUsd)

/-- All calls of a turn. -/
def callsOf (calls : List (Call C)) (c : String) : List (TokenUsage × C) := Fifo.entriesOf (turnCalls calls) c

/-- The calls of a turn from before it last came in. -/
def lostCalls (calls : List (Call C)) (c : String) : List (TokenUsage × C) :=
  Fifo.lost turnBucketCap (turnCalls calls) c

def promptSum (us : List (TokenUsage × C)) : ℤ := (us.map fun u => u.1.promptTokens).sum
def completionSum (us : List (TokenUsage × C)) : ℤ := (us.map fun u => u.1.completionTokens).sum
def totalSum (us : List (TokenUsage × C)) : ℤ := (us.map fun u => u.1.totalTokens).sum

/-- `merge_usage_sources` of all calls -/
def mergedSource : List (TokenUsage × C) → UsageSource
  | [] => .unknown
  | u :: us => us.foldl (fun s u => mergeUsageSources s u.1.source) u.1.source

/-- The source is that of a call, and no call's is less confident. -/
def LeastConfident (us : List (TokenUsage × C)) (s : UsageSource) : Prop :=
  (∃ u ∈ us, u.1.source = s) ∧ ∀ u ∈ us, s.confidence ≤ u.1.source.confidence

theorem confidence_injective {a b : UsageSource} (h : a.confidence = b.confidence) : a = b := by
  cases a <;> cases b <;> first | rfl | cases h

theorem LeastConfident.unique {us : List (TokenUsage × C)} {s t : UsageSource} (hs : LeastConfident us s)
    (ht : LeastConfident us t) : s = t := by
  obtain ⟨⟨u,hu,rfl⟩,hsmin⟩ := hs
  obtain ⟨⟨v,hv,rfl⟩,htmin⟩ := ht
  exact confidence_injective (Nat.le_antisymm (hsmin v hv) (htmin u hu))

theorem LeastConfident.snoc {us : List (TokenUsage × C)} {s : UsageSource} (h : LeastConfident us s) (u : TokenUsage × C) :
    LeastConfident (us ++ [u]) (mergeUsageSources s u.1.source) := by
  obtain ⟨⟨v,hv,rfl⟩,hmin⟩ := h
  unfold mergeUsageSources
  split
  · rename_i hlt
    refine ⟨⟨u,by simp,rfl⟩,fun w hw => ?_⟩
    rcases List.mem_append.mp hw with hw | hw
    · exact Nat.le_trans (Nat.le_of_lt hlt) (hmin w hw)
    · exact Nat.le_of_eq (by rw [List.mem_singleton.mp hw])
  · rename_i hle
    refine ⟨⟨v,List.mem_append_left _ hv,rfl⟩,fun w hw => ?_⟩
    rcases List.mem_append.mp hw with hw | hw
    · exact hmin w hw
    · rw [List.mem_singleton.mp hw]
      exact Nat.le_of_not_lt hle

theorem mergedSource_snoc {us : List (TokenUsage × C)} (h : us ≠ []) (u : TokenUsage × C) :
    mergedSource (us ++ [u]) = mergeUsageSources (mergedSource us) u.1.source := by
  cases us with
  | nil => exact absurd rfl h
  | cons v us => simp [mergedSource]

theorem leastConfident_mergedSource {us : List (TokenUsage × C)} (h : us ≠ []) : LeastConfident us (mergedSource us) := by
  induction us using List.reverseRecOn with
  | nil => exact absurd rfl h
  | append_singleton us u ih =>
    by_cases hus : us = []
    · subst hus
      exact ⟨⟨u,by simp,rfl⟩,by simp [mergedSource]⟩
    · rw [mergedSource_snoc hus]
      exact (ih hus).snoc u

end History

section Refinement
variable {C : Type}

theorem figure_totalSum : Fifo.Figure (@totalSum C) fun old u => old.getD 0 + u.1.totalTokens :=
  ⟨fun u => by simp [totalSum],fun us u _ => by simp [totalSum]⟩

theorem figure_promptSum : Fifo.Figure (@promptSum C) fun old u => old.getD 0 + u.1.promptTokens :=
  ⟨fun u => by simp [promptSum],fun us u _ => by simp [promptSum]⟩

theorem figure_completionSum : Fifo.Figure (@completionSum C) fun old u => old.getD 0 + u.1.completionTokens :=
  ⟨fun u => by simp [completionSum],fun us u _ => by simp [completionSum]⟩

theorem figure_mergedSource : Fifo.Figure (@mergedSource C) fun old u =>
    match old with
    | none => u.1.source
    | some prev => mergeUsageSources prev u.1.source :=
  ⟨fun _ => rfl,fun _ u h => mergedSource_snoc h u⟩

variable [Zero C] [Add C]

def costSum (us : List (TokenUsage × C)) : C := us.foldl (fun total u => total + u.2) 0

theorem figure_costSum : Fifo.Figure (@costSum C _ _) fun old u => old.getD 0 + u.2 :=
  ⟨fun _ => rfl,fun us u _ => by simp [costSum]⟩

/-- The buckets as images of one history. -/
def bucketsOf (h : Fifo.History String (TokenUsage × C)) : TurnBuckets C where
  turnTokens := h.mapVal fun _ us => totalSum us
  turnPromptTokens := h.mapVal fun _ us => promptSum us
  turnCompletionTokens := h.mapVal fun _ us => completionSum us
  turnCostUsd := h.mapVal fun _ us => costSum us
  turnUsageSource := h.mapVal fun _ us => mergedSource us

theorem bucketsOf_pop (h : Fifo.History String (TokenUsage × C)) (c : String) :
    (bucketsOf h).pop c = bucketsOf (h.pop c) := by
  simp only [bucketsOf,TurnBuckets.pop,Dict.pop_mapVal]

/-- One pass is enough when at most one turn is too many. -/
theorem bucketsOf_evict {h : Fifo.History String (TokenUsage × C)} (hlen : h.items.length ≤ turnBucketCap + 1) (passes : ℕ) :
    (bucketsOf h).evict (passes + 1) = bucketsOf (Fifo.trim turnBucketCap h) := by
  have hitems : (bucketsOf h).turnTokens.items = h.items.map fun p => (p.1,totalSum p.2) := rfl
  rw [TurnBuckets.evict,hitems,List.length_map,Fifo.trim]
  cases hcase : h.items with
  | nil => simp
  | cons oldest rest =>
    rw [List.map_cons]
    dsimp only
    split
    · rw [bucketsOf_pop]
      cases passes with
      | zero => rfl
      | succ passes =>
        have hlt := Fifo.length_pop_head hcase
        rw [TurnBuckets.evict,if_neg]
        show ¬turnBucketCap < ((h.pop oldest.1).items.map fun p => (p.1,totalSum p.2)).length
        rw [List.length_map]
        omega
    · rfl

/-- The tracker keeps the buckets the images of the history. -/
theorem recordTurnUsage_bucketsOf {h : Fifo.History String (TokenUsage × C)}
    (hne : ∀ c us, h.get? c = some us → us ≠ []) (hlen : h.items.length ≤ turnBucketCap) (c : String) (usage : TokenUsage)
    (costUsd : C) :
    recordTurnUsage (bucketsOf h) c usage costUsd = bucketsOf (Fifo.note turnBucketCap h c (usage,costUsd)) := by
  have hset : recordTurnUsage (bucketsOf h) c usage costUsd =
      (bucketsOf (h.set c ((h.get? c).getD [] ++ [(usage,costUsd)]))).evict
        (bucketsOf (h.set c ((h.get? c).getD [] ++ [(usage,costUsd)]))).turnTokens.items.length := by
    have htokens := Fifo.set_image figure_totalSum hne c (usage,costUsd)
    have hprompt := Fifo.set_image figure_promptSum hne c (usage,costUsd)
    have hcompletion := Fifo.set_image figure_completionSum hne c (usage,costUsd)
    have hcost := Fifo.set_image figure_costSum hne c (usage,costUsd)
    have hsource := Fifo.set_image figure_mergedSource hne c (usage,costUsd)
    simp only [bucketsOf,← htokens,← hprompt,← hcompletion,← hcost,← hsource]
    rfl
  have hsome : c ∈ (h.set c ((h.get? c).getD [] ++ [(usage,costUsd)])).keys :=
    Dict.mem_keys_iff.mpr ⟨_,Dict.get?_set_self _ _ _⟩
  have hlength : (bucketsOf (h.set c ((h.get? c).getD [] ++ [(usage,costUsd)]))).turnTokens.items.length =
      (h.set c ((h.get? c).getD [] ++ [(usage,costUsd)])).items.length := List.length_map ..
  rw [hset,hlength,Fifo.note]
  cases hitems : (h.set c ((h.get? c).getD [] ++ [(usage,costUsd)])).items with
  | nil =>
    rw [Dict.keys,hitems] at hsome
    cases hsome
  | cons oldest rest =>
    rw [List.length_cons]
    exact bucketsOf_evict (Nat.le_trans (Dict.length_set_le _ _ _) (Nat.succ_le_succ hlen)) rest.length

omit [Zero C] [Add C] in
theorem turnCalls_append (calls : List (Call C)) (call : Call C) :
    turnCalls (calls ++ [call]) = match call.chainId with
      | none => turnCalls calls
      | some c => turnCalls calls ++ [(c,call.usage,call.costUsd)] := by
  cases hc : call.chainId <;> simp [turnCalls,hc]

/-- After any calls the buckets are the images of the history of the calls. -/
theorem recordAll_eq (calls : List (Call C)) :
    recordAll calls = bucketsOf (Fifo.replay turnBucketCap (turnCalls calls)) := by
  induction calls using List.reverseRecOn with
  | nil => rfl
  | append_singleton calls call ih =>
    rw [recordAll,List.foldl_append,← recordAll,ih,List.foldl_cons,List.foldl_nil,recordLlm,turnCalls_append]
    cases call.chainId with
    | none => rfl
    | some c =>
      dsimp only
      rw [Fifo.replay_append]
      exact recordTurnUsage_bucketsOf (fun _ _ h => (Fifo.replay_suffix h).1) (Fifo.length_replay_le _) c _ _

/-- What `turn_usage` reports are the sums over the calls since the turn came in. -/
theorem turnUsage_recordAll (calls : List (Call C)) (c : String) :
    turnUsage (recordAll calls) c = ((Fifo.replay turnBucketCap (turnCalls calls)).get? c).map fun kept =>
      ⟨c,totalSum kept,promptSum kept,completionSum kept,costSum kept,mergedSource kept⟩ := by
  rw [recordAll_eq,turnUsage]
  simp only [bucketsOf,Dict.get?_mapVal]
  cases (Fifo.replay turnBucketCap (turnCalls calls)).get? c with
  | none => rfl
  | some kept => rfl

/-- The buckets hold one set of turns within the bound, and each figure that is reported is exact. -/
structure ExactOrAbsent (calls : List (Call C)) : Prop where
  prompt : (recordAll calls).turnPromptTokens.keys = (recordAll calls).turnTokens.keys
  completion : (recordAll calls).turnCompletionTokens.keys = (recordAll calls).turnTokens.keys
  cost : (recordAll calls).turnCostUsd.keys = (recordAll calls).turnTokens.keys
  source : (recordAll calls).turnUsageSource.keys = (recordAll calls).turnTokens.keys
  bounded : (recordAll calls).turnTokens.keys.length ≤ turnBucketCap
  figures : ∀ c fig, turnUsage (recordAll calls) c = some fig →
    fig.tokens = totalSum (callsOf calls c) ∧ fig.promptTokens = promptSum (callsOf calls c) ∧
      fig.completionTokens = completionSum (callsOf calls c) ∧ fig.promptTokens + fig.completionTokens = fig.tokens ∧
      LeastConfident (callsOf calls c) fig.usageSource

omit [Zero C] [Add C] in
theorem totalSum_eq (us : List (TokenUsage × C)) : totalSum us = promptSum us + completionSum us := by
  induction us with
  | nil => rfl
  | cons u us ih =>
    simp only [totalSum,promptSum,completionSum,List.map_cons,List.sum_cons] at ih ⊢
    rw [ih,TokenUsage.totalTokens]
    omega

omit [Zero C] [Add C] in
theorem leastConfident_append_iff {lost kept : List (TokenUsage × C)} {s : UsageSource} (h : LeastConfident kept s) :
    LeastConfident (lost ++ kept) s ↔ ∀ u ∈ lost, ∃ v ∈ kept, v.1.source.confidence ≤ u.1.source.confidence := by
  obtain ⟨⟨v,hv,rfl⟩,hmin⟩ := h
  constructor
  · intro hall u hu
    exact ⟨v,hv,hall.2 u (List.mem_append_left _ hu)⟩
  · intro hall
    refine ⟨⟨v,List.mem_append_right _ hv,rfl⟩,fun u hu => ?_⟩
    rcases List.mem_append.mp hu with hu | hu
    · obtain ⟨w,hw,hle⟩ := hall u hu
      exact Nat.le_trans (hmin w hw) hle
    · exact hmin u hu

/-- After any calls of any turns the figures are exact or absent exactly if, for each turn that has a
bucket, its calls from before it last came in took no tokens and none was less confident than all
the later ones. -/
theorem turn_usage_exact_iff (calls : List (Call C)) :
    ExactOrAbsent calls ↔ ∀ c, Fifo.since turnBucketCap (turnCalls calls) c ≠ [] →
      promptSum (lostCalls calls c) = 0 ∧ completionSum (lostCalls calls c) = 0 ∧
        ∀ u ∈ lostCalls calls c, ∃ v ∈ Fifo.since turnBucketCap (turnCalls calls) c,
          v.1.source.confidence ≤ u.1.source.confidence := by
  have hkeys : ∀ {V : Type} (f : List (TokenUsage × C) → V),
      ((Fifo.replay turnBucketCap (turnCalls calls)).mapVal fun _ us => f us).keys =
        (Fifo.replay turnBucketCap (turnCalls calls)).keys := by
    intro V f
    simp [Dict.keys,Dict.mapVal,Function.comp_def]
  have hsplit : ∀ c kept, (Fifo.replay turnBucketCap (turnCalls calls)).get? c = some kept →
      callsOf calls c = lostCalls calls c ++ kept ∧ Fifo.since turnBucketCap (turnCalls calls) c = kept ∧ kept ≠ [] := by
    intro c kept hget
    refine ⟨Fifo.entriesOf_eq hget,?_,(Fifo.replay_suffix hget).1⟩
    rw [Fifo.since,hget]
    rfl
  constructor
  · intro hexact c hsince
    cases hget : (Fifo.replay turnBucketCap (turnCalls calls)).get? c with
    | none =>
      rw [Fifo.since,hget] at hsince
      exact absurd rfl hsince
    | some kept =>
      obtain ⟨hcalls,heq,hne⟩ := hsplit c kept hget
      have hfig := hexact.figures c _ (by rw [turnUsage_recordAll,hget]; rfl)
      obtain ⟨-,hprompt,hcompletion,-,hsource⟩ := hfig
      rw [hcalls] at hprompt hcompletion hsource
      rw [heq]
      refine ⟨?_,?_,(leastConfident_append_iff (leastConfident_mergedSource hne)).mp hsource⟩
      · simp only [promptSum,List.map_append,List.sum_append] at hprompt ⊢
        omega
      · simp only [completionSum,List.map_append,List.sum_append] at hcompletion ⊢
        omega
  · intro hcond
    have hitems : (recordAll calls).turnTokens.keys.length = (Fifo.replay turnBucketCap (turnCalls calls)).items.length := by
      rw [recordAll_eq]
      simp [bucketsOf,Dict.keys,Dict.mapVal]
    constructor
    · rw [recordAll_eq]
      exact (hkeys promptSum).trans (hkeys totalSum).symm
    · rw [recordAll_eq]
      exact (hkeys completionSum).trans (hkeys totalSum).symm
    · rw [recordAll_eq]
      exact (hkeys costSum).trans (hkeys totalSum).symm
    · rw [recordAll_eq]
      exact (hkeys mergedSource).trans (hkeys totalSum).symm
    · rw [hitems]
      exact Fifo.length_replay_le _
    · intro c fig hfig
      rw [turnUsage_recordAll] at hfig
      obtain ⟨kept,hget,rfl⟩ := Option.map_eq_some_iff.mp hfig
      obtain ⟨hcalls,heq,hne⟩ := hsplit c kept hget
      obtain ⟨hprompt,hcompletion,hsource⟩ := hcond c (heq ▸ hne)
      rw [heq] at hsource
      have hp : promptSum (callsOf calls c) = promptSum kept := by
        simp only [hcalls,promptSum,List.map_append,List.sum_append] at hprompt ⊢
        omega
      have hc : completionSum (callsOf calls c) = completionSum kept := by
        simp only [hcalls,completionSum,List.map_append,List.sum_append] at hcompletion ⊢
        omega
      refine ⟨?_,hp.symm,hc.symm,(totalSum_eq kept).symm,?_⟩
      · rw [totalSum_eq,totalSum_eq,hp,hc]
      · rw [hcalls]
        exact (leastConfident_append_iff (leastConfident_mergedSource hne)).mpr hsource

/-- One token in turn `n`. -/
def oneToken (n : ℕ) : Call ℤ := ⟨some (toString n),⟨1,0,.provider⟩,0⟩

/-- Turn 0 is evicted by sixty-four later turns and then goes on. -/
def reopened : List (Call ℤ) := (List.range (turnBucketCap + 1)).map oneToken ++ [oneToken 0]

theorem reopened_not_exact : ¬∀ calls : List (Call ℤ), ExactOrAbsent calls := by
  intro hall
  have hfig := (hall reopened).figures "0" ⟨"0",1,1,0,0,.provider⟩ (by decide_cbv)
  exact absurd hfig.1 (by decide_cbv)

end Refinement
end Reyn.TurnUsage
