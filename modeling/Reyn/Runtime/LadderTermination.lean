import Reyn.Runtime.LadderProvenance

/-! # The end of a recovery

An iteration folds a slice of the middle, or calls the model once the middle is empty, and
does one thing about an overflow. What each call does is any function of the number of the
iteration and of what the call is given. Once no spill edits anything more, every iteration
that goes on lowers the window, or the turns outside the middle, or the middle, or the slice.
-/
namespace Reyn
open Py Transition

inductive RetryLoopTerminal where
  | midFloor
  | roomFloor
  deriving DecidableEq

/-- The response of the model, or an `UnrecoveredError`. -/
inductive RetryResult (R : Type) where
  | response (r : R)
  | unrecovered (terminal : RetryLoopTerminal)

/-- What the calls of an iteration do; `none` is an overflow. An edit is of one of the turns offered. -/
structure LadderCalls (R : Type) where
  compact : ℕ → List WireTurn → Option Json
  mainCall : ℕ → List WireTurn → List WireTurn → Option R
  spill : ℕ → (offered : List WireTurn) → List (Fin offered.length × WireTurn)

inductive IterationResult (R : Type) where
  | goOn (s : RecoveryLadder)
  | ended (r : RetryResult R)

namespace RecoveryLadder

def turns (entries : List LadderEntry) : List WireTurn := entries.map (·.turn)

section Iterations
variable {R : Type} (c : LadderConfig) (calls : LadderCalls R)

/-- The edits of a spill over the offered turns and the tail. -/
def spillEdits (iteration : ℕ) (s : RecoveryLadder) : List (ℕ × WireTurn) :=
  (calls.spill iteration (turns (s.offered ++ s.tail))).map fun edit => (edit.1.val,edit.2)

/-- The part of an iteration after an overflow. -/
def shrinkEscalation (iteration : ℕ) (s : RecoveryLadder) : IterationResult R :=
  match step c s (.overflowed (spillEdits calls iteration s)) with
  | some t => .goOn t
  | none => .ended (.unrecovered (if s.rawMiddle = [] then .roomFloor else .midFloor))

def attemptMainCall (iteration : ℕ) (s : RecoveryLadder) : IterationResult R :=
  match calls.mainCall iteration (turns s.head) (turns s.tail) with
  | some r => .ended (.response r)
  | none => shrinkEscalation c calls iteration s

/-- `_run_one_iteration` -/
def runOneIteration (iteration : ℕ) (s : RecoveryLadder) : IterationResult R :=
  if s.rawMiddle = [] then attemptMainCall c calls iteration s
  else
    match calls.compact iteration (turns s.offered) with
    | none => shrinkEscalation c calls iteration s
    | some content =>
      if (s.advanceStateAfterFold content).rawMiddle = [] then
        attemptMainCall c calls iteration (s.advanceStateAfterFold content)
      else .goOn (s.advanceStateAfterFold content)

/-- `run`, given up after some iterations. -/
def run : ℕ → ℕ → RecoveryLadder → Option (RetryResult R)
  | 0, _, _ => none
  | iterations + 1, iteration, s =>
    match runOneIteration c calls iteration s with
    | .goOn t => run iterations (iteration + 1) t
    | .ended r => some r

end Iterations

/-! ## What is left to do -/

section Measure
variable (c : LadderConfig)

def window (s : RecoveryLadder) : ℕ := s.tMaxOverride.getD c.maxInputTokens

/-- The turns outside the middle that a refill or a fold may still take. -/
def outside (s : RecoveryLadder) : ℕ := nonSummaryCount s.head + s.tail.length

/-- What is left is less in one of four respects, in the order of their weight. -/
def Shrinks (t s : RecoveryLadder) : Prop :=
  Prod.Lex (· < ·) (Prod.Lex (· < ·) (Prod.Lex (· < ·) (· < ·)))
    (window c t,outside t,t.rawMiddle.length,t.attemptLen) (window c s,outside s,s.rawMiddle.length,s.attemptLen)

theorem shrinks_wf : WellFounded (Shrinks c) :=
  InvImage.wf (fun s : RecoveryLadder => (window c s,outside s,s.rawMiddle.length,s.attemptLen))
    (WellFounded.prod_lex Nat.lt_wfRel.wf (WellFounded.prod_lex Nat.lt_wfRel.wf
      (WellFounded.prod_lex Nat.lt_wfRel.wf Nat.lt_wfRel.wf)))

variable {c} {s t : RecoveryLadder}

theorem Shrinks.of_window (h : window c t < window c s) : Shrinks c t s := Prod.Lex.left _ _ h

theorem Shrinks.of_outside (hw : window c t = window c s) (h : outside t < outside s) : Shrinks c t s := by
  rw [Shrinks,hw]
  exact Prod.Lex.right _ (Prod.Lex.left _ _ h)

theorem Shrinks.of_middle (hw : window c t = window c s) (ho : outside t = outside s)
    (h : t.rawMiddle.length < s.rawMiddle.length) : Shrinks c t s := by
  rw [Shrinks,hw,ho]
  exact Prod.Lex.right _ (Prod.Lex.right _ (Prod.Lex.left _ _ h))

theorem Shrinks.of_attempt (hw : window c t = window c s) (ho : outside t = outside s)
    (hm : t.rawMiddle.length = s.rawMiddle.length) (h : t.attemptLen < s.attemptLen) : Shrinks c t s := by
  rw [Shrinks,hw,ho,hm]
  exact Prod.Lex.right _ (Prod.Lex.right _ (Prod.Lex.right _ h))

theorem splitOffFront_ne_nil {items : List LadderEntry} (h : hasNonSummary items = true) (count : ℕ) :
    (splitOffFront (count + 1) items).1 ≠ [] := by
  induction items with
  | nil => cases h
  | cons e rest ih =>
    rw [splitOffFront]
    split
    · rename_i hsummary
      rw [hasNonSummary,List.any_cons,hsummary] at h
      exact ih h
    · exact List.cons_ne_nil _ _

theorem splitOff_ne_nil {items : List LadderEntry} (h : hasNonSummary items = true) {count : ℕ} (hcount : 0 < count)
    (fromEnd : Bool) : (splitOffNonSummary items count fromEnd).1 ≠ [] := by
  obtain ⟨n,rfl⟩ := Nat.exists_eq_succ_of_ne_zero hcount.ne'
  cases fromEnd with
  | false => exact splitOffFront_ne_nil h n
  | true =>
    have hreverse : hasNonSummary items.reverse = true := by
      rw [hasNonSummary,List.any_reverse]
      exact h
    exact fun hnil => splitOffFront_ne_nil hreverse n (List.reverse_eq_nil_iff.mp hnil)

theorem refillChunk_pos (items : List LadderEntry) : 0 < refillChunk items := Nat.lt_of_lt_of_le Nat.one_pos (Nat.le_max_right _ _)

/-- A refill takes a turn that is no summary. -/
theorem splitOff_lt {items : List LadderEntry} (h : hasNonSummary items = true) (fromEnd : Bool) :
    (splitOffNonSummary items (refillChunk items) fromEnd).2.length < items.length ∧
      nonSummaryCount (splitOffNonSummary items (refillChunk items) fromEnd).2 < nonSummaryCount items := by
  have hperm : ((splitOffNonSummary items (refillChunk items) fromEnd).1 ++
      (splitOffNonSummary items (refillChunk items) fromEnd).2).Perm items := splitOff_perm
  have hpos := List.length_pos_iff.mpr (splitOff_ne_nil h (refillChunk_pos items) fromEnd)
  have hlength := hperm.length_eq
  have hcount := hperm.countP_eq fun e => !e.turn.isSummary
  have hall : (splitOffNonSummary items (refillChunk items) fromEnd).1.countP (fun e => !e.turn.isSummary) =
      (splitOffNonSummary items (refillChunk items) fromEnd).1.length := by
    refine List.countP_eq_length.mpr fun e he => ?_
    rw [(splitOff_removed e he).2]
    rfl
  rw [List.length_append] at hlength
  rw [List.countP_append,hall] at hcount
  exact ⟨by omega,by rw [nonSummaryCount,nonSummaryCount]; omega⟩

theorem shrinks_phase1 (h : stageRefillPhase1 c s = some t) : Shrinks c t s := by
  obtain ⟨hguard,h⟩ := Option.ite_none_right_eq_some.mp h
  cases h
  refine .of_outside rfl (Nat.add_lt_add_left (splitOff_lt ?_ false).1 _)
  exact (Bool.and_eq_true_iff.mp hguard).2

theorem shrinks_phase2 (h : stageRefillPhase2 c s = some t) : Shrinks c t s := by
  obtain ⟨hguard,h⟩ := Option.ite_none_right_eq_some.mp h
  cases h
  refine .of_outside rfl (Nat.add_lt_add_right (splitOff_lt ?_ true).2 _)
  exact (Bool.and_eq_true_iff.mp hguard).2

theorem window_refill (h : stageRefillPhase1 c s = some t ∨ stageRefillPhase2 c s = some t) : window c t = window c s := by
  rcases h with h | h
  · obtain ⟨-,h⟩ := Option.ite_none_right_eq_some.mp h
    cases h
    rfl
  · obtain ⟨-,h⟩ := Option.ite_none_right_eq_some.mp h
    cases h
    rfl

/-- The halved window is one that was not tried. -/
theorem shrinks_halveRoom (h : stageHalveRoom c s = some t) : Shrinks c t s := by
  obtain ⟨hroom,h⟩ := Option.ite_none_left_eq_some.mp h
  cases h
  have hlowered : window c (lowered c s) < window c s := by
    have hhalf : window c (lowered c s) = window c s / 2 := rfl
    have hlarge : reserved c s < window c s / 2 := Nat.not_le.mp hroom
    rw [hhalf]
    exact Nat.div_lt_self (by omega) (by omega)
  apply Shrinks.of_window
  cases h1 : stageRefillPhase1 c (lowered c s) with
  | some u => exact (window_refill (.inl h1)).trans_lt hlowered
  | none =>
    cases h2 : stageRefillPhase2 c (lowered c s) with
    | some u => exact (window_refill (.inr h2)).trans_lt hlowered
    | none => exact hlowered

/-- A fold takes at least one turn out of the middle, and only summaries out of the head. -/
theorem shrinks_fold (h : LadderInv s) (hmiddle : s.rawMiddle ≠ []) (content : Json) :
    Shrinks c (s.advanceStateAfterFold content) s := by
  have hattempt := h.attemptLen_pos hmiddle
  have hlength := List.length_pos_iff.mpr hmiddle
  refine .of_middle rfl ?_ ?_
  · have hhead : nonSummaryCount (s.advanceStateAfterFold content).head = nonSummaryCount s.head := by
      change List.countP _ (s.head.filter (fun e => !e.turn.isSummary) ++ [wrapSummary content s.offered]) = _
      rw [List.countP_append,List.countP_filter]
      simp [nonSummaryCount,wrapSummary]
    exact congrArg (· + s.tail.length) hhead
  · change (s.rawMiddle.drop s.attemptLen).length < _
    rw [List.length_drop]
    omega

/-- Without edits the slice is halved, and a slice longer than the middle takes turns of the tail. -/
theorem shrinks_halve (h : s.shrinkPoolAfterOverflow [] = some t) : Shrinks c t s := by
  rw [shrinkPoolAfterOverflow,if_pos rfl] at h
  obtain ⟨hlong,h⟩ := Option.ite_none_left_eq_some.mp h
  cases h
  have htail : (s.resplit (s.offered ++ s.tail) (max (s.attemptLen / 2) 1)).tail.length =
      min s.attemptLen s.rawMiddle.length + s.tail.length - s.attemptLen := by
    change ((s.offered ++ s.tail).drop s.attemptLen).length = _
    rw [List.length_drop,List.length_append,offered,List.length_take]
  have hmiddle : (s.resplit (s.offered ++ s.tail) (max (s.attemptLen / 2) 1)).rawMiddle.length =
      min s.attemptLen (min s.attemptLen s.rawMiddle.length + s.tail.length) + (s.rawMiddle.length - s.attemptLen) := by
    change ((s.offered ++ s.tail).take s.attemptLen ++ s.rawMiddle.drop s.attemptLen).length = _
    rw [List.length_append,List.length_take,List.length_append,offered,List.length_take,List.length_drop]
  have hattempt : (s.resplit (s.offered ++ s.tail) (max (s.attemptLen / 2) 1)).attemptLen = max (s.attemptLen / 2) 1 := rfl
  by_cases hshift : s.attemptLen ≤ s.rawMiddle.length ∨ s.tail = []
  · have hsame : s.attemptLen ≤ s.rawMiddle.length ∨ s.tail.length = 0 := hshift.imp_right fun h => by rw [h]; rfl
    refine .of_attempt rfl (congrArg (nonSummaryCount s.head + ·) ?_) ?_ ?_
    · rw [htail]
      omega
    · rw [hmiddle]
      omega
    · rw [hattempt]
      omega
  · obtain ⟨hlen,hne⟩ := not_or.mp hshift
    have hpos := List.length_pos_iff.mpr hne
    refine .of_outside rfl (Nat.add_lt_add_left ?_ _)
    rw [htail]
    omega

theorem shrinks_overflowed (h : step c s (.overflowed []) = some t) : Shrinks c t s := by
  rw [step] at h
  split at h
  · rcases Option.or_eq_some_iff.mp h with h | ⟨-,h⟩
    · exact shrinks_phase1 h
    · rcases Option.or_eq_some_iff.mp h with h | ⟨-,h⟩
      · exact shrinks_phase2 h
      · exact shrinks_halveRoom h
  · exact shrinks_halve h

end Measure

/-! ## Iterations end -/

section Termination
variable {R : Type} {c : LadderConfig} {calls : LadderCalls R} {s t : RecoveryLadder} {iteration : ℕ}

theorem shrinkEscalation_goOn (h : shrinkEscalation c calls iteration s = .goOn t) :
    step c s (.overflowed (spillEdits calls iteration s)) = some t := by
  rw [shrinkEscalation] at h
  split at h
  · rename_i hstep
    cases h
    exact hstep
  · cases h

theorem attemptMainCall_goOn (h : attemptMainCall c calls iteration s = .goOn t) :
    step c s (.overflowed (spillEdits calls iteration s)) = some t := by
  rw [attemptMainCall] at h
  split at h
  · cases h
  · exact shrinkEscalation_goOn h

/-- An iteration that goes on overflows, or folds, or folds and overflows. -/
theorem runOneIteration_goOn (h : runOneIteration c calls iteration s = .goOn t) :
    step c s (.overflowed (spillEdits calls iteration s)) = some t ∨
      ∃ content u, step c s (.summarized content) = some u ∧
        (t = u ∨ step c u (.overflowed (spillEdits calls iteration u)) = some t) := by
  rw [runOneIteration] at h
  split at h
  · exact .inl (attemptMainCall_goOn h)
  · rename_i hmiddle
    split at h
    · exact .inl (shrinkEscalation_goOn h)
    · rename_i content _
      refine .inr ⟨content,s.advanceStateAfterFold content,if_neg hmiddle,?_⟩
      split at h
      · exact .inr (attemptMainCall_goOn h)
      · cases h
        exact .inl rfl

theorem LadderInv.goOn (hinv : LadderInv s) (h : runOneIteration c calls iteration s = .goOn t) : LadderInv t := by
  rcases runOneIteration_goOn h with h | ⟨content,u,hu,rfl | h⟩
  · exact hinv.step h
  · exact hinv.step hu
  · exact (hinv.step hu).step h

theorem spillEdits_nil (h : ∀ offered, calls.spill iteration offered = []) (s : RecoveryLadder) :
    spillEdits calls iteration s = [] := by
  rw [spillEdits,h,List.map_nil]

theorem iteration_shrinks (hinv : LadderInv s) (hspill : ∀ offered, calls.spill iteration offered = [])
    (h : runOneIteration c calls iteration s = .goOn t) : Relation.TransGen (Shrinks c) t s := by
  have hfold : ∀ {content u}, RecoveryLadder.step c s (.summarized content) = some u → Shrinks c u s := by
    intro content u hu
    obtain ⟨hmiddle,hu⟩ := Option.ite_none_left_eq_some.mp hu
    cases hu
    exact shrinks_fold hinv hmiddle content
  rcases runOneIteration_goOn h with h | ⟨content,u,hu,rfl | h⟩
  · rw [spillEdits_nil hspill] at h
    exact .single (shrinks_overflowed h)
  · exact .single (hfold hu)
  · rw [spillEdits_nil hspill] at h
    exact (Relation.TransGen.single (shrinks_overflowed h)).tail (hfold hu)

theorem run_ends_of_no_spill (hinv : LadderInv s) (hspill : ∀ i, iteration ≤ i → ∀ offered, calls.spill i offered = []) :
    ∃ iterations r, run c calls iterations iteration s = some r := by
  induction s using (shrinks_wf c).transGen.induction generalizing iteration with
  | h s ih =>
    cases h : runOneIteration c calls iteration s with
    | ended r => exact ⟨1,r,by rw [run,h]⟩
    | goOn t =>
      have hlt := iteration_shrinks hinv (hspill iteration (Nat.le_refl _)) h
      obtain ⟨iterations,r,hr⟩ := ih t hlt (hinv.goOn h) fun i hi => hspill i (Nat.le_of_succ_le hi)
      exact ⟨iterations + 1,r,by rw [run,h]; exact hr⟩

/-- The spills of a run are over after some iterations. -/
theorem run_ends (hinv : LadderInv s) (later : ℕ)
    (hspill : ∀ i, iteration + later ≤ i → ∀ offered, calls.spill i offered = []) :
    ∃ iterations r, run c calls iterations iteration s = some r := by
  induction later generalizing iteration s with
  | zero => exact run_ends_of_no_spill hinv hspill
  | succ later ih =>
    cases h : runOneIteration c calls iteration s with
    | ended r => exact ⟨1,r,by rw [run,h]⟩
    | goOn t =>
      have hnext : ∀ i, iteration + 1 + later ≤ i → ∀ offered, calls.spill i offered = [] := fun i hi => hspill i (by omega)
      obtain ⟨iterations,r,hr⟩ := ih (hinv.goOn h) hnext
      exact ⟨iterations + 1,r,by rw [run,h]; exact hr⟩

theorem shrinkEscalation_response {r : R} : shrinkEscalation c calls iteration s ≠ .ended (.response r) := by
  intro h
  rw [shrinkEscalation] at h
  split at h <;> cases h

theorem attemptMainCall_response {r : R} (h : attemptMainCall c calls iteration s = .ended (.response r)) :
    ∃ head tail, calls.mainCall iteration head tail = some r := by
  rw [attemptMainCall] at h
  split at h
  · rename_i hr
    cases h
    exact ⟨_,_,hr⟩
  · exact absurd h shrinkEscalation_response

/-- What a run returns is the response of a call. -/
theorem run_response {iterations : ℕ} {r : R} (h : run c calls iterations iteration s = some (.response r)) :
    ∃ i head tail, calls.mainCall i head tail = some r := by
  induction iterations generalizing iteration s with
  | zero => cases h
  | succ n ih =>
    rw [run] at h
    split at h
    · exact ih h
    · rename_i hend
      cases h
      rw [runOneIteration] at hend
      split at hend
      · exact ⟨iteration,attemptMainCall_response hend⟩
      · split at hend
        · exact absurd hend shrinkEscalation_response
        · split at hend
          · exact ⟨iteration,attemptMainCall_response hend⟩
          · cases hend

/-- The edits are in range, so a middle is given up only when a single turn was offered and nothing spilled. -/
theorem shrinkPool_none_iff (iteration : ℕ) (s : RecoveryLadder) :
    s.shrinkPoolAfterOverflow (spillEdits calls iteration s) = none ↔ spillEdits calls iteration s = [] ∧ s.attemptLen ≤ 1 := by
  have hrange : ((spillEdits calls iteration s).all fun edit => edit.1 < (s.offered ++ s.tail).length) = true := by
    refine List.all_eq_true.mpr fun edit hedit => ?_
    obtain ⟨e,-,rfl⟩ := List.mem_map.mp hedit
    exact decide_eq_true (e.1.isLt.trans_eq (List.length_map _))
  by_cases hnil : spillEdits calls iteration s = []
  · rw [shrinkPoolAfterOverflow,if_pos hnil]
    by_cases hle : s.attemptLen ≤ 1
    · rw [if_pos hle]
      exact iff_of_true rfl ⟨hnil,hle⟩
    · rw [if_neg hle]
      exact iff_of_false (Option.some_ne_none _) fun h => hle h.2
  · rw [shrinkPoolAfterOverflow,if_neg hnil,if_pos hrange]
    exact iff_of_false (Option.some_ne_none _) fun h => hnil h.1

/-- Recovery ends when spills can edit only finitely often: with the response of a call, or at one of the floors. -/
theorem run_terminates (c : LadderConfig) (payload : RetryPayload) (calls : LadderCalls R)
    (hspill : {i | ∃ offered, calls.spill i offered ≠ []}.Finite) : ∃ iterations,
      (∃ r i head tail, run c calls iterations 0 (start c payload) = some (.response r) ∧ calls.mainCall i head tail = some r) ∨
        ∃ terminal, run c calls iterations 0 (start c payload) = some (.unrecovered terminal) := by
  obtain ⟨bound,hbound⟩ := hspill.bddAbove
  have hlater : ∀ i, 0 + (bound + 1) ≤ i → ∀ offered, calls.spill i offered = [] := by
    intro i hi offered
    by_contra hne
    have hle : i ≤ bound := hbound ⟨offered,hne⟩
    omega
  obtain ⟨iterations,r,hr⟩ := run_ends (LadderInv.start payload) (bound + 1) hlater
  refine ⟨iterations,?_⟩
  cases r with
  | response r =>
    obtain ⟨i,head,tail,hcall⟩ := run_response hr
    exact .inl ⟨r,i,head,tail,hr,hcall⟩
  | unrecovered terminal => exact .inr ⟨terminal,hr⟩

/-- Every call overflows and nothing is spilled. -/
def overflowing : LadderCalls Unit := ⟨fun _ _ => none,fun _ _ _ => none,fun _ _ => []⟩

theorem overflowing_terminates : ∃ iterations,
    (∃ r i head tail, run sampleLadder overflowing iterations 0 (start sampleLadder ⟨[plainTurn],[],[plainTurn]⟩) =
        some (.response r) ∧ overflowing.mainCall i head tail = some r) ∨
      ∃ terminal, run sampleLadder overflowing iterations 0 (start sampleLadder ⟨[plainTurn],[],[plainTurn]⟩) =
        some (.unrecovered terminal) :=
  run_terminates sampleLadder ⟨[plainTurn],[],[plainTurn]⟩ overflowing
    (Set.finite_empty.subset fun _ h => h.elim fun _ hne => hne rfl)

end Termination
end RecoveryLadder
end Reyn
