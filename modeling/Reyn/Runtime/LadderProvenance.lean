import Reyn.Runtime.RecoveryLadder

/-! # Where the turns of a recovery go

Every move of the ladder only rearranges what its entries stand for, except a fold: it
drops the summaries of the head from the account, for they were not among the turns it
was offered. So a call of the model sees the whole payload exactly when no fold so far
has found a summary in the head.
-/
namespace Reyn
open Py Transition

namespace RecoveryLadder

/-- All that the entries stand for. -/
def sources (s : RecoveryLadder) : List ℕ := (s.head ++ s.rawMiddle ++ s.tail).flatMap (·.origin.stands)

/-- What the fold of a summary takes out of the account. -/
def dropped (s : RecoveryLadder) : LadderAction → List ℕ
  | .summarized _ => (s.head.filter (·.turn.isSummary)).flatMap (·.origin.stands)
  | .overflowed _ => []

/-- No fold finds a summary in the head. -/
def FoldsCleanly (c : LadderConfig) : RecoveryLadder → List LadderAction → Prop
  | _, [] => True
  | s, a :: rest => ((∃ content, a = .summarized content) → s.head.any (·.turn.isSummary) = false) ∧
    ∀ t, step c s a = some t → FoldsCleanly c t rest

/-- What a call of the model sees: each of the first `total` turns is sent, itself or its spilled
replacement, or a summary in the head was made of it; and the turns that are sent are in
their order. -/
structure Intact (total : ℕ) (s : RecoveryLadder) : Prop where
  present : ∀ i < total, (∃ e ∈ s.head ++ s.tail, e.origin = .initial i) ∨
    ∃ e ∈ s.head, e.turn.isSummary = true ∧ ∃ reads, e.origin = .fold reads ∧ i ∈ reads
  ordered : ((s.head ++ s.tail).filterMap (·.origin.index?)).Pairwise (· < ·)

structure LadderInv (s : RecoveryLadder) : Prop where
  attempt : ∀ k, s.compactAttemptLen = some k → 0 < k
  stands : ∀ e ∈ s.head ++ s.rawMiddle ++ s.tail, e.origin.stands ≠ []
  verbatim : ∀ e ∈ s.rawMiddle ++ s.tail, ∃ i, e.origin = .initial i
  marked : ∀ e ∈ s.head, e.turn.isSummary = false → ∃ i, e.origin = .initial i
  ordered : ((s.head ++ s.tail).filterMap (·.origin.index?)).Pairwise (· < ·)

/-! ## Moves -/

section Moves

theorem splitOffFront_perm (count : ℕ) (items : List LadderEntry) :
    ((splitOffFront count items).1 ++ (splitOffFront count items).2).Perm items := by
  induction items generalizing count with
  | nil => cases count <;> exact List.Perm.refl _
  | cons e rest ih =>
    cases count with
    | zero => exact List.Perm.refl _
    | succ count =>
      rw [splitOffFront]
      split
      · exact List.perm_middle.trans ((ih (count + 1)).cons e)
      · exact (ih count).cons e

theorem splitOffFront_sublist (count : ℕ) (items : List LadderEntry) : (splitOffFront count items).2.Sublist items := by
  induction items generalizing count with
  | nil => cases count <;> exact List.Sublist.refl _
  | cons e rest ih =>
    cases count with
    | zero => exact List.Sublist.refl _
    | succ count =>
      rw [splitOffFront]
      split
      · exact (ih (count + 1)).cons_cons e
      · exact (ih count).cons e

theorem splitOffFront_removed (count : ℕ) (items : List LadderEntry) :
    ∀ e ∈ (splitOffFront count items).1, e ∈ items ∧ e.turn.isSummary = false := by
  induction items generalizing count with
  | nil => cases count <;> simp [splitOffFront]
  | cons e rest ih =>
    cases count with
    | zero => simp [splitOffFront]
    | succ count =>
      rw [splitOffFront]
      split
      · intro x hx
        obtain ⟨hmem,hx⟩ := ih _ x hx
        exact ⟨List.mem_cons_of_mem _ hmem,hx⟩
      · rename_i hsummary
        intro x hx
        rcases List.mem_cons.mp hx with rfl | hx
        · exact ⟨List.mem_cons_self,by simpa using hsummary⟩
        · obtain ⟨hmem,hx⟩ := ih _ x hx
          exact ⟨List.mem_cons_of_mem _ hmem,hx⟩

variable {items : List LadderEntry} {count : ℕ} {fromEnd : Bool}

theorem splitOff_perm : ((splitOffNonSummary items count fromEnd).1 ++ (splitOffNonSummary items count fromEnd).2).Perm items := by
  rw [splitOffNonSummary]
  split
  · refine List.Perm.trans ?_ ((splitOffFront_perm count items.reverse).trans (List.reverse_perm items))
    exact (List.reverse_perm _).append (List.reverse_perm _)
  · exact splitOffFront_perm count items

theorem splitOff_sublist : (splitOffNonSummary items count fromEnd).2.Sublist items := by
  rw [splitOffNonSummary]
  split
  · have h := (splitOffFront_sublist count items.reverse).reverse
    rwa [List.reverse_reverse] at h
  · exact splitOffFront_sublist count items

/-- What is split off is no summary. -/
theorem splitOff_removed : ∀ e ∈ (splitOffNonSummary items count fromEnd).1, e ∈ items ∧ e.turn.isSummary = false := by
  rw [splitOffNonSummary]
  split
  · intro e he
    obtain ⟨hmem,he⟩ := splitOffFront_removed _ _ e (List.mem_reverse.mp he)
    exact ⟨List.mem_reverse.mp hmem,he⟩
  · exact splitOffFront_removed _ _

theorem modify_origin (pool : List LadderEntry) (i : ℕ) (turn : WireTurn) :
    (pool.modify i fun e => { e with turn := turn }).map (·.origin) = pool.map (·.origin) := by
  induction pool generalizing i with
  | nil => simp
  | cons e rest ih =>
    cases i with
    | zero => rfl
    | succ i =>
      rw [List.modify_succ_cons,List.map_cons,List.map_cons,ih]

/-- An edit leaves alone where an entry comes from. -/
theorem applyEdits_origin (pool : List LadderEntry) (edits : List (ℕ × WireTurn)) :
    (applyEdits pool edits).map (·.origin) = pool.map (·.origin) := by
  induction edits generalizing pool with
  | nil => rfl
  | cons edit rest ih => exact (ih _).trans (modify_origin pool edit.1 edit.2)

end Moves

/-- The entries of the one ladder are those of the other in other places: out of the head go turns
that are no summaries, and nothing comes into the windows. -/
structure Rearranged (s t : RecoveryLadder) : Prop where
  perm : ((t.head ++ t.rawMiddle ++ t.tail).map (·.origin)).Perm ((s.head ++ s.rawMiddle ++ s.tail).map (·.origin))
  head : t.head.Sublist s.head
  tail : (t.tail.map (·.origin)).Sublist (s.tail.map (·.origin))
  middle : ∀ e ∈ t.rawMiddle ++ t.tail, ∃ e' ∈ s.head.filter (fun e => !e.turn.isSummary) ++ (s.rawMiddle ++ s.tail),
    e'.origin = e.origin
  attempt : ∀ k, t.compactAttemptLen = some k → s.compactAttemptLen = some k ∨ 0 < k

section Steps
variable {c : LadderConfig} {s t : RecoveryLadder} {pool : List LadderEntry}

theorem sources_eq (s : RecoveryLadder) :
    s.sources = ((s.head ++ s.rawMiddle ++ s.tail).map (·.origin)).flatMap (·.stands) := by
  rw [sources,List.flatMap_map]

theorem Rearranged.sources (h : Rearranged s t) : s.sources.Perm t.sources := by
  rw [sources_eq,sources_eq]
  exact (h.perm.flatMap_right _).symm

theorem index_eq (items : List LadderEntry) :
    items.filterMap (·.origin.index?) = (items.map (·.origin)).filterMap (·.index?) := by
  rw [List.filterMap_map]
  rfl

theorem LadderInv.rearranged (h : LadderInv s) (hr : Rearranged s t) : LadderInv t where
  attempt := by
    intro k hk
    rcases hr.attempt k hk with hs | hpos
    · exact h.attempt k hs
    · exact hpos
  stands := by
    intro e he
    obtain ⟨e',he',horigin⟩ := List.mem_map.mp (hr.perm.subset (List.mem_map_of_mem he))
    rw [← horigin]
    exact h.stands e' he'
  verbatim := by
    intro e he
    obtain ⟨e',he',horigin⟩ := hr.middle e he
    rw [← horigin]
    rcases List.mem_append.mp he' with he' | he'
    · obtain ⟨hmem,hplain⟩ := List.mem_filter.mp he'
      exact h.marked e' hmem (by simpa using hplain)
    · exact h.verbatim e' he'
  marked := fun e he => h.marked e (hr.head.subset he)
  ordered := by
    rw [index_eq,List.map_append]
    refine List.Pairwise.sublist (List.Sublist.filterMap _ ((hr.head.map _).append hr.tail)) ?_
    rw [← List.map_append,← index_eq]
    exact h.ordered

theorem LadderInv.attemptLen_pos (h : LadderInv s) (hmiddle : s.rawMiddle ≠ []) : 0 < s.attemptLen := by
  rw [attemptLen]
  cases hk : s.compactAttemptLen with
  | none => exact List.length_pos_iff.mpr hmiddle
  | some k => exact h.attempt k hk

theorem rearranged_phase1 (h : stageRefillPhase1 c s = some t) : Rearranged s t := by
  obtain ⟨-,h⟩ := Option.ite_none_right_eq_some.mp h
  cases h
  have hperm : ((splitOffNonSummary s.tail (refillChunk s.tail) false).1 ++
      (splitOffNonSummary s.tail (refillChunk s.tail) false).2).Perm s.tail := splitOff_perm
  refine ⟨?_,List.Sublist.refl _,splitOff_sublist.map _,fun e he => ?_,fun k hk => .inl hk⟩
  · refine List.Perm.map _ ?_
    rw [← List.append_assoc,List.append_assoc (s.head ++ s.rawMiddle)]
    exact hperm.append_left _
  · rw [List.append_assoc] at he
    refine ⟨e,List.mem_append_right _ ?_,rfl⟩
    rcases List.mem_append.mp he with he | he
    · exact List.mem_append_left _ he
    · exact List.mem_append_right _ (hperm.subset he)

theorem rearranged_phase2 (h : stageRefillPhase2 c s = some t) : Rearranged s t := by
  obtain ⟨-,h⟩ := Option.ite_none_right_eq_some.mp h
  cases h
  have hperm : ((splitOffNonSummary s.head (refillChunk s.head) true).1 ++
      (splitOffNonSummary s.head (refillChunk s.head) true).2).Perm s.head := splitOff_perm
  refine ⟨?_,splitOff_sublist,List.Sublist.refl _,fun e he => ?_,by rintro k ⟨⟩⟩
  · refine List.Perm.map _ (List.Perm.append_right _ ?_)
    rw [← List.append_assoc]
    exact (List.perm_append_comm.trans hperm).append_right _
  · rw [List.append_assoc] at he
    rcases List.mem_append.mp he with he | he
    · obtain ⟨hmem,hplain⟩ := splitOff_removed e he
      exact ⟨e,List.mem_append_left _ (List.mem_filter.mpr ⟨hmem,by simp [hplain]⟩),rfl⟩
    · exact ⟨e,List.mem_append_right _ he,rfl⟩

theorem rearranged_resplit (hpool : pool.map (·.origin) = (s.offered ++ s.tail).map (·.origin)) {k : ℕ} (hk : 0 < k) :
    Rearranged s (s.resplit pool k) := by
  have htail : (pool.drop s.attemptLen).map (·.origin) = (s.tail.drop (s.attemptLen - s.offered.length)).map (·.origin) := by
    have hoffered : s.offered.drop s.attemptLen = [] := List.drop_eq_nil_of_le (List.length_take_le _ _)
    rw [List.map_drop,hpool,← List.map_drop,List.drop_append,hoffered,List.nil_append]
  refine ⟨?_,List.Sublist.refl _,?_,fun e he => ?_,?_⟩
  · have hswap : (pool.take s.attemptLen ++ s.rawMiddle.drop s.attemptLen ++ pool.drop s.attemptLen).Perm
        (pool ++ s.rawMiddle.drop s.attemptLen) := by
      have h : (s.rawMiddle.drop s.attemptLen ++ pool.drop s.attemptLen).Perm
          (pool.drop s.attemptLen ++ s.rawMiddle.drop s.attemptLen) := List.perm_append_comm
      have h' := h.append_left (pool.take s.attemptLen)
      rwa [← List.append_assoc,← List.append_assoc,List.take_append_drop] at h'
    have hback : ((s.offered ++ s.tail) ++ s.rawMiddle.drop s.attemptLen).Perm (s.rawMiddle ++ s.tail) := by
      have h : (s.tail ++ s.rawMiddle.drop s.attemptLen).Perm (s.rawMiddle.drop s.attemptLen ++ s.tail) :=
        List.perm_append_comm
      have h' := h.append_left s.offered
      rwa [← List.append_assoc,← List.append_assoc,offered,List.take_append_drop] at h'
    have hrest : ((pool.take s.attemptLen ++ s.rawMiddle.drop s.attemptLen ++ pool.drop s.attemptLen).map (·.origin)).Perm
        ((s.rawMiddle ++ s.tail).map (·.origin)) := by
      refine (hswap.map _).trans ?_
      rw [List.map_append,hpool,← List.map_append]
      exact hback.map _
    have h := hrest.append_left (s.head.map (·.origin))
    show ((s.head ++ (pool.take s.attemptLen ++ s.rawMiddle.drop s.attemptLen) ++
      pool.drop s.attemptLen).map (·.origin)).Perm _
    simpa only [← List.map_append,← List.append_assoc] using h
  · show ((pool.drop s.attemptLen).map (·.origin)).Sublist _
    rw [htail]
    exact (List.drop_sublist _ _).map _
  · have hmiddle : e ∈ pool ∨ e ∈ s.rawMiddle := by
      rcases List.mem_append.mp he with he | he
      · exact (List.mem_append.mp he).imp List.mem_of_mem_take List.mem_of_mem_drop
      · exact .inl (List.mem_of_mem_drop he)
    rcases hmiddle with he | he
    · have horigin : e.origin ∈ (s.offered ++ s.tail).map (·.origin) := by
        rw [← hpool]
        exact List.mem_map_of_mem he
      obtain ⟨e',he',horigin⟩ := List.mem_map.mp horigin
      refine ⟨e',List.mem_append_right _ ?_,horigin⟩
      exact List.mem_append.mpr ((List.mem_append.mp he').imp List.mem_of_mem_take id)
    · exact ⟨e,List.mem_append_right _ (List.mem_append_left _ he),rfl⟩
  · rintro _ ⟨⟩
    exact .inr hk

theorem rearranged_halveRoom (h : stageHalveRoom c s = some t) : Rearranged s t := by
  obtain ⟨-,h⟩ := Option.ite_none_left_eq_some.mp h
  cases h
  have hsame : Rearranged s (lowered c s) :=
    ⟨List.Perm.refl _,List.Sublist.refl _,List.Sublist.refl _,
      fun e he => ⟨e,List.mem_append_right _ he,rfl⟩,fun k hk => .inl hk⟩
  -- the floors have no say in where the entries are
  have hlowered : ∀ {t}, Rearranged (lowered c s) t → Rearranged s t := fun h => ⟨h.perm,h.head,h.tail,h.middle,h.attempt⟩
  cases h1 : stageRefillPhase1 c (lowered c s) with
  | some u => exact hlowered (rearranged_phase1 h1)
  | none =>
    cases h2 : stageRefillPhase2 c (lowered c s) with
    | some u => exact hlowered (rearranged_phase2 h2)
    | none => exact hsame

/-- Whatever an overflow leads to, the entries are only rearranged. -/
theorem rearranged_overflowed (h : LadderInv s) {edits : List (ℕ × WireTurn)} (ht : step c s (.overflowed edits) = some t) :
    Rearranged s t := by
  rw [step] at ht
  split at ht
  · rcases Option.or_eq_some_iff.mp ht with h1 | ⟨-,ht⟩
    · exact rearranged_phase1 h1
    · rcases Option.or_eq_some_iff.mp ht with h2 | ⟨-,h3⟩
      · exact rearranged_phase2 h2
      · exact rearranged_halveRoom h3
  · rename_i hmiddle
    rw [shrinkPoolAfterOverflow] at ht
    split at ht
    · obtain ⟨-,ht⟩ := Option.ite_none_left_eq_some.mp ht
      cases ht
      exact rearranged_resplit rfl (Nat.lt_of_lt_of_le Nat.one_pos (le_max_right _ _))
    · obtain ⟨-,ht⟩ := Option.ite_none_right_eq_some.mp ht
      cases ht
      exact rearranged_resplit (applyEdits_origin _ _) (h.attemptLen_pos hmiddle)

/-- A fold replaces what it was offered by its summary, and drops the summaries of the head. -/
theorem sources_fold (s : RecoveryLadder) (content : Json) :
    s.sources.Perm (s.dropped (.summarized content) ++ (s.advanceStateAfterFold content).sources) := by
  have hhead : (s.head.flatMap (·.origin.stands)).Perm
      ((s.head.filter (·.turn.isSummary)).flatMap (·.origin.stands) ++
        (s.head.filter fun e => !e.turn.isSummary).flatMap (·.origin.stands)) := by
    rw [← List.flatMap_append]
    exact ((List.filter_append_perm _ _).flatMap_right _).symm
  have hmiddle : s.rawMiddle.flatMap (·.origin.stands) =
      s.offered.flatMap (·.origin.stands) ++ (s.rawMiddle.drop s.attemptLen).flatMap (·.origin.stands) := by
    rw [← List.flatMap_append,offered,List.take_append_drop]
  have hfresh : [wrapSummary content s.offered].flatMap (·.origin.stands) = s.offered.flatMap (·.origin.stands) :=
    List.append_nil _
  simp only [sources,dropped,advanceStateAfterFold,List.flatMap_append,hfresh,hmiddle]
  simp only [← List.append_assoc]
  exact ((hhead.append_right _).append_right _).append_right _

theorem step_sources (h : LadderInv s) {a : LadderAction} (ht : step c s a = some t) :
    s.sources.Perm (s.dropped a ++ t.sources) := by
  cases a with
  | summarized content =>
    obtain ⟨-,ht⟩ := Option.ite_none_left_eq_some.mp ht
    cases ht
    exact sources_fold s content
  | overflowed edits => exact (rearranged_overflowed h ht).sources

theorem LadderInv.fold (h : LadderInv s) (hmiddle : s.rawMiddle ≠ []) (content : Json) :
    LadderInv (s.advanceStateAfterFold content) where
  attempt := by
    intro k hk
    have hlen := h.attemptLen_pos hmiddle
    simp only [advanceStateAfterFold] at hk
    split at hk
    · exact h.attempt k hk
    · rename_i hrest
      cases hk
      exact lt_min (Nat.mul_pos hlen Nat.two_pos) (List.length_pos_iff.mpr hrest)
  stands := by
    intro e he
    rcases List.mem_append.mp he with he | he
    · rcases List.mem_append.mp he with he | he
      · rcases List.mem_append.mp he with he | he
        · exact h.stands e (List.mem_append_left _ (List.mem_append_left _ (List.mem_of_mem_filter he)))
        · rw [List.mem_singleton.mp he]
          -- a fold reads at least one turn
          obtain ⟨x,rest,hx⟩ := List.exists_cons_of_ne_nil hmiddle
          obtain ⟨n,hn⟩ := Nat.exists_eq_succ_of_ne_zero (h.attemptLen_pos hmiddle).ne'
          have hoffered : x ∈ s.offered := by
            rw [offered,hx,hn]
            exact List.mem_cons_self
          have hmem : x ∈ s.head ++ s.rawMiddle ++ s.tail :=
            List.mem_append_left _ (List.mem_append_right _ (List.mem_of_mem_take hoffered))
          obtain ⟨i,hi⟩ := List.exists_mem_of_ne_nil _ (h.stands x hmem)
          exact List.ne_nil_of_mem (List.mem_flatMap.mpr ⟨x,hoffered,hi⟩)
      · exact h.stands e (List.mem_append_left _ (List.mem_append_right _ (List.mem_of_mem_drop he)))
    · exact h.stands e (List.mem_append_right _ he)
  verbatim := by
    intro e he
    rcases List.mem_append.mp he with he | he
    · exact h.verbatim e (List.mem_append_left _ (List.mem_of_mem_drop he))
    · exact h.verbatim e (List.mem_append_right _ he)
  marked := by
    intro e he hplain
    rcases List.mem_append.mp he with he | he
    · exact h.marked e (List.mem_of_mem_filter he) hplain
    · rw [List.mem_singleton.mp he] at hplain
      cases hplain
  ordered := by
    have hsub : ((s.head.filter (fun e => !e.turn.isSummary) ++ [wrapSummary content s.offered] ++ s.tail).filterMap
        (·.origin.index?)).Sublist ((s.head ++ s.tail).filterMap (·.origin.index?)) := by
      rw [List.filterMap_append,List.filterMap_append,List.filterMap_append,
        show [wrapSummary content s.offered].filterMap (·.origin.index?) = [] from rfl,List.append_nil]
      exact (List.filter_sublist.filterMap _).append (List.Sublist.refl _)
    exact h.ordered.sublist hsub

theorem LadderInv.step (h : LadderInv s) {a : LadderAction} (ht : step c s a = some t) : LadderInv t := by
  cases a with
  | summarized content =>
    obtain ⟨hmiddle,ht⟩ := Option.ite_none_left_eq_some.mp ht
    cases ht
    exact h.fold hmiddle content
  | overflowed edits => exact h.rearranged (rearranged_overflowed h ht)

/-- A fold takes nothing out of the account just when the head holds no summary. -/
theorem dropped_eq_nil_iff (h : LadderInv s) (a : LadderAction) :
    s.dropped a = [] ↔ ((∃ content, a = .summarized content) → s.head.any (·.turn.isSummary) = false) := by
  cases a with
  | overflowed edits => simp [dropped]
  | summarized content =>
    simp only [dropped,LadderAction.summarized.injEq,exists_eq',true_implies,List.any_eq_false]
    constructor
    · intro hnil e he hsummary
      refine h.stands e (List.mem_append_left _ (List.mem_append_left _ he)) ?_
      exact List.flatMap_eq_nil_iff.mp hnil e (List.mem_filter.mpr ⟨he,hsummary⟩)
    · intro hclean
      rw [List.filter_eq_nil_iff.mpr hclean,List.flatMap_nil]

/-- What a run of the ladder takes out of the account, and that this is nothing just when it folds cleanly. -/
theorem runAll_sources (h : LadderInv s) {actions : List LadderAction} (ht : runAll (step c) s actions = some t) :
    LadderInv t ∧ ∃ lost, s.sources.Perm (lost ++ t.sources) ∧ (lost = [] ↔ FoldsCleanly c s actions) := by
  induction actions generalizing s with
  | nil =>
    cases ht
    exact ⟨h,[],List.Perm.refl _,iff_of_true rfl trivial⟩
  | cons a rest ih =>
    obtain ⟨u,hu,hrest⟩ := Option.bind_eq_some_iff.mp ht
    obtain ⟨hinv,lost,hperm,hlost⟩ := ih (h.step hu) hrest
    refine ⟨hinv,s.dropped a ++ lost,?_,?_⟩
    · rw [List.append_assoc]
      exact (step_sources h hu).trans (hperm.append_left _)
    · rw [List.append_eq_nil_iff,dropped_eq_nil_iff h,hlost,FoldsCleanly]
      refine and_congr_right fun _ => ⟨fun hclean v hv => ?_,fun hclean => hclean u hu⟩
      rw [hu] at hv
      cases hv
      exact hclean

end Steps

/-! ## The payload -/

section Payload
variable {c : LadderConfig} {s : RecoveryLadder}

theorem numbered_append (first : ℕ) (xs ys : List WireTurn) :
    numbered first xs ++ numbered (first + xs.length) ys = numbered first (xs ++ ys) := by
  rw [numbered,numbered,numbered,List.zipIdx_append,List.map_append]

theorem numbered_sources (first : ℕ) (turns : List WireTurn) :
    (numbered first turns).flatMap (·.origin.stands) = List.range' first turns.length := by
  induction turns generalizing first with
  | nil => rfl
  | cons turn rest ih =>
    rw [List.length_cons,List.range'_succ,← ih]
    rfl

theorem start_entries (payload : RetryPayload) : (start c payload).head ++ (start c payload).rawMiddle ++
    (start c payload).tail = numbered 0 (payload.head ++ payload.rawMiddle ++ payload.tail) := by
  have h1 := numbered_append 0 payload.head payload.rawMiddle
  have h2 := numbered_append 0 (payload.head ++ payload.rawMiddle) payload.tail
  rw [Nat.zero_add] at h1 h2
  rw [List.length_append] at h2
  rw [← h2,← h1]
  rfl

theorem start_sources (payload : RetryPayload) : (start c payload).sources = List.range payload.total := by
  rw [sources,start_entries,numbered_sources,List.range_eq_range']
  simp [RetryPayload.total,Nat.add_assoc]

theorem numbered_indices (first : ℕ) (turns : List WireTurn) :
    (numbered first turns).filterMap (·.origin.index?) = List.range' first turns.length := by
  induction turns generalizing first with
  | nil => rfl
  | cons turn rest ih =>
    rw [List.length_cons,List.range'_succ,← ih]
    rfl

theorem numbered_origin {first : ℕ} {turns : List WireTurn} {e : LadderEntry} (he : e ∈ numbered first turns) :
    ∃ i, e.origin = .initial i := by
  obtain ⟨p,-,rfl⟩ := List.mem_map.mp he
  exact ⟨p.2,rfl⟩

theorem LadderInv.start (payload : RetryPayload) : LadderInv (start c payload) where
  attempt := by rintro k ⟨⟩
  stands := by
    intro e he
    rw [start_entries] at he
    obtain ⟨i,hi⟩ := numbered_origin he
    rw [hi]
    exact List.cons_ne_nil i []
  verbatim := by
    intro e he
    exact (List.mem_append.mp he).elim numbered_origin numbered_origin
  marked := fun e he _ => numbered_origin he
  ordered := by
    have hsub : ((RecoveryLadder.start c payload).head ++ (RecoveryLadder.start c payload).tail).Sublist
        (numbered 0 (payload.head ++ payload.rawMiddle ++ payload.tail)) := by
      rw [← start_entries (c := c)]
      exact (List.sublist_append_left _ _).append (List.Sublist.refl _)
    refine List.Pairwise.sublist (hsub.filterMap _) ?_
    rw [numbered_indices]
    exact List.pairwise_lt_range'

/-- At a call of the model an index is accounted for when it is sent, or a summary in the head has read it. -/
theorem mem_sources_iff (h : LadderInv s) (hcall : s.rawMiddle = []) {i : ℕ} : i ∈ s.sources ↔
    (∃ e ∈ s.head ++ s.tail, e.origin = .initial i) ∨
      ∃ e ∈ s.head, e.turn.isSummary = true ∧ ∃ reads, e.origin = .fold reads ∧ i ∈ reads := by
  rw [sources,hcall,List.append_nil,List.mem_flatMap]
  constructor
  · rintro ⟨e,he,hi⟩
    cases horigin : e.origin with
    | initial j =>
      rw [horigin] at hi
      rw [List.mem_singleton.mp hi]
      exact .inl ⟨e,he,horigin⟩
    | fold reads =>
      rw [horigin] at hi
      have hnot : ∀ j, e.origin ≠ .initial j := by simp [horigin]
      rcases List.mem_append.mp he with he | he
      · cases hsummary : e.turn.isSummary with
        | true => exact .inr ⟨e,he,hsummary,reads,horigin,hi⟩
        | false =>
          obtain ⟨j,hj⟩ := h.marked e he hsummary
          exact absurd hj (hnot j)
      · obtain ⟨j,hj⟩ := h.verbatim e (List.mem_append_right _ he)
        exact absurd hj (hnot j)
  · rintro (⟨e,he,horigin⟩ | ⟨e,he,-,reads,horigin,hi⟩)
    · refine ⟨e,he,?_⟩
      rw [horigin]
      exact List.mem_singleton_self i
    · refine ⟨e,List.mem_append_left _ he,?_⟩
      rw [horigin]
      exact hi

/-- No content is dropped at a call of the model just when no fold on the way to it has found a
summary in the head. -/
theorem main_call_intact_iff (payload : RetryPayload) {actions : List LadderAction}
    (hrun : runAll (step c) (start c payload) actions = some s) (hcall : s.rawMiddle = []) :
    Intact payload.total s ↔ FoldsCleanly c (start c payload) actions := by
  obtain ⟨hinv,lost,hperm,hlost⟩ := runAll_sources (LadderInv.start payload) hrun
  rw [start_sources] at hperm
  rw [← hlost]
  constructor
  · intro hintact
    refine List.eq_nil_iff_forall_not_mem.mpr fun i hi => ?_
    have hlt : i < payload.total := List.mem_range.mp (hperm.mem_iff.mpr (List.mem_append_left _ hi))
    have hmem := (mem_sources_iff hinv hcall).mpr (hintact.present i hlt)
    -- every index is accounted for once, so what was dropped is nowhere else
    have hnodup := hperm.nodup_iff.mp List.nodup_range
    exact (List.nodup_append.mp hnodup).2.2 i hi i hmem rfl
  · rintro rfl
    refine ⟨fun i hi => (mem_sources_iff hinv hcall).mp ?_,hinv.ordered⟩
    exact hperm.mem_iff.mp (List.mem_range.mpr hi)

/-! ## A summary in the head -/

def sampleLadder : LadderConfig := ⟨fun _ => 1,0,0,8,4,4,fun room => room / 2⟩

def plainTurn : WireTurn := ⟨false,.null⟩

/-- The head starts with the summary of earlier folds. -/
def summaryFirst : RetryPayload := ⟨[⟨true,.null⟩],[plainTurn],[plainTurn]⟩

/-- A turn of the middle is folded and the model called. -/
theorem main_call_intact_iff_folded : ∃ s,
    runAll (step sampleLadder) (start sampleLadder ⟨[plainTurn],[plainTurn],[plainTurn]⟩) [.summarized .null] = some s ∧
    Intact 3 s := by
  have hrun : runAll (step sampleLadder) (start sampleLadder ⟨[plainTurn],[plainTurn],[plainTurn]⟩) [.summarized .null] =
      some _ := rfl
  refine ⟨_,hrun,(main_call_intact_iff ⟨[plainTurn],[plainTurn],[plainTurn]⟩ hrun rfl).mpr ?_⟩
  exact ⟨fun _ => rfl,fun t _ => trivial⟩

/-- The fold of one turn drops the summary in the head, of which nothing is sent then. -/
theorem summary_first_dropped : ∃ s,
    runAll (step sampleLadder) (start sampleLadder summaryFirst) [.summarized .null] = some s ∧
    s.rawMiddle = [] ∧ ¬ Intact summaryFirst.total s := by
  refine ⟨_,rfl,rfl,fun hintact => ?_⟩
  rcases hintact.present 0 (by decide) with ⟨e,he,horigin⟩ | ⟨e,he,-,reads,horigin,hi⟩
  · revert e
    decide
  · have hmem : e ∈ [wrapSummary .null [⟨plainTurn,.initial 1⟩]] := he
    rw [List.mem_singleton.mp hmem] at horigin
    cases horigin
    revert hi
    decide

end Payload
end RecoveryLadder
end Reyn
