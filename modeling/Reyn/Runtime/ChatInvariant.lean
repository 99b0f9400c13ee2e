import Reyn.Runtime.ChatSession

/-! # What every run of a chat session keeps

The file is in increasing order of its sequence numbers and of its anchors, and the
resident history is a final part of it. Whether an anchor is on the active branch is
time travel: below an anchor that is, the branch is what it was at that anchor.
-/
namespace Reyn
open Py TimeTravel Transition

namespace ChatSession

def logHead (log : Option Wal) : ℕ := (log.map (·.head)).getD 0

/-- The anchor `a` is on the lineage of the position `g`. -/
def StandsAt (log : Option Wal) (key : SessionKey) (g a : ℕ) : Prop :=
  a = 0 ∨ ∀ w, log = some w → a ∈ (w.resets (some key)).lineage g

section Stands
variable {log : Option Wal} {key : SessionKey} {g h a : ℕ}

theorem isActive_zero (w : Wal) (scope : Scope) : w.isActive scope 0 = true := by
  simp [Wal.isActive,makeIsActive,isInside]

theorem anchorActive_iff {x : Option ℕ} (hx : x.getD 0 ≤ logHead log) :
    anchorActive log key x = true ↔ StandsAt log key (logHead log) (x.getD 0) := by
  cases x with
  | none => exact ⟨fun _ => .inl rfl,fun _ => rfl⟩
  | some a =>
    cases log with
    | none =>
      refine ⟨fun _ => .inr ?_,fun _ => rfl⟩
      rintro w ⟨⟩
    | some w =>
      rw [anchorActive,Option.all_some]
      rcases Nat.eq_zero_or_pos a with rfl | hpos
      · exact ⟨fun _ => .inl rfl,fun _ => isActive_zero w _⟩
      · rw [w.isActive_iff (some key) hpos hx]
        constructor
        · intro hmem
          refine .inr ?_
          rintro _ ⟨⟩
          exact hmem
        · rintro (rfl | hmem)
          · exact absurd hpos (Nat.lt_irrefl 0)
          · exact hmem w rfl

theorem StandsAt.snoc {w : Wal} {l : WalLine} (hl : w.head < l.seq) (hg : g ≤ w.head) :
    StandsAt (some (w.snoc l hl)) key g a ↔ StandsAt (some w) key g a := by
  simp only [StandsAt,Option.some.injEq,forall_eq',Wal.lineage_snoc_of_le _ hg]

/-- Below a position of a lineage the lineage is that of the position. -/
theorem StandsAt.below (hg : StandsAt log key h g) (ha : a ≤ g) : StandsAt log key h a ↔ StandsAt log key g a := by
  rcases hg with rfl | hg
  · obtain rfl : a = 0 := Nat.le_zero.mp ha
    exact ⟨fun _ => .inl rfl,fun _ => .inl rfl⟩
  · refine or_congr Iff.rfl (forall_congr' fun w => forall_congr' fun hw => ?_)
    exact Resets.mem_lineage_of_mem _ (hg w hw) ha

theorem StandsAt.head : StandsAt log key (logHead log) (logHead log) := by
  rcases Nat.eq_zero_or_pos (logHead log) with h | h
  · exact .inl h
  · refine .inr fun w hw => ?_
    rw [hw] at h ⊢
    exact Resets.self_mem_lineage _ h

end Stands

structure WellFormed (s : ChatSession) : Prop where
  increasing : s.file.Pairwise (·.seq < ·.seq)
  bounded : ∀ m ∈ s.file, 0 < m.seq ∧ m.seq < s.nextSeq
  next : 0 < s.nextSeq
  suffix : s.history <:+ s.file
  anchored : ∀ m ∈ s.file, m.walSeq.getD 0 ≤ logHead s.stateLog
  ordered : s.file.Pairwise (·.walSeq.getD 0 ≤ ·.walSeq.getD 0)

section WellFormed
variable {c : HistoryConfig} {s t : ChatSession} {msg m : ChatMessage}

/-- An entry without coordinates. -/
def Unstamped (msg : ChatMessage) : Prop := msg.seq = 0 ∧ msg.walSeq = none

theorem Fresh.unstamped (h : Fresh msg) : Unstamped msg := ⟨h.1,h.2.1⟩

theorem unstamped_summaryMessage (content : Json) (i j : ℕ) : Unstamped (summaryMessage content i j) := ⟨rfl,rfl⟩

theorem stamp_seq (h : Unstamped msg) : (s.stamp msg).seq = s.nextSeq := if_pos h.1

theorem stamp_anchor (h : Unstamped msg) : (s.stamp msg).walSeq.getD 0 = logHead s.stateLog := by
  simp [stamp,h.2,logHead]

@[simp] theorem appendHistory_file : (s.appendHistory c msg).file = s.file ++ [s.stamp msg] := rfl

@[simp] theorem appendHistory_stateLog : (s.appendHistory c msg).stateLog = s.stateLog := rfl

@[simp] theorem appendHistory_folds : (s.appendHistory c msg).folds = s.folds := rfl

theorem appendHistory_nextSeq (h : Unstamped msg) : (s.appendHistory c msg).nextSeq = s.nextSeq + 1 := if_pos h.1

theorem WellFormed.start (log : Option Wal) : WellFormed (.start log) :=
  ⟨List.Pairwise.nil,by simp [ChatSession.start],Nat.one_pos,List.suffix_rfl,by simp [ChatSession.start],List.Pairwise.nil⟩

theorem WellFormed.append (h : WellFormed s) (hm : Unstamped msg) : WellFormed (s.appendHistory c msg) where
  increasing := by
    refine List.pairwise_append.mpr ⟨h.increasing,List.pairwise_singleton _ _,fun a ha b hb => ?_⟩
    rw [List.mem_singleton.mp hb,stamp_seq hm]
    exact (h.bounded a ha).2
  bounded := by
    intro a ha
    rw [appendHistory_nextSeq hm]
    rcases List.mem_append.mp ha with ha | ha
    · exact ⟨(h.bounded a ha).1,(h.bounded a ha).2.trans (Nat.lt_succ_self _)⟩
    · rw [List.mem_singleton.mp ha,stamp_seq hm]
      exact ⟨h.next,Nat.lt_succ_self _⟩
  next := by
    rw [appendHistory_nextSeq hm]
    exact Nat.succ_pos _
  suffix := by
    obtain ⟨front,hfront⟩ := h.suffix
    refine (resident_suffix _).trans ⟨front,?_⟩
    rw [← List.append_assoc,hfront,appendHistory_file]
  anchored := by
    intro a ha
    rcases List.mem_append.mp ha with ha | ha
    · exact h.anchored a ha
    · rw [List.mem_singleton.mp ha,stamp_anchor hm]
      exact le_rfl
  ordered := by
    refine List.pairwise_append.mpr ⟨h.ordered,List.pairwise_singleton _ _,fun a ha b hb => ?_⟩
    rw [List.mem_singleton.mp hb,stamp_anchor hm]
    exact h.anchored a ha

/-- What every fresh spill record keeps, the spill records of a pass keep. -/
theorem appendAll_induction {P : ChatSession → Prop} {records : List ChatMessage}
    (hr : ∀ r ∈ records, r.role = .spillRecord ∧ Fresh r) (h : P s)
    (hstep : ∀ s r, P s → r.role = .spillRecord → Fresh r → P (s.appendHistory c r)) : P (s.appendAll c records) := by
  induction records generalizing s with
  | nil => exact h
  | cons r rest ih =>
    obtain ⟨hrole,hfresh⟩ := hr r List.mem_cons_self
    exact ih (fun r' hr' => hr r' (List.mem_cons_of_mem _ hr')) (hstep s r h hrole hfresh)

theorem WellFormed.appendAll (h : WellFormed s) {records : List ChatMessage}
    (hr : ∀ r ∈ records, r.role = .spillRecord ∧ Fresh r) : WellFormed (s.appendAll c records) :=
  appendAll_induction hr h fun _ _ h _ hf => h.append hf.unstamped

theorem WellFormed.recordFold (h : WellFormed s) (f : Fold) : WellFormed (s.recordFold f) :=
  ⟨h.increasing,h.bounded,h.next,h.suffix,h.anchored,h.ordered⟩

theorem WellFormed.persistSummary (h : WellFormed s) (hm : Unstamped msg) (inputs previews : List ChatMessage) :
    WellFormed (s.persistSummary c msg inputs previews) := (h.append hm).recordFold _

theorem WellFormed.logged (h : WellFormed s) {w : Wal} (hw : s.stateLog = some w) {l : WalLine} (hl : w.head < l.seq) :
    WellFormed (s.withLog (w.snoc l hl)) where
  increasing := h.increasing
  bounded := h.bounded
  next := h.next
  suffix := h.suffix
  anchored := by
    intro m hm
    have := h.anchored m hm
    rw [hw] at this
    exact this.trans (by simpa [withLog,logHead] using hl.le)
  ordered := h.ordered

theorem WellFormed.loadOlder (h : WellFormed s) (minLines : ℕ) : WellFormed (s.loadOlderEntries minLines) := by
  refine ⟨h.increasing,h.bounded,h.next,?_,h.anchored,h.ordered⟩
  obtain ⟨front,hfront⟩ := h.suffix
  cases hh : s.history with
  | nil =>
    refine ⟨s.file,?_⟩
    simp [loadOlderEntries,readHistoryBefore,hh]
  | cons m rest =>
    have hfile : s.file = front ++ m :: rest := by rw [← hfront,hh]
    have hbefore : s.file.filter (fun a => a.seq < m.seq) = front := by
      rw [hfile]
      exact KeyedLog.filter_gt_eq (hfile ▸ h.increasing)
    have hsuffix : readHistoryBefore s.file m.seq minLines <:+ front := by
      rw [readHistoryBefore,hbefore,← List.reverse_prefix,List.reverse_reverse]
      exact List.take_prefix _ _
    obtain ⟨earlier,hearlier⟩ := hsuffix
    refine ⟨earlier,?_⟩
    simp only [loadOlderEntries,hh,List.head?_cons,Option.map_some,Option.getD_some]
    rw [← List.append_assoc,hearlier,hfile]

theorem WellFormed.restarted (h : WellFormed s) : WellFormed (s.restarted c) where
  increasing := h.increasing
  bounded := by
    intro m hm
    refine ⟨(h.bounded m hm).1,?_⟩
    obtain ⟨front,last,hfile⟩ := (List.eq_nil_or_concat s.file).resolve_left (List.ne_nil_of_mem hm)
    rw [List.concat_eq_append] at hfile
    have hlast : last ∈ s.file := by simp [hfile]
    have hpos := (h.bounded last hlast).1
    have hle : m.seq ≤ last.seq := by
      have hinc := h.increasing
      have hmem : m ∈ s.file := hm
      rw [hfile] at hinc hmem
      rcases List.mem_append.mp hmem with hmem | hmem
      · exact ((List.pairwise_append.mp hinc).2.2 m hmem last (List.mem_singleton_self _)).le
      · rw [List.mem_singleton.mp hmem]
    have hnext : nextSeqAfterLoad s.file = last.seq + 1 := by simp [nextSeqAfterLoad,hfile,hpos.ne']
    show m.seq < nextSeqAfterLoad s.file
    rw [hnext]
    exact Nat.lt_succ_of_le hle
  next := by
    show 0 < nextSeqAfterLoad s.file
    rw [nextSeqAfterLoad]
    split <;> exact Nat.succ_pos _
  suffix := hydrated_suffix _
  anchored := h.anchored
  ordered := h.ordered

/-- Every summary of the file is that of a fold. -/
def Accounted (s : ChatSession) : Prop := ∀ m ∈ s.file, m.role = .summary → ∃ f ∈ s.folds, f.summary = m

theorem Accounted.append (h : s.Accounted) (hrole : msg.role ≠ .summary) : (s.appendHistory c msg).Accounted := by
  intro m hmem hsummary
  rcases List.mem_append.mp hmem with hmem | hmem
  · exact h m hmem hsummary
  · rw [List.mem_singleton.mp hmem] at hsummary
    exact absurd hsummary hrole

theorem Accounted.persist (h : s.Accounted) (inputs previews : List ChatMessage) :
    (s.persistSummary c msg inputs previews).Accounted := by
  intro m hmem hsummary
  rcases List.mem_append.mp hmem with hmem | hmem
  · obtain ⟨f,hf,he⟩ := h m hmem hsummary
    exact ⟨f,List.mem_append_left _ hf,he⟩
  · exact ⟨_,List.mem_append_right _ (List.mem_singleton_self _),(List.mem_singleton.mp hmem).symm⟩

theorem Accounted.of_same (h : s.Accounted) (hfile : t.file = s.file) (hfolds : t.folds = s.folds) : t.Accounted := by
  rw [Accounted,hfile,hfolds]
  exact h

/-- Before the first fold there is no summary. -/
theorem Accounted.latestSummary_eq_none (h : s.Accounted) (hfolds : s.folds = []) {lines : List ChatMessage}
    (hlines : lines ⊆ s.file) : latestSummary lines = none := by
  rw [Reyn.latestSummary_eq_none]
  intro m hm hrole
  obtain ⟨f,hf,-⟩ := h m (hlines hm) hrole
  rw [hfolds] at hf
  cases hf

/-- The two shapes of a pass: it appends spill records, and then possibly its summary. -/
theorem forceCompactNow_cases (budgets : CompactionBudgets) (selection : Selection) (protectSeqGte : Option ℕ)
    {attempts : List CompactAttempt} (ha : ∀ a ∈ attempts, FreshAttempt a) (content : Json) :
    ∃ records : List ChatMessage, (∀ r ∈ records, r.role = .spillRecord ∧ Fresh r) ∧
      (s.forceCompactNow c budgets selection protectSeqGte attempts content = s.appendAll c records ∨
      ∃ first rest offered, s.candidates c budgets selection protectSeqGte = first :: rest ∧
        (runCompaction c (latestSummary s.history).toList.length s
          ((latestSummary s.history).toList.length + (first :: rest).length) attempts).2 = some offered ∧
        s.forceCompactNow c budgets selection protectSeqGte attempts content =
          (s.appendAll c records).persistSummary c
            (summaryMessage content first.seq (coversThrough first (first :: rest) offered))
            ((latestSummary s.history).toList ++ (first :: rest).take offered) []) := by
  rw [forceCompactNow]
  cases hc : s.candidates c budgets selection protectSeqGte with
  | nil => exact ⟨[],by simp,.inl rfl⟩
  | cons first rest =>
    obtain ⟨records,hrecords,hfresh⟩ := runCompaction_appends (c := c) (latestSummary s.history).toList.length attempts s
      ((latestSummary s.history).toList.length + (first :: rest).length)
    refine ⟨records,hfresh ha,?_⟩
    dsimp only
    cases hrun : runCompaction c (latestSummary s.history).toList.length s
        ((latestSummary s.history).toList.length + (first :: rest).length) attempts with
    | mk s' outcome =>
      rw [hrun] at hrecords
      cases outcome with
      | none => exact .inl hrecords
      | some offered =>
        refine .inr ⟨first,rest,offered,rfl,?_,?_⟩
        · exact congrArg Prod.snd hrun
        · rw [← hrecords]

/-- A recovery fold appends its summary, unless the latest one reaches as far already. -/
theorem persistRecoverySummary_cases (folded spilled : List ChatMessage) (content : Json) :
    s.persistRecoverySummary c folded spilled content = s ∨ s.prevCover < recoveryCoversThrough folded ∧
      s.persistRecoverySummary c folded spilled content = s.persistSummary c
        (summaryMessage content (s.prevCover + 1) (recoveryCoversThrough folded)) folded spilled := by
  rw [persistRecoverySummary]
  split
  · exact .inl rfl
  · rename_i h
    exact .inr ⟨Nat.lt_of_not_le h,rfl⟩

theorem appendAll_folds (s : ChatSession) (records : List ChatMessage) : (s.appendAll c records).folds = s.folds := by
  induction records generalizing s with
  | nil => rfl
  | cons r rest ih => exact ih _

theorem appendAll_file (s : ChatSession) (records : List ChatMessage) : s.file ⊆ (s.appendAll c records).file := by
  induction records generalizing s with
  | nil => exact List.Subset.refl _
  | cons r rest ih => exact List.Subset.trans (List.subset_append_left _ _) (ih (s.appendHistory c r))

theorem appendAll_stateLog (s : ChatSession) (records : List ChatMessage) : (s.appendAll c records).stateLog = s.stateLog := by
  induction records generalizing s with
  | nil => rfl
  | cons r rest ih => exact ih _

theorem appendAll_nextSeq {records : List ChatMessage} (hr : ∀ r ∈ records, Unstamped r) :
    (s.appendAll c records).nextSeq = s.nextSeq + records.length := by
  induction records generalizing s with
  | nil => rfl
  | cons r rest ih =>
    have hnext := ih (s := s.appendHistory c r) fun r' hr' => hr r' (List.mem_cons_of_mem _ hr')
    rw [appendHistory_nextSeq (hr r List.mem_cons_self)] at hnext
    rw [List.length_cons]
    exact hnext.trans (by omega)

/-- An entry that decides for itself is on the branch of the resident history when its anchor is. -/
theorem mem_activeBranchHistory (hw : WellFormed s) (hm : m ∈ s.history) (hrole : m.role ≠ .tool)
    (hstands : StandsAt s.stateLog c.key (logHead s.stateLog) (m.walSeq.getD 0)) : m ∈ s.activeBranchHistory c := by
  refine mem_filterVisible_of_governs (.none []) hm fun a hgov => ?_
  rcases hgov with ⟨rfl,-⟩ | ⟨-,htool,-⟩
  · exact (anchorActive_iff (hw.anchored a (hw.suffix.subset hm))).mpr hstands
  · exact absurd htool hrole

/-- The summary a pass persists is the latest of the branch. -/
theorem latestSummary_persistSummary (hw : WellFormed s) (content : Json) (first through : ℕ)
    (inputs previews : List ChatMessage) :
    latestSummary ((s.persistSummary c (summaryMessage content first through) inputs previews).activeBranchHistory c) =
      some (s.stamp (summaryMessage content first through)) := by
  have hwell := hw.persistSummary (c := c) (unstamped_summaryMessage content first through) inputs previews
  obtain ⟨kept,-,hresident⟩ := resident_concat (c := c) s.history (s.stamp (summaryMessage content first through))
  have hmem : s.stamp (summaryMessage content first through) ∈
      (s.persistSummary c (summaryMessage content first through) inputs previews).history := by
    show _ ∈ resident c (s.history ++ [s.stamp (summaryMessage content first through)])
    rw [hresident]
    exact List.mem_append_right _ (List.mem_singleton_self _)
  have hanchor : (s.stamp (summaryMessage content first through)).walSeq.getD 0 = logHead s.stateLog :=
    stamp_anchor (unstamped_summaryMessage _ _ _)
  have hvisible := mem_activeBranchHistory (c := c) hwell hmem (by simp [stamp,summaryMessage]) (by
    rw [hanchor]
    exact .head)
  exact latestSummary_of_sublist hwell.increasing ((filterVisible_sublist _ _).trans hwell.suffix.sublist)
    (latestSummary_concat_summary rfl) hvisible

theorem WellFormed.step (h : WellFormed s) {a : ChatAction} (ht : step c s a = some t) : WellFormed t := by
  cases a with
  | append msg =>
    obtain ⟨hf,ht⟩ := Option.ite_none_right_eq_some.mp ht
    cases ht
    exact h.append hf.unstamped
  | logged l =>
    obtain ⟨w,hw,ht⟩ := Option.bind_eq_some_iff.mp ht
    obtain ⟨hl,ht⟩ := Option.dite_none_right_eq_some.mp ht
    cases ht
    exact h.logged hw hl
  | markInFlight =>
    cases ht
    exact ⟨h.increasing,h.bounded,h.next,h.suffix,h.anchored,h.ordered⟩
  | startTurn =>
    cases ht
    exact ⟨h.increasing,h.bounded,h.next,h.suffix,h.anchored,h.ordered⟩
  | loadOlder minLines =>
    cases ht
    exact h.loadOlder minLines
  | forceCompact budgets selection protectSeqGte attempts content =>
    obtain ⟨ha,ht⟩ := Option.ite_none_right_eq_some.mp ht
    cases ht
    obtain ⟨records,hr,hs | ⟨first,rest,offered,-,-,hs⟩⟩ := forceCompactNow_cases budgets selection protectSeqGte ha content
    · rw [hs]
      exact h.appendAll hr
    · rw [hs]
      exact (h.appendAll hr).persistSummary (unstamped_summaryMessage _ _ _) _ _
  | persistRecovery folded spilled content =>
    obtain ⟨-,ht⟩ := Option.ite_none_right_eq_some.mp ht
    cases ht
    rcases persistRecoverySummary_cases (c := c) (s := s) folded spilled content with hs | ⟨-,hs⟩
    · rw [hs]
      exact h
    · rw [hs]
      exact h.persistSummary (unstamped_summaryMessage _ _ _) _ _
  | restart =>
    cases ht
    exact h.restarted

end WellFormed
end ChatSession
end Reyn
