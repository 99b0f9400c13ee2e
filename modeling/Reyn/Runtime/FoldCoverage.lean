import Reyn.Runtime.ChatInvariant

/-! # What a summary hides

The summary on the branch hides a range of sequence numbers. The range is taken from
the candidates of a pass, or from how far a recovery has folded, and hides nothing
that was not summarized when a pass offers some candidate, no rewind has cut a tool
cycle behind the previous summary, and a recovery leaves nothing of its range out.
-/
namespace Reyn
open Py TimeTravel Transition

namespace ChatSession

/-- Some entry that is on the branch decides that the entry is. -/
def Shown (stands : ℕ → Prop) (file : List ChatMessage) (m : ChatMessage) : Prop :=
  ∃ a, Governs file a m ∧ stands (a.walSeq.getD 0)

/-- No rewind has cut a tool cycle above the previous summary: the anchors of its entries
are all on the branch, or none is. -/
def Uncut (c : HistoryConfig) (s : ChatSession) : Prop :=
  ∀ a m, Governs s.file a m → s.prevCover < m.seq →
    (anchorActive s.stateLog c.key a.walSeq = true ↔ anchorActive s.stateLog c.key m.walSeq = true)

/-- When a fold records a range it has read as a whole. -/
def ReadsItsRange (c : HistoryConfig) (s : ChatSession) : ChatAction → Prop
  | .forceCompact budgets selection protectSeqGte attempts _ =>
    ∀ offered, (runCompaction c (latestSummary s.history).toList.length s
      ((latestSummary s.history).toList.length + (s.candidates c budgets selection protectSeqGte).length) attempts).2 =
        some offered → 0 < offered ∧ s.Uncut c
  | .persistRecovery folded spilled _ =>
    ∀ m, m.isCompactionEligible = true → Shown (StandsAt s.stateLog c.key (logHead s.stateLog)) s.file m →
      s.prevCover < m.seq → m.seq ≤ recoveryCoversThrough folded → m ∈ folded ++ spilled
  | _ => True

/-- What the range of a fold covers of its branch, the fold has read. -/
structure Covers (c : HistoryConfig) (s : ChatSession) (f : Fold) : Prop where
  mem : f.summary ∈ s.file
  through : f.summary.coversThroughSeq < f.summary.seq
  covers : ∀ m first, m.isCompactionEligible = true →
    Shown (StandsAt s.stateLog c.key (f.summary.walSeq.getD 0)) s.file m → f.summary.coversFromSeq = some first →
      first ≤ m.seq → m.seq ≤ f.summary.coversThroughSeq → m ∈ f.inputs ++ f.previews

structure FoldInv (c : HistoryConfig) (s : ChatSession) : Prop where
  wellFormed : WellFormed s
  covers : ∀ f ∈ s.folds, Covers c s f
  accounted : s.Accounted

section Invariant
variable {c : HistoryConfig} {s t : ChatSession} {msg m : ChatMessage} {f : Fold}

theorem Shown.of_concat {stands : ℕ → Prop} {file : List ChatMessage} {x : ChatMessage} (h : Shown stands (file ++ [x]) m)
    (hm : m ≠ x) : Shown stands file m := by
  obtain ⟨a,hgov,hstands⟩ := h
  exact ⟨a,hgov.of_concat hm,hstands⟩

theorem Shown.congr {stands stands' : ℕ → Prop} {file : List ChatMessage} (h : Shown stands file m)
    (he : ∀ a, Governs file a m → (stands (a.walSeq.getD 0) → stands' (a.walSeq.getD 0))) : Shown stands' file m := by
  obtain ⟨a,hgov,hstands⟩ := h
  exact ⟨a,hgov,he a hgov hstands⟩

theorem Shown.mem {stands : ℕ → Prop} {file : List ChatMessage} (h : Shown stands file m) : m ∈ file := by
  obtain ⟨a,hgov,-⟩ := h
  exact hgov.mem.2

theorem Covers.append (h : Covers c s f) (hw : WellFormed s) (hm : Unstamped msg) : Covers c (s.appendHistory c msg) f where
  mem := List.mem_append_left _ h.mem
  through := h.through
  covers := by
    intro m first he hshown hfirst hlo hhi
    have hne : m ≠ s.stamp msg := by
      rintro rfl
      rw [stamp_seq hm] at hhi
      exact absurd ((hhi.trans_lt h.through).trans (hw.bounded _ h.mem).2) (Nat.lt_irrefl _)
    exact h.covers m first he (hshown.of_concat hne) hfirst hlo hhi

theorem Covers.logged (h : Covers c s f) (hw : WellFormed s) {w : Wal} (hlog : s.stateLog = some w) {l : WalLine}
    (hl : w.head < l.seq) : Covers c (s.withLog (w.snoc l hl)) f where
  mem := h.mem
  through := h.through
  covers := by
    intro m first he hshown
    have hg : f.summary.walSeq.getD 0 ≤ w.head := by
      have := hw.anchored _ h.mem
      rwa [hlog] at this
    refine h.covers m first he (hshown.congr fun a _ hstands => ?_)
    rw [hlog]
    exact (StandsAt.snoc hl hg).mp hstands

theorem Covers.of_same (h : Covers c s f) (hfile : t.file = s.file) (hlog : t.stateLog = s.stateLog) : Covers c t f where
  mem := hfile ▸ h.mem
  through := h.through
  covers := by
    rw [hfile,hlog]
    exact h.covers

theorem FoldInv.start (log : Option Wal) : FoldInv c (.start log) :=
  ⟨.start log,by simp [ChatSession.start],by simp [ChatSession.start,Accounted]⟩

theorem FoldInv.of_same (h : FoldInv c s) (hw : WellFormed t) (hfile : t.file = s.file) (hlog : t.stateLog = s.stateLog)
    (hfolds : t.folds = s.folds) : FoldInv c t where
  wellFormed := hw
  covers := by
    rw [hfolds]
    exact fun f hf => (h.covers f hf).of_same hfile hlog
  accounted := h.accounted.of_same hfile hfolds

theorem FoldInv.append (h : FoldInv c s) (hm : Unstamped msg) (hrole : msg.role ≠ .summary) :
    FoldInv c (s.appendHistory c msg) where
  wellFormed := h.wellFormed.append hm
  covers f hf := (h.covers f hf).append h.wellFormed hm
  accounted := h.accounted.append hrole

theorem FoldInv.appendAll (h : FoldInv c s) {records : List ChatMessage}
    (hr : ∀ r ∈ records, r.role = .spillRecord ∧ Fresh r) : FoldInv c (s.appendAll c records) :=
  appendAll_induction hr h fun _ _ h _ hf => h.append hf.unstamped hf.2.2

/-- A new fold that has read its range. -/
theorem FoldInv.persist (h : FoldInv c s) {content : Json} {first through : ℕ} {inputs previews : List ChatMessage}
    (hthrough : through < s.nextSeq)
    (hreads : ∀ m, m.isCompactionEligible = true → Shown (StandsAt s.stateLog c.key (logHead s.stateLog)) s.file m →
      first ≤ m.seq → m.seq ≤ through → m ∈ inputs ++ previews) :
    FoldInv c (s.persistSummary c (summaryMessage content first through) inputs previews) where
  wellFormed := h.wellFormed.persistSummary (unstamped_summaryMessage _ _ _) _ _
  covers := by
    intro f hf
    rcases List.mem_append.mp hf with hf | hf
    · exact ((h.covers f hf).append h.wellFormed (unstamped_summaryMessage _ _ _)).of_same rfl rfl
    · rw [List.mem_singleton.mp hf]
      have hseq : (s.stamp (summaryMessage content first through)).seq = s.nextSeq :=
        stamp_seq (unstamped_summaryMessage _ _ _)
      have hanchor : (s.stamp (summaryMessage content first through)).walSeq.getD 0 = logHead s.stateLog :=
        stamp_anchor (unstamped_summaryMessage _ _ _)
      refine ⟨List.mem_append_right _ (List.mem_singleton_self _),hthrough.trans_eq hseq.symm,?_⟩
      rintro m first' he hshown ⟨⟩ hlo hhi
      rw [hanchor] at hshown
      have hne : m ≠ s.stamp (summaryMessage content first through) := by
        rintro rfl
        rw [hseq] at hhi
        exact absurd (hthrough.trans_le hhi) (Nat.lt_irrefl _)
      exact hreads m he (hshown.of_concat hne) hlo hhi
  accounted := h.accounted.persist _ _

theorem Shown.of_appendAll {stands : ℕ → Prop} {records : List ChatMessage} (hr : ∀ r ∈ records, Unstamped r)
    (h : Shown stands (s.appendAll c records).file m) (hm : m.seq < s.nextSeq) : Shown stands s.file m := by
  induction records generalizing s with
  | nil => exact h
  | cons r rest ih =>
    have hlater := ih (s := s.appendHistory c r) (fun r' hr' => hr r' (List.mem_cons_of_mem _ hr')) h (by
      rw [appendHistory_nextSeq (hr r List.mem_cons_self)]
      exact hm.trans (Nat.lt_succ_self _))
    refine hlater.of_concat ?_
    rintro rfl
    rw [stamp_seq (hr r List.mem_cons_self)] at hm
    exact Nat.lt_irrefl _ hm

/-! ## A pass has no holes -/

/-- The entries the pass starts from, as they stand in the file. -/
theorem readHistoryAfter_infix (hw : WellFormed s) (afterSeq : ℕ) :
    ∃ rest, readHistoryAfter c s.file afterSeq <+: rest ∧ rest <:+ s.file ∧ ∀ m ∈ s.file, afterSeq < m.seq → m ∈ rest := by
  refine ⟨s.file.filter fun m => m.seq = 0 || afterSeq < m.seq,takeBatch_isPrefix _ _ _,?_,?_⟩
  · have hsame : s.file.filter (fun m => m.seq = 0 || afterSeq < m.seq) = s.file.filter fun m => afterSeq < m.seq := by
      refine List.filter_congr fun m hm => ?_
      have hpos := (hw.bounded m hm).1.ne'
      simp [hpos]
    rw [hsame]
    exact KeyedLog.filter_lt_suffix hw.increasing afterSeq
  · intro m hm hlt
    exact List.mem_filter.mpr ⟨hm,by simp [hlt]⟩

theorem eligibleMessages_sublist (hw : WellFormed s) : (s.eligibleMessages c).Sublist s.file := by
  obtain ⟨rest,hpre,hsuffix,-⟩ := readHistoryAfter_infix (c := c) hw s.prevCover
  exact List.filter_sublist.trans ((filterVisible_sublist _ _).trans (hpre.sublist.trans hsuffix.sublist))

/-- An entry of the branch below one that was read is read, when no cycle is cut. -/
theorem mem_eligibleMessages (hw : WellFormed s) (hcut : s.Uncut c) {b : ChatMessage} (hb : b ∈ s.eligibleMessages c)
    (he : m.isCompactionEligible = true) (hshown : Shown (StandsAt s.stateLog c.key (logHead s.stateLog)) s.file m)
    (hlo : s.prevCover < m.seq) (hhi : m.seq ≤ b.seq) : m ∈ s.eligibleMessages c := by
  obtain ⟨rest,hpre,hsuffix,hrest⟩ := readHistoryAfter_infix (c := c) hw s.prevCover
  have hbatch : b ∈ readHistoryAfter c s.file s.prevCover :=
    (filterVisible_sublist _ _).subset (List.mem_of_mem_filter hb)
  have hread : m ∈ readHistoryAfter c s.file s.prevCover :=
    KeyedLog.mem_of_prefix (hw.increasing.sublist hsuffix.sublist) hpre hbatch (hrest m hshown.mem hlo) hhi
  obtain ⟨a,hgov,hstands⟩ := hshown
  have hown : anchorActive s.stateLog c.key m.walSeq = true :=
    (hcut a m hgov hlo).mp ((anchorActive_iff (hw.anchored a hgov.mem.1)).mpr hstands)
  refine List.mem_filter.mpr ⟨mem_filterVisible_of_governs (.none []) hread fun a' hgov' => ?_,he⟩
  rw [List.nil_append] at hgov'
  exact (hcut a' m (hgov'.mono (hpre.isInfix.trans hsuffix.isInfix)) hlo).mpr hown

section Pass
variable {budgets : CompactionBudgets} {selection : Selection} {protectSeqGte : Option ℕ} {first : ChatMessage}
  {rest : List ChatMessage} {offered : ℕ}

theorem measureAndSelect_of_candidates (hc : s.candidates c budgets selection protectSeqGte = first :: rest) :
    Compaction.measureAndSelect budgets (s.eligibleMessages c) s.prevCover selection protectSeqGte = first :: rest := by
  rw [candidates] at hc
  split at hc
  · exact hc
  · cases hc

/-- A candidate is an eligible entry of the file above the previous summary. -/
theorem mem_candidates (hc : s.candidates c budgets selection protectSeqGte = first :: rest) (hm : m ∈ first :: rest) :
    m ∈ s.eligibleMessages c ∧ s.prevCover < m.seq := by
  have hmem : m ∈ Compaction.unprotected budgets (s.eligibleMessages c) s.prevCover protectSeqGte := by
    refine (Compaction.measureAndSelect_isPrefix _ _ _ _ selection).subset ?_
    rw [measureAndSelect_of_candidates hc]
    exact hm
  exact ⟨Compaction.unprotected_sublist.subset hmem,Compaction.lt_of_mem_unprotected hmem⟩

theorem coversThrough_spec (first : ChatMessage) (rest : List ChatMessage) (offered : ℕ) :
    ∃ last ∈ first :: rest, last.seq = coversThrough first (first :: rest) offered ∧
      (0 < offered → last ∈ (first :: rest).take offered) := by
  rw [coversThrough]
  cases hl : ((first :: rest).take offered).getLast? with
  | none =>
    refine ⟨first,List.mem_cons_self,rfl,fun hpos => ?_⟩
    rw [List.getLast?_eq_none_iff,List.take_eq_nil_iff] at hl
    simp only [reduceCtorEq,or_false] at hl
    exact absurd hl hpos.ne'
  | some last =>
    have hmem := List.mem_of_getLast? hl
    exact ⟨last,List.mem_of_mem_take hmem,rfl,fun _ => hmem⟩

theorem coversThrough_lt (hw : WellFormed s) (hc : s.candidates c budgets selection protectSeqGte = first :: rest)
    (offered : ℕ) : coversThrough first (first :: rest) offered < s.nextSeq := by
  obtain ⟨last,hlast,hseq,-⟩ := coversThrough_spec first rest offered
  rw [← hseq]
  exact (hw.bounded last ((eligibleMessages_sublist hw).subset (mem_candidates hc hlast).1)).2

/-- Whatever the branch shows between the first and the last candidate offered is offered. -/
theorem mem_offered (hw : WellFormed s) (hcut : s.Uncut c)
    (hc : s.candidates c budgets selection protectSeqGte = first :: rest) (hoffered : 0 < offered)
    (he : m.isCompactionEligible = true) (hshown : Shown (StandsAt s.stateLog c.key (logHead s.stateLog)) s.file m)
    (hlo : first.seq ≤ m.seq) (hhi : m.seq ≤ coversThrough first (first :: rest) offered) :
    m ∈ (first :: rest).take offered := by
  obtain ⟨last,hlast,hseq,htake⟩ := coversThrough_spec first rest offered
  rw [← hseq] at hhi
  have hcover := (mem_candidates hc (List.mem_cons_self (a := first) (l := rest))).2
  have hmem := mem_eligibleMessages hw hcut (mem_candidates hc hlast).1 he hshown (hcover.trans_le hlo) hhi
  have hfirst : first ∈ (first :: rest).take offered := by
    obtain ⟨n,rfl⟩ := Nat.exists_eq_succ_of_ne_zero hoffered.ne'
    exact List.mem_cons_self
  have hconvex := Compaction.measureAndSelect_convex budgets s.prevCover protectSeqGte
    (hw.increasing.sublist (eligibleMessages_sublist (c := c) hw)) selection offered
  rw [measureAndSelect_of_candidates hc] at hconvex
  exact hconvex first hfirst last (htake hoffered) m hmem hlo hhi

end Pass

theorem recoveryCoversThrough_lt (hw : WellFormed s) {folded : List ChatMessage} (hf : ∀ m ∈ folded, m ∈ s.file) :
    recoveryCoversThrough folded < s.nextSeq := by
  refine KeyedLog.foldl_max_lt hw.next fun i hi => ?_
  obtain ⟨m,hm,rfl⟩ := List.mem_map.mp hi
  exact (hw.bounded m (hf m (List.mem_of_mem_filter hm))).2

theorem FoldInv.step (h : FoldInv c s) {a : ChatAction} (hg : s.ReadsItsRange c a) (ht : step c s a = some t) :
    FoldInv c t := by
  have hw := h.wellFormed.step ht
  cases a with
  | append msg =>
    obtain ⟨hf,ht⟩ := Option.ite_none_right_eq_some.mp ht
    cases ht
    exact h.append hf.unstamped hf.2.2
  | logged l =>
    obtain ⟨w,hlog,ht⟩ := Option.bind_eq_some_iff.mp ht
    obtain ⟨hl,ht⟩ := Option.dite_none_right_eq_some.mp ht
    cases ht
    exact ⟨hw,fun f hf => (h.covers f hf).logged h.wellFormed hlog hl,h.accounted⟩
  | markInFlight | startTurn | loadOlder minLines | restart =>
    cases ht
    exact h.of_same hw rfl rfl rfl
  | forceCompact budgets selection protectSeqGte attempts content =>
    obtain ⟨ha,ht⟩ := Option.ite_none_right_eq_some.mp ht
    cases ht
    obtain ⟨records,hr,hs | ⟨first,rest,offered,hc,hrun,hs⟩⟩ :=
      forceCompactNow_cases budgets selection protectSeqGte ha content
    · rw [hs]
      exact h.appendAll hr
    · rw [hs]
      have hunstamped : ∀ r ∈ records, Unstamped r := fun r hmem => (hr r hmem).2.unstamped
      rw [← hc] at hrun
      obtain ⟨hoffered,hcut⟩ := hg offered hrun
      have hthrough := coversThrough_lt h.wellFormed hc offered
      refine (h.appendAll hr).persist ?_ fun m he hshown hlo hhi => ?_
      · rw [appendAll_nextSeq hunstamped]
        exact hthrough.trans_le (Nat.le_add_right _ _)
      · rw [appendAll_stateLog] at hshown
        have hmem := mem_offered h.wellFormed hcut hc hoffered he
          (hshown.of_appendAll hunstamped (hhi.trans_lt hthrough)) hlo hhi
        rw [List.append_nil]
        exact List.mem_append_right _ hmem
  | persistRecovery folded spilled content =>
    obtain ⟨hr,ht⟩ := Option.ite_none_right_eq_some.mp ht
    cases ht
    rcases persistRecoverySummary_cases (c := c) (s := s) folded spilled content with hs | ⟨hlt,hs⟩
    · rw [hs]
      exact h
    · rw [hs]
      refine h.persist (recoveryCoversThrough_lt h.wellFormed fun m hm => (hr.1 m (List.mem_append_left _ hm)).1) ?_
      exact fun m he hshown hlo hhi => hg m he hshown hlo hhi

/-- The entries of the branch, however much of the file is read. -/
theorem shown_of_mem_activeBranch (hw : WellFormed s) {lines : List ChatMessage} (hlines : lines <:+ s.file)
    (hm : m ∈ s.activeBranch c lines) : Shown (StandsAt s.stateLog c.key (logHead s.stateLog)) s.file m := by
  obtain ⟨a,hgov,hactive⟩ := governs_of_mem_filterVisible (.none []) hm
  have hgov' := hgov.mono (hlines.isInfix)
  exact ⟨a,hgov',(anchorActive_iff (hw.anchored a hgov'.mem.1)).mp hactive⟩

end Invariant

/-! ## A pass that offers no candidate -/

def sampleConfig : HistoryConfig := ⟨("agent","main"),fun _ => 1,100,fun _ => 1⟩

def sampleBudgets : CompactionBudgets := ⟨fun _ => 1,1,1,0⟩

def userMessage (text : String) : ChatMessage :=
  { role := .user, content := .str text, seq := 0, toolCalls := false, disclosure := none, walSeq := none,
    untrusted := false, coversFromSeq := none, coversThroughSeq := 0, spillTarget := none }

/-- Four messages, of which a pass folds the second and the third. -/
def foldedActions : List ChatAction :=
  [.append (userMessage "1"),.append (userMessage "2"),.append (userMessage "3"),.append (userMessage "4"),
    .forceCompact sampleBudgets .operator none [.summarized] .null]

def foldedSession : Option ChatSession := runAll (step sampleConfig) (start (some ⟨[],Wal.increasing_nil⟩)) foldedActions

end ChatSession
end Reyn
