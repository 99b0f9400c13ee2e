import Reyn.Runtime.RetainedHistory

/-! # The gap check of a compaction

A pass refuses when the first entry it may fold is not the one behind the previous summary. The
numbers are given to entries of every role, and the check is made after the ineligible and the
abandoned entries were left out.
-/
namespace Reyn
open Py TimeTravel Transition

/-- How the checks of `force_compact_now` end. -/
inductive CompactionCheck where
  | historyLoadUnsafe
  | forcedSyncNoTurns
  | compactionInputGapInvariantViolated
  | selecting
  deriving DecidableEq

namespace ChatSession
variable (c : HistoryConfig)

def compactionCheck (s : ChatSession) : CompactionCheck :=
  if (latestSummary s.history).isNone && s.loadTruncatedUnsafe then .historyLoadUnsafe
  else if s.eligibleMessages c = [] then .forcedSyncNoTurns
  else if s.inputGap c then .compactionInputGapInvariantViolated
  else .selecting

/-- The entry behind the previous summary is there, is eligible, and is anchored on the active branch. -/
def NextEntryEligible (s : ChatSession) : Prop :=
  ∃ m ∈ s.file, m.seq = s.prevCover + 1 ∧ m.isCompactionEligible = true ∧ anchorActive s.stateLog c.key m.walSeq = true

/-- Nothing is known of earlier folds, or no entry may be folded, or the next entry may. -/
def GapFree (s : ChatSession) : Prop :=
  ((latestSummary s.history).isNone = true ∧ s.loadTruncatedUnsafe = true) ∨ s.eligibleMessages c = [] ∨ s.NextEntryEligible c

/-- Sessions of any run, with a log whose old entries and whose old segments are removed on the way, or without one. -/
def Reached (segmentMaxBytes : ℕ) (s : ChatSession) : Prop :=
  Runs (step c) (fun _ _ => True) (.start none) s ∨ ∃ w archive,
    Runs (HistoryArchive.step c segmentMaxBytes) (fun _ _ => True) (HistoryArchive.start w) archive ∧ archive.session = s

/-- The lines of the file are numbered upwards from one. -/
structure Numbered (s : ChatSession) : Prop where
  increasing : s.file.Pairwise (·.seq < ·.seq)
  bounded : ∀ m ∈ s.file, 0 < m.seq ∧ m.seq < s.nextSeq
  next : 0 < s.nextSeq

section Numbers
variable {c} {segmentMaxBytes : ℕ} {s t : ChatSession}

theorem WellFormed.numbered (h : WellFormed s) : Numbered s := ⟨h.increasing,h.bounded,h.next⟩

theorem Numbered.grows (h : Numbered s) {new : List ChatMessage} (hg : Grows s t new) : Numbered t where
  increasing := by
    rw [hg.file]
    refine List.pairwise_append.mpr ⟨h.increasing,hg.increasing,?_⟩
    intro a ha b hb
    exact (h.bounded a ha).2.trans_le (hg.bounded b hb).1
  bounded := by
    intro m hm
    rw [hg.file] at hm
    rcases List.mem_append.mp hm with hm | hm
    · exact ⟨(h.bounded m hm).1,(h.bounded m hm).2.trans_le hg.next⟩
    · exact ⟨h.next.trans_le (hg.bounded m hm).1,(hg.bounded m hm).2⟩
  next := h.next.trans_le hg.next

/-- A new process numbers behind the last line. -/
theorem Numbered.restarted (h : Numbered s) : Numbered (s.restarted c) where
  increasing := h.increasing
  bounded := by
    intro m hm
    refine ⟨(h.bounded m hm).1,?_⟩
    obtain ⟨front,last,hfile⟩ := (List.eq_nil_or_concat s.file).resolve_left (List.ne_nil_of_mem hm)
    rw [List.concat_eq_append] at hfile
    have hpos := (h.bounded last (by simp [hfile])).1
    have hnext : nextSeqAfterLoad s.file = last.seq + 1 := by simp [nextSeqAfterLoad,hfile,hpos.ne']
    change m.seq < nextSeqAfterLoad s.file
    rw [hnext]
    have hinc := h.increasing
    have hm' : m ∈ s.file := hm
    rw [hfile] at hm' hinc
    rcases List.mem_append.mp hm' with hm | hm
    · exact Nat.lt_succ_of_lt ((List.pairwise_append.mp hinc).2.2 m hm last (List.mem_singleton_self _))
    · rw [List.mem_singleton.mp hm]
      exact Nat.lt_succ_self _
  next := by
    change 0 < nextSeqAfterLoad s.file
    rw [nextSeqAfterLoad]
    split <;> exact Nat.succ_pos _

/-- What is left of the file is numbered as it was. -/
theorem Numbered.of_sublist (h : Numbered s) (hfile : t.file.Sublist s.file) (hnext : t.nextSeq = s.nextSeq) : Numbered t :=
  ⟨h.increasing.sublist hfile,fun m hm => hnext ▸ h.bounded m (hfile.subset hm),hnext ▸ h.next⟩

theorem lines_gc_sublist (f : HistoryFiles) (oldestSeq : ℕ) : (f.gcOneSessionHistory oldestSeq).lines.Sublist f.lines :=
  (List.filter_sublist.flatMap Prod.snd).append (List.Sublist.refl _)

theorem numbered_step {archive archive' : HistoryArchive} {a : ArchiveAction}
    (h : Numbered archive.session ∧ archive.files.lines = archive.session.file)
    (hstep : HistoryArchive.step c segmentMaxBytes archive a = some archive') :
    Numbered archive'.session ∧ archive'.files.lines = archive'.session.file := by
  obtain ⟨hnum,hfiles⟩ := h
  cases a with
  | chat a =>
    obtain ⟨-,hstep⟩ := Option.ite_none_right_eq_some.mp hstep
    obtain ⟨t,ht,rfl⟩ := Option.map_eq_some_iff.mp hstep
    have hlines : (archive.filesFor a).lines = archive.session.file := by
      rw [← hfiles]
      cases a <;> rfl
    have hwritten : archive.session.file ++ archive.appended t = t.file →
        ((archive.appended t).foldl (·.writeLine c.lineBytes segmentMaxBytes) (archive.filesFor a)).lines = t.file := by
      intro hfile
      rw [HistoryFiles.lines_foldl_writeLine,hlines,hfile]
    rcases step_grows ht with ⟨new,hgrows⟩ | ⟨l,w,hl,rfl,hw,rfl⟩ | ⟨rfl,rfl⟩
    · refine ⟨hnum.grows hgrows,hwritten ?_⟩
      rw [HistoryArchive.appended,hgrows.file,List.drop_left]
    · refine ⟨hnum.of_sublist (List.Sublist.refl _) rfl,hwritten ?_⟩
      change _ ++ archive.session.file.drop archive.session.file.length = archive.session.file
      rw [List.drop_length,List.append_nil]
    · refine ⟨hnum.restarted,hwritten ?_⟩
      change _ ++ archive.session.file.drop archive.session.file.length = archive.session.file
      rw [List.drop_length,List.append_nil]
  | truncate minKeepSeq =>
    obtain ⟨w,hw,rfl⟩ := Option.map_eq_some_iff.mp hstep
    exact ⟨hnum.of_sublist (List.Sublist.refl _) rfl,hfiles⟩
  | gc =>
    obtain ⟨w,hw,rfl⟩ := Option.map_eq_some_iff.mp hstep
    cases w.oldestKeptSeq with
    | none => exact ⟨hnum,hfiles⟩
    | some oldest =>
      refine ⟨hnum.of_sublist ?_ rfl,rfl⟩
      rw [← hfiles]
      exact lines_gc_sublist archive.files oldest

theorem Reached.numbered (h : Reached c segmentMaxBytes s) : Numbered s := by
  rcases h with h | ⟨w,archive,h,rfl⟩
  · exact (h.invariant (I := WellFormed) (WellFormed.start none) fun s a t hs _ ht => hs.step ht).numbered
  · have hinv := h.invariant (I := fun a => Numbered a.session ∧ a.files.lines = a.session.file)
      ⟨(WellFormed.start (some w)).numbered,rfl⟩ fun s a t hs _ ht => numbered_step hs ht
    exact hinv.1

end Numbers

/-! ## The first entry of a pass -/

section First
variable {c} {s : ChatSession} {m : ChatMessage} {rest : List ChatMessage}

theorem mem_uncovered (h : Numbered s) : ∀ {m}, m ∈ readHistoryAfter c s.file s.prevCover → m ∈ s.file ∧ s.prevCover < m.seq := by
  intro m hm
  obtain ⟨hmem,hm⟩ := List.mem_filter.mp ((takeBatch_isPrefix false 0 _).subset hm)
  simp only [Bool.or_eq_true,decide_eq_true_eq] at hm
  exact ⟨hmem,hm.resolve_left (h.bounded m hmem).1.ne'⟩

theorem uncovered_increasing (h : Numbered s) : (readHistoryAfter c s.file s.prevCover).Pairwise (·.seq < ·.seq) :=
  (h.increasing.sublist List.filter_sublist).sublist (takeBatch_isPrefix false 0 _).sublist

/-- The entry behind the previous summary is the first of the batch, whatever its length. -/
theorem readHistoryAfter_next (h : Numbered s) (hm : m ∈ s.file) (hseq : m.seq = s.prevCover + 1) :
    ∃ rest, readHistoryAfter c s.file s.prevCover = m :: rest := by
  have hmem : m ∈ s.file.filter fun m => m.seq = 0 || s.prevCover < m.seq := by
    refine List.mem_filter.mpr ⟨hm,?_⟩
    simp [hseq]
  have hinc := h.increasing.sublist (List.filter_sublist (p := fun m : ChatMessage => m.seq = 0 || s.prevCover < m.seq))
  obtain ⟨first,tail,hlist⟩ := List.exists_cons_of_ne_nil (List.ne_nil_of_mem hmem)
  rw [hlist] at hmem hinc
  have hfirst : first ∈ s.file ∧ s.prevCover < first.seq := by
    have hf : first ∈ s.file.filter fun m => m.seq = 0 || s.prevCover < m.seq := hlist ▸ List.mem_cons_self
    obtain ⟨hf,hlt⟩ := List.mem_filter.mp hf
    simp only [Bool.or_eq_true,decide_eq_true_eq] at hlt
    exact ⟨hf,hlt.resolve_left (h.bounded first hf).1.ne'⟩
  rcases List.mem_cons.mp hmem with rfl | hlater
  · refine ⟨takeBatch c true (0 + c.lineBytes m) tail,?_⟩
    rw [readHistoryAfter,hlist,takeBatch]
    exact if_neg (by simp)
  · have hlt := (List.pairwise_cons.mp hinc).1 m hlater
    omega

theorem filterVisible_cons_none (isActive : Option ℕ → Bool) (m : ChatMessage) (rest : List ChatMessage) :
    filterVisibleOnActiveBranch isActive none (m :: rest) =
      if isActive m.walSeq then m :: filterVisibleOnActiveBranch isActive m.nextCycle rest
      else filterVisibleOnActiveBranch isActive m.nextCycle rest := by
  rw [filterVisibleOnActiveBranch,ite_self]

theorem eligible_sublist : (s.eligibleMessages c).Sublist (readHistoryAfter c s.file s.prevCover) :=
  List.filter_sublist.trans (filterVisible_sublist _ _)

theorem foldl_min_eq {a : ℕ} {l : List ℕ} (h : ∀ b ∈ l, a ≤ b) : l.foldl min a = a := by
  induction l with
  | nil => rfl
  | cons b l ih =>
    obtain ⟨hb,hl⟩ := List.forall_mem_cons.mp h
    rw [List.foldl_cons,Nat.min_eq_left hb]
    exact ih hl

/-- The check looks at the first eligible entry. -/
theorem inputGap_eq (h : Numbered s) (he : s.eligibleMessages c = m :: rest) :
    s.inputGap c = decide (s.prevCover + 1 < m.seq) := by
  have hpos : ∀ x ∈ s.eligibleMessages c, 0 < x.seq := fun x hx =>
    (h.bounded x (mem_uncovered h (eligible_sublist.subset hx)).1).1
  have hinc : (s.eligibleMessages c).Pairwise (·.seq < ·.seq) := (uncovered_increasing h).sublist eligible_sublist
  have hall : (s.eligibleMessages c).filter (0 < ·.seq) = s.eligibleMessages c :=
    List.filter_eq_self.mpr fun x hx => decide_eq_true (hpos x hx)
  rw [inputGap,hall,he,List.map_cons]
  rw [he] at hinc
  have hmin : (rest.map (·.seq)).foldl min m.seq = m.seq := by
    apply foldl_min_eq
    intro b hb
    obtain ⟨x,hx,rfl⟩ := List.mem_map.mp hb
    exact ((List.pairwise_cons.mp hinc).1 x hx).le
  exact congrArg (fun n => decide (s.prevCover + 1 < n)) hmin

/-- The first eligible entry is the one behind the previous summary just when that one is eligible and not abandoned. -/
theorem next_entry_iff (h : Numbered s) (he : s.eligibleMessages c = m :: rest) :
    m.seq ≤ s.prevCover + 1 ↔ s.NextEntryEligible c := by
  have hmem : m ∈ s.eligibleMessages c := he ▸ List.mem_cons_self
  obtain ⟨hfile,hcover⟩ := mem_uncovered h (eligible_sublist.subset hmem)
  constructor
  · intro hle
    have hseq : m.seq = s.prevCover + 1 := by omega
    refine ⟨m,hfile,hseq,(List.mem_filter.mp hmem).2,?_⟩
    obtain ⟨later,hbatch⟩ := readHistoryAfter_next (c := c) h hfile hseq
    have hinc := uncovered_increasing (c := c) h
    have hvisible : m ∈ s.activeBranch c (readHistoryAfter c s.file s.prevCover) := List.mem_of_mem_filter hmem
    rw [hbatch] at hvisible hinc
    rw [activeBranch,filterVisible_cons_none] at hvisible
    split at hvisible
    · assumption
    · have hlater := (filterVisible_sublist _ _).subset hvisible
      exact absurd ((List.pairwise_cons.mp hinc).1 m hlater) (Nat.lt_irrefl _)
  · rintro ⟨x,hx,hseq,heligible,hactive⟩
    obtain ⟨later,hbatch⟩ := readHistoryAfter_next (c := c) h hx hseq
    have hfirst : ∃ more, s.eligibleMessages c = x :: more := by
      rw [eligibleMessages,hbatch,activeBranch,filterVisible_cons_none,if_pos hactive,List.filter_cons_of_pos heligible]
      exact ⟨_,rfl⟩
    obtain ⟨more,hmore⟩ := hfirst
    rw [he] at hmore
    obtain ⟨rfl,-⟩ := List.cons.inj hmore
    exact hseq.le

end First

/-- The gap outcome is reached just when the entry behind the previous summary is missing, ineligible or abandoned while a later
one may be folded. -/
theorem gap_check_iff {segmentMaxBytes : ℕ} {s : ChatSession} (h : Reached c segmentMaxBytes s) :
    s.compactionCheck c ≠ .compactionInputGapInvariantViolated ↔ s.GapFree c := by
  have hnum := h.numbered
  rw [compactionCheck,GapFree]
  split
  · rename_i hunsafe
    exact iff_of_true nofun (.inl (Bool.and_eq_true_iff.mp hunsafe))
  rename_i hunsafe
  rw [or_iff_right fun hboth => hunsafe (Bool.and_eq_true_iff.mpr hboth)]
  split
  · rename_i hnone
    exact iff_of_true nofun (.inl hnone)
  rename_i hsome
  rw [or_iff_right hsome]
  obtain ⟨m,rest,he⟩ := List.exists_cons_of_ne_nil hsome
  rw [inputGap_eq hnum he,← next_entry_iff hnum he]
  split
  · rename_i hgap
    exact iff_of_false (fun hne => hne rfl) (Nat.not_le.mpr (of_decide_eq_true hgap))
  · rename_i hgap
    exact iff_of_true nofun (Nat.not_lt.mp fun hlt => hgap (decide_eq_true hlt))

section Sample
open HistoryArchive

theorem next_message_selected : ∃ s, Reached smallSegments 10 s ∧
    s.compactionCheck smallSegments ≠ .compactionInputGapInvariantViolated := by
  obtain ⟨s,hs,hnext⟩ : ∃ s, runAll (step smallSegments) (.start none) [.append plainEntry] = some s ∧
      s.NextEntryEligible smallSegments := ⟨_,rfl,_,List.mem_cons_self,rfl,rfl,rfl⟩
  have hreached : Reached smallSegments 10 s := .inl (Runs.of_runAll (.refl _) (fun _ _ _ => trivial) hs)
  exact ⟨s,hreached,(gap_check_iff smallSegments hreached).mpr (.inr (.inr hnext))⟩

def roomy : HistoryConfig := ⟨("agent","main"),fun _ => 1,1000,fun _ => 1⟩

/-- The head keeps one message, and the tail two. -/
def twoLast : CompactionBudgets := ⟨fun _ => 1,1,2,0⟩

/-- Two passes over plain messages. The second one folds the last message before the first summary, so the entry behind
its range is a summary. -/
def foldedTwice : Computed (runAll (step roomy) (.start none)
    (List.replicate 6 (.append plainEntry) ++ [.forceCompact twoLast .operator none [.summarized] .null] ++
      List.replicate 4 (.append plainEntry) ++
      [.forceCompact twoLast .operator none [.overflowed false [],.summarized] .null]))
    (fun s => s.compactionCheck roomy == .compactionInputGapInvariantViolated) :=
  .of _ _ (by decide +kernel)

theorem summary_makes_gap : ¬∀ c segmentMaxBytes s, Reached c segmentMaxBytes s →
    s.compactionCheck c ≠ .compactionInputGapInvariantViolated := by
  intro h
  obtain ⟨s,hs,hgap⟩ := foldedTwice
  exact h roomy 10 s (.inl (Runs.of_runAll (.refl _) (fun _ _ _ => trivial) hs)) (eq_of_beq hgap)

end Sample
end ChatSession
end Reyn
