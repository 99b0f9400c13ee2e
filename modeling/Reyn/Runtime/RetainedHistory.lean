import Reyn.Runtime.HistoryRetention

/-! # What the removed lines are hidden by -/
namespace Reyn
open Py TimeTravel Transition ChatSession

namespace HistoryArchive

/-- The line is in the range that the summary records. -/
def covers (summary m : ChatMessage) : Bool := summary.coversFromSeq.any (· ≤ m.seq) && m.seq ≤ summary.coversThroughSeq

/-- A line no reader misses: it is no summary and anchored before the oldest entry of the log; a fold has it in its
range whose summary is settled; and so has every later fold that was made on a branch with the line. -/
structure Dispensable (key : SessionKey) (w : Wal) (lines file : List ChatMessage) (m : ChatMessage) : Prop where
  text : m.role ≠ .summary
  old : ∃ oldest, w.oldestKeptSeq = some oldest ∧ m.walSeq.getD 0 < oldest
  folded : ∃ summary ∈ file, summary.role = .summary ∧ m.seq < summary.seq ∧ covers summary m = true ∧
    w.Settled key (summary.walSeq.getD 0) ∧ ∀ later ∈ file, later.role = .summary → summary.seq ≤ later.seq →
      (∃ a, Governs lines a m ∧ StandsAt (some w) key (later.walSeq.getD 0) (a.walSeq.getD 0)) → covers later m = true

section Archive
variable (c : HistoryConfig)

/-- A pass removes what no reader misses, and no part of a tool cycle alone; a fold takes in what was removed and
would be on its branch. -/
def Regular (s : HistoryArchive) : ArchiveAction → Prop
  | .gc => ∀ w oldest, s.session.stateLog = some w → w.oldestKeptSeq = some oldest →
      (∀ m ∈ s.files.unlinkedLines oldest, Dispensable c.key w s.session.file s.session.file m) ∧
        CyclesWhole (s.files.unlinkedLines oldest) s.session.file
  | .chat a => ∀ t, ChatSession.step c s.session a = some t → ∀ summary ∈ s.appended t, summary.role = .summary →
      ∀ m ∈ s.unlinked, (∃ a, Governs s.written a m ∧ anchorActive s.session.stateLog c.key a.walSeq = true) →
        covers summary m = true
  | .truncate _ => True

structure Inv (w : Wal) (s : HistoryArchive) : Prop where
  log : s.session.stateLog = some w
  increasing : s.written.Pairwise (·.seq < ·.seq)
  bounded : ∀ m ∈ s.written, 0 < m.seq ∧ m.seq < s.session.nextSeq
  next : 0 < s.session.nextSeq
  anchored : ∀ m ∈ s.written, m.walSeq.getD 0 ≤ w.head
  ordered : s.written.Pairwise (·.walSeq.getD 0 ≤ ·.walSeq.getD 0)
  kept : s.session.file = s.written.filter (· ∉ s.unlinked)
  files : s.files.lines = s.session.file
  removed : s.unlinked ⊆ s.written
  newest : ∀ m ∈ s.written.getLast?, m ∉ s.unlinked
  cycles : CyclesWhole s.unlinked s.written
  dispensable : ∀ m ∈ s.unlinked, Dispensable c.key w s.written s.session.file m

end Archive

section Invariant
variable {c : HistoryConfig} {segmentMaxBytes : ℕ} {s s' : HistoryArchive} {w w' : Wal} {m : ChatMessage}

theorem Inv.start (w : Wal) : Inv c w (.start w) where
  log := rfl
  increasing := List.Pairwise.nil
  bounded _ hm := absurd hm List.not_mem_nil
  next := Nat.one_pos
  anchored _ hm := absurd hm List.not_mem_nil
  ordered := List.Pairwise.nil
  kept := rfl
  files := rfl
  removed := List.Subset.refl _
  newest _ _ := List.not_mem_nil
  cycles _ _ _ hx := absurd hx List.not_mem_nil
  dispensable _ hm := absurd hm List.not_mem_nil

theorem covers_iff {summary m : ChatMessage} : covers summary m = true ↔
    ∃ first, summary.coversFromSeq = some first ∧ first ≤ m.seq ∧ m.seq ≤ summary.coversThroughSeq := by
  rw [covers,Bool.and_eq_true,decide_eq_true_eq]
  cases summary.coversFromSeq with
  | none => simp
  | some first => simp

theorem Inv.anchors_le (h : Inv c w s) {a b : ChatMessage} (ha : a ∈ s.written) (hb : b ∈ s.written) (hlt : a.seq < b.seq) :
    a.walSeq.getD 0 ≤ b.walSeq.getD 0 := by
  obtain ⟨front,back,hsplit⟩ := List.append_of_mem hb
  have hinc := h.increasing
  have hord := h.ordered
  rw [hsplit] at ha hinc hord
  rcases List.mem_append.mp ha with ha | ha
  · exact (List.pairwise_append.mp hord).2.2 a ha b List.mem_cons_self
  · rcases List.mem_cons.mp ha with rfl | ha
    · exact le_rfl
    · have hgt := (List.pairwise_cons.mp (List.pairwise_append.mp hinc).2.1).1 a ha
      omega

/-- Who governs a line stands above it, or is the line. -/
theorem Inv.governs_le (h : Inv c w s) {a m : ChatMessage} (hg : Governs s.written a m) : a.seq ≤ m.seq := by
  rcases hg with ⟨rfl,-⟩ | ⟨-,-,results,-,hin⟩
  · exact le_rfl
  · have hinc := h.increasing.sublist hin.sublist
    exact ((List.pairwise_cons.mp hinc).1 m (by simp)).le

theorem Inv.active_iff (h : Inv c w s) {a : ChatMessage} (ha : a ∈ s.written) :
    anchorActive s.session.stateLog c.key a.walSeq = true ↔ StandsAt (some w) c.key w.head (a.walSeq.getD 0) := by
  rw [h.log]
  exact anchorActive_iff (h.anchored a ha)

/-- On a branch that has the removed line, the latest summary has it in its range. -/
theorem Inv.hidden (h : Inv c w s) (hm : m ∈ s.unlinked) (hbranch : m ∈ s.session.activeBranch c s.written) :
    stillActive (s.session.activeBranch c s.written) m = false := by
  obtain ⟨-,-,summary,hfile,hrole,hbehind,-,hsettled,hlater⟩ := h.dispensable m hm
  have hwritten : summary ∈ s.written := by
    rw [h.kept] at hfile
    exact List.mem_of_mem_filter hfile
  have hstands := hsettled.stands (h.anchored summary hwritten)
  have hsummary : summary ∈ s.session.activeBranch c s.written := by
    apply mem_filterVisible_of_governs (.none []) hwritten
    rintro a (⟨rfl,-⟩ | ⟨-,htool,-⟩)
    · exact (h.active_iff hwritten).mpr hstands
    · rw [hrole] at htool
      cases htool
  have hsub : (s.session.activeBranch c s.written).Sublist s.written := filterVisible_sublist _ _
  cases hlatest : latestSummary (s.session.activeBranch c s.written) with
  | none => exact absurd hrole (latestSummary_eq_none.mp hlatest summary hsummary)
  | some last =>
    obtain ⟨hlast,hlastrole,hmax⟩ := (latestSummary_eq_some_iff (h.increasing.sublist hsub)).mp hlatest
    have hle := hmax summary hsummary hrole
    have hlastwritten : last ∈ s.written := hsub.subset hlast
    have hlastfile : last ∈ s.session.file := by
      rw [h.kept]
      refine List.mem_filter.mpr ⟨hlastwritten,decide_eq_true ?_⟩
      intro hgone
      exact (h.dispensable last hgone).text hlastrole
    -- the branch with the line is the one that the latest summary was made on
    obtain ⟨a,hgov,hactive⟩ := governs_of_mem_filterVisible (.none []) hbranch
    have ha : a ∈ s.written := hgov.mem.1
    obtain ⟨b,hgovlast,hactivelast⟩ := governs_of_mem_filterVisible (.none []) hlast
    have hlaststands : StandsAt (some w) c.key w.head (last.walSeq.getD 0) := by
      rcases hgovlast with ⟨rfl,-⟩ | ⟨-,htool,-⟩
      · exact (h.active_iff hlastwritten).mp hactivelast
      · rw [hlastrole] at htool
        cases htool
    have hlt : a.seq < last.seq := ((h.governs_le hgov).trans_lt hbehind).trans_le hle
    have hmade := (hlaststands.below (h.anchors_le ha hlastwritten hlt)).mp ((h.active_iff ha).mp hactive)
    obtain ⟨first,hfirst,hlow,hhigh⟩ := covers_iff.mp (hlater last hlastfile hlastrole hle ⟨a,hgov,hmade⟩)
    exact stillActive_eq_false_iff.mpr ⟨(h.bounded m (h.removed hm)).1,last,first,hlatest,hfirst,hlow,hhigh⟩

/-- The files show what all the lines ever written would show. -/
theorem Inv.visible (h : Inv c w s) : s.visibleHistory c s.session.file = s.visibleHistory c s.written := by
  have hbranch : s.session.activeBranch c s.session.file =
      (s.session.activeBranch c s.written).filter (· ∉ s.unlinked) := by
    rw [h.kept]
    exact h.cycles.filterVisible_filter none
  have hlatest : latestSummary (s.session.activeBranch c s.session.file) =
      latestSummary (s.session.activeBranch c s.written) := by
    rw [hbranch,latestSummary,latestSummary,← List.filter_reverse,List.find?_filter]
    congr 1
    funext m
    by_cases hgone : m ∈ s.unlinked
    · have htext := (h.dispensable m hgone).text
      simp [hgone,htext]
    · by_cases hrole : m.role = .summary <;> simp [hgone,hrole]
  have hstill : ∀ m, stillActive (s.session.activeBranch c s.session.file) m =
      stillActive (s.session.activeBranch c s.written) m := by
    intro m
    rw [stillActive,stillActive,compactionCoverage,compactionCoverage,hlatest]
  rw [visibleHistory,visibleHistory,List.filter_congr fun m _ => hstill m,hbranch,List.filter_filter]
  apply List.filter_congr
  intro m hm
  by_cases hgone : m ∈ s.unlinked
  · rw [h.hidden hgone hm,Bool.false_and]
  · rw [decide_eq_true hgone,Bool.and_true]

/-! ## Steps -/

/-- What a step does to the condition on a removed line. -/
theorem Dispensable.transfer {key : SessionKey} {lines lines' file file' : List ChatMessage}
    (h : Dispensable key w lines file m)
    (hold : ∀ oldest, w.oldestKeptSeq = some oldest → ∃ oldest', w'.oldestKeptSeq = some oldest' ∧ oldest ≤ oldest')
    (hsettled : ∀ summary ∈ file, w.Settled key (summary.walSeq.getD 0) → w'.Settled key (summary.walSeq.getD 0))
    (hfile : ∀ summary ∈ file, summary.role = .summary → summary ∈ file')
    (hlater : ∀ later ∈ file', later.role = .summary →
      ∀ a, Governs lines' a m → StandsAt (some w') key (later.walSeq.getD 0) (a.walSeq.getD 0) →
        covers later m = true ∨ later ∈ file ∧ Governs lines a m ∧
          StandsAt (some w) key (later.walSeq.getD 0) (a.walSeq.getD 0)) : Dispensable key w' lines' file' m where
  text := h.text
  old := by
    obtain ⟨oldest,holdest,hlt⟩ := h.old
    obtain ⟨oldest',holdest',hle⟩ := hold oldest holdest
    exact ⟨oldest',holdest',hlt.trans_le hle⟩
  folded := by
    obtain ⟨summary,hmem,hrole,hbehind,hcovers,hs,hafter⟩ := h.folded
    refine ⟨summary,hfile summary hmem hrole,hrole,hbehind,hcovers,hsettled summary hmem hs,?_⟩
    rintro later hmem' hrole' hle ⟨a,hgov,hstands⟩
    rcases hlater later hmem' hrole' a hgov hstands with hc | ⟨hin,hgov,hstands⟩
    · exact hc
    · exact hafter later hin hrole' hle ⟨a,hgov,hstands⟩

theorem governs_of_append {lines new : List ChatMessage} {a m : ChatMessage} (h : Governs (lines ++ new) a m) (hm : m ∉ new) :
    Governs lines a m := by
  induction new using List.reverseRecOn with
  | nil =>
    rw [List.append_nil] at h
    exact h
  | append_singleton new x ih =>
    rw [List.mem_append,not_or] at hm
    rw [← List.append_assoc] at h
    exact ih (h.of_concat (by simpa using hm.2)) hm.1

theorem Inv.file_subset (h : Inv c w s) {x : ChatMessage} (hx : x ∈ s.session.file) : x ∈ s.written ∧ x ∉ s.unlinked := by
  rw [h.kept] at hx
  obtain ⟨hmem,hstays⟩ := List.mem_filter.mp hx
  exact ⟨hmem,of_decide_eq_true hstays⟩

/-- The session appends lines. -/
theorem Inv.grows (h : Inv c w s) {t : ChatSession} {new : List ChatMessage} (hg : Grows s.session t new) {f : HistoryFiles}
    (hf : f.lines = s.session.file ++ new) (hfold : ∀ summary ∈ new, summary.role = .summary → ∀ m ∈ s.unlinked,
      (∃ a, Governs s.written a m ∧ anchorActive s.session.stateLog c.key a.walSeq = true) → covers summary m = true) :
    Inv c w ⟨t,f,s.written ++ new,s.unlinked⟩ := by
  have hhead : ∀ m ∈ new, m.walSeq.getD 0 = w.head := by
    intro m hm
    rw [hg.anchors m hm,h.log]
    rfl
  have hfresh : ∀ m ∈ new, m ∉ s.written := by
    intro m hm hmem
    exact absurd (h.bounded m hmem).2 (Nat.not_lt_of_le (hg.bounded m hm).1)
  have hstays : ∀ m ∈ new, m ∉ s.unlinked := fun m hm hgone => hfresh m hm (h.removed hgone)
  refine ⟨hg.log.trans h.log,?_,?_,h.next.trans_le hg.next,?_,?_,?_,?_,?_,?_,h.cycles.append hstays,?_⟩
  · refine List.pairwise_append.mpr ⟨h.increasing,hg.increasing,?_⟩
    intro a ha b hb
    exact (h.bounded a ha).2.trans_le (hg.bounded b hb).1
  · intro m hm
    rcases List.mem_append.mp hm with hm | hm
    · exact ⟨(h.bounded m hm).1,(h.bounded m hm).2.trans_le hg.next⟩
    · exact ⟨h.next.trans_le (hg.bounded m hm).1,(hg.bounded m hm).2⟩
  · intro m hm
    rcases List.mem_append.mp hm with hm | hm
    · exact h.anchored m hm
    · exact (hhead m hm).le
  · refine List.pairwise_append.mpr ⟨h.ordered,?_,?_⟩
    · apply hg.increasing.imp_of_mem
      intro a b ha hb _
      rw [hhead a ha,hhead b hb]
    · intro a ha b hb
      rw [hhead b hb]
      exact h.anchored a ha
  · show t.file = (s.written ++ new).filter (· ∉ s.unlinked)
    have hall : new.filter (· ∉ s.unlinked) = new :=
      List.filter_eq_self.mpr fun m hm => decide_eq_true (hstays m hm)
    rw [hg.file,h.kept,List.filter_append,hall]
  · exact hf.trans hg.file.symm
  · exact fun m hm => List.mem_append_left _ (h.removed hm)
  · intro m hm hgone
    rw [List.getLast?_append] at hm
    cases hlast : new.getLast? with
    | none =>
      rw [hlast,Option.none_or] at hm
      exact h.newest m hm hgone
    | some last =>
      rw [hlast,Option.some_or] at hm
      cases hm
      exact hstays _ (List.mem_of_getLast? hlast) hgone
  · intro m hm
    have hnew : m ∉ new := fun hmem => hstays m hmem hm
    apply (h.dispensable m hm).transfer (fun oldest ho => ⟨oldest,ho,le_rfl⟩) (fun _ _ hs => hs)
    · intro summary hmem _
      show summary ∈ t.file
      rw [hg.file]
      exact List.mem_append_left _ hmem
    · intro later hmem hrole a hgov hstands
      have hgov' := governs_of_append hgov hnew
      have hmem' : later ∈ s.session.file ++ new := hg.file ▸ hmem
      rcases List.mem_append.mp hmem' with hmem' | hmem'
      · exact .inr ⟨hmem',hgov',hstands⟩
      · rw [hhead later hmem'] at hstands
        exact .inl (hfold later hmem' hrole m hm ⟨a,hgov',(h.active_iff hgov'.mem.1).mpr hstands⟩)

theorem Inv.logged (h : Inv c w s) {l : WalLine} (hl : w.head < l.seq) (haccept : accepted w l = true) :
    Inv c (w.snoc l hl) { s with session := s.session.withLog (w.snoc l hl) } := by
  refine ⟨rfl,h.increasing,h.bounded,h.next,?_,h.ordered,h.kept,h.files,h.removed,h.newest,h.cycles,?_⟩
  · intro m hm
    rw [Wal.snoc_head]
    exact (h.anchored m hm).trans hl.le
  · intro m hm
    apply (h.dispensable m hm).transfer
    · intro oldest ho
      refine ⟨oldest,?_,le_rfl⟩
      obtain ⟨first,hfirst,rfl⟩ := Option.map_eq_some_iff.mp ho
      show (w.lines ++ [l]).head?.map _ = _
      rw [List.head?_append,hfirst]
      rfl
    · intro summary hmem hs
      exact hs.snoc (h.anchored summary (h.file_subset hmem).1) hl haccept
    · exact fun summary hmem _ => hmem
    · intro later hmem _ a hgov hstands
      exact .inr ⟨hmem,hgov,(StandsAt.snoc hl (h.anchored later (h.file_subset hmem).1)).mp hstands⟩

/-- A new process numbers behind the last line, which is never removed. -/
theorem Inv.restarted (h : Inv c w s) : Inv c w ⟨s.session.restarted c,{ s.files with facts := .fresh },s.written,s.unlinked⟩ := by
  refine ⟨h.log,h.increasing,?_,?_,h.anchored,h.ordered,h.kept,h.files,h.removed,h.newest,h.cycles,h.dispensable⟩
  · intro m hm
    refine ⟨(h.bounded m hm).1,?_⟩
    obtain ⟨front,last,hwritten⟩ := (List.eq_nil_or_concat s.written).resolve_left (List.ne_nil_of_mem hm)
    rw [List.concat_eq_append] at hwritten
    have hlast : last ∈ s.written := by simp [hwritten]
    have hstays : last ∉ s.unlinked := h.newest last (by simp [hwritten])
    have hpos := (h.bounded last hlast).1
    have hfile : s.session.file.getLast? = some last := by
      rw [h.kept,hwritten,List.filter_append,List.filter_cons_of_pos (by simpa using hstays)]
      simp
    have hnext : nextSeqAfterLoad s.session.file = last.seq + 1 := by simp [nextSeqAfterLoad,hfile,hpos.ne']
    show m.seq < nextSeqAfterLoad s.session.file
    rw [hnext]
    have hinc := h.increasing
    rw [hwritten] at hm hinc
    rcases List.mem_append.mp hm with hm | hm
    · exact Nat.lt_succ_of_lt ((List.pairwise_append.mp hinc).2.2 m hm last (List.mem_singleton_self _))
    · rw [List.mem_singleton.mp hm]
      exact Nat.lt_succ_self _
  · show 0 < nextSeqAfterLoad s.session.file
    rw [nextSeqAfterLoad]
    split <;> exact Nat.succ_pos _

theorem standsAt_truncateBelow {key : SessionKey} {minKeepSeq g a : ℕ} :
    StandsAt (some (w.truncateBelow minKeepSeq)) key g a ↔ StandsAt (some w) key g a := by
  simp only [StandsAt,Option.some.injEq,forall_eq',w.lineage_truncateBelow]

theorem Inv.truncated (h : Inv c w s) (minKeepSeq : ℕ) :
    Inv c (w.truncateBelow minKeepSeq) { s with session := s.session.withLog (w.truncateBelow minKeepSeq) } := by
  refine ⟨rfl,h.increasing,h.bounded,h.next,?_,h.ordered,h.kept,h.files,h.removed,h.newest,h.cycles,?_⟩
  · intro m hm
    rw [w.head_truncateBelow]
    exact h.anchored m hm
  · intro m hm
    apply (h.dispensable m hm).transfer
    · intro oldest ho
      obtain ⟨first,hfirst,rfl⟩ := Option.map_eq_some_iff.mp ho
      obtain ⟨rest,hlines⟩ := List.head?_eq_some_iff.mp hfirst
      obtain ⟨front,last,hlast⟩ := (List.eq_nil_or_concat w.lines).resolve_left (by simp [hlines])
      have hmem : last ∈ (w.truncateBelow minKeepSeq).lines := by
        have hhead : w.head = last.seq := by simp [Wal.head,hlast]
        refine List.mem_filter.mpr ⟨by simp [hlast],?_⟩
        simp [hhead]
      obtain ⟨first',hfirst'⟩ := Option.isSome_iff_exists.mp (List.isSome_head?.mpr (List.ne_nil_of_mem hmem))
      refine ⟨first'.seq,by rw [Wal.oldestKeptSeq,hfirst']; rfl,?_⟩
      have hin : first' ∈ w.lines := List.mem_of_mem_filter (List.mem_of_head? hfirst')
      have hinc := w.increasing
      rw [hlines] at hin hinc
      rcases List.mem_cons.mp hin with rfl | hin
      · exact le_rfl
      · exact ((List.pairwise_cons.mp hinc).1 first' hin).le
    · exact fun _ _ hs => hs.truncateBelow minKeepSeq
    · exact fun summary hmem _ => hmem
    · intro later hmem _ a hgov hstands
      exact .inr ⟨hmem,hgov,standsAt_truncateBelow.mp hstands⟩

theorem Inv.collected (h : Inv c w s) {oldest : ℕ}
    (hdispensable : ∀ m ∈ s.files.unlinkedLines oldest, Dispensable c.key w s.session.file s.session.file m)
    (hcycles : CyclesWhole (s.files.unlinkedLines oldest) s.session.file) : Inv c w (s.collect oldest) := by
  have hincfile : s.session.file.Pairwise (·.seq < ·.seq) := by
    rw [h.kept]
    exact h.increasing.sublist List.filter_sublist
  have hnodup : s.files.lines.Nodup := by
    rw [h.files]
    refine hincfile.imp ?_
    rintro a b hlt rfl
    exact hlt.false
  have hlines := HistoryFiles.lines_gc hnodup oldest
  rw [h.files] at hlines
  have hsub : s.files.unlinkedLines oldest ⊆ s.session.file := fun m hm => h.files ▸ s.files.unlinkedLines_subset oldest hm
  have hstays : ∀ summary ∈ s.session.file, summary.role = .summary → summary ∈ (s.collect oldest).session.file := by
    intro summary hmem hrole
    show summary ∈ (s.files.gcOneSessionHistory oldest).lines
    rw [hlines]
    exact List.mem_filter.mpr ⟨hmem,decide_eq_true fun hgone => (hdispensable summary hgone).text hrole⟩
  have hback : ∀ x ∈ (s.collect oldest).session.file, x ∈ s.session.file := by
    intro x hx
    have hx' : x ∈ (s.files.gcOneSessionHistory oldest).lines := hx
    rw [hlines] at hx'
    exact List.mem_of_mem_filter hx'
  refine ⟨h.log,h.increasing,h.bounded,h.next,h.anchored,h.ordered,?_,rfl,?_,?_,?_,?_⟩
  · show (s.files.gcOneSessionHistory oldest).lines = s.written.filter (· ∉ s.unlinked ++ s.files.unlinkedLines oldest)
    rw [hlines,h.kept,List.filter_filter]
    apply List.filter_congr
    intro m _
    simp [Bool.and_comm]
  · intro m hm
    rcases List.mem_append.mp hm with hm | hm
    · exact h.removed hm
    · exact (h.file_subset (hsub hm)).1
  · intro m hm hgone
    rcases List.mem_append.mp hgone with hgone | hgone
    · exact h.newest m hm hgone
    · -- a line stands behind each that is removed
      obtain ⟨front,hfront⟩ := List.getLast?_eq_some_iff.mp hm
      have hwritten : s.written = front ++ [m] := hfront
      have hlast : [m] <:+ s.session.file := by
        rw [h.kept,hwritten,List.filter_append,List.filter_cons_of_pos (by simpa using h.newest m hm)]
        exact List.suffix_append _ _
      obtain ⟨y,hy,-⟩ := hcycles m [] hlast hgone
      cases hy
  · apply h.cycles.union
    rw [← h.kept]
    exact hcycles
  · intro m hm
    rcases List.mem_append.mp hm with hm | hm
    · apply (h.dispensable m hm).transfer (fun o ho => ⟨o,ho,le_rfl⟩) (fun _ _ hs => hs) hstays
      intro later hmem _ a hgov hstands
      exact .inr ⟨hback later hmem,hgov,hstands⟩
    · apply (hdispensable m hm).transfer (fun o ho => ⟨o,ho,le_rfl⟩) (fun _ _ hs => hs) hstays
      intro later hmem _ a hgov hstands
      refine .inr ⟨hback later hmem,?_,hstands⟩
      rw [h.kept]
      exact h.cycles.governs hgov (h.file_subset (hsub hm)).2

theorem Inv.step (h : Inv c w s) {a : ArchiveAction} (hg : Regular c s a) (hs : step c segmentMaxBytes s a = some s') :
    ∃ w', Inv c w' s' := by
  cases a with
  | chat a =>
    obtain ⟨hallowed,hs⟩ := Option.ite_none_right_eq_some.mp hs
    obtain ⟨t,ht,rfl⟩ := Option.map_eq_some_iff.mp hs
    have hsame : t.file = s.session.file → s.appended t = [] := by
      intro hfile
      rw [appended,hfile,List.drop_length]
    rcases step_grows ht with ⟨new,hgrows⟩ | ⟨l,v,hl,rfl,hv,rfl⟩ | ⟨rfl,rfl⟩
    · have hnew : s.appended t = new := by rw [appended,hgrows.file,List.drop_left]
      have hfold := hg t ht
      have hfiles : (s.filesFor a).lines = s.session.file := by
        rw [← h.files]
        cases a <;> rfl
      rw [hnew] at hfold ⊢
      refine ⟨w,h.grows hgrows ?_ hfold⟩
      rw [HistoryFiles.lines_foldl_writeLine,hfiles]
    · obtain rfl := Option.some.inj (h.log.symm.trans hv)
      have haccept : accepted w l = true := by
        rw [allowed,h.log,Option.all_some] at hallowed
        exact hallowed
      rw [hsame rfl,List.append_nil]
      exact ⟨_,h.logged hl haccept⟩
    · rw [hsame rfl,List.append_nil]
      exact ⟨w,h.restarted⟩
  | truncate minKeepSeq =>
    obtain ⟨v,hv,rfl⟩ := Option.map_eq_some_iff.mp hs
    obtain rfl := Option.some.inj (h.log.symm.trans hv)
    exact ⟨_,h.truncated minKeepSeq⟩
  | gc =>
    obtain ⟨v,hv,rfl⟩ := Option.map_eq_some_iff.mp hs
    obtain rfl := Option.some.inj (h.log.symm.trans hv)
    cases ho : w.oldestKeptSeq with
    | none => exact ⟨w,h⟩
    | some oldest =>
      obtain ⟨hdispensable,hcycles⟩ := hg w oldest h.log ho
      exact ⟨w,h.collected hdispensable hcycles⟩

theorem inv_run {w₀ : Wal} (h : Runs (step c segmentMaxBytes) (Regular c) (start w₀) s) : ∃ w, Inv c w s := by
  apply h.invariant (I := fun s => ∃ w, Inv c w s)
  · exact ⟨w₀,.start w₀⟩
  · rintro s a t ⟨w,hinv⟩ hg hs
    exact hinv.step hg hs

end Invariant

section Sample

def plainEntry : ChatMessage := ⟨.user,.str "",0,false,none,none,false,none,0,none⟩

def smallBudgets : CompactionBudgets := ⟨fun _ => 1,1,1,0⟩

/-- The first line fills a segment, the second and the third another one. -/
def smallSegments : HistoryConfig :=
  ⟨("agent","main"),fun _ => 1,1,fun m => if m.seq = 1 then 10 else if m.seq ≤ 3 then 5 else 0⟩

theorem inbox_put_ne_rewind : "inbox_put" ≠ "rewind" := by decide

def walEntryAt (seq : ℕ) (h : 0 < seq) : WalLine :=
  .ordinary seq "t" "inbox_put" ⟨[],WalFields.distinct_nil,WalFields.unstamped_nil⟩ h inbox_put_ne_rewind

/-- Four messages, an entry of the log, a fold of the second and the third, and as many lines as a start reads. -/
def foldedLines (seq : ℕ) (h : 0 < seq) : List ArchiveAction :=
  List.replicate 4 (.chat (.append plainEntry)) ++ [.chat (.logged (walEntryAt seq h)),
    .chat (.forceCompact smallBudgets .operator none [.summarized] .null)] ++ List.replicate 200 (.chat (.append plainEntry))

/-- `Dispensable` and `CyclesWhole`, computed, for files without tool cycles. -/
def passChecked (key : SessionKey) (s : HistoryArchive) : Bool :=
  s.session.stateLog.all fun w => w.oldestKeptSeq.all fun oldest =>
    (s.files.unlinkedLines oldest).all (fun m => m.role != .summary && m.walSeq.getD 0 < oldest &&
      s.session.file.any fun summary => summary.role == .summary && m.seq < summary.seq && covers summary m &&
        (w.lines.all fun l => summary.walSeq.getD 0 ≤ l.seq) &&
        ((visibleRecords w.records (some key)).all fun p => summary.walSeq.getD 0 ≤ p.2) &&
        s.session.file.all fun later => later.role != .summary || covers later m) &&
    s.session.file.all (·.role != .tool) && s.session.file.getLast?.all (· ∉ s.files.unlinkedLines oldest)

theorem late_pos : 0 < 300 := Nat.succ_pos 299

def truncatedRun : Computed (runChecked (step smallSegments 10)
    (fun s a => s.unlinked.isEmpty && match a with
      | .gc => passChecked smallSegments.key s
      | _ => true)
    (start ⟨[],Wal.increasing_nil⟩)
    (foldedLines 1 Nat.one_pos ++ [.chat (.logged (walEntryAt 300 late_pos)),.truncate 300,.gc]))
    (fun s => s.unlinked.map (·.seq) == [2,3]) :=
  .of _ _ (by decide +kernel)

end Sample

end HistoryArchive
end Reyn
