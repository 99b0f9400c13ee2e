import Reyn.Runtime.HistoryGc

/-! # What a reader is shown after old segments are gone

The visible history is that of all the lines ever written, in runs in which a pass removes
only lines that some settled fold hides, and later folds hide them again.
-/
namespace Reyn
open Py TimeTravel Transition

/-! ## Truncated logs -/

namespace Wal
variable {w : Wal} {key : SessionKey} {a n minKeepSeq : ℕ}

/-- No `checkout` before the anchor is accepted, and no reset of the session goes behind it. -/
def Settled (w : Wal) (key : SessionKey) (a : ℕ) : Prop :=
  (∀ l ∈ w.lines, a ≤ l.seq) ∧ ∀ p ∈ visibleRecords w.records (some key), p.2 < a → p.1 ≤ a

/-- A settled anchor is on every branch that a `checkout` can lead to. -/
theorem Settled.stands (h : w.Settled key a) (hn : a ≤ n) : ChatSession.StandsAt (some w) key n a := by
  rcases Nat.eq_zero_or_pos a with rfl | hpos
  · exact .inl rfl
  · right
    rintro w' ⟨⟩
    rw [Resets.mem_lineage_iff _ hpos hn]
    rintro r - t ht ⟨hlow,hhigh⟩
    have hp := h.2 (r,t) ((w.targetAt_eq_some_iff (some key) r t).mp ht) hlow
    exact absurd hhigh (Nat.not_lt_of_le hp)

theorem kept_truncateBelow (w : Wal) (minKeepSeq : ℕ) : Kept w (w.truncateBelow minKeepSeq).lines := by
  apply (Kept.refl w).filter
  intro l _ hl
  rw [hl,Bool.or_true]

theorem records_truncateBelow (w : Wal) (minKeepSeq : ℕ) : (w.truncateBelow minKeepSeq).records = w.records :=
  (w.kept_truncateBelow minKeepSeq).records

theorem head_truncateBelow (w : Wal) (minKeepSeq : ℕ) : (w.truncateBelow minKeepSeq).head = w.head := by
  rcases List.eq_nil_or_concat w.lines with hnil | ⟨front,last,hlines⟩
  · simp [head,truncateBelow,hnil]
  · have hlast : w.head = last.seq := by simp [head,hlines]
    have hkeep : [last].filter (fun l => min minKeepSeq w.head ≤ l.seq || isRewind l.event) = [last] := by
      simp [hlast]
    show ((w.lines.filter fun l => min minKeepSeq w.head ≤ l.seq || isRewind l.event).getLast?.map (·.seq)).getD 0 = w.head
    rw [hlines,List.concat_eq_append,List.filter_append,hkeep]
    simp [hlast]

theorem lineage_truncateBelow (w : Wal) (minKeepSeq : ℕ) (scope : Scope) (n : ℕ) :
    ((w.truncateBelow minKeepSeq).resets scope).lineage n = (w.resets scope).lineage n := by
  apply Resets.lineage_congr
  intro r _
  apply Option.ext
  intro t
  exact ((w.truncateBelow minKeepSeq).targetAt_eq_some_iff scope r t).trans
    (w.records_truncateBelow minKeepSeq ▸ (w.targetAt_eq_some_iff scope r t).symm)

theorem Settled.truncateBelow (h : w.Settled key a) (minKeepSeq : ℕ) : (w.truncateBelow minKeepSeq).Settled key a := by
  refine ⟨?_,?_⟩
  · intro l hl
    exact h.1 l (List.mem_of_mem_filter hl)
  · rw [w.records_truncateBelow]
    exact h.2

/-- An accepted reset does not go behind what is settled. -/
theorem Settled.snoc (h : w.Settled key a) (ha : a ≤ w.head) {l : WalLine} (hl : w.head < l.seq)
    (haccept : HistoryArchive.accepted w l = true) : (w.snoc l hl).Settled key a := by
  refine ⟨?_,?_⟩
  · intro k hk
    rcases List.mem_append.mp hk with hk | hk
    · exact h.1 k hk
    · rw [List.mem_singleton.mp hk]
      exact ha.trans hl.le
  · intro p hp hlow
    obtain ⟨record,hrecord,rfl⟩ := List.mem_map.mp hp
    obtain ⟨hrecord,hvisible⟩ := List.mem_filter.mp hrecord
    obtain ⟨k,hk,hrec⟩ := List.mem_filterMap.mp hrecord
    rcases List.mem_append.mp hk with hk | hk
    · apply h.2 _ _ hlow
      exact List.mem_map_of_mem (List.mem_filter.mpr ⟨List.mem_filterMap.mpr ⟨k,hk,hrec⟩,hvisible⟩)
    · rw [List.mem_singleton.mp hk] at hrec
      exfalso
      rw [HistoryArchive.accepted,hrec,Option.all_some,acceptsCheckout,oldestKeptSeq] at haccept
      cases hlines : w.lines with
      | nil =>
        have hzero : w.head = 0 := by simp [head,hlines]
        have hlow' : record.targetN < a := hlow
        omega
      | cons first rest =>
        rw [hlines] at haccept
        have hfirst := h.1 first (hlines ▸ List.mem_cons_self)
        have hle : first.seq ≤ record.targetN := of_decide_eq_true haccept
        exact absurd hlow (Nat.not_lt_of_le (hfirst.trans hle))

end Wal

/-! ## What a step of the session appends -/

namespace ChatSession
variable {c : HistoryConfig} {s t u : ChatSession} {msg : ChatMessage}

/-- The lines `new` are appended with the next numbers, and anchored at the head of the log. -/
structure Grows (s t : ChatSession) (new : List ChatMessage) : Prop where
  file : t.file = s.file ++ new
  increasing : new.Pairwise (·.seq < ·.seq)
  bounded : ∀ m ∈ new, s.nextSeq ≤ m.seq ∧ m.seq < t.nextSeq
  next : s.nextSeq ≤ t.nextSeq
  anchors : ∀ m ∈ new, m.walSeq.getD 0 = logHead s.stateLog
  log : t.stateLog = s.stateLog

theorem Grows.same (hfile : t.file = s.file) (hnext : t.nextSeq = s.nextSeq) (hlog : t.stateLog = s.stateLog) :
    Grows s t [] := ⟨by rw [hfile,List.append_nil],List.Pairwise.nil,fun _ hm => absurd hm List.not_mem_nil,hnext.ge,
    fun _ hm => absurd hm List.not_mem_nil,hlog⟩

theorem Grows.trans {new new' : List ChatMessage} (h : Grows s t new) (h' : Grows t u new') : Grows s u (new ++ new') where
  file := by rw [h'.file,h.file,List.append_assoc]
  increasing := by
    refine List.pairwise_append.mpr ⟨h.increasing,h'.increasing,?_⟩
    intro a ha b hb
    exact (h.bounded a ha).2.trans_le (h'.bounded b hb).1
  bounded := by
    intro m hm
    rcases List.mem_append.mp hm with hm | hm
    · exact ⟨(h.bounded m hm).1,(h.bounded m hm).2.trans_le h'.next⟩
    · exact ⟨h.next.trans (h'.bounded m hm).1,(h'.bounded m hm).2⟩
  next := h.next.trans h'.next
  anchors := by
    intro m hm
    rcases List.mem_append.mp hm with hm | hm
    · exact h.anchors m hm
    · rw [h'.anchors m hm,h.log]
  log := h'.log.trans h.log

theorem Grows.append (hm : Unstamped msg) : Grows s (s.appendHistory c msg) [s.stamp msg] where
  file := rfl
  increasing := List.pairwise_singleton _ _
  bounded := by
    intro m hmem
    rw [List.mem_singleton.mp hmem,stamp_seq hm,appendHistory_nextSeq hm]
    exact ⟨le_rfl,Nat.lt_succ_self _⟩
  next := by
    rw [appendHistory_nextSeq hm]
    exact Nat.le_succ _
  anchors := by
    intro m hmem
    rw [List.mem_singleton.mp hmem,stamp_anchor hm]
  log := rfl

theorem grows_appendAll {records : List ChatMessage} (hr : ∀ r ∈ records, r.role = .spillRecord ∧ Fresh r) :
    ∃ new, Grows s (s.appendAll c records) new := by
  apply appendAll_induction (P := fun t => ∃ new, Grows s t new) hr
  · exact ⟨[],.same rfl rfl rfl⟩
  · rintro t r ⟨new,hnew⟩ - hfresh
    exact ⟨_,hnew.trans (.append hfresh.unstamped)⟩

theorem Grows.persistSummary (content : Json) (first through : ℕ) (inputs previews : List ChatMessage) :
    Grows s (s.persistSummary c (summaryMessage content first through) inputs previews)
      [s.stamp (summaryMessage content first through)] := by
  have h := Grows.append (c := c) (s := s) (unstamped_summaryMessage content first through)
  exact ⟨h.file,h.increasing,h.bounded,h.next,h.anchors,h.log⟩

/-- A step appends lines, or extends the log, or begins a new process. -/
theorem step_grows {a : ChatAction} (ht : step c s a = some t) : (∃ new, Grows s t new) ∨
    (∃ l w, ∃ h : w.head < l.seq, a = .logged l ∧ s.stateLog = some w ∧ t = s.withLog (w.snoc l h)) ∨
    a = .restart ∧ t = s.restarted c := by
  cases a with
  | append msg =>
    obtain ⟨hf,ht⟩ := Option.ite_none_right_eq_some.mp ht
    cases ht
    exact .inl ⟨_,.append hf.unstamped⟩
  | logged l =>
    obtain ⟨w,hw,ht⟩ := Option.bind_eq_some_iff.mp ht
    obtain ⟨hl,ht⟩ := Option.dite_none_right_eq_some.mp ht
    cases ht
    exact .inr (.inl ⟨l,w,hl,rfl,hw,rfl⟩)
  | markInFlight =>
    cases ht
    exact .inl ⟨[],.same rfl rfl rfl⟩
  | startTurn =>
    cases ht
    exact .inl ⟨[],.same rfl rfl rfl⟩
  | loadOlder minLines =>
    cases ht
    exact .inl ⟨[],.same rfl rfl rfl⟩
  | forceCompact budgets selection protectSeqGte attempts content =>
    obtain ⟨ha,ht⟩ := Option.ite_none_right_eq_some.mp ht
    cases ht
    obtain ⟨records,hr,hs | ⟨first,rest,offered,-,-,hs⟩⟩ := forceCompactNow_cases budgets selection protectSeqGte ha content
    · rw [hs]
      exact .inl (grows_appendAll hr)
    · obtain ⟨new,hnew⟩ := grows_appendAll (c := c) (s := s) hr
      rw [hs]
      exact .inl ⟨_,hnew.trans (.persistSummary _ _ _ _ _)⟩
  | persistRecovery folded spilled content =>
    obtain ⟨-,ht⟩ := Option.ite_none_right_eq_some.mp ht
    cases ht
    rcases persistRecoverySummary_cases (c := c) (s := s) folded spilled content with hs | ⟨-,hs⟩
    · rw [hs]
      exact .inl ⟨[],.same rfl rfl rfl⟩
    · rw [hs]
      exact .inl ⟨_,.persistSummary _ _ _ _ _⟩
  | restart =>
    cases ht
    exact .inr (.inr ⟨rfl,rfl⟩)

end ChatSession
/-! ## The files -/

namespace HistoryFiles
variable {f : HistoryFiles}

theorem lines_writeLine (lineBytes : ChatMessage → ℕ) (segmentMaxBytes : ℕ) (f : HistoryFiles) (m : ChatMessage) :
    (f.writeLine lineBytes segmentMaxBytes m).lines = f.lines ++ [m] := by
  rw [writeLine]
  split <;> simp [lines]

theorem lines_foldl_writeLine (lineBytes : ChatMessage → ℕ) (segmentMaxBytes : ℕ) (f : HistoryFiles) (new : List ChatMessage) :
    (new.foldl (·.writeLine lineBytes segmentMaxBytes) f).lines = f.lines ++ new := by
  induction new generalizing f with
  | nil => exact (List.append_nil _).symm
  | cons m rest ih => rw [List.foldl_cons,ih,lines_writeLine,List.append_assoc,List.singleton_append]

/-- Where no line stands twice, what is left are the lines that were not removed. -/
theorem lines_gc (h : f.lines.Nodup) (oldestSeq : ℕ) :
    (f.gcOneSessionHistory oldestSeq).lines = f.lines.filter (· ∉ f.unlinkedLines oldestSeq) := by
  obtain ⟨hsealed,-,hactive⟩ := List.nodup_append.mp h
  obtain ⟨-,hdisjoint⟩ := List.nodup_flatMap.mp hsealed
  have hkept : ∀ segment ∈ f.sealedSegments, f.unlinks oldestSeq segment.1 = false → ∀ m ∈ segment.2,
      m ∉ f.unlinkedLines oldestSeq := by
    intro segment hsegment hstays m hm hgone
    obtain ⟨other,hother,hm'⟩ := List.mem_flatMap.mp hgone
    obtain ⟨hother,hunlinks⟩ := List.mem_filter.mp hother
    have hne : segment ≠ other := by
      rintro rfl
      rw [hstays] at hunlinks
      cases hunlinks
    have : Std.Symm (Function.onFun List.Disjoint (Prod.snd : SealedName × List ChatMessage → List ChatMessage)) :=
      ⟨fun _ _ hd => hd.symm⟩
    exact hdisjoint.forall hsegment hother hne hm hm'
  have hsegments : ∀ segments : List (SealedName × List ChatMessage), segments ⊆ f.sealedSegments →
      (segments.filter fun segment => !f.unlinks oldestSeq segment.1).flatMap Prod.snd =
        (segments.flatMap Prod.snd).filter (· ∉ f.unlinkedLines oldestSeq) := by
    intro segments hsub
    induction segments with
    | nil => rfl
    | cons segment rest ih =>
      obtain ⟨hsegment,hrest⟩ := List.cons_subset.mp hsub
      rw [List.flatMap_cons,List.filter_append,← ih hrest]
      cases hunlinks : f.unlinks oldestSeq segment.1 with
      | false =>
        have hall : segment.2.filter (· ∉ f.unlinkedLines oldestSeq) = segment.2 := by
          apply List.filter_eq_self.mpr
          intro m hm
          exact decide_eq_true (hkept segment hsegment hunlinks m hm)
        rw [hall,List.filter_cons_of_pos (by simp [hunlinks]),List.flatMap_cons]
      | true =>
        have hnone : segment.2.filter (· ∉ f.unlinkedLines oldestSeq) = [] := by
          apply List.filter_eq_nil_iff.mpr
          intro m hm hgone
          exact of_decide_eq_true hgone
            (List.mem_flatMap.mpr ⟨segment,List.mem_filter.mpr ⟨hsegment,hunlinks⟩,hm⟩)
        rw [hnone,List.filter_cons_of_neg (by simp [hunlinks]),List.nil_append]
  have hactive' : f.active.filter (· ∉ f.unlinkedLines oldestSeq) = f.active := by
    apply List.filter_eq_self.mpr
    intro m hm
    apply decide_eq_true
    intro hgone
    obtain ⟨segment,hsegment,hm'⟩ := List.mem_flatMap.mp hgone
    exact hactive m (List.mem_flatMap.mpr ⟨segment,List.mem_of_mem_filter hsegment,hm'⟩) m hm rfl
  show (f.sealedSegments.filter _).flatMap Prod.snd ++ f.active = _
  rw [lines,List.filter_append,hactive',hsegments f.sealedSegments (List.Subset.refl _)]

theorem unlinkedLines_subset (f : HistoryFiles) (oldestSeq : ℕ) : f.unlinkedLines oldestSeq ⊆ f.lines := by
  intro m hm
  obtain ⟨segment,hsegment,hm⟩ := List.mem_flatMap.mp hm
  exact List.mem_append_left _ (List.mem_flatMap.mpr ⟨segment,List.mem_of_mem_filter hsegment,hm⟩)

end HistoryFiles

/-! ## Tool cycles -/

/-- The first line that is left behind a removed one is there, and is no result of a tool. -/
def CyclesWhole (removed lines : List ChatMessage) : Prop :=
  ∀ x rest, x :: rest <:+ lines → x ∈ removed → ∃ y, (rest.filter (· ∉ removed)).head? = some y ∧ y.role ≠ .tool

namespace CyclesWhole
variable {removed lines : List ChatMessage} {x : ChatMessage} {isActive : Option ℕ → Bool}

theorem tail (h : CyclesWhole removed (x :: lines)) : CyclesWhole removed lines :=
  fun y rest hs => h y rest (hs.trans (List.suffix_cons x lines))

/-- The open cycle makes no difference to a list that begins with no result. -/
theorem filterVisible_cycle (cycle cycle' : Option (Option ℕ)) (hx : ∀ y ∈ lines.head?, y.role ≠ .tool) :
    filterVisibleOnActiveBranch isActive cycle lines = filterVisibleOnActiveBranch isActive cycle' lines := by
  cases lines with
  | nil => rfl
  | cons y rest =>
    have hy := hx y rfl
    rw [filterVisibleOnActiveBranch,filterVisibleOnActiveBranch,if_neg hy,if_neg hy]

/-- The branch filter and the removal of lines commute. -/
theorem filterVisible_filter (h : CyclesWhole removed lines) (cycle : Option (Option ℕ)) :
    filterVisibleOnActiveBranch isActive cycle (lines.filter (· ∉ removed)) =
      (filterVisibleOnActiveBranch isActive cycle lines).filter (· ∉ removed) := by
  induction lines generalizing cycle with
  | nil => rfl
  | cons x rest ih =>
    have hrest := ih h.tail
    by_cases hx : x ∈ removed
    · obtain ⟨y,hy,hrole⟩ := h x rest List.suffix_rfl hx
      have hhead : ∀ z ∈ (rest.filter (· ∉ removed)).head?, z.role ≠ .tool := by
        intro z hz
        rw [hy] at hz
        cases hz
        exact hrole
      rw [List.filter_cons_of_neg (by simpa using hx),filterVisibleOnActiveBranch]
      split <;> split
      · rw [List.filter_cons_of_neg (by simpa using hx)]
        exact hrest _
      · exact hrest _
      · rw [List.filter_cons_of_neg (by simpa using hx),← hrest]
        exact filterVisible_cycle _ _ hhead
      · rw [← hrest]
        exact filterVisible_cycle _ _ hhead
    · rw [List.filter_cons_of_pos (by simpa using hx),filterVisibleOnActiveBranch,filterVisibleOnActiveBranch]
      split <;> split
      · rw [List.filter_cons_of_pos (by simpa using hx),hrest]
      · exact hrest _
      · rw [List.filter_cons_of_pos (by simpa using hx),hrest]
      · exact hrest _

theorem append (h : CyclesWhole removed lines) {new : List ChatMessage} (hnew : ∀ m ∈ new, m ∉ removed) :
    CyclesWhole removed (lines ++ new) := by
  intro x rest hs hx
  obtain ⟨front,hfront⟩ := hs
  rcases List.append_eq_append_iff.mp hfront with ⟨tail,rfl,htail⟩ | ⟨tail,-,rfl⟩
  · cases tail with
    | nil =>
      rw [List.nil_append] at htail
      exact absurd hx (hnew x (htail ▸ List.mem_cons_self))
    | cons z tail =>
      obtain ⟨rfl,rfl⟩ := List.cons.inj htail
      obtain ⟨y,hy,hrole⟩ := h x tail (List.suffix_append _ _) hx
      refine ⟨y,?_,hrole⟩
      show ((tail ++ new).filter (· ∉ removed)).head? = some y
      rw [List.filter_append,List.head?_append,hy,Option.some_or]
  · exact absurd hx (hnew x (List.mem_append_right _ List.mem_cons_self))

/-- A line that is left has no removed line above it in its cycle. -/
theorem governs (h : CyclesWhole removed lines) {a m : ChatMessage} (hg : Governs lines a m) (hm : m ∉ removed) :
    Governs (lines.filter (· ∉ removed)) a m := by
  rcases hg with ⟨rfl,hmem⟩ | ⟨ha,htool,results,hresults,hin⟩
  · exact .inl ⟨rfl,List.mem_filter.mpr ⟨hmem,decide_eq_true hm⟩⟩
  · obtain ⟨front,back,hlines⟩ := hin
    -- the first line left behind a removed one would be a result, or `m`
    have hstays : ∀ x ∈ a :: results, x ∉ removed := by
      intro x hx hgone
      obtain ⟨earlier,later,hsplit⟩ := List.append_of_mem hx
      have hsuffix : x :: (later ++ m :: back) <:+ lines := by
        rw [← hlines,hsplit]
        exact ⟨front ++ earlier,by simp⟩
      obtain ⟨y,hy,hrole⟩ := h x _ hsuffix hgone
      rw [List.filter_append,List.filter_cons_of_pos (by simpa using hm),List.head?_append,List.head?_cons] at hy
      cases hhead : (later.filter (· ∉ removed)).head? with
      | none =>
        rw [hhead,Option.none_or] at hy
        cases hy
        exact hrole htool
      | some z =>
        rw [hhead,Option.some_or] at hy
        cases hy
        have hlater : y ∈ later := List.mem_of_mem_filter (List.mem_of_head? hhead)
        cases earlier with
        | nil =>
          obtain ⟨-,rfl⟩ := List.cons.inj hsplit
          exact hrole (hresults y hlater)
        | cons b earlier =>
          obtain ⟨-,rfl⟩ := List.cons.inj hsplit
          exact hrole (hresults y (by simp [hlater]))
    refine .inr ⟨ha,htool,results,hresults,?_⟩
    have hself : (a :: results ++ [m]).filter (· ∉ removed) = a :: results ++ [m] := by
      apply List.filter_eq_self.mpr
      intro x hx
      apply decide_eq_true
      rcases List.mem_append.mp hx with hx | hx
      · exact hstays x hx
      · rw [List.mem_singleton.mp hx]
        exact hm
    rw [← hself]
    exact List.IsInfix.filter _ ⟨front,back,hlines⟩

/-- Two removals, one after the other. -/
theorem union {more : List ChatMessage} (h : CyclesWhole removed lines)
    (hmore : CyclesWhole more (lines.filter (· ∉ removed))) : CyclesWhole (removed ++ more) lines := by
  have hfilter : ∀ l : List ChatMessage, l.filter (· ∉ removed ++ more) = (l.filter (· ∉ removed)).filter (· ∉ more) := by
    intro l
    rw [List.filter_filter]
    apply List.filter_congr
    intro x _
    simp [Bool.and_comm]
  -- behind the first line left by the one removal, the other one's condition applies
  have hbehind : ∀ x rest, x :: rest <:+ lines → x ∈ more → x ∉ removed →
      ∃ y, (rest.filter (· ∉ removed ++ more)).head? = some y ∧ y.role ≠ .tool := by
    intro x rest hs hx hstays
    rw [hfilter]
    apply hmore x _ _ hx
    have hs' := hs.filter (· ∉ removed)
    rw [List.filter_cons_of_pos (by simpa using hstays)] at hs'
    exact hs'
  intro x rest hs hx
  by_cases hgone : x ∈ removed
  · obtain ⟨y,hy,hrole⟩ := h x rest hs hgone
    obtain ⟨tail,htail⟩ := List.head?_eq_some_iff.mp hy
    by_cases hy' : y ∈ more
    · have hs' : y :: tail <:+ lines.filter (· ∉ removed) := by
        rw [← htail]
        exact ((List.suffix_cons x rest).trans hs).filter _
      obtain ⟨z,hz,hz'⟩ := hmore y tail hs' hy'
      refine ⟨z,?_,hz'⟩
      rw [hfilter,htail,List.filter_cons_of_neg (by simpa using hy')]
      exact hz
    · refine ⟨y,?_,hrole⟩
      rw [hfilter,htail,List.filter_cons_of_pos (by simpa using hy')]
      rfl
  · exact hbehind x rest hs ((List.mem_append.mp hx).resolve_left hgone) hgone

end CyclesWhole
end Reyn
