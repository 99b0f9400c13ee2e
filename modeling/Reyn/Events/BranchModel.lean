import Reyn.Events.SnapshotGenerations
import Reyn.Lib.Lineage

/-! # The branch model is time travel

The code never replays the history of the head: it makes one descending pass over
the reset-records and skips those inside an interval abandoned already. The pass
keeps exactly the records on the lineage of the head, so the derived predicate is
membership in the lineage, for the global timeline and for every scope.
-/
namespace Reyn
open Py TimeTravel

/-- An entry with its sequence number; a reset-record targets an earlier one. -/
structure WalLine where
  seq : ℕ
  event : Event
  pos : 0 < seq
  stamped : event.seq? = some (seq : Int)
  rewinds : isRewind event → ∃ record, decodeRewind event = .ok record ∧ record.targetN < seq

/-- A log: entries in increasing order of their sequence numbers. -/
structure Wal where
  lines : List WalLine
  increasing : lines.Pairwise (·.seq < ·.seq)

theorem Wal.increasing_nil : ([] : List WalLine).Pairwise (·.seq < ·.seq) := List.Pairwise.nil

namespace WalLine

def record? (l : WalLine) : Option RewindRecord :=
  if isRewind l.event then (decodeRewind l.event).toOption else none

theorem decodeRewind_r {e : Event} {record : RewindRecord} {seq : ℕ} (h : decodeRewind e = .ok record)
    (hs : e.seq? = some (seq : Int)) : record.r = seq := by
  simp only [Event.seq?,Option.bind_eq_some_iff] at hs
  obtain ⟨v,hv,hi⟩ := hs
  simp only [decodeRewind,Event.item,hv,needInt,hi,bind,Except.bind] at h
  cases hn : e.get? "target_n" with
  | none => simp [hn] at h
  | some n =>
    cases hni : n.asInt with
    | none => simp [hn,hni] at h
    | some i =>
      cases hd : decodeScope (e.getD "scope" .null) with
      | error err => simp [hn,hni,hd] at h
      | ok scope =>
        simp only [hn,hni,hd,pure,Except.pure,Except.ok.injEq] at h
        exact h ▸ Int.toNat_natCast seq

theorem decodeRewind_checkout (seq : ℕ) (ts : String) (targetSeq : ℕ) (supersedes : Option ℕ) (scope : Scope) :
    decodeRewind (walEntry seq ts "rewind" (checkoutFields targetSeq supersedes scope)) =
      .ok ⟨seq,targetSeq,scope.tuple⟩ := by
  have hseq : Event.item (walEntry seq ts "rewind" (checkoutFields targetSeq supersedes scope)) "seq" =
      .ok (.int seq) := by simp [Event.item,Dict.get?,walEntry_items]
  have hn : Event.item (walEntry seq ts "rewind" (checkoutFields targetSeq supersedes scope)) "target_n" =
      .ok (.int targetSeq) := walEntry_item _ _ _ _ (by simp) (by simp [checkoutFields])
  have hscope : decodeScope (Event.getD (walEntry seq ts "rewind" (checkoutFields targetSeq supersedes scope))
      "scope" .null) = .ok scope.tuple := by
    cases scope <;>
      simp [decodeScope,needArr,walEntry_getD,checkoutFields,Scope.tuple,Dict.lookup_cons,Except.map]
  simp only [decodeRewind,hseq,hn,hscope,needInt,Json.asInt_int,bind,Except.bind,pure,Except.pure,
    Int.toNat_natCast]

/-- The line of an append of any other kind. -/
def ordinary (seq : ℕ) (ts kind : String) (fields : WalFields) (pos : 0 < seq) (hk : kind ≠ "rewind") :
    WalLine where
  seq := seq
  event := walEntry seq ts kind fields
  pos := pos
  stamped := walEntry_seq? seq ts kind fields
  rewinds h := absurd h (by simp [isRewind,hk])

/-- The line `checkout` appends. -/
def reset (seq : ℕ) (ts : String) (targetSeq : ℕ) (supersedes : Option ℕ) (scope : Scope)
    (h : targetSeq < seq) : WalLine where
  seq := seq
  event := walEntry seq ts "rewind" (checkoutFields targetSeq supersedes scope)
  pos := Nat.zero_lt_of_lt h
  stamped := walEntry_seq? seq ts "rewind" _
  rewinds _ := ⟨_,decodeRewind_checkout seq ts targetSeq supersedes scope,h⟩

theorem decodeRewind_record? {l : WalLine} (h : isRewind l.event) :
    ∃ record, decodeRewind l.event = .ok record ∧ l.record? = some record := by
  obtain ⟨record,hd,-⟩ := l.rewinds h
  exact ⟨record,hd,by simp [record?,h,hd,Except.toOption]⟩

theorem record?_spec {l : WalLine} {record : RewindRecord} (h : l.record? = some record) :
    record.r = l.seq ∧ record.targetN < l.seq := by
  by_cases hr : isRewind l.event
  · obtain ⟨record',hd,hlt⟩ := l.rewinds hr
    simp only [record?,hr,if_true,hd,Except.toOption,Option.some.injEq] at h
    subst h
    exact ⟨decodeRewind_r hd l.stamped,hlt⟩
  · simp [record?,hr] at h

end WalLine

namespace Wal

def events (w : Wal) : List Event := w.lines.map (·.event)

def records (w : Wal) : List RewindRecord := w.lines.filterMap WalLine.record?

/-- The sequence number of the last entry. -/
def head (w : Wal) : ℕ := (w.lines.getLast?.map (·.seq)).getD 0

theorem records_of_lines (lines : List WalLine) :
    Reyn.rewindRecordsWithScope (lines.map (·.event)) = .ok (lines.filterMap WalLine.record?) := by
  simp only [Reyn.rewindRecordsWithScope]
  induction lines with
  | nil => rfl
  | cons l rest ih =>
    by_cases h : isRewind l.event
    · obtain ⟨record,hd,hr⟩ := l.decodeRewind_record? h
      simp only [List.map_cons,List.filter_cons_of_pos h,List.mapM_cons,hd,ih,List.filterMap_cons,hr]
      rfl
    · have hr : l.record? = none := by simp [WalLine.record?,h]
      simpa only [List.map_cons,List.filter_cons_of_neg h,List.filterMap_cons,hr] using ih

theorem rewindRecordsWithScope (w : Wal) : Reyn.rewindRecordsWithScope w.events = .ok w.records :=
  records_of_lines w.lines

theorem seq_inj (w : Wal) {a b : WalLine} (ha : a ∈ w.lines) (hb : b ∈ w.lines) (h : a.seq = b.seq) :
    a = b := by
  have hn : (w.lines.map (·.seq)).Nodup := by
    rw [List.Nodup,List.pairwise_map]
    exact w.increasing.imp fun hlt => hlt.ne
  exact List.inj_on_of_nodup_map hn ha hb h

theorem seq_le_head (w : Wal) {l : WalLine} (h : l ∈ w.lines) : l.seq ≤ w.head := by
  obtain ⟨front,last,hlines⟩ := (List.eq_nil_or_concat w.lines).resolve_left (List.ne_nil_of_mem h)
  rw [List.concat_eq_append] at hlines
  have hp := w.increasing
  rw [hlines] at h hp
  have hhead : w.head = last.seq := by simp [head,hlines]
  rw [hhead]
  rcases List.mem_append.mp h with h | h
  · exact ((List.pairwise_append.mp hp).2.2 l h last (List.mem_singleton_self _)).le
  · rw [List.mem_singleton.mp h]

/-- The target of the reset-record at a sequence number, when the scope sees it. -/
def targetAt (w : Wal) (scope : Scope) (s : ℕ) : Option ℕ :=
  ((w.lines.find? fun l => l.seq = s).bind fun l => l.record?.filter (·.visible scope)).map (·.targetN)

theorem targetAt_eq_some_iff (w : Wal) (scope : Scope) (r n : ℕ) :
    w.targetAt scope r = some n ↔ (r,n) ∈ visibleRecords w.records scope := by
  simp only [targetAt,visibleRecords,records,Option.map_eq_some_iff,Option.bind_eq_some_iff,
    Option.filter_eq_some_iff,List.mem_map,List.mem_filter,List.mem_filterMap,Prod.mk.injEq]
  constructor
  · rintro ⟨record,⟨l,hl,hrec,hvis⟩,rfl⟩
    have hseq : l.seq = r := by simpa using List.find?_some hl
    exact ⟨record,⟨⟨l,List.mem_of_find?_eq_some hl,hrec⟩,hvis⟩,(l.record?_spec hrec).1.trans hseq,rfl⟩
  · rintro ⟨record,⟨⟨l,hl,hrec⟩,hvis⟩,hr,hn⟩
    have hseq : l.seq = r := (l.record?_spec hrec).1.symm.trans hr
    refine ⟨record,⟨l,?_,hrec,hvis⟩,hn⟩
    cases hf : w.lines.find? fun l => l.seq = r with
    | none => exact absurd hseq (by simpa using List.find?_eq_none.mp hf l hl)
    | some l' =>
      have hseq' : l'.seq = r := by simpa using List.find?_some hf
      rw [w.seq_inj (List.mem_of_find?_eq_some hf) hl (hseq'.trans hseq.symm)]

/-- The resets a scope sees: the global records and its own. -/
def resets (w : Wal) (scope : Scope) : Resets where
  target := w.targetAt scope
  earlier r n h := by
    obtain ⟨record,hrec,hp⟩ := List.mem_map.mp ((w.targetAt_eq_some_iff scope r n).mp h)
    obtain ⟨l,-,hl⟩ := List.mem_filterMap.mp (List.mem_filter.mp hrec).1
    obtain ⟨rfl,rfl⟩ := Prod.mk.inj hp
    obtain ⟨hr,hlt⟩ := l.record?_spec hl
    rwa [hr]

theorem record_le_head (w : Wal) (scope : Scope) {p : ℕ × ℕ} (h : p ∈ visibleRecords w.records scope) :
    p.1 ≤ w.head := by
  obtain ⟨record,hrec,rfl⟩ := List.mem_map.mp h
  obtain ⟨l,hl,hr⟩ := List.mem_filterMap.mp (List.mem_filter.mp hrec).1
  exact (l.record?_spec hr).1 ▸ w.seq_le_head hl

end Wal

section LatestFirst
variable (T : Resets) (head : ℕ)

/-- The records of a list that lie on the lineage, as intervals. -/
def onLineage (records : List (ℕ × ℕ)) : List (ℕ × ℕ) :=
  (records.filter fun p => p.1 ∈ T.lineage head).map Prod.swap

theorem isInside_onLineage (records : List (ℕ × ℕ)) (s : ℕ) :
    isInside (onLineage T head records) s = true ↔
      ∃ p ∈ records, p.1 ∈ T.lineage head ∧ p.2 < s ∧ s < p.1 := by
  simp [isInside,onLineage]

/-- The records processed first decide whether the next one is on the lineage: they
are all the records above it. -/
theorem isInside_next {before after : List (ℕ × ℕ)} {record : ℕ × ℕ}
    (hsorted : (before ++ record :: after).Pairwise fun a b => b.1 ≤ a.1)
    (hmem : ∀ r n, (r,n) ∈ before ++ record :: after ↔ T.target r = some n)
    (hle : ∀ p ∈ before ++ record :: after, p.1 ≤ head) :
    isInside (onLineage T head before) record.1 = true ↔ record.1 ∉ T.lineage head := by
  have hrec : record ∈ before ++ record :: after := by simp
  have hpos : 0 < record.1 := Nat.zero_lt_of_lt (T.earlier _ _ ((hmem record.1 record.2).mp hrec))
  rw [isInside_onLineage,T.mem_lineage_iff hpos (hle record hrec)]
  simp only [not_forall,not_not,exists_prop]
  constructor
  · rintro ⟨p,hp,hon,hjump⟩
    exact ⟨p.1,hon,p.2,(hmem p.1 p.2).mp (List.mem_append_left _ hp),hjump⟩
  · rintro ⟨r,hon,n,hn,hjump⟩
    refine ⟨(r,n),?_,hon,hjump⟩
    rcases List.mem_append.mp ((hmem r n).mpr hn) with hb | ha
    · exact hb
    · exfalso
      obtain ⟨-,hsuffix,-⟩ := List.pairwise_append.mp hsorted
      rcases List.mem_cons.mp ha with rfl | ha
      · exact lt_irrefl _ hjump.2
      · exact absurd ((List.pairwise_cons.mp hsuffix).1 _ ha) (Nat.not_le.mpr hjump.2)

/-- The descending pass keeps exactly the records on the lineage. -/
theorem foldl_abandonStep (before after : List (ℕ × ℕ))
    (hsorted : (before ++ after).Pairwise fun a b => b.1 ≤ a.1)
    (hmem : ∀ r n, (r,n) ∈ before ++ after ↔ T.target r = some n)
    (hle : ∀ p ∈ before ++ after, p.1 ≤ head) :
    after.foldl abandonStep (onLineage T head before) = onLineage T head (before ++ after) := by
  induction after generalizing before with
  | nil => simp
  | cons record after ih =>
    have hstep : abandonStep (onLineage T head before) record = onLineage T head (before ++ [record]) := by
      have hnext := isInside_next T head hsorted hmem hle
      unfold abandonStep
      by_cases hon : record.1 ∈ T.lineage head
      · rw [if_neg (fun h => hnext.mp h hon)]
        simp [onLineage,hon,Prod.swap]
      · rw [if_pos (hnext.mpr hon)]
        simp [onLineage,hon]
    have hassoc : before ++ record :: after = (before ++ [record]) ++ after := by simp
    rw [hassoc] at hsorted hmem hle
    rw [List.foldl_cons,hstep,ih (before ++ [record]) hsorted hmem hle,hassoc]

theorem makeIsActive_abandonedIntervals {records : List (ℕ × ℕ)}
    (hmem : ∀ r n, (r,n) ∈ records ↔ T.target r = some n) (hle : ∀ p ∈ records, p.1 ≤ head) {s : ℕ}
    (hs : 0 < s) (hsh : s ≤ head) :
    makeIsActive (abandonedIntervals records) s = true ↔ s ∈ T.lineage head := by
  have hsorted := List.pairwise_insertionSort (fun a b : ℕ × ℕ => b.1 ≤ a.1) records
  have hmem' : ∀ r n, (r,n) ∈ records.insertionSort (fun a b => b.1 ≤ a.1) ↔ T.target r = some n :=
    fun r n => (List.mem_insertionSort _).trans (hmem r n)
  have hle' : ∀ p ∈ records.insertionSort (fun a b => b.1 ≤ a.1), p.1 ≤ head :=
    fun p hp => hle p ((List.mem_insertionSort _).mp hp)
  have hfold := foldl_abandonStep T head [] _ hsorted hmem' hle'
  rw [List.nil_append] at hfold
  have hall : abandonedIntervals records =
      onLineage T head (records.insertionSort fun a b => b.1 ≤ a.1) := hfold
  rw [makeIsActive,Bool.not_eq_true',Bool.eq_false_iff,hall,ne_eq,isInside_onLineage,
    T.mem_lineage_iff hs hsh]
  constructor
  · intro hno r hr n hn hjump
    exact hno ⟨(r,n),(hmem' r n).mpr hn,hr,hjump⟩
  · rintro hno ⟨p,hp,hon,hjump⟩
    exact hno p.1 hon p.2 ((hmem' p.1 p.2).mp hp) hjump

end LatestFirst

/-- The predicate the code derives from the log, as a value. -/
def Wal.isActive (w : Wal) (scope : Scope) : ℕ → Bool :=
  makeIsActive (abandonedIntervals (visibleRecords w.records scope))

theorem Wal.buildActivePredicate (w : Wal) (scope : Scope) :
    Reyn.buildActivePredicate w.events scope = .ok (w.isActive scope) := by
  rw [Reyn.buildActivePredicate,w.rewindRecordsWithScope]
  rfl

theorem Wal.isActive_iff (w : Wal) (scope : Scope) {s : ℕ} (hs : 0 < s) (hsh : s ≤ w.head) :
    w.isActive scope s = true ↔ s ∈ (w.resets scope).lineage w.head :=
  makeIsActive_abandonedIntervals (w.resets scope) w.head
    (fun r n => (w.targetAt_eq_some_iff scope r n).symm) (fun _ hp => w.record_le_head scope hp) hs hsh

/-- The latest-first derivation is time travel: on every log and for every scope the
derived predicate is membership in the lineage of the head. -/
theorem buildActivePredicate_lineage (w : Wal) (scope : Scope) :
    ∃ isActive, Reyn.buildActivePredicate w.events scope = .ok isActive ∧
      ∀ s, 0 < s → s ≤ w.head → (isActive s = true ↔ s ∈ (w.resets scope).lineage w.head) :=
  ⟨w.isActive scope,w.buildActivePredicate scope,fun _ hs hsh => w.isActive_iff scope hs hsh⟩

/-- An undo of the second entry, and an undo of the undo. -/
def sampleWal : Wal where
  lines := [.ordinary 1 "t" "inbox_put" ⟨[],by simp,by simp⟩ (by decide) (by decide),
    .ordinary 2 "t" "inbox_put" ⟨[],by simp,by simp⟩ (by decide) (by decide),
    .reset 3 "t" 1 none none (by decide),.reset 4 "t" 2 (some 3) none (by decide)]
  increasing := by simp [WalLine.ordinary,WalLine.reset]

/-- The second undo brings the second entry back. -/
theorem buildActivePredicate_lineage_sampleWal :
    ∃ isActive, Reyn.buildActivePredicate sampleWal.events none = .ok isActive ∧
      (isActive 2 = true ↔ 2 ∈ (sampleWal.resets none).lineage 4) := by
  obtain ⟨isActive,hok,h⟩ := buildActivePredicate_lineage sampleWal none
  exact ⟨isActive,hok,h 2 (by decide) (by decide)⟩

end Reyn
