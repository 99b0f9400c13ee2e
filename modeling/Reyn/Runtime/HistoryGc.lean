import Reyn.Runtime.ChatInvariant
import Reyn.Runtime.HistorySegments

/-! # The removal of old history segments

A pass decides by the names of the sealed segments alone: it compares their numbers with
the oldest entry of the write-ahead log and with the ranges of all the folds in the files.
What a reader is shown is decided by the anchors of the lines, and by one fold.
-/
namespace Reyn
open Py TimeTravel Transition

namespace Wal

/-- The oldest entry that is left; a `checkout` to anything before it is refused. -/
def oldestKeptSeq (w : Wal) : Option ℕ := w.lines.head?.map (·.seq)

def acceptsCheckout (w : Wal) (seq : ℕ) : Bool := w.oldestKeptSeq.all (· ≤ seq)

/-- `truncate_below`, which keeps the reset-records and the last entry. -/
def truncateBelow (w : Wal) (minKeepSeq : ℕ) : Wal where
  lines := w.lines.filter fun l => min minKeepSeq w.head ≤ l.seq || isRewind l.event
  increasing := w.increasing.sublist List.filter_sublist

end Wal

/-- The segments of one session with their lines, and what the process knows of the active one. -/
structure HistoryFiles where
  sealedSegments : List (SealedName × List ChatMessage)
  active : List ChatMessage
  facts : SegmentFacts

namespace HistoryFiles

def lines (f : HistoryFiles) : List ChatMessage := f.sealedSegments.flatMap Prod.snd ++ f.active

/-- A line, after a seal of the active segment where that is due. -/
def writeLine (lineBytes : ChatMessage → ℕ) (segmentMaxBytes : ℕ) (f : HistoryFiles) (m : ChatMessage) : HistoryFiles :=
  if f.facts.handleOpen && f.facts.maxSeq.isSome && segmentMaxBytes ≤ (f.active.map lineBytes).sum then
    ⟨f.sealedSegments ++ [(f.facts.sealedAs,f.active)],[m],SegmentFacts.fresh.wrote m.seq (m.role == .summary)⟩
  else ⟨f.sealedSegments,f.active ++ [m],f.facts.wrote m.seq (m.role == .summary)⟩

/-- `read_history_tail_segmented` on the lines from the last one. -/
def readHistoryTail (count : ℕ) (seenSummary : Bool) : List ChatMessage → List ChatMessage
  | [] => []
  | m :: rest =>
    if historyHydrateMinLines ≤ count + 1 && (seenSummary || m.role == .summary) then [m]
    else m :: readHistoryTail (count + 1) (seenSummary || m.role == .summary) rest

def historyMarginBoundarySeq (f : HistoryFiles) : Option ℕ :=
  (readHistoryTail 0 false f.lines.reverse).getLast?.map (·.seq)

def compactedRange (m : ChatMessage) : Option (ℕ × ℕ) :=
  if m.role = .summary then
    m.coversFromSeq.bind fun first => if 0 < m.coversThroughSeq then some (first,m.coversThroughSeq) else none
  else none

/-- The ranges in the segments that may hold a summary. -/
def historyCompactedRanges (f : HistoryFiles) : List (ℕ × ℕ) :=
  ((f.sealedSegments.filter (·.1.hasSummary)).flatMap Prod.snd ++ f.active).filterMap compactedRange

/-- The merged ranges, the last one first. -/
def mergeRange (merged : List (ℕ × ℕ)) (range : ℕ × ℕ) : List (ℕ × ℕ) :=
  match merged with
  | [] => [range]
  | last :: rest => if range.1 ≤ last.2 + 1 then (last.1,max last.2 range.2) :: rest else range :: last :: rest

def rangeUnionCovers (minSeq maxSeq : ℕ) (ranges : List (ℕ × ℕ)) : Bool :=
  ((ranges.insertionSort fun a b => a.1 < b.1 ∨ a.1 = b.1 ∧ a.2 ≤ b.2).foldl mergeRange []).any fun merged =>
    merged.1 ≤ minSeq && maxSeq ≤ merged.2

/-- Whether a pass removes the segment of that name. -/
def unlinks (f : HistoryFiles) (oldestSeq : ℕ) (name : SealedName) : Bool :=
  f.historyMarginBoundarySeq.any fun boundary =>
    !name.hasSummary && name.maxSeq < oldestSeq && name.maxSeq < boundary &&
      rangeUnionCovers name.minSeq name.maxSeq f.historyCompactedRanges

/-- The lines a pass removes. -/
def unlinkedLines (f : HistoryFiles) (oldestSeq : ℕ) : List ChatMessage :=
  (f.sealedSegments.filter fun segment => f.unlinks oldestSeq segment.1).flatMap Prod.snd

/-- `_gc_one_session_history` -/
def gcOneSessionHistory (f : HistoryFiles) (oldestSeq : ℕ) : HistoryFiles :=
  { f with sealedSegments := f.sealedSegments.filter fun segment => !f.unlinks oldestSeq segment.1 }

end HistoryFiles

/-- A session and its files. `written` has every line that was ever written, `unlinked` those that a pass removed. -/
structure HistoryArchive where
  session : ChatSession
  files : HistoryFiles
  written : List ChatMessage
  unlinked : List ChatMessage

inductive ArchiveAction where
  | chat (a : ChatAction)
  | truncate (minKeepSeq : ℕ)
  | gc

namespace HistoryArchive

def start (w : Wal) : HistoryArchive := ⟨.start (some w),⟨[],[],.fresh⟩,[],[]⟩

/-- Whether a new entry of the log is no reset, or one that `checkout` accepts. -/
def accepted (w : Wal) (l : WalLine) : Bool := l.record?.all fun record => w.acceptsCheckout record.targetN

def allowed (s : HistoryArchive) : ChatAction → Bool
  | .logged l => s.session.stateLog.all fun w => accepted w l
  | _ => true

/-- A new process knows nothing of the active segment. -/
def filesFor (s : HistoryArchive) : ChatAction → HistoryFiles
  | .restart => { s.files with facts := .fresh }
  | _ => s.files

/-- What the step of the session has appended. -/
def appended (s : HistoryArchive) (t : ChatSession) : List ChatMessage := t.file.drop s.session.file.length

section Archive
variable (c : HistoryConfig) (segmentMaxBytes : ℕ)

def collect (s : HistoryArchive) (oldestSeq : ℕ) : HistoryArchive where
  session := { s.session with file := (s.files.gcOneSessionHistory oldestSeq).lines }
  files := s.files.gcOneSessionHistory oldestSeq
  written := s.written
  unlinked := s.unlinked ++ s.files.unlinkedLines oldestSeq

def step (s : HistoryArchive) : ArchiveAction → Option HistoryArchive
  | .chat a =>
    if s.allowed a then (ChatSession.step c s.session a).map fun t =>
      ⟨t,(s.appended t).foldl (·.writeLine c.lineBytes segmentMaxBytes) (s.filesFor a),s.written ++ s.appended t,s.unlinked⟩
    else none
  | .truncate minKeepSeq => s.session.stateLog.map fun w =>
    { s with session := s.session.withLog (w.truncateBelow minKeepSeq) }
  -- without an entry in the log the pass does nothing
  | .gc => s.session.stateLog.map fun w => (w.oldestKeptSeq.map s.collect).getD s

/-- What a reader of these lines is shown: the branch filter, and then the coverage filter. -/
def visibleHistory (s : HistoryArchive) (lines : List ChatMessage) : List ChatMessage :=
  (s.session.activeBranch c lines).filter (stillActive (s.session.activeBranch c lines))

end Archive
end HistoryArchive
end Reyn
