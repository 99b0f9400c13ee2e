import Reyn.Lib.Calendar
import Reyn.Lib.KeyedLog
import Reyn.Lib.Runs
import Reyn.Lib.TextLines

/-! # The segments of a session's history

One active segment that is appended to, and sealed ones whose names state their range and
whether they hold a summary. A process knows of the active segment what it has written
itself; a new one reads the counter off the last line.
-/
namespace Reyn
open Py Transition

/-- An entry as it is written: what `history_record` makes of it, but for its sequence number.
`rest` has the fields behind `seq`. -/
structure HistoryMessage where
  role : String
  content : Json
  ts : String
  rest : List (String × Json)
  wf : (content.wf && Json.wfFields rest) = true
  keys : (["role","content","ts","seq"] ++ rest.map Prod.fst).Nodup

namespace HistoryMessage

def record (m : HistoryMessage) (seq : ℕ) : List (String × Json) :=
  ("role",.str m.role) :: ("content",m.content) :: ("ts",.str m.ts) :: ("seq",.int seq) :: m.rest

def text (m : HistoryMessage) (seq : ℕ) : List Char := (Json.obj (m.record seq)).text

def line (m : HistoryMessage) (seq : ℕ) : Bytes := encode (m.text seq ++ ['\n'])

theorem record_wf (m : HistoryMessage) (seq : ℕ) : (Json.obj (m.record seq)).wf = true := by
  have hkeys := m.keys
  have hwf := m.wf
  simp only [Bool.and_eq_true] at hwf
  simp only [Json.wf,Bool.and_eq_true,decide_eq_true_eq]
  refine ⟨hkeys,?_⟩
  simp [record,Json.wfFields,Json.wf,hwf.1,hwf.2]

end HistoryMessage

/-- `int(entry.get("seq", 0) or 0)` -/
def recordSeq (record : List (String × Json)) : ℕ :=
  match record.lookup "seq" with
  | some (.int i) => i.toNat
  | _ => 0

def recordIsSummary (record : List (String × Json)) : Bool := record.lookup "role" == some (.str "summary")

/-! ## Names -/

/-- What the name of a sealed segment states. -/
structure SealedName where
  minSeq : ℕ
  maxSeq : ℕ
  hasSummary : Bool

def sealedSegmentName (minSeq maxSeq : ℕ) (hasSummary : Bool) : List Char :=
  'h' :: 'i' :: 's' :: 't' :: 'o' :: 'r' :: 'y' :: '-' :: (pad 12 minSeq ++
    '-' :: (pad 12 maxSeq ++ ['-',if hasSummary then 's' else 'n','.','j','s','o','n','l']))

/-- The end of the pattern: the flag, and the suffix. -/
def parseFlag : List Char → Option Bool
  | ['-','s','.','j','s','o','n','l'] => some true
  | ['-','n','.','j','s','o','n','l'] => some false
  | _ => none

def parseRange (minSeq : ℕ) : List Char → Option SealedName
  | '-' :: rest => (digits (rest.take 12)).bind fun maxSeq => (parseFlag (rest.drop 12)).map (⟨minSeq,maxSeq,·⟩)
  | _ => none

def parseSealedSegmentName : List Char → Option SealedName
  | 'h' :: 'i' :: 's' :: 't' :: 'o' :: 'r' :: 'y' :: '-' :: rest =>
    (digits (rest.take 12)).bind fun minSeq => parseRange minSeq (rest.drop 12)
  | _ => none

/-- A number of more digits than the pattern has room for is not read back. -/
theorem parse_sealedSegmentName {minSeq maxSeq : ℕ} (hmin : minSeq < 10 ^ 12) (hmax : maxSeq < 10 ^ 12) (hasSummary : Bool) :
    parseSealedSegmentName (sealedSegmentName minSeq maxSeq hasSummary) = some ⟨minSeq,maxSeq,hasSummary⟩ := by
  have hlo : (pad 12 minSeq).length = 12 := length_pad (by decide) hmin
  have hhi : (pad 12 maxSeq).length = 12 := length_pad (by decide) hmax
  have hflag : parseFlag ['-',if hasSummary then 's' else 'n','.','j','s','o','n','l'] = some hasSummary := by
    cases hasSummary <;> rfl
  have hrange : parseRange minSeq ('-' :: (pad 12 maxSeq ++ ['-',if hasSummary then 's' else 'n','.','j','s','o','n','l'])) =
      some ⟨minSeq,maxSeq,hasSummary⟩ := by
    rw [parseRange,List.take_left' hhi,digits_pad,Option.bind_some,List.drop_left' hhi,hflag]
    rfl
  rw [sealedSegmentName,parseSealedSegmentName,List.take_left' hlo,digits_pad,Option.bind_some,List.drop_left' hlo,hrange]

/-! ## The directory -/

/-- The sealed segments in the order in which they were sealed, and the active one. -/
structure HistoryDir where
  sealedSegments : List (List Char × Bytes)
  active : Option Bytes

/-- `list_sealed_segments`, in the order of the lower ends. -/
def listSealedSegments (d : HistoryDir) : List (SealedName × Bytes) :=
  (d.sealedSegments.filterMap fun p => (parseSealedSegmentName p.1).map fun name => (name,p.2)).insertionSort
    fun a b => a.1.minSeq ≤ b.1.minSeq

def allSegmentsOldestFirst (d : HistoryDir) : List Bytes := (listSealedSegments d).map Prod.snd ++ d.active.toList

/-- A forward read of all the segments; `none` for a `UnicodeDecodeError`. -/
def forwardRead (d : HistoryDir) : Option (List (List (String × Json))) :=
  ((allSegmentsOldestFirst d).mapM textObjects).map List.flatten

/-- `read_last_line`: the bytes behind the last line break but one at the very end. -/
def readLastLine (b : Bytes) : Option (List Char) :=
  (((splitLines (· == 10) (if b.getLast? = some 10 then b.dropLast else b)).getLast?).map decodeReplace).filter fun line =>
    strip line != []

section LastLine
variable {b : Bytes} {lines : List (List Char)} {line : List Char}

theorem strip_ne_nil {c : Char} (h : isSpace c = false) (cs : List Char) : strip (c :: cs) ≠ [] := by
  intro hnil
  rw [strip,List.dropWhile_cons_of_neg (by simp [h]),List.reverse_eq_nil_iff] at hnil
  have hspace := List.dropWhile_eq_nil_iff.mp hnil c (by simp)
  rw [h] at hspace
  cases hspace

theorem readLastLine_lined (h : Lined b lines line) (hs : strip line ≠ []) : readLastLine b = some line := by
  have hne : line ≠ [] := by
    rintro rfl
    exact hs rfl
  rw [readLastLine,if_neg (h.getLast?_ne hne),h.byteLines,List.map_append,List.map_singleton,List.getLast?_concat,
    Option.map_some,decodeReplace_of_decode (decode_encode _)]
  exact if_pos (bne_iff_ne.mpr hs)

/-- A line break at the very end does not begin another line. -/
theorem readLastLine_ended (h : Lined b (lines ++ [line]) []) (hs : strip line ≠ []) : readLastLine b = some line := by
  obtain ⟨hlast,hline⟩ := h.dropLast
  rw [readLastLine,if_pos hlast,hline.byteLines,List.map_append,List.map_singleton,List.getLast?_concat,
    Option.map_some,decodeReplace_of_decode (decode_encode _)]
  exact if_pos (bne_iff_ne.mpr hs)

theorem readLastLine_nil : readLastLine [] = none := rfl

end LastLine

/-- The counter of the last line of the newest segment that has one. -/
def peekSeq (d : HistoryDir) : ℕ :=
  ((((allSegmentsOldestFirst d).reverse.findSome? readLastLine).bind lineObject).map recordSeq).getD 0

/-- The counter after `load_history`: from the last line, or from a scan of everything, which may raise. -/
def loadNextSeq (d : HistoryDir) : Option ℕ :=
  if 0 < peekSeq d then some (peekSeq d + 1)
  else (forwardRead d).map fun records => (records.map recordSeq).foldl max 0 + 1

/-! ## A process -/

/-- What a process knows of the active segment: whether its handle is open, and what it has written through it. -/
structure SegmentFacts where
  handleOpen : Bool
  minSeq : Option ℕ
  maxSeq : Option ℕ
  hasSummary : Bool

namespace SegmentFacts

def fresh : SegmentFacts := ⟨false,none,none,false⟩

/-- The facts after another line. -/
def wrote (f : SegmentFacts) (seq : ℕ) (summary : Bool) : SegmentFacts :=
  ⟨true,some (f.minSeq.getD seq),some seq,f.hasSummary || summary⟩

def sealedAs (f : SegmentFacts) : SealedName := ⟨f.minSeq.getD 0,f.maxSeq.getD 0,f.hasSummary⟩

def name (f : SegmentFacts) : List Char := sealedSegmentName f.sealedAs.minSeq f.sealedAs.maxSeq f.sealedAs.hasSummary

end SegmentFacts

/-- `pending` holds the writes that are queued, oldest first. -/
structure HistoryProcess where
  nextSeq : ℕ
  pending : List (ℕ × HistoryMessage)
  facts : SegmentFacts

/-- The directory and the process that has it open; `completed` accounts for the writes that came to
their end since the last clear. -/
structure HistoryStore where
  dir : HistoryDir
  process : Option HistoryProcess
  completed : List (ℕ × HistoryMessage)

inductive HistoryAction where
  | append (m : HistoryMessage)
  /-- The worker writes the line that has waited longest. -/
  | write
  | clear
  /-- The process ends; with nothing pending, that is a clean exit. -/
  | crash
  /-- The process ends within a write, with that many bytes of the line on disk, or right after a seal. -/
  | tear (written : Option ℕ)
  | start

namespace HistoryStore

def init : HistoryStore := ⟨⟨[],none⟩,none,[]⟩

/-- Whether the active segment is due. -/
def isDue (segmentMaxBytes : ℕ) (d : HistoryDir) (f : SegmentFacts) : Bool :=
  f.handleOpen && f.maxSeq.isSome && d.active.any fun b => segmentMaxBytes ≤ b.length

/-- The rename of the active segment; a segment of that name is replaced. -/
def sealActive (d : HistoryDir) (f : SegmentFacts) : HistoryDir :=
  ⟨d.sealedSegments.filter (·.1 ≠ f.name) ++ [(f.name,d.active.getD [])],none⟩

/-- `_maybe_seal_active_history_segment` -/
def maybeSeal (segmentMaxBytes : ℕ) (d : HistoryDir) (f : SegmentFacts) : HistoryDir × SegmentFacts :=
  if isDue segmentMaxBytes d f then (sealActive d f,.fresh) else (d,f)

/-- Bytes at the end of the active segment, which is created if need be. -/
def extend (d : HistoryDir) (bytes : Bytes) : HistoryDir := { d with active := some (d.active.getD [] ++ bytes) }

def step (segmentMaxBytes : ℕ) (s : HistoryStore) : HistoryAction → Option HistoryStore
  | .append m => s.process.map fun p =>
    { s with process := some { p with nextSeq := p.nextSeq + 1, pending := p.pending ++ [(p.nextSeq,m)] } }
  | .write => s.process.bind fun p => p.pending.head?.map fun job =>
    ⟨extend (maybeSeal segmentMaxBytes s.dir p.facts).1 (job.2.line job.1),
      some ⟨p.nextSeq,p.pending.tail,(maybeSeal segmentMaxBytes s.dir p.facts).2.wrote job.1 (job.2.role == "summary")⟩,
      s.completed ++ [job]⟩
  -- the queue is flushed before, and the next segment is opened at once
  | .clear => s.process.bind fun p =>
    if p.pending = [] then some ⟨⟨[],some []⟩,some ⟨p.nextSeq,[],⟨true,none,none,false⟩⟩,[]⟩ else none
  | .crash => s.process.map fun _ => { s with process := none }
  | .tear written => s.process.bind fun p => p.pending.head?.bind fun job =>
    match written with
    | none => some { s with dir := (maybeSeal segmentMaxBytes s.dir p.facts).1, process := none }
    | some n =>
      if n < (job.2.line job.1).length then
        some { s with
          dir := extend (maybeSeal segmentMaxBytes s.dir p.facts).1 ((job.2.line job.1).take n)
          process := none }
      else none
  | .start =>
    if s.process.isNone then (loadNextSeq s.dir).map fun nextSeq => { s with process := some ⟨nextSeq,[],.fresh⟩ } else none

end HistoryStore
end Reyn
