import Reyn.Events.SnapshotGenerations
import Reyn.Lib.Fallible
import Reyn.Lib.LineCursor
import Reyn.Lib.Runs

/-! # The incremental index of the reset-records

The index keeps a byte offset into the log file and the identity of the file it belongs
to, and reads on from there; a file of another identity, or a shorter one, is read from
the beginning. Appends of any bytes, rewrites, removals and polls happen in any order.
File systems give a number away again, so what is needed is stated: no new file takes the
number the index remembers. What `json.loads` makes of bytes that are not plain UTF-8
text is a parameter.
-/
namespace Reyn
namespace StateLog
open Py Transition

/-! ## Lines of the log file -/

/-- What the readers accept: a dictionary with an integer `seq`. -/
structure LogEntry where
  event : Event
  seq : ℤ
  isSeq : event.seq? = some seq

def usable : Json → Option LogEntry
  | .obj fields =>
    if h : (Event.seq? (Dict.ofList fields)).isSome then some ⟨Dict.ofList fields,_,(Option.some_get h).symm⟩ else none
  | _ => none

def isByteSpace (x : UInt8) : Bool := (9 ≤ x && x ≤ 13) || x == 32

/-- `bytes.strip` -/
def stripBytes (b : Bytes) : Bytes := ((b.dropWhile isByteSpace).reverse.dropWhile isByteSpace).reverse

/-- `detect_encoding`: no byte order mark, and no null byte among the first. -/
def isUtf8 (b : Bytes) : Bool := !([0xEF,0xBB,0xBF].isPrefixOf b) && (b.take 4).all (· != 0)

section Lines
variable (otherLoads : Bytes → Option Json)

def loadsBytes (b : Bytes) : Option Json :=
  match decode b with
  | some s => if isUtf8 b then Json.loads (String.ofList s) else otherLoads b
  | none => otherLoads b

def parseWalLine (raw : Bytes) : Option LogEntry :=
  if stripBytes raw = [] then none else (loadsBytes otherLoads (stripBytes raw)).bind usable

/-- How `_iter_delta` tells the lines. -/
def reading : LineCursor.Reading UInt8 LogEntry := ⟨(· == 10),parseWalLine otherLoads⟩

end Lines

/-- The entry in flight is not read yet. -/
def waits (inflight : Option ℤ) (e : LogEntry) : Bool := decide (some e.seq = inflight)

/-! ## The index -/

structure LogFile (I : Type) where
  ident : I
  bytes : Bytes

/-- The log file with the number in flight, and the fields of `WalTailReader` and `_RewindIndex`. -/
structure TailWorld (I : Type) where
  file : Option (LogFile I)
  inflight : Option ℤ
  fingerprint : Option I
  offset : ℕ
  records : List RewindRecord

/-- The body of the loop in `records`. -/
def rewinds : LineCursor.Consumer LogEntry RewindRecord PyError where
  take e := if isRewind e.event then (decodeRewind e.event).toOption.toList else []
  fails e :=
    if isRewind e.event then
      match decodeRewind e.event with
      | .ok _ => none
      | .error x => some x
    else none

section Index
variable {I : Type} [DecidableEq I] (otherLoads : Bytes → Option Json)

def restarted (w : TailWorld I) (file : LogFile I) : Bool :=
  decide (w.fingerprint ≠ some file.ident) || decide (file.bytes.length < w.offset)

def startOf (w : TailWorld I) (file : LogFile I) : ℕ := if restarted w file then 0 else w.offset

/-- The records that are kept when the file is read. -/
def keptOf (w : TailWorld I) (file : LogFile I) : List RewindRecord := if restarted w file then [] else w.records

/-- `_iter_delta` with the loop that goes through its entries; the offset stands behind the entry the loop gives up at. -/
def delta (w : TailWorld I) (file : LogFile I) : List RewindRecord × ℕ × Option PyError :=
  LineCursor.consume (reading otherLoads) (waits w.inflight) rewinds (file.bytes.drop (startOf w file)).length
    (file.bytes.drop (startOf w file)) (startOf w file) (keptOf w file)

/-- `_RewindIndex.records` with the poll it makes: the list, or the exception of a malformed record. -/
def records (w : TailWorld I) : Except PyError (List RewindRecord) × TailWorld I :=
  match w.file with
  | none =>
    let kept := if w.fingerprint.isSome then [] else w.records
    (.ok kept,{ w with fingerprint := none, offset := 0, records := kept })
  | some file =>
    let r := delta otherLoads w file
    (match r.2.2 with
      | none => .ok r.1
      | some x => .error x,
      { w with fingerprint := some file.ident, offset := r.2.1, records := r.1 })

/-- What happens to the file and the index. -/
inductive TailAction (I : Type) where
  /-- Bytes go to the end of the file; a missing file is created. -/
  | append (ident : I) (b : Bytes)
  /-- The writer begins an entry, or is done with it. -/
  | mark (seq : Option ℤ)
  /-- Another file is renamed over the log. -/
  | replace (ident : I) (b : Bytes)
  | remove
  | poll

def tailStep (w : TailWorld I) : TailAction I → Option (TailWorld I)
  | .append ident b =>
    match w.file with
    | none => some { w with file := some ⟨ident,b⟩ }
    | some file => some { w with file := some { file with bytes := file.bytes ++ b } }
  | .mark seq => some { w with inflight := seq }
  | .replace ident b => some { w with file := some ⟨ident,b⟩ }
  | .remove => some { w with file := none }
  | .poll => some (records otherLoads w).2

def TailWorld.init : TailWorld I := ⟨none,none,none,0,[]⟩

/-- What the first poll of a new reader yields. -/
def tailEntries (inflight : Option ℤ) (b : Bytes) : List LogEntry :=
  LineCursor.entries (reading otherLoads) (waits inflight) b

/-- A new file does not get the number that the index remembers, and the writer begins with a number no entry has. -/
def Fresh (w : TailWorld I) : TailAction I → Prop
  | .append ident _ => w.file = none → w.fingerprint ≠ some ident
  | .mark seq => ∀ file ∈ w.file, ∀ e ∈ tailEntries otherLoads none file.bytes, some e.seq ≠ seq
  | .replace ident _ => w.fingerprint ≠ some ident
  | .remove => True
  | .poll => True

/-- The full scan: what a reader that begins now would yield. -/
def rescan (w : TailWorld I) : List Event :=
  match w.file with
  | none => []
  | some file => (tailEntries otherLoads w.inflight file.bytes).map LogEntry.event

/-- The reset-records of a log that can be read. -/
def wellFormed (wal : List Event) : List RewindRecord := (wal.filter isRewind).flatMap fun e => (decodeRewind e).toOption.toList

end Index

/-! ## One poll -/

section Poll
variable {otherLoads : Bytes → Option Json} {inflight : Option ℤ} {b : Bytes} {offset : ℕ} {taken : List RewindRecord}

theorem waits_eq_false {e : LogEntry} : waits inflight e = false ↔ some e.seq ≠ inflight := by
  rw [waits,decide_eq_false_iff_not]

theorem flatMap_take (es : List LogEntry) : es.flatMap rewinds.take = wellFormed (es.map LogEntry.event) := by
  induction es with
  | nil => rfl
  | cons e es ih =>
    rw [List.flatMap_cons,ih,List.map_cons,wellFormed,wellFormed,List.filter_cons]
    cases hrewind : isRewind e.event with
    | false => simp [rewinds,hrewind]
    | true => simp [rewinds,hrewind]

/-- A full scan that succeeds met no malformed record, and has them all. -/
theorem rewindRecordsWithScope_ok {es : List LogEntry} {rs : List RewindRecord}
    (h : rewindRecordsWithScope (es.map LogEntry.event) = .ok rs) :
    (∀ e ∈ es, rewinds.fails e = none) ∧ rs = wellFormed (es.map LogEntry.event) := by
  rw [rewindRecordsWithScope] at h
  constructor
  · intro e he
    cases hrewind : isRewind e.event with
    | false => simp [rewinds,hrewind]
    | true =>
      have hmem : e.event ∈ (es.map LogEntry.event).filter isRewind :=
        List.mem_filter.mpr ⟨List.mem_map_of_mem he,hrewind⟩
      obtain ⟨r,hr⟩ := Fallible.mapM_ok_iff.mp ⟨rs,h⟩ e.event hmem
      simp [rewinds,hrewind,hr]
  · have hmembers := Fallible.mapM_ok_members h
    clear h
    rw [wellFormed]
    generalize (es.map LogEntry.event).filter isRewind = wal at hmembers ⊢
    induction hmembers with
    | nil => rfl
    | cons hr _ ih =>
      rw [List.flatMap_cons,hr,← ih]
      rfl

/-- The records are those of the lines in front of the offset. -/
def ReadTo (otherLoads : Bytes → Option Json) (inflight : Option ℤ) (b : Bytes) (offset : ℕ) (taken : List RewindRecord) : Prop :=
  ∃ front back es, b = front ++ back ∧ front.length = offset ∧ LineCursor.Lines (reading otherLoads) front es ∧
    (∀ e ∈ es, some e.seq ≠ inflight) ∧ taken = es.flatMap rewinds.take

theorem ReadTo.zero : ReadTo otherLoads inflight b 0 [] :=
  ⟨[],b,[],rfl,rfl,.nil,List.forall_mem_nil _,rfl⟩

theorem ReadTo.append (h : ReadTo otherLoads inflight b offset taken) (b' : Bytes) :
    ReadTo otherLoads inflight (b ++ b') offset taken := by
  obtain ⟨front,back,es,rfl,hlen,hlines,hes,htaken⟩ := h
  exact ⟨front,back ++ b',es,List.append_assoc _ _ _,hlen,hlines,hes,htaken⟩

/-- What was read is what a new reader would read first. -/
theorem tailEntries_front {front : Bytes} {es : List LogEntry} (h : LineCursor.Lines (reading otherLoads) front es)
    (hes : ∀ e ∈ es, some e.seq ≠ inflight) (back : Bytes) :
    tailEntries otherLoads inflight (front ++ back) = es ++ tailEntries otherLoads inflight back :=
  LineCursor.entries_append h (fun e he => waits_eq_false.mpr (hes e he)) back

theorem ReadTo.mark {seq : Option ℤ} (h : ReadTo otherLoads inflight b offset taken)
    (hseq : ∀ e ∈ tailEntries otherLoads none b, some e.seq ≠ seq) : ReadTo otherLoads seq b offset taken := by
  obtain ⟨front,back,es,rfl,hlen,hlines,_,htaken⟩ := h
  refine ⟨front,back,es,rfl,hlen,hlines,?_,htaken⟩
  intro e he
  apply hseq
  rw [tailEntries_front hlines (fun e' _ => Option.some_ne_none e'.seq)]
  exact List.mem_append_left _ he

/-- Reading on from the offset comes to what reading from the beginning comes to. -/
theorem ReadTo.poll {result : List RewindRecord × ℕ × Option PyError} (h : ReadTo otherLoads inflight b offset taken)
    (hr : LineCursor.consume (reading otherLoads) (waits inflight) rewinds (b.drop offset).length (b.drop offset) offset taken = result) :
    ReadTo otherLoads inflight b result.2.1 result.1 ∧
      (result.2.2 = none → result.1 = (tailEntries otherLoads inflight b).flatMap rewinds.take) ∧
      ∀ x, result.2.2 = some x → ∃ e ∈ tailEntries otherLoads inflight b, rewinds.fails e = some x := by
  obtain ⟨front,back,es,rfl,rfl,hlines,hes,rfl⟩ := h
  rw [List.drop_left] at hr
  obtain ⟨front',back',es',hc⟩ := @LineCursor.consume_spec _ _ _ _ (reading otherLoads) (waits inflight) rewinds back.length
    front.length (es.flatMap rewinds.take) back (Nat.le_refl _)
  rw [hr] at hc
  have hread : ∀ e ∈ es', some e.seq ≠ inflight := fun e he => waits_eq_false.mp (hc.read e he)
  have hall : ∀ e ∈ es ++ es', some e.seq ≠ inflight := List.forall_mem_append.mpr ⟨hes,hread⟩
  have hentries : tailEntries otherLoads inflight (front ++ back) = es ++ es' ++ tailEntries otherLoads inflight back' := by
    rw [hc.whole,← List.append_assoc]
    exact tailEntries_front (hlines.append hc.lines) hall back'
  have htaken : result.1 = (es ++ es').flatMap rewinds.take := by
    rw [hc.taken,List.flatMap_append]
  refine ⟨⟨front ++ front',back',es ++ es',?_,?_,hlines.append hc.lines,hall,htaken⟩,?_,?_⟩
  · rw [hc.whole,List.append_assoc]
  · rw [hc.offset,List.length_append]
  · intro hnone
    obtain ⟨hstuck,-⟩ := hc.ended hnone
    have hrest : tailEntries otherLoads inflight back' = [] := LineCursor.entries_stuck hstuck
    rw [htaken,hentries,hrest,List.append_nil]
  · intro x hx
    obtain ⟨e,he,hfails⟩ := hc.failed x hx
    refine ⟨e,?_,hfails⟩
    rw [hentries]
    exact List.mem_append_left _ (List.mem_append_right _ he)

end Poll

/-! ## The invariant -/

section Invariant
variable {I : Type} [DecidableEq I] {otherLoads : Bytes → Option Json} {w w' : TailWorld I} {file : LogFile I}

theorem records_none (hfile : w.file = none) : records otherLoads w =
    (.ok (if w.fingerprint.isSome then [] else w.records),
      { w with fingerprint := none, offset := 0, records := if w.fingerprint.isSome then [] else w.records }) := by
  simp only [records,hfile]

theorem records_some (hfile : w.file = some file) : records otherLoads w =
    (match (delta otherLoads w file).2.2 with
      | none => .ok (delta otherLoads w file).1
      | some x => .error x,
      { w with fingerprint := some file.ident, offset := (delta otherLoads w file).2.1, records := (delta otherLoads w file).1 }) := by
  simp only [records,hfile]

/-- What the index holds belongs to the file it remembers, wherever that file still is the log. -/
structure Consistent (otherLoads : Bytes → Option Json) (w : TailWorld I) : Prop where
  unread : w.fingerprint = none → w.records = []
  read : ∀ file ∈ w.file, w.fingerprint = some file.ident → ReadTo otherLoads w.inflight file.bytes w.offset w.records

omit [DecidableEq I] in
theorem Consistent.init : Consistent otherLoads (TailWorld.init : TailWorld I) := by
  refine ⟨fun _ => rfl,?_⟩
  intro file hfile
  cases hfile

theorem Consistent.resumed (h : Consistent otherLoads w) (hfile : w.file = some file) :
    ReadTo otherLoads w.inflight file.bytes (startOf w file) (keptOf w file) := by
  rw [startOf,keptOf]
  cases hrestarted : restarted w file with
  | true => exact ReadTo.zero
  | false =>
    rw [restarted,Bool.or_eq_false_iff,decide_eq_false_iff_not,not_not] at hrestarted
    exact h.read file hfile hrestarted.1

omit [DecidableEq I] in
theorem Consistent.forgotten (h : Consistent otherLoads w) : (if w.fingerprint.isSome then [] else w.records) = [] := by
  cases hseen : w.fingerprint with
  | none => exact h.unread hseen
  | some ident => rfl

theorem Consistent.poll (h : Consistent otherLoads w) : Consistent otherLoads (records otherLoads w).2 := by
  cases hfile : w.file with
  | none =>
    rw [records_none hfile]
    refine ⟨fun _ => h.forgotten,?_⟩
    intro file hmem
    cases hfile.symm.trans hmem
  | some file =>
    rw [records_some hfile]
    refine ⟨?_,?_⟩
    · intro hnone
      cases hnone
    · intro file' hmem _
      obtain rfl : file = file' := Option.some.inj (hfile.symm.trans hmem)
      exact ((h.resumed hfile).poll rfl).1

theorem Consistent.step {a : TailAction I} (h : Consistent otherLoads w) (hg : Fresh otherLoads w a)
    (hs : tailStep otherLoads w a = some w') : Consistent otherLoads w' := by
  cases a with
  | append ident b =>
    cases hfile : w.file with
    | none =>
      rw [tailStep,hfile] at hs
      cases hs
      refine ⟨h.unread,?_⟩
      intro file hmem hident
      cases hmem
      exact absurd hident (hg hfile)
    | some old =>
      rw [tailStep,hfile] at hs
      cases hs
      refine ⟨h.unread,?_⟩
      intro file hmem hident
      cases hmem
      exact (h.read old hfile hident).append b
  | mark seq =>
    cases hs
    refine ⟨h.unread,?_⟩
    intro file hmem hident
    exact (h.read file hmem hident).mark (hg file hmem)
  | replace ident b =>
    cases hs
    refine ⟨h.unread,?_⟩
    intro file hmem hident
    cases hmem
    exact absurd hident hg
  | remove =>
    cases hs
    refine ⟨h.unread,?_⟩
    intro file hmem
    cases hmem
  | poll =>
    cases hs
    exact h.poll

/-- The next answer, against the full scan. -/
theorem Consistent.answers (hw : Consistent otherLoads w) :
    (∀ rs, rewindRecordsWithScope (rescan otherLoads w) = .ok rs → (records otherLoads w).1 = .ok rs) ∧
      ∀ rs, (records otherLoads w).1 = .ok rs → rs = wellFormed (rescan otherLoads w) := by
  cases hfile : w.file with
  | none =>
    have hanswer : (records otherLoads w).1 = .ok [] := by
      rw [records_none hfile]
      exact congrArg Except.ok hw.forgotten
    rw [hanswer,rescan,hfile]
    exact ⟨fun _ hrs => hrs,fun _ hrs => (Except.ok.inj hrs).symm⟩
  | some file =>
    obtain ⟨-,hnone,hsome⟩ := (hw.resumed hfile).poll rfl
    rw [records_some hfile,rescan,hfile]
    dsimp only
    rw [delta]
    constructor
    · intro rs hrs
      obtain ⟨hfails,rfl⟩ := rewindRecordsWithScope_ok hrs
      split
      · rename_i hended
        rw [hnone hended,flatMap_take]
      · rename_i x hx
        obtain ⟨e,he,hfail⟩ := hsome x hx
        rw [hfails e he] at hfail
        cases hfail
    · intro rs hrs
      split at hrs
      · rename_i hended
        obtain rfl := Except.ok.inj hrs
        rw [hnone hended,flatMap_take]
      · cases hrs

theorem Consistent.of_run (h : Runs (tailStep otherLoads) (Fresh otherLoads) TailWorld.init w) : Consistent otherLoads w :=
  h.invariant Consistent.init fun _ _ _ hi hg hs => hi.step hg hs

/-- The index after any run answers what the full scan answers, where that succeeds; and what it answers are the records of
all entries of the log that may be read. -/
theorem records_rescan (h : Runs (tailStep otherLoads) (Fresh otherLoads) TailWorld.init w) :
    (∀ rs, rewindRecordsWithScope (rescan otherLoads w) = .ok rs → (records otherLoads w).1 = .ok rs) ∧
      ∀ rs, (records otherLoads w).1 = .ok rs → rs = wellFormed (rescan otherLoads w) :=
  (Consistent.of_run h).answers

/-- The line of a reset-record, as the writer appends it. -/
def resetLine (seq target : ℤ) : Bytes :=
  encode ((Json.obj [("seq",.int seq),("kind",.str "rewind"),("target_n",.int target)]).text ++ ['\n'])

def noOther : Bytes → Option Json := fun _ => none

/-- One reset-record is read, then another is appended. -/
def grownTail : TailWorld ℕ :=
  { (records noOther ⟨some ⟨1,resetLine 5 2⟩,none,none,0,[]⟩).2 with file := some ⟨1,resetLine 5 2 ++ resetLine 9 5⟩ }

theorem grown_run : Runs (tailStep noOther) (Fresh noOther) TailWorld.init grownTail := by
  have hfirst : Runs (tailStep noOther) (Fresh noOther) (TailWorld.init : TailWorld ℕ) ⟨some ⟨1,resetLine 5 2⟩,none,none,0,[]⟩ :=
    .single (show Fresh noOther _ (.append 1 (resetLine 5 2)) from fun _ => Option.some_ne_none 1 ∘ Eq.symm) rfl
  have hpoll : Runs (tailStep noOther) (Fresh noOther) TailWorld.init (records noOther ⟨some ⟨1,resetLine 5 2⟩,none,none,0,[]⟩).2 :=
    hfirst.step (show Fresh noOther _ .poll from trivial) rfl
  apply hpoll.step (show Fresh noOther _ (.append 1 (resetLine 9 5)) from _)
  · rfl
  · intro hnone
    cases hnone

theorem records_rescan_grown :
    (∀ rs, rewindRecordsWithScope (rescan noOther grownTail) = .ok rs → (records noOther grownTail).1 = .ok rs) ∧
      ∀ rs, (records noOther grownTail).1 = .ok rs → rs = wellFormed (rescan noOther grownTail) :=
  records_rescan grown_run

/-- The active branch as the index shows it is the one of the whole log. -/
theorem buildActivePredicate_index {scope : Scope} {isActive : ℕ → Bool}
    (h : Runs (tailStep otherLoads) (Fresh otherLoads) TailWorld.init w)
    (hactive : buildActivePredicate (rescan otherLoads w) scope = .ok isActive) :
    ∃ rs, (records otherLoads w).1 = .ok rs ∧ isActive = makeIsActive (abandonedIntervals (visibleRecords rs scope)) := by
  obtain ⟨rs,hrs,hmake⟩ := Fallible.bind_ok hactive
  exact ⟨rs,(Consistent.of_run h).answers.1 rs hrs,(Except.ok.inj hmake).symm⟩

end Invariant

end StateLog
end Reyn
