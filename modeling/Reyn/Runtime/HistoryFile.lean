import Reyn.Runtime.HistorySegments

/-! # A session's history over its processes

The lines on disk are those of the completed writes, in runs in which no line is added to
torn text and every segment is sealed by the process that wrote all of it.
-/
namespace Reyn
open Py Transition

/-! ## The lines of a number of writes -/

namespace HistoryStore

def textsOf (jobs : List (ℕ × HistoryMessage)) : List (List Char) := jobs.map fun j => j.2.text j.1

def linesOf (jobs : List (ℕ × HistoryMessage)) : Bytes := jobs.flatMap fun j => j.2.line j.1

def recordsOf (jobs : List (ℕ × HistoryMessage)) : List (List (String × Json)) := jobs.map fun j => j.2.record j.1

/-- The facts of a file with these lines. -/
def nameOf (jobs : List (ℕ × HistoryMessage)) : SealedName :=
  ⟨(jobs.head?.map Prod.fst).getD 0,(jobs.getLast?.map Prod.fst).getD 0,jobs.any (·.2.role == "summary")⟩

def sealedFile (jobs : List (ℕ × HistoryMessage)) : List Char × Bytes :=
  (sealedSegmentName (nameOf jobs).minSeq (nameOf jobs).maxSeq (nameOf jobs).hasSummary,linesOf jobs)

/-- The name states the smallest and the largest number in the file, and whether it has a summary. -/
def Truthful (p : List Char × Bytes) : Prop :=
  ∃ name records, parseSealedSegmentName p.1 = some name ∧ textObjects p.2 = some records ∧
    name.minSeq ∈ records.map recordSeq ∧ name.maxSeq ∈ records.map recordSeq ∧
    (∀ seq ∈ records.map recordSeq, name.minSeq ≤ seq ∧ seq ≤ name.maxSeq) ∧
    name.hasSummary = records.any recordIsSummary

/-- A forward read returns the completed messages in the order of their appends, and at most the one whose line
lacks its line break; a process, and the next one, numbers above all of them; the sealed names are true. -/
def Faithful (s : HistoryStore) : Prop :=
  ∃ (cut : Option (ℕ × HistoryMessage)) (records : List (List (String × Json))),
    forwardRead s.dir = some records ∧ records = recordsOf (s.completed ++ cut.toList) ∧
      (records.map recordSeq).Pairwise (· < ·) ∧
      (∀ p, s.process = some p → ∀ record ∈ records, recordSeq record < p.nextSeq) ∧
      (∃ nextSeq, loadNextSeq s.dir = some nextSeq ∧ ∀ record ∈ records, recordSeq record < nextSeq) ∧
      ∀ file ∈ s.dir.sealedSegments, Truthful file

section Lines
variable {jobs : List (ℕ × HistoryMessage)}

theorem recordSeq_record (m : HistoryMessage) (seq : ℕ) : recordSeq (m.record seq) = seq := by
  simp [recordSeq,HistoryMessage.record,List.lookup]

theorem recordIsSummary_record (m : HistoryMessage) (seq : ℕ) :
    recordIsSummary (m.record seq) = (m.role == "summary") := by
  simp [recordIsSummary,HistoryMessage.record]

theorem seqs_recordsOf (jobs : List (ℕ × HistoryMessage)) : (recordsOf jobs).map recordSeq = jobs.map Prod.fst := by
  rw [recordsOf,List.map_map]
  apply List.map_congr_left
  intro j _
  exact recordSeq_record j.2 j.1

theorem lined_linesOf (jobs : List (ℕ × HistoryMessage)) : Lined (linesOf jobs) (textsOf jobs) [] where
  bytes := by simp [linesOf,textsOf,joinLines,encode,HistoryMessage.line,List.flatMap_map,List.flatMap_assoc]
  lines := by
    intro line hl
    obtain ⟨j,-,rfl⟩ := List.mem_map.mp hl
    exact unbroken_text _
  tail := nofun

theorem lineObject_text (m : HistoryMessage) (seq : ℕ) : lineObject (m.text seq) = some (m.record seq) :=
  lineObject_obj (m.record_wf seq)

theorem objects_textsOf (jobs : List (ℕ × HistoryMessage)) : (textsOf jobs).filterMap lineObject = recordsOf jobs := by
  rw [textsOf,List.filterMap_map,recordsOf,← List.filterMap_eq_map]
  apply List.filterMap_congr
  intro j _
  exact lineObject_text j.2 j.1

theorem textObjects_linesOf (jobs : List (ℕ × HistoryMessage)) : textObjects (linesOf jobs) = some (recordsOf jobs) := by
  rw [(lined_linesOf jobs).objects,List.filterMap_append,objects_textsOf]
  simp [lineObject_nil]

theorem parse_sealedFile (hne : jobs ≠ []) (hlt : ∀ j ∈ jobs, j.1 < 10 ^ 12) :
    parseSealedSegmentName (sealedFile jobs).1 = some (nameOf jobs) := by
  have hhead : (nameOf jobs).minSeq = (jobs.head hne).1 := by
    simp [nameOf,List.head?_eq_some_head hne]
  have hlast : (nameOf jobs).maxSeq = (jobs.getLast hne).1 := by
    simp [nameOf,List.getLast?_eq_some_getLast hne]
  apply parse_sealedSegmentName
  · rw [hhead]
    exact hlt _ (List.head_mem hne)
  · rw [hlast]
    exact hlt _ (List.getLast_mem hne)

/-- Numbers that increase lie between the first and the last. -/
theorem nameOf_bounds (hne : jobs ≠ []) (ho : (jobs.map Prod.fst).Pairwise (· < ·)) :
    (nameOf jobs).minSeq ∈ jobs.map Prod.fst ∧ (nameOf jobs).maxSeq ∈ jobs.map Prod.fst ∧
      ∀ seq ∈ jobs.map Prod.fst, (nameOf jobs).minSeq ≤ seq ∧ seq ≤ (nameOf jobs).maxSeq := by
  obtain ⟨first,rest,rfl⟩ := List.exists_cons_of_ne_nil hne
  have hmax : (nameOf (first :: rest)).maxSeq = ((first :: rest).getLast hne).1 := by
    simp [nameOf,List.getLast?_eq_some_getLast hne]
  refine ⟨List.mem_cons_self,?_,?_⟩
  · rw [hmax]
    exact List.mem_map_of_mem (List.getLast_mem hne)
  · intro seq hseq
    constructor
    · rcases List.mem_cons.mp hseq with rfl | hseq
      · exact le_rfl
      · exact ((List.pairwise_cons.mp ho).1 seq hseq).le
    · rw [hmax]
      have hsplit : (first :: rest).map Prod.fst =
          ((first :: rest).dropLast).map Prod.fst ++ [((first :: rest).getLast hne).1] := by
        rw [← List.map_singleton,← List.map_append,List.dropLast_append_getLast]
      rw [hsplit] at ho hseq
      rcases List.mem_append.mp hseq with hseq | hseq
      · exact ((List.pairwise_append.mp ho).2.2 seq hseq _ (by simp)).le
      · exact (List.mem_singleton.mp hseq).le

theorem truthful_sealedFile (hne : jobs ≠ []) (hlt : ∀ j ∈ jobs, j.1 < 10 ^ 12)
    (ho : (jobs.map Prod.fst).Pairwise (· < ·)) : Truthful (sealedFile jobs) := by
  obtain ⟨hmin,hmax,hbounds⟩ := nameOf_bounds hne ho
  refine ⟨nameOf jobs,recordsOf jobs,parse_sealedFile hne hlt,textObjects_linesOf jobs,?_,?_,?_,?_⟩
  · rw [seqs_recordsOf]
    exact hmin
  · rw [seqs_recordsOf]
    exact hmax
  · rw [seqs_recordsOf]
    exact hbounds
  · simp [nameOf,recordsOf,List.any_map,Function.comp_def,recordIsSummary_record]

end Lines

/-! ## Runs -/

/-- The facts of a process are those of the lines that it has written. -/
def Describes (f : SegmentFacts) (own : List (ℕ × HistoryMessage)) : Prop :=
  f.minSeq = own.head?.map Prod.fst ∧ f.maxSeq = own.getLast?.map Prod.fst ∧ f.hasSummary = own.any (·.2.role == "summary")

/-- The facts have the first line of the active segment, and a name has room for the last number. -/
def SealsOwn (d : HistoryDir) (f : SegmentFacts) : Prop :=
  (∀ first rest, textObjects (d.active.getD []) = some (first :: rest) → f.minSeq = some (recordSeq first)) ∧
    ∀ seq, f.maxSeq = some seq → seq < 10 ^ 12

/-- A line begins on a line of its own, a segment is sealed by the process that wrote its first line, and a tear
falls between two characters and leaves no object, or the whole one. -/
def Regular (segmentMaxBytes : ℕ) (s : HistoryStore) : HistoryAction → Prop
  | .write => ∀ p, s.process = some p → EndsLine (s.dir.active.getD []) ∧
      (isDue segmentMaxBytes s.dir p.facts = true → SealsOwn s.dir p.facts)
  | .tear written => ∀ p job, s.process = some p → p.pending.head? = some job →
      (isDue segmentMaxBytes s.dir p.facts = true → SealsOwn s.dir p.facts) ∧
      ∀ n, written = some n → ∃ k, (job.2.line job.1).take n = encode ((job.2.text job.1).take k) ∧
        ∀ lines tail, Lined ((maybeSeal segmentMaxBytes s.dir p.facts).1.active.getD []) lines tail →
          lineObject (tail ++ (job.2.text job.1).take k) = none ∨
            tail ++ (job.2.text job.1).take k = job.2.text job.1
  | _ => True

/-- A process goes on behind what is on disk. -/
structure Continues (p : HistoryProcess) (jobs all : List (ℕ × HistoryMessage)) (tail : List Char) : Prop where
  ordered : ((all ++ p.pending).map Prod.fst).Pairwise (· < ·)
  below : ∀ j ∈ all ++ p.pending, j.1 < p.nextSeq
  facts : ∃ earlier own, jobs = earlier ++ own ∧ Describes p.facts own ∧ (own = [] ∨ tail = [])

/-- `blocks` are the writes of the sealed segments, `jobs` those of the active one, and `cut` is the one whose
line lacks its line break. -/
structure Inv (s : HistoryStore) (blocks : List (List (ℕ × HistoryMessage))) (jobs : List (ℕ × HistoryMessage))
    (cut : Option (ℕ × HistoryMessage)) (tail : List Char) : Prop where
  files : s.dir.sealedSegments = blocks.map sealedFile
  named : ∀ block ∈ blocks, block ≠ [] ∧ ∀ j ∈ block, j.1 < 10 ^ 12
  active : Lined (s.dir.active.getD []) (textsOf jobs) tail
  unfinished : lineObject tail = cut.map fun j => j.2.record j.1
  shown : ∀ c ∈ tail.head?, isSpace c = false
  completed : s.completed = blocks.flatten ++ jobs
  ordered : ((s.completed ++ cut.toList).map Prod.fst).Pairwise (· < ·)
  process : ∀ p, s.process = some p → Continues p jobs (s.completed ++ cut.toList) tail

section Invariant
variable {s s' : HistoryStore} {blocks : List (List (ℕ × HistoryMessage))} {jobs : List (ℕ × HistoryMessage)}
  {cut : Option (ℕ × HistoryMessage)} {tail : List Char}

theorem Inv.init : Inv init [] [] none [] where
  files := rfl
  named := nofun
  active := .nil
  unfinished := lineObject_nil
  shown := nofun
  completed := rfl
  ordered := List.Pairwise.nil
  process := nofun

/-- The blocks follow one another. -/
theorem Inv.blocks_ordered (h : Inv s blocks jobs cut tail) :
    (∀ block ∈ blocks, (block.map Prod.fst).Pairwise (· < ·)) ∧
      blocks.Pairwise fun x y => ∀ a ∈ x, ∀ b ∈ y, a.1 < b.1 := by
  have ho := h.ordered
  rw [h.completed,List.append_assoc,List.map_append,List.pairwise_append,List.pairwise_map,List.pairwise_flatten] at ho
  refine ⟨?_,ho.1.2⟩
  intro block hb
  rw [List.pairwise_map]
  exact ho.1.1 block hb

theorem Inv.listSealedSegments (h : Inv s blocks jobs cut tail) :
    listSealedSegments s.dir = blocks.map fun block => (nameOf block,linesOf block) := by
  have hread : (s.dir.sealedSegments.filterMap fun p => (parseSealedSegmentName p.1).map fun name => (name,p.2)) =
      blocks.map fun block => (nameOf block,linesOf block) := by
    rw [h.files,List.filterMap_map,← List.filterMap_eq_map]
    apply List.filterMap_congr
    intro block hb
    obtain ⟨hne,hlt⟩ := h.named block hb
    simp only [Function.comp_apply,parse_sealedFile hne hlt]
    rfl
  obtain ⟨hin,hbetween⟩ := h.blocks_ordered
  rw [Reyn.listSealedSegments,hread]
  apply List.Pairwise.insertionSort_eq
  rw [List.pairwise_map]
  apply hbetween.imp_of_mem
  intro x y hx hy hxy
  obtain ⟨a,ha,hmin⟩ := List.mem_map.mp (nameOf_bounds (h.named x hx).1 (hin x hx)).1
  obtain ⟨b,hb,hmin'⟩ := List.mem_map.mp (nameOf_bounds (h.named y hy).1 (hin y hy)).1
  show (nameOf x).minSeq ≤ (nameOf y).minSeq
  rw [← hmin,← hmin']
  exact (hxy a ha b hb).le

/-- Where no text is unfinished there is no line without its line break. -/
theorem Inv.cut_none (h : Inv s blocks jobs cut []) : cut = none := by
  have hnone := h.unfinished
  rw [lineObject_nil] at hnone
  exact Option.map_eq_none_iff.mp hnone.symm

theorem Inv.activeObjects (h : Inv s blocks jobs cut tail) :
    textObjects (s.dir.active.getD []) = some (recordsOf (jobs ++ cut.toList)) := by
  have htail : [tail].filterMap lineObject = recordsOf cut.toList := by
    rw [List.filterMap_cons,h.unfinished]
    cases cut <;> rfl
  rw [h.active.objects,List.filterMap_append,objects_textsOf,htail,recordsOf,recordsOf,recordsOf,List.map_append]

theorem mapM_linesOf (blocks : List (List (ℕ × HistoryMessage))) :
    (blocks.map linesOf).mapM textObjects = some (blocks.map recordsOf) := by
  induction blocks with
  | nil => rfl
  | cons block blocks ih =>
    rw [List.map_cons,List.mapM_cons,textObjects_linesOf,ih]
    rfl

theorem flatten_active (active : Option Bytes) :
    (active.toList.mapM textObjects).map List.flatten = textObjects (active.getD []) := by
  cases active with
  | none => rfl
  | some b =>
    rw [Option.toList_some,List.mapM_cons,Option.getD_some]
    cases textObjects b with
    | none => rfl
    | some records => exact congrArg some (List.append_nil records)

/-- What is read is what was completed, and the line that lacks its line break. -/
theorem Inv.forwardRead (h : Inv s blocks jobs cut tail) :
    forwardRead s.dir = some (recordsOf (s.completed ++ cut.toList)) := by
  have hactive := flatten_active s.dir.active
  rw [h.activeObjects] at hactive
  obtain ⟨rest,hrest,hflat⟩ := Option.map_eq_some_iff.mp hactive
  have hmid : (blocks.map recordsOf).flatten ++ rest.flatten = recordsOf (s.completed ++ cut.toList) := by
    rw [h.completed,List.append_assoc,hflat]
    show (blocks.map (List.map _)).flatten ++ (jobs ++ cut.toList).map _ = (blocks.flatten ++ (jobs ++ cut.toList)).map _
    rw [← List.map_flatten,← List.map_append]
  have hsegments : (Reyn.listSealedSegments s.dir).map Prod.snd = blocks.map linesOf := by
    rw [h.listSealedSegments,List.map_map]
    rfl
  rw [Reyn.forwardRead,allSegmentsOldestFirst,hsegments,List.mapM_append,mapM_linesOf,hrest,← hmid,← List.flatten_append]
  rfl

theorem head_text (m : HistoryMessage) (seq : ℕ) : (m.text seq).head? = some '{' := by
  simp [HistoryMessage.text,HistoryMessage.record,Json.text]

theorem strip_text (m : HistoryMessage) (seq : ℕ) : strip (m.text seq) ≠ [] := by
  obtain ⟨rest,hrest⟩ := List.head?_eq_some_iff.mp (head_text m seq)
  rw [hrest]
  exact strip_ne_nil (by decide) rest

/-- The last line of a file of whole lines. -/
theorem readLastLine_whole {b : Bytes} {earlier : List (ℕ × HistoryMessage)} {j : ℕ × HistoryMessage}
    (h : Lined b (textsOf (earlier ++ [j])) []) : readLastLine b = some (j.2.text j.1) := by
  rw [textsOf,List.map_append] at h
  exact readLastLine_ended h (strip_text j.2 j.1)

/-- The counter that is peeked at is nothing, or that of the last line. -/
theorem Inv.peekSeq (h : Inv s blocks jobs cut tail) :
    peekSeq s.dir = 0 ∨ some (peekSeq s.dir) = ((s.completed ++ cut.toList).map Prod.fst).getLast? := by
  have hsegments : (allSegmentsOldestFirst s.dir).reverse = s.dir.active.toList ++ (blocks.map linesOf).reverse := by
    rw [allSegmentsOldestFirst,h.listSealedSegments,List.map_map,List.reverse_append]
    cases s.dir.active <;> rfl
  have hactive : (s.dir.active.toList).findSome? readLastLine = readLastLine (s.dir.active.getD []) := by
    cases s.dir.active with
    | none => rfl
    | some b => simp
  have hfind : (allSegmentsOldestFirst s.dir).reverse.findSome? readLastLine =
      (readLastLine (s.dir.active.getD [])).or ((blocks.map linesOf).reverse.findSome? readLastLine) := by
    rw [hsegments,List.findSome?_append,hactive]
  unfold Reyn.peekSeq
  rw [hfind]
  cases tail with
  | nil =>
    obtain rfl := h.cut_none
    rw [h.completed]
    rcases List.eq_nil_or_concat jobs with rfl | ⟨earlier,j,rfl⟩
    · have hnil : s.dir.active.getD [] = [] := h.active.bytes
      rw [hnil,readLastLine_nil,Option.none_or]
      rcases List.eq_nil_or_concat blocks with rfl | ⟨front,block,rfl⟩
      · exact .inl rfl
      · obtain ⟨earlier,j,rfl⟩ := (List.eq_nil_or_concat block).resolve_left (h.named block (by simp)).1
        right
        simp only [List.concat_eq_append,List.map_append,List.reverse_append]
        simp [readLastLine_whole (lined_linesOf _),lineObject_text,recordSeq_record]
    · right
      rw [List.concat_eq_append] at h
      rw [readLastLine_whole h.active]
      simp [lineObject_text,recordSeq_record]
  | cons c rest =>
    have hstrip : strip (c :: rest) ≠ [] := strip_ne_nil (h.shown c rfl) rest
    rw [readLastLine_lined h.active hstrip,Option.some_or,Option.bind_some,h.unfinished]
    cases cut with
    | none => exact .inl rfl
    | some j => exact .inr (by simp [recordSeq_record])

/-- A new process goes on behind everything on disk. -/
theorem Inv.loadNextSeq (h : Inv s blocks jobs cut tail) :
    ∃ nextSeq, loadNextSeq s.dir = some nextSeq ∧ ∀ j ∈ s.completed ++ cut.toList, j.1 < nextSeq := by
  unfold Reyn.loadNextSeq
  by_cases hpos : 0 < Reyn.peekSeq s.dir
  · rw [if_pos hpos]
    refine ⟨_,rfl,?_⟩
    intro j hj
    have hlast := (h.peekSeq.resolve_left hpos.ne').symm
    have hmem : j.1 ∈ (s.completed ++ cut.toList).map Prod.fst := List.mem_map_of_mem hj
    have hinc : ((s.completed ++ cut.toList).map Prod.fst).Pairwise (id · < id ·) := h.ordered
    rcases KeyedLog.eq_or_lt_getLast hinc hlast hmem with heq | hlt
    · omega
    · exact Nat.lt_succ_of_lt hlt
  · rw [if_neg hpos,h.forwardRead]
    refine ⟨_,rfl,?_⟩
    intro j hj
    have hmax := (KeyedLog.le_foldl_max ((recordsOf (s.completed ++ cut.toList)).map recordSeq) 0).2
    show j.1 < ((recordsOf (s.completed ++ cut.toList)).map recordSeq).foldl max 0 + 1
    rw [seqs_recordsOf] at hmax ⊢
    exact Nat.lt_succ_of_le (hmax j.1 (List.mem_map_of_mem hj))

/-- The facts of a segment that its process wrote all of are the file's. -/
theorem Inv.facts_own {f : SegmentFacts} {earlier own : List (ℕ × HistoryMessage)} (h : Inv s blocks (earlier ++ own) none [])
    (hfacts : Describes f own) (hown : own ≠ []) (hseal : SealsOwn s.dir f) :
    earlier = [] ∧ ∀ j ∈ own, j.1 < 10 ^ 12 := by
  obtain ⟨hfirst,hroom⟩ := hseal
  have ho : ((earlier ++ own).map Prod.fst).Pairwise (· < ·) := by
    have hall := h.ordered
    rw [h.completed] at hall
    exact hall.sublist (by simp)
  constructor
  · cases earlier with
    | nil => rfl
    | cons e rest =>
      obtain ⟨o,own,rfl⟩ := List.exists_cons_of_ne_nil hown
      have hmin := hfirst (e.2.record e.1) _ h.activeObjects
      rw [recordSeq_record,hfacts.1] at hmin
      have hlt := (List.pairwise_cons.mp ho).1 o.1 (by simp)
      exact absurd (Option.some.inj hmin) hlt.ne'
  · intro j hj
    have hlast : f.maxSeq = some (own.getLast hown).1 := by
      rw [hfacts.2.1,List.getLast?_eq_some_getLast hown]
      rfl
    have hbound := (nameOf_bounds hown (ho.sublist (by simp))).2.2 j.1 (List.mem_map_of_mem hj)
    have hname : (nameOf own).maxSeq = (own.getLast hown).1 := by
      simp [nameOf,List.getLast?_eq_some_getLast hown]
    exact (hname ▸ hbound.2).trans_lt (hroom _ hlast)

/-- The rename of the active segment by the process that wrote all of it. -/
theorem Inv.sealActive {p : HistoryProcess} (h : Inv s blocks jobs none []) (hp : s.process = some p)
    (hfacts : Describes p.facts jobs) (hne : jobs ≠ []) (hroom : ∀ j ∈ jobs, j.1 < 10 ^ 12) :
    Inv ⟨sealActive s.dir p.facts,some ⟨p.nextSeq,p.pending,.fresh⟩,s.completed⟩ (blocks ++ [jobs]) [] none [] := by
  have hname : p.facts.name = (sealedFile jobs).1 := by
    simp [SegmentFacts.name,SegmentFacts.sealedAs,sealedFile,nameOf,hfacts.1,hfacts.2.1,hfacts.2.2]
  have hbytes : s.dir.active.getD [] = linesOf jobs := h.active.bytes.trans (lined_linesOf jobs).bytes.symm
  have ho := h.ordered
  rw [Option.toList_none,List.append_nil,h.completed,List.map_append,List.pairwise_append] at ho
  have hother : ∀ file ∈ s.dir.sealedSegments, file.1 ≠ p.facts.name := by
    intro file hfile heq
    rw [h.files] at hfile
    obtain ⟨block,hblock,rfl⟩ := List.mem_map.mp hfile
    obtain ⟨hblockne,hblocklt⟩ := h.named block hblock
    have hparse := parse_sealedFile hblockne hblocklt
    rw [heq,hname,parse_sealedFile hne hroom] at hparse
    obtain ⟨a,ha,hmin⟩ := List.mem_map.mp (nameOf_bounds hblockne (h.blocks_ordered.1 block hblock)).1
    have hlt := ho.2.2 a.1 (List.mem_map_of_mem (List.mem_flatten.mpr ⟨block,hblock,ha⟩)) _ (nameOf_bounds hne ho.2.1).1
    rw [hmin,← Option.some.inj hparse] at hlt
    exact hlt.false
  refine ⟨?_,?_,.nil,lineObject_nil,nofun,?_,h.ordered,?_⟩
  · show s.dir.sealedSegments.filter _ ++ [_] = _
    rw [List.filter_eq_self.mpr (by simpa using hother),hname,hbytes,h.files,List.map_append]
    rfl
  · intro block hblock
    rcases List.mem_append.mp hblock with hblock | hblock
    · exact h.named block hblock
    · rw [List.mem_singleton.mp hblock]
      exact ⟨hne,hroom⟩
  · show s.completed = _
    rw [h.completed]
    simp
  · intro q hq
    cases hq
    obtain ⟨hordered,hbelow,-⟩ := h.process p hp
    exact ⟨hordered,hbelow,[],[],rfl,⟨rfl,rfl,rfl⟩,.inl rfl⟩

theorem Inv.maybeSeal {p : HistoryProcess} (h : Inv s blocks jobs cut tail) (hp : s.process = some p) {segmentMaxBytes : ℕ}
    (hseal : isDue segmentMaxBytes s.dir p.facts = true → SealsOwn s.dir p.facts) :
    ∃ blocks jobs tail, Inv ⟨(maybeSeal segmentMaxBytes s.dir p.facts).1,
      some ⟨p.nextSeq,p.pending,(maybeSeal segmentMaxBytes s.dir p.facts).2⟩,s.completed⟩ blocks jobs cut tail := by
  obtain ⟨earlier,own,rfl,hfacts,htail⟩ := (h.process p hp).facts
  by_cases hdue : isDue segmentMaxBytes s.dir p.facts = true
  · have hown : own ≠ [] := by
      rintro rfl
      simp [isDue,hfacts.2.1] at hdue
    obtain rfl := htail.resolve_left hown
    obtain rfl := h.cut_none
    obtain ⟨rfl,hroom⟩ := h.facts_own hfacts hown (hseal hdue)
    rw [HistoryStore.maybeSeal,if_pos hdue]
    exact ⟨_,_,_,h.sealActive hp hfacts hown hroom⟩
  · rw [HistoryStore.maybeSeal,if_neg hdue]
    refine ⟨blocks,_,tail,h.files,h.named,h.active,h.unfinished,h.shown,h.completed,h.ordered,?_⟩
    intro q hq
    cases hq
    exact h.process p hp

/-- After a seal, or without one, a file that ended its last line still does. -/
theorem endsLine_maybeSeal {segmentMaxBytes : ℕ} {d : HistoryDir} (f : SegmentFacts) (h : EndsLine (d.active.getD [])) :
    EndsLine ((maybeSeal segmentMaxBytes d f).1.active.getD []) := by
  unfold HistoryStore.maybeSeal
  split
  · exact .inl rfl
  · exact h

theorem Describes.wrote {f : SegmentFacts} {own : List (ℕ × HistoryMessage)} (h : Describes f own) (job : ℕ × HistoryMessage) :
    Describes (f.wrote job.1 (job.2.role == "summary")) (own ++ [job]) := by
  obtain ⟨hmin,hmax,hsummary⟩ := h
  refine ⟨?_,by simp [SegmentFacts.wrote],by simp [SegmentFacts.wrote,hsummary]⟩
  cases own with
  | nil =>
    show some (f.minSeq.getD job.1) = some job.1
    rw [hmin]
    rfl
  | cons o rest =>
    show some (f.minSeq.getD job.1) = some o.1
    rw [hmin]
    rfl

/-- A line on a line of its own. -/
theorem Inv.write {p : HistoryProcess} {job : ℕ × HistoryMessage} (h : Inv s blocks jobs cut tail) (hp : s.process = some p)
    (hjob : p.pending.head? = some job) (hends : EndsLine (s.dir.active.getD [])) :
    Inv ⟨extend s.dir (job.2.line job.1),some ⟨p.nextSeq,p.pending.tail,p.facts.wrote job.1 (job.2.role == "summary")⟩,s.completed ++ [job]⟩
      blocks (jobs ++ [job]) none [] := by
  obtain rfl := h.active.tail_nil hends
  obtain rfl := h.cut_none
  obtain ⟨hordered,hbelow,earlier,own,rfl,hfacts,-⟩ := h.process p hp
  obtain ⟨rest,hpending⟩ := List.head?_eq_some_iff.mp hjob
  have hlist : s.completed ++ (none : Option (ℕ × HistoryMessage)).toList ++ p.pending =
      s.completed ++ [job] ++ (none : Option (ℕ × HistoryMessage)).toList ++ p.pending.tail := by
    simp [hpending]
  rw [hlist] at hordered hbelow
  have hunbroken : Unbroken (job.2.text job.1) := unbroken_text _
  refine ⟨h.files,h.named,?_,lineObject_nil,nofun,?_,?_,?_⟩
  · have hline := h.active.append_line hunbroken
    rw [List.nil_append] at hline
    show Lined (s.dir.active.getD [] ++ job.2.line job.1) (textsOf (earlier ++ own ++ [job])) []
    rw [textsOf,List.map_append]
    exact hline
  · show s.completed ++ [job] = _
    rw [h.completed,List.append_assoc]
  · refine List.Pairwise.sublist ?_ hordered
    apply List.Sublist.map
    exact List.sublist_append_left _ _
  · intro q hq
    cases hq
    exact ⟨hordered,hbelow,earlier,own ++ [job],List.append_assoc _ _ _,hfacts.wrote job,.inr rfl⟩

/-- A part of a line, after which the process has ended. -/
theorem Inv.tear {p : HistoryProcess} {job : ℕ × HistoryMessage} {k : ℕ} (h : Inv s blocks jobs cut tail)
    (hp : s.process = some p) (hjob : p.pending.head? = some job)
    (hcut : lineObject (tail ++ (job.2.text job.1).take k) = none ∨ tail ++ (job.2.text job.1).take k = job.2.text job.1) :
    ∃ cut, Inv ⟨extend s.dir (encode ((job.2.text job.1).take k)),none,s.completed⟩ blocks jobs cut
      (tail ++ (job.2.text job.1).take k) := by
  obtain ⟨hordered,-,-⟩ := h.process p hp
  obtain ⟨rest,hpending⟩ := List.head?_eq_some_iff.mp hjob
  have hunbroken : Unbroken ((job.2.text job.1).take k) :=
    fun c hc => unbroken_text (Json.obj (job.2.record job.1)) c (List.mem_of_mem_take hc)
  have hactive : Lined (s.dir.active.getD [] ++ encode ((job.2.text job.1).take k)) (textsOf jobs)
      (tail ++ (job.2.text job.1).take k) := h.active.append_part hunbroken
  have hshown : ∀ c ∈ (tail ++ (job.2.text job.1).take k).head?, isSpace c = false := by
    intro c hc
    rw [List.head?_append] at hc
    cases hhead : tail.head? with
    | some d =>
      rw [hhead] at hc
      cases hc
      exact h.shown _ hhead
    | none =>
      rw [hhead,Option.none_or,List.head?_take] at hc
      obtain ⟨-,hc⟩ := Option.ite_none_left_eq_some.mp hc
      rw [head_text] at hc
      cases hc
      decide
  rcases hcut with hnone | hwhole
  · refine ⟨none,h.files,h.named,hactive,hnone,hshown,h.completed,?_,nofun⟩
    refine List.Pairwise.sublist ?_ h.ordered
    simp
  · refine ⟨some job,h.files,h.named,hactive,?_,hshown,h.completed,?_,nofun⟩
    · rw [hwhole]
      exact lineObject_text job.2 job.1
    · refine List.Pairwise.sublist ?_ hordered
      apply List.Sublist.map
      rw [hpending,List.append_assoc]
      exact (List.singleton_sublist.mpr (by simp)).append_left _

theorem Inv.step {segmentMaxBytes : ℕ} (h : Inv s blocks jobs cut tail) {a : HistoryAction}
    (hg : Regular segmentMaxBytes s a) (hs : step segmentMaxBytes s a = some s') :
    ∃ blocks jobs cut tail, Inv s' blocks jobs cut tail := by
  cases a with
  | append m =>
    obtain ⟨p,hp,rfl⟩ := Option.map_eq_some_iff.mp hs
    obtain ⟨hordered,hbelow,hfacts⟩ := h.process p hp
    refine ⟨blocks,jobs,cut,tail,h.files,h.named,h.active,h.unfinished,h.shown,h.completed,h.ordered,?_⟩
    intro q hq
    cases hq
    refine ⟨?_,?_,hfacts⟩
    · rw [← List.append_assoc,List.map_append,List.pairwise_append]
      refine ⟨hordered,List.pairwise_singleton _ _,?_⟩
      intro i hi k hk
      obtain ⟨j,hj,rfl⟩ := List.mem_map.mp hi
      rw [List.mem_singleton.mp hk]
      exact hbelow j hj
    · intro j hj
      rw [← List.append_assoc] at hj
      rcases List.mem_append.mp hj with hj | hj
      · exact Nat.lt_succ_of_lt (hbelow j hj)
      · rw [List.mem_singleton.mp hj]
        exact Nat.lt_succ_self p.nextSeq
  | write =>
    obtain ⟨p,hp,hs⟩ := Option.bind_eq_some_iff.mp hs
    obtain ⟨job,hjob,rfl⟩ := Option.map_eq_some_iff.mp hs
    obtain ⟨hends,hseal⟩ := hg p hp
    obtain ⟨blocks,jobs,tail,hsealed⟩ := h.maybeSeal hp hseal
    exact ⟨_,_,_,_,hsealed.write rfl hjob (endsLine_maybeSeal p.facts hends)⟩
  | clear =>
    obtain ⟨p,hp,hs⟩ := Option.bind_eq_some_iff.mp hs
    obtain ⟨-,hs⟩ := Option.ite_none_right_eq_some.mp hs
    cases hs
    refine ⟨[],[],none,[],rfl,nofun,.nil,lineObject_nil,nofun,rfl,List.Pairwise.nil,?_⟩
    intro q hq
    cases hq
    exact ⟨List.Pairwise.nil,nofun,[],[],rfl,⟨rfl,rfl,rfl⟩,.inl rfl⟩
  | crash =>
    obtain ⟨p,hp,rfl⟩ := Option.map_eq_some_iff.mp hs
    exact ⟨blocks,jobs,cut,tail,h.files,h.named,h.active,h.unfinished,h.shown,h.completed,h.ordered,nofun⟩
  | tear written =>
    obtain ⟨p,hp,hs⟩ := Option.bind_eq_some_iff.mp hs
    obtain ⟨job,hjob,hs⟩ := Option.bind_eq_some_iff.mp hs
    obtain ⟨hseal,hpart⟩ := hg p job hp hjob
    obtain ⟨blocks,jobs,tail,hsealed⟩ := h.maybeSeal hp hseal
    cases written with
    | none =>
      cases hs
      exact ⟨blocks,jobs,cut,tail,hsealed.files,hsealed.named,hsealed.active,hsealed.unfinished,hsealed.shown,
        hsealed.completed,hsealed.ordered,nofun⟩
    | some n =>
      obtain ⟨-,hs⟩ := Option.ite_none_right_eq_some.mp hs
      cases hs
      obtain ⟨k,hk,hcut⟩ := hpart n rfl
      rw [hk]
      obtain ⟨cut,hinv⟩ := hsealed.tear rfl hjob (hcut _ _ hsealed.active)
      exact ⟨_,_,_,_,hinv⟩
  | start =>
    obtain ⟨-,hs⟩ := Option.ite_none_right_eq_some.mp hs
    obtain ⟨nextSeq,hload,rfl⟩ := Option.map_eq_some_iff.mp hs
    obtain ⟨next,hnext,hbelow⟩ := h.loadNextSeq
    obtain rfl := Option.some.inj (hload.symm.trans hnext)
    refine ⟨blocks,jobs,cut,tail,h.files,h.named,h.active,h.unfinished,h.shown,h.completed,h.ordered,?_⟩
    intro q hq
    cases hq
    refine ⟨?_,?_,jobs,[],(List.append_nil jobs).symm,⟨rfl,rfl,rfl⟩,.inl rfl⟩
    · rw [List.append_nil]
      exact h.ordered
    · rw [List.append_nil]
      exact hbelow

theorem inv_run {segmentMaxBytes : ℕ} (h : Runs (step segmentMaxBytes) (Regular segmentMaxBytes) init s) :
    ∃ blocks jobs cut tail, Inv s blocks jobs cut tail := by
  apply h.invariant (I := fun s => ∃ blocks jobs cut tail, Inv s blocks jobs cut tail)
  · exact ⟨_,_,_,_,Inv.init⟩
  · rintro s a t ⟨blocks,jobs,cut,tail,hinv⟩ hg hs
    exact hinv.step hg hs

end Invariant

/-- The history is faithful throughout every regular run. -/
theorem faithful_run {segmentMaxBytes : ℕ} {s : HistoryStore}
    (h : Runs (step segmentMaxBytes) (Regular segmentMaxBytes) init s) : Faithful s := by
  obtain ⟨blocks,jobs,cut,tail,hinv⟩ := inv_run h
  refine ⟨cut,_,hinv.forwardRead,rfl,?_,?_,?_,?_⟩
  · rw [seqs_recordsOf]
    exact hinv.ordered
  · intro p hp record hrecord
    obtain ⟨j,hj,rfl⟩ := List.mem_map.mp hrecord
    rw [recordSeq_record]
    exact (hinv.process p hp).below j (List.mem_append_left _ hj)
  · obtain ⟨nextSeq,hload,hbelow⟩ := hinv.loadNextSeq
    refine ⟨nextSeq,hload,?_⟩
    intro record hrecord
    obtain ⟨j,hj,rfl⟩ := List.mem_map.mp hrecord
    rw [recordSeq_record]
    exact hbelow j hj
  · intro file hfile
    rw [hinv.files] at hfile
    obtain ⟨block,hblock,rfl⟩ := List.mem_map.mp hfile
    obtain ⟨hne,hroom⟩ := hinv.named block hblock
    exact truthful_sealedFile hne hroom (hinv.blocks_ordered.1 block hblock)

/-! ## A restart in the middle of a segment -/

section Sample

def sampleMessage : HistoryMessage := ⟨"user",.str "","",[],rfl,by decide⟩

/-- `Regular`, computed, for runs without a torn line. -/
def writesClean (segmentMaxBytes : ℕ) (s : HistoryStore) : HistoryAction → Bool
  | .write => s.process.all fun p => decide ((s.dir.active.getD []).getLast?.getD 10 = 10) &&
      (!isDue segmentMaxBytes s.dir p.facts || (((textObjects (s.dir.active.getD [])).getD []).head?.all fun first =>
        p.facts.minSeq == some (recordSeq first)) && p.facts.maxSeq.all (· < 10 ^ 12))
  | .tear _ => false
  | _ => true

theorem regular_of_writesClean {segmentMaxBytes : ℕ} {s : HistoryStore} {a : HistoryAction}
    (h : writesClean segmentMaxBytes s a = true) : Regular segmentMaxBytes s a := by
  cases a with
  | write =>
    intro p hp
    simp only [writesClean,hp,Option.all_some,Bool.and_eq_true,Bool.or_eq_true,Bool.not_eq_true',decide_eq_true_eq] at h
    obtain ⟨hends,hseal⟩ := h
    refine ⟨?_,?_⟩
    · rcases hlast : (s.dir.active.getD []).getLast? with _ | b
      · exact .inl (List.getLast?_eq_none_iff.mp hlast)
      · rw [hlast] at hends
        cases hends
        exact .inr hlast
    · intro hdue
      obtain ⟨hfirst,hroom⟩ := hseal.resolve_left (by simp [hdue])
      refine ⟨?_,?_⟩
      · intro first rest hobjects
        rw [hobjects] at hfirst
        exact eq_of_beq hfirst
      · intro seq hseq
        rw [hseq] at hroom
        exact of_decide_eq_true hroom
  | tear written => cases h
  | _ => trivial

/-- One process fills two segments; the next one goes on in the second. -/
def cleanActions : List HistoryAction :=
  [.start,.append sampleMessage,.write,.append sampleMessage,.write,.crash,.start,.append sampleMessage,.write]

def cleanRun : Computed (runChecked (step 1) (writesClean 1) init cleanActions)
    (fun s => s.completed.map Prod.fst == [1,2,3] && s.dir.sealedSegments.length == 1) :=
  .of _ _ (by decide +kernel)

theorem faithful_run_clean : ∃ s, Faithful s ∧ s.completed.map Prod.fst = [1,2,3] ∧ s.dir.sealedSegments.length = 1 := by
  obtain ⟨s,hs,hfacts⟩ := cleanRun
  obtain ⟨hseqs,hone⟩ := (Bool.and_eq_true _ _).mp hfacts
  refine ⟨s,?_,eq_of_beq hseqs,eq_of_beq hone⟩
  exact faithful_run (Runs.of_runChecked (.refl _) (fun _ _ => regular_of_writesClean) hs)

/-- The second process seals the segment under the number of its own line: it has the first process's too. -/
def restartActions : List HistoryAction :=
  [.start,.append sampleMessage,.write,.crash,.start,.append sampleMessage,.write,.append sampleMessage,.write]

def restartRun : Computed (runAll (step 1) init restartActions) (fun s =>
    s.dir.sealedSegments == [(sealedSegmentName 2 2 false,linesOf [(1,sampleMessage),(2,sampleMessage)])]) :=
  .of _ _ (by decide +kernel)

theorem restart_misnames : ∃ s, Runs (step 1) (fun _ _ => True) init s ∧ ¬ Faithful s := by
  obtain ⟨s,hs,hseen⟩ := restartRun
  have hfiles : s.dir.sealedSegments = [(sealedSegmentName 2 2 false,linesOf [(1,sampleMessage),(2,sampleMessage)])] :=
    eq_of_beq hseen
  refine ⟨s,Runs.of_runAll (.refl _) (fun _ _ _ => trivial) hs,?_⟩
  rintro ⟨-,-,-,-,-,-,-,htrue⟩
  obtain ⟨name,records,hname,hrecords,-,-,hbounds,-⟩ := htrue _ (hfiles ▸ List.mem_singleton_self _)
  obtain rfl := Option.some.inj ((parse_sealedSegmentName (by decide) (by decide) false).symm.trans hname)
  obtain rfl := Option.some.inj ((textObjects_linesOf _).symm.trans hrecords)
  rw [seqs_recordsOf] at hbounds
  exact absurd (hbounds 1 (by decide)).1 (by decide)

end Sample

end HistoryStore
end Reyn
