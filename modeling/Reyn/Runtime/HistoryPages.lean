import Reyn.Runtime.HistoryReaders

/-! # Pages and batches of the history

A page lies in front of a boundary and a batch behind one, and the next one begins where
it ended: a page at the number of its oldest line, a batch at the number of its newest.
Over a log whose lines are numbered upward neither loses a line nor repeats one. The
forward reader reads text, so its lines are those of the backward readers exactly when
no line holds a carriage return.
-/
namespace Reyn
open Py
namespace HistoryTailReader

/-- The lines the forward reader goes through. -/
def textLog (segments : List Bytes) : Except PyException (List (List Char)) := (segments.mapM LineCodec.textLines).map List.flatten

/-! ## A written history -/

/-- The text that the writer leaves for its records. -/
def written (records : List (List (String × Json))) : Bytes := records.flatMap fun fields => jsonLine (.obj fields)

section Written
variable {records : List (List (String × Json))} {sep : Char → Bool}

theorem decode_written (records : List (List (String × Json))) :
    decode (written records) = some (joinLines (records.map fun fields => (Json.obj fields).text) []) := by
  induction records with
  | nil => rfl
  | cons fields records ih =>
    have hcons : written (fields :: records) = jsonLine (.obj fields) ++ written records := List.flatMap_cons
    rw [hcons,decode_jsonLine_append,ih,Option.map_some]
    simp [joinLines]

theorem shownLines_written (hsep : sep '\n' = true) (hplain : ∀ c, sep c = true → isNewline c = true) :
    shownLines sep (joinLines (records.map fun fields => (Json.obj fields).text) []) =
      records.map fun fields => (Json.obj fields).text := by
  induction records with
  | nil => rfl
  | cons fields records ih =>
    have hline : ∀ c ∈ (Json.obj fields).text, sep c = false := by
      intro c hc
      cases hs : sep c with
      | false => rfl
      | true => exact absurd (hplain c hs) (by rw [unbroken_text _ c hc]; exact Bool.false_ne_true)
    have hne : (Json.obj fields).text ≠ [] := by
      obtain ⟨c,rest,hc,-⟩ := Json.begins_text (Json.obj fields)
      rw [hc]
      exact List.cons_ne_nil c rest
    have hshape : joinLines ((fields :: records).map fun fields => (Json.obj fields).text) [] =
        (Json.obj fields).text ++ '\n' :: joinLines (records.map fun fields => (Json.obj fields).text) [] := by
      simp [joinLines]
    rw [hshape,shownLines_of_pieces (splitLines_append hline hsep _),strip_obj,if_neg hne,List.map_cons]
    exact congrArg _ ih

theorem lines_written (records : List (List (String × Json))) :
    lines (written records) = records.map fun fields => (Json.obj fields).text := by
  rw [lines,decodeReplace_of_decode (decode_written records)]
  apply shownLines_written
  · rfl
  · intro c hc
    simp [isNewline,hc]

theorem textLines_written (records : List (List (String × Json))) :
    LineCodec.textLines (written records) = .ok (records.map fun fields => (Json.obj fields).text) := by
  rw [LineCodec.textLines,decode_written]
  exact congrArg Except.ok (shownLines_written rfl fun _ hc => hc)

theorem textLog_written (records : List (List (String × Json))) :
    textLog [written records] = .ok (records.map fun fields => (Json.obj fields).text) := by
  rw [textLog,List.mapM_cons,textLines_written,List.mapM_nil]
  change Except.ok [_].flatten = _
  rw [List.flatten_singleton]

end Written

def plainLoads (line : List Char) : Except PyException Json :=
  match Json.loads (String.ofList line) with
  | some v => .ok v
  | none => .error .jsonDecode

def plainInt : Json → Except PyException ℤ
  | .int i => .ok i
  | _ => .error .type

/-- JSON texts and integers; what else `int` accepts is of no concern here. -/
def plainCodec : LineCodec := ⟨plainLoads,plainInt,fun _ => rfl⟩

theorem plainCodec_seqOf {fields : List (String × Json)} {seq : ℤ} (hwf : (Json.obj fields).wf = true)
    (hseq : fields.lookup "seq" = some (.int seq)) : plainCodec.seqOf (Json.obj fields).text = .ok seq := by
  have hloads : plainCodec.loads (Json.obj fields).text = .ok (.obj fields) := by
    have hread : Json.loads (String.ofList (Json.obj fields).text) = some (.obj fields) := Json.loads_dumps hwf
    change plainLoads _ = _
    rw [plainLoads,hread]
  have hfield : plainCodec.seqField (.obj fields) = .ok seq := by
    change plainInt (if truthy ((fields.lookup "seq").getD (.int 0)) then _ else _) = _
    rw [hseq]
    by_cases hzero : seq = 0
    · rw [hzero]
      rfl
    · have htruthy : truthy (.int seq) = true := bne_iff_ne.mpr hzero
      rw [Option.getD_some,if_pos htruthy]
      rfl
  rw [LineCodec.seqOf,hloads]
  simp only [Except.bind,hfield]

/-- A record that has its number only. -/
def numbered (seq : ℕ) : List (String × Json) := [("seq",.int seq)]

def twoRecords : List (List (String × Json)) := [numbered 1,numbered 2]

theorem plainCodec_numbered (seq : ℕ) : plainCodec.seqOf (Json.obj (numbered seq)).text = .ok (seq : ℤ) := by
  apply plainCodec_seqOf
  · simp [numbered,Json.wf,Json.wfFields]
  · simp [numbered]

/-! ## Paging backward -/

namespace LineCodec
variable (c : LineCodec)

def isBefore (beforeSeq : ℤ) (line : List Char) : Bool :=
  match c.seqOf line with
  | .ok seq => seq < beforeSeq
  | .error _ => false

/-- Not yet covered: a line without a number counts as one. -/
def isFresh (afterSeq : ℤ) (line : List Char) : Bool :=
  match c.seqOf line with
  | .ok seq => !(seq ≠ 0 ∧ seq ≤ afterSeq)
  | .error _ => false

/-- Page after page, each in front of the oldest line of the one before; the oldest page first. -/
def pagesBefore (segments : List Bytes) (minLines : ℤ) (chunkSize : ℕ+) : ℕ → ℤ → Except PyException (List (List (List Char)))
  | 0, _ => .ok []
  | fuel + 1, beforeSeq =>
    (c.readHistoryBeforeSegmented segments.reverse beforeSeq minLines chunkSize).bind fun page =>
      match page with
      | [] => .ok []
      | oldest :: newer =>
        (c.seqOf oldest).bind fun seq =>
          (pagesBefore segments minLines chunkSize fuel seq).map fun pages => pages ++ [oldest :: newer]

/-- Batch after batch, each behind the newest line of the one before. -/
def batchesAfter (segments : List Bytes) (maxBytes : ℤ) : ℕ → ℤ → Except PyException (List (List (List Char)))
  | 0, _ => .ok []
  | fuel + 1, afterSeq =>
    (c.readHistoryAfterSegmented segments afterSeq maxBytes).bind fun batch =>
      match batch.2, batch.1.getLast? with
      | true, some newest =>
        (c.seqOf newest).bind fun seq => (batchesAfter segments maxBytes fuel seq).map fun batches => batch.1 :: batches
      | _, _ => .ok [batch.1]

/-- Lines with positive numbers that increase. -/
structure Numbered (ls : List (List Char)) : Prop where
  reads : ∀ line ∈ ls, ∃ seq : ℤ, 0 < seq ∧ c.seqOf line = .ok seq
  increasing : ls.Pairwise fun a b => ∀ s t : ℤ, c.seqOf a = .ok s → c.seqOf b = .ok t → s < t

theorem numbered_two : plainCodec.Numbered (twoRecords.map fun fields => (Json.obj fields).text) where
  reads := by
    intro line hline
    obtain ⟨fields,hfields,rfl⟩ := List.mem_map.mp hline
    rcases List.mem_cons.mp hfields with rfl | hfields
    · exact ⟨1,by omega,plainCodec_numbered 1⟩
    · rw [List.mem_singleton.mp hfields]
      exact ⟨2,by omega,plainCodec_numbered 2⟩
  increasing := by
    apply List.pairwise_pair.mpr
    intro s t hs ht
    rw [plainCodec_numbered] at hs ht
    cases hs
    cases ht
    omega

section Before
variable {c : LineCodec} {beforeSeq minLines : ℤ} {rest collected t : List (List Char)}

/-- How many lines a page holds at most; it stops only after a line. -/
def pageSize (minLines : ℤ) : ℕ := max 1 minLines.toNat

theorem beforeLoop_ok (hroom : collected.length < pageSize minLines) (h : c.beforeLoop beforeSeq minLines rest collected = .ok t) :
    t = ((rest.filter (c.isBefore beforeSeq)).take (pageSize minLines - collected.length)).reverse ++ collected := by
  induction rest generalizing collected with
  | nil =>
    cases h
    simp
  | cons line rest ih =>
    rw [beforeLoop] at h
    obtain ⟨seq,hseq,h⟩ := Fallible.bind_ok h
    have hbefore : c.isBefore beforeSeq line = decide (seq < beforeSeq) := by
      rw [isBefore,hseq]
    split at h
    · rename_i hge
      rw [List.filter_cons_of_neg (by simpa [hbefore] using hge)]
      exact ih hroom h
    · rename_i hlt
      rw [List.filter_cons_of_pos (by simpa [hbefore] using hlt)]
      obtain ⟨n,hn⟩ : ∃ n, pageSize minLines - collected.length = n + 1 := ⟨pageSize minLines - collected.length - 1,by omega⟩
      rw [hn,List.take_succ_cons,List.reverse_cons,List.append_assoc,List.singleton_append]
      rw [pageSize] at hn hroom
      split at h
      · rename_i henough
        cases h
        rw [List.length_cons] at henough
        obtain rfl : n = 0 := by omega
        rfl
      · rename_i hmore
        rw [List.length_cons] at hmore
        have hroom' : (line :: collected).length < pageSize minLines := by
          rw [pageSize,List.length_cons]
          omega
        rw [ih hroom' h,pageSize,List.length_cons]
        apply congrArg (fun k => ((rest.filter (c.isBefore beforeSeq)).take k).reverse ++ line :: collected)
        omega

theorem beforeLoop_error {e : PyException} (h : c.beforeLoop beforeSeq minLines rest collected = .error e) :
    ∃ line ∈ rest, c.seqOf line = .error e := by
  induction rest generalizing collected with
  | nil => cases h
  | cons line rest ih =>
    rw [beforeLoop] at h
    cases hseq : c.seqOf line with
    | error e' =>
      rw [hseq] at h
      cases h
      exact ⟨line,List.mem_cons_self,hseq⟩
    | ok seq =>
      rw [hseq] at h
      change (if _ then c.beforeLoop _ _ rest collected else if _ then _ else c.beforeLoop _ _ rest _) = _ at h
      split at h
      · obtain ⟨l,hl,hraise⟩ := ih h
        exact ⟨l,List.mem_cons_of_mem _ hl,hraise⟩
      split at h
      · cases h
      · obtain ⟨l,hl,hraise⟩ := ih h
        exact ⟨l,List.mem_cons_of_mem _ hl,hraise⟩

/-- A page is the newest part of what lies in front of the boundary. -/
theorem readHistoryBefore_ok {segments : List Bytes} {chunkSize : ℕ+}
    (h : c.readHistoryBeforeSegmented segments.reverse beforeSeq minLines chunkSize = .ok t) :
    t = ((logicalLines segments).filter (c.isBefore beforeSeq)).rtake (pageSize minLines) := by
  rw [readHistoryBeforeSegmented,iterPathsLinesReverse_backward] at h
  have hroom : ([] : List (List Char)).length < pageSize minLines := by
    rw [pageSize,List.length_nil]
    omega
  have ht := beforeLoop_ok hroom h
  rw [List.length_nil,Nat.sub_zero,List.append_nil,List.filter_reverse] at ht
  rw [ht,List.rtake_eq_reverse_take_reverse]

theorem readHistoryBefore_reads {segments : List Bytes} {chunkSize : ℕ+} (h : c.Numbered (logicalLines segments)) :
    ∃ t, c.readHistoryBeforeSegmented segments.reverse beforeSeq minLines chunkSize = .ok t := by
  cases hread : c.readHistoryBeforeSegmented segments.reverse beforeSeq minLines chunkSize with
  | ok t => exact ⟨t,rfl⟩
  | error e =>
    rw [readHistoryBeforeSegmented,iterPathsLinesReverse_backward] at hread
    obtain ⟨line,hline,hraise⟩ := beforeLoop_error hread
    obtain ⟨seq,-,hseq⟩ := h.reads line (List.mem_reverse.mp hline)
    rw [hseq] at hraise
    cases hraise

end Before

section Numbered
variable {c : LineCodec} {ls front back : List (List Char)} {line : List Char} {seq n : ℤ}

theorem isBefore_iff (h : c.seqOf line = .ok seq) : c.isBefore n line = true ↔ seq < n := by
  rw [isBefore,h]
  exact decide_eq_true_iff

theorem isFresh_iff (h : c.seqOf line = .ok seq) (hpos : 0 < seq) : c.isFresh n line = true ↔ n < seq := by
  rw [isFresh,h]
  simp only [Bool.not_eq_true',decide_eq_false_iff_not]
  omega

/-- Numbers on both sides of a line of the log. -/
theorem Numbered.sides (h : c.Numbered ls) (hsub : (front ++ line :: back).Sublist ls) (hseq : c.seqOf line = .ok seq) :
    (∀ l ∈ front, ∃ s : ℤ, 0 < s ∧ c.seqOf l = .ok s ∧ s < seq) ∧ ∀ l ∈ back, ∃ s : ℤ, 0 < s ∧ c.seqOf l = .ok s ∧ seq < s := by
  have hpairs := h.increasing.sublist hsub
  rw [List.pairwise_append] at hpairs
  constructor
  · intro l hl
    obtain ⟨s,hpos,hs⟩ := h.reads l (hsub.subset (List.mem_append_left _ hl))
    exact ⟨s,hpos,hs,hpairs.2.2 l hl line List.mem_cons_self s seq hs hseq⟩
  · intro l hl
    obtain ⟨s,hpos,hs⟩ := h.reads l (hsub.subset (List.mem_append_right _ (List.mem_cons_of_mem _ hl)))
    exact ⟨s,hpos,hs,(List.pairwise_cons.mp hpairs.2.1).1 l hl seq s hseq hs⟩

/-- What lies in front of a line of a page. -/
theorem Numbered.filter_before (h : c.Numbered ls) (hsplit : ls.filter (c.isBefore n) = front ++ line :: back)
    (hseq : c.seqOf line = .ok seq) : ls.filter (c.isBefore seq) = front := by
  have hsub : (front ++ line :: back).Sublist ls := by
    rw [← hsplit]
    exact List.filter_sublist
  obtain ⟨hfront,hback⟩ := h.sides hsub hseq
  have hline : seq < n := by
    have hmem : line ∈ ls.filter (c.isBefore n) := by
      rw [hsplit]
      exact List.mem_append_right _ List.mem_cons_self
    exact (isBefore_iff hseq).mp (List.mem_filter.mp hmem).2
  have hboth : ls.filter (c.isBefore seq) = (ls.filter (c.isBefore n)).filter (c.isBefore seq) := by
    rw [List.filter_filter]
    apply List.filter_congr
    intro l hl
    obtain ⟨s,-,hs⟩ := h.reads l hl
    rw [Bool.eq_iff_iff,Bool.and_eq_true,isBefore_iff hs,isBefore_iff hs]
    omega
  have hkeep : front.filter (c.isBefore seq) = front := by
    apply List.filter_eq_self.mpr
    intro l hl
    obtain ⟨s,-,hs,hlt⟩ := hfront l hl
    exact (isBefore_iff hs).mpr hlt
  have hdrop : (line :: back).filter (c.isBefore seq) = [] := by
    apply List.filter_eq_nil_iff.mpr
    intro l hl hbefore
    rcases List.mem_cons.mp hl with rfl | hl
    · exact absurd ((isBefore_iff hseq).mp hbefore) (lt_irrefl seq)
    · obtain ⟨s,-,hs,hlt⟩ := hback l hl
      exact absurd ((isBefore_iff hs).mp hbefore) (not_lt.mpr hlt.le)
  rw [hboth,hsplit,List.filter_append,hkeep,hdrop,List.append_nil]

/-- What lies behind a line of a batch. -/
theorem Numbered.filter_fresh (h : c.Numbered ls) (hsplit : ls.filter (c.isFresh n) = front ++ line :: back)
    (hseq : c.seqOf line = .ok seq) : ls.filter (c.isFresh seq) = back := by
  have hsub : (front ++ line :: back).Sublist ls := by
    rw [← hsplit]
    exact List.filter_sublist
  obtain ⟨hfront,hback⟩ := h.sides hsub hseq
  have hmem : line ∈ ls.filter (c.isFresh n) := by
    rw [hsplit]
    exact List.mem_append_right _ List.mem_cons_self
  have hpos : 0 < seq := by
    obtain ⟨s,hpos,hs⟩ := h.reads line (List.mem_filter.mp hmem).1
    rw [hseq] at hs
    cases hs
    exact hpos
  have hline : n < seq := (isFresh_iff hseq hpos).mp (List.mem_filter.mp hmem).2
  have hboth : ls.filter (c.isFresh seq) = (ls.filter (c.isFresh n)).filter (c.isFresh seq) := by
    rw [List.filter_filter]
    apply List.filter_congr
    intro l hl
    obtain ⟨s,hs0,hs⟩ := h.reads l hl
    rw [Bool.eq_iff_iff,Bool.and_eq_true,isFresh_iff hs hs0,isFresh_iff hs hs0]
    omega
  have hdrop : front.filter (c.isFresh seq) = [] := by
    apply List.filter_eq_nil_iff.mpr
    intro l hl hfresh
    obtain ⟨s,hs0,hs,hlt⟩ := hfront l hl
    exact absurd ((isFresh_iff hs hs0).mp hfresh) (not_lt.mpr hlt.le)
  have hkeep : (line :: back).filter (c.isFresh seq) = back := by
    rw [List.filter_cons_of_neg]
    · apply List.filter_eq_self.mpr
      intro l hl
      obtain ⟨s,hs0,hs,hlt⟩ := hback l hl
      exact (isFresh_iff hs hs0).mpr hlt
    · intro hfresh
      exact absurd ((isFresh_iff hseq hpos).mp hfresh) (lt_irrefl seq)
  rw [hboth,hsplit,List.filter_append,hdrop,hkeep,List.nil_append]

end Numbered

/-- Paging backward over a numbered history goes through everything in front of the boundary, in order and without repeating a
line. -/
theorem pagesBefore_whole (segments : List Bytes) (beforeSeq minLines : ℤ) (chunkSize : ℕ+) (fuel : ℕ)
    (hnum : c.Numbered (logicalLines segments))
    (hfuel : ((logicalLines segments).filter (c.isBefore beforeSeq)).length < fuel) :
    ∃ pages, c.pagesBefore segments minLines chunkSize fuel beforeSeq = .ok pages ∧
      pages.flatten = (logicalLines segments).filter (c.isBefore beforeSeq) ∧
        ∀ page ∈ pages, page ≠ [] ∧ page.length ≤ max 1 minLines.toNat := by
  induction fuel generalizing beforeSeq with
  | zero => omega
  | succ fuel ih =>
    obtain ⟨page,hread⟩ := @readHistoryBefore_reads c beforeSeq minLines segments chunkSize hnum
    have hpage := readHistoryBefore_ok hread
    rw [pagesBefore,hread]
    cases page with
    | nil =>
      refine ⟨[],rfl,?_,List.forall_mem_nil _⟩
      have hnil : (logicalLines segments).filter (c.isBefore beforeSeq) = [] := by
        by_contra hne
        have hpos := List.length_pos_iff.mpr hne
        have hlen := congrArg List.length hpage
        rw [List.rtake,List.length_drop,pageSize,List.length_nil] at hlen
        omega
      rw [hnil]
      rfl
    | cons oldest newer =>
      have hsplit : (logicalLines segments).filter (c.isBefore beforeSeq) =
          ((logicalLines segments).filter (c.isBefore beforeSeq)).rdrop (pageSize minLines) ++ oldest :: newer := by
        rw [hpage,List.rtake,List.rdrop,List.take_append_drop]
      have hmem : oldest ∈ logicalLines segments := by
        have hin : oldest ∈ (logicalLines segments).filter (c.isBefore beforeSeq) := by
          rw [hsplit]
          exact List.mem_append_right _ List.mem_cons_self
        exact (List.mem_filter.mp hin).1
      obtain ⟨seq,-,hseq⟩ := hnum.reads oldest hmem
      have hfront := hnum.filter_before hsplit hseq
      have hshort : ((logicalLines segments).filter (c.isBefore seq)).length < fuel := by
        have hlen := congrArg List.length hsplit
        rw [← hfront,List.length_append,List.length_cons] at hlen
        omega
      obtain ⟨pages,hpages,hflat,hsizes⟩ := ih seq hshort
      refine ⟨pages ++ [oldest :: newer],?_,?_,?_⟩
      · change ((c.seqOf oldest).bind _) = _
        rw [hseq]
        change (c.pagesBefore segments minLines chunkSize fuel seq).map _ = _
        rw [hpages]
        rfl
      · rw [List.flatten_append,hflat,hfront,List.flatten_singleton]
        exact hsplit.symm
      · intro page hin
        rcases List.mem_append.mp hin with hin | hin
        · exact hsizes page hin
        · rw [List.mem_singleton.mp hin]
          refine ⟨List.cons_ne_nil _ _,?_⟩
          have hlen := congrArg List.length hpage
          rw [List.rtake,List.length_drop,pageSize] at hlen
          omega

theorem logicalLines_two : logicalLines [written twoRecords] = twoRecords.map fun fields => (Json.obj fields).text := by
  rw [logicalLines,List.flatMap_singleton,lines_written]

theorem pagesBefore_two : ∃ pages, plainCodec.pagesBefore [written twoRecords] 1 8 3 5 = .ok pages ∧
    pages.flatten = (logicalLines [written twoRecords]).filter (plainCodec.isBefore 5) ∧
      ∀ page ∈ pages, page ≠ [] ∧ page.length ≤ max 1 (1 : ℤ).toNat := by
  have hnum : plainCodec.Numbered (logicalLines [written twoRecords]) := by
    rw [logicalLines_two]
    exact numbered_two
  have hfew : ((logicalLines [written twoRecords]).filter (plainCodec.isBefore 5)).length < 3 := by
    apply Nat.lt_of_le_of_lt (List.length_filter_le _ _)
    rw [logicalLines_two,List.length_map]
    decide
  exact plainCodec.pagesBefore_whole [written twoRecords] 5 1 8 3 hnum hfew

/-! ## Batches -/

section After
variable {c : LineCodec} {afterSeq maxBytes : ℤ} {rest ls : List (List Char)} {s r : Batch}

/-- What the loop adds to a batch: a front part of the lines that are not covered. -/
structure Adds (c : LineCodec) (afterSeq maxBytes : ℤ) (rest : List (List Char)) (s r : Batch) (taken : List (List Char)) : Prop where
  front : taken <+: rest.filter (c.isFresh afterSeq)
  collected : r.collected = s.collected ++ taken
  totalBytes : r.totalBytes = s.totalBytes + size taken
  truncated : r.truncated = true ↔ taken ≠ rest.filter (c.isFresh afterSeq)
  fits : taken = [] ∨ s.collected ++ taken.dropLast = [] ∨ s.totalBytes + size taken ≤ maxBytes
  full : ∀ line, taken ++ [line] <+: rest.filter (c.isFresh afterSeq) →
    s.collected ++ taken ≠ [] ∧ maxBytes < s.totalBytes + size (taken ++ [line])

theorem Adds.within {taken : List (List Char)} (h : Adds c afterSeq maxBytes rest .empty r taken) :
    taken.length ≤ 1 ∨ size taken ≤ maxBytes := by
  rcases h.fits with hnil | hone | hfit
  · rw [hnil]
    exact .inl (Nat.zero_le 1)
  · have hdrop : taken.dropLast = [] := hone
    have hlen := congrArg List.length hdrop
    rw [List.length_dropLast,List.length_nil] at hlen
    exact .inl (by omega)
  · have hzero : Batch.empty.totalBytes = 0 := rfl
    rw [hzero] at hfit
    exact .inr (by omega)

theorem afterLoop_ok (hs : s.truncated = false) (h : c.afterLoop afterSeq maxBytes rest s = .ok r) :
    ∃ taken, Adds c afterSeq maxBytes rest s r taken := by
  induction rest generalizing s with
  | nil =>
    cases h
    refine ⟨[],⟨List.prefix_rfl,(List.append_nil _).symm,rfl,?_,.inl rfl,?_⟩⟩
    · rw [hs]
      exact ⟨fun hf => absurd hf Bool.false_ne_true,fun hno => absurd rfl hno⟩
    · intro line hline
      exact absurd (List.prefix_nil.mp hline) (List.append_ne_nil_of_right_ne_nil _ (List.cons_ne_nil _ _))
  | cons line rest ih =>
    rw [afterLoop] at h
    obtain ⟨seq,hseq,h⟩ := Fallible.bind_ok h
    have hfresh : c.isFresh afterSeq line = !decide (seq ≠ 0 ∧ seq ≤ afterSeq) := by
      rw [isFresh,hseq]
    split at h
    · rename_i hcovered
      have hskip : (line :: rest).filter (c.isFresh afterSeq) = rest.filter (c.isFresh afterSeq) := by
        apply List.filter_cons_of_neg
        rw [hfresh,decide_eq_true hcovered]
        exact Bool.false_ne_true
      obtain ⟨taken,ht⟩ := ih hs h
      exact ⟨taken,⟨hskip ▸ ht.front,ht.collected,ht.totalBytes,hskip ▸ ht.truncated,ht.fits,hskip ▸ ht.full⟩⟩
    · rename_i hnew
      have hkeep : (line :: rest).filter (c.isFresh afterSeq) = line :: rest.filter (c.isFresh afterSeq) := by
        apply List.filter_cons_of_pos
        rw [hfresh,decide_eq_false hnew]
        rfl
      split at h
      · rename_i hbudget
        cases h
        refine ⟨[],⟨List.nil_prefix,(List.append_nil _).symm,rfl,?_,.inl rfl,?_⟩⟩
        · rw [hkeep]
          exact ⟨fun _ => (List.cons_ne_nil _ _).symm,fun _ => rfl⟩
        · intro l hl
          rw [hkeep,List.nil_append] at hl
          obtain ⟨back,hback⟩ := hl
          obtain rfl : l = line := (List.cons.inj hback).1
          refine ⟨by rw [List.append_nil]; exact hbudget.1,?_⟩
          have hone : size ([] ++ [l]) = (encode l).length := by
            rw [List.nil_append,size_cons]
            rfl
          rw [hone]
          exact hbudget.2
      · rename_i hbudget
        obtain ⟨taken,ht⟩ := ih (s := ⟨s.collected ++ [line],s.totalBytes + (encode line).length,s.truncated⟩) hs h
        have hbytes := ht.totalBytes
        dsimp only at hbytes
        refine ⟨line :: taken,⟨?_,?_,?_,?_,.inr ?_,?_⟩⟩
        · rw [hkeep]
          exact (List.cons_prefix_cons).mpr ⟨rfl,ht.front⟩
        · rw [ht.collected]
          simp
        · rw [hbytes,size_cons]
          omega
        · rw [ht.truncated,hkeep]
          simp
        · rcases ht.fits with hnil | hfirst | hfit
          · rw [hnil,size_cons]
            by_cases hempty : s.collected = []
            · exact .inl (by rw [hempty]; rfl)
            · refine .inr ?_
              have hle : ¬ maxBytes < s.totalBytes + (encode line).length := fun hlt => hbudget ⟨hempty,hlt⟩
              have hzero : size ([] : List (List Char)) = 0 := rfl
              rw [hzero]
              omega
          · exact absurd hfirst (List.append_ne_nil_of_left_ne_nil
              (List.append_ne_nil_of_right_ne_nil _ (List.cons_ne_nil _ _)) _)
          · refine .inr ?_
            rw [size_cons]
            dsimp only at hfit
            omega
        · intro l hl
          rw [hkeep,List.cons_append] at hl
          obtain ⟨-,hover⟩ := ht.full l (List.cons_prefix_cons.mp hl).2
          refine ⟨List.append_ne_nil_of_right_ne_nil _ (List.cons_ne_nil _ _),?_⟩
          rw [List.cons_append,size_cons]
          dsimp only at hover
          omega

theorem afterLoop_error {e : PyException} (h : c.afterLoop afterSeq maxBytes rest s = .error e) :
    ∃ line ∈ rest, c.seqOf line = .error e := by
  induction rest generalizing s with
  | nil => cases h
  | cons line rest ih =>
    rw [afterLoop] at h
    cases hseq : c.seqOf line with
    | error e' =>
      rw [hseq] at h
      cases h
      exact ⟨line,List.mem_cons_self,hseq⟩
    | ok seq =>
      rw [hseq] at h
      change (if _ then c.afterLoop _ _ rest s else if _ then _ else c.afterLoop _ _ rest _) = _ at h
      split at h
      · obtain ⟨l,hl,hraise⟩ := ih h
        exact ⟨l,List.mem_cons_of_mem _ hl,hraise⟩
      split at h
      · cases h
      · obtain ⟨l,hl,hraise⟩ := ih h
        exact ⟨l,List.mem_cons_of_mem _ hl,hraise⟩

/-- Two files are read as one. -/
theorem afterLoop_append (front back : List (List Char)) (hs : s.truncated = false) :
    c.afterLoop afterSeq maxBytes (front ++ back) s =
      (c.afterLoop afterSeq maxBytes front s).bind fun r =>
        if r.truncated = true then .ok r else c.afterLoop afterSeq maxBytes back r := by
  induction front generalizing s with
  | nil =>
    change _ = if s.truncated = true then _ else _
    rw [hs,if_neg Bool.false_ne_true]
    rfl
  | cons line front ih =>
    rw [List.cons_append,afterLoop,afterLoop]
    cases c.seqOf line with
    | error e => rfl
    | ok seq =>
      simp only [Except.bind]
      split
      · exact ih hs
      split
      · rfl
      · exact ih (s := ⟨s.collected ++ [line],s.totalBytes + (encode line).length,s.truncated⟩) hs

theorem afterSegments_eq {segments : List Bytes} (hs : s.truncated = false) (h : textLog segments = .ok ls) :
    c.afterSegments afterSeq maxBytes segments s = c.afterLoop afterSeq maxBytes ls s := by
  induction segments generalizing ls s with
  | nil =>
    cases h
    rfl
  | cons b segments ih =>
    obtain ⟨parts,hparts,rfl⟩ := Fallible.map_eq_ok h
    rw [List.mapM_cons] at hparts
    obtain ⟨first,hfirst,hparts⟩ := Fallible.bind_ok hparts
    obtain ⟨more,hmore,hparts⟩ := Fallible.bind_ok hparts
    cases hparts
    have hlog : textLog segments = .ok more.flatten := by
      rw [textLog,hmore]
      rfl
    rw [afterSegments,hfirst,List.flatten_cons,afterLoop_append first _ hs]
    change (c.afterLoop afterSeq maxBytes first s).bind _ = _
    cases hloop : c.afterLoop afterSeq maxBytes first s with
    | error e => rfl
    | ok r =>
      change (if r.truncated = true then _ else c.afterSegments _ _ segments r) = if r.truncated = true then _ else _
      split
      · rfl
      · rename_i hgo
        exact ih (by simpa using hgo) hlog

end After

/-- A batch is the longest front part within the budget of what is not covered, but at least one line of it; it is marked
exactly when something is left. -/
theorem readHistoryAfter_longest {segments : List Bytes} {ls : List (List Char)} (h : textLog segments = .ok ls)
    (afterSeq maxBytes : ℤ) :
    (∀ t u, c.readHistoryAfterSegmented segments afterSeq maxBytes = .ok (t,u) →
      t <+: ls.filter (c.isFresh afterSeq) ∧ (u = true ↔ t ≠ ls.filter (c.isFresh afterSeq)) ∧
        (t.length ≤ 1 ∨ size t ≤ maxBytes) ∧
        ∀ t', t' <+: ls.filter (c.isFresh afterSeq) → t.length < t'.length → t ≠ [] ∧ maxBytes < size t') ∧
      ∀ e, c.readHistoryAfterSegmented segments afterSeq maxBytes = .error e → ∃ line ∈ ls, c.seqOf line = .error e := by
  rw [readHistoryAfterSegmented,afterSegments_eq rfl h]
  constructor
  · intro t u ht
    obtain ⟨r,hr,htu⟩ := Fallible.map_eq_ok ht
    cases htu
    obtain ⟨taken,hadds⟩ := afterLoop_ok rfl hr
    have hcollected : r.collected = taken := hadds.collected
    rw [hcollected]
    refine ⟨hadds.front,hadds.truncated,?_,?_⟩
    · exact hadds.within
    · intro t' ht' hlt
      obtain ⟨back,rfl⟩ := List.prefix_of_prefix_length_le hadds.front ht' hlt.le
      cases back with
      | nil =>
        rw [List.append_nil] at hlt
        exact absurd hlt (lt_irrefl _)
      | cons line back =>
        have hnext : taken ++ [line] <+: taken ++ line :: back := ⟨back,by simp⟩
        obtain ⟨hne,hover⟩ := hadds.full line (hnext.trans ht')
        have hzero : Batch.empty.totalBytes = 0 := rfl
        have hle := size_le_of_prefix hnext
        rw [hzero] at hover
        exact ⟨hne,by omega⟩
  · intro e he
    cases hloop : c.afterLoop afterSeq maxBytes ls .empty with
    | ok r =>
      rw [hloop] at he
      cases he
    | error e' =>
      rw [hloop] at he
      cases he
      exact afterLoop_error hloop

theorem readHistoryAfter_two :
    (∀ t u, plainCodec.readHistoryAfterSegmented [written twoRecords] 0 100 = .ok (t,u) →
      t <+: (twoRecords.map fun fields => (Json.obj fields).text).filter (plainCodec.isFresh 0)) ∧
    ∀ e, plainCodec.readHistoryAfterSegmented [written twoRecords] 0 100 = .error e →
      ∃ line ∈ twoRecords.map fun fields => (Json.obj fields).text, plainCodec.seqOf line = .error e := by
  obtain ⟨hread,hraise⟩ := plainCodec.readHistoryAfter_longest (textLog_written twoRecords) 0 100
  refine ⟨?_,hraise⟩
  intro t u h
  exact (hread t u h).1

/-- Batch after batch everything that is not covered is read, in order, and no line twice. -/
theorem batchesAfter_whole {segments : List Bytes} {ls : List (List Char)} (h : textLog segments = .ok ls) (hnum : c.Numbered ls)
    (afterSeq maxBytes : ℤ) {fuel : ℕ} (hfuel : (ls.filter (c.isFresh afterSeq)).length < fuel) :
    ∃ batches, c.batchesAfter segments maxBytes fuel afterSeq = .ok batches ∧
      batches.flatten = ls.filter (c.isFresh afterSeq) ∧ ∀ batch ∈ batches, batch.length ≤ 1 ∨ size batch ≤ maxBytes := by
  induction fuel generalizing afterSeq with
  | zero => omega
  | succ fuel ih =>
    have hsound : ∀ r, c.afterSegments afterSeq maxBytes segments .empty = r → c.afterLoop afterSeq maxBytes ls .empty = r := by
      intro r hr
      rw [← hr]
      exact (afterSegments_eq rfl h).symm
    cases hread : c.afterSegments afterSeq maxBytes segments .empty with
    | error e =>
      obtain ⟨line,hline,hraise⟩ := afterLoop_error (hsound _ hread)
      obtain ⟨seq,-,hseq⟩ := hnum.reads line hline
      rw [hseq] at hraise
      cases hraise
    | ok r =>
      obtain ⟨taken,hadds⟩ := afterLoop_ok rfl (hsound _ hread)
      have hcollected : r.collected = taken := hadds.collected
      have hsize := hadds.within
      simp only [batchesAfter,readHistoryAfterSegmented,hread,Except.map,Except.bind,hcollected]
      obtain ⟨back,hback⟩ := hadds.front
      cases htrunc : r.truncated with
      | false =>
        have hall : taken = ls.filter (c.isFresh afterSeq) := by
          by_contra hno
          rw [hadds.truncated.mpr hno] at htrunc
          cases htrunc
        refine ⟨[taken],rfl,by rw [List.flatten_singleton,hall],?_⟩
        intro batch hbatch
        rw [List.mem_singleton.mp hbatch]
        exact hsize
      | true =>
        have hmore := hadds.truncated.mp htrunc
        cases back with
        | nil =>
          rw [List.append_nil] at hback
          exact absurd hback hmore
        | cons next back =>
          obtain ⟨hne,-⟩ := hadds.full next ⟨back,by rw [← hback]; simp⟩
          have hne : taken ≠ [] := hne
          obtain ⟨front,newest,rfl⟩ := (List.eq_nil_or_concat' taken).resolve_left hne
          have hsplit : ls.filter (c.isFresh afterSeq) = front ++ newest :: next :: back := by
            rw [← hback]
            simp
          have hmem : newest ∈ ls := by
            have hin : newest ∈ ls.filter (c.isFresh afterSeq) := by
              rw [hsplit]
              exact List.mem_append_right _ List.mem_cons_self
            exact (List.mem_filter.mp hin).1
          obtain ⟨seq,-,hseq⟩ := hnum.reads newest hmem
          have hrest := hnum.filter_fresh hsplit hseq
          have hshort : (ls.filter (c.isFresh seq)).length < fuel := by
            have hlen := congrArg List.length hsplit
            rw [List.length_append,List.length_cons,← hrest] at hlen
            omega
          obtain ⟨batches,hbatches,hflat,hsizes⟩ := ih seq hshort
          refine ⟨(front ++ [newest]) :: batches,?_,?_,?_⟩
          · rw [List.getLast?_concat]
            simp only [hseq,hbatches]
          · rw [List.flatten_cons,hflat,hrest,hsplit]
            simp
          · intro batch hbatch
            rcases List.mem_cons.mp hbatch with rfl | hbatch
            · exact hsize
            · exact hsizes batch hbatch

theorem batchesAfter_two : ∃ batches, plainCodec.batchesAfter [written twoRecords] 1 3 0 = .ok batches ∧
    batches.flatten = (twoRecords.map fun fields => (Json.obj fields).text).filter (plainCodec.isFresh 0) ∧
      ∀ batch ∈ batches, batch.length ≤ 1 ∨ size batch ≤ (1 : ℤ) := by
  have hfew : ((twoRecords.map fun fields => (Json.obj fields).text).filter (plainCodec.isFresh 0)).length < 3 := by
    apply Nat.lt_of_le_of_lt (List.length_filter_le _ _)
    rw [List.length_map]
    decide
  exact plainCodec.batchesAfter_whole (textLog_written twoRecords) numbered_two 0 1 hfew

end LineCodec

/-! ## Text and bytes -/

theorem shownLines_noBreak {sep : Char → Bool} {s line : List Char} (h : line ∈ shownLines sep s) : ∀ c ∈ line, sep c = false := by
  obtain ⟨raw,hraw,rfl⟩ := List.mem_map.mp (List.mem_filter.mp h).1
  obtain ⟨p,q,hstrip,-,-⟩ := strip_blanks raw
  intro c hc
  apply notMem_piece s raw hraw
  rw [hstrip]
  exact List.mem_append_left _ (List.mem_append_right _ hc)

theorem shownLines_newline (s : List Char) :
    shownLines isNewline s = (splitLines (· == '\n') s).flatMap (shownLines (· == '\r')) := by
  have hsplit : splitLines isNewline s = (splitLines (· == '\n') s).flatMap (splitLines (· == '\r')) := splitLines_or _ _ s
  rw [shownLines,hsplit,List.map_flatMap,List.filter_flatMap]
  rfl

/-- The forward reader reads a segment as the backward ones do if and only if no line of it holds a carriage return. -/
theorem textLines_agree {b : Bytes} {ls : List (List Char)} (h : LineCodec.textLines b = .ok ls) :
    ls = lines b ↔ ∀ line ∈ lines b, '\r' ∉ line := by
  obtain ⟨s,hs⟩ : ∃ s, decode b = some s := by
    cases hb : decode b with
    | some s => exact ⟨s,rfl⟩
    | none =>
      rw [LineCodec.textLines,hb] at h
      cases h
  have htext : ls = shownLines isNewline s := by
    rw [LineCodec.textLines,hs] at h
    cases h
    rfl
  have hlines : lines b = shownLines (· == '\n') s := by
    rw [lines,decodeReplace_of_decode hs]
  constructor
  · intro heq line hline hmem
    rw [← heq,htext] at hline
    cases shownLines_noBreak hline '\r' hmem
  · intro hplain
    have hpieces : ∀ raw ∈ splitLines (· == '\n') s, shownLines (· == '\r') raw = if strip raw = [] then [] else [strip raw] := by
      intro raw hraw
      apply shownLines_unbroken
      intro c hc
      rw [beq_eq_false_iff_ne]
      rintro rfl
      have hkept : strip raw ∈ lines b := by
        rw [hlines,shownLines,List.mem_filter]
        refine ⟨List.mem_map_of_mem hraw,?_⟩
        simpa using List.ne_nil_of_mem hc
      exact hplain _ hkept hc
    rw [htext,hlines,shownLines_newline,shownLines]
    generalize splitLines (· == '\n') s = pieces at hpieces
    induction pieces with
    | nil => rfl
    | cons raw pieces ih =>
      have hrest := ih fun r hr => hpieces r (List.mem_cons_of_mem _ hr)
      rw [List.flatMap_cons,hrest,hpieces raw List.mem_cons_self,List.map_cons,List.filter_cons]
      by_cases hblank : strip raw = []
      · simp [hblank]
      · simp [hblank]

theorem textLines_agree_two : (twoRecords.map fun fields => (Json.obj fields).text) = lines (written twoRecords) ↔
    ∀ line ∈ lines (written twoRecords), '\r' ∉ line := textLines_agree (textLines_written twoRecords)

end HistoryTailReader
end Reyn
