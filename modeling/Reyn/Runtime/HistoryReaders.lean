import Reyn.Events.AgentSnapshot
import Reyn.Lib.Fallible
import Reyn.Lib.TextReplace
import Reyn.Runtime.HistorySegments

/-! # The readers of the history segments

The backward readers take a segment in chunks from its end and carry the unfinished
front of a chunk over to the next one; the peek at the last line widens its window;
the forward reader reads text. All of them are about one logical file, the lines of
the segments that are not blank, oldest first. What `json.loads` and `int` do with a
line is a parameter, and so is what they raise.
-/
namespace Reyn
open Py
namespace HistoryTailReader

/-- The lines of a segment, oldest first. -/
def lines (b : Bytes) : List (List Char) := shownLines (· == '\n') (decodeReplace b)

/-- The lines of all segments, which are given oldest first. -/
def logicalLines (segments : List Bytes) : List (List Char) := segments.flatMap lines

/-! ## Reading backward -/

/-- What is yielded of the parts of a buffer. -/
def yielded (parts : List Bytes) : List (List Char) :=
  (parts.reverse.map fun raw => strip (decodeReplace raw)).filter fun line => line != []

/-- The loop of `_iter_raw_lines_reverse` with `pos` bytes left to read. -/
def reverseLoop (b : Bytes) (chunkSize : ℕ) : ℕ → ℕ → Bytes → List (List Char)
  | 0, _, _ => []
  | fuel + 1, pos, carry =>
    if pos = 0 then []
    else
      let readSize := min chunkSize pos
      let pos := pos - readSize
      let buf := (b.drop pos).take readSize ++ carry
      match splitLines (· == 10) buf with
      | [] => []
      | first :: complete =>
        if 0 < pos then yielded complete ++ reverseLoop b chunkSize fuel pos first else yielded (first :: complete)

def iterRawLinesReverse (chunkSize : ℕ+) (b : Bytes) : List (List Char) := reverseLoop b chunkSize b.length b.length []

def iterPathsLinesReverse (chunkSize : ℕ+) (paths : List Bytes) : List (List Char) :=
  paths.flatMap (iterRawLinesReverse chunkSize)

/-- `buf.rfind(b"\n")` -/
def rfind (l : Bytes) : Option ℕ := (l.reverse.findIdx? (· == 10)).map fun i => l.length - 1 - i

/-- `line or None` for the bytes of a line. -/
def lastLine (raw : Bytes) : Option (List Char) :=
  if strip (decodeReplace raw) = [] then none else some (strip (decodeReplace raw))

/-- `read_last_line` calls itself with a wider window. -/
def readLastLineLoop (b : Bytes) : ℕ → ℕ → Option (List Char)
  | 0, _ => none
  | fuel + 1, chunkSize =>
    if b.length = 0 then none
    else
      let readSize := min chunkSize b.length
      let buf := b.drop (b.length - readSize)
      let searchEnd := if buf.getLast? = some 10 then buf.length - 1 else buf.length
      match rfind (buf.take searchEnd) with
      | some idx => lastLine (buf.drop (idx + 1))
      | none => if readSize < b.length then readLastLineLoop b fuel (chunkSize * 4) else lastLine buf

def readLastLine (chunkSize : ℕ+) (b : Bytes) : Option (List Char) := readLastLineLoop b (b.length + 1) chunkSize

/-! ## What the readers ask of a line -/

/-- The exceptions the handlers tell apart. -/
inductive PyException where
  | jsonDecode
  | attribute
  | type
  | value
  | unicodeDecode
  | other
  deriving DecidableEq

/-- `json.loads` and `int()`. -/
structure LineCodec where
  loads : List Char → Except PyException Json
  int : Json → Except PyException ℤ
  int_int : ∀ i : ℤ, int (.int i) = .ok i

/-- `value.get(key)` -/
def getKey (key : String) : Json → Except PyException (Option Json)
  | .obj fields => .ok (fields.lookup key)
  | _ => .error .attribute

namespace LineCodec
variable (c : LineCodec)

def roleIsSummary (line : List Char) : Except PyException Bool :=
  match (c.loads line).bind (getKey "role") with
  | .ok role => .ok (role.bind Json.asStr == some "summary")
  | .error .jsonDecode => .ok false
  | .error .attribute => .ok false
  | .error e => .error e

/-- `int(value.get("seq", 0) or 0)` -/
def seqField (v : Json) : Except PyException ℤ :=
  (getKey "seq" v).bind fun seq => c.int (if truthy (seq.getD (.int 0)) then seq.getD (.int 0) else .int 0)

def seqOf (line : List Char) : Except PyException ℤ :=
  match (c.loads line).bind c.seqField with
  | .ok seq => .ok seq
  | .error .jsonDecode => .ok 0
  | .error .attribute => .ok 0
  | .error .type => .ok 0
  | .error .value => .ok 0
  | .error e => .error e

/-! ## The tail -/

/-- The loop both tail readers have; only one has a byte budget. The lines are collected in file order. -/
def collectLoop (minLines : ℤ) (maxBytes : Option ℤ) :
    List (List Char) → List (List Char) → ℕ → Bool → Except PyException (List (List Char) × Bool)
  | [], collected, _, _ => .ok (collected,false)
  | line :: rest, collected, cumulativeBytes, seenSummary =>
    (if seenSummary then .ok true else c.roleIsSummary line).bind fun seenSummary =>
      let collected := line :: collected
      let cumulativeBytes := cumulativeBytes + (encode line).length
      if minLines ≤ collected.length ∧ seenSummary = true then .ok (collected,false)
      else if ∃ m ∈ maxBytes, m ≤ cumulativeBytes then .ok (collected,!seenSummary)
      else collectLoop minLines maxBytes rest collected cumulativeBytes seenSummary

def readHistoryTailSegmented (pathsNewestFirst : List Bytes) (minLines : ℤ) (chunkSize : ℕ+) :
    Except PyException (List (List Char)) :=
  (c.collectLoop minLines none (iterPathsLinesReverse chunkSize pathsNewestFirst) [] 0 false).map Prod.fst

def beforeLoop (beforeSeq minLines : ℤ) : List (List Char) → List (List Char) → Except PyException (List (List Char))
  | [], collected => .ok collected
  | line :: rest, collected =>
    (c.seqOf line).bind fun seq =>
      if beforeSeq ≤ seq then beforeLoop beforeSeq minLines rest collected
      else if minLines ≤ (line :: collected).length then .ok (line :: collected)
      else beforeLoop beforeSeq minLines rest (line :: collected)

def readHistoryBeforeSegmented (pathsNewestFirst : List Bytes) (beforeSeq minLines : ℤ) (chunkSize : ℕ+) :
    Except PyException (List (List Char)) :=
  c.beforeLoop beforeSeq minLines (iterPathsLinesReverse chunkSize pathsNewestFirst) []

/-! ## A batch behind a boundary -/

structure Batch where
  collected : List (List Char)
  totalBytes : ℕ
  truncated : Bool
  deriving DecidableEq

def Batch.empty : Batch := ⟨[],0,false⟩

def afterLoop (afterSeq maxBytes : ℤ) : List (List Char) → Batch → Except PyException Batch
  | [], s => .ok s
  | line :: rest, s =>
    (c.seqOf line).bind fun seq =>
      if seq ≠ 0 ∧ seq ≤ afterSeq then afterLoop afterSeq maxBytes rest s
      else if s.collected ≠ [] ∧ maxBytes < s.totalBytes + (encode line).length then .ok { s with truncated := true }
      else afterLoop afterSeq maxBytes rest ⟨s.collected ++ [line],s.totalBytes + (encode line).length,s.truncated⟩

/-- The lines of a file that is opened as text. -/
def textLines (b : Bytes) : Except PyException (List (List Char)) :=
  match decode b with
  | some s => .ok (shownLines isNewline s)
  | none => .error .unicodeDecode

def afterSegments (afterSeq maxBytes : ℤ) : List Bytes → Batch → Except PyException Batch
  | [], s => .ok s
  | b :: paths, s =>
    (textLines b).bind fun lines => (c.afterLoop afterSeq maxBytes lines s).bind fun s =>
      if s.truncated = true then .ok s else afterSegments afterSeq maxBytes paths s

def readHistoryAfterSegmented (pathsOldestFirst : List Bytes) (afterSeq maxBytes : ℤ) :
    Except PyException (List (List Char) × Bool) :=
  (c.afterSegments afterSeq maxBytes pathsOldestFirst .empty).map fun s => (s.collected,s.truncated)

end LineCodec

/-! ## Backward is forward, reversed -/

theorem logicalLines_append (front back : List Bytes) : logicalLines (front ++ back) = logicalLines front ++ logicalLines back :=
  List.flatMap_append

theorem lines_newline {x : Bytes} (h : (10 : UInt8) ∉ x) (y : Bytes) : lines (x ++ 10 :: y) = lines x ++ lines y := by
  have hx : ∀ c ∈ decodeReplace x, (c == '\n') = false := by
    intro c hc
    rw [beq_eq_false_iff_ne]
    rintro rfl
    exact newline_notMem_decodeReplace h hc
  have hnl : ('\n' == '\n') = true := rfl
  rw [lines,decodeReplace_newline h,shownLines,splitLines_append hx hnl,List.map_cons,lines,shownLines,
    splitLines_of_notMem hx,lines,shownLines,List.map_singleton,← List.filter_append]
  rfl

/-- Behind a segment that ends its last line another one begins with a line of its own. -/
theorem lines_append {a : Bytes} (h : EndsLine a) (b : Bytes) : lines (a ++ b) = lines a ++ lines b := by
  rcases h with rfl | h
  · rfl
  · obtain ⟨front,rfl⟩ := List.getLast?_eq_some_iff.mp h
    clear h
    have hnil : lines [] = [] := rfl
    apply pieces_induction (· == (10 : UInt8))
      (P := fun front => lines (front ++ [10] ++ b) = lines (front ++ [10]) ++ lines b)
    case line =>
      intro x hx
      have hmem : (10 : UInt8) ∉ x := by
        intro hmem
        cases hx 10 hmem
      rw [List.append_assoc,List.singleton_append,lines_newline hmem,lines_newline hmem,hnil,List.append_nil]
    case more =>
      intro x a rest hx ha ih
      obtain rfl : a = 10 := by simpa using ha
      have hmem : (10 : UInt8) ∉ x := by
        intro hmem
        cases hx 10 hmem
      simp only [List.append_assoc,List.cons_append] at ih ⊢
      rw [lines_newline hmem,lines_newline hmem,ih,List.append_assoc]

theorem yielded_splitLines (b : Bytes) : yielded (splitLines (· == 10) b) = (lines b).reverse := by
  rw [yielded,lines,shownLines,splitLines_decodeReplace,List.map_map,List.map_reverse,List.filter_reverse]
  rfl

theorem yielded_append (front back : List Bytes) : yielded (front ++ back) = yielded back ++ yielded front := by
  rw [yielded,List.reverse_append,List.map_append,List.filter_append]
  rfl

/-- The unfinished front of a chunk goes to the next chunk, so that each line is decoded whole. -/
theorem reverseLoop_eq {b : Bytes} {chunkSize fuel pos : ℕ} {carry : Bytes} (hchunk : 0 < chunkSize) (hpos : 0 < pos)
    (hle : pos ≤ b.length) (hfuel : pos ≤ fuel) :
    reverseLoop b chunkSize fuel pos carry = yielded (splitLines (· == 10) (b.take pos ++ carry)) := by
  induction fuel generalizing pos carry with
  | zero => omega
  | succ fuel ih =>
    have hread : (b.drop (pos - min chunkSize pos)).take (min chunkSize pos) = (b.take pos).drop (pos - min chunkSize pos) := by
      rw [List.drop_take]
      apply congrArg (fun n => (b.drop (pos - min chunkSize pos)).take n)
      omega
    obtain ⟨first,complete,hparts⟩ := List.exists_cons_of_ne_nil
      (splitLines_ne_nil (· == 10) ((b.take pos).drop (pos - min chunkSize pos) ++ carry))
    rw [reverseLoop,if_neg (by omega)]
    dsimp only
    rw [hread,hparts]
    dsimp only
    have hwhole : b.take pos = b.take (pos - min chunkSize pos) ++ (b.take pos).drop (pos - min chunkSize pos) := by
      have htake : b.take (pos - min chunkSize pos) = (b.take pos).take (pos - min chunkSize pos) := by
        rw [List.take_take,min_eq_left (Nat.sub_le _ _)]
      rw [htake,List.take_append_drop]
    split
    · rename_i hmore
      rw [ih hmore (by omega) (by omega),hwhole,List.append_assoc,splitLines_front _ hparts,yielded_append]
    · rename_i hdone
      have hzero : pos - min chunkSize pos = 0 := by omega
      rw [hzero,List.drop_zero] at hparts
      rw [← hparts]

theorem iterRawLinesReverse_eq (chunkSize : ℕ+) (b : Bytes) : iterRawLinesReverse chunkSize b = (lines b).reverse := by
  rw [iterRawLinesReverse]
  cases b with
  | nil => rfl
  | cons a b =>
    rw [reverseLoop_eq chunkSize.pos (by simp) (Nat.le_refl _) (Nat.le_refl _),List.take_length,List.append_nil,
      yielded_splitLines]

theorem iterPathsLinesReverse_backward (chunkSize : ℕ+) (segments : List Bytes) :
    iterPathsLinesReverse chunkSize segments.reverse = (logicalLines segments).reverse := by
  induction segments with
  | nil => rfl
  | cons b segments ih =>
    have hcons : logicalLines (b :: segments) = lines b ++ logicalLines segments := List.flatMap_cons
    rw [List.reverse_cons,hcons,List.reverse_append,← ih,← iterRawLinesReverse_eq chunkSize b]
    simp [iterPathsLinesReverse]

/-- Whatever the chunks, the backward readers see the lines of the logical file, newest first; and the logical file is the
file of all bytes, when every segment but the newest ends its last line. -/
theorem iterPathsLinesReverse_logical (chunkSize : ℕ+) (segments : List Bytes) :
    iterPathsLinesReverse chunkSize segments.reverse = (logicalLines segments).reverse ∧
      ((∀ b ∈ segments.dropLast, EndsLine b) → logicalLines segments = lines segments.flatten) := by
  constructor
  · exact iterPathsLinesReverse_backward chunkSize segments
  · induction segments with
    | nil => exact fun _ => rfl
    | cons b segments ih =>
      intro hends
      have hcons : logicalLines (b :: segments) = lines b ++ logicalLines segments := List.flatMap_cons
      cases segments with
      | nil => simp [logicalLines]
      | cons b' segments =>
        rw [List.dropLast_cons₂] at hends
        have hrest := ih fun x hx => hends x (List.mem_cons_of_mem _ hx)
        have hflat : (b :: b' :: segments).flatten = b ++ (b' :: segments).flatten := List.flatten_cons
        rw [hcons,hrest,hflat,lines_append (hends b List.mem_cons_self)]

/-! ## The peek at the last line -/

section Peek
variable {b x y : Bytes}

theorem rfind_none (h : (10 : UInt8) ∉ y) : rfind y = none := by
  rw [rfind,Option.map_eq_none_iff,List.findIdx?_eq_none_iff]
  intro a ha
  rw [beq_eq_false_iff_ne]
  rintro rfl
  exact h (List.mem_reverse.mp ha)

theorem rfind_append (h : (10 : UInt8) ∉ y) : rfind (x ++ 10 :: y) = some x.length := by
  have hback : y.reverse.findIdx? (· == 10) = none := by
    rw [List.findIdx?_eq_none_iff]
    intro a ha
    rw [beq_eq_false_iff_ne]
    rintro rfl
    exact h (List.mem_reverse.mp ha)
  have hrev : (x ++ 10 :: y).reverse = y.reverse ++ 10 :: x.reverse := by simp
  have hsep : ((10 : UInt8) == 10) = true := by decide
  rw [rfind,hrev,List.findIdx?_append,hback,List.findIdx?_cons,if_pos hsep]
  simp only [Option.none_or,Option.map_some,List.length_append,List.length_cons,List.length_reverse]
  apply congrArg
  omega

/-- The file without the line break at its very end. -/
def body (b : Bytes) : Bytes := if b.getLast? = some 10 then b.dropLast else b

theorem body_tail (b : Bytes) : ∃ t, b = body b ++ t ∧ (t = [] ∨ t = [10]) := by
  rw [body]
  split
  · rename_i hlast
    obtain ⟨front,rfl⟩ := List.getLast?_eq_some_iff.mp hlast
    exact ⟨[10],by rw [List.dropLast_concat],.inr rfl⟩
  · exact ⟨[],(List.append_nil b).symm,.inl rfl⟩

theorem lastLine_ended {t : Bytes} (h : (10 : UInt8) ∉ y) (ht : t = [] ∨ t = [10]) : lastLine (y ++ t) = lastLine y := by
  rcases ht with rfl | rfl
  · rw [List.append_nil]
  · have hspace : isSpace '\n' = true := by decide
    have hstrip : strip (decodeReplace (y ++ [10])) = strip (decodeReplace y) := by
      rw [decodeReplace_newline h]
      exact strip_concat_space hspace _
    rw [lastLine,lastLine,hstrip]

/-- What the reader of the whole file finds. -/
theorem readLastLine_piece (h : (splitLines (· == 10) (body b)).getLast? = some y) :
    (Reyn.readLastLine b).map strip = lastLine y := by
  have hpieces : (splitLines (· == 10) (if b.getLast? = some 10 then b.dropLast else b)).getLast? = some y := h
  rw [Reyn.readLastLine,hpieces,Option.map_some,lastLine,Option.filter_some]
  by_cases hblank : strip (decodeReplace y) = []
  · simp [hblank]
  · simp [hblank]

theorem getLast?_splitLines (h : (10 : UInt8) ∉ y) (x : Bytes) : (splitLines (· == 10) (x ++ 10 :: y)).getLast? = some y := by
  have hy : ∀ a ∈ y, (a == (10 : UInt8)) = false := by
    intro a ha
    rw [beq_eq_false_iff_ne]
    rintro rfl
    exact h ha
  have hbreak : splitLines (· == 10) (10 :: y) = [] :: splitLines (· == 10) y := splitLines_cons_sep (by decide) y
  have hback : splitLines (· == 10) (10 :: y) = [[],y] := by
    rw [hbreak,splitLines_of_notMem hy]
  rw [splitLines_front x hback,List.getLast?_concat]

/-- A window onto the end of the file. -/
theorem window {n : ℕ} (hn : 0 < n) (hle : n ≤ b.length) : ∃ t, b = body b ++ t ∧ (t = [] ∨ t = [10]) ∧
    b.drop (b.length - n) = (body b).drop (b.length - n) ++ t ∧
    (b.drop (b.length - n)).take (if (b.drop (b.length - n)).getLast? = some 10 then (b.drop (b.length - n)).length - 1
      else (b.drop (b.length - n)).length) = (body b).drop (b.length - n) := by
  have hlast : (b.drop (b.length - n)).getLast? = b.getLast? := by
    rw [List.getLast?_drop,if_neg (by omega)]
  rw [hlast]
  by_cases hnl : b.getLast? = some 10
  · obtain ⟨front,rfl⟩ := List.getLast?_eq_some_iff.mp hnl
    have hbody : body (front ++ [10]) = front := by
      rw [body,if_pos hnl,List.dropLast_concat]
    have hdrop : (front ++ [10]).drop ((front ++ [10]).length - n) = front.drop ((front ++ [10]).length - n) ++ [10] := by
      apply List.drop_append_of_le_length
      rw [List.length_append,List.length_singleton]
      omega
    refine ⟨[10],by rw [hbody],.inr rfl,by rw [hbody,hdrop],?_⟩
    rw [if_pos hnl,hbody,hdrop,List.length_append,List.length_singleton,Nat.add_sub_cancel,List.take_left]
  · have hbody : body b = b := by
      rw [body,if_neg hnl]
    refine ⟨[],by rw [hbody,List.append_nil],.inl rfl,by rw [hbody,List.append_nil],?_⟩
    rw [if_neg hnl,hbody,List.take_length]

/-- The window gets wider until it holds a line break in front of the last line, or everything. -/
theorem readLastLineLoop_eq {fuel chunkSize : ℕ} (hb : b ≠ []) (hchunk : 0 < chunkSize) (hfuel : 0 < fuel)
    (hbound : b.length < fuel + chunkSize) : readLastLineLoop b fuel chunkSize = (Reyn.readLastLine b).map strip := by
  have hlen := List.length_pos_iff.mpr hb
  induction fuel generalizing chunkSize with
  | zero => omega
  | succ fuel ih =>
    obtain ⟨t,hbt,ht,hbuf,hsearch⟩ := window (n := min chunkSize b.length) (b := b) (by omega) (by omega)
    rw [readLastLineLoop,if_neg (Nat.ne_of_gt hlen)]
    dsimp only
    rw [hsearch]
    by_cases hmem : (10 : UInt8) ∈ (body b).drop (b.length - min chunkSize b.length)
    · obtain ⟨back,front,hsplit,hnone⟩ := List.eq_append_cons_of_mem (List.mem_reverse.mpr hmem)
      have hlines : (body b).drop (b.length - min chunkSize b.length) = front.reverse ++ 10 :: back.reverse := by
        have hrev := congrArg List.reverse hsplit
        rw [List.reverse_reverse] at hrev
        rw [hrev]
        simp
      have hy : (10 : UInt8) ∉ back.reverse := fun h => hnone (List.mem_reverse.mp h)
      have hwhole : body b = ((body b).take (b.length - min chunkSize b.length) ++ front.reverse) ++ 10 :: back.reverse := by
        rw [List.append_assoc,← hlines,List.take_append_drop]
      have hpiece : (splitLines (· == 10) (body b)).getLast? = some back.reverse := by
        rw [hwhole]
        exact getLast?_splitLines hy _
      rw [hlines,rfind_append hy]
      dsimp only
      have hline : (front.reverse ++ 10 :: back.reverse ++ t).drop (front.reverse.length + 1) = back.reverse ++ t := by
        rw [List.append_assoc,List.drop_append]
        simp
      rw [hbuf,hlines,hline,lastLine_ended hy ht,readLastLine_piece hpiece]
    · rw [rfind_none hmem]
      dsimp only
      split
      · rename_i hmore
        exact ih (by omega) (by omega) (by omega)
      · rename_i hall
        have hzero : b.length - min chunkSize b.length = 0 := by omega
        rw [hzero,List.drop_zero] at hmem
        have hy : ∀ a ∈ body b, (a == (10 : UInt8)) = false := by
          intro a ha
          rw [beq_eq_false_iff_ne]
          rintro rfl
          exact hmem ha
        have hpiece : (splitLines (· == 10) (body b)).getLast? = some (body b) := by
          rw [splitLines_of_notMem hy,List.getLast?_singleton]
        have hline : lastLine b = lastLine (body b) := by
          conv_lhs => rw [hbt]
          exact lastLine_ended hmem ht
        rw [hzero,List.drop_zero,hline,readLastLine_piece hpiece]

theorem lines_body (b : Bytes) : lines (body b) = lines b := by
  obtain ⟨t,hb,rfl | rfl⟩ := body_tail b
  · rw [List.append_nil] at hb
    rw [← hb]
  · have hbreak : ∀ b : Bytes, lines (b ++ [10]) = lines b := by
      intro b
      have hnil : lines [] = [] := rfl
      apply pieces_induction (· == (10 : UInt8)) (P := fun b => lines (b ++ [10]) = lines b)
      case line =>
        intro x hx
        have hmem : (10 : UInt8) ∉ x := by
          intro hmem
          cases hx 10 hmem
        rw [lines_newline hmem,hnil,List.append_nil]
      case more =>
        intro x a rest hx ha ih
        obtain rfl : a = 10 := by simpa using ha
        have hmem : (10 : UInt8) ∉ x := by
          intro hmem
          cases hx 10 hmem
        rw [List.append_assoc,List.cons_append,lines_newline hmem,lines_newline hmem,ih]
    have h := hbreak (body b)
    rw [← hb] at h
    exact h.symm

/-- The peek finds what a reader of the whole file finds behind the last line break, for every window it starts with; that
is the newest line of the file if and only if the text there is not blank, or the file has no lines. -/
theorem readLastLine_peek (chunkSize : ℕ+) (b : Bytes) :
    readLastLine chunkSize b = (Reyn.readLastLine b).map strip ∧
      (readLastLine chunkSize b = (lines b).getLast? ↔ lines b = [] ∨
        ∃ raw, (splitLines (· == 10) (body b)).getLast? = some raw ∧ strip (decodeReplace raw) ≠ []) := by
  have hpeek : readLastLine chunkSize b = (Reyn.readLastLine b).map strip := by
    rw [readLastLine]
    by_cases hb : b = []
    · rw [hb]
      rfl
    · exact readLastLineLoop_eq hb chunkSize.pos (Nat.succ_pos _) (by have := chunkSize.pos; omega)
  obtain ⟨pieces,raw,hpieces⟩ : ∃ pieces raw, splitLines (· == 10) (body b) = pieces ++ [raw] :=
    (List.eq_nil_or_concat' (splitLines (· == 10) (body b))).resolve_left (splitLines_ne_nil _ _)
  have hlast : (splitLines (· == 10) (body b)).getLast? = some raw := by
    rw [hpieces,List.getLast?_concat]
  have hlines : lines b = ((pieces.map decodeReplace).map strip).filter (fun line => line != []) ++
      if strip (decodeReplace raw) = [] then [] else [strip (decodeReplace raw)] := by
    rw [← lines_body,lines,shownLines,splitLines_decodeReplace,hpieces,List.map_append,List.map_append,List.filter_append]
    apply congrArg
    by_cases hblank : strip (decodeReplace raw) = []
    · simp [hblank]
    · simp [hblank]
  refine ⟨hpeek,?_⟩
  rw [hpeek,readLastLine_piece hlast,lastLine]
  by_cases hblank : strip (decodeReplace raw) = []
  · rw [if_pos hblank]
    constructor
    · intro h
      exact .inl (List.getLast?_eq_none_iff.mp h.symm)
    · rintro (h | ⟨raw',hraw,hne⟩)
      · rw [h]
        rfl
      · rw [hlast] at hraw
        cases hraw
        exact absurd hblank hne
  · rw [if_neg hblank]
    constructor
    · exact fun _ => .inr ⟨raw,hlast,hblank⟩
    · intro _
      rw [hlines,if_neg hblank,List.getLast?_concat]

end Peek

/-! ## What a backward reader collects -/

/-- The bytes of lines. -/
def size (ls : List (List Char)) : ℕ := (ls.map fun line => (encode line).length).sum

theorem size_append (front back : List (List Char)) : size (front ++ back) = size front + size back := by
  rw [size,List.map_append,List.sum_append]
  rfl

theorem size_cons (line : List Char) (ls : List (List Char)) : size (line :: ls) = (encode line).length + size ls := rfl

theorem size_le_of_prefix {front ls : List (List Char)} (h : front <+: ls) : size front ≤ size ls := by
  obtain ⟨back,rfl⟩ := h
  rw [size_append]
  exact Nat.le_add_right _ _

namespace LineCodec
variable (c : LineCodec)

def HasSummary (ls : List (List Char)) : Prop := ∃ line ∈ ls, c.roleIsSummary line = .ok true

/-- A summary and enough lines. -/
def Full (minLines : ℤ) (ls : List (List Char)) : Prop := minLines ≤ ls.length ∧ c.HasSummary ls

/-- When the tail readers stop. -/
def Stops (minLines : ℤ) (maxBytes : Option ℤ) (ls : List (List Char)) : Prop :=
  c.Full minLines ls ∨ ∃ m ∈ maxBytes, m ≤ size ls

section Tail
variable {c : LineCodec} {minLines : ℤ} {maxBytes : Option ℤ} {rest collected t : List (List Char)} {bytes : ℕ} {seen u : Bool}

/-- The lines are taken until the reader stops, or there are no more. -/
theorem collectLoop_ok (hbytes : bytes = size collected) (hseen : seen = true ↔ c.HasSummary collected)
    (h : c.collectLoop minLines maxBytes rest collected bytes seen = .ok (t,u)) :
    ∃ read left, rest = read ++ left ∧ t = read.reverse ++ collected ∧
      (∀ front, front ≠ [] → front <+: read → front ≠ read → ¬ c.Stops minLines maxBytes (front.reverse ++ collected)) ∧
      ((read ≠ [] ∧ c.Stops minLines maxBytes t ∧ (u = true ↔ ¬ c.HasSummary t)) ∨
        (left = [] ∧ u = false ∧ (read ≠ [] → ¬ c.Stops minLines maxBytes t))) := by
  induction rest generalizing collected bytes seen with
  | nil =>
    cases h
    refine ⟨[],[],rfl,rfl,?_,.inr ⟨rfl,rfl,fun hne => absurd rfl hne⟩⟩
    intro front hne hfront
    exact absurd (List.prefix_nil.mp hfront) hne
  | cons line rest ih =>
    obtain ⟨seen',hline,h⟩ := Fallible.bind_ok h
    dsimp only at h
    have hseen' : seen' = true ↔ c.HasSummary (line :: collected) := by
      by_cases hs : seen = true
      · rw [if_pos hs] at hline
        cases hline
        obtain ⟨l,hl,hsum⟩ := hseen.mp hs
        exact ⟨fun _ => ⟨l,List.mem_cons_of_mem _ hl,hsum⟩,fun _ => rfl⟩
      · rw [if_neg hs] at hline
        constructor
        · rintro rfl
          exact ⟨line,List.mem_cons_self,hline⟩
        · rintro ⟨l,hl,hsum⟩
          rcases List.mem_cons.mp hl with rfl | hl
          · rw [hsum] at hline
            cases hline
            rfl
          · exact absurd (hseen.mpr ⟨l,hl,hsum⟩) hs
    have hbytes' : bytes + (encode line).length = size (line :: collected) := by
      rw [hbytes,size_cons,Nat.add_comm]
    have hone : ∀ front, front ≠ [] → front <+: [line] → front ≠ [line] →
        ¬ c.Stops minLines maxBytes (front.reverse ++ collected) := by
      intro front hne hfront hno
      rcases List.prefix_cons_iff.mp hfront with rfl | ⟨front',rfl,hnil⟩
      · exact absurd rfl hne
      · rw [List.prefix_nil.mp hnil] at hno
        exact absurd rfl hno
    split at h
    · rename_i hfull
      cases h
      have hstop : c.Full minLines (line :: collected) := ⟨hfull.1,hseen'.mp hfull.2⟩
      refine ⟨[line],rest,rfl,rfl,hone,.inl ⟨List.cons_ne_nil _ _,.inl hstop,?_⟩⟩
      exact ⟨fun hf => absurd hf Bool.false_ne_true,fun hno => absurd hstop.2 hno⟩
    · rename_i hfull
      split at h
      · rename_i hbudget
        cases h
        rw [hbytes'] at hbudget
        refine ⟨[line],rest,rfl,rfl,hone,.inl ⟨List.cons_ne_nil _ _,.inr hbudget,?_⟩⟩
        rw [← hseen']
        cases seen' <;> simp
      · rename_i hbudget
        rw [hbytes'] at hbudget
        have hgo : ¬ c.Stops minLines maxBytes (line :: collected) := by
          rintro (hstop | hstop)
          · exact hfull ⟨hstop.1,hseen'.mpr hstop.2⟩
          · exact hbudget hstop
        obtain ⟨read,left,hrest,ht,hfronts,hend⟩ := ih hbytes' hseen' h
        refine ⟨line :: read,left,by rw [hrest]; rfl,by rw [ht]; simp,?_,?_⟩
        · intro front hne hfront hno
          rcases List.prefix_cons_iff.mp hfront with rfl | ⟨front',rfl,hfront'⟩
          · exact absurd rfl hne
          · have hmove : (line :: front').reverse ++ collected = front'.reverse ++ (line :: collected) := by simp
            rw [hmove]
            by_cases hnil : front' = []
            · rw [hnil]
              exact hgo
            · exact hfronts front' hnil hfront' fun he => hno (he ▸ rfl)
        · rcases hend with ⟨-,hstop,hu⟩ | ⟨hleft,hu,hstop⟩
          · exact .inl ⟨List.cons_ne_nil _ _,hstop,hu⟩
          · refine .inr ⟨hleft,hu,fun _ => ?_⟩
            by_cases hnil : read = []
            · rw [ht,hnil]
              exact hgo
            · exact hstop hnil

theorem collectLoop_error {e : PyException} (h : c.collectLoop minLines maxBytes rest collected bytes seen = .error e) :
    ∃ line ∈ rest, c.roleIsSummary line = .error e := by
  induction rest generalizing collected bytes seen with
  | nil => cases h
  | cons line rest ih =>
    rw [collectLoop] at h
    cases hline : (if seen then .ok true else c.roleIsSummary line : Except PyException Bool) with
    | error e' =>
      rw [hline] at h
      cases h
      split at hline
      · cases hline
      · exact ⟨line,List.mem_cons_self,hline⟩
    | ok seen' =>
      rw [hline] at h
      change (if _ then _ else if _ then _ else c.collectLoop minLines maxBytes rest _ _ seen') = _ at h
      split at h
      · cases h
      split at h
      · cases h
      obtain ⟨l,hl,hraise⟩ := ih h
      exact ⟨l,List.mem_cons_of_mem _ hl,hraise⟩

/-- The tail of a log: the shortest one that makes the reader stop, or everything. -/
theorem collected_shortest {ls : List (List Char)} (h : c.collectLoop minLines maxBytes ls.reverse [] 0 false = .ok (t,u)) :
    t <:+ ls ∧ ((t ≠ [] ∧ c.Stops minLines maxBytes t ∧ (u = true ↔ ¬ c.HasSummary t)) ∨
        (t = ls ∧ u = false ∧ (t ≠ [] → ¬ c.Stops minLines maxBytes t))) ∧
      ∀ s, s <:+ ls → s ≠ [] → c.Stops minLines maxBytes s → t.length ≤ s.length := by
  have hnone : false = true ↔ c.HasSummary [] := by
    constructor
    · exact fun hf => absurd hf Bool.false_ne_true
    · rintro ⟨l,hl,-⟩
      cases hl
  obtain ⟨read,left,hsplit,ht,hfronts,hend⟩ := collectLoop_ok (by rfl) hnone h
  rw [List.append_nil] at ht
  have hls : ls = left.reverse ++ t := by
    rw [ht,← List.reverse_append,← hsplit,List.reverse_reverse]
  have hread : read ≠ [] ↔ t ≠ [] := by
    rw [ht]
    simp
  refine ⟨⟨left.reverse,hls.symm⟩,?_,?_⟩
  · rcases hend with ⟨hne,hstop,hu⟩ | ⟨hleft,hu,hstop⟩
    · exact .inl ⟨hread.mp hne,hstop,hu⟩
    · refine .inr ⟨by rw [hls,hleft]; rfl,hu,fun hne => hstop (hread.mpr hne)⟩
  · intro s hs hne hstop
    by_contra hshort
    rw [ht,List.length_reverse] at hshort
    have hprefix : s.reverse <+: read := by
      have hrev : s.reverse <+: read ++ left := by
        rw [← hsplit]
        exact List.reverse_prefix.mpr hs
      exact List.prefix_of_prefix_length_le hrev (List.prefix_append read left) (by rw [List.length_reverse]; omega)
    apply hfronts s.reverse (by simpa using hne) hprefix
    · intro he
      have := congrArg List.length he
      rw [List.length_reverse] at this
      omega
    · rwa [List.reverse_reverse,List.append_nil]

end Tail

/-- The tail is the shortest one with a summary and `minLines` lines, so with the newest summary and everything behind it, or
everything there is; and what it raises a line it looks at raises. -/
theorem readHistoryTailSegmented_shortest (segments : List Bytes) (minLines : ℤ) (chunkSize : ℕ+) :
    (∀ t, c.readHistoryTailSegmented segments.reverse minLines chunkSize = .ok t →
      t <:+ logicalLines segments ∧ (t = logicalLines segments ∨ c.Full minLines t) ∧
        ∀ s, s <:+ logicalLines segments → s ≠ [] → c.Full minLines s → t.length ≤ s.length) ∧
      ∀ e, c.readHistoryTailSegmented segments.reverse minLines chunkSize = .error e →
        ∃ line ∈ logicalLines segments, c.roleIsSummary line = .error e := by
  have hlog := (iterPathsLinesReverse_backward chunkSize segments)
  rw [readHistoryTailSegmented,hlog]
  constructor
  · intro t ht
    obtain ⟨⟨t',u⟩,hloop,rfl⟩ := Fallible.map_eq_ok ht
    obtain ⟨hsuffix,hend,hshortest⟩ := collected_shortest hloop
    refine ⟨hsuffix,?_,fun s hs hne hfull => hshortest s hs hne (.inl hfull)⟩
    rcases hend with ⟨-,hstop | ⟨m,hm,-⟩,-⟩ | ⟨hall,-⟩
    · exact .inr hstop
    · cases hm
    · exact .inl hall
  · intro e he
    cases hloop : c.collectLoop minLines none (logicalLines segments).reverse [] 0 false with
    | ok r =>
      rw [hloop] at he
      cases he
    | error e' =>
      rw [hloop] at he
      cases he
      obtain ⟨line,hline,hraise⟩ := collectLoop_error hloop
      exact ⟨line,List.mem_reverse.mp hline,hraise⟩

end LineCodec

end HistoryTailReader
end Reyn
