import Reyn.Lib.TextFile

/-! # Text files that grow by lines

A file as its complete lines and the unfinished text after the last line break. What a
writer adds goes to the end, so it continues an unfinished line.
-/
namespace Py

def joinLines (lines : List (List Char)) (tail : List Char) : List Char := lines.flatMap (· ++ ['\n']) ++ tail

/-- A line without line breaks. -/
def Unbroken (line : List Char) : Prop := ∀ c ∈ line, isNewline c = false

/-- The bytes of complete lines and unfinished text. -/
structure Lined (b : Bytes) (lines : List (List Char)) (tail : List Char) : Prop where
  bytes : b = encode (joinLines lines tail)
  lines : ∀ line ∈ lines, Unbroken line
  tail : Unbroken tail

/-- Nothing stands after the last line break. -/
def EndsLine (b : Bytes) : Prop := b = [] ∨ b.getLast? = some 10

/-- The object that a line holds. -/
def lineObject (line : List Char) : Option (List (String × Json)) := (lineValue line).bind fun
  | .obj fields => some fields
  | _ => none

/-- The objects of a file that is read as text; `none` for a `UnicodeDecodeError`. -/
def textObjects (b : Bytes) : Option (List (List (String × Json))) :=
  (decode b).map fun s => (splitLines isNewline s).filterMap lineObject

theorem joinLines_append (lines : List (List Char)) (tail part : List Char) :
    joinLines lines tail ++ part = joinLines lines (tail ++ part) := List.append_assoc _ _ _

theorem joinLines_concat (lines : List (List Char)) (tail : List Char) :
    joinLines lines tail ++ ['\n'] = joinLines (lines ++ [tail]) [] := by
  simp [joinLines]

theorem splitLines_joinLines {tail : List Char} (ht : Unbroken tail) :
    ∀ {lines : List (List Char)}, (∀ line ∈ lines, Unbroken line) → splitLines isNewline (joinLines lines tail) = lines ++ [tail]
  | [], _ => splitLines_of_notMem ht
  | line :: lines, h => by
    have hnl : isNewline '\n' = true := rfl
    have hrest := splitLines_joinLines ht fun l hl => h l (List.mem_cons_of_mem _ hl)
    have hshape : joinLines (line :: lines) tail = line ++ '\n' :: joinLines lines tail := by
      simp [joinLines]
    rw [hshape,splitLines_append (h line List.mem_cons_self) hnl,hrest]
    rfl

namespace Lined
variable {b : Bytes} {lines : List (List Char)} {tail part : List Char}

theorem nil : Lined [] [] [] := ⟨rfl,nofun,nofun⟩

/-- Text that is added continues the unfinished line. -/
theorem append_part (h : Lined b lines tail) (hp : Unbroken part) : Lined (b ++ encode part) lines (tail ++ part) where
  bytes := by rw [h.bytes,← encode_append,joinLines_append]
  lines := h.lines
  tail := by
    intro c hc
    rcases List.mem_append.mp hc with hc | hc
    · exact h.tail c hc
    · exact hp c hc

theorem append_newline (h : Lined b lines tail) : Lined (b ++ [10]) (lines ++ [tail]) [] where
  bytes := by
    have hnl : ([10] : Bytes) = encode ['\n'] := rfl
    rw [h.bytes,hnl,← encode_append,joinLines_concat]
  lines := by
    intro line hl
    rcases List.mem_append.mp hl with hl | hl
    · exact h.lines line hl
    · rw [List.mem_singleton.mp hl]
      exact h.tail
  tail := nofun

theorem append_line (h : Lined b lines tail) (hp : Unbroken part) :
    Lined (b ++ encode (part ++ ['\n'])) (lines ++ [tail ++ part]) [] := by
  have hline := (h.append_part hp).append_newline
  have hnl : ([10] : Bytes) = encode ['\n'] := rfl
  rw [hnl,List.append_assoc,← encode_append] at hline
  exact hline

/-- What a reader finds. -/
theorem objects (h : Lined b lines tail) : textObjects b = some ((lines ++ [tail]).filterMap lineObject) := by
  rw [textObjects,h.bytes,decode_encode,Option.map_some,splitLines_joinLines h.tail h.lines]

/-- At the end of a line there is no unfinished text. -/
theorem tail_nil (h : Lined b lines tail) (hb : EndsLine b) : tail = [] := by
  rcases List.eq_nil_or_concat tail with hnil | ⟨front,c,rfl⟩
  · exact hnil
  · have hc : c ≠ '\n' := by
      rintro rfl
      cases h.tail '\n' (by simp)
    have hbytes : b = encode (joinLines lines front) ++ String.utf8EncodeChar c := by
      rw [h.bytes,List.concat_eq_append,← joinLines_append,encode_append]
      simp [encode]
    have hne : String.utf8EncodeChar c ≠ [] := by
      intro he
      have hlen := one_le_encode c
      rw [he] at hlen
      cases hlen
    rcases hb with hb | hb
    · rw [hbytes] at hb
      exact absurd (List.append_eq_nil_iff.mp hb).2 hne
    · rw [hbytes,List.getLast?_append_of_ne_nil _ hne] at hb
      exact absurd (List.mem_of_getLast? hb) (newline_notMem_encodeChar hc)

/-- The same file as a reader of bytes splits it. -/
theorem byteLines (h : Lined b lines tail) : splitLines (· == 10) b = (lines ++ [tail]).map encode := by
  have hbytes : ∀ {line : List Char}, Unbroken line → ∀ x ∈ encode line, (x == (10 : UInt8)) = false := by
    intro line hline x hx
    rw [beq_eq_false_iff_ne]
    rintro rfl
    apply newline_notMem_encode _ hx
    intro hmem
    cases hline _ hmem
  obtain ⟨rfl,hlines,htail⟩ := h
  induction lines with
  | nil => exact splitLines_of_notMem (hbytes htail)
  | cons line lines ih =>
    have hshape : encode (joinLines (line :: lines) tail) = encode line ++ 10 :: encode (joinLines lines tail) := by
      rw [joinLines,List.flatMap_cons,List.append_assoc,List.append_assoc,encode_append,encode_append]
      rfl
    have hsep : ((10 : UInt8) == 10) = true := rfl
    rw [hshape,splitLines_append (hbytes (hlines line List.mem_cons_self)) hsep,
      ih fun l hl => hlines l (List.mem_cons_of_mem _ hl)]
    rfl

/-- Unfinished text is what follows the last line break. -/
theorem getLast?_ne (h : Lined b lines tail) (ht : tail ≠ []) : b.getLast? ≠ some 10 := by
  intro hb
  exact ht (h.tail_nil (.inr hb))

/-- Without its last line break the last line is unfinished. -/
theorem dropLast {last : List Char} (h : Lined b (lines ++ [last]) []) : b.getLast? = some 10 ∧ Lined b.dropLast lines last := by
  have hbytes : b = encode (joinLines lines last) ++ [10] := by
    rw [h.bytes,← joinLines_concat,encode_append]
    rfl
  rw [hbytes,List.getLast?_concat,List.dropLast_concat]
  exact ⟨rfl,rfl,fun l hl => h.lines l (List.mem_append_left _ hl),h.lines last (by simp)⟩

end Lined

/-- The text of a value stands on one line. -/
theorem unbroken_text (v : Json) : Unbroken v.text := Json.text_noNewline v

theorem lineObject_obj {fields : List (String × Json)} (h : (Json.obj fields).wf = true) :
    lineObject (Json.obj fields).text = some fields := by
  rw [lineObject,lineValue_obj h]
  rfl

theorem lineObject_nil : lineObject [] = none := rfl

end Py
