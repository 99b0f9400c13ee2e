import Reyn.Lib.JsonText

/-! # Text files and their lines

A file is the list of its bytes. Reading it as text decodes UTF-8 and ends a line at a
newline or a carriage return; reading it as bytes ends a line at a newline. The empty
lines the pair of both leaves make no difference to a reader that skips blanks.
-/
namespace Py

abbrev Bytes := List UInt8

def encode (s : List Char) : Bytes := s.flatMap String.utf8EncodeChar

/-- The character the bytes begin with; none is longer than four bytes. -/
def firstChar (b : Bytes) : Option Char := (b.take 4).toByteArray.utf8DecodeChar? 0

def decodeFuel : ℕ → Bytes → Option (List Char)
  | _, [] => some []
  | 0, _ => none
  | fuel + 1, b => (firstChar b).bind fun c => (decodeFuel fuel (b.drop c.utf8Size)).map (c :: ·)

/-- Strict decoding; `none` for a `UnicodeDecodeError`. -/
def decode (b : Bytes) : Option (List Char) := decodeFuel b.length b

def isTrail (b : UInt8) : Bool := 0x80 ≤ b && b ≤ 0xBF

/-- The second byte of a longer character. -/
def isSecond (first second : UInt8) : Bool :=
  if first = 0xE0 then 0xA0 ≤ second && second ≤ 0xBF
  else if first = 0xED then 0x80 ≤ second && second ≤ 0x9F
  else if first = 0xF0 then 0x90 ≤ second && second ≤ 0xBF
  else if first = 0xF4 then 0x80 ≤ second && second ≤ 0x8F
  else isTrail second

/-- How many bytes one replacement character stands for. -/
def badLength : Bytes → ℕ
  | a :: b :: c :: _ =>
    if 0xE0 ≤ a && a ≤ 0xF4 && isSecond a b then if 0xF0 ≤ a && isTrail c then 3 else 2 else 1
  | [a,b] => if 0xE0 ≤ a && a ≤ 0xF4 && isSecond a b then 2 else 1
  | _ => 1

/-- Decoding with `errors="replace"`. -/
def decodeReplaceFuel : ℕ → Bytes → List Char
  | _, [] => []
  | 0, _ => []
  | fuel + 1, b =>
    match firstChar b with
    | some c => c :: decodeReplaceFuel fuel (b.drop c.utf8Size)
    | none => Char.ofNat 0xFFFD :: decodeReplaceFuel fuel (b.drop (badLength b))

def decodeReplace (b : Bytes) : List Char := decodeReplaceFuel b.length b

/-- The pieces between separators. -/
def splitLines {A : Type} (sep : A → Bool) : List A → List (List A)
  | [] => [[]]
  | a :: l =>
    if sep a then [] :: splitLines sep l
    else match splitLines sep l with
      | [] => [[a]]
      | line :: lines => (a :: line) :: lines

def isNewline (c : Char) : Bool := c == '\n' || c == '\r'

/-- `str.isspace` for one character. -/
def isSpace (c : Char) : Bool :=
  (9 ≤ c.toNat && c.toNat ≤ 13) || (28 ≤ c.toNat && c.toNat ≤ 32) || c.toNat == 0x85 || c.toNat == 0xA0 ||
    c.toNat == 0x1680 || (0x2000 ≤ c.toNat && c.toNat ≤ 0x200A) || c.toNat == 0x2028 || c.toNat == 0x2029 ||
    c.toNat == 0x202F || c.toNat == 0x205F || c.toNat == 0x3000

def strip (cs : List Char) : List Char := ((cs.dropWhile isSpace).reverse.dropWhile isSpace).reverse

/-- The value a line holds: nothing for a blank line, or one that is no JSON text. -/
def lineValue (line : List Char) : Option Json :=
  if strip line = [] then none else Json.loads (String.ofList (strip line))

/-- The line of a value. -/
def jsonLine (v : Json) : Bytes := encode (v.text ++ ['\n'])

/-- The values of a file that is read as text; `none` for a `UnicodeDecodeError`. -/
def textValues (b : Bytes) : Option (List Json) :=
  (decode b).map fun s => (splitLines isNewline s).filterMap lineValue

/-- The values of a file that is read line by line as bytes, each decoded with replacement. -/
def byteValues (b : Bytes) : List Json := (splitLines (· == 10) b).filterMap fun line => lineValue (decodeReplace line)

section Encode
variable {s t : List Char} {b : Bytes}

theorem encode_append (s t : List Char) : encode (s ++ t) = encode s ++ encode t := List.flatMap_append

theorem firstChar_encode (c : Char) (b : Bytes) : firstChar (String.utf8EncodeChar c ++ b) = some c := by
  have hlen : (String.utf8EncodeChar c).length ≤ 4 := by
    rw [String.length_utf8EncodeChar]
    exact Char.utf8Size_le_four c
  rw [firstChar,List.take_append,List.take_of_length_le hlen,List.toByteArray_append]
  exact ByteArray.utf8DecodeChar?_utf8EncodeChar_append

theorem drop_encode (c : Char) (b : Bytes) : (String.utf8EncodeChar c ++ b).drop c.utf8Size = b := by
  rw [← String.length_utf8EncodeChar c,List.drop_left]

theorem one_le_encode (c : Char) : 1 ≤ (String.utf8EncodeChar c).length :=
  List.length_pos_iff.mpr String.utf8EncodeChar_ne_nil

/-- Fuel beyond the number of bytes changes nothing. -/
theorem decodeFuel_mono {n m : ℕ} (hn : b.length ≤ n) (hm : b.length ≤ m) : decodeFuel n b = decodeFuel m b := by
  induction n generalizing m b with
  | zero =>
    obtain rfl : b = [] := List.length_eq_zero_iff.mp (by omega)
    cases m <;> rfl
  | succ n ih =>
    cases b with
    | nil => cases m <;> rfl
    | cons x xs =>
      simp only [List.length_cons] at hn hm
      obtain ⟨k,rfl⟩ : ∃ k, m = k + 1 := ⟨m - 1,by omega⟩
      simp only [decodeFuel]
      refine Option.bind_congr fun c _ => ?_
      have hsize : 0 < c.utf8Size := Char.utf8Size_pos c
      have hlen : ((x :: xs).drop c.utf8Size).length ≤ xs.length := by
        rw [List.length_drop,List.length_cons]
        omega
      rw [ih (Nat.le_trans hlen (Nat.le_of_succ_le_succ hn)) (Nat.le_trans hlen (Nat.le_of_succ_le_succ hm))]

theorem decode_encode_append (s : List Char) (b : Bytes) : decode (encode s ++ b) = (decode b).map (s ++ ·) := by
  induction s with
  | nil => simp [encode]
  | cons c s ih =>
    have hcons : encode (c :: s) ++ b = String.utf8EncodeChar c ++ (encode s ++ b) := List.append_assoc _ _ _
    have hpos := one_le_encode c
    obtain ⟨n,hn⟩ : ∃ n, (String.utf8EncodeChar c ++ (encode s ++ b)).length = n + 1 :=
      ⟨(String.utf8EncodeChar c ++ (encode s ++ b)).length - 1,by rw [List.length_append]; omega⟩
    have hne : String.utf8EncodeChar c ++ (encode s ++ b) ≠ [] := by
      intro hnil
      rw [hnil] at hn
      cases hn
    have hstep : decodeFuel (n + 1) (String.utf8EncodeChar c ++ (encode s ++ b)) =
        (decodeFuel n (encode s ++ b)).map (c :: ·) := by
      cases hb : String.utf8EncodeChar c ++ (encode s ++ b) with
      | nil => exact absurd hb hne
      | cons x xs =>
        rw [decodeFuel,← hb,firstChar_encode,Option.bind_some,drop_encode]
        exact List.cons_ne_nil x xs
    have hle : (encode s ++ b).length ≤ n := by
      rw [List.length_append] at hn
      omega
    rw [hcons,decode,hn,hstep,decodeFuel_mono hle (Nat.le_refl _)]
    show (decode (encode s ++ b)).map _ = _
    rw [ih,Option.map_map]
    rfl

theorem decode_nil : decode [] = some [] := rfl

theorem decode_encode (s : List Char) : decode (encode s) = some s := by
  have h := decode_encode_append s []
  rw [List.append_nil,decode_nil] at h
  simpa using h

theorem decodeReplaceFuel_of_decode {n : ℕ} (h : decodeFuel n b = some s) : decodeReplaceFuel n b = s := by
  induction n generalizing b s with
  | zero =>
    cases b with
    | nil => cases h; rfl
    | cons x xs => cases h
  | succ n ih =>
    cases b with
    | nil => cases h; rfl
    | cons x xs =>
      obtain ⟨c,hc,h⟩ := Option.bind_eq_some_iff.mp h
      obtain ⟨t,ht,rfl⟩ := Option.map_eq_some_iff.mp h
      rw [decodeReplaceFuel,hc]
      · simp only [ih ht]
      · exact List.cons_ne_nil x xs

/-- What decodes is not replaced. -/
theorem decodeReplace_of_decode (h : decode b = some s) : decodeReplace b = s := decodeReplaceFuel_of_decode h

/-- A byte of a character other than a newline is no newline. -/
theorem newline_notMem_encodeChar {c : Char} (h : c ≠ '\n') : (10 : UInt8) ∉ String.utf8EncodeChar c := by
  have hbyte : ∀ n < 256, UInt8.ofNat n = 10 → n = 10 := by
    intro n hn he
    have := congrArg UInt8.toNat he
    rw [UInt8.toNat_ofNat'] at this
    simp only [UInt8.reduceToNat] at this
    omega
  intro hmem
  unfold String.utf8EncodeChar at hmem
  simp only at hmem
  split at hmem
  · rename_i hv
    have := hbyte _ (by omega) (List.mem_singleton.mp hmem).symm
    exact h (Char.ext (UInt32.toNat_inj.mp this))
  split at hmem
  · simp only [List.mem_cons,List.not_mem_nil,or_false] at hmem
    rcases hmem with hm | hm
    · have := hbyte _ (by omega) hm.symm
      omega
    · have := hbyte _ (by omega) hm.symm
      omega
  split at hmem
  · simp only [List.mem_cons,List.not_mem_nil,or_false] at hmem
    rcases hmem with hm | hm | hm
    · have := hbyte _ (by omega) hm.symm
      omega
    · have := hbyte _ (by omega) hm.symm
      omega
    · have := hbyte _ (by omega) hm.symm
      omega
  · simp only [List.mem_cons,List.not_mem_nil,or_false] at hmem
    rcases hmem with hm | hm | hm | hm
    · have := hbyte _ (by omega) hm.symm
      omega
    · have := hbyte _ (by omega) hm.symm
      omega
    · have := hbyte _ (by omega) hm.symm
      omega
    · have := hbyte _ (by omega) hm.symm
      omega

theorem newline_notMem_encode (h : '\n' ∉ s) : (10 : UInt8) ∉ encode s := by
  intro hmem
  obtain ⟨c,hc,hb⟩ := List.mem_flatMap.mp hmem
  exact newline_notMem_encodeChar (fun he => h (he ▸ hc)) hb

end Encode

section Lines
variable {A : Type} {sep : A → Bool}

theorem splitLines_cons_sep {a : A} (h : sep a = true) (l : List A) : splitLines sep (a :: l) = [] :: splitLines sep l := by
  rw [splitLines,if_pos h]

/-- A line without separators, and what comes after its separator. -/
theorem splitLines_append {line : List A} (h : ∀ a ∈ line, sep a = false) {a : A} (ha : sep a = true) (rest : List A) :
    splitLines sep (line ++ a :: rest) = line :: splitLines sep rest := by
  induction line with
  | nil => exact splitLines_cons_sep ha rest
  | cons x xs ih =>
    have hx := h x List.mem_cons_self
    rw [List.cons_append,splitLines,if_neg (by simp [hx]),ih fun y hy => h y (List.mem_cons_of_mem _ hy)]

theorem splitLines_of_notMem {line : List A} (h : ∀ a ∈ line, sep a = false) : splitLines sep line = [line] := by
  induction line with
  | nil => rfl
  | cons x xs ih =>
    have hx := h x List.mem_cons_self
    rw [splitLines,if_neg (by simp [hx]),ih fun y hy => h y (List.mem_cons_of_mem _ hy)]

end Lines

namespace Json

theorem escChar_noNewline (c : Char) : ∀ d ∈ escChar c, isNewline d = false := by
  have hhex : ∀ n < 16, isNewline (Nat.digitChar n) = false := by decide
  intro d hd
  unfold escChar at hd
  split at hd
  · simp only [List.mem_cons,List.not_mem_nil,or_false] at hd
    rcases hd with rfl | rfl <;> rfl
  split at hd
  · simp only [List.mem_cons,List.not_mem_nil,or_false,or_self] at hd
    subst hd
    rfl
  split at hd
  · simp only [List.mem_cons,List.not_mem_nil,or_false] at hd
    rcases hd with rfl | rfl <;> rfl
  split at hd
  · simp only [List.mem_cons,List.not_mem_nil,or_false] at hd
    rcases hd with rfl | rfl <;> rfl
  split at hd
  · simp only [List.mem_cons,List.not_mem_nil,or_false] at hd
    rcases hd with rfl | rfl <;> rfl
  split at hd
  · simp only [List.mem_cons,List.not_mem_nil,or_false] at hd
    rcases hd with rfl | rfl <;> rfl
  split at hd
  · simp only [List.mem_cons,List.not_mem_nil,or_false] at hd
    rcases hd with rfl | rfl <;> rfl
  split at hd
  · simp only [List.mem_cons,List.not_mem_nil,or_false] at hd
    rcases hd with rfl | rfl | rfl | rfl | rfl | rfl
    · rfl
    · rfl
    · rfl
    · rfl
    · exact hhex _ (by omega)
    · exact hhex _ (by omega)
  · rename_i hn hr _ _ _ _
    rw [List.mem_singleton.mp hd]
    simp [isNewline,hn,hr]

theorem strText_noNewline (s : String) : ∀ c ∈ strText s, isNewline c = false := by
  intro c hc
  rcases List.mem_cons.mp hc with rfl | hc
  · rfl
  rcases List.mem_append.mp hc with hc | hc
  · obtain ⟨d,-,hd⟩ := List.mem_flatMap.mp hc
    exact escChar_noNewline d c hd
  · rw [List.mem_singleton.mp hc]
    rfl

theorem numChar_noNewline {c : Char} (h : numChar c = true) : isNewline c = false := by
  by_contra hno
  have hn : c = '\n' ∨ c = '\r' := Decidable.or_iff_not_imp_left.mpr (by simpa [isNewline] using hno)
  rcases hn with rfl | rfl
  · cases h
  · cases h

theorem digit_noNewline {c : Char} (h : c.isDigit = true) : isNewline c = false :=
  numChar_noNewline (by simp [numChar,h])

theorem noNewline_of_all {t : List Char} (h : t.all (fun c => !isNewline c) = true) : ∀ c ∈ t, isNewline c = false := by
  simpa using h

mutual
/-- A text stays on its line. -/
theorem text_noNewline : ∀ v : Json, ∀ c ∈ v.text, isNewline c = false
  | null, c, hc =>
    noNewline_of_all (by decide) c hc
  | bool true, c, hc =>
    noNewline_of_all (by decide) c hc
  | bool false, c, hc =>
    noNewline_of_all (by decide) c hc
  | int i, c, hc => by
    have hdigits : ∀ c ∈ Nat.toDigits 10 i.natAbs, isNewline c = false := fun c hc =>
      digit_noNewline (Nat.isDigit_of_mem_toDigits (by decide) (by decide) hc)
    have htext : c ∈ intText i := hc
    unfold intText at htext
    split at htext
    · rcases List.mem_cons.mp htext with rfl | htext
      · rfl
      · exact hdigits c htext
    · exact hdigits c htext
  | float ⟨t,hr⟩, c, hc => by
    have ht : c ∈ t := hc
    rcases hr with hr | rfl | rfl | rfl
    · simp only [isReal,Bool.and_eq_true,List.all_eq_true] at hr
      exact numChar_noNewline (hr.1.1 c ht)
    · exact noNewline_of_all (by decide) c ht
    · exact noNewline_of_all (by decide) c ht
    · exact noNewline_of_all (by decide) c ht
  | str s, c, hc => strText_noNewline s c hc
  | arr [], c, hc =>
    noNewline_of_all (by decide) c hc
  | arr (x :: xs), c, hc => by
    have hc : c ∈ '[' :: (x.text ++ itemsText xs) := hc
    rcases List.mem_cons.mp hc with rfl | hc
    · rfl
    rcases List.mem_append.mp hc with hc | hc
    · exact text_noNewline x c hc
    · exact itemsText_noNewline xs c hc
  | obj [], c, hc =>
    noNewline_of_all (by decide) c hc
  | obj ((k,v) :: fields), c, hc => by
    have hc : c ∈ '{' :: (strText k ++ ':' :: ' ' :: (v.text ++ fieldsText fields)) := hc
    rcases List.mem_cons.mp hc with rfl | hc
    · rfl
    rcases List.mem_append.mp hc with hc | hc
    · exact strText_noNewline k c hc
    rcases List.mem_cons.mp hc with rfl | hc
    · rfl
    rcases List.mem_cons.mp hc with rfl | hc
    · rfl
    rcases List.mem_append.mp hc with hc | hc
    · exact text_noNewline v c hc
    · exact fieldsText_noNewline fields c hc
theorem itemsText_noNewline : ∀ xs : List Json, ∀ c ∈ itemsText xs, isNewline c = false
  | [], c, hc => by
    rw [List.mem_singleton.mp hc]
    rfl
  | x :: xs, c, hc => by
    have hc : c ∈ ',' :: ' ' :: (x.text ++ itemsText xs) := hc
    rcases List.mem_cons.mp hc with rfl | hc
    · rfl
    rcases List.mem_cons.mp hc with rfl | hc
    · rfl
    rcases List.mem_append.mp hc with hc | hc
    · exact text_noNewline x c hc
    · exact itemsText_noNewline xs c hc
theorem fieldsText_noNewline : ∀ fields : List (String × Json), ∀ c ∈ fieldsText fields, isNewline c = false
  | [], c, hc => by
    rw [List.mem_singleton.mp hc]
    rfl
  | (k,v) :: fields, c, hc => by
    have hc : c ∈ ',' :: ' ' :: (strText k ++ ':' :: ' ' :: (v.text ++ fieldsText fields)) := hc
    rcases List.mem_cons.mp hc with rfl | hc
    · rfl
    rcases List.mem_cons.mp hc with rfl | hc
    · rfl
    rcases List.mem_append.mp hc with hc | hc
    · exact strText_noNewline k c hc
    rcases List.mem_cons.mp hc with rfl | hc
    · rfl
    rcases List.mem_cons.mp hc with rfl | hc
    · rfl
    rcases List.mem_append.mp hc with hc | hc
    · exact text_noNewline v c hc
    · exact fieldsText_noNewline fields c hc
end

end Json

section Values
variable {b : Bytes} {v : Json} {fields : List (String × Json)}

theorem strip_obj : strip (Json.obj fields).text = (Json.obj fields).text := by
  have hfields : ∀ fields, ∃ front, Json.fieldsText fields = front ++ ['}'] := by
    intro fields
    induction fields with
    | nil => exact ⟨[],rfl⟩
    | cons p rest ih =>
      obtain ⟨k,v⟩ := p
      obtain ⟨front,hf⟩ := ih
      exact ⟨',' :: ' ' :: (Json.strText k ++ ':' :: ' ' :: (v.text ++ front)),by simp [Json.fieldsText,hf]⟩
  have hshape : ∃ front, (Json.obj fields).text = '{' :: (front ++ ['}']) := by
    cases fields with
    | nil => exact ⟨[],rfl⟩
    | cons p rest =>
      obtain ⟨k,v⟩ := p
      obtain ⟨front,hf⟩ := hfields rest
      exact ⟨Json.strText k ++ ':' :: ' ' :: (v.text ++ front),by simp [Json.text,hf]⟩
  obtain ⟨front,hf⟩ := hshape
  have hopen : isSpace '{' = false := by decide
  have hclose : isSpace '}' = false := by decide
  rw [hf,strip,List.dropWhile_cons_of_neg (by simp [hopen]),← List.cons_append,List.reverse_append]
  simp [hclose]

/-- The line of an object holds the object. -/
theorem lineValue_obj (h : (Json.obj fields).wf = true) : lineValue (Json.obj fields).text = some (Json.obj fields) := by
  have hne : (Json.obj fields).text ≠ [] := by
    obtain ⟨c,rest,hc,-⟩ := Json.begins_text (Json.obj fields)
    rw [hc]
    exact List.cons_ne_nil c rest
  rw [lineValue,strip_obj,if_neg hne]
  exact Json.loads_dumps h

theorem decode_jsonLine_append (v : Json) (b : Bytes) :
    decode (jsonLine v ++ b) = (decode b).map fun s => v.text ++ '\n' :: s := by
  rw [jsonLine,decode_encode_append]
  simp

/-- A line that was appended whole is read first, as text. -/
theorem textValues_jsonLine (h : (Json.obj fields).wf = true) (b : Bytes) :
    textValues (jsonLine (.obj fields) ++ b) = (textValues b).map (Json.obj fields :: ·) := by
  have hnl : isNewline '\n' = true := rfl
  simp only [textValues,decode_jsonLine_append,Option.map_map]
  congr 1
  funext s
  show (splitLines isNewline ((Json.obj fields).text ++ '\n' :: s)).filterMap lineValue = _
  rw [splitLines_append (Json.text_noNewline _) hnl,List.filterMap_cons,lineValue_obj h]
  rfl

/-- And as bytes. -/
theorem byteValues_jsonLine (h : (Json.obj fields).wf = true) (b : Bytes) :
    byteValues (jsonLine (.obj fields) ++ b) = Json.obj fields :: byteValues b := by
  have hline : jsonLine (.obj fields) = encode (Json.obj fields).text ++ [10] := by
    rw [jsonLine,encode_append]
    rfl
  have hnl : '\n' ∉ (Json.obj fields).text := by
    intro hmem
    have := Json.text_noNewline _ _ hmem
    cases this
  have hbytes : ∀ x ∈ encode (Json.obj fields).text, (x == (10 : UInt8)) = false := by
    intro x hx
    rw [beq_eq_false_iff_ne]
    rintro rfl
    exact newline_notMem_encode hnl hx
  have hsep : ((10 : UInt8) == 10) = true := rfl
  rw [byteValues,hline,List.append_assoc,List.singleton_append,splitLines_append hbytes hsep,List.filterMap_cons,
    decodeReplace_of_decode (decode_encode _),lineValue_obj h]
  rfl

end Values
end Py
