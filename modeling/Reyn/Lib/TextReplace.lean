import Reyn.Lib.JsonScanRead

/-! # Decoding with replacement, line by line

A newline byte is never part of a longer character, and no unfinished character in
front of it takes it in. So the bytes of a file may be split at newlines before they
are decoded or after, and a reader that strips its lines and skips the blank ones may
cut off blanks at the ends of a text first.
-/
namespace Py

section Pieces
variable {A : Type} {sep : A → Bool}

/-- A text is a line without separators, or such a line, a separator and a shorter text. -/
theorem pieces_induction (sep : A → Bool) {P : List A → Prop} (line : ∀ l, (∀ a ∈ l, sep a = false) → P l)
    (more : ∀ l a rest, (∀ x ∈ l, sep x = false) → sep a = true → P rest → P (l ++ a :: rest)) (l : List A) : P l := by
  induction hn : l.length using Nat.strong_induction_on generalizing l with
  | _ n ih =>
    by_cases hall : ∀ a ∈ l, sep a = false
    · exact line l hall
    · have hdrop : l.dropWhile (fun a => !sep a) ≠ [] := by
        intro hnil
        apply hall
        intro a ha
        simpa using List.dropWhile_eq_nil_iff.mp hnil a ha
      obtain ⟨a,rest,hrest⟩ := List.exists_cons_of_ne_nil hdrop
      have hsplit : l = l.takeWhile (fun a => !sep a) ++ a :: rest := by
        rw [← hrest,List.takeWhile_append_dropWhile]
      have ha : sep a = true := by
        have hhead := List.head_dropWhile_not (fun a => !sep a) hdrop
        simpa [hrest] using hhead
      have hfront : ∀ x ∈ l.takeWhile (fun a => !sep a), sep x = false := by
        intro x hx
        simpa using List.mem_takeWhile_imp hx
      have hlen := congrArg List.length hsplit
      rw [List.length_append,List.length_cons] at hlen
      rw [hsplit]
      exact more _ a rest hfront ha (ih rest.length (by omega) rest rfl)

theorem splitLines_ne_nil (sep : A → Bool) (l : List A) : splitLines sep l ≠ [] := by
  cases l with
  | nil => exact List.cons_ne_nil _ _
  | cons a l =>
    rw [splitLines]
    split
    · exact List.cons_ne_nil _ _
    · split <;> exact List.cons_ne_nil _ _

theorem splitLines_cons_line {a : A} (h : sep a = false) {l line : List A} {lines : List (List A)}
    (hl : splitLines sep l = line :: lines) : splitLines sep (a :: l) = (a :: line) :: lines := by
  rw [splitLines,if_neg (by simp [h]),hl]

/-- No piece holds a separator. -/
theorem notMem_piece (l : List A) : ∀ line ∈ splitLines sep l, ∀ a ∈ line, sep a = false := by
  apply pieces_induction sep (P := fun l => ∀ line ∈ splitLines sep l, ∀ a ∈ line, sep a = false)
  case line =>
    intro l h
    rw [splitLines_of_notMem h]
    intro line hline
    rwa [List.mem_singleton.mp hline]
  case more =>
    intro l a rest h ha ih
    rw [splitLines_append h ha]
    intro line hline
    rcases List.mem_cons.mp hline with rfl | hline
    · exact h
    · exact ih line hline

/-- Text in front of a text goes to its first piece. -/
theorem splitLines_front (u : List A) {v first : List A} {more : List (List A)} (hv : splitLines sep v = first :: more) :
    splitLines sep (u ++ v) = splitLines sep (u ++ first) ++ more := by
  induction u with
  | nil =>
    have hfirst : ∀ a ∈ first, sep a = false := notMem_piece v first (by rw [hv]; exact List.mem_cons_self)
    rw [List.nil_append,List.nil_append,hv,splitLines_of_notMem hfirst]
    rfl
  | cons a u ih =>
    rw [List.cons_append,List.cons_append]
    by_cases ha : sep a = true
    · rw [splitLines_cons_sep ha,splitLines_cons_sep ha,ih]
      rfl
    · have ha : sep a = false := by simpa using ha
      obtain ⟨line,lines,hl⟩ := List.exists_cons_of_ne_nil (splitLines_ne_nil sep (u ++ first))
      have huv : splitLines sep (u ++ v) = line :: (lines ++ more) := by
        rw [ih,hl]
        rfl
      rw [splitLines_cons_line ha huv,splitLines_cons_line ha hl]
      rfl

/-- Splitting at two kinds of separators is splitting at one kind and then at the other. -/
theorem splitLines_or (p q : A → Bool) (l : List A) :
    splitLines (fun a => p a || q a) l = (splitLines p l).flatMap (splitLines q) := by
  induction l with
  | nil => rfl
  | cons a l ih =>
    by_cases hp : p a = true
    · rw [splitLines_cons_sep (by simp [hp]),splitLines_cons_sep hp,ih]
      rfl
    · have hp : p a = false := by simpa using hp
      obtain ⟨line,lines,hl⟩ := List.exists_cons_of_ne_nil (splitLines_ne_nil p l)
      rw [splitLines_cons_line hp hl,List.flatMap_cons]
      rw [hl,List.flatMap_cons] at ih
      by_cases hq : q a = true
      · rw [splitLines_cons_sep (by simp [hq]),splitLines_cons_sep hq,ih]
        rfl
      · have hq : q a = false := by simpa using hq
        obtain ⟨piece,pieces,hpiece⟩ := List.exists_cons_of_ne_nil (splitLines_ne_nil q line)
        rw [hpiece] at ih
        rw [splitLines_cons_line (by simp [hp,hq]) ih,splitLines_cons_line hq hpiece]
        rfl

end Pieces

/-! ## Stripped lines -/

theorem strip_space {c : Char} (h : isSpace c = true) (cs : List Char) : strip (c :: cs) = strip cs := by
  rw [strip,List.dropWhile_cons_of_pos h,strip]

theorem strip_concat_space {c : Char} (h : isSpace c = true) (cs : List Char) : strip (cs ++ [c]) = strip cs := by
  rw [strip,strip,List.dropWhile_append]
  split
  · rename_i hnil
    rw [List.isEmpty_iff.mp hnil,List.dropWhile_cons_of_pos h]
    rfl
  · rw [List.reverse_append,List.reverse_singleton,List.singleton_append,List.dropWhile_cons_of_pos h]

/-- Blanks at both ends are all that is cut off. -/
theorem strip_blanks (cs : List Char) : ∃ p q, cs = p ++ strip cs ++ q ∧ (∀ c ∈ p, isSpace c = true) ∧ ∀ c ∈ q, isSpace c = true := by
  refine ⟨cs.takeWhile isSpace,((cs.dropWhile isSpace).reverse.takeWhile isSpace).reverse,?_,?_,?_⟩
  · have hback : cs.dropWhile isSpace = strip cs ++ ((cs.dropWhile isSpace).reverse.takeWhile isSpace).reverse := by
      rw [strip,← List.reverse_append,List.takeWhile_append_dropWhile,List.reverse_reverse]
    rw [List.append_assoc,← hback,List.takeWhile_append_dropWhile]
  · exact fun c hc => List.mem_takeWhile_imp hc
  · intro c hc
    exact List.mem_takeWhile_imp (List.mem_reverse.mp hc)

/-- What does not see blanks at the ends does not see stripping. -/
theorem strip_invariant {B : Type} (f : List Char → B) (hfront : ∀ c s, isSpace c = true → f (c :: s) = f s)
    (hback : ∀ c s, isSpace c = true → f (s ++ [c]) = f s) (s : List Char) : f (strip s) = f s := by
  obtain ⟨p,q,hs,hp,hq⟩ := strip_blanks s
  have hp' : ∀ p : List Char, (∀ c ∈ p, isSpace c = true) → ∀ r, f (p ++ r) = f r := by
    intro p
    induction p with
    | nil => exact fun _ _ => rfl
    | cons c p ih =>
      intro hp r
      rw [List.cons_append,hfront c _ (hp c List.mem_cons_self),ih fun d hd => hp d (List.mem_cons_of_mem _ hd)]
  have hq' : ∀ q : List Char, (∀ c ∈ q, isSpace c = true) → ∀ r, f (r ++ q) = f r := by
    intro q
    induction q with
    | nil => exact fun _ r => by rw [List.append_nil]
    | cons c q ih =>
      intro hq r
      have hmove : r ++ c :: q = (r ++ [c]) ++ q := by simp
      rw [hmove,ih (fun d hd => hq d (List.mem_cons_of_mem _ hd)),hback c _ (hq c List.mem_cons_self)]
  have h := congrArg f hs
  rw [List.append_assoc,hp' p hp,hq' q hq] at h
  exact h.symm

theorem strip_strip (cs : List Char) : strip (strip cs) = strip cs :=
  strip_invariant strip (fun _ s h => strip_space h s) (fun _ s h => strip_concat_space h s) cs

/-- The lines a reader keeps that strips each line and skips the blank ones. -/
def shownLines (sep : Char → Bool) (s : List Char) : List (List Char) :=
  ((splitLines sep s).map strip).filter fun line => line != []

section Shown
variable {sep : Char → Bool} {s : List Char}

theorem shownLines_of_pieces {first : List Char} {more : List (List Char)} (h : splitLines sep s = first :: more) :
    shownLines sep s = (if strip first = [] then [] else [strip first]) ++ (more.map strip).filter fun line => line != [] := by
  rw [shownLines,h,List.map_cons,List.filter_cons]
  by_cases hblank : strip first = []
  · simp [hblank]
  · simp [hblank]

theorem shownLines_space {c : Char} (h : isSpace c = true) (s : List Char) : shownLines sep (c :: s) = shownLines sep s := by
  by_cases hc : sep c = true
  · have hnil : strip [] = [] := rfl
    rw [shownLines_of_pieces (splitLines_cons_sep hc s),if_pos hnil]
    rfl
  · obtain ⟨first,more,hs⟩ := List.exists_cons_of_ne_nil (splitLines_ne_nil sep s)
    rw [shownLines_of_pieces (splitLines_cons_line (by simpa using hc) hs),shownLines_of_pieces hs,strip_space h]

theorem shownLines_concat_space {c : Char} (h : isSpace c = true) (s : List Char) :
    shownLines sep (s ++ [c]) = shownLines sep s := by
  have hblank : strip [c] = [] := by
    rw [strip_space h]
    rfl
  apply pieces_induction sep (P := fun s => shownLines sep (s ++ [c]) = shownLines sep s)
  case line =>
    intro line hline
    by_cases hc : sep c = true
    · rw [shownLines_of_pieces (splitLines_append hline hc []),shownLines_of_pieces (splitLines_of_notMem hline)]
      rfl
    · have hall : ∀ x ∈ line ++ [c], sep x = false := by
        intro x hx
        rcases List.mem_append.mp hx with hx | hx
        · exact hline x hx
        · rw [List.mem_singleton.mp hx]
          simpa using hc
      rw [shownLines_of_pieces (splitLines_of_notMem hall),shownLines_of_pieces (splitLines_of_notMem hline),
        strip_concat_space h]
  case more =>
    intro line a rest hline ha ih
    rw [List.append_assoc,List.cons_append,shownLines_of_pieces (splitLines_append hline ha _),
      shownLines_of_pieces (splitLines_append hline ha _)]
    exact congrArg _ ih

theorem shownLines_strip (s : List Char) : shownLines sep (strip s) = shownLines sep s :=
  strip_invariant (shownLines sep) (fun _ s h => shownLines_space h s) (fun _ s h => shownLines_concat_space h s) s

/-- A text whose stripped form is unbroken is one line, or none. -/
theorem shownLines_unbroken (h : ∀ c ∈ strip s, sep c = false) : shownLines sep s = if strip s = [] then [] else [strip s] := by
  rw [← shownLines_strip,shownLines_of_pieces (splitLines_of_notMem h),strip_strip]
  simp

end Shown

/-! ## Splitting bytes and splitting text -/

section Replace
variable {x y b : Bytes}

theorem one_le_badLength (b : Bytes) : 1 ≤ badLength b := by
  unfold badLength
  split
  · split
    · split <;> omega
    · omega
  · split <;> omega
  · omega

theorem badLength_le (h : x ≠ []) : badLength x ≤ x.length := by
  unfold badLength
  split
  · simp only [List.length_cons]
    split
    · split <;> omega
    · omega
  · simp only [List.length_cons]
    split <;> omega
  · exact List.length_pos_iff.mpr h

theorem isSecond_newline (a : UInt8) : isSecond a 10 = false := by
  unfold isSecond
  split
  · decide
  split
  · decide
  split
  · decide
  split <;> decide

/-- A newline does not continue a character. -/
theorem badLength_newline (h : x ≠ []) : badLength (x ++ 10 :: y) = badLength x := by
  have htrail : isTrail 10 = false := by decide
  rcases x with _ | ⟨a,_ | ⟨b,_ | ⟨c,x⟩⟩⟩
  · exact absurd rfl h
  · cases y with
    | nil => simp [badLength,isSecond_newline]
    | cons c y => simp [badLength,isSecond_newline]
  · simp [badLength,htrail]
  · rfl

theorem newline_of_firstChar (h : firstChar x = some '\n') : (10 : UInt8) ∈ x := by
  have hx := Json.firstChar_spec h
  have hbyte : String.utf8EncodeChar '\n' = [10] := by decide
  rw [hbyte] at hx
  rw [hx]
  exact List.mem_cons_self

theorem firstChar_newline (hne : x ≠ []) (h : (10 : UInt8) ∉ x) : firstChar (x ++ 10 :: y) = firstChar x := by
  have hlong : ∀ c, firstChar x = some c → firstChar (x ++ 10 :: y) = some c := by
    intro c hc
    rw [Json.firstChar_spec hc,List.append_assoc]
    exact firstChar_encode c _
  have hshort : ∀ c, firstChar (x ++ 10 :: y) = some c → firstChar x = some c := by
    intro c hc
    have hspec := Json.firstChar_spec hc
    have hnl : c ≠ '\n' := by
      rintro rfl
      have hbyte : String.utf8EncodeChar '\n' = [10] := by decide
      rw [hbyte] at hspec
      cases x with
      | nil => exact hne rfl
      | cons a x =>
        rw [List.cons_append,List.singleton_append] at hspec
        rw [(List.cons.inj hspec).1] at h
        exact h List.mem_cons_self
    rcases List.append_eq_append_iff.mp hspec with ⟨t,hc,ht⟩ | ⟨t,hx,-⟩
    · -- the bytes of the character would reach past the newline
      cases t with
      | nil =>
        rw [List.append_nil] at hc
        have := firstChar_encode c []
        rwa [List.append_nil,hc] at this
      | cons z t =>
        have hz := (List.cons.inj ht).1
        subst hz
        exact absurd (hc ▸ List.mem_append_right x List.mem_cons_self) (newline_notMem_encodeChar hnl)
    · rw [hx]
      exact firstChar_encode c t
  cases hx : firstChar x with
  | some c => exact hlong c hx
  | none =>
    cases hxy : firstChar (x ++ 10 :: y) with
    | none => rfl
    | some c => rw [hshort c hxy] at hx; cases hx

/-- How many bytes the first character of the text stands for. -/
def firstLength (b : Bytes) : ℕ :=
  match firstChar b with
  | some c => c.utf8Size
  | none => badLength b

theorem one_le_firstLength (b : Bytes) : 1 ≤ firstLength b := by
  unfold firstLength
  split
  · exact Char.utf8Size_pos _
  · exact one_le_badLength b

theorem firstLength_le (h : x ≠ []) : firstLength x ≤ x.length := by
  unfold firstLength
  split
  · rename_i c hc
    have hlen := congrArg List.length (Json.firstChar_spec hc)
    rw [List.length_append,String.length_utf8EncodeChar] at hlen
    omega
  · exact badLength_le h

theorem decodeReplaceFuel_cons {n : ℕ} (h : b ≠ []) : decodeReplaceFuel (n + 1) b =
    (firstChar b).getD (Char.ofNat 0xFFFD) :: decodeReplaceFuel n (b.drop (firstLength b)) := by
  cases b with
  | nil => exact absurd rfl h
  | cons a b =>
    rw [decodeReplaceFuel,firstLength]
    · cases firstChar (a :: b) <;> rfl
    · exact List.cons_ne_nil a b

theorem decodeReplaceFuel_nil (n : ℕ) : decodeReplaceFuel n [] = [] := by
  cases n <;> rfl

theorem decodeReplaceFuel_mono {n m : ℕ} (hn : b.length ≤ n) (hm : b.length ≤ m) :
    decodeReplaceFuel n b = decodeReplaceFuel m b := by
  induction n generalizing m b with
  | zero =>
    obtain rfl : b = [] := List.length_eq_zero_iff.mp (by omega)
    rw [decodeReplaceFuel_nil,decodeReplaceFuel_nil]
  | succ n ih =>
    by_cases hb : b = []
    · rw [hb,decodeReplaceFuel_nil,decodeReplaceFuel_nil]
    · have hpos := List.length_pos_iff.mpr hb
      obtain ⟨k,rfl⟩ : ∃ k, m = k + 1 := ⟨m - 1,by omega⟩
      have hfirst := one_le_firstLength b
      have hdrop : (b.drop (firstLength b)).length ≤ b.length - 1 := by
        rw [List.length_drop]
        omega
      rw [decodeReplaceFuel_cons hb,decodeReplaceFuel_cons hb]
      apply congrArg
      apply ih
      · omega
      · omega

theorem decodeReplace_cons (h : b ≠ []) : decodeReplace b =
    (firstChar b).getD (Char.ofNat 0xFFFD) :: decodeReplace (b.drop (firstLength b)) := by
  have hpos := List.length_pos_iff.mpr h
  have hfirst := one_le_firstLength b
  obtain ⟨n,hn⟩ : ∃ n, b.length = n + 1 := ⟨b.length - 1,by omega⟩
  rw [decodeReplace,hn,decodeReplaceFuel_cons h,decodeReplace,decodeReplaceFuel_mono]
  · rw [List.length_drop]
    omega
  · exact Nat.le_refl _

/-- The bytes in front of a newline are decoded as if they stood alone. -/
theorem decodeReplace_newline (h : (10 : UInt8) ∉ x) (y : Bytes) :
    decodeReplace (x ++ 10 :: y) = decodeReplace x ++ '\n' :: decodeReplace y := by
  induction hn : x.length using Nat.strong_induction_on generalizing x with
  | _ n ih =>
    by_cases hx : x = []
    · have hfirst : firstChar (10 :: y) = some '\n' := Json.firstChar_low (by decide)
      have hsize : '\n'.utf8Size = 1 := by decide
      rw [hx,List.nil_append,decodeReplace_cons (List.cons_ne_nil 10 y),firstLength,hfirst]
      simp only [hsize,Option.getD_some,List.drop_succ_cons,List.drop_zero]
      rfl
    · have hlen := firstLength_le hx
      have hone := one_le_firstLength x
      have hsame : firstLength (x ++ 10 :: y) = firstLength x := by
        rw [firstLength,firstLength,firstChar_newline hx h,badLength_newline hx]
      have hdrop : (10 : UInt8) ∉ x.drop (firstLength x) := fun hmem => h (List.mem_of_mem_drop hmem)
      have hshort : (x.drop (firstLength x)).length < n := by
        rw [List.length_drop]
        have := List.length_pos_iff.mpr hx
        omega
      rw [decodeReplace_cons (List.append_ne_nil_of_left_ne_nil hx _),firstChar_newline hx h,hsame,
        List.drop_append_of_le_length hlen,ih _ hshort hdrop rfl,decodeReplace_cons hx]
      rfl

/-- No newline comes out of bytes without one. -/
theorem newline_notMem_decodeReplace (h : (10 : UInt8) ∉ x) : '\n' ∉ decodeReplace x := by
  induction hn : x.length using Nat.strong_induction_on generalizing x with
  | _ n ih =>
    by_cases hx : x = []
    · rw [hx]
      exact List.not_mem_nil
    · have hone := one_le_firstLength x
      have hdrop : (10 : UInt8) ∉ x.drop (firstLength x) := fun hmem => h (List.mem_of_mem_drop hmem)
      have hshort : (x.drop (firstLength x)).length < n := by
        rw [List.length_drop]
        have := List.length_pos_iff.mpr hx
        omega
      rw [decodeReplace_cons hx]
      intro hmem
      rcases List.mem_cons.mp hmem with hc | hmem
      · cases hfirst : firstChar x with
        | none =>
          rw [hfirst] at hc
          exact absurd hc (by decide)
        | some c =>
          rw [hfirst] at hc
          apply h
          apply newline_of_firstChar
          rw [hfirst]
          exact congrArg some hc.symm
      · exact ih _ hshort hdrop rfl hmem

/-- The lines of the decoded text are the decoded lines of bytes. -/
theorem splitLines_decodeReplace (b : Bytes) :
    splitLines (· == '\n') (decodeReplace b) = (splitLines (· == 10) b).map decodeReplace := by
  have hbytes : ∀ {l : Bytes}, (∀ a ∈ l, (a == (10 : UInt8)) = false) → (10 : UInt8) ∉ l := by
    intro l hl hmem
    cases hl 10 hmem
  have hchars : ∀ {l : Bytes}, (10 : UInt8) ∉ l → ∀ c ∈ decodeReplace l, (c == '\n') = false := by
    intro l hl c hc
    rw [beq_eq_false_iff_ne]
    rintro rfl
    exact newline_notMem_decodeReplace hl hc
  apply pieces_induction (· == (10 : UInt8)) (P := fun b => splitLines (· == '\n') (decodeReplace b) = (splitLines (· == 10) b).map decodeReplace)
  case line =>
    intro l hl
    rw [splitLines_of_notMem hl,splitLines_of_notMem (hchars (hbytes hl))]
    rfl
  case more =>
    intro l a rest hl ha ih
    obtain rfl : a = 10 := by simpa using ha
    have hnl : ('\n' == '\n') = true := rfl
    rw [decodeReplace_newline (hbytes hl),splitLines_append (hchars (hbytes hl)) hnl,splitLines_append hl ha,ih]
    rfl

end Replace
end Py
