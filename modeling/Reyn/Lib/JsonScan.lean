import Reyn.Lib.TextFile

/-! # A scan of cut and appended JSON lines

A file of JSON lines may be cut anywhere, and lines may be appended to what was cut. The
scan below goes over such bytes once, one state for an open escape. It fails where the
member of one key has a value other than a natural number, so that whatever a
reader makes of any stretch of the bytes, that member is none either.
-/
namespace Py
namespace Json

/-- A number that is no natural number. -/
def badCount : List Char → Bool
  | 'N' :: _ | 'I' :: _ => true
  | cs => (cs.takeWhile numChar).any fun c => !c.isDigit

def badMember (cs : List Char) : Bool :=
  match skipWs cs with
  | ':' :: rest => badCount (skipWs rest)
  | _ => false

/-- No escape stands for more than a control character. -/
def lowEscape : List Char → Bool
  | a :: b :: c :: d :: _ => (hex4 a b c d).all (· < 32)
  | _ => true

/-- The name of a member: a word of small letters. -/
structure Name where
  chars : List Char
  nonempty : chars ≠ []
  lower : ∀ c ∈ chars, c.isLower = true

/-- The name, a quote, and a member that is no natural number. -/
def Name.bad (key : Name) (cs : List Char) : Bool :=
  (key.chars ++ ['"']).isPrefixOf cs && badMember (cs.drop (key.chars.length + 1))

/-- `escaped` when the character before was an open backslash. -/
def clean (key : Name) (escaped : Bool) : List Char → Bool
  | [] => true
  | c :: rest =>
    if escaped then (c != 'u' || lowEscape rest) && clean key false rest
    else if c = '\\' then clean key true rest
    else !key.bad (c :: rest) && clean key false rest

section Scan
variable {key : Name} {a b : List Char} {c : Char}

theorem lower_spec {c : Char} (h : c.isLower = true) : 97 ≤ c.toNat ∧ c.toNat ≤ 122 := by
  simp only [Char.isLower,Bool.and_eq_true,decide_eq_true_eq] at h
  exact ⟨h.1,h.2⟩

theorem clean_escaped : clean key true (c :: a) = ((c != 'u' || lowEscape a) && clean key false a) := rfl

theorem clean_backslash : clean key false ('\\' :: a) = clean key true a := rfl

theorem clean_plain (hc : c ≠ '\\') : clean key false (c :: a) = (!key.bad (c :: a) && clean key false a) := by
  rw [clean,if_neg (by decide),if_neg hc]

/-- A member starts with a small letter. -/
theorem Name.bad_of_not_lower (hc : c.isLower = false) : key.bad (c :: a) = false := by
  obtain ⟨chars,hne,hlower⟩ := key
  cases chars with
  | nil => exact absurd rfl hne
  | cons k ks =>
    have hk : k ≠ c := by
      rintro rfl
      rw [hlower k List.mem_cons_self] at hc
      cases hc
    simp [Name.bad,List.isPrefixOf,hk]

theorem clean_other (hc : c ≠ '\\') (hl : c.isLower = false) : clean key false (c :: a) = clean key false a := by
  rw [clean_plain hc,Name.bad_of_not_lower hl]
  rfl

theorem clean_tail (hc : c ≠ '\\') (h : clean key false (c :: a) = true) : clean key false a = true := by
  rw [clean_plain hc,Bool.and_eq_true] at h
  exact h.2

theorem clean_drop (hb : '\\' ∉ a) (h : clean key false (a ++ b) = true) : clean key false b = true := by
  induction a with
  | nil => exact h
  | cons c a ih =>
    rw [List.mem_cons,not_or] at hb
    exact ih hb.2 (clean_tail (Ne.symm hb.1) h)

/-- The scan is at some state at every place. -/
theorem clean_suffix {escaped : Bool} (h : clean key escaped (a ++ b) = true) : ∃ e, clean key e b = true := by
  induction a generalizing escaped with
  | nil => exact ⟨escaped,h⟩
  | cons c a ih =>
    rw [List.cons_append,clean] at h
    split at h
    · exact ih (Bool.and_eq_true _ _ ▸ h).2
    · split at h
      · exact ih h
      · exact ih (Bool.and_eq_true _ _ ▸ h).2

/-- A place where no escape can end is outside of one. -/
theorem clean_restart {escaped : Bool} (hc : c ≠ '\\') (hl : c.isLower = false) (h : clean key escaped (c :: a) = true) :
    clean key false (c :: a) = true := by
  cases escaped with
  | false => exact h
  | true =>
    rw [clean_other hc hl]
    rw [clean_escaped,Bool.and_eq_true] at h
    exact h.2

theorem skipWs_append (h : skipWs a ≠ []) : skipWs (a ++ b) = skipWs a ++ b := by
  induction a with
  | nil => exact absurd rfl h
  | cons c a ih =>
    by_cases hc : isWs c = true
    · have hskip : ∀ l, skipWs (c :: l) = skipWs l := fun l => List.dropWhile_cons_of_pos hc
      rw [hskip] at h
      rw [List.cons_append,hskip,hskip,ih h]
    · have hskip : ∀ l, skipWs (c :: l) = c :: l := fun l => List.dropWhile_cons_of_neg hc
      rw [List.cons_append,hskip,hskip]
      rfl

theorem skipWs_blank (h : skipWs a = []) : skipWs (a ++ b) = skipWs b := by
  induction a with
  | nil => rfl
  | cons c a ih =>
    by_cases hc : isWs c = true
    · have hskip : ∀ l, skipWs (c :: l) = skipWs l := fun l => List.dropWhile_cons_of_pos hc
      rw [hskip] at h
      rw [List.cons_append,hskip,ih h]
    · rw [skipWs,List.dropWhile_cons_of_neg hc] at h
      cases h

theorem badCount_eq (hN : a.head? ≠ some 'N') (hI : a.head? ≠ some 'I') :
    badCount a = (a.takeWhile numChar).any fun c => !c.isDigit := by
  unfold badCount
  split
  · exact absurd rfl hN
  · exact absurd rfl hI
  · rfl

theorem takeWhile_append_any {p q : Char → Bool} (h : (a.takeWhile p).any q = true) : ((a ++ b).takeWhile p).any q = true := by
  induction a with
  | nil => cases h
  | cons c a ih =>
    by_cases hc : p c = true
    · rw [List.takeWhile_cons_of_pos hc,List.any_cons,Bool.or_eq_true] at h
      rw [List.cons_append,List.takeWhile_cons_of_pos hc,List.any_cons,Bool.or_eq_true]
      exact h.imp_right ih
    · rw [List.takeWhile_cons_of_neg hc] at h
      cases h

theorem badCount_append (h : badCount a = true) : badCount (a ++ b) = true := by
  cases a with
  | nil => cases h
  | cons c a =>
    by_cases hN : c = 'N'
    · subst hN; rfl
    by_cases hI : c = 'I'
    · subst hI; rfl
    have hne : ∀ l, (c :: l).head? ≠ some 'N' ∧ (c :: l).head? ≠ some 'I' := by simp [hN,hI]
    rw [badCount_eq (hne a).1 (hne a).2] at h
    rw [List.cons_append,badCount_eq (hne _).1 (hne _).2]
    exact takeWhile_append_any h

theorem badMember_append (h : badMember a = true) : badMember (a ++ b) = true := by
  unfold badMember at h
  split at h
  · rename_i rest hs
    have hrest : skipWs rest ≠ [] := by
      intro hnil
      rw [hnil] at h
      cases h
    rw [badMember,skipWs_append (by rw [hs]; exact List.cons_ne_nil _ _),hs,List.cons_append]
    show badCount (skipWs (rest ++ b)) = true
    rw [skipWs_append hrest]
    exact badCount_append h
  · cases h

theorem isPrefixOf_append {p : List Char} (h : p.isPrefixOf a = true) : p.isPrefixOf (a ++ b) = true := by
  rw [List.isPrefixOf_iff_prefix] at h ⊢
  exact h.trans (List.prefix_append a b)

theorem Name.bad_append (h : key.bad a = true) : key.bad (a ++ b) = true := by
  rw [Name.bad,Bool.and_eq_true] at h ⊢
  refine ⟨isPrefixOf_append h.1,?_⟩
  have hlen : key.chars.length + 1 ≤ a.length := by
    have := (List.isPrefixOf_iff_prefix.mp h.1).length_le
    simpa using this
  rw [List.drop_append_of_le_length hlen]
  exact badMember_append h.2

theorem lowEscape_append (h : lowEscape (a ++ b) = true) : lowEscape a = true := by
  match a, h with
  | [], _ | [_], _ | [_,_], _ | [_,_,_], _ => rfl
  | _ :: _ :: _ :: _ :: _, h => exact h

/-- The front of what is clean is clean. -/
theorem clean_front {escaped : Bool} (h : clean key escaped (a ++ b) = true) : clean key escaped a = true := by
  induction a generalizing escaped with
  | nil => rfl
  | cons c a ih =>
    rw [List.cons_append,clean] at h
    rw [clean]
    split at h
    · rename_i he
      rw [if_pos he]
      rw [Bool.and_eq_true,Bool.or_eq_true] at h ⊢
      exact ⟨h.1.imp_right lowEscape_append,ih h.2⟩
    rename_i he
    rw [if_neg he]
    split at h
    · rename_i hc
      rw [if_pos hc]
      exact ih h
    · rename_i hc
      rw [if_neg hc]
      rw [Bool.and_eq_true,Bool.not_eq_true'] at h ⊢
      refine ⟨?_,ih h.2⟩
      rw [Bool.eq_false_iff]
      intro hbad
      exact Bool.eq_false_iff.mp h.1 (Name.bad_append hbad)

theorem skipWs_join (h : skipWs a = []) : skipWs (a ++ '{' :: b) = '{' :: b := by
  rw [skipWs_blank h]
  rfl

theorem badCount_join (h : badCount (a ++ '{' :: b) = true) : badCount a = true := by
  cases a with
  | nil => cases h
  | cons c a =>
    by_cases hN : c = 'N'
    · subst hN; rfl
    by_cases hI : c = 'I'
    · subst hI; rfl
    have hne : ∀ l, (c :: l).head? ≠ some 'N' ∧ (c :: l).head? ≠ some 'I' := by simp [hN,hI]
    rw [List.cons_append,badCount_eq (hne _).1 (hne _).2,← List.cons_append] at h
    rw [badCount_eq (hne a).1 (hne a).2]
    have hbrace : ('{' :: b).takeWhile numChar = [] := rfl
    by_cases hall : ∀ d ∈ c :: a, numChar d = true
    · rw [List.takeWhile_append_of_pos hall,hbrace,List.append_nil] at h
      rwa [List.takeWhile_eq_self_iff.mpr hall]
    · have hlt : ((c :: a).takeWhile numChar).length ≠ (c :: a).length := by
        intro hlen
        exact hall (List.takeWhile_eq_self_iff.mp ((List.takeWhile_prefix _).eq_of_length hlen))
      rwa [List.takeWhile_append,if_neg hlt] at h

theorem badMember_join (h : badMember (a ++ '{' :: b) = true) : badMember a = true := by
  by_cases ha : skipWs a = []
  · rw [badMember,skipWs_join ha] at h
    cases h
  rw [badMember,skipWs_append ha] at h
  cases hs : skipWs a with
  | nil => exact absurd hs ha
  | cons c rest =>
    rw [hs] at h
    by_cases hc : c = ':'
    · subst hc
      have hbad : badCount (skipWs (rest ++ '{' :: b)) = true := h
      rw [badMember,hs]
      by_cases hr : skipWs rest = []
      · rw [skipWs_join hr] at hbad
        cases hbad
      · rw [skipWs_append hr] at hbad
        exact badCount_join hbad
    · rw [List.cons_append] at h
      split at h
      · rename_i heq
        exact absurd (List.cons.inj heq).1 hc
      · cases h

theorem isPrefixOf_join {p : List Char} (hp : '{' ∉ p) (h : p.isPrefixOf (a ++ '{' :: b) = true) : p.isPrefixOf a = true := by
  induction p generalizing a with
  | nil => rfl
  | cons c p ih =>
    rw [List.mem_cons,not_or] at hp
    cases a with
    | nil =>
      rw [List.nil_append,List.isPrefixOf,Bool.and_eq_true,beq_iff_eq] at h
      exact absurd h.1.symm hp.1
    | cons d a =>
      rw [List.cons_append,List.isPrefixOf,Bool.and_eq_true] at h
      rw [List.isPrefixOf,Bool.and_eq_true]
      exact ⟨h.1,ih hp.2 h.2⟩

theorem Name.bad_join (h : key.bad (a ++ '{' :: b) = true) : key.bad a = true := by
  rw [Name.bad,Bool.and_eq_true] at h ⊢
  have hbrace : '{' ∉ key.chars ++ ['"'] := by
    rw [List.mem_append,not_or]
    refine ⟨fun hmem => ?_,by decide⟩
    have := key.lower _ hmem
    cases this
  have hp := isPrefixOf_join hbrace h.1
  have hlen : key.chars.length + 1 ≤ a.length := by
    have := (List.isPrefixOf_iff_prefix.mp hp).length_le
    simpa using this
  rw [List.drop_append_of_le_length hlen] at h
  exact ⟨hp,badMember_join h.2⟩

theorem lowEscape_join (h : lowEscape a = true) : lowEscape (a ++ '{' :: b) = true := by
  have hnone : ∀ x y z, hex4 x y z '{' = none ∧ hex4 x y '{' z = none ∧ hex4 x '{' y z = none ∧ hex4 '{' x y z = none := by
    intro x y z
    have hbrace : hexVal '{' = none := rfl
    simp only [hex4,hbrace,bind]
    cases hexVal x <;> cases hexVal y <;> cases hexVal z <;> simp
  rcases a with _ | ⟨x,_ | ⟨y,_ | ⟨z,_ | ⟨_,_⟩⟩⟩⟩
  · rcases b with _ | ⟨x,_ | ⟨y,_ | ⟨z,_⟩⟩⟩
    · rfl
    · rfl
    · rfl
    · simp [lowEscape,(hnone x y z).2.2.2]
  · rcases b with _ | ⟨y,_ | ⟨z,_⟩⟩
    · rfl
    · rfl
    · simp [lowEscape,(hnone x y z).2.2.1]
  · rcases b with _ | ⟨z,_⟩
    · rfl
    · simp [lowEscape,(hnone x y z).2.1]
  · simp [lowEscape,(hnone x y z).1]
  · exact h

/-- An object may be appended to whatever is there. -/
theorem clean_join {escaped : Bool} (ha : clean key escaped a = true) (hb : clean key false ('{' :: b) = true) :
    clean key escaped (a ++ '{' :: b) = true := by
  have hopen : clean key true ('{' :: b) = true := by
    rw [clean_escaped,Bool.and_eq_true]
    exact ⟨rfl,clean_tail (by decide) hb⟩
  induction a generalizing escaped with
  | nil =>
    cases escaped with
    | true => exact hopen
    | false => exact hb
  | cons c a ih =>
    rw [clean] at ha
    rw [List.cons_append,clean]
    split at ha
    · rename_i he
      rw [if_pos he]
      rw [Bool.and_eq_true,Bool.or_eq_true] at ha ⊢
      exact ⟨ha.1.imp_right lowEscape_join,ih ha.2⟩
    rename_i he
    rw [if_neg he]
    split at ha
    · rename_i hc
      rw [if_pos hc]
      exact ih ha
    · rename_i hc
      rw [if_neg hc]
      rw [Bool.and_eq_true,Bool.not_eq_true'] at ha ⊢
      refine ⟨?_,ih ha.2⟩
      rw [Bool.eq_false_iff]
      intro hbad
      rw [← List.cons_append] at hbad
      exact Bool.eq_false_iff.mp ha.1 (Name.bad_join hbad)

end Scan

end Json
end Py
