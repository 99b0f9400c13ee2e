import Reyn.Lib.JsonScan

/-! # What a reader makes of clean text

Characters beyond ASCII are read only inside of strings, so they are left out of the scan.
-/
namespace Py
namespace Json

def ascii (cs : List Char) : List Char := cs.filter fun c => c.toNat < 128

section Reader
variable {key : Name} {a b cs rest : List Char} {c : Char}

theorem ascii_append (a b : List Char) : ascii (a ++ b) = ascii a ++ ascii b := List.filter_append a b

theorem ascii_cons (hc : c.toNat < 128) (a : List Char) : ascii (c :: a) = c :: ascii a :=
  List.filter_cons_of_pos (by simpa using hc)

theorem ascii_cons_of_not (hc : ¬ c.toNat < 128) (a : List Char) : ascii (c :: a) = ascii a :=
  List.filter_cons_of_neg (by simpa using hc)

theorem ascii_of_all (h : ∀ c ∈ a, c.toNat < 128) : ascii a = a :=
  List.filter_eq_self.mpr fun c hc => by simpa using h c hc

/-- Text without a backslash is read past. -/
theorem clean_past (hb : '\\' ∉ a) (h : clean key false (ascii (a ++ b)) = true) : clean key false (ascii b) = true := by
  rw [ascii_append] at h
  exact clean_drop (fun hmem => hb (List.mem_filter.mp hmem).1) h

theorem hexVal_ascii {n : ℕ} (h : hexVal c = some n) : c.toNat < 128 ∧ c ≠ '\\' := by
  have hlt : c.toNat < 128 := by
    unfold hexVal at h
    split at h
    · rename_i hd
      simp only [Char.isDigit,Bool.and_eq_true,decide_eq_true_eq] at hd
      have hle : c.toNat ≤ 57 := hd.2
      omega
    split at h
    · omega
    split at h
    · omega
    · cases h
  refine ⟨hlt,?_⟩
  rintro rfl
  cases h

theorem hex4_ascii {h₁ h₂ h₃ h₄ : Char} {n : ℕ} (h : hex4 h₁ h₂ h₃ h₄ = some n) :
    ∀ c ∈ [h₁,h₂,h₃,h₄], c.toNat < 128 ∧ c ≠ '\\' := by
  simp only [hex4,bind,Option.bind_eq_some_iff] at h
  obtain ⟨n₁,e₁,n₂,e₂,n₃,e₃,n₄,e₄,-⟩ := h
  intro c hc
  simp only [List.mem_cons,List.not_mem_nil,or_false] at hc
  rcases hc with rfl | rfl | rfl | rfl
  · exact hexVal_ascii e₁
  · exact hexVal_ascii e₂
  · exact hexVal_ascii e₃
  · exact hexVal_ascii e₄

theorem unescape_spec {e : Char} (h : unescape e = some c) : e.toNat < 128 ∧ c.isLower = false := by
  unfold unescape at h
  split at h
  all_goals first
    | cases h; done
    | (obtain rfl := Option.some.inj h; decide)

/-- How the body of a string goes on. -/
inductive BodyStep (fuel : ℕ) : List Char → List Char → List Char → Prop
  | close (rest : List Char) : BodyStep fuel ('"' :: rest) [] rest
  | escape {e c : Char} {after s rest : List Char} : unescape e = some c → parseStr fuel after = some (s,rest) →
      BodyStep fuel ('\\' :: e :: after) (c :: s) rest
  | unicode {h₁ h₂ h₃ h₄ : Char} {after s rest : List Char} {n : ℕ} : hex4 h₁ h₂ h₃ h₄ = some n →
      (n < 32 → ∃ t, s = Char.ofNat n :: t ∧ parseStr fuel after = some (t,rest)) →
      BodyStep fuel ('\\' :: 'u' :: h₁ :: h₂ :: h₃ :: h₄ :: after) s rest
  | plain {c : Char} {after s rest : List Char} : c ≠ '\\' → parseStr fuel after = some (s,rest) →
      BodyStep fuel (c :: after) (c :: s) rest

theorem bodyStep {fuel : ℕ} {s : List Char} (h : parseStr (fuel + 1) cs = some (s,rest)) : BodyStep fuel cs s rest := by
  cases cs with
  | nil => cases h
  | cons c cs =>
    rw [parseStr.eq_def] at h
    simp only at h
    split at h
    · rename_i hc
      cases h
      rw [hc]
      exact .close rest
    split at h
    · rename_i hc
      subst hc
      split at h
      · obtain ⟨n,hn,h⟩ := Option.bind_eq_some_iff.mp h
        refine .unicode hn fun hlt => ?_
        rw [if_neg (by omega),if_neg (by omega)] at h
        obtain ⟨⟨t,tail⟩,ht,h⟩ := Option.bind_eq_some_iff.mp h
        cases h
        exact ⟨t,rfl,ht⟩
      · obtain ⟨c,hc,h⟩ := Option.bind_eq_some_iff.mp h
        obtain ⟨⟨t,tail⟩,ht,h⟩ := Option.bind_eq_some_iff.mp h
        cases h
        exact .escape hc ht
      · cases h
    split at h
    · cases h
    · rename_i hb _
      obtain ⟨⟨t,tail⟩,ht,h⟩ := Option.bind_eq_some_iff.mp h
      cases h
      exact .plain hb ht

/-- After a string the text is clean, and a name that was read stood there as it is. -/
theorem clean_parseStr {fuel : ℕ} {s : List Char} (hc : clean key false (ascii cs) = true)
    (h : parseStr fuel cs = some (s,rest)) :
    clean key false (ascii rest) = true ∧ ((∀ c ∈ s, c.isLower = true) → cs = s ++ '"' :: rest) := by
  induction fuel generalizing cs s with
  | zero => cases h
  | succ fuel ih =>
    cases bodyStep h with
    | close =>
      rw [ascii_cons (by decide)] at hc
      exact ⟨clean_tail (by decide) hc,fun _ => rfl⟩
    | @escape e c after t _ he ht =>
      obtain ⟨hea,hlower⟩ := unescape_spec he
      rw [ascii_cons (by decide),ascii_cons hea,clean_backslash,clean_escaped,Bool.and_eq_true] at hc
      refine ⟨(ih hc.2 ht).1,fun hall => ?_⟩
      rw [hall c List.mem_cons_self] at hlower
      cases hlower
    | @unicode h₁ h₂ h₃ h₄ after _ _ n hn ht =>
      have hhex := hex4_ascii hn
      have h4 : ascii (h₁ :: h₂ :: h₃ :: h₄ :: after) = [h₁,h₂,h₃,h₄] ++ ascii after := by
        have hdigits : ascii [h₁,h₂,h₃,h₄] = [h₁,h₂,h₃,h₄] := ascii_of_all fun c hc => (hhex c hc).1
        have hsplit := ascii_append [h₁,h₂,h₃,h₄] after
        rw [hdigits] at hsplit
        exact hsplit
      rw [ascii_cons (by decide),ascii_cons (by decide),h4,clean_backslash,clean_escaped,Bool.and_eq_true] at hc
      have hlow : (hex4 h₁ h₂ h₃ h₄).all (· < 32) = true := by simpa [lowEscape] using hc.1
      have hlt : n < 32 := by simpa [hn] using hlow
      have hafter : clean key false (ascii after) = true :=
        clean_drop (a := [h₁,h₂,h₃,h₄]) (fun hmem => (hhex _ hmem).2 rfl) hc.2
      obtain ⟨t,rfl,hparse⟩ := ht hlt
      refine ⟨(ih hafter hparse).1,fun hall => ?_⟩
      have hlower := (lower_spec (hall _ List.mem_cons_self)).1
      have hcode : ∀ m < 32, (Char.ofNat m).toNat < 97 := by decide
      exact absurd hlower (Nat.not_le_of_lt (hcode n hlt))
    | @plain c after t _ hb ht =>
      have hafter : clean key false (ascii after) = true := by
        by_cases hca : c.toNat < 128
        · rw [ascii_cons hca] at hc
          exact clean_tail hb hc
        · rwa [ascii_cons_of_not hca] at hc
      obtain ⟨hrest,hname⟩ := ih hafter ht
      refine ⟨hrest,fun hall => ?_⟩
      rw [hname fun d hd => hall d (List.mem_cons_of_mem _ hd)]
      rfl

/-! ### Numbers and words -/

/-- The rest of a text after some of its number characters. -/
def NumRest (cs rest : List Char) : Prop := ∃ front, cs = front ++ rest ∧ ∀ c ∈ front, numChar c = true

theorem NumRest.refl (cs : List Char) : NumRest cs cs := ⟨[],rfl,nofun⟩

theorem NumRest.trans (h : NumRest a b) (h' : NumRest b rest) : NumRest a rest := by
  obtain ⟨f,rfl,hf⟩ := h
  obtain ⟨g,rfl,hg⟩ := h'
  refine ⟨f ++ g,(List.append_assoc _ _ _).symm,fun c hc => ?_⟩
  exact (List.mem_append.mp hc).elim (hf c) (hg c)

theorem NumRest.cons (hc : numChar c = true) (h : NumRest a rest) : NumRest (c :: a) rest := by
  obtain ⟨f,rfl,hf⟩ := h
  refine ⟨c :: f,rfl,fun d hd => ?_⟩
  rcases List.mem_cons.mp hd with rfl | hd
  · exact hc
  · exact hf d hd

theorem numChar_digit (hc : c.isDigit = true) : numChar c = true := by simp [numChar,hc]

theorem numRest_digits (a : List Char) : NumRest a (a.dropWhile Char.isDigit) := by
  refine ⟨a.takeWhile Char.isDigit,List.takeWhile_append_dropWhile.symm,fun c hc => ?_⟩
  exact numChar_digit (List.mem_takeWhile_imp hc)

theorem numRest_digitsPart (h : digitsPart a = some rest) : NumRest a rest := by
  cases a with
  | nil => cases h
  | cons c a =>
    rw [digitsPart] at h
    split at h
    · rename_i hc
      cases h
      exact (numRest_digits a).cons (numChar_digit hc)
    · cases h

theorem numRest_unsigned (a : List Char) : NumRest a (unsigned a) := by
  unfold unsigned
  split
  · exact (NumRest.refl _).cons rfl
  · exact .refl _

theorem numRest_natPart (h : natPart a = some rest) : NumRest a rest := by
  unfold natPart at h
  split at h
  · cases h
    exact (NumRest.refl _).cons rfl
  · split at h
    · rename_i hc
      cases h
      exact (numRest_digits _).cons (numChar_digit hc)
    · cases h
  · cases h

theorem numRest_fracPart (h : fracPart a = some rest) : NumRest a rest := by
  unfold fracPart at h
  split at h
  · exact (numRest_digitsPart h).cons rfl
  · cases h
    exact .refl _

theorem numRest_expPart (h : expPart a = some rest) : NumRest a rest := by
  unfold expPart at h
  split at h
  · exact ((numRest_digitsPart h).cons rfl).cons rfl
  · exact ((numRest_digitsPart h).cons rfl).cons rfl
  · exact ((numRest_digitsPart h).cons rfl).cons rfl
  · exact ((numRest_digitsPart h).cons rfl).cons rfl
  · exact (numRest_digitsPart h).cons rfl
  · exact (numRest_digitsPart h).cons rfl
  · cases h
    exact .refl _

theorem numRest_getD {f : List Char → Option (List Char)} (hf : ∀ {rest}, f a = some rest → NumRest a rest) :
    NumRest a ((f a).getD a) := by
  cases h : f a with
  | none => exact .refl a
  | some rest => exact hf h

theorem numRest_parseNumber {v : Json} (h : parseNumber cs = some (v,rest)) : NumRest cs rest := by
  unfold parseNumber at h
  split at h
  · cases h
  · rename_i afterInt hi
    have hrest : NumRest cs ((expPart ((fracPart afterInt).getD afterInt)).getD ((fracPart afterInt).getD afterInt)) :=
      (((numRest_unsigned cs).trans (numRest_natPart hi)).trans (numRest_getD numRest_fracPart)).trans
        (numRest_getD numRest_expPart)
    simp only at h
    split at h
    · cases h
      exact hrest
    split at h
    · cases h
      exact hrest
    · cases h

theorem NumRest.clean (h : NumRest cs rest) (hc : clean key false (ascii cs) = true) :
    clean key false (ascii rest) = true := by
  obtain ⟨front,rfl,hf⟩ := h
  refine clean_past (fun hmem => ?_) hc
  cases hf _ hmem

/-- A word is read past as well. -/
theorem clean_parseWord {v : Json} (h : parseWord cs = some (v,rest)) (hc : clean key false (ascii cs) = true) :
    clean key false (ascii rest) = true := by
  have hword : ∀ {w : List Char}, '\\' ∉ w → w.isPrefixOf cs = true → clean key false (ascii (cs.drop w.length)) = true := by
    intro w hw hp
    obtain ⟨t,rfl⟩ := List.isPrefixOf_iff_prefix.mp hp
    rw [List.drop_left]
    exact clean_past hw hc
  unfold parseWord at h
  split at h
  · rename_i hp
    cases h
    exact hword (by decide) hp
  split at h
  · rename_i hp
    cases h
    exact hword (by decide) hp
  split at h
  · rename_i hp
    cases h
    exact hword (by decide) hp
  split at h
  · rename_i hp
    cases h
    exact hword (by decide) hp
  split at h
  · rename_i hp
    cases h
    exact hword (by decide) hp
  split at h
  · rename_i hp
    cases h
    exact hword (by decide) hp
  · exact (numRest_parseNumber h).clean hc

/-! ### Values -/

/-- A natural number, or no number. -/
def natural : Json → Bool
  | int i => 0 ≤ i
  | float _ => false
  | _ => true

theorem ascii_skipWs (h : skipWs cs = c :: rest) (hc : c.toNat < 128) : skipWs (ascii cs) = c :: ascii rest := by
  induction cs with
  | nil => cases h
  | cons d cs ih =>
    by_cases hd : isWs d = true
    · have hda : d.toNat < 128 := by
        simp only [isWs,Bool.or_eq_true,beq_iff_eq] at hd
        rcases hd with ((rfl | rfl) | rfl) | rfl <;> decide
      rw [skipWs,List.dropWhile_cons_of_pos hd] at h
      rw [ascii_cons hda,skipWs,List.dropWhile_cons_of_pos hd]
      exact ih h
    · rw [skipWs,List.dropWhile_cons_of_neg hd] at h
      obtain ⟨rfl,rfl⟩ := List.cons.inj h
      rw [ascii_cons hc,skipWs,List.dropWhile_cons_of_neg hd]

theorem clean_skipWs (hc : clean key false (ascii cs) = true) : clean key false (ascii (skipWs cs)) = true := by
  have hsplit : cs = cs.takeWhile isWs ++ skipWs cs := List.takeWhile_append_dropWhile.symm
  rw [hsplit] at hc
  refine clean_past (fun hmem => ?_) hc
  cases List.mem_takeWhile_imp hmem

theorem takeWhile_num_ascii {t : List Char} (hall : ∀ d ∈ t, numChar d = true) (hr : numChar c = true)
    (h : cs = t ++ c :: rest) : c ∈ (ascii cs).takeWhile numChar := by
  have hca : ∀ d, numChar d = true → d.toNat < 128 := by
    intro d hd
    simp only [numChar,Bool.or_eq_true,beq_iff_eq] at hd
    rcases hd with ((((hd | rfl) | rfl) | rfl) | rfl) | rfl
    · simp only [Char.isDigit,Bool.and_eq_true,decide_eq_true_eq] at hd
      have hle : d.toNat ≤ 57 := hd.2
      omega
    all_goals decide
  rw [h,ascii_append,ascii_of_all fun d hd => hca d (hall d hd),ascii_cons (hca c hr),
    List.takeWhile_append_of_pos hall,List.takeWhile_cons_of_pos hr]
  exact List.mem_append_right _ List.mem_cons_self

theorem digits_of_not_badCount (h : badCount (ascii cs) = false) : ∀ c ∈ (ascii cs).takeWhile numChar, c.isDigit = true := by
  have hN : (ascii cs).head? ≠ some 'N' := by
    intro he
    obtain ⟨l,hl⟩ := List.head?_eq_some_iff.mp he
    rw [hl] at h
    cases h
  have hI : (ascii cs).head? ≠ some 'I' := by
    intro he
    obtain ⟨l,hl⟩ := List.head?_eq_some_iff.mp he
    rw [hl] at h
    cases h
  rw [badCount_eq hN hI,List.any_eq_false] at h
  intro c hc
  simpa using h c hc

/-- A number that the scan lets through is natural. -/
theorem natural_parseNumber {v : Json} (hb : badCount (ascii cs) = false) (h : parseNumber cs = some (v,rest)) :
    natural v = true := by
  have hdigits := digits_of_not_badCount hb
  -- the text has neither a sign nor a fraction nor an exponent
  have hnone : ∀ {t u : List Char} {c : Char}, (∀ d ∈ t, numChar d = true) → numChar c = true → c.isDigit = false →
      cs ≠ t ++ c :: u := by
    rintro t u c ht hc hd rfl
    rw [hdigits c (takeWhile_num_ascii ht hc rfl)] at hd
    cases hd
  have hunsigned : unsigned cs = cs := by
    cases cs with
    | nil => rfl
    | cons c t =>
      refine unsigned.eq_2 _ fun u he => ?_
      exact hnone (t := []) (u := u) (c := '-') (List.forall_mem_nil _) rfl rfl he
  unfold parseNumber at h
  rw [hunsigned] at h
  split at h
  · cases h
  rename_i afterInt hi
  obtain ⟨front,hfront,hall⟩ := numRest_natPart hi
  have hfrac : fracPart afterInt = some afterInt := by
    unfold fracPart
    split
    · rename_i t
      exact absurd hfront (hnone hall rfl rfl)
    · rfl
  have hexp : expPart afterInt = some afterInt := by
    refine expPart_of_ne fun c hc => ?_
    obtain ⟨t,rfl⟩ := List.head?_eq_some_iff.mp hc
    constructor
    · rintro rfl
      exact hnone hall rfl rfl hfront
    · rintro rfl
      exact hnone hall rfl rfl hfront
  simp only [hfrac,hexp,Option.getD_some] at h
  cases h
  have hpos : ∀ t : List Char, (∀ u, t ≠ '-' :: u) → 0 ≤ intOf t := by
    intro t ht
    unfold intOf
    split
    · rename_i u
      exact absurd rfl (ht u)
    · exact Int.natCast_nonneg _
  refine decide_eq_true (hpos _ fun u he => ?_)
  cases cs with
  | nil => cases hi
  | cons c t =>
    cases hlen : (c :: t).length - rest.length with
    | zero =>
      rw [hlen] at he
      cases he
    | succ n =>
      rw [hlen,List.take_succ_cons] at he
      obtain ⟨rfl,-⟩ := List.cons.inj he
      exact hnone (t := []) (u := t) (c := '-') (List.forall_mem_nil _) rfl rfl rfl

theorem natural_parseWord {v : Json} (hb : badCount (ascii cs) = false) (h : parseWord cs = some (v,rest)) :
    natural v = true := by
  have hhead : ∀ {c : Char} {w : List Char}, c.toNat < 128 → (c :: w).isPrefixOf cs = true → badCount (c :: ascii cs.tail) = false := by
    intro c w hc hp
    obtain ⟨t,rfl⟩ := List.isPrefixOf_iff_prefix.mp hp
    rw [List.cons_append,ascii_cons hc] at hb
    exact hb
  unfold parseWord at h
  split at h
  · cases h
    rfl
  split at h
  · cases h
    rfl
  split at h
  · cases h
    rfl
  split at h
  · rename_i hp
    cases hhead (by decide) hp
  split at h
  · rename_i hp
    cases hhead (by decide) hp
  split at h
  · rename_i hp
    have hbad : badCount ('-' :: ascii cs.tail) = false := hhead (by decide) hp
    rw [badCount_eq (by simp) (by simp),List.takeWhile_cons_of_pos rfl] at hbad
    cases hbad
  · exact natural_parseNumber hb h

/-- The members of an object keep the name to natural numbers. -/
def Kept (key : Name) (fields : List (String × Json)) : Prop := ∀ v, (String.ofList key.chars,v) ∈ fields → natural v = true

theorem natural_parseValue {fuel : ℕ} {v : Json} (hb : badCount (ascii cs) = false) (h : parseValue fuel cs = some (v,rest)) :
    natural v = true := by
  cases fuel with
  | zero => cases h
  | succ fuel =>
    unfold parseValue at h
    split at h
    · obtain ⟨_,-,hp⟩ := Option.map_eq_some_iff.mp h
      cases hp
      rfl
    · split at h
      · cases h
        rfl
      · obtain ⟨_,-,hp⟩ := Option.map_eq_some_iff.mp h
        cases hp
        rfl
    · split at h
      · cases h
        rfl
      · obtain ⟨_,-,hp⟩ := Option.map_eq_some_iff.mp h
        cases hp
        rfl
    · exact natural_parseWord hb h

theorem ascii_of_parseValue {fuel : ℕ} {v : Json} (h : parseValue fuel (c :: cs) = some (v,rest)) : c.toNat < 128 := by
  by_contra hc
  have hne : ∀ d : Char, d.toNat < 128 → c ≠ d := by
    rintro d hd rfl
    exact hc hd
  have hword : ∀ {d : Char} {w : List Char}, d.toNat < 128 → (d :: w).isPrefixOf (c :: cs) = false := by
    intro d w hd
    have : d ≠ c := (hne d hd).symm
    simp [List.isPrefixOf,this]
  have hnumber : parseNumber (c :: cs) = none := by
    have hu : unsigned (c :: cs) = c :: cs := unsigned.eq_2 _ fun _ he => hne '-' (by decide) (List.cons.inj he).1
    have hdigit : c.isDigit = false := by
      rw [Bool.eq_false_iff]
      intro hd
      simp only [Char.isDigit,Bool.and_eq_true,decide_eq_true_eq] at hd
      have hle : c.toNat ≤ 57 := hd.2
      omega
    rw [parseNumber,hu,natPart.eq_2 _ _ (hne '0' (by decide)),hdigit]
    rfl
  cases fuel with
  | zero => cases h
  | succ fuel =>
    unfold parseValue at h
    split at h
    · rename_i heq
      exact hne '"' (by decide) (List.cons.inj heq).1
    · rename_i heq
      exact hne '[' (by decide) (List.cons.inj heq).1
    · rename_i heq
      exact hne '{' (by decide) (List.cons.inj heq).1
    · have hnull : "null".toList.isPrefixOf (c :: cs) = false := hword (d := 'n') (by decide)
      have htrue : "true".toList.isPrefixOf (c :: cs) = false := hword (d := 't') (by decide)
      have hfalse : "false".toList.isPrefixOf (c :: cs) = false := hword (d := 'f') (by decide)
      have hnan : "NaN".toList.isPrefixOf (c :: cs) = false := hword (d := 'N') (by decide)
      have hinf : "Infinity".toList.isPrefixOf (c :: cs) = false := hword (d := 'I') (by decide)
      have hneg : "-Infinity".toList.isPrefixOf (c :: cs) = false := hword (d := '-') (by decide)
      simp only [parseWord,hnull,htrue,hfalse,hnan,hinf,hneg,hnumber,Bool.false_eq_true,if_false] at h
      cases h

/-- What follows a name in clean text is no bad member. -/
theorem badMember_of_clean (h : clean key false (ascii (key.chars ++ '"' :: rest)) = true) : badMember (ascii rest) = false := by
  have hlower : ∀ c ∈ key.chars, c.toNat < 128 := by
    intro c hc
    have := (lower_spec (key.lower c hc)).2
    omega
  rw [ascii_append,ascii_of_all hlower,ascii_cons (by decide)] at h
  obtain ⟨k,ks,hk⟩ : ∃ k ks, key.chars = k :: ks := List.exists_cons_of_ne_nil key.nonempty
  have hplain : k ≠ '\\' := by
    rintro rfl
    have := key.lower '\\' (hk ▸ List.mem_cons_self)
    cases this
  have hfirst : key.bad (key.chars ++ '"' :: ascii rest) = false := by
    rw [hk] at h ⊢
    rw [List.cons_append,clean_plain hplain,Bool.and_eq_true,Bool.not_eq_true'] at h
    exact h.1
  have hp : (key.chars ++ ['"']).isPrefixOf (key.chars ++ '"' :: ascii rest) = true := by
    rw [List.isPrefixOf_iff_prefix]
    exact ⟨ascii rest,by simp⟩
  have hdrop : (key.chars ++ '"' :: ascii rest).drop (key.chars.length + 1) = ascii rest := by
    rw [List.drop_append]
    simp
  rw [Name.bad,hp,hdrop] at hfirst
  exact hfirst

/-- Clean text stays clean while it is read, and no object in it has a bad member. -/
theorem clean_parse (fuel : ℕ) :
    (∀ cs v rest, clean key false (ascii cs) = true → parseValue fuel cs = some (v,rest) →
      clean key false (ascii rest) = true) ∧
    (∀ cs xs rest, clean key false (ascii cs) = true → parseItems fuel cs = some (xs,rest) →
      clean key false (ascii rest) = true) ∧
    (∀ cs fields rest, clean key false (ascii cs) = true → parseFields fuel cs = some (fields,rest) →
      clean key false (ascii rest) = true ∧ Kept key fields) := by
  induction fuel with
  | zero =>
    refine ⟨fun _ _ _ _ h => ?_,fun _ _ _ _ h => ?_,fun _ _ _ _ h => ?_⟩
    · cases h
    · cases h
    · cases h
  | succ fuel ih =>
    obtain ⟨ihv,ihi,ihf⟩ := ih
    have hpast : ∀ {c : Char} {t : List Char}, c ≠ '\\' → clean key false (ascii (c :: t)) = true →
        clean key false (ascii t) = true := by
      intro c t hc h
      exact clean_past (a := [c]) (by simpa using Ne.symm hc) h
    refine ⟨fun cs v rest hc h => ?_,fun cs xs rest hc h => ?_,fun cs fields rest hc h => ?_⟩
    · unfold parseValue at h
      split at h
      · obtain ⟨⟨s,tail⟩,hs,hp⟩ := Option.map_eq_some_iff.mp h
        cases hp
        exact (clean_parseStr (hpast (by decide) hc) hs).1
      · rename_i t
        have ht := clean_skipWs (hpast (by decide) hc)
        split at h
        · rename_i after hsk
          cases h
          rw [hsk] at ht
          exact hpast (by decide) ht
        · obtain ⟨⟨xs,tail⟩,hx,hp⟩ := Option.map_eq_some_iff.mp h
          cases hp
          exact ihi _ _ _ ht hx
      · rename_i t
        have ht := clean_skipWs (hpast (by decide) hc)
        split at h
        · rename_i after hsk
          cases h
          rw [hsk] at ht
          exact hpast (by decide) ht
        · obtain ⟨⟨fs,tail⟩,hx,hp⟩ := Option.map_eq_some_iff.mp h
          cases hp
          exact (ihf _ _ _ ht hx).1
      · exact clean_parseWord h hc
    · unfold parseItems at h
      obtain ⟨⟨x,tail⟩,hx,h⟩ := Option.bind_eq_some_iff.mp h
      have ht := clean_skipWs (ihv _ _ _ hc hx)
      simp only at h
      split at h
      · rename_i after hsk
        cases h
        rw [hsk] at ht
        exact hpast (by decide) ht
      · rename_i after hsk
        obtain ⟨⟨ys,tail'⟩,hy,h⟩ := Option.bind_eq_some_iff.mp h
        cases h
        rw [hsk] at ht
        exact ihi _ _ _ (clean_skipWs (hpast (by decide) ht)) hy
      · cases h
    · unfold parseFields at h
      split at h
      · rename_i t
        obtain ⟨⟨k,afterKey⟩,hk,h⟩ := Option.bind_eq_some_iff.mp h
        obtain ⟨hclean,hname⟩ := clean_parseStr (hpast (by decide) hc) hk
        simp only at h
        split at h
        · rename_i afterColon hcolon
          obtain ⟨⟨v,afterValue⟩,hv,h⟩ := Option.bind_eq_some_iff.mp h
          have hkey := clean_skipWs hclean
          rw [hcolon] at hkey
          have hvalue := clean_skipWs (hpast (by decide) hkey)
          have hafter := clean_skipWs (ihv _ _ _ hvalue hv)
          have hnat : String.ofList k = String.ofList key.chars → natural v = true := by
            intro he
            obtain rfl : k = key.chars := by simpa using congrArg String.toList he
            have ht := hpast (by decide) hc
            rw [hname key.lower] at ht
            have hbad := badMember_of_clean ht
            rw [badMember,ascii_skipWs hcolon (by decide)] at hbad
            have hcount : badCount (skipWs (ascii afterColon)) = false := hbad
            cases hs : skipWs afterColon with
            | nil =>
              rw [hs] at hv
              cases fuel with
              | zero => cases hv
              | succ n => cases hv
            | cons d u =>
              have hd : d.toNat < 128 := ascii_of_parseValue (hs ▸ hv)
              rw [ascii_skipWs hs hd,← ascii_cons hd,← hs] at hcount
              exact natural_parseValue hcount hv
          simp only at h
          split at h
          · rename_i after hsk
            cases h
            rw [hsk] at hafter
            refine ⟨hpast (by decide) hafter,fun x hx => ?_⟩
            obtain ⟨hk',rfl⟩ := Prod.mk.inj (List.mem_singleton.mp hx)
            exact hnat hk'.symm
          · rename_i after hsk
            obtain ⟨⟨fs,tail⟩,hf,h⟩ := Option.bind_eq_some_iff.mp h
            cases h
            rw [hsk] at hafter
            obtain ⟨hrest,hkept⟩ := ihf _ _ _ (clean_skipWs (hpast (by decide) hafter)) hf
            refine ⟨hrest,fun x hx => ?_⟩
            rcases List.mem_cons.mp hx with hx | hx
            · obtain ⟨hk',rfl⟩ := Prod.mk.inj hx
              exact hnat hk'.symm
            · exact hkept x hx
          · cases h
        · cases h
      · cases h

theorem kept_collapse {fields : List (String × Json)} (h : Kept key fields) : Kept key (collapse fields) := by
  intro v hv
  have hget := Dict.get?_of_mem hv
  rw [Dict.get?_ofList] at hget
  obtain ⟨⟨k,w⟩,hlast,rfl⟩ := Option.map_eq_some_iff.mp hget
  have hmem := List.mem_filter.mp (List.mem_of_getLast? hlast)
  have hk : k = String.ofList key.chars := by simpa using hmem.2
  exact h w (hk ▸ hmem.1)

theorem parseNumber_ne_obj {v : Json} (h : parseNumber cs = some (v,rest)) (fields : List (String × Json)) :
    v ≠ obj fields := by
  unfold parseNumber at h
  split at h
  · cases h
  simp only at h
  split at h
  · cases h
    exact Json.noConfusion
  split at h
  · cases h
    exact Json.noConfusion
  · cases h

theorem parseWord_ne_obj {v : Json} (h : parseWord cs = some (v,rest)) (fields : List (String × Json)) :
    v ≠ obj fields := by
  unfold parseWord at h
  repeat' split at h
  all_goals first
    | exact parseNumber_ne_obj h fields
    | (cases h; exact Json.noConfusion)

/-- An object is read at its brace. -/
theorem loads_obj {s : List Char} {fields : List (String × Json)} (h : loads (String.ofList s) = some (obj fields)) :
    ∃ t, skipWs s = '{' :: t ∧ (clean key false (ascii ('{' :: t)) = true → Kept key fields) := by
  unfold loads at h
  rw [String.toList_ofList] at h
  split at h
  · rename_i v rest hv
    split at h
    · cases h
      rw [parseValue.eq_def] at hv
      split at hv
      · cases hv
      · rename_i n cs heq
        split at hv
        · obtain ⟨_,-,hp⟩ := Option.map_eq_some_iff.mp hv
          cases hp
        · split at hv
          · cases hv
          · obtain ⟨_,-,hp⟩ := Option.map_eq_some_iff.mp hv
            cases hp
        · rename_i t hst
          refine ⟨t,hst,fun hc => ?_⟩
          have ht := clean_skipWs (clean_past (a := ['{']) (b := t) (by decide) hc)
          split at hv
          · cases hv
            intro v hmem
            cases hmem
          · obtain ⟨⟨fs,tail⟩,hf,hp⟩ := Option.map_eq_some_iff.mp hv
            cases hp
            exact kept_collapse ((clean_parse _).2.2 _ _ _ ht hf).2
        · exact absurd rfl (parseWord_ne_obj hv _)
    · cases h
  · cases h

theorem strip_infix (cs : List Char) : ∃ p q, cs = p ++ strip cs ++ q := by
  refine ⟨cs.takeWhile isSpace,((cs.dropWhile isSpace).reverse.takeWhile isSpace).reverse,?_⟩
  have hback : cs.dropWhile isSpace = strip cs ++ ((cs.dropWhile isSpace).reverse.takeWhile isSpace).reverse := by
    rw [strip,← List.reverse_append,List.takeWhile_append_dropWhile,List.reverse_reverse]
  rw [List.append_assoc,← hback,List.takeWhile_append_dropWhile]

/-- The object of a line of clean text. -/
theorem kept_lineValue {escaped : Bool} {fields : List (String × Json)} (hc : clean key escaped (ascii cs) = true)
    (h : lineValue cs = some (obj fields)) : Kept key fields := by
  unfold lineValue at h
  split at h
  · cases h
  obtain ⟨t,ht,hkept⟩ := loads_obj h
  apply hkept
  obtain ⟨p,q,hpq⟩ := strip_infix cs
  have hws : strip cs = (strip cs).takeWhile isWs ++ '{' :: t := by
    rw [← ht]
    exact List.takeWhile_append_dropWhile.symm
  have hbrace : '{'.toNat < 128 := by decide
  rw [hpq,hws,List.append_assoc,List.append_assoc,ascii_append,ascii_append,List.cons_append,ascii_cons hbrace] at hc
  rw [← List.append_assoc] at hc
  obtain ⟨e,he⟩ := clean_suffix hc
  have hopen := clean_restart (by decide) (by decide) he
  rw [ascii_append,← List.cons_append] at hopen
  rw [ascii_cons hbrace]
  exact clean_front hopen

end Reader

/-! ## Bytes -/

section Stretch
variable {key : Name}

/-- The ASCII bytes of a file. -/
def asciiBytes (b : Bytes) : List Char := (b.filter fun x => x < 128).map fun x => Char.ofNat x.toNat

theorem asciiBytes_append (a b : Bytes) : asciiBytes (a ++ b) = asciiBytes a ++ asciiBytes b := by
  simp [asciiBytes]

theorem asciiBytes_high {b : Bytes} (h : ∀ x ∈ b, ¬ x < 128) : asciiBytes b = [] := by
  rw [asciiBytes,List.filter_eq_nil_iff.mpr (by simpa using h),List.map_nil]

theorem asciiBytes_encodeChar (c : Char) : asciiBytes (String.utf8EncodeChar c) = ascii [c] := by
  have hhigh : ∀ n, 128 ≤ n → n < 256 → ¬ UInt8.ofNat n < 128 := by
    intro n hn hlt h
    have := UInt8.lt_iff_toNat_lt.mp h
    rw [UInt8.toNat_ofNat'] at this
    simp only [UInt8.reduceToNat] at this
    omega
  unfold String.utf8EncodeChar
  simp only
  split
  · rename_i hv
    have hc : c.toNat < 128 := by
      have : c.toNat = c.val.toNat := rfl
      omega
    have hlow : (UInt8.ofNat c.val.toNat).toNat = c.toNat := by
      rw [UInt8.toNat_ofNat']
      exact Nat.mod_eq_of_lt (by have : c.toNat = c.val.toNat := rfl; omega)
    have hbyte : UInt8.ofNat c.val.toNat < 128 := by
      rw [UInt8.lt_iff_toNat_lt,hlow]
      exact hc
    rw [ascii_cons hc,asciiBytes,List.filter_cons_of_pos (by simpa using hbyte)]
    simp only [List.filter_nil,List.map_cons,List.map_nil,hlow,Char.ofNat_toNat]
    rfl
  rename_i hv
  have hc : ¬ c.toNat < 128 := by
    have : c.toNat = c.val.toNat := rfl
    omega
  rw [ascii_cons_of_not hc]
  split
  · refine asciiBytes_high fun x hx => ?_
    simp only [List.mem_cons,List.not_mem_nil,or_false] at hx
    rcases hx with rfl | rfl
    · exact hhigh _ (by omega) (by omega)
    · exact hhigh _ (by omega) (by omega)
  split
  · refine asciiBytes_high fun x hx => ?_
    simp only [List.mem_cons,List.not_mem_nil,or_false] at hx
    rcases hx with rfl | rfl | rfl
    · exact hhigh _ (by omega) (by omega)
    · exact hhigh _ (by omega) (by omega)
    · exact hhigh _ (by omega) (by omega)
  · refine asciiBytes_high fun x hx => ?_
    simp only [List.mem_cons,List.not_mem_nil,or_false] at hx
    rcases hx with rfl | rfl | rfl | rfl
    · exact hhigh _ (by omega) (by omega)
    · exact hhigh _ (by omega) (by omega)
    · exact hhigh _ (by omega) (by omega)
    · exact hhigh _ (by omega) (by omega)

theorem asciiBytes_encode (s : List Char) : asciiBytes (encode s) = ascii s := by
  induction s with
  | nil => rfl
  | cons c s ih =>
    have hcons : encode (c :: s) = String.utf8EncodeChar c ++ encode s := rfl
    rw [hcons,asciiBytes_append,asciiBytes_encodeChar,ih,← ascii_append]
    rfl

theorem firstChar_spec {b : Bytes} {c : Char} (h : firstChar b = some c) :
    b = String.utf8EncodeChar c ++ b.drop c.utf8Size := by
  obtain ⟨l,hl⟩ := ByteArray.exists_of_utf8DecodeChar?_eq_some h
  have htake : b.take 4 = String.utf8EncodeChar c ++ l.data.toList := by
    have hdata := congrArg (fun x : ByteArray => x.data.toList) hl
    simpa using hdata
  have hb : b = String.utf8EncodeChar c ++ (l.data.toList ++ b.drop 4) := by
    rw [← List.append_assoc,← htake,List.take_append_drop]
  conv_rhs => rw [hb,drop_encode]
  exact hb

/-- An ASCII byte is a character. -/
theorem firstChar_low {x : UInt8} {b : Bytes} (hx : x < 128) : firstChar (x :: b) = some (Char.ofNat x.toNat) := by
  have hlt : x.toNat < 128 := UInt8.lt_iff_toNat_lt.mp hx
  have hval : ∀ n < 128, String.utf8EncodeChar (Char.ofNat n) = [UInt8.ofNat n] := by decide
  have henc : String.utf8EncodeChar (Char.ofNat x.toNat) = [x] := by
    rw [hval _ hlt,UInt8.ofNat_toNat]
  have := firstChar_encode (Char.ofNat x.toNat) b
  rwa [henc] at this

/-- Replaced bytes are no ASCII. -/
theorem asciiBytes_bad {b : Bytes} (h : firstChar b = none) : asciiBytes (b.take (badLength b)) = [] := by
  apply asciiBytes_high
  have hfirst : ∀ x ∈ b.head?, ¬ x < 128 := by
    intro x hx hlt
    obtain ⟨t,rfl⟩ := List.head?_eq_some_iff.mp hx
    rw [firstChar_low hlt] at h
    cases h
  have hrange : ∀ x lo hi : UInt8, 128 ≤ lo.toNat → (lo ≤ x && x ≤ hi) = true → ¬ x < 128 := by
    intro x lo hi hlo hx hlt
    simp only [Bool.and_eq_true,decide_eq_true_eq] at hx
    have h1 := UInt8.le_iff_toNat_le.mp hx.1
    have h2 := UInt8.lt_iff_toNat_lt.mp hlt
    simp only [UInt8.reduceToNat] at h2
    omega
  have hsecond : ∀ x y, isSecond x y = true → ¬ y < 128 := by
    intro x y hy
    unfold isSecond at hy
    repeat' split at hy
    all_goals exact hrange _ _ _ (by decide) hy
  have htrail : ∀ y, isTrail y = true → ¬ y < 128 := fun y hy => hrange _ _ _ (by decide) hy
  match b, hfirst with
  | [], _ => simp
  | [x], hfirst => simpa [badLength] using hfirst
  | [x,y], hfirst =>
    have hx : ¬ x < 128 := hfirst x rfl
    rw [badLength]
    split
    · rename_i hs
      rw [Bool.and_eq_true] at hs
      have hy := hsecond _ _ hs.2
      simpa using And.intro hx hy
    · simpa using hx
  | x :: y :: z :: rest, hfirst =>
    have hx : ¬ x < 128 := hfirst x rfl
    rw [badLength]
    split
    · rename_i hs
      rw [Bool.and_eq_true] at hs
      have hy := hsecond _ _ hs.2
      split
      · rename_i ht
        rw [Bool.and_eq_true] at ht
        have hz := htrail _ ht.2
        simpa using And.intro hx (And.intro hy hz)
      · simpa using And.intro hx hy
    · simpa using hx

/-- Decoding keeps the ASCII of a file. -/
theorem ascii_decodeReplace (b : Bytes) : ascii (decodeReplace b) = asciiBytes b := by
  have hfuel : ∀ n b, b.length ≤ n → ascii (decodeReplaceFuel n b) = asciiBytes b := by
    intro n
    induction n with
    | zero =>
      intro b hb
      obtain rfl : b = [] := List.length_eq_zero_iff.mp (by omega)
      rfl
    | succ n ih =>
      intro b hb
      cases b with
      | nil => rfl
      | cons x xs =>
        simp only [List.length_cons] at hb
        rw [decodeReplaceFuel]
        · split
          · rename_i c hc
            have hpos := Char.utf8Size_pos c
            have hrest := ih ((x :: xs).drop c.utf8Size) (by rw [List.length_drop,List.length_cons]; omega)
            have hspec := firstChar_spec hc
            have hone : ascii (c :: decodeReplaceFuel n ((x :: xs).drop c.utf8Size)) =
                ascii [c] ++ ascii (decodeReplaceFuel n ((x :: xs).drop c.utf8Size)) := ascii_append [c] _
            rw [hone,hrest,← asciiBytes_encodeChar,← asciiBytes_append,← hspec]
          · rename_i hc
            have hpos : 1 ≤ badLength (x :: xs) := by
              unfold badLength
              repeat' split
              all_goals omega
            have hrest := ih ((x :: xs).drop (badLength (x :: xs))) (by rw [List.length_drop,List.length_cons]; omega)
            rw [ascii_cons_of_not (by decide),hrest]
            conv_rhs => rw [← List.take_append_drop (badLength (x :: xs)) (x :: xs),asciiBytes_append,asciiBytes_bad hc]
            rfl
        · exact List.cons_ne_nil x xs
  exact hfuel b.length b le_rfl

theorem mem_splitLines {A : Type} {sep : A → Bool} {l line : List A} (h : line ∈ splitLines sep l) :
    ∃ p q, l = p ++ line ++ q := by
  have hfirst : ∀ l : List A, ∃ first rest q, splitLines sep l = first :: rest ∧ l = first ++ q := by
    intro l
    induction l with
    | nil => exact ⟨[],[],[],rfl,rfl⟩
    | cons a l ih =>
      obtain ⟨first,rest,q,hs,rfl⟩ := ih
      rw [splitLines]
      split
      · exact ⟨[],_,a :: (first ++ q),rfl,rfl⟩
      · rw [hs]
        exact ⟨a :: first,rest,q,rfl,rfl⟩
  induction l generalizing line with
  | nil =>
    rw [splitLines,List.mem_singleton] at h
    exact ⟨[],[],by simp [h]⟩
  | cons a l ih =>
    rw [splitLines] at h
    split at h
    · rcases List.mem_cons.mp h with rfl | h
      · exact ⟨[],a :: l,rfl⟩
      · obtain ⟨p,q,rfl⟩ := ih h
        exact ⟨a :: p,q,rfl⟩
    · obtain ⟨first,rest,t,hs,hl⟩ := hfirst l
      rw [hs] at h
      rcases List.mem_cons.mp h with rfl | h
      · exact ⟨[],t,by rw [hl]; rfl⟩
      · obtain ⟨p,q,rfl⟩ := ih (hs ▸ List.mem_cons_of_mem _ h)
        exact ⟨a :: p,q,rfl⟩

variable {b : Bytes} {escaped : Bool} {fields : List (String × Json)}

/-- Whatever stretch of a clean file is read as bytes. -/
theorem kept_byteValues (hc : clean key escaped (asciiBytes b) = true) (n : ℕ) (h : obj fields ∈ byteValues (b.drop n)) :
    Kept key fields := by
  obtain ⟨line,hline,hv⟩ := List.mem_filterMap.mp h
  obtain ⟨p,q,hpq⟩ := mem_splitLines hline
  rw [← List.take_append_drop n b,hpq,asciiBytes_append] at hc
  obtain ⟨e,he⟩ := clean_suffix hc
  rw [asciiBytes_append,asciiBytes_append,List.append_assoc] at he
  obtain ⟨e',he'⟩ := clean_suffix he
  have hline : clean key e' (ascii (decodeReplace line)) = true := by
    rw [ascii_decodeReplace]
    exact clean_front he'
  exact kept_lineValue hline hv

/-- Or as text. -/
theorem kept_textValues (hc : clean key escaped (asciiBytes b) = true) {vs : List Json} (ht : textValues b = some vs)
    (h : obj fields ∈ vs) : Kept key fields := by
  obtain ⟨s,hs,rfl⟩ := Option.map_eq_some_iff.mp ht
  obtain ⟨line,hline,hv⟩ := List.mem_filterMap.mp h
  obtain ⟨p,q,hpq⟩ := mem_splitLines hline
  rw [← ascii_decodeReplace,decodeReplace_of_decode hs,hpq,List.append_assoc,ascii_append,ascii_append] at hc
  obtain ⟨e,he⟩ := clean_suffix hc
  exact kept_lineValue (clean_front he) hv

end Stretch

end Json
end Py
