import Reyn.Lib.JsonScanRead

/-! # Lines that are clean

An object of flat members, none of them bad, is written as a line that may be appended to
any clean file.
-/
namespace Py
namespace Json

section Written
variable {key : Name} {a b rest : List Char}

theorem escChar_cases (c : Char) : (escChar c = [c] ∧ c ≠ '"' ∧ c ≠ '\\') ∨ (∃ e, escChar c = ['\\',e] ∧ e ≠ 'u' ∧ e.toNat < 128) ∨
    (c.toNat < 32 ∧ escChar c = ['\\','u','0','0',Nat.digitChar (c.toNat / 16),Nat.digitChar (c.toNat % 16)]) := by
  unfold escChar
  split
  · exact .inr (.inl ⟨_,rfl,by decide,by decide⟩)
  rename_i hq
  split
  · exact .inr (.inl ⟨_,rfl,by decide,by decide⟩)
  rename_i hb
  split
  · exact .inr (.inl ⟨_,rfl,by decide,by decide⟩)
  split
  · exact .inr (.inl ⟨_,rfl,by decide,by decide⟩)
  split
  · exact .inr (.inl ⟨_,rfl,by decide,by decide⟩)
  split
  · exact .inr (.inl ⟨_,rfl,by decide,by decide⟩)
  split
  · exact .inr (.inl ⟨_,rfl,by decide,by decide⟩)
  split
  · rename_i hc
    exact .inr (.inr ⟨hc,rfl⟩)
  · exact .inl ⟨rfl,hq,hb⟩

theorem ascii_body (cs : List Char) : ascii (cs.flatMap escChar) = (ascii cs).flatMap escChar := by
  have hdigit : ∀ n < 16, (Nat.digitChar n).toNat < 128 := by decide
  induction cs with
  | nil => rfl
  | cons c cs ih =>
    rw [List.flatMap_cons,ascii_append,ih]
    by_cases hc : c.toNat < 128
    · have hesc : ascii (escChar c) = escChar c := by
        refine ascii_of_all fun d hd => ?_
        rcases escChar_cases c with ⟨he,-⟩ | ⟨e,he,-,hlt⟩ | ⟨hlow,he⟩
        · rw [he,List.mem_singleton] at hd
          exact hd ▸ hc
        · rw [he] at hd
          simp only [List.mem_cons,List.not_mem_nil,or_false] at hd
          rcases hd with rfl | rfl
          · decide
          · exact hlt
        · rw [he] at hd
          simp only [List.mem_cons,List.not_mem_nil,or_false] at hd
          rcases hd with rfl | rfl | rfl | rfl | rfl | rfl
          · decide
          · decide
          · decide
          · decide
          · exact hdigit _ (by omega)
          · exact hdigit _ (by omega)
      rw [hesc,ascii_cons hc,List.flatMap_cons]
    · have hesc : escChar c = [c] := by
        rcases escChar_cases c with ⟨he,-⟩ | ⟨e,he,-⟩ | ⟨hlow,-⟩
        · exact he
        · exfalso
          unfold escChar at he
          split at he
          · subst_vars
            exact hc (by decide)
          split at he
          · subst_vars
            exact hc (by decide)
          split at he
          · subst_vars
            exact hc (by decide)
          split at he
          · subst_vars
            exact hc (by decide)
          split at he
          · subst_vars
            exact hc (by decide)
          split at he
          · omega
          split at he
          · omega
          split at he
          · omega
          · cases he
        · omega
      rw [hesc,ascii_cons_of_not hc,ascii_cons_of_not hc]
      rfl

/-- A name that ends a string is all of what is left of it. -/
theorem name_of_prefix {pre cs r : List Char} {name : List Char} (hname : ∀ c ∈ name, c.isLower = true) (hpre : '"' ∉ pre)
    (h : (name ++ ['"']).isPrefixOf (pre ++ (cs.flatMap escChar ++ '"' :: r)) = true) : name = pre ++ cs := by
  induction name generalizing pre cs with
  | nil =>
    cases pre with
    | cons c pre =>
      rw [List.nil_append,List.cons_append,List.isPrefixOf,Bool.and_eq_true,beq_iff_eq] at h
      exact absurd (h.1 ▸ List.mem_cons_self) hpre
    | nil =>
      cases cs with
      | nil => rfl
      | cons c cs =>
        exfalso
        rw [List.nil_append,List.nil_append,List.flatMap_cons] at h
        rcases escChar_cases c with ⟨he,hq,-⟩ | ⟨e,he,-⟩ | ⟨-,he⟩
        · rw [he,List.singleton_append,List.cons_append,List.isPrefixOf,Bool.and_eq_true,beq_iff_eq] at h
          exact hq h.1.symm
        · rw [he] at h
          cases h
        · rw [he] at h
          cases h
  | cons n name ih =>
    have hn := hname n List.mem_cons_self
    have hrest : ∀ c ∈ name, c.isLower = true := fun c hc => hname c (List.mem_cons_of_mem _ hc)
    cases pre with
    | cons c pre =>
      rw [List.cons_append,List.cons_append,List.isPrefixOf,Bool.and_eq_true,beq_iff_eq] at h
      rw [List.mem_cons,not_or] at hpre
      rw [h.1,ih hrest hpre.2 h.2]
      rfl
    | nil =>
      have hslash : n ≠ '\\' := by
        rintro rfl
        cases hn
      cases cs with
      | nil =>
        rw [List.flatMap_nil,List.nil_append,List.nil_append,List.cons_append,List.isPrefixOf,Bool.and_eq_true,
          beq_iff_eq] at h
        rw [h.1] at hn
        cases hn
      | cons c cs =>
        rw [List.nil_append,List.flatMap_cons] at h
        rcases escChar_cases c with ⟨he,-⟩ | ⟨e,he,-⟩ | ⟨-,he⟩
        · rw [he,List.singleton_append,List.cons_append,List.cons_append,List.isPrefixOf,Bool.and_eq_true,beq_iff_eq] at h
          have hnameEq : name = [] ++ cs := ih hrest (by simp) (by simpa using h.2)
          rw [h.1,hnameEq]
          rfl
        · rw [he,List.cons_append,List.cons_append,List.cons_append,List.isPrefixOf,Bool.and_eq_true,beq_iff_eq] at h
          exact absurd h.1 hslash
        · rw [he,List.cons_append,List.cons_append,List.cons_append,List.isPrefixOf,Bool.and_eq_true,beq_iff_eq] at h
          exact absurd h.1 hslash

theorem escChar_lower {c : Char} (hc : c.isLower = true) : escChar c = [c] := by
  have hlow := lower_spec hc
  rcases escChar_cases c with ⟨he,-⟩ | ⟨e,he,-⟩ | ⟨hlt,-⟩
  · exact he
  · exfalso
    unfold escChar at he
    repeat' split at he
    all_goals first
      | (subst_vars; revert hc; decide)
      | omega
      | cases he
  · omega

theorem Name.bad_body (key : Name) {pre : List Char} (cs : List Char) {r : List Char} (hpre : '"' ∉ pre)
    (h : badMember r = false ∨ key.chars ≠ pre ++ cs) :
    key.bad (pre ++ (cs.flatMap escChar ++ '"' :: r)) = false := by
  rw [Bool.eq_false_iff]
  intro hbad
  rw [Name.bad,Bool.and_eq_true] at hbad
  have hname := name_of_prefix key.lower hpre hbad.1
  have hplain : cs.flatMap escChar = cs := by
    have hlower : ∀ c ∈ cs, escChar c = [c] := fun c hc =>
      escChar_lower (key.lower c (hname ▸ List.mem_append_right _ hc))
    rw [List.flatMap_congr hlower,List.flatMap_singleton']
  have hdrop : (key.chars ++ '"' :: r).drop (key.chars.length + 1) = r := by
    rw [List.drop_append]
    simp
  rw [hplain,← List.append_assoc,← hname,hdrop] at hbad
  rcases h with h | h
  · rw [h] at hbad
    cases hbad.2
  · exact h hname

/-- A string as it was written, when nothing bad follows it or its text does not end in the name. -/
theorem clean_body {cs r : List Char} (hr : clean key false r = true)
    (h : badMember r = false ∨ ((∀ c ∈ cs, escChar c = [c]) ∧ ¬ key.chars <:+ cs)) :
    clean key false (cs.flatMap escChar ++ '"' :: r) = true := by
  induction cs with
  | nil =>
    rw [List.flatMap_nil,List.nil_append,clean_other (by decide) (by decide)]
    exact hr
  | cons c cs ih =>
    have hrest : clean key false (cs.flatMap escChar ++ '"' :: r) = true := by
      refine ih (h.imp_right fun hp => ⟨fun d hd => hp.1 d (List.mem_cons_of_mem _ hd),fun hs => ?_⟩)
      exact hp.2 (hs.trans (List.suffix_cons c cs))
    have hne : badMember r = false ∨ key.chars ≠ [] ++ (c :: cs) :=
      h.imp_right fun hp he => hp.2 (he ▸ List.suffix_refl _)
    rcases escChar_cases c with ⟨he,-,hb⟩ | ⟨e,he,hu,-⟩ | ⟨hlow,he⟩
    · have hbad := Name.bad_body key (c :: cs) List.not_mem_nil hne
      rw [List.nil_append,List.flatMap_cons,he] at hbad
      rw [List.flatMap_cons,he]
      rw [List.append_assoc,List.singleton_append] at hbad ⊢
      rw [clean_plain hb,hbad,hrest]
      rfl
    · rw [List.flatMap_cons,he,List.append_assoc]
      show clean key false ('\\' :: e :: (cs.flatMap escChar ++ '"' :: r)) = true
      have hue : (e != 'u') = true := by simpa using hu
      rw [clean_backslash,clean_escaped,hue,hrest]
      rfl
    · have hr' : badMember r = false := by
        rcases h with h | h
        · exact h
        · have hc := h.1 c List.mem_cons_self
          rw [he] at hc
          cases hc
      have hdigit : ∀ n < 16, Nat.digitChar n ≠ '\\' := by decide
      have hx := hdigit (c.toNat / 16) (by omega)
      have hy := hdigit (c.toNat % 16) (by omega)
      have hhex : hex4 '0' '0' (Nat.digitChar (c.toNat / 16)) (Nat.digitChar (c.toNat % 16)) = some c.toNat :=
        hex4_control (by omega)
      have hlastQuote : '"' ∉ [Nat.digitChar (c.toNat % 16)] := by simp
      have hbothQuote : '"' ∉ [Nat.digitChar (c.toNat / 16),Nat.digitChar (c.toNat % 16)] := by simp
      have hlast := Name.bad_body key cs hlastQuote (.inl hr')
      have hboth := Name.bad_body key cs hbothQuote (.inl hr')
      rw [List.flatMap_cons,he,List.append_assoc]
      show clean key false ('\\' :: 'u' :: '0' :: '0' :: Nat.digitChar (c.toNat / 16) :: Nat.digitChar (c.toNat % 16) ::
        (cs.flatMap escChar ++ '"' :: r)) = true
      have hlowEscape : lowEscape ('0' :: '0' :: Nat.digitChar (c.toNat / 16) :: Nat.digitChar (c.toNat % 16) ::
          (cs.flatMap escChar ++ '"' :: r)) = true := by
        simpa [lowEscape,hhex] using hlow
      rw [clean_backslash,clean_escaped,hlowEscape,clean_other (by decide) (by decide),clean_other (by decide) (by decide),
        clean_plain hx,clean_plain hy]
      simp only [List.cons_append,List.nil_append] at hlast hboth
      rw [hlast,hboth,hrest]
      rfl

/-- Text without quotes and backslashes, before a comma or a brace. -/
theorem clean_scalar {c : Char} (ha : ∀ d ∈ a, d ≠ '"' ∧ d ≠ '\\') (hc : c = ',' ∨ c = '}')
    (hr : clean key false (c :: rest) = true) : clean key false (a ++ c :: rest) = true := by
  have hlower : c.isLower = false := by rcases hc with rfl | rfl <;> rfl
  have hquote : c ≠ '"' := by rcases hc with rfl | rfl <;> decide
  have hp : ∀ {name a : List Char}, (∀ d ∈ name, d.isLower = true) → (∀ d ∈ a, d ≠ '"' ∧ d ≠ '\\') →
      (name ++ ['"']).isPrefixOf (a ++ c :: rest) = false := by
    intro name
    induction name with
    | nil =>
      intro a _ ha
      cases a with
      | nil => simp [List.isPrefixOf,Ne.symm hquote]
      | cons d a => simp [List.isPrefixOf,Ne.symm (ha d List.mem_cons_self).1]
    | cons n name ih =>
      intro a hname ha
      have hrest := ih (a := a.tail) (fun d hd => hname d (List.mem_cons_of_mem _ hd)) fun d hd => ha d (List.mem_of_mem_tail hd)
      cases a with
      | nil =>
        have hn : n ≠ c := by
          rintro rfl
          rw [hname n List.mem_cons_self] at hlower
          cases hlower
        simp [List.isPrefixOf,hn]
      | cons d a =>
        rw [List.tail_cons] at hrest
        rw [List.cons_append,List.cons_append,List.isPrefixOf,hrest,Bool.and_false]
  induction a with
  | nil => exact hr
  | cons d a ih =>
    have hbad : key.bad (d :: (a ++ c :: rest)) = false := by
      have := hp (a := d :: a) key.lower ha
      rw [Name.bad,← List.cons_append,this]
      rfl
    rw [List.cons_append,clean_plain (ha d List.mem_cons_self).2,hbad,ih fun e he => ha e (List.mem_cons_of_mem _ he)]
    rfl

/-- A member that can be written: flat, and under the name a natural number. A number of the
other kind stands under a name that is another word. -/
inductive Flat (key : Name) : String × Json → Prop
  | null (k : String) : Flat key (k,null)
  | str (k s : String) : Flat key (k,str s)
  | nat (k : String) (n : ℕ) : Flat key (k,int n)
  | float (k : String) (f : FloatLit) : (∀ c ∈ k.toList, escChar c = [c]) →
      ¬ key.chars <:+ ascii k.toList → Flat key (k,float f)

theorem floatLit_chars (f : FloatLit) : ∀ c ∈ f.text, c ≠ '"' ∧ c ≠ '\\' := by
  intro c hc
  have hnum : ∀ {d : Char}, numChar d = true → d ≠ '"' ∧ d ≠ '\\' := by
    intro d hd
    constructor
    · rintro rfl
      cases hd
    · rintro rfl
      cases hd
  have hword : ∀ {w : List Char}, w.all (fun d => d != '"' && d != '\\') = true → c ∈ w → c ≠ '"' ∧ c ≠ '\\' := by
    intro w hw hcw
    simpa using List.all_eq_true.mp hw c hcw
  rcases f.wf with hr | he | he | he
  · simp only [isReal,Bool.and_eq_true,List.all_eq_true] at hr
    exact hnum (hr.1.1 c hc)
  · exact hword (by decide) (he ▸ hc)
  · exact hword (by decide) (he ▸ hc)
  · exact hword (by decide) (he ▸ hc)

theorem floatLit_ascii (f : FloatLit) : ascii f.text = f.text := by
  refine ascii_of_all fun c hc => ?_
  have hword : ∀ {w : List Char}, w.all (fun d => d.toNat < 128) = true → c ∈ w → c.toNat < 128 := by
    intro w hw hcw
    simpa using List.all_eq_true.mp hw c hcw
  rcases f.wf with hr | he | he | he
  · simp only [isReal,Bool.and_eq_true,List.all_eq_true] at hr
    have hn := hr.1.1 c hc
    simp only [numChar,Bool.or_eq_true,beq_iff_eq] at hn
    rcases hn with ((((hd | rfl) | rfl) | rfl) | rfl) | rfl
    · simp only [Char.isDigit,Bool.and_eq_true,decide_eq_true_eq] at hd
      have hle : c.toNat ≤ 57 := hd.2
      omega
    all_goals decide
  · exact hword (by decide) (he ▸ hc)
  · exact hword (by decide) (he ▸ hc)
  · exact hword (by decide) (he ▸ hc)

theorem strText_append (s : String) (rest : List Char) :
    ascii (strText s ++ rest) = '"' :: ((ascii s.toList).flatMap escChar ++ '"' :: ascii rest) := by
  have hsplit : strText s ++ rest = '"' :: (s.toList.flatMap escChar ++ '"' :: rest) := by simp [strText]
  rw [hsplit,ascii_cons (by decide),ascii_append,ascii_body,ascii_cons (by decide)]

theorem toDigits_ascii (n : ℕ) : ascii (Nat.toDigits 10 n) = Nat.toDigits 10 n := by
  refine ascii_of_all fun c hc => ?_
  have hd : c.isDigit = true := Nat.isDigit_of_mem_toDigits (by decide) (by decide) hc
  simp only [Char.isDigit,Bool.and_eq_true,decide_eq_true_eq] at hd
  have hle : c.toNat ≤ 57 := hd.2
  omega

theorem intText_nat (n : ℕ) : intText n = Nat.toDigits 10 n := by
  rw [intText,if_neg (by omega)]
  rfl

/-- A member, before a comma or a brace. -/
theorem clean_member {k : String} {v : Json} {c : Char} (h : Flat key (k,v)) (hc : c = ',' ∨ c = '}')
    (hr : clean key false (c :: ascii rest) = true) :
    clean key false (ascii (strText k ++ ':' :: ' ' :: (v.text ++ c :: rest))) = true := by
  have hca : c.toNat < 128 := by rcases hc with rfl | rfl <;> decide
  have hdigits : ∀ n, ∀ d ∈ Nat.toDigits 10 n, d.isDigit = true := fun n d hd =>
    Nat.isDigit_of_mem_toDigits (by decide) (by decide) hd
  have hmember : badMember (c :: ascii rest) = false := by rcases hc with rfl | rfl <;> rfl
  rw [strText_append,ascii_cons (by decide),ascii_cons (by decide),clean_other (by decide) (by decide)]
  have hvalue : clean key false (ascii (v.text ++ c :: rest)) = true := by
    cases h with
    | null =>
      rw [ascii_append,ascii_cons hca]
      have hnull : ∀ d ∈ ['n','u','l','l'], d ≠ '"' ∧ d ≠ '\\' := by simp
      exact clean_scalar hnull hc hr
    | str k s =>
      have htext : (Json.str s).text = strText s := rfl
      rw [htext,strText_append,ascii_cons hca,clean_other (by decide) (by decide)]
      exact clean_body hr (.inl hmember)
    | nat k n =>
      have htext : (Json.int n).text = Nat.toDigits 10 n := intText_nat n
      rw [htext,ascii_append,toDigits_ascii,ascii_cons hca]
      refine clean_scalar (fun d hd => ?_) hc hr
      have := hdigits n d hd
      constructor
      · rintro rfl
        cases this
      · rintro rfl
        cases this
    | float k f =>
      have htext : (Json.float f).text = f.text := rfl
      rw [htext,ascii_append,floatLit_ascii,ascii_cons hca]
      exact clean_scalar (floatLit_chars f) hc hr
  have hcolon : clean key false (':' :: ' ' :: ascii (v.text ++ c :: rest)) = true := by
    rw [clean_other (by decide) (by decide),clean_other (by decide) (by decide)]
    exact hvalue
  refine clean_body hcolon ?_
  cases h with
  | null =>
    left
    rfl
  | str k s =>
    left
    rfl
  | nat k n =>
    left
    have htext : (Json.int n).text = Nat.toDigits 10 n := intText_nat n
    obtain ⟨d,ds,hd⟩ : ∃ d ds, Nat.toDigits 10 n = d :: ds := List.exists_cons_of_ne_nil Nat.toDigits_ne_nil
    have hdig : d.isDigit = true := hdigits n d (hd ▸ List.mem_cons_self)
    have hws : isWs d = false := by
      rw [Bool.eq_false_iff]
      intro hw
      simp only [isWs,Bool.or_eq_true,beq_iff_eq] at hw
      rcases hw with ((rfl | rfl) | rfl) | rfl <;> cases hdig
    have hne : d ≠ 'N' ∧ d ≠ 'I' := by
      constructor
      · rintro rfl
        cases hdig
      · rintro rfl
        cases hdig
    have hend : numChar c = false := by rcases hc with rfl | rfl <;> rfl
    rw [htext,ascii_append,toDigits_ascii,ascii_cons hca]
    have hskip : skipWs (' ' :: (Nat.toDigits 10 n ++ c :: ascii rest)) = Nat.toDigits 10 n ++ c :: ascii rest := by
      rw [skipWs,List.dropWhile_cons_of_pos rfl,hd,List.cons_append,List.dropWhile_cons_of_neg (by simp [hws])]
    show badCount (skipWs (' ' :: (Nat.toDigits 10 n ++ c :: ascii rest))) = false
    rw [hskip,badCount_eq (by rw [hd]; simpa using hne.1) (by rw [hd]; simpa using hne.2),
      List.takeWhile_append_of_pos fun d hd => numChar_digit (hdigits n d hd),List.takeWhile_cons_of_neg (by simp [hend]),
      List.append_nil,List.any_eq_false]
    intro d hd
    simp [hdigits n d hd]
  | float k f hk hs =>
    right
    exact ⟨fun c hc => hk c (List.mem_filter.mp hc).1,hs⟩

theorem clean_fieldsText {fields : List (String × Json)} (h : ∀ p ∈ fields, Flat key p)
    (hr : clean key false (ascii rest) = true) : clean key false (ascii (fieldsText fields ++ rest)) = true := by
  induction fields with
  | nil =>
    show clean key false (ascii ('}' :: rest)) = true
    rw [ascii_cons (by decide),clean_other (by decide) (by decide)]
    exact hr
  | cons p fields ih =>
    obtain ⟨k,v⟩ := p
    have hflat := h (k,v) List.mem_cons_self
    have hrest := ih fun q hq => h q (List.mem_cons_of_mem _ hq)
    obtain ⟨c,t,ht,hc⟩ : ∃ c t, fieldsText fields ++ rest = c :: t ∧ (c = ',' ∨ c = '}') := by
      cases fields with
      | nil => exact ⟨'}',rest,rfl,.inr rfl⟩
      | cons q qs => exact ⟨',',_,rfl,.inl rfl⟩
    have hca : c.toNat < 128 := by rcases hc with rfl | rfl <;> decide
    have htext : fieldsText ((k,v) :: fields) ++ rest =
        ',' :: ' ' :: (strText k ++ ':' :: ' ' :: (v.text ++ (fieldsText fields ++ rest))) := by
      simp [fieldsText]
    rw [ht,ascii_cons hca] at hrest
    rw [htext,ascii_cons (by decide),ascii_cons (by decide),clean_other (by decide) (by decide),
      clean_other (by decide) (by decide),ht]
    exact clean_member hflat hc hrest

/-- The line of an object of such members. -/
theorem clean_jsonLine (key : Name) {p : String × Json} {fields : List (String × Json)} (h : ∀ q ∈ p :: fields, Flat key q) :
    ∃ t, asciiBytes (jsonLine (.obj (p :: fields))) = '{' :: t ∧ clean key false ('{' :: t) = true := by
  obtain ⟨k,v⟩ := p
  have hbrace : '{'.toNat < 128 := by decide
  have hline : (Json.obj ((k,v) :: fields)).text ++ ['\n'] =
      '{' :: (strText k ++ ':' :: ' ' :: (v.text ++ (fieldsText fields ++ ['\n']))) := by
    simp [Json.text]
  refine ⟨_,by rw [jsonLine,asciiBytes_encode,hline,ascii_cons hbrace],?_⟩
  have hend : clean key false (ascii ['\n']) = true := by
    rw [ascii_cons (by decide),clean_other (by decide) (by decide)]
    rfl
  have hrest : clean key false (ascii (fieldsText fields ++ ['\n'])) = true :=
    clean_fieldsText (fun q hq => h q (List.mem_cons_of_mem _ hq)) hend
  obtain ⟨c,t,ht,hc⟩ : ∃ c t, fieldsText fields ++ ['\n'] = c :: t ∧ (c = ',' ∨ c = '}') := by
    cases fields with
    | nil => exact ⟨'}',['\n'],rfl,.inr rfl⟩
    | cons q qs => exact ⟨',',_,rfl,.inl rfl⟩
  have hca : c.toNat < 128 := by rcases hc with rfl | rfl <;> decide
  rw [ht,ascii_cons hca] at hrest
  rw [clean_other (by decide) (by decide),ht]
  exact clean_member (h (k,v) List.mem_cons_self) hc hrest

end Written

end Json
end Py
