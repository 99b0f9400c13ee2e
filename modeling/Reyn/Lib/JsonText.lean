import Reyn.Lib.Dict
import Reyn.Lib.Json

/-! # JSON texts

`dumps` writes the text of a value with the default separators and no escaping beyond
ASCII control characters; `loads` reads a text. What is written reads back.
A `String` holds no lone surrogate, so a text that escapes one is refused.
-/
namespace Py
namespace Json

/-! ## Writing -/

def escChar (c : Char) : List Char :=
  if c = '"' then ['\\','"']
  else if c = '\\' then ['\\','\\']
  else if c = '\n' then ['\\','n']
  else if c = '\r' then ['\\','r']
  else if c = '\t' then ['\\','t']
  else if c.toNat = 8 then ['\\','b']
  else if c.toNat = 12 then ['\\','f']
  else if c.toNat < 32 then ['\\','u','0','0',Nat.digitChar (c.toNat / 16),Nat.digitChar (c.toNat % 16)]
  else [c]

/-- A string in its quotes. -/
def strText (s : String) : List Char := '"' :: (s.toList.flatMap escChar ++ ['"'])

def intText (i : Int) : List Char :=
  if i < 0 then '-' :: Nat.toDigits 10 i.natAbs else Nat.toDigits 10 i.natAbs

mutual
def text : Json → List Char
  | null => ['n','u','l','l']
  | bool true => ['t','r','u','e']
  | bool false => ['f','a','l','s','e']
  | int i => intText i
  | float f => f.text
  | str s => strText s
  | arr [] => ['[',']']
  | arr (x :: xs) => '[' :: (text x ++ itemsText xs)
  | obj [] => ['{','}']
  | obj ((k,v) :: rest) => '{' :: (strText k ++ ':' :: ' ' :: (text v ++ fieldsText rest))
/-- The items after the first, and the bracket. -/
def itemsText : List Json → List Char
  | [] => [']']
  | x :: xs => ',' :: ' ' :: (text x ++ itemsText xs)
def fieldsText : List (String × Json) → List Char
  | [] => ['}']
  | (k,v) :: rest => ',' :: ' ' :: (strText k ++ ':' :: ' ' :: (text v ++ fieldsText rest))
end

/-- `json.dumps(v, ensure_ascii=False)` -/
def dumps (v : Json) : String := String.ofList v.text

/-! ## Reading -/

def isWs (c : Char) : Bool := c == ' ' || c == '\t' || c == '\n' || c == '\r'

def skipWs (cs : List Char) : List Char := cs.dropWhile isWs

def hexVal (c : Char) : Option ℕ :=
  if c.isDigit then some (c.toNat - 48)
  else if 97 ≤ c.toNat ∧ c.toNat ≤ 102 then some (c.toNat - 87)
  else if 65 ≤ c.toNat ∧ c.toNat ≤ 70 then some (c.toNat - 55)
  else none

/-- The four digits of a `\u` escape. -/
def hex4 (a b c d : Char) : Option ℕ := do
  let a ← hexVal a
  let b ← hexVal b
  let c ← hexVal c
  let d ← hexVal d
  return ((a * 16 + b) * 16 + c) * 16 + d

def unescape (c : Char) : Option Char :=
  match c with
  | '"' => some '"'
  | '\\' => some '\\'
  | '/' => some '/'
  | 'b' => some (Char.ofNat 8)
  | 'f' => some (Char.ofNat 12)
  | 'n' => some '\n'
  | 'r' => some '\r'
  | 't' => some '\t'
  | _ => none

/-- The second half of an escaped surrogate pair, and what follows it. -/
def lowSurrogate (high : ℕ) : List Char → Option (Char × List Char)
  | '\\' :: 'u' :: a :: b :: c :: d :: rest => do
    let low ← hex4 a b c d
    if 0xDC00 ≤ low ∧ low ≤ 0xDFFF then return (Char.ofNat (0x10000 + (high - 0xD800) * 1024 + (low - 0xDC00)),rest)
    else none
  | _ => none

/-- The body of a string up to its closing quote; control characters have to be escaped. -/
def parseStr : ℕ → List Char → Option (List Char × List Char)
  | 0, _ => none
  | _ + 1, [] => none
  | fuel + 1, c :: rest =>
    if c = '"' then some ([],rest)
    else if c = '\\' then
      match rest with
      | 'u' :: h₁ :: h₂ :: h₃ :: h₄ :: after => do
        let n ← hex4 h₁ h₂ h₃ h₄
        if 0xD800 ≤ n ∧ n ≤ 0xDBFF then
          let (c,after) ← lowSurrogate n after
          let (cs,tail) ← parseStr fuel after
          return (c :: cs,tail)
        else if 0xDC00 ≤ n ∧ n ≤ 0xDFFF then none
        else
          let (cs,tail) ← parseStr fuel after
          return (Char.ofNat n :: cs,tail)
      | e :: after => do
        let c ← unescape e
        let (cs,tail) ← parseStr fuel after
        return (c :: cs,tail)
      | [] => none
    else if c.toNat < 32 then none
    else do
      let (cs,tail) ← parseStr fuel rest
      return (c :: cs,tail)

def intOf (cs : List Char) : Int :=
  match cs with
  | '-' :: ds => -(Nat.ofDigitChars 10 ds 0 : Int)
  | ds => (Nat.ofDigitChars 10 ds 0 : Int)

/-- An integer, with a fraction and an exponent where they are complete. -/
def parseNumber (cs : List Char) : Option (Json × List Char) :=
  match natPart (unsigned cs) with
  | none => none
  | some afterInt =>
    let afterFrac := (fracPart afterInt).getD afterInt
    let rest := (expPart afterFrac).getD afterFrac
    let numeral := cs.take (cs.length - rest.length)
    if rest.length = afterInt.length then some (int (intOf numeral),rest)
    else if h : isReal numeral then some (float ⟨numeral,.inl h⟩,rest)
    else none

/-- The words, and the numbers. -/
def parseWord (cs : List Char) : Option (Json × List Char) :=
  if "null".toList.isPrefixOf cs then some (null,cs.drop 4)
  else if "true".toList.isPrefixOf cs then some (bool true,cs.drop 4)
  else if "false".toList.isPrefixOf cs then some (bool false,cs.drop 5)
  else if "NaN".toList.isPrefixOf cs then some (float ⟨"NaN".toList,.inr (.inl rfl)⟩,cs.drop 3)
  else if "Infinity".toList.isPrefixOf cs then some (float ⟨"Infinity".toList,.inr (.inr (.inl rfl))⟩,cs.drop 8)
  else if "-Infinity".toList.isPrefixOf cs then some (float ⟨"-Infinity".toList,.inr (.inr (.inr rfl))⟩,cs.drop 9)
  else parseNumber cs

/-- A dictionary keeps the last value of a key at the place of the first. -/
def collapse (fields : List (String × Json)) : List (String × Json) := (Dict.ofList fields).items

mutual
def parseValue : ℕ → List Char → Option (Json × List Char)
  | 0, _ => none
  | fuel + 1, cs =>
    match cs with
    | '"' :: rest => (parseStr (rest.length + 1) rest).map fun p => (str (String.ofList p.1),p.2)
    | '[' :: rest =>
      match skipWs rest with
      | ']' :: after => some (arr [],after)
      | rest => (parseItems fuel rest).map fun p => (arr p.1,p.2)
    | '{' :: rest =>
      match skipWs rest with
      | '}' :: after => some (obj [],after)
      | rest => (parseFields fuel rest).map fun p => (obj (collapse p.1),p.2)
    | cs => parseWord cs
def parseItems : ℕ → List Char → Option (List Json × List Char)
  | 0, _ => none
  | fuel + 1, cs => do
    let (x,rest) ← parseValue fuel cs
    match skipWs rest with
    | ']' :: after => return ([x],after)
    | ',' :: after =>
      let (xs,after) ← parseItems fuel (skipWs after)
      return (x :: xs,after)
    | _ => none
def parseFields : ℕ → List Char → Option (List (String × Json) × List Char)
  | 0, _ => none
  | fuel + 1, cs => do
    match cs with
    | '"' :: rest =>
      let (k,rest) ← parseStr (rest.length + 1) rest
      match skipWs rest with
      | ':' :: rest =>
        let (v,rest) ← parseValue fuel (skipWs rest)
        match skipWs rest with
        | '}' :: after => return ([(String.ofList k,v)],after)
        | ',' :: after =>
          let (fields,after) ← parseFields fuel (skipWs after)
          return ((String.ofList k,v) :: fields,after)
        | _ => none
      | _ => none
    | _ => none
end

/-- `json.loads`, `none` for a `JSONDecodeError`. -/
def loads (s : String) : Option Json :=
  match parseValue (s.toList.length + 1) (skipWs s.toList) with
  | some (v,rest) => if skipWs rest = [] then some v else none
  | none => none

/-! ## What is written reads back -/

theorem collapse_of_nodup {fields : List (String × Json)} (h : (fields.map Prod.fst).Nodup) : collapse fields = fields := by
  have hitems := Dict.update_items (d := (Dict.empty : Dict String Json)) h nofun
  simpa [collapse,Dict.ofList] using hitems

section Strings

theorem hexVal_digitChar : ∀ n < 16, hexVal (Nat.digitChar n) = some n := by decide

theorem hex4_control {n : ℕ} (h : n < 256) :
    hex4 '0' '0' (Nat.digitChar (n / 16)) (Nat.digitChar (n % 16)) = some n := by
  have hz : hexVal '0' = some 0 := rfl
  have hhi := hexVal_digitChar (n / 16) (by omega)
  have hlo := hexVal_digitChar (n % 16) (by omega)
  simp only [hex4,hz,hhi,hlo,bind,Option.bind_some,pure,Option.some.injEq]
  omega

theorem parseStr_unescape {e c : Char} (hu : e ≠ 'u') (he : unescape e = some c) (fuel : ℕ) (rest : List Char) :
    parseStr (fuel + 1) ('\\' :: e :: rest) = (parseStr fuel rest).map fun p => (c :: p.1,p.2) := by
  have hq : ('\\' : Char) ≠ '"' := by decide
  rw [parseStr,if_neg hq,if_pos rfl]
  · rw [he]
    cases parseStr fuel rest <;> rfl
  · rintro _ _ _ _ _ rfl
    exact absurd rfl hu

theorem parseStr_control {n : ℕ} (hn : n < 32) (fuel : ℕ) (rest : List Char) :
    parseStr (fuel + 1) ('\\' :: 'u' :: '0' :: '0' :: Nat.digitChar (n / 16) :: Nat.digitChar (n % 16) :: rest) =
      (parseStr fuel rest).map fun p => (Char.ofNat n :: p.1,p.2) := by
  have hq : ('\\' : Char) ≠ '"' := by decide
  have hhigh : ¬ (0xD800 ≤ n ∧ n ≤ 0xDBFF) := by omega
  have hlow : ¬ (0xDC00 ≤ n ∧ n ≤ 0xDFFF) := by omega
  rw [parseStr,if_neg hq,if_pos rfl]
  simp only [hex4_control (show n < 256 by omega),bind,Option.bind_some,if_neg hhigh,if_neg hlow]
  cases parseStr fuel rest <;> rfl

theorem parseStr_plain {c : Char} (hq : c ≠ '"') (hb : c ≠ '\\') (hc : ¬ c.toNat < 32) (fuel : ℕ) (rest : List Char) :
    parseStr (fuel + 1) (c :: rest) = (parseStr fuel rest).map fun p => (c :: p.1,p.2) := by
  rw [parseStr.eq_def]
  simp only [if_neg hq,if_neg hb,if_neg hc]
  cases parseStr fuel rest <;> rfl

/-- One escaped character is read. -/
theorem parseStr_escChar (fuel : ℕ) (c : Char) (rest : List Char) :
    parseStr (fuel + 1) (escChar c ++ rest) = (parseStr fuel rest).map fun p => (c :: p.1,p.2) := by
  have hcode : ∀ {n : ℕ}, c.toNat = n → Char.ofNat n = c := by
    rintro n rfl
    exact Char.ofNat_toNat c
  unfold escChar
  split
  · subst_vars
    exact parseStr_unescape (by decide) rfl fuel rest
  split
  · subst_vars
    exact parseStr_unescape (by decide) rfl fuel rest
  split
  · subst_vars
    exact parseStr_unescape (by decide) rfl fuel rest
  split
  · subst_vars
    exact parseStr_unescape (by decide) rfl fuel rest
  split
  · subst_vars
    exact parseStr_unescape (by decide) rfl fuel rest
  split
  · rename_i h
    exact parseStr_unescape (e := 'b') (by decide) (congrArg some (hcode h)) fuel rest
  split
  · rename_i h
    exact parseStr_unescape (e := 'f') (by decide) (congrArg some (hcode h)) fuel rest
  split
  · rename_i h
    have hcontrol := parseStr_control h fuel rest
    rw [hcode rfl] at hcontrol
    exact hcontrol
  · rename_i hq hb _ _ _ _ _ hc
    exact parseStr_plain hq hb hc fuel rest

theorem parseStr_text (cs rest : List Char) {fuel : ℕ} (h : cs.length < fuel) :
    parseStr fuel (cs.flatMap escChar ++ '"' :: rest) = some (cs,rest) := by
  induction cs generalizing fuel with
  | nil =>
    obtain ⟨n,rfl⟩ : ∃ n, fuel = n + 1 := ⟨fuel - 1,by simp only [List.length_nil] at h; omega⟩
    simp [parseStr]
  | cons c cs ih =>
    obtain ⟨n,rfl⟩ : ∃ n, fuel = n + 1 := ⟨fuel - 1,by omega⟩
    have hn : cs.length < n := by simpa using h
    rw [List.flatMap_cons,List.append_assoc,parseStr_escChar,ih hn]
    rfl

end Strings

section Numbers

/-- What follows a number does not go on with it. -/
def NumEnd (rest : List Char) : Prop := ∀ c ∈ rest.head?, numChar c = false

variable {rest : List Char}

theorem NumEnd.cons {c : Char} (h : NumEnd (c :: rest)) :
    c.isDigit = false ∧ c ≠ '-' ∧ c ≠ '+' ∧ c ≠ '.' ∧ c ≠ 'e' ∧ c ≠ 'E' := by
  have hc := h c rfl
  simp only [numChar,Bool.or_eq_false_iff,beq_eq_false_iff_ne] at hc
  obtain ⟨⟨⟨⟨⟨hd,hm⟩,hp⟩,hdot⟩,he⟩,hE⟩ := hc
  exact ⟨hd,hm,hp,hdot,he,hE⟩

theorem dropDigits_append (h : NumEnd rest) (t : List Char) :
    (t ++ rest).dropWhile Char.isDigit = t.dropWhile Char.isDigit ++ rest := by
  induction t with
  | nil =>
    cases rest with
    | nil => rfl
    | cons c cs => simp [h.cons.1]
  | cons c t ih =>
    by_cases hc : c.isDigit = true
    · simpa [hc] using ih
    · simp [hc]

theorem digitsPart_append (h : NumEnd rest) (t : List Char) :
    digitsPart (t ++ rest) = (digitsPart t).map (· ++ rest) := by
  cases t with
  | nil =>
    cases rest with
    | nil => rfl
    | cons c cs => simp [digitsPart,h.cons.1]
  | cons c t =>
    by_cases hc : c.isDigit = true
    · simp [digitsPart,hc,dropDigits_append h]
    · simp [digitsPart,hc]

theorem natPart_append (h : NumEnd rest) {t : List Char} (ht : t ≠ []) :
    natPart (t ++ rest) = (natPart t).map (· ++ rest) := by
  cases t with
  | nil => exact absurd rfl ht
  | cons c t =>
    by_cases hz : c = '0'
    · subst hz
      rfl
    · rw [List.cons_append,natPart.eq_2 _ _ hz,natPart.eq_2 _ _ hz]
      by_cases hc : c.isDigit = true
      · simp [hc,dropDigits_append h]
      · simp [hc]

theorem fracPart_append (h : NumEnd rest) (t : List Char) : fracPart (t ++ rest) = (fracPart t).map (· ++ rest) := by
  cases t with
  | nil =>
    cases rest with
    | nil => rfl
    | cons c cs => exact fracPart.eq_2 _ fun _ he => h.cons.2.2.2.1 (List.cons.inj he).1
  | cons c t =>
    by_cases hc : c = '.'
    · subst hc
      exact digitsPart_append h t
    · have hne : ∀ rest', c :: t = '.' :: rest' → False := fun _ he => hc (List.cons.inj he).1
      rw [fracPart.eq_2 (c :: t) hne]
      exact fracPart.eq_2 _ fun _ he => hc (List.cons.inj he).1

/-- An exponent, its sign taken off. -/
theorem expPart_e {c : Char} (hc : c = 'e' ∨ c = 'E') (t : List Char) :
    expPart (c :: t) = digitsPart (match t with | '+' :: u => u | '-' :: u => u | u => u) := by
  rcases hc with rfl | rfl
  · unfold expPart
    split <;> simp_all
  · unfold expPart
    split <;> simp_all

theorem expPart_of_ne {t : List Char} (ht : ∀ c ∈ t.head?, c ≠ 'e' ∧ c ≠ 'E') : expPart t = some t := by
  unfold expPart
  split <;> simp_all

theorem expPart_append (h : NumEnd rest) (t : List Char) : expPart (t ++ rest) = (expPart t).map (· ++ rest) := by
  cases t with
  | nil =>
    refine expPart_of_ne fun c hc => ?_
    cases rest with
    | nil => cases hc
    | cons d ds =>
      cases hc
      exact h.cons.2.2.2.2
  | cons c t =>
    by_cases hc : c = 'e' ∨ c = 'E'
    · rw [List.cons_append,expPart_e hc,expPart_e hc]
      cases t with
      | nil =>
        cases rest with
        | nil => rfl
        | cons d ds =>
          obtain ⟨-,hm,hp,-⟩ := h.cons
          have hsign : (match d :: ds with | '+' :: u => u | '-' :: u => u | u => u) = d :: ds := by
            split <;> simp_all
          rw [List.nil_append,hsign]
          exact digitsPart_append h []
      | cons d u =>
        by_cases hp : d = '+'
        · subst hp
          exact digitsPart_append h u
        by_cases hm : d = '-'
        · subst hm
          exact digitsPart_append h u
        have hsign : ∀ v : List Char, (match d :: v with | '+' :: u => u | '-' :: u => u | u => u) = d :: v := by
          intro v
          split <;> simp_all
        rw [List.cons_append,hsign,hsign]
        exact digitsPart_append h (d :: u)
    · rw [not_or] at hc
      have hhead : ∀ v : List Char, ∀ d ∈ (c :: v).head?, d ≠ 'e' ∧ d ≠ 'E' := by
        rintro v d hd
        cases hd
        exact hc
      rw [List.cons_append,expPart_of_ne (hhead _),expPart_of_ne (hhead t)]
      rfl

theorem unsigned_append (h : NumEnd rest) (t : List Char) : unsigned (t ++ rest) = unsigned t ++ rest := by
  cases t with
  | nil =>
    cases rest with
    | nil => rfl
    | cons c cs => exact unsigned.eq_2 _ fun _ he => h.cons.2.1 (List.cons.inj he).1
  | cons c t =>
    by_cases hc : c = '-'
    · subst hc
      rfl
    · have hne : ∀ rest', c :: t = '-' :: rest' → False := fun _ he => hc (List.cons.inj he).1
      rw [unsigned.eq_2 (c :: t) hne]
      exact unsigned.eq_2 _ fun _ he => hc (List.cons.inj he).1

theorem natPart_toDigits (n : ℕ) : natPart (Nat.toDigits 10 n) = some [] := by
  have hdigits : ∀ m, ∀ c ∈ Nat.toDigits 10 m, c.isDigit = true := fun m c hc =>
    Nat.isDigit_of_mem_toDigits (by decide) (by decide) hc
  -- no digits of a positive number begin with a zero
  have hhead : ∀ m, 0 < m → ∃ c cs, Nat.toDigits 10 m = c :: cs ∧ c ≠ '0' := by
    intro m
    induction m using Nat.strongRecOn with
    | ind m ih =>
      intro hm
      by_cases hlt : m < 10
      · refine ⟨m.digitChar,[],Nat.toDigits_of_lt_base hlt,?_⟩
        have hsmall : ∀ k < 10, 0 < k → Nat.digitChar k ≠ '0' := by decide
        exact hsmall m hlt hm
      · obtain ⟨c,cs,hc,hne⟩ := ih (m / 10) (by omega) (by omega)
        refine ⟨c,cs ++ [(m % 10).digitChar],?_,hne⟩
        rw [Nat.toDigits_of_base_le (by decide) (by omega),hc]
        rfl
  rcases Nat.eq_zero_or_pos n with rfl | hn
  · rfl
  · obtain ⟨c,cs,hc,hne⟩ := hhead n hn
    have hall := hdigits n
    rw [hc] at hall ⊢
    rw [natPart.eq_2 _ _ hne,if_pos (hall c List.mem_cons_self)]
    congr 1
    exact List.dropWhile_eq_nil_iff.mpr fun d hd => hall d (List.mem_cons_of_mem _ hd)

/-- A number that ends where its parts do is taken off the front. -/
theorem parseNumber_append (h : NumEnd rest) {t afterInt afterFrac : List Char} (ht : unsigned t ≠ [])
    (hi : natPart (unsigned t) = some afterInt) (hf : fracPart afterInt = some afterFrac)
    (he : expPart afterFrac = some []) :
    parseNumber (t ++ rest) =
      if afterInt = [] then some (int (intOf t),rest)
      else if hr : isReal t then some (float ⟨t,.inl hr⟩,rest) else none := by
  have hi' : natPart (unsigned (t ++ rest)) = some (afterInt ++ rest) := by
    rw [unsigned_append h,natPart_append h ht,hi]
    rfl
  have hf' : fracPart (afterInt ++ rest) = some (afterFrac ++ rest) := by
    rw [fracPart_append h,hf]
    rfl
  have he' : expPart (afterFrac ++ rest) = some rest := by
    rw [expPart_append h,he]
    rfl
  have htake : (t ++ rest).take ((t ++ rest).length - rest.length) = t := by simp
  simp only [parseNumber,hi',hf',he',Option.getD_some,htake]
  by_cases hnil : afterInt = []
  · simp [hnil]
  · have hlen : rest.length ≠ (afterInt ++ rest).length := by
      have := List.length_pos_iff.mpr hnil
      simp only [List.length_append]
      omega
    rw [if_neg hlen,if_neg hnil]

theorem unsigned_intText (i : Int) : unsigned (intText i) = Nat.toDigits 10 i.natAbs := by
  unfold intText
  split
  · rfl
  · cases hd : Nat.toDigits 10 i.natAbs with
    | nil => rfl
    | cons c cs =>
      have hc : c.isDigit = true :=
        Nat.isDigit_of_mem_toDigits (by decide) (by decide) (hd ▸ List.mem_cons_self)
      refine unsigned.eq_2 _ fun _ he => ?_
      rw [(List.cons.inj he).1] at hc
      cases hc

theorem intOf_intText (i : Int) : intOf (intText i) = i := by
  have hvalue : Nat.ofDigitChars 10 (Nat.toDigits 10 i.natAbs) 0 = i.natAbs := Nat.ofDigitChars_ten_toDigits
  unfold intText
  split
  · show -(Nat.ofDigitChars 10 (Nat.toDigits 10 i.natAbs) 0 : Int) = i
    rw [hvalue]
    omega
  · have hplain : intOf (Nat.toDigits 10 i.natAbs) = (Nat.ofDigitChars 10 (Nat.toDigits 10 i.natAbs) 0 : Int) := by
      have hu := unsigned_intText i
      rw [intText,if_neg (by assumption)] at hu
      unfold intOf
      split
      · rename_i heq
        rw [heq] at hu
        have hlen := congrArg List.length hu
        simp [unsigned] at hlen
      · rfl
    rw [hplain,hvalue]
    omega

theorem parseNumber_int (h : NumEnd rest) (i : Int) : parseNumber (intText i ++ rest) = some (int i,rest) := by
  have hne : unsigned (intText i) ≠ [] := by
    rw [unsigned_intText]
    exact Nat.toDigits_ne_nil
  have hn : natPart (unsigned (intText i)) = some [] := by
    rw [unsigned_intText]
    exact natPart_toDigits _
  rw [parseNumber_append h hne hn rfl rfl,if_pos rfl,intOf_intText]

theorem parseNumber_float (h : NumEnd rest) {t : List Char} (hr : isReal t) :
    parseNumber (t ++ rest) = some (float ⟨t,.inl hr⟩,rest) := by
  have hreal := hr
  simp only [isReal,isNumber,isInteger,Bool.and_eq_true,Bool.not_eq_true',beq_iff_eq,beq_eq_false_iff_ne] at hreal
  obtain ⟨⟨-,hnum⟩,hint⟩ := hreal
  obtain ⟨afterFrac,hbind,he⟩ := Option.bind_eq_some_iff.mp hnum
  obtain ⟨afterInt,hi,hf⟩ := Option.bind_eq_some_iff.mp hbind
  have hne : unsigned t ≠ [] := by
    intro hnil
    rw [hnil] at hi
    cases hi
  have hnil : afterInt ≠ [] := fun hnil => hint (hnil ▸ hi)
  rw [parseNumber_append h hne hi hf he,if_neg hnil,dif_pos hr]

end Numbers

section Values

mutual
/-- No object has a key twice. -/
def wf : Json → Bool
  | arr xs => wfItems xs
  | obj fields => (fields.map Prod.fst).Nodup && wfFields fields
  | _ => true
def wfItems : List Json → Bool
  | [] => true
  | x :: xs => wf x && wfItems xs
def wfFields : List (String × Json) → Bool
  | [] => true
  | (_,v) :: rest => wf v && wfFields rest
end

mutual
/-- What the text of a value reads back as: of a key written twice the last value stays. -/
def reread : Json → Json
  | arr xs => arr (rereadItems xs)
  | obj fields => obj (collapse (rereadFields fields))
  | v => v
def rereadItems : List Json → List Json
  | [] => []
  | x :: xs => reread x :: rereadItems xs
def rereadFields : List (String × Json) → List (String × Json)
  | [] => []
  | (k,v) :: rest => (k,reread v) :: rereadFields rest
end

theorem rereadFields_keys : ∀ fields : List (String × Json), (rereadFields fields).map Prod.fst = fields.map Prod.fst
  | [] => rfl
  | (k,_) :: rest => congrArg (k :: ·) (rereadFields_keys rest)

mutual
theorem reread_of_wf : ∀ v : Json, v.wf = true → v.reread = v
  | null, _ | bool _, _ | int _, _ | float _, _ | str _, _ => rfl
  | arr xs, h => by rw [reread,rereadItems_of_wf xs h]
  | obj fields, h => by
    simp only [wf,Bool.and_eq_true,decide_eq_true_eq] at h
    rw [reread,rereadFields_of_wf fields h.2,collapse_of_nodup h.1]
theorem rereadItems_of_wf : ∀ xs : List Json, wfItems xs = true → rereadItems xs = xs
  | [], _ => rfl
  | x :: xs, h => by
    simp only [wfItems,Bool.and_eq_true] at h
    rw [rereadItems,reread_of_wf x h.1,rereadItems_of_wf xs h.2]
theorem rereadFields_of_wf : ∀ fields : List (String × Json), wfFields fields = true → rereadFields fields = fields
  | [], _ => rfl
  | (k,v) :: rest, h => by
    simp only [wfFields,Bool.and_eq_true] at h
    rw [rereadFields,reread_of_wf v h.1,rereadFields_of_wf rest h.2]
end

/-- A text begins a value: not with a blank or a closing bracket. -/
def Begins (cs : List Char) : Prop := ∃ c rest, cs = c :: rest ∧ isWs c = false ∧ c ≠ ']' ∧ c ≠ '}'

theorem Begins.append {cs : List Char} (h : Begins cs) (rest : List Char) : Begins (cs ++ rest) := by
  obtain ⟨c,cs,rfl,hc⟩ := h
  exact ⟨c,cs ++ rest,rfl,hc⟩

theorem Begins.skipWs {cs : List Char} (h : Begins cs) : skipWs cs = cs := by
  obtain ⟨c,cs,rfl,hc,-⟩ := h
  simp [Json.skipWs,hc]

/-- A numeral begins with a digit, or with a sign and a digit. -/
theorem numeral_head {t : List Char} (h : (natPart (unsigned t)).isSome) :
    ∃ c cs, t = c :: cs ∧ (c.isDigit = true ∨ c = '-' ∧ ∃ d ds, cs = d :: ds ∧ d.isDigit = true) := by
  have hdigit : ∀ u, (natPart u).isSome → ∃ c cs, u = c :: cs ∧ c.isDigit = true := by
    intro u hu
    cases u with
    | nil => cases hu
    | cons c cs =>
      by_cases hz : c = '0'
      · exact ⟨c,cs,rfl,by rw [hz]; rfl⟩
      · rw [natPart.eq_2 _ _ hz] at hu
        split at hu
        · exact ⟨c,cs,rfl,by assumption⟩
        · cases hu
  cases t with
  | nil => cases h
  | cons c cs =>
    by_cases hm : c = '-'
    · subst hm
      obtain ⟨d,ds,hd⟩ := hdigit cs h
      exact ⟨'-',cs,rfl,.inr ⟨rfl,d,ds,hd⟩⟩
    · rw [unsigned.eq_2 _ fun _ he => hm (List.cons.inj he).1] at h
      obtain ⟨d,ds,hd,hdd⟩ := hdigit _ h
      obtain ⟨rfl,rfl⟩ := List.cons.inj hd
      exact ⟨c,cs,rfl,.inl hdd⟩

/-- Digits and signs are neither blanks nor brackets, nor do they begin a word. -/
theorem digit_ne {c d : Char} (hc : c.isDigit = true) (hd : d.isDigit = false) : c ≠ d := by
  rintro rfl
  rw [hc] at hd
  cases hd

theorem parseWord_numeral {t : List Char} (h : (natPart (unsigned t)).isSome) (rest : List Char) :
    parseWord (t ++ rest) = parseNumber (t ++ rest) := by
  obtain ⟨c,cs,rfl,hc | ⟨rfl,d,ds,rfl,hd⟩⟩ := numeral_head h
  · have hn := digit_ne hc (d := 'n') rfl
    have ht := digit_ne hc (d := 't') rfl
    have hf := digit_ne hc (d := 'f') rfl
    have hN := digit_ne hc (d := 'N') rfl
    have hI := digit_ne hc (d := 'I') rfl
    have hm := digit_ne hc (d := '-') rfl
    simp [parseWord,List.isPrefixOf,hn.symm,ht.symm,hf.symm,hN.symm,hI.symm,hm.symm]
  · have hI := digit_ne hd (d := 'I') rfl
    simp [parseWord,List.isPrefixOf,hI.symm]

theorem begins_numeral {t : List Char} (h : (natPart (unsigned t)).isSome) : Begins t := by
  obtain ⟨c,cs,rfl,hc | ⟨rfl,-⟩⟩ := numeral_head h
  · refine ⟨c,cs,rfl,?_,digit_ne hc rfl,digit_ne hc rfl⟩
    have h1 := digit_ne hc (d := ' ') rfl
    have h2 := digit_ne hc (d := '\t') rfl
    have h3 := digit_ne hc (d := '\n') rfl
    have h4 := digit_ne hc (d := '\r') rfl
    simp [isWs,h1,h2,h3,h4]
  · exact ⟨'-',cs,rfl,rfl,by decide,by decide⟩

theorem isSome_intText (i : Int) : (natPart (unsigned (intText i))).isSome := by
  rw [unsigned_intText,natPart_toDigits]
  rfl

theorem isSome_isReal {t : List Char} (h : isReal t) : (natPart (unsigned t)).isSome := by
  simp only [isReal,isNumber,Bool.and_eq_true,beq_iff_eq] at h
  obtain ⟨_,hbind,-⟩ := Option.bind_eq_some_iff.mp h.1.2
  obtain ⟨_,hi,-⟩ := Option.bind_eq_some_iff.mp hbind
  rw [hi]
  rfl

theorem begins_strText (s : String) : Begins (strText s) := ⟨'"',_,rfl,rfl,by decide,by decide⟩

theorem begins_text (v : Json) : Begins v.text := by
  cases v with
  | null => exact ⟨_,_,rfl,rfl,by decide,by decide⟩
  | bool b => cases b <;> exact ⟨_,_,rfl,rfl,by decide,by decide⟩
  | int i => exact begins_numeral (isSome_intText i)
  | float f =>
    obtain ⟨t,hr | rfl | rfl | rfl⟩ := f
    · exact begins_numeral (isSome_isReal hr)
    · exact ⟨_,_,rfl,rfl,by decide,by decide⟩
    · exact ⟨_,_,rfl,rfl,by decide,by decide⟩
    · exact ⟨_,_,rfl,rfl,by decide,by decide⟩
  | str s => exact begins_strText s
  | arr xs => cases xs <;> exact ⟨'[',_,rfl,rfl,by decide,by decide⟩
  | obj fields => rcases fields with _ | ⟨⟨k,v⟩,rest⟩ <;> exact ⟨'{',_,rfl,rfl,by decide,by decide⟩

theorem length_le_flatMap_escChar (cs : List Char) : cs.length ≤ (cs.flatMap escChar).length := by
  induction cs with
  | nil => exact Nat.le_refl _
  | cons c cs ih =>
    have hc : 1 ≤ (escChar c).length := by
      unfold escChar
      repeat' split
      all_goals simp
    simp only [List.flatMap_cons,List.length_append,List.length_cons]
    omega

/-- A string is read after its opening quote. -/
theorem parseStr_strText (s : String) (rest : List Char) {body : List Char} (h : strText s ++ rest = '"' :: body) :
    parseStr (body.length + 1) body = some (s.toList,rest) := by
  have hbody : body = s.toList.flatMap escChar ++ '"' :: rest := by
    rw [← (List.cons.inj h).2]
    exact List.append_assoc _ _ _
  rw [hbody]
  refine parseStr_text _ _ ?_
  have := length_le_flatMap_escChar s.toList
  simp only [List.length_append,List.length_cons]
  omega

theorem skipWs_cons {c : Char} (hc : isWs c = false) (rest : List Char) : skipWs (c :: rest) = c :: rest := by
  simp [skipWs,hc]

theorem skipWs_space {cs : List Char} (h : Begins cs) : skipWs (' ' :: cs) = cs := by
  have hspace : isWs ' ' = true := rfl
  rw [skipWs,List.dropWhile_cons_of_pos hspace]
  exact h.skipWs

theorem numEnd_cons {c : Char} (hc : numChar c = false) (rest : List Char) : NumEnd (c :: rest) := by
  rintro d hd
  cases hd
  exact hc

theorem numEnd_itemsText (xs : List Json) (rest : List Char) : NumEnd (itemsText xs ++ rest) := by
  cases xs <;> exact numEnd_cons rfl _

theorem numEnd_fieldsText (fields : List (String × Json)) (rest : List Char) : NumEnd (fieldsText fields ++ rest) := by
  rcases fields with _ | ⟨⟨k,v⟩,fields⟩ <;> exact numEnd_cons rfl _

theorem one_le_itemsText (xs : List Json) : 1 ≤ (itemsText xs).length := by
  cases xs <;> simp [itemsText]

theorem one_le_fieldsText (fields : List (String × Json)) : 1 ≤ (fieldsText fields).length := by
  rcases fields with _ | ⟨⟨k,v⟩,fields⟩ <;> simp [fieldsText]

/-- An opening bracket before the beginning of a value opens a list of items. -/
theorem parseValue_items {cs : List Char} (h : Begins cs) (fuel : ℕ) :
    parseValue (fuel + 1) ('[' :: cs) = (parseItems fuel cs).map fun p => (arr p.1,p.2) := by
  rw [parseValue,h.skipWs]
  obtain ⟨c,rest,rfl,-,hc,-⟩ := h
  split
  · rename_i heq
    exact absurd (List.cons.inj heq).1 hc
  · rfl

theorem parseValue_fields {cs : List Char} (h : Begins cs) (fuel : ℕ) :
    parseValue (fuel + 1) ('{' :: cs) = (parseFields fuel cs).map fun p => (obj (collapse p.1),p.2) := by
  rw [parseValue,h.skipWs]
  obtain ⟨c,rest,rfl,-,-,hc⟩ := h
  split
  · rename_i heq
    exact absurd (List.cons.inj heq).1 hc
  · rfl

/-- A word or a number is none of the bracketed values. -/
theorem parseValue_word {cs : List Char} (h : ∀ c ∈ cs.head?, c ≠ '"' ∧ c ≠ '[' ∧ c ≠ '{') (fuel : ℕ) :
    parseValue (fuel + 1) cs = parseWord cs := by
  rw [parseValue.eq_def]
  simp only
  split
  · exact absurd rfl (h _ rfl).1
  · exact absurd rfl (h _ rfl).2.1
  · exact absurd rfl (h _ rfl).2.2
  · rfl

theorem parseValue_numeral {t rest : List Char} (h : (natPart (unsigned t)).isSome) (fuel : ℕ) :
    parseValue (fuel + 1) (t ++ rest) = parseNumber (t ++ rest) := by
  rw [parseValue_word,parseWord_numeral h]
  obtain ⟨c,cs,rfl,hc | ⟨rfl,-⟩⟩ := numeral_head h
  · rintro d hd
    cases hd
    exact ⟨digit_ne hc rfl,digit_ne hc rfl,digit_ne hc rfl⟩
  · rintro d hd
    cases hd
    decide

mutual
theorem parseValue_text : ∀ (v : Json) (fuel : ℕ) (rest : List Char), NumEnd rest →
    v.text.length ≤ fuel → parseValue fuel (v.text ++ rest) = some (v.reread,rest)
  | v, 0, rest, hend, hlen => by
    obtain ⟨c,cs,hc,-⟩ := begins_text v
    rw [hc] at hlen
    cases hlen
  | null, fuel + 1, rest, _, _ => by
    rw [parseValue_word (by rintro c hc; cases hc; decide)]
    rfl
  | bool true, fuel + 1, rest, _, _ => by
    rw [parseValue_word (by rintro c hc; cases hc; decide)]
    rfl
  | bool false, fuel + 1, rest, _, _ => by
    rw [parseValue_word (by rintro c hc; cases hc; decide)]
    rfl
  | int i, fuel + 1, rest, hend, _ => by
    have htext : (int i).text = intText i := rfl
    rw [htext,parseValue_numeral (isSome_intText i),parseNumber_int hend]
    rfl
  | float ⟨t,hr⟩, fuel + 1, rest, hend, _ => by
    show parseValue (fuel + 1) (t ++ rest) = _
    rcases hr with hr | rfl | rfl | rfl
    · rw [parseValue_numeral (isSome_isReal hr),parseNumber_float hend hr]
      rfl
    · rw [parseValue_word (by rintro c hc; cases hc; decide)]
      rfl
    · rw [parseValue_word (by rintro c hc; cases hc; decide)]
      rfl
    · rw [parseValue_word (by rintro c hc; cases hc; decide)]
      rfl
  | str s, fuel + 1, rest, _, _ => by
    have hbody : (str s).text ++ rest = '"' :: (s.toList.flatMap escChar ++ ['"'] ++ rest) := rfl
    rw [hbody,parseValue,parseStr_strText s rest hbody]
    simp [reread]
  | arr [], fuel + 1, rest, _, _ => by
    have htext : (arr []).text ++ rest = '[' :: ']' :: rest := rfl
    rw [htext,parseValue,skipWs_cons rfl]
    rfl
  | arr (x :: xs), fuel + 1, rest, hend, hlen => by
    have htext : (arr (x :: xs)).text ++ rest = '[' :: (x.text ++ itemsText xs ++ rest) := rfl
    have hbegins : Begins (x.text ++ itemsText xs ++ rest) := ((begins_text x).append _).append _
    have hlen' : (x.text ++ itemsText xs).length ≤ fuel := by
      have : (arr (x :: xs)).text.length = (x.text ++ itemsText xs).length + 1 := rfl
      omega
    rw [htext,parseValue_items hbegins,parseItems_text x xs fuel rest hlen']
    rfl
  | obj [], fuel + 1, rest, _, _ => by
    have htext : (obj []).text ++ rest = '{' :: '}' :: rest := rfl
    rw [htext,parseValue,skipWs_cons rfl]
    rfl
  | obj ((k,v) :: fields), fuel + 1, rest, hend, hlen => by
    have htext : (obj ((k,v) :: fields)).text ++ rest =
        '{' :: (strText k ++ ':' :: ' ' :: (v.text ++ fieldsText fields) ++ rest) := rfl
    have hbegins : Begins (strText k ++ ':' :: ' ' :: (v.text ++ fieldsText fields) ++ rest) :=
      ((begins_strText k).append _).append _
    have hlen' : (strText k ++ ':' :: ' ' :: (v.text ++ fieldsText fields)).length ≤ fuel := by
      have : (obj ((k,v) :: fields)).text.length = (strText k ++ ':' :: ' ' :: (v.text ++ fieldsText fields)).length + 1 := rfl
      omega
    rw [htext,parseValue_fields hbegins,parseFields_text k v fields fuel rest hlen',Option.map_some]
    rfl
theorem parseItems_text : ∀ (x : Json) (xs : List Json) (fuel : ℕ) (rest : List Char),
    (x.text ++ itemsText xs).length ≤ fuel → parseItems fuel (x.text ++ itemsText xs ++ rest) = some (rereadItems (x :: xs),rest)
  | x, xs, 0, rest, hlen => by
    have := one_le_itemsText xs
    simp only [List.length_append] at hlen
    omega
  | x, xs, fuel + 1, rest, hlen => by
    have htail := one_le_itemsText xs
    simp only [List.length_append] at hlen
    have hx := parseValue_text x fuel (itemsText xs ++ rest) (numEnd_itemsText xs rest) (by omega)
    rw [List.append_assoc,parseItems,hx]
    match xs with
    | [] =>
      have hend : itemsText [] ++ rest = ']' :: rest := rfl
      simp only [hend,bind,Option.bind_some,skipWs_cons (c := ']') rfl]
      rfl
    | y :: ys =>
      have hlen' : (y.text ++ itemsText ys).length ≤ fuel := by
        have : (itemsText (y :: ys)).length = (y.text ++ itemsText ys).length + 2 := rfl
        omega
      have hy := parseItems_text y ys fuel rest hlen'
      have hitems : itemsText (y :: ys) ++ rest = ',' :: ' ' :: (y.text ++ itemsText ys ++ rest) := rfl
      have hbegins : Begins (y.text ++ itemsText ys ++ rest) := ((begins_text y).append _).append _
      rw [hitems]
      simp only [bind,Option.bind_some,skipWs_cons (c := ',') rfl,skipWs_space hbegins,hy]
      rfl
theorem parseFields_text : ∀ (k : String) (v : Json) (fields : List (String × Json)) (fuel : ℕ) (rest : List Char),
     (strText k ++ ':' :: ' ' :: (v.text ++ fieldsText fields)).length ≤ fuel →
      parseFields fuel (strText k ++ ':' :: ' ' :: (v.text ++ fieldsText fields) ++ rest) =
        some (rereadFields ((k,v) :: fields),rest)
  | k, v, fields, 0, rest, hlen => by
    simp at hlen
  | k, v, fields, fuel + 1, rest, hlen => by
    have htail := one_le_fieldsText fields
    simp only [List.length_append,List.length_cons] at hlen
    have hv := parseValue_text v fuel (fieldsText fields ++ rest) (numEnd_fieldsText fields rest) (by omega)
    obtain ⟨body,hbody⟩ : ∃ body, strText k ++ ':' :: ' ' :: (v.text ++ (fieldsText fields ++ rest)) = '"' :: body :=
      ⟨_,rfl⟩
    have hkey : strText k ++ ':' :: ' ' :: (v.text ++ fieldsText fields) ++ rest = '"' :: body := by
      rw [← hbody]
      simp
    have hparse := parseStr_strText k _ hbody
    have hbegins : Begins (v.text ++ (fieldsText fields ++ rest)) := (begins_text v).append _
    rw [hkey,parseFields]
    simp only [hparse,bind,Option.bind_some,skipWs_cons (c := ':') rfl,skipWs_space hbegins,hv]
    match fields with
    | [] =>
      have hend : fieldsText [] ++ rest = '}' :: rest := rfl
      simp only [hend,skipWs_cons (c := '}') rfl]
      simp [rereadFields]
    | (k',v') :: fields =>
      have hlen' : (strText k' ++ ':' :: ' ' :: (v'.text ++ fieldsText fields)).length ≤ fuel := by
        have : (fieldsText ((k',v') :: fields)).length =
          (strText k' ++ ':' :: ' ' :: (v'.text ++ fieldsText fields)).length + 2 := rfl
        omega
      have hnext := parseFields_text k' v' fields fuel rest hlen'
      have hfields : fieldsText ((k',v') :: fields) ++ rest =
        ',' :: ' ' :: (strText k' ++ ':' :: ' ' :: (v'.text ++ fieldsText fields) ++ rest) := rfl
      have hbegins : Begins (strText k' ++ ':' :: ' ' :: (v'.text ++ fieldsText fields) ++ rest) :=
        ((begins_strText k').append _).append _
      rw [hfields]
      simp only [skipWs_cons (c := ',') rfl,skipWs_space hbegins,hnext]
      simp [rereadFields]
end

/-- What is written reads back as `reread` says. -/
theorem loads_dumps_reread (v : Json) : loads v.dumps = some v.reread := by
  have hlist : v.dumps.toList = v.text := String.toList_ofList
  have hparse := parseValue_text v (v.text.length + 1) [] nofun (Nat.le_succ _)
  rw [List.append_nil] at hparse
  rw [loads,hlist,(begins_text v).skipWs,hparse]
  rfl

/-- What is written reads back as it was. -/
theorem loads_dumps {v : Json} (h : v.wf = true) : loads v.dumps = some v := by
  rw [loads_dumps_reread,reread_of_wf v h]

end Values

end Json
end Py
