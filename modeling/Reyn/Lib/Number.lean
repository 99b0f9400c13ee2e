import Reyn.Lib.Value

/-! # Numbers and equality

Floats are those of binary64. Numbers of different types are compared by their exact
values, and a boolean counts as a number; in JSON it does not.
-/
namespace Py

/-- The rational numbers with both infinities. -/
abbrev Extended := WithBot (WithTop ℚ)

/-- The exact value of a float, if it is a number. -/
def floatValue (x : Float) : Option Extended :=
  match x.toModel.unpack with
  | .notANumber => none
  | .infinity .positive => some ⊤
  | .infinity .negative => some ⊥
  | .zero _ => some (((0 : ℚ) : WithTop ℚ) : Extended)
  | .finite .positive m e _ => some ((((m : ℚ) * 2 ^ e : ℚ) : WithTop ℚ) : Extended)
  | .finite .negative m e _ => some (((-((m : ℚ) * 2 ^ e) : ℚ) : WithTop ℚ) : Extended)

def decimalNat (cs : List Char) : ℕ := cs.foldl (fun n c => 10 * n + (c.toNat - '0'.toNat)) 0

def decimalInt : List Char → ℤ
  | '-' :: cs => -(decimalNat cs : ℤ)
  | '+' :: cs => decimalNat cs
  | cs => decimalNat cs

/-- The float of an unsigned decimal numeral: the nearest one. -/
def ofDecimal (cs : List Char) : Float :=
  let whole := cs.takeWhile Char.isDigit
  let rest := cs.dropWhile Char.isDigit
  let fraction := match rest with
    | '.' :: ds => ds.takeWhile Char.isDigit
    | _ => []
  let exponent := match rest.dropWhile (fun c => c != 'e' && c != 'E') with
    | _ :: ds => decimalInt ds
    | [] => 0
  .ofModel (.ofScientific (decimalNat (whole ++ fraction)) (exponent - fraction.length))

namespace FloatLit

def toFloat (f : FloatLit) : Float :=
  if f.text = "NaN".toList then .ofModel (.pack .notANumber)
  else if f.text = "Infinity".toList then .ofModel (.pack (.infinity .positive))
  else if f.text = "-Infinity".toList then .ofModel (.pack (.infinity .negative))
  else
    match f.text with
    | '-' :: cs => -ofDecimal cs
    | cs => ofDecimal cs

/-- The exact value of the float a numeral stands for. -/
def value (f : FloatLit) : Option Extended := if f.text = "NaN".toList then none else floatValue f.toFloat

end FloatLit

namespace Value

/-- The number that a value is in JSON. -/
def number? : Value → Option Extended
  | int i => some (((i : ℚ) : WithTop ℚ) : Extended)
  | float f => f.value
  | _ => Option.none

/-- The number that a value is for `==` and `<`. -/
def numeric? : Value → Option Extended
  | bool b => some (((if b then 1 else 0 : ℚ) : WithTop ℚ) : Extended)
  | v => number? v

/-- `a > b` of numbers -/
def exceeds (a b : Value) : Bool :=
  match numeric? a, numeric? b with
  | some x, some y => decide (y < x)
  | _, _ => false

def sameNumber : Option Extended → Option Extended → Bool
  | some x, some y => decide (x = y)
  | _, _ => false

mutual
/-- `a == b`; a value of another type is what it holds. -/
def pyEq : Value → Value → Bool
  | none, none => true
  | str a, str b => a == b
  | other a x t, other b y u => a == b && (x == y && t == u)
  | tuple xs, tuple ys => pyEqItems xs ys
  | list xs, list ys => pyEqItems xs ys
  | dict xs, dict ys => xs.length == ys.length && pyEqFields xs ys
  | bool a, b => sameNumber (numeric? (bool a)) (numeric? b)
  | int a, b => sameNumber (numeric? (int a)) (numeric? b)
  | float a, b => sameNumber (numeric? (float a)) (numeric? b)
  | _, _ => false
termination_by structural a => a
def pyEqItems : List Value → List Value → Bool
  | [], [] => true
  | x :: xs, y :: ys => pyEq x y && pyEqItems xs ys
  | _, _ => false
termination_by structural a => a
/-- Each member of the first is one of the second. -/
def pyEqFields : List (Value × Value) → List (Value × Value) → Bool
  | [], _ => true
  | (k,x) :: rest, ys => (ys.any fun p => pyEq k p.1 && pyEq x p.2) && pyEqFields rest ys
termination_by structural a => a
end

mutual
/-- Equality of JSON values. -/
def jsonEq : Value → Value → Bool
  | none, none => true
  | bool a, bool b => a == b
  | str a, str b => a == b
  | list xs, list ys => jsonEqItems xs ys
  | dict xs, dict ys => xs.length == ys.length && jsonEqFields xs ys
  | int a, b => sameNumber (number? (int a)) (number? b)
  | float a, b => sameNumber (number? (float a)) (number? b)
  | _, _ => false
termination_by structural a => a
def jsonEqItems : List Value → List Value → Bool
  | [], [] => true
  | x :: xs, y :: ys => jsonEq x y && jsonEqItems xs ys
  | _, _ => false
termination_by structural a => a
def jsonEqFields : List (Value × Value) → List (Value × Value) → Bool
  | [], _ => true
  | (k,x) :: rest, ys => (ys.any fun p => k == p.1 && jsonEq x p.2) && jsonEqFields rest ys
termination_by structural a => a
end

/-- The member of a mapping under a key that is equal. -/
def member? (fields : List (Value × Value)) (key : Value) : Option Value := (fields.find? fun p => pyEq p.1 key).map Prod.snd

mutual
/-- What a JSON text stands for: numbers, and names that are distinct texts. -/
def isJson : Value → Bool
  | none | bool _ | int _ | str _ => true
  | float f => f.value.isSome
  | other _ _ _ | tuple _ => false
  | list xs => isJsonItems xs
  | dict fields => (fields.map Prod.fst).Nodup && isJsonFields fields
def isJsonItems : List Value → Bool
  | [] => true
  | x :: xs => isJson x && isJsonItems xs
def isJsonFields : List (Value × Value) → Bool
  | [] => true
  | (k,v) :: rest => isText k && (isJson v && isJsonFields rest)
end

theorem isJsonItems_iff {xs} : isJsonItems xs = true ↔ ∀ x ∈ xs, isJson x = true := by
  induction xs with
  | nil => simp [isJsonItems]
  | cons x xs ih => simp [isJsonItems,ih]

theorem isJsonFields_iff {fields} : isJsonFields fields = true ↔ ∀ p ∈ fields, isText p.1 = true ∧ isJson p.2 = true := by
  induction fields with
  | nil => simp [isJsonFields]
  | cons p rest ih => simp [isJsonFields,ih,and_assoc]

theorem isJson_dict_iff {fields : List (Value × Value)} : isJson (dict fields) = true ↔
    (fields.map Prod.fst).Nodup ∧ ∀ p ∈ fields, isText p.1 = true ∧ isJson p.2 = true := by
  rw [isJson,Bool.and_eq_true,decide_eq_true_eq,isJsonFields_iff]

theorem sameNumber_iff {a b : Option Extended} : sameNumber a b = true ↔ ∃ x, a = some x ∧ b = some x := by
  cases a <;> cases b <;> simp [sameNumber,eq_comm]

theorem numeric?_of_number? {v : Value} {x : Extended} (h : number? v = some x) : numeric? v = some x := by
  cases v with
  | bool b => cases h
  | _ => exact h

theorem get?_nil (key : String) : get? [] key = Option.none := rfl

theorem get?_cons_str (name key : String) (v : Value) (rest : List (Value × Value)) :
    get? ((str name,v) :: rest) key = if key = name then some v else get? rest key := by
  rw [get?,List.lookup_cons]
  by_cases h : key = name
  · simp [h]
  · have hbeq : (str key == str name) = false := beq_false_of_ne fun heq => h (str.inj heq)
    rw [hbeq,if_neg h]
    rfl

theorem pyEq_str_iff {v : Value} {s : String} : pyEq v (str s) = true ↔ v = str s := by
  cases v <;> simp [pyEq,numeric?,number?,sameNumber]

theorem member?_str (fields : List (Value × Value)) (s : String) : member? fields (str s) = get? fields s := by
  induction fields with
  | nil => rfl
  | cons p rest ih =>
    by_cases h : p.1 = str s
    · have hbeq : (str s == p.1) = true := beq_iff_eq.mpr h.symm
      have heq : pyEq p.1 (str s) = true := pyEq_str_iff.mpr h
      rw [get?,List.lookup_cons,hbeq]
      simp only [member?,List.find?_cons,heq,Option.map_some]
    · have hne : pyEq p.1 (str s) = false := Bool.eq_false_iff.mpr fun heq => h (pyEq_str_iff.mp heq)
      have hbeq : (str s == p.1) = false := beq_false_of_ne fun heq => h heq.symm
      rw [get?,List.lookup_cons,hbeq]
      simp only [member?,List.find?_cons,hne]
      exact ih

/-- A name that is no text is the name of no member of a JSON object. -/
theorem member?_of_isJson {fields : List (Value × Value)} (hjson : isJson (dict fields) = true) {key x : Value}
    (h : member? fields key = some x) : ∃ s, key = str s ∧ get? fields s = some x := by
  obtain ⟨p,hfind,rfl⟩ := Option.map_eq_some_iff.mp h
  obtain ⟨s,hs⟩ := isText_iff.mp ((isJson_dict_iff.mp hjson).2 p (List.mem_of_find?_eq_some hfind)).1
  have heq := List.find?_some hfind
  rw [hs] at heq
  cases key <;> simp [pyEq] at heq
  subst heq
  exact ⟨s,rfl,by rw [← member?_str]; exact h⟩

theorem isJson_get? {fields : List (Value × Value)} (hjson : isJson (dict fields) = true) {s : String} {x : Value}
    (h : get? fields s = some x) : isJson x = true := by
  obtain ⟨front,rest,heq,-⟩ := List.lookup_eq_some_iff.mp h
  exact ((isJson_dict_iff.mp hjson).2 (str s,x) (by rw [heq]; simp)).2

theorem sameNumber_numeric? {a b : Value} (h : sameNumber (number? a) (number? b) = true) :
    sameNumber (numeric? a) (numeric? b) = true := by
  obtain ⟨x,ha,hb⟩ := sameNumber_iff.mp h
  exact sameNumber_iff.mpr ⟨x,numeric?_of_number? ha,numeric?_of_number? hb⟩

mutual
/-- What is equal in JSON is equal. -/
theorem pyEq_of_jsonEq : ∀ {v e : Value}, isJson v = true → jsonEq v e = true → pyEq v e = true
  | none, e, _, h => by cases e <;> simp_all [jsonEq,pyEq]
  | bool a, e, _, h => by
    cases e <;> simp [jsonEq] at h
    subst h
    exact sameNumber_iff.mpr ⟨_,rfl,rfl⟩
  | int a, e, _, h => by
    rw [jsonEq] at h
    · rw [pyEq]
      · exact sameNumber_numeric? h
  | float f, e, _, h => by
    rw [jsonEq] at h
    · rw [pyEq]
      · exact sameNumber_numeric? h
  | str s, e, _, h => by cases e <;> simp_all [jsonEq,pyEq]
  | list xs, e, hv, h => by
    cases e <;> simp [jsonEq] at h
    exact pyEqItems_of_jsonEq hv h
  | dict fields, e, hv, h => by
    cases e <;> simp [jsonEq] at h
    rw [pyEq,Bool.and_eq_true]
    rw [isJson,Bool.and_eq_true] at hv
    exact ⟨beq_iff_eq.mpr h.1,pyEqFields_of_jsonEq hv.2 h.2⟩
theorem pyEqItems_of_jsonEq : ∀ {xs es : List Value}, isJsonItems xs = true → jsonEqItems xs es = true → pyEqItems xs es = true
  | [], es, _, h => by cases es <;> simp_all [jsonEqItems,pyEqItems]
  | x :: xs, es, hv, h => by
    cases es <;> simp [jsonEqItems] at h
    rw [isJsonItems,Bool.and_eq_true] at hv
    rw [pyEqItems,Bool.and_eq_true]
    exact ⟨pyEq_of_jsonEq hv.1 h.1,pyEqItems_of_jsonEq hv.2 h.2⟩
theorem pyEqFields_of_jsonEq : ∀ {fields es : List (Value × Value)}, isJsonFields fields = true →
    jsonEqFields fields es = true → pyEqFields fields es = true
  | [], _, _, _ => rfl
  | (k,x) :: rest, es, hv, h => by
    simp only [isJsonFields,Bool.and_eq_true] at hv
    simp only [jsonEqFields,Bool.and_eq_true,List.any_eq_true] at h
    obtain ⟨⟨p,hp,hkey,hx⟩,hrest⟩ := h
    obtain ⟨s,rfl⟩ := isText_iff.mp hv.1
    simp only [pyEqFields,Bool.and_eq_true,List.any_eq_true]
    refine ⟨⟨p,hp,?_,pyEq_of_jsonEq hv.2.1 hx⟩,pyEqFields_of_jsonEq hv.2.2 hrest⟩
    rw [← beq_iff_eq.mp hkey]
    simp [pyEq]
end

end Value
end Py
