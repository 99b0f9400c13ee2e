import Mathlib

/-! # Substitution in a text

`str.replace` takes the occurrences from left to right, without overlap. A text that is
written character by character is substituted character by character, when no occurrence
begins or ends inside what is written for one.
-/
namespace Text
variable {A : Type} [DecidableEq A]

section Replace
variable (old new : List A)

/-- Substitute from a position on, after leaving out what an occurrence still covers. -/
def replaceFrom : ℕ → List A → List A
  | _, [] => []
  | skip + 1, _ :: rest => replaceFrom skip rest
  | 0, c :: rest =>
    if old.isPrefixOf (c :: rest) then new ++ replaceFrom (old.length - 1) rest else c :: replaceFrom 0 rest

/-- `s.replace(old, new)`, for an `old` that is not empty. -/
def replace (s : List A) : List A := replaceFrom old new 0 s

variable {old new}

@[simp] theorem replace_nil : replace old new [] = [] := rfl

theorem replaceFrom_skip (l rest : List A) : replaceFrom old new l.length (l ++ rest) = replace old new rest := by
  induction l with
  | nil => rfl
  | cons c l ih => exact ih

theorem replace_hit {c : A} {tail : List A} (rest : List A) (h : old = c :: tail) :
    replace old new (old ++ rest) = new ++ replace old new rest := by
  subst h
  rw [replace,List.cons_append,replaceFrom,if_pos]
  · rw [List.length_cons,Nat.add_sub_cancel,replaceFrom_skip]
  · rw [List.isPrefixOf_iff_prefix]
    exact List.prefix_append ..

theorem replace_miss {c : A} {rest : List A} (h : ¬ old <+: c :: rest) :
    replace old new (c :: rest) = c :: replace old new rest := by
  rw [replace,replaceFrom,if_neg]
  · rfl
  · rwa [List.isPrefixOf_iff_prefix]

/-- Another first character is no occurrence. -/
theorem replace_cons_ne {o c : A} {tail rest : List A} (hold : old = o :: tail) (h : c ≠ o) :
    replace old new (c :: rest) = c :: replace old new rest := by
  apply replace_miss
  subst hold
  intro hprefix
  exact h (List.cons_prefix_cons.mp hprefix).1.symm

/-- A text that is written character by character. -/
theorem replace_flatMap {B : Type} {written left : B → List A}
    (h : ∀ b rest, replace old new (written b ++ rest) = left b ++ replace old new rest) (s : List B) :
    replace old new (s.flatMap written) = s.flatMap left := by
  induction s with
  | nil => rfl
  | cons b s ih => rw [List.flatMap_cons,h,ih,List.flatMap_cons]

end Replace

/-- The text before and after the last occurrence of a character. -/
def splitLast (c : A) : List A → Option (List A × List A)
  | [] => none
  | x :: xs =>
    match splitLast c xs with
    | some (before,after) => some (x :: before,after)
    | none => if x = c then some ([],xs) else none

theorem splitLast_eq_none {c : A} {l : List A} (h : c ∉ l) : splitLast c l = none := by
  induction l with
  | nil => rfl
  | cons x xs ih =>
    rw [List.mem_cons,not_or] at h
    rw [splitLast,ih h.2]
    exact if_neg (Ne.symm h.1)

theorem splitLast_append {c : A} {before after : List A} (h : c ∉ after) :
    splitLast c (before ++ c :: after) = some (before,after) := by
  induction before with
  | nil =>
    rw [List.nil_append,splitLast,splitLast_eq_none h]
    exact if_pos rfl
  | cons x before ih => rw [List.cons_append,splitLast,ih]

end Text
