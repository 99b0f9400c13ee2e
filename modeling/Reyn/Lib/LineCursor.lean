import Reyn.Lib.TextReplace

/-! # Reading a growing text by its whole lines

A cursor goes through the lines that are ended, as far as the first entry that it may not
read yet, and hands the entries to a consumer, which takes something of each or gives up.
What was read is a front of the text, so the text may grow behind the cursor: reading on
from there comes to what reading from the beginning comes to.
-/
namespace LineCursor
variable {A E B X : Type}

/-- How the lines are told: the separator, and what a line holds. -/
structure Reading (A E : Type) where
  sep : A → Bool
  parse : List A → Option E

/-- What a consumer takes of an entry, and why it gives up at one. -/
structure Consumer (E B X : Type) where
  take : E → List B
  fails : E → Option X

section Consume
variable (r : Reading A E) (waits : E → Bool) (f : Consumer E B X)

/-- The loop, with the text behind the cursor; the cursor is moved past a line before its entry is handed over. -/
def consume : ℕ → List A → ℕ → List B → List B × ℕ × Option X
  | 0, _, offset, taken => (taken,offset,none)
  | fuel + 1, rest, offset, taken =>
    match rest.findIdx? r.sep with
    | none => (taken,offset,none)
    | some nl =>
      match r.parse (rest.take nl) with
      | none => consume fuel (rest.drop (nl + 1)) (offset + nl + 1) taken
      | some e =>
        if waits e then (taken,offset,none)
        else match f.fails e with
          | some x => (taken ++ f.take e,offset + nl + 1,some x)
          | none => consume fuel (rest.drop (nl + 1)) (offset + nl + 1) (taken ++ f.take e)

end Consume

/-- The consumer that keeps every entry. -/
def keep : Consumer E E Empty := ⟨fun e => [e],fun _ => none⟩

/-- All that is read from the beginning. -/
def entries (r : Reading A E) (waits : E → Bool) (l : List A) : List E := (consume r waits keep l.length l 0 []).1

/-- Whole lines, with what they hold. -/
inductive Lines (r : Reading A E) : List A → List E → Prop
  | nil : Lines r [] []
  | blank {line rest : List A} {a : A} {es : List E} : (∀ c ∈ line, r.sep c = false) → r.sep a = true → r.parse line = none →
      Lines r rest es → Lines r (line ++ a :: rest) es
  | entry {line rest : List A} {a : A} {e : E} {es : List E} : (∀ c ∈ line, r.sep c = false) → r.sep a = true →
      r.parse line = some e → Lines r rest es → Lines r (line ++ a :: rest) (e :: es)

/-- Text of which nothing can be read: its first line is not ended, or may not be read. -/
def Stuck (r : Reading A E) (waits : E → Bool) (l : List A) : Prop :=
  (∀ c ∈ l, r.sep c = false) ∨ ∃ line a rest e, l = line ++ a :: rest ∧ (∀ c ∈ line, r.sep c = false) ∧ r.sep a = true ∧
    r.parse line = some e ∧ waits e = true

section Loop
variable {r : Reading A E} {waits : E → Bool} {f : Consumer E B X} {fuel offset : ℕ} {taken : List B}
variable {line rest l front back : List A} {a : A} {es es' : List E}

theorem findIdx_line (hline : ∀ c ∈ line, r.sep c = false) (ha : r.sep a = true) : (line ++ a :: rest).findIdx? r.sep = some line.length := by
  induction line with
  | nil => simp [List.findIdx?_cons,ha]
  | cons c line ih =>
    have hc := hline c List.mem_cons_self
    rw [List.cons_append,List.findIdx?_cons,hc,ih fun d hd => hline d (List.mem_cons_of_mem _ hd)]
    rfl

theorem consume_unended (h : ∀ c ∈ l, r.sep c = false) : consume r waits f fuel l offset taken = (taken,offset,none) := by
  cases fuel with
  | zero => rfl
  | succ fuel => rw [consume,List.findIdx?_eq_none_iff.mpr h]

theorem consume_line (hline : ∀ c ∈ line, r.sep c = false) (ha : r.sep a = true) :
    consume r waits f (fuel + 1) (line ++ a :: rest) offset taken =
      match r.parse line with
      | none => consume r waits f fuel rest (offset + line.length + 1) taken
      | some e =>
        if waits e then (taken,offset,none)
        else match f.fails e with
          | some x => (taken ++ f.take e,offset + line.length + 1,some x)
          | none => consume r waits f fuel rest (offset + line.length + 1) (taken ++ f.take e) := by
  have hdrop : (line ++ a :: rest).drop (line.length + 1) = rest := by
    rw [List.drop_length_add_append]
    rfl
  rw [consume,findIdx_line hline ha]
  dsimp only
  rw [List.take_left,hdrop]

theorem Lines.append (h : Lines r front es) (h' : Lines r back es') : Lines r (front ++ back) (es ++ es') := by
  induction h with
  | nil => exact h'
  | blank hline ha hparse _ ih =>
    rw [List.append_assoc,List.cons_append]
    exact .blank hline ha hparse ih
  | entry hline ha hparse _ ih =>
    rw [List.append_assoc,List.cons_append]
    exact .entry hline ha hparse ih

/-- Lines that may be read are gone through. -/
theorem consume_lines (h : Lines r front es) (hes : ∀ e ∈ es, waits e = false ∧ f.fails e = none) (hlen : (front ++ back).length ≤ fuel) :
    ∃ fuel', back.length ≤ fuel' ∧ consume r waits f fuel (front ++ back) offset taken =
      consume r waits f fuel' back (offset + front.length) (taken ++ es.flatMap f.take) := by
  induction h generalizing fuel offset taken with
  | nil => exact ⟨fuel,hlen,by simp⟩
  | @blank line rest a es hline ha hparse _ ih =>
    simp only [List.length_append,List.length_cons] at hlen
    obtain ⟨fuel,rfl⟩ : ∃ k, fuel = k + 1 := ⟨fuel - 1,by omega⟩
    obtain ⟨fuel',hfuel,heq⟩ := @ih fuel (offset + line.length + 1) taken hes (by rw [List.length_append]; omega)
    refine ⟨fuel',hfuel,?_⟩
    rw [List.append_assoc,List.cons_append,consume_line hline ha,hparse]
    dsimp only
    rw [heq,List.length_append,List.length_cons]
    congr 1
    omega
  | @entry line rest a e es hline ha hparse _ ih =>
    simp only [List.length_append,List.length_cons] at hlen
    obtain ⟨fuel,rfl⟩ : ∃ k, fuel = k + 1 := ⟨fuel - 1,by omega⟩
    obtain ⟨hwaits,hfails⟩ := hes e List.mem_cons_self
    obtain ⟨fuel',hfuel,heq⟩ := @ih fuel (offset + line.length + 1) (taken ++ f.take e)
      (fun e' he' => hes e' (List.mem_cons_of_mem _ he')) (by rw [List.length_append]; omega)
    refine ⟨fuel',hfuel,?_⟩
    rw [List.append_assoc,List.cons_append,consume_line hline ha,hparse]
    dsimp only
    rw [hwaits,if_neg Bool.false_ne_true,hfails]
    dsimp only
    rw [heq,List.length_append,List.length_cons,List.flatMap_cons,List.append_assoc]
    congr 1
    omega

theorem consume_stuck (h : Stuck r waits l) : consume r waits f fuel l offset taken = (taken,offset,none) := by
  rcases h with h | ⟨line,a,rest,e,rfl,hline,ha,hparse,hwaits⟩
  · exact consume_unended h
  · cases fuel with
    | zero => rfl
    | succ fuel =>
      rw [consume_line hline ha,hparse]
      dsimp only
      rw [if_pos hwaits]

/-- Every text is lines that may be read, and then text of which nothing can be read. -/
theorem lines_stuck (r : Reading A E) (waits : E → Bool) (l : List A) :
    ∃ front back es, l = front ++ back ∧ Lines r front es ∧ (∀ e ∈ es, waits e = false) ∧ Stuck r waits back := by
  apply Py.pieces_induction r.sep (P := fun l =>
    ∃ front back es, l = front ++ back ∧ Lines r front es ∧ (∀ e ∈ es, waits e = false) ∧ Stuck r waits back)
  case line =>
    intro l hl
    exact ⟨[],l,[],rfl,.nil,List.forall_mem_nil _,.inl hl⟩
  case more =>
    rintro line a rest hline ha ⟨front,back,es,rfl,hlines,hes,hstuck⟩
    cases hparse : r.parse line with
    | none => exact ⟨line ++ a :: front,back,es,by simp,.blank hline ha hparse hlines,hes,hstuck⟩
    | some e =>
      cases hwaits : waits e with
      | false =>
        exact ⟨line ++ a :: front,back,e :: es,by simp,.entry hline ha hparse hlines,List.forall_mem_cons.mpr ⟨hwaits,hes⟩,hstuck⟩
      | true => exact ⟨[],_,[],rfl,.nil,List.forall_mem_nil _,.inr ⟨line,a,_,e,rfl,hline,ha,hparse,hwaits⟩⟩

/-- What is read of lines with more text behind them. -/
theorem entries_append (h : Lines r front es) (hes : ∀ e ∈ es, waits e = false) (back : List A) :
    entries r waits (front ++ back) = es ++ entries r waits back := by
  obtain ⟨front',back',es',rfl,hlines,hes',hstuck⟩ := lines_stuck r waits back
  have hread : ∀ {front es} {back : List A}, Lines r front es → (∀ e ∈ es, waits e = false) → Stuck r waits back →
      entries r waits (front ++ back) = es := by
    intro front es back hlines hes hstuck
    obtain ⟨fuel,-,heq⟩ := @consume_lines _ _ _ _ r waits keep (front ++ back).length 0 [] _ back _ hlines
      (fun e he => ⟨hes e he,rfl⟩) (Nat.le_refl _)
    rw [entries,heq,consume_stuck hstuck]
    simp [keep]
  rw [hread hlines hes' hstuck,← List.append_assoc]
  exact hread (h.append hlines) (List.forall_mem_append.mpr ⟨hes,hes'⟩) hstuck

theorem entries_stuck (h : Stuck r waits l) : entries r waits l = [] := by
  rw [entries,consume_stuck h]

/-- What one call comes to: the text goes on behind the lines that were read, or the consumer gave up at the last of them. -/
structure Consumed (r : Reading A E) (waits : E → Bool) (f : Consumer E B X) (l : List A) (offset : ℕ) (taken : List B)
    (result : List B × ℕ × Option X) (front back : List A) (es : List E) : Prop where
  whole : l = front ++ back
  lines : Lines r front es
  read : ∀ e ∈ es, waits e = false
  taken : result.1 = taken ++ es.flatMap f.take
  offset : result.2.1 = offset + front.length
  ended : result.2.2 = none → Stuck r waits back ∧ ∀ e ∈ es, f.fails e = none
  failed : ∀ x, result.2.2 = some x → ∃ e ∈ es, f.fails e = some x

theorem Consumed.stuck (h : Stuck r waits l) : Consumed r waits f l offset taken (taken,offset,none) [] l [] := by
  refine ⟨rfl,.nil,List.forall_mem_nil _,(List.append_nil _).symm,rfl,?_,?_⟩
  · intro _
    exact ⟨h,List.forall_mem_nil _⟩
  · intro x hx
    cases hx

theorem consume_spec (hlen : l.length ≤ fuel) :
    ∃ front back es, Consumed r waits f l offset taken (consume r waits f fuel l offset taken) front back es := by
  induction l using Py.pieces_induction r.sep generalizing fuel offset taken with
  | line l hl =>
    refine ⟨[],l,[],?_⟩
    rw [consume_unended hl]
    exact .stuck (.inl hl)
  | more line a rest hline ha ih =>
    rw [List.length_append,List.length_cons] at hlen
    obtain ⟨fuel,rfl⟩ : ∃ k, fuel = k + 1 := ⟨fuel - 1,by omega⟩
    have hrest : rest.length ≤ fuel := by omega
    rw [consume_line hline ha]
    cases hparse : r.parse line with
    | none =>
      obtain ⟨front,back,es,h⟩ := @ih fuel (offset + line.length + 1) taken hrest
      refine ⟨line ++ a :: front,back,es,?_,.blank hline ha hparse h.lines,h.read,h.taken,?_,h.ended,h.failed⟩
      · rw [h.whole,List.append_assoc,List.cons_append]
      · rw [h.offset,List.length_append,List.length_cons]
        omega
    | some e =>
      dsimp only
      split
      · rename_i hwaits
        exact ⟨[],_,[],.stuck (.inr ⟨line,a,rest,e,rfl,hline,ha,hparse,hwaits⟩)⟩
      · rename_i hwaits
        rw [Bool.not_eq_true] at hwaits
        split
        · rename_i x hfails
          refine ⟨line ++ [a],rest,[e],by simp,.entry hline ha hparse .nil,List.forall_mem_singleton.mpr hwaits,by simp,?_,?_,?_⟩
          · rw [List.length_append]
            exact Nat.add_assoc _ _ _
          · intro hnone
            cases hnone
          · intro y hy
            cases hy
            exact ⟨e,List.mem_cons_self,hfails⟩
        · rename_i hfails
          obtain ⟨front,back,es,h⟩ := @ih fuel (offset + line.length + 1) (taken ++ f.take e) hrest
          refine ⟨line ++ a :: front,back,e :: es,?_,.entry hline ha hparse h.lines,
            List.forall_mem_cons.mpr ⟨hwaits,h.read⟩,?_,?_,?_,?_⟩
          · rw [h.whole,List.append_assoc,List.cons_append]
          · rw [h.taken,List.flatMap_cons,List.append_assoc]
          · rw [h.offset,List.length_append,List.length_cons]
            omega
          · intro hnone
            obtain ⟨hstuck,hnones⟩ := h.ended hnone
            exact ⟨hstuck,List.forall_mem_cons.mpr ⟨hfails,hnones⟩⟩
          · intro x hx
            obtain ⟨e',he',hx'⟩ := h.failed x hx
            exact ⟨e',List.mem_cons_of_mem _ he',hx'⟩

end Loop
end LineCursor
