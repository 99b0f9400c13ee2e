import Mathlib

/-! # Insertion-ordered dictionaries

A dictionary is the list of its items in insertion order. Assigning to a present
key keeps the position of the key, a new key goes to the end, and no key occurs
twice. Two dictionaries are the same when they answer every lookup alike.
-/
namespace Py
variable {K V : Type} [DecidableEq K]

/-- The items of a dictionary in insertion order, each key once. -/
structure Dict (K V : Type) where
  items : List (K × V)
  nodup : (items.map Prod.fst).Nodup
  deriving DecidableEq

namespace Dict

/-- Assignment on the bare item list: replace in place, or append. -/
def setItems : List (K × V) → K → V → List (K × V)
  | [], k, v => [(k,v)]
  | (a,b) :: rest, k, v => if a = k then (a,v) :: rest else (a,b) :: setItems rest k v

theorem setItems_keys (l : List (K × V)) (k : K) (v : V) :
    (setItems l k v).map Prod.fst =
      if k ∈ l.map Prod.fst then l.map Prod.fst else l.map Prod.fst ++ [k] := by
  induction l with
  | nil => simp [setItems]
  | cons p rest ih =>
    obtain ⟨a,b⟩ := p
    by_cases h : a = k
    · simp [setItems,h]
    · have h' : k ≠ a := fun e => h e.symm
      simp only [setItems,if_neg h,List.map_cons,ih,List.mem_cons,h',false_or]
      split <;> simp

theorem setItems_nodup {l : List (K × V)} (h : (l.map Prod.fst).Nodup) (k : K) (v : V) :
    ((setItems l k v).map Prod.fst).Nodup := by
  rw [setItems_keys]
  split
  · exact h
  · rename_i hk
    exact List.nodup_append.mpr ⟨h,by simp,by rintro a ha b hb rfl; simp_all⟩

def empty : Dict K V := ⟨[],by simp⟩
def keys (d : Dict K V) : List K := d.items.map Prod.fst
def get? (d : Dict K V) (k : K) : Option V := d.items.lookup k
def set (d : Dict K V) (k : K) (v : V) : Dict K V := ⟨setItems d.items k v,setItems_nodup d.nodup k v⟩

/-- `d.pop(k, None)`: drop the key when it is there. -/
def pop (d : Dict K V) (k : K) : Dict K V :=
  ⟨d.items.filter (fun p => p.1 ≠ k),(d.nodup.sublist (List.filter_sublist.map Prod.fst))⟩

/-- `d.update(items)`: assign the items one after the other. -/
def update (d : Dict K V) (items : List (K × V)) : Dict K V := items.foldl (fun e p => e.set p.1 p.2) d

def ofList (items : List (K × V)) : Dict K V := empty.update items

/-- Change the value of a key that is there. -/
def modify (d : Dict K V) (k : K) (f : V → V) : Dict K V :=
  match d.get? k with
  | none => d
  | some v => d.set k (f v)

/-- The same keys with other values. -/
def mapVal {W : Type} (d : Dict K V) (f : K → V → W) : Dict K W :=
  ⟨d.items.map fun p => (p.1,f p.1 p.2),by simpa [Function.comp_def] using d.nodup⟩

/-- The items whose key passes a test. -/
def filterKeys (d : Dict K V) (p : K → Bool) : Dict K V :=
  ⟨d.items.filter fun q => p q.1,d.nodup.sublist (List.filter_sublist.map Prod.fst)⟩

/-- Equality of dictionaries as Python compares them: the order of the keys does not count. -/
def Same (d e : Dict K V) : Prop := ∀ k, d.get? k = e.get? k

instance : Inhabited (Dict K V) := ⟨empty⟩

omit [DecidableEq K] in
@[simp] theorem empty_items : (empty : Dict K V).items = [] := rfl
omit [DecidableEq K] in
@[simp] theorem keys_empty : (empty : Dict K V).keys = [] := rfl
@[simp] theorem get?_empty (k : K) : (empty : Dict K V).get? k = none := rfl

omit [DecidableEq K] in
@[ext] theorem ext_items {d e : Dict K V} (h : d.items = e.items) : d = e := by
  cases d; cases e; simp_all

theorem get?_eq_none_iff {d : Dict K V} {k : K} : d.get? k = none ↔ k ∉ d.keys := by
  simp only [get?,keys,List.lookup_eq_none_iff,List.mem_map,Prod.exists,exists_and_right,
    exists_eq_right,not_exists,Prod.forall,bne_iff_ne,ne_eq]
  constructor
  · intro h v hv
    exact h k v hv rfl
  · rintro h a b hab rfl
    exact h b hab

theorem mem_keys_iff {d : Dict K V} {k : K} : k ∈ d.keys ↔ ∃ v, d.get? k = some v := by
  rw [← not_iff_not,← get?_eq_none_iff]
  simp [Option.eq_none_iff_forall_ne_some]

theorem keys_set (d : Dict K V) (k : K) (v : V) :
    (d.set k v).keys = if k ∈ d.keys then d.keys else d.keys ++ [k] := setItems_keys d.items k v

theorem keys_pop (d : Dict K V) (k : K) : (d.pop k).keys = d.keys.filter (· ≠ k) := by
  simp [keys,pop,List.filter_map,Function.comp_def]

theorem length_set_of_mem {d : Dict K V} {k : K} (h : k ∈ d.keys) (v : V) :
    (d.set k v).items.length = d.items.length := by
  have h' := congrArg List.length (d.keys_set k v)
  rw [if_pos h] at h'
  simpa [keys] using h'

theorem length_set_le (d : Dict K V) (k : K) (v : V) : (d.set k v).items.length ≤ d.items.length + 1 := by
  by_cases h : k ∈ d.keys
  · rw [length_set_of_mem h]
    exact Nat.le_succ _
  · have h' := congrArg List.length (d.keys_set k v)
    rw [if_neg h] at h'
    have hlength : (d.set k v).items.length = d.items.length + 1 := by simpa [keys] using h'
    exact Nat.le_of_eq hlength

theorem length_pop_le (d : Dict K V) (k : K) : (d.pop k).items.length ≤ d.items.length :=
  List.length_filter_le ..

theorem lookup_cons (a j : K) (b : V) (l : List (K × V)) :
    ((a,b) :: l).lookup j = if j = a then some b else l.lookup j := by
  by_cases h : j = a
  · simp [List.lookup,h]
  · have hb : (j == a) = false := by simpa using h
    simp [List.lookup,h,hb]

theorem lookup_setItems (l : List (K × V)) (k j : K) (v : V) :
    (setItems l k v).lookup j = if j = k then some v else l.lookup j := by
  induction l with
  | nil => simp [setItems,lookup_cons]
  | cons p rest ih =>
    obtain ⟨a,b⟩ := p
    by_cases ha : a = k
    · subst ha
      by_cases hj : j = a <;> simp [setItems,lookup_cons,hj]
    · by_cases hj : j = a
      · subst hj
        simp [setItems,ha]
      · simp [setItems,if_neg ha,lookup_cons,hj,ih]

theorem get?_set (d : Dict K V) (k j : K) (v : V) :
    (d.set k v).get? j = if j = k then some v else d.get? j := lookup_setItems d.items k j v

@[simp] theorem get?_set_self (d : Dict K V) (k : K) (v : V) : (d.set k v).get? k = some v := by
  simp [get?_set]

theorem get?_set_ne (d : Dict K V) {k j : K} (h : j ≠ k) (v : V) : (d.set k v).get? j = d.get? j := by
  simp [get?_set,h]

theorem lookup_filter_ne (l : List (K × V)) (k j : K) :
    (l.filter (fun p => p.1 ≠ k)).lookup j = if j = k then none else l.lookup j := by
  induction l with
  | nil => simp
  | cons p rest ih =>
    obtain ⟨a,b⟩ := p
    by_cases ha : a = k
    · rw [List.filter_cons_of_neg (by simp [ha]),ih,lookup_cons,ha]
      split <;> rfl
    · by_cases hj : j = a
      · subst hj
        simp [ha]
      · simpa [lookup_cons,ha,hj] using ih

theorem get?_pop (d : Dict K V) (k j : K) :
    (d.pop k).get? j = if j = k then none else d.get? j := lookup_filter_ne d.items k j

theorem get?_modify (d : Dict K V) (k j : K) (f : V → V) :
    (d.modify k f).get? j = if j = k then (d.get? j).map f else d.get? j := by
  unfold modify
  by_cases h : j = k
  · subst h
    cases hg : d.get? j <;> simp [hg]
  · cases hg : d.get? k <;> simp [get?_set,h]

theorem modify_cases {d : Dict K V} {k j : K} {f : V → V} {v : V} (h : (d.modify k f).get? j = some v) :
    ∃ v', d.get? j = some v' ∧ (j = k ∧ v = f v' ∨ j ≠ k ∧ v = v') := by
  rw [get?_modify] at h
  split at h
  · rename_i he
    obtain ⟨v',hv',rfl⟩ := Option.map_eq_some_iff.mp h
    exact ⟨v',hv',.inl ⟨he,rfl⟩⟩
  · rename_i he
    exact ⟨v,h,.inr ⟨he,rfl⟩⟩

theorem isSome_modify {d : Dict K V} {k : K} {f : V → V} (j : K) (h : (d.get? j).isSome) :
    ((d.modify k f).get? j).isSome := by
  rw [get?_modify]
  split <;> simpa using h

theorem get?_mapVal {W : Type} (d : Dict K V) (f : K → V → W) (k : K) :
    (d.mapVal f).get? k = (d.get? k).map (f k) := by
  obtain ⟨l,hl⟩ := d
  simp only [mapVal,get?]
  clear hl
  induction l with
  | nil => rfl
  | cons p rest ih =>
    obtain ⟨a,b⟩ := p
    rw [List.map_cons,lookup_cons,lookup_cons,ih]
    by_cases h : k = a
    · simp [h]
    · simp [h]

theorem get?_filterKeys (d : Dict K V) (p : K → Bool) (k : K) :
    (d.filterKeys p).get? k = if p k then d.get? k else none := by
  obtain ⟨l,hl⟩ := d
  simp only [filterKeys,get?]
  clear hl
  induction l with
  | nil => simp
  | cons q rest ih =>
    obtain ⟨a,b⟩ := q
    by_cases hk : k = a
    · subst hk
      by_cases hp : p k
      · simp [hp]
      · rw [List.filter_cons_of_neg (by simpa using hp),ih]
        simp [hp]
    · by_cases hp : p a
      · rw [List.filter_cons_of_pos (by simpa using hp),lookup_cons,lookup_cons,if_neg hk,if_neg hk,ih]
      · rw [List.filter_cons_of_neg (by simpa using hp),lookup_cons,if_neg hk,ih]

/-- A dictionary made from a list answers with the last item of a key. -/
theorem get?_ofList (items : List (K × V)) (k : K) :
    (ofList items).get? k = ((items.filter (·.1 = k)).getLast?).map Prod.snd := by
  suffices h : ∀ d : Dict K V, (d.update items).get? k =
      (((items.filter (·.1 = k)).getLast?).map Prod.snd).or (d.get? k) by
    simpa [ofList] using h empty
  induction items with
  | nil => simp [update]
  | cons p rest ih =>
    intro d
    have hstep : d.update (p :: rest) = (d.set p.1 p.2).update rest := rfl
    rw [hstep,ih,get?_set]
    by_cases hp : p.1 = k
    · subst hp
      cases hr : (rest.filter (·.1 = p.1)).getLast? with
      | none => simp [List.getLast?_cons,hr]
      | some q => simp [List.getLast?_cons,hr]
    · have hne : ¬ k = p.1 := fun e => hp e.symm
      simp [hp,hne]

/-- Of a list of records, the last one that matches a key. -/
theorem get?_ofList_filterMap {A : Type} (l : List A) (f : A → Option (K × V)) (k : K) (sel : A → Bool)
    (value : A → V) (hm : ∀ a ∈ l, sel a = true → f a = some (k,value a))
    (hn : ∀ a ∈ l, sel a = false → ∀ v, f a ≠ some (k,v)) :
    (ofList (l.filterMap f)).get? k = ((l.filter sel).getLast?).map value := by
  have hfilter : (l.filterMap f).filter (·.1 = k) = (l.filter sel).map fun a => (k,value a) := by
    induction l with
    | nil => rfl
    | cons a rest ih =>
      have ih' := ih (fun b hb => hm b (List.mem_cons_of_mem _ hb)) fun b hb => hn b (List.mem_cons_of_mem _ hb)
      cases hma : sel a with
      | true =>
        rw [List.filterMap_cons_some (hm a List.mem_cons_self hma),List.filter_cons_of_pos hma,List.map_cons,
          List.filter_cons_of_pos (by simp),ih']
      | false =>
        rw [List.filter_cons_of_neg (by simp [hma])]
        cases hf : f a with
        | none => rw [List.filterMap_cons_none hf,ih']
        | some p =>
          have hne : ¬ p.1 = k := by
            rintro rfl
            exact hn a List.mem_cons_self hma p.2 hf
          rw [List.filterMap_cons_some hf,List.filter_cons_of_neg (by simpa using hne),ih']
  rw [get?_ofList,hfilter,List.getLast?_map,Option.map_map]
  rfl

theorem update_nil (d : Dict K V) : d.update [] = d := rfl
theorem update_cons (d : Dict K V) (p : K × V) (items : List (K × V)) :
    d.update (p :: items) = (d.set p.1 p.2).update items := rfl

/-- Keys that the items do not name are as before the update. -/
theorem get?_update_of_notMem (d : Dict K V) {items : List (K × V)} {k : K}
    (h : k ∉ items.map Prod.fst) : (d.update items).get? k = d.get? k := by
  induction items generalizing d with
  | nil => rfl
  | cons p rest ih =>
    simp only [List.map_cons,List.mem_cons,not_or] at h
    rw [update_cons,ih _ h.2,get?_set_ne _ h.1]

/-- A value after an update was there before, or an item brought it. -/
theorem update_cases {d : Dict K V} {items : List (K × V)} {k : K} {v : V} (h : (d.update items).get? k = some v) :
    d.get? k = some v ∨ (k,v) ∈ items := by
  induction items generalizing d with
  | nil => exact .inl h
  | cons p rest ih =>
    rcases ih h with h | h
    · rw [get?_set] at h
      split at h
      · rename_i he
        obtain rfl := Option.some.inj h
        exact .inr (he ▸ List.mem_cons_self)
      · exact .inl h
    · exact .inr (List.mem_cons_of_mem _ h)

/-- An update removes no key. -/
theorem isSome_update {d : Dict K V} (items : List (K × V)) {k : K} (h : (d.get? k).isSome) :
    ((d.update items).get? k).isSome := by
  induction items generalizing d with
  | nil => exact h
  | cons p rest ih =>
    apply ih
    rw [get?_set]
    split
    · rfl
    · exact h

theorem setItems_of_notMem {l : List (K × V)} {k : K} (h : k ∉ l.map Prod.fst) (v : V) :
    setItems l k v = l ++ [(k,v)] := by
  induction l with
  | nil => rfl
  | cons p rest ih =>
    simp only [List.map_cons,List.mem_cons,not_or] at h
    have hne : p.1 ≠ k := fun e => h.1 e.symm
    simp [setItems,if_neg hne,ih h.2]

/-- New keys are appended in the order they come. -/
theorem update_items {d : Dict K V} {items : List (K × V)} (hn : (items.map Prod.fst).Nodup)
    (hd : ∀ k ∈ items.map Prod.fst, k ∉ d.keys) : (d.update items).items = d.items ++ items := by
  induction items generalizing d with
  | nil => simp [update_nil]
  | cons p rest ih =>
    simp only [List.map_cons,List.nodup_cons] at hn
    have hp : p.1 ∉ d.keys := hd p.1 (by simp)
    have hs : (d.set p.1 p.2).items = d.items ++ [p] := setItems_of_notMem hp p.2
    rw [update_cons,ih hn.2,hs,List.append_assoc,List.singleton_append]
    intro k hk
    rw [keys_set,if_neg hp,List.mem_append,List.mem_singleton,not_or]
    exact ⟨hd k (List.mem_cons_of_mem _ hk),fun e => hn.1 (e ▸ hk)⟩

/-- A dictionary made from items with distinct keys answers like the items. -/
theorem get?_ofList_of_nodup {items : List (K × V)} (hn : (items.map Prod.fst).Nodup) (k : K) :
    (ofList items).get? k = items.lookup k := by
  rw [get?,ofList,update_items hn (by simp),empty_items,List.nil_append]

theorem setItems_mapSnd {W : Type} (f : V → W) (l : List (K × V)) (k : K) (v : V) :
    setItems (l.map fun p => (p.1,f p.2)) k (f v) = (setItems l k v).map fun p => (p.1,f p.2) := by
  induction l with
  | nil => rfl
  | cons p l ih =>
    rw [List.map_cons,setItems,setItems]
    split
    · rfl
    · rw [ih,List.map_cons]

theorem set_mapVal {W : Type} (d : Dict K V) (f : V → W) (k : K) (v : V) :
    (d.set k v).mapVal (fun _ v => f v) = (d.mapVal fun _ v => f v).set k (f v) :=
  ext_items (setItems_mapSnd f d.items k v).symm

theorem pop_mapVal {W : Type} (d : Dict K V) (k : K) (f : V → W) :
    (d.mapVal fun _ v => f v).pop k = (d.pop k).mapVal fun _ v => f v := by
  apply ext_items
  simp [pop,mapVal,List.filter_map,Function.comp_def]

/-- A dictionary of images is the image of the dictionary. -/
theorem ofList_mapSnd {W : Type} (f : V → W) (l : List (K × V)) :
    (ofList (l.map fun p => (p.1,f p.2))).items = (ofList l).items.map fun p => (p.1,f p.2) := by
  have hfold : ∀ (l : List (K × V)) (d : Dict K V) (e : Dict K W), e.items = d.items.map (fun p => (p.1,f p.2)) →
      (e.update (l.map fun p => (p.1,f p.2))).items = (d.update l).items.map fun p => (p.1,f p.2) := by
    intro l
    induction l with
    | nil => exact fun _ _ h => h
    | cons p l ih =>
      intro d e h
      rw [List.map_cons,update_cons,update_cons]
      apply ih
      show setItems e.items p.1 (f p.2) = _
      rw [h,setItems_mapSnd]
      rfl
  exact hfold l empty empty rfl

omit [DecidableEq K] in
theorem keys_eq_nil_iff {d : Dict K V} : d.keys = [] ↔ d = empty := by
  constructor
  · intro h
    exact ext_items (List.map_eq_nil_iff.mp h)
  · rintro rfl
    rfl

theorem get?_of_mem {d : Dict K V} {k : K} {v : V} (h : (k,v) ∈ d.items) : d.get? k = some v := by
  have hn := d.nodup
  unfold get?
  generalize d.items = l at h hn
  induction l with
  | nil => cases h
  | cons p rest ih =>
    obtain ⟨a,b⟩ := p
    simp only [List.map_cons,List.nodup_cons] at hn
    rw [lookup_cons]
    rcases List.mem_cons.mp h with he | hr
    · obtain ⟨rfl,rfl⟩ := Prod.mk.inj he
      simp
    · have hne : k ≠ a := by
        rintro rfl
        exact hn.1 (List.mem_map_of_mem hr)
      rw [if_neg hne]
      exact ih hr hn.2

theorem mem_of_get? {d : Dict K V} {k : K} {v : V} (h : d.get? k = some v) : (k,v) ∈ d.items := by
  obtain ⟨⟨k',v'⟩,hmem,hk⟩ := List.mem_map.mp (mem_keys_iff.mpr ⟨v,h⟩)
  obtain rfl : k' = k := hk
  rw [get?_of_mem hmem] at h
  exact Option.some.inj h ▸ hmem

/-- The keys in order and the lookups determine a dictionary. -/
theorem ext_get? {d e : Dict K V} (hk : d.keys = e.keys) (hg : ∀ k, d.get? k = e.get? k) : d = e := by
  apply ext_items
  have hlen : d.items.length = e.items.length := by simpa [keys] using congrArg List.length hk
  refine List.ext_getElem hlen fun i hd he => ?_
  have hkey : d.items[i].1 = e.items[i].1 := by
    have := List.getElem_of_eq hk (i := i) (by simpa [keys] using hd)
    simpa [keys] using this
  have h1 : d.get? d.items[i].1 = some d.items[i].2 := get?_of_mem (List.getElem_mem hd)
  have h2 : e.get? e.items[i].1 = some e.items[i].2 := get?_of_mem (List.getElem_mem he)
  rw [hg,hkey,h2] at h1
  exact Prod.ext hkey (Option.some.inj h1).symm

/-- Dropping a key that was assigned first leaves what was there. -/
theorem pop_set_of_none {d : Dict K V} {k : K} (h : d.get? k = none) (v : V) : (d.set k v).pop k = d := by
  have hk := get?_eq_none_iff.mp h
  apply ext_get?
  · rw [keys_pop,keys_set,if_neg hk,List.filter_append,List.filter_eq_self.mpr]
    · simp
    · intro j hj
      simp only [ne_eq,decide_not,Bool.not_eq_true',decide_eq_false_iff_not]
      rintro rfl
      exact hk hj
  · intro j
    rw [get?_pop,get?_set]
    split
    · rename_i hj
      rw [hj,h]
    · rfl

/-- Assigning the value a key had leaves what was there. -/
theorem set_set_of_some {d : Dict K V} {k : K} {v : V} (h : d.get? k = some v) (w : V) : (d.set k w).set k v = d := by
  have hk : k ∈ d.keys := mem_keys_iff.mpr ⟨v,h⟩
  apply ext_get?
  · rw [keys_set,keys_set,if_pos hk,if_pos hk]
  · intro j
    rw [get?_set,get?_set]
    split
    · rename_i hj
      rw [hj,h]
    · rfl

theorem Same.refl (d : Dict K V) : d.Same d := fun _ => rfl
theorem Same.symm {d e : Dict K V} (h : d.Same e) : e.Same d := fun k => (h k).symm
theorem Same.trans {d e f : Dict K V} (h : d.Same e) (h' : e.Same f) : d.Same f :=
  fun k => (h k).trans (h' k)

theorem mem_of_mem_ofList {l : List (K × V)} {p : K × V} (h : p ∈ (ofList l).items) : p ∈ l := by
  have hget : (ofList l).get? p.1 = some p.2 := get?_of_mem h
  rw [get?_ofList] at hget
  obtain ⟨q,hq,hsnd⟩ := Option.map_eq_some_iff.mp hget
  obtain ⟨hmem,hfst⟩ := List.mem_filter.mp (List.mem_of_getLast? hq)
  rw [decide_eq_true_eq] at hfst
  have hpq : p = q := Prod.ext hfst.symm hsnd.symm
  rw [hpq]
  exact hmem

end Dict
end Py
