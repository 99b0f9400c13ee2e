import Reyn.Lib.JsonText

/-! # Values of the language

What a YAML loader builds: the items of a container and the keys of a mapping are any
values. A value of a type that JSON has no form for is kept by its type, by what it holds
and by its `str`. A mapping keeps its members in order.
-/
namespace Py

inductive Value where
  | none
  | bool (b : Bool)
  | int (i : Int)
  | float (f : FloatLit)
  | str (s : String)
  | other (type data text : String)
  | tuple (items : List Value)
  | list (items : List Value)
  | dict (fields : List (Value × Value))
  deriving Inhabited

namespace Value

mutual
def beq : Value → Value → Bool
  | none, none => true
  | bool a, bool b => a == b
  | int a, int b => a == b
  | float a, float b => a == b
  | str a, str b => a == b
  | other a x t, other b y u => a == b && (x == y && t == u)
  | tuple xs, tuple ys => beqItems xs ys
  | list xs, list ys => beqItems xs ys
  | dict xs, dict ys => beqFields xs ys
  | _, _ => false
termination_by structural a => a
def beqItems : List Value → List Value → Bool
  | [], [] => true
  | x :: xs, y :: ys => beq x y && beqItems xs ys
  | _, _ => false
termination_by structural a => a
def beqFields : List (Value × Value) → List (Value × Value) → Bool
  | [], [] => true
  | (a,x) :: xs, (b,y) :: ys => beq a b && (beq x y && beqFields xs ys)
  | _, _ => false
termination_by structural a => a
end

mutual
theorem beq_iff : ∀ a b, beq a b = true ↔ a = b
  | none, b | bool _, b | int _, b | float _, b | str _, b | other _ _ _, b => by cases b <;> simp [beq]
  | tuple xs, b => by cases b <;> simp [beq,beqItems_iff xs]
  | list xs, b => by cases b <;> simp [beq,beqItems_iff xs]
  | dict xs, b => by cases b <;> simp [beq,beqFields_iff xs]
theorem beqItems_iff : ∀ xs ys, beqItems xs ys = true ↔ xs = ys
  | [], ys => by cases ys <;> simp [beqItems]
  | x :: xs, ys => by cases ys <;> simp [beqItems,beq_iff x,beqItems_iff xs]
theorem beqFields_iff : ∀ xs ys, beqFields xs ys = true ↔ xs = ys
  | [], ys => by cases ys <;> simp [beqFields]
  | (a,x) :: xs, ys => by cases ys <;> simp [beqFields,beq_iff a,beq_iff x,beqFields_iff xs,Prod.ext_iff,and_assoc]
end

instance : DecidableEq Value := fun a b => decidable_of_iff _ (beq_iff a b)

/-- The member of a mapping under a name. -/
def get? (fields : List (Value × Value)) (key : String) : Option Value := fields.lookup (.str key)

/-- An optional string: `None` when there is none. -/
def ofStr? : Option String → Value
  | some s => .str s
  | Option.none => .none

/-! ## `json.dumps` with `default=str`, and what is read back -/

/-- Integers of more than 4300 digits have no text. -/
@[irreducible] def hasText (i : Int) : Bool := i.natAbs < 10 ^ 4300

/-- The text of a key; `none` where the writer raises. -/
def keyText : Value → Option String
  | none => some "null"
  | bool b => some (if b then "true" else "false")
  | int i => if hasText i then some (String.ofList (Json.intText i)) else Option.none
  | float f => some (String.ofList f.text)
  | str s => some s
  | other _ _ _ | tuple _ | list _ | dict _ => Option.none

mutual
/-- The tree that is written; `none` where the writer raises. -/
def toJson : Value → Option Json
  | none => some .null
  | bool b => some (.bool b)
  | int i => if hasText i then some (.int i) else Option.none
  | float f => some (.float f)
  | str s | other _ _ s => some (.str s)
  | tuple xs | list xs => (toJsonItems xs).map .arr
  | dict fields => (toJsonFields fields).map .obj
def toJsonItems : List Value → Option (List Json)
  | [] => some []
  | x :: xs => (toJson x).bind fun j => (toJsonItems xs).map (j :: ·)
def toJsonFields : List (Value × Value) → Option (List (String × Json))
  | [] => some []
  | (k,v) :: rest => (keyText k).bind fun t => (toJson v).bind fun j => (toJsonFields rest).map ((t,j) :: ·)
end

mutual
def ofJson : Json → Value
  | .null => none
  | .bool b => bool b
  | .int i => int i
  | .float f => float f
  | .str s => str s
  | .arr xs => list (ofJsonItems xs)
  | .obj fields => dict (ofJsonFields fields)
def ofJsonItems : List Json → List Value
  | [] => []
  | x :: xs => ofJson x :: ofJsonItems xs
def ofJsonFields : List (String × Json) → List (Value × Value)
  | [] => []
  | (k,v) :: rest => (str k,ofJson v) :: ofJsonFields rest
end

/-- Members under the texts of their keys: of two keys with one text the first place and the last value stay. -/
def retext {A : Type} (fields : List (Value × A)) : List (Value × A) :=
  (Dict.ofList (fields.map fun p => ((keyText p.1).getD "",p.2))).items.map fun p => (str p.1,p.2)

mutual
/-- A value after a text of it was written and read. -/
def reload : Value → Value
  | none => none
  | bool b => bool b
  | int i => int i
  | float f => float f
  | str s | other _ _ s => str s
  | tuple xs | list xs => list (reloadItems xs)
  | dict fields => dict (retext (reloadFields fields))
def reloadItems : List Value → List Value
  | [] => []
  | x :: xs => reload x :: reloadItems xs
def reloadFields : List (Value × Value) → List (Value × Value)
  | [] => []
  | (k,v) :: rest => (k,reload v) :: reloadFields rest
end

/-- A key that is a text. -/
def isText : Value → Bool
  | str _ => true
  | _ => false

mutual
/-- What JSON has a form for: no other types, no tuples, texts for keys. -/
def plain : Value → Bool
  | none | bool _ | int _ | float _ | str _ => true
  | other _ _ _ | tuple _ => false
  | list xs => plainItems xs
  | dict fields => plainFields fields
def plainItems : List Value → Bool
  | [] => true
  | x :: xs => plain x && plainItems xs
def plainFields : List (Value × Value) → Bool
  | [] => true
  | (k,v) :: rest => isText k && (plain v && plainFields rest)
end

mutual
/-- How deep containers lie in one another. -/
def depth : Value → ℕ
  | none | bool _ | int _ | float _ | str _ | other _ _ _ => 0
  | tuple xs | list xs => depthItems xs + 1
  | dict fields => depthFields fields + 1
def depthItems : List Value → ℕ
  | [] => 0
  | x :: xs => max (depth x) (depthItems xs)
def depthFields : List (Value × Value) → ℕ
  | [] => 0
  | (_,v) :: rest => max (depth v) (depthFields rest)
end

mutual
/-- No mapping has a key twice. -/
def wf : Value → Bool
  | none | bool _ | int _ | float _ | str _ | other _ _ _ => true
  | tuple xs | list xs => wfItems xs
  | dict fields => (fields.map Prod.fst).Nodup && wfFields fields
def wfItems : List Value → Bool
  | [] => true
  | x :: xs => wf x && wfItems xs
def wfFields : List (Value × Value) → Bool
  | [] => true
  | (_,v) :: rest => wf v && wfFields rest
end

mutual
/-- The writer has a text for every key and every integer inside. -/
def writable : Value → Bool
  | none | bool _ | float _ | str _ | other _ _ _ => true
  | int i => hasText i
  | tuple xs | list xs => writableItems xs
  | dict fields => writableFields fields
def writableItems : List Value → Bool
  | [] => true
  | x :: xs => writable x && writableItems xs
def writableFields : List (Value × Value) → Bool
  | [] => true
  | (k,v) :: rest => (keyText k).isSome && (writable v && writableFields rest)
end

mutual
/-- No member is of a type that only `str` can write. -/
def native : Value → Bool
  | none | bool _ | int _ | float _ | str _ => true
  | other _ _ _ => false
  | tuple xs | list xs => nativeItems xs
  | dict fields => nativeFields fields
def nativeItems : List Value → Bool
  | [] => true
  | x :: xs => native x && nativeItems xs
def nativeFields : List (Value × Value) → Bool
  | [] => true
  | (_,v) :: rest => native v && nativeFields rest
end

/-- A value that a text of it gives back. -/
def kept (v : Value) : Bool := wf v && plain v

theorem isText_iff {k : Value} : isText k = true ↔ ∃ s, k = str s := by
  cases k <;> simp [isText]

section Retext
variable {A B : Type} {fields : List (Value × A)}

theorem retext_map (f : A → B) : retext (fields.map fun p => (p.1,f p.2)) = (retext fields).map fun p => (p.1,f p.2) := by
  have hmap := Dict.ofList_mapSnd f (fields.map fun p => ((keyText p.1).getD "",p.2))
  rw [List.map_map] at hmap
  rw [retext,retext,List.map_map,List.map_map]
  exact (congrArg (List.map fun p => (str p.1,p.2)) hmap).trans (by rw [List.map_map])

theorem isText_retext {p : Value × A} (h : p ∈ retext fields) : isText p.1 = true := by
  obtain ⟨q,-,rfl⟩ := List.mem_map.mp h
  rfl

theorem mem_retext {p : Value × A} (h : p ∈ retext fields) : ∃ k, (k,p.2) ∈ fields ∧ p.1 = str ((keyText k).getD "") := by
  obtain ⟨q,hq,rfl⟩ := List.mem_map.mp h
  obtain ⟨r,hr,rfl⟩ := List.mem_map.mp (Dict.mem_of_mem_ofList hq)
  exact ⟨r.1,hr,rfl⟩

/-- Distinct texts stay as they are. -/
theorem retext_of_texts (ht : ∀ p ∈ fields, isText p.1 = true) (hn : (fields.map Prod.fst).Nodup) : retext fields = fields := by
  have hkey : ∀ p ∈ fields, str ((keyText p.1).getD "") = p.1 := by
    intro p hp
    obtain ⟨s,hs⟩ := isText_iff.mp (ht p hp)
    rw [hs]
    rfl
  have hnodup : ((fields.map fun p => ((keyText p.1).getD "",p.2)).map Prod.fst).Nodup := by
    have hkeys : ((fields.map fun p => ((keyText p.1).getD "",p.2)).map Prod.fst).map str = fields.map Prod.fst := by
      rw [List.map_map,List.map_map]
      exact List.map_congr_left hkey
    exact List.Nodup.of_map str (hkeys ▸ hn)
  have hitems := Dict.update_items (d := (Dict.empty : Dict String A)) hnodup nofun
  rw [retext,Dict.ofList,hitems]
  show List.map _ (List.map _ fields) = _
  rw [List.map_map]
  refine (List.map_congr_left fun p hp => ?_).trans (List.map_id fields)
  rw [Function.comp_apply,hkey p hp]
  rfl

theorem retext_eq_iff (hn : (fields.map Prod.fst).Nodup) : retext fields = fields ↔ ∀ p ∈ fields, isText p.1 = true := by
  constructor
  · intro he p hp
    rw [← he] at hp
    exact isText_retext hp
  · intro ht
    exact retext_of_texts ht hn

end Retext

mutual
theorem native_of_plain : ∀ {v : Value}, plain v = true → native v = true
  | none, _ | bool _, _ | int _, _ | float _, _ | str _, _ => rfl
  | list xs, h => nativeItems_of_plain h
  | dict fields, h => nativeFields_of_plain h
theorem nativeItems_of_plain : ∀ {xs : List Value}, plainItems xs = true → nativeItems xs = true
  | [], _ => rfl
  | x :: xs, h => by
    rw [plainItems,Bool.and_eq_true] at h
    rw [nativeItems,native_of_plain h.1,nativeItems_of_plain h.2]
    rfl
theorem nativeFields_of_plain : ∀ {fields : List (Value × Value)}, plainFields fields = true → nativeFields fields = true
  | [], _ => rfl
  | (k,v) :: rest, h => by
    rw [plainFields,Bool.and_eq_true,Bool.and_eq_true] at h
    rw [nativeFields,native_of_plain h.2.1,nativeFields_of_plain h.2.2]
    rfl
end

theorem ofJsonFields_eq_map : ∀ fields, ofJsonFields fields = fields.map fun p => (str p.1,ofJson p.2)
  | [] => rfl
  | (k,v) :: rest => congrArg ((str k,ofJson v) :: ·) (ofJsonFields_eq_map rest)

theorem reloadItems_eq_map : ∀ xs, reloadItems xs = xs.map reload
  | [] => rfl
  | x :: xs => congrArg (reload x :: ·) (reloadItems_eq_map xs)

theorem reloadFields_eq_map : ∀ fields, reloadFields fields = fields.map fun p => (p.1,reload p.2)
  | [] => rfl
  | (k,v) :: rest => congrArg ((k,reload v) :: ·) (reloadFields_eq_map rest)

theorem plainFields_iff : ∀ {fields}, plainFields fields = true ↔ ∀ p ∈ fields, isText p.1 = true ∧ plain p.2 = true
  | [] => by simp [plainFields]
  | (k,v) :: rest => by simp [plainFields,@plainFields_iff rest,and_assoc]

theorem plainItems_iff : ∀ {xs}, plainItems xs = true ↔ ∀ x ∈ xs, plain x = true
  | [] => by simp [plainItems]
  | x :: xs => by simp [plainItems,@plainItems_iff xs]

mutual
/-- What a file of the value reads back as. -/
theorem ofJson_reread : ∀ {v : Value} {j : Json}, toJson v = some j → ofJson j.reread = reload v
  | none, _, h | bool _, _, h | float _, _, h | str _, _, h | other _ _ _, _, h => by
    cases h
    rfl
  | int i, _, h => by
    obtain ⟨-,hj⟩ := Option.ite_none_right_eq_some.mp h
    cases hj
    rfl
  | tuple xs, _, h | list xs, _, h => by
    obtain ⟨js,hjs,rfl⟩ := Option.map_eq_some_iff.mp h
    exact congrArg list (ofJson_rereadItems hjs)
  | dict fields, _, h => by
    obtain ⟨js,hjs,rfl⟩ := Option.map_eq_some_iff.mp h
    have hfields := ofJson_rereadFields hjs
    show dict (ofJsonFields (Json.collapse (Json.rereadFields js))) = dict (retext (reloadFields fields))
    rw [ofJsonFields_eq_map,retext,← hfields,Dict.ofList_mapSnd,List.map_map]
    rfl
theorem ofJson_rereadItems : ∀ {xs : List Value} {js : List Json}, toJsonItems xs = some js →
    ofJsonItems (Json.rereadItems js) = reloadItems xs
  | [], _, h => by
    cases h
    rfl
  | x :: xs, _, h => by
    obtain ⟨j,hj,h⟩ := Option.bind_eq_some_iff.mp h
    obtain ⟨js,hjs,rfl⟩ := Option.map_eq_some_iff.mp h
    show ofJson j.reread :: ofJsonItems (Json.rereadItems js) = reload x :: reloadItems xs
    rw [ofJson_reread hj,ofJson_rereadItems hjs]
theorem ofJson_rereadFields : ∀ {fields : List (Value × Value)} {js : List (String × Json)}, toJsonFields fields = some js →
    ((Json.rereadFields js).map fun p => (p.1,ofJson p.2)) = (reloadFields fields).map fun p => ((keyText p.1).getD "",p.2)
  | [], _, h => by
    cases h
    rfl
  | (k,v) :: rest, _, h => by
    obtain ⟨t,ht,h⟩ := Option.bind_eq_some_iff.mp h
    obtain ⟨j,hj,h⟩ := Option.bind_eq_some_iff.mp h
    obtain ⟨js,hjs,rfl⟩ := Option.map_eq_some_iff.mp h
    show (t,ofJson j.reread) :: (Json.rereadFields js).map (fun p => (p.1,ofJson p.2)) =
      ((keyText k).getD "",reload v) :: (reloadFields rest).map fun p => ((keyText p.1).getD "",p.2)
    rw [ofJson_reread hj,ofJson_rereadFields hjs,ht]
    rfl
end

theorem map_eq_self_iff {A : Type} {f : A → A} {l : List A} : l.map f = l ↔ ∀ a ∈ l, f a = a := by
  have hid : l.map f = l ↔ l.map f = l.map id := by rw [List.map_id]
  rw [hid]
  exact List.map_inj_left

/-- Members that keep their keys and their values. -/
theorem retext_map_eq_iff {A : Type} {f : A → A} {fields : List (Value × A)} (hn : (fields.map Prod.fst).Nodup) :
    retext (fields.map fun p => (p.1,f p.2)) = fields ↔ ∀ p ∈ fields, isText p.1 = true ∧ f p.2 = p.2 := by
  constructor
  · intro he
    have ht : ∀ p ∈ fields, isText p.1 = true := by
      intro p hp
      rw [← he] at hp
      exact isText_retext hp
    rw [retext_map,retext_of_texts ht hn] at he
    intro p hp
    exact ⟨ht p hp,congrArg Prod.snd (map_eq_self_iff.mp he p hp)⟩
  · intro h
    rw [retext_map,retext_of_texts (fun p hp => (h p hp).1) hn]
    exact map_eq_self_iff.mpr fun p hp => Prod.ext rfl (h p hp).2

mutual
/-- The values that come back as they were are those JSON has a form for. -/
theorem reload_eq_iff : ∀ {v : Value}, wf v = true → (reload v = v ↔ plain v = true)
  | none, _ | bool _, _ | int _, _ | float _, _ | str _, _ => ⟨fun _ => rfl,fun _ => rfl⟩
  | other _ _ _, _ | tuple _, _ => ⟨nofun,nofun⟩
  | list xs, h => by
    have hitems := @reloadItems_eq_iff xs h
    show list (reloadItems xs) = list xs ↔ plainItems xs = true
    rw [reloadItems_eq_map,plainItems_iff,list.injEq,map_eq_self_iff]
    exact forall₂_congr hitems
  | dict fields, h => by
    simp only [wf,Bool.and_eq_true,decide_eq_true_eq] at h
    have hfields := @reloadFields_eq_iff fields h.2
    show dict (retext (reloadFields fields)) = dict fields ↔ plainFields fields = true
    rw [reloadFields_eq_map,plainFields_iff,dict.injEq,retext_map_eq_iff h.1]
    exact forall₂_congr fun p hp => and_congr_right' (hfields p hp)
theorem reloadItems_eq_iff : ∀ {xs : List Value}, wfItems xs = true → ∀ x ∈ xs, (reload x = x ↔ plain x = true)
  | [], _ => nofun
  | x :: xs, h => by
    simp only [wfItems,Bool.and_eq_true] at h
    have hx := reload_eq_iff (v := x) h.1
    intro y hy
    rcases List.mem_cons.mp hy with rfl | hy
    · exact hx
    · exact reloadItems_eq_iff h.2 y hy
theorem reloadFields_eq_iff : ∀ {fields : List (Value × Value)}, wfFields fields = true →
    ∀ p ∈ fields, (reload p.2 = p.2 ↔ plain p.2 = true)
  | [], _ => nofun
  | (k,v) :: rest, h => by
    simp only [wfFields,Bool.and_eq_true] at h
    have hv := reload_eq_iff (v := v) h.1
    intro p hp
    rcases List.mem_cons.mp hp with rfl | hp
    · exact hv
    · exact reloadFields_eq_iff h.2 p hp
end

theorem nodup_retext {A : Type} (fields : List (Value × A)) : ((retext fields).map Prod.fst).Nodup := by
  have hnodup := (Dict.ofList (fields.map fun p => ((keyText p.1).getD "",p.2))).nodup
  have hkeys : (retext fields).map Prod.fst =
      ((Dict.ofList (fields.map fun p => ((keyText p.1).getD "",p.2))).items.map Prod.fst).map str := by
    rw [retext,List.map_map,List.map_map]
    rfl
  rw [hkeys]
  exact hnodup.map fun a b hab => str.inj hab

theorem wfFields_iff : ∀ {fields}, wfFields fields = true ↔ ∀ p ∈ fields, wf p.2 = true
  | [] => by simp [wfFields]
  | (k,v) :: rest => by simp [wfFields,@wfFields_iff rest]

theorem wfItems_iff : ∀ {xs}, wfItems xs = true ↔ ∀ x ∈ xs, wf x = true
  | [] => by simp [wfItems]
  | x :: xs => by simp [wfItems,@wfItems_iff xs]

mutual
theorem wf_reload : ∀ v, wf (reload v) = true
  | none | bool _ | int _ | float _ | str _ | other _ _ _ => rfl
  | tuple xs | list xs => wf_reloadItems xs
  | dict fields => by
    have hfields := wfFields_iff.mp (wf_reloadFields fields)
    simp only [reload,wf,Bool.and_eq_true,decide_eq_true_eq]
    constructor
    · exact nodup_retext _
    · apply wfFields_iff.mpr
      intro p hp
      obtain ⟨k,hk,-⟩ := mem_retext hp
      exact hfields (k,p.2) hk
theorem wf_reloadItems : ∀ xs, wfItems (reloadItems xs) = true
  | [] => rfl
  | x :: xs => by simp [reloadItems,wfItems,wf_reload x,wf_reloadItems xs]
theorem wf_reloadFields : ∀ fields, wfFields (reloadFields fields) = true
  | [] => rfl
  | (k,v) :: rest => by simp [reloadFields,wfFields,wf_reload v,wf_reloadFields rest]
end

/-- A text of the value gives it back exactly when it is kept. -/
theorem reload_eq_self_iff {v : Value} : reload v = v ↔ kept v = true := by
  rw [kept,Bool.and_eq_true]
  constructor
  · intro he
    have hwf : wf v = true := he ▸ wf_reload v
    exact ⟨hwf,(reload_eq_iff hwf).mp he⟩
  · rintro ⟨hwf,hplain⟩
    exact (reload_eq_iff hwf).mpr hplain

/-- Members that come back. -/
theorem retext_map_eq_self_iff {A : Type} {f : A → A} {fields : List (Value × A)} :
    retext (fields.map fun p => (p.1,f p.2)) = fields ↔
      (fields.map Prod.fst).Nodup ∧ ∀ p ∈ fields, isText p.1 = true ∧ f p.2 = p.2 := by
  constructor
  · intro he
    have hn : (fields.map Prod.fst).Nodup := he ▸ nodup_retext _
    exact ⟨hn,(retext_map_eq_iff hn).mp he⟩
  · rintro ⟨hn,h⟩
    exact (retext_map_eq_iff hn).mpr h

mutual
theorem isSome_toJson : ∀ v, (toJson v).isSome = writable v
  | none | bool _ | float _ | str _ | other _ _ _ => rfl
  | int i => by
    rw [toJson,writable]
    cases hasText i <;> rfl
  | tuple xs | list xs => by simp [toJson,writable,isSome_toJsonItems xs]
  | dict fields => by simp [toJson,writable,isSome_toJsonFields fields]
theorem isSome_toJsonItems : ∀ xs, (toJsonItems xs).isSome = writableItems xs
  | [] => rfl
  | x :: xs => by
    rw [toJsonItems,writableItems,← isSome_toJson x,← isSome_toJsonItems xs]
    cases toJson x <;> simp
theorem isSome_toJsonFields : ∀ fields, (toJsonFields fields).isSome = writableFields fields
  | [] => rfl
  | (k,v) :: rest => by
    rw [toJsonFields,writableFields,← isSome_toJson v,← isSome_toJsonFields rest]
    cases keyText k <;> cases toJson v <;> simp
end

/-- A mapping under distinct texts. -/
theorem reload_dict {fields : List (Value × Value)} (ht : fields.all (fun p => isText p.1) = true)
    (hn : (fields.map Prod.fst).Nodup) : reload (dict fields) = dict (reloadFields fields) := by
  have hkeys : (reloadFields fields).map Prod.fst = fields.map Prod.fst := by
    rw [reloadFields_eq_map,List.map_map]
    rfl
  show dict (retext (reloadFields fields)) = _
  rw [retext_of_texts]
  · intro p hp
    have hmem : p.1 ∈ fields.map Prod.fst := hkeys ▸ List.mem_map_of_mem hp
    obtain ⟨q,hq,hpq⟩ := List.mem_map.mp hmem
    rw [← hpq]
    exact List.all_eq_true.mp ht q hq
  · rw [hkeys]
    exact hn

theorem depth_lt_dict : ∀ {fields : List (Value × Value)} {p}, p ∈ fields → depth p.2 < depth (dict fields)
  | (k,v) :: rest, p, h => by
    show depth p.2 < max (depth v) (depthFields rest) + 1
    rcases List.mem_cons.mp h with rfl | h
    · exact Nat.lt_succ_of_le (le_max_left _ _)
    · have hrest : depth p.2 < depthFields rest + 1 := depth_lt_dict h
      omega

theorem depth_lt_list : ∀ {xs : List Value} {x}, x ∈ xs → depth x < depth (list xs)
  | y :: ys, x, h => by
    show depth x < max (depth y) (depthItems ys) + 1
    rcases List.mem_cons.mp h with rfl | h
    · exact Nat.lt_succ_of_le (le_max_left _ _)
    · have hrest : depth x < depthItems ys + 1 := depth_lt_list h
      omega

end Value
end Py
