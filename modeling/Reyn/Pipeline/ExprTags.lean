import Reyn.Pipeline.Documents

/-! # Expression markers

What becomes of the `!expr` markers of a text. A marker that is the whole value of a tool
argument becomes an `ExprRef`. The walk that refuses the others comes to the values of mappings
and to the items of lists, in the arguments and the items only. Occurrences are counted by their
source. What an object of another type holds (a set) is a parameter.
-/
namespace Reyn.Parser
open Py Reyn.Schema Fallible

/-- What the loader makes of a text: its documents, and the sources of the markers that a later member with the same key
replaced. -/
structure LoadedText where
  docs : List Value
  overwritten : List String
  wf : ∀ d ∈ docs, d.wf = true

/-! ## Counting -/

section Counting
variable (held : String → String → List String) (src : String)

/-- The markers with a source that an object is or holds; an object that is false holds nothing. -/
def objectTags (type data : String) : ℕ :=
  if type = "_ExprTag" then if data = src then 1 else 0
  else if data = "" then 0
  else (held type data).count src

mutual
def tagCount : Value → ℕ
  | .none | .bool _ | .int _ | .float _ | .str _ => 0
  | .other type data _ => objectTags held src type data
  | .tuple xs | .list xs => tagCountItems xs
  | .dict fields => tagCountFields fields
def tagCountItems : List Value → ℕ
  | [] => 0
  | x :: xs => tagCount x + tagCountItems xs
def tagCountFields : List (Value × Value) → ℕ
  | [] => 0
  | (k,v) :: rest => tagCount k + tagCount v + tagCountFields rest
end

mutual
/-- The markers inside a value that the walk does not come to: in keys, in tuples and in objects of another type. -/
def unvisited : Value → ℕ
  | .none | .bool _ | .int _ | .float _ | .str _ => 0
  | .other type data _ => if type = "_ExprTag" then 0 else objectTags held src type data
  | .tuple xs => tagCountItems held src xs
  | .list xs => unvisitedItems xs
  | .dict fields => unvisitedFields fields
def unvisitedItems : List Value → ℕ
  | [] => 0
  | x :: xs => unvisited x + unvisitedItems xs
def unvisitedFields : List (Value × Value) → ℕ
  | [] => 0
  | (k,v) :: rest => tagCount held src k + unvisited v + unvisitedFields rest
end

/-- The markers among the keys of a mapping. -/
def keyTags : Value → ℕ
  | .dict fields => (fields.map fun p => tagCount held src p.1).sum
  | _ => 0

/-- The markers of a step that the parser takes and does not turn into an `ExprRef`. -/
def escaping : ℕ → Value → ℕ
  | fuel + 1, .dict [(.str kind,.dict body)] =>
    match kind with
    | "transform" => tagCount held src (field body "output")
    | "tool" => unvisited held src (field body "args") + tagCount held src (field body "output")
    | "agent" => tagCount held src (field body "capabilities") + tagCount held src (field body "output")
    | "match" => keyTags held src (field body "cases")
    | "fold" => unvisited held src (field body "items") + escaping fuel (field body "do")
    | "for_each" =>
      unvisited held src (field body "items") + escaping fuel (field body "do") + escaping fuel (field body "collect")
    | "parallel" =>
      match field body "branches" with
      | .dict branches => keyTags held src (.dict branches) + (branches.map fun p => escaping fuel p.2).sum +
          escaping fuel (field body "collect")
      | _ => 0
    | _ => 0
  | _, _ => 0

/-- The markers of a document that the parser takes and does not turn into an `ExprRef`. No marker of a schema document
is. -/
def escapingDoc : Value → ℕ
  | .dict doc =>
    if hasKey doc "schema" then tagCount held src (.dict doc)
    else
      match field doc "steps" with
      | .list steps => (steps.map (escaping held src (Value.list steps).depth)).sum
      | _ => 0
  | _ => 0

/-! ## Pipelines -/

/-- The markers in an argument. -/
def argTags : Arg → ℕ
  | .literal v => tagCount held src v
  | .exprRef _ => 0

def argRefs : Arg → ℕ
  | .literal _ => 0
  | .exprRef s => if s = src then 1 else 0

mutual
/-- The markers in the fields of a step and of the steps inside it. -/
def heldTags : Step → ℕ
  | .transform step => tagCount held src step.output
  | .tool step => (step.args.map fun p => tagCount held src p.1 + argTags held src p.2).sum + tagCount held src step.output
  | .agent step => tagCount held src step.output
  | .call _ => 0
  | .match step => (step.cases.map fun p => tagCount held src p.1).sum
  | .fold _ run _ source _ => tagCountItems held src (source.items.getD []) + heldTags run
  | .forEach run collect _ source _ _ =>
    tagCountItems held src (source.items.getD []) + heldTags run + heldTags collect
  | .parallel branches collect _ _ => branchTags branches + heldTags collect
def branchTags : List (Value × Step) → ℕ
  | [] => 0
  | (name,step) :: rest => tagCount held src name + heldTags step + branchTags rest
end

mutual
/-- The `ExprRef`s with a source in the arguments of a step and of the steps inside it. -/
def exprRefs : Step → ℕ
  | .tool step => (step.args.map fun p => argRefs src p.2).sum
  | .fold _ run _ _ _ => exprRefs run
  | .forEach run collect _ _ _ _ => exprRefs run + exprRefs collect
  | .parallel branches collect _ _ => branchRefs branches + exprRefs collect
  | .transform _ | .agent _ | .call _ | .match _ => 0
def branchRefs : List (Value × Step) → ℕ
  | [] => 0
  | (_,step) :: rest => exprRefs step + branchRefs rest
end

end Counting

/-- No step holds a marker, every marker of the text became an `ExprRef`, and the source of each is an expression. -/
structure Resolved (exprError : String → Option String) (held : String → String → List String) (text : LoadedText)
    (pipelines : List Pipeline) : Prop where
  unmarked : ∀ p ∈ pipelines, ∀ step ∈ p.steps, ∀ src, heldTags held src step = 0
  became : ∀ src, (text.docs.map (tagCount held src)).sum + text.overwritten.count src =
    (pipelines.map fun p => (p.steps.map (exprRefs src)).sum).sum
  parses : ∀ p ∈ pipelines, ∀ step ∈ p.steps, ∀ src, exprRefs src step ≠ 0 → exprError src = none

/-! ## Accounts -/

/-- The markers with a source in a part of a document, against what became of them. -/
structure Accounts (exprError : String → Option String) (src : String) (total refs tags escaped : ℕ) : Prop where
  balance : total = refs + escaped
  tags_le : tags ≤ escaped
  parses : refs ≠ 0 → exprError src = none

section Accounts
variable {exprError : String → Option String} {held : String → String → List String} {src : String}

theorem Accounts.add {t r g e t' r' g' e' : ℕ} (h : Accounts exprError src t r g e) (h' : Accounts exprError src t' r' g' e') :
    Accounts exprError src (t + t') (r + r') (g + g') (e + e') where
  balance := by
    have := h.balance
    have := h'.balance
    omega
  tags_le := Nat.add_le_add h.tags_le h'.tags_le
  parses hne := by
    by_cases hr : r = 0
    · apply h'.parses
      omega
    · exact h.parses hr

theorem Accounts.total {t t' r g e : ℕ} (h : Accounts exprError src t r g e) (heq : t' = t) :
    Accounts exprError src t' r g e := by
  rw [heq]
  exact h

/-- Markers that all escape. -/
theorem Accounts.escaped (n : ℕ) {g : ℕ} (h : g ≤ n) : Accounts exprError src n 0 g n := ⟨by omega,h,fun hne => absurd rfl hne⟩

/-- The members of a list, one after the other. -/
theorem Accounts.sum {A B : Type} {f : A → Parse B} {t e : A → ℕ} {r g : B → ℕ} {l : List A} {l' : List B}
    (hf : ∀ a ∈ l, ∀ b, f a = .ok b → Accounts exprError src (t a) (r b) (g b) (e a)) (h : l.mapM f = .ok l') :
    Accounts exprError src (l.map t).sum (l'.map r).sum (l'.map g).sum (l.map e).sum := by
  induction l generalizing l' with
  | nil =>
    cases h
    exact .escaped 0 le_rfl
  | cons a l ih =>
    rw [List.mapM_cons] at h
    obtain ⟨b,hb,h⟩ := bind_ok h
    obtain ⟨bs,hbs,h⟩ := bind_ok h
    cases h
    simp only [List.map_cons,List.sum_cons]
    exact (hf a List.mem_cons_self b hb).add (ih (fun x hx => hf x (List.mem_cons_of_mem _ hx)) hbs)

/-! ## Values -/

theorem tagCountFields_eq (fields : List (Value × Value)) :
    tagCountFields held src fields = (fields.map fun p => tagCount held src p.1 + tagCount held src p.2).sum := by
  induction fields with
  | nil => rfl
  | cons p rest ih => rw [tagCountFields,ih,List.map_cons,List.sum_cons]

theorem tagCountItems_eq (xs : List Value) : tagCountItems held src xs = (xs.map (tagCount held src)).sum := by
  induction xs with
  | nil => rfl
  | cons x rest ih => rw [tagCountItems,ih,List.map_cons,List.sum_cons]

theorem unvisitedFields_eq (fields : List (Value × Value)) :
    unvisitedFields held src fields = (fields.map fun p => tagCount held src p.1 + unvisited held src p.2).sum := by
  induction fields with
  | nil => rfl
  | cons p rest ih => rw [unvisitedFields,ih,List.map_cons,List.sum_cons]

mutual
/-- What the walk lets pass holds the markers it does not come to, and no other. -/
theorem rejectNestedExprTag_ok : ∀ {v : Value} {at_ : Message}, rejectNestedExprTag v at_ = .ok () →
    tagCount held src v = unvisited held src v
  | .none, _, _ | .bool _, _, _ | .int _, _, _ | .float _, _, _ | .str _, _, _ => rfl
  | .tuple xs, _, _ => rfl
  | .other type data text, at_, h => by
    rw [rejectNestedExprTag] at h
    split at h
    · cases h
    · rename_i hne
      rw [tagCount,unvisited,if_neg hne]
  | .list xs, at_, h => by
    rw [rejectNestedExprTag] at h
    rw [tagCount,unvisited,rejectNestedItems_ok h]
  | .dict fields, at_, h => by
    rw [rejectNestedExprTag] at h
    rw [tagCount,unvisited,rejectNestedFields_ok h]
theorem rejectNestedFields_ok : ∀ {fields : List (Value × Value)} {at_ : Message}, rejectNestedFields fields at_ = .ok () →
    tagCountFields held src fields = unvisitedFields held src fields
  | [], _, _ => rfl
  | (k,v) :: rest, at_, h => by
    rw [rejectNestedFields] at h
    obtain ⟨_,hv,hrest⟩ := bind_ok h
    rw [tagCountFields,unvisitedFields,rejectNestedExprTag_ok hv,rejectNestedFields_ok hrest]
theorem rejectNestedItems_ok : ∀ {xs : List Value} {i : ℕ} {at_ : Message}, rejectNestedItems xs i at_ = .ok () →
    tagCountItems held src xs = unvisitedItems held src xs
  | [], _, _, _ => rfl
  | x :: rest, i, at_, h => by
    rw [rejectNestedItems] at h
    obtain ⟨_,hx,hrest⟩ := bind_ok h
    rw [tagCountItems,unvisitedItems,rejectNestedExprTag_ok hx,rejectNestedItems_ok hrest]
end

/-- A value that counts as absent holds no marker. -/
theorem tagCount_falsy {v : Value} (h : truthy v = false) : tagCount held src v = 0 := by
  cases v with
  | none | bool | int | float | str => rfl
  | other type data text =>
    rw [truthy,Bool.or_eq_false_iff] at h
    rw [tagCount,objectTags,if_neg (ne_of_beq_false h.1),if_pos]
    simpa using h.2
  | tuple xs | list xs | dict xs =>
    cases xs with
    | nil => rfl
    | cons x rest => cases h

theorem unvisited_falsy {v : Value} (h : truthy v = false) : unvisited held src v = 0 := by
  cases v with
  | none | bool | int | float | str => rfl
  | other type data text =>
    have hzero : tagCount held src (.other type data text) = 0 := tagCount_falsy h
    rw [unvisited]
    split
    · rfl
    · rwa [tagCount] at hzero
  | tuple xs | list xs | dict xs =>
    cases xs with
    | nil => rfl
    | cons x rest => cases h

theorem known_of_unknownKeys {body : List (Value × Value)} {allowed : List String} (h : unknownKeys body allowed = []) :
    ∀ p ∈ body, ∃ key ∈ allowed, p.1 = .str key := by
  intro p hp
  have hmem := List.filter_eq_nil_iff.mp h p.1 (List.mem_map_of_mem hp)
  simpa using hmem

/-- The markers of a mapping with known keys are the markers of the values under these. -/
theorem tagCountFields_known {body : List (Value × Value)} {allowed : List String} (hnodup : (body.map Prod.fst).Nodup)
    (hallowed : allowed.Nodup) (h : ∀ p ∈ body, ∃ key ∈ allowed, p.1 = .str key) :
    tagCountFields held src body = (allowed.map fun key => tagCount held src (field body key)).sum := by
  induction body generalizing allowed with
  | nil =>
    symm
    apply List.sum_eq_zero
    intro n hn
    obtain ⟨key,-,rfl⟩ := List.mem_map.mp hn
    rfl
  | cons p rest ih =>
    obtain ⟨k,v⟩ := p
    obtain ⟨key,hkey,rfl⟩ : ∃ key ∈ allowed, k = .str key := h _ List.mem_cons_self
    rw [List.map_cons,List.nodup_cons] at hnodup
    have hrest : ∀ p ∈ rest, ∃ other ∈ allowed.erase key, p.1 = .str other := by
      intro p hp
      obtain ⟨other,hother,heq⟩ := h p (List.mem_cons_of_mem _ hp)
      refine ⟨other,(List.mem_erase_of_ne ?_).mpr hother,heq⟩
      rintro rfl
      apply hnodup.1
      exact List.mem_map.mpr ⟨p,hp,heq⟩
    have hhead : field ((.str key,v) :: rest) key = v := by simp [field,Value.get?]
    have htail : (allowed.erase key).map (fun other => tagCount held src (field ((.str key,v) :: rest) other)) =
        (allowed.erase key).map fun other => tagCount held src (field rest other) := by
      apply List.map_congr_left
      intro other hother
      have hne := (hallowed.mem_erase_iff.mp hother).1
      have hbeq : (Value.str other == Value.str key) = false := beq_eq_false_iff_ne.mpr (by simpa using hne)
      rw [field,field,Value.get?,List.lookup_cons,hbeq]
      rfl
    rw [tagCountFields,ih hnodup.2 (hallowed.erase key) hrest,← List.sum_map_erase _ hkey,hhead,htail,tagCount,Nat.zero_add]

/-! ## The steps -/

theorem validateExprSource_str {raw : Value} {at_ : Message} {s : String} (h : validateExprSource exprError raw at_ = .ok s) :
    raw = .str s ∧ exprError s = none := by
  unfold validateExprSource at h
  split at h
  · split at h
    · rename_i hnone
      cases h
      exact ⟨rfl,hnone⟩
    · cases h
  · cases h

theorem optString_tags {v : Value} {message : Message} {o : Option String} (h : optString v message = .ok o) :
    tagCount held src v = 0 := by
  unfold optString at h
  split at h
  · rfl
  · rfl
  · cases h

theorem optOnError_tags {v : Value} {message : Message} {o : Option String} (h : optOnError v message = .ok o) :
    tagCount held src v = 0 := by
  unfold optOnError at h
  split at h
  · rfl
  · rfl
  · cases h

theorem optPositive_tags {v : Value} {at_ : String} {o : Option ℕ} (h : optPositive v at_ = .ok o) :
    tagCount held src v = 0 := by
  unfold optPositive at h
  split at h
  · rfl
  · rfl
  · cases h

theorem field_of_get? {body : List (Value × Value)} {key : String} {v : Value} (h : Value.get? body key = some v) :
    field body key = v := by rw [field,h,Option.getD_some]

theorem tagCount_orEmpty (v : Value) : tagCount held src (orEmpty v) = tagCount held src v := by
  unfold orEmpty
  split
  · rfl
  · rename_i hfalsy
    rw [tagCount_falsy (Bool.eq_false_iff.mpr hfalsy)]
    rfl

theorem unvisited_orEmpty (v : Value) : unvisited held src (orEmpty v) = unvisited held src v := by
  unfold orEmpty
  split
  · rfl
  · rename_i hfalsy
    rw [unvisited_falsy (Bool.eq_false_iff.mpr hfalsy)]
    rfl

variable (held src) in
/-- The names of `pass` are strings and its values are sources. -/
theorem parsePassEntries_tags {raw : Value} {at_ : Message} {entries : List (String × String)}
    (h : parsePassEntries exprError raw at_ = .ok entries) : tagCount held src raw = 0 := by
  unfold parsePassEntries at h
  split at h
  · rename_i fields
    rw [tagCount,tagCountFields_eq]
    apply List.sum_eq_zero
    intro n hn
    obtain ⟨p,hp,rfl⟩ := List.mem_map.mp hn
    obtain ⟨entry,hentry⟩ := mapM_ok_iff.mp ⟨_,h⟩ p hp
    split at hentry
    · rename_i name hname
      split at hentry
      · cases hentry
      · obtain ⟨s,hs,-⟩ := map_eq_ok hentry
        rw [hname,(validateExprSource_str hs).1]
        rfl
    · cases hentry
  · cases h

variable (held src) in
/-- The markers of the body of a step, by its known keys. -/
theorem tagCount_body {body : List (Value × Value)} {allowed : List String} {at_ : Message}
    (hwf : (Value.dict body).wf = true) (h : rejectUnknownKeys body allowed at_ = .ok ()) (hallowed : allowed.Nodup) :
    tagCountFields held src body = (allowed.map fun key => tagCount held src (field body key)).sum := by
  rw [Value.wf,Bool.and_eq_true,decide_eq_true_eq] at hwf
  exact tagCountFields_known hwf.1 hallowed (known_of_unknownKeys (rejectUnknownKeys_ok.mp h))

theorem parseMatchCase_tags {raw : Value} {at_ : Message} {case_ : MatchCase} (hwf : raw.wf = true)
    (h : parseMatchCase exprError raw at_ = .ok case_) : tagCount held src raw = 0 := by
  unfold parseMatchCase at h
  split at h
  · rename_i body
    obtain ⟨_,hkeys,h⟩ := bind_ok h
    rw [tagCount,tagCount_body held src hwf hkeys (by decide)]
    split at h
    · cases h
    · rename_i hpipeline
      split at h
      · split at h
        · cases h
        · obtain ⟨pass,hpass,-⟩ := bind_ok h
          have hzero := parsePassEntries_tags held src hpass
          rw [tagCount_orEmpty] at hzero
          simp [field_of_get? hpipeline,hzero,tagCount]
      · cases h
  · cases h

theorem parseTransformStep_accounts {body : List (Value × Value)} {step : TransformStep} (hwf : (Value.dict body).wf = true)
    (h : parseTransformStep exprError body = .ok step) :
    Accounts exprError src (tagCountFields held src body) 0 (tagCount held src step.output)
      (tagCount held src (field body "output")) := by
  obtain ⟨_,hkeys,h⟩ := bind_ok h
  have hbody := tagCount_body held src hwf hkeys (by decide)
  split at h
  · cases h
  · rename_i raw hget
    obtain ⟨s,hs,h⟩ := bind_ok h
    cases h
    obtain ⟨rfl,-⟩ := validateExprSource_str hs
    apply (Accounts.escaped _ le_rfl).total
    simp [hbody,field_of_get? hget,tagCount]

theorem resolveArgValue_accounts {v : Value} {at_ : Message} {a : Arg} (h : resolveArgValue exprError v at_ = .ok a) :
    Accounts exprError src (tagCount held src v) (argRefs src a) (argTags held src a) (unvisited held src v) := by
  unfold resolveArgValue at h
  split at h
  · rename_i s hs
    obtain ⟨s',hs',rfl⟩ := map_eq_ok h
    obtain ⟨heq,hnone⟩ := validateExprSource_str hs'
    cases heq
    unfold exprTag? at hs
    split at hs
    · cases hs
      refine ⟨?_,Nat.zero_le _,fun hne => ?_⟩
      · simp [tagCount,objectTags,argRefs,unvisited]
      · rw [argRefs] at hne
        rw [← (ite_ne_right_iff.mp hne).1]
        exact hnone
    · cases hs
  · obtain ⟨_,hok,rfl⟩ := map_eq_ok h
    rw [rejectNestedExprTag_ok hok]
    exact .escaped _ (rejectNestedExprTag_ok hok).le

theorem parseToolStep_accounts {body : List (Value × Value)} {step : ToolStep} (hwf : (Value.dict body).wf = true)
    (h : parseToolStep exprError body = .ok step) :
    Accounts exprError src (tagCountFields held src body) (exprRefs src (.tool step)) (heldTags held src (.tool step))
      (unvisited held src (field body "args") + tagCount held src (field body "output")) := by
  obtain ⟨_,hkeys,h⟩ := bind_ok h
  have hbody := tagCount_body held src hwf hkeys (by decide)
  split at h
  · cases h
  · rename_i name hname
    split at h
    · rename_i rawArgs hargs
      obtain ⟨args,hmap,h⟩ := bind_ok h
      obtain ⟨schema,hschema,h⟩ := bind_ok h
      obtain ⟨onError,honError,h⟩ := bind_ok h
      cases h
      have hfields : Accounts exprError src (tagCountFields held src rawArgs) (args.map fun p => argRefs src p.2).sum
          (args.map fun p => tagCount held src p.1 + argTags held src p.2).sum (unvisitedFields held src rawArgs) := by
        rw [tagCountFields_eq,unvisitedFields_eq]
        refine Accounts.sum (fun p _ q hq => ?_) hmap
        obtain ⟨a,ha,rfl⟩ := map_eq_ok hq
        have hkey : Accounts exprError src (tagCount held src p.1) 0 (tagCount held src p.1) (tagCount held src p.1) :=
          .escaped _ le_rfl
        simpa using hkey.add (resolveArgValue_accounts ha)
      have hunvisited : unvisited held src (field body "args") = unvisitedFields held src rawArgs := by
        rw [← unvisited_orEmpty,hargs,unvisited]
      have hcount : tagCount held src (field body "args") = tagCountFields held src rawArgs := by
        rw [← tagCount_orEmpty,hargs,tagCount]
      rw [hunvisited]
      have hout : Accounts exprError src (tagCount held src (field body "output")) 0 (tagCount held src (field body "output"))
        (tagCount held src (field body "output")) := .escaped _ le_rfl
      apply (hfields.add hout).total
      simp [hbody,field_of_get? hname,hcount,optString_tags hschema,optOnError_tags honError,tagCount]
    · cases h
  · cases h

theorem parseAgentStep_accounts {body : List (Value × Value)} {step : AgentStep} (hwf : (Value.dict body).wf = true)
    (h : parseAgentStep body = .ok step) :
    Accounts exprError src (tagCountFields held src body) 0 (tagCount held src step.output)
      (tagCount held src (field body "capabilities") + tagCount held src (field body "output")) := by
  obtain ⟨_,hkeys,h⟩ := bind_ok h
  have hbody := tagCount_body held src hwf hkeys (by decide)
  split at h
  · cases h
  · rename_i prompt hprompt
    obtain ⟨identity,hidentity,h⟩ := bind_ok h
    obtain ⟨capabilities,-,h⟩ := bind_ok h
    obtain ⟨schema,hschema,h⟩ := bind_ok h
    obtain ⟨model,hmodel,h⟩ := bind_ok h
    cases h
    apply (Accounts.escaped _ (Nat.le_add_left _ _)).total
    simp [hbody,field_of_get? hprompt,optString_tags hidentity,optString_tags hschema,optString_tags hmodel,tagCount]
  · cases h

theorem parseCallStep_tags {body : List (Value × Value)} {step : CallStep} (hwf : (Value.dict body).wf = true)
    (h : parseCallStep exprError body = .ok step) : tagCountFields held src body = 0 := by
  obtain ⟨_,hkeys,h⟩ := bind_ok h
  rw [tagCount_body held src hwf hkeys (by decide)]
  split at h
  · cases h
  · rename_i hpipeline
    split at h
    · split at h
      · cases h
      · obtain ⟨pass,hpass,h⟩ := bind_ok h
        obtain ⟨output,houtput,-⟩ := bind_ok h
        have hzero := parsePassEntries_tags held src hpass
        rw [tagCount_orEmpty] at hzero
        simp [field_of_get? hpipeline,hzero,optString_tags houtput,tagCount]
    · cases h

theorem wf_of_mem {fields : List (Value × Value)} (h : (Value.dict fields).wf = true) {p : Value × Value} (hp : p ∈ fields) :
    p.2.wf = true := by
  rw [Value.wf,Bool.and_eq_true] at h
  exact Value.wfFields_iff.mp h.2 p hp

theorem parseMatchStep_accounts {body : List (Value × Value)} {step : MatchStep} (hwf : (Value.dict body).wf = true)
    (h : parseMatchStep exprError body = .ok step) :
    Accounts exprError src (tagCountFields held src body) 0 (heldTags held src (.match step))
      (keyTags held src (field body "cases")) := by
  obtain ⟨_,hkeys,h⟩ := bind_ok h
  have hbody := tagCount_body held src hwf hkeys (by decide)
  split at h
  · cases h
  · rename_i hon
    obtain ⟨on,hsrc,h⟩ := bind_ok h
    split at h
    · rename_i c cs hcases
      obtain ⟨cases_,hmap,h⟩ := bind_ok h
      obtain ⟨default,hzero,h⟩ : ∃ default, tagCount held src (field body "default") = 0 ∧
          ((optOutput body "match").bind fun output => .ok (⟨on,cases_,default,output⟩ : MatchStep)) = .ok step := by
        dsimp only at h
        split at h
        · rename_i hnone
          rw [hnone]
          exact ⟨none,rfl,h⟩
        · obtain ⟨default,hdefault,h⟩ := bind_ok h
          obtain ⟨case_,hcase,-⟩ := map_eq_ok hdefault
          exact ⟨default,parseMatchCase_tags (wf_field hwf "default") hcase,h⟩
      obtain ⟨output,houtput,h⟩ := bind_ok h
      cases h
      have hlabels : Accounts exprError src (tagCountFields held src (c :: cs)) (cases_.map fun _ => 0).sum
          (cases_.map fun p => tagCount held src p.1).sum ((c :: cs).map fun p => tagCount held src p.1).sum := by
        rw [tagCountFields_eq]
        refine Accounts.sum (fun p hp q hq => ?_) hmap
        obtain ⟨case_,hcase,rfl⟩ := map_eq_ok hq
        have hwfCases := wf_field hwf "cases"
        rw [hcases] at hwfCases
        apply (Accounts.escaped _ le_rfl).total
        rw [parseMatchCase_tags (wf_of_mem hwfCases hp) hcase,Nat.add_zero]
      have hrefs : (cases_.map fun _ => 0).sum = 0 := by simp
      rw [hrefs] at hlabels
      rw [heldTags,hcases,keyTags]
      apply hlabels.total
      simp [hbody,field_of_get? hon,(validateExprSource_str hsrc).1,hcases,hzero,optString_tags houtput,tagCount]
    · cases h

variable (held src) in
/-- What is parsed after the field over is known. -/
theorem parseListSource_over {body : List (Value × Value)} {kind : String} {source : ListSource}
    (h : parseListSource exprError body kind = .ok source) :
    ∃ over_, tagCount held src (field body "over") = 0 ∧
      (match field body "items" with
        | .none => Except.ok (⟨over_,none⟩ : ListSource)
        | .list items => (rejectNestedItems items 0 [.text (kind ++ " step 'items'")]).bind fun _ => .ok ⟨over_,some items⟩
        | raw => refuse [.text (kind ++ " step 'items': expected a list, got " ++ typeName raw)]) = .ok source := by
  unfold parseListSource at h
  split at h
  · cases h
  dsimp only at h
  split at h
  · rename_i hnone
    rw [hnone]
    exact ⟨none,rfl,h⟩
  · obtain ⟨over_,hover,h⟩ := bind_ok h
    obtain ⟨s,hs,-⟩ := map_eq_ok hover
    rw [(validateExprSource_str hs).1]
    exact ⟨over_,rfl,h⟩

variable (held src) in
theorem parseListSource_accounts {body : List (Value × Value)} {kind : String} {source : ListSource}
    (h : parseListSource exprError body kind = .ok source) :
    Accounts exprError src (tagCount held src (field body "over") + tagCount held src (field body "items")) 0
      (tagCountItems held src (source.items.getD [])) (unvisited held src (field body "items")) := by
  obtain ⟨over_,hover,h⟩ := parseListSource_over held src h
  rw [hover,Nat.zero_add]
  split at h
  · rename_i hnone
    cases h
    rw [hnone]
    exact .escaped 0 le_rfl
  · rename_i items hitems
    obtain ⟨_,hreject,h⟩ := bind_ok h
    cases h
    have heq : tagCountItems held src items = unvisitedItems held src items := rejectNestedItems_ok hreject
    rw [hitems,tagCount,unvisited,Option.getD_some,heq]
    exact .escaped _ le_rfl
  · cases h

theorem branchTags_eq (branches : List (Value × Step)) : branchTags held src branches =
    (branches.map fun p => tagCount held src p.1 + heldTags held src p.2).sum := by
  induction branches with
  | nil => rfl
  | cons p rest ih => rw [branchTags,ih,List.map_cons,List.sum_cons]

theorem branchRefs_eq (branches : List (Value × Step)) : branchRefs src branches =
    (branches.map fun p => exprRefs src p.2).sum := by
  induction branches with
  | nil => rfl
  | cons p rest ih => rw [branchRefs,ih,List.map_cons,List.sum_cons]

section Nested
variable {parse : Value → Message → Parse Step} {inner : Value → ℕ}
  (hparse : ∀ v at_ step, v.wf = true → parse v at_ = .ok step →
    Accounts exprError src (tagCount held src v) (exprRefs src step) (heldTags held src step) (inner v))
include hparse

theorem parseFoldStep_accounts {body : List (Value × Value)} {index : Message} {step : Step}
    (hwf : (Value.dict body).wf = true)
    (h : parseFoldStep exprError parse body index = .ok step) :
    Accounts exprError src (tagCountFields held src body) (exprRefs src step) (heldTags held src step)
      (unvisited held src (field body "items") + inner (field body "do")) := by
  obtain ⟨_,hkeys,h⟩ := bind_ok h
  have hbody := tagCount_body held src hwf hkeys (by decide)
  obtain ⟨source,hsource,h⟩ := bind_ok h
  split at h
  · cases h
  rename_i hinit
  obtain ⟨init,hsrc,h⟩ := bind_ok h
  split at h
  · cases h
  rename_i hdo
  obtain ⟨run,hrun,h⟩ := bind_ok h
  have hnested := hparse _ _ _ (wf_field hwf "do") (by rw [field_of_get? hdo]; exact hrun)
  split at h
  · rename_i output houtput
    split at h
    · cases h
    obtain ⟨maxItems,hmax,h⟩ := bind_ok h
    cases h
    have hboth := (parseListSource_accounts held src hsource).add hnested
    rw [Nat.zero_add] at hboth
    rw [exprRefs,heldTags]
    apply hboth.total
    simp [hbody,field_of_get? hinit,(validateExprSource_str hsrc).1,houtput,optPositive_tags hmax,tagCount]
    omega
  · cases h

theorem parseForEachStep_accounts {body : List (Value × Value)} {index : Message} {step : Step}
    (hwf : (Value.dict body).wf = true)
    (h : parseForEachStep exprError parse body index = .ok step) :
    Accounts exprError src (tagCountFields held src body) (exprRefs src step) (heldTags held src step)
      (unvisited held src (field body "items") + inner (field body "do") + inner (field body "collect")) := by
  obtain ⟨_,hkeys,h⟩ := bind_ok h
  have hbody := tagCount_body held src hwf hkeys (by decide)
  obtain ⟨source,hsource,h⟩ := bind_ok h
  obtain ⟨policy,hpolicy,h⟩ := bind_ok h
  split at h
  · cases h
  split at h
  · cases h
  rename_i hdo
  obtain ⟨run,hrun,h⟩ := bind_ok h
  have hnested := hparse _ _ _ (wf_field hwf "do") (by rw [field_of_get? hdo]; exact hrun)
  split at h
  · cases h
  rename_i hcollect
  obtain ⟨collect,hcoll,h⟩ := bind_ok h
  have hcollected := hparse _ _ _ (wf_field hwf "collect") (by rw [field_of_get? hcollect]; exact hcoll)
  obtain ⟨maxParallel,hmax,h⟩ := bind_ok h
  obtain ⟨output,houtput,h⟩ := bind_ok h
  cases h
  have hall := ((parseListSource_accounts held src hsource).add hnested).add hcollected
  rw [Nat.zero_add] at hall
  rw [exprRefs,heldTags]
  apply hall.total
  simp [hbody,optOnError_tags hpolicy,optPositive_tags hmax,optString_tags houtput]
  omega

omit hparse in
variable (held src) in
/-- What a parallel step is parsed from. -/
theorem parseParallelStep_ok {body : List (Value × Value)} {index : Message} {step : Step}
    (h : parseParallelStep parse body index = .ok step) : ∃ b bs branches rawCollect collect onError output,
      field body "branches" = .dict (b :: bs) ∧
      ((b :: bs).mapM fun p => (parse p.2 (index ++ ([.text " (parallel branch ",.repr p.1,.text ")"] : Message))).map
        fun step => (p.1,step)) = .ok branches ∧
      tagCount held src (field body "on_error") = 0 ∧ Value.get? body "collect" = some rawCollect ∧
      parse rawCollect (index ++ ([.text " (parallel collect)"] : Message)) = .ok collect ∧
      optOutput body "parallel" = .ok output ∧ step = .parallel branches collect onError output := by
  obtain ⟨_,-,h⟩ := bind_ok h
  split at h
  · rename_i b bs hbranches
    split at h
    · cases h
    obtain ⟨branches,hmap,h⟩ := bind_ok h
    dsimp only at h
    split at h
    · rename_i hnone
      have htags : tagCount held src (field body "on_error") = 0 := by
        rw [field,hnone]
        rfl
      obtain ⟨onError,-,h⟩ := bind_ok h
      split at h
      · cases h
      obtain ⟨collect,hcollect,h⟩ := bind_ok h
      obtain ⟨output,houtput,h⟩ := bind_ok h
      cases h
      exact ⟨b,bs,branches,_,collect,_,output,hbranches,hmap,htags,‹_›,hcollect,houtput,rfl⟩
    · rename_i raw hget
      obtain ⟨onError,hraw,h⟩ := bind_ok h
      obtain ⟨policy,hpolicy,-⟩ := bind_ok hraw
      have htags : tagCount held src (field body "on_error") = 0 := by
        rw [field_of_get? hget]
        exact optOnError_tags hpolicy
      split at h
      · cases h
      obtain ⟨collect,hcollect,h⟩ := bind_ok h
      obtain ⟨output,houtput,h⟩ := bind_ok h
      cases h
      exact ⟨b,bs,branches,_,collect,_,output,hbranches,hmap,htags,‹_›,hcollect,houtput,rfl⟩
  · cases h

theorem parseParallelStep_accounts {body : List (Value × Value)} {index : Message} {step : Step}
    (hwf : (Value.dict body).wf = true)
    (h : parseParallelStep parse body index = .ok step) :
    Accounts exprError src (tagCountFields held src body) (exprRefs src step) (heldTags held src step)
      (match field body "branches" with
        | .dict branches => keyTags held src (.dict branches) + (branches.map fun p => inner p.2).sum + inner (field body "collect")
        | _ => 0) := by
  have hkeys : rejectUnknownKeys body ["branches","collect","on_error","output"] [.text "parallel step"] = .ok () := by
    obtain ⟨_,hkeys,-⟩ := bind_ok h
    exact hkeys
  have hbody := tagCount_body held src hwf hkeys (by decide)
  obtain ⟨b,bs,branches,rawCollect,collect,onError,output,hbranches,hmap,hpolicy,hcollect,hcoll,houtput,rfl⟩ :=
    parseParallelStep_ok held src h
  have hcollected := hparse _ _ _ (wf_field hwf "collect") (by rw [field_of_get? hcollect]; exact hcoll)
  have hwfBranches := wf_field hwf "branches"
  rw [hbranches] at hwfBranches
  have hnamed : Accounts exprError src (tagCountFields held src (b :: bs)) (branchRefs src branches)
      (branchTags held src branches) ((b :: bs).map fun p => tagCount held src p.1 + inner p.2).sum := by
    rw [tagCountFields_eq,branchRefs_eq,branchTags_eq]
    refine Accounts.sum (fun p hp q hq => ?_) hmap
    obtain ⟨sub,hsub,rfl⟩ := map_eq_ok hq
    have hname : Accounts exprError src (tagCount held src p.1) 0 (tagCount held src p.1) (tagCount held src p.1) :=
      .escaped _ le_rfl
    simpa using hname.add (hparse _ _ _ (wf_of_mem hwfBranches hp) hsub)
  rw [hbranches,exprRefs,heldTags]
  rw [List.sum_map_add] at hnamed
  apply (hnamed.add hcollected).total
  simp [hbody,hbranches,hpolicy,optString_tags houtput,tagCount]

end Nested

/-- The body of a step is a mapping, which is all that the step holds. -/
theorem body_accounts {A : Type} {kind : String} {body : Value} {message : Message} {f : List (Value × Value) → Parse A}
    {a : A} {r g fuel : ℕ} (hwf : (Value.dict [(.str kind,body)]).wf = true)
    (hf : ∀ fields, (Value.dict fields).wf = true → f fields = .ok a → Accounts exprError src (tagCountFields held src fields)
      r g (escaping held src fuel (.dict [(.str kind,.dict fields)])))
    (h : ((match body with
      | .dict fields => Except.ok fields
      | _ => refuse message).bind f) = .ok a) :
    Accounts exprError src (tagCount held src (.dict [(.str kind,body)])) r g
      (escaping held src fuel (.dict [(.str kind,body)])) := by
  obtain ⟨fields,hfields,h⟩ := bind_ok h
  split at hfields
  · cases hfields
    apply (hf fields (wf_of_mem hwf List.mem_cons_self) h).total
    simp [tagCount,tagCountFields]
  · cases hfields

theorem parseStep_accounts {fuel : ℕ} : ∀ v at_ step, v.wf = true → parseStep exprError fuel v at_ = .ok step →
    Accounts exprError src (tagCount held src v) (exprRefs src step) (heldTags held src step) (escaping held src fuel v) := by
  induction fuel with
  | zero => exact fun _ _ _ _ h => nomatch h
  | succ fuel ih =>
    intro v at_ step hwf h
    rw [parseStep.eq_def] at h
    dsimp only at h
    split at h
    · split at h
      · exact body_accounts hwf (fun fields hfields hstep => parseFoldStep_accounts ih hfields hstep) h
      · exact body_accounts hwf (fun fields hfields hstep => parseForEachStep_accounts ih hfields hstep) h
      · exact body_accounts hwf (fun fields hfields hstep => parseParallelStep_accounts ih hfields hstep) h
      · apply body_accounts hwf (fun fields hfields hstep => ?_) h
        obtain ⟨inner,hinner,rfl⟩ := map_eq_ok hstep
        exact parseTransformStep_accounts hfields hinner
      · apply body_accounts hwf (fun fields hfields hstep => ?_) h
        obtain ⟨inner,hinner,rfl⟩ := map_eq_ok hstep
        exact parseToolStep_accounts hfields hinner
      · apply body_accounts hwf (fun fields hfields hstep => ?_) h
        obtain ⟨inner,hinner,rfl⟩ := map_eq_ok hstep
        exact parseAgentStep_accounts hfields hinner
      · apply body_accounts hwf (fun fields hfields hstep => ?_) h
        obtain ⟨inner,hinner,rfl⟩ := map_eq_ok hstep
        exact (Accounts.escaped 0 le_rfl).total (parseCallStep_tags hfields hinner)
      · apply body_accounts hwf (fun fields hfields hstep => ?_) h
        obtain ⟨inner,hinner,rfl⟩ := map_eq_ok hstep
        exact parseMatchStep_accounts hfields hinner
      · cases h
    · cases h

/-! ## Documents -/

theorem wf_of_mem_list {xs : List Value} (h : (Value.list xs).wf = true) {x : Value} (hx : x ∈ xs) : x.wf = true :=
  Value.wfItems_iff.mp (by rwa [Value.wf] at h) x hx

theorem map_zipIdx_fst {A B : Type} (f : A → B) (l : List A) : (l.zipIdx.map fun p => f p.1) = l.map f := by
  calc (l.zipIdx.map fun p => f p.1) = (l.zipIdx.map Prod.fst).map f := by
        rw [List.map_map]
        rfl
    _ = l.map f := by rw [List.zipIdx_map_fst]

variable (held src) in
theorem parsePipelineDoc_accounts {doc : List (Value × Value)} {pipeline : Pipeline} (hwf : (Value.dict doc).wf = true)
    (hschema : hasKey doc "schema" = false) (h : parsePipelineDoc exprError doc = .ok pipeline) :
    Accounts exprError src (tagCount held src (.dict doc)) (pipeline.steps.map (exprRefs src)).sum
      (pipeline.steps.map (heldTags held src)).sum (escapingDoc held src (.dict doc)) := by
  obtain ⟨_,hkeys,h⟩ := bind_ok h
  have hbody := tagCount_body held src hwf hkeys (by decide)
  split at h
  · rename_i name hname
    split at h
    · cases h
    split at h
    · cases h
    split at h
    · rename_i description hdescription
      split at h
      · rename_i s ss hsteps
        obtain ⟨steps,hmap,h⟩ := bind_ok h
        cases h
        have hwfSteps := wf_field hwf "steps"
        rw [hsteps] at hwfSteps
        have hzero : tagCount held src (field doc "description") = 0 := by
          rw [field]
          cases hget : Value.get? doc "description" with
          | none => rfl
          | some v =>
            rw [hget,Option.getD_some] at hdescription
            rw [hdescription]
            rfl
        have hall : Accounts exprError src ((s :: ss).zipIdx.map fun p => tagCount held src p.1).sum
            (steps.map (exprRefs src)).sum (steps.map (heldTags held src)).sum
            ((s :: ss).zipIdx.map fun p => escaping held src (Value.list (s :: ss)).depth p.1).sum := by
          refine Accounts.sum (fun p hp step hstep => ?_) hmap
          exact parseStep_accounts _ _ _ (wf_of_mem_list hwfSteps (List.fst_mem_of_mem_zipIdx hp)) hstep
        rw [map_zipIdx_fst (tagCount held src),map_zipIdx_fst (escaping held src (Value.list (s :: ss)).depth)] at hall
        rw [escapingDoc,hschema,if_neg Bool.false_ne_true,hsteps]
        apply hall.total
        simp [hbody,hname,hzero,hsteps,tagCount,tagCountItems_eq]
      · cases h
    · cases h
  · cases h

variable {exceeds : Value → Value → Bool}

variable (held) in
/-- The documents that are read are the pipelines, and the markers of the other ones escape. -/
theorem readDocs_pipelines {docs : List Value} {s s' : Reading} (h : docs.foldlM (readDoc exceeds) s = .ok s') :
    ∃ new, s'.docs = s.docs ++ new ∧ (∀ doc ∈ new, .dict doc ∈ docs ∧ hasKey doc "schema" = false) ∧
      ∀ src, ∃ others, (docs.map (tagCount held src)).sum = (new.map fun doc => tagCount held src (.dict doc)).sum + others ∧
        (docs.map (escapingDoc held src)).sum = (new.map fun doc => escapingDoc held src (.dict doc)).sum + others := by
  induction docs generalizing s with
  | nil =>
    cases h
    exact ⟨[],(List.append_nil _).symm,nofun,fun _ => ⟨0,rfl,rfl⟩⟩
  | cons d docs ih =>
    rw [List.foldlM_cons] at h
    obtain ⟨t,hd,h⟩ := bind_ok h
    obtain ⟨new,hnew,hmem,hsum⟩ := ih h
    have hrest : ∀ doc ∈ new, .dict doc ∈ d :: docs ∧ hasKey doc "schema" = false := fun doc hdoc =>
      ⟨List.mem_cons_of_mem _ (hmem doc hdoc).1,(hmem doc hdoc).2⟩
    unfold readDoc at hd
    split at hd
    · cases hd
      refine ⟨new,hnew,hrest,fun src => ?_⟩
      obtain ⟨others,htotal,hescaping⟩ := hsum src
      refine ⟨others,?_,?_⟩
      · simpa [tagCount] using htotal
      · simpa [escapingDoc] using hescaping
    · rename_i doc
      split at hd
      · rename_i hschema
        have hdocs : t.docs = s.docs := by
          split at hd
          · cases hd
            rfl
          · cases hd
        rw [hdocs] at hnew
        refine ⟨new,hnew,hrest,fun src => ?_⟩
        obtain ⟨others,htotal,hescaping⟩ := hsum src
        refine ⟨tagCount held src (.dict doc) + others,?_,?_⟩
        · rw [List.map_cons,List.sum_cons,htotal]
          omega
        · rw [List.map_cons,List.sum_cons,hescaping,escapingDoc,if_pos hschema]
          omega
      · rename_i hschema
        split at hd
        · cases hd
          refine ⟨doc :: new,?_,?_,fun src => ?_⟩
          · rw [hnew,List.append_assoc]
            rfl
          · exact List.forall_mem_cons.mpr ⟨⟨List.mem_cons_self,Bool.eq_false_iff.mpr hschema⟩,hrest⟩
          · obtain ⟨others,htotal,hescaping⟩ := hsum src
            refine ⟨others,?_,?_⟩
            · rw [List.map_cons,List.map_cons,List.sum_cons,List.sum_cons,htotal,Nat.add_assoc]
            · rw [List.map_cons,List.map_cons,List.sum_cons,List.sum_cons,hescaping,Nat.add_assoc]
        · split at hd
          · cases hd
          · split at hd
            · cases hd
            · cases hd
    · cases hd

theorem parsePipelines_mapM {docs : List (List (Value × Value))} {pipelines : List Pipeline}
    (h : parsePipelines exprError docs = .ok pipelines) : docs.mapM (parsePipelineDoc exprError) = .ok pipelines := by
  unfold parsePipelines at h
  split at h
  · cases h
  obtain ⟨parsed,hparsed,h⟩ := bind_ok h
  split at h
  · cases h
  · cases h
    exact hparsed

variable (held src) in
theorem parsePipelineDocs_accounts {text : LoadedText} {registry after : SchemaRegistry} {pipelines : List Pipeline}
    (h : parsePipelineDocs exprError exceeds (.ok text.docs) registry = (.ok pipelines,after)) :
    Accounts exprError src (text.docs.map (tagCount held src)).sum (pipelines.map fun p => (p.steps.map (exprRefs src)).sum).sum
      (pipelines.map fun p => (p.steps.map (heldTags held src)).sum).sum (text.docs.map (escapingDoc held src)).sum := by
  unfold parsePipelineDocs at h
  dsimp only at h
  split at h
  · cases h
  · rename_i s hread
    split at h
    · rename_i hparsed
      cases h
      obtain ⟨new,hnew,hmem,hsum⟩ := readDocs_pipelines held hread
      obtain ⟨others,htotal,hescaping⟩ := hsum src
      rw [List.nil_append] at hnew
      have hmap := parsePipelines_mapM hparsed
      rw [hnew] at hmap
      have hall := Accounts.sum (fun doc hdoc p hp =>
        parsePipelineDoc_accounts held src (text.wf _ (hmem doc hdoc).1) (hmem doc hdoc).2 hp) hmap
      have hothers : Accounts exprError src others 0 0 others := .escaped _ (Nat.zero_le _)
      rw [htotal,hescaping]
      exact hall.add hothers
    · cases h

end Accounts

theorem sum_map_eq_zero {A : Type} {f : A → ℕ} {l : List A} : (l.map f).sum = 0 ↔ ∀ a ∈ l, f a = 0 := by
  rw [List.sum_eq_zero_iff_forall_eq_nat,List.forall_mem_map]

theorem sum_steps_eq_zero {f : Step → ℕ} {pipelines : List Pipeline} :
    (pipelines.map fun p => (p.steps.map f).sum).sum = 0 ↔ ∀ p ∈ pipelines, ∀ step ∈ p.steps, f step = 0 := by
  rw [sum_map_eq_zero]
  exact forall₂_congr fun p _ => sum_map_eq_zero

/-- The markers of an accepted text are resolved exactly when the loader kept them all and none escapes. -/
theorem markers_resolved_iff (exprError : String → Option String) (exceeds : Value → Value → Bool)
    (held : String → String → List String) {text : LoadedText} {registry after : SchemaRegistry} {pipelines : List Pipeline}
    (h : parsePipelineDocs exprError exceeds (.ok text.docs) registry = (.ok pipelines,after)) :
    Resolved exprError held text pipelines ↔
      text.overwritten = [] ∧ ∀ src, ∀ d ∈ text.docs, escapingDoc held src d = 0 := by
  constructor
  · intro hresolved
    -- the accounts leave no room for a marker besides the `ExprRef`s
    have hnone : ∀ src, text.overwritten.count src = 0 ∧ (text.docs.map (escapingDoc held src)).sum = 0 := by
      intro src
      have hbalance := (parsePipelineDocs_accounts held src h).balance
      have hbecame := hresolved.became src
      omega
    refine ⟨List.eq_nil_iff_forall_not_mem.mpr fun src hmem => ?_,fun src => sum_map_eq_zero.mp (hnone src).2⟩
    exact (List.count_pos_iff.mpr hmem).ne' (hnone src).1
  · rintro ⟨hkept,hescaping⟩
    have hzero : ∀ src, (text.docs.map (escapingDoc held src)).sum = 0 := fun src => sum_map_eq_zero.mpr (hescaping src)
    constructor
    · intro p hp step hstep src
      have hle := (parsePipelineDocs_accounts held src h).tags_le
      rw [hzero src,Nat.le_zero] at hle
      exact sum_steps_eq_zero.mp hle p hp step hstep
    · intro src
      rw [(parsePipelineDocs_accounts held src h).balance,hzero src,hkept]
      rfl
    · intro p hp step hstep src hne
      apply (parsePipelineDocs_accounts held src h).parses
      intro hsum
      exact hne (sum_steps_eq_zero.mp hsum p hp step hstep)

/-- One pipeline with one `tool` step. -/
def toolText (args : Value) : Value :=
  .dict [(.str "pipeline",.str "p"),
    (.str "steps",.list [.dict [(.str "tool",.dict [(.str "name",.str "search"),(.str "args",args)])]])]

def marker (src : String) : Value := .other "_ExprTag" src ""

def wholeArgument : LoadedText := ⟨[toolText (.dict [(.str "query",marker "ctx.a")])],[],by decide⟩

/-- A marker in the value of a member of `!!pairs`. -/
def inPairs : LoadedText := ⟨[toolText (.dict [(.str "query",.list [.tuple [.str "q",marker "ctx.a"]])])],[],by decide⟩

def searchStep (arg : Arg) : Pipeline := ⟨[.tool ⟨"search",[(.str "query",arg)],.none,none,none⟩],"","p"⟩

theorem whole_argument_resolved : Resolved (fun _ => none) (fun _ _ => []) wholeArgument [searchStep (.exprRef "ctx.a")] := by
  have h : parsePipelineDocs (fun _ => none) (fun _ _ => false) (.ok wholeArgument.docs) .empty =
      (.ok [searchStep (.exprRef "ctx.a")],.empty) := rfl
  apply (markers_resolved_iff _ _ _ h).mpr
  refine ⟨rfl,fun src d hd => ?_⟩
  cases List.mem_singleton.mp hd
  rfl

/-- The marker in the tuple is in the argument that the tool is given. -/
theorem marker_in_pairs : ¬∀ exprError exceeds held text registry pipelines after,
    parsePipelineDocs exprError exceeds (.ok text.docs) registry = (.ok pipelines,after) →
      Resolved exprError held text pipelines := by
  intro hall
  have hresolved := hall (fun _ => none) (fun _ _ => false) (fun _ _ => []) inPairs .empty
    [searchStep (.literal (.list [.tuple [.str "q",marker "ctx.a"]]))] .empty rfl
  have hzero := hresolved.unmarked _ List.mem_cons_self _ List.mem_cons_self "ctx.a"
  exact absurd hzero (by decide)

end Reyn.Parser
