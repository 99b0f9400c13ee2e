import Reyn.Lib.Fallible
import Reyn.Pipeline.Serde

/-! # A pipeline that was stored

What the decoders make of an encoded pipeline that went through a JSON file: the same
steps, with every literal as JSON gives it back and every mapping under the texts of its keys.
-/
namespace Reyn
open Py Serde Fallible

/-! ## The pipeline that comes back -/

def Arg.reload : Arg → Arg
  | .literal v => .literal v.reload
  | .exprRef src => .exprRef src

def ListSource.reload (source : ListSource) : ListSource where
  over_ := source.over_
  items := source.items.map fun items => items.map Value.reload

def ToolStep.reload (step : ToolStep) : ToolStep where
  name := step.name
  args := Value.retext (step.args.map fun p => (p.1,p.2.reload))
  output := step.output.reload
  schema := step.schema
  onError := step.onError

mutual
def Step.reload : Step → Step
  | .transform step => .transform { step with output := step.output.reload }
  | .tool step => .tool step.reload
  | .agent step => .agent { step with output := step.output.reload }
  | .call step => .call step
  | .match step => .match { step with cases := Value.retext step.cases }
  | .fold init run output source maxItems => .fold init run.reload output source.reload maxItems
  | .forEach run collect onError source maxParallel output =>
    .forEach run.reload collect.reload onError source.reload maxParallel output
  | .parallel branches collect onError output =>
    .parallel (Value.retext (reloadBranches branches)) collect.reload (if onError = "" then "abort" else onError) output
def reloadBranches : List (Value × Step) → List (Value × Step)
  | [] => []
  | (name,step) :: rest => (name,step.reload) :: reloadBranches rest
end

def Pipeline.reload (pipeline : Pipeline) : Pipeline := { pipeline with steps := pipeline.steps.map Step.reload }

theorem reloadBranches_eq_map (branches) : reloadBranches branches = branches.map fun p => (p.1,p.2.reload) := by
  induction branches with
  | nil => rfl
  | cons p rest ih => exact congrArg ((p.1,p.2.reload) :: ·) ih

/-! ## Decoding -/

namespace Serde

theorem get?_str (name key : String) (v : Value) (rest : List (Value × Value)) :
    Value.get? ((.str name,v) :: rest) key = if key = name then some v else Value.get? rest key := by
  rw [Value.get?,List.lookup_cons]
  by_cases h : key = name
  · rw [if_pos h,h,beq_self_eq_true]
  · have hne : (Value.str key == Value.str name) = false := by simpa using h
    rw [if_neg h,hne,Value.get?]

theorem get?_nil (key : String) : Value.get? [] key = none := rfl

theorem reload_named {fields : List (String × Value)} (h : (fields.map Prod.fst).Nodup) :
    (named fields).reload = named (fields.map fun p => (p.1,p.2.reload)) := by
  have hkeys : ((fields.map fun p => ((.str p.1 : Value),p.2)).map Prod.fst) = (fields.map Prod.fst).map .str := by
    rw [List.map_map,List.map_map]
    rfl
  rw [named,Value.reload_dict]
  · rw [Value.reloadFields_eq_map,named,List.map_map,List.map_map]
    rfl
  · rw [List.all_map]
    exact List.all_eq_true.mpr fun _ _ => rfl
  · rw [hkeys]
    exact h.map fun a b hab => Value.str.inj hab

@[simp] theorem str?_str (s : String) : str? (.str s) = some s := rfl

@[simp] theorem optStr?_str (s : String) : optStr? (.str s) = some (some s) := rfl

@[simp] theorem optStr?_reload (s : Option String) : optStr? (Value.ofStr? s).reload = some s := by cases s <;> rfl

@[simp] theorem decodeBound_reload (n : Option ℕ) : decodeBound (encodeBound n).reload = some n := by cases n <;> rfl

theorem mapM_map_some {A B C : Type} {f : A → B} {g : B → Option C} {h : A → C} {l : List A}
    (hg : ∀ a ∈ l, g (f a) = some (h a)) : (l.map f).mapM g = some (l.map h) := by
  induction l with
  | nil => rfl
  | cons a l ih =>
    rw [List.map_cons,List.mapM_cons,hg a List.mem_cons_self,ih fun b hb => hg b (List.mem_cons_of_mem _ hb)]
    rfl

@[simp] theorem decodeStrings_reload (names : Option (List String)) :
    decodeStrings (encodeStrings names).reload = some names := by
  cases names with
  | none => rfl
  | some names =>
    have hnames : (names.map (Value.reload ∘ .str)).mapM str? = some (names.map id) := mapM_map_some fun _ _ => rfl
    show ((Value.reloadItems (names.map .str)).mapM str?).map some = _
    rw [Value.reloadItems_eq_map,List.map_map,hnames,List.map_id]
    rfl

@[simp] theorem decodePassEntries_reload (entries : List (String × String)) :
    decodePassEntries (encodePassEntries entries).reload = some entries := by
  have hentries : (entries.map (Value.reload ∘ fun p => .list [.str p.1,.str p.2])).mapM decodePassEntry =
      some (entries.map id) := mapM_map_some fun _ _ => rfl
  show (Value.reloadItems (entries.map fun p => .list [.str p.1,.str p.2])).mapM decodePassEntry = _
  rw [Value.reloadItems_eq_map,List.map_map,hentries,List.map_id]

@[simp] theorem decodeItems_reload (items : Option (List Value)) :
    decodeItems (encodeItems items).reload = some (items.map fun items => items.map Value.reload) := by
  cases items with
  | none => rfl
  | some items =>
    show some (some (Value.reloadItems items)) = _
    rw [Value.reloadItems_eq_map]
    rfl

theorem numChar_intText (i : ℤ) : ∀ c ∈ Json.intText i, numChar c = true := by
  have hdigits : ∀ n : ℕ, ∀ c ∈ Nat.toDigits 10 n, numChar c = true := by
    intro n c hc
    have hdigit : c.isDigit = true := Nat.isDigit_of_mem_toDigits (by decide) (by decide) hc
    simp [numChar,hdigit]
  intro c hc
  unfold Json.intText at hc
  split at hc
  · rcases List.mem_cons.mp hc with rfl | hc
    · rfl
    · exact hdigits _ c hc
  · exact hdigits _ c hc

/-- Only the reserved name itself has its text. -/
theorem keyText_exprref {k : Value} (h : (Value.keyText k).getD "" = exprrefKey) : k = .str exprrefKey := by
  -- an underscore is in no numeral
  have hnumeral : ∀ cs : List Char, (∀ c ∈ cs, numChar c = true) → String.ofList cs ≠ exprrefKey := by
    intro cs hcs he
    have hmem : '_' ∈ cs := by
      have hlist : cs = exprrefKey.toList := by rw [← he,String.toList_ofList]
      rw [hlist]
      decide
    cases hcs _ hmem
  cases k with
  | str s => exact congrArg Value.str h
  | none => exact absurd h (by decide)
  | bool b => cases b <;> exact absurd h (by decide)
  | int i =>
    rw [Value.keyText] at h
    split at h
    · exact absurd h (hnumeral _ (numChar_intText i))
    · exact absurd h (by decide)
  | float f =>
    obtain ⟨t,ht⟩ := f
    have h : String.ofList t = exprrefKey := h
    rcases ht with ht | rfl | rfl | rfl
    · rw [isReal,Bool.and_eq_true,Bool.and_eq_true] at ht
      exact absurd h (hnumeral _ (List.all_eq_true.mp ht.1.1))
    · exact absurd h (by decide)
    · exact absurd h (by decide)
    · exact absurd h (by decide)
  | other _ _ _ | tuple _ | list _ | dict _ =>
    have hempty : "" = exprrefKey := h
    exact absurd hempty (by decide)

theorem decodeArg_dict {fields : List (Value × Value)} (h : ∀ v, (.str exprrefKey,v) ∉ fields) :
    decodeArg (.dict fields) = .literal (.dict fields) := by
  unfold decodeArg
  split
  · rename_i key src he
    cases he
    have hkey : key ≠ exprrefKey := by
      rintro rfl
      exact h _ List.mem_cons_self
    rw [if_neg hkey]
  · rfl

theorem decodeArg_reload {name : String} {key : Value} {a : Arg} {v : Value} (h : encodeArg name key a = .ok v) :
    decodeArg v.reload = a.reload := by
  cases a with
  | exprRef src =>
    cases h
    rfl
  | literal v =>
    cases v with
    | dict fields =>
      simp only [encodeArg] at h
      split at h
      · cases h
      · rename_i hfresh
        cases h
        show decodeArg (.dict (Value.retext (Value.reloadFields fields))) = _
        refine decodeArg_dict fun u hu => hfresh ?_
        obtain ⟨k,hk,htext⟩ := Value.mem_retext hu
        obtain rfl := keyText_exprref (Value.str.inj htext).symm
        rw [Value.reloadFields_eq_map] at hk
        obtain ⟨q,hq,hpair⟩ := List.mem_map.mp hk
        rw [Value.get?,List.lookup_isSome_iff]
        exact ⟨q,hq,beq_iff_eq.mpr (congrArg Prod.fst hpair).symm⟩
    | _ =>
      cases h
      rfl

/-- The arguments after encoding, storing and decoding. -/
theorem decodeArgs_reload {step : ToolStep} {args : List (Value × Value)}
    (h : (step.args.mapM fun p => (encodeArg step.name p.1 p.2).map fun v => (p.1,v)) = .ok args) :
    (Value.retext (Value.reloadFields args)).map (fun p => (p.1,decodeArg p.2)) =
      Value.retext (step.args.map fun p => (p.1,p.2.reload)) := by
  have hargs : (args.map fun p => (p.1,decodeArg p.2.reload)) = step.args.map fun p => (p.1,p.2.reload) := by
    have hmembers := mapM_ok_members h
    clear h
    generalize step.args = l at hmembers
    induction hmembers with
    | nil => rfl
    | cons hp _ ih =>
      rename_i p q _ _ _
      cases hv : encodeArg step.name p.1 p.2 with
      | error e =>
        rw [hv] at hp
        cases hp
      | ok v =>
        rw [hv] at hp
        cases hp
        rw [List.map_cons,List.map_cons,decodeArg_reload hv,ih]
  rw [← Value.retext_map,Value.reloadFields_eq_map,List.map_map]
  exact congrArg Value.retext hargs

@[simp] theorem members?_dict (fields : List (Value × Value)) : members? (.dict fields) = some fields := rfl

theorem reload_fields (fields : List (Value × Value)) :
    Value.reload (.dict fields) = .dict (Value.retext (Value.reloadFields fields)) := rfl

theorem decodeTransform_reload (step : TransformStep) (n : ℕ) :
    stepFromDict (n + 1) (encodeTransform step).reload = some (.transform { step with output := step.output.reload }) := by
  rw [encodeTransform,reload_named (by simp)]
  rfl

theorem decodeTool_reload {step : ToolStep} {v : Value} (h : encodeTool step = .ok v) (n : ℕ) :
    stepFromDict (n + 1) v.reload = some (.tool step.reload) := by
  unfold encodeTool at h
  cases hargs : (step.args.mapM fun p => (encodeArg step.name p.1 p.2).map fun v => (p.1,v)) with
  | error e =>
    rw [hargs] at h
    cases h
  | ok args =>
    rw [hargs] at h
    cases h
    have hdecoded := decodeArgs_reload hargs
    rw [reload_named (by simp)]
    show (decodeTool _).map Step.tool = _
    simp [decodeTool,field,get?_str,hdecoded,ToolStep.reload,Value.reload]

theorem decodeAgent_reload (step : AgentStep) (n : ℕ) :
    stepFromDict (n + 1) (encodeAgent step).reload = some (.agent { step with output := step.output.reload }) := by
  rw [encodeAgent,reload_named (by simp)]
  show (decodeAgent _).map Step.agent = _
  simp [decodeAgent,field,get?_str,Value.reload]

theorem decodeCall_reload (step : CallStep) (n : ℕ) :
    stepFromDict (n + 1) (encodeCall step).reload = some (.call step) := by
  rw [encodeCall,reload_named (by simp)]
  show (decodeCall _).map Step.call = _
  simp [decodeCall,field,get?_str,Value.reload]

theorem decodeMatchCase_reload (case_ : MatchCase) : decodeMatchCase (encodeMatchCase case_).reload = some case_ := by
  rw [encodeMatchCase,reload_named (by simp)]
  simp [decodeMatchCase,named,field,get?_str,Value.reload]

@[simp] theorem decodeDefault_reload (default : Option MatchCase) :
    decodeDefault (encodeDefault default).reload = some default := by
  cases default with
  | none => rfl
  | some case_ =>
    have hcase := decodeMatchCase_reload case_
    rw [encodeMatchCase,reload_named (by simp)] at hcase
    rw [encodeDefault,encodeMatchCase,reload_named (by simp)]
    show (decodeMatchCase _).map some = _
    rw [hcase]
    rfl

/-- Members that are decoded one by one, under the texts of their keys. -/
theorem mapM_retext {A B C : Type} {f : A → B} {g : B → Option C} {h : A → C} {fields : List (Value × A)}
    (hg : ∀ p ∈ Value.retext fields, g (f p.2) = some (h p.2)) :
    ((Value.retext (fields.map fun p => (p.1,f p.2))).mapM fun p => (g p.2).map fun c => (p.1,c)) =
      some (Value.retext (fields.map fun p => (p.1,h p.2))) := by
  rw [Value.retext_map,Value.retext_map]
  apply mapM_map_some
  intro p hp
  show (g (f p.2)).map _ = _
  rw [hg p hp]
  rfl

theorem decodeMatch_reload (step : MatchStep) (n : ℕ) :
    stepFromDict (n + 1) (encodeMatch step).reload = some (.match { step with cases := Value.retext step.cases }) := by
  have hcases := mapM_retext (f := fun case_ => (encodeMatchCase case_).reload) (h := id)
    fun (p : Value × MatchCase) (_ : p ∈ Value.retext step.cases) => decodeMatchCase_reload p.2
  have hself : (step.cases.map fun p => (p.1,id p.2)) = step.cases := List.map_id _
  have hfields : (Value.reloadFields (step.cases.map fun p => (p.1,encodeMatchCase p.2))) =
      step.cases.map fun p => (p.1,(encodeMatchCase p.2).reload) := by
    rw [Value.reloadFields_eq_map,List.map_map]
    rfl
  rw [hself,← hfields] at hcases
  rw [encodeMatch,reload_named (by simp)]
  show (decodeMatch _).map Step.match = _
  simp [decodeMatch,field,get?_str,hcases,Value.reload]

theorem decodeSource_reload (source : ListSource) (data : List (Value × Value))
    (hover : field data "over" = (Value.ofStr? source.over_).reload) (hitems : field data "items" = (encodeItems source.items).reload) :
    decodeSource data = some source.reload := by
  simp [decodeSource,hover,hitems,ListSource.reload]

section Nested
variable {n : ℕ} {run collect : Step} {v u : Value}

theorem decodeFold_reload (init output : String) (source : ListSource) (maxItems : Option ℕ)
    (hrun : stepFromDict n v.reload = some run.reload) :
    stepFromDict (n + 1) (encodeFold init v output source maxItems).reload = some (Step.fold init run output source maxItems).reload := by
  rw [encodeFold,reload_named (by simp)]
  show decodeFold (stepFromDict n) _ = _
  have hsource := decodeSource_reload source
  rw [decodeFold,hsource _ (by simp [field,get?_str]) (by simp [field,get?_str])]
  simp [field,get?_str,hrun,Value.reload,Step.reload]

theorem decodeForEach_reload (onError : String) (source : ListSource) (maxParallel : Option ℕ) (output : Option String)
    (hrun : stepFromDict n v.reload = some run.reload) (hcollect : stepFromDict n u.reload = some collect.reload) :
    stepFromDict (n + 1) (encodeForEach v u onError source maxParallel output).reload =
      some (Step.forEach run collect onError source maxParallel output).reload := by
  rw [encodeForEach,reload_named (by simp)]
  show decodeForEach (stepFromDict n) _ = _
  have hsource := decodeSource_reload source
  rw [decodeForEach,hsource _ (by simp [field,get?_str]) (by simp [field,get?_str])]
  simp [field,get?_str,hrun,hcollect,Value.reload,Step.reload]

theorem decodeParallel_reload {branches : List (Value × Step)} {vs : List (Value × Value)} {onError : String}
    (output : Option String)
    (hbranches : ((Value.retext (Value.reloadFields vs)).mapM fun p => (stepFromDict n p.2).map fun step => (p.1,step)) =
      some (Value.retext (reloadBranches branches)))
    (hcollect : stepFromDict n u.reload = some collect.reload) :
    stepFromDict (n + 1) (encodeParallel vs u onError output).reload =
      some (Step.parallel branches collect onError output).reload := by
  rw [encodeParallel,reload_named (by simp)]
  show decodeParallel (stepFromDict n) _ = _
  by_cases h : onError = ""
  · subst h
    simp [decodeParallel,field,get?_str,hbranches,hcollect,Value.reload,Step.reload]
  · simp [decodeParallel,field,get?_str,hbranches,hcollect,Value.reload,Step.reload,h]

end Nested

theorem map_ok {E A B : Type} {x : Except E A} {f : A → B} {b : B} (h : x.map f = .ok b) : ∃ a, x = .ok a ∧ f a = b := by
  cases x with
  | error e => cases h
  | ok a => exact ⟨a,rfl,Except.ok.inj h⟩

/-- A member of a stored dictionary is less deep. -/
theorem depth_named {fields : List (String × Value)} (hn : (fields.map Prod.fst).Nodup) {p : String × Value} (hp : p ∈ fields) :
    p.2.reload.depth < (named fields).reload.depth := by
  rw [reload_named hn]
  have hmem : (Value.str p.1,p.2.reload) ∈ (fields.map fun p => (p.1,p.2.reload)).map fun p => (Value.str p.1,p.2) := by
    rw [List.map_map]
    exact List.mem_map.mpr ⟨p,hp,rfl⟩
  exact Value.depth_lt_dict hmem

mutual
/-- What the decoder makes of a stored step. -/
theorem stepFromDict_reload : ∀ {s : Step} {v : Value}, stepToDict s = .ok v → ∀ {n : ℕ}, v.reload.depth < n →
    stepFromDict n v.reload = some s.reload
  | s, v, h, 0, hn => absurd hn (Nat.not_lt_zero _)
  | .transform step, _, h, n + 1, _ => by
    cases h
    exact decodeTransform_reload step n
  | .tool step, _, h, n + 1, _ => decodeTool_reload h n
  | .agent step, _, h, n + 1, _ => by
    cases h
    exact decodeAgent_reload step n
  | .call step, _, h, n + 1, _ => by
    cases h
    exact decodeCall_reload step n
  | .match step, _, h, n + 1, _ => by
    cases h
    exact decodeMatch_reload step n
  | .fold init run output source maxItems, _, h, n + 1, hn => by
    obtain ⟨v,hv,rfl⟩ := map_ok h
    have hdepth : v.reload.depth < n := by
      refine lt_of_lt_of_le (depth_named (p := ("do",v)) ?_ ?_) (Nat.le_of_lt_succ hn)
      · simp
      · simp
    exact decodeFold_reload init output source maxItems (stepFromDict_reload hv hdepth)
  | .forEach run collect onError source maxParallel output, _, h, n + 1, hn => by
    obtain ⟨v,hv,h⟩ := bind_ok h
    obtain ⟨u,hu,h⟩ := bind_ok h
    cases h
    have hrun : v.reload.depth < n := by
      refine lt_of_lt_of_le (depth_named (p := ("do",v)) ?_ ?_) (Nat.le_of_lt_succ hn)
      · simp
      · simp
    have hcollect : u.reload.depth < n := by
      refine lt_of_lt_of_le (depth_named (p := ("collect",u)) ?_ ?_) (Nat.le_of_lt_succ hn)
      · simp
      · simp
    exact decodeForEach_reload onError source maxParallel output (stepFromDict_reload hv hrun) (stepFromDict_reload hu hcollect)
  | .parallel branches collect onError output, _, h, n + 1, hn => by
    obtain ⟨vs,hvs,h⟩ := bind_ok h
    obtain ⟨u,hu,h⟩ := bind_ok h
    cases h
    have hbranches : (Value.dict vs).reload.depth < n := by
      refine lt_of_lt_of_le (depth_named (p := ("branches",.dict vs)) ?_ ?_) (Nat.le_of_lt_succ hn)
      · simp
      · simp
    have hcollect : u.reload.depth < n := by
      refine lt_of_lt_of_le (depth_named (p := ("collect",u)) ?_ ?_) (Nat.le_of_lt_succ hn)
      · simp
      · simp
    obtain ⟨zs,rfl,rfl,hzs⟩ := branchesFromDict_reload hvs
    apply decodeParallel_reload
    · have hfields : (Value.reloadFields (zs.map fun z => (z.1,z.2.1))) = zs.map fun z => (z.1,z.2.1.reload) := by
        rw [Value.reloadFields_eq_map,List.map_map]
        rfl
      have hsteps : (reloadBranches (zs.map fun z => (z.1,z.2.2))) = zs.map fun z => (z.1,z.2.2.reload) := by
        rw [reloadBranches_eq_map,List.map_map]
        rfl
      rw [hfields,hsteps]
      apply mapM_retext (f := fun z : Value × Step => z.1.reload) (h := fun z : Value × Step => z.2.reload)
      intro z hz
      obtain ⟨k,hk,-⟩ := Value.mem_retext hz
      apply hzs _ hk
      refine lt_trans (Value.depth_lt_dict (p := (z.1,z.2.1.reload)) ?_) hbranches
      rw [hfields,Value.retext_map (f := fun z : Value × Step => z.1.reload)]
      exact List.mem_map_of_mem hz
    · exact stepFromDict_reload hu hcollect
/-- The branches side by side with what is written for them. -/
theorem branchesFromDict_reload : ∀ {branches : List (Value × Step)} {vs : List (Value × Value)},
    branchesToDict branches = .ok vs → ∃ zs : List (Value × Value × Step), branches = (zs.map fun z => (z.1,z.2.2)) ∧
      vs = (zs.map fun z => (z.1,z.2.1)) ∧
        ∀ z ∈ zs, ∀ {n : ℕ}, z.2.1.reload.depth < n → stepFromDict n z.2.1.reload = some z.2.2.reload
  | [], _, h => by
    cases h
    exact ⟨[],rfl,rfl,nofun⟩
  | (name,s) :: rest, _, h => by
    obtain ⟨v,hv,h⟩ := bind_ok h
    obtain ⟨vs,hvs,h⟩ := bind_ok h
    cases h
    obtain ⟨zs,rfl,rfl,hzs⟩ := branchesFromDict_reload hvs
    refine ⟨(name,v,s) :: zs,rfl,rfl,?_⟩
    intro z hz
    rcases List.mem_cons.mp hz with rfl | hz
    · exact stepFromDict_reload hv
    · exact hzs z hz
end

/-- What the decoder makes of a stored pipeline. -/
theorem pipelineFromDict_reload {pipeline : Pipeline} {v : Value} (h : pipelineToDict pipeline = .ok v) :
    pipelineFromDict v.reload = some pipeline.reload := by
  obtain ⟨vs,hvs,rfl⟩ := map_ok h
  have hmembers := mapM_ok_members hvs
  clear hvs h
  have hdepth : ∀ u ∈ vs.map Value.reload, u.depth <
      (named [("description",.str pipeline.description),("name",.str pipeline.name),("steps",.list vs)]).reload.depth := by
    intro u hu
    rw [← Value.reloadItems_eq_map] at hu
    refine lt_trans (Value.depth_lt_list hu) ?_
    apply depth_named (p := ("steps",.list vs))
    · simp
    · simp
  rw [reload_named (by simp)] at hdepth ⊢
  have hsteps : (vs.map Value.reload).mapM (stepFromDict (named ([("description",Value.str pipeline.description),
      ("name",.str pipeline.name),("steps",.list vs)].map fun p => (p.1,p.2.reload))).depth) = some (pipeline.steps.map Step.reload) := by
    revert hdepth
    generalize (named _).depth = n
    generalize pipeline.steps = steps at hmembers
    intro hdepth
    induction hmembers with
    | nil => rfl
    | cons hs _ ih =>
      rename_i s v _ _ _
      have hv := stepFromDict_reload hs (hdepth _ (List.mem_cons_self))
      rw [List.map_cons,List.mapM_cons,hv,ih fun u hu => hdepth u (List.mem_cons_of_mem _ hu)]
      rfl
  rw [named,List.map_map] at hsteps ⊢
  simp only [List.map_cons,List.map_nil,Function.comp_apply,Value.reload,Value.reloadItems_eq_map] at hsteps ⊢
  simp [pipelineFromDict,field,get?_str,hsteps,Pipeline.reload]

end Serde

/-! ## What a stored pipeline keeps -/

def Arg.kept : Arg → Bool
  | .literal v => v.kept
  | .exprRef _ => true

def ListSource.kept (source : ListSource) : Bool := (source.items.getD []).all Value.kept

/-- Distinct strings for keys. -/
def namesKept (names : List Value) : Bool := names.Nodup && names.all Value.isText

def ToolStep.kept (step : ToolStep) : Bool :=
  namesKept (step.args.map Prod.fst) && step.args.all (fun p => p.2.kept) && step.output.kept

mutual
def Step.kept : Step → Bool
  | .transform step => step.output.kept
  | .tool step => step.kept
  | .agent step => step.output.kept
  | .call _ => true
  | .match step => namesKept (step.cases.map Prod.fst)
  | .fold _ run _ source _ => run.kept && source.kept
  | .forEach run collect _ source _ _ => run.kept && collect.kept && source.kept
  | .parallel branches collect onError _ =>
    namesKept (branches.map Prod.fst) && branchesKept branches && collect.kept && onError != ""
def branchesKept : List (Value × Step) → Bool
  | [] => true
  | (_,step) :: rest => step.kept && branchesKept rest
end

/-- Every key and every label is a string, every literal has a JSON form. -/
def Pipeline.kept (pipeline : Pipeline) : Bool := pipeline.steps.all Step.kept

theorem branchesKept_iff {branches} : branchesKept branches = true ↔ ∀ p ∈ branches, p.2.kept = true := by
  induction branches with
  | nil => simp [branchesKept]
  | cons p rest ih => simp [branchesKept,ih]

theorem Arg.reload_eq_iff {a : Arg} : a.reload = a ↔ a.kept = true := by
  cases a with
  | literal v => rw [Arg.reload,Arg.literal.injEq,Value.reload_eq_self_iff,Arg.kept]
  | exprRef src => exact ⟨fun _ => rfl,fun _ => rfl⟩

theorem ListSource.reload_eq_iff {source : ListSource} : source.reload = source ↔ source.kept = true := by
  obtain ⟨over_,items⟩ := source
  cases items with
  | none => exact ⟨fun _ => rfl,fun _ => rfl⟩
  | some items =>
    rw [ListSource.reload,ListSource.mk.injEq,Option.map_some,Option.some.injEq,Value.map_eq_self_iff,ListSource.kept,Option.getD_some,
      List.all_eq_true]
    simp only [true_and]
    exact forall₂_congr fun v _ => Value.reload_eq_self_iff

/-- Members that keep their names and come back. -/
theorem retext_eq_iff {A : Type} {f : A → A} {fields : List (Value × A)} :
    Value.retext (fields.map fun p => (p.1,f p.2)) = fields ↔
      namesKept (fields.map Prod.fst) = true ∧ ∀ p ∈ fields, f p.2 = p.2 := by
  rw [Value.retext_map_eq_self_iff,namesKept,Bool.and_eq_true,decide_eq_true_eq,List.all_map,List.all_eq_true,and_assoc]
  apply and_congr_right'
  exact ⟨fun h => ⟨fun p hp => (h p hp).1,fun p hp => (h p hp).2⟩,fun h p hp => ⟨h.1 p hp,h.2 p hp⟩⟩

theorem ToolStep.reload_eq_iff {step : ToolStep} : step.reload = step ↔ step.kept = true := by
  obtain ⟨name,args,output,schema,onError⟩ := step
  simp only [ToolStep.reload,ToolStep.mk.injEq,true_and,and_true,retext_eq_iff,Value.reload_eq_self_iff,Arg.reload_eq_iff,ToolStep.kept,
    Bool.and_eq_true,List.all_eq_true]

theorem retext_self_iff {A : Type} {fields : List (Value × A)} :
    Value.retext fields = fields ↔ namesKept (fields.map Prod.fst) = true := by
  have h : Value.retext (fields.map fun p => (p.1,id p.2)) = fields ↔ _ := retext_eq_iff (f := id)
  have hself : (fields.map fun p => (p.1,id p.2)) = fields := List.map_id _
  rw [hself] at h
  exact h.trans (and_iff_left fun _ _ => rfl)

mutual
/-- A step that comes back as it was. -/
theorem Step.reload_eq_iff : ∀ {s : Step}, s.reload = s ↔ s.kept = true
  | .transform ⟨value,output⟩ => by
    simp only [Step.reload,Step.transform.injEq,TransformStep.mk.injEq,true_and,Value.reload_eq_self_iff,Step.kept]
  | .tool step => by rw [Step.reload,Step.tool.injEq,ToolStep.reload_eq_iff,Step.kept]
  | .agent ⟨prompt,identity,capabilities,schema,model,output⟩ => by
    simp only [Step.reload,Step.agent.injEq,AgentStep.mk.injEq,true_and,Value.reload_eq_self_iff,Step.kept]
  | .call step => ⟨fun _ => rfl,fun _ => rfl⟩
  | .match ⟨on,cases,default,output⟩ => by
    simp only [Step.reload,Step.match.injEq,MatchStep.mk.injEq,true_and,and_true,retext_self_iff,Step.kept]
  | .fold init run output source maxItems => by
    simp only [Step.reload,Step.fold.injEq,true_and,and_true,Step.reload_eq_iff (s := run),ListSource.reload_eq_iff,Step.kept,
      Bool.and_eq_true]
  | .forEach run collect onError source maxParallel output => by
    simp only [Step.reload,Step.forEach.injEq,true_and,and_true,Step.reload_eq_iff (s := run),Step.reload_eq_iff (s := collect),
      ListSource.reload_eq_iff,Step.kept,Bool.and_eq_true,and_assoc]
  | .parallel branches collect onError output => by
    have hpolicy : (if onError = "" then "abort" else onError) = onError ↔ onError ≠ "" := by
      by_cases h : onError = ""
      · simp [h]
      · simp [h]
    rw [Step.reload,reloadBranches_eq_map]
    simp only [Step.parallel.injEq,and_true,Step.reload_eq_iff (s := collect),hpolicy,retext_eq_iff,branches_reload_eq_iff,Step.kept,
      Bool.and_eq_true,bne_iff_ne,and_assoc]
theorem branches_reload_eq_iff : ∀ {branches : List (Value × Step)},
    (∀ p ∈ branches, p.2.reload = p.2) ↔ branchesKept branches = true
  | [] => by simp [branchesKept]
  | (name,s) :: rest => by
    simp only [List.forall_mem_cons,@branches_reload_eq_iff rest,Step.reload_eq_iff (s := s),branchesKept,Bool.and_eq_true]
end

/-- The pipelines that come back as they were. -/
theorem Pipeline.reload_eq_iff {pipeline : Pipeline} : pipeline.reload = pipeline ↔ pipeline.kept = true := by
  obtain ⟨steps,description,name⟩ := pipeline
  rw [Pipeline.reload,Pipeline.mk.injEq,Value.map_eq_self_iff,Pipeline.kept,List.all_eq_true]
  simp only [and_true]
  exact forall₂_congr fun s _ => Step.reload_eq_iff

end Reyn
