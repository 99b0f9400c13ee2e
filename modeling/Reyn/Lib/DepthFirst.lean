import Reyn.Lib.Fallible

/-! # Depth-first search for a cycle

The search carries the path it is on and the nodes it is done with, in the order
it finished them. A node that is met on the path closes a cycle; when the search
ends, every node comes after the nodes it leads to.
-/
namespace DepthFirst
open Relation Fallible
variable {α : Type} [DecidableEq α] (edges : α → List α)

def Edge (u v : α) : Prop := v ∈ edges u

/-- A node that the last one of the path leads to. The error is the cycle it closes. -/
def look (visit : List α → List α → α → Except (List α) (List α)) (path finished : List α) (dep : α) :
    Except (List α) (List α) :=
  if dep ∈ path then .error (path.drop (path.idxOf dep) ++ [dep])
  else if dep ∈ finished then .ok finished
  else visit path finished dep

def visit : ℕ → List α → List α → α → Except (List α) (List α)
  | 0, _, finished, _ => .ok finished
  | fuel + 1, path, finished, name => do
    let finished ← (edges name).foldlM (look (visit fuel) (path ++ [name])) finished
    return finished ++ [name]

/-- Visit the nodes that are not finished, one after the other. -/
def search (names : List α) : Except (List α) (List α) :=
  names.foldlM (look (visit edges names.length) []) []

/-! ## A cycle that is found -/

def IsCycle (walk : List α) : Prop := ∃ v middle, walk = v :: middle ++ [v] ∧ walk.IsChain (Edge edges)

variable {edges}

omit [DecidableEq α] in
theorem reaches_last {u v : α} {walk : List α} (h : (u :: walk ++ [v]).IsChain (Edge edges)) :
    TransGen (Edge edges) u v := by
  induction walk generalizing u with
  | nil => exact .single (List.isChain_pair.mp h)
  | cons w rest ih =>
    obtain ⟨huw,hrest⟩ := List.isChain_cons_cons.mp h
    exact .head huw (ih hrest)

omit [DecidableEq α] in
theorem IsCycle.transGen {walk : List α} (h : IsCycle edges walk) : ∃ v ∈ walk, TransGen (Edge edges) v v := by
  obtain ⟨v,middle,rfl,hchain⟩ := h
  exact ⟨v,by simp,reaches_last hchain⟩

/-- The path from a node on it, closed by an edge back to that node. -/
theorem IsCycle.of_path {path : List α} {last dep : α} (hchain : (path ++ [last]).IsChain (Edge edges))
    (hmem : dep ∈ path ++ [last]) (hedge : Edge edges last dep) :
    IsCycle edges ((path ++ [last]).drop ((path ++ [last]).idxOf dep) ++ [dep]) := by
  have hlt : (path ++ [last]).idxOf dep < (path ++ [last]).length := List.idxOf_lt_length_iff.mpr hmem
  have hdrop : (path ++ [last]).drop ((path ++ [last]).idxOf dep) =
      dep :: (path ++ [last]).drop ((path ++ [last]).idxOf dep + 1) := by
    rw [List.drop_eq_getElem_cons hlt,List.getElem_idxOf]
  refine ⟨dep,(path ++ [last]).drop ((path ++ [last]).idxOf dep + 1),by rw [hdrop],?_⟩
  apply List.IsChain.append
  · exact hchain.suffix (List.drop_suffix ..)
  · exact List.isChain_singleton dep
  · intro x hx y hy
    have hlast : ((path ++ [last]).drop ((path ++ [last]).idxOf dep)).getLast? = some last := by
      rw [List.getLast?_drop,if_neg (Nat.not_le_of_lt hlt),List.getLast?_concat]
    obtain rfl : last = x := Option.some.inj (hlast.symm.trans hx)
    obtain rfl : dep = y := Option.some.inj hy
    exact hedge

/-- The cycle a failing search stops at: what a visit from the path may return as an error. -/
theorem look_error {fuel : ℕ} {path finished : List α} {name dep : α} {walk : List α}
    (hvisit : ∀ finished dep, (path ++ [name] ++ [dep]).IsChain (Edge edges) →
      visit edges fuel (path ++ [name]) finished dep = .error walk → IsCycle edges walk)
    (hchain : (path ++ [name]).IsChain (Edge edges)) (hedge : Edge edges name dep)
    (h : look (visit edges fuel) (path ++ [name]) finished dep = .error walk) : IsCycle edges walk := by
  rw [look] at h
  split at h
  · cases h
    exact .of_path hchain ‹_› hedge
  · split at h
    · cases h
    · refine hvisit finished dep ?_ h
      apply hchain.append (List.isChain_singleton dep)
      intro x hx y hy
      obtain rfl : name = x := by simpa using hx
      obtain rfl : dep = y := by simpa using hy
      exact hedge

theorem visit_error {fuel : ℕ} {path finished : List α} {name : α} {walk : List α}
    (hchain : (path ++ [name]).IsChain (Edge edges)) (h : visit edges fuel path finished name = .error walk) :
    IsCycle edges walk := by
  induction fuel generalizing path finished name with
  | zero => cases h
  | succ fuel ih =>
    rw [visit] at h
    cases hfold : (edges name).foldlM (look (visit edges fuel) (path ++ [name])) finished with
    | ok done => rw [hfold] at h; cases h
    | error walk' =>
      rw [hfold] at h
      cases h
      obtain ⟨dep,hdep,finished',hlook⟩ := foldlM_error hfold
      exact look_error (fun _ _ hc he => ih hc he) hchain hdep hlook

theorem search_error {names walk : List α} (h : search edges names = .error walk) : IsCycle edges walk := by
  obtain ⟨name,-,finished,hlook⟩ := foldlM_error h
  rw [look,if_neg List.not_mem_nil] at hlook
  split at hlook
  · cases hlook
  · exact visit_error (List.isChain_singleton name) hlook

/-! ## A search that ends -/

variable (edges) in
/-- Every node comes after the nodes it leads to. -/
inductive Finished : List α → Prop
  | nil : Finished []
  | concat {done : List α} {name : α} : Finished done → (∀ dep ∈ edges name, dep ∈ done) → Finished (done ++ [name])

omit [DecidableEq α] in
theorem Finished.closed {done : List α} (h : Finished edges done) {u v : α} (hu : u ∈ done) (hedge : Edge edges u v) :
    v ∈ done := by
  induction h with
  | nil => cases hu
  | concat _ hdeps ih =>
    rcases List.mem_append.mp hu with hu | hu
    · exact List.mem_append_left _ (ih hu)
    · obtain rfl := List.mem_singleton.mp hu
      exact List.mem_append_left _ (hdeps v hedge)

omit [DecidableEq α] in
theorem Finished.reaches {done : List α} (h : Finished edges done) {u v : α} (hu : u ∈ done)
    (hr : ReflTransGen (Edge edges) u v) : v ∈ done := by
  induction hr with
  | refl => exact hu
  | tail _ hedge ih => exact h.closed ih hedge

omit [DecidableEq α] in
theorem Finished.acyclic {done : List α} (h : Finished edges done) {v : α} (hv : v ∈ done) :
    ¬ TransGen (Edge edges) v v := by
  induction h generalizing v with
  | nil => cases hv
  | @concat done name hdone hdeps ih =>
    intro hcycle
    by_cases hmem : v ∈ done
    · exact ih hmem hcycle
    · obtain rfl : v = name := by simpa [hmem] using hv
      obtain ⟨dep,hdep,hback⟩ := TransGen.head'_iff.mp hcycle
      exact hmem (hdone.reaches (hdeps dep hdep) hback)

/-- What a look and a visit leave behind: the nodes stay finished, and so is the new one. -/
structure Adds (finished : List α) (name : α) (done : List α) : Prop where
  ordered : Finished edges done
  keeps : finished ⊆ done
  adds : name ∈ done

omit [DecidableEq α] in
theorem foldlM_adds {f : List α → α → Except (List α) (List α)} {deps finished done : List α}
    (hstep : ∀ finished done, ∀ dep ∈ deps, Finished edges finished → f finished dep = .ok done →
      @Adds α edges finished dep done)
    (hf : Finished edges finished) (h : deps.foldlM f finished = .ok done) :
    Finished edges done ∧ finished ⊆ done ∧ ∀ dep ∈ deps, dep ∈ done := by
  induction deps generalizing finished with
  | nil =>
    cases h
    exact ⟨hf,List.Subset.refl _,fun _ hdep => absurd hdep List.not_mem_nil⟩
  | cons dep rest ih =>
    rw [List.foldlM_cons] at h
    cases hdep : f finished dep with
    | error e => rw [hdep] at h; cases h
    | ok next =>
      rw [hdep] at h
      have hadds := hstep finished next dep List.mem_cons_self hf hdep
      obtain ⟨hdone,hkeeps,hall⟩ := ih (fun _ _ d hd => hstep _ _ d (List.mem_cons_of_mem _ hd)) hadds.ordered h
      refine ⟨hdone,List.Subset.trans hadds.keeps hkeeps,?_⟩
      intro d hd
      rcases List.mem_cons.mp hd with rfl | hd
      · exact hkeeps hadds.adds
      · exact hall d hd

theorem look_adds {fuel : ℕ} {path finished done : List α} {dep : α}
    (hvisit : dep ∉ path → visit edges fuel path finished dep = .ok done → @Adds α edges finished dep done)
    (hf : Finished edges finished) (h : look (visit edges fuel) path finished dep = .ok done) :
    @Adds α edges finished dep done := by
  rw [look] at h
  split at h
  · cases h
  · split at h
    · cases h
      exact ⟨hf,List.Subset.refl _,‹_›⟩
    · exact hvisit ‹_› h

/-- The fuel is the number of nodes that are not on the path. -/
theorem visit_adds {names : List α} (hclosed : ∀ u ∈ names, ∀ v ∈ edges u, v ∈ names) {fuel : ℕ}
    {path finished done : List α} {name : α} (hfuel : names.length ≤ fuel + path.length)
    (hnodup : (path ++ [name]).Nodup) (hsub : path ++ [name] ⊆ names) (hf : Finished edges finished)
    (h : visit edges fuel path finished name = .ok done) : @Adds α edges finished name done := by
  induction fuel generalizing path finished done name with
  | zero =>
    have hle : (path ++ [name]).length ≤ names.length := (hnodup.subperm hsub).length_le
    rw [List.length_append,List.length_singleton] at hle
    omega
  | succ fuel ih =>
    rw [visit] at h
    cases hfold : (edges name).foldlM (look (visit edges fuel) (path ++ [name])) finished with
    | error walk => rw [hfold] at h; cases h
    | ok next =>
      rw [hfold] at h
      cases h
      obtain ⟨hnext,hkeeps,hdeps⟩ := foldlM_adds (fun finished' done' dep hdep hf' hlook => by
        refine look_adds (fun hfresh hvisit => ?_) hf' hlook
        refine ih ?_ ?_ ?_ hf' hvisit
        · rw [List.length_append,List.length_singleton]
          omega
        · exact List.nodup_append.mpr ⟨hnodup,List.nodup_singleton dep,fun a ha b hb => by
            obtain rfl := List.mem_singleton.mp hb
            exact fun heq => hfresh (heq ▸ ha)⟩
        · apply List.append_subset.mpr ⟨hsub,?_⟩
          intro d hd
          obtain rfl := List.mem_singleton.mp hd
          exact hclosed name (hsub (by simp)) d hdep) hf hfold
      exact ⟨.concat hnext hdeps,List.Subset.trans hkeeps (List.subset_append_left ..),by simp⟩

/-- A search that ends has put all nodes in an order. -/
theorem search_finished {names done : List α} (hedges : ∀ u v, Edge edges u v → u ∈ names ∧ v ∈ names)
    (h : search edges names = .ok done) : Finished edges done ∧ ∀ name ∈ names, name ∈ done := by
  obtain ⟨hordered,-,hall⟩ := foldlM_adds (fun finished' done' name hname hf hlook =>
    look_adds (fun _ hvisit => visit_adds (fun u _ v hv => (hedges u v hv).2) (by simp) (by simp)
      (by simpa using hname) hf hvisit) hf hlook) .nil h
  exact ⟨hordered,hall⟩

/-- The search ends without an error exactly when there is no cycle. -/
theorem search_ok_iff {names : List α} (hedges : ∀ u v, Edge edges u v → u ∈ names ∧ v ∈ names) :
    (∃ done, search edges names = .ok done) ↔ ∀ v, ¬ TransGen (Edge edges) v v := by
  constructor
  · rintro ⟨done,hdone⟩ v hcycle
    obtain ⟨hordered,hall⟩ := search_finished hedges hdone
    obtain ⟨w,hvw,-⟩ := TransGen.head'_iff.mp hcycle
    exact hordered.acyclic (hall v (hedges v w hvw).1) hcycle
  · intro hacyclic
    cases h : search edges names with
    | ok done => exact ⟨done,rfl⟩
    | error walk =>
      obtain ⟨v,-,hcycle⟩ := (search_error h).transGen
      exact absurd hcycle (hacyclic v)

end DepthFirst
