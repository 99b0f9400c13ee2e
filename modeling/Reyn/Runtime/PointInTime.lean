import Reyn.Runtime.WorldInvariant
import Reyn.Runtime.AgentLifecycle

/-! # Point-in-time recovery

A rewind rebuilds a session from its newest generation on the target's lineage and
from what truncation left in the file. The retention guard compares the target with
the oldest entry in the file only; it does not ask whether the entries of each
session between that generation and the target are still there.
-/
namespace Reyn
open Py TimeTravel Transition

/-- A rewind finds, for each session it rewinds, every entry on the target's lineage above
the newest generation of that lineage in the file, and every chain pending in that generation
settled or registered anew by a later entry. The sessions exist throughout. -/
def World.IntactCheckout (w : World) : Action → Prop
  | .checkout _ => ∀ target scope, w.admitted = some (target,scope) →
      ∀ key s, w.sessions.get? key = some s → World.rewinds scope key = true →
        Covered w.hist w.wal key s.store target ∧ ChainsRenewed w.hist key s.store target
  | .record r => r.kind ∉ lifecycleKinds
  | _ => True

theorem World.IntactCheckout.covered {w : World} {a : Action} (h : w.IntactCheckout a) : w.CoveredCheckout a := by
  cases a with
  | checkout ts => exact fun target scope hadm key s hs hr => (h target scope hadm key s hs hr).1
  | _ => trivial

/-- In every run whose rewinds are intact, what an accepted rewind reconstructs for a session
is the whole history of the session on the target's lineage. -/
theorem checkout_reconstructs_history (cfg : Config) (w w' : World) (ts : String)
    (hr : Runs (World.step cfg) World.IntactCheckout World.init w)
    (hi : w.IntactCheckout (.checkout ts)) (hs : World.step cfg w (.checkout ts) = some w')
    (target : ℕ) (scope : Scope) (hadm : w.admitted = some (target,scope)) (key : SessionKey) (s : Session)
    (hkey : w.sessions.get? key = some s) (hrew : World.rewinds scope key = true) :
    ∃ snap t, reconstruct key.1 key.2 s.store (w'.wal.map (·.event)) w'.lastSeq (some key) = .ok snap ∧
      w.hist.fold key target = .ok t ∧ EqUpToSeq snap t := by
  have hinv : w.Inv := World.Inv.run (hr.mono fun _ _ h => h.covered)
  obtain ⟨target',scope',ht,hco⟩ := World.checkout_cases hs
  obtain ⟨rfl,rfl⟩ := Prod.mk.inj (Option.some.inj (hco.admitted.symm.trans hadm))
  obtain ⟨hcov,hren⟩ := hi target' scope' hadm key s hkey hrew
  obtain ⟨snap,t,hsnap,hfold,-,heq⟩ := hinv.reconstruct ts ht hkey hrew hcov
  refine ⟨snap,t,?_,hfold,heq hren⟩
  rw [hco.wal,World.lastSeq,hco.head]
  exact hsnap

/-- Nothing has been dropped and nothing cut. -/
theorem Covered.of_whole {w : Wal} {key : SessionKey} {store : SnapshotGenerationStore} {h : ℕ} :
    Covered w w.lines key store h := fun _ hl _ => List.mem_of_mem_filter hl

theorem ChainsRenewed.of_empty {w : Wal} {key : SessionKey} {h : ℕ} : ChainsRenewed w key .empty h := by
  rintro id ⟨hid,-⟩
  cases hid

/-- One entry is staged, and a rewind to it is admitted. -/
def stagedActions : List Action :=
  [.load ("a","main"),.mutate ("a","main") (.nextTurnContextStaged "note" .null),.work "t",.admission 1 none]

def stagedRun : Computed (runAll (World.step ⟨20,none⟩) World.init stagedActions) (fun w =>
    w.admitted == some (1,none) && (w.sessions.items.all fun p => p.2.store = .empty) &&
      (w.sessions.get? ("a","main")).isSome && (w.checkout "t").isSome && decide (w.wal.length = w.hist.lines.length)) :=
  .of _ _ (by decide +kernel)

theorem checkout_reconstructs_history_staged : ∃ w w' s snap t,
    World.step ⟨20,none⟩ w (.checkout "t") = some w' ∧ w.sessions.get? ("a","main") = some s ∧
    reconstruct "a" "main" s.store (w'.wal.map (·.event)) w'.lastSeq (some ("a","main")) = .ok snap ∧
    w.hist.fold ("a","main") 1 = .ok t ∧ EqUpToSeq snap t := by
  obtain ⟨w,hw,hv⟩ := stagedRun
  simp only [Bool.and_eq_true,beq_iff_eq] at hv
  obtain ⟨⟨⟨⟨hadm,hstores⟩,hsome⟩,hstep⟩,hlength⟩ := hv
  obtain ⟨s,hs⟩ := Option.isSome_iff_exists.mp hsome
  obtain ⟨w',hw'⟩ := Option.isSome_iff_exists.mp hstep
  have hplain : ∀ a ∈ stagedActions, ∀ v : World, v.IntactCheckout a := by simp [stagedActions,World.IntactCheckout]
  have hrun := Runs.of_runAll (.refl _) (fun a ha v => hplain a ha v) hw
  have hwhole : w.wal = w.hist.lines :=
    (World.Inv.run (hrun.mono fun _ _ h => h.covered)).kept.sub.eq_of_length (by simpa using hlength)
  have hintact : w.IntactCheckout (.checkout "t") := by
    intro target scope _ key s' hs' _
    have hempty : s'.store = .empty := by
      have := List.all_eq_true.mp hstores (key,s') (Dict.mem_of_get? hs')
      simpa using this
    rw [hwhole,hempty]
    exact ⟨.of_whole,.of_empty⟩
  obtain ⟨snap,t,hsnap,hfold,heq⟩ := checkout_reconstructs_history ⟨20,none⟩ w w' "t"
    hrun hintact hw' 1 none hadm ("a","main") s hs rfl
  exact ⟨w,w',s,snap,t,hw',hs,hsnap,hfold,heq⟩

/-- Twenty entries are staged and the snapshot after the twentieth is written; one more is
staged, the log is truncated below it, and a rewind to the head is admitted. -/
def truncatedActions : List Action :=
  let stage := Action.mutate ("a","main") (.nextTurnContextStaged "note" .null)
  .load ("a","main") :: List.replicate 20 stage ++ List.replicate 22 (.work "t") ++
    [stage,.work "t",.truncateWal,.work "t",.prune,.admission 21 none]

/-- The staged entries a rewind would rebuild for a session. -/
def rebuiltEntries (w : World) (key : SessionKey) (ts : String) : Option ℕ := do
  let w' ← w.checkout ts
  let s ← w.sessions.get? key
  let snap ← (reconstruct key.1 key.2 s.store (w'.wal.map (·.event)) w'.lastSeq (some key)).toOption
  return snap.nextTurnContext.length

def truncatedRun : Computed (runAll (World.step ⟨20,none⟩) World.init truncatedActions) (fun w =>
    (w.admitted,w.hist.head,(w.sessions.get? ("a","main")).map (·.journal.snapshot.nextTurnContext.length),
      rebuiltEntries w ("a","main") "t") == (some (21,none),21,some 21,some 1)) :=
  .of _ _ (by decide +kernel)

theorem truncatedActions_run : ∃ w, Runs (World.step ⟨20,none⟩) World.CoveredCheckout World.init w ∧
    w.admitted = some (21,none) ∧ w.hist.head = 21 ∧
    (w.sessions.get? ("a","main")).map (·.journal.snapshot.nextTurnContext.length) = some 21 ∧
    rebuiltEntries w ("a","main") "t" = some 1 := by
  have hplain : ∀ a ∈ truncatedActions, a.isCheckout = false := by decide
  obtain ⟨w,hw,hv⟩ := truncatedRun
  simp only [beq_iff_eq,Prod.mk.injEq] at hv
  exact ⟨w,.of_runAll (.refl _) (fun a ha _ => .of_not_checkout (hplain a ha)) hw,hv⟩

/-- Twenty entries are gone from the log and no generation holds them: the admitted rewind to
the head rebuilds the last one alone. -/
theorem checkout_loses_truncated_history :
    ¬ ∀ (cfg : Config) (w w' : World) (ts : String), Runs (World.step cfg) (fun _ _ => True) World.init w →
      World.step cfg w (.checkout ts) = some w' → ∀ target scope, w.admitted = some (target,scope) →
      ∀ key s, w.sessions.get? key = some s → World.rewinds scope key = true →
      ∃ snap t, reconstruct key.1 key.2 s.store (w'.wal.map (·.event)) w'.lastSeq (some key) = .ok snap ∧
        w.hist.fold key target = .ok t ∧ EqUpToSeq snap t := by
  intro h
  obtain ⟨w,hrun,hadm,hhead,hlive,hone⟩ := truncatedActions_run
  obtain ⟨s,hs,hlength⟩ := Option.map_eq_some_iff.mp hlive
  simp only [rebuiltEntries,bind,pure,Option.bind_eq_some_iff] at hone
  obtain ⟨w',hw',s',hs',snap,hsnap,hone⟩ := hone
  obtain rfl := Option.some.inj (hs.symm.trans hs')
  obtain ⟨snap',t,hsnap',hfold,heq⟩ := h ⟨20,none⟩ w w' "t" (hrun.mono fun _ _ _ => trivial) hw' 21 none hadm
    ("a","main") s hs rfl
  have hsame : snap' = snap := by
    rw [hsnap'] at hsnap
    simpa [Except.toOption] using hsnap
  -- what the log held has all of them, since nothing waits at the worker
  obtain ⟨t',hfold',htracks⟩ := ((World.Inv.run hrun).tracked _ s hs).live
  obtain ⟨target,scope,ht,hco⟩ := World.checkout_cases hw'
  rw [hco.drained] at htracks
  rw [hhead,hfold] at hfold'
  cases hfold'
  cases htracks with
  | done hagree =>
    have hcontext : t.nextTurnContext = snap.nextTurnContext := by rw [heq,hsame]
    rw [← hagree.nextTurn,hcontext] at hlength
    simp [hlength] at hone

end Reyn
