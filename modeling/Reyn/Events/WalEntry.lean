import Reyn.Events.AgentSnapshot

/-! # Entries the log writer builds

The writer stamps `seq`, `ts` and `kind` and then merges the caller's keyword
arguments. No caller passes one of the three stamped names, so the entry lists
the stamps first and the fields after them.
-/
namespace Reyn
open Py

/-- The keyword arguments of an append: distinct names, none of them a stamped one. -/
structure WalFields where
  items : List (String × Json)
  distinct : (items.map Prod.fst).Nodup
  unstamped : ∀ k ∈ items.map Prod.fst, k ∉ ["seq","ts","kind"]

theorem WalFields.distinct_nil : (([] : List (String × Json)).map Prod.fst).Nodup := List.nodup_nil

theorem WalFields.unstamped_nil : ∀ k ∈ ([] : List (String × Json)).map Prod.fst, k ∉ ["seq","ts","kind"] :=
  List.forall_mem_nil _

def walStamps (seq : ℕ) (ts kind : String) : Event :=
  Dict.ofList [("seq",.int seq),("ts",.str ts),("kind",.str kind)]

/-- The entry of `_wal_write_job`: the stamps, then `entry.update(fields)`. -/
def walEntry (seq : ℕ) (ts kind : String) (fields : WalFields) : Event :=
  (walStamps seq ts kind).update fields.items

theorem walStamps_items (seq : ℕ) (ts kind : String) :
    (walStamps seq ts kind).items = [("seq",.int seq),("ts",.str ts),("kind",.str kind)] := by
  simp [walStamps,Dict.ofList,Dict.update,Dict.set,Dict.setItems,Dict.empty]

theorem walEntry_items (seq : ℕ) (ts kind : String) (fields : WalFields) :
    (walEntry seq ts kind fields).items =
      [("seq",.int seq),("ts",.str ts),("kind",.str kind)] ++ fields.items := by
  rw [walEntry,Dict.update_items fields.distinct,walStamps_items]
  intro k hk
  have h := fields.unstamped k hk
  simpa [Dict.keys,walStamps_items] using h

theorem walEntry_get? (seq : ℕ) (ts kind : String) (fields : WalFields) {k : String}
    (h : k ∉ ["seq","ts","kind"]) : (walEntry seq ts kind fields).get? k = fields.items.lookup k := by
  simp only [List.mem_cons,List.not_mem_nil,or_false,not_or] at h
  simp [Dict.get?,walEntry_items,Dict.lookup_cons,h]

theorem walEntry_getD (seq : ℕ) (ts kind : String) (fields : WalFields) {k : String} (d : Json)
    (h : k ∉ ["seq","ts","kind"]) :
    Event.getD (walEntry seq ts kind fields) k d = (fields.items.lookup k).getD d := by
  rw [Event.getD,walEntry_get? seq ts kind fields h]

theorem walEntry_item (seq : ℕ) (ts kind : String) (fields : WalFields) {k : String} {v : Json}
    (h : k ∉ ["seq","ts","kind"]) (hv : fields.items.lookup k = some v) :
    Event.item (walEntry seq ts kind fields) k = .ok v := by
  rw [Event.item,walEntry_get? seq ts kind fields h,hv]

@[simp] theorem walEntry_seq? (seq : ℕ) (ts kind : String) (fields : WalFields) :
    Event.seq? (walEntry seq ts kind fields) = some (seq : Int) := by
  simp [Event.seq?,Dict.get?,walEntry_items]

@[simp] theorem walEntry_kind (seq : ℕ) (ts kind : String) (fields : WalFields) :
    Event.kind (walEntry seq ts kind fields) = .str kind := by
  simp [Event.kind,Event.getD,Dict.get?,walEntry_items,Dict.lookup_cons]

end Reyn
