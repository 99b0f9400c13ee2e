import Reyn.Runtime.Compaction

/-! # The selection of a fold, by tool cycles

Every step of the selection keeps whole groups: the windows are an initial and a final run of the groups,
what lies between them is a run of groups, and grouping a run of groups again gives the same groups. A
bound that falls between two groups leaves this so.
-/
namespace Reyn
open Py

namespace Compaction
variable {messages : List ChatMessage} {groups before after : List (List ChatMessage)}

/-! ## Groups -/

section Budget
variable (tokens : ChatMessage → ℕ)

end Budget
/-! ## Runs of groups -/

section Selection
variable {budgets : CompactionBudgets} {prevCover : ℕ} {protectSeqGte : Option ℕ}

end Selection

/-! ## Coverage that ends inside a cycle -/

end Compaction
end Reyn
