import BLink.Library.Release
import BLink.Model.Threads

/-! How the pages of a tree are released.
A page that is freed drops its fields in the order of their declaration, `right` before
`kind`; an array of children drops its elements from the last to the first. `previous` is
weak and counts nowhere.
-/

namespace BLink

open Library

variable {ι K V : Type}

namespace Tree

/-- The strong references of a page, in the order in which it drops them. -/
def strongRefs (t : Tree K V) (p : PageId) : List PageId :=
  (t.page p).right.toList
    ++ match (t.page p).kind with
      | .internal _ children => children.reverse
      | .leaf _ => []
      | .redirect target => [target]

theorem mem_strongRefs {t : Tree K V} {p q : PageId} : q ∈ t.strongRefs p ↔ t.Owns p q := by
  rw [strongRefs, Owns, List.mem_append, Option.mem_toList]
  cases (t.page p).kind <;> simp [eq_comm]

/-- The pages `cells` with their counts, when the root slot holds the only other reference. -/
def unused (t : Tree K V) (cells : List PageId) : Releasing PageId :=
  .owned t.strongRefs cells t.root

/-- Dropping the tree releases the root slot's reference. -/
def dropRoot (t : Tree K V) (cells : List PageId) : Releasing PageId :=
  (t.unused cells).drop t.strongRefs t.root

end Tree

/-- The root slot or a running call holds a strong reference to the page. -/
def System.Holds [TotalOrd K] (s : System ι K V) (page : PageId) : Prop :=
  page = s.tree.root
    ∨ ∃ θ call pc, (s.thread θ).status = .running call pc ∧ page ∈ pc.refs

end BLink
