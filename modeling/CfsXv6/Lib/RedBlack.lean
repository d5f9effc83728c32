import CfsXv6.Lib.LinkedTree

/-! The red-black invariants of a binary tree whose nodes are coloured by
`red`: the root is black, no red node has a red child, and every path from a
node down to an empty subtree passes the same number of black nodes. Each is
computed, so that the invariants of a given tree can be decided. -/

namespace BinaryTree

variable {α : Type*} (red : α → Bool)

/-- No red node has a red child. -/
def noRedRed : BinaryTree α → Bool
  | nil => true
  | node a l r => (!red a || !(l.top.any red || r.top.any red)) && noRedRed l && noRedRed r

/-- The number of black nodes on every path from the root down to an empty
subtree, when it is the same on all of them. -/
def blackHeight : BinaryTree α → Option ℕ
  | nil => some 0
  | node a l r =>
    match blackHeight l, blackHeight r with
    | some m, some n => if m = n then some (if red a then m else m + 1) else none
    | _, _ => none

/-- The red-black invariants. -/
structure IsRedBlack (t : BinaryTree α) : Prop where
  rootBlack : t.top.any red = false
  noRedRed : t.noRedRed red = true
  balanced : (t.blackHeight red).isSome = true

instance (t : BinaryTree α) : Decidable (t.IsRedBlack red) :=
  decidable_of_iff (t.top.any red = false ∧ t.noRedRed red = true ∧ (t.blackHeight red).isSome = true)
    ⟨fun ⟨h1, h2, h3⟩ => ⟨h1, h2, h3⟩, fun ⟨h1, h2, h3⟩ => ⟨h1, h2, h3⟩⟩

end BinaryTree
