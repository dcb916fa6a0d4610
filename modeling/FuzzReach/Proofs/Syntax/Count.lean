import FuzzReach.Proofs.Call.Events
import FuzzReach.Syntax.Metrics

/-!
# Counting nodes

A cursor visits what is listed from its focus on: the tree below the focus and
the trees to the right of the way down to it.  Counting with a cursor from the
root of a tree therefore counts the pre-order listing of the tree.
-/

namespace FuzzReach.Syntax

namespace Cursor

def aside : List Crumb → List Node
  | [] => []
  | crumb :: trail => Node.preorders crumb.after ++ aside trail

def listing (cursor : Cursor) : List Node :=
  cursor.focus.preorder ++ aside cursor.trail

private theorem aside_eq_climb (trail : List Crumb) :
    aside trail = ((climb trail).map listing).getD [] := by
  induction trail with
  | nil => rfl
  | cons crumb trail ih =>
      obtain ⟨parent, after⟩ := crumb
      cases after with
      | nil => simpa [aside, climb, Node.preorders] using ih
      | cons sibling rest => simp [aside, climb, listing, Node.preorders]

/-- One step leaves the listing without its first node. -/
theorem listing_eq_cons (cursor : Cursor) :
    cursor.listing = cursor.focus :: ((cursor.next?).map listing).getD [] := by
  obtain ⟨focus, trail⟩ := cursor
  rw [listing, Node.preorder_eq]
  unfold next? firstChild?
  cases hchildren : focus.children with
  | nil => simp [Node.preorders, aside_eq_climb]
  | cons child rest => simp [listing, aside, Node.preorders]

private theorem countFrom_eq (matching : String → Bool) (cursor : Cursor)
    (count : Nat) :
    countFrom matching cursor count =
      count + cursor.listing.countP fun node => matching node.kind := by
  fun_induction countFrom matching cursor count with
  | case1 cursor count counted next hnext ih =>
      rw [ih, listing_eq_cons cursor, hnext, List.countP_cons]
      by_cases h : matching cursor.focus.kind <;> simp [counted, h]
      omega
  | case2 cursor count counted hnext =>
      rw [listing_eq_cons cursor, hnext, List.countP_cons]
      by_cases h : matching cursor.focus.kind <;> simp [counted, h]

end Cursor

theorem Node.count_eq (matching : String → Bool) (root : Node) :
    root.count matching = root.preorder.countP fun node =>
      matching node.kind := by
  rw [Node.count, Cursor.countFrom_eq]
  simp [Cursor.listing, Cursor.ofRoot, Cursor.aside]

end FuzzReach.Syntax
