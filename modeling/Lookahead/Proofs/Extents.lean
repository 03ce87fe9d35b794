import Lookahead.Proofs.Depiction
import Lookahead.Proofs.Walks

/-!
The nodes that show a derivation lie where its text lies.
-/

namespace Lookahead

def Within (start stop : Nat) (trees : List Tree) : Prop :=
  ∀ tree ∈ trees, ∀ node ∈ tree.nodes,
    start ≤ node.span.start ∧ node.span.start ≤ node.span.stop ∧ node.span.stop ≤ stop

namespace Within

variable {start stop : Nat}

theorem nil : Within start stop [] :=
  List.forall_mem_nil _

theorem append {left right : List Tree} (one : Within start stop left)
    (two : Within start stop right) : Within start stop (left ++ right) :=
  List.forall_mem_append.mpr ⟨one, two⟩

theorem widen {trees : List Tree} (within : Within start stop trees) {first last : Nat}
    (earlier : first ≤ start) (later : stop ≤ last) : Within first last trees := by
  intro tree member node inside
  obtain ⟨low, ordered, high⟩ := within tree member node inside
  exact ⟨Nat.le_trans earlier low, ordered, Nat.le_trans high later⟩

theorem node {serial : Nat} {kind : NodeKind} {span : Span} {children : List Tree}
    (low : start ≤ span.start) (ordered : span.start ≤ span.stop) (high : span.stop ≤ stop)
    (below : Within start stop children) :
    Within start stop [.node serial kind span children] := by
  intro tree member node inside
  obtain rfl := List.mem_singleton.mp member
  rw [Tree.nodes_eq, List.mem_cons] at inside
  rcases inside with rfl | inside
  · exact ⟨low, ordered, high⟩
  · obtain ⟨child, among, inside⟩ := List.mem_flatMap.mp inside
    exact below child among node inside

end Within

namespace Derivation

mutual

theorem within_depict (offset made : Nat) (tree : Derivation) :
    Within offset (offset + tree.yield.length) (depict offset made tree) :=
  match tree with
  | terminal bytes => .node (by simp) (by simp) (by simp [yield]) .nil
  | empty => .nil
  | lineFeed =>
      .node (by simp) (by simp) (by simp [yield])
        (.node (by simp) (by simp) (by simp [yield]) .nil)
  | carriageReturn =>
      .node (by simp) (by simp) (by simp [yield])
        (Within.append (.node (by simp) (by simp) (by simp [yield]) .nil)
          (.node (by simp) (by simp) (by simp [yield]) .nil))
  | rule id children => by
      have below := within_depictAll offset made children
      refine .node (by simp) (by simp) (by simp [yield]) ?_
      split
      · exact .node (by simp) (by simp) (by simp) .nil
      · exact below

theorem within_depictAll (offset made : Nat) (trees : List Derivation) :
    Within offset (offset + (yields trees).length) (depictAll offset made trees) :=
  match trees with
  | [] => .nil
  | tree :: rest => by
      have here := within_depict offset made tree
      have later := within_depictAll (offset + tree.yield.length)
        (made + Tree.sizes (depict offset made tree)) rest
      rw [depictAll, yields, List.length_append]
      exact (here.widen (by simp) (by omega)).append (later.widen (by omega) (by omega))

end

end Derivation

end Lookahead
