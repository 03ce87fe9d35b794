import Lookahead.Tree.Walk

/-!
Walks over the trees of a stack, one tree after the other, and the searches that are made of them
as recursions over a tree.
-/

namespace Lookahead.Tree

theorem walkStack_append {σ : Type} (visit : σ → Tree → σ × Bool) (left right : List Tree)
    (state : σ) :
    walkStack visit (left ++ right) state = walkStack visit right (walkStack visit left state) := by
  fun_induction walkStack visit left state with
  | case1 state => rfl
  | case2 tree rest state visited ih =>
      rw [List.cons_append, walkStack, ← List.append_assoc]
      exact ih

section Collecting

variable (here : Tree → List Tree) (below : Tree → Bool)

def collect (found : List Tree) (node : Tree) : List Tree × Bool :=
  (here node ++ found, below node)

def collected (tree : Tree) : List Tree :=
  (tree.walk (collect here below) []).reverse

theorem walkStack_collect (stack found : List Tree) :
    walkStack (collect here below) stack found =
      walkStack (collect here below) stack [] ++ found := by
  have shifted : ∀ before, walkStack (collect here below) stack (before ++ found) =
      walkStack (collect here below) stack before ++ found := by
    intro before
    fun_induction walkStack (collect here below) stack before with
    | case1 before => rw [walkStack]
    | case2 tree rest before visited ih =>
        rw [walkStack]
        change walkStack _ _ (here tree ++ (before ++ found)) = _
        rw [← List.append_assoc]
        exact ih
  simpa using shifted []

theorem reverse_walkStack_collect (stack : List Tree) :
    (walkStack (collect here below) stack []).reverse =
      stack.flatMap (collected here below) := by
  induction stack with
  | nil => simp [walkStack]
  | cons tree rest ih =>
      rw [← List.singleton_append, walkStack_append, walkStack_collect, List.reverse_append, ih]
      rfl

theorem collected_eq (tree : Tree) :
    tree.collected here below = (here tree).reverse ++
      if below tree then tree.children.flatMap (collected here below) else [] := by
  change (walkStack (collect here below) [tree] []).reverse = _
  rw [walkStack, walkStack_collect, List.reverse_append]
  by_cases descends : below tree = true
  · simp [collect, descends, reverse_walkStack_collect]
  · simp [collect, descends, walkStack]

end Collecting

/-- An accepted node is the only outermost one; below any other the children are searched. -/
theorem outermost_eq (accepts : NodeKind → Bool) (tree : Tree) :
    tree.outermost accepts =
      if accepts tree.kind then [tree] else tree.children.flatMap (outermost accepts) := by
  have same : outermost accepts = collected
      (fun node => if accepts node.kind then [node] else []) (fun node => !accepts node.kind) := by
    funext node
    simp only [outermost, collected]
    congr 2
    funext found node
    by_cases taken : accepts node.kind = true
    · simp [collect, taken]
    · simp [collect, taken]
  rw [same, collected_eq]
  by_cases taken : accepts tree.kind = true
  · simp [taken]
  · simp [taken]

theorem walkStack_eq_foldl {σ : Type} (visit : σ → Tree → σ) (stack : List Tree) (state : σ) :
    walkStack (fun state node => (visit state node, true)) stack state =
      (stack.flatMap nodes).foldl visit state := by
  fun_induction walkStack (fun state node => (visit state node, true)) stack state with
  | case1 state => rfl
  | case2 tree rest state visited ih =>
      rw [List.flatMap_cons, nodes_eq]
      simpa [visited] using ih

theorem visited_eq_nodes (tree : Tree) : (tree.visited fun _ => true) = tree.nodes := by
  rw [visited, walk, walkStack_eq_foldl]
  simp

def takeFirst (kind : NodeKind) (found : Option Tree) (node : Tree) : Option Tree × Bool :=
  if found.isSome then (found, false)
  else if node.kind = kind then (some node, false)
  else (found, true)

theorem walkStack_takeFirst_some (kind : NodeKind) (stack : List Tree) (found : Tree) :
    walkStack (takeFirst kind) stack (some found) = some found := by
  induction stack with
  | nil => rw [walkStack]
  | cons tree rest ih =>
      rw [walkStack]
      simpa [takeFirst] using ih

theorem walkStack_takeFirst_none (kind : NodeKind) (stack : List Tree) :
    walkStack (takeFirst kind) stack none = (stack.flatMap (outermost (· == kind))).head? := by
  generalize same : (none : Option Tree) = found
  fun_induction walkStack (takeFirst kind) stack found with
  | case1 found => exact same.symm
  | case2 tree rest found visited ih =>
      subst same
      rw [List.flatMap_cons, outermost_eq]
      by_cases here : tree.kind = kind
      · simp [visited, takeFirst, here, walkStack_takeFirst_some]
      · simpa [visited, takeFirst, here] using ih

theorem firstOfKind?_eq_head? (kind : NodeKind) (tree : Tree) :
    tree.firstOfKind? kind = (tree.outermost (· == kind)).head? := by
  change walkStack (takeFirst kind) [tree] none = _
  simp [walkStack_takeFirst_none]

end Lookahead.Tree
