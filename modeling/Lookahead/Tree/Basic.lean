import Lookahead.Names

/-!
Concrete trees of a parsed input.  A node covers a half-open range of offsets and has a serial
number, which counts the nodes of its parse in the order in which they were completed.
-/

namespace Lookahead

structure Span where
  start : Nat
  stop : Nat
deriving DecidableEq

def Span.text? (span : Span) (input : Array UInt8) : Option (List UInt8) :=
  if span.start ≤ span.stop ∧ span.stop ≤ input.size then
    some (input.extract span.start span.stop).toList
  else none

inductive Tree
  | node (serial : Nat) (kind : NodeKind) (span : Span) (children : List Tree)

namespace Tree

def serial : Tree → Nat
  | node serial _ _ _ => serial

def kind : Tree → NodeKind
  | node _ kind _ _ => kind

def span : Tree → Span
  | node _ _ span _ => span

def children : Tree → List Tree
  | node _ _ _ children => children

def isLeaf (tree : Tree) : Bool :=
  tree.children.isEmpty

def text? (tree : Tree) (input : Array UInt8) : Option (List UInt8) :=
  tree.span.text? input

mutual

def size : Tree → Nat
  | node _ _ _ children => 1 + sizes children

def sizes : List Tree → Nat
  | [] => 0
  | tree :: rest => tree.size + sizes rest

end

mutual

/-- All nodes of a tree, each before what is below it. -/
def nodes : Tree → List Tree
  | node serial kind span children => node serial kind span children :: allNodes children

def allNodes : List Tree → List Tree
  | [] => []
  | tree :: rest => tree.nodes ++ allNodes rest

end

theorem allNodes_eq (trees : List Tree) : allNodes trees = trees.flatMap nodes := by
  induction trees with
  | nil => rfl
  | cons tree rest ih => rw [allNodes, ih, List.flatMap_cons]

theorem nodes_eq (tree : Tree) : tree.nodes = tree :: tree.children.flatMap nodes := by
  cases tree
  rw [nodes, allNodes_eq]
  rfl

theorem mem_nodes_self (tree : Tree) : tree ∈ tree.nodes := by
  rw [nodes_eq]
  exact List.mem_cons_self

theorem sizes_append (left right : List Tree) :
    sizes (left ++ right) = sizes left + sizes right := by
  induction left with
  | nil => simp [sizes]
  | cons tree rest ih => simp [sizes, ih, Nat.add_assoc]

theorem size_eq (tree : Tree) : tree.size = 1 + sizes tree.children := by
  cases tree
  simp [size, children]

end Tree

/-- The tree of a whole input, with the number of nodes that its parse has made. -/
structure ParseTree where
  root : Tree
  nodeCount : Nat

namespace ParseTree

def isEmpty (tree : ParseTree) : Bool :=
  tree.nodeCount == 0

def node? (tree : ParseTree) (serial : Nat) : Option Tree :=
  tree.root.nodes.find? (·.serial == serial)

end ParseTree

end Lookahead
