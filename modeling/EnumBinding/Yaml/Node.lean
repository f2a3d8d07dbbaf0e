import EnumBinding.Yaml.Token

/-!
# YAML nodes

The tree that the tokens of a document describe. An anchored node is known by the number of names that
were anchored before it, and an alias holds the number that its name stood for. A name may be anchored
again; then numbers run on from the count of names, so that a number may be given twice, and an alias
means the last node of its number.
-/

namespace EnumBinding.Yaml

inductive Node where
  | scalar (anchor : Option Nat) (tag : Option (List Char)) (plain : Bool) (text : String)
  | sequence (anchor : Option Nat) (items : List Node)
  | mapping (anchor : Option Nat) (entries : List (Node × Node))
  | alias (target : Nat)

namespace Node

def empty : Node := .scalar none none true ""

def anchor? : Node → Option Nat
  | .scalar anchor .. | .sequence anchor _ | .mapping anchor _ => anchor
  | .alias _ => none

mutual
def preorder : Node → List Node
  | .scalar anchor tag plain text => [.scalar anchor tag plain text]
  | .alias target => [.alias target]
  | .sequence anchor items => .sequence anchor items :: preorderItems items
  | .mapping anchor entries => .mapping anchor entries :: preorderEntries entries

def preorderItems : List Node → List Node
  | [] => []
  | item :: items => item.preorder ++ preorderItems items

def preorderEntries : List (Node × Node) → List Node
  | [] => []
  | entry :: entries => preorderEntry entry ++ preorderEntries entries

def preorderEntry : Node × Node → List Node
  | (key, value) => key.preorder ++ value.preorder
end

/-- The number of marks that a node leaves in its document: one at its start, and one at its end if it is
a collection. -/
def marks : Node → Nat
  | .scalar .. | .alias _ => 1
  | .sequence .. | .mapping .. => 2

end Node

structure Document where
  root : Node
  nodes : List Node

namespace Document

def ofRoot (root : Node) : Document where
  root := root
  nodes := root.preorder

def target? (document : Document) (number : Nat) : Option Node :=
  (document.nodes.filter (·.anchor? == some number)).getLast?

def marks (document : Document) : Nat := document.nodes.foldr (fun node count => node.marks + count) 0

end Document
end EnumBinding.Yaml
