import Resampler.Yaml.Scalar

/-!
The nodes of a YAML document.

A node may carry a tag, and an anchor by which other nodes refer to it. Anchors
are kept as numbers. Several nodes may carry the same one, and it then stands for
the last of them, in the order in which they begin.
-/

namespace Resampler.Yaml

/-- What may precede the content of a node. -/
structure Properties where
  tag : Option Tag
  anchor : Option Nat
deriving DecidableEq, Repr, Inhabited

def Properties.absent : Properties := ⟨none, none⟩

/-- A node of a document. -/
inductive Node where
  | scalar (props : Properties) (content : Scalar)
  | sequence (props : Properties) (items : List Node)
  | mapping (props : Properties) (entries : List (Node × Node))
  | reference (id : Nat)
deriving Repr, Inhabited

namespace Node

/-- The scalar that stands where nothing is written. -/
def empty : Node := .scalar .absent .empty

def anchor? : Node → Option Nat
  | scalar props _ | sequence props _ | mapping props _ => props.anchor
  | reference _ => none

mutual

/-- A node and all nodes inside it, in the order in which they begin. -/
def nodes (n : Node) : List Node :=
  n :: match n with
    | scalar .. | reference .. => []
    | sequence _ items => nodesOfItems items
    | mapping _ entries => nodesOfEntries entries

/-- The nodes of the items of a sequence. -/
def nodesOfItems : List Node → List Node
  | [] => []
  | n :: ns => n.nodes ++ nodesOfItems ns

/-- The nodes of the keys and values of a mapping. -/
def nodesOfEntries : List (Node × Node) → List Node
  | [] => []
  | (k, v) :: rest => k.nodes ++ v.nodes ++ nodesOfEntries rest

end

/-- The node that a node of this document stands for. -/
def resolve (root : Node) : Node → Option Node
  | reference id => root.nodes.reverse.find? fun n => n.anchor? == some id
  | n => some n

/-! The written form. -/

/-- The written form of a tag and an anchor, each with a blank after it. -/
def renderProperties (props : Properties) : String :=
  let tag := match props.tag with
    | some t => t.render ++ " "
    | none => ""
  let anchor := match props.anchor with
    | some id => "&" ++ toString id ++ " "
    | none => ""
  tag ++ anchor

mutual

/-- The written form of a node on one line. -/
def inline : Node → String
  | scalar props s => renderProperties props ++ s.text
  | sequence props items => renderProperties props ++ "[" ++ inlineItems items ++ "]"
  | mapping props entries => renderProperties props ++ "\x7b" ++ inlineEntries entries ++ "\x7d"
  | reference id => "*" ++ toString id

/-- The written form of the items of a sequence. -/
def inlineItems : List Node → String
  | [] => ""
  | [n] => n.inline
  | n :: ns => n.inline ++ ", " ++ inlineItems ns

/-- The written form of the entries of a mapping. -/
def inlineEntries : List (Node × Node) → String
  | [] => ""
  | [(k, v)] => k.inline ++ ": " ++ v.inline
  | (k, v) :: rest => k.inline ++ ": " ++ v.inline ++ ", " ++ inlineEntries rest

end

def blanks (n : Nat) : String := String.ofList (List.replicate n ' ')

mutual

/-- The written form of what follows a key in a block at column `column`. Mappings that are
not empty continue on lines of their own, further right. -/
def renderValue (column : Nat) : Node → String
  | mapping props (e :: es) =>
    let head := match props.tag with
      | some t => " " ++ t.render
      | none => ""
    head ++ "\n" ++ renderEntries (column + 2) (e :: es)
  | mapping props [] => " " ++ inline (.mapping props []) ++ "\n"
  | scalar props s => " " ++ inline (.scalar props s) ++ "\n"
  | sequence props items => " " ++ inline (.sequence props items) ++ "\n"
  | reference id => " " ++ inline (.reference id) ++ "\n"

/-- The written form of the entries of a mapping whose keys stand at column `column`. -/
def renderEntries (column : Nat) : List (Node × Node) → String
  | [] => ""
  | (k, v) :: rest =>
    blanks column ++ k.inline ++ ":" ++ v.renderValue column ++ renderEntries column rest

end

def render : Node → String
  | mapping _ (e :: es) => renderEntries 0 (e :: es)
  | n => n.inline ++ "\n"

end Node

end Resampler.Yaml
