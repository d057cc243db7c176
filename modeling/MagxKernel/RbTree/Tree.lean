import MagxKernel.Lib.LinkedTree

namespace MagxKernel.RbTree

open LinkedTree

inductive Color where
  | red
  | black
deriving DecidableEq

/-- The nodes in memory and the root pointer `rb_node`. A null pointer is `none`; a
function that follows one has no result. -/
structure Heap extends Links where
  rbColor : Nat → Color

namespace Heap

def rbLeft (heap : Heap) : Nat → Option Nat := heap.child .left

def rbParent (heap : Heap) : Nat → Option Nat := heap.parent

def rbNode (heap : Heap) : Option Nat := heap.root

def setLinks (heap : Heap) (links : Links) : Heap := { heap with toLinks := links }

def setColor (heap : Heap) (a : Nat) (color : Color) : Heap :=
  { heap with rbColor := Function.update heap.rbColor a color }

/-- `if (p) p->rb_color = color` -/
def paint (heap : Heap) (ptr : Option Nat) (color : Color) : Heap :=
  match ptr with
  | none => heap
  | some a => heap.setColor a color

/-- `p && p->rb_color == RB_RED` -/
def isRed (heap : Heap) (ptr : Option Nat) : Bool :=
  match ptr with
  | none => false
  | some a => heap.rbColor a = .red

end Heap

/-- The body of the two rotations, which are mirror images of each other. -/
def rotate (dir : Dir) (heap : Heap) (node : Nat) : Option Heap := do
  let pivot ← heap.child dir.other node
  let inner := heap.child dir pivot
  let links := heap.toLinks.setChild dir.other node inner
  let links := links.adopt inner (some node)
  let links := links.setChild dir pivot (some node)
  let links := links.setParent pivot (links.parent node)
  let links := links.replaceChild dir (links.parent node) node (some pivot)
  let links := links.setParent node (some pivot)
  return heap.setLinks links

def rbRotateLeft : Heap → Nat → Option Heap := rotate .left

def rbRotateRight : Heap → Nat → Option Heap := rotate .right

/-- The two branches of a turn of `rb_insert_color` for an uncle that is not red, where
`dir` is the side of the parent. -/
def insertRotate (dir : Dir) (heap : Heap) (node parent gparent : Nat) : Option (Heap × Nat) := do
  let (heap, node, parent) ←
    if heap.child dir.other parent = some node then
      (rotate dir heap parent).map fun heap => (heap, parent, node)
    else some (heap, node, parent)
  let heap := (heap.setColor parent .black).setColor gparent .red
  let heap ← rotate dir.other heap gparent
  return (heap, node)

/-- The loop of `rb_insert_color` and what follows it. -/
def rbInsertColor : (fuel : Nat) → Heap → Nat → Option Heap
  | 0, _, _ => none
  | fuel + 1, heap, node =>
    match heap.rbParent node with
    | none => heap.rbNode.map fun root => heap.setColor root .black
    | some parent =>
      if heap.rbColor parent = .red then do
        let gparent ← heap.rbParent parent
        let dir : Dir := if heap.rbLeft gparent = some parent then .left else .right
        let uncle := heap.child dir.other gparent
        if heap.isRed uncle then
          let heap := heap.paint uncle .black
          let heap := (heap.setColor parent .black).setColor gparent .red
          rbInsertColor fuel heap gparent
        else
          let (heap, node) ← insertRotate dir heap node parent gparent
          rbInsertColor fuel heap node
      else heap.rbNode.map fun root => heap.setColor root .black

end MagxKernel.RbTree
