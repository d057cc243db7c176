import MagxKernel.RbTree.Balance
import MagxKernel.RbTree.Rotate

namespace MagxKernel.RbTree

open LinkedTree List Function Option

/-- Memory holds a red-black tree with consistent parent pointers, whose nodes come in
the given order. -/
def Heap.Ordered (heap : Heap) (order : List Nat) : Prop :=
  ∃ t, Focus heap.toLinks [] t ∧ RedBlack heap.rbColor t ∧ t.inorder = order

section Shared

variable {links : Links} {heap : Heap} {frame : Frame} {rest : List Frame} {t : Tree} {a b : Nat}
  {shade : Color}

/-- The comparison with the left child finds the side of a node. -/
theorem side_eq (focus : Focus links (frame :: rest) t) (apart : frame.sibling.root ≠ t.root) :
    (if links.child .left frame.addr = t.root then Dir.left else Dir.right) = frame.dir := by
  obtain ⟨_, below, sibling, _⟩ := focus.path
  cases side : frame.dir with
  | left =>
    rw [side] at below
    exact if_pos below
  | right =>
    rw [side] at sibling
    rw [show Dir.right.other = Dir.left from rfl] at sibling
    rw [sibling]
    exact if_neg apart

theorem setColor_self : (heap.setColor a shade).rbColor a = shade := update_self _ _ _

theorem setColor_of_ne (distinct : b ≠ a) : (heap.setColor a shade).rbColor b = heap.rbColor b :=
  update_of_ne distinct _ _

theorem setColor_elsewhere {list : List Nat} (absent : a ∉ list) :
    ∀ b ∈ list, (heap.setColor a shade).rbColor b = heap.rbColor b :=
  fun _ member => setColor_of_ne fun same => absent (same ▸ member)

theorem setColor_root (redBlack : RedBlack heap.rbColor t) (root : t.root = some a) :
    heap.setColor a .black = heap := by
  have black : heap.rbColor a = .black := by
    have shade := redBlack.root
    cases t with
    | leaf => cases root
    | node _ _ _ =>
      cases root
      exact shade
  unfold Heap.setColor
  rw [← black, update_eq_self]

theorem isRed_root (t : Tree) : heap.isRed t.root = true ↔ rootColor heap.rbColor t = .red := by
  cases t with
  | leaf | node a l r => simp [Tree.root, Heap.isRed, rootColor]

end Shared

section Insert

variable {heap : Heap} {frames rest : List Frame} {t : Tree} {node height : Nat}

theorem rbInsertColor_done {parent : Nat} (focus : Focus heap.toLinks [] t)
    (redBlack : RedBlack heap.rbColor t) (up : heap.rbParent node = some parent)
    (black : heap.rbColor parent = .black) (some_root : t.root ≠ none) (fuel : Nat) :
    rbInsertColor (fuel + 1) heap node = some heap := by
  obtain ⟨a, root⟩ := ne_none_iff_exists'.mp some_root
  have rbNode : heap.rbNode = some a := focus.path.trans root
  rw [rbInsertColor, up]
  dsimp only
  rw [if_neg (by rw [black]; decide), rbNode, map_some, setColor_root redBlack root]

/-- The node that has just been linked, or to which the conflict has risen, is red; all
else is in order but for the colour of its parent. -/
structure Conflict (heap : Heap) (frames : List Frame) (t : Tree) (node height : Nat) : Prop where
  focus : Focus heap.toLinks frames t
  root : t.root = some node
  red : rootColor heap.rbColor t = .red
  balanced : Balanced heap.rbColor t height
  fits : Fits heap.rbColor frames height

variable {frame above : Frame}

theorem Conflict.around (conflict : Conflict heap (frame :: above :: rest) t node height)
    (red : heap.rbColor frame.addr = .red) :
    heap.rbColor above.addr = .black ∧ rootColor heap.rbColor frame.sibling = .black ∧
      Balanced heap.rbColor frame.sibling height ∧ Balanced heap.rbColor above.sibling height ∧
      Fits heap.rbColor rest (height + 1) := by
  obtain ⟨rootS, balS, ⟨other, here, black⟩, fits⟩ := (fits_red red).mp conflict.fits
  cases here
  obtain ⟨balU, fits⟩ := (fits_black black).mp fits
  exact ⟨black, rootS, balS, balU, fits⟩

/-- The nodes that a turn may touch are apart from all others. -/
structure Apart (frame above : Frame) (rest : List Frame) (t : Tree) : Prop where
  parent : frame.addr ∉ t.inorder ∧ frame.addr ∉ frame.sibling.inorder ∧
    frame.addr ∉ above.sibling.inorder ∧ frame.addr ∉ outside rest
  gparent : above.addr ∉ t.inorder ∧ above.addr ∉ frame.sibling.inorder ∧
    above.addr ∉ above.sibling.inorder ∧ above.addr ∉ outside rest
  distinct : frame.addr ≠ above.addr

theorem apart_of_focus {links : Links} (focus : Focus links (frame :: above :: rest) t) :
    Apart frame above rest t := by
  obtain ⟨notT, notS, notOutside⟩ := focus.frame_distinct
  obtain ⟨notFill, notU, notRest⟩ := (focus_cons.mp focus).frame_distinct
  rw [Frame.fill, Tree.mem_build, not_or, not_or] at notFill
  rw [outside, mem_cons, mem_append, not_or, not_or] at notOutside
  exact ⟨⟨notT, notS, notOutside.2⟩, ⟨notFill.2.1, notFill.2.2, notU, notRest⟩, notOutside.1⟩

theorem recolored {x y : Nat} {shade shade' : Color} {list : List Nat} (notX : x ∉ list)
    (notY : y ∉ list) : ∀ b ∈ list,
      ((heap.setColor x shade).setColor y shade').rbColor b = heap.rbColor b := by
  intro b member
  rw [setColor_elsewhere notY b member, setColor_elsewhere notX b member]

section

variable (conflict : Conflict heap (frame :: above :: rest) t node height)
  (red : heap.rbColor frame.addr = .red)

include conflict red

/-- A red uncle: the conflict rises two levels. -/
theorem Conflict.rise (uncle : rootColor heap.rbColor above.sibling = .red) :
    Conflict (((heap.paint above.sibling.root .black).setColor frame.addr .black).setColor
      above.addr .red) rest (above.fill (frame.fill t)) above.addr (height + 1) := by
  obtain ⟨black, rootS, balS, balU, fits⟩ := conflict.around red
  have apart := apart_of_focus conflict.focus
  obtain ⟨a, l, r, shape⟩ : ∃ a l r, above.sibling = .build .left a l r := by
    cases shape : above.sibling with
    | leaf =>
      rw [shape] at uncle
      cases uncle
    | node a l r => exact ⟨a, l, r, rfl⟩
  rw [shape, rootColor_build] at uncle
  rw [shape] at balU
  obtain ⟨rootL, rootR, balL, balR⟩ := (balanced_build_red uncle).mp balU
  -- the way up from a child of the uncle keeps the uncle apart
  have apartU : Apart ⟨.left, a, r⟩ ⟨above.dir.other, above.addr, frame.fill t⟩ rest l := by
    have higher := focus_cons.mp (focus_cons.mp conflict.focus)
    rw [Frame.fill, shape, ← Tree.build_other] at higher
    exact apart_of_focus (focus_cons.mpr (focus_cons.mpr higher))
  obtain ⟨notL, notR, notFill, notRest⟩ := apartU.parent
  rw [Frame.fill, Tree.mem_build, not_or, not_or] at notFill
  have away := apart.parent.2.2.1
  rw [shape, Tree.mem_build, not_or, not_or] at away
  generalize painted : ((heap.paint above.sibling.root .black).setColor frame.addr .black).setColor
    above.addr .red = heap'
  rw [shape, Tree.root_build, Heap.paint] at painted
  have colorP : heap'.rbColor frame.addr = .black := by
    rw [← painted, setColor_of_ne apart.distinct, setColor_self]
  have colorG : heap'.rbColor above.addr = .red := by
    rw [← painted, setColor_self]
  have colorU : heap'.rbColor a = .black := by
    rw [← painted, setColor_of_ne apartU.distinct, setColor_of_ne notFill.1, setColor_self]
  have agree : ∀ {list : List Nat}, a ∉ list → frame.addr ∉ list → above.addr ∉ list → ∀ b ∈ list,
      heap'.rbColor b = heap.rbColor b := by
    intro list notU notP notG b member
    rw [← painted, recolored notP notG b member, setColor_elsewhere notU b member]
  have agreeT := agree notFill.2.1 apart.parent.1 apart.gparent.1
  have agreeS := agree notFill.2.2 apart.parent.2.1 apart.gparent.2.1
  have agreeL := agree notL away.2.1 apartU.gparent.1
  have agreeR := agree notR away.2.2 apartU.gparent.2.1
  have first : Balanced heap'.rbColor (frame.fill t) (height + 1) :=
    (balanced_build_black colorP).mpr
      ⟨height, rfl, conflict.balanced.congr agreeT, balS.congr agreeS⟩
  have second : Balanced heap'.rbColor above.sibling (height + 1) := by
    rw [shape]
    exact (balanced_build_black colorU).mpr ⟨height, rfl, balL.congr agreeL, balR.congr agreeR⟩
  constructor
  · have higher := focus_cons.mp (focus_cons.mp conflict.focus)
    rw [← painted]
    exact higher
  · exact Tree.root_build ..
  · rw [Frame.fill, rootColor_build]
    exact colorG
  · apply (balanced_build_red colorG).mpr
    refine ⟨?_, ?_, first, second⟩
    · rw [Frame.fill, rootColor_build]
      exact colorP
    · rw [shape, rootColor_build]
      exact colorU
  · exact fits.congr (agree notRest apart.parent.2.2.2 apart.gparent.2.2.2)

section

variable (uncle : rootColor heap.rbColor above.sibling = .black)

include uncle

/-- A parent on the same side as its child is rotated above the grandparent. -/
theorem Conflict.lifted (side : frame.dir = above.dir) :
    ∃ after, rotate above.dir.other ((heap.setColor frame.addr .black).setColor above.addr .red)
        above.addr = some after ∧
      after.rbParent node = some frame.addr ∧ after.rbColor frame.addr = .black ∧
      after.Ordered (plug (frame :: above :: rest) t).inorder := by
  obtain ⟨black, rootS, balS, balU, fits⟩ := conflict.around red
  have apart := apart_of_focus conflict.focus
  have focus := focus_cons.mp (focus_cons.mp conflict.focus)
  rw [Frame.fill, Frame.fill, side] at focus
  generalize painted : (heap.setColor frame.addr .black).setColor above.addr .red = heap'
  have same : heap'.toLinks = heap.toLinks := by rw [← painted]; rfl
  rw [← same] at focus
  obtain ⟨links, rotated, after⟩ := rotate_other_spec focus
  have colorP : heap'.rbColor frame.addr = .black := by
    rw [← painted, setColor_of_ne apart.distinct, setColor_self]
  have colorG : heap'.rbColor above.addr = .red := by
    rw [← painted, setColor_self]
  have agree : ∀ {list : List Nat}, frame.addr ∉ list → above.addr ∉ list → ∀ b ∈ list,
      heap'.rbColor b = heap.rbColor b := by
    rw [← painted]
    exact recolored
  have agreeS := agree apart.parent.2.1 apart.gparent.2.1
  have agreeU := agree apart.parent.2.2.1 apart.gparent.2.2.1
  have lower : Balanced heap'.rbColor
      (.build above.dir above.addr frame.sibling above.sibling) height := by
    apply (balanced_build_red colorG).mpr
    rw [rootColor_congr agreeS, rootColor_congr agreeU]
    exact ⟨rootS, uncle, balS.congr agreeS, balU.congr agreeU⟩
  refine ⟨heap'.setLinks links, rotated, ?_, colorP, _, focus_plug.mp after, ?_, ?_⟩
  · obtain ⟨_, _, _, repT, _⟩ := rep_build.mp after.tree
    exact repT.parent_root conflict.root
  · apply (fits.congr (agree apart.parent.2.2.2 apart.gparent.2.2.2)).redBlack
    · apply (balanced_build_black colorP).mpr
      exact ⟨height, rfl, conflict.balanced.congr (agree apart.parent.1 apart.gparent.1), lower⟩
    · intro other
      rw [rootColor_build] at other
      exact absurd (colorP.symm.trans other) (by decide)
  · apply inorder_plug_congr rest
    rw [Frame.fill, Frame.fill, side]
    exact (inorder_rotate above.dir frame.addr above.addr t frame.sibling above.sibling).symm

/-- A parent on the same side as its child: one rotation. -/
theorem Conflict.outer (side : frame.dir = above.dir) :
    ∃ after, insertRotate above.dir heap node frame.addr above.addr = some (after, node) ∧
      after.rbParent node = some frame.addr ∧ after.rbColor frame.addr = .black ∧
      after.Ordered (plug (frame :: above :: rest) t).inorder := by
  obtain ⟨after, rotated, ordered⟩ := conflict.lifted red uncle side
  have notInner : ¬heap.child above.dir.other frame.addr = some node := by
    obtain ⟨_, _, sibling, _⟩ := conflict.focus.path
    rw [← side, sibling]
    exact conflict.focus.root_ne conflict.root
  refine ⟨after, ?_, ordered⟩
  unfold insertRotate
  rw [if_neg notInner]
  dsimp only [Option.bind_eq_bind, Option.bind_some, Option.pure_def]
  rw [rotated]
  rfl

/-- A parent on the other side: its child is rotated above it first, and the parent is then
the child on the same side. -/
theorem Conflict.inner (side : frame.dir = above.dir.other) :
    ∃ after, insertRotate above.dir heap node frame.addr above.addr = some (after, frame.addr) ∧
      after.rbParent frame.addr = some node ∧ after.rbColor node = .black ∧
      after.Ordered (plug (frame :: above :: rest) t).inorder := by
  obtain ⟨near, far, shape⟩ := Tree.exists_build above.dir conflict.root
  have redNode : heap.rbColor node = .red := by
    have shade := conflict.red
    rw [shape, rootColor_build] at shade
    exact shade
  have inside : heap.child above.dir.other frame.addr = some node := by
    obtain ⟨_, below, _⟩ := conflict.focus.path
    rw [← side, below]
    exact conflict.root
  have focus := focus_cons.mp conflict.focus
  rw [Frame.fill, side, Tree.build_other, shape] at focus
  obtain ⟨links, rotated, middle⟩ := rotate_spec focus
  obtain ⟨rootS, balS, above_⟩ := (fits_red red).mp conflict.fits
  have balanced := conflict.balanced
  rw [shape, balanced_build_red redNode] at balanced
  obtain ⟨rootN, rootF, balN, balF⟩ := balanced
  have turned : Conflict (heap.setLinks links) (⟨above.dir, node, far⟩ :: above :: rest)
      (.build above.dir frame.addr frame.sibling near) frame.addr height :=
    ⟨focus_cons.mpr middle, Tree.root_build .., rootColor_build.trans red,
      (balanced_build_red red).mpr ⟨rootS, rootN, balS, balN⟩,
      (fits_red redNode).mpr ⟨rootF, balF, above_⟩⟩
  obtain ⟨after, rotated', up, black, ordered⟩ := turned.lifted redNode uncle rfl
  refine ⟨after, ?_, up, black, ?_⟩
  · unfold insertRotate
    rw [if_pos inside, rotated]
    dsimp only [Option.bind_eq_bind, Option.bind_some, Option.pure_def, Option.map_some]
    rw [rotated']
    rfl
  · have order : (plug (frame :: above :: rest) t).inorder = (plug (⟨above.dir, node, far⟩ ::
        above :: rest) (.build above.dir frame.addr frame.sibling near)).inorder := by
      apply inorder_plug_congr (above :: rest)
      rw [Frame.fill, Frame.fill, side, shape, Tree.build_other]
      exact (inorder_rotate above.dir frame.addr node frame.sibling near far).symm
    rw [order]
    exact ordered

end

/-- An uncle that is not red: after the rotations the loop ends. -/
theorem Conflict.rotated (uncle : rootColor heap.rbColor above.sibling ≠ .red) :
    ∃ after next parent, insertRotate above.dir heap node frame.addr above.addr =
      some (after, next) ∧
      after.rbParent next = some parent ∧ after.rbColor parent = .black ∧
      after.Ordered (plug (frame :: above :: rest) t).inorder := by
  have black : rootColor heap.rbColor above.sibling = .black := by
    cases shade : rootColor heap.rbColor above.sibling with
    | red => exact absurd shade uncle
    | black => rfl
  rcases Dir.eq_or_eq_other frame.dir above.dir with same | opposite
  · obtain ⟨after, rest⟩ := conflict.outer red black same
    exact ⟨after, node, frame.addr, rest⟩
  · obtain ⟨after, rest⟩ := conflict.inner red black opposite
    exact ⟨after, frame.addr, node, rest⟩

end

/-- A conflict at the root ends with the root black. -/
theorem Conflict.atRoot (conflict : Conflict heap [] t node height) :
    (heap.setColor node .black).Ordered t.inorder := by
  obtain ⟨l, r, shape⟩ := Tree.exists_build .left conflict.root
  have red := conflict.red
  have balanced := conflict.balanced
  rw [shape, rootColor_build] at red
  rw [shape, balanced_build_red red] at balanced
  obtain ⟨_, _, balL, balR⟩ := balanced
  obtain ⟨notL, notR, _⟩ := Tree.nodup_build.mp (shape ▸ conflict.focus.nodup_tree)
  refine ⟨t, conflict.focus, ⟨?_, height + 1, ?_⟩, rfl⟩
  · rw [shape, rootColor_build]
    exact setColor_self
  · rw [shape, balanced_build_black setColor_self]
    exact ⟨height, rfl, balL.congr (setColor_elsewhere notL), balR.congr (setColor_elsewhere notR)⟩

/-- One turn of the loop below a red parent. -/
theorem Conflict.turn (conflict : Conflict heap (frame :: above :: rest) t node height)
    (red : heap.rbColor frame.addr = .red) (fuel : Nat) :
    rbInsertColor (fuel + 1) heap node =
      if rootColor heap.rbColor above.sibling = .red then
        rbInsertColor fuel (((heap.paint above.sibling.root .black).setColor frame.addr
          .black).setColor above.addr .red) above.addr
      else (insertRotate above.dir heap node frame.addr above.addr).bind fun next =>
        rbInsertColor fuel next.1 next.2 := by
  have higher := focus_cons.mp conflict.focus
  have root : (frame.fill t).root = some frame.addr := Tree.root_build ..
  have up : heap.rbParent node = some frame.addr := conflict.focus.tree.parent_root conflict.root
  have up' : heap.rbParent frame.addr = some above.addr := higher.tree.parent_root root
  have side : (if heap.rbLeft above.addr = some frame.addr then Dir.left else Dir.right) =
      above.dir := by
    have found := side_eq higher (by rw [root]; exact higher.root_ne root)
    rw [root] at found
    exact found
  have uncle : heap.child above.dir.other above.addr = above.sibling.root := higher.path.2.2.1
  rw [rbInsertColor, up]
  dsimp only
  rw [if_pos red, up', bind_eq_bind, bind_some, side, uncle]
  by_cases shade : rootColor heap.rbColor above.sibling = .red
  · rw [if_pos shade, if_pos ((isRed_root _).mpr shade)]
  · rw [if_neg shade, if_neg fun isRed => shade ((isRed_root _).mp isRed)]
    rfl

/-- The loop ends with a red-black tree of the same order. -/
theorem Conflict.repaired (conflict : Conflict heap frames t node height) :
    ∃ after, (∀ fuel, frames.length < fuel → rbInsertColor fuel heap node = some after) ∧
      after.Ordered (plug frames t).inorder := by
  induction size : frames.length using Nat.strongRecOn
    generalizing heap frames t node height with
  | ind total ih =>
  have inside := mem_plug frames (Tree.mem_of_root conflict.root)
  have up : heap.rbParent node = top frames := conflict.focus.tree.parent_root conflict.root
  cases frames with
  | nil =>
    refine ⟨heap.setColor node .black, ?_, conflict.atRoot⟩
    intro fuel enough
    obtain ⟨fuel, rfl⟩ := Nat.exists_eq_add_one_of_ne_zero (by omega : fuel ≠ 0)
    have rbNode : heap.rbNode = some node := conflict.focus.path.trans conflict.root
    rw [rbInsertColor, up, rbNode]
    rfl
  | cons frame rest =>
    cases shade : heap.rbColor frame.addr with
    | black =>
      have redBlack : RedBlack heap.rbColor (plug (frame :: rest) t) :=
        conflict.fits.redBlack conflict.balanced fun _ => ⟨frame.addr, rfl, shade⟩
      have focus := focus_plug.mp conflict.focus
      refine ⟨heap, ?_, _, focus, redBlack, rfl⟩
      intro fuel enough
      obtain ⟨fuel, rfl⟩ := Nat.exists_eq_add_one_of_ne_zero (by omega : fuel ≠ 0)
      exact rbInsertColor_done focus redBlack up shade (Tree.root_ne_none inside) fuel
    | red =>
      obtain ⟨_, _, ⟨_, here, _⟩, _⟩ := (fits_red shade).mp conflict.fits
      cases rest with
      | nil => cases here
      | cons above rest =>
        by_cases uncle : rootColor heap.rbColor above.sibling = .red
        · obtain ⟨after, ran, ordered⟩ :=
            ih rest.length (by rw [← size, length_cons, length_cons]; omega)
            (conflict.rise shade uncle) rfl
          refine ⟨after, ?_, ordered⟩
          intro fuel enough
          rw [length_cons, length_cons] at size
          obtain ⟨fuel, rfl⟩ := Nat.exists_eq_add_one_of_ne_zero (by omega : fuel ≠ 0)
          rw [conflict.turn shade, if_pos uncle]
          exact ran fuel (by omega)
        · obtain ⟨after, next, parent, rotated, up, black, t', focus, redBlack, order⟩ :=
            conflict.rotated shade uncle
          refine ⟨after, ?_, t', focus, redBlack, order⟩
          intro fuel enough
          rw [length_cons, length_cons] at size
          obtain ⟨fuel, rfl⟩ := Nat.exists_eq_add_of_le' (by omega : 2 ≤ fuel)
          rw [conflict.turn shade, if_neg uncle, rotated, bind_some]
          rw [← order] at inside
          exact rbInsertColor_done focus redBlack up black (Tree.root_ne_none inside) fuel

/-- The third node in a line to the left: the tree is turned. -/
theorem Conflict.repaired_line : ∃ after, (∀ fuel, 2 < fuel → rbInsertColor fuel
    ⟨⟨fun dir a => if dir = .left ∧ 0 < a then some (a - 1) else none,
      fun a => if a < 2 then some (a + 1) else none, some 2⟩,
      fun a => if a = 2 then .black else .red⟩ 0 = some after) ∧ after.Ordered [0, 1, 2] := by
  refine @Conflict.repaired _ [⟨.left, 1, .leaf⟩, ⟨.left, 2, .leaf⟩] (.node 0 .leaf .leaf) 0 0
    ⟨⟨?_, ?_, by decide⟩, rfl, rfl, ⟨rfl, rfl, rfl, rfl⟩, rfl, rfl, ⟨2, rfl, rfl⟩, rfl, trivial⟩
  · exact ⟨rfl, rfl, rfl, trivial, trivial⟩
  · exact ⟨rfl, rfl, rfl, trivial, rfl, rfl, rfl, trivial, rfl⟩

end Insert

end MagxKernel.RbTree
