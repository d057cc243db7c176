import Mathlib.Data.List.Nodup
import Mathlib.Logic.Function.Basic

namespace MagxKernel.LinkedTree

open List Function

inductive Dir where
  | left
  | right
deriving DecidableEq

namespace Dir

def other : Dir → Dir
  | left => right
  | right => left

@[simp] theorem other_other (dir : Dir) : dir.other.other = dir := by
  cases dir <;> rfl

@[simp] theorem other_ne (dir : Dir) : dir.other ≠ dir := by
  cases dir <;> decide

theorem eq_or_eq_other (dir first : Dir) : dir = first ∨ dir = first.other := by
  cases dir <;> cases first <;> simp [other]

end Dir

/-- A binary tree whose nodes are addresses. -/
inductive Tree where
  | leaf
  | node (addr : Nat) (left right : Tree)
deriving DecidableEq

namespace Tree

/-- A node with the one subtree on the given side and the other one opposite. -/
def build (dir : Dir) (addr : Nat) (near far : Tree) : Tree :=
  match dir with
  | .left => .node addr near far
  | .right => .node addr far near

def root : Tree → Option Nat
  | leaf => none
  | node addr _ _ => some addr

def inorder : Tree → List Nat
  | leaf => []
  | node addr left right => left.inorder ++ addr :: right.inorder

section

variable (dir : Dir) (addr : Nat) (near far : Tree)

include dir addr near far

theorem build_other : build dir.other addr near far = build dir addr far near := by
  cases dir <;> rfl

@[simp] theorem root_build :
    (build dir addr near far).root = some addr := by
  cases dir <;> rfl

theorem inorder_build_perm :
    (build dir addr near far).inorder.Perm (addr :: (near.inorder ++ far.inorder)) := by
  cases dir with
  | left => exact perm_middle
  | right => exact perm_middle.trans (perm_append_comm.cons addr)

theorem mem_build (a : Nat) :
    a ∈ (build dir addr near far).inorder ↔ a = addr ∨ a ∈ near.inorder ∨ a ∈ far.inorder := by
  rw [(inorder_build_perm dir addr near far).mem_iff, mem_cons, mem_append]

end

theorem nodup_build {dir : Dir} {addr : Nat} {near far : Tree} :
    (build dir addr near far).inorder.Nodup ↔ addr ∉ near.inorder ∧ addr ∉ far.inorder ∧
      near.inorder.Nodup ∧ far.inorder.Nodup ∧ ∀ b ∈ near.inorder, b ∉ far.inorder := by
  rw [(inorder_build_perm dir addr near far).nodup_iff, nodup_cons, nodup_append',
    mem_append, not_or, and_assoc]
  exact Iff.rfl

theorem exists_build {t : Tree} {addr : Nat} (dir : Dir) (here : t.root = some addr) :
    ∃ near far, t = build dir addr near far := by
  cases t with
  | leaf => cases here
  | node _ l r =>
    cases here
    cases dir with
    | left => exact ⟨l, r, rfl⟩
    | right => exact ⟨r, l, rfl⟩

theorem mem_left {l r : Tree} {addr b : Nat} (member : b ∈ l.inorder) :
    b ∈ (node addr l r).inorder :=
  mem_append_left _ member

theorem mem_right {l r : Tree} {addr b : Nat} (member : b ∈ r.inorder) :
    b ∈ (node addr l r).inorder :=
  mem_append_right _ (mem_cons_of_mem _ member)

theorem mem_of_root {t : Tree} {a : Nat} (here : t.root = some a) : a ∈ t.inorder := by
  cases t with
  | leaf => cases here
  | node addr l r =>
    cases here
    simp [inorder]

theorem root_ne_none {t : Tree} {a : Nat} (member : a ∈ t.inorder) : t.root ≠ none := by
  cases t with
  | leaf => cases member
  | node addr l r => exact Option.some_ne_none addr

end Tree

/-- A step on the way from a subtree up to the root: the side of the subtree, the node
above it and the subtree on the other side. -/
structure Frame where
  dir : Dir
  addr : Nat
  sibling : Tree

def Frame.fill (frame : Frame) (t : Tree) : Tree := .build frame.dir frame.addr t frame.sibling

/-- The whole tree, given the way up from a subtree. -/
def plug : List Frame → Tree → Tree
  | [], t => t
  | frame :: rest, t => plug rest (frame.fill t)

/-- The node above the subtree. -/
def top : List Frame → Option Nat
  | [] => none
  | frame :: _ => some frame.addr

/-- The nodes outside the subtree. -/
def outside : List Frame → List Nat
  | [] => []
  | frame :: rest => frame.addr :: (frame.sibling.inorder ++ outside rest)

theorem top_mem_outside {frames : List Frame} {above : Nat} (here : top frames = some above) :
    above ∈ outside frames := by
  cases frames with
  | nil => cases here
  | cons frame rest =>
    cases here
    exact mem_cons_self

variable (frames : List Frame)

/-- The nodes before and after the subtree do not depend on it. -/
theorem inorder_plug :
    ∃ before after, ∀ t, (plug frames t).inorder = before ++ t.inorder ++ after := by
  induction frames with
  | nil => exact ⟨[], [], fun t => by simp [plug]⟩
  | cons frame rest ih =>
    obtain ⟨before, after, whole⟩ := ih
    cases side : frame.dir with
    | left =>
      refine ⟨before, frame.addr :: frame.sibling.inorder ++ after, fun t => ?_⟩
      rw [plug, whole, Frame.fill, side]
      simp [Tree.build, Tree.inorder]
    | right =>
      refine ⟨before ++ frame.sibling.inorder ++ [frame.addr], after, fun t => ?_⟩
      rw [plug, whole, Frame.fill, side]
      simp [Tree.build, Tree.inorder]

theorem inorder_plug_congr {t t' : Tree} (same : t.inorder = t'.inorder) :
    (plug frames t).inorder = (plug frames t').inorder := by
  obtain ⟨before, after, whole⟩ := inorder_plug frames
  rw [whole, whole, same]

theorem mem_plug {t : Tree} {a : Nat} (member : a ∈ t.inorder) : a ∈ (plug frames t).inorder := by
  obtain ⟨before, after, whole⟩ := inorder_plug frames
  rw [whole]
  exact mem_append_left _ (mem_append_right _ member)

/-- The pointers of the nodes, and the one to the root. -/
structure Links where
  child : Dir → Nat → Option Nat
  parent : Nat → Option Nat
  root : Option Nat

namespace Links

def setChild (links : Links) (dir : Dir) (a : Nat) (ptr : Option Nat) : Links :=
  { links with
    child := update links.child dir (update (links.child dir) a ptr) }

def setParent (links : Links) (a : Nat) (ptr : Option Nat) : Links :=
  { links with parent := update links.parent a ptr }

def setRoot (links : Links) (ptr : Option Nat) : Links := { links with root := ptr }

/-- Give the node that a pointer leads to, if any, a new parent. -/
def adopt (links : Links) (ptr : Option Nat) (parent : Option Nat) : Links :=
  match ptr with
  | none => links
  | some a => links.setParent a parent

/-- Let what points down to a node point elsewhere. -/
def replaceChild (links : Links) (dir : Dir) (parent : Option Nat) (a : Nat) (ptr : Option Nat) :
    Links :=
  match parent with
  | none => links.setRoot ptr
  | some p => if links.child dir p = some a then links.setChild dir p ptr
      else links.setChild dir.other p ptr

variable {links : Links} {dir side : Dir} {a b : Nat} {ptr parent : Option Nat}

@[simp] theorem child_setChild_self : (links.setChild dir a ptr).child dir a = ptr := by
  simp [setChild]

theorem child_setChild_of_ne (distinct : b ≠ a) :
    (links.setChild dir a ptr).child side b = links.child side b := by
  by_cases here : side = dir
  · rw [here]
    simp [setChild, distinct]
  · simp [setChild, here]

theorem child_setChild_of_side (distinct : side ≠ dir) :
    (links.setChild dir a ptr).child side b = links.child side b := by
  simp [setChild, distinct]

@[simp] theorem parent_setChild : (links.setChild dir a ptr).parent = links.parent := rfl

@[simp] theorem child_setParent : (links.setParent a ptr).child = links.child := rfl

@[simp] theorem parent_setParent_self : (links.setParent a ptr).parent a = ptr :=
  update_self _ _ _

theorem parent_setParent_of_ne (distinct : b ≠ a) :
    (links.setParent a ptr).parent b = links.parent b :=
  update_of_ne distinct _ _

@[simp] theorem child_adopt : (links.adopt ptr parent).child = links.child := by
  cases ptr <;> rfl

@[simp] theorem root_adopt : (links.adopt ptr parent).root = links.root := by
  cases ptr <;> rfl

theorem parent_adopt_of_ne (distinct : ptr ≠ some b) :
    (links.adopt ptr parent).parent b = links.parent b := by
  cases ptr with
  | none => rfl
  | some a => exact parent_setParent_of_ne fun same => distinct (same ▸ rfl)

@[simp] theorem parent_replaceChild :
    (links.replaceChild dir parent a ptr).parent = links.parent := by
  cases parent with
  | none => rfl
  | some p =>
    unfold replaceChild
    dsimp only
    split <;> rfl

theorem child_replaceChild_of_ne (distinct : parent ≠ some b) :
    (links.replaceChild dir parent a ptr).child side b = links.child side b := by
  cases parent with
  | none => rfl
  | some p =>
    have apart : b ≠ p := fun same => distinct (same ▸ rfl)
    unfold replaceChild
    dsimp only
    split <;> exact child_setChild_of_ne apart

/-- The pointers of the given nodes have not changed. -/
def Agree (links links' : Links) (nodes : List Nat) : Prop :=
  ∀ b ∈ nodes, (∀ dir, links'.child dir b = links.child dir b) ∧ links'.parent b = links.parent b

variable {nodes : List Nat}

theorem Agree.setChild (absent : a ∉ nodes) : links.Agree (links.setChild dir a ptr) nodes :=
  fun _ member => ⟨fun _ => child_setChild_of_ne fun same => absent (same ▸ member), rfl⟩

theorem Agree.setParent (absent : a ∉ nodes) : links.Agree (links.setParent a ptr) nodes :=
  fun _ member => ⟨fun _ => rfl, parent_setParent_of_ne fun same => absent (same ▸ member)⟩

theorem Agree.adopt (absent : ∀ b ∈ nodes, ptr ≠ some b) :
    links.Agree (links.adopt ptr parent) nodes :=
  fun b member => ⟨fun _ => by rw [child_adopt], parent_adopt_of_ne (absent b member)⟩

theorem Agree.replaceChild (absent : ∀ b ∈ nodes, parent ≠ some b) :
    links.Agree (links.replaceChild dir parent a ptr) nodes :=
  fun b member => ⟨fun _ => child_replaceChild_of_ne (absent b member), by rw [parent_replaceChild]⟩

/-- The pointers of a subtree, whose root has the given parent. -/
def Rep (links : Links) : Option Nat → Tree → Prop
  | _, .leaf => True
  | parent, .node a l r => links.parent a = parent ∧ links.child .left a = l.root ∧
      links.child .right a = r.root ∧ links.Rep (some a) l ∧ links.Rep (some a) r

/-- The pointers outside a subtree, to which the given pointer leads. -/
def Path (links : Links) : List Frame → Option Nat → Prop
  | [], ptr => links.root = ptr
  | frame :: rest, ptr => links.parent frame.addr = top rest ∧
      links.child frame.dir frame.addr = ptr ∧
      links.child frame.dir.other frame.addr = frame.sibling.root ∧
      links.Rep (some frame.addr) frame.sibling ∧ links.Path rest (some frame.addr)

end Links

section Rep

variable {links links' : Links} {dir : Dir} {a : Nat} {parent parent' ptr : Option Nat}
  {near far t : Tree} {frames rest : List Frame} {frame : Frame}

theorem rep_build : links.Rep parent (.build dir a near far) ↔ links.parent a = parent ∧
    links.child dir a = near.root ∧ links.child dir.other a = far.root ∧
    links.Rep (some a) near ∧ links.Rep (some a) far := by
  cases dir with
  | left => exact Iff.rfl
  | right =>
    constructor
    · exact fun ⟨up, left, right, repFar, repNear⟩ => ⟨up, right, left, repNear, repFar⟩
    · exact fun ⟨up, right, left, repNear, repFar⟩ => ⟨up, left, right, repFar, repNear⟩

theorem Links.Rep.parent_root (rep : links.Rep parent t) (root : t.root = some a) :
    links.parent a = parent := by
  cases t with
  | leaf => cases root
  | node b l r =>
    cases root
    exact rep.1

theorem Links.Rep.congr (rep : links.Rep parent t) (same : links.Agree links' t.inorder) :
    links'.Rep parent t := by
  induction t generalizing parent with
  | leaf => trivial
  | node addr l r ihl ihr =>
    obtain ⟨above, left, right, repL, repR⟩ := rep
    obtain ⟨child, up⟩ := same addr (Tree.mem_of_root rfl)
    refine ⟨up.trans above, (child _).trans left, (child _).trans right, ?_, ?_⟩
    · exact ihl repL fun b member => same b (Tree.mem_left member)
    · exact ihr repR fun b member => same b (Tree.mem_right member)

/-- The root of a subtree gets another parent. -/
theorem Links.Rep.adopt (rep : links.Rep parent t) (nodup : t.inorder.Nodup) :
    (links.adopt t.root parent').Rep parent' t := by
  cases t with
  | leaf => trivial
  | node addr l r =>
    obtain ⟨_, left, right, repL, repR⟩ := rep
    have parts : (Tree.build .left addr l r).inorder.Nodup := nodup
    obtain ⟨notL, notR, _⟩ := Tree.nodup_build.mp parts
    refine ⟨parent_setParent_self, left, right, ?_, ?_⟩
    · exact repL.congr (.setParent notL)
    · exact repR.congr (.setParent notR)

theorem Links.Path.congr (path : links.Path frames ptr) (same : links.Agree links' (outside frames))
    (root : links'.root = links.root) : links'.Path frames ptr := by
  induction frames generalizing ptr with
  | nil => exact root.trans path
  | cons frame rest ih =>
    obtain ⟨above, below, sibling, rep, path⟩ := path
    obtain ⟨child, up⟩ := same frame.addr mem_cons_self
    refine ⟨up.trans above, (child _).trans below, (child _).trans sibling, ?_, ?_⟩
    · exact rep.congr fun b member => same b (mem_cons_of_mem _ (mem_append_left _ member))
    · exact ih path fun b member => same b (mem_cons_of_mem _ (mem_append_right _ member))

/-- What is above a node gets another subtree in its place. -/
theorem Links.Path.replaceChild (path : links.Path frames (some a)) (absent : a ∉ outside frames)
    (nodup : (outside frames).Nodup) :
    (links.replaceChild dir (top frames) a ptr).Path frames ptr := by
  cases frames with
  | nil => rfl
  | cons frame rest =>
    obtain ⟨above, below, sibling, rep, path⟩ := path
    obtain ⟨fresh, nodup⟩ := nodup_cons.mp nodup
    have notSibling : frame.addr ∉ frame.sibling.inorder :=
      fun member => fresh (mem_append_left _ member)
    have notRest : frame.addr ∉ outside rest := fun member => fresh (mem_append_right _ member)
    have chosen : links.replaceChild dir (top (frame :: rest)) a ptr =
        links.setChild frame.dir frame.addr ptr := by
      unfold Links.replaceChild top
      dsimp only
      rcases Dir.eq_or_eq_other dir frame.dir with same | opposite
      · rw [same, if_pos below]
      · rw [opposite, if_neg, Dir.other_other]
        rw [sibling]
        intro here
        exact absent (mem_cons_of_mem _ (mem_append_left _ (Tree.mem_of_root here)))
    rw [chosen]
    refine ⟨above, child_setChild_self, ?_, rep.congr (.setChild notSibling),
      path.congr (.setChild notRest) rfl⟩
    rw [child_setChild_of_side (Dir.other_ne _)]
    exact sibling

end Rep

/-- Memory holds a tree, seen from one of its subtrees. -/
structure Focus (links : Links) (frames : List Frame) (t : Tree) : Prop where
  tree : links.Rep (top frames) t
  path : links.Path frames t.root
  nodup : (t.inorder ++ outside frames).Nodup

section Focus

variable {links : Links} {dir : Dir} {a b : Nat} {near far t : Tree} {frames rest : List Frame}
  {frame : Frame}

theorem outside_fill (frame : Frame) (rest : List Frame) (t : Tree) :
    ((frame.fill t).inorder ++ outside rest).Perm (t.inorder ++ outside (frame :: rest)) := by
  have whole := Tree.inorder_build_perm frame.dir frame.addr t frame.sibling
  refine (whole.append_right _).trans ?_
  rw [cons_append, append_assoc]
  exact perm_middle.symm

theorem focus_cons : Focus links (frame :: rest) t ↔ Focus links rest (frame.fill t) := by
  have perm := outside_fill frame rest t
  constructor
  · rintro ⟨tree, ⟨above, below, sibling, rep, path⟩, nodup⟩
    refine ⟨rep_build.mpr ⟨above, below, sibling, tree, rep⟩, ?_, perm.nodup_iff.mpr nodup⟩
    rw [Frame.fill, Tree.root_build]
    exact path
  · rintro ⟨tree, path, nodup⟩
    obtain ⟨above, below, sibling, repT, repS⟩ := rep_build.mp tree
    rw [Frame.fill, Tree.root_build] at path
    exact ⟨repT, ⟨above, below, sibling, repS, path⟩, perm.nodup_iff.mp nodup⟩

theorem focus_plug : Focus links frames t ↔ Focus links [] (plug frames t) := by
  induction frames generalizing t with
  | nil => exact Iff.rfl
  | cons frame rest ih =>
    rw [focus_cons]
    exact ih

namespace Focus

section

variable (focus : Focus links frames t)

include focus

theorem not_outside (member : a ∈ t.inorder) : a ∉ outside frames :=
  fun other => (nodup_append.mp focus.nodup).2.2 a member a other rfl

theorem nodup_outside : (outside frames).Nodup :=
  (nodup_append.mp focus.nodup).2.1

theorem nodup_tree : t.inorder.Nodup :=
  (nodup_append.mp focus.nodup).1

theorem top_ne (member : a ∈ t.inorder) : top frames ≠ some a := by
  intro here
  cases frames with
  | nil => cases here
  | cons frame rest =>
    cases here
    exact focus.not_outside member mem_cons_self

end

section

variable (focus : Focus links (frame :: rest) t)

include focus

/-- The node above is neither in the subtree nor elsewhere outside. -/
theorem frame_distinct : frame.addr ∉ t.inorder ∧
    frame.addr ∉ frame.sibling.inorder ∧ frame.addr ∉ outside rest := by
  have above := focus_cons.mp focus
  obtain ⟨notTree, notSibling, _⟩ := Tree.nodup_build.mp above.nodup_tree
  exact ⟨notTree, notSibling, above.not_outside (Tree.mem_of_root (Tree.root_build ..))⟩

/-- The two subtrees of a node have different roots. -/
theorem root_ne (here : t.root = some a) : frame.sibling.root ≠ some a := by
  intro there
  have apart := (Tree.nodup_build.mp (focus_cons.mp focus).nodup_tree).2.2.2.2
  exact apart a (Tree.mem_of_root here) (Tree.mem_of_root there)

end

end Focus

end Focus

end MagxKernel.LinkedTree
