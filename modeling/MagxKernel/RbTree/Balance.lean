import MagxKernel.RbTree.Tree

namespace MagxKernel.RbTree

open LinkedTree List

section Balance

variable (color : Nat → Color)

/-- Null pointers count as black. -/
def rootColor : Tree → Color
  | .leaf => .black
  | .node a _ _ => color a

/-- No red node has a red child, and there are as many black nodes as given on every
way down from the root. -/
def Balanced : Tree → (height : Nat) → Prop
  | .leaf, height => height = 0
  | .node a l r, height =>
    match color a with
    | .red => rootColor color l = .black ∧ rootColor color r = .black ∧ Balanced l height ∧
        Balanced r height
    | .black => ∃ lower, height = lower + 1 ∧ Balanced l lower ∧ Balanced r lower

structure RedBlack (t : Tree) : Prop where
  root : rootColor color t = .black
  balanced : ∃ height, Balanced color t height

/-- A red subtree may stand here. -/
def Loose (frames : List Frame) : Prop := ∃ above, top frames = some above ∧ color above = .black

/-- What is above a subtree of the given height, apart from the colour of the
subtree. -/
def Fits : List Frame → (height : Nat) → Prop
  | [], _ => True
  | frame :: rest, height =>
    match color frame.addr with
    | .red => rootColor color frame.sibling = .black ∧ Balanced color frame.sibling height ∧
        Loose color rest ∧ Fits rest height
    | .black => Balanced color frame.sibling height ∧ Fits rest (height + 1)

end Balance

section Lemmas

variable {color color' : Nat → Color} {dir : Dir} {a height : Nat} {near far t : Tree}
  {frames rest : List Frame} {frame : Frame}

@[simp] theorem rootColor_build : rootColor color (.build dir a near far) = color a := by
  cases dir <;> rfl

theorem balanced_build_red (red : color a = .red) : Balanced color (.build dir a near far) height ↔
    rootColor color near = .black ∧ rootColor color far = .black ∧ Balanced color near height ∧
      Balanced color far height := by
  cases dir with
  | left =>
    simp [Tree.build, Balanced, red]
  | right =>
    simp only [Tree.build, Balanced, red]
    constructor
    · intro facts
      exact ⟨facts.2.1, facts.1, facts.2.2.2, facts.2.2.1⟩
    · intro facts
      exact ⟨facts.2.1, facts.1, facts.2.2.2, facts.2.2.1⟩

theorem balanced_build_black (black : color a = .black) :
    Balanced color (.build dir a near far) height ↔
      ∃ lower, height = lower + 1 ∧ Balanced color near lower ∧ Balanced color far lower := by
  cases dir with
  | left => simp only [Tree.build, Balanced, black]
  | right =>
    simp only [Tree.build, Balanced, black]
    exact exists_congr fun lower => and_congr_right fun _ => and_comm

theorem fits_red (red : color frame.addr = .red) : Fits color (frame :: rest) height ↔
    rootColor color frame.sibling = .black ∧ Balanced color frame.sibling height ∧
      Loose color rest ∧ Fits color rest height := by
  rw [Fits, red]

theorem fits_black (black : color frame.addr = .black) : Fits color (frame :: rest) height ↔
    Balanced color frame.sibling height ∧ Fits color rest (height + 1) := by
  rw [Fits, black]

theorem rootColor_congr (agree : ∀ b ∈ t.inorder, color' b = color b) :
    rootColor color' t = rootColor color t := by
  cases t with
  | leaf => rfl
  | node a l r => exact agree a (Tree.mem_of_root rfl)

theorem Balanced.congr (balanced : Balanced color t height)
    (agree : ∀ b ∈ t.inorder, color' b = color b) : Balanced color' t height := by
  induction t generalizing height with
  | leaf => exact balanced
  | node a l r ihl ihr =>
    have agreeL : ∀ b ∈ l.inorder, color' b = color b :=
      fun b member => agree b (Tree.mem_left member)
    have agreeR : ∀ b ∈ r.inorder, color' b = color b :=
      fun b member => agree b (Tree.mem_right member)
    have here := agree a (Tree.mem_of_root rfl)
    rw [Balanced] at balanced ⊢
    rw [here]
    cases shade : color a with
    | red =>
      rw [shade] at balanced
      obtain ⟨rootL, rootR, balL, balR⟩ := balanced
      rw [rootColor_congr agreeL, rootColor_congr agreeR]
      exact ⟨rootL, rootR, ihl balL agreeL, ihr balR agreeR⟩
    | black =>
      rw [shade] at balanced
      obtain ⟨lower, same, balL, balR⟩ := balanced
      exact ⟨lower, same, ihl balL agreeL, ihr balR agreeR⟩

theorem Loose.congr (loose : Loose color frames)
    (agree : ∀ b ∈ outside frames, color' b = color b) :
    Loose color' frames := by
  obtain ⟨above, here, black⟩ := loose
  exact ⟨above, here, (agree above (top_mem_outside here)).trans black⟩

theorem Fits.congr (fits : Fits color frames height)
    (agree : ∀ b ∈ outside frames, color' b = color b) : Fits color' frames height := by
  induction frames generalizing height with
  | nil => trivial
  | cons frame rest ih =>
    have agreeS : ∀ b ∈ frame.sibling.inorder, color' b = color b :=
      fun b member => agree b (mem_cons_of_mem _ (mem_append_left _ member))
    have agreeRest : ∀ b ∈ outside rest, color' b = color b :=
      fun b member => agree b (mem_cons_of_mem _ (mem_append_right _ member))
    have here := agree frame.addr mem_cons_self
    cases shade : color frame.addr with
    | red =>
      obtain ⟨root, balanced, loose, above⟩ := (fits_red shade).mp fits
      apply (fits_red (here.trans shade)).mpr
      rw [rootColor_congr agreeS]
      exact ⟨root, balanced.congr agreeS, loose.congr agreeRest, ih above agreeRest⟩
    | black =>
      obtain ⟨balanced, above⟩ := (fits_black shade).mp fits
      apply (fits_black (here.trans shade)).mpr
      exact ⟨balanced.congr agreeS, ih above agreeRest⟩

theorem Fits.redBlack (fits : Fits color frames height) (balanced : Balanced color t height)
    (shade : rootColor color t = .red → Loose color frames) : RedBlack color (plug frames t) := by
  induction frames generalizing height t with
  | nil =>
    refine ⟨?_, height, balanced⟩
    cases root : rootColor color t with
    | black => exact root
    | red =>
      obtain ⟨above, here, _⟩ := shade root
      cases here
  | cons frame rest ih =>
    cases shadeF : color frame.addr with
    | red =>
      obtain ⟨root, balS, loose, above⟩ := (fits_red shadeF).mp fits
      have rootT : rootColor color t = .black := by
        cases rootT : rootColor color t with
        | black => rfl
        | red =>
          obtain ⟨other, here, black⟩ := shade rootT
          cases here
          rw [shadeF] at black
          cases black
      exact ih above ((balanced_build_red shadeF).mpr ⟨rootT, root, balanced, balS⟩) fun _ => loose
    | black =>
      obtain ⟨balS, above⟩ := (fits_black shadeF).mp fits
      apply ih above ((balanced_build_black shadeF).mpr ⟨height, rfl, balanced, balS⟩)
      intro red
      rw [rootColor_build, shadeF] at red
      cases red

end Lemmas

end MagxKernel.RbTree
