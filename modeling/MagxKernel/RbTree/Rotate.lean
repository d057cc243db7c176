import MagxKernel.RbTree.Tree

namespace MagxKernel.RbTree

open LinkedTree

section Rotate

variable {heap : Heap} {frames : List Frame} {dir : Dir} {node pivot : Nat} {outer inner far : Tree}

theorem inorder_rotate (dir : Dir) (node pivot : Nat) (outer inner far : Tree) :
    (Tree.build dir pivot (.build dir node outer inner) far).inorder =
      (Tree.build dir node outer (.build dir pivot inner far)).inorder := by
  cases dir <;> simp [Tree.build, Tree.inorder]

/-- A rotation lifts the pivot and hands its inner subtree over. -/
theorem rotate_spec
    (focus : Focus heap.toLinks frames (.build dir node outer (.build dir pivot inner far))) :
    ∃ links, rotate dir heap node = some (heap.setLinks links) ∧
      Focus links frames (.build dir pivot (.build dir node outer inner) far) := by
  obtain ⟨up, near, opposite, repOuter, repPivot⟩ := rep_build.mp focus.tree
  obtain ⟨upPivot, nearPivot, farPivot, repInner, repFar⟩ := rep_build.mp repPivot
  obtain ⟨notOuter, notPivot, nodupOuter, nodupPivot, apart⟩ := Tree.nodup_build.mp focus.nodup_tree
  obtain ⟨notInner, notFar, nodupInner, nodupFar, apartPivot⟩ := Tree.nodup_build.mp nodupPivot
  simp only [Tree.mem_build, not_or] at notPivot apart
  have topNode := focus.top_ne (show node ∈ _ by simp [Tree.mem_build])
  have topPivot := focus.top_ne (show pivot ∈ _ by simp [Tree.mem_build])
  have notNode := focus.not_outside (show node ∈ _ by simp [Tree.mem_build])
  have notPivot' := focus.not_outside (show pivot ∈ _ by simp [Tree.mem_build])
  rw [Tree.root_build] at opposite
  have path := focus.path
  rw [Tree.root_build] at path
  generalize first : heap.toLinks.setChild dir.other node inner.root = links1
  generalize second : links1.adopt inner.root (some node) = links2
  generalize third : links2.setChild dir pivot (some node) = links3
  generalize fourth : links3.setParent pivot (top frames) = links4
  generalize fifth : links4.replaceChild dir (top frames) node (some pivot) = links5
  have parentNode : links3.parent node = top frames := by
    rw [← third, Links.parent_setChild, ← second,
      Links.parent_adopt_of_ne fun root => notPivot.2.1 (Tree.mem_of_root root), ← first]
    exact up
  have parentNode' : links4.parent node = top frames := by
    rw [← fourth, Links.parent_setParent_of_ne notPivot.1]
    exact parentNode
  have distinct : pivot ≠ node := fun same => notPivot.1 same.symm
  have kept : ∀ {parent s}, links2.Rep parent s → node ∉ s.inorder → pivot ∉ s.inorder →
      (∀ b ∈ s.inorder, top frames ≠ some b) →
        (links5.setParent node (some pivot)).Rep parent s := by
    intro parent s rep notNode notPivot notTop
    rw [← fifth, ← fourth, ← third]
    exact (((rep.congr (.setChild notPivot)).congr (.setParent notPivot)).congr
      (.replaceChild notTop)).congr (.setParent notNode)
  have children : ∀ side b, top frames ≠ some b →
      (links5.setParent node (some pivot)).child side b = links3.child side b := by
    intro side b notTop
    rw [Links.child_setParent, ← fifth, Links.child_replaceChild_of_ne notTop, ← fourth,
      Links.child_setParent]
  refine ⟨links5.setParent node (some pivot), ?_, ?_, ?_, ?_⟩
  · unfold rotate
    rw [opposite]
    dsimp only [Option.bind_eq_bind, Option.bind_some, Option.pure_def]
    rw [nearPivot, first, second, third, parentNode, fourth, parentNode', fifth]
  · apply rep_build.mpr
    refine ⟨?_, ?_, ?_, rep_build.mpr ⟨Links.parent_setParent_self, ?_, ?_, ?_, ?_⟩, ?_⟩
    · rw [Links.parent_setParent_of_ne distinct, ← fifth, Links.parent_replaceChild, ← fourth]
      exact Links.parent_setParent_self
    · rw [children _ _ topPivot, ← third, Tree.root_build]
      exact Links.child_setChild_self
    · rw [children _ _ topPivot, ← third, Links.child_setChild_of_side (Dir.other_ne dir), ← second,
        Links.child_adopt, ← first, Links.child_setChild_of_ne distinct]
      exact farPivot
    · rw [children _ _ topNode, ← third, Links.child_setChild_of_ne notPivot.1, ← second,
        Links.child_adopt, ← first, Links.child_setChild_of_side (Dir.other_ne dir).symm]
      exact near
    · rw [children _ _ topNode, ← third, Links.child_setChild_of_ne notPivot.1, ← second,
        Links.child_adopt, ← first]
      exact Links.child_setChild_self
    · apply kept _ notOuter (fun inside => (apart pivot inside).1 rfl)
        fun b inside => focus.top_ne (by simp [Tree.mem_build, inside])
      rw [← second, ← first]
      exact (repOuter.congr (.setChild notOuter)).congr
        (.adopt fun b inside root => (apart b inside).2.1 (Tree.mem_of_root root))
    · apply kept _ notPivot.2.1 notInner
        fun b inside => focus.top_ne (by simp [Tree.mem_build, inside])
      rw [← second, ← first]
      exact (repInner.congr (.setChild notPivot.2.1)).adopt nodupInner
    · apply kept _ notPivot.2.2 notFar
        fun b inside => focus.top_ne (by simp [Tree.mem_build, inside])
      rw [← second, ← first]
      exact (repFar.congr (.setChild notPivot.2.2)).congr
        (.adopt fun b inside root => apartPivot b (Tree.mem_of_root root) inside)
  · rw [Tree.root_build, ← fifth, ← fourth, ← third, ← second, ← first]
    refine Links.Path.congr ?_ (.setParent notNode) rfl
    apply Links.Path.replaceChild _ notNode focus.nodup_outside
    refine Links.Path.congr ?_ (.setParent notPivot') rfl
    refine Links.Path.congr ?_ (.setChild notPivot') rfl
    refine (path.congr (.setChild notNode) rfl).congr (.adopt ?_) Links.root_adopt
    intro b inside root
    exact focus.not_outside (by simp [Tree.mem_build, Tree.mem_of_root root]) inside
  · rw [inorder_rotate]
    exact focus.nodup

theorem rotate_other_spec {near : Tree}
    (focus : Focus heap.toLinks frames (.build dir node (.build dir pivot near inner) far)) :
    ∃ links, rotate dir.other heap node = some (heap.setLinks links) ∧
      Focus links frames (.build dir pivot near (.build dir node inner far)) := by
  rw [← Tree.build_other dir node, ← Tree.build_other dir pivot] at focus
  obtain ⟨links, rotated, after⟩ := rotate_spec focus
  rw [Tree.build_other, Tree.build_other] at after
  exact ⟨links, rotated, after⟩

end Rotate

end MagxKernel.RbTree
