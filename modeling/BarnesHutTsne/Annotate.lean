import BarnesHutTsne.SPTree

/-!
# Annotating the tree: `numCells`, `yCell` and `rCell`

`costGrad` turns the tree into an `AugmSPNode` tree in two passes. `annotateTree` walks it bottom
up: a leaf gets `numCells = 1` and `yCell = point`; an internal node starts from its own point and
adds up the count and the point sum its children return, stores the count and the *mean*, and
returns the count and the *sum* to its parent. A visit then records `rCell = high[0] - low[0]`
from each node's cell.

The result (`annotated_nodes`): at every node, `numCells` is the number of nodes in its subtree
and `yCell` the mean of their points, and the call on a node returns that count and the sum.
-/

namespace BarnesHutTsne

namespace SPNode

variable {α β γ : Type} [LinearOrderedField α]

mutual
/-- Every subtree, in depth-first order. -/
def nodes : SPNode α β → List (SPNode α β)
  | mk box point ann none => [mk box point ann none]
  | mk box point ann (some slots) => mk box point ann (some slots) :: slotNodes slots

/-- Every subtree under a list of slots. -/
def slotNodes : List (Option (SPNode α β)) → List (SPNode α β)
  | [] => []
  | none :: slots => slotNodes slots
  | some child :: slots => child.nodes ++ slotNodes slots
end

/-- The cell of a node. -/
def box : SPNode α β → BBox α
  | mk box _ _ _ => box

mutual
/-- Replacing each node's annotation by one computed from its cell and old annotation. -/
def mapAnn (f : BBox α → β → γ) : SPNode α β → SPNode α γ
  | mk box point ann none => mk box point (f box ann) none
  | mk box point ann (some slots) => mk box point (f box ann) (some (mapAnnSlots f slots))

/-- `mapAnn` on a list of slots. -/
def mapAnnSlots (f : BBox α → β → γ) : List (Option (SPNode α β)) → List (Option (SPNode α γ))
  | [] => []
  | none :: slots => none :: mapAnnSlots f slots
  | some child :: slots => some (mapAnn f child) :: mapAnnSlots f slots
end

mutual
theorem points_mapAnn (f : BBox α → β → γ) : ∀ t : SPNode α β, (mapAnn f t).points = t.points
  | mk _ _ _ none => rfl
  | mk _ point _ (some slots) => by
    rw [mapAnn, points, points, slotPoints_mapAnnSlots f slots]

theorem slotPoints_mapAnnSlots (f : BBox α → β → γ) :
    ∀ slots : List (Option (SPNode α β)), slotPoints (mapAnnSlots f slots) = slotPoints slots
  | [] => rfl
  | none :: slots => by rw [mapAnnSlots, slotPoints, slotPoints, slotPoints_mapAnnSlots f slots]
  | some child :: slots => by
    rw [mapAnnSlots, slotPoints, slotPoints, points_mapAnn f child, slotPoints_mapAnnSlots f slots]
end

mutual
theorem nodes_mapAnn (f : BBox α → β → γ) :
    ∀ t : SPNode α β, (mapAnn f t).nodes = t.nodes.map (mapAnn f)
  | mk _ _ _ none => rfl
  | mk _ point _ (some slots) => by
    rw [mapAnn, nodes, nodes, slotNodes_mapAnnSlots f slots, List.map_cons, mapAnn]

theorem slotNodes_mapAnnSlots (f : BBox α → β → γ) :
    ∀ slots : List (Option (SPNode α β)), slotNodes (mapAnnSlots f slots) = (slotNodes slots).map (mapAnn f)
  | [] => rfl
  | none :: slots => by rw [mapAnnSlots, slotNodes, slotNodes, slotNodes_mapAnnSlots f slots]
  | some child :: slots => by
    rw [mapAnnSlots, slotNodes, slotNodes, nodes_mapAnn f child, slotNodes_mapAnnSlots f slots,
      List.map_append]
end

theorem mem_nodes_self (n : SPNode α β) : n ∈ n.nodes := by
  cases n with
  | mk box point ann children => cases children <;> simp [nodes]

mutual
theorem points_eq_map_nodes : ∀ t : SPNode α β, t.points = t.nodes.map point
  | mk _ _ _ none => rfl
  | mk _ _ _ (some slots) => by
    rw [points, nodes, List.map_cons, slotPoints_eq_map_slotNodes slots]; rfl

theorem slotPoints_eq_map_slotNodes :
    ∀ slots : List (Option (SPNode α β)), slotPoints slots = (slotNodes slots).map point
  | [] => rfl
  | none :: slots => slotPoints_eq_map_slotNodes slots
  | some child :: slots => by
    rw [slotPoints, slotNodes, List.map_append, points_eq_map_nodes child,
      slotPoints_eq_map_slotNodes slots]
end

theorem ann_mapAnn (f : BBox α → β → γ) (t : SPNode α β) : (mapAnn f t).ann = f t.box t.ann := by
  cases t with
  | mk box point ann children => cases children <;> rfl

theorem point_mapAnn (f : BBox α → β → γ) (t : SPNode α β) : (mapAnn f t).point = t.point := by
  cases t with
  | mk box point ann children => cases children <;> rfl

theorem children_mapAnn_isNone (f : BBox α → β → γ) (t : SPNode α β) :
    (mapAnn f t).children.isNone = t.children.isNone := by
  cases t with
  | mk box point ann children => cases children <;> rfl

end SPNode

/-- What `costGrad` adds to a node (`AugmSPNode`). -/
structure Augm (α : Type) where
  numCells : Nat
  yCell : Vec α
  rCell : α

variable {α β : Type} [LinearOrderedField α] (dim : Nat)

mutual
/-- `annotateTree`: annotates a node with its count and mean, and returns its count and sum. -/
def annotateTree : SPNode α β → SPNode α (Nat × Vec α) × (Nat × Vec α)
  | .mk box point _ none => (.mk box point (1, point) none, (1, point))
  | .mk box point _ (some slots) =>
    let r := annotateSlots slots (1, point)
    (.mk box point (r.2.1, fun d => r.2.2 d / r.2.1) (some r.1), r.2)

/-- The loop of `annotateTree` over the child slots: `null` slots are skipped, and each child's
count and sum are added to the running `numCells` and `yCell` (on the first `dim` coordinates). -/
def annotateSlots : List (Option (SPNode α β)) → Nat × Vec α →
    List (Option (SPNode α (Nat × Vec α))) × (Nat × Vec α)
  | [], acc => ([], acc)
  | none :: slots, acc =>
    let r := annotateSlots slots acc
    (none :: r.1, r.2)
  | some child :: slots, acc =>
    let c := annotateTree child
    let r := annotateSlots slots
      (acc.1 + c.2.1, fun d => if d < dim then acc.2 d + c.2.2 d else acc.2 d)
    (some c.1 :: r.1, r.2)
end

/-- The tree with `rCell` set at each node from its cell and annotation by `rCell`. -/
def withRCell (rCell : BBox α → Nat × Vec α → α) : SPNode α (Nat × Vec α) → SPNode α (Augm α) :=
  SPNode.mapAnn fun box a => ⟨a.1, a.2, rCell box a⟩

/-- The `rCell` visit: `node.rCell = high[0] - low[0]` on every node, for the cell corners
`center ∓ halfDim` the visit passes. -/
def setRCell : SPNode α (Nat × Vec α) → SPNode α (Augm α) :=
  withRCell fun box _ => (box.center 0 + box.halfDim) - (box.center 0 - box.halfDim)

/-- Every cell has a nonnegative side, so the `rCell` visit leaves `rCell ≥ 0` at every node. -/
theorem rCell_nonneg (t : SPNode α (Nat × Vec α)) : ∀ n ∈ (setRCell t).nodes, 0 ≤ n.ann.rCell := by
  intro n hn
  rw [setRCell, withRCell, SPNode.nodes_mapAnn, List.mem_map] at hn
  obtain ⟨n0, -, rfl⟩ := hn
  rw [SPNode.ann_mapAnn]
  show 0 ≤ n0.box.center 0 + n0.box.halfDim - (n0.box.center 0 - n0.box.halfDim)
  linarith [n0.box.halfDim_nonneg]

/-! ## What the annotation computes -/

/-- A node annotated as `annotateTree` promises: its count (read by `cnt`) is the size of its
subtree and its cell point (read by `cell`) the mean of the subtree's points. -/
def AnnOK {β : Type} (cnt : β → Nat) (cell : β → Vec α) (n : SPNode α β) : Prop :=
  cnt n.ann = n.points.length ∧
    ∀ d < dim, cell n.ann d = (n.points.map (· d)).sum / cnt n.ann

mutual
theorem annotateTree_spec : ∀ t : SPNode α β,
    (annotateTree dim t).1.points = t.points ∧ (annotateTree dim t).2.1 = t.points.length ∧
    (∀ d < dim, (annotateTree dim t).2.2 d = (t.points.map (· d)).sum) ∧
    ∀ n ∈ (annotateTree dim t).1.nodes, AnnOK dim Prod.fst Prod.snd n
  | .mk box point _ none => by
    refine ⟨rfl, rfl, fun d _ => by simp [annotateTree, SPNode.points], fun n hn => ?_⟩
    simp only [annotateTree, SPNode.nodes, List.mem_singleton] at hn
    subst hn
    exact ⟨rfl, fun d _ => by simp [SPNode.points, SPNode.ann]⟩
  | .mk box point a (some slots) => by
    obtain ⟨h1, h2, h3, h4⟩ := annotateSlots_spec slots (1, point)
    have hpts : (annotateTree dim (.mk box point a (some slots))).1.points =
        point :: SPNode.slotPoints slots := by
      simp only [annotateTree, SPNode.points, h1]
    have hcnt : (annotateTree dim (.mk box point a (some slots))).2.1 =
        (point :: SPNode.slotPoints slots).length := by
      simp only [annotateTree]; rw [h2, List.length_cons]; omega
    have hsum : ∀ d < dim, (annotateTree dim (.mk box point a (some slots))).2.2 d =
        ((point :: SPNode.slotPoints slots).map (· d)).sum := fun d hd => by
      simp only [annotateTree]; rw [h3 d hd, List.map_cons, List.sum_cons]
    refine ⟨hpts, hcnt, hsum, fun n hn => ?_⟩
    have hn' : n ∈ (annotateTree dim (.mk box point a (some slots))).1 ::
        SPNode.slotNodes (annotateSlots dim slots (1, point)).1 := hn
    rcases List.mem_cons.1 hn' with rfl | hn
    · refine ⟨hcnt.trans (by rw [hpts]), fun d hd => ?_⟩
      show (annotateTree dim (.mk box point a (some slots))).2.2 d /
        ((annotateTree dim (.mk box point a (some slots))).2.1 : α) = _
      rw [hsum d hd, hcnt, hpts,
        show (annotateTree dim (.mk box point a (some slots))).1.ann.1 = _ from hcnt]
    · exact h4 n hn

theorem annotateSlots_spec : ∀ (slots : List (Option (SPNode α β))) (acc : Nat × Vec α),
    SPNode.slotPoints (annotateSlots dim slots acc).1 = SPNode.slotPoints slots ∧
    (annotateSlots dim slots acc).2.1 = acc.1 + (SPNode.slotPoints slots).length ∧
    (∀ d < dim, (annotateSlots dim slots acc).2.2 d =
      acc.2 d + ((SPNode.slotPoints slots).map (· d)).sum) ∧
    ∀ n ∈ SPNode.slotNodes (annotateSlots dim slots acc).1, AnnOK dim Prod.fst Prod.snd n
  | [], acc => ⟨rfl, rfl, fun d _ => by simp [annotateSlots, SPNode.slotPoints],
      fun n hn => by simp [annotateSlots, SPNode.slotNodes] at hn⟩
  | none :: slots, acc => by
    obtain ⟨h1, h2, h3, h4⟩ := annotateSlots_spec slots acc
    exact ⟨h1, h2, h3, h4⟩
  | some child :: slots, acc => by
    obtain ⟨c1, c2, c3, c4⟩ := annotateTree_spec child
    obtain ⟨h1, h2, h3, h4⟩ := annotateSlots_spec slots
      (acc.1 + (annotateTree dim child).2.1,
        fun d => if d < dim then acc.2 d + (annotateTree dim child).2.2 d else acc.2 d)
    refine ⟨?_, ?_, fun d hd => ?_, fun n hn => ?_⟩
    · simp only [annotateSlots, SPNode.slotPoints, h1, c1]
    · simp only [annotateSlots]
      rw [h2, c2, SPNode.slotPoints, List.length_append]; omega
    · simp only [annotateSlots]
      rw [h3 d hd]
      simp only [if_pos hd, c3 d hd, SPNode.slotPoints, List.map_append, List.sum_append]; ring
    · simp only [annotateSlots, SPNode.slotNodes, List.mem_append] at hn
      exact hn.elim (c4 n) (h4 n)
end

/-- After `annotateTree` and any setting of `rCell` (the `rCell` visit among them) the tree carries
the same points, and every node holds the size of its subtree and the mean of its points. -/
theorem annotated_nodes (t : SPNode α β) (rCell : BBox α → Nat × Vec α → α) :
    (withRCell rCell (annotateTree dim t).1).points = t.points ∧
      ∀ n ∈ (withRCell rCell (annotateTree dim t).1).nodes,
        AnnOK dim Augm.numCells Augm.yCell n := by
  obtain ⟨h1, -, -, h4⟩ := annotateTree_spec dim t
  refine ⟨(SPNode.points_mapAnn _ _).trans h1, fun n hn => ?_⟩
  rw [withRCell, SPNode.nodes_mapAnn, List.mem_map] at hn
  obtain ⟨n0, hn0, rfl⟩ := hn
  obtain ⟨c1, c2⟩ := h4 n0 hn0
  simp only [AnnOK, SPNode.ann_mapAnn, SPNode.points_mapAnn]
  exact ⟨c1, c2⟩

/-! ## Every node, and the root of `SPTree` -/

mutual
/-- The annotated tree is made of the annotations of the subtrees: a node's annotation depends on
its own subtree only. -/
theorem nodes_annotateTree : ∀ t : SPNode α β,
    (annotateTree dim t).1.nodes = t.nodes.map fun u => (annotateTree dim u).1
  | .mk _ _ _ none => rfl
  | .mk box point a (some slots) => by
    rw [SPNode.nodes, List.map_cons, ← slotNodes_annotateSlots slots (1, point)]
    rfl

theorem slotNodes_annotateSlots : ∀ (slots : List (Option (SPNode α β))) (acc : Nat × Vec α),
    SPNode.slotNodes (annotateSlots dim slots acc).1 =
      (SPNode.slotNodes slots).map fun u => (annotateTree dim u).1
  | [], _ => rfl
  | none :: slots, acc => slotNodes_annotateSlots slots acc
  | some child :: slots, acc => by
    rw [SPNode.slotNodes, List.map_append, ← nodes_annotateTree child,
      ← slotNodes_annotateSlots slots]
    rfl
end

/-- What `annotateTree` leaves at the node of a subtree `u` and returns from it: the number of
nodes of `u`, the mean and the sum of their points. -/
theorem annotateTree_subtree (u : SPNode α β) :
    (annotateTree dim u).1.ann.1 = u.nodes.length ∧
      (∀ d < dim, (annotateTree dim u).1.ann.2 d =
        (u.nodes.map (·.point d)).sum / u.nodes.length) ∧
      (annotateTree dim u).2.1 = u.nodes.length ∧
      ∀ d < dim, (annotateTree dim u).2.2 d = (u.nodes.map (·.point d)).sum := by
  obtain ⟨h1, h2, h3, h4⟩ := annotateTree_spec dim u
  obtain ⟨c1, c2⟩ := h4 _ (SPNode.mem_nodes_self _)
  have hlen : u.points.length = u.nodes.length := by
    rw [SPNode.points_eq_map_nodes, List.length_map]
  have hsum : ∀ d, (u.points.map (· d)).sum = (u.nodes.map (·.point d)).sum := fun d => by
    rw [SPNode.points_eq_map_nodes, List.map_map]; rfl
  rw [h1, hlen] at c1
  refine ⟨c1, fun d hd => ?_, h2.trans hlen, fun d hd => (h3 d hd).trans (hsum d)⟩
  rw [c2 d hd, h1, hsum, c1]

/-- **`annotateTree` counts and averages every subtree.** On any tree (slots of any number,
`null` slots, internal nodes with a point of their own) the call on the root leaves at the node of
every subtree `u` the number of nodes of `u` and the mean of their points, and the call on `u`
returns that number with the sum of the points. So at the root of the tree `SPTree` builds from
`N` points, `numCells = N` and `yCell` is the mean of the `N` points. -/
theorem annotateTree_counts_means (t : SPNode α β) :
    (annotateTree dim t).1.nodes = t.nodes.map (fun u => (annotateTree dim u).1) ∧
    (∀ u ∈ t.nodes,
      (annotateTree dim u).1.ann.1 = u.nodes.length ∧
      (∀ d < dim, (annotateTree dim u).1.ann.2 d =
        (u.nodes.map (·.point d)).sum / u.nodes.length) ∧
      (annotateTree dim u).2.1 = u.nodes.length ∧
      ∀ d < dim, (annotateTree dim u).2.2 d = (u.nodes.map (·.point d)).sum) ∧
    ∀ (p0 : Vec α) (ps : List (Vec α)),
      (annotateTree dim (SPTree dim p0 ps)).1.ann.1 = (p0 :: ps).length ∧
      ∀ d < dim, (annotateTree dim (SPTree dim p0 ps)).1.ann.2 d =
        ((p0 :: ps).map (· d)).sum / (p0 :: ps).length := by
  refine ⟨nodes_annotateTree dim t, fun u _ => annotateTree_subtree dim u, fun p0 ps => ?_⟩
  obtain ⟨h1, -, -, h4⟩ := annotateTree_spec dim (SPTree dim p0 ps)
  obtain ⟨c1, c2⟩ := h4 _ (SPNode.mem_nodes_self _)
  have hperm := (points_SPTree dim p0 ps).1
  rw [h1, hperm.length_eq] at c1
  refine ⟨c1, fun d hd => ?_⟩
  rw [c2 d hd, h1, (hperm.map _).sum_eq, c1]

end BarnesHutTsne
