import BarnesHutTsne.Annotate

/-!
# The repulsion walk

For each point `pointI`, `costGrad` walks the annotated tree with a callback that either
*accepts* a node (a leaf, or a cell that passes the Barnes-Hut test) and adds one charge of weight
`numCells` at `yCell` to `Z` and `FnegZ`, or *rejects* it, adds a charge of weight `1` at the
node's own `point`, and lets the walk descend.

The specification suspects the rejected node's own charge of counting twice. It does not
(`repulsion_walk_accounting`): every node carries its own point, `numCells` counts the node
itself, and so the reached nodes partition the tree's points, each accepted node standing for
exactly its subtree and each rejected one for itself. When the walk accepts no internal node it
therefore adds exactly the pairwise terms of every point of the tree.
-/

namespace BarnesHutTsne

variable {α β γ : Type} [LinearOrderedField α]

mutual
/-- Modelled from the spec: `tree.visit(accessor)`. The walk is depth first over the non-null
slots in order, and skips a node's children when the accessor returns `true`; the accessor's
effects are the state `γ` it threads. -/
def visitNode (f : γ → SPNode α β → Bool × γ) : SPNode α β → γ → γ
  | .mk box point ann none, acc => (f acc (.mk box point ann none)).2
  | .mk box point ann (some slots), acc =>
    let r := f acc (.mk box point ann (some slots))
    if r.1 then r.2 else visitSlots f slots r.2

/-- Modelled from the spec: the walk over a node's slots. -/
def visitSlots (f : γ → SPNode α β → Bool × γ) : List (Option (SPNode α β)) → γ → γ
  | [], acc => acc
  | none :: slots, acc => visitSlots f slots acc
  | some child :: slots, acc => visitSlots f slots (visitNode f child acc)
end

variable (m : JsMath α) (dist2 : Vec α → Vec α → α)
  (computeForce : Vec α → α → Vec α → Vec α → Vec α)

/-- The test of the repulsion callback at `pointI`: a leaf, or a cell whose extent over its
distance is below `θ`. -/
def accepts (θ : α) (pointI : Vec α) (node : SPNode α (Augm α)) : Prop :=
  node.children.isNone ∨
    (dist2 pointI node.ann.yCell > 0 ∧
      node.ann.rCell / m.sqrt (dist2 pointI node.ann.yCell) < θ)

instance (θ : α) (pointI : Vec α) (node : SPNode α (Augm α)) :
    Decidable (accepts m dist2 θ pointI node) :=
  inferInstanceAs (Decidable (_ ∨ _))

/-- The repulsion callback of `costGrad` for `pointI`, adding into `(Z, FnegZ)`. -/
def repulsion (θ : α) (pointI : Vec α) (acc : α × Vec α) (node : SPNode α (Augm α)) :
    Bool × (α × Vec α) :=
  let squaredDistToCell := dist2 pointI node.ann.yCell
  if node.children.isNone ∨
      (squaredDistToCell > 0 ∧ node.ann.rCell / m.sqrt squaredDistToCell < θ) then
    let qijZ := 1 / (1 + squaredDistToCell)
    let dZ := (node.ann.numCells : α) * qijZ
    (true, (acc.1 + dZ, computeForce acc.2 (dZ * qijZ) pointI node.ann.yCell))
  else
    let squaredDistToPoint := dist2 pointI node.point
    let qijZ := 1 / (1 + squaredDistToPoint)
    (false, (acc.1 + qijZ, computeForce acc.2 (qijZ * qijZ) pointI node.point))

/-! ## The nodes the walk reaches -/

/-- A node the walk reaches: accepted, its subtree summarised by one charge at `yCell`, or
rejected, its own point charged and its children visited. -/
inductive Reach (α : Type) [LinearOrderedField α]
  | accepted (node : SPNode α (Augm α))
  | rejected (node : SPNode α (Augm α))

namespace Reach

/-- The weight of the charge. -/
def weight : Reach α → α
  | accepted node => node.ann.numCells
  | rejected _ => 1

/-- Where the charge sits. -/
def position : Reach α → Vec α
  | accepted node => node.ann.yCell
  | rejected node => node.point

/-- The points of the nodes the charge stands for. -/
def covers : Reach α → List (Vec α)
  | accepted node => node.points
  | rejected node => [node.point]

end Reach

mutual
/-- The nodes the walk driven by the repulsion callback reaches, in order. -/
def reached (θ : α) (pointI : Vec α) : SPNode α (Augm α) → List (Reach α)
  | .mk box point ann none => [.accepted (.mk box point ann none)]
  | .mk box point ann (some slots) =>
    if accepts m dist2 θ pointI (.mk box point ann (some slots)) then
      [.accepted (.mk box point ann (some slots))]
    else .rejected (.mk box point ann (some slots)) :: reachedSlots θ pointI slots

/-- The nodes reached under a list of slots. -/
def reachedSlots (θ : α) (pointI : Vec α) : List (Option (SPNode α (Augm α))) → List (Reach α)
  | [] => []
  | none :: slots => reachedSlots θ pointI slots
  | some child :: slots => reached θ pointI child ++ reachedSlots θ pointI slots
end

/-- The callback's addition for one reached node: `weight · q` to `Z`, and `weight · q²` times
`pointI - position` to `FnegZ`, where `q = 1 / (1 + ‖pointI - position‖²)`. -/
def charge (pointI : Vec α) (acc : α × Vec α) (e : Reach α) : α × Vec α :=
  let q := 1 / (1 + dist2 pointI e.position)
  (acc.1 + e.weight * q, computeForce acc.2 (e.weight * q * q) pointI e.position)

/-! ## The walk adds the charges of the reached nodes -/

theorem accepts_leaf (θ : α) (pointI : Vec α) (box : BBox α) (point : Vec α) (ann : Augm α) :
    accepts m dist2 θ pointI (.mk box point ann none) :=
  Or.inl rfl

/-- The callback decides `accepts` and adds the charge of the node as accepted or rejected. -/
theorem repulsion_eq (θ : α) (pointI : Vec α) (acc : α × Vec α) (node : SPNode α (Augm α)) :
    repulsion m dist2 computeForce θ pointI acc node =
      if accepts m dist2 θ pointI node then
        (true, charge dist2 computeForce pointI acc (.accepted node))
      else (false, charge dist2 computeForce pointI acc (.rejected node)) := by
  have hc : accepts m dist2 θ pointI node = (node.children.isNone ∨
      (dist2 pointI node.ann.yCell > 0 ∧
        node.ann.rCell / m.sqrt (dist2 pointI node.ann.yCell) < θ)) := rfl
  dsimp only [repulsion]
  by_cases h : accepts m dist2 θ pointI node
  · rw [if_pos h, if_pos (hc ▸ h)]
    simp [charge, Reach.weight, Reach.position]
  · rw [if_neg h, if_neg (hc ▸ h)]
    simp [charge, Reach.weight, Reach.position]

mutual
theorem visitNode_repulsion (θ : α) (pointI : Vec α) :
    ∀ (n : SPNode α (Augm α)) (acc : α × Vec α),
      visitNode (repulsion m dist2 computeForce θ pointI) n acc =
        (reached m dist2 θ pointI n).foldl (charge dist2 computeForce pointI) acc
  | .mk box point ann none, acc => by
    rw [visitNode, reached, repulsion_eq, if_pos (accepts_leaf m dist2 θ pointI box point ann)]
    rfl
  | .mk box point ann (some slots), acc => by
    rw [visitNode, reached, repulsion_eq]
    by_cases h : accepts m dist2 θ pointI (.mk box point ann (some slots))
    · simp only [if_pos h]; rfl
    · simp only [if_neg h, Bool.false_eq_true, if_false, List.foldl_cons]
      exact visitSlots_repulsion θ pointI slots _

theorem visitSlots_repulsion (θ : α) (pointI : Vec α) :
    ∀ (slots : List (Option (SPNode α (Augm α)))) (acc : α × Vec α),
      visitSlots (repulsion m dist2 computeForce θ pointI) slots acc =
        (reachedSlots m dist2 θ pointI slots).foldl (charge dist2 computeForce pointI) acc
  | [], acc => rfl
  | none :: slots, acc => visitSlots_repulsion θ pointI slots acc
  | some child :: slots, acc => by
    rw [visitSlots, reachedSlots, List.foldl_append, visitNode_repulsion θ pointI child acc]
    exact visitSlots_repulsion θ pointI slots _
end

/-! ## The reached nodes partition the tree -/

/-- The node a reached entry is about. -/
def Reach.node : Reach α → SPNode α (Augm α)
  | accepted node => node
  | rejected node => node

/-- The nodes a reached entry accounts for: an accepted node's whole subtree, a rejected node
alone. -/
def Reach.coverNodes : Reach α → List (SPNode α (Augm α))
  | accepted node => node.nodes
  | rejected node => [node]

theorem Reach.covers_eq (e : Reach α) : e.covers = e.coverNodes.map SPNode.point := by
  cases e with
  | accepted n => exact SPNode.points_eq_map_nodes n
  | rejected n => rfl

theorem Reach.node_mem_coverNodes (e : Reach α) : e.node ∈ e.coverNodes := by
  cases e with
  | accepted n => exact SPNode.mem_nodes_self n
  | rejected n => exact List.mem_singleton_self n

mutual
theorem flatMap_coverNodes_reached (θ : α) (pointI : Vec α) :
    ∀ n : SPNode α (Augm α), (reached m dist2 θ pointI n).flatMap Reach.coverNodes = n.nodes
  | .mk box point ann none => by simp [reached, Reach.coverNodes]
  | .mk box point ann (some slots) => by
    rw [reached]
    split
    · simp [Reach.coverNodes]
    · rw [List.flatMap_cons, flatMap_coverNodes_reachedSlots θ pointI slots]
      rfl

theorem flatMap_coverNodes_reachedSlots (θ : α) (pointI : Vec α) :
    ∀ slots : List (Option (SPNode α (Augm α))),
      (reachedSlots m dist2 θ pointI slots).flatMap Reach.coverNodes = SPNode.slotNodes slots
  | [] => rfl
  | none :: slots => flatMap_coverNodes_reachedSlots θ pointI slots
  | some child :: slots => by
    rw [reachedSlots, List.flatMap_append, flatMap_coverNodes_reached θ pointI child,
      flatMap_coverNodes_reachedSlots θ pointI slots]
    rfl
end

theorem flatMap_covers_reached (θ : α) (pointI : Vec α) (n : SPNode α (Augm α)) :
    (reached m dist2 θ pointI n).flatMap Reach.covers = n.points := by
  rw [SPNode.points_eq_map_nodes, ← flatMap_coverNodes_reached m dist2 θ pointI n,
    List.map_flatMap]
  exact List.flatMap_congr fun e _ => e.covers_eq

theorem node_mem_of_reached (θ : α) (pointI : Vec α) (n : SPNode α (Augm α))
    {e : Reach α} (he : e ∈ reached m dist2 θ pointI n) : e.node ∈ n.nodes := by
  rw [← flatMap_coverNodes_reached m dist2 θ pointI n]
  exact List.mem_flatMap.2 ⟨e, he, e.node_mem_coverNodes⟩

mutual
theorem accepts_of_accepted_mem_reached (θ : α) (pointI : Vec α) :
    ∀ (n k : SPNode α (Augm α)), Reach.accepted k ∈ reached m dist2 θ pointI n →
      accepts m dist2 θ pointI k
  | .mk box point ann none, k, hk => by
    simp only [reached, List.mem_singleton, Reach.accepted.injEq] at hk
    subst hk; exact accepts_leaf m dist2 θ pointI box point ann
  | .mk box point ann (some slots), k, hk => by
    rw [reached] at hk
    split at hk
    · simp only [List.mem_singleton, Reach.accepted.injEq] at hk
      subst hk; assumption
    · simp only [List.mem_cons, reduceCtorEq, false_or] at hk
      exact accepts_of_accepted_mem_reachedSlots θ pointI slots k hk

theorem accepts_of_accepted_mem_reachedSlots (θ : α) (pointI : Vec α) :
    ∀ (slots : List (Option (SPNode α (Augm α)))) (k : SPNode α (Augm α)),
      Reach.accepted k ∈ reachedSlots m dist2 θ pointI slots → accepts m dist2 θ pointI k
  | [], _, hk => absurd hk (List.not_mem_nil _)
  | none :: slots, k, hk => accepts_of_accepted_mem_reachedSlots θ pointI slots k hk
  | some child :: slots, k, hk => by
    rw [reachedSlots, List.mem_append] at hk
    exact hk.elim (accepts_of_accepted_mem_reached θ pointI child k)
      (accepts_of_accepted_mem_reachedSlots θ pointI slots k)
end

/-- With a threshold `θ ≤ 0`, nonnegative `rCell` values and square roots, no cell passes the
Barnes-Hut test, and the walk accepts leaves only. -/
theorem leaves_accepted_of_nonpos (hsqrt : ∀ x, 0 ≤ m.sqrt x) {θ : α} (hθ : θ ≤ 0)
    (pointI : Vec α) (A : SPNode α (Augm α)) (hr : ∀ n ∈ A.nodes, 0 ≤ n.ann.rCell) :
    ∀ k, Reach.accepted k ∈ reached m dist2 θ pointI A → k.children = none := by
  intro k hk
  rcases accepts_of_accepted_mem_reached m dist2 θ pointI A k hk with h | ⟨-, h⟩
  · exact Option.isNone_iff_eq_none.1 h
  · have hk' : k ∈ A.nodes := node_mem_of_reached m dist2 θ pointI A hk
    exact absurd h (not_lt.2 (hθ.trans (div_nonneg (hr k hk') (hsqrt _))))

/-! ## The walk adds into `Z` -/

/-- `Z` only accumulates: the walk adds to it an amount, and computes a force, that do not depend
on the `Z` it starts from. -/
theorem foldl_charge_fst (pointI : Vec α) : ∀ (R : List (Reach α)) (acc : α × Vec α),
    R.foldl (charge dist2 computeForce pointI) acc =
      (acc.1 + (R.foldl (charge dist2 computeForce pointI) (0, acc.2)).1,
        (R.foldl (charge dist2 computeForce pointI) (0, acc.2)).2)
  | [], acc => by simp
  | e :: R, acc => by
    simp only [List.foldl_cons]
    rw [foldl_charge_fst pointI R, foldl_charge_fst pointI R (charge _ _ _ (0, acc.2) e)]
    simp only [charge, zero_add, add_assoc]

theorem visitNode_repulsion_fst (θ : α) (pointI : Vec α) (n : SPNode α (Augm α)) (Z : α)
    (F : Vec α) :
    visitNode (repulsion m dist2 computeForce θ pointI) n (Z, F) =
      (Z + (visitNode (repulsion m dist2 computeForce θ pointI) n (0, F)).1,
        (visitNode (repulsion m dist2 computeForce θ pointI) n (0, F)).2) := by
  simp only [visitNode_repulsion]
  exact foldl_charge_fst dist2 computeForce pointI _ (Z, F)

/-! ## Accounting -/

section
variable (dim : Nat)

/-- A reached node's charge stands for the points it covers: its weight is their number, and its
weight times its position their sum on the first `dim` coordinates. -/
def Reach.Sound (e : Reach α) : Prop :=
  e.weight = e.covers.length ∧ ∀ d < dim, e.weight * e.position d = (e.covers.map (· d)).sum

theorem Reach.sound_of_annOK {e : Reach α} (h : AnnOK dim Augm.numCells Augm.yCell e.node) :
    e.Sound dim := by
  cases e with
  | accepted n =>
    obtain ⟨h1, h2⟩ : AnnOK dim Augm.numCells Augm.yCell n := h
    have hpos : (n.ann.numCells : α) ≠ 0 := by
      rw [h1]; exact_mod_cast (List.length_pos.2 (SPNode.points_ne_nil n)).ne'
    refine ⟨by simp [Reach.weight, Reach.covers, h1], fun d hd => ?_⟩
    simp only [Reach.weight, Reach.position, Reach.covers]
    rw [h2 d hd]; field_simp
  | rejected n => exact ⟨by simp [Reach.weight, Reach.covers],
      fun d _ => by simp [Reach.weight, Reach.position, Reach.covers]⟩

/-- The charge of weight `1` at `p`. -/
def pointCharge (pointI : Vec α) (acc : α × Vec α) (p : Vec α) : α × Vec α :=
  let q := 1 / (1 + sqDist dim pointI p)
  (acc.1 + q, addForce dim acc.2 (q * q) pointI p)

theorem foldl_pointCharge (pointI : Vec α) : ∀ (ps : List (Vec α)) (acc : α × Vec α),
    ps.foldl (pointCharge dim pointI) acc =
      (acc.1 + (ps.map fun p => 1 / (1 + sqDist dim pointI p)).sum,
        fun d => if d < dim then
          acc.2 d + (ps.map fun p => (1 / (1 + sqDist dim pointI p)) ^ 2 * (pointI d - p d)).sum
          else acc.2 d)
  | [], acc => Prod.ext (by simp) (funext fun d => by by_cases hd : d < dim <;> simp [hd])
  | p :: ps, acc => by
    rw [List.foldl_cons, foldl_pointCharge pointI ps]
    refine Prod.ext (by simp [pointCharge, add_assoc]) (funext fun d => ?_)
    simp only [pointCharge, addForce, List.map_cons, List.sum_cons]
    by_cases hd : d < dim
    · simp only [hd, if_true]; ring
    · simp only [hd, if_false]

/-- Once no internal node is accepted, every reached node charges the one point it covers. -/
theorem charge_eq_pointCharge (pointI : Vec α) (acc : α × Vec α) {e : Reach α}
    (hok : AnnOK dim Augm.numCells Augm.yCell e.node)
    (hleaf : ∀ n, e = .accepted n → n.children = none) :
    charge (sqDist dim) (addForce dim) pointI acc e = e.covers.foldl (pointCharge dim pointI) acc := by
  cases e with
  | accepted n =>
    obtain ⟨box, point, ann, children⟩ := n
    obtain rfl : children = none := hleaf _ rfl
    obtain ⟨h1, h2⟩ : AnnOK dim Augm.numCells Augm.yCell (.mk box point ann none) := hok
    have hpts : (SPNode.mk box point ann none).points = [point] := rfl
    simp only [hpts, SPNode.ann, List.length_singleton] at h1 h2
    have hy : ∀ d < dim, ann.yCell d = point d := fun d hd => by simpa [h1] using h2 d hd
    simp only [charge, Reach.weight, Reach.position, Reach.covers, hpts, List.foldl, pointCharge,
      SPNode.ann, SPNode.point, h1, sqDist_congr pointI hy, addForce_congr acc.2 _ pointI hy]
    simp
  | rejected n => simp [charge, Reach.weight, Reach.position, Reach.covers, pointCharge]

/-- Over reached nodes that are sound leaves or rejected nodes, the charges add up to the unit
charges of the points they cover. -/
theorem foldl_charge_eq_pointCharge (pointI : Vec α) (R : List (Reach α))
    (hR : ∀ e ∈ R, AnnOK dim Augm.numCells Augm.yCell e.node ∧
      ∀ n, e = .accepted n → n.children = none) (acc : α × Vec α) :
    R.foldl (charge (sqDist dim) (addForce dim) pointI) acc =
      (R.flatMap Reach.covers).foldl (pointCharge dim pointI) acc := by
  induction R generalizing acc with
  | nil => rfl
  | cons e R ih =>
    obtain ⟨hok, hleaf⟩ := hR e (List.mem_cons_self _ _)
    rw [List.foldl_cons, List.flatMap_cons, List.foldl_append,
      charge_eq_pointCharge dim pointI acc hok hleaf]
    exact ih (fun e' he' => hR e' (List.mem_cons_of_mem _ he')) _

variable (θ : α) (x : Vec α) (A : SPNode α (Augm α))
  (hA : ∀ n ∈ A.nodes, AnnOK dim Augm.numCells Augm.yCell n)
include hA

theorem sound_of_reached {e : Reach α} (he : e ∈ reached m dist2 θ x A) : e.Sound dim :=
  Reach.sound_of_annOK dim (hA _ (node_mem_of_reached m dist2 θ x A he))

theorem sum_weight_reached :
    ((reached m dist2 θ x A).map Reach.weight).sum = A.points.length := by
  calc ((reached m dist2 θ x A).map Reach.weight).sum
      = ((reached m dist2 θ x A).map fun e => (e.covers.map fun _ => (1 : α)).sum).sum := by
        refine congrArg List.sum (List.map_congr_left fun e he => ?_)
        rw [(sound_of_reached m dist2 dim θ x A hA he).1]; simp
    _ = (((reached m dist2 θ x A).flatMap Reach.covers).map fun _ => (1 : α)).sum :=
        (sum_map_flatMap _ _ _).symm
    _ = A.points.length := by rw [flatMap_covers_reached]; simp

theorem sum_moment_reached (d : Nat) (hd : d < dim) :
    ((reached m dist2 θ x A).map fun e => e.weight * e.position d).sum =
      (A.points.map (· d)).sum := by
  calc ((reached m dist2 θ x A).map fun e => e.weight * e.position d).sum
      = ((reached m dist2 θ x A).map fun e => (e.covers.map (· d)).sum).sum :=
        congrArg List.sum (List.map_congr_left fun e he =>
          (sound_of_reached m dist2 dim θ x A hA he).2 d hd)
    _ = (((reached m dist2 θ x A).flatMap Reach.covers).map (· d)).sum :=
        (sum_map_flatMap _ _ _).symm
    _ = (A.points.map (· d)).sum := by rw [flatMap_covers_reached]

theorem walk_of_leaves_accepted
    (hleaf : ∀ n, Reach.accepted n ∈ reached m (sqDist dim) θ x A → n.children = none)
    (acc : α × Vec α) :
    visitNode (repulsion m (sqDist dim) (addForce dim) θ x) A acc =
      A.points.foldl (pointCharge dim x) acc := by
  rw [visitNode_repulsion, ← flatMap_covers_reached m (sqDist dim) θ x A]
  refine foldl_charge_eq_pointCharge dim x _ (fun e he => ⟨?_, ?_⟩) acc
  · exact hA _ (node_mem_of_reached m _ θ x A he)
  · rintro n rfl; exact hleaf n he

end

/-! ## The walk over an annotated tree -/

/-- Over any tree annotated by `annotateTree`, with any `rCell` values, any query point and any
threshold, the repulsion walk accounts for every node exactly once: the nodes that the reached
entries cover are the tree's nodes in order, each entry's weight and weighted position are the
size and point sum of what it covers, and so the weights add up to the number of nodes (`N` for
the tree `SPTree` builds) and the weighted positions to the sum of the points. When the walk
accepts no internal node it adds to `Z` and `FnegZ` exactly the pairwise terms of every node. -/
theorem repulsion_walk_accounting (dim : Nat) (T : SPNode α β) (rCell : BBox α → Nat × Vec α → α)
    (θ : α) (x : Vec α) :
    let A := withRCell rCell (annotateTree dim T).1
    let R := reached m (sqDist dim) θ x A
    let walk := visitNode (repulsion m (sqDist dim) (addForce dim) θ x) A
    R.flatMap Reach.coverNodes = A.nodes ∧
    R.flatMap Reach.covers = T.points ∧
    (∀ e ∈ R, e.Sound dim) ∧
    (∀ acc, walk acc = R.foldl (charge (sqDist dim) (addForce dim) x) acc) ∧
    (R.map Reach.weight).sum = T.points.length ∧
    (∀ d < dim, (R.map fun e => e.weight * e.position d).sum = (T.points.map (· d)).sum) ∧
    ((∀ n, Reach.accepted n ∈ R → n.children = none) → ∀ acc, walk acc =
      (acc.1 + (T.points.map fun p => 1 / (1 + sqDist dim x p)).sum,
        fun d => if d < dim then
          acc.2 d + (T.points.map fun p => (1 / (1 + sqDist dim x p)) ^ 2 * (x d - p d)).sum
          else acc.2 d)) ∧
    ∀ (p0 : Vec α) (ps : List (Vec α)), (SPTree dim p0 ps).points.length = ps.length + 1 := by
  intro A R walk
  obtain ⟨hpts, hA⟩ := annotated_nodes dim T rCell
  refine ⟨flatMap_coverNodes_reached m _ θ x A, (flatMap_covers_reached m _ θ x A).trans hpts,
    fun e he => sound_of_reached m _ dim θ x A hA he, visitNode_repulsion m _ _ θ x A,
    hpts ▸ sum_weight_reached m _ dim θ x A hA,
    fun d hd => hpts ▸ sum_moment_reached m _ dim θ x A hA d hd,
    fun hleaf acc => ?_, fun p0 ps => (points_SPTree dim p0 ps).1.length_eq⟩
  show visitNode _ A acc = _
  rw [walk_of_leaves_accepted m dim θ x A hA hleaf, foldl_pointCharge, hpts]

end BarnesHutTsne
