import BarnesHutTsne.Repulsion

/-!
# `costGrad`

`costGrad(Y)` copies the rows of `Y` into `points`, builds and annotates the tree, and then for
every point `i`

* adds up the attractive force `Fpos` over the neighbours `nearest[i]`, each `j` with weight
  `P[i*N + j] / (1 + ‖yᵢ - yⱼ‖²)`;
* walks the tree with the repulsion callback, which adds into `FnegZ` and into the normaliser `Z`
  that all points share;

and returns the rows `4α · Fpos - (4 / Z) · FnegZ`, with the exaggeration `α = 4` for the first
100 iterations and `1` after.

The model takes the Barnes-Hut threshold as a parameter (`costGradAt`); the source's `costGrad`
is `costGradAt THETA`. The engine's `dist2` and `computeForce` are `dist2_2D`/`computeForce_2d`
or their 3D versions, that is `sqDist dim` and `addForce dim`.

`costGradAt_spec` gives the result in closed form. Its hypotheses are the ones `initDataDist`
leaves in place for a valid table: a row of `nearest` for every point, and neighbour indices that
name points. Without them the call throws (`costGradAt_bad_index`).
-/

namespace BarnesHutTsne

variable {α : Type} [LinearOrderedField α] (m : JsMath α) (dim N : Nat)

/-- The rows `points[i][d] = Y[i * dim + d]`, `d < dim`, that `costGrad` copies out of `Y`. -/
def pointsOf (Y : List α) : List (Vec α) :=
  (List.range N).map fun i d => if d < dim then Y.getD (i * dim + d) 0 else 0

@[simp] theorem length_pointsOf (Y : List α) : (pointsOf dim N Y).length = N := by
  simp [pointsOf]

/-- `points[j]` for an index `j` that names a point. -/
def pointAt (points : List (Vec α)) (j : Int) : Vec α := points.getD j.toNat 0

/-! ## The attractive forces -/

section
variable (i : Nat) (P : List α) (points : List (Vec α)) (pointI : Vec α)

/-- The attractive loop of `costGrad` for point `i`: for each neighbour `j` it adds
`P[i*N + j] / (1 + dist2(pointI, pointJ))` times `pointI - pointJ` to `Fpos`. An index that
names no point leaves `pointJ` undefined, and `dist2` throws on reading it. -/
def attractiveForce : List (Neighbor α) → Vec α → Except JsError (Vec α)
  | [], Fpos => .ok Fpos
  | neighbor :: neighbors, Fpos =>
    match getAt points neighbor.index with
    | none => .error .typeError
    | some pointJ =>
      let pij := readAt P (i * N + neighbor.index)
      let premult := pij / (1 + sqDist dim pointI pointJ)
      attractiveForce neighbors (addForce dim Fpos premult pointI pointJ)

/-- The force the attractive loop adds: over the neighbours `j`, `P[i*N + j] / (1 + ‖yᵢ - yⱼ‖²)`
times `yᵢ - yⱼ`, on the first `dim` coordinates. -/
def attraction (neighbors : List (Neighbor α)) : Vec α :=
  fun d => if d < dim then
    (neighbors.map fun nb =>
      readAt P (i * N + nb.index) / (1 + sqDist dim pointI (pointAt points nb.index)) *
        (pointI d - pointAt points nb.index d)).sum
    else 0

/-- A neighbour index names a point. -/
def NamesPoint (nb : Neighbor α) : Prop := 0 ≤ nb.index ∧ nb.index < points.length

instance (nb : Neighbor α) : Decidable (NamesPoint points nb) := inferInstanceAs (Decidable (_ ∧ _))

theorem attractiveForce_spec : ∀ (neighbors : List (Neighbor α)) (Fpos : Vec α),
    (∀ nb ∈ neighbors, NamesPoint points nb) →
    attractiveForce dim N i P points pointI neighbors Fpos =
      .ok (Fpos + attraction dim N i P points pointI neighbors)
  | [], Fpos, _ => by
    refine congrArg Except.ok (funext fun d => ?_)
    simp [attraction]
  | nb :: neighbors, Fpos, h => by
    obtain ⟨h0, hlt⟩ := h nb (List.mem_cons_self _ _)
    rw [attractiveForce, getAt_eq_some points 0 h0 hlt]
    dsimp only
    rw [attractiveForce_spec neighbors _ fun nb' h' => h nb' (List.mem_cons_of_mem _ h')]
    refine congrArg Except.ok (funext fun d => ?_)
    by_cases hd : d < dim
    · simp only [Pi.add_apply, addForce, attraction, hd, if_true, List.map_cons, List.sum_cons,
        pointAt]
      ring
    · simp [addForce, attraction, hd]

/-- A neighbour index that names no point makes the loop throw. -/
theorem attractiveForce_bad_index : ∀ (neighbors : List (Neighbor α)) (Fpos : Vec α),
    (∃ nb ∈ neighbors, ¬NamesPoint points nb) →
    attractiveForce dim N i P points pointI neighbors Fpos = .error .typeError
  | [], _, ⟨_, h, _⟩ => absurd h (List.not_mem_nil _)
  | nb :: neighbors, Fpos, ⟨nb', hmem, hbad⟩ => by
    rw [attractiveForce]
    split
    · rfl
    · rename_i pointJ hget
      rcases List.mem_cons.1 hmem with rfl | hmem
      · rw [getAt_eq_none points hbad] at hget; cases hget
      · exact attractiveForce_bad_index neighbors _ ⟨nb', hmem, hbad⟩

end

/-! ## The loop over the points -/

section
variable (θ : α) (P : List α) (nearest : List (List (Neighbor α))) (points : List (Vec α))
  (root : SPNode α (Augm α))

/-- The loop of `costGrad` over the points `i ∈ is`: the attractive force from `nearest[i]` and
the repulsion walk from `points[i]`, which adds into the `Z` that all points share. A missing row
`nearest[i]` is `undefined`, and reading its `length` throws. -/
def forcesLoop : List Nat → α → Except JsError (α × List (Vec α × Vec α))
  | [], Z => .ok (Z, [])
  | i :: is, Z =>
    let pointI := points.getD i 0
    match nearest[i]? with
    | none => .error .typeError
    | some neighbors => do
      let Fpos ← attractiveForce dim N i P points pointI neighbors 0
      let r := visitNode (repulsion m (sqDist dim) (addForce dim) θ pointI) root (Z, 0)
      let rest ← forcesLoop is r.1
      pure (rest.1, (Fpos, r.2) :: rest.2)

/-- The repulsion walk from `pointI` over `root`, started from `Z = 0` and `FnegZ = 0`. -/
def walkFrom (pointI : Vec α) : α × Vec α :=
  visitNode (repulsion m (sqDist dim) (addForce dim) θ pointI) root (0, 0)

/-- Point `i` has a row in the table, and each of its neighbour indices names a point. -/
def RowOK (i : Nat) : Prop :=
  i < nearest.length ∧ ∀ nb ∈ nearest.getD i [], NamesPoint points nb

instance (i : Nat) : Decidable (RowOK nearest points i) := inferInstanceAs (Decidable (_ ∧ _))

omit [LinearOrderedField α] in
theorem getElem?_eq_some_getD {β : Type} {l : List β} {i : Nat} (d : β) (hi : i < l.length) :
    l[i]? = some (l.getD i d) := by
  rw [List.getD_eq_getElem?_getD, List.getElem?_eq_getElem hi]; rfl

theorem forcesLoop_spec : ∀ (is : List Nat) (Z : α), (∀ i ∈ is, RowOK nearest points i) →
    forcesLoop m dim N θ P nearest points root is Z =
      .ok (Z + (is.map fun i => (walkFrom m dim θ root (points.getD i 0)).1).sum,
        is.map fun i => (attraction dim N i P points (points.getD i 0) (nearest.getD i []),
          (walkFrom m dim θ root (points.getD i 0)).2))
  | [], Z, _ => by simp [forcesLoop]
  | i :: is, Z, h => by
    obtain ⟨hi, hnb⟩ := h i (List.mem_cons_self _ _)
    rw [forcesLoop, getElem?_eq_some_getD [] hi]
    dsimp only
    rw [attractiveForce_spec dim N i P points _ _ _ hnb, visitNode_repulsion_fst,
      forcesLoop_spec is _ fun i' h' => h i' (List.mem_cons_of_mem _ h')]
    simp only [bind, Except.bind, pure, Except.pure, zero_add, List.map_cons, List.sum_cons,
      add_assoc, walkFrom]

/-- The first point whose row is missing or names a non-point makes the loop throw. -/
theorem forcesLoop_bad_row {i : Nat} (hbad : ¬RowOK nearest points i) (post : List Nat) :
    ∀ (pre : List Nat) (Z : α), (∀ i' ∈ pre, RowOK nearest points i') →
      forcesLoop m dim N θ P nearest points root (pre ++ i :: post) Z = .error .typeError
  | [], Z, _ => by
    rw [List.nil_append, forcesLoop]
    by_cases hi : i < nearest.length
    · have hnb : ∃ nb ∈ nearest.getD i [], ¬NamesPoint points nb := by
        by_contra hc
        exact hbad ⟨hi, fun nb hnb => by_contra fun hn => hc ⟨nb, hnb, hn⟩⟩
      simp only [getElem?_eq_some_getD [] hi]
      rw [attractiveForce_bad_index dim N i P points _ _ _ hnb]
      rfl
    · simp only [List.getElem?_eq_none (Nat.le_of_not_lt hi)]
  | i' :: pre, Z, h => by
    obtain ⟨hi, hnb⟩ := h i' (List.mem_cons_self _ _)
    rw [List.cons_append, forcesLoop]
    simp only [getElem?_eq_some_getD [] hi]
    rw [attractiveForce_spec dim N i' P points _ _ _ hnb]
    simp only [bind, Except.bind]
    rw [forcesLoop_bad_row hbad post pre _ fun i'' h' => h i'' (List.mem_cons_of_mem _ h')]

end

/-! ## The gradient -/

/-- `costGrad` with the Barnes-Hut threshold `θ` as a parameter. The tree of no points is left
open by the specification; the model throws there. -/
def costGradAt (θ : α) (iter : Nat) (P : List α) (nearest : List (List (Neighbor α)))
    (Y : List α) : Except JsError (List (Vec α)) :=
  let alpha : α := if iter < 100 then 4 else 1
  match pointsOf dim N Y with
  | [] => .error .typeError
  | p0 :: ps => do
    let root := setRCell (annotateTree dim (SPTree dim p0 ps)).1
    let r ← forcesLoop m dim N θ P nearest (p0 :: ps) root (List.range N) 0
    let A := 4 * alpha
    let B := 4 / r.1
    pure (r.2.map fun F d => A * F.1 d - B * F.2 d)

/-- `costGrad`: the gradient at the source's threshold `THETA`. -/
def costGrad (iter : Nat) (P : List α) (nearest : List (List (Neighbor α))) (Y : List α) :
    Except JsError (List (Vec α)) :=
  costGradAt m dim N THETA iter P nearest Y

/-- **The gradient in closed form.** For a table with a row for every point and indices that
name points, `costGrad` succeeds, and row `i` is `4α` times the attraction of `nearest[i]`
minus `4 / Z` times the force of the walk from `yᵢ`, where `Z` adds up every walk's normaliser
terms. -/
theorem costGradAt_spec (θ : α) (iter : Nat) (P : List α) (nearest : List (List (Neighbor α)))
    (Y : List α) {p0 : Vec α} {ps : List (Vec α)} (hpts : pointsOf dim N Y = p0 :: ps)
    (hrows : ∀ i < N, RowOK nearest (p0 :: ps) i) :
    let root := setRCell (annotateTree dim (SPTree dim p0 ps)).1
    let y := fun i => (p0 :: ps).getD i 0
    let Z := ((List.range N).map fun i => (walkFrom m dim θ root (y i)).1).sum
    costGradAt m dim N θ iter P nearest Y = .ok ((List.range N).map fun i d =>
      4 * (if iter < 100 then 4 else 1) * attraction dim N i P (p0 :: ps) (y i) (nearest.getD i []) d
        - 4 / Z * (walkFrom m dim θ root (y i)).2 d) := by
  intro root y Z
  rw [costGradAt]
  simp only [hpts]
  rw [forcesLoop_spec m dim N θ P nearest (p0 :: ps) root (List.range N) 0
    fun i hi => hrows i (List.mem_range.1 hi)]
  simp only [bind, Except.bind, pure, Except.pure, zero_add, List.map_map]
  rfl

/-- A point with no row, or whose row names a non-point, makes `costGrad` throw. -/
theorem costGradAt_bad_row (θ : α) (iter : Nat) (P : List α)
    (nearest : List (List (Neighbor α))) (Y : List α) {i : Nat} (hi : i < N)
    (hbad : ¬RowOK nearest (pointsOf dim N Y) i) :
    costGradAt m dim N θ iter P nearest Y = .error .typeError := by
  -- the first bad row throws
  obtain ⟨i, hiN, hbad, hprev⟩ : ∃ i < N, ¬RowOK nearest (pointsOf dim N Y) i ∧
      ∀ i' < i, RowOK nearest (pointsOf dim N Y) i' := by
    classical
    have hex : ∃ i, i < N ∧ ¬RowOK nearest (pointsOf dim N Y) i := ⟨i, hi, hbad⟩
    refine ⟨Nat.find hex, (Nat.find_spec hex).1, (Nat.find_spec hex).2, fun i' hi' => ?_⟩
    by_contra hc
    exact Nat.find_min hex hi' ⟨hi'.trans (Nat.find_spec hex).1, hc⟩
  have hrange : List.range N = List.range i ++ i :: (List.range (N - i - 1)).map (i + 1 + ·) := by
    conv_lhs => rw [show N = i + (N - i - 1 + 1) by omega, List.range_add, List.range_succ_eq_map]
    simp [Function.comp_def, Nat.add_assoc, Nat.add_comm 1]
  rw [costGradAt]
  split
  · rfl
  · rename_i p0 ps hpts
    rw [hpts] at hbad hprev
    dsimp only
    rw [hrange, forcesLoop_bad_row m dim N θ P nearest _ _ hbad _ _ _
      fun i' h' => hprev i' (List.mem_range.1 h')]
    rfl

/-- **`costGrad` returns exactly when every point has a row of the table whose indices name
points.** On every embedding of `N ≥ 1` points, at every threshold and iteration, with any `P`:
neither the distances nor `P` can make it throw. -/
theorem costGradAt_ok_iff (θ : α) (iter : Nat) (P : List α) (nearest : List (List (Neighbor α)))
    (Y : List α) (hN : 0 < N) :
    (∃ grad, costGradAt m dim N θ iter P nearest Y = .ok grad) ↔
      ∀ i < N, RowOK nearest (pointsOf dim N Y) i := by
  obtain ⟨p0, ps, hpts⟩ : ∃ p0 ps, pointsOf dim N Y = p0 :: ps :=
    List.exists_cons_of_length_pos (by rw [length_pointsOf]; exact hN)
  refine ⟨fun ⟨grad, hg⟩ i hi => by_contra fun hbad => ?_, fun hrows => ?_⟩
  · rw [costGradAt_bad_row m dim N θ iter P nearest Y hi hbad] at hg
    cases hg
  · rw [hpts] at hrows
    exact ⟨_, costGradAt_spec m dim N θ iter P nearest Y hpts hrows⟩

/-- One point in the plane with an empty row of neighbours. -/
theorem costGradAt_ok_iff_single :
    0 < 1 ∧ ((∃ grad, costGradAt (⟨id, id, id⟩ : JsMath ℚ) 2 1 THETA 0 [0] [[]] [0, 0] = .ok grad) ↔
      ∀ i < 1, RowOK [[]] (pointsOf 2 1 ([0, 0] : List ℚ)) i) :=
  ⟨Nat.one_pos, costGradAt_ok_iff _ 2 1 THETA 0 _ _ _ Nat.one_pos⟩

/-! ## The normaliser `Z`

Each walk adds to `Z` the kernel `q = 1 / (1 + ‖yᵢ - position‖²)`, a value in `(0, 1]`, of every
reached node times its weight, and the weights of one walk add up to the number of points. So each
walk adds at most `N`, and the first reached node, the root, adds a positive amount. -/

theorem reached_ne_nil (θ : α) (x : Vec α) (n : SPNode α (Augm α)) :
    reached m (sqDist dim) θ x n ≠ [] := by
  obtain ⟨box, point, ann, _ | slots⟩ := n
  · simp [reached]
  · rw [reached]; split <;> simp

theorem Reach.covers_ne_nil (e : Reach α) : e.covers ≠ [] := by
  cases e with
  | accepted n => exact SPNode.points_ne_nil n
  | rejected n => exact List.cons_ne_nil _ _

/-- What the charges add to `Z`: each reached node's weight times its kernel. -/
theorem foldl_charge_Z (x : Vec α) : ∀ (R : List (Reach α)) (F : Vec α),
    (R.foldl (charge (sqDist dim) (addForce dim) x) (0, F)).1 =
      (R.map fun e => e.weight * (1 / (1 + sqDist dim x e.position))).sum
  | [], _ => rfl
  | e :: R, F => by
    rw [List.foldl_cons, foldl_charge_fst, foldl_charge_Z x R, List.map_cons, List.sum_cons]
    simp only [charge, zero_add]

/-- One walk over an annotated tree adds to `Z` a positive amount, at most the number of points. -/
theorem walkFrom_normaliser {β : Type} (θ : α) (t : SPNode α β) (x : Vec α) :
    0 < (walkFrom m dim θ (setRCell (annotateTree dim t).1) x).1 ∧
      (walkFrom m dim θ (setRCell (annotateTree dim t).1) x).1 ≤ t.points.length := by
  set A := setRCell (annotateTree dim t).1
  obtain ⟨hpts, hA⟩ : A.points = t.points ∧ ∀ n ∈ A.nodes, AnnOK dim Augm.numCells Augm.yCell n :=
    annotated_nodes dim t fun box _ => (box.center 0 + box.halfDim) - (box.center 0 - box.halfDim)
  have hq : ∀ e : Reach α, 0 < 1 / (1 + sqDist dim x e.position) ∧
      1 / (1 + sqDist dim x e.position) ≤ 1 := fun e =>
    have h0 := sqDist_nonneg dim x e.position
    ⟨by positivity, (div_le_one (by linarith)).2 (by linarith)⟩
  have hw : ∀ e ∈ reached m (sqDist dim) θ x A, 0 < e.weight := fun e he => by
    rw [(sound_of_reached m _ dim θ x A hA he).1]
    exact_mod_cast List.length_pos.2 e.covers_ne_nil
  rw [walkFrom, visitNode_repulsion, foldl_charge_Z]
  constructor
  · refine List.sum_pos _ (fun v hv => ?_) (by simpa using reached_ne_nil m dim θ x A)
    obtain ⟨e, he, rfl⟩ := List.mem_map.1 hv
    exact mul_pos (hw e he) (hq e).1
  · calc _ ≤ ((reached m (sqDist dim) θ x A).map Reach.weight).sum :=
          List.sum_le_sum fun e he => mul_le_of_le_one_right (hw e he).le (hq e).2
      _ = t.points.length := by rw [sum_weight_reached m _ dim θ x A hA, hpts]

/-- **The normaliser of `costGrad` is positive and at most `N²`.** On every list of `N ≥ 1`
points, with a row of the table for each point whose indices name points, and at every threshold,
the loop over the points returns a `Z` with `0 < Z ≤ N²`: `B = 4 / Z` divides by a positive
number, and `B ≥ 4 / N²`. -/
theorem forcesLoop_normaliser (θ : α) (P : List α) (nearest : List (List (Neighbor α)))
    (p0 : Vec α) (ps : List (Vec α)) (hN : (p0 :: ps).length = N)
    (hrows : ∀ i < N, RowOK nearest (p0 :: ps) i) :
    ∃ Z F, forcesLoop m dim N θ P nearest (p0 :: ps) (setRCell (annotateTree dim (SPTree dim p0 ps)).1)
        (List.range N) 0 = .ok (Z, F) ∧ 0 < Z ∧ Z ≤ N * N := by
  have hlen : (SPTree dim p0 ps).points.length = N := (points_SPTree dim p0 ps).1.length_eq.trans hN
  have hN0 : N ≠ 0 := by rw [← hN]; exact Nat.succ_ne_zero _
  rw [forcesLoop_spec m dim N θ P nearest _ _ _ 0 fun i hi => hrows i (List.mem_range.1 hi),
    zero_add]
  refine ⟨_, _, rfl, List.sum_pos _ (fun v hv => ?_) (by simpa using hN0), ?_⟩
  · obtain ⟨i, -, rfl⟩ := List.mem_map.1 hv
    exact (walkFrom_normaliser m dim θ _ _).1
  · calc _ ≤ ((List.range N).map fun i => (walkFrom m dim θ
            (setRCell (annotateTree dim (SPTree dim p0 ps)).1) ((p0 :: ps).getD i 0)).1).length • (N : α) :=
          List.sum_le_card_nsmul _ _ fun v hv => by
            obtain ⟨i, -, rfl⟩ := List.mem_map.1 hv
            exact hlen ▸ (walkFrom_normaliser m dim θ _ _).2
      _ = N * N := by simp

/-- Two points in the plane, each the other's neighbour. -/
theorem forcesLoop_normaliser_pair :
    ∃ Z F, forcesLoop (⟨id, id, id⟩ : JsMath ℚ) 2 2 THETA (zeros 4) [[⟨1, 1⟩], [⟨0, 1⟩]]
        [fun _ => 0, fun _ => 1] (setRCell (annotateTree 2 (SPTree 2 (fun _ => 0) [fun _ => 1])).1)
        (List.range 2) 0 = .ok (Z, F) ∧ 0 < Z ∧ Z ≤ 2 * 2 :=
  forcesLoop_normaliser _ 2 2 THETA _ _ _ _ rfl (by decide)

end BarnesHutTsne
