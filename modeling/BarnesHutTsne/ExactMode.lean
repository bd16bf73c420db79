import BarnesHutTsne.Nearest2P
import BarnesHutTsne.CostGrad

/-!
# `costGrad` at `θ = 0`

With the Barnes-Hut threshold at `0` (the specification's exact mode, used only in tests), no
cell passes the test `rCell / ‖yᵢ - yCell‖ < θ`, since `rCell ≥ 0`: the walk rejects every
internal node and accepts every leaf, and by the accounting of `Repulsion` it charges every point
of the tree exactly once (`walkFrom_exact`).

That includes the point `yᵢ` itself, whose kernel value is `1`. So the `Z` that `costGrad`
divides by is the sum of `q_kl` over all ordered pairs *and* the `N` diagonal terms, and the
attractive force sums over the listed neighbours of `i` only (`costGrad_exact_mode`). The
gradient the specification states, `exactGrad`, divides by the sum over distinct pairs, and on two
points the two differ (`costGrad_exact_mode_self_terms`).
-/

namespace BarnesHutTsne

variable {α : Type} [LinearOrderedField α]

/-- A sum over a list of points, as a sum over their indices. -/
theorem sum_map_points (f : Vec α → α) :
    ∀ l : List (Vec α), (l.map f).sum = ∑ j ∈ Finset.range l.length, f (l.getD j 0)
  | [] => rfl
  | p :: l => by
    rw [List.map_cons, List.sum_cons, sum_map_points f l, List.length_cons, Finset.sum_range_succ']
    simp [add_comm]

theorem sum_map_range (f : Nat → α) : ∀ n, ((List.range n).map f).sum = ∑ i ∈ Finset.range n, f i
  | 0 => rfl
  | n + 1 => by rw [List.sum_range_succ, Finset.sum_range_succ, sum_map_range f n]

section
variable (dim : Nat) (pts : List (Vec α))

/-- Summed over every point's walk, the kernel values count each ordered pair of distinct points
once and each point with itself, at `q = 1`. -/
theorem sum_walks_eq :
    ((List.range pts.length).map fun i =>
        (pts.map fun p => 1 / (1 + sqDist dim (pts.getD i 0) p)).sum).sum =
      (∑ k ∈ Finset.range pts.length, ∑ l ∈ (Finset.range pts.length).erase k,
        1 / (1 + sqDist dim (pts.getD k 0) (pts.getD l 0))) + pts.length := by
  calc _ = ∑ k ∈ Finset.range pts.length, ∑ l ∈ Finset.range pts.length,
        1 / (1 + sqDist dim (pts.getD k 0) (pts.getD l 0)) := by
        simp only [sum_map_range, sum_map_points]
    _ = ∑ k ∈ Finset.range pts.length, ((∑ l ∈ (Finset.range pts.length).erase k,
        1 / (1 + sqDist dim (pts.getD k 0) (pts.getD l 0))) + 1) :=
        Finset.sum_congr rfl fun k hk => by rw [← Finset.sum_erase_add _ _ hk, sqDist_self]; simp
    _ = _ := by rw [Finset.sum_add_distrib]; simp

/-- The force of a point's walk has no term for the point itself. -/
theorem sum_force_eq (i : Nat) (d : Nat) :
    (pts.map fun p => (1 / (1 + sqDist dim (pts.getD i 0) p)) ^ 2 * (pts.getD i 0 d - p d)).sum =
      ∑ j ∈ (Finset.range pts.length).erase i,
        (1 / (1 + sqDist dim (pts.getD i 0) (pts.getD j 0))) ^ 2 * (pts.getD i 0 d - pts.getD j 0 d) := by
  rw [sum_map_points, Finset.sum_erase _ (by simp)]

end

section
variable (m : JsMath α) (dim N : Nat) (hsqrt : ∀ x, 0 ≤ m.sqrt x)
include hsqrt

/-- **At `θ = 0` the walk is exact.** No cell passes the test, so the walk from `x` charges every
point of the tree once with weight `1`, `x`'s own node included. -/
theorem walkFrom_exact {β : Type} (T : SPNode α β) (x : Vec α) :
    walkFrom m dim 0 (setRCell (annotateTree dim T).1) x =
      ((T.points.map fun p => 1 / (1 + sqDist dim x p)).sum,
        fun d => if d < dim then
          (T.points.map fun p => (1 / (1 + sqDist dim x p)) ^ 2 * (x d - p d)).sum else 0) := by
  let A := setRCell (annotateTree dim T).1
  obtain ⟨hpts, hA⟩ : A.points = T.points ∧ ∀ n ∈ A.nodes, AnnOK dim Augm.numCells Augm.yCell n :=
    annotated_nodes dim T fun box _ => (box.center 0 + box.halfDim) - (box.center 0 - box.halfDim)
  have hleaf := leaves_accepted_of_nonpos m (sqDist dim) hsqrt le_rfl x A
    (rCell_nonneg (annotateTree dim T).1)
  rw [walkFrom, walk_of_leaves_accepted m dim 0 x A hA hleaf, foldl_pointCharge, hpts]
  simp

/-- `costGrad` at `θ = 0`, with every point's walk summed over all the points. -/
theorem costGradAt_exact (iter : Nat) (P : List α) (nearest : List (List (Neighbor α)))
    (Y : List α) {p0 : Vec α} {ps : List (Vec α)} (hpts : pointsOf dim N Y = p0 :: ps)
    (hrows : ∀ i < N, RowOK nearest (p0 :: ps) i) :
    let y := fun i => (p0 :: ps).getD i 0
    let q := fun a b : Vec α => 1 / (1 + sqDist dim a b)
    costGradAt m dim N 0 iter P nearest Y = .ok ((List.range N).map fun i d =>
      4 * (if iter < 100 then 4 else 1) * attraction dim N i P (p0 :: ps) (y i) (nearest.getD i []) d
        - 4 / ((List.range N).map fun i => ((p0 :: ps).map (q (y i))).sum).sum *
          if d < dim then ((p0 :: ps).map fun p => q (y i) p ^ 2 * (y i d - p d)).sum else 0) := by
  intro y q
  have hsum : ∀ f : Vec α → α, ((SPTree dim p0 ps).points.map f).sum = ((p0 :: ps).map f).sum :=
    fun f => ((points_SPTree dim p0 ps).1.map f).sum_eq
  rw [costGradAt_spec m dim N 0 iter P nearest Y hpts hrows]
  simp only [walkFrom_exact m dim hsqrt, hsum]

/-- **`costGrad` at `θ = 0`.** For every embedding and every table with a row for each of the
`N ≥ 1` points and indices in `[0, N)`, `costGrad` returns `N` rows, and row `i` is `4α` times the
attraction of `i`'s listed neighbours minus `4 / (Z + N)` times the exact repulsion, where
`Z = Σ_{k≠l} q_kl`: the walk from each point also charges the point itself, with `q = 1`. -/
theorem costGrad_exact_mode (iter : Nat) (P : List α) (nearest : List (List (Neighbor α)))
    (Y : List α) (hN : 1 ≤ N)
    (hrows : ∀ i < N, i < nearest.length ∧ ∀ nb ∈ nearest.getD i [], 0 ≤ nb.index ∧ nb.index < N) :
    let y := fun j => (pointsOf dim N Y).getD j 0
    let q := fun k l => 1 / (1 + sqDist dim (y k) (y l))
    let Z := ∑ k ∈ Finset.range N, ∑ l ∈ (Finset.range N).erase k, q k l
    ∃ grad, costGradAt m dim N 0 iter P nearest Y = .ok grad ∧ grad.length = N ∧
      ∀ i < N, ∀ d < dim, grad.getD i 0 d =
        4 * (if iter < 100 then 4 else 1) * ((nearest.getD i []).map fun nb =>
            readAt P (i * N + nb.index) * q i nb.index.toNat * (y i d - y nb.index.toNat d)).sum
          - 4 / (Z + N) * ∑ j ∈ (Finset.range N).erase i, q i j ^ 2 * (y i d - y j d) := by
  obtain ⟨p0, ps, hpts⟩ : ∃ p0 ps, pointsOf dim N Y = p0 :: ps := by
    match pointsOf dim N Y, length_pointsOf dim N Y with
    | p0 :: ps, _ => exact ⟨p0, ps, rfl⟩
    | [], hl => exact absurd hl (by simp; omega)
  have hlen : (p0 :: ps).length = N := hpts ▸ length_pointsOf dim N Y
  have hrows' : ∀ i < N, RowOK nearest (p0 :: ps) i := fun i hi =>
    ⟨(hrows i hi).1, fun nb h => by rw [NamesPoint, hlen]; exact (hrows i hi).2 nb h⟩
  have hZ := sum_walks_eq dim (p0 :: ps)
  rw [hlen] at hZ
  simp only [hpts]
  refine ⟨_, costGradAt_exact m dim N hsqrt iter P nearest Y hpts hrows', by simp,
    fun i hi d hd => ?_⟩
  have hF := sum_force_eq dim (p0 :: ps) i d
  rw [hlen] at hF
  rw [List.getD_eq_getElem?_getD, List.getElem?_map, List.getElem?_range hi]
  simp only [Option.map_some', Option.getD_some, if_pos hd, hZ, hF, attraction, pointAt,
    div_eq_mul_one_div (readAt P _)]

end

variable (dim N : Nat)

/-- The exact t-SNE gradient as the specification states it, for the points `y`, the joint
probabilities `P` and the exaggeration `alpha`: row `i` is
`4α Σ_{j≠i} P[i,j] qᵢⱼ (yᵢ - yⱼ) - (4/Z) Σ_{j≠i} qᵢⱼ² (yᵢ - yⱼ)`, with `Z = Σ_{k≠l} q_kl`. -/
def exactGrad (alpha : α) (P : List α) (y : Nat → Vec α) (i : Nat) : Vec α :=
  let q := fun k l => 1 / (1 + sqDist dim (y k) (y l))
  let Z := ∑ k ∈ Finset.range N, ∑ l ∈ (Finset.range N).erase k, q k l
  fun d => 4 * alpha * ∑ j ∈ (Finset.range N).erase i, P.getD (i * N + j) 0 * q i j * (y i d - y j d)
    - 4 / Z * ∑ j ∈ (Finset.range N).erase i, q i j ^ 2 * (y i d - y j d)

/-- With the real `Math` functions, on two points one unit apart, `costGrad` at `θ = 0` and the
exact gradient differ: the code divides the repulsion by `Z + N = 3`, the exact gradient by
`Z = 1`; the attractions agree. -/
theorem costGrad_exact_mode_self_terms :
    ∃ P, nearest2P (⟨Real.exp, Real.log, Real.sqrt⟩ : JsMath ℝ) [[⟨1, 1⟩], [⟨0, 1⟩]] 30
        (1 / 10 ^ 4) = .ok P ∧
      ∃ grad, costGradAt (⟨Real.exp, Real.log, Real.sqrt⟩ : JsMath ℝ) 2 2 0 0 P
          [[⟨1, 1⟩], [⟨0, 1⟩]] [0, 0, 1, 0] = .ok grad ∧
        grad.getD 0 0 0 ≠
          exactGrad 2 2 4 P (fun j => (pointsOf 2 2 ([0, 0, 1, 0] : List ℝ)).getD j 0) 0 0 := by
  obtain ⟨P, hP, -⟩ := nearest2P_spec (K := 1) (⟨Real.exp, Real.log, Real.sqrt⟩ : JsMath ℝ) 30
    (1 / 10 ^ 4) (show ([[⟨1, 1⟩], [⟨0, 1⟩]] : List (List (Neighbor ℝ))) ≠ [] by simp) (by simp)
  -- the two points are `(0, 0)` and `(1, 0)`
  have hpts : pointsOf 2 2 ([0, 0, 1, 0] : List ℝ) =
      [fun _ => 0, fun d => if d = 0 then 1 else 0] := by
    simp only [pointsOf, List.range_succ, List.range_zero, List.nil_append, List.singleton_append,
      List.map_cons, List.map_nil, List.cons.injEq, and_true]
    refine ⟨funext fun d => ?_, funext fun d => ?_⟩ <;> rcases Nat.lt_or_ge d 2 with h | h
    all_goals first
      | interval_cases d <;> rfl
      | simp [show ¬d < 2 by omega, show d ≠ 0 by omega]
  refine ⟨P, hP, _, costGradAt_exact _ 2 2 Real.sqrt_nonneg 0 P _ _ hpts (by decide), ?_⟩
  have he0 : (Finset.range 2).erase 0 = {1} := by decide
  have he1 : (Finset.range 2).erase 1 = {0} := by decide
  have hd : sqDist 2 (fun _ => (0 : ℝ)) (fun d => if d = 0 then 1 else 0) = 1 := by
    simp [sqDist, Finset.sum_range_succ]
  have hd' : sqDist 2 (fun d => if d = 0 then (1 : ℝ) else 0) (fun _ => 0) = 1 := by
    simp [sqDist, Finset.sum_range_succ]
  simp only [hpts, List.range_succ, List.range_zero, List.nil_append, List.singleton_append,
    List.map_cons, List.map_nil, List.getD_cons_zero, List.getD_cons_succ, List.sum_cons,
    List.sum_nil, sqDist_self, hd, hd', attraction, exactGrad, pointAt, readAt, he0, he1,
    Finset.sum_singleton, Finset.sum_range_succ, Finset.sum_range_zero]
  -- the code's gradient is `-8·P[1] + 1/3`, the exact one `-8·P[1] + 1`
  norm_num [hd]
  intro h
  linarith

theorem costGrad_exact_mode_pair :
    let y := fun j => (pointsOf 2 2 ([0, 0, 1, 0] : List ℚ)).getD j 0
    let q := fun k l => 1 / (1 + sqDist 2 (y k) (y l))
    let Z := ∑ k ∈ Finset.range 2, ∑ l ∈ (Finset.range 2).erase k, q k l
    ∃ grad, costGradAt (⟨id, id, abs⟩ : JsMath ℚ) 2 2 0 0 [0, 1 / 2, 1 / 2, 0] [[⟨1, 1⟩], [⟨0, 1⟩]]
        [0, 0, 1, 0] = .ok grad ∧ grad.length = 2 ∧
      ∀ i < 2, ∀ d < 2, grad.getD i 0 d =
        4 * (if 0 < 100 then 4 else 1) *
          ((([[⟨1, 1⟩], [⟨0, 1⟩]] : List (List (Neighbor ℚ))).getD i []).map fun nb =>
            readAt [0, 1 / 2, 1 / 2, 0] (i * 2 + nb.index) * q i nb.index.toNat *
              (y i d - y nb.index.toNat d)).sum
          - 4 / (Z + 2) * ∑ j ∈ (Finset.range 2).erase i, q i j ^ 2 * (y i d - y j d) :=
  costGrad_exact_mode _ 2 2 (fun x => abs_nonneg x) 0 _ _ _ (by decide) (by decide)

end BarnesHutTsne
