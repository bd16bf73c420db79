import BarnesHutTsne.Update

/-!
# What every run of the engine keeps

A run constructs an engine, gives it a kNN table through `initDataDist` (which returns), and
then makes any calls of `step` and `initSolution`, each returning or throwing, while other
engines of the process may change the module variables in between (`Reachable`).

For a table whose indices lie in `[0, N)`, every state of such a run satisfies `Inv`: the arrays
have the shape `initSolution` gives them, every gain lies in `[0.01, 1 + 0.2·iter]`, and once a
step has run every column of `Y` sums to zero. The invariant is set up by `initSolution` and kept
by `step`, which on such a state always returns (`step_inv`).

What a throw leaves is in `throw_leaves`: `initDataDist` stores the table before `nearest2P` can
throw, and `step` counts the iteration before the gradient can throw.
-/

namespace BarnesHutTsne

variable {α : Type} [LinearOrderedField α]

/-! ## The arrays `initSolution` makes, and the gain update -/

omit [LinearOrderedField α] in
/-- For `dim ∈ {2, 3}`, `arrayofs` is `n` rows of `dim` copies of `val`. -/
theorem arrayofs_eq {n dim : Nat} (hdim : dim = 2 ∨ dim = 3) (v : α) :
    arrayofs n dim v = List.replicate n (List.replicate dim v) := by
  rcases hdim with rfl | rfl <;> rfl

omit [LinearOrderedField α] in
theorem grid_arrayofs {n dim : Nat} (hdim : dim = 2 ∨ dim = 3) (v : α) :
    Grid n dim (arrayofs n dim v) := by
  rw [arrayofs_eq hdim]
  exact ⟨List.length_replicate _ _, fun i hi => by
    simp [List.getD_eq_getElem?_getD, List.getElem?_replicate, hi]⟩

theorem gridGet_arrayofs {n dim : Nat} (hdim : dim = 2 ∨ dim = 3) (v : α) {i d : Nat}
    (hi : i < n) (hd : d < dim) : gridGet (arrayofs n dim v) i d = v := by
  simp [arrayofs_eq hdim, gridGet, List.getD_eq_getElem?_getD, List.getElem?_replicate, hi, hd]

/-- A new gain is at least `0.01`, and at most `0.2` above a gain of at least `0.01`. -/
theorem newGain_bounds (gid sid g : α) (hg : 1 / 100 ≤ g) :
    1 / 100 ≤ newGain gid sid g ∧ newGain gid sid g ≤ g + 1 / 5 := by
  have h15 : g ≤ g + 1 / 5 := le_add_of_nonneg_right (by norm_num)
  have hng : (if sign gid = sign sid then g * (4 / 5) else g + 1 / 5) ≤ g + 1 / 5 := by
    split_ifs
    · exact (mul_le_of_le_one_right (le_trans (by norm_num) hg) (by norm_num)).trans h15
    · exact le_rfl
  unfold newGain
  dsimp only
  generalize (if sign gid = sign sid then g * (4 / 5) else g + 1 / 5) = ng at hng ⊢
  split_ifs with h
  · exact ⟨le_rfl, hg.trans h15⟩
  · exact ⟨not_lt.1 h, hng⟩

/-! ## The invariant -/

/-- What a run keeps from `initDataDist` on: the table and its size, a `P`, arrays of the shape
`initSolution` gives them, gains in `[0.01, 1 + 0.2·iter]`, and, once a step has run, every
column of `Y` summing to zero. -/
structure Inv (nearest : List (List (Neighbor α))) (s : TSNE α) : Prop where
  pos : 0 < nearest.length
  N : s.N = some nearest.length
  table : s.nearest = some nearest
  P : ∃ P, s.P = some P
  Y : ∃ Y, s.Y = some Y ∧ Y.length = nearest.length * s.dim ∧
    (1 ≤ s.iter → ∀ d < s.dim, ∑ i ∈ Finset.range nearest.length, Y.getD (i * s.dim + d) 0 = 0)
  gains : ∃ g, s.gains = some g ∧ Grid nearest.length s.dim g ∧
    ∀ i < nearest.length, ∀ d < s.dim, 1 / 100 ≤ gridGet g i d ∧
      gridGet g i d ≤ 1 + (s.iter : α) / 5
  ystep : ∃ ys, s.ystep = some ys ∧ Grid nearest.length s.dim ys

variable {nearest : List (List (Neighbor α))}

theorem Inv.frame {s s' : TSNE α} (hi : Inv nearest s) (hf : s.Frame s') : Inv nearest s' := by
  rw [hf]; exact ⟨hi.pos, hi.N, hi.table, hi.P, hi.Y, hi.gains, hi.ystep⟩

/-- `initSolution`, once it returns on an engine holding a table, sets the invariant up. -/
theorem inv_initSolution (m : JsMath α) (fuel : Nat) {h h' : Heap α} (hpos : 0 < nearest.length)
    (hN : h.self.N = some nearest.length) (htable : h.self.nearest = some nearest)
    (hP : ∃ P, h.self.P = some P) (hr : (TSNE.initSolution m fuel).run h = .ok () h') :
    Inv nearest h'.self := by
  have hs := initSolution_spec m fuel h
  rw [hr] at hs
  obtain ⟨Y, hlen, hself⟩ := hs
  rw [hN, Option.getD_some] at hlen hself
  rw [hself]
  exact ⟨hpos, hN, htable, hP, ⟨Y, rfl, hlen, fun h0 => absurd h0 (by simp)⟩,
    ⟨_, rfl, grid_arrayofs h.self.dim_ok 1, fun i hi d hd => by
      rw [gridGet_arrayofs h.self.dim_ok 1 hi hd]; constructor <;> norm_num⟩,
    ⟨_, rfl, grid_arrayofs h.self.dim_ok 0⟩⟩

/-- On an engine holding its data, the gradient `step` asks for is `costGrad` at the step's
iteration. -/
theorem costGradOf_eq (m : JsMath α) {s : TSNE α} {n : Nat} {P Y : List α}
    {t : List (List (Neighbor α))} (hN : s.N = some n) (hP : s.P = some P)
    (ht : s.nearest = some t) (hY : s.Y = some Y) (k : Nat) :
    costGradOf m { s with iter := k } = costGradAt m s.dim n THETA k P t Y := by
  simp only [costGradOf, hN, hP, ht, hY]; rfl

/-- On an engine keeping the invariant, with indices in `[0, N)`, the gradient succeeds. -/
theorem costGradOf_ok (m : JsMath α) {s : TSNE α} (hi : Inv nearest s)
    (hidx : ∀ row ∈ nearest, ∀ nb ∈ row, 0 ≤ nb.index ∧ nb.index < nearest.length) (k : Nat) :
    ∃ grad, costGradOf m { s with iter := k } = .ok grad := by
  obtain ⟨P, hP⟩ := hi.P
  obtain ⟨Y, hY, -, -⟩ := hi.Y
  obtain ⟨p0, ps, hpts⟩ := List.exists_cons_of_ne_nil
    (List.ne_nil_of_length_pos (by rw [length_pointsOf]; exact hi.pos) :
      pointsOf s.dim nearest.length Y ≠ [])
  have hlen : (p0 :: ps).length = nearest.length := by rw [← hpts, length_pointsOf]
  rw [costGradOf_eq m hi.N hP hi.table hY]
  exact ⟨_, costGradAt_spec m s.dim nearest.length THETA k P nearest Y hpts fun i hi' =>
    ⟨hi', fun nb hnb => by
      rw [NamesPoint, hlen]
      exact hidx _ (getD_mem [] hi') nb hnb⟩⟩

/-- A gradient is only ever computed from a `Y`. -/
theorem costGradOf_Y (m : JsMath α) {s : TSNE α} {grad : List (Vec α)}
    (hg : costGradOf m s = .ok grad) : ∃ Y, s.Y = some Y := by
  unfold costGradOf at hg
  split at hg
  · exact ⟨_, by assumption⟩
  · cases hg

/-- **`step` keeps the invariant**, and on such a state it always returns. -/
theorem step_inv (m : JsMath α)
    (hidx : ∀ row ∈ nearest, ∀ nb ∈ row, 0 ≤ nb.index ∧ nb.index < nearest.length)
    {h : Heap α} (hi : Inv nearest h.self) :
    ∃ h', (TSNE.step m).run h = .ok () h' ∧ Inv nearest h'.self := by
  obtain ⟨grad, hgrad⟩ := costGradOf_ok m hi hidx (h.self.iter + 1)
  obtain ⟨Y, hY, hYlen, -⟩ := hi.Y
  obtain ⟨g, hg, hgrid, hbounds⟩ := hi.gains
  obtain ⟨ys, hys, hysgrid⟩ := hi.ystep
  have hN : h.self.N.getD 0 = nearest.length := by rw [hi.N]; rfl
  refine ⟨_, step_run_ok m h hgrad hY hg hys (by rw [hN, hgrid.1, hysgrid.1]; omega), ?_⟩
  rw [hN]
  obtain ⟨hxY, hxg, hxs, hx, hym⟩ := @update_spec α _ (h.self.iter + 1) h.self.epsilon h.self.dim
    nearest.length grad ⟨Y, g, ys, 0⟩ hYlen hgrid hysgrid fun _ _ => rfl
  refine ⟨hi.pos, hi.N, hi.table, hi.P, ⟨_, rfl, (recentre_spec hxY).1.trans hxY,
    fun _ d hd => sum_recentre hi.pos hxY hd (hym d hd)⟩, ⟨_, rfl, hxg, fun i hi' d hd => ?_⟩,
    ⟨_, rfl, hxs⟩⟩
  rw [(hx i hi' d hd).1]
  obtain ⟨hlo, hhi⟩ := hbounds i hi' d hd
  obtain ⟨h1, h2⟩ := newGain_bounds ((grad.getD i 0) d) (gridGet ys i d) (gridGet g i d) hlo
  exact ⟨h1, h2.trans ((add_le_add_right hhi _).trans_eq (by push_cast; ring))⟩

/-! ## Runs -/

/-- `initDataDist`, once it returns, sets the invariant up. -/
theorem inv_initDataDist (m : JsMath α) (fuel : Nat) {h h' : Heap α}
    (hr : (TSNE.initDataDist m fuel nearest).run h = .ok () h') : Inv nearest h'.self := by
  cases hP : nearest2P m nearest h.self.perplexity (1 / 10 ^ 4) with
  | error e => rw [initDataDist_run_error m fuel nearest h hP] at hr; cases hr
  | ok P =>
    rw [initDataDist_run_ok m fuel nearest h hP] at hr
    have hpos : 0 < nearest.length := by
      cases nearest with
      | nil => cases hP
      | cons _ _ => exact Nat.succ_pos _
    exact inv_initSolution m fuel hpos rfl rfl ⟨P, rfl⟩ hr

/-- A call a program can make on an engine holding its data: `step()`, or `initSolution()` on a
call stack that allows `fuel` nested calls. -/
inductive Call
  | step
  | initSolution (fuel : Nat)

/-- The heap a call leaves, whether it returns or throws. -/
def Call.run (m : JsMath α) : Call → Heap α → Heap α
  | .step, h => after ((TSNE.step m).run h)
  | .initSolution fuel, h => after ((TSNE.initSolution m fuel).run h)

/-- The heaps of a run of the engine `new TSNE(opt)` on the table `nearest`: `initDataDist`
returns (a table it rejects ends the run), and then come any calls of `step` and `initSolution`,
each returning or throwing, while the other engines of the process may change `return_v` and
`v_val`. -/
inductive Reachable (m : JsMath α) (mathRandom : Nat → α) (opt : Option (TSNEOptions α))
    (nearest : List (List (Neighbor α))) : Heap α → Prop
  | init {s : TSNE α} {h : Heap α} (return_v : Bool) (v_val : α) (fuel : Nat) :
      TSNE.new mathRandom opt = .ok s →
      (TSNE.initDataDist m fuel nearest).run ⟨s, return_v, v_val⟩ = .ok () h →
      Reachable m mathRandom opt nearest h
  | call {h : Heap α} (c : Call) :
      Reachable m mathRandom opt nearest h → Reachable m mathRandom opt nearest (c.run m h)
  | other {h : Heap α} (return_v : Bool) (v_val : α) :
      Reachable m mathRandom opt nearest h →
      Reachable m mathRandom opt nearest ⟨h.self, return_v, v_val⟩

section
variable (m : JsMath α) {mathRandom : Nat → α} {opt : Option (TSNEOptions α)}
variable (hidx : ∀ row ∈ nearest, ∀ nb ∈ row, 0 ≤ nb.index ∧ nb.index < nearest.length)
include hidx

/-- Every state of a run on a table whose indices lie in `[0, N)` keeps the invariant. -/
theorem inv_reachable {h : Heap α} (hr : Reachable m mathRandom opt nearest h) :
    Inv nearest h.self := by
  induction hr with
  | init _ _ fuel _ hrun => exact inv_initDataDist m fuel hrun
  | @call h c _ ih =>
    cases c with
    | step =>
      obtain ⟨h', hrun, hi'⟩ := step_inv m hidx ih
      show Inv nearest (after ((TSNE.step m).run h)).self
      rw [hrun]; exact hi'
    | initSolution fuel =>
      show Inv nearest (after ((TSNE.initSolution m fuel).run h)).self
      have hs := initSolution_spec m fuel h
      cases hrun : (TSNE.initSolution m fuel).run h with
      | error e h' => rw [hrun] at hs; exact ih.frame hs
      | ok _ h' => exact inv_initSolution m fuel ih.pos ih.N ih.table ih.P hrun
  | other _ _ _ ih => exact ih

/-- **Every reachable state keeps the arrays in shape**: `N` is the table's length, `Y` has
`N·dim` entries, `gains` and `ystep` are `N × dim`, every gain lies in `[0.01, 1 + 0.2·iter]`,
and once a step has run every column of `Y` sums to zero. -/
theorem reachable_invariants {h : Heap α} (hr : Reachable m mathRandom opt nearest h) :
    h.self.N = some nearest.length ∧
    ∃ Y gains ystep, h.self.Y = some Y ∧ h.self.gains = some gains ∧ h.self.ystep = some ystep ∧
      Y.length = nearest.length * h.self.dim ∧ Grid nearest.length h.self.dim gains ∧
      Grid nearest.length h.self.dim ystep ∧
      (∀ i < nearest.length, ∀ d < h.self.dim,
        1 / 100 ≤ gridGet gains i d ∧ gridGet gains i d ≤ 1 + (h.self.iter : α) / 5) ∧
      (1 ≤ h.self.iter → ∀ d < h.self.dim,
        ∑ i ∈ Finset.range nearest.length, Y.getD (i * h.self.dim + d) 0 = 0) := by
  have hi := inv_reachable m hidx hr
  obtain ⟨Y, hY, hlen, hsum⟩ := hi.Y
  obtain ⟨g, hg, hgrid, hb⟩ := hi.gains
  obtain ⟨ys, hys, hysgrid⟩ := hi.ystep
  exact ⟨hi.N, Y, g, ys, hY, hg, hys, hlen, hgrid, hysgrid, hb, hsum⟩

/-- **On a table whose indices lie in `[0, N)`, `step` returns from every reachable state.** -/
theorem reachable_step_returns {h : Heap α} (hr : Reachable m mathRandom opt nearest h) :
    ∃ h', (TSNE.step m).run h = .ok () h' :=
  (step_inv m hidx (inv_reachable m hidx hr)).imp fun _ h => h.1

end

/-! ## What a step computes, in every reachable state -/

section
variable (m : JsMath α) {mathRandom : Nat → α} {opt : Option (TSNEOptions α)}

/-- **`step` in closed form, in every reachable state.** In every state of a run whose table's
indices name points, `step` returns: it computes the gradient `grad` at the next iteration, gives
every entry the gain `gainAt` and the momentum step `stepAt` computed from the old arrays, moves
`Y` by the step and re-centres every coordinate on the mean of the moved points. It changes
nothing else: not the data, not the generator, not the module's cached draw. -/
theorem reachable_step_spec
    (hidx : ∀ row ∈ nearest, ∀ nb ∈ row, 0 ≤ nb.index ∧ nb.index < nearest.length)
    {h : Heap α} (hr : Reachable m mathRandom opt nearest h) :
    ∃ grad Y gains ystep Y' gains' ystep',
      costGradOf m { h.self with iter := h.self.iter + 1 } = .ok grad ∧
      h.self.Y = some Y ∧ h.self.gains = some gains ∧ h.self.ystep = some ystep ∧
      (TSNE.step m).run h = .ok () { h with self := { h.self with
        iter := h.self.iter + 1, Y := some Y', gains := some gains', ystep := some ystep' } } ∧
      ∀ i < nearest.length, ∀ d < h.self.dim,
        let s := stepAt (h.self.iter + 1) h.self.epsilon grad ⟨Y, gains, ystep, 0⟩
        gridGet gains' i d = gainAt grad ⟨Y, gains, ystep, 0⟩ i d ∧ gridGet ystep' i d = s i d ∧
        Y'.getD (i * h.self.dim + d) 0 = Y.getD (i * h.self.dim + d) 0 + s i d -
          (∑ j ∈ Finset.range nearest.length, (Y.getD (j * h.self.dim + d) 0 + s j d)) /
            nearest.length := by
  have hi := inv_reachable m hidx hr
  obtain ⟨grad, hgrad⟩ := costGradOf_ok m hi hidx (h.self.iter + 1)
  obtain ⟨Y, hY, hYlen, -⟩ := hi.Y
  obtain ⟨g, hg, hgrid, -⟩ := hi.gains
  obtain ⟨ys, hys, hysgrid⟩ := hi.ystep
  have hN : h.self.N.getD 0 = nearest.length := by rw [hi.N]; rfl
  have hrun := step_run_ok m h hgrad hY hg hys (by rw [hN, hgrid.1, hysgrid.1]; omega)
  rw [hN] at hrun
  obtain ⟨hxY, -, -, hx, hym⟩ := @update_spec α _ (h.self.iter + 1) h.self.epsilon h.self.dim
    nearest.length grad ⟨Y, g, ys, 0⟩ hYlen hgrid hysgrid fun _ _ => rfl
  refine ⟨grad, Y, g, ys, _, _, _, hgrad, hY, hg, hys, hrun,
    fun i hi' d hd => ⟨(hx i hi' d hd).1, (hx i hi' d hd).2.1, ?_⟩⟩
  rw [(recentre_spec hxY).2 i hi' d hd, (hx i hi' d hd).2.2, hym d hd,
    Finset.sum_congr rfl fun j hj => (hx j (Finset.mem_range.1 hj) d hd).2.2]

end

/-! ## Runs that start

A run needs `initDataDist` to return, and so `initSolution`'s Gaussian draws to be accepted
before the stack runs out. -/

/-- The pair of draws `k, k + 1` of `rng` lands in the unit disc, where `gaussRandom` accepts
it. -/
def InDisc (rng : Nat → α) (k : Nat) : Prop :=
  let u := 2 * rng k - 1
  let v := 2 * rng (k + 1) - 1
  ¬(u * u + v * v = 0 ∨ u * u + v * v > 1)

section
variable (m : JsMath α) (fuel : Nat)

theorem gaussRandom_ok (h : Heap α) (hdisc : ∀ k, InDisc h.self.rng k) :
    ∃ g h', (gaussRandom m (fuel + 1)).run h = .ok g h' ∧ h'.self.rng = h.self.rng := by
  rw [gaussRandom_succ_run]
  split
  · exact ⟨_, _, rfl, rfl⟩
  · dsimp only
    split
    · exact absurd ‹_› (hdisc h.self.draws)
    · exact ⟨_, _, rfl, rfl⟩

theorem fillRandn_ok : ∀ (is : List Nat) (x : List α) (h : Heap α), (∀ k, InDisc h.self.rng k) →
    ∃ Y h', (fillRandn m (fuel + 1) is x).run h = .ok Y h' ∧ h'.self.rng = h.self.rng
  | [], x, h, _ => ⟨x, h, rfl, rfl⟩
  | i :: is, x, h, hdisc => by
    obtain ⟨g, h1, hg, hrng⟩ := gaussRandom_ok m fuel h hdisc
    obtain ⟨Y, h', hY, hrng'⟩ :=
      fillRandn_ok is (x.set i (0 + g * (1 / 10 ^ 4))) h1 (hrng ▸ hdisc)
    refine ⟨Y, h', ?_, hrng'.trans hrng⟩
    rw [fillRandn, run_bind_ok (show (randn m (fuel + 1) 0 (1 / 10 ^ 4)).run h =
      .ok (0 + g * (1 / 10 ^ 4)) h1 by rw [randn_run, hg])]
    exact hY

theorem initSolution_ok (h : Heap α) (hdisc : ∀ k, InDisc h.self.rng k) :
    ∃ h', (TSNE.initSolution m (fuel + 1)).run h = .ok () h' := by
  obtain ⟨Y, h', hY, -⟩ := fillRandn_ok m fuel _ (zeros (h.self.N.getD 0 * h.self.dim)) h hdisc
  rw [initSolution_run, run_bind_ok (show (randnMatrix m (fuel + 1) _ _).run h = _ from hY)]
  exact ⟨_, rfl⟩

/-- With a generator whose draws land in the disc, `initDataDist` returns on every nonempty
table of rows of one length. -/
theorem initDataDist_ok {K : Nat} (h : Heap α) (hne : nearest ≠ [])
    (hrows : ∀ row ∈ nearest, row.length = K) (hdisc : ∀ k, InDisc h.self.rng k) :
    ∃ h', (TSNE.initDataDist m (fuel + 1) nearest).run h = .ok () h' := by
  obtain ⟨P, hP⟩ := nearest2P_ok m h.self.perplexity (1 / 10 ^ 4) hne hrows
  rw [initDataDist_run_ok m _ nearest h hP]
  exact initSolution_ok m fuel _ hdisc

/-- An engine with such a generator, given such a table, starts a run. -/
theorem exists_reachable (nearest : List (List (Neighbor α))) (mathRandom : Nat → α)
    (opt : Option (TSNEOptions α)) {s : TSNE α}
    (hs : TSNE.new mathRandom opt = .ok s) {K : Nat} (hne : nearest ≠ [])
    (hrows : ∀ row ∈ nearest, row.length = K) (hdisc : ∀ k, InDisc s.rng k) :
    ∃ h, (TSNE.initDataDist m 1 nearest).run ⟨s, false, 0⟩ = .ok () h ∧
      Reachable m mathRandom opt nearest h :=
  (initDataDist_ok m 0 ⟨s, false, 0⟩ hne hrows hdisc).imp fun _ hrun =>
    ⟨hrun, .init false 0 1 hs hrun⟩

end

/-- A run on the two-point table `[[{index: 1, dist: 1}], [{index: 0, dist: 1}]]`, with a generator
that always returns `3/4`, reaches a state after a `step`. -/
theorem reachable_pair_stepped :
    ∃ h : Heap ℚ, Reachable (⟨id, id, id⟩ : JsMath ℚ) (fun _ => 0)
      (some ⟨2, none, none, some fun _ => 3 / 4⟩) [[⟨1, 1⟩], [⟨0, 1⟩]] h ∧ 1 ≤ h.self.iter := by
  obtain ⟨h, -, hr⟩ := exists_reachable (⟨id, id, id⟩ : JsMath ℚ) [[⟨1, 1⟩], [⟨0, 1⟩]]
    (fun _ => 0) (some ⟨2, none, none, some fun _ => 3 / 4⟩) rfl
    (K := 1) (by simp) (by simp) fun _ => by norm_num [InDisc]
  exact ⟨_, .call .step hr, (step_iter _ h).symm ▸ Nat.le_add_left 1 _⟩

/-- On the two-point table `[[{index: 1, dist: 1}], [{index: 0, dist: 1}]]`, with a generator that
always returns `3/4`, the state after `initDataDist` and one `step` keeps the arrays in shape, and
its columns of `Y` sum to zero. -/
theorem reachable_invariants_stepped :
    ∃ h : Heap ℚ, Reachable (⟨id, id, id⟩ : JsMath ℚ) (fun _ => 0)
        (some ⟨2, none, none, some fun _ => 3 / 4⟩) [[⟨1, 1⟩], [⟨0, 1⟩]] h ∧ 1 ≤ h.self.iter ∧
      h.self.N = some 2 ∧
      ∃ Y gains ystep, h.self.Y = some Y ∧ h.self.gains = some gains ∧
        h.self.ystep = some ystep ∧ Y.length = 2 * h.self.dim ∧ Grid 2 h.self.dim gains ∧
        Grid 2 h.self.dim ystep ∧
        (∀ i < 2, ∀ d < h.self.dim,
          1 / 100 ≤ gridGet gains i d ∧ gridGet gains i d ≤ 1 + (h.self.iter : ℚ) / 5) ∧
        (1 ≤ h.self.iter → ∀ d < h.self.dim,
          ∑ i ∈ Finset.range 2, Y.getD (i * h.self.dim + d) 0 = 0) := by
  obtain ⟨h, hr, hiter⟩ := reachable_pair_stepped
  exact ⟨h, hr, hiter, reachable_invariants _ (by simp) hr⟩

/-- With the same table and generator, `step` returns again after the first `step`. -/
theorem reachable_step_returns_stepped :
    ∃ h : Heap ℚ, Reachable (⟨id, id, id⟩ : JsMath ℚ) (fun _ => 0)
        (some ⟨2, none, none, some fun _ => 3 / 4⟩) [[⟨1, 1⟩], [⟨0, 1⟩]] h ∧ 1 ≤ h.self.iter ∧
      ∃ h', (TSNE.step (⟨id, id, id⟩ : JsMath ℚ)).run h = .ok () h' := by
  obtain ⟨h, hr, hiter⟩ := reachable_pair_stepped
  exact ⟨h, hr, hiter, reachable_step_returns _ (by simp) hr⟩

/-- On the two-point table `[[{index: 1, dist: 1}], [{index: 0, dist: 1}]]` with the same generator,
`step` returns at the first state of the run and leaves the generator and the cached draw alone. -/
theorem reachable_step_spec_pair :
    ∃ h : Heap ℚ, Reachable (⟨id, id, id⟩ : JsMath ℚ) (fun _ => 0)
        (some ⟨2, none, none, some fun _ => 3 / 4⟩) [[⟨1, 1⟩], [⟨0, 1⟩]] h ∧
      ∃ h', (TSNE.step (⟨id, id, id⟩ : JsMath ℚ)).run h = .ok () h' ∧
        h'.self.draws = h.self.draws ∧ h'.return_v = h.return_v ∧ h'.v_val = h.v_val := by
  obtain ⟨h, -, hr⟩ := exists_reachable (⟨id, id, id⟩ : JsMath ℚ) [[⟨1, 1⟩], [⟨0, 1⟩]]
    (fun _ => 0) (some ⟨2, none, none, some fun _ => 3 / 4⟩) rfl
    (K := 1) (by simp) (by simp) fun _ => by norm_num [InDisc]
  obtain ⟨_, _, _, _, _, _, _, -, -, -, -, hrun, -⟩ := reachable_step_spec _ (by simp) hr
  exact ⟨h, hr, _, hrun, rfl, rfl, rfl⟩

/-- The table `[[{index: 1, dist: 0}]]` names a point that does not exist. `initDataDist` takes it
(`nearest2P` drops the write past `P`) and sets the invariant up, and the first `step` throws
`TypeError` when it reads `points[1]`. -/
theorem bad_index_run (m : JsMath α) :
    ∃ h : Heap α, (TSNE.initDataDist m 1 [[⟨1, 0⟩]]).run
        ⟨{ perplexity := 30, epsilon := 10, rng := fun _ => 3 / 4, draws := 0, iter := 0,
           Y := none, N := none, P := none, gains := none, ystep := none, nearest := none,
           dim := 2, dim_ok := Or.inl rfl }, false, 0⟩ = .ok () h ∧
      Reachable m (fun _ => 0) (some ⟨2, none, none, some fun _ => 3 / 4⟩) [[⟨1, 0⟩]] h ∧
      Inv [[⟨1, 0⟩]] h.self ∧ ∃ h', (TSNE.step m).run h = .error .typeError h' := by
  obtain ⟨h, hrun, hr⟩ := exists_reachable m [[⟨1, 0⟩]] (fun _ => 0)
    (some ⟨2, none, none, some fun _ => 3 / 4⟩) rfl (K := 1) (by simp)
    (by simp) fun _ => by norm_num [InDisc]
  have hi := inv_initDataDist m 1 hrun
  obtain ⟨P, hP⟩ := hi.P
  obtain ⟨Y, hY, -⟩ := hi.Y
  refine ⟨h, hrun, hr, hi, _, step_run_error m h ?_⟩
  rw [costGradOf_eq m hi.N hP hi.table hY]
  exact costGradAt_bad_row m _ _ THETA _ P _ Y (i := 0) (by simp) (by simp [RowOK, NamesPoint])

/-- **A table that `initDataDist` takes can still make `step` throw**: with an index outside
`[0, N)`, a run starts and its first `step` throws. -/
theorem initDataDist_accepts_bad_index :
    ∃ h : Heap ℝ, Reachable (⟨Real.exp, Real.log, Real.sqrt⟩ : JsMath ℝ) (fun _ => 0)
        (some ⟨2, none, none, some fun _ => 3 / 4⟩) [[⟨1, 0⟩]] h ∧
      ∃ h', (TSNE.step (⟨Real.exp, Real.log, Real.sqrt⟩ : JsMath ℝ)).run h = .error .typeError h' := by
  obtain ⟨h, -, hr, -, hstep⟩ := bad_index_run (⟨Real.exp, Real.log, Real.sqrt⟩ : JsMath ℝ)
  exact ⟨h, hr, hstep⟩

/-! ## What a throw leaves -/

/-- The only throw of the sampler is the `RangeError` of an exhausted stack. -/
theorem gaussRandom_error (m : JsMath α) :
    ∀ (fuel : Nat) (h : Heap α) {e : JsError} {h' : Heap α},
      (gaussRandom m fuel).run h = .error e h' → e = .rangeError
  | 0, _, _, _, hr => by cases hr; rfl
  | fuel + 1, h, _, _, hr => by
    rw [gaussRandom_succ_run] at hr
    split at hr
    · cases hr
    · dsimp only at hr
      split at hr
      · exact gaussRandom_error m fuel _ hr
      · cases hr

theorem fillRandn_error (m : JsMath α) (fuel : Nat) :
    ∀ (is : List Nat) (x : List α) (h : Heap α) {e : JsError} {h' : Heap α},
      (fillRandn m fuel is x).run h = .error e h' → e = .rangeError
  | [], _, _, _, _, hr => by cases hr
  | i :: is, x, h, _, _, hr => by
    cases hg : (gaussRandom m fuel).run h with
    | error e' h1 =>
      have hr' : (fillRandn m fuel (i :: is) x).run h = .error e' h1 :=
        run_bind_error (by rw [randn_run, hg])
      rw [hr'] at hr
      cases hr
      exact gaussRandom_error m fuel h hg
    | ok g h1 =>
      rw [fillRandn, run_bind_ok (show (randn m fuel 0 (1 / 10 ^ 4)).run h =
        .ok (0 + g * (1 / 10 ^ 4)) h1 by rw [randn_run, hg])] at hr
      exact fillRandn_error m fuel is _ h1 hr

theorem initSolution_error (m : JsMath α) (fuel : Nat) (h : Heap α) {e : JsError}
    {h' : Heap α} (hr : (TSNE.initSolution m fuel).run h = .error e h') : e = .rangeError := by
  rw [initSolution_run] at hr
  cases hm : (randnMatrix m fuel (h.self.N.getD 0) h.self.dim).run h with
  | error e' h1 =>
    rw [run_bind_error hm] at hr
    cases hr
    exact fillRandn_error m fuel _ _ h hm
  | ok Y h1 => rw [run_bind_ok hm] at hr; cases hr

/-- **What a throw leaves.** A throw of `initDataDist` leaves `Y`, `gains`, `ystep` and `iter`
as they were and the table stored; it leaves `P` and `N` as they were too, unless `nearest2P`
returned and the Gaussian sampler then ran out of stack, when both are stored. A throw of
`step` leaves `nearest`, `P` and `N` as they were and `iter` one higher; when `gains` and
`ystep` hold a row for each point, it leaves `Y`, `gains` and `ystep` as they were too. -/
theorem throw_leaves (m : JsMath α) (fuel : Nat) (nearest : List (List (Neighbor α)))
    (h : Heap α) :
    (∀ e h', (TSNE.initDataDist m fuel nearest).run h = .error e h' →
      h'.self.Y = h.self.Y ∧ h'.self.gains = h.self.gains ∧ h'.self.ystep = h.self.ystep ∧
      h'.self.iter = h.self.iter ∧ h'.self.nearest = some nearest ∧
      (h'.self.P = h.self.P ∧ h'.self.N = h.self.N ∨
        e = .rangeError ∧ h'.self.N = some nearest.length ∧
        ∃ P, nearest2P m nearest h.self.perplexity (1 / 10 ^ 4) = .ok P ∧ h'.self.P = some P)) ∧
    (∀ e h', (TSNE.step m).run h = .error e h' →
      h'.self.nearest = h.self.nearest ∧ h'.self.P = h.self.P ∧ h'.self.N = h.self.N ∧
      h'.self.iter = h.self.iter + 1 ∧
      ((∃ g ys, h.self.gains = some g ∧ h.self.ystep = some ys ∧
          h.self.N.getD 0 ≤ g.length ∧ h.self.N.getD 0 ≤ ys.length) →
        h'.self.Y = h.self.Y ∧ h'.self.gains = h.self.gains ∧ h'.self.ystep = h.self.ystep)) := by
  constructor
  · intro e h' hr
    cases hP : nearest2P m nearest h.self.perplexity (1 / 10 ^ 4) with
    | error e0 =>
      rw [initDataDist_run_error m fuel nearest h hP] at hr
      cases hr
      exact ⟨rfl, rfl, rfl, rfl, rfl, .inl ⟨rfl, rfl⟩⟩
    | ok P =>
      rw [initDataDist_run_ok m fuel nearest h hP] at hr
      have hf := initSolution_spec m fuel
        { h with self := { h.self with nearest := some nearest, P := some P, N := some nearest.length } }
      rw [hr] at hf
      have hf' : h'.self = _ := hf
      rw [hf']
      exact ⟨rfl, rfl, rfl, rfl, rfl, .inr ⟨initSolution_error m fuel _ hr, rfl, P, rfl, rfl⟩⟩
  · intro e h' hr
    cases hg : costGradOf m { h.self with iter := h.self.iter + 1 } with
    | error e0 =>
      rw [step_run_error m h hg] at hr
      cases hr
      exact ⟨rfl, rfl, rfl, rfl, fun _ => ⟨rfl, rfl, rfl⟩⟩
    | ok grad =>
      have hf := updateLoop_frame grad h.self.dim (List.range (h.self.N.getD 0))
        { h with self := { h.self with iter := h.self.iter + 1 } }
      have hstep := step_run_grad m h hg
      cases hloop : (updateLoop grad h.self.dim (List.range (h.self.N.getD 0))).run
          { h with self := { h.self with iter := h.self.iter + 1 } } with
      | ok ymean h2 => rw [hstep, hloop] at hr; cases hr
      | error e2 h2 =>
        rw [hstep, hloop] at hr
        cases hr
        rw [hloop] at hf
        have hf' : h'.self = _ := hf
        refine ⟨by rw [hf'], by rw [hf'], by rw [hf'], by rw [hf'], fun ⟨g, ys, hgs, hys, hrows⟩ => ?_⟩
        obtain ⟨Y, hY⟩ := costGradOf_Y m hg
        have hok := step_run_ok m h hg hY hgs hys hrows
        rw [hstep, hloop] at hok
        cases hok

/-- On an engine with no data, `initDataDist([])` throws having stored the table, and `step()`
throws having counted the iteration. -/
theorem throw_changes_fields :
    ∃ s : TSNE ℝ, TSNE.new (fun _ => 0) none = .ok s ∧
      (∃ e h', (TSNE.initDataDist (⟨Real.exp, Real.log, Real.sqrt⟩ : JsMath ℝ) 1 []).run
        ⟨s, false, 0⟩ = .error e h' ∧ h'.self.nearest ≠ s.nearest) ∧
      (∃ e h', (TSNE.step (⟨Real.exp, Real.log, Real.sqrt⟩ : JsMath ℝ)).run ⟨s, false, 0⟩ =
        .error e h' ∧ h'.self.iter ≠ s.iter) :=
  ⟨_, rfl, ⟨_, _, initDataDist_run_error _ 1 [] _ rfl, by simp⟩,
    ⟨_, _, step_run_error _ _ rfl, by simp⟩⟩

/-- `initDataDist([])` on an engine with no data, and `step` on the engine `bad_index_run`
leaves, both throw, and each leaves the fields `throw_leaves` says. -/
theorem throw_leaves_examples :
    (∃ (h h' : Heap ℚ) (e : JsError),
      (TSNE.initDataDist (⟨id, id, id⟩ : JsMath ℚ) 1 []).run h = .error e h' ∧
      h'.self.Y = h.self.Y ∧ h'.self.iter = h.self.iter ∧ h'.self.nearest = some [] ∧
      h'.self.P = h.self.P) ∧
    (∃ (h h' : Heap ℚ) (e : JsError), (TSNE.step (⟨id, id, id⟩ : JsMath ℚ)).run h = .error e h' ∧
      h'.self.iter = h.self.iter + 1 ∧ h'.self.Y = h.self.Y ∧ h'.self.gains = h.self.gains) := by
  constructor
  · obtain ⟨s, -⟩ : ∃ s : TSNE ℚ, TSNE.new (fun _ => 0) none = .ok s := ⟨_, rfl⟩
    let h : Heap ℚ := ⟨s, false, 0⟩
    have hr := initDataDist_run_error (⟨id, id, id⟩ : JsMath ℚ) 1 [] h rfl
    obtain ⟨hY, -, -, hit, hn, hPN⟩ := (throw_leaves _ 1 [] h).1 _ _ hr
    refine ⟨h, _, _, hr, hY, hit, hn, ?_⟩
    rcases hPN with ⟨hP, -⟩ | ⟨he, -⟩
    · exact hP
    · cases he
  · obtain ⟨h, -, -, hi, h', hr⟩ := bad_index_run (⟨id, id, id⟩ : JsMath ℚ)
    obtain ⟨g, hg, hgrid, -⟩ := hi.gains
    obtain ⟨ys, hys, hysgrid⟩ := hi.ystep
    obtain ⟨-, -, -, hit, hkeep⟩ := (throw_leaves _ 1 [] h).2 _ _ hr
    obtain ⟨hY, hgains, -⟩ := hkeep ⟨g, ys, hg, hys, by rw [hi.N, hgrid.1]; rfl,
      by rw [hi.N, hysgrid.1]; rfl⟩
    exact ⟨h, h', _, hr, hit, hY, hgains⟩

end BarnesHutTsne
