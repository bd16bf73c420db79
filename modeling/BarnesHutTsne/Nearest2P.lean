import BarnesHutTsne.Basic

/-!
# `nearest2P`: from the kNN table to the joint probabilities

`nearest2P` runs in three passes, each a loop of the source:

* for every row `i`, a bounded binary search over the precision `beta` (at most `maxTries`
  trials), each trial writing the clamped, normalised kernel row into one array `pRow` that is
  shared by all rows;
* the copy of the last trial's `pRow` into row `i` of the `N × N` array `P`, at the columns the
  neighbours name;
* the symmetrisation over the pairs `i < j`, which replaces both `P[i * N + j]` and
  `P[j * N + i]` by their sum over `2 * N` and leaves the diagonal alone.

The second half of the file characterises the result on a rectangular table whose indices lie in
`[0, N)`: every entry of `P` in closed form, from which `Probability.lean` reads off symmetry,
support and mass.
-/

namespace BarnesHutTsne

variable {α : Type} [LinearOrderedField α] (m : JsMath α)

/-- `pij` for one neighbour at precision `beta`: `0` for the row's own index, the Gaussian
kernel otherwise, and clamped below at `MIN_POSSIBLE_PROB` in both cases. -/
def kernel (i : Nat) (beta : α) (nb : Neighbor α) : α :=
  max (if (i : Int) = nb.index then 0 else m.exp (-nb.dist * beta)) MIN_POSSIBLE_PROB

/-- The entropy loop: `Hhere -= pij * Math.log(pij)` over the entries above `1E-7`. -/
def entropy (row : List α) : α :=
  row.foldl (fun Hhere pij => if pij > 1 / 10 ^ 7 then Hhere - pij * m.log pij else Hhere) 0

/-- One trial of the search at precision `beta`. The first loop overwrites the head of the
shared `pRow` with the kernel row and sums it into `psum`; the second divides all of `pRow` by
`psum` and measures its entropy `Hhere`. -/
def trial (i : Nat) (neighbors : List (Neighbor α)) (beta : α) (pRow : List α) : List α × α :=
  let raw := neighbors.map (kernel m i beta)
  let psum := raw.sum
  let row := (raw ++ pRow.drop raw.length).map (· / psum)
  (row, entropy m row)

/-- The search bracket; `none` stands for `-Infinity` and `Infinity`. -/
structure Bracket (α : Type) where
  beta : α
  betaMin : Option α
  betaMax : Option α

/-- Moving the bracket after a trial of entropy `Hhere`. -/
def adjust (Hhere Htarget : α) (b : Bracket α) : Bracket α :=
  if Hhere > Htarget then
    ⟨match b.betaMax with
      | none => b.beta * 2
      | some betaMax => (b.beta + betaMax) / 2, some b.beta, b.betaMax⟩
  else
    ⟨match b.betaMin with
      | none => b.beta / 2
      | some betaMin => (b.beta + betaMin) / 2, b.betaMin, some b.beta⟩

/-- `maxTries`. -/
def maxTries : Nat := 50

/-- The `while (true)` loop of row `i`: a trial, then a stop when no further trial is allowed
(`rest = 0`) or the entropy is within `tol` of `Htarget`, else the next trial with the adjusted
bracket. Returns `pRow` as the last trial left it. -/
def search (i : Nat) (neighbors : List (Neighbor α)) (Htarget tol : α) :
    Nat → Bracket α → List α → List α
  | 0, b, pRow => (trial m i neighbors b.beta pRow).1
  | rest + 1, b, pRow =>
    let t := trial m i neighbors b.beta pRow
    if |t.2 - Htarget| < tol then t.1
    else search i neighbors Htarget tol rest (adjust t.2 Htarget b) t.1

/-- The copy of `pRow` into row `i`: `P[i * N + neighbors[k].index] = pRow[k]` for every
`k < pRow.length`, which throws once `neighbors[k]` is `undefined`. -/
def copyRow (N i : Nat) : List α → List (Neighbor α) → List α → Except JsError (List α)
  | [], _, P => .ok P
  | _ :: _, [], _ => .error .typeError
  | pij :: pRow, nb :: neighbors, P => copyRow N i pRow neighbors (writeAt P (i * N + nb.index) pij)

/-- The loop over the rows, from row `i` on: the search for the row, starting at `beta = 1`
with an open bracket, and the copy of its result. `pRow` passes from one row to the next. -/
def rowsLoop (N : Nat) (Htarget tol : α) :
    Nat → List (List (Neighbor α)) → List α → List α → Except JsError (List α)
  | _, [], _, P => .ok P
  | i, neighbors :: rest, pRow, P =>
    let pRow := search m i neighbors Htarget tol (maxTries - 1) ⟨1, none, none⟩ pRow
    match copyRow N i pRow neighbors P with
    | .error e => .error e
    | .ok P => rowsLoop N Htarget tol (i + 1) rest pRow P

/-- The symmetrisation step for a pair `i < j`. -/
def symPair (N : Nat) (P : List α) (i j : Nat) : List α :=
  let i_j := i * N + j
  let j_i := j * N + i
  let value := (P.getD i_j 0 + P.getD j_i 0) / (N * 2 : α)
  (P.set i_j value).set j_i value

/-- The symmetrisation loop over `i < N` and `i < j < N`. -/
def symmetrize (N : Nat) (P : List α) : List α :=
  (List.range N).foldl
    (fun P i => (List.range' (i + 1) (N - (i + 1))).foldl (fun P j => symPair N P i j) P) P

/-- `nearest2P(nearest, perplexity, tol)`. Reading `nearest[0].length` throws on an empty table;
`new Array(K)` starts `pRow` with holes that row `0` overwrites before any read. -/
def nearest2P (nearest : List (List (Neighbor α))) (perplexity tol : α) :
    Except JsError (List α) :=
  let N := nearest.length
  let Htarget := m.log perplexity
  let P := zeros (N * N)
  match nearest with
  | [] => .error .typeError
  | row0 :: _ => (rowsLoop m N Htarget tol 0 nearest (zeros row0.length) P).map (symmetrize N)

/-! ## Positions in the `N × N` array -/

theorem index_inj {N r c i j : Nat} (hc : c < N) (hj : j < N) (h : r * N + c = i * N + j) :
    r = i ∧ c = j := by
  have hN : 0 < N := by omega
  have h1 : (r * N + c) / N = (i * N + j) / N := by rw [h]
  have h2 : (r * N + c) % N = (i * N + j) % N := by rw [h]
  rw [Nat.add_comm, Nat.add_mul_div_right _ _ hN, Nat.add_comm (i * N),
    Nat.add_mul_div_right _ _ hN, Nat.div_eq_of_lt hc, Nat.div_eq_of_lt hj] at h1
  rw [Nat.add_comm, Nat.add_mul_mod_self_right, Nat.add_comm (i * N),
    Nat.add_mul_mod_self_right, Nat.mod_eq_of_lt hc, Nat.mod_eq_of_lt hj] at h2
  omega

theorem index_lt {N a b : Nat} (ha : a < N) (hb : b < N) : a * N + b < N * N :=
  calc a * N + b < a * N + N := by omega
    _ = (a + 1) * N := (Nat.succ_mul a N).symm
    _ ≤ N * N := Nat.mul_le_mul_right N ha

/-! ## One row: the search ends on a clamped, normalised kernel row -/

/-- The clamped kernel row at `beta`, normalised: what a trial leaves in a `pRow` of the row's
own length. -/
def kernelRow (i : Nat) (neighbors : List (Neighbor α)) (beta : α) : List α :=
  (neighbors.map (kernel m i beta)).map (· / (neighbors.map (kernel m i beta)).sum)

theorem kernel_pos (i : Nat) (beta : α) (nb : Neighbor α) : 0 < kernel m i beta nb :=
  lt_max_of_lt_right MIN_POSSIBLE_PROB_pos

@[simp] theorem length_kernelRow (i : Nat) (neighbors : List (Neighbor α)) (beta : α) :
    (kernelRow m i neighbors beta).length = neighbors.length := by
  simp [kernelRow]

theorem kernelRow_pos {i : Nat} {neighbors : List (Neighbor α)} {beta v : α}
    (hv : v ∈ kernelRow m i neighbors beta) : 0 < v := by
  simp only [kernelRow, List.mem_map] at hv
  obtain ⟨_, ⟨nb, hnb, rfl⟩, rfl⟩ := hv
  refine div_pos (kernel_pos m i beta nb) (List.sum_pos _ ?_ (List.ne_nil_of_mem
    (List.mem_map_of_mem _ hnb)))
  simpa using fun nb _ => kernel_pos m i beta nb

theorem kernelRow_sum {i : Nat} {neighbors : List (Neighbor α)} (beta : α)
    (h : neighbors ≠ []) : (kernelRow m i neighbors beta).sum = 1 := by
  have hpos : 0 < (neighbors.map (kernel m i beta)).sum :=
    List.sum_pos _ (by simpa using fun nb _ => kernel_pos m i beta nb) (by simpa using h)
  simp only [kernelRow, div_eq_mul_inv, List.sum_map_mul_right, List.map_id']
  exact mul_inv_cancel₀ hpos.ne'

theorem trial_fst {i : Nat} {neighbors : List (Neighbor α)} {pRow : List α} (beta : α)
    (h : pRow.length = neighbors.length) :
    (trial m i neighbors beta pRow).1 = kernelRow m i neighbors beta := by
  simp [trial, kernelRow, h]

theorem trial_snd {i : Nat} {neighbors : List (Neighbor α)} {pRow : List α} (beta : α)
    (h : pRow.length = neighbors.length) :
    (trial m i neighbors beta pRow).2 = entropy m (kernelRow m i neighbors beta) := by
  simp [trial, kernelRow, List.drop_of_length_le (Nat.le_of_eq h)]

/-- Once `pRow` has the row's length its contents no longer matter to the search. -/
theorem search_congr {i : Nat} {neighbors : List (Neighbor α)} {Htarget tol : α} :
    ∀ (rest : Nat) (b : Bracket α) {pRow pRow' : List α}, pRow.length = neighbors.length →
      pRow'.length = neighbors.length →
      search m i neighbors Htarget tol rest b pRow = search m i neighbors Htarget tol rest b pRow'
  | 0, b, _, _, h, h' => by simp only [search, trial_fst m _ h, trial_fst m _ h']
  | rest + 1, b, _, _, h, h' => by
    simp only [search, trial_fst m _ h, trial_fst m _ h', trial_snd m _ h, trial_snd m _ h']

theorem search_kernelRow {i : Nat} {neighbors : List (Neighbor α)} {Htarget tol : α} :
    ∀ (rest : Nat) (b : Bracket α) {pRow : List α}, pRow.length = neighbors.length →
      ∃ beta, search m i neighbors Htarget tol rest b pRow = kernelRow m i neighbors beta
  | 0, b, _, h => ⟨b.beta, trial_fst m _ h⟩
  | rest + 1, b, _, h => by
    simp only [search, trial_fst m _ h]
    split
    · exact ⟨b.beta, rfl⟩
    · exact search_kernelRow rest _ (length_kernelRow m i neighbors b.beta)

/-- The row the search leaves for row `i` of a rectangular table. -/
def finalRow (i : Nat) (neighbors : List (Neighbor α)) (Htarget tol : α) : List α :=
  search m i neighbors Htarget tol (maxTries - 1) ⟨1, none, none⟩ (zeros neighbors.length)

theorem finalRow_kernelRow (i : Nat) (neighbors : List (Neighbor α)) (Htarget tol : α) :
    ∃ beta, finalRow m i neighbors Htarget tol = kernelRow m i neighbors beta :=
  search_kernelRow m _ _ (by simp [zeros])

@[simp] theorem length_finalRow (i : Nat) (neighbors : List (Neighbor α)) (Htarget tol : α) :
    (finalRow m i neighbors Htarget tol).length = neighbors.length := by
  obtain ⟨beta, h⟩ := finalRow_kernelRow m i neighbors Htarget tol
  simp [h]

theorem finalRow_pos {i : Nat} {neighbors : List (Neighbor α)} {Htarget tol v : α}
    (hv : v ∈ finalRow m i neighbors Htarget tol) : 0 < v := by
  obtain ⟨beta, h⟩ := finalRow_kernelRow m i neighbors Htarget tol
  exact kernelRow_pos m (h ▸ hv)

theorem finalRow_sum {i : Nat} {neighbors : List (Neighbor α)} (Htarget tol : α)
    (h : neighbors ≠ []) : (finalRow m i neighbors Htarget tol).sum = 1 := by
  obtain ⟨beta, hb⟩ := finalRow_kernelRow m i neighbors Htarget tol
  rw [hb, kernelRow_sum m beta h]

/-! ## The row copy -/

/-- The entry the copy of `pRow` leaves at column `j`: the last value written there, or `acc`
if no neighbour names `j`. -/
def rowEntry (j : Int) : List α → List (Neighbor α) → α → α
  | pij :: pRow, nb :: neighbors, acc => rowEntry j pRow neighbors (if nb.index = j then pij else acc)
  | _, _, acc => acc

omit [LinearOrderedField α] in
theorem writeAt_row {N i : Nat} {j : Int} (P : List α) (v : α) (hj : 0 ≤ j) :
    writeAt P (i * N + j) v = P.set (i * N + j.toNat) v := by
  have h : (i * N : Int) + j = ((i * N + j.toNat : Nat) : Int) := by
    push_cast; rw [Int.toNat_of_nonneg hj]
  rw [writeAt, h, if_pos (Int.ofNat_nonneg _), Int.toNat_ofNat]

/-- On a row as long as `pRow` whose indices lie in `[0, N)`, the copy succeeds and changes row
`i` only, column by column as `rowEntry` says. -/
theorem copyRow_spec {N i : Nat} (hi : i < N) :
    ∀ (pRow : List α) (neighbors : List (Neighbor α)) (P : List α),
      pRow.length = neighbors.length → (∀ nb ∈ neighbors, 0 ≤ nb.index ∧ nb.index < N) →
      P.length = N * N →
      ∃ P', copyRow N i pRow neighbors P = .ok P' ∧ P'.length = N * N ∧
        ∀ r < N, ∀ c < N, P'.getD (r * N + c) 0 =
          if r = i then rowEntry c pRow neighbors (P.getD (i * N + c) 0) else P.getD (r * N + c) 0
  | [], [], P, _, _, hP => ⟨P, rfl, hP, fun r _ c _ => by split <;> simp_all [rowEntry]⟩
  | pij :: pRow, nb :: neighbors, P, hl, hidx, hP => by
    obtain ⟨h0, hN⟩ := hidx nb (List.mem_cons_self _ _)
    have hk : nb.index.toNat < N := by omega
    obtain ⟨P', hcopy, hlen, hget⟩ := copyRow_spec hi pRow neighbors (P.set (i * N + nb.index.toNat) pij)
      (by simpa using hl) (fun nb h => hidx nb (List.mem_cons_of_mem _ h)) (by simpa using hP)
    refine ⟨P', by rw [copyRow, writeAt_row P pij h0]; exact hcopy, hlen, fun r hr c hc => ?_⟩
    rw [hget r hr c hc]
    by_cases hri : r = i
    · subst hri
      simp only [if_true]
      by_cases hjc : nb.index = c
      · have : nb.index.toNat = c := by omega
        rw [this, getD_set_self _ _ _ (hP ▸ index_lt hi hc), rowEntry.eq_1, if_pos hjc]
      · have : nb.index.toNat ≠ c := by omega
        rw [getD_set_of_ne _ _ _ (fun h => this (index_inj hk hc h).2), rowEntry.eq_1, if_neg hjc]
    · simp only [hri, if_false]
      exact getD_set_of_ne _ _ _ (fun h => hri (index_inj hk hc h).1.symm)

omit [LinearOrderedField α] in
/-- Whatever indices the row holds, the copy throws only when the row is shorter than `pRow`. -/
theorem copyRow_ok {N i : Nat} : ∀ (pRow : List α) (neighbors : List (Neighbor α)) (P : List α),
    pRow.length ≤ neighbors.length → ∃ P', copyRow N i pRow neighbors P = .ok P'
  | [], _, P, _ => ⟨P, rfl⟩
  | _ :: _, [], _, h => absurd h (by simp)
  | _ :: pRow, _ :: neighbors, _, h => copyRow_ok pRow neighbors _ (by simpa using h)

/-! ## The row loop -/

/-- The value row `r` of the table leaves at column `c`, before the symmetrisation. -/
def written (nearest : List (List (Neighbor α))) (Htarget tol : α) (r c : Nat) : α :=
  rowEntry c (finalRow m r (nearest.getD r []) Htarget tol) (nearest.getD r []) 0

/-- On rows of one length `K` with indices in `[0, N)`, the loop from row `i` on succeeds and
gives every row it visits the entries `rowEntry` computes from the row's own search. -/
theorem rowsLoop_spec {N K : Nat} (Htarget tol : α) :
    ∀ (rest : List (List (Neighbor α))) (i : Nat) (pRow P : List α),
      (∀ row ∈ rest, row.length = K ∧ ∀ nb ∈ row, 0 ≤ nb.index ∧ nb.index < N) →
      pRow.length = K → i + rest.length ≤ N → P.length = N * N →
      ∃ P', rowsLoop m N Htarget tol i rest pRow P = .ok P' ∧ P'.length = N * N ∧
        ∀ r < N, ∀ c < N, P'.getD (r * N + c) 0 =
          if i ≤ r ∧ r < i + rest.length then
            rowEntry c (finalRow m r (rest.getD (r - i) []) Htarget tol) (rest.getD (r - i) [])
              (P.getD (r * N + c) 0)
          else P.getD (r * N + c) 0
  | [], i, pRow, P, _, _, _, hP => ⟨P, rfl, hP, fun r _ c _ => (if_neg (by simp)).symm⟩
  | row :: rest, i, pRow, P, hrows, hpRow, hi, hP => by
    obtain ⟨hK, hidx⟩ := hrows row (List.mem_cons_self _ _)
    simp only [List.length_cons] at hi
    have hsearch : search m i row Htarget tol (maxTries - 1) ⟨1, none, none⟩ pRow =
        finalRow m i row Htarget tol := search_congr m _ _ (by omega) (by simp [zeros])
    obtain ⟨P₁, hcopy, hlen₁, hget₁⟩ :=
      copyRow_spec (i := i) (by omega) (finalRow m i row Htarget tol) row P (by simp) hidx hP
    obtain ⟨P', hloop, hlen', hget'⟩ := rowsLoop_spec Htarget tol rest (i + 1) (finalRow m i row Htarget tol) P₁
      (fun r h => hrows r (List.mem_cons_of_mem _ h)) (by simp [hK]) (by omega) hlen₁
    refine ⟨P', by simp only [rowsLoop, hsearch, hcopy]; exact hloop, hlen', fun r hr c hc => ?_⟩
    rw [hget' r hr c hc, hget₁ r hr c hc]
    by_cases hri : r = i
    · subst hri; simp
    · simp only [hri, if_false, List.length_cons]
      by_cases hin : i < r ∧ r < i + 1 + rest.length
      · have hsub : r - i = (r - (i + 1)) + 1 := by omega
        rw [if_pos (by omega), if_pos (by omega), hsub, List.getD_cons_succ]
      · rw [if_neg (by omega), if_neg (by omega)]

/-- On rows of one length, whatever indices they hold, the loop returns. -/
theorem rowsLoop_ok {N K : Nat} (Htarget tol : α) :
    ∀ (rest : List (List (Neighbor α))) (i : Nat) (pRow P : List α),
      (∀ row ∈ rest, row.length = K) → pRow.length = K →
      ∃ P', rowsLoop m N Htarget tol i rest pRow P = .ok P'
  | [], _, _, P, _, _ => ⟨P, rfl⟩
  | row :: rest, i, pRow, P, hrows, hpRow => by
    have hK := hrows row (List.mem_cons_self _ _)
    have hsearch : search m i row Htarget tol (maxTries - 1) ⟨1, none, none⟩ pRow =
        finalRow m i row Htarget tol := search_congr m _ _ (by omega) (by simp [zeros])
    obtain ⟨P₁, hcopy⟩ := copyRow_ok (N := N) (i := i) _ row P (length_finalRow m i row Htarget tol).le
    obtain ⟨P', hloop⟩ := rowsLoop_ok Htarget tol rest (i + 1) (finalRow m i row Htarget tol) P₁
      (fun r h => hrows r (List.mem_cons_of_mem _ h)) (by simp [hK])
    exact ⟨P', by simp only [rowsLoop, hsearch, hcopy]; exact hloop⟩

/-! ## When the loop returns, on any table

The rows share one `pRow`. A trial writes the row's kernel values over its head and keeps the
rest, so `pRow` grows to the longest row so far, and the copy of a shorter row reads
`neighbors[k]` past the row's end. -/

@[simp] theorem length_trial_fst (i : Nat) (neighbors : List (Neighbor α)) (beta : α)
    (pRow : List α) : (trial m i neighbors beta pRow).1.length = max neighbors.length pRow.length := by
  simp only [trial, List.length_map, List.length_append, List.length_drop]; omega

theorem length_search (i : Nat) (neighbors : List (Neighbor α)) (Htarget tol : α) :
    ∀ (rest : Nat) (b : Bracket α) (pRow : List α),
      (search m i neighbors Htarget tol rest b pRow).length = max neighbors.length pRow.length
  | 0, b, pRow => length_trial_fst m i neighbors b.beta pRow
  | rest + 1, b, pRow => by
    simp only [search]
    split
    · exact length_trial_fst m i neighbors b.beta pRow
    · rw [length_search i neighbors Htarget tol rest, length_trial_fst]; omega

/-- The copy throws exactly when the row is shorter than `pRow`. -/
theorem copyRow_ok_iff {N i : Nat} : ∀ (pRow : List α) (neighbors : List (Neighbor α)) (P : List α),
    (∃ P', copyRow N i pRow neighbors P = .ok P') ↔ pRow.length ≤ neighbors.length
  | [], _, P => by simp [copyRow]
  | _ :: _, [], _ => by simp [copyRow]
  | _ :: pRow, _ :: neighbors, _ =>
    (copyRow_ok_iff pRow neighbors _).trans Nat.succ_le_succ_iff.symm

/-- The loop from row `i` on returns exactly when no row is shorter than the one before it, the
first being compared with `pRow`. -/
theorem rowsLoop_ok_iff {N : Nat} (Htarget tol : α) :
    ∀ (rest : List (List (Neighbor α))) (i : Nat) (pRow P : List α),
      (∃ P', rowsLoop m N Htarget tol i rest pRow P = .ok P') ↔
        List.Chain (· ≤ ·) pRow.length (rest.map List.length)
  | [], _, _, P => by simp [rowsLoop]
  | row :: rest, i, pRow, P => by
    have hlen := length_search m i row Htarget tol (maxTries - 1) ⟨1, none, none⟩ pRow
    have hcopy := copyRow_ok_iff (N := N) (i := i)
      (search m i row Htarget tol (maxTries - 1) ⟨1, none, none⟩ pRow) row P
    rw [hlen, max_le_iff, and_iff_right le_rfl] at hcopy
    rw [List.map_cons, List.chain_cons]
    simp only [rowsLoop]
    rcases hc : copyRow N i (search m i row Htarget tol (maxTries - 1) ⟨1, none, none⟩ pRow) row P
      with e | P₁
    · rw [hc] at hcopy
      simp only [reduceCtorEq, exists_false, false_iff] at hcopy ⊢
      exact fun h => hcopy h.1
    · have hle := hcopy.1 ⟨P₁, hc⟩
      simp only [rowsLoop_ok_iff Htarget tol rest (i + 1), hlen, max_eq_left hle, hle, true_and]

/-- The tables on which `nearest2P` returns. -/
theorem nearest2P_returns_iff (nearest : List (List (Neighbor α))) (perplexity tol : α) :
    (∃ P, nearest2P m nearest perplexity tol = .ok P) ↔
      nearest ≠ [] ∧ List.Chain' (· ≤ ·) (nearest.map List.length) := by
  cases nearest with
  | nil => simp [nearest2P]
  | cons row0 rest =>
    have h := rowsLoop_ok_iff m (N := (row0 :: rest).length) (m.log perplexity) tol (row0 :: rest)
      0 (zeros row0.length) (zeros ((row0 :: rest).length * (row0 :: rest).length))
    rw [length_zeros, List.map_cons, List.chain_cons, and_iff_right le_rfl] at h
    simp only [List.map_cons, List.Chain']
    rw [← h]
    simp only [nearest2P]
    cases rowsLoop m (row0 :: rest).length (m.log perplexity) tol 0 (row0 :: rest)
      (zeros row0.length) (zeros ((row0 :: rest).length * (row0 :: rest).length)) <;> simp [Except.map]

omit [LinearOrderedField α] in
/-- The copy throws nothing but `TypeError`, on a `neighbors[k]` that is `undefined`. -/
theorem copyRow_error {N i : Nat} : ∀ (pRow : List α) (neighbors : List (Neighbor α)) (P : List α)
    {e : JsError}, copyRow N i pRow neighbors P = .error e → e = .typeError
  | [], _, _, _, h => nomatch h
  | _ :: _, [], _, _, h => by cases h; rfl
  | _ :: pRow, _ :: neighbors, _, _, h => copyRow_error pRow neighbors _ h

theorem rowsLoop_error {N : Nat} (Htarget tol : α) :
    ∀ (rest : List (List (Neighbor α))) (i : Nat) (pRow P : List α) {e : JsError},
      rowsLoop m N Htarget tol i rest pRow P = .error e → e = .typeError
  | [], _, _, _, _, h => nomatch h
  | row :: rest, i, pRow, P, _, h => by
    simp only [rowsLoop] at h
    split at h
    · rename_i hcopy; cases h; exact copyRow_error _ _ _ hcopy
    · exact rowsLoop_error Htarget tol rest (i + 1) _ _ h

theorem nearest2P_error {nearest : List (List (Neighbor α))} {perplexity tol : α} {e : JsError}
    (h : nearest2P m nearest perplexity tol = .error e) : e = .typeError := by
  cases nearest with
  | nil => cases h; rfl
  | cons row0 rest =>
    simp only [nearest2P] at h
    cases hloop : rowsLoop m (row0 :: rest).length (m.log perplexity) tol 0 (row0 :: rest)
      (zeros row0.length) (zeros ((row0 :: rest).length * (row0 :: rest).length)) with
    | error e' => rw [hloop] at h; cases h; exact rowsLoop_error m _ tol _ 0 _ _ hloop
    | ok P => rw [hloop] at h; cases h

/-- **`nearest2P` returns exactly when the table has a row and no row is shorter than the one
before it, and otherwise throws `TypeError`.** Neither the indices nor the distances are checked;
an empty table throws on `nearest[0].length`, and a row shorter than an earlier one throws in the
copy, on `neighbors[k].index` past the row's end. -/
theorem nearest2P_ok_iff (nearest : List (List (Neighbor α))) (perplexity tol : α) :
    ((∃ P, nearest2P m nearest perplexity tol = .ok P) ↔
      nearest ≠ [] ∧ List.Chain' (· ≤ ·) (nearest.map List.length)) ∧
    ∀ e, nearest2P m nearest perplexity tol = .error e ↔
      ¬(nearest ≠ [] ∧ List.Chain' (· ≤ ·) (nearest.map List.length)) ∧ e = .typeError := by
  have hok := nearest2P_returns_iff m nearest perplexity tol
  refine ⟨hok, fun e => ⟨fun h => ⟨fun hc => ?_, nearest2P_error m h⟩, fun ⟨hc, he⟩ => ?_⟩⟩
  · obtain ⟨P, hP⟩ := hok.2 hc
    rw [hP] at h; cases h
  · cases hr : nearest2P m nearest perplexity tol with
    | error e' => rw [nearest2P_error m hr, he]
    | ok P => exact absurd (hok.1 ⟨P, hr⟩) hc

/-! ## The symmetrisation -/

/-- The value the symmetrisation gives entry `(a, b)` of `P`. -/
def symValue (N : Nat) (P : List α) (a b : Nat) : α :=
  if a = b then P.getD (a * N + a) 0
  else (P.getD (a * N + b) 0 + P.getD (b * N + a) 0) / (N * 2 : α)

theorem symValue_comm (N : Nat) (P : List α) (a b : Nat) :
    symValue N P a b = symValue N P b a := by
  by_cases h : a = b
  · subst h; rfl
  · rw [symValue, symValue, if_neg h, if_neg (Ne.symm h), add_comm]

/-- `Q` holds the symmetrised value of `P` on the pairs `D` and the value of `P` elsewhere. -/
structure SymInv (N : Nat) (P Q : List α) (D : Nat → Nat → Prop) : Prop where
  length : Q.length = N * N
  done : ∀ a < N, ∀ b < N, D a b → Q.getD (a * N + b) 0 = symValue N P a b
  todo : ∀ a < N, ∀ b < N, ¬ D a b → Q.getD (a * N + b) 0 = P.getD (a * N + b) 0

section
variable {N : Nat} {P Q : List α} {D D' : Nat → Nat → Prop}

theorem SymInv.congr (h : SymInv N P Q D) (hD : ∀ a < N, ∀ b < N, (D a b ↔ D' a b)) :
    SymInv N P Q D' :=
  ⟨h.length, fun a ha b hb hab => h.done a ha b hb ((hD a ha b hb).2 hab),
    fun a ha b hb hab => h.todo a ha b hb fun h' => hab ((hD a ha b hb).1 h')⟩

/-- One `symPair` step symmetrises exactly the pairs `(i, j)` and `(j, i)`. -/
theorem SymInv.pair {i j : Nat} (h : SymInv N P Q D) (hij : i < j) (hj : j < N)
    (hD : ¬ D i j) (hD' : ¬ D j i) :
    SymInv N P (symPair N Q i j) (fun a b => D a b ∨ (a = i ∧ b = j) ∨ (a = j ∧ b = i)) := by
  have hi : i < N := by omega
  have hpos : ∀ {a b}, a < N → b < N → ¬ (a = i ∧ b = j) → a * N + b ≠ i * N + j :=
    fun ha hb hn e => hn (index_inj hb hj e)
  have hpos' : ∀ {a b}, a < N → b < N → ¬ (a = j ∧ b = i) → a * N + b ≠ j * N + i :=
    fun ha hb hn e => hn (index_inj hb hi e)
  have hv : (Q.getD (i * N + j) 0 + Q.getD (j * N + i) 0) / (N * 2 : α) = symValue N P i j := by
    rw [h.todo i hi j hj hD, h.todo j hj i hi hD', symValue, if_neg (by omega)]
  have hlt : i * N + j < Q.length := h.length ▸ index_lt hi hj
  have hlt' : j * N + i < (Q.set (i * N + j) ((Q.getD (i * N + j) 0 + Q.getD (j * N + i) 0) /
      (N * 2 : α))).length := by simpa [h.length] using index_lt hj hi
  refine ⟨by simp [BarnesHutTsne.symPair, h.length], ?_, ?_⟩
  · intro a ha b hb hab
    simp only [BarnesHutTsne.symPair]
    by_cases h1 : a = j ∧ b = i
    · obtain ⟨rfl, rfl⟩ := h1
      rw [getD_set_self _ _ _ hlt', hv, symValue_comm]
    by_cases h2 : a = i ∧ b = j
    · obtain ⟨rfl, rfl⟩ := h2
      rw [getD_set_of_ne _ _ _ (hpos' hi hj (by omega)).symm, getD_set_self _ _ _ hlt, hv]
    rw [getD_set_of_ne _ _ _ (hpos' ha hb h1).symm, getD_set_of_ne _ _ _ (hpos ha hb h2).symm]
    exact h.done a ha b hb (hab.resolve_right (not_or.2 ⟨h2, h1⟩))
  · intro a ha b hb hab
    simp only [not_or] at hab
    simp only [BarnesHutTsne.symPair]
    rw [getD_set_of_ne _ _ _ (hpos' ha hb hab.2.2).symm, getD_set_of_ne _ _ _ (hpos ha hb hab.2.1).symm]
    exact h.todo a ha b hb hab.1

/-- The inner loop of row `i` symmetrises the pairs of `i` with every `j` it runs over. -/
theorem SymInv.inner (i : Nat) : ∀ (js : List Nat) (Q : List α) (D : Nat → Nat → Prop),
    SymInv N P Q D → (∀ j ∈ js, i < j ∧ j < N ∧ ¬ D i j ∧ ¬ D j i) → js.Nodup →
    SymInv N P (js.foldl (fun Q j => symPair N Q i j) Q)
      (fun a b => D a b ∨ ∃ j ∈ js, (a = i ∧ b = j) ∨ (a = j ∧ b = i))
  | [], Q, D, h, _, _ => h.congr (by simp)
  | j :: js, Q, D, h, hjs, hnd => by
    obtain ⟨h1, h2, h3, h4⟩ := hjs j (List.mem_cons_self _ _)
    obtain ⟨hj, hnd⟩ := List.nodup_cons.1 hnd
    refine (SymInv.inner i js _ _ (h.pair h1 h2 h3 h4) (fun k hk => ?_) hnd).congr ?_
    · obtain ⟨k1, k2, k3, k4⟩ := hjs k (List.mem_cons_of_mem _ hk)
      have : k ≠ j := fun e => hj (e ▸ hk)
      refine ⟨k1, k2, ?_, ?_⟩ <;> rintro (h | ⟨h', h''⟩ | ⟨h', h''⟩) <;>
        first | exact k3 h | exact k4 h | omega
    · intro a _ b _
      simp only [List.mem_cons, exists_eq_or_imp, or_assoc]

theorem symmetrize_inv (hP : P.length = N * N) : ∀ n ≤ N,
    SymInv N P ((List.range n).foldl (fun Q i =>
      (List.range' (i + 1) (N - (i + 1))).foldl (fun Q j => symPair N Q i j) Q) P)
      (fun a b => a ≠ b ∧ min a b < n)
  | 0, _ => ⟨hP, fun a _ b _ h => by omega, fun a _ b _ _ => rfl⟩
  | n + 1, hn => by
    rw [List.range_succ, List.foldl_append, List.foldl_cons, List.foldl_nil]
    refine (SymInv.inner n _ _ _ (symmetrize_inv hP n (by omega)) (fun j hj => ?_)
      (List.nodup_range' _ _)).congr (fun a _ b _ => ?_)
    · rw [List.mem_range'_1] at hj; omega
    · simp only [List.mem_range'_1]
      constructor
      · rintro (h | ⟨j, _, ⟨rfl, rfl⟩ | ⟨rfl, rfl⟩⟩) <;> omega
      · rintro ⟨hab, hmin⟩
        by_cases h : min a b < n
        · exact .inl ⟨hab, h⟩
        · refine .inr (if ha : a = n then ⟨b, by omega, .inl ⟨ha, rfl⟩⟩ else ⟨a, by omega, .inr ⟨rfl, by omega⟩⟩)

end

/-- The symmetrisation, entry by entry. -/
theorem symmetrize_spec {N : Nat} {P : List α} (hP : P.length = N * N) :
    (symmetrize N P).length = N * N ∧
      ∀ a < N, ∀ b < N, (symmetrize N P).getD (a * N + b) 0 = symValue N P a b := by
  have h : SymInv N P (symmetrize N P) (fun a b => a ≠ b ∧ min a b < N) :=
    symmetrize_inv hP N le_rfl
  refine ⟨h.length, fun a ha b hb => ?_⟩
  by_cases hab : a = b
  · subst hab
    rw [h.todo a ha a ha (by omega), symValue, if_pos rfl]
  · exact h.done a ha b hb ⟨hab, by omega⟩

/-! ## `nearest2P` in closed form -/

/-- The entry `(a, b)` of `nearest2P`'s result on a well-formed table: the symmetrisation of
what rows `a` and `b` wrote, with the diagonal left as row `a` wrote it. -/
def jointP (nearest : List (List (Neighbor α))) (Htarget tol : α) (a b : Nat) : α :=
  if a = b then written m nearest Htarget tol a a
  else (written m nearest Htarget tol a b + written m nearest Htarget tol b a) /
    (nearest.length * 2 : α)

/-- On a nonempty table whose rows share one length and whose indices lie in `[0, N)`,
`nearest2P` returns an `N × N` array whose entries are `jointP`. -/
theorem nearest2P_spec {nearest : List (List (Neighbor α))} {K : Nat} (perplexity tol : α)
    (hne : nearest ≠ [])
    (hrows : ∀ row ∈ nearest, row.length = K ∧
      ∀ nb ∈ row, 0 ≤ nb.index ∧ nb.index < nearest.length) :
    ∃ P, nearest2P m nearest perplexity tol = .ok P ∧
      P.length = nearest.length * nearest.length ∧
      ∀ a < nearest.length, ∀ b < nearest.length,
        P.getD (a * nearest.length + b) 0 = jointP m nearest (m.log perplexity) tol a b := by
  obtain ⟨row0, rest, hnr⟩ := List.exists_cons_of_ne_nil hne
  have hK : row0.length = K := (hrows row0 (hnr ▸ List.mem_cons_self _ _)).1
  obtain ⟨P', hloop, hlen', hget'⟩ := rowsLoop_spec m (m.log perplexity) tol
    nearest 0 (zeros row0.length)
    (zeros (nearest.length * nearest.length)) hrows (by simp [zeros, hK]) (by simp) (by simp [zeros])
  have hP' : ∀ r < nearest.length, ∀ c < nearest.length,
      P'.getD (r * nearest.length + c) 0 = written m nearest (m.log perplexity) tol r c := by
    intro r hr c hc
    rw [hget' r hr c hc, if_pos ⟨Nat.zero_le r, by simpa using hr⟩]
    rw [getD_zeros]; rfl
  obtain ⟨hlen, hsym⟩ := symmetrize_spec hlen'
  refine ⟨symmetrize nearest.length P', ?_, hlen, fun a ha b hb => ?_⟩
  · subst hnr; simp only [nearest2P, hloop]; rfl
  · rw [hsym a ha b hb, symValue, jointP, hP' a ha a ha, hP' a ha b hb, hP' b hb a ha]

/-- **`nearest2P` returns on every nonempty table of rows of one length**, whatever indices the
rows hold: it reads `neighbors[k]` only below the first row's length, and a write outside `P`
is dropped. -/
theorem nearest2P_ok {nearest : List (List (Neighbor α))} {K : Nat} (perplexity tol : α)
    (hne : nearest ≠ []) (hrows : ∀ row ∈ nearest, row.length = K) :
    ∃ P, nearest2P m nearest perplexity tol = .ok P := by
  obtain ⟨row0, rest, rfl⟩ := List.exists_cons_of_ne_nil hne
  obtain ⟨P, hloop⟩ := rowsLoop_ok m (N := (row0 :: rest).length) (m.log perplexity) tol (row0 :: rest) 0
    (zeros row0.length) (zeros ((row0 :: rest).length * (row0 :: rest).length)) hrows (by simp [hrows row0 (List.mem_cons_self _ _)])
  exact ⟨_, by simp only [nearest2P, hloop]; rfl⟩

/-! ## On any table where it returns, `P` holds probabilities

Whatever the indices and distances, every row the loop copies is a normalised kernel row, whose
entries lie in `(0, 1]`: the copy returns only when `pRow` is no longer than the row, and then
the trial overwrites all of it. A write that lands in another row, or outside `P`, leaves values
in `[0, 1]`, and the symmetrisation averages two of them over `2 * N ≥ 2`. -/

/-- An `N × N` array of values in `[0, 1]`. -/
structure ProbArray (N : Nat) (P : List α) : Prop where
  length : P.length = N * N
  unit : ∀ v ∈ P, 0 ≤ v ∧ v ≤ 1

section
variable {N : Nat} {P : List α}

theorem ProbArray.set (h : ProbArray N P) (k : Nat) {v : α} (hv : 0 ≤ v ∧ v ≤ 1) :
    ProbArray N (P.set k v) :=
  ⟨by rw [List.length_set, h.length], fun w hw =>
    (List.mem_or_eq_of_mem_set hw).elim (h.unit w) fun e => e ▸ hv⟩

theorem ProbArray.writeAt (h : ProbArray N P) (k : Int) {v : α} (hv : 0 ≤ v ∧ v ≤ 1) :
    ProbArray N (writeAt P k v) := by
  unfold BarnesHutTsne.writeAt; split
  · exact h.set _ hv
  · exact h

theorem ProbArray.getD (h : ProbArray N P) (k : Nat) : 0 ≤ P.getD k 0 ∧ P.getD k 0 ≤ 1 := by
  by_cases hk : k < P.length
  · exact h.unit _ (getD_mem 0 hk)
  · rw [List.getD_eq_default _ _ (Nat.le_of_not_lt hk)]; exact ⟨le_rfl, zero_le_one⟩

theorem ProbArray.symPair (h : ProbArray N P) (i j : Nat) : ProbArray N (symPair N P i j) := by
  obtain ⟨ha0, ha1⟩ := h.getD (i * N + j)
  obtain ⟨hb0, hb1⟩ := h.getD (j * N + i)
  have hv : 0 ≤ (P.getD (i * N + j) 0 + P.getD (j * N + i) 0) / (N * 2 : α) ∧
      (P.getD (i * N + j) 0 + P.getD (j * N + i) 0) / (N * 2 : α) ≤ 1 := by
    refine ⟨by positivity, ?_⟩
    rcases Nat.eq_zero_or_pos N with rfl | hN
    · simp
    · have hN' : (1 : α) ≤ N := Nat.one_le_cast.2 hN
      exact div_le_one_of_le₀ (by linarith) (by positivity)
  exact (h.set _ hv).set _ hv

/-- The symmetrisation keeps an array of probabilities one. -/
theorem ProbArray.symmetrize (h : ProbArray N P) : ProbArray N (symmetrize N P) :=
  List.foldlRecOn (motive := ProbArray N) _ _ _ h fun _ hQ _ _ =>
    List.foldlRecOn (motive := ProbArray N) _ _ _ hQ fun _ hR _ _ => hR.symPair _ _

end

theorem trial_of_le {i : Nat} {neighbors : List (Neighbor α)} {pRow : List α} (beta : α)
    (h : pRow.length ≤ neighbors.length) :
    trial m i neighbors beta pRow = trial m i neighbors beta (zeros neighbors.length) := by
  simp [trial, List.drop_eq_nil_of_le h, zeros]

/-- A `pRow` no longer than the row is overwritten by the first trial. -/
theorem search_of_le {i : Nat} {neighbors : List (Neighbor α)} {Htarget tol : α}
    (rest : Nat) (b : Bracket α) {pRow : List α} (h : pRow.length ≤ neighbors.length) :
    search m i neighbors Htarget tol rest b pRow =
      search m i neighbors Htarget tol rest b (zeros neighbors.length) := by
  cases rest <;> simp only [search, trial_of_le m _ h]

theorem kernelRow_le_one {i : Nat} {neighbors : List (Neighbor α)} {beta v : α}
    (hv : v ∈ kernelRow m i neighbors beta) : v ≤ 1 := by
  simp only [kernelRow, List.mem_map] at hv
  obtain ⟨_, ⟨nb, hnb, rfl⟩, rfl⟩ := hv
  have hall : ∀ x ∈ neighbors.map (kernel m i beta), 0 ≤ x := by
    simpa using fun nb _ => (kernel_pos m i beta nb).le
  exact div_le_one_of_le₀ (List.single_le_sum hall _ (List.mem_map_of_mem _ hnb))
    (List.sum_nonneg hall)

theorem copyRow_probArray {N i : Nat} :
    ∀ (pRow : List α) (neighbors : List (Neighbor α)) (P P' : List α),
      copyRow N i pRow neighbors P = .ok P' → (∀ v ∈ pRow, 0 ≤ v ∧ v ≤ 1) → ProbArray N P →
      ProbArray N P'
  | [], _, P, _, h, _, hP => by cases h; exact hP
  | _ :: _, [], _, _, h, _, _ => nomatch h
  | pij :: pRow, nb :: neighbors, P, P', h, hrow, hP =>
    copyRow_probArray pRow neighbors _ P' h (fun v hv => hrow v (List.mem_cons_of_mem _ hv))
      (hP.writeAt _ (hrow pij (List.mem_cons_self _ _)))

theorem rowsLoop_probArray {N : Nat} (Htarget tol : α) :
    ∀ (rest : List (List (Neighbor α))) (i : Nat) (pRow P P' : List α),
      rowsLoop m N Htarget tol i rest pRow P = .ok P' → ProbArray N P → ProbArray N P'
  | [], _, _, P, _, h, hP => by cases h; exact hP
  | row :: rest, i, pRow, P, P', h, hP => by
    simp only [rowsLoop] at h
    split at h
    · cases h
    · rename_i P₁ hcopy
      -- the copy returned, so `pRow` was no longer than the row and the search left a kernel row
      have hle : pRow.length ≤ row.length := by
        have := (copyRow_ok_iff _ row P).1 ⟨P₁, hcopy⟩
        rw [length_search] at this; omega
      obtain ⟨beta, hrow⟩ := finalRow_kernelRow m i row Htarget tol
      unfold finalRow at hrow
      rw [search_of_le m _ _ hle, hrow] at hcopy
      exact rowsLoop_probArray Htarget tol rest (i + 1) _ P₁ P' h <| copyRow_probArray _ row P P₁
        hcopy (fun v hv => ⟨(kernelRow_pos m hv).le, kernelRow_le_one m hv⟩) hP

/-- **Every entry of `nearest2P`'s result is a probability.** On any table where it returns,
whatever indices and distances the rows hold, `P` is an `N × N` array of values in `[0, 1]`. -/
theorem nearest2P_probArray {nearest : List (List (Neighbor α))} {perplexity tol : α}
    {P : List α} (h : nearest2P m nearest perplexity tol = .ok P) :
    ProbArray nearest.length P := by
  cases nearest with
  | nil => cases h
  | cons row0 rest =>
    simp only [nearest2P] at h
    cases hloop : rowsLoop m (row0 :: rest).length (m.log perplexity) tol 0 (row0 :: rest)
      (zeros row0.length) (zeros ((row0 :: rest).length * (row0 :: rest).length)) with
    | error e => rw [hloop] at h; cases h
    | ok P₁ =>
      rw [hloop] at h; cases h
      exact (rowsLoop_probArray m _ tol _ 0 _ _ P₁ hloop
        ⟨length_zeros _, by simp [zeros]⟩).symmetrize

/-- Two points, each the other's neighbour at distance `1`. -/
theorem nearest2P_probArray_pair :
    ∃ P, nearest2P (⟨id, id, id⟩ : JsMath ℚ) [[⟨1, 1⟩], [⟨0, 1⟩]] 2 (1 / 10 ^ 5) = .ok P ∧
      ProbArray 2 P := by
  obtain ⟨P, hP⟩ := @nearest2P_ok ℚ _ ⟨id, id, id⟩ [[⟨1, 1⟩], [⟨0, 1⟩]] 1 2 (1 / 10 ^ 5)
    (by simp) (by simp)
  exact ⟨P, hP, nearest2P_probArray _ hP⟩

end BarnesHutTsne
