import BarnesHutTsne.Nearest2P

/-!
# The joint distribution `P`: symmetry, support and mass

From `nearest2P_spec`, every entry of `P` is `jointP`: a symmetrised pair of row entries, each
the last value its row wrote at that column. This file proves what the specification asks of
`P` on every well-formed table:

* **symmetry and support** (`nearest2P_symmetric_support`): `P` is symmetric and non-negative,
  and off the diagonal it is positive exactly on the symmetric closure of the kNN graph;
* **mass** (`nearest2P_mass`): with distinct indices in each row, the total mass is
  `1 + (1 - 1/N) · Σᵢ P[i·N+i]`. The diagonal is what row `i` wrote at its own index, which is
  positive exactly when the row names `i`: `i === neighbor.index` sets `pij` to `0`, and the
  clamp to `MIN_POSSIBLE_PROB` that follows sets it back, while the symmetrisation skips the
  diagonal. The mass is `1` and the diagonal `0` exactly when no row names itself.
-/

namespace BarnesHutTsne

variable {α : Type} [LinearOrderedField α] (m : JsMath α)

/-! ## What one row writes -/

omit [LinearOrderedField α] in
theorem rowEntry_of_forall_ne {j : Int} :
    ∀ (vals : List α) (nbs : List (Neighbor α)) (acc : α), (∀ nb ∈ nbs, nb.index ≠ j) →
      rowEntry j vals nbs acc = acc
  | _ :: vals, nb :: nbs, acc, h => by
    rw [rowEntry, if_neg (h nb (List.mem_cons_self _ _))]
    exact rowEntry_of_forall_ne vals nbs acc fun nb' h' => h nb' (List.mem_cons_of_mem _ h')
  | [], _, _, _ => by simp [rowEntry]
  | _ :: _, [], _, _ => rfl

omit [LinearOrderedField α] in
theorem rowEntry_mem {j : Int} :
    ∀ (vals : List α) (nbs : List (Neighbor α)) (acc : α), vals.length = nbs.length →
      (∃ nb ∈ nbs, nb.index = j) → rowEntry j vals nbs acc ∈ vals
  | v :: vals, nb :: nbs, acc, hl, ⟨nb', hnb', hj⟩ => by
    rw [rowEntry]
    by_cases hrest : ∃ nb ∈ nbs, nb.index = j
    · exact List.mem_cons_of_mem _ (rowEntry_mem vals nbs _ (by simpa using hl) hrest)
    · push_neg at hrest
      have : nb.index = j := by
        rcases List.mem_cons.1 hnb' with rfl | h
        · exact hj
        · exact absurd hj (hrest nb' h)
      rw [if_pos this, rowEntry_of_forall_ne _ _ _ hrest]
      exact List.mem_cons_self _ _
  | [], [], _, _, ⟨_, h, _⟩ => absurd h (List.not_mem_nil _)

/-- With distinct indices a column receives at most one write, so the row's entries split. -/
theorem rowEntry_cons {j : Int} {v : α} {nb : Neighbor α} {vals : List α}
    {nbs : List (Neighbor α)} (hnd : ∀ nb' ∈ nbs, nb'.index ≠ nb.index) :
    rowEntry j (v :: vals) (nb :: nbs) 0 = (if nb.index = j then v else 0) + rowEntry j vals nbs 0 := by
  rw [rowEntry]
  split
  · rename_i h
    subst h
    rw [rowEntry_of_forall_ne _ _ _ hnd, rowEntry_of_forall_ne _ _ _ hnd, add_zero]
  · rw [zero_add]

/-- A row with distinct indices in `[0, N)` writes its whole mass into columns `0 .. N - 1`. -/
theorem sum_rowEntry {N : Nat} :
    ∀ (vals : List α) (nbs : List (Neighbor α)), vals.length = nbs.length →
      (nbs.map Neighbor.index).Nodup → (∀ nb ∈ nbs, 0 ≤ nb.index ∧ nb.index < N) →
      ∑ c ∈ Finset.range N, rowEntry c vals nbs 0 = vals.sum
  | [], [], _, _, _ => by simp [rowEntry]
  | v :: vals, nb :: nbs, hl, hnd, hidx => by
    simp only [List.map_cons, List.nodup_cons, List.mem_map, not_exists, not_and] at hnd
    obtain ⟨h0, hN⟩ := hidx nb (List.mem_cons_self _ _)
    have hcol : ∀ c : Nat, (nb.index = c) = (nb.index.toNat = c) := fun c => by
      apply propext; omega
    simp only [rowEntry_cons (fun nb' h e => hnd.1 nb' h e), Finset.sum_add_distrib, hcol,
      Finset.sum_ite_eq, Finset.mem_range, List.sum_cons]
    rw [if_pos (by omega), sum_rowEntry vals nbs (by simpa using hl) hnd.2
      (fun nb' h => hidx nb' (List.mem_cons_of_mem _ h))]

/-! ## The entries of `P` -/

section
variable {nearest : List (List (Neighbor α))} {Htarget tol : α}

theorem written_nonneg (r c : Nat) : 0 ≤ written m nearest Htarget tol r c := by
  by_cases h : ∃ nb ∈ nearest.getD r [], nb.index = c
  · exact (finalRow_pos m (rowEntry_mem _ _ _ (length_finalRow m _ _ _ _) h)).le
  · push_neg at h
    rw [written, rowEntry_of_forall_ne _ _ _ h]

theorem written_pos_iff (r c : Nat) :
    0 < written m nearest Htarget tol r c ↔ ∃ nb ∈ nearest.getD r [], nb.index = c := by
  refine ⟨fun hpos => ?_, fun h => finalRow_pos m (rowEntry_mem _ _ _ (length_finalRow m _ _ _ _) h)⟩
  by_contra h
  push_neg at h
  rw [written, rowEntry_of_forall_ne _ _ _ h] at hpos
  exact lt_irrefl _ hpos

/-- A nonempty row with distinct indices in `[0, N)` sums to one. -/
theorem sum_written {N r : Nat} (hne : nearest.getD r [] ≠ [])
    (hnd : ((nearest.getD r []).map Neighbor.index).Nodup)
    (hidx : ∀ nb ∈ nearest.getD r [], 0 ≤ nb.index ∧ nb.index < N) :
    ∑ c ∈ Finset.range N, written m nearest Htarget tol r c = 1 := by
  simp only [written]
  rw [sum_rowEntry _ _ (length_finalRow m _ _ _ _) hnd hidx, finalRow_sum m _ _ hne]

theorem jointP_comm (a b : Nat) :
    jointP m nearest Htarget tol a b = jointP m nearest Htarget tol b a := by
  unfold jointP
  by_cases h : a = b
  · subst h; rfl
  · rw [if_neg h, if_neg (Ne.symm h), add_comm]

theorem jointP_nonneg (a b : Nat) : 0 ≤ jointP m nearest Htarget tol a b := by
  unfold jointP
  split
  · exact written_nonneg m a a
  · exact div_nonneg (add_nonneg (written_nonneg m a b) (written_nonneg m b a))
      (mul_nonneg (Nat.cast_nonneg _) zero_le_two)

theorem jointP_pos_iff {a b : Nat} (ha : a < nearest.length) (hab : a ≠ b) :
    0 < jointP m nearest Htarget tol a b ↔
      (∃ nb ∈ nearest.getD a [], nb.index = b) ∨ (∃ nb ∈ nearest.getD b [], nb.index = a) := by
  have h1 : 0 ≤ written m nearest Htarget tol a b := written_nonneg m a b
  have h2 : 0 ≤ written m nearest Htarget tol b a := written_nonneg m b a
  have hpa : 0 < written m nearest Htarget tol a b ↔ _ := written_pos_iff m a b
  have hpb : 0 < written m nearest Htarget tol b a ↔ _ := written_pos_iff m b a
  have hN : (0 : α) < nearest.length * 2 := by
    have : (0 : α) < nearest.length := Nat.cast_pos.2 (by omega)
    linarith
  rw [jointP, if_neg hab, div_pos_iff_of_pos_right hN,
    ← hpa, ← hpb]
  constructor
  · intro h
    by_contra hn
    push_neg at hn
    linarith
  · rintro (h | h) <;> linarith

end

/-! ## Symmetry and support -/

/-- **Symmetry and support.** On every table of `N ≥ 1` rows of one length whose indices lie in
`[0, N)`, `nearest2P` returns an array that is symmetric and non-negative, and positive off the
diagonal exactly where one of the two rows names the other. -/
theorem nearest2P_symmetric_support (nearest : List (List (Neighbor α))) (K : Nat)
    (perplexity tol : α) (hN : 1 ≤ nearest.length) (hrect : ∀ row ∈ nearest, row.length = K)
    (hidx : ∀ row ∈ nearest, ∀ nb ∈ row, 0 ≤ nb.index ∧ nb.index < nearest.length) :
    ∃ P, nearest2P m nearest perplexity tol = .ok P ∧
      ∀ i < nearest.length, ∀ j < nearest.length,
        P.getD (i * nearest.length + j) 0 = P.getD (j * nearest.length + i) 0 ∧
        0 ≤ P.getD (i * nearest.length + j) 0 ∧
        (i ≠ j → (0 < P.getD (i * nearest.length + j) 0 ↔
          (∃ nb ∈ nearest.getD i [], nb.index = j) ∨ (∃ nb ∈ nearest.getD j [], nb.index = i))) := by
  obtain ⟨P, hP, -, hget⟩ := nearest2P_spec m perplexity tol
    (List.ne_nil_of_length_pos hN) fun row h => ⟨hrect row h, hidx row h⟩
  refine ⟨P, hP, fun i hi j hj => ?_⟩
  rw [hget i hi j hj, hget j hj i hi]
  exact ⟨jointP_comm m i j, jointP_nonneg m i j, fun hij => jointP_pos_iff m hi hij⟩

/-- The two-point table where each row names the other, over `ℚ` with every `Math` function the
identity. -/
theorem nearest2P_symmetric_support_pair :
    ∃ P, nearest2P (⟨id, id, id⟩ : JsMath ℚ) [[⟨1, 1⟩], [⟨0, 1⟩]] 30 (1 / 10000) = .ok P ∧
      ∀ i < 2, ∀ j < 2, P.getD (i * 2 + j) 0 = P.getD (j * 2 + i) 0 ∧ 0 ≤ P.getD (i * 2 + j) 0 ∧
        (i ≠ j → (0 < P.getD (i * 2 + j) 0 ↔
          (∃ nb ∈ ([[⟨1, 1⟩], [⟨0, 1⟩]] : List (List (Neighbor ℚ))).getD i [], nb.index = j) ∨
            (∃ nb ∈ ([[⟨1, 1⟩], [⟨0, 1⟩]] : List (List (Neighbor ℚ))).getD j [], nb.index = i))) :=
  nearest2P_symmetric_support _ _ 1 _ _ (by simp) (by simp) (by simp)

/-! ## Mass -/

/-- Entry `(a, b)` as a symmetric part plus a diagonal correction. -/
theorem jointP_split {nearest : List (List (Neighbor α))} {Htarget tol : α} (hN : 0 < nearest.length)
    (a b : Nat) : jointP m nearest Htarget tol a b =
      (written m nearest Htarget tol a b + written m nearest Htarget tol b a) / (nearest.length * 2 : α)
        + if a = b then (1 - 1 / (nearest.length : α)) * written m nearest Htarget tol a a else 0 := by
  have : (nearest.length : α) ≠ 0 := Nat.cast_ne_zero.2 hN.ne'
  unfold jointP
  split_ifs with h
  · subst h; field_simp; ring
  · rw [add_zero]

/-- **Mass.** On a nonempty table whose rows share one length `K ≥ 1` and have distinct indices
in `[0, N)`, the mass of `P` is `1 + (1 - 1/N) · Σᵢ P[i·N+i]`. -/
theorem nearest2P_mass (nearest : List (List (Neighbor α))) (K : Nat) (perplexity tol : α)
    (hN : 1 ≤ nearest.length) (hK : 1 ≤ K) (hrect : ∀ row ∈ nearest, row.length = K)
    (hidx : ∀ row ∈ nearest, ∀ nb ∈ row, 0 ≤ nb.index ∧ nb.index < nearest.length)
    (hnd : ∀ row ∈ nearest, (row.map Neighbor.index).Nodup) :
    ∃ P, nearest2P m nearest perplexity tol = .ok P ∧
      P.sum = 1 + (1 - 1 / (nearest.length : α)) *
        ∑ i ∈ Finset.range nearest.length, P.getD (i * nearest.length + i) 0 := by
  set N := nearest.length
  obtain ⟨P, hP, hlen, hget⟩ := nearest2P_spec m perplexity tol
    (List.ne_nil_of_length_pos hN) fun row h => ⟨hrect row h, hidx row h⟩
  set W := written m nearest (m.log perplexity) tol
  have hrow : ∀ a ∈ Finset.range N, ∑ b ∈ Finset.range N, W a b = 1 := by
    intro a ha
    have hmem : nearest.getD a [] ∈ nearest := getD_mem _ (Finset.mem_range.1 ha)
    refine sum_written m ?_ (hnd _ hmem) (hidx _ hmem)
    rw [← List.length_pos, hrect _ hmem]; omega
  have hN' : (N : α) ≠ 0 := Nat.cast_ne_zero.2 (by omega)
  have hdiag : ∀ i ∈ Finset.range N, P.getD (i * N + i) 0 = W i i := fun i hi => by
    rw [hget i (Finset.mem_range.1 hi) i (Finset.mem_range.1 hi), jointP, if_pos rfl]
  refine ⟨P, hP, ?_⟩
  rw [Finset.sum_congr rfl hdiag, sum_eq_sum_rows P hlen]
  calc ∑ a ∈ Finset.range N, ∑ b ∈ Finset.range N, P.getD (a * N + b) 0
      = ∑ a ∈ Finset.range N, (∑ b ∈ Finset.range N, (W a b + W b a) / (N * 2 : α)
          + (1 - 1 / (N : α)) * W a a) := by
        refine Finset.sum_congr rfl fun a ha => ?_
        rw [Finset.sum_congr rfl fun b hb => (hget a (Finset.mem_range.1 ha) b
          (Finset.mem_range.1 hb)).trans (jointP_split m (by omega) a b),
          Finset.sum_add_distrib, Finset.sum_ite_eq, if_pos ha]
    _ = (∑ a ∈ Finset.range N, ∑ b ∈ Finset.range N, W a b
          + ∑ a ∈ Finset.range N, ∑ b ∈ Finset.range N, W b a) / (N * 2 : α)
        + (1 - 1 / (N : α)) * ∑ a ∈ Finset.range N, W a a := by
        simp only [add_div, Finset.sum_add_distrib, Finset.sum_div, Finset.mul_sum]
    _ = 1 + (1 - 1 / (N : α)) * ∑ a ∈ Finset.range N, W a a := by
        rw [Finset.sum_congr rfl hrow, Finset.sum_comm, Finset.sum_congr rfl hrow]
        simp only [Finset.sum_const, Finset.card_range, nsmul_eq_mul, mul_one]
        congr 1
        field_simp
        ring

/-- The diagonal of `P` is what row `i` wrote at its own index. -/
theorem nearest2P_diag_pos_iff {nearest : List (List (Neighbor α))} {K : Nat} {perplexity tol : α}
    {P : List α} (hP : nearest2P m nearest perplexity tol = .ok P) (hN : 1 ≤ nearest.length)
    (hrect : ∀ row ∈ nearest, row.length = K)
    (hidx : ∀ row ∈ nearest, ∀ nb ∈ row, 0 ≤ nb.index ∧ nb.index < nearest.length)
    {i : Nat} (hi : i < nearest.length) :
    0 ≤ P.getD (i * nearest.length + i) 0 ∧
      (0 < P.getD (i * nearest.length + i) 0 ↔ ∃ nb ∈ nearest.getD i [], nb.index = i) := by
  obtain ⟨P', hP', -, hget⟩ := nearest2P_spec m perplexity tol
    (List.ne_nil_of_length_pos hN) fun row h => ⟨hrect row h, hidx row h⟩
  obtain rfl : P = P' := Except.ok.inj (hP.symm.trans hP')
  rw [hget i hi i hi, jointP, if_pos rfl]
  exact ⟨written_nonneg m i i, written_pos_iff m i i⟩

/-- When no row names its own index, the diagonal of `P` is zero and its mass is one. -/
theorem nearest2P_mass_of_no_self (nearest : List (List (Neighbor α))) (K : Nat) (perplexity tol : α)
    (hN : 1 ≤ nearest.length) (hK : 1 ≤ K) (hrect : ∀ row ∈ nearest, row.length = K)
    (hidx : ∀ row ∈ nearest, ∀ nb ∈ row, 0 ≤ nb.index ∧ nb.index < nearest.length)
    (hnd : ∀ row ∈ nearest, (row.map Neighbor.index).Nodup)
    (hself : ∀ i < nearest.length, ∀ nb ∈ nearest.getD i [], nb.index ≠ i) :
    ∃ P, nearest2P m nearest perplexity tol = .ok P ∧
      (∀ i < nearest.length, P.getD (i * nearest.length + i) 0 = 0) ∧ P.sum = 1 := by
  obtain ⟨P, hP, hsum⟩ := nearest2P_mass m nearest K perplexity tol hN hK hrect hidx hnd
  have hdiag : ∀ i < nearest.length, P.getD (i * nearest.length + i) 0 = 0 := fun i hi => by
    obtain ⟨h0, hpos⟩ := nearest2P_diag_pos_iff m hP hN hrect hidx hi
    refine le_antisymm (not_lt.1 fun h => ?_) h0
    obtain ⟨nb, hnb, he⟩ := hpos.1 h
    exact hself i hi nb hnb he
  refine ⟨P, hP, hdiag, ?_⟩
  rw [hsum, Finset.sum_eq_zero fun i hi => hdiag i (Finset.mem_range.1 hi), mul_zero, add_zero]

/-- Each row of `[[{0, 0}, {1, 1}], [{1, 0}, {0, 1}]]` names its own index: the diagonal of `P` is
positive and its mass exceeds one, whatever `Math.exp`, `Math.log`, perplexity and tolerance. -/
theorem nearest2P_self_rows_diag_mass (perplexity tol : α) :
    ∃ P, nearest2P m [[⟨0, 0⟩, ⟨1, 1⟩], [⟨1, 0⟩, ⟨0, 1⟩]] perplexity tol = .ok P ∧
      0 < P.getD 0 0 ∧ 1 < P.sum := by
  have hrect : ∀ row ∈ ([[⟨0, 0⟩, ⟨1, 1⟩], [⟨1, 0⟩, ⟨0, 1⟩]] : List (List (Neighbor α))),
      row.length = 2 := by simp
  have hidx : ∀ row ∈ ([[⟨0, 0⟩, ⟨1, 1⟩], [⟨1, 0⟩, ⟨0, 1⟩]] : List (List (Neighbor α))),
      ∀ nb ∈ row, 0 ≤ nb.index ∧ nb.index < 2 := by simp
  obtain ⟨P, hP, hsum⟩ := nearest2P_mass m _ 2 perplexity tol (by simp) (by simp) hrect hidx
    (by simp)
  have h0 := (nearest2P_diag_pos_iff m hP (by simp) hrect hidx (i := 0) (by simp)).2.2
    ⟨_, List.mem_cons_self _ _, rfl⟩
  have h1 := (nearest2P_diag_pos_iff m hP (by simp) hrect hidx (i := 1) (by simp)).2.2
    ⟨_, List.mem_cons_self _ _, rfl⟩
  refine ⟨P, hP, by simpa using h0, ?_⟩
  rw [hsum]
  simp only [List.length_cons, List.length_nil, Finset.sum_range_succ, Finset.sum_range_zero]
  norm_num at h0 h1 ⊢
  linarith

end BarnesHutTsne
