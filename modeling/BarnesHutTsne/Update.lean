import BarnesHutTsne.Engine

/-!
# The update loop and the re-centring of `step`, in closed form

On arrays of the shape `initSolution` gives them (`Y` of `N·dim` entries, `gains` and `ystep`
of `N` rows of `dim`), the update loop visits every entry `(i, d)` once, in order. Each visit
reads only entry `(i, d)` of `gains` and `ystep`, which no earlier visit wrote, and writes only
that entry and `Y[i*dim+d]`. So after the loop (`update_spec`)

* `gains[i][d]` and `ystep[i][d]` are the new gain and step computed from the old entries;
* `Y[i*dim+d]` has moved by the new step;
* `ymean[d]` is the sum over the points of the moved coordinate `d`;

and the re-centring subtracts `ymean[d] / N` from every coordinate `d` (`recentre_spec`).

The proof follows the loop: `Progress r k` describes the arrays when the loop is at entry
`(r, k)`, one visit moves it to `(r, k + 1)`, and the end of a row to `(r + 1, 0)`.
-/

namespace BarnesHutTsne

variable {α : Type} [LinearOrderedField α]

/-! ## Reading back a write -/

/-- An array of `N` rows of `dim` entries. -/
def Grid (N dim : Nat) (g : List (List α)) : Prop :=
  g.length = N ∧ ∀ i < N, (g.getD i []).length = dim

theorem gridGet_gridSet {N dim : Nat} {g : List (List α)} (hg : Grid N dim g) {i d : Nat}
    (hi : i < N) (hd : d < dim) (v : α) (i' d' : Nat) :
    gridGet (gridSet g i d v) i' d' = if i' = i ∧ d' = d then v else gridGet g i' d' := by
  unfold gridGet gridSet
  by_cases h1 : i' = i
  · subst h1
    rw [getD_set_self _ _ _ (hg.1 ▸ hi)]
    by_cases h2 : d' = d
    · subst h2
      rw [if_pos ⟨rfl, rfl⟩, getD_set_self _ _ _ ((hg.2 i' hi).symm ▸ hd)]
    · rw [if_neg fun h => h2 h.2, getD_set_of_ne _ _ _ (Ne.symm h2)]
  · rw [if_neg fun h => h1 h.1, getD_set_of_ne _ _ _ (Ne.symm h1)]

omit [LinearOrderedField α] in
theorem Grid.set {N dim : Nat} {g : List (List α)} (hg : Grid N dim g) {i d : Nat} (hi : i < N)
    (v : α) : Grid N dim (gridSet g i d v) := by
  refine ⟨by rw [length_gridSet, hg.1], fun i' hi' => ?_⟩
  unfold gridSet
  by_cases h : i = i'
  · subst h; rw [getD_set_self _ _ _ (hg.1 ▸ hi), List.length_set, hg.2 i hi]
  · rw [getD_set_of_ne _ _ _ h, hg.2 i' hi']

/-- Two entries `(i, d)` and `(i', d')` with `d, d' < dim` sit at different places of `Y`. -/
theorem index_ne {dim i d i' d' : Nat} (hd : d < dim) (hd' : d' < dim) (h : ¬(i' = i ∧ d' = d)) :
    i' * dim + d' ≠ i * dim + d :=
  fun heq => h (index_inj hd' hd heq)

/-! ## The update loop -/

section
variable (iter : Nat) (epsilon : α) (dim N : Nat) (grad : List (Vec α)) (x0 : Arrays α)

/-- The gain the loop gives entry `(i, d)`, from the arrays it starts on. -/
def gainAt (i d : Nat) : α :=
  newGain ((grad.getD i 0) d) (gridGet x0.ystep i d) (gridGet x0.gains i d)

/-- The momentum step the loop gives entry `(i, d)`. -/
def stepAt (i d : Nat) : α :=
  newStep iter epsilon ((grad.getD i 0) d) (gridGet x0.ystep i d) (gainAt grad x0 i d)

/-- Entry `(i, d)` comes before entry `(r, k)` in the loop's order. -/
def Before (r k i d : Nat) : Prop := i < r ∨ (i = r ∧ d < k)

instance (r k i d : Nat) : Decidable (Before r k i d) := inferInstanceAs (Decidable (_ ∨ _))

/-- The arrays when the loop is at entry `(r, k)`: the entries before it hold their new values
and the others their old ones, and `ymean[d]` adds up the coordinates `d` moved so far. -/
structure Progress (r k : Nat) (x : Arrays α) : Prop where
  Y_length : x.Y.length = N * dim
  gains_grid : Grid N dim x.gains
  ystep_grid : Grid N dim x.ystep
  gains : ∀ i < N, ∀ d < dim, gridGet x.gains i d =
    if Before r k i d then gainAt grad x0 i d else gridGet x0.gains i d
  ystep : ∀ i < N, ∀ d < dim, gridGet x.ystep i d =
    if Before r k i d then stepAt iter epsilon grad x0 i d else gridGet x0.ystep i d
  Y : ∀ i < N, ∀ d < dim, x.Y.getD (i * dim + d) 0 =
    x0.Y.getD (i * dim + d) 0 + if Before r k i d then stepAt iter epsilon grad x0 i d else 0
  ymean : ∀ d < dim, x.ymean d = ∑ i ∈ Finset.range r, x.Y.getD (i * dim + d) 0 +
    if d < k then x.Y.getD (r * dim + d) 0 else 0

variable {iter epsilon dim N grad x0}

theorem before_succ {r k i d : Nat} : Before r (k + 1) i d ↔ Before r k i d ∨ (i = r ∧ d = k) := by
  simp only [Before]; omega

theorem before_next_row {r i d : Nat} (hd : d < dim) : Before r dim i d ↔ Before (r + 1) 0 i d := by
  simp only [Before]; omega

/-- Writing the new value of entry `(r, k)` into a grid holding the new values before `(r, k)`
and the old ones elsewhere leaves the new values before `(r, k + 1)`. -/
theorem gridGet_gridSet_before {g : List (List α)} (hg : Grid N dim g) {r k : Nat} (hr : r < N)
    (hk : k < dim) {new old : Nat → Nat → α} {i d : Nat}
    (h : gridGet g i d = if Before r k i d then new i d else old i d) :
    gridGet (gridSet g r k (new r k)) i d = if Before r (k + 1) i d then new i d else old i d := by
  rw [gridGet_gridSet hg hr hk, h]
  by_cases hik : i = r ∧ d = k
  · obtain ⟨rfl, rfl⟩ := hik; simp [Before]
  · simp only [before_succ, hik, or_false, if_false]

/-- One visit moves the loop from `(r, k)` to `(r, k + 1)`. -/
theorem Progress.entry {r k : Nat} {x : Arrays α} (hp : Progress iter epsilon dim N grad x0 r k x)
    (hr : r < N) (hk : k < dim) :
    Progress iter epsilon dim N grad x0 r (k + 1) (x.entry iter epsilon dim grad r k) := by
  have hnot : ¬Before r k r k := by simp [Before]
  have hgain : newGain ((grad.getD r 0) k) (gridGet x.ystep r k) (gridGet x.gains r k) =
      gainAt grad x0 r k := by
    rw [hp.gains r hr k hk, hp.ystep r hr k hk, if_neg hnot, if_neg hnot]; rfl
  have hstep : newStep iter epsilon ((grad.getD r 0) k) (gridGet x.ystep r k)
      (gainAt grad x0 r k) = stepAt iter epsilon grad x0 r k := by
    rw [hp.ystep r hr k hk, if_neg hnot]; rfl
  have hidx : r * dim + k < x.Y.length := by
    rw [hp.Y_length]; nlinarith
  -- what the visit leaves at each place of `Y`
  have hY : ∀ i < N, ∀ d < dim, (x.entry iter epsilon dim grad r k).Y.getD (i * dim + d) 0 =
      if i = r ∧ d = k then x.Y.getD (r * dim + k) 0 + stepAt iter epsilon grad x0 r k
      else x.Y.getD (i * dim + d) 0 := by
    intro i _ d hd
    simp only [Arrays.entry, readAt_natCast, writeAt_natCast, hgain, hstep]
    split
    · rename_i h; obtain ⟨rfl, rfl⟩ := h; exact getD_set_self _ _ _ hidx
    · rename_i h; exact getD_set_of_ne _ _ _ (index_ne hk hd h).symm
  refine ⟨?_, hp.gains_grid.set hr _, hp.ystep_grid.set hr _, fun i hi d hd => ?_,
    fun i hi d hd => ?_, fun i hi d hd => ?_, fun d hd => ?_⟩
  · simp [Arrays.entry, hp.Y_length]
  · simp only [Arrays.entry, hgain]
    exact gridGet_gridSet_before hp.gains_grid hr hk (hp.gains i hi d hd)
  · simp only [Arrays.entry, hgain, hstep]
    exact gridGet_gridSet_before hp.ystep_grid hr hk (hp.ystep i hi d hd)
  · rw [hY i hi d hd]
    by_cases h : i = r ∧ d = k
    · obtain ⟨rfl, rfl⟩ := h
      rw [if_pos ⟨rfl, rfl⟩, hp.Y i hi d hd, if_neg hnot, if_pos (by simp [Before])]; ring
    · rw [if_neg h, hp.Y i hi d hd]
      simp only [before_succ, h, or_false]
  · have hsum : ∑ i ∈ Finset.range r, (x.entry iter epsilon dim grad r k).Y.getD (i * dim + d) 0 =
        ∑ i ∈ Finset.range r, x.Y.getD (i * dim + d) 0 :=
      Finset.sum_congr rfl fun i hi => by
        rw [hY i ((Finset.mem_range.1 hi).trans hr) d hd,
          if_neg fun h => (Finset.mem_range.1 hi).ne h.1]
    have hym : (x.entry iter epsilon dim grad r k).ymean d =
        if d = k then x.ymean k + (x.entry iter epsilon dim grad r k).Y.getD (r * dim + k) 0
        else x.ymean d := by
      simp only [Arrays.entry, readAt_natCast]
    rw [hsum, hym, hY r hr d hd]
    by_cases h : d = k
    · subst h
      simp only [hY r hr d hd, hp.ymean d hd, lt_irrefl, Nat.lt_succ_self, if_true, if_false,
        and_self]
      ring
    · simp only [h, hp.ymean d hd, and_false, if_false, show d < k + 1 ↔ d < k by omega]

/-- The end of a row moves the loop from `(r, dim)` to `(r + 1, 0)`. -/
theorem Progress.next_row {r : Nat} {x : Arrays α}
    (hp : Progress iter epsilon dim N grad x0 r dim x) :
    Progress iter epsilon dim N grad x0 (r + 1) 0 x := by
  refine ⟨hp.Y_length, hp.gains_grid, hp.ystep_grid, fun i hi d hd => ?_, fun i hi d hd => ?_,
    fun i hi d hd => ?_, fun d hd => ?_⟩
  · simp only [hp.gains i hi d hd, before_next_row hd]
  · simp only [hp.ystep i hi d hd, before_next_row hd]
  · simp only [hp.Y i hi d hd, before_next_row hd]
  · rw [hp.ymean d hd, if_pos hd, Finset.sum_range_succ, if_neg (Nat.not_lt_zero d), add_zero]

theorem Progress.row {r : Nat} (hr : r < N) : ∀ k ≤ dim, ∀ x : Arrays α,
    Progress iter epsilon dim N grad x0 r 0 x →
      Progress iter epsilon dim N grad x0 r k
        ((List.range k).foldl (fun x d => x.entry iter epsilon dim grad r d) x)
  | 0, _, _, hp => hp
  | k + 1, hk, x, hp => by
    rw [List.range_succ, List.foldl_append, List.foldl_cons, List.foldl_nil]
    exact (Progress.row hr k (by omega) x hp).entry hr (by omega)

theorem Progress.rows (h0 : Progress iter epsilon dim N grad x0 0 0 x0) : ∀ n ≤ N,
    Progress iter epsilon dim N grad x0 n 0 ((List.range n).foldl
      (fun x i => (List.range dim).foldl (fun x d => x.entry iter epsilon dim grad i d) x) x0)
  | 0, _ => h0
  | n + 1, hn => by
    rw [List.range_succ, List.foldl_append, List.foldl_cons, List.foldl_nil]
    exact (Progress.row (by omega) dim le_rfl _ (Progress.rows h0 n (by omega))).next_row

/-- **The update loop in closed form.** -/
theorem update_spec (hY : x0.Y.length = N * dim) (hg : Grid N dim x0.gains)
    (hs : Grid N dim x0.ystep) (hm : ∀ d < dim, x0.ymean d = 0) :
    let x := Arrays.update iter epsilon dim grad N x0
    x.Y.length = N * dim ∧ Grid N dim x.gains ∧ Grid N dim x.ystep ∧
      (∀ i < N, ∀ d < dim, gridGet x.gains i d = gainAt grad x0 i d ∧
        gridGet x.ystep i d = stepAt iter epsilon grad x0 i d ∧
        x.Y.getD (i * dim + d) 0 = x0.Y.getD (i * dim + d) 0 + stepAt iter epsilon grad x0 i d) ∧
      ∀ d < dim, x.ymean d = ∑ i ∈ Finset.range N, x.Y.getD (i * dim + d) 0 := by
  have h0 : Progress iter epsilon dim N grad x0 0 0 x0 :=
    ⟨hY, hg, hs, fun i _ d _ => by simp [Before], fun i _ d _ => by simp [Before],
      fun i _ d _ => by simp [Before], fun d hd => by simp [hm d hd]⟩
  have hp : Progress iter epsilon dim N grad x0 N 0 (Arrays.update iter epsilon dim grad N x0) :=
    Progress.rows h0 N le_rfl
  have hb : ∀ i < N, ∀ d, Before N 0 i d := fun i hi d => Or.inl hi
  refine ⟨hp.Y_length, hp.gains_grid, hp.ystep_grid, fun i hi d hd => ?_, fun d hd => ?_⟩
  · rw [hp.gains i hi d hd, hp.ystep i hi d hd, hp.Y i hi d hd, if_pos (hb i hi d),
      if_pos (hb i hi d), if_pos (hb i hi d)]
    exact ⟨rfl, rfl, rfl⟩
  · rw [hp.ymean d hd, if_neg (Nat.not_lt_zero d), add_zero]

end

/-! ## The re-centring -/

section
variable (N dim : Nat) (ymean : Vec α) (Y : List α)

/-- The re-centring at entry `(r, k)`: the entries before it have moved by `-ymean[d] / N`. -/
def Recentred (r k : Nat) (Y' : List α) : Prop :=
  Y'.length = Y.length ∧ ∀ i < N, ∀ d < dim,
    Y'.getD (i * dim + d) 0 = Y.getD (i * dim + d) 0 - if Before r k i d then ymean d / N else 0

variable {N dim ymean Y}

theorem Recentred.entry {r k : Nat} {Y' : List α} (hY : Y.length = N * dim)
    (hp : Recentred N dim ymean Y r k Y') (hr : r < N) (hk : k < dim) :
    Recentred N dim ymean Y r (k + 1)
      (writeAt Y' (r * dim + k : Nat) (readAt Y' (r * dim + k : Nat) - ymean k / N)) := by
  have hidx : r * dim + k < Y'.length := by rw [hp.1, hY]; nlinarith
  refine ⟨by simp [hp.1], fun i hi d hd => ?_⟩
  simp only [readAt_natCast, writeAt_natCast]
  by_cases h : i = r ∧ d = k
  · obtain ⟨rfl, rfl⟩ := h
    rw [getD_set_self _ _ _ hidx, hp.2 i hi d hd, if_neg (by simp [Before]),
      if_pos (by simp [Before])]
    ring
  · rw [getD_set_of_ne _ _ _ (index_ne hk hd h).symm, hp.2 i hi d hd]
    simp only [before_succ, h, or_false]

theorem Recentred.next_row {r : Nat} {Y' : List α} (hp : Recentred N dim ymean Y r dim Y') :
    Recentred N dim ymean Y (r + 1) 0 Y' := by
  refine ⟨hp.1, fun i hi d hd => ?_⟩
  simp only [hp.2 i hi d hd, before_next_row hd]

theorem Recentred.row (hY : Y.length = N * dim) {r : Nat} (hr : r < N) : ∀ k ≤ dim, ∀ Y' : List α,
    Recentred N dim ymean Y r 0 Y' →
      Recentred N dim ymean Y r k ((List.range k).foldl (fun Y (d : Nat) =>
        writeAt Y (r * dim + d : Nat) (readAt Y (r * dim + d : Nat) - ymean d / N)) Y')
  | 0, _, _, hp => hp
  | k + 1, hk, Y', hp => by
    rw [List.range_succ, List.foldl_append, List.foldl_cons, List.foldl_nil]
    exact (Recentred.row hY hr k (by omega) Y' hp).entry hY hr (by omega)

theorem Recentred.rows (hY : Y.length = N * dim) : ∀ n ≤ N,
    Recentred N dim ymean Y n 0 ((List.range n).foldl (fun Y (i : Nat) =>
      (List.range dim).foldl (fun Y (d : Nat) =>
        writeAt Y (i * dim + d : Nat) (readAt Y (i * dim + d : Nat) - ymean d / N)) Y) Y)
  | 0, _ => ⟨rfl, fun i _ d _ => by simp [Before]⟩
  | n + 1, hn => by
    rw [List.range_succ, List.foldl_append, List.foldl_cons, List.foldl_nil]
    exact (Recentred.row hY (by omega) dim le_rfl _ (Recentred.rows hY n (by omega))).next_row

/-- **The re-centring in closed form**: every coordinate `d` of every point moves by
`-ymean[d] / N`. -/
theorem recentre_spec (hY : Y.length = N * dim) :
    (recentre N dim ymean Y).length = Y.length ∧ ∀ i < N, ∀ d < dim,
      (recentre N dim ymean Y).getD (i * dim + d) 0 = Y.getD (i * dim + d) 0 - ymean d / N := by
  have hp : Recentred N dim ymean Y N 0 (recentre N dim ymean Y) := Recentred.rows hY N le_rfl
  exact ⟨hp.1, fun i hi d hd => by rw [hp.2 i hi d hd, if_pos (show Before N 0 i d from Or.inl hi)]⟩

/-- When `ymean` holds the column sums, the re-centred columns sum to zero. -/
theorem sum_recentre (hN : 0 < N) (hY : Y.length = N * dim) {d : Nat} (hd : d < dim)
    (hym : ymean d = ∑ i ∈ Finset.range N, Y.getD (i * dim + d) 0) :
    ∑ i ∈ Finset.range N, (recentre N dim ymean Y).getD (i * dim + d) 0 = 0 := by
  rw [Finset.sum_congr rfl fun i hi => (recentre_spec hY).2 i (Finset.mem_range.1 hi) d hd,
    Finset.sum_sub_distrib, ← hym, Finset.sum_const, Finset.card_range, nsmul_eq_mul]
  have : (N : α) ≠ 0 := by exact_mod_cast hN.ne'
  field_simp

end

end BarnesHutTsne
