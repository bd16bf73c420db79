import BarnesHutTsne.Nearest2P

/-!
# The perplexity search is a bisection

For each row, `nearest2P` searches the precision `beta` by trials: a trial at `beta`, then
`adjust` moves the bracket `[betaMin, betaMax]` by the trial's entropy, and the loop stops at the
first trial within `tol` of the target or after `maxTries` trials.

* `brackets` is the sequence of brackets the search passes through, for any entropies, and
  `BracketInv` says what a bracket means after the trials made so far: every precision tried is
  positive, `betaMin` is the largest one whose entropy was above the target (`-Infinity` when
  none was), `betaMax` the smallest one whose entropy was not (`Infinity` when none was), and the
  next precision lies strictly between them (`brackets_inv`, from `bracketInv_init` and
  `bracketInv_adjust`). No monotonicity of the entropy is assumed: the bracket records what the
  trials saw, whatever the entropy does between them.
* `search_eq_brackets`: the row the search leaves is the kernel row at the precision of the first
  bracket whose trial lands within `tol`, or of the last bracket allowed.
* `search_bisects` puts the two together for the search of every row, and
  `finalRow_antitone_dist` reads off from them that the row never gives a nearer neighbour less
  than a farther one.
-/

namespace BarnesHutTsne

variable {α : Type} [LinearOrderedField α]

/-! ## The brackets of a search -/

section
variable (H : α → α) (Htarget : α)

/-- The brackets a search passes through from `b`, each adjusted by the entropy `H` of the trial
at its own precision. -/
def brackets (b : Bracket α) : Nat → Bracket α
  | 0 => b
  | k + 1 => adjust (H (brackets b k).beta) Htarget (brackets b k)

/-- The precisions of the first `k` trials. -/
def tried (b : Bracket α) (k : Nat) : List α :=
  (List.range k).map fun j => (brackets H Htarget b j).beta

theorem tried_succ (b : Bracket α) (k : Nat) :
    tried H Htarget b (k + 1) = tried H Htarget b k ++ [(brackets H Htarget b k).beta] := by
  simp [tried, List.range_succ]

theorem brackets_adjust (b : Bracket α) :
    ∀ k, brackets H Htarget (adjust (H b.beta) Htarget b) k = brackets H Htarget b (k + 1)
  | 0 => rfl
  | k + 1 => by rw [brackets, brackets_adjust b k]; rfl

end

/-! ## What a bracket means -/

/-- A bound after the trials `tried`, over the precisions `sel` picks: `none` when it picks none
of them, and otherwise one it picks to which every one it picks is `r`-related. -/
def Extreme (sel : α → Prop) (r : α → α → Prop) (tried : List α) : Option α → Prop
  | none => ∀ β ∈ tried, ¬sel β
  | some e => e ∈ tried ∧ sel e ∧ ∀ β ∈ tried, sel β → r β e

section
variable {sel : α → Prop} {r : α → α → Prop} {tried : List α} {x : Option α} {β : α}

omit [LinearOrderedField α] in
/-- A trial `sel` does not pick leaves the bound alone. -/
theorem Extreme.push_of_not (h : Extreme sel r tried x) (hβ : ¬sel β) :
    Extreme sel r (tried ++ [β]) x := by
  have hpush : ∀ β' ∈ tried ++ [β], sel β' → β' ∈ tried := fun β' hβ' hs =>
    (List.mem_append.1 hβ').resolve_right fun h1 => hβ (List.eq_of_mem_singleton h1 ▸ hs)
  cases x with
  | none => exact fun β' hβ' hs => h β' (hpush β' hβ' hs) hs
  | some e =>
    obtain ⟨he, hsel, hr⟩ := h
    exact ⟨List.mem_append_left _ he, hsel, fun β' hβ' hs => hr β' (hpush β' hβ' hs) hs⟩

omit [LinearOrderedField α] in
/-- A trial `sel` picks, beyond the old bound, is the new bound. -/
theorem Extreme.push_of_sel (h : Extreme sel r tried x) (hβ : sel β) (hrefl : r β β)
    (hbeyond : ∀ e ∈ x, ∀ β', r β' e → r β' β) : Extreme sel r (tried ++ [β]) (some β) := by
  refine ⟨List.mem_append_right _ (List.mem_singleton_self _), hβ, fun β' hβ' hs => ?_⟩
  rcases List.mem_append.1 hβ' with hβ' | hβ'
  · cases x with
    | none => exact absurd hs (h β' hβ')
    | some e => exact hbeyond e rfl β' (h.2.2 β' hβ' hs)
  · exact List.eq_of_mem_singleton hβ' ▸ hrefl

end

section
variable (H : α → α) (Htarget : α)

/-- The bracket `b` after the trials `tried`. -/
structure BracketInv (tried : List α) (b : Bracket α) : Prop where
  /-- Every precision tried, and the next one, is positive. -/
  pos : ∀ β ∈ b.beta :: tried, 0 < β
  /-- `betaMin` is the largest precision tried whose entropy was above the target. -/
  low : Extreme (fun β => H β > Htarget) (· ≤ ·) tried b.betaMin
  /-- `betaMax` is the smallest precision tried whose entropy was not above the target. -/
  high : Extreme (fun β => ¬H β > Htarget) (· ≥ ·) tried b.betaMax
  /-- The next precision lies above `betaMin`. -/
  above_low : ∀ lo ∈ b.betaMin, lo < b.beta
  /-- The next precision lies below `betaMax`. -/
  below_high : ∀ hi ∈ b.betaMax, b.beta < hi

/-- The search starts at `beta = 1` with the bracket open on both sides. -/
theorem bracketInv_init : BracketInv H Htarget [] ⟨1, none, none⟩ :=
  ⟨by simp, by simp [Extreme], by simp [Extreme], by simp, by simp⟩

variable {H Htarget}

/-- **One trial keeps the bracket.** Above the target `beta` becomes the new `betaMin` and the
next precision doubles or bisects towards `betaMax`; otherwise `beta` becomes the new `betaMax`
and the next precision halves or bisects towards `betaMin`. -/
theorem bracketInv_adjust {tried : List α} {b : Bracket α} (h : BracketInv H Htarget tried b) :
    BracketInv H Htarget (tried ++ [b.beta]) (adjust (H b.beta) Htarget b) := by
  obtain ⟨beta, betaMin, betaMax⟩ := b
  obtain ⟨hβ, htried⟩ := List.forall_mem_cons.1 h.pos
  have hpush : ∀ β ∈ tried ++ [beta], 0 < β := fun β hβ' =>
    (List.mem_append.1 hβ').elim (htried β) fun h1 => List.eq_of_mem_singleton h1 ▸ hβ
  by_cases hH : H beta > Htarget
  · -- too diffuse: `beta` is the new `betaMin`, and the next precision lies above it
    have hlow := h.low.push_of_sel hH le_rfl fun lo hlo β' h' => h'.trans (h.above_low lo hlo).le
    have hhigh := h.high.push_of_not (not_not.2 hH)
    rw [adjust, if_pos hH]
    cases betaMax with
    | none =>
      exact ⟨List.forall_mem_cons.2 ⟨by dsimp only; linarith, hpush⟩, hlow, hhigh,
        fun lo hlo => by cases hlo; dsimp only; linarith, fun _ hhi => absurd hhi (Option.not_mem_none _)⟩
    | some hi =>
      have hhi : beta < hi := h.below_high hi rfl
      exact ⟨List.forall_mem_cons.2 ⟨by dsimp only; linarith, hpush⟩, hlow, hhigh,
        fun lo hlo => by cases hlo; dsimp only; linarith,
        fun hi' hhi' => by cases hhi'; dsimp only; linarith⟩
  · -- too peaked: `beta` is the new `betaMax`, and the next precision lies below it
    have hlow := h.low.push_of_not hH
    have hhigh := h.high.push_of_sel hH (le_refl beta)
      fun hi hhi β' h' => le_trans (h.below_high hi hhi).le h'
    rw [adjust, if_neg hH]
    cases betaMin with
    | none =>
      exact ⟨List.forall_mem_cons.2 ⟨by dsimp only; linarith, hpush⟩, hlow, hhigh,
        fun _ hlo => absurd hlo (Option.not_mem_none _), fun hi hhi => by cases hhi; dsimp only; linarith⟩
    | some lo =>
      have hlo : lo < beta := h.above_low lo rfl
      have hlo0 : 0 < lo := htried lo h.low.1
      exact ⟨List.forall_mem_cons.2 ⟨by dsimp only; linarith, hpush⟩, hlow, hhigh,
        fun lo' hlo' => by cases hlo'; dsimp only; linarith,
        fun hi hhi => by cases hhi; dsimp only; linarith⟩

/-- Every bracket of a search from a meaningful bracket is meaningful. -/
theorem brackets_inv {b : Bracket α} (h0 : BracketInv H Htarget [] b) :
    ∀ k, BracketInv H Htarget (tried H Htarget b k) (brackets H Htarget b k)
  | 0 => h0
  | k + 1 => by rw [tried_succ]; exact bracketInv_adjust (brackets_inv h0 k)

end

/-! ## Where the search stops -/

section
variable (m : JsMath α)

/-- The entropy `Hhere` of a trial at `beta` on a `pRow` of the row's own length. -/
def rowEntropy (i : Nat) (neighbors : List (Neighbor α)) (beta : α) : α :=
  entropy m (kernelRow m i neighbors beta)

/-- The search leaves the kernel row at the first bracket whose trial lands within `tol`, or at
the last bracket it is allowed. -/
theorem search_eq_brackets {i : Nat} {neighbors : List (Neighbor α)} {Htarget tol : α} :
    ∀ (rest : Nat) (b : Bracket α) {pRow : List α}, pRow.length = neighbors.length →
      ∃ n ≤ rest, search m i neighbors Htarget tol rest b pRow =
          kernelRow m i neighbors (brackets (rowEntropy m i neighbors) Htarget b n).beta ∧
        (∀ j < n, ¬|rowEntropy m i neighbors
          (brackets (rowEntropy m i neighbors) Htarget b j).beta - Htarget| < tol) ∧
        (n < rest →
          |rowEntropy m i neighbors (brackets (rowEntropy m i neighbors) Htarget b n).beta -
            Htarget| < tol)
  | 0, b, _, h => ⟨0, le_rfl, trial_fst m _ h, by simp, by simp⟩
  | rest + 1, b, _, h => by
    simp only [search, trial_fst m _ h, trial_snd m _ h]
    split
    · exact ⟨0, Nat.zero_le _, rfl, by simp, fun _ => ‹_›⟩
    · rename_i hmiss₀
      obtain ⟨n, hn, hs, hmiss, hhit⟩ :=
        search_eq_brackets rest (adjust (rowEntropy m i neighbors b.beta) Htarget b)
          (length_kernelRow m i neighbors b.beta)
      rw [brackets_adjust] at hs
      refine ⟨n + 1, by omega, hs, fun j hj => ?_, fun hlt => ?_⟩
      · cases j with
        | zero => exact hmiss₀
        | succ j => simpa only [brackets_adjust] using hmiss j (by omega)
      · simpa only [brackets_adjust] using hhit (by omega)

/-- **The perplexity search of a row is a bisection.** Every bracket the search of row `i`
passes through means what `BracketInv` says, and from any `pRow` of the row's length (the zeros
of the first row, or the row an earlier row left) the search leaves the kernel row at the
precision of the first trial within `tol` of the target, or of the `maxTries`-th trial. -/
theorem search_bisects (i : Nat) (neighbors : List (Neighbor α)) (Htarget tol : α) {pRow : List α}
    (hpRow : pRow.length = neighbors.length) :
    (∀ k, BracketInv (rowEntropy m i neighbors) Htarget
      (tried (rowEntropy m i neighbors) Htarget ⟨1, none, none⟩ k)
      (brackets (rowEntropy m i neighbors) Htarget ⟨1, none, none⟩ k)) ∧
    ∃ n < maxTries, search m i neighbors Htarget tol (maxTries - 1) ⟨1, none, none⟩ pRow =
        kernelRow m i neighbors (brackets (rowEntropy m i neighbors) Htarget ⟨1, none, none⟩ n).beta ∧
      (∀ j < n, ¬|rowEntropy m i neighbors
        (brackets (rowEntropy m i neighbors) Htarget ⟨1, none, none⟩ j).beta - Htarget| < tol) ∧
      (n + 1 < maxTries → |rowEntropy m i neighbors
        (brackets (rowEntropy m i neighbors) Htarget ⟨1, none, none⟩ n).beta - Htarget| < tol) := by
  obtain ⟨n, hn, hs, hmiss, hhit⟩ := search_eq_brackets m (maxTries - 1) ⟨1, none, none⟩ hpRow
  exact ⟨brackets_inv (bracketInv_init _ _), n, by rw [maxTries] at hn ⊢; omega, hs, hmiss,
    fun h => hhit (by rw [maxTries] at h ⊢; omega)⟩

/-- The search of row `0` of the table `[[{index: 1, dist: 1}, {index: 2, dist: 2}], …]` at the
engine's perplexity `30` and tolerance `1E-4`, from the row `[1/2, 1/2]` an earlier row left. -/
theorem search_bisects_carried :
    ∃ n < maxTries, search ⟨Real.exp, Real.log, Real.sqrt⟩ 0 [⟨1, 1⟩, ⟨2, 2⟩] (Real.log 30)
        (1 / 10 ^ 4) (maxTries - 1) ⟨1, none, none⟩ [1 / 2, 1 / 2] =
      kernelRow ⟨Real.exp, Real.log, Real.sqrt⟩ 0 [⟨1, 1⟩, ⟨2, 2⟩]
        (brackets (rowEntropy ⟨Real.exp, Real.log, Real.sqrt⟩ 0 [⟨1, 1⟩, ⟨2, 2⟩]) (Real.log 30)
          ⟨1, none, none⟩ n).beta :=
  (search_bisects _ 0 _ _ (1 / 10 ^ 4) rfl).2.imp fun _ ⟨hn, hs, _⟩ => ⟨hn, hs⟩

/-! ## The row falls with the distance -/

theorem getD_kernelRow {i k : Nat} {neighbors : List (Neighbor α)} (beta : α)
    (hk : k < neighbors.length) : (kernelRow m i neighbors beta).getD k 0 =
      kernel m i beta neighbors[k] / (neighbors.map (kernel m i beta)).sum := by
  simp [kernelRow, List.getD_eq_getElem?_getD, hk]

/-- At a positive precision the clamped kernel gives a neighbour other than `i` at least what it
gives a farther one; the row's own index gets the floor `MIN_POSSIBLE_PROB`, the least value. -/
theorem kernel_antitone_dist (hexp : Monotone m.exp) {i : Nat} {beta : α} (hbeta : 0 < beta)
    {nb nb' : Neighbor α} (hself : (i : Int) ≠ nb.index) (hd : nb.dist ≤ nb'.dist) :
    kernel m i beta nb' ≤ kernel m i beta nb := by
  unfold kernel
  rw [if_neg hself]
  split
  · exact max_le (MIN_POSSIBLE_PROB_pos.le.trans (le_max_right _ _)) (le_max_right _ _)
  · exact max_le_max (hexp (mul_le_mul_of_nonneg_right (neg_le_neg hd) hbeta.le)) le_rfl

/-- **The row the search leaves falls with the distance.** For every row, whatever the target and
the tolerance, a neighbour other than `i` gets at least the probability of any farther one:
every precision the bisection tries is positive. -/
theorem finalRow_antitone_dist (hexp : Monotone m.exp) (i : Nat) (neighbors : List (Neighbor α))
    (Htarget tol : α) {k l : Nat} (hk : k < neighbors.length) (hl : l < neighbors.length)
    (hself : (i : Int) ≠ neighbors[k].index) (hd : neighbors[k].dist ≤ neighbors[l].dist) :
    (finalRow m i neighbors Htarget tol).getD l 0 ≤ (finalRow m i neighbors Htarget tol).getD k 0 := by
  obtain ⟨n, -, hs, -⟩ := @search_eq_brackets α _ m i neighbors Htarget tol (maxTries - 1)
    ⟨1, none, none⟩ (zeros neighbors.length) (by simp [zeros])
  set beta := (brackets (rowEntropy m i neighbors) Htarget ⟨1, none, none⟩ n).beta
  have hbeta : 0 < beta :=
    (brackets_inv (bracketInv_init _ _) n).pos _ (List.mem_cons_self _ _)
  have hsum : 0 < (neighbors.map (kernel m i beta)).sum :=
    List.sum_pos _ (by simpa using fun nb _ => kernel_pos m i beta nb)
      (by simpa using List.ne_nil_of_length_pos (by omega))
  rw [finalRow, hs, getD_kernelRow m _ hk, getD_kernelRow m _ hl]
  exact div_le_div_of_nonneg_right (kernel_antitone_dist m hexp hbeta hself hd) hsum.le

/-- The search of the row `[{index: 1, dist: 1}, {index: 2, dist: 2}]` of point `0`, at the
engine's perplexity `30` and tolerance `1E-4`. -/
theorem finalRow_antitone_dist_pair :
    (finalRow ⟨Real.exp, Real.log, Real.sqrt⟩ 0 [⟨1, 1⟩, ⟨2, 2⟩] (Real.log 30) (1 / 10 ^ 4)).getD 1 0 ≤
      (finalRow ⟨Real.exp, Real.log, Real.sqrt⟩ 0 [⟨1, 1⟩, ⟨2, 2⟩] (Real.log 30) (1 / 10 ^ 4)).getD 0 0 :=
  finalRow_antitone_dist _ Real.exp_monotone 0 _ _ _ (by simp) (by simp) (by decide) (by norm_num)

end

end BarnesHutTsne
