import BarnesHutTsne.Basic

/-!
# The space-partitioning tree

`costGrad` builds an `SPTree` from the current embedding and walks it, but `sptree.ts`, which
defines the tree, is not among the sources. This file models it from the specification (§4.4 and
the data model of §3):

* every node carries one point: the root the first point, every other node the point whose
  insertion created it;
* a node is a leaf while its `children` are `null`; the first insertion below it gives it `2^D`
  slots, and the point takes the slot of its orthant if that is empty and descends into the node
  there otherwise;
* a node's cell is a cube, split at its centre along every axis; a point on a midpoint goes to
  the lower half;
* the root's cell is centred on the points' bounding box, with the largest half extent over the
  axes as its half side.

The facts proved here are the ones the gradient needs: the tree's nodes carry exactly the points
it was built from (`points_SPTree`).
-/

namespace BarnesHutTsne

/-- Modelled from the spec: the cell of a node, the cube of half side `halfDim` around `center`. -/
structure BBox (α : Type) [LinearOrderedField α] where
  center : Vec α
  halfDim : α
  halfDim_nonneg : 0 ≤ halfDim

/-- Modelled from the spec: a node of the tree, with its cell, its point, what `costGrad` adds
to it (`β`), and either no children (`null`) or a list of child slots. -/
inductive SPNode (α β : Type) [LinearOrderedField α] where
  | mk (box : BBox α) (point : Vec α) (ann : β) (children : Option (List (Option (SPNode α β))))

namespace SPNode

variable {α β : Type} [LinearOrderedField α]

/-- The point a node carries. -/
def point : SPNode α β → Vec α
  | mk _ point _ _ => point

/-- What `costGrad` added to a node. -/
def ann : SPNode α β → β
  | mk _ _ ann _ => ann

/-- The child slots, `none` for a leaf. -/
def children : SPNode α β → Option (List (Option (SPNode α β)))
  | mk _ _ _ children => children

mutual
/-- The points of a subtree in depth-first order: the node's own, then its children's. -/
def points : SPNode α β → List (Vec α)
  | mk _ point _ none => [point]
  | mk _ point _ (some slots) => point :: slotPoints slots

/-- The points under a list of child slots. -/
def slotPoints : List (Option (SPNode α β)) → List (Vec α)
  | [] => []
  | none :: slots => slotPoints slots
  | some child :: slots => child.points ++ slotPoints slots
end

theorem points_ne_nil (n : SPNode α β) : n.points ≠ [] := by
  cases n with
  | mk box point ann children => cases children <;> simp [points]

end SPNode

variable {α : Type} [LinearOrderedField α] (dim : Nat)

/-- Modelled from the spec: the slot a point descends into, with bit `d` set when the point lies
above the centre on axis `d`. -/
def childIndex (box : BBox α) (p : Vec α) : Nat :=
  (List.range dim).foldl (fun index d => if p d > box.center d then index ||| 1 <<< d else index) 0

/-- Modelled from the spec: the leaf made for `p` in slot `index`, whose cell is the orthant of
`box` that the bits of `index` name. -/
def makeChild (box : BBox α) (index : Nat) (p : Vec α) : SPNode α Unit :=
  let h := box.halfDim / 2
  .mk ⟨fun d => if index &&& 1 <<< d ≠ 0 then box.center d + h else box.center d - h, h,
    div_nonneg box.halfDim_nonneg zero_le_two⟩ p () none

mutual
/-- Modelled from the spec: inserting `p` below a node. -/
def insert (p : Vec α) : SPNode α Unit → SPNode α Unit
  | .mk box point a none =>
    .mk box point a (some ((List.replicate (2 ^ dim) none).set (childIndex dim box p)
      (some (makeChild box (childIndex dim box p) p))))
  | .mk box point a (some slots) =>
    .mk box point a (some (insertSlot p box (childIndex dim box p) (childIndex dim box p) slots))

/-- Modelled from the spec: slot `k` of the remaining `slots` is where `p` goes; `index` is its
position among all of the node's slots. -/
def insertSlot (p : Vec α) (box : BBox α) (index : Nat) :
    Nat → List (Option (SPNode α Unit)) → List (Option (SPNode α Unit))
  | _, [] => []
  | 0, none :: slots => some (makeChild box index p) :: slots
  | 0, some child :: slots => some (insert p child) :: slots
  | k + 1, slot :: slots => slot :: insertSlot p box index k slots
end

omit [LinearOrderedField α] in
theorem le_foldl_max {β γ : Type} [LinearOrder γ] (f : β → γ) :
    ∀ (l : List β) (a : γ), a ≤ l.foldl (fun h d => max h (f d)) a
  | [], _ => le_rfl
  | d :: l, a => (le_max_left a (f d)).trans (le_foldl_max f l _)

/-- Modelled from the spec: `new SPTree(data)` on the points `p0 :: ps`. -/
def SPTree (p0 : Vec α) (ps : List (Vec α)) : SPNode α Unit :=
  let lo : Vec α := fun d => ps.foldl (fun m p => min m (p d)) (p0 d)
  let hi : Vec α := fun d => ps.foldl (fun m p => max m (p d)) (p0 d)
  let box : BBox α := ⟨fun d => (lo d + hi d) / 2,
    (List.range dim).foldl (fun h d => max h ((hi d - lo d) / 2)) 0, le_foldl_max _ _ _⟩
  ps.foldl (fun root p => insert dim p root) (.mk box p0 () none)

/-! ## Shape -/

namespace SPNode

variable {β : Type}

mutual
/-- Every node with children has exactly `n` slots. -/
def Slotted (n : Nat) : SPNode α β → Prop
  | mk _ _ _ none => True
  | mk _ _ _ (some slots) => slots.length = n ∧ SlotsSlotted n slots

/-- Every node under a list of slots has exactly `n` slots. -/
def SlotsSlotted (n : Nat) : List (Option (SPNode α β)) → Prop
  | [] => True
  | none :: slots => SlotsSlotted n slots
  | some child :: slots => child.Slotted n ∧ SlotsSlotted n slots
end

end SPNode

theorem childIndex_lt (box : BBox α) (p : Vec α) : childIndex dim box p < 2 ^ dim := by
  have key : ∀ (l : List Nat) (index : Nat), (∀ d ∈ l, d < dim) → index < 2 ^ dim →
      l.foldl (fun index d => if p d > box.center d then index ||| 1 <<< d else index) index
        < 2 ^ dim := by
    intro l
    induction l with
    | nil => exact fun _ _ h => h
    | cons d l ih =>
      intro index hl hi
      refine ih _ (fun d' h => hl d' (List.mem_cons_of_mem _ h)) ?_
      dsimp only
      split
      · refine Nat.or_lt_two_pow hi ?_
        rw [Nat.shiftLeft_eq, Nat.one_mul]
        exact Nat.pow_lt_pow_right (by decide) (hl d (List.mem_cons_self _ _))
      · exact hi
  exact key _ 0 (fun d h => List.mem_range.1 h) (Nat.pos_pow_of_pos dim (by decide))

theorem slotPoints_set_replicate {β : Type} (leaf : SPNode α β) :
    ∀ (n k : Nat), k < n →
      SPNode.slotPoints ((List.replicate n none).set k (some leaf)) = leaf.points
  | n + 1, 0, _ => by
    simp only [List.replicate_succ, List.set_cons_zero, SPNode.slotPoints, List.append_right_eq_self]
    induction n with
    | zero => rfl
    | succ n ih => simpa [List.replicate_succ, SPNode.slotPoints] using ih
  | n + 1, k + 1, h => by
    simp only [List.replicate_succ, List.set_cons_succ, SPNode.slotPoints]
    exact slotPoints_set_replicate leaf n k (by omega)

theorem slotsSlotted_set_replicate {β : Type} {m : Nat} (leaf : SPNode α β)
    (hleaf : leaf.Slotted m) : ∀ (n k : Nat),
      SPNode.SlotsSlotted m ((List.replicate n none).set k (some leaf))
  | 0, _ => trivial
  | n + 1, 0 => by
    simp only [List.replicate_succ, List.set_cons_zero, SPNode.SlotsSlotted]
    refine ⟨hleaf, ?_⟩
    induction n with
    | zero => trivial
    | succ n ih => exact ih
  | n + 1, k + 1 => by
    simp only [List.replicate_succ, List.set_cons_succ, SPNode.SlotsSlotted]
    exact slotsSlotted_set_replicate leaf hleaf n k

@[simp] theorem length_insertSlot (p : Vec α) (box : BBox α) (index : Nat) :
    ∀ (k : Nat) (slots : List (Option (SPNode α Unit))),
      (insertSlot dim p box index k slots).length = slots.length
  | k, [] => by cases k <;> rfl
  | 0, none :: _ => rfl
  | 0, some _ :: _ => rfl
  | k + 1, _ :: slots => by simp [insertSlot, length_insertSlot p box index k slots]

mutual
/-- Inserting `p` adds exactly one node, carrying `p`, and keeps every node at `2^D` slots. -/
theorem points_insert (p : Vec α) : ∀ t : SPNode α Unit, t.Slotted (2 ^ dim) →
    (insert dim p t).points.Perm (t.points ++ [p]) ∧ (insert dim p t).Slotted (2 ^ dim)
  | .mk box point a none, _ => by
    refine ⟨?_, ?_⟩
    · show (point :: SPNode.slotPoints _).Perm _
      rw [slotPoints_set_replicate _ _ _ (childIndex_lt dim box p)]
      rfl
    · exact ⟨by simp, slotsSlotted_set_replicate (m := 2 ^ dim) (makeChild box _ p) trivial _ _⟩
  | .mk box point a (some slots), ⟨hlen, hslots⟩ => by
    obtain ⟨hperm, hs⟩ := slotPoints_insertSlot p box (childIndex dim box p) _ slots
      (hlen ▸ childIndex_lt dim box p) hslots
    exact ⟨hperm.cons point, ⟨by rw [length_insertSlot, hlen], hs⟩⟩

theorem slotPoints_insertSlot (p : Vec α) (box : BBox α) (index : Nat) :
    ∀ (k : Nat) (slots : List (Option (SPNode α Unit))), k < slots.length →
      SPNode.SlotsSlotted (2 ^ dim) slots →
      (SPNode.slotPoints (insertSlot dim p box index k slots)).Perm
        (SPNode.slotPoints slots ++ [p]) ∧
      SPNode.SlotsSlotted (2 ^ dim) (insertSlot dim p box index k slots)
  | 0, none :: slots, _, hs => ⟨List.perm_append_comm, ⟨trivial, hs⟩⟩
  | 0, some child :: slots, _, ⟨hc, hs⟩ => by
    obtain ⟨hperm, hc'⟩ := points_insert p child hc
    refine ⟨?_, ⟨hc', hs⟩⟩
    show (SPNode.points (insert dim p child) ++ SPNode.slotPoints slots).Perm _
    refine (hperm.append_right _).trans ?_
    simp only [SPNode.slotPoints, List.append_assoc]
    exact List.Perm.append_left _ List.perm_append_comm
  | k + 1, none :: slots, h, hs => by
    obtain ⟨hperm, hs'⟩ := slotPoints_insertSlot p box index k slots (by simpa using h) hs
    exact ⟨hperm, hs'⟩
  | k + 1, some child :: slots, h, ⟨hc, hs⟩ => by
    obtain ⟨hperm, hs'⟩ := slotPoints_insertSlot p box index k slots (by simpa using h) hs
    exact ⟨by simpa [SPNode.slotPoints] using hperm.append_left child.points, ⟨hc, hs'⟩⟩
end

/-- The tree `SPTree` builds carries exactly the points it was given, one per node. -/
theorem points_SPTree (p0 : Vec α) (ps : List (Vec α)) :
    (SPTree dim p0 ps).points.Perm (p0 :: ps) ∧ (SPTree dim p0 ps).Slotted (2 ^ dim) := by
  have key : ∀ (ps : List (Vec α)) (t : SPNode α Unit), t.Slotted (2 ^ dim) →
      (ps.foldl (fun root p => insert dim p root) t).points.Perm (t.points ++ ps) ∧
        (ps.foldl (fun root p => insert dim p root) t).Slotted (2 ^ dim) := by
    intro ps
    induction ps with
    | nil => intro t ht; simpa using ht
    | cons p ps ih =>
      intro t ht
      obtain ⟨h1, h2⟩ := points_insert dim p t ht
      obtain ⟨h3, h4⟩ := ih _ h2
      exact ⟨h3.trans (by simpa using h1.append_right ps), h4⟩
  exact key ps _ trivial

end BarnesHutTsne
