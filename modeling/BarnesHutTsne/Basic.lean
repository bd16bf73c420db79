import Mathlib

/-!
# Numbers, points and the small helpers of `tsne.ts`

The engine computes with JavaScript `number`s. The model computes over an ordered field `α`:
statements that need real analysis instantiate it with `ℝ`, and the definitions stay executable
over `ℚ`. The `Math` functions the source calls are a parameter (`JsMath`), so that a statement
says exactly which of their properties it uses.

A `number[]` that holds a point is only ever read at coordinates below the engine's `dim`, so a
point is modelled by its coordinate function `Vec α`. Arrays whose length matters (the
solution `Y`, the matrix `P`, the rows of `gains` and `ystep`) are lists.
-/

namespace BarnesHutTsne

/-- A point or a force: coordinate `d` of a `number[]`. -/
abbrev Vec (α : Type) := Nat → α

/-- The `Math` functions the source calls. -/
structure JsMath (α : Type) where
  exp : α → α
  log : α → α
  sqrt : α → α

/-- What a call can throw: `TypeError` for a property read on `undefined`, `RangeError` for an
exhausted call stack, and `new Error(msg)`. -/
inductive JsError
  | typeError
  | rangeError
  | error (msg : String)
  deriving DecidableEq, Repr

/-- One entry `{index, dist}` of a row of the kNN table. -/
structure Neighbor (α : Type) where
  index : Int
  dist : α

variable {α : Type} [LinearOrderedField α]

/-- `THETA`: the Barnes-Hut approximation level. -/
def THETA : α := 4 / 5

/-- `MIN_POSSIBLE_PROB`, `1E-9`. -/
def MIN_POSSIBLE_PROB : α := 1 / 10 ^ 9

theorem MIN_POSSIBLE_PROB_pos : (0 : α) < MIN_POSSIBLE_PROB :=
  div_pos one_pos (pow_pos (by norm_num) 9)

/-- `sign`: `1`, `-1` or `0`. -/
def sign (x : α) : Int := if x > 0 then 1 else if x < 0 then -1 else 0

/-! ## The dimension-specific kernels

`dist2_2D`/`dist2_3D` and `computeForce_2d`/`computeForce_3d` differ only in how many coordinates
they touch; each pair is one definition applied to its dimension. -/

/-- The squared euclidean distance over the first `n` coordinates. -/
def sqDist (n : Nat) (a b : Vec α) : α := ∑ d ∈ Finset.range n, (a d - b d) * (a d - b d)

/-- `dist2(a, b)`: the squared euclidean distance of two arrays, which must have one length. The
engine calls only the 2-D and 3-D kernels below. -/
def dist2 (a b : List α) : Except JsError α :=
  if a.length ≠ b.length then .error (.error "Vectors a and b must be of same length")
  else .ok ((List.range a.length).foldl
    (fun result i => result + (a.getD i 0 - b.getD i 0) * (a.getD i 0 - b.getD i 0)) 0)

theorem foldl_range_add (f : Nat → α) :
    ∀ n, (List.range n).foldl (fun r i => r + f i) 0 = ∑ i ∈ Finset.range n, f i
  | 0 => rfl
  | n + 1 => by rw [List.range_succ, List.foldl_append, foldl_range_add f n, Finset.sum_range_succ]; rfl

/-- On arrays of one length, `dist2` is the squared distance over all their coordinates. -/
theorem dist2_eq_sqDist {a b : List α} (h : a.length = b.length) :
    dist2 a b = .ok (sqDist a.length (fun i => a.getD i 0) (fun i => b.getD i 0)) := by
  rw [dist2, if_neg (not_not.2 h), sqDist, foldl_range_add]

/-- `dist2_2D`. -/
def dist2_2D : Vec α → Vec α → α := sqDist 2

/-- `dist2_3D`. -/
def dist2_3D : Vec α → Vec α → α := sqDist 3

/-- `force[d] += mult * (pointA[d] - pointB[d])` for each of the first `n` coordinates. -/
def addForce (n : Nat) (force : Vec α) (mult : α) (pointA pointB : Vec α) : Vec α :=
  fun d => if d < n then force d + mult * (pointA d - pointB d) else force d

/-- `computeForce_2d`. -/
def computeForce_2d : Vec α → α → Vec α → Vec α → Vec α := addForce 2

/-- `computeForce_3d`. -/
def computeForce_3d : Vec α → α → Vec α → Vec α → Vec α := addForce 3

theorem sqDist_nonneg (n : Nat) (a b : Vec α) : 0 ≤ sqDist n a b :=
  Finset.sum_nonneg fun _ _ => mul_self_nonneg _

theorem sqDist_self (n : Nat) (a : Vec α) : sqDist n a a = 0 := by simp [sqDist]

theorem addForce_self (n : Nat) (force : Vec α) (mult : α) (a : Vec α) :
    addForce n force mult a a = force := by
  funext d; simp [addForce]

/-- Both kernels read only the first `n` coordinates. -/
theorem sqDist_congr {n : Nat} (a : Vec α) {b b' : Vec α} (h : ∀ d < n, b d = b' d) :
    sqDist n a b = sqDist n a b' :=
  Finset.sum_congr rfl fun d hd => by rw [h d (Finset.mem_range.1 hd)]

theorem addForce_congr {n : Nat} (force : Vec α) (mult : α) (a : Vec α) {b b' : Vec α}
    (h : ∀ d < n, b d = b' d) : addForce n force mult a b = addForce n force mult a b' := by
  funext d; unfold addForce; split <;> simp_all

/-! ## Arrays -/

/-- `zeros(n)`: a `Float64Array` of `n` zeros. -/
def zeros (n : Nat) : List α := List.replicate n 0

/-- Reading `a[k]` of a `Float64Array`. Out of range it is `undefined` in the source, which only
ever flows into arithmetic; the model reads `0` there. -/
def readAt (a : List α) (k : Int) : α := if 0 ≤ k then a.getD k.toNat 0 else 0

/-- Writing `a[k] = v` to a `Float64Array`: a write out of range is dropped. -/
def writeAt {β : Type} (a : List β) (k : Int) (v : β) : List β :=
  if 0 ≤ k then a.set k.toNat v else a

/-- `xs[j]` of a `number[][]`: `undefined` out of range. -/
def getAt {β : Type} (xs : List β) (j : Int) : Option β := if 0 ≤ j then xs[j.toNat]? else none

@[simp] theorem readAt_natCast (a : List α) (k : Nat) : readAt a k = a.getD k 0 := by
  simp [readAt]

@[simp] theorem writeAt_natCast {β : Type} (a : List β) (k : Nat) (v : β) :
    writeAt a k v = a.set k v := by
  simp [writeAt]

theorem getAt_eq_some {β : Type} (xs : List β) (d : β) {j : Int} (h0 : 0 ≤ j)
    (h : j < xs.length) : getAt xs j = some (xs.getD j.toNat d) := by
  have hj : j.toNat < xs.length := by omega
  simp [getAt, h0, List.getD_eq_getElem?_getD, List.getElem?_eq_getElem hj]

theorem getAt_eq_none {β : Type} (xs : List β) {j : Int} (h : ¬(0 ≤ j ∧ j < xs.length)) :
    getAt xs j = none := by
  unfold getAt
  split
  · exact List.getElem?_eq_none (by omega)
  · rfl

@[simp] theorem length_writeAt {β : Type} (a : List β) (k : Int) (v : β) :
    (writeAt a k v).length = a.length := by
  unfold writeAt; split <;> simp

@[simp] theorem getD_zeros (n k : Nat) : (zeros n : List α).getD k 0 = 0 := by
  rw [zeros, List.getD_eq_getElem?_getD, List.getElem?_replicate]
  split <;> rfl

@[simp] theorem length_zeros (n : Nat) : (zeros n : List α).length = n := List.length_replicate n 0

/-- A list sums entry by entry. -/
theorem sum_eq_sum_getD : ∀ (l : List α), l.sum = ∑ k ∈ Finset.range l.length, l.getD k 0
  | [] => rfl
  | x :: l => by
    rw [List.sum_cons, List.length_cons, Finset.sum_range_succ', sum_eq_sum_getD l]
    simp [add_comm]

/-- A range of `M * N` indices, split into `M` rows of `N`. -/
theorem sum_range_mul (f : Nat → α) (N : Nat) : ∀ M,
    ∑ k ∈ Finset.range (M * N), f k = ∑ a ∈ Finset.range M, ∑ b ∈ Finset.range N, f (a * N + b)
  | 0 => by simp
  | M + 1 => by rw [Nat.succ_mul, Finset.sum_range_add, sum_range_mul f N M, Finset.sum_range_succ]

/-- A sum over a concatenation of blocks, block by block. -/
theorem sum_map_flatMap {β γ : Type} (R : List β) (c : β → List γ) (g : γ → α) :
    ((R.flatMap c).map g).sum = (R.map fun e => ((c e).map g).sum).sum := by
  induction R with
  | nil => rfl
  | cons e R ih => simp [ih]

/-- A list of `M` rows of `N` entries sums row by row. -/
theorem sum_eq_sum_rows {M N : Nat} (l : List α) (h : l.length = M * N) :
    l.sum = ∑ a ∈ Finset.range M, ∑ b ∈ Finset.range N, l.getD (a * N + b) 0 := by
  rw [sum_eq_sum_getD, h, sum_range_mul]

theorem getD_mem {β : Type} {l : List β} {a : Nat} (d : β) (h : a < l.length) : l.getD a d ∈ l := by
  rw [List.getD_eq_getElem?_getD, List.getElem?_eq_getElem h]; exact List.getElem_mem _

theorem getD_set_of_ne {β : Type} (l : List β) {a b : Nat} (v d : β) (h : a ≠ b) :
    (l.set a v).getD b d = l.getD b d := by
  simp [List.getD_eq_getElem?_getD, List.getElem?_set, h]

theorem getD_set_self {β : Type} (l : List β) {a : Nat} (v d : β) (h : a < l.length) :
    (l.set a v).getD a d = v := by
  simp [List.getD_eq_getElem?_getD, List.getElem?_set, h]

end BarnesHutTsne
