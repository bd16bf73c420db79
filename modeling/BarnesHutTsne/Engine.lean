import BarnesHutTsne.Nearest2P
import BarnesHutTsne.CostGrad

/-!
# The `TSNE` engine

The class holds its fields in `this`, and the module holds the cached second Gaussian draw in
the variables `return_v` and `v_val`, which every engine of the process shares. A method is a
computation in `EStateM JsError (Heap α)` over both. As in JavaScript, a throw keeps every write
made before it: `EStateM` returns the state at the throw along with the error.

* A field the class declares without an initializer is `undefined` (`none`) until it is first
  assigned.
* The generator `rng` is the sequence of values it returns, and `draws` counts how many it has
  returned so far.
* `gaussRandom` calls itself until a draw lands in the unit disc; `fuel` is the depth the call
  stack allows, and past it the call throws `RangeError`. Every result is stated for every
  `fuel`.
* `this.dist2` and `this.computeForce` are `dist2_2D`/`computeForce_2d` or their 3D versions,
  that is `sqDist dim` and `addForce dim`, so the model keeps only `dim`, with the constructor's
  check as a field.
-/

namespace BarnesHutTsne

variable {α : Type} [LinearOrderedField α]

/-- `TSNEOptions`; the generator is the sequence of values it returns. -/
structure TSNEOptions (α : Type) where
  dim : Nat
  perplexity : Option α
  epsilon : Option α
  rng : Option (Nat → α)

/-- A `TSNE` engine. -/
structure TSNE (α : Type) where
  perplexity : α
  epsilon : α
  rng : Nat → α
  draws : Nat
  iter : Nat
  Y : Option (List α)
  N : Option Nat
  P : Option (List α)
  gains : Option (List (List α))
  ystep : Option (List (List α))
  nearest : Option (List (List (Neighbor α)))
  dim : Nat
  dim_ok : dim = 2 ∨ dim = 3

/-- What a method runs over: the engine and the module variables `return_v` and `v_val`. -/
structure Heap (α : Type) where
  self : TSNE α
  return_v : Bool
  v_val : α

/-- `x || d` for a number option: `undefined` and `0` give the default. -/
def jsOr (x : Option α) (d : α) : α :=
  match x with
  | some v => if v = 0 then d else v
  | none => d

/-- `new TSNE(opt)`, with `mathRandom` the sequence `Math.random` returns. -/
def TSNE.new (mathRandom : Nat → α) (opt : Option (TSNEOptions α)) : Except JsError (TSNE α) :=
  let opt := opt.getD ⟨2, none, none, none⟩
  if h : opt.dim = 2 ∨ opt.dim = 3 then
    .ok { perplexity := jsOr opt.perplexity 30, epsilon := jsOr opt.epsilon 10,
          rng := opt.rng.getD mathRandom, draws := 0, iter := 0, Y := none, N := none, P := none,
          gains := none, ystep := none, nearest := none, dim := opt.dim, dim_ok := h }
  else .error (.error "Only 2D and 3D is supported")

/-- A call of a function that returns an `Except`: its error is thrown. -/
def ofExcept {ε σ β : Type} (x : Except ε β) : EStateM ε σ β := fun s =>
  match x with
  | .ok a => .ok a s
  | .error e => .error e s

/-- Replacing the engine. -/
def setSelf (f : TSNE α → TSNE α) : EStateM JsError (Heap α) Unit :=
  modify fun h => { h with self := f h.self }

/-! ## Random numbers -/

/-- `rng()`. -/
def nextRandom : EStateM JsError (Heap α) α := fun h =>
  .ok (h.self.rng h.self.draws) { h with self := { h.self with draws := h.self.draws + 1 } }

/-- `gaussRandom(rng)`: the cached second draw if there is one, and otherwise a pair of uniform
draws `u, v` in `[-1, 1)` until one lands in the unit disc, whose polar transform gives the result
and the new cached draw. -/
def gaussRandom (m : JsMath α) : Nat → EStateM JsError (Heap α) α
  | 0 => throw .rangeError
  | fuel + 1 => do
    let h ← get
    if h.return_v then
      set { h with return_v := false }
      return h.v_val
    else
      let u := 2 * (← nextRandom) - 1
      let v := 2 * (← nextRandom) - 1
      let r := u * u + v * v
      if r = 0 ∨ r > 1 then
        gaussRandom m fuel
      else
        let c := m.sqrt (-2 * m.log r / r)
        modify fun h => { h with v_val := v * c, return_v := true }
        return u * c

/-- `randn(rng, mu, std)`. -/
def randn (m : JsMath α) (fuel : Nat) (mu std : α) : EStateM JsError (Heap α) α := do
  return mu + (← gaussRandom m fuel) * std

/-- The loop of `randnMatrix`: `x[i] = randn(rng, 0, 1E-4)` for each `i`. -/
def fillRandn (m : JsMath α) (fuel : Nat) : List Nat → List α → EStateM JsError (Heap α) (List α)
  | [], x => pure x
  | i :: is, x => do
    let v ← randn m fuel 0 (1 / 10 ^ 4)
    fillRandn m fuel is (x.set i v)

/-- `randnMatrix(n, d, rng)`: `n * d` draws of `randn(rng, 0, 1E-4)`. -/
def randnMatrix (m : JsMath α) (fuel n d : Nat) : EStateM JsError (Heap α) (List α) :=
  fillRandn m fuel (List.range (n * d)) (zeros (n * d))

/-- `arrayofs(n, d, val)`: `n` rows `[val, val]`, or `[val, val, val]` when `d = 3`. -/
def arrayofs (n d : Nat) (val : α) : List (List α) :=
  List.replicate n (if d = 3 then [val, val, val] else [val, val])

/-! ## Initialisation -/

/-- `initSolution()`: a random `Y`, unit gains, zero steps, and `iter = 0`. An undefined `N`
gives empty arrays. -/
def TSNE.initSolution (m : JsMath α) (fuel : Nat) : EStateM JsError (Heap α) Unit := do
  let s := (← get).self
  let N := s.N.getD 0
  let Y ← randnMatrix m fuel N s.dim
  setSelf fun s =>
    { s with
      Y := some Y
      gains := some (arrayofs N s.dim 1)
      ystep := some (arrayofs N s.dim 0)
      iter := 0 }

/-- `initDataDist(nearest)`: `nearest` is stored before `nearest2P` runs, and `P` and `N` after
it returns. -/
def TSNE.initDataDist (m : JsMath α) (fuel : Nat) (nearest : List (List (Neighbor α))) :
    EStateM JsError (Heap α) Unit := do
  let N := nearest.length
  setSelf fun s => { s with nearest := some nearest }
  let P ← ofExcept (nearest2P m nearest (← get).self.perplexity (1 / 10 ^ 4))
  setSelf fun s => { s with P := some P }
  setSelf fun s => { s with N := some N }
  TSNE.initSolution m fuel

/-- `getSolution()`: the current `Y`, `undefined` before the first `initDataDist`. -/
def TSNE.getSolution (s : TSNE α) : Option (List α) := s.Y

/-! ## One step -/

/-- `this.costGrad(this.Y)`. With no data there is no tree to build, and the call throws. -/
def costGradOf (m : JsMath α) (s : TSNE α) : Except JsError (List (Vec α)) :=
  match s.N, s.P, s.nearest, s.Y with
  | some N, some P, some nearest, some Y => costGrad m s.dim N s.iter P nearest Y
  | _, _, _, _ => .error .typeError

/-- `x[i][d]` of a `number[][]`, `undefined` read as `0`. -/
def gridGet (g : List (List α)) (i d : Nat) : α := (g.getD i []).getD d 0

/-- `x[i][d] = v`, for a row `x[i]` that exists. -/
def gridSet (g : List (List α)) (i d : Nat) (v : α) : List (List α) :=
  g.set i ((g.getD i []).set d v)

/-- The gain update of `step`: `0.8` times the gain when the gradient and the last step have the
same sign, the gain plus `0.2` otherwise, and at least `0.01`. -/
def newGain (gid sid gainid : α) : α :=
  let newgain := if sign gid = sign sid then gainid * (4 / 5) else gainid + 1 / 5
  if newgain < 1 / 100 then 1 / 100 else newgain

/-- The momentum step of `step`. -/
def newStep (iter : Nat) (epsilon gid sid newgain : α) : α :=
  let momval : α := if iter < 250 then 1 / 2 else 4 / 5
  momval * sid - epsilon * newgain * gid

/-- What the update loop of `step` reads and writes: `Y`, `gains`, `ystep` and the running
column sum `ymean`. -/
structure Arrays (α : Type) where
  Y : List α
  gains : List (List α)
  ystep : List (List α)
  ymean : Vec α

/-- The body of the update loop of `step` for entry `(i, d)`: the new gain and momentum step
from `grad[i][d]`, `ystep[i][d]` and `gains[i][d]`, the move of `Y[i*dim+d]`, and the moved
coordinate added to `ymean[d]`. -/
def Arrays.entry (iter : Nat) (epsilon : α) (dim : Nat) (grad : List (Vec α)) (x : Arrays α)
    (i d : Nat) : Arrays α :=
  let gid := (grad.getD i 0) d
  let sid := gridGet x.ystep i d
  let newgain := newGain gid sid (gridGet x.gains i d)
  let newsid := newStep iter epsilon gid sid newgain
  let i_d : Nat := i * dim + d
  let Y := writeAt x.Y i_d (readAt x.Y i_d + newsid)
  ⟨Y, gridSet x.gains i d newgain, gridSet x.ystep i d newsid,
    fun k => if k = d then x.ymean d + readAt Y i_d else x.ymean k⟩

/-- Entry `(i, d)` of the update loop of `step`: reading `ystep[i]` or `gains[i]` throws when
the row is missing, and otherwise the body runs on the engine's arrays. -/
def updateEntry (grad : List (Vec α)) (i d : Nat) (ymean : Vec α) :
    EStateM JsError (Heap α) (Vec α) := do
  let s := (← get).self
  let some ystep := s.ystep | throw .typeError
  let some _ := getAt ystep i | throw .typeError
  let some gains := s.gains | throw .typeError
  let some _ := getAt gains i | throw .typeError
  let some Y := s.Y | throw .typeError
  let x := Arrays.entry s.iter s.epsilon s.dim grad ⟨Y, gains, ystep, ymean⟩ i d
  setSelf fun s => { s with Y := some x.Y, gains := some x.gains, ystep := some x.ystep }
  return x.ymean

/-- The re-centring loop of `step`: `Y[i*dim+d] -= ymean[d] / N`. -/
def recentre (N dim : Nat) (ymean : Vec α) (Y : List α) : List α :=
  (List.range N).foldl (fun Y (i : Nat) => (List.range dim).foldl (fun Y (d : Nat) =>
    writeAt Y (i * dim + d : Nat) (readAt Y (i * dim + d : Nat) - ymean d / N)) Y) Y

/-- `step()`: `iter` goes up first, then the gradient, the update loop over every point and
coordinate, and the re-centring. -/
def TSNE.step (m : JsMath α) : EStateM JsError (Heap α) Unit := do
  setSelf fun s => { s with iter := s.iter + 1 }
  let s := (← get).self
  let N := s.N.getD 0
  let grad ← ofExcept (costGradOf m s)
  let ymean ← (List.range N).foldlM (fun ymean i =>
    (List.range s.dim).foldlM (fun ymean d => updateEntry grad i d ymean) ymean) 0
  setSelf fun t => { t with Y := t.Y.map (recentre N s.dim ymean) }

/-! ## Running the methods

One equation or one pair of lemmas per method, stated on `EStateM.run`; later proofs go through
these and never unfold a method. -/

section
variable {ε σ β γ : Type} {x : EStateM ε σ β} {f : β → EStateM ε σ γ} {s s' : σ}

theorem run_bind_ok {a : β} (h : x.run s = .ok a s') : (x >>= f).run s = (f a).run s' := by
  simp only [EStateM.run] at h ⊢
  show (match x s with | .ok a s => f a s | .error e s => .error e s) = _
  rw [h]

theorem run_bind_error {e : ε} (h : x.run s = .error e s') : (x >>= f).run s = .error e s' := by
  simp only [EStateM.run] at h ⊢
  show (match x s with | .ok a s => f a s | .error e s => .error e s) = _
  rw [h]

end

/-- The heap a call leaves, whether it returns or throws. -/
def after {β : Type} : EStateM.Result JsError (Heap α) β → Heap α
  | .ok _ h => h
  | .error _ h => h

/-- `s'` is `s` with, at most, the generator moved on. -/
def TSNE.Frame (s s' : TSNE α) : Prop := s' = { s with draws := s'.draws }

omit [LinearOrderedField α] in
theorem TSNE.Frame.refl (s : TSNE α) : s.Frame s := rfl

omit [LinearOrderedField α] in
theorem TSNE.Frame.trans {s s' s'' : TSNE α} (h1 : s.Frame s') (h2 : s'.Frame s'') :
    s.Frame s'' := by
  rw [TSNE.Frame] at h1 h2 ⊢
  rw [h2]; conv_lhs => rw [h1]

theorem gaussRandom_zero_run (m : JsMath α) (h : Heap α) :
    (gaussRandom m 0).run h = .error .rangeError h := rfl

theorem gaussRandom_succ_run (m : JsMath α) (fuel : Nat) (h : Heap α) :
    (gaussRandom m (fuel + 1)).run h =
      if h.return_v then .ok h.v_val { h with return_v := false }
      else
        let u := 2 * h.self.rng h.self.draws - 1
        let v := 2 * h.self.rng (h.self.draws + 1) - 1
        let r := u * u + v * v
        let h2 : Heap α := { h with self := { h.self with draws := h.self.draws + 2 } }
        if r = 0 ∨ r > 1 then (gaussRandom m fuel).run h2
        else
          let c := m.sqrt (-2 * m.log r / r)
          .ok (u * c) { h2 with v_val := v * c, return_v := true } := by
  by_cases hv : h.return_v <;>
  simp only [gaussRandom, EStateM.run, bind, EStateM.bind, get, getThe, MonadStateOf.get,
    EStateM.get, set, EStateM.set, pure, EStateM.pure, modify, modifyGet,
    MonadStateOf.modifyGet, EStateM.modifyGet, nextRandom, hv, if_true, if_false,
    Bool.false_eq_true]
  split <;> rfl

/-- A Gaussian draw moves only the generator. -/
theorem gaussRandom_frame (m : JsMath α) :
    ∀ (fuel : Nat) (h : Heap α), h.self.Frame (after ((gaussRandom m fuel).run h)).self
  | 0, h => TSNE.Frame.refl _
  | fuel + 1, h => by
    rw [gaussRandom_succ_run]
    split
    · exact TSNE.Frame.refl _
    · dsimp only
      split
      · exact (show h.self.Frame { h.self with draws := h.self.draws + 2 } from rfl).trans
          (gaussRandom_frame m fuel _)
      · rfl

theorem randn_run (m : JsMath α) (fuel : Nat) (mu std : α) (h : Heap α) :
    (randn m fuel mu std).run h = match (gaussRandom m fuel).run h with
      | .ok g h' => .ok (mu + g * std) h'
      | .error e h' => .error e h' := by
  cases hg : (gaussRandom m fuel).run h
  · exact run_bind_ok hg
  · exact run_bind_error hg

theorem fillRandn_cons_run (m : JsMath α) (fuel i : Nat) (is : List Nat) (x : List α)
    (h : Heap α) :
    (fillRandn m fuel (i :: is) x).run h = match (gaussRandom m fuel).run h with
      | .ok g h' => (fillRandn m fuel is (x.set i (0 + g * (1 / 10 ^ 4)))).run h'
      | .error e h' => .error e h' := by
  rw [fillRandn]
  cases hg : (gaussRandom m fuel).run h
  · exact run_bind_ok (by rw [randn_run, hg])
  · exact run_bind_error (by rw [randn_run, hg])

theorem fillRandn_frame (m : JsMath α) (fuel : Nat) :
    ∀ (is : List Nat) (x : List α) (h : Heap α),
      h.self.Frame (after ((fillRandn m fuel is x).run h)).self ∧
        ∀ Y h', (fillRandn m fuel is x).run h = .ok Y h' → Y.length = x.length
  | [], x, h => ⟨TSNE.Frame.refl _, fun _ _ hY => by cases hY; rfl⟩
  | i :: is, x, h => by
    have hf := gaussRandom_frame m fuel h
    cases hg : (gaussRandom m fuel).run h with
    | error e h' =>
      have hr : (fillRandn m fuel (i :: is) x).run h = .error e h' :=
        run_bind_error (by rw [randn_run, hg])
      rw [hr]
      refine ⟨by rw [hg] at hf; exact hf, fun _ _ h => by cases h⟩
    | ok g h' =>
      have hr := run_bind_ok (f := fun v => fillRandn m fuel is (x.set i v))
        (show (randn m fuel 0 (1 / 10 ^ 4)).run h = .ok (0 + g * (1 / 10 ^ 4)) h' by
          rw [randn_run, hg])
      rw [fillRandn, hr]
      obtain ⟨ih1, ih2⟩ := fillRandn_frame m fuel is (x.set i (0 + g * (1 / 10 ^ 4))) h'
      rw [hg] at hf
      exact ⟨TSNE.Frame.trans hf ih1, fun Y h'' hY => (ih2 Y h'' hY).trans (List.length_set _ _ _)⟩

theorem randnMatrix_frame (m : JsMath α) (fuel n d : Nat) (h : Heap α) :
    h.self.Frame (after ((randnMatrix m fuel n d).run h)).self ∧
      ∀ Y h', (randnMatrix m fuel n d).run h = .ok Y h' → Y.length = n * d := by
  obtain ⟨h1, h2⟩ := fillRandn_frame m fuel (List.range (n * d)) (zeros (n * d)) h
  exact ⟨h1, fun Y h' hY => (h2 Y h' hY).trans (length_zeros _)⟩

theorem initSolution_run (m : JsMath α) (fuel : Nat) (h : Heap α) :
    (TSNE.initSolution m fuel).run h =
      (randnMatrix m fuel (h.self.N.getD 0) h.self.dim >>= fun Y => setSelf fun s =>
        { s with
          Y := some Y
          gains := some (arrayofs (h.self.N.getD 0) s.dim 1)
          ystep := some (arrayofs (h.self.N.getD 0) s.dim 0)
          iter := 0 }).run h := rfl

/-- **`initSolution`.** It throws having moved only the generator, or returns with a `Y` of
`N·dim` entries, unit gains, zero steps and `iter = 0`. -/
theorem initSolution_spec (m : JsMath α) (fuel : Nat) (h : Heap α) :
    match (TSNE.initSolution m fuel).run h with
    | .error _ h' => h.self.Frame h'.self
    | .ok _ h' => ∃ Y, Y.length = h.self.N.getD 0 * h.self.dim ∧
        h'.self =
          { h.self with
            draws := h'.self.draws
            Y := some Y
            gains := some (arrayofs (h.self.N.getD 0) h.self.dim 1)
            ystep := some (arrayofs (h.self.N.getD 0) h.self.dim 0)
            iter := 0 } := by
  obtain ⟨hf, hlen⟩ := randnMatrix_frame m fuel (h.self.N.getD 0) h.self.dim h
  cases hr : (randnMatrix m fuel (h.self.N.getD 0) h.self.dim).run h with
  | error e h' =>
    rw [initSolution_run, run_bind_error hr]
    rw [hr] at hf; exact hf
  | ok Y h' =>
    rw [initSolution_run, run_bind_ok hr]
    rw [hr] at hf
    refine ⟨Y, hlen Y h' hr, ?_⟩
    have hf' : h'.self = { h.self with draws := h'.self.draws } := hf
    dsimp only
    rw [hf']

theorem initDataDist_run_error (m : JsMath α) (fuel : Nat) (nearest : List (List (Neighbor α)))
    (h : Heap α) {e : JsError} (hP : nearest2P m nearest h.self.perplexity (1 / 10 ^ 4) = .error e) :
    (TSNE.initDataDist m fuel nearest).run h =
      .error e { h with self := { h.self with nearest := some nearest } } := by
  simp only [TSNE.initDataDist, EStateM.run, bind, EStateM.bind, get, getThe, MonadStateOf.get,
    EStateM.get, setSelf, modify, modifyGet, MonadStateOf.modifyGet, EStateM.modifyGet, ofExcept, hP]

theorem initDataDist_run_ok (m : JsMath α) (fuel : Nat) (nearest : List (List (Neighbor α)))
    (h : Heap α) {P : List α} (hP : nearest2P m nearest h.self.perplexity (1 / 10 ^ 4) = .ok P) :
    (TSNE.initDataDist m fuel nearest).run h = (TSNE.initSolution m fuel).run
      { h with
        self := { h.self with nearest := some nearest, P := some P, N := some nearest.length } } := by
  simp only [TSNE.initDataDist, EStateM.run, bind, EStateM.bind, get, getThe, MonadStateOf.get,
    EStateM.get, setSelf, modify, modifyGet, MonadStateOf.modifyGet, EStateM.modifyGet, ofExcept, hP]

/-! ## The update loop -/

/-- The engine with its arrays replaced by `x`'s. -/
def Heap.withArrays (h : Heap α) (x : Arrays α) : Heap α :=
  { h with self := { h.self with Y := some x.Y, gains := some x.gains, ystep := some x.ystep } }

omit [LinearOrderedField α] in
@[simp] theorem length_gridSet (g : List (List α)) (i d : Nat) (v : α) :
    (gridSet g i d v).length = g.length := List.length_set _ _ _

theorem updateEntry_run (grad : List (Vec α)) (i d : Nat) (h : Heap α) (x : Arrays α)
    (hg : i < x.gains.length) (hs : i < x.ystep.length) :
    (updateEntry grad i d x.ymean).run (h.withArrays x) =
      .ok (x.entry h.self.iter h.self.epsilon h.self.dim grad i d).ymean
        (h.withArrays (x.entry h.self.iter h.self.epsilon h.self.dim grad i d)) := by
  have hgs : getAt x.gains i = some (x.gains.getD i []) := getAt_eq_some _ _ (by omega) (by omega)
  have hys : getAt x.ystep i = some (x.ystep.getD i []) := getAt_eq_some _ _ (by omega) (by omega)
  simp only [updateEntry, Heap.withArrays, EStateM.run, bind, EStateM.bind, get, getThe,
    MonadStateOf.get, EStateM.get, setSelf, modify, modifyGet, MonadStateOf.modifyGet,
    EStateM.modifyGet, pure, EStateM.pure, hgs, hys]

/-- The update loop of `step`, on arrays whose rows all exist. -/
def Arrays.update (iter : Nat) (epsilon : α) (dim : Nat) (grad : List (Vec α)) (N : Nat)
    (x : Arrays α) : Arrays α :=
  (List.range N).foldl
    (fun x i => (List.range dim).foldl (fun x d => x.entry iter epsilon dim grad i d) x) x

theorem length_entry (iter : Nat) (epsilon : α) (dim : Nat) (grad : List (Vec α)) (x : Arrays α)
    (i d : Nat) : (x.entry iter epsilon dim grad i d).Y.length = x.Y.length ∧
      (x.entry iter epsilon dim grad i d).gains.length = x.gains.length ∧
      (x.entry iter epsilon dim grad i d).ystep.length = x.ystep.length := by
  simp [Arrays.entry]

theorem rowLoop_run (grad : List (Vec α)) (i : Nat) (h : Heap α) :
    ∀ (ds : List Nat) (x : Arrays α), i < x.gains.length → i < x.ystep.length →
      (ds.foldlM (fun ymean d => updateEntry grad i d ymean) x.ymean).run (h.withArrays x) =
        .ok (ds.foldl (fun x d => x.entry h.self.iter h.self.epsilon h.self.dim grad i d) x).ymean
          (h.withArrays (ds.foldl
            (fun x d => x.entry h.self.iter h.self.epsilon h.self.dim grad i d) x))
  | [], x, _, _ => rfl
  | d :: ds, x, hg, hs => by
    obtain ⟨-, hg', hs'⟩ := length_entry h.self.iter h.self.epsilon h.self.dim grad x i d
    rw [List.foldlM_cons, run_bind_ok (updateEntry_run grad i d h x hg hs)]
    exact rowLoop_run grad i h ds _ (hg'.symm ▸ hg) (hs'.symm ▸ hs)

theorem length_rowFold (iter : Nat) (epsilon : α) (dim : Nat) (grad : List (Vec α)) (i : Nat) :
    ∀ (ds : List Nat) (x : Arrays α),
      (ds.foldl (fun x d => x.entry iter epsilon dim grad i d) x).Y.length = x.Y.length ∧
      (ds.foldl (fun x d => x.entry iter epsilon dim grad i d) x).gains.length = x.gains.length ∧
      (ds.foldl (fun x d => x.entry iter epsilon dim grad i d) x).ystep.length = x.ystep.length
  | [], _ => ⟨rfl, rfl, rfl⟩
  | d :: ds, x => by
    obtain ⟨h1, h2, h3⟩ := length_entry iter epsilon dim grad x i d
    obtain ⟨h1', h2', h3'⟩ := length_rowFold iter epsilon dim grad i ds (x.entry iter epsilon dim grad i d)
    exact ⟨h1'.trans h1, h2'.trans h2, h3'.trans h3⟩

theorem updateLoop_run (grad : List (Vec α)) (h : Heap α) :
    ∀ (is : List Nat) (x : Arrays α), (∀ i ∈ is, i < x.gains.length ∧ i < x.ystep.length) →
      (is.foldlM (fun ymean i => (List.range h.self.dim).foldlM
          (fun ymean d => updateEntry grad i d ymean) ymean) x.ymean).run (h.withArrays x) =
        let x' := is.foldl (fun x i => (List.range h.self.dim).foldl
          (fun x d => x.entry h.self.iter h.self.epsilon h.self.dim grad i d) x) x
        .ok x'.ymean (h.withArrays x')
  | [], x, _ => rfl
  | i :: is, x, hrows => by
    obtain ⟨hg, hs⟩ := hrows i (List.mem_cons_self _ _)
    obtain ⟨-, hg', hs'⟩ := length_rowFold h.self.iter h.self.epsilon h.self.dim grad i
      (List.range h.self.dim) x
    rw [List.foldlM_cons, run_bind_ok (rowLoop_run grad i h _ x hg hs)]
    refine updateLoop_run grad h is _ fun i' hi' => ?_
    rw [hg', hs']
    exact hrows i' (List.mem_cons_of_mem _ hi')

theorem step_run_error (m : JsMath α) (h : Heap α) {e : JsError}
    (hgrad : costGradOf m { h.self with iter := h.self.iter + 1 } = .error e) :
    (TSNE.step m).run h = .error e { h with self := { h.self with iter := h.self.iter + 1 } } := by
  simp only [TSNE.step, EStateM.run, bind, EStateM.bind, get, getThe, MonadStateOf.get,
    EStateM.get, setSelf, modify, modifyGet, MonadStateOf.modifyGet, EStateM.modifyGet, ofExcept,
    hgrad]

/-- The update loop of `step` over the points `is`, with `dim` coordinates each. -/
def updateLoop (grad : List (Vec α)) (dim : Nat) (is : List Nat) :
    EStateM JsError (Heap α) (Vec α) :=
  is.foldlM (fun ymean i => (List.range dim).foldlM
    (fun ymean d => updateEntry grad i d ymean) ymean) 0

/-- `step` once the gradient is computed: the update loop, then the re-centring. -/
theorem step_run_grad (m : JsMath α) (h : Heap α) {grad : List (Vec α)}
    (hgrad : costGradOf m { h.self with iter := h.self.iter + 1 } = .ok grad) :
    (TSNE.step m).run h =
      match (updateLoop grad h.self.dim (List.range (h.self.N.getD 0))).run
          { h with self := { h.self with iter := h.self.iter + 1 } } with
      | .ok ymean h2 =>
        .ok () { h2 with self := { h2.self with
          Y := h2.self.Y.map (recentre (h.self.N.getD 0) h.self.dim ymean) } }
      | .error e h2 => .error e h2 := by
  simp only [TSNE.step, updateLoop, EStateM.run, bind, EStateM.bind, get, getThe,
    MonadStateOf.get, EStateM.get, setSelf, modify, modifyGet, MonadStateOf.modifyGet,
    EStateM.modifyGet, ofExcept, hgrad]
  split <;> rename_i hloop <;> rw [hloop]

/-- **`step` once the gradient is computed**, on arrays with a row for every point: the update
loop over every point and coordinate, then the re-centring. -/
theorem step_run_ok (m : JsMath α) (h : Heap α) {grad : List (Vec α)} {Y : List α}
    {gains ystep : List (List α)}
    (hgrad : costGradOf m { h.self with iter := h.self.iter + 1 } = .ok grad)
    (hY : h.self.Y = some Y) (hg : h.self.gains = some gains) (hs : h.self.ystep = some ystep)
    (hrows : h.self.N.getD 0 ≤ gains.length ∧ h.self.N.getD 0 ≤ ystep.length) :
    let x := Arrays.update (h.self.iter + 1) h.self.epsilon h.self.dim grad (h.self.N.getD 0)
      ⟨Y, gains, ystep, 0⟩
    (TSNE.step m).run h = .ok ()
      { h with
        self := { h.self with
          iter := h.self.iter + 1
          Y := some (recentre (h.self.N.getD 0) h.self.dim x.ymean x.Y)
          gains := some x.gains
          ystep := some x.ystep } } := by
  intro x
  let h1 : Heap α := { h with self := { h.self with iter := h.self.iter + 1 } }
  have hh1 : h1 = h1.withArrays ⟨Y, gains, ystep, 0⟩ := by
    simp only [Heap.withArrays, h1, ← hY, ← hg, ← hs]
  have hloop := updateLoop_run grad h1 (List.range (h.self.N.getD 0)) ⟨Y, gains, ystep, 0⟩
    fun i hi => by have := List.mem_range.1 hi; exact ⟨by simp only; omega, by simp only; omega⟩
  rw [← hh1] at hloop
  rw [step_run_grad m h hgrad, updateLoop, hloop]
  rfl

/-! ## What a throw leaves -/

/-- `s'` is `s` with, at most, other arrays `Y`, `gains` and `ystep`. -/
def TSNE.ArraysFrame (s s' : TSNE α) : Prop :=
  s' = { s with Y := s'.Y, gains := s'.gains, ystep := s'.ystep }

omit [LinearOrderedField α] in
theorem TSNE.ArraysFrame.trans {s s' s'' : TSNE α} (h1 : s.ArraysFrame s')
    (h2 : s'.ArraysFrame s'') : s.ArraysFrame s'' := by
  rw [TSNE.ArraysFrame] at h1 h2 ⊢
  rw [h2]; conv_lhs => rw [h1]

/-- An entry of the update loop writes only the arrays, whether it returns or throws. -/
theorem updateEntry_frame (grad : List (Vec α)) (i d : Nat) (ymean : Vec α) (h : Heap α) :
    h.self.ArraysFrame (after ((updateEntry grad i d ymean).run h)).self := by
  rcases hys : h.self.ystep with _ | ys <;>
  [skip; rcases hysi : getAt ys i with _ | ysi] <;>
  [skip; skip; rcases hgs : h.self.gains with _ | gs] <;>
  [skip; skip; skip; rcases hgsi : getAt gs i with _ | gsi] <;>
  [skip; skip; skip; skip; rcases hY : h.self.Y with _ | Y] <;>
  simp only [updateEntry, EStateM.run, bind, EStateM.bind, get, getThe, MonadStateOf.get,
    EStateM.get, throw, throwThe, MonadExceptOf.throw, EStateM.throw, setSelf, modify, modifyGet,
    MonadStateOf.modifyGet, EStateM.modifyGet, pure, EStateM.pure, *] <;>
  rfl

omit [LinearOrderedField α] in
theorem foldlM_frame {β γ : Type} (f : β → γ → EStateM JsError (Heap α) β)
    (hf : ∀ (b : β) (c : γ) (h : Heap α), h.self.ArraysFrame (after ((f b c).run h)).self) :
    ∀ (l : List γ) (b : β) (h : Heap α), h.self.ArraysFrame (after ((l.foldlM f b).run h)).self
  | [], _, _ => rfl
  | c :: l, b, h => by
    rw [List.foldlM_cons]
    have h1 := hf b c h
    cases hr : (f b c).run h with
    | error e h' => rw [run_bind_error hr]; rw [hr] at h1; exact h1
    | ok b' h' =>
      rw [run_bind_ok hr]; rw [hr] at h1
      exact h1.trans (foldlM_frame f hf l b' h')

theorem updateLoop_frame (grad : List (Vec α)) (dim : Nat) (is : List Nat) (h : Heap α) :
    h.self.ArraysFrame (after ((updateLoop grad dim is).run h)).self :=
  foldlM_frame _ (fun ymean i h => foldlM_frame _ (fun ymean d h => updateEntry_frame grad i d ymean h)
    (List.range dim) ymean h) is 0 h

/-- `step` raises the counter by one, whether it returns or throws. -/
theorem step_iter (m : JsMath α) (h : Heap α) :
    (after ((TSNE.step m).run h)).self.iter = h.self.iter + 1 := by
  rcases hgrad : costGradOf m { h.self with iter := h.self.iter + 1 } with e | grad
  · rw [step_run_error m h hgrad]; rfl
  · have hf := updateLoop_frame grad h.self.dim (List.range (h.self.N.getD 0))
      { h with self := { h.self with iter := h.self.iter + 1 } }
    rw [step_run_grad m h hgrad]
    split <;> rename_i hloop <;> rw [hloop] at hf <;> exact congrArg TSNE.iter hf

end BarnesHutTsne
