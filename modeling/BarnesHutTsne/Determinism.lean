import BarnesHutTsne.Invariants

/-!
# What one engine leaves for the next

The module variables `return_v` and `v_val` are the only state the engines of a process share.
`gaussRandom` reads `v_val` only when `return_v` is set, and `step` reads neither. So the engine
`initDataDist` leaves is fixed by the engine it starts from, its table and the cache at the call,
and every later `step` by the engine alone: two runs whose caches agree at `initDataDist` (both
empty, whatever `v_val` holds, or both holding the same draw) hold the same engine after every
step, whatever other engines do to the cache in between (`runs_agree`).

They need not agree otherwise. A 3-D engine on one point consumes three draws and leaves the
last pair's second value in the cache, and a 2-D engine built after it takes that value as its
first coordinate, where an engine in a fresh process draws its own (`cached_draw_leaks`).
-/

namespace BarnesHutTsne

variable {α : Type}

/-! ## Outcomes that agree -/

/-- Two outcomes of a call that agree: the same value, or the same error, on heaps related by
`R`. -/
def ResultRel {β : Type} (R : Heap α → Heap α → Prop) :
    EStateM.Result JsError (Heap α) β → EStateM.Result JsError (Heap α) β → Prop
  | .ok a h₁, .ok b h₂ => a = b ∧ R h₁ h₂
  | .error e₁ h₁, .error e₂ h₂ => e₁ = e₂ ∧ R h₁ h₂
  | _, _ => False

section
variable {β γ : Type} {R : Heap α → Heap α → Prop}

@[simp] theorem resultRel_ok {a b : β} {h₁ h₂ : Heap α} :
    ResultRel R (.ok a h₁) (.ok b h₂) ↔ a = b ∧ R h₁ h₂ := Iff.rfl

@[simp] theorem resultRel_error {e₁ e₂ : JsError} {h₁ h₂ : Heap α} :
    ResultRel (β := β) R (.error e₁ h₁) (.error e₂ h₂) ↔ e₁ = e₂ ∧ R h₁ h₂ := Iff.rfl

theorem ResultRel.after {r₁ r₂ : EStateM.Result JsError (Heap α) β} (h : ResultRel R r₁ r₂) :
    R (after r₁) (after r₂) := by
  cases r₁ <;> cases r₂ <;> simp only [ResultRel] at h <;> exact h.2

theorem ResultRel.refl (hR : ∀ h, R h h) (r : EStateM.Result JsError (Heap α) β) :
    ResultRel R r r := by
  cases r <;> exact ⟨rfl, hR _⟩

/-- Agreement goes through `>>=`. -/
theorem resultRel_bind {x : EStateM JsError (Heap α) β} {f : β → EStateM JsError (Heap α) γ}
    {h₁ h₂ : Heap α} (hx : ResultRel R (x.run h₁) (x.run h₂))
    (hf : ∀ a {h₁ h₂}, R h₁ h₂ → ResultRel R ((f a).run h₁) ((f a).run h₂)) :
    ResultRel R ((x >>= f).run h₁) ((x >>= f).run h₂) := by
  cases hr₁ : x.run h₁ <;> cases hr₂ : x.run h₂ <;> rw [hr₁, hr₂] at hx <;>
    simp only [ResultRel] at hx
  · obtain ⟨rfl, hR⟩ := hx
    rw [run_bind_ok hr₁, run_bind_ok hr₂]
    exact hf _ hR
  · obtain ⟨rfl, hR⟩ := hx
    rw [run_bind_error hr₁, run_bind_error hr₂]
    exact ⟨rfl, hR⟩

/-- Agreement goes through a loop whose body keeps it. -/
theorem resultRel_foldlM (f : β → γ → EStateM JsError (Heap α) β)
    (hf : ∀ b c {h₁ h₂}, R h₁ h₂ → ResultRel R ((f b c).run h₁) ((f b c).run h₂)) :
    ∀ (l : List γ) (b : β) {h₁ h₂ : Heap α}, R h₁ h₂ →
      ResultRel R ((l.foldlM f b).run h₁) ((l.foldlM f b).run h₂)
  | [], _, _, _, hR => ⟨rfl, hR⟩
  | c :: l, b, _, _, hR => by
    rw [List.foldlM_cons]
    exact resultRel_bind (hf b c hR) fun b' _ _ hR' => resultRel_foldlM f hf l b' hR'

end

/-! ## The Gaussian sampler needs only the cache it reads -/

/-- Two heaps with the same engine whose caches agree: both empty, or both holding the same
draw. -/
structure CacheAgree (h₁ h₂ : Heap α) : Prop where
  self : h₁.self = h₂.self
  return_v : h₁.return_v = h₂.return_v
  v_val : h₁.return_v = true → h₁.v_val = h₂.v_val

theorem CacheAgree.refl (h : Heap α) : CacheAgree h h := ⟨rfl, rfl, fun _ => rfl⟩

/-- Replacing the engine of both heaps by the same function of it keeps them agreeing. -/
theorem CacheAgree.withSelf {h₁ h₂ : Heap α} (hc : CacheAgree h₁ h₂) (f : TSNE α → TSNE α) :
    CacheAgree { h₁ with self := f h₁.self } { h₂ with self := f h₂.self } :=
  ⟨by simp only [hc.self], hc.return_v, hc.v_val⟩

variable [LinearOrderedField α]

theorem gaussRandom_agree (m : JsMath α) : ∀ (fuel : Nat) {h₁ h₂ : Heap α}, CacheAgree h₁ h₂ →
    ResultRel CacheAgree ((gaussRandom m fuel).run h₁) ((gaussRandom m fuel).run h₂)
  | 0, _, _, hc => ⟨rfl, hc⟩
  | fuel + 1, ⟨s, r, v₁⟩, ⟨_, _, v₂⟩, ⟨rfl, rfl, hv⟩ => by
    cases r
    · -- an empty cache: `v_val` is not read, and is overwritten or left alone
      rw [gaussRandom_succ_run, gaussRandom_succ_run]
      simp only [Bool.false_eq_true, if_false]
      split
      · exact gaussRandom_agree m fuel ⟨rfl, rfl, fun h => by cases h⟩
      · exact ResultRel.refl CacheAgree.refl _
    · obtain rfl := hv rfl
      exact ResultRel.refl CacheAgree.refl _

theorem fillRandn_agree (m : JsMath α) (fuel : Nat) :
    ∀ (is : List Nat) (x : List α) {h₁ h₂ : Heap α}, CacheAgree h₁ h₂ →
      ResultRel CacheAgree ((fillRandn m fuel is x).run h₁) ((fillRandn m fuel is x).run h₂)
  | [], _, _, _, hc => ⟨rfl, hc⟩
  | i :: is, x, _, _, hc => by
    rw [fillRandn]
    exact resultRel_bind (resultRel_bind (gaussRandom_agree m fuel hc) fun _ _ _ hc' => ⟨rfl, hc'⟩)
      fun _ _ _ hc' => fillRandn_agree m fuel is _ hc'

omit [LinearOrderedField α] in
theorem setSelf_agree (f : TSNE α → TSNE α) {h₁ h₂ : Heap α} (hc : CacheAgree h₁ h₂) :
    ResultRel CacheAgree ((setSelf f).run h₁) ((setSelf f).run h₂) :=
  ⟨rfl, hc.withSelf f⟩

theorem initSolution_agree (m : JsMath α) (fuel : Nat) {h₁ h₂ : Heap α} (hc : CacheAgree h₁ h₂) :
    ResultRel CacheAgree ((TSNE.initSolution m fuel).run h₁) ((TSNE.initSolution m fuel).run h₂) := by
  rw [initSolution_run, initSolution_run, ← hc.self]
  exact resultRel_bind (fillRandn_agree m fuel _ _ hc) fun _ _ _ hc' => setSelf_agree _ hc'

/-- **`initDataDist` from caches that agree leaves the same engine.** -/
theorem initDataDist_agree (m : JsMath α) (fuel : Nat) (nearest : List (List (Neighbor α)))
    {h₁ h₂ : Heap α} (hc : CacheAgree h₁ h₂) :
    ResultRel CacheAgree ((TSNE.initDataDist m fuel nearest).run h₁)
      ((TSNE.initDataDist m fuel nearest).run h₂) := by
  have hc' := hc.withSelf fun s => { s with nearest := some nearest }
  cases hP : nearest2P m nearest h₁.self.perplexity (1 / 10 ^ 4) with
  | error e =>
    rw [initDataDist_run_error m fuel nearest h₁ hP,
      initDataDist_run_error m fuel nearest h₂ (hc.self ▸ hP)]
    exact ⟨rfl, hc'⟩
  | ok P =>
    rw [initDataDist_run_ok m fuel nearest h₁ hP, initDataDist_run_ok m fuel nearest h₂ (hc.self ▸ hP)]
    exact initSolution_agree m fuel
      (hc.withSelf fun s => { s with nearest := some nearest, P := some P, N := some nearest.length })

/-! ## `step` reads only the engine -/

/-- Two heaps with the same engine, whatever their caches. -/
def SameSelf (h₁ h₂ : Heap α) : Prop := h₁.self = h₂.self

theorem updateEntry_sameSelf (grad : List (Vec α)) (i d : Nat) (ymean : Vec α) {h₁ h₂ : Heap α}
    (hs : SameSelf h₁ h₂) :
    ResultRel SameSelf ((updateEntry grad i d ymean).run h₁) ((updateEntry grad i d ymean).run h₂) := by
  obtain ⟨s, r₁, v₁⟩ := h₁
  obtain ⟨_, r₂, v₂⟩ := h₂
  obtain rfl : s = _ := hs
  rcases hys : s.ystep with _ | ys <;>
  [skip; rcases hysi : getAt ys i with _ | ysi] <;>
  [skip; skip; rcases hgs : s.gains with _ | gs] <;>
  [skip; skip; skip; rcases hgsi : getAt gs i with _ | gsi] <;>
  [skip; skip; skip; skip; rcases hY : s.Y with _ | Y] <;>
  simp only [updateEntry, EStateM.run, bind, EStateM.bind, get, getThe, MonadStateOf.get,
    EStateM.get, throw, throwThe, MonadExceptOf.throw, EStateM.throw, setSelf, modify, modifyGet,
    MonadStateOf.modifyGet, EStateM.modifyGet, pure, EStateM.pure, *] <;>
  exact ⟨rfl, rfl⟩

theorem updateLoop_sameSelf (grad : List (Vec α)) (dim : Nat) (is : List Nat) {h₁ h₂ : Heap α}
    (hs : SameSelf h₁ h₂) :
    ResultRel SameSelf ((updateLoop grad dim is).run h₁) ((updateLoop grad dim is).run h₂) :=
  resultRel_foldlM _ (fun _ i _ _ hs => resultRel_foldlM _
    (fun _ d _ _ hs => updateEntry_sameSelf grad i d _ hs) _ _ hs) is 0 hs

/-- **`step` reads only the engine**: from heaps with the same engine and any caches, it
returns or throws alike and leaves the same engine. -/
theorem step_sameSelf (m : JsMath α) {h₁ h₂ : Heap α} (hs : SameSelf h₁ h₂) :
    ResultRel SameSelf ((TSNE.step m).run h₁) ((TSNE.step m).run h₂) := by
  obtain ⟨s, r₁, v₁⟩ := h₁
  obtain ⟨_, r₂, v₂⟩ := h₂
  obtain rfl : s = _ := hs
  cases hg : costGradOf m { s with iter := s.iter + 1 } with
  | error e =>
    rw [step_run_error m _ hg, step_run_error m _ hg]
    exact ⟨rfl, rfl⟩
  | ok grad =>
    rw [step_run_grad m _ hg, step_run_grad m _ hg]
    have hl := updateLoop_sameSelf grad s.dim (List.range (s.N.getD 0))
      (show SameSelf ⟨{ s with iter := s.iter + 1 }, r₁, v₁⟩ ⟨{ s with iter := s.iter + 1 }, r₂, v₂⟩
        from rfl)
    dsimp only at hl ⊢
    cases hr₁ : (updateLoop grad s.dim (List.range (s.N.getD 0))).run
        ⟨{ s with iter := s.iter + 1 }, r₁, v₁⟩ <;>
      cases hr₂ : (updateLoop grad s.dim (List.range (s.N.getD 0))).run
        ⟨{ s with iter := s.iter + 1 }, r₂, v₂⟩ <;>
      rw [hr₁, hr₂] at hl <;> simp only [ResultRel] at hl
    · obtain ⟨rfl, hs'⟩ := hl
      exact ⟨rfl, by simp only [SameSelf] at hs' ⊢; rw [hs']⟩
    · exact hl

/-! ## Runs -/

/-- A run of `step`s, where before each one the other engines of the process may have left any
cache `(return_v, v_val)`. -/
def stepRun (m : JsMath α) : List (Bool × α) → Heap α → Heap α
  | [], h => h
  | (r, v) :: rest, h => stepRun m rest (after ((TSNE.step m).run ⟨h.self, r, v⟩))

theorem stepRun_sameSelf (m : JsMath α) :
    ∀ (others₁ others₂ : List (Bool × α)), others₁.length = others₂.length →
      ∀ {h₁ h₂ : Heap α}, h₁.self = h₂.self →
        (stepRun m others₁ h₁).self = (stepRun m others₂ h₂).self
  | [], [], _, _, _, hs => hs
  | (r₁, v₁) :: rest₁, (r₂, v₂) :: rest₂, hlen, _, _, hs =>
    stepRun_sameSelf m rest₁ rest₂ (Nat.succ.inj hlen)
      (step_sameSelf m (show SameSelf ⟨_, r₁, v₁⟩ ⟨_, r₂, v₂⟩ from hs)).after

/-- **Runs from caches that agree hold the same engine.** Two runs that give the same engine
the same table and then make the same number of steps hold the same engine, `Y` included, after
every step, when the module cache agrees at `initDataDist`: both empty, whatever `v_val` holds,
or both holding the same draw. What other engines leave in the cache between the steps does not
matter. -/
theorem runs_agree (m : JsMath α) (fuel : Nat) (nearest : List (List (Neighbor α))) (s : TSNE α)
    {r : Bool} {v₁ v₂ : α} (hv : r = true → v₁ = v₂) (others₁ others₂ : List (Bool × α))
    (hlen : others₁.length = others₂.length) :
    (stepRun m others₁ (after ((TSNE.initDataDist m fuel nearest).run ⟨s, r, v₁⟩))).self =
      (stepRun m others₂ (after ((TSNE.initDataDist m fuel nearest).run ⟨s, r, v₂⟩))).self :=
  stepRun_sameSelf m others₁ others₂ hlen
    (initDataDist_agree m fuel nearest (⟨rfl, rfl, hv⟩ : CacheAgree ⟨s, r, v₁⟩ ⟨s, r, v₂⟩)).after.self

/-- Two runs of a fresh engine on the table `[[{index: 0, dist: 0}]]`, from an empty cache with
different `v_val`, with other engines leaving different caches before their one step. -/
theorem runs_agree_fresh :
    ∃ s : TSNE ℝ, TSNE.new (fun _ => 0) none = .ok s ∧
      (stepRun (⟨Real.exp, Real.log, Real.sqrt⟩ : JsMath ℝ) [(true, 5)]
        (after ((TSNE.initDataDist ⟨Real.exp, Real.log, Real.sqrt⟩ 1 [[⟨0, 0⟩]]).run
          ⟨s, false, 0⟩))).self =
      (stepRun (⟨Real.exp, Real.log, Real.sqrt⟩ : JsMath ℝ) [(false, 0)]
        (after ((TSNE.initDataDist ⟨Real.exp, Real.log, Real.sqrt⟩ 1 [[⟨0, 0⟩]]).run
          ⟨s, false, 1⟩))).self :=
  ⟨_, rfl, runs_agree _ 1 _ _ (fun h => absurd h Bool.false_ne_true) _ _ rfl⟩

/-! ## One engine's draw in another's solution -/

section
variable (m : JsMath α) (fuel : Nat) {a : α}
variable (hdisc : ¬((2 * a - 1) * (2 * a - 1) + (2 * a - 1) * (2 * a - 1) = 0 ∨
  (2 * a - 1) * (2 * a - 1) + (2 * a - 1) * (2 * a - 1) > 1))
include hdisc

/-- A draw from a generator that returns `a` at every call, where `u = 2a - 1` has `2u²` in
`(0, 1]`: the cached value if there is one, and otherwise `u·c` with `u·c` cached. -/
theorem gaussRandom_const_run (h : Heap α) (hrng : h.self.rng = fun _ => a) :
    (gaussRandom m (fuel + 1)).run h =
      let r := (2 * a - 1) * (2 * a - 1) + (2 * a - 1) * (2 * a - 1)
      let g := (2 * a - 1) * m.sqrt (-2 * m.log r / r)
      if h.return_v then .ok h.v_val { h with return_v := false }
      else .ok g
        { h with
          self := { h.self with draws := h.self.draws + 2 }
          v_val := g
          return_v := true } := by
  rw [gaussRandom_succ_run, hrng]
  split
  · rfl
  · dsimp only
    rw [if_neg hdisc]

/-- Two draws for one point in 2-D: the first is the cached value if there is one. -/
theorem randnMatrix_one_two (h : Heap α) (hrng : h.self.rng = fun _ => a) :
    let r := (2 * a - 1) * (2 * a - 1) + (2 * a - 1) * (2 * a - 1)
    let g := (2 * a - 1) * m.sqrt (-2 * m.log r / r)
    (randnMatrix m (fuel + 1) 1 2).run h =
      .ok [0 + (if h.return_v then h.v_val else g) * (1 / 10 ^ 4), 0 + g * (1 / 10 ^ 4)]
        ⟨{ h.self with draws := h.self.draws + 2 }, h.return_v, g⟩ := by
  intro r g
  obtain ⟨s, rv, vv⟩ := h
  show (fillRandn m (fuel + 1) [0, 1] [0, 0]).run ⟨s, rv, vv⟩ = _
  cases rv
  · rw [fillRandn_cons_run, gaussRandom_const_run m fuel hdisc _ (by exact hrng)]
    simp only [Bool.false_eq_true, if_false]
    rw [fillRandn_cons_run, gaussRandom_const_run m fuel hdisc _ (by exact hrng)]
    simp only [if_true]
    rfl
  · rw [fillRandn_cons_run, gaussRandom_const_run m fuel hdisc _ (by exact hrng)]
    simp only [if_true]
    rw [fillRandn_cons_run, gaussRandom_const_run m fuel hdisc _ (by exact hrng)]
    simp only [Bool.false_eq_true, if_false]
    rfl

/-- Three draws for one point in 3-D, from an empty cache, leave a draw in the cache. -/
theorem randnMatrix_one_three (h : Heap α) (hrng : h.self.rng = fun _ => a)
    (hv : h.return_v = false) :
    let r := (2 * a - 1) * (2 * a - 1) + (2 * a - 1) * (2 * a - 1)
    let g := (2 * a - 1) * m.sqrt (-2 * m.log r / r)
    ∃ Y, (randnMatrix m (fuel + 1) 1 3).run h =
      .ok Y ⟨{ h.self with draws := h.self.draws + 4 }, true, g⟩ := by
  intro r g
  obtain ⟨s, rv, vv⟩ := h
  obtain rfl : rv = false := hv
  show ∃ Y, (fillRandn m (fuel + 1) [0, 1, 2] [0, 0, 0]).run ⟨s, false, vv⟩ = _
  rw [fillRandn_cons_run, gaussRandom_const_run m fuel hdisc _ (by exact hrng)]
  simp only [Bool.false_eq_true, if_false]
  rw [fillRandn_cons_run, gaussRandom_const_run m fuel hdisc _ (by exact hrng)]
  simp only [if_true]
  rw [fillRandn_cons_run, gaussRandom_const_run m fuel hdisc _ (by exact hrng)]
  simp only [Bool.false_eq_true, if_false]
  exact ⟨_, rfl⟩

/-- `initSolution` for one point in 2-D. -/
theorem initSolution_one_two (h : Heap α) (hrng : h.self.rng = fun _ => a)
    (hN : h.self.N = some 1) (hdim : h.self.dim = 2) :
    let r := (2 * a - 1) * (2 * a - 1) + (2 * a - 1) * (2 * a - 1)
    let g := (2 * a - 1) * m.sqrt (-2 * m.log r / r)
    ∃ h', (TSNE.initSolution m (fuel + 1)).run h = .ok () h' ∧
      h'.self.Y = some [0 + (if h.return_v then h.v_val else g) * (1 / 10 ^ 4),
        0 + g * (1 / 10 ^ 4)] := by
  intro r g
  have hargs : randnMatrix m (fuel + 1) (h.self.N.getD 0) h.self.dim =
      randnMatrix m (fuel + 1) 1 2 := by rw [hN, hdim]; rfl
  rw [initSolution_run, hargs, run_bind_ok (randnMatrix_one_two m fuel hdisc h hrng)]
  exact ⟨_, rfl, rfl⟩

/-- `initSolution` for one point in 3-D, from an empty cache, leaves a draw in the cache. -/
theorem initSolution_one_three (h : Heap α) (hrng : h.self.rng = fun _ => a)
    (hN : h.self.N = some 1) (hdim : h.self.dim = 3) (hv : h.return_v = false) :
    let r := (2 * a - 1) * (2 * a - 1) + (2 * a - 1) * (2 * a - 1)
    let g := (2 * a - 1) * m.sqrt (-2 * m.log r / r)
    ∃ h', (TSNE.initSolution m (fuel + 1)).run h = .ok () h' ∧ h'.return_v = true ∧
      h'.v_val = g := by
  intro r g
  obtain ⟨Y, hm⟩ := randnMatrix_one_three m fuel hdisc h hrng hv
  have hargs : randnMatrix m (fuel + 1) (h.self.N.getD 0) h.self.dim =
      randnMatrix m (fuel + 1) 1 3 := by rw [hN, hdim]; rfl
  rw [initSolution_run, hargs, run_bind_ok hm]
  exact ⟨_, rfl, rfl, rfl⟩

end

/-- **A cached draw carries over from one engine to the next.** A 3-D engine on one point, with
a generator returning `1/4`, leaves `-c/2` in the cache, `c = √(-2·log(1/2) / (1/2)) > 0`. A 2-D
engine on one point with a generator returning `3/4` then starts its solution at
`(-c/2, c/2)·1E-4`, where the same engine in a fresh process starts at `(c/2, c/2)·1E-4`. -/
theorem cached_draw_leaks :
    ∃ (sA sB : TSNE ℝ) (hA h₁ h₂ : Heap ℝ),
      TSNE.new (fun _ => 0) (some ⟨3, none, none, some fun _ => 1 / 4⟩) = .ok sA ∧
      TSNE.new (fun _ => 0) (some ⟨2, none, none, some fun _ => 3 / 4⟩) = .ok sB ∧
      (TSNE.initDataDist ⟨Real.exp, Real.log, Real.sqrt⟩ 1 [[⟨0, 0⟩]]).run ⟨sA, false, 0⟩ =
        .ok () hA ∧
      (TSNE.initDataDist ⟨Real.exp, Real.log, Real.sqrt⟩ 1 [[⟨0, 0⟩]]).run ⟨sB, false, 0⟩ =
        .ok () h₁ ∧
      (TSNE.initDataDist ⟨Real.exp, Real.log, Real.sqrt⟩ 1 [[⟨0, 0⟩]]).run
        ⟨sB, hA.return_v, hA.v_val⟩ = .ok () h₂ ∧
      h₁.self.Y ≠ h₂.self.Y := by
  have hdA : ¬((2 * (1 / 4 : ℝ) - 1) * (2 * (1 / 4) - 1) + (2 * (1 / 4) - 1) * (2 * (1 / 4) - 1) = 0 ∨
      (2 * (1 / 4 : ℝ) - 1) * (2 * (1 / 4) - 1) + (2 * (1 / 4) - 1) * (2 * (1 / 4) - 1) > 1) := by
    norm_num
  have hdB : ¬((2 * (3 / 4 : ℝ) - 1) * (2 * (3 / 4) - 1) + (2 * (3 / 4) - 1) * (2 * (3 / 4) - 1) = 0 ∨
      (2 * (3 / 4 : ℝ) - 1) * (2 * (3 / 4) - 1) + (2 * (3 / 4) - 1) * (2 * (3 / 4) - 1) > 1) := by
    norm_num
  obtain ⟨sA, hsA⟩ : ∃ s, TSNE.new (fun _ => (0 : ℝ)) (some ⟨3, none, none, some fun _ => 1 / 4⟩) =
      .ok s ∧ s.rng = (fun _ => 1 / 4) ∧ s.dim = 3 ∧ s.perplexity = 30 := ⟨_, rfl, rfl, rfl, rfl⟩
  obtain ⟨sB, hsB⟩ : ∃ s, TSNE.new (fun _ => (0 : ℝ)) (some ⟨2, none, none, some fun _ => 3 / 4⟩) =
      .ok s ∧ s.rng = (fun _ => 3 / 4) ∧ s.dim = 2 ∧ s.perplexity = 30 := ⟨_, rfl, rfl, rfl, rfl⟩
  obtain ⟨P, hP⟩ := nearest2P_ok (⟨Real.exp, Real.log, Real.sqrt⟩ : JsMath ℝ) 30 (1 / 10 ^ 4)
    (by simp) (by simp : ∀ row ∈ [[(⟨0, 0⟩ : Neighbor ℝ)]], row.length = 1)
  -- the 3-D engine leaves its last draw in the cache
  obtain ⟨hA, hrunA, hvA, hgA⟩ := initSolution_one_three _ 0 hdA
    { self := { sA with nearest := some [[⟨0, 0⟩]], P := some P, N := some 1 }, return_v := false,
      v_val := 0 } hsA.2.1 rfl hsA.2.2.1 rfl
  -- the 2-D engine, in a fresh process and after the 3-D one
  obtain ⟨h₁, hrun₁, hY₁⟩ := initSolution_one_two _ 0 hdB
    { self := { sB with nearest := some [[⟨0, 0⟩]], P := some P, N := some 1 }, return_v := false,
      v_val := 0 } hsB.2.1 rfl hsB.2.2.1
  obtain ⟨h₂, hrun₂, hY₂⟩ := initSolution_one_two _ 0 hdB
    { self := { sB with nearest := some [[⟨0, 0⟩]], P := some P, N := some 1 },
      return_v := hA.return_v, v_val := hA.v_val } hsB.2.1 rfl hsB.2.2.1
  refine ⟨sA, sB, hA, h₁, h₂, hsA.1, hsB.1,
    (initDataDist_run_ok _ 1 _ _ (by rw [hsA.2.2.2]; exact hP)).trans hrunA,
    (initDataDist_run_ok _ 1 _ _ (by rw [hsB.2.2.2]; exact hP)).trans hrun₁,
    (initDataDist_run_ok _ 1 _ _ (by rw [hsB.2.2.2]; exact hP)).trans hrun₂, ?_⟩
  rw [hY₁, hY₂, hvA, hgA]
  intro h
  simp only [if_true, Bool.false_eq_true, if_false, Option.some.injEq, List.cons.injEq, and_true,
    zero_add] at h
  -- the two first coordinates are `c/2·1E-4` and `-c/2·1E-4`
  have hrA : (2 * (1 / 4 : ℝ) - 1) * (2 * (1 / 4) - 1) + (2 * (1 / 4) - 1) * (2 * (1 / 4) - 1) =
      1 / 2 := by norm_num
  have hrB : (2 * (3 / 4 : ℝ) - 1) * (2 * (3 / 4) - 1) + (2 * (3 / 4) - 1) * (2 * (3 / 4) - 1) =
      1 / 2 := by norm_num
  rw [hrA, hrB, show (2 * (1 / 4 : ℝ) - 1) = -(1 / 2) by norm_num,
    show (2 * (3 / 4 : ℝ) - 1) = 1 / 2 by norm_num] at h
  have hlog : Real.log (1 / 2 : ℝ) < 0 := Real.log_neg (by norm_num) (by norm_num)
  have hc : 0 < Real.sqrt (-2 * Real.log (1 / 2) / (1 / 2)) :=
    Real.sqrt_pos.2 (div_pos (mul_pos_of_neg_of_neg (by norm_num) hlog) (by norm_num))
  linarith only [h, hc]

end BarnesHutTsne
