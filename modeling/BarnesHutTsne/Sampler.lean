import BarnesHutTsne.Engine

/-!
# The cached Gaussian sampler is the polar method

`gaussRandom` draws a pair `u, v` until it lands in the unit disc, returns the first deviate
`u·c` and caches the second `v·c` in the module variables `return_v` and `v_val`, which the next
call returns without drawing. The cache halves the draws; it must neither lose nor repeat a
deviate.

`polarPair` and `polarStream` are the polar method without a cache: the next pair in the disc
from a given draw, and the first `n` deviates, both of each pair in turn. From an empty cache,
`randnMatrix` fills its matrix with `1E-4` times the first `n · d` deviates of the stream, moves
the generator past the pairs they use, and leaves a deviate cached exactly when `n · d` is odd
(`randnMatrix_polar`); when the stream runs out of `fuel`, the call throws `RangeError`. The
proof steps through the indices two at a time, a drawing call and a cached one
(`gaussRandom_run_empty`, `gaussRandom_run_cached`).
-/

namespace BarnesHutTsne

variable {α : Type} [LinearOrderedField α] (m : JsMath α)

/-! ## The polar method without a cache -/

/-- The next pair of the polar method from draw `k`, within `fuel` attempts: its two deviates and
the draw after it. -/
def polarPair (rng : Nat → α) : Nat → Nat → Option ((α × α) × Nat)
  | 0, _ => none
  | fuel + 1, k =>
    let u := 2 * rng k - 1
    let v := 2 * rng (k + 1) - 1
    let r := u * u + v * v
    if r = 0 ∨ r > 1 then polarPair rng fuel (k + 2)
    else
      let c := m.sqrt (-2 * m.log r / r)
      some ((u * c, v * c), k + 2)

/-- The first `n` deviates of the polar method from draw `k`, both deviates of each pair in turn,
and the draw after the pairs they use. -/
def polarStream (rng : Nat → α) (fuel : Nat) : Nat → Nat → Option (List α × Nat)
  | 0, k => some ([], k)
  | 1, k => (polarPair m rng fuel k).map fun p => ([p.1.1], p.2)
  | n + 2, k => (polarPair m rng fuel k).bind fun p =>
      (polarStream rng fuel n p.2).map fun r => (p.1.1 :: p.1.2 :: r.1, r.2)

/-! ## One call -/

/-- From an empty cache a call takes the next pair: it returns the first deviate and caches the
second; when no pair lands in the disc within `fuel` attempts it throws `RangeError`. -/
theorem gaussRandom_run_empty :
    ∀ (fuel : Nat) (h : Heap α), h.return_v = false →
      (∀ a b k, polarPair m h.self.rng fuel h.self.draws = some ((a, b), k) →
        (gaussRandom m fuel).run h =
          .ok a { self := { h.self with draws := k }, return_v := true, v_val := b }) ∧
      (polarPair m h.self.rng fuel h.self.draws = none →
        ∃ h', (gaussRandom m fuel).run h = .error .rangeError h')
  | 0, h, _ => ⟨fun _ _ _ hp => (nomatch hp), fun _ => ⟨h, rfl⟩⟩
  | fuel + 1, h, hv => by
    have ih := gaussRandom_run_empty fuel
      { h with self := { h.self with draws := h.self.draws + 2 } } hv
    rw [gaussRandom_succ_run, if_neg (by rw [hv]; decide)]
    simp only [polarPair]
    split
    · exact ih
    · exact ⟨fun a b k hp => by cases hp; rfl, fun hp => nomatch hp⟩

/-- A call with a cached deviate returns it and empties the cache. -/
theorem gaussRandom_run_cached (fuel : Nat) (h : Heap α) (hv : h.return_v = true) :
    (gaussRandom m (fuel + 1)).run h = .ok h.v_val { h with return_v := false } := by
  rw [gaussRandom_succ_run, if_pos hv]

/-! ## The loop of `randnMatrix` -/

omit [LinearOrderedField α] in
theorem take_set_succ {x : List α} {s : Nat} (v : α) (hs : s < x.length) :
    (x.set s v).take (s + 1) = x.take s ++ [v] := by
  rw [List.set_eq_take_append_cons_drop, if_pos hs]
  simp [List.take_append_eq_append_take, hs.le]

/-- From an empty cache, two indices of the loop use one pair: the first call draws it, the second
returns its cached deviate. -/
theorem fillRandn_pair_run {fuel : Nat} {h : Heap α} (hv : h.return_v = false) {a b : α} {k : Nat}
    (hp : polarPair m h.self.rng (fuel + 1) h.self.draws = some ((a, b), k))
    (s : Nat) (is : List Nat) (x : List α) :
    (fillRandn m (fuel + 1) (s :: (s + 1) :: is) x).run h =
      (fillRandn m (fuel + 1) is ((x.set s (0 + a * (1 / 10 ^ 4))).set (s + 1) (0 + b * (1 / 10 ^ 4)))).run
        { self := { h.self with draws := k }, return_v := false, v_val := b } := by
  rw [fillRandn_cons_run, (gaussRandom_run_empty m (fuel + 1) h hv).1 a b k hp]
  dsimp only
  rw [fillRandn_cons_run, gaussRandom_run_cached m fuel _ rfl]

/-- From an empty cache, the loop over the indices `s, …, s + c - 1` writes `1E-4` times the first
`c` deviates of the polar stream there, and leaves a deviate cached exactly when `c` is odd. -/
theorem fillRandn_polar (fuel : Nat) :
    ∀ (c s : Nat) (x : List α) (h : Heap α), h.return_v = false → s + c ≤ x.length →
      (∀ ws k, polarStream m h.self.rng (fuel + 1) c h.self.draws = some (ws, k) →
        ∃ h', (fillRandn m (fuel + 1) (List.range' s c) x).run h =
            .ok (x.take s ++ ws.map (fun g => 0 + g * (1 / 10 ^ 4)) ++ x.drop (s + c)) h' ∧
          h'.self = { h.self with draws := k } ∧ h'.return_v = decide (c % 2 = 1)) ∧
      (polarStream m h.self.rng (fuel + 1) c h.self.draws = none →
        ∃ h', (fillRandn m (fuel + 1) (List.range' s c) x).run h = .error .rangeError h')
  | 0, s, x, h, hv, _ => by
    refine ⟨fun ws k hs => ?_, fun hs => nomatch hs⟩
    cases hs
    exact ⟨h, by simp [fillRandn, EStateM.run, pure, EStateM.pure], rfl, by simp [hv]⟩
  | 1, s, x, h, hv, hlen => by
    obtain ⟨hok, hnone⟩ := gaussRandom_run_empty m (fuel + 1) h hv
    refine ⟨fun ws k hs => ?_, fun hs => ?_⟩
    · obtain ⟨⟨⟨a, b⟩, k'⟩, hp, hws⟩ := Option.map_eq_some'.1 hs
      cases hws
      refine ⟨{ self := { h.self with draws := k' }, return_v := true, v_val := b }, ?_, rfl, rfl⟩
      rw [List.range'_one, fillRandn_cons_run, hok a b k' hp]
      simp [fillRandn, EStateM.run, pure, EStateM.pure, List.set_eq_take_append_cons_drop,
        show s < x.length by omega]
    · obtain ⟨h', he⟩ := hnone (Option.map_eq_none'.1 hs)
      exact ⟨h', by rw [List.range'_one, fillRandn_cons_run, he]⟩
  | n + 2, s, x, h, hv, hlen => by
    rw [show List.range' s (n + 2) = s :: (s + 1) :: List.range' (s + 2) n by
      simp [List.range'_succ]]
    refine ⟨fun ws k hs => ?_, fun hs => ?_⟩
    · obtain ⟨⟨⟨a, b⟩, k'⟩, hp, hws⟩ := Option.bind_eq_some.1 hs
      obtain ⟨⟨ws', k''⟩, hrest, hr⟩ := Option.map_eq_some'.1 hws
      cases hr
      -- the first call draws the pair, the second returns its cached deviate
      set x₂ := (x.set s (0 + a * (1 / 10 ^ 4))).set (s + 1) (0 + b * (1 / 10 ^ 4))
      obtain ⟨h', hrun, hself, hret⟩ := (fillRandn_polar fuel n (s + 2) x₂
        { self := { h.self with draws := k' }, return_v := false, v_val := b } rfl
        (by simp [x₂]; omega)).1 ws' k'' hrest
      refine ⟨h', ?_, hself, by rw [hret]; simp [Nat.add_mod_right]⟩
      rw [fillRandn_pair_run m hv hp, hrun]
      congr 1
      have htake : x₂.take (s + 2) = x.take s ++ [0 + a * (1 / 10 ^ 4), 0 + b * (1 / 10 ^ 4)] := by
        rw [take_set_succ _ (by simp; omega), take_set_succ _ (by omega)]; simp
      have hdrop : x₂.drop (s + 2 + n) = x.drop (s + (n + 2)) := by
        rw [List.drop_set_of_lt _ _ (by omega), List.drop_set_of_lt _ _ (by omega)]
        congr 1; omega
      rw [htake, hdrop]; simp
    · rcases hpair : polarPair m h.self.rng (fuel + 1) h.self.draws with _ | ⟨⟨a, b⟩, k'⟩
      · obtain ⟨h', he⟩ := (gaussRandom_run_empty m (fuel + 1) h hv).2 hpair
        exact ⟨h', by rw [fillRandn_cons_run, he]⟩
      · have hrest : polarStream m h.self.rng (fuel + 1) n k' = none := by
          simpa [polarStream, hpair] using hs
        obtain ⟨h', he⟩ := (fillRandn_polar fuel n (s + 2)
          ((x.set s (0 + a * (1 / 10 ^ 4))).set (s + 1) (0 + b * (1 / 10 ^ 4)))
          { self := { h.self with draws := k' }, return_v := false, v_val := b } rfl
          (by simp; omega)).2 hrest
        exact ⟨h', by rw [fillRandn_pair_run m hv hpair, he]⟩

/-- **The cached sampler is the polar method.** From an empty cache, `randnMatrix(n, d)` returns
`1E-4` times the first `n · d` deviates of the polar method without a cache, both deviates of
each pair in turn; it moves the generator past the pairs they use and nothing else of the engine,
and leaves a deviate cached exactly when `n · d` is odd. When the stream runs out of `fuel`, the
call throws `RangeError`. -/
theorem randnMatrix_polar (fuel n d : Nat) (h : Heap α) (hv : h.return_v = false) :
    (∀ ws k, polarStream m h.self.rng (fuel + 1) (n * d) h.self.draws = some (ws, k) →
      ∃ h', (randnMatrix m (fuel + 1) n d).run h = .ok (ws.map fun g => 0 + g * (1 / 10 ^ 4)) h' ∧
        h'.self = { h.self with draws := k } ∧ h'.return_v = decide (n * d % 2 = 1)) ∧
    (polarStream m h.self.rng (fuel + 1) (n * d) h.self.draws = none →
      ∃ h', (randnMatrix m (fuel + 1) n d).run h = .error .rangeError h') := by
  obtain ⟨hok, hnone⟩ := fillRandn_polar m fuel (n * d) 0 (zeros (n * d)) h hv (by simp [zeros])
  refine ⟨fun ws k hs => ?_, fun hs => by simpa [randnMatrix, List.range_eq_range'] using hnone hs⟩
  obtain ⟨h', hrun, hself, hret⟩ := hok ws k hs
  exact ⟨h', by simpa [randnMatrix, List.range_eq_range', zeros] using hrun, hself, hret⟩

/-- A fresh engine whose generator always returns `1/4`: every pair lands in the disc, and three
draws of `randnMatrix(1, 3)` use two pairs and leave the fourth deviate cached. -/
theorem randnMatrix_polar_fresh :
    ∃ h : Heap ℚ, h.return_v = false ∧ ∃ h', (randnMatrix (⟨id, id, id⟩ : JsMath ℚ) 2 1 3).run h =
      .ok [1 / 10 ^ 4, 1 / 10 ^ 4, 1 / 10 ^ 4] h' ∧ h'.self.draws = 4 ∧ h'.return_v = true := by
  let s : TSNE ℚ :=
    ⟨30, 10, fun _ => 1 / 4, 0, 0, none, none, none, none, none, none, 2, Or.inl rfl⟩
  have hstream : polarStream (⟨id, id, id⟩ : JsMath ℚ) s.rng (1 + 1) (1 * 3) s.draws =
      some ([1, 1, 1], 4) := by
    norm_num [polarStream, polarPair, s]
  obtain ⟨h', hrun, hself, hret⟩ := (randnMatrix_polar _ 1 1 3 ⟨s, false, 0⟩ rfl).1 _ _ hstream
  refine ⟨⟨s, false, 0⟩, rfl, h', by simpa using hrun, by rw [hself], by rw [hret]; rfl⟩

end BarnesHutTsne
