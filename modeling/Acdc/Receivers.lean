import Acdc.Assertions

/-!
# Receivers of a shared collection

The selection of `src/distribution.c:89–117` for every ratio in `[1, 100]` and every state of the
generator: which positions it draws, what it leaves of the array, and how many threads it selects.
The options describe that number as a percentage of all threads, `src/acdc.h:95`, and
`src/main.c:115–117` estimates with it.
-/

namespace Acdc

variable {σ : Type} {g : GOptions} {R : Generator σ}

/-! ### Draws -/

/-- `removeRandomThreads` with the positions that it draws, each with the size of the prefix
that is left. -/
def drawRandomThreads (R : Generator σ) :
    Nat → σ → List Nat → Nat → Except Stop (List (Int32 × Nat) × List Nat × Nat × σ)
  | 0, s, a, sz => .ok ([], a, sz, s)
  | m + 1, s, a, sz => do
    let (r, s) ← getRandIntRange R s 0 (Int32.ofNat sz - 1)
    let (draws, rest) ←
      drawRandomThreads R m s (swapInt a r.toNatClampNeg (sz - 1)) (sz - 1)
    return ((r, sz) :: draws, rest)

/-- The positions do not change what is removed. -/
theorem map_drawRandomThreads (m : Nat) (s : σ) (a : List Nat) (sz : Nat) :
    (drawRandomThreads R m s a sz).map Prod.snd = removeRandomThreads R m s a sz := by
  induction m generalizing s a sz with
  | zero => rfl
  | succ m ih =>
    rw [drawRandomThreads, removeRandomThreads]
    cases getRandIntRange R s 0 (Int32.ofNat sz - 1) with
    | error e => rfl
    | ok p =>
      obtain ⟨r, t⟩ := p
      simp only [bind, Except.bind]
      rw [← ih t (swapInt a r.toNatClampNeg (sz - 1)) (sz - 1)]
      cases drawRandomThreads R m t (swapInt a r.toNatClampNeg (sz - 1)) (sz - 1) <;> rfl

/-- Up to as many removals as there are elements succeed. Each draws a position of the prefix
that is left, and the array stays a permutation. -/
theorem drawRandomThreads_spec {m : Nat} (s : σ) {a : List Nat} {sz : Nat} (hm : m ≤ sz)
    (hs : sz ≤ a.length) (hb : sz < 2 ^ 31) :
    ∃ draws a' s', drawRandomThreads R m s a sz = .ok (draws, a', sz - m, s') ∧ a'.Perm a ∧
      ∀ d ∈ draws, 0 ≤ d.1.toInt ∧ d.1.toInt < d.2 := by
  induction m generalizing s a sz with
  | zero => exact ⟨[], a, s, rfl, .refl a, nofun⟩
  | succ m ih =>
    obtain ⟨r, hr, hlo, hhi, hi⟩ := getRandIntRange_position R s (by omega : 0 < sz) hb
    have hp : (swapInt a r.toNatClampNeg (sz - 1)).Perm a :=
      swapInt_perm (by omega) (by omega)
    obtain ⟨draws, a', s', hd, hp', hdraws⟩ := ih (R.next s)
      (by omega : m ≤ sz - 1) (by rw [hp.length_eq]; omega) (by omega)
    refine ⟨(r, sz) :: draws, a', s', ?_, hp'.trans hp, ?_⟩
    · rw [drawRandomThreads, hr]
      simp only [bind, Except.bind, hd, pure, Except.pure]
      rw [show sz - 1 - m = sz - (m + 1) by omega]
    · intro d hd
      obtain rfl | hd := List.mem_cons.mp hd
      · exact ⟨hlo, hhi⟩
      · exact hdraws d hd

/-! ### Selection -/

private theorem getRandomThreadSelection_eq {s s' : σ} {a : List Nat} {k : Nat}
    (h0 : 0 < g.receivingThreadsRatio.toInt) (h1 : g.receivingThreadsRatio.toInt ≤ 100)
    (h : removeRandomThreads R (removals g) s (List.range g.threads) g.threads =
      .ok (a, k, s')) : getRandomThreadSelection g R s = .ok (a.take k, s') := by
  have hne : g.receivingThreadsRatio ≠ 0 := by
    intro h
    rw [h] at h0
    exact absurd h0 (by decide)
  have hdiv : 100 / g.receivingThreadsRatio ≠ 0 := by
    rw [ne_eq, hundred_div_eq_zero_iff hne]
    omega
  rw [removals] at h
  rw [getRandomThreadSelection, if_neg (not_or.mpr ⟨hne, hdiv⟩)]
  simp only [h, bind, Except.bind, pure, Except.pure]

/-- Every selection succeeds, and its draws are those of the removals. -/
theorem getRandomThreadSelection_eq_ok (hn : 0 < g.numThreads.toInt)
    (h0 : 0 < g.receivingThreadsRatio.toInt) (h1 : g.receivingThreadsRatio.toInt ≤ 100) (s : σ) :
    ∃ draws a s',
      drawRandomThreads R (removals g) s (List.range g.threads) g.threads = .ok (draws, a,
        g.threads / (100 / g.receivingThreadsRatio.toNatClampNeg), s') ∧
      getRandomThreadSelection g R s = .ok
        (a.take (g.threads / (100 / g.receivingThreadsRatio.toNatClampNeg)), s') ∧
      a.Perm (List.range g.threads) ∧ ∀ d ∈ draws, 0 ≤ d.1.toInt ∧ d.1.toInt < d.2 := by
  have hle := Nat.div_le_self g.threads (100 / g.receivingThreadsRatio.toNatClampNeg)
  have hm : removals g =
      g.threads - g.threads / (100 / g.receivingThreadsRatio.toNatClampNeg) :=
    toNatClampNeg_removals g (Int.le_of_lt hn) h0
  obtain ⟨draws, a, s', hd, hp, hdraws⟩ := drawRandomThreads_spec (R := R) (m := removals g) s
    (removals_le (Int.le_of_lt h0)) (Nat.le_of_eq List.length_range.symm) g.threads_lt
  rw [hm, Nat.sub_sub_self hle, ← hm] at hd
  have hrem := map_drawRandomThreads (R := R) (removals g) s (List.range g.threads) g.threads
  rw [hd] at hrem
  exact ⟨draws, a, s', hd, getRandomThreadSelection_eq h0 h1 hrem.symm, hp, hdraws⟩

/-- Every selection succeeds. It draws from the prefix that is left, keeps the array a
permutation of the threads, and selects different ones. -/
theorem selection_distinct (hn : 0 < g.numThreads.toInt)
    (h0 : 0 < g.receivingThreadsRatio.toInt) (h1 : g.receivingThreadsRatio.toInt ≤ 100) (s : σ) :
    ∃ draws a s',
      drawRandomThreads R (removals g) s (List.range g.threads) g.threads = .ok (draws, a,
        g.threads / (100 / g.receivingThreadsRatio.toNatClampNeg), s') ∧
      getRandomThreadSelection g R s = .ok
        (a.take (g.threads / (100 / g.receivingThreadsRatio.toNatClampNeg)), s') ∧
      (a.take (g.threads / (100 / g.receivingThreadsRatio.toNatClampNeg))).length =
        g.threads / (100 / g.receivingThreadsRatio.toNatClampNeg) ∧
      (a.take (g.threads / (100 / g.receivingThreadsRatio.toNatClampNeg))).Nodup ∧
      (∀ r ∈ a.take (g.threads / (100 / g.receivingThreadsRatio.toNatClampNeg)),
        r < g.threads) ∧
      a.Perm (List.range g.threads) ∧ ∀ d ∈ draws, 0 ≤ d.1.toInt ∧ d.1.toInt < d.2 := by
  have hle := Nat.div_le_self g.threads (100 / g.receivingThreadsRatio.toNatClampNeg)
  obtain ⟨draws, a, s', hd, hsel, hp, hdraws⟩ :=
    getRandomThreadSelection_eq_ok (R := R) hn h0 h1 s
  refine ⟨draws, a, s', hd, hsel, ?_, ?_, ?_, hp, hdraws⟩
  · rw [List.length_take, hp.length_eq, List.length_range]
    exact Nat.min_eq_left hle
  · exact (hp.nodup_iff.mpr List.nodup_range).sublist (List.take_sublist _ a)
  · exact fun r hr ↦ List.mem_range.mp (hp.mem_iff.mp (List.mem_of_mem_take hr))

/-- Half of three threads. -/
theorem selection_distinct_three :
    let g := sharingOptions 3 1 0 50
    ∃ draws a s',
      drawRandomThreads (schrage g) 2 (1 : Int32) [0, 1, 2] 3 = .ok (draws, a, 1, s') ∧
      getRandomThreadSelection g (schrage g) 1 = .ok (a.take 1, s') ∧ (a.take 1).length = 1 ∧
      (a.take 1).Nodup ∧ (∀ r ∈ a.take 1, r < 3) ∧ a.Perm [0, 1, 2] ∧
      ∀ d ∈ draws, 0 ≤ d.1.toInt ∧ d.1.toInt < d.2 := by
  intro g
  have h := selection_distinct (g := g) (R := schrage g) (by decide) (by decide) (by decide) 1
  have hm : removals g = 2 := by decide
  have hk : g.threads / (100 / g.receivingThreadsRatio.toNatClampNeg) = 1 := by decide
  have ht : g.threads = 3 := by decide
  rw [hm, hk, ht] at h
  exact h

/-! ### Percentage -/

/-- The two ways to take a percentage: the quotient by the quotient of 100 is the percentage
exactly if what the inner quotient drops weighs no more than what the outer one does. -/
theorem div_hundred_div_eq_iff {T : Nat} (n : Nat) (h0 : 0 < T) (h1 : T ≤ 100) :
    n / (100 / T) = n * T / 100 ↔ n * (100 % T) ≤ 100 * (n % (100 / T)) := by
  obtain ⟨q, hq⟩ : ∃ q, q = 100 / T := ⟨_, rfl⟩
  obtain ⟨r, hr⟩ : ∃ r, r = 100 % T := ⟨_, rfl⟩
  have hq0 : 0 < q := hq ▸ Nat.div_pos h1 h0
  have hqr : 100 = T * q + r := by rw [hq, hr, Nat.div_add_mod]
  obtain ⟨k, hk⟩ : ∃ k, k = n / q := ⟨_, rfl⟩
  obtain ⟨m, hm⟩ : ∃ m, m = n % q := ⟨_, rfl⟩
  have hmq : m < q := hm ▸ Nat.mod_lt n hq0
  have hnk : n = q * k + m := by rw [hk, hm, Nat.div_add_mod]
  have hcross : n * T + k * r = 100 * k + T * m := by
    calc n * T + k * r = (T * q + r) * k + T * m := by rw [hnk]; ring
      _ = 100 * k + T * m := by rw [← hqr]
  have hweight : n * r ≤ 100 * m ↔ k * r ≤ T * m := by
    have hleft : n * r = q * (k * r) + r * m := by rw [hnk]; ring
    have hright : 100 * m = q * (T * m) + r * m := by
      calc 100 * m = (T * q + r) * m := by rw [← hqr]
        _ = q * (T * m) + r * m := by ring
    rw [hleft, hright, Nat.add_le_add_iff_right, Nat.mul_le_mul_left_iff hq0]
  have hbound : T * (m + 1) ≤ T * q := Nat.mul_le_mul_left T hmq
  rw [Nat.mul_succ] at hbound
  rw [← hq, ← hr, ← hk, ← hm, hweight]
  omega

/-- The number of receivers is the requested percentage of the threads if and only if what
`100 / T` drops weighs no more than what the threads leave over. -/
theorem receivers_percentage_iff (hn : 0 < g.numThreads.toInt)
    (h0 : 0 < g.receivingThreadsRatio.toInt) (h1 : g.receivingThreadsRatio.toInt ≤ 100) (s : σ) :
    (∃ rs s', getRandomThreadSelection g R s = .ok (rs, s') ∧
      rs.length = g.threads * g.receivingThreadsRatio.toNatClampNeg / 100) ↔
    g.threads * (100 % g.receivingThreadsRatio.toNatClampNeg) ≤
      100 * (g.threads % (100 / g.receivingThreadsRatio.toNatClampNeg)) := by
  have hT : g.receivingThreadsRatio.toInt = g.receivingThreadsRatio.toNatClampNeg := by
    rw [Int32.toNatClampNeg]
    omega
  rw [← div_hundred_div_eq_iff g.threads (by omega) (by omega)]
  constructor
  · intro ⟨rs, s', hrs, hlen⟩
    rw [← hlen, length_selection g R hrs (Int.le_of_lt hn) h0]
  · intro he
    obtain ⟨-, a, s', -, hsel, -⟩ := getRandomThreadSelection_eq_ok (R := R) hn h0 h1 s
    exact ⟨_, s', hsel, (length_selection g R hsel (Int.le_of_lt hn) h0).trans he⟩

/-- Half of two threads. -/
theorem receivers_percentage_iff_two :
    let g := sharingOptions 2 1 0 50
    ∃ rs s', getRandomThreadSelection g (schrage g) 1 = .ok (rs, s') ∧ rs.length = 1 := by
  intro g
  have h := receivers_percentage_iff (g := g) (R := schrage g) (by decide) (by decide)
    (by decide) 1
  have hk : g.threads * g.receivingThreadsRatio.toNatClampNeg / 100 = 1 := by decide
  rw [hk] at h
  exact h.mpr (by decide)

/-- All of ten threads instead of 60 percent. -/
theorem not_forall_receivers_percentage :
    ¬ ∀ (g : GOptions) (s : Int32), 0 < g.numThreads.toInt → 0 < g.receivingThreadsRatio.toInt →
      g.receivingThreadsRatio.toInt ≤ 100 →
        ∃ rs s', getRandomThreadSelection g (schrage g) s = .ok (rs, s') ∧
          rs.length = g.threads * g.receivingThreadsRatio.toNatClampNeg / 100 := by
  intro h
  obtain ⟨rs, s', hrs, hlen⟩ := h
    { GOptions.setDefaultParams with numThreads := 10, receivingThreadsRatio := 60 } 1
    (by decide) (by decide) (by decide)
  rw [length_selection _ _ hrs (by decide) (by decide)] at hlen
  exact absurd hlen (by decide)

end Acdc
