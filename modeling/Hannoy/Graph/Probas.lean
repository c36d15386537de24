import Hannoy.Model.Levels
import Mathlib.Analysis.SpecialFunctions.Log.Basic

/-!
# The probabilities of the levels (`hnsw.rs:93-119`)

In exact arithmetic the probability of level `L` is `q ^ L * (1 - q)` for `q = 1 / (M + ε)`, with
`ε` for `f32::EPSILON`, or 0 where it is rounded off. With at least two links per node `q` is at
most one half, so the loop meets a probability below the threshold at level 30 at the latest.

* `exists_probas`: the loop of `get_default_probas` ends, and what it yields.
* `level_lt`: a level that is drawn is below 30.
-/

namespace Hannoy.Graph

open Hannoy.HnswBuilder

/-- The operations in exact arithmetic. -/
noncomputable def exactMath (ε : ℝ) : LevelMath ℝ where
  zero := 0
  sumStart := 0
  add := (· + ·)
  sub := (· - ·)
  mul := (· * ·)
  mulAdd a b c := a * b + c
  one := 1
  minusOne := -1
  epsilon := ε
  threshold := 1 / 10 ^ 9
  ofUsize n := n
  div := (· / ·)
  exp := Real.exp
  ln := Real.log
  lt a b := decide (a < b)

/-- `1 / (M + ε)`. -/
noncomputable def ratio (ε : ℝ) (M : Nat) : ℝ := (M + ε)⁻¹

variable {ε : ℝ} {M : Nat} {G : Type}

section ratio

variable (hM : 2 ≤ M) (hε : 0 ≤ ε)

include hM hε

theorem ratio_pos : 0 < ratio ε M := by
  have hM' : (2 : ℝ) ≤ M := by exact_mod_cast hM
  exact inv_pos.mpr (by linarith)

theorem ratio_le_half : ratio ε M ≤ 1 / 2 := by
  have hM' : (2 : ℝ) ≤ M := by exact_mod_cast hM
  rw [ratio, one_div]
  exact inv_anti₀ two_pos (by linarith)

theorem proba_eq (level : Nat) :
    proba (exactMath ε) M level = ratio ε M ^ level * (1 - ratio ε M) := by
  have hbase : 0 < (M : ℝ) + ε := inv_pos.mp (ratio_pos hM hε)
  have hexp : Real.exp (-1 / (1 / Real.log (M + ε))) = ratio ε M := by
    rw [one_div, div_inv_eq_mul, neg_one_mul, Real.exp_neg, Real.exp_log hbase, ratio]
  show Real.exp (level * (-1 / (1 / Real.log (M + ε)))) *
    (1 - Real.exp (-1 / (1 / Real.log (M + ε)))) = _
  rw [Real.exp_nat_mul, hexp]

theorem proba_pos (level : Nat) : 0 < proba (exactMath ε) M level := by
  have hpos := ratio_pos hM hε
  have hhalf := ratio_le_half hM hε
  rw [proba_eq hM hε]
  exact mul_pos (pow_pos hpos level) (by linarith)

/-- The first level is more likely than not. -/
theorem half_le_proba_zero : 1 / 2 ≤ proba (exactMath ε) M 0 := by
  have hhalf := ratio_le_half hM hε
  rw [proba_eq hM hε, pow_zero, one_mul]
  linarith

/-- Level 30 is below the threshold. -/
theorem proba_thirty_lt : proba (exactMath ε) M 30 < 1 / 10 ^ 9 := by
  have hpos := ratio_pos hM hε
  calc proba (exactMath ε) M 30 = ratio ε M ^ 30 * (1 - ratio ε M) := proba_eq hM hε 30
    _ ≤ ratio ε M ^ 30 := mul_le_of_le_one_right (pow_nonneg hpos.le 30) (by linarith)
    _ ≤ (1 / 2) ^ 30 := pow_le_pow_left₀ hpos.le (ratio_le_half hM hε) 30
    _ < 1 / 10 ^ 9 := by norm_num

/-- The levels below `n` leave `q ^ n`. -/
theorem sum_probas (n : Nat) :
    ((List.range n).map (proba (exactMath ε) M)).sum = 1 - ratio ε M ^ n := by
  induction n with
  | zero => simp
  | succ n ih =>
    rw [List.range_succ, List.map_append, List.sum_append, ih, List.map_singleton,
      List.sum_singleton, proba_eq hM hε, pow_succ]
    ring

end ratio

/-! ## The loop -/

/-- A loop that stops at level `n` has collected the levels below. -/
theorem probasLoop_eq {R : Type} {A : LevelMath R} {n : Nat}
    (hstop : A.lt (proba A M n) A.threshold = true)
    (hgo : ∀ level < n, A.lt (proba A M level) A.threshold = false) :
    ∀ {fuel level : Nat} (assignProbas : List R), level ≤ n → n - level < fuel →
      probasLoop A M fuel level assignProbas =
        some (assignProbas ++ (List.range' level (n - level)).map (proba A M))
  | 0, _, _, _, h => absurd h (Nat.not_lt_zero _)
  | fuel + 1, level, assignProbas, hle, hfuel => by
    rw [probasLoop]
    rcases Nat.eq_or_lt_of_le hle with rfl | hlt
    · rw [if_pos hstop, Nat.sub_self, List.range'_zero, List.map_nil, List.append_nil]
    · have hsub : n - level = n - (level + 1) + 1 := by omega
      rw [if_neg (by rw [hgo level hlt]; exact Bool.false_ne_true),
        probasLoop_eq hstop hgo _ hlt (by omega), hsub, List.range'_succ, List.map_cons,
        List.append_assoc, List.singleton_append]

/-- **The loop ends** after at most 31 rounds: it yields the probabilities of the levels below the
first one that is too unlikely. -/
theorem exists_probas (hM : 2 ≤ M) (hε : 0 ≤ ε) : ∃ n, 0 < n ∧ n ≤ 30 ∧
    ∀ fuel, n < fuel → getDefaultProbas (exactMath ε) M fuel =
      some ((List.range n).map (proba (exactMath ε) M)) := by
  have hex : ∃ n, proba (exactMath ε) M n < 1 / 10 ^ 9 := ⟨30, proba_thirty_lt hM hε⟩
  refine ⟨Nat.find hex, Nat.pos_of_ne_zero fun h0 => ?_, Nat.find_le (proba_thirty_lt hM hε),
    fun fuel hfuel => ?_⟩
  · have hlt := Nat.find_spec hex
    have hhalf := half_le_proba_zero hM hε
    rw [h0] at hlt
    norm_num at hlt hhalf
    linarith
  · have hloop : probasLoop (exactMath ε) M fuel 0 [] = _ :=
      probasLoop_eq (decide_eq_true (Nat.find_spec hex))
        (fun level hlevel => decide_eq_false (Nat.find_min hex hlevel)) []
        (Nat.zero_le _) (by omega)
    rw [getDefaultProbas, hloop, List.nil_append, Nat.sub_zero, ← List.range_eq_range']

/-- More rounds do not change what the loop yields. -/
theorem probasLoop_mono {R : Type} {A : LevelMath R} {w : List R} : ∀ {fuel fuel' level : Nat}
    {assignProbas : List R}, fuel ≤ fuel' → probasLoop A M fuel level assignProbas = some w →
      probasLoop A M fuel' level assignProbas = some w
  | 0, _, _, _, _, h => by cases h
  | fuel + 1, 0, _, _, hle, _ => absurd hle (Nat.not_succ_le_zero _)
  | fuel + 1, fuel' + 1, level, assignProbas, hle, h => by
    rw [probasLoop] at h ⊢
    split_ifs at h ⊢
    · exact h
    · exact probasLoop_mono (Nat.le_of_succ_le_succ hle) h

/-- What the loop yields when it ends. -/
theorem probas_eq (hM : 2 ≤ M) (hε : 0 ≤ ε) {fuel : Nat} {w : List ℝ}
    (h : getDefaultProbas (exactMath ε) M fuel = some w) :
    ∃ n, 0 < n ∧ n ≤ 30 ∧ w = (List.range n).map (proba (exactMath ε) M) := by
  obtain ⟨n, hpos, hle, hloop⟩ := exists_probas hM hε
  have hmore := probasLoop_mono (Nat.le_max_left fuel (n + 1)) h
  have hn : n < max fuel (n + 1) := Nat.lt_of_lt_of_le n.lt_succ_self (Nat.le_max_right _ _)
  exact ⟨n, hpos, hle, Option.some.inj (hmore.symm.trans (hloop _ hn))⟩

/-! ## Drawing -/

variable {S : Sampler ℝ G}

/-- A level is drawn, below 30. -/
theorem exists_level (hS : S.Faithful) (hM : 2 ≤ M) (hε : 0 ≤ ε) {n : Nat} (hpos : 0 < n)
    (rng : G) : ∃ level < n,
      getRandomLevel S ((List.range n).map (proba (exactMath ε) M)) rng = some level := by
  have hweights : ∀ w ∈ (List.range n).map (proba (exactMath ε) M), 0 < w := by
    intro w hw
    obtain ⟨level, -, rfl⟩ := List.mem_map.mp hw
    exact proba_pos hM hε level
  have hfirst : proba (exactMath ε) M 0 ∈ (List.range n).map (proba (exactMath ε) M) :=
    List.mem_map_of_mem (List.mem_range.mpr hpos)
  obtain ⟨level, hlt, hdraw⟩ := hS.draws _ rng (fun w hw => (hweights w hw).le)
    ⟨_, hfirst, hweights _ hfirst⟩
  rw [List.length_map, List.length_range] at hlt
  exact ⟨level, hlt, hdraw⟩

/-- **The levels of a build are below 30.** -/
theorem level_lt (hS : S.Faithful) (hM : 2 ≤ M) (hε : 0 ≤ ε) {schedule : Schedule}
    (h : schedule.Drawn (exactMath ε) S M) (x : ItemId) : schedule.level x < 30 := by
  obtain ⟨fuel, w, hprobas, hdraw⟩ := h
  obtain ⟨rng, hx⟩ := hdraw x
  obtain ⟨n, hpos, hle, rfl⟩ := probas_eq hM hε hprobas
  obtain ⟨level, hlt, hlevel⟩ := exists_level hS hM hε hpos rng
  rw [Option.some.inj (hx.symm.trans hlevel)]
  exact hlt.trans_le hle

/-! ## A sampler -/

/-- Where a point of the line falls when the weights are laid on it one after the other. -/
noncomputable def landing : List ℝ → ℝ → Nat
  | [], _ => 0
  | [_], _ => 0
  | w :: w' :: weights, point => if point < w then 0 else landing (w' :: weights) (point - w) + 1

/-- The sampler whose generator yields a point of the line. -/
noncomputable def lineSampler : Sampler ℝ ℝ :=
  ⟨fun weights point => if weights.length = 0 then none else some (landing weights point)⟩

theorem landing_lt : ∀ {weights : List ℝ} (point : ℝ), weights ≠ [] →
    landing weights point < weights.length
  | [], _, h => absurd rfl h
  | [_], _, _ => Nat.one_pos
  | w :: w' :: weights, point, _ => by
    rw [landing]
    split_ifs
    · exact Nat.succ_pos _
    · exact Nat.succ_lt_succ (landing_lt (point - w) (List.cons_ne_nil _ _))

theorem lineSampler_faithful : lineSampler.Faithful where
  draws weights point _ h := by
    obtain ⟨w, hw, -⟩ := h
    have hne : weights ≠ [] := List.ne_nil_of_mem hw
    exact ⟨_, landing_lt point hne, if_neg fun h0 => hne (List.length_eq_zero_iff.mp h0)⟩

/-- The point 0 falls on the first weight. -/
theorem landing_zero : ∀ {weights : List ℝ}, (∀ w ∈ weights, 0 < w) → landing weights 0 = 0
  | [], _ => rfl
  | [_], _ => rfl
  | w :: w' :: weights, h => by rw [landing, if_pos (h w List.mem_cons_self)]

/-- With the points at 0 every item is on level 0. -/
theorem drawn_oneLevel : Environment.oneLevel.schedule.Drawn (exactMath 0) lineSampler 2 := by
  obtain ⟨n, hpos, -, hloop⟩ := exists_probas (M := 2) le_rfl le_rfl
  refine ⟨n + 1, _, hloop _ n.lt_succ_self, fun x => ⟨0, ?_⟩⟩
  have hlength : ((List.range n).map (proba (exactMath 0) 2)).length ≠ 0 := by
    rw [List.length_map, List.length_range]
    exact hpos.ne'
  refine (if_neg hlength).trans (congrArg some (landing_zero fun w hw => ?_))
  obtain ⟨level, -, rfl⟩ := List.mem_map.mp hw
  exact proba_pos le_rfl le_rfl level

end Hannoy.Graph
