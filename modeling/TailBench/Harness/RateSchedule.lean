import TailBench.Harness.Client
import Mathlib.Algebra.Order.Ring.Rat
import Mathlib.Algebra.BigOperators.Intervals
import Mathlib.Tactic

set_option autoImplicit false

/-! # The schedule of rates

With a variable rate the client goes from one rate to the next by `startReqRate`. The schedule on
its own: the rate and the interval after `k` changes, as functions of the configuration
(`Config.rate`, `Config.interval`), and what the rounding of the intervals comes to. Each interval
is computed from the one before, not from the first, so the errors are scaled with the rates and
add up.
-/

namespace TailBench

namespace Config

/-- The rate after `k` changes. -/
def rate (cfg : Config) (k : Nat) : ℚ :=
  if cfg.qpsVar = 1 then cfg.iniQPS / 1000000000 + k * cfg.qpsStep
  else if cfg.qpsVar = 2 then cfg.listQPS.getD (k % cfg.listQPS.length) 0
  else cfg.iniQPS / 1000000000

/-- The interval after `k` changes. -/
def interval (cfg : Config) : Nat → Int
  | 0 => cfg.intervalQPS
  | k + 1 =>
      if cfg.qpsVar = 2 then Client.nextInterval (cfg.rate k) (cfg.rate (k + 1)) (cfg.interval k)
      else cfg.interval k

theorem rate_zero (cfg : Config) : cfg.rate 0 = cfg.iniQPS / 1000000000 := by
  unfold rate
  split
  · simp
  · split
    · simp [listQPS]
    · rfl

/-- The rates of a list of positive rates are positive. -/
theorem rate_pos {cfg : Config} (hvar : cfg.qpsVar = 2) (hpos : ∀ q ∈ cfg.listQPS, 0 < q)
    (k : Nat) : 0 < cfg.rate k := by
  have hlt : k % cfg.listQPS.length < cfg.listQPS.length := Nat.mod_lt _ (by simp [listQPS])
  rw [rate, if_neg (by omega), if_pos hvar, List.getD_eq_getElem?_getD,
    List.getElem?_eq_getElem hlt, Option.getD_some]
  exact hpos _ (List.getElem_mem hlt)

end Config

/-! ## Rounding -/

/-- **One change of the interval**: rounded down when the rate does not fall, to the next number
above when it falls. -/
theorem nextInterval_bounds {a b : ℚ} {i : Int} (ha : 0 < a) (hb : 0 < b) (hi : 1 ≤ i) :
    if b < a then (i * (b / a) : ℚ) < Client.nextInterval a b i ∧
      (Client.nextInterval a b i : ℚ) ≤ i * (b / a) + 1
    else (i * (b / a) : ℚ) - 1 < Client.nextInterval a b i ∧
      (Client.nextInterval a b i : ℚ) ≤ i * (b / a) := by
  have hiq : (0 : ℚ) ≤ i := by exact_mod_cast (by omega : (0 : Int) ≤ i)
  have hnonneg : (0 : ℚ) ≤ i * (b / a) := mul_nonneg hiq (div_pos hb ha).le
  have hfloor := Int.floor_le (i * (b / a) : ℚ)
  have hlt := Int.lt_floor_add_one (i * (b / a) : ℚ)
  by_cases hba : b < a
  · simp only [Client.nextInterval, if_pos hnonneg, if_pos hba, Int.cast_add, Int.cast_one]
    exact ⟨hlt, by linarith⟩
  · simp only [Client.nextInterval, if_pos hnonneg, if_neg hba]
    exact ⟨by linarith, hfloor⟩

/-- An interval does not vanish. -/
theorem nextInterval_pos {a b : ℚ} {i : Int} (ha : 0 < a) (hb : 0 < b) (hi : 1 ≤ i) :
    1 ≤ Client.nextInterval a b i := by
  have hiq : (1 : ℚ) ≤ i := by exact_mod_cast hi
  have hbounds := nextInterval_bounds ha hb hi
  have hprod : (0 : ℚ) < i * (b / a) := mul_pos (by linarith) (div_pos hb ha)
  split at hbounds
  · have hpos : (0 : ℚ) < Client.nextInterval a b i := hprod.trans hbounds.1
    have hpos : 0 < Client.nextInterval a b i := by exact_mod_cast hpos
    omega
  -- the ratio is at least 1
  · next hba =>
      have hratio : 1 ≤ b / a := (one_le_div ha).mpr (not_lt.mp hba)
      have hle : (i : ℚ) ≤ i * (b / a) := le_mul_of_one_le_right (by linarith) hratio
      have hpos : (0 : ℚ) < Client.nextInterval a b i := by linarith [hbounds.1]
      have hpos : 0 < Client.nextInterval a b i := by exact_mod_cast hpos
      omega

/-- The distance from the exact quotient is at most one request. -/
theorem abs_nextInterval_sub_le {a b : ℚ} {i : Int} (ha : 0 < a) (hb : 0 < b) (hi : 1 ≤ i) :
    |(Client.nextInterval a b i : ℚ) - i * (b / a)| ≤ 1 := by
  have hbounds := nextInterval_bounds ha hb hi
  rw [abs_le]
  split at hbounds
  · exact ⟨by linarith, by linarith⟩
  · exact ⟨by linarith, by linarith⟩

namespace Config

variable {cfg : Config}

theorem interval_pos (hint : 1 ≤ cfg.intervalQPS)
    (hpos : cfg.qpsVar = 2 → ∀ q ∈ cfg.listQPS, 0 < q) (k : Nat) : 1 ≤ cfg.interval k := by
  induction k with
  | zero => exact hint
  | succ k ih =>
      rw [interval]
      split
      · next hvar =>
          have hrate := rate_pos hvar (hpos hvar)
          exact nextInterval_pos (hrate k) (hrate (k + 1)) ih
      · exact ih

/-- **The accumulated rounding.** Each change adds an error of at most one request, which later
changes scale with the rate. -/
theorem abs_interval_sub_le (hvar : cfg.qpsVar = 2) (hpos : ∀ q ∈ cfg.listQPS, 0 < q)
    (hint : 1 ≤ cfg.intervalQPS) (k : Nat) :
    |(cfg.interval k : ℚ) - cfg.intervalQPS * (cfg.rate k / cfg.rate 0)| ≤
      ∑ j ∈ Finset.range k, cfg.rate k / cfg.rate (j + 1) := by
  have hrate := rate_pos hvar hpos
  induction k with
  | zero => simp [interval, div_self (hrate 0).ne']
  | succ k ih =>
      have hstep : |(cfg.interval (k + 1) : ℚ) - cfg.interval k * (cfg.rate (k + 1) / cfg.rate k)|
          ≤ 1 := by
        rw [interval, if_pos hvar]
        exact abs_nextInterval_sub_le (hrate k) (hrate (k + 1))
          (interval_pos hint (fun _ => hpos) k)
      -- the error before the change, scaled with the rate
      have hscaled : |((cfg.interval k : ℚ) - cfg.intervalQPS * (cfg.rate k / cfg.rate 0)) *
          (cfg.rate (k + 1) / cfg.rate k)| ≤
          ∑ j ∈ Finset.range k, cfg.rate (k + 1) / cfg.rate (j + 1) := by
        rw [abs_mul, abs_of_pos (div_pos (hrate (k + 1)) (hrate k))]
        calc _ ≤ (∑ j ∈ Finset.range k, cfg.rate k / cfg.rate (j + 1)) *
              (cfg.rate (k + 1) / cfg.rate k) :=
              mul_le_mul_of_nonneg_right ih (div_pos (hrate (k + 1)) (hrate k)).le
          _ = ∑ j ∈ Finset.range k, cfg.rate (k + 1) / cfg.rate (j + 1) := by
              rw [Finset.sum_mul]
              refine Finset.sum_congr rfl fun j _ => ?_
              have hk := (hrate k).ne'
              field_simp
      have hsplit : (cfg.interval (k + 1) : ℚ) -
          cfg.intervalQPS * (cfg.rate (k + 1) / cfg.rate 0) =
          ((cfg.interval k : ℚ) - cfg.intervalQPS * (cfg.rate k / cfg.rate 0)) *
            (cfg.rate (k + 1) / cfg.rate k) +
          ((cfg.interval (k + 1) : ℚ) - cfg.interval k * (cfg.rate (k + 1) / cfg.rate k)) := by
        have hk := (hrate k).ne'
        have hzero := (hrate 0).ne'
        field_simp
        ring
      rw [hsplit, Finset.sum_range_succ, div_self (hrate (k + 1)).ne']
      exact (abs_add_le _ _).trans (add_le_add hscaled hstep)

end Config

/-! ## The client on its schedule -/

namespace Client

variable {cfg : Config} {c : Client}

/-- The client has changed its rate `k` times. -/
structure OnSchedule (cfg : Config) (k : Nat) (c : Client) : Prop where
  qpsIni : c.qpsIni = cfg.rate k
  qpsInterval : c.qpsInterval = cfg.interval k
  idxListQPS : cfg.qpsVar = 2 → c.idxListQPS = k + 1
  dist : cfg.qpsVar ≠ 0 → ∀ d, c.dist = some d → d.lambda = cfg.rate k

theorem new_onSchedule (cfg : Config) : (Client.new cfg).OnSchedule cfg 0 where
  qpsIni := cfg.rate_zero.symm
  qpsInterval := rfl
  idxListQPS := fun _ => rfl
  dist := by intro _ d hd; cases hd

/-- The first call makes the first distribution. -/
theorem startReqInit_of_none (ns : UInt64) (h : c.dist = none) :
    (c.startReqInit cfg ns).1 =
      { c with
        dist := some (ExpDist.new (if cfg.qpsVar = 0 then cfg.lambda else c.qpsIni) cfg.seed ns)
        status := .WARMUP } := by
  rw [startReqInit, h]

/-- It has the rate in force. -/
theorem OnSchedule.startReqInit {k : Nat} (hs : c.OnSchedule cfg k) (ns : UInt64)
    (h : c.dist = none) : (c.startReqInit cfg ns).1.OnSchedule cfg k := by
  rw [startReqInit_of_none ns h]
  refine ⟨hs.qpsIni, hs.qpsInterval, hs.idxListQPS, ?_⟩
  intro hvar d hd
  obtain rfl := Option.some.inj hd
  rw [if_neg hvar]
  exact hs.qpsIni

/-- A rate check that does not find the counter at the interval. -/
theorem startReqRate_of_ne (ns : UInt64) (h : c.qpsCounter ≠ c.qpsInterval) :
    c.startReqRate cfg ns = { c with qpsCounter := c.qpsCounter + 1 } := by
  rw [startReqRate, if_neg h]

/-- **A rate check that does**: the next rate of the schedule, and a new distribution for it. -/
theorem startReqRate_of_eq {k : Nat} (ns : UInt64) (h : c.qpsCounter = c.qpsInterval)
    (hs : c.OnSchedule cfg k) :
    (c.startReqRate cfg ns).OnSchedule cfg (k + 1) ∧ (c.startReqRate cfg ns).qpsCounter = 0 ∧
      (c.startReqRate cfg ns).dist =
        some (ExpDist.new (c.startReqRate cfg ns).qpsIni cfg.seed ns) := by
  by_cases hone : cfg.qpsVar = 1
  · have hrate : cfg.rate (k + 1) = c.qpsIni + cfg.qpsStep := by
      rw [hs.qpsIni, Config.rate, Config.rate, if_pos hone, if_pos hone]
      push_cast
      ring
    have hkeep : cfg.interval (k + 1) = cfg.interval k := by
      rw [Config.interval, if_neg (by omega)]
    simp only [startReqRate, if_pos h, if_pos hone]
    refine ⟨⟨hrate.symm, ?_, fun htwo => by omega, ?_⟩, trivial, trivial⟩
    · rw [hkeep]
      exact hs.qpsInterval
    · rintro _ d ⟨⟩
      exact hrate.symm
  · by_cases htwo : cfg.qpsVar = 2
    · have hidx := hs.idxListQPS htwo
      have hrate : cfg.listQPS.getD (c.idxListQPS % cfg.listQPS.length) 0 = cfg.rate (k + 1) := by
        rw [hidx, Config.rate, if_neg hone, if_pos htwo]
      simp only [startReqRate, if_pos h, if_neg hone, if_pos htwo, hrate]
      refine ⟨⟨rfl, ?_, fun _ => by rw [hidx], ?_⟩, trivial, trivial⟩
      · rw [Config.interval, if_pos htwo, hs.qpsIni, hs.qpsInterval]
      · rintro _ d ⟨⟩
        rfl
    -- any other value: the same rate again
    · have hrate : c.qpsIni = cfg.rate (k + 1) := by
        rw [hs.qpsIni, Config.rate, Config.rate]
        simp only [if_neg hone, if_neg htwo]
      simp only [startReqRate, if_pos h, if_neg hone, if_neg htwo]
      refine ⟨⟨hrate, ?_, fun htwo' => absurd htwo' htwo, ?_⟩, trivial, trivial⟩
      · rw [Config.interval, if_neg htwo]
        exact hs.qpsInterval
      · rintro _ d ⟨⟩
        exact hrate

end Client

end TailBench
