import OsMaterial.Machine
import OsMaterial.Words

/-!
# Calibration of the Timer

`timer_calibrate` of `devices/timer.c`, on a machine where a tick has room for `limit` iterations.
The second loop tries each of the nine bits below the highest together with that one only, not with
the bits already set.

* `timer_calibrate_iff`: **when the calibration is right.**
-/

namespace OsMaterial

inductive CalibrateFault where
  | level
  | zero
  deriving DecidableEq

def tooManyLoops (limit loops : ℕ) : Bool := limit < loops

def doubleLoop (limit : ℕ) : ℕ → ℕ → Outcome CalibrateFault ℕ
  | 0, _ => .blocked
  | fuel + 1, loopsPerTick =>
    if tooManyLoops limit (loopsPerTick <<< 1 % wordSize) then
      .next loopsPerTick
    else if loopsPerTick <<< 1 % wordSize = 0 then
      .fault .zero
    else
      doubleLoop limit fuel (loopsPerTick <<< 1 % wordSize)

def refineLoop (limit highBit : ℕ) : ℕ → ℕ → ℕ → Outcome CalibrateFault ℕ
  | 0, _, _ => .blocked
  | fuel + 1, testBit, loopsPerTick =>
    if testBit = highBit >>> 10 then
      .next loopsPerTick
    else
      refineLoop limit highBit fuel (testBit >>> 1)
        (if tooManyLoops limit (highBit ||| testBit) then loopsPerTick
          else loopsPerTick ||| testBit)

def timerCalibrate (intrOn : Bool) (limit fuel : ℕ) : Outcome CalibrateFault ℕ :=
  if ¬ intrOn then
    .fault .level
  else
    (doubleLoop limit fuel (1 <<< 10)).bind fun highBit =>
      refineLoop limit highBit fuel (highBit >>> 1) highBit

variable {limit e i d fuel m : ℕ}

theorem doubleLoop_eq (hle : 2 ^ e ≤ limit) (hlt : limit < 2 ^ (e + 1)) (he : e < 31) (hi : i ≤ e)
    (hfuel : e - i < fuel) : doubleLoop limit fuel (2 ^ i) = .next (2 ^ e) := by
  induction fuel generalizing i with
  | zero => omega
  | succ fuel ih =>
    have hshift : 2 ^ i <<< 1 % wordSize = 2 ^ (i + 1) := by
      rw [Nat.shiftLeft_eq, pow_one, ← pow_succ, wordSize]
      exact Nat.mod_eq_of_lt (Nat.pow_lt_pow_right (by omega) (by omega))
    rw [doubleLoop, hshift, tooManyLoops]
    rcases hi.eq_or_lt with rfl | hi
    · rw [if_pos (decide_eq_true hlt)]
    · have hpow : 2 ^ (i + 1) ≤ 2 ^ e := Nat.pow_le_pow_right (by omega) hi
      rw [if_neg (by simpa using hpow.trans hle), if_neg (Nat.two_pow_pos _).ne', ih hi (by omega)]

structure Refined (m i d : ℕ) : Prop where
  dvd : 2 ^ i ∣ d
  none_set : m < 2 ^ i → d = 0
  all_set : 2 ^ i ≤ m → ∃ k, d + 2 ^ i = 2 ^ k ∧ 2 ^ k ≤ 2 * m ∧ m < 2 ^ k

theorem Refined.step (h : Refined m (i + 1) d) :
    Refined m i (if m < 2 ^ i then d else d + 2 ^ i) := by
  have hdvd : 2 ^ i ∣ d := (Nat.pow_dvd_pow 2 (Nat.le_succ i)).trans h.dvd
  split
  · next hlt => exact ⟨hdvd, fun _ => h.none_set (by omega), fun hle => absurd hlt (by omega)⟩
  · next hge =>
    refine ⟨Nat.dvd_add hdvd (dvd_refl _), fun hlt => absurd hlt hge, fun _ => ?_⟩
    by_cases hlt : m < 2 ^ (i + 1)
    · obtain rfl := h.none_set hlt
      exact ⟨i + 1, by omega, by omega, hlt⟩
    · obtain ⟨k, hk⟩ := h.all_set (by omega)
      exact ⟨k, by omega, hk.2⟩

/-- **The refinement** from a bit on down to the last of the nine. -/
theorem refineLoop_spec (he : 10 ≤ e) (hle : 2 ^ e ≤ limit) (hi : e - 9 ≤ i) (hie : i ≤ e)
    (h : Refined (limit - 2 ^ e) i d) (hfuel : i - (e - 9) < fuel) :
    ∃ d', refineLoop limit (2 ^ e) fuel (2 ^ i >>> 1) (2 ^ e + d) = .next (2 ^ e + d') ∧
      Refined (limit - 2 ^ e) (e - 9) d' := by
  have hshift : ∀ {a b : ℕ}, b ≤ a → 2 ^ a >>> b = 2 ^ (a - b) := fun hba => by
    rw [Nat.shiftRight_eq_div_pow, Nat.pow_div hba (by omega)]
  induction fuel generalizing i d with
  | zero => omega
  | succ fuel ih =>
    rw [refineLoop, hshift (by omega), hshift (by omega)]
    rcases hi.eq_or_lt with rfl | hi
    · exact ⟨d, if_pos (congrArg _ (by omega)), h⟩
    · obtain ⟨i, rfl⟩ : ∃ k, i = k + 1 := ⟨i - 1, by omega⟩
      have hor : ∀ {x}, 2 ^ (i + 1) ∣ x → x ||| 2 ^ i = x + 2 ^ i := by
        rintro x ⟨q, rfl⟩
        exact (Nat.two_pow_add_eq_or_of_lt (Nat.pow_lt_pow_right (by omega) (by omega)) q).symm
      have hhigh : 2 ^ (i + 1) ∣ 2 ^ e := Nat.pow_dvd_pow 2 (by omega)
      have hne : 2 ^ i ≠ 2 ^ (e - 10) := fun heq => by
        have := Nat.pow_right_injective (le_refl 2) heq
        omega
      rw [Nat.add_sub_cancel, if_neg hne, hor hhigh, hor (Nat.dvd_add hhigh h.dvd)]
      obtain ⟨d', hd', hr⟩ := ih (by omega) (by omega) h.step (by omega)
      refine ⟨d', Eq.trans ?_ hd', hr⟩
      congr 1
      simp only [tooManyLoops, decide_eq_true_eq]
      split <;> split <;> omega

theorem Refined.within_iff (h : Refined m i d) :
    d ≤ m ∧ m - d < 2 ^ i ↔ ∃ k, m / 2 ^ i + 1 = 2 ^ k := by
  by_cases hlt : m < 2 ^ i
  · obtain rfl := h.none_set hlt
    exact iff_of_true ⟨by omega, by omega⟩ ⟨0, by rw [Nat.div_eq_of_lt hlt]; rfl⟩
  · obtain ⟨k, hd, hle, hmk⟩ := h.all_set (by omega)
    have hq := Nat.lt_mul_div_succ m (Nat.two_pow_pos i)
    constructor
    · rintro ⟨hdm, -⟩
      have hik : i ≤ k := (Nat.pow_le_pow_iff_right (le_refl 2)).mp (by omega)
      have hpow : 2 ^ (k - i) * 2 ^ i = 2 ^ k := by rw [← pow_add, Nat.sub_add_cancel hik]
      refine ⟨k - i, le_antisymm (Nat.div_lt_of_lt_mul (by rwa [Nat.mul_comm, hpow])) ?_⟩
      rw [← Nat.sub_le_iff_le_add, Nat.le_div_iff_mul_le (Nat.two_pow_pos i), Nat.sub_mul, hpow]
      omega
    · rintro ⟨j, hj⟩
      rw [hj, ← pow_add] at hq
      have hkj : 2 ^ k ≤ 2 ^ (i + j) := by
        refine Nat.pow_le_pow_right (by omega) (Nat.lt_succ_iff.mp ?_)
        refine (Nat.pow_lt_pow_iff_right (le_refl 2)).mp ?_
        omega
      rw [pow_add, ← hj, Nat.mul_succ] at hkj
      have := Nat.mul_div_le m (2 ^ i)
      omega

/-- **When the calibration is right**: only if the bits to be set follow each other. -/
theorem timer_calibrate_iff {limit fuel : ℕ} (h10 : 1024 ≤ limit) (h31 : limit < 2 ^ 31)
    (hfuel : 22 ≤ fuel) : ∃ r, timerCalibrate true limit fuel = .next r ∧
      (r ≤ limit ∧ limit - r < 2 ^ limit.log2 >>> 9 ↔
        ∃ k, (limit - 2 ^ limit.log2) / (2 ^ limit.log2 >>> 9) + 1 = 2 ^ k) := by
  have hne : limit ≠ 0 := by omega
  have hle := Nat.log2_self_le hne
  have hlt := Nat.lt_log2_self (n := limit)
  have he : 10 ≤ limit.log2 := (Nat.le_log2 hne).mpr h10
  have he31 : limit.log2 < 31 := (Nat.log2_lt hne).mpr h31
  generalize limit.log2 = e at *
  obtain ⟨d, hd, hr⟩ := refineLoop_spec (d := 0) he hle (by omega) le_rfl
    ⟨dvd_zero _, fun _ => rfl, fun h => absurd h (by rw [pow_succ] at hlt; omega)⟩
    (show e - (e - 9) < fuel by omega)
  refine ⟨2 ^ e + d, ?_, ?_⟩
  · rw [timerCalibrate, if_neg (by decide), show 1 <<< 10 = 2 ^ 10 from rfl,
      doubleLoop_eq hle hlt he31 he (by omega)]
    exact hd
  · rw [Nat.shiftRight_eq_div_pow, Nat.pow_div (by omega) (by omega), ← hr.within_iff]
    omega

/-- A threshold of 3071 loops. -/
theorem timer_calibrate_iff_holds :
    ∃ r, timerCalibrate true 3071 22 = .next r ∧ r ≤ 3071 ∧ 3071 - r < 4 := by
  obtain ⟨r, hr, hiff⟩ := timer_calibrate_iff (by decide : 1024 ≤ 3071) (by decide) le_rfl
  exact ⟨r, hr, hiff.mpr ⟨8, by decide⟩⟩

/-- With room for 1536 iterations, 2046 are taken for a tick: the bits below the one of 512 are
tried without it. -/
theorem timer_calibrate_overshoots : timerCalibrate true 1536 22 = .next 2046 := by
  decide

end OsMaterial
