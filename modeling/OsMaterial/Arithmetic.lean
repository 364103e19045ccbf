import Mathlib.Data.BitVec
import Mathlib.Tactic.NormNum

/-!
# 64-bit Division with 32-bit Instructions

`lib/arithmetic.c`: 64-bit division by the instruction `divl`, which traps (`none`) if the quotient
does not fit into 32 bits. A divisor above `2 ^ 32` is normalized first, so that the estimate of the
quotient is right or one too large (`estimate_le`). The remainder has a 32-bit type.

* `division_exact`: **division is exact** and never traps.
* `remainder_exact_iff`: **the remainder is exact** when it fits into 32 bits, and only then.
-/

namespace OsMaterial

variable {d n : BitVec 64} {S P : ℕ}

def divl (n : BitVec 64) (d : BitVec 32) : Option (BitVec 32) :=
  if n.toNat / d.toNat < 2 ^ 32 ∧ d ≠ 0 then some (BitVec.ofNat 32 (n.toNat / d.toNat)) else none

def nlzShift (k : ℕ) (limit : BitVec 32) (st : ℕ × BitVec 32) : ℕ × BitVec 32 :=
  if st.2 ≤ limit then (st.1 + k, st.2 <<< k) else st

def nlz (x : BitVec 32) : ℕ :=
  let st := nlzShift 16 0x0000FFFF (0, x)
  let st := nlzShift 8 0x00FFFFFF st
  let st := nlzShift 4 0x0FFFFFFF st
  let st := nlzShift 2 0x3FFFFFFF st
  if st.2 ≤ 0x7FFFFFFF then st.1 + 1 else st.1

def udiv64Small (n d : BitVec 64) : Option (BitVec 64) := do
  let b := (1 : BitVec 64) <<< 32
  let n1 : BitVec 32 := (n >>> 32).setWidth 32
  let n0 : BitVec 32 := n.setWidth 32
  let d0 : BitVec 32 := d.setWidth 32
  let q ← divl (b * (n1 % d0).setWidth 64 + n0.setWidth 64) d0
  return q.setWidth 64 + b * (n1 / d0).setWidth 64

/-- `udiv64`, where the divisor does not fit into 32 bits, and is not above `n`. -/
def udiv64Large (n d : BitVec 64) : Option (BitVec 64) := do
  let d1 : BitVec 32 := (d >>> 32).setWidth 32
  let s := nlz d1
  let e ← divl (n >>> 1) (((d <<< s) >>> 32).setWidth 32)
  let q : BitVec 64 := (e >>> (31 - s)).setWidth 64
  return if n - (q - 1) * d < d then q - 1 else q

def udiv64 (n d : BitVec 64) : Option (BitVec 64) :=
  if d >>> 32 = 0 then udiv64Small n d
  else if n < d then some 0
  else udiv64Large n d

def umod64 (n d : BitVec 64) : Option (BitVec 32) := do
  return (n - d * (← udiv64 n d)).setWidth 32

def abs64 (n : BitVec 64) : BitVec 64 := if 0 ≤ n.toInt then n else -n

def sdiv64 (n d : BitVec 64) : Option (BitVec 64) := do
  let q ← udiv64 (abs64 n) (abs64 d)
  return if (n.toInt < 0) = (d.toInt < 0) then q else -q

def smod64 (n d : BitVec 64) : Option (BitVec 32) := do
  return (n - d * (← sdiv64 n d)).setWidth 32

def divdi3 (n d : BitVec 64) : Option (BitVec 64) := sdiv64 n d

def moddi3 (n d : BitVec 64) : Option (BitVec 64) := (smod64 n d).map (·.signExtend 64)

def udivdi3 (n d : BitVec 64) : Option (BitVec 64) := udiv64 n d

def umoddi3 (n d : BitVec 64) : Option (BitVec 64) := (umod64 n d).map (·.setWidth 64)

theorem divl_eq {d : BitVec 32} (hd : d ≠ 0) (hq : n.toNat / d.toNat < 2 ^ 32) :
    ∃ q : BitVec 32, divl n d = some q ∧ q.toNat = n.toNat / d.toNat := by
  refine ⟨_, if_pos ⟨hq, hd⟩, ?_⟩
  rw [BitVec.toNat_ofNat, Nat.mod_eq_of_lt hq]

/-! ### Leading zeros -/

theorem nlzShift_spec (k : ℕ) (limit : BitVec 32) (st : ℕ × BitVec 32) (hk : 2 * k ≤ 32)
    (hlimit : limit.toNat + 1 = 2 ^ (32 - k)) (hlow : 2 ^ (32 - 2 * k) ≤ st.2.toNat) :
    ∃ m ≤ k, (nlzShift k limit st).1 = st.1 + m ∧
      (nlzShift k limit st).2.toNat = st.2.toNat * 2 ^ m ∧
      2 ^ (32 - k) ≤ (nlzShift k limit st).2.toNat := by
  by_cases hle : st.2 ≤ limit
  · have hlt : st.2.toNat < 2 ^ (32 - k) := by
      have := BitVec.le_def.mp hle
      omega
    have hmul : st.2.toNat * 2 ^ k < 2 ^ 32 := by
      have := Nat.mul_lt_mul_of_pos_right hlt (Nat.two_pow_pos k)
      rwa [← Nat.pow_add, Nat.sub_add_cancel (by omega)] at this
    have hval : (st.2 <<< k).toNat = st.2.toNat * 2 ^ k := by
      rw [BitVec.toNat_shiftLeft, Nat.shiftLeft_eq, Nat.mod_eq_of_lt hmul]
    refine ⟨k, le_rfl, ?_, ?_, ?_⟩
    · rw [nlzShift, if_pos hle]
    · rw [nlzShift, if_pos hle, hval]
    · rw [nlzShift, if_pos hle, hval]
      calc 2 ^ (32 - k) = 2 ^ (32 - 2 * k) * 2 ^ k := by
            rw [← Nat.pow_add]
            congr 1
            omega
        _ ≤ st.2.toNat * 2 ^ k := Nat.mul_le_mul_right _ hlow
  · have hge : 2 ^ (32 - k) ≤ st.2.toNat := by
      rw [BitVec.le_def] at hle
      omega
    exact ⟨0, Nat.zero_le k, by rw [nlzShift, if_neg hle, Nat.add_zero],
      by rw [nlzShift, if_neg hle, Nat.pow_zero, Nat.mul_one], by rwa [nlzShift, if_neg hle]⟩

/-- **Leading zeros**: shifting `x` by `nlz x` moves its highest bit to bit 31. -/
theorem nlz_spec {x : BitVec 32} (hx : x ≠ 0) :
    nlz x ≤ 31 ∧ 2 ^ 31 ≤ x.toNat * 2 ^ nlz x ∧ x.toNat * 2 ^ nlz x < 2 ^ 32 := by
  have hpos : 2 ^ (32 - 2 * 16) ≤ x.toNat := by
    have : x.toNat ≠ 0 := fun h0 => hx (BitVec.eq_of_toNat_eq h0)
    omega
  obtain ⟨a, ha, hn₁, hx₁, hlow₁⟩ := nlzShift_spec 16 0x0000FFFF (0, x) (by omega) rfl hpos
  obtain ⟨b, hb, hn₂, hx₂, hlow₂⟩ := nlzShift_spec 8 0x00FFFFFF _ (by omega) rfl hlow₁
  obtain ⟨c, hc, hn₃, hx₃, hlow₃⟩ := nlzShift_spec 4 0x0FFFFFFF _ (by omega) rfl hlow₂
  obtain ⟨d, hd, hn₄, hx₄, hlow₄⟩ := nlzShift_spec 2 0x3FFFFFFF _ (by omega) rfl hlow₃
  generalize hst : nlzShift 2 0x3FFFFFFF (nlzShift 4 0x0FFFFFFF (nlzShift 8 0x00FFFFFF
    (nlzShift 16 0x0000FFFF (0, x)))) = st at hn₄ hx₄ hlow₄
  have hn : st.1 = a + b + c + d := by rw [hn₄, hn₃, hn₂, hn₁, Nat.zero_add]
  have hval : st.2.toNat = x.toNat * 2 ^ st.1 := by
    rw [hx₄, hx₃, hx₂, hx₁, hn]
    simp only [Nat.pow_add, Nat.mul_assoc]
  have hnlz : nlz x = if st.2 ≤ 0x7FFFFFFF then st.1 + 1 else st.1 := by
    rw [← hst]
    rfl
  by_cases hle : st.2 ≤ 0x7FFFFFFF
  · have hle' : st.2.toNat ≤ 0x7FFFFFFF := BitVec.le_def.mp hle
    have hdouble : x.toNat * 2 ^ (st.1 + 1) = st.2.toNat * 2 := by
      rw [Nat.pow_succ, ← Nat.mul_assoc, ← hval]
    rw [hnlz, if_pos hle, hdouble]
    omega
  · have hgt : ¬ st.2.toNat ≤ 0x7FFFFFFF := fun h => hle (BitVec.le_def.mpr h)
    rw [hnlz, if_neg hle, ← hval]
    omega

/-! ### Unsigned division -/

theorem normalized {d : ℕ} (hSP : S * P = 2 ^ 31) (hlow : 2 ^ 31 ≤ d / 2 ^ 32 * S)
    (hhigh : d / 2 ^ 32 * S < 2 ^ 32) :
    2 ^ 32 * P ≤ d ∧ d * S < 2 ^ 64 ∧ d * S / 2 ^ 32 = d / (2 * P) := by
  have hS : 0 < S := Nat.pos_of_ne_zero fun h0 => by simp [h0] at hSP
  have hall : 2 ^ 32 = 2 * P * S := by
    rw [Nat.mul_assoc, Nat.mul_comm P S, hSP]
    norm_num
  have hge : P ≤ d / 2 ^ 32 := by
    rw [← hSP, Nat.mul_comm S P] at hlow
    exact Nat.le_of_mul_le_mul_right hlow hS
  have hlt : d / 2 ^ 32 < 2 * P := by
    refine Nat.lt_of_mul_lt_mul_right (a := S) ?_
    omega
  refine ⟨by omega, ?_, ?_⟩
  · calc d * S < 2 ^ 32 * (2 * P) * S := Nat.mul_lt_mul_of_pos_right (by omega) hS
      _ = 2 ^ 32 * 2 ^ 32 := by rw [Nat.mul_assoc, ← hall]
  · rw [hall, Nat.mul_div_mul_right _ _ hS]

/-- **The estimate**: dropping the lowest bits of the divisor makes the quotient at most one too
large, as long as 32 bits remain. Here `P` is `2 ^ (31 - s)` and `S` is `2 ^ s`. -/
theorem estimate_le {n d : ℕ} (hn : n < 2 ^ 64) (hSP : S * P = 2 ^ 31) (hd : 2 ^ 32 * P ≤ d) :
    n / (2 * P * (d / (2 * P))) ≤ n / d + 1 := by
  have hP : 0 < P := Nat.pos_of_ne_zero fun h0 => by simp [h0] at hSP
  have hsplit : 2 * P * (d / (2 * P)) + d % (2 * P) = d := Nat.div_add_mod d (2 * P)
  have hrest : d % (2 * P) + 1 ≤ 2 * P := Nat.mod_lt d (by omega)
  have hkept : 2 ^ 32 * P ≤ 2 * P * (d / (2 * P)) := by
    have : 2 ^ 31 ≤ d / (2 * P) := by
      rw [Nat.le_div_iff_mul_le (by omega)]
      omega
    calc 2 ^ 32 * P = 2 * P * 2 ^ 31 := by omega
      _ ≤ 2 * P * (d / (2 * P)) := Nat.mul_le_mul_left _ this
  generalize 2 * P * (d / (2 * P)) = D at hsplit hkept ⊢
  generalize d % (2 * P) = r at hsplit hrest
  have hquot : n / d + 1 ≤ 2 * S := by
    apply Nat.div_lt_of_lt_mul
    calc n < 2 ^ 32 * 2 * 2 ^ 31 := hn
      _ = 2 ^ 32 * P * (2 * S) := by rw [Nat.mul_mul_mul_comm, Nat.mul_comm P S, hSP]
      _ ≤ d * (2 * S) := Nat.mul_le_mul_right _ hd
  -- the dropped bits account for less than one more divisor
  have hdropped : (n / d + 1) * r ≤ D := by
    have hle : (n / d + 1) * r ≤ 2 * S * r := Nat.mul_le_mul_right r hquot
    have hall : 2 * S * r + 2 * S ≤ 2 * 2 * 2 ^ 31 := by
      calc 2 * S * r + 2 * S = 2 * S * (r + 1) := (Nat.mul_succ _ _).symm
        _ ≤ 2 * S * (2 * P) := Nat.mul_le_mul_left _ hrest
        _ = 2 * 2 * 2 ^ 31 := by rw [Nat.mul_mul_mul_comm, hSP]
    rcases Nat.lt_or_ge P 2 with hone | htwo
    · obtain rfl : P = 1 := by omega
      omega
    · omega
  have hupper : n < (n / d + 1) * D + (n / d + 1) * r := by
    rw [← Nat.mul_add, hsplit]
    exact Nat.lt_mul_of_div_lt (Nat.lt_succ_self _) (by omega)
  have hlt : n < (n / d + 1 + 1) * D := by
    rw [Nat.add_mul _ 1, Nat.one_mul]
    omega
  exact Nat.lt_succ_iff.mp ((Nat.div_lt_iff_lt_mul (by omega)).mpr hlt)

theorem corrected_eq {q : BitVec 64} (hd : 0 < d.toNat) (hle : d.toNat ≤ n.toNat)
    (hlow : n.toNat / d.toNat ≤ q.toNat) (hhigh : q.toNat ≤ n.toNat / d.toNat + 1) :
    (if n - (q - 1) * d < d then q - 1 else q) = n / d := by
  have hpos : 1 ≤ n.toNat / d.toNat := (Nat.one_le_div_iff hd).mpr hle
  have hpred : (q - 1).toNat = q.toNat - 1 := by
    simp
    omega
  have hmul : (q.toNat - 1) * d.toNat ≤ n.toNat :=
    (Nat.mul_le_mul_right _ (by omega)).trans (Nat.div_mul_le_self n.toNat d.toNat)
  have hprod : ((q - 1) * d).toNat = (q.toNat - 1) * d.toNat := by
    rw [BitVec.toNat_mul, hpred, Nat.mod_eq_of_lt (by omega)]
  have hrest : (n - (q - 1) * d).toNat = n.toNat - (q.toNat - 1) * d.toNat := by
    rw [BitVec.toNat_sub_of_le (BitVec.le_def.mpr (by omega)), hprod]
  have hdiv := Nat.div_add_mod n.toNat d.toNat
  have hmod := Nat.mod_lt n.toNat hd
  apply BitVec.eq_of_toNat_eq
  rw [BitVec.toNat_udiv]
  rcases Nat.lt_or_ge (n.toNat / d.toNat) q.toNat with hlt | hge
  · -- one too large: what remains after `q - 1` divisors is the remainder
    have hq : q.toNat - 1 = n.toNat / d.toNat := by omega
    rw [hq, Nat.mul_comm] at hrest
    rw [if_pos (BitVec.lt_def.mpr (by omega)), hpred, hq]
  · have hq : q.toNat = n.toNat / d.toNat := by omega
    have hone : d.toNat * q.toNat = (q.toNat - 1) * d.toNat + d.toNat := by
      rw [← Nat.succ_mul, Nat.mul_comm, Nat.succ_eq_add_one, Nat.sub_add_cancel (by omega)]
    rw [← hq, hone] at hdiv
    rw [if_neg fun hlt => absurd (BitVec.lt_def.mp hlt) (by omega), hq]

theorem udiv64Large_eq (hd : 2 ^ 32 ≤ d.toNat) (hle : d.toNat ≤ n.toNat) :
    udiv64Large n d = some (n / d) := by
  have hd1 : ((d >>> 32).setWidth 32).toNat = d.toNat / 2 ^ 32 := by
    rw [BitVec.toNat_setWidth, BitVec.toNat_ushiftRight, Nat.shiftRight_eq_div_pow]
    omega
  obtain ⟨hs, hlow, hhigh⟩ := nlz_spec (x := (d >>> 32).setWidth 32) fun h0 => by
    rw [h0] at hd1
    simp only [BitVec.ofNat_eq_ofNat, BitVec.toNat_ofNat] at hd1
    omega
  unfold udiv64Large
  simp only []
  generalize nlz ((d >>> 32).setWidth 32) = s at hs hlow hhigh ⊢
  rw [hd1] at hlow hhigh
  have hSP : 2 ^ s * 2 ^ (31 - s) = 2 ^ 31 := by rw [← Nat.pow_add, Nat.add_sub_cancel' hs]
  have hP := Nat.two_pow_pos (31 - s)
  obtain ⟨hdP, hfits, hhalf⟩ := normalized hSP hlow hhigh
  have hestimate := estimate_le n.isLt hSP hdP
  have hv1 : (((d <<< s) >>> 32).setWidth 32).toNat = d.toNat / (2 * 2 ^ (31 - s)) := by
    rw [BitVec.toNat_setWidth, BitVec.toNat_ushiftRight, BitVec.toNat_shiftLeft, Nat.shiftLeft_eq,
      Nat.mod_eq_of_lt hfits, Nat.shiftRight_eq_div_pow, hhalf, Nat.mod_eq_of_lt]
    omega
  have hvlow : 2 ^ 31 ≤ d.toNat / (2 * 2 ^ (31 - s)) := by
    rw [Nat.le_div_iff_mul_le (by omega)]
    omega
  have hn1 : (n >>> 1).toNat = n.toNat / 2 := by
    rw [BitVec.toNat_ushiftRight, Nat.shiftRight_eq_div_pow, Nat.pow_one]
  obtain ⟨e, he, heq⟩ := divl_eq (n := n >>> 1) (d := ((d <<< s) >>> 32).setWidth 32)
    (fun h0 => by
      rw [h0] at hv1
      simp only [BitVec.ofNat_eq_ofNat, BitVec.toNat_ofNat] at hv1
      omega)
    (by
      apply Nat.div_lt_of_lt_mul
      omega)
  have hq : ((e >>> (31 - s)).setWidth 64).toNat =
      n.toNat / (2 * 2 ^ (31 - s) * (d.toNat / (2 * 2 ^ (31 - s)))) := by
    rw [BitVec.toNat_setWidth, BitVec.toNat_ushiftRight, Nat.shiftRight_eq_div_pow, heq, hn1, hv1,
      Nat.div_div_eq_div_mul, Nat.div_div_eq_div_mul, Nat.mod_eq_of_lt]
    · rw [Nat.mul_right_comm, Nat.mul_assoc]
    · exact (Nat.div_le_self _ _).trans_lt n.isLt
  rw [he]
  refine congrArg some (corrected_eq (by omega) hle ?_ ?_)
  · rw [hq]
    exact Nat.div_le_div_left (Nat.mul_div_le _ _) (Nat.mul_pos (by omega) (by omega))
  · rw [hq]
    exact hestimate

theorem udiv64Small_eq (hd : d.toNat < 2 ^ 32) (hpos : 0 < d.toNat) :
    udiv64Small n d = some (n / d) := by
  have hb : ((1 : BitVec 64) <<< 32).toNat = 2 ^ 32 := rfl
  have hn1 : ((n >>> 32).setWidth 32).toNat = n.toNat / 2 ^ 32 := by
    rw [BitVec.toNat_setWidth, BitVec.toNat_ushiftRight, Nat.shiftRight_eq_div_pow]
    omega
  have hn0 : (n.setWidth 32).toNat = n.toNat % 2 ^ 32 := BitVec.toNat_setWidth 32 n
  have hd0 : (d.setWidth 32).toNat = d.toNat := by rw [BitVec.toNat_setWidth, Nat.mod_eq_of_lt hd]
  unfold udiv64Small
  simp only []
  generalize (1 : BitVec 64) <<< 32 = b at hb ⊢
  generalize (n >>> 32).setWidth 32 = n1 at hn1 ⊢
  generalize n.setWidth 32 = n0 at hn0 ⊢
  generalize d.setWidth 32 = d0 at hd0 ⊢
  have hmod := Nat.mod_lt (n.toNat / 2 ^ 32) hpos
  have hnum : (b * (n1 % d0).setWidth 64 + n0.setWidth 64).toNat =
      2 ^ 32 * (n.toNat / 2 ^ 32 % d.toNat) + n.toNat % 2 ^ 32 := by
    rw [BitVec.toNat_add, BitVec.toNat_mul, BitVec.toNat_setWidth, BitVec.toNat_setWidth,
      BitVec.toNat_umod, hb, hn1, hn0, hd0]
    omega
  obtain ⟨e, he, heq⟩ := divl_eq (n := b * (n1 % d0).setWidth 64 + n0.setWidth 64) (d := d0)
    (fun h0 => by
      rw [h0] at hd0
      simp only [BitVec.ofNat_eq_ofNat, BitVec.toNat_ofNat] at hd0
      omega)
    (by
      apply Nat.div_lt_of_lt_mul
      omega)
  rw [hnum, hd0] at heq
  -- the quotient of the upper half, and that of its remainder with the lower half
  have hsum : n.toNat / d.toNat =
      e.toNat + 2 ^ 32 * (n.toNat / 2 ^ 32 / d.toNat) := by
    have hsplit : n.toNat = 2 ^ 32 * (n.toNat / 2 ^ 32 % d.toNat) + n.toNat % 2 ^ 32 +
        d.toNat * (2 ^ 32 * (n.toNat / 2 ^ 32 / d.toNat)) := by
      have hupper := Nat.div_add_mod (n.toNat / 2 ^ 32) d.toNat
      rw [Nat.mul_left_comm]
      omega
    rw [heq, ← Nat.add_mul_div_left _ _ hpos, ← hsplit]
  rw [he]
  refine congrArg some (BitVec.eq_of_toNat_eq ?_)
  have hupper := Nat.div_le_self (n.toNat / 2 ^ 32) d.toNat
  rw [BitVec.toNat_udiv, BitVec.toNat_add, BitVec.toNat_mul, BitVec.toNat_setWidth,
    BitVec.toNat_setWidth, BitVec.toNat_udiv, hb, hn1, hd0]
  omega

theorem udiv64_eq (n : BitVec 64) (hd : d ≠ 0) : udiv64 n d = some (n / d) := by
  have hpos : 0 < d.toNat := Nat.pos_of_ne_zero fun h0 => hd (BitVec.eq_of_toNat_eq h0)
  have hshift : (d >>> 32).toNat = d.toNat / 2 ^ 32 := by
    rw [BitVec.toNat_ushiftRight, Nat.shiftRight_eq_div_pow]
  by_cases hsmall : d >>> 32 = 0
  · rw [udiv64, if_pos hsmall]
    rw [hsmall] at hshift
    simp only [BitVec.ofNat_eq_ofNat, BitVec.toNat_ofNat] at hshift
    exact udiv64Small_eq (by omega) hpos
  · have hlarge : 2 ^ 32 ≤ d.toNat := by
      by_contra hlt
      exact hsmall (BitVec.eq_of_toNat_eq (hshift.trans (Nat.div_eq_of_lt (by omega))))
    rw [udiv64, if_neg hsmall]
    by_cases hlt : n < d
    · rw [if_pos hlt]
      refine congrArg some (BitVec.eq_of_toNat_eq ?_)
      rw [BitVec.toNat_udiv, Nat.div_eq_of_lt (BitVec.lt_def.mp hlt)]
      rfl
    · rw [if_neg hlt]
      exact udiv64Large_eq hlarge (BitVec.not_lt.mp hlt)

/-! ### Signed division -/

theorem toInt_neg_eq (x : BitVec 64) : (x.toInt < 0) = (x.msb = true) := by
  rw [BitVec.msb_eq_toInt, decide_eq_true_eq]

theorem abs64_eq (x : BitVec 64) : abs64 x = if x.msb then -x else x := by
  have hneg := toInt_neg_eq x
  by_cases hmsb : x.msb = true
  · rw [abs64, if_pos hmsb, if_neg (by rw [← Int.not_lt, not_not, hneg]; exact hmsb)]
  · rw [abs64, if_neg hmsb, if_pos (by rw [← Int.not_lt, hneg]; exact hmsb)]

theorem abs64_ne_zero {x : BitVec 64} (hx : x ≠ 0) : abs64 x ≠ 0 := by
  rw [abs64_eq]
  split
  · exact neg_ne_zero.mpr hx
  · exact hx

theorem sdiv64_eq (n : BitVec 64) (hd : d ≠ 0) : sdiv64 n d = some (n.sdiv d) := by
  unfold sdiv64
  rw [udiv64_eq _ (abs64_ne_zero hd), BitVec.sdiv_eq, abs64_eq, abs64_eq]
  simp only [toInt_neg_eq]
  cases n.msb <;> cases d.msb <;> rfl

theorem sdiv_toInt (hrange : ¬ (n.toInt = -2 ^ 63 ∧ d.toInt = -1)) :
    (n.sdiv d).toInt = n.toInt.tdiv d.toInt := by
  refine BitVec.toInt_sdiv_of_ne_or_ne n d ?_
  by_contra hboth
  rw [not_or, not_not, not_not] at hboth
  rw [hboth.1, hboth.2] at hrange
  exact hrange ⟨by decide, by decide⟩

/-- **Division is exact**: it never traps, an unsigned quotient is rounded down, and a signed one
toward zero unless it is out of range. -/
theorem division_exact (n d : BitVec 64) (hd : d ≠ 0) :
    (∃ q, udiv64 n d = some q ∧ q.toNat = n.toNat / d.toNat) ∧
      (¬ (n.toInt = -2 ^ 63 ∧ d.toInt = -1) →
        ∃ q, sdiv64 n d = some q ∧ divdi3 n d = some q ∧ q.toInt = n.toInt.tdiv d.toInt) := by
  refine ⟨⟨n / d, udiv64_eq n hd, BitVec.toNat_udiv⟩, fun hrange => ?_⟩
  exact ⟨n.sdiv d, sdiv64_eq n hd, sdiv64_eq n hd, sdiv_toInt hrange⟩

/-- The largest word, or −1, divided by two. -/
theorem division_exact_halved : ((2 : BitVec 64) ≠ 0) ∧
    ((∃ q, udiv64 (-1) 2 = some q ∧ q.toNat = (-1 : BitVec 64).toNat / (2 : BitVec 64).toNat) ∧
      (¬ ((-1 : BitVec 64).toInt = -2 ^ 63 ∧ (2 : BitVec 64).toInt = -1) →
        ∃ q, sdiv64 (-1) 2 = some q ∧ divdi3 (-1) 2 = some q ∧
          q.toInt = (-1 : BitVec 64).toInt.tdiv (2 : BitVec 64).toInt)) :=
  ⟨by decide, division_exact (-1) 2 (by decide)⟩

/-! ### Remainders -/

/-- The results of the compiler's unsigned routines belong to the division of `n` by `d`. -/
def UnsignedExact (n d : BitVec 64) : Prop :=
  ∃ q r, udivdi3 n d = some q ∧ umoddi3 n d = some r ∧
    r.toNat = n.toNat % d.toNat ∧ n.toNat = d.toNat * q.toNat + r.toNat

/-- The results of the compiler's signed routines belong to the division of `n` by `d`. -/
def SignedExact (n d : BitVec 64) : Prop :=
  ∃ q r, divdi3 n d = some q ∧ moddi3 n d = some r ∧
    r.toInt = n.toInt.tmod d.toInt ∧ n.toInt = d.toInt * q.toInt + r.toInt

theorem umoddi3_eq (n : BitVec 64) (hd : d ≠ 0) :
    ∃ r, umoddi3 n d = some r ∧ r.toNat = n.toNat % d.toNat % 2 ^ 32 := by
  have hmul : d.toNat * (n.toNat / d.toNat) ≤ n.toNat := Nat.mul_div_le n.toNat d.toNat
  have hrest : (n - d * (n / d)).toNat = n.toNat % d.toNat := by
    have hprod : (d * (n / d)).toNat = d.toNat * (n.toNat / d.toNat) := by
      rw [BitVec.toNat_mul, BitVec.toNat_udiv, Nat.mod_eq_of_lt (by omega)]
    rw [BitVec.toNat_sub_of_le (BitVec.le_def.mpr (by omega)), hprod]
    have := Nat.div_add_mod n.toNat d.toNat
    omega
  refine ⟨((n - d * (n / d)).setWidth 32).setWidth 64, ?_, ?_⟩
  · rw [umoddi3, umod64, udiv64_eq n hd]
    rfl
  · rw [BitVec.toNat_setWidth, BitVec.toNat_setWidth, hrest]
    omega

theorem moddi3_eq (n : BitVec 64) (hd : d ≠ 0) (hq : (n.sdiv d).toInt = n.toInt.tdiv d.toInt) :
    ∃ r, moddi3 n d = some r ∧ r.toInt = (n.toInt.tmod d.toInt).bmod (2 ^ 32) := by
  refine ⟨((n - d * n.sdiv d).setWidth 32).signExtend 64, ?_, ?_⟩
  · rw [moddi3, smod64, sdiv64_eq n hd]
    rfl
  · have hdvd : 2 ^ 32 ∣ 2 ^ 64 := Nat.pow_dvd_pow 2 (by omega)
    rw [BitVec.toInt_signExtend_of_le (by omega), BitVec.toInt_setWidth,
      ← Int.bmod_bmod_of_dvd hdvd, ← BitVec.toInt_eq_toNat_bmod, BitVec.toInt_sub, BitVec.toInt_mul,
      Int.sub_bmod_bmod, Int.bmod_bmod_of_dvd hdvd, hq, Int.tmod_def]

/-- **The remainder is exact** when it fits into the 32-bit type of the helper, and only then. -/
theorem remainder_exact_iff (n d : BitVec 64) (hd : d ≠ 0) :
    (UnsignedExact n d ↔ n.toNat % d.toNat < 2 ^ 32) ∧
      (¬ (n.toInt = -2 ^ 63 ∧ d.toInt = -1) →
        (SignedExact n d ↔ -2 ^ 31 ≤ n.toInt.tmod d.toInt ∧ n.toInt.tmod d.toInt < 2 ^ 31)) := by
  constructor
  · obtain ⟨r, hr, hval⟩ := umoddi3_eq n hd
    constructor
    · rintro ⟨q, r', -, hr', hexact, -⟩
      obtain rfl : r = r' := Option.some.inj (hr.symm.trans hr')
      omega
    · intro hfits
      rw [Nat.mod_eq_of_lt hfits] at hval
      refine ⟨n / d, r, udiv64_eq n hd, hr, hval, ?_⟩
      rw [hval, BitVec.toNat_udiv, Nat.div_add_mod]
  · intro hrange
    have hq : (n.sdiv d).toInt = n.toInt.tdiv d.toInt := sdiv_toInt hrange
    obtain ⟨r, hr, hval⟩ := moddi3_eq n hd hq
    constructor
    · rintro ⟨q, r', -, hr', hexact, -⟩
      obtain rfl : r = r' := Option.some.inj (hr.symm.trans hr')
      have hlow := Int.le_bmod (x := n.toInt.tmod d.toInt) (m := 2 ^ 32) (by omega)
      have hhigh := Int.bmod_lt (x := n.toInt.tmod d.toInt) (m := 2 ^ 32) (by omega)
      omega
    · rintro ⟨hlow, hhigh⟩
      rw [Int.bmod_eq_of_le (by omega) (by omega)] at hval
      refine ⟨n.sdiv d, r, sdiv64_eq n hd, hr, hval, ?_⟩
      rw [hval, hq, Int.mul_tdiv_add_tmod]

/-- The largest word, or −1, modulo seven. -/
theorem remainder_exact_iff_seven : UnsignedExact (-1) 7 ∧ SignedExact (-1) 7 := by
  obtain ⟨hunsigned, hsigned⟩ := remainder_exact_iff (-1) 7 (by decide)
  exact ⟨hunsigned.mpr (by decide), (hsigned (by decide)).mpr (by decide)⟩

/-- `2 ^ 32` divided by `2 ^ 33` leaves `2 ^ 32`, and the routines return 0. -/
theorem remainder_truncated :
    umoddi3 (2 ^ 32) (2 ^ 33) = some 0 ∧ moddi3 (2 ^ 32) (2 ^ 33) = some 0 ∧
      ¬ UnsignedExact (2 ^ 32) (2 ^ 33) ∧ ¬ SignedExact (2 ^ 32) (2 ^ 33) := by
  have hu : umoddi3 (2 ^ 32) (2 ^ 33) = some 0 := by decide +kernel
  have hs : moddi3 (2 ^ 32) (2 ^ 33) = some 0 := by decide +kernel
  refine ⟨hu, hs, ?_, ?_⟩
  · rintro ⟨q, r, -, hr, hexact, -⟩
    obtain rfl : 0 = r := Option.some.inj (hu.symm.trans hr)
    exact absurd hexact (by decide)
  · rintro ⟨q, r, -, hr, hexact, -⟩
    obtain rfl : 0 = r := Option.some.inj (hs.symm.trans hr)
    exact absurd hexact (by decide)

end OsMaterial
