import Mathlib.Order.Bounds.Basic
import OsMaterial.Bitmap

/-!
# A Bitmap is an Array of Bits

From the outside, a bitmap is an array of bits: `ArrayStep` says what an operation of
`lib/kernel/bitmap.c` does to a list of `bool` values. The scan returns the least element of the set
of all places of a group of bits (`groupsFrom`).

* `bitmap_represents_array`: **over every sequence of operations** the bitmap stands for the array.
-/

namespace OsMaterial

open List

/-! ### Arrays of bits -/

def setRange (l : List Bool) (start cnt : ℕ) (v : Bool) : List Bool :=
  l.take start ++ replicate cnt v ++ l.drop (start + cnt)

def subarray (l : List Bool) (start cnt : ℕ) : List Bool := (l.drop start).take cnt

/-- The places at or after `start` where **a group of `cnt` values** `v` starts. -/
def groupsFrom (l : List Bool) (start cnt : ℕ) (v : Bool) : Set ℕ :=
  { i | start ≤ i ∧ i + cnt ≤ l.length ∧ subarray l i cnt = replicate cnt v }

inductive BitmapOp where
  | set (idx : ℕ) (value : Bool)
  | mark (bitIdx : ℕ)
  | reset (bitIdx : ℕ)
  | flip (bitIdx : ℕ)
  | setAll (value : Bool)
  | setMultiple (start cnt : ℕ) (value : Bool)
  | scanAndFlip (start cnt : ℕ) (value : Bool)
  deriving DecidableEq

def BitmapOp.InRange (bitCnt : ℕ) : BitmapOp → Prop
  | set idx _ => idx < bitCnt
  | mark bitIdx => bitIdx < bitCnt
  | reset bitIdx => bitIdx < bitCnt
  | flip bitIdx => bitIdx < bitCnt
  | setAll _ => True
  | setMultiple start cnt _ => start + cnt ≤ bitCnt
  | scanAndFlip start _ _ => start ≤ bitCnt

instance BitmapOp.decidableInRange (bitCnt : ℕ) (op : BitmapOp) : Decidable (op.InRange bitCnt) :=
  match op with
  | set idx _ => inferInstanceAs (Decidable (idx < bitCnt))
  | mark bitIdx => inferInstanceAs (Decidable (bitIdx < bitCnt))
  | reset bitIdx => inferInstanceAs (Decidable (bitIdx < bitCnt))
  | flip bitIdx => inferInstanceAs (Decidable (bitIdx < bitCnt))
  | setAll _ => inferInstanceAs (Decidable True)
  | setMultiple start cnt _ => inferInstanceAs (Decidable (start + cnt ≤ bitCnt))
  | scanAndFlip start _ _ => inferInstanceAs (Decidable (start ≤ bitCnt))

/-- **What an operation does to an array.** -/
def ArrayStep (l : List Bool) : BitmapOp → List Bool → Prop
  | .set idx value, l' => l' = l.set idx value
  | .mark bitIdx, l' => l' = l.set bitIdx true
  | .reset bitIdx, l' => l' = l.set bitIdx false
  | .flip bitIdx, l' => l' = l.modify bitIdx not
  | .setAll value, l' => l' = replicate l.length value
  | .setMultiple start cnt value, l' => l' = setRange l start cnt value
  | .scanAndFlip start cnt value, l' =>
    (∃ k, IsLeast (groupsFrom l start cnt value) k ∧ l' = setRange l k cnt (!value)) ∨
      groupsFrom l start cnt value = ∅ ∧ l' = l

def ArrayRun (l : List Bool) : List BitmapOp → List Bool → Prop
  | [], l' => l' = l
  | op :: ops, l' => ∃ m, ArrayStep l op m ∧ ArrayRun m ops l'

/-! ### The array of a bitmap -/

def Bitmap.array (b : Bitmap) : List Bool := (range b.bitCnt).map b.bit

def bitmapApply (b : Bitmap) : BitmapOp → Except Panic Bitmap
  | .set idx value => bitmapSet b idx value
  | .mark bitIdx => bitmapMark b bitIdx
  | .reset bitIdx => bitmapReset b bitIdx
  | .flip bitIdx => bitmapFlip b bitIdx
  | .setAll value => bitmapSetAll b value
  | .setMultiple start cnt value => bitmapSetMultiple b start cnt value
  | .scanAndFlip start cnt value => (bitmapScanAndFlip b start cnt value).map Prod.snd

section

variable {b b' : Bitmap} {start cnt i : ℕ} {v : Bool}

@[simp] theorem Bitmap.length_array : b.array.length = b.bitCnt := by
  rw [array, length_map, length_range]

theorem Bitmap.getElem_array (hi : i < b.array.length) : b.array[i] = b.bit i := by
  simp only [array, getElem_map, getElem_range]

variable {l : List Bool}

theorem Bitmap.array_eq (hlen : l.length = b.bitCnt)
    (hbits : ∀ i (hi : i < l.length), b.bit i = l[i]) : b.array = l := by
  refine ext_getElem (by rw [length_array, hlen]) fun i hi hi' => ?_
  rw [getElem_array, hbits i hi']

theorem length_subarray (h : start + cnt ≤ l.length) : (subarray l start cnt).length = cnt := by
  rw [subarray, length_take, length_drop]
  omega

theorem length_setRange (h : start + cnt ≤ l.length) :
    (setRange l start cnt v).length = l.length := by
  simp only [setRange, length_append, length_take, length_replicate, length_drop]
  omega

theorem getElem_setRange (h : start + cnt ≤ l.length)
    (hi : i < (setRange l start cnt v).length) (hi' : i < l.length) :
    (setRange l start cnt v)[i] = if start ≤ i ∧ i < start + cnt then v else l[i] := by
  have hlen : (l.take start).length = start := by
    rw [length_take]
    omega
  simp only [setRange, append_assoc]
  rcases Nat.lt_or_ge i start with hlt | hge
  · rw [getElem_append_left (by omega), getElem_take, if_neg (by omega)]
  · rw [getElem_append_right (by omega)]
    rcases Nat.lt_or_ge i (start + cnt) with hlt | hge'
    · rw [getElem_append_left (by rw [length_replicate]; omega), getElem_replicate,
        if_pos ⟨hge, hlt⟩]
    · rw [getElem_append_right (by rw [length_replicate]; omega), getElem_drop, if_neg (by omega)]
      congr 1
      rw [hlen, length_replicate]
      omega

theorem Bitmap.IsSet.array_eq (h : b.IsSet start cnt v b') (hrange : start + cnt ≤ b.bitCnt) :
    b'.array = setRange b.array start cnt v := by
  have hfits : start + cnt ≤ b.array.length := by rwa [length_array]
  refine Bitmap.array_eq ?_ fun i hi => ?_
  · rw [length_setRange hfits, length_array, h.bitCnt_eq]
  · rw [length_setRange hfits] at hi
    rw [h.bit_eq, getElem_setRange hfits _ hi, getElem_array]

theorem Bitmap.array_set (hcnt : b'.bitCnt = b.bitCnt)
    (hbits : ∀ j, b'.bit j = if j = i then v else b.bit j) : b'.array = b.array.set i v := by
  refine array_eq (by rw [length_set, length_array, hcnt]) fun j hj => ?_
  rw [hbits, getElem_set, getElem_array]
  simp only [eq_comm]

theorem Bitmap.subarray_array (h : start + cnt ≤ b.bitCnt) :
    subarray b.array start cnt = (range cnt).map fun i => b.bit (start + i) := by
  refine ext_getElem ?_ fun i hi hi' => ?_
  · rw [length_subarray (by rwa [length_array]), length_map, length_range]
  · simp only [subarray, getElem_take, getElem_drop, getElem_array, getElem_map, getElem_range]

theorem Bitmap.mem_groupsFrom : i ∈ groupsFrom b.array start cnt v ↔ start ≤ i ∧ b.Run i cnt v := by
  rw [groupsFrom, Set.mem_ofPred_eq, length_array, Run]
  refine and_congr_right fun _ => and_congr_right fun hfits => ?_
  rw [subarray_array hfits, eq_replicate_iff, length_map, length_range]
  simp

theorem bitmapScan_array (hstart : start ≤ b.bitCnt) (cnt : ℕ) (v : Bool) :
    ∃ r, bitmapScan b start cnt v = .ok r ∧
      (∀ k, r = some k ↔ IsLeast (groupsFrom b.array start cnt v) k) ∧
      (r = none ↔ groupsFrom b.array start cnt v = ∅) := by
  obtain ⟨r, hscan, hsome, hnone⟩ := bitmapScan_eq hstart cnt v
  have hleast : ∀ k, r = some k → IsLeast (groupsFrom b.array start cnt v) k := by
    intro k hk
    obtain ⟨hrun, hle, hfirst⟩ := hsome k hk
    refine ⟨Bitmap.mem_groupsFrom.mpr ⟨hle, hrun⟩, fun j hj => ?_⟩
    obtain ⟨hj, hjrun⟩ := Bitmap.mem_groupsFrom.mp hj
    by_contra hlt
    exact hfirst j hj (Nat.lt_of_not_le hlt) hjrun
  have hempty : r = none → groupsFrom b.array start cnt v = ∅ := by
    intro hr
    refine Set.eq_empty_iff_forall_notMem.mpr fun j hj => ?_
    obtain ⟨hj, hjrun⟩ := Bitmap.mem_groupsFrom.mp hj
    exact hnone hr j hj hjrun
  refine ⟨r, hscan, fun k => ⟨hleast k, fun hk => ?_⟩, hempty, fun hr => ?_⟩
  · cases r with
    | none => exact absurd hk.1 (by rw [hempty rfl]; exact Set.notMem_empty k)
    | some j => rw [(hleast j rfl).unique hk]
  · cases r with
    | none => rfl
    | some j => exact absurd (hleast j rfl).1 (by rw [hr]; exact Set.notMem_empty j)

theorem bitmapScanAndFlip_array (hstart : start ≤ b.bitCnt) (cnt : ℕ) (v : Bool) :
    ∃ r b', bitmapScanAndFlip b start cnt v = .ok (r, b') ∧ bitmapScan b start cnt v = .ok r ∧
      b'.bitCnt = b.bitCnt ∧ ArrayStep b.array (.scanAndFlip start cnt v) b'.array := by
  obtain ⟨r, hscan, hsome, hnone⟩ := bitmapScan_array hstart cnt v
  rw [bitmapScanAndFlip, hscan]
  cases r with
  | none => exact ⟨none, b, rfl, rfl, rfl, .inr ⟨hnone.mp rfl, rfl⟩⟩
  | some k =>
    have hleast := (hsome k).mp rfl
    obtain ⟨-, hrun⟩ := Bitmap.mem_groupsFrom.mp hleast.1
    obtain ⟨b', hset, hb'⟩ := bitmapSetMultiple_eq hrun.1 (!v)
    refine ⟨some k, b', ?_, rfl, hb'.bitCnt_eq, .inl ⟨k, hleast, hb'.array_eq hrun.1⟩⟩
    simp only [bind, Except.bind, hset]
    rfl

/-- **One operation** on a bitmap, with its arguments in range, is one on the array. -/
theorem bitmapApply_spec {op : BitmapOp} (h : op.InRange b.bitCnt) :
    ∃ b', bitmapApply b op = .ok b' ∧ b'.bitCnt = b.bitCnt ∧ ArrayStep b.array op b'.array := by
  cases op with
  | set idx value =>
    obtain ⟨b', hb', hcnt, hbits⟩ := bitmapSet_eq h value
    exact ⟨b', hb', hcnt, Bitmap.array_set hcnt hbits⟩
  | mark bitIdx =>
    obtain ⟨b', hb', hcnt, hbits⟩ := bitmapMark_eq (elemIdx_lt h)
    exact ⟨b', hb', hcnt, Bitmap.array_set hcnt hbits⟩
  | reset bitIdx =>
    obtain ⟨b', hb', hcnt, hbits⟩ := bitmapReset_eq (elemIdx_lt h)
    exact ⟨b', hb', hcnt, Bitmap.array_set hcnt hbits⟩
  | flip bitIdx =>
    obtain ⟨b', hb', hcnt, hbits⟩ := bitmapFlip_eq (elemIdx_lt h)
    refine ⟨b', hb', hcnt, Bitmap.array_eq ?_ fun j hj => ?_⟩
    · rw [length_modify, Bitmap.length_array, hcnt]
    · rw [hbits, getElem_modify, Bitmap.getElem_array]
      by_cases hji : j = bitIdx
      · rw [if_pos hji, if_pos hji.symm, hji]
      · rw [if_neg hji, if_neg (Ne.symm hji)]
  | setAll value =>
    obtain ⟨b', hb', hset⟩ := bitmapSetMultiple_eq (b := b) (by omega : 0 + b.bitCnt ≤ _) value
    refine ⟨b', hb', hset.bitCnt_eq, (hset.array_eq (by omega)).trans ?_⟩
    rw [setRange, take_zero, nil_append, drop_eq_nil_of_le, append_nil, Bitmap.length_array]
    rw [Bitmap.length_array]
    omega
  | setMultiple start cnt value =>
    obtain ⟨b', hb', hset⟩ := bitmapSetMultiple_eq h value
    exact ⟨b', hb', hset.bitCnt_eq, hset.array_eq h⟩
  | scanAndFlip start cnt value =>
    obtain ⟨r, b', hb', -, hcnt, hstep⟩ := bitmapScanAndFlip_array h cnt value
    exact ⟨b', by rw [bitmapApply, hb']; rfl, hcnt, hstep⟩

theorem foldlM_bitmapApply {ops : List BitmapOp} (h : ∀ op ∈ ops, op.InRange b.bitCnt) :
    ∃ b', ops.foldlM bitmapApply b = .ok b' ∧ b'.bitCnt = b.bitCnt ∧
      ArrayRun b.array ops b'.array := by
  induction ops generalizing b with
  | nil => exact ⟨b, rfl, rfl, rfl⟩
  | cons op ops ih =>
    obtain ⟨b₁, hb₁, hcnt₁, hstep⟩ := bitmapApply_spec (h op mem_cons_self)
    obtain ⟨b₂, hb₂, hcnt₂, hrun⟩ := ih (b := b₁) fun op' hop' => by
      rw [hcnt₁]
      exact h op' (mem_cons_of_mem op hop')
    refine ⟨b₂, ?_, hcnt₂.trans hcnt₁, _, hstep, hrun⟩
    rw [foldlM_cons, hb₁]
    exact hb₂

/-! ### Tests of a range -/

theorem foldlM_count_eq (h : start + cnt ≤ b.bitCnt) (v : Bool) :
    (range cnt).foldlM (fun valueCnt i => do
        let bit ← bitmapTest b ((start + i) % wordSize)
        return if bit == v then (valueCnt + 1) % wordSize else valueCnt) 0 =
      (.ok (((range cnt).map fun i => b.bit (start + i)).count v) : Except Panic ℕ) := by
  induction cnt with
  | zero => rfl
  | succ cnt ih =>
    have hcnt : ((range cnt).map fun i => b.bit (start + i)).count v ≤ cnt := by
      refine count_le_length.trans ?_
      rw [length_map, length_range]
    have hword := b.bitCnt_le
    have hmod : (start + cnt) % wordSize = start + cnt := b.mod_eq (by omega)
    have htest : bitmapTest b (start + cnt) = .ok (b.bit (start + cnt)) := bitmapTest_eq (by omega)
    rw [range_succ, foldlM_append, ih (by omega), map_append, count_append]
    simp only [foldlM_cons, foldlM_nil, map_cons, map_nil, hmod, htest, bind,
      Except.bind, pure, Except.pure, count_singleton]
    by_cases hv : (b.bit (start + cnt) == v) = true
    · rw [if_pos hv, if_pos hv, Nat.mod_eq_of_lt (by omega)]
    · rw [if_neg hv, if_neg hv, Nat.add_zero]

theorem bitmapCount_array (h : start + cnt ≤ b.bitCnt) (v : Bool) :
    bitmapCount b start cnt v = .ok ((subarray b.array start cnt).count v) := by
  rw [bitmapCount, if_pos ⟨by omega, by rwa [b.mod_eq h]⟩, Bitmap.subarray_array h,
    foldlM_count_eq h]

theorem bitmapContains_array (h : start + cnt ≤ b.bitCnt) (v : Bool) :
    bitmapContains b start cnt v = .ok ((subarray b.array start cnt).contains v) := by
  rw [bitmapContains_eq h, Bitmap.subarray_array h]
  congr 1
  simp

theorem bitmapTests_array (h : start + cnt ≤ b.bitCnt) :
    bitmapAny b start cnt = .ok ((subarray b.array start cnt).any id) ∧
      bitmapNone b start cnt = .ok (!(subarray b.array start cnt).any id) ∧
      bitmapAll b start cnt = .ok ((subarray b.array start cnt).all id) := by
  have hany : (subarray b.array start cnt).contains true = (subarray b.array start cnt).any id := by
    rw [Bool.eq_iff_iff]
    simp
  have hall : (!(subarray b.array start cnt).contains false) =
      (subarray b.array start cnt).all id := by
    rw [Bool.eq_iff_iff]
    simp
  refine ⟨?_, ?_, ?_⟩
  · rw [bitmapAny, bitmapContains_array h, hany]
  · rw [bitmapNone, bitmapContains_array h, ← hany]
    rfl
  · rw [bitmapAll, bitmapContains_array h, ← hall]
    rfl

/-- **A bitmap is an array of bits**, over every sequence of operations with arguments in range. -/
theorem bitmap_represents_array (b : Bitmap) (ops : List BitmapOp)
    (hops : ∀ op ∈ ops, op.InRange b.bitCnt) :
    ∃ b', ops.foldlM bitmapApply b = .ok b' ∧ b'.array.length = b.bitCnt ∧
      ArrayRun b.array ops b'.array ∧
      (∀ idx (hidx : idx < b'.array.length), bitmapTest b' idx = .ok b'.array[idx]) ∧
      (∀ start cnt, start + cnt ≤ b.bitCnt →
        (∀ v, bitmapCount b' start cnt v = .ok ((subarray b'.array start cnt).count v) ∧
          bitmapContains b' start cnt v = .ok ((subarray b'.array start cnt).contains v)) ∧
        bitmapAny b' start cnt = .ok ((subarray b'.array start cnt).any id) ∧
        bitmapNone b' start cnt = .ok (!(subarray b'.array start cnt).any id) ∧
        bitmapAll b' start cnt = .ok ((subarray b'.array start cnt).all id)) ∧
      ∀ start cnt v, start ≤ b.bitCnt →
        ∃ r, bitmapScan b' start cnt v = .ok r ∧
          (∀ k, r = some k ↔ IsLeast (groupsFrom b'.array start cnt v) k) ∧
          (r = none ↔ groupsFrom b'.array start cnt v = ∅) ∧
          ∃ b'', bitmapScanAndFlip b' start cnt v = .ok (r, b'') ∧
            ArrayStep b'.array (.scanAndFlip start cnt v) b''.array := by
  obtain ⟨b', hb', hcnt, hrun⟩ := foldlM_bitmapApply hops
  refine ⟨b', hb', by rw [Bitmap.length_array, hcnt], hrun, fun idx hidx => ?_,
    fun start cnt h => ?_, fun start cnt v h => ?_⟩
  · rw [bitmapTest_eq (by rwa [Bitmap.length_array] at hidx), Bitmap.getElem_array]
  · rw [← hcnt] at h
    exact ⟨fun v => ⟨bitmapCount_array h v, bitmapContains_array h v⟩, bitmapTests_array h⟩
  · rw [← hcnt] at h
    obtain ⟨r, hscan, hsome, hnone⟩ := bitmapScan_array h cnt v
    obtain ⟨r', b'', hflip, hscan', -, hstep⟩ := bitmapScanAndFlip_array h cnt v
    obtain rfl : r = r' := Except.ok.inj (hscan.symm.trans hscan')
    exact ⟨r, hscan, hsome, hnone, b'', hflip, hstep⟩

end

theorem forty_le : 40 + 32 ≤ wordSize := by decide

def fortyBits : Bitmap := ⟨40, fun _ => 0#32, forty_le⟩

/-- The first group of four clear bits at or after bit 30, when bit 31 is set, starts in the second
element. -/
theorem bitmap_represents_fortyBits :
    ∃ b', [BitmapOp.mark 31, .scanAndFlip 30 4 false].foldlM bitmapApply fortyBits = .ok b' ∧
      ArrayRun fortyBits.array [.mark 31, .scanAndFlip 30 4 false] b'.array := by
  obtain ⟨b', hb', -, hrun, -⟩ := bitmap_represents_array fortyBits
    [.mark 31, .scanAndFlip 30 4 false] (by decide)
  exact ⟨b', hb', hrun⟩

end OsMaterial
