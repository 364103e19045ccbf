import OsMaterial.Calls
import OsMaterial.Words

/-!
# Bitmaps

The bitmaps of `lib/kernel/bitmap.c`: 32-bit elements and masks that simulate an array of bits
(`Bitmap.bit`).

* `bitmapSetMultiple_eq`: exactly the bits of the range change.
* `bitmapScan_eq`, `bitmapScanAndFlip_eq`: **first fit**.
-/

namespace OsMaterial

open List

inductive Panic where
  | bitIndex
  | bitRange
  | elemIndex
  | sectorRange
  | negativeLength
  | notAllocated
  | denyCount
  | notDenied
  | negativePosition
  | badPointer
  | bitmapCreation
  | freeMapCreation
  | freeMapOpen
  | freeMapRead
  | freeMapWrite
  | rootDirCreation
  | overflow
  deriving DecidableEq

/-! ### Elements -/

def elemIdx (bitIdx : ℕ) : ℕ := bitIdx / 32

def bitMask (bitIdx : ℕ) : BitVec 32 := 1#32 <<< (bitIdx % 32)

def elemCnt (bitCnt : ℕ) : ℕ := (bitCnt + 31) % wordSize / 32

def byteCnt (bitCnt : ℕ) : ℕ := 4 * elemCnt bitCnt

structure Bitmap where
  bitCnt : ℕ
  bits : ℕ → BitVec 32
  bitCnt_le : bitCnt + 32 ≤ wordSize

def lastMask (b : Bitmap) : BitVec 32 :=
  if b.bitCnt % 32 ≠ 0 then (1#32 <<< (b.bitCnt % 32)) - 1#32 else BitVec.allOnes 32

theorem elemCnt_eq (b : Bitmap) : elemCnt b.bitCnt = (b.bitCnt + 31) / 32 := by
  have := b.bitCnt_le
  rw [elemCnt, Nat.mod_eq_of_lt (by omega)]

variable {b b' : Bitmap} {start cnt i k : ℕ} {v : Bool}

theorem elemIdx_lt (hi : i < b.bitCnt) : elemIdx i < elemCnt b.bitCnt := by
  rw [elemCnt_eq, elemIdx]
  omega

def Bitmap.bytes (b : Bitmap) : Bytes :=
  bytesOfWords ((range (elemCnt b.bitCnt)).map b.bits)

@[simp] theorem Bitmap.length_bytes (b : Bitmap) : b.bytes.length = byteCnt b.bitCnt := by
  simp [Bitmap.bytes, byteCnt]

def Bitmap.bit (b : Bitmap) (i : ℕ) : Bool := bitOf b.bits i

/-! ### Single bits -/

def bitmapMark (b : Bitmap) (bitIdx : ℕ) : Except Panic Bitmap :=
  let idx := elemIdx bitIdx
  if idx < elemCnt b.bitCnt then
    .ok { b with bits := Function.update b.bits idx (b.bits idx ||| bitMask bitIdx) }
  else
    .error .elemIndex

def bitmapReset (b : Bitmap) (bitIdx : ℕ) : Except Panic Bitmap :=
  let idx := elemIdx bitIdx
  if idx < elemCnt b.bitCnt then
    .ok { b with bits := Function.update b.bits idx (b.bits idx &&& ~~~ bitMask bitIdx) }
  else
    .error .elemIndex

def bitmapFlip (b : Bitmap) (bitIdx : ℕ) : Except Panic Bitmap :=
  let idx := elemIdx bitIdx
  if idx < elemCnt b.bitCnt then
    .ok { b with bits := Function.update b.bits idx (b.bits idx ^^^ bitMask bitIdx) }
  else
    .error .elemIndex

def bitmapSet (b : Bitmap) (idx : ℕ) (value : Bool) : Except Panic Bitmap :=
  if idx < b.bitCnt then
    if value then bitmapMark b idx else bitmapReset b idx
  else
    .error .bitIndex

def bitmapTest (b : Bitmap) (idx : ℕ) : Except Panic Bool :=
  if idx < b.bitCnt then
    .ok ((b.bits (elemIdx idx) &&& bitMask idx) ≠ 0#32)
  else
    .error .bitIndex

theorem getLsbD_bitMask (i k : ℕ) : (bitMask i).getLsbD k = decide (k = i % 32) := by
  rw [bitMask, ← BitVec.twoPow_eq, BitVec.getLsbD_twoPow]
  simp only [Nat.mod_lt i (by decide : 0 < 32), decide_true, Bool.true_and, eq_comm]

theorem bitmapMark_eq (hi : elemIdx i < elemCnt b.bitCnt) :
    ∃ b', bitmapMark b i = .ok b' ∧ b'.bitCnt = b.bitCnt ∧
      ∀ j, b'.bit j = if j = i then true else b.bit j := by
  refine ⟨_, if_pos hi, rfl, bitOf_update fun k _ => ?_⟩
  rw [BitVec.getLsbD_or, getLsbD_bitMask, elemIdx]
  split <;> simp [*]

theorem bitmapReset_eq (hi : elemIdx i < elemCnt b.bitCnt) :
    ∃ b', bitmapReset b i = .ok b' ∧ b'.bitCnt = b.bitCnt ∧
      ∀ j, b'.bit j = if j = i then false else b.bit j := by
  refine ⟨_, if_pos hi, rfl, bitOf_update fun k hk => ?_⟩
  rw [BitVec.getLsbD_and, BitVec.getLsbD_not, getLsbD_bitMask, elemIdx]
  split <;> simp [*]

theorem bitmapFlip_eq (hi : elemIdx i < elemCnt b.bitCnt) :
    ∃ b', bitmapFlip b i = .ok b' ∧ b'.bitCnt = b.bitCnt ∧
      ∀ j, b'.bit j = if j = i then !b.bit i else b.bit j := by
  refine ⟨_, if_pos hi, rfl, bitOf_update fun k hk => ?_⟩
  rw [BitVec.getLsbD_xor, getLsbD_bitMask, elemIdx]
  split
  · rename_i hki
    rw [hki, decide_eq_true rfl, Bool.xor_true]
    rfl
  · rename_i hki
    rw [decide_eq_false hki, Bool.xor_false]

theorem bitmapSet_eq (hi : i < b.bitCnt) (v : Bool) :
    ∃ b', bitmapSet b i v = .ok b' ∧ b'.bitCnt = b.bitCnt ∧
      ∀ j, b'.bit j = if j = i then v else b.bit j := by
  rw [bitmapSet, if_pos hi]
  cases v with
  | true => exact bitmapMark_eq (elemIdx_lt hi)
  | false => exact bitmapReset_eq (elemIdx_lt hi)

theorem bitmapTest_eq (hi : i < b.bitCnt) : bitmapTest b i = .ok (b.bit i) := by
  have hmask : b.bits (elemIdx i) &&& bitMask i ≠ 0#32 ↔ b.bit i = true := by
    rw [bitMask, ← BitVec.twoPow_eq, BitVec.and_twoPow, Bitmap.bit, bitOf, elemIdx]
    split
    · next h =>
      have hne : BitVec.twoPow 32 (i % 32) ≠ 0#32 := by
        intro h0
        have hbit := congrArg (BitVec.getLsbD · (i % 32)) h0
        simp [Nat.mod_lt i (by decide : 0 < 32)] at hbit
      simp [hne, h]
    · next h => simp [h]
  rw [bitmapTest, if_pos hi]
  simp [hmask]

/-! ### Ranges of bits -/

def bitmapSetMultiple (b : Bitmap) (start cnt : ℕ) (value : Bool) : Except Panic Bitmap :=
  if start ≤ b.bitCnt ∧ (start + cnt) % wordSize ≤ b.bitCnt then
    (range cnt).foldlM (fun b i => bitmapSet b ((start + i) % wordSize) value) b
  else
    .error .bitRange

def bitmapSetAll (b : Bitmap) (value : Bool) : Except Panic Bitmap :=
  bitmapSetMultiple b 0 b.bitCnt value

def bitmapCount (b : Bitmap) (start cnt : ℕ) (value : Bool) : Except Panic ℕ :=
  if start ≤ b.bitCnt ∧ (start + cnt) % wordSize ≤ b.bitCnt then
    (range cnt).foldlM (fun valueCnt i => do
      let bit ← bitmapTest b ((start + i) % wordSize)
      return if bit == value then (valueCnt + 1) % wordSize else valueCnt) 0
  else
    .error .bitRange

def bitmapContains (b : Bitmap) (start cnt : ℕ) (value : Bool) : Except Panic Bool :=
  if start ≤ b.bitCnt ∧ (start + cnt) % wordSize ≤ b.bitCnt then
    (range cnt).anyM fun i => do
      return (← bitmapTest b ((start + i) % wordSize)) == value
  else
    .error .bitRange

def bitmapAny (b : Bitmap) (start cnt : ℕ) : Except Panic Bool :=
  bitmapContains b start cnt true

def bitmapNone (b : Bitmap) (start cnt : ℕ) : Except Panic Bool := do
  return !(← bitmapContains b start cnt true)

def bitmapAll (b : Bitmap) (start cnt : ℕ) : Except Panic Bool := do
  return !(← bitmapContains b start cnt false)

def bitmapScan (b : Bitmap) (start cnt : ℕ) (value : Bool) : Except Panic (Option ℕ) :=
  if start ≤ b.bitCnt then
    if cnt ≤ b.bitCnt then
      let last := b.bitCnt - cnt
      (range' start (last + 1 - start)).findM? fun i => do
        return !(← bitmapContains b i cnt (!value))
    else
      .ok none
  else
    .error .bitRange

def bitmapScanAndFlip (b : Bitmap) (start cnt : ℕ) (value : Bool) :
    Except Panic (Option ℕ × Bitmap) := do
  match ← bitmapScan b start cnt value with
  | none => return (none, b)
  | some idx => return (some idx, ← bitmapSetMultiple b idx cnt (!value))

/-- The bits of the range **all have one value**. -/
def Bitmap.Run (b : Bitmap) (start cnt : ℕ) (v : Bool) : Prop :=
  start + cnt ≤ b.bitCnt ∧ ∀ i < cnt, b.bit (start + i) = v

instance Bitmap.decidableRun (b : Bitmap) (start cnt : ℕ) (v : Bool) :
    Decidable (b.Run start cnt v) :=
  inferInstanceAs (Decidable (_ ∧ _))

theorem Bitmap.mod_eq (hk : k ≤ b.bitCnt) : k % wordSize = k := by
  have := b.bitCnt_le
  exact Nat.mod_eq_of_lt (by omega)

/-- `b'` is `b` with the range set to `v`. -/
structure Bitmap.IsSet (b : Bitmap) (start cnt : ℕ) (v : Bool) (b' : Bitmap) : Prop where
  bitCnt_eq : b'.bitCnt = b.bitCnt
  bit_eq : ∀ j, b'.bit j = if start ≤ j ∧ j < start + cnt then v else b.bit j

theorem foldlM_bitmapSet_eq (h : start + cnt ≤ b.bitCnt) (v : Bool) :
    ∃ b', (range cnt).foldlM (fun b i => bitmapSet b ((start + i) % wordSize) v) b =
        .ok b' ∧ b.IsSet start cnt v b' := by
  induction cnt with
  | zero =>
    refine ⟨b, rfl, rfl, fun j => ?_⟩
    rw [if_neg (by omega)]
  | succ cnt ih =>
    obtain ⟨b₁, hrun, hcnt, hbits⟩ := ih (by omega)
    obtain ⟨b₂, hset, hcnt', hbits'⟩ := bitmapSet_eq (b := b₁) (i := start + cnt) (by omega) v
    refine ⟨b₂, ?_, hcnt'.trans hcnt, fun j => ?_⟩
    · have hmod : (start + cnt) % wordSize = start + cnt := b.mod_eq (by omega)
      rw [range_succ, foldlM_append, hrun]
      simp only [foldlM_cons, foldlM_nil, hmod]
      exact (bind_pure _).trans hset
    · rw [hbits', hbits]
      split_ifs <;> first | rfl | omega

theorem bitmapSetMultiple_eq (h : start + cnt ≤ b.bitCnt) (v : Bool) :
    ∃ b', bitmapSetMultiple b start cnt v = .ok b' ∧ b.IsSet start cnt v b' := by
  rw [bitmapSetMultiple, if_pos ⟨by omega, by rwa [b.mod_eq h]⟩]
  exact foldlM_bitmapSet_eq h v

theorem bitCnt_of_bitmapSet {idx : ℕ} (h : bitmapSet b idx v = .ok b') : b'.bitCnt = b.bitCnt := by
  simp only [bitmapSet, bitmapMark, bitmapReset] at h
  split_ifs at h
  · obtain rfl := Except.ok.inj h
    rfl
  · obtain rfl := Except.ok.inj h
    rfl

theorem bitCnt_of_bitmapSetMultiple (h : bitmapSetMultiple b start cnt v = .ok b') :
    b'.bitCnt = b.bitCnt := by
  rw [bitmapSetMultiple] at h
  split_ifs at h with hrange
  clear hrange
  generalize range cnt = is at h
  induction is generalizing b with
  | nil =>
    obtain rfl := Except.ok.inj h
    rfl
  | cons i is ih =>
    rw [foldlM_cons] at h
    cases hset : bitmapSet b ((start + i) % wordSize) v with
    | error e =>
      rw [hset] at h
      cases h
    | ok b₁ =>
      rw [hset] at h
      exact (ih h).trans (bitCnt_of_bitmapSet hset)

theorem bitmapContains_eq (h : start + cnt ≤ b.bitCnt) (v : Bool) :
    bitmapContains b start cnt v = .ok (decide (∃ i < cnt, b.bit (start + i) = v)) := by
  rw [bitmapContains, if_pos ⟨by omega, by rwa [b.mod_eq h]⟩,
    anyM_eq_ok (q := fun i => b.bit (start + i) == v)]
  · congr 1
    rw [Bool.eq_iff_iff]
    simp
  · intro i hi
    have hi := mem_range.mp hi
    rw [b.mod_eq (by omega), bitmapTest_eq (by omega)]
    rfl

theorem bitmapContains_not_eq (h : start + cnt ≤ b.bitCnt) (v : Bool) :
    bitmapContains b start cnt (!v) = .ok (!decide (b.Run start cnt v)) := by
  rw [bitmapContains_eq h, ← decide_not]
  congr 2
  simp [Bitmap.Run, h, Bool.eq_not]

theorem bitmapAll_eq (h : start + cnt ≤ b.bitCnt) :
    bitmapAll b start cnt = .ok (decide (b.Run start cnt true)) := by
  have hc := bitmapContains_not_eq h true
  rw [Bool.not_true] at hc
  rw [bitmapAll, hc]
  exact congrArg Except.ok (Bool.not_not _)

theorem bitmapScan_eq_find (hs : start ≤ b.bitCnt) (hc : cnt ≤ b.bitCnt) (v : Bool) :
    bitmapScan b start cnt v = .ok ((range' start (b.bitCnt - cnt + 1 - start)).find?
      fun i => b.Run i cnt v) := by
  rw [bitmapScan, if_pos hs, if_pos hc]
  refine findM_eq_ok fun i hi => ?_
  obtain ⟨hle, hlt⟩ := mem_range'_1.mp hi
  rw [bitmapContains_not_eq (by omega)]
  exact congrArg Except.ok (Bool.not_not _)

/-- **First fit**: `bitmap_scan` returns the first run at or after `start`, and
`BITMAP_ERROR` only when there is none. -/
theorem bitmapScan_eq (hs : start ≤ b.bitCnt) (cnt : ℕ) (v : Bool) :
    ∃ r, bitmapScan b start cnt v = .ok r ∧
      (∀ k, r = some k → b.Run k cnt v ∧ start ≤ k ∧ ∀ j, start ≤ j → j < k → ¬ b.Run j cnt v) ∧
      (r = none → ∀ k, start ≤ k → ¬ b.Run k cnt v) := by
  by_cases hc : cnt ≤ b.bitCnt
  · refine ⟨_, bitmapScan_eq_find hs hc v, fun k hk => ?_, fun hnone k hk hrun => ?_⟩
    · obtain ⟨hrun, i, hi, hki, hbefore⟩ := find?_eq_some_iff_getElem.mp hk
      simp only [getElem_range', Nat.one_mul] at hki hbefore
      refine ⟨by simpa using hrun, by omega, fun j hj hjk => ?_⟩
      have := hbefore (j - start) (by omega)
      rwa [show start + (j - start) = j by omega, Bool.not_eq_true', decide_eq_false_iff_not]
        at this
    · have := find?_eq_none.mp hnone k (mem_range'_1.mpr ⟨hk, by have := hrun.1; omega⟩)
      exact this (by simpa using hrun)
  · refine ⟨none, ?_, by simp, fun _ k hk hrun => ?_⟩
    · rw [bitmapScan, if_pos hs, if_neg hc]
    · have := hrun.1
      omega

/-- The **lowest** run. -/
def Bitmap.FirstRun (b : Bitmap) (k cnt : ℕ) (v : Bool) : Prop :=
  b.Run k cnt v ∧ ∀ j < k, ¬ b.Run j cnt v

theorem Bitmap.FirstRun.unique {j : ℕ} (hj : b.FirstRun j cnt v) (hk : b.FirstRun k cnt v) :
    j = k := by
  rcases Nat.lt_trichotomy j k with h | h | h
  · exact absurd hj.1 (hk.2 j h)
  · exact h
  · exact absurd hk.1 (hj.2 k h)

/-- `bitmap_scan_and_flip` from the first bit on: it flips the first run, and changes
nothing when there is none. -/
theorem bitmapScanAndFlip_eq (b : Bitmap) (cnt : ℕ) (v : Bool) :
    (∃ k b', bitmapScanAndFlip b 0 cnt v = .ok (some k, b') ∧ b.FirstRun k cnt v ∧
      b.IsSet k cnt (!v) b') ∨
    (bitmapScanAndFlip b 0 cnt v = .ok (none, b) ∧ ∀ k, ¬ b.Run k cnt v) := by
  obtain ⟨r, hscan, hsome, hnone⟩ := bitmapScan_eq (Nat.zero_le b.bitCnt) cnt v
  rw [bitmapScanAndFlip, hscan]
  cases r with
  | none => exact .inr ⟨rfl, fun k => hnone rfl k (Nat.zero_le k)⟩
  | some k =>
    obtain ⟨hrun, -, hfirst⟩ := hsome k rfl
    obtain ⟨b', hset, hb'⟩ := bitmapSetMultiple_eq hrun.1 (!v)
    refine .inl ⟨k, b', ?_, ⟨hrun, fun j hj => hfirst j (Nat.zero_le j) hj⟩, hb'⟩
    simp only [bind, Except.bind, hset]
    rfl

end OsMaterial
