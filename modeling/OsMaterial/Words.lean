import Mathlib.Data.List.GetD
import Mathlib.Data.List.TakeWhile
import Mathlib.Logic.Function.Basic
import Mathlib.Tactic.Common
import Mathlib.Tactic.Ring

/-!
# Machine Words and Byte Images

Numbers as little-endian bytes, and byte images: functions from addresses to bytes. `slice` reads a
run of bytes and `patch` writes one; `overwrite` does the same to a buffer.

* `ofLe_toLe`: the bytes of a number that fits stand for that number.
* `patch_append`, `patch_overwrite`: writes of a block device compose.
-/

namespace OsMaterial

open List

/-- A sequence of bytes. -/
abbrev Bytes : Type := List UInt8

variable {k i n : ℕ} {buffer bytes more : Bytes}

/-- The number of values of a 32-bit word, such as an `unsigned` or a `size_t`. -/
def wordSize : ℕ := 2 ^ 32

/-! ### Little-endian bytes -/

def toLe : ℕ → ℕ → Bytes
  | 0, _ => []
  | w + 1, n => UInt8.ofNat n :: toLe w (n / 256)

def ofLe (bytes : Bytes) : ℕ :=
  bytes.foldr (fun b n => b.toNat + 256 * n) 0

theorem ofLe_cons (b : UInt8) (bytes : Bytes) :
    ofLe (b :: bytes) = b.toNat + 256 * ofLe bytes := rfl

@[simp] theorem length_toLe (w n : ℕ) : (toLe w n).length = w := by
  induction w generalizing n with
  | zero => rfl
  | succ w ih => rw [toLe, length_cons, ih]

theorem ofLe_toLe {w : ℕ} (hn : n < 256 ^ w) : ofLe (toLe w n) = n := by
  induction w generalizing n with
  | zero => exact (Nat.lt_one_iff.mp (by simpa using hn)).symm
  | succ w ih =>
    have hdiv : n / 256 < 256 ^ w := Nat.div_lt_of_lt_mul (by rwa [pow_succ'] at hn)
    rw [toLe, ofLe_cons, ih hdiv, UInt8.toNat_ofNat']
    omega

theorem ofLe_lt (bytes : Bytes) : ofLe bytes < 256 ^ bytes.length := by
  induction bytes with
  | nil => exact Nat.one_pos
  | cons b bytes ih =>
    have hb := b.toNat_lt
    rw [ofLe_cons, length_cons, pow_succ']
    omega

theorem toLe_ofLe (bytes : Bytes) : toLe bytes.length (ofLe bytes) = bytes := by
  induction bytes with
  | nil => rfl
  | cons b bytes ih =>
    have hb := b.toNat_lt
    have hdiv : ofLe (b :: bytes) / 256 = ofLe bytes := by
      rw [ofLe_cons]
      omega
    have hbyte : UInt8.ofNat (ofLe (b :: bytes)) = b := by
      rw [← UInt8.toNat_inj, UInt8.toNat_ofNat', ofLe_cons]
      omega
    rw [length_cons, toLe, hdiv, ih, hbyte]

def bytesOfWords (words : List (BitVec 32)) : Bytes :=
  words.flatMap fun w => toLe 4 w.toNat

def wordsOfBytes : Bytes → List (BitVec 32)
  | a :: b :: c :: d :: rest => BitVec.ofNat 32 (ofLe [a, b, c, d]) :: wordsOfBytes rest
  | _ => []

theorem bytesOfWords_cons (w : BitVec 32) (words : List (BitVec 32)) :
    bytesOfWords (w :: words) = toLe 4 w.toNat ++ bytesOfWords words :=
  rfl

@[simp] theorem length_bytesOfWords (words : List (BitVec 32)) :
    (bytesOfWords words).length = 4 * words.length := by
  induction words with
  | nil => rfl
  | cons w words ih =>
    rw [bytesOfWords_cons, length_append, length_toLe, ih, length_cons]
    ring

@[simp] theorem wordsOfBytes_bytesOfWords (words : List (BitVec 32)) :
    wordsOfBytes (bytesOfWords words) = words := by
  induction words with
  | nil => rfl
  | cons w words ih =>
    have hw : BitVec.ofNat 32 (ofLe (toLe 4 w.toNat)) = w := by
      rw [ofLe_toLe w.isLt, BitVec.ofNat_toNat, BitVec.setWidth_eq]
    have hstep : wordsOfBytes (bytesOfWords (w :: words)) =
        BitVec.ofNat 32 (ofLe (toLe 4 w.toNat)) :: wordsOfBytes (bytesOfWords words) := rfl
    rw [hstep, hw, ih]

theorem length_wordsOfBytes (h : bytes.length = 4 * n) : (wordsOfBytes bytes).length = n := by
  induction n generalizing bytes with
  | zero =>
    obtain rfl := length_eq_zero_iff.mp h
    rfl
  | succ n ih =>
    match bytes, h with
    | _ :: _ :: _ :: _ :: rest, h =>
      simp only [length_cons] at h
      rw [wordsOfBytes, length_cons, ih (by omega)]

def bitOf (words : ℕ → BitVec 32) (i : ℕ) : Bool :=
  (words (i / 32)).getLsbD (i % 32)

theorem bitOf_update {words : ℕ → BitVec 32} {w : BitVec 32} {v : Bool}
    (hw : ∀ k < 32, w.getLsbD k = if k = i % 32 then v else (words (i / 32)).getLsbD k) (j : ℕ) :
    bitOf (Function.update words (i / 32) w) j = if j = i then v else bitOf words j := by
  unfold bitOf
  by_cases hword : j / 32 = i / 32
  · have hbit : j % 32 = i % 32 ↔ j = i := by omega
    rw [hword, Function.update_self, hw _ (Nat.mod_lt _ (by decide))]
    simp only [hbit]
  · have hne : j ≠ i := by
      rintro rfl
      exact hword rfl
    rw [Function.update_of_ne hword, if_neg hne]

/-! ### Reading and writing byte images -/

/-- The `n` bytes of an image from `ofs` on. -/
def slice (image : ℕ → UInt8) (ofs n : ℕ) : Bytes :=
  (range n).map fun i => image (ofs + i)

/-- An image with bytes written from `ofs` on. -/
def patch (image : ℕ → UInt8) (ofs : ℕ) (bytes : Bytes) : ℕ → UInt8 :=
  fun i => if ofs ≤ i then bytes.getD (i - ofs) (image i) else image i

/-- A buffer with bytes written from `ofs` on. -/
def overwrite (buffer : Bytes) (ofs : ℕ) (bytes : Bytes) : Bytes :=
  buffer.take ofs ++ bytes ++ buffer.drop (ofs + bytes.length)

section

variable {image : ℕ → UInt8} {ofs n : ℕ} {bytes : Bytes}

@[simp] theorem length_slice : (slice image ofs n).length = n := by
  simp [slice]

@[simp] theorem slice_zero : slice image ofs 0 = [] := rfl

@[simp] theorem getElem_slice (hi : i < (slice image ofs n).length) :
    (slice image ofs n)[i] = image (ofs + i) := by
  simp [slice]

theorem slice_congr {image' : ℕ → UInt8} (h : ∀ i, ofs ≤ i → i < ofs + n → image i = image' i) :
    slice image ofs n = slice image' ofs n := by
  refine map_congr_left fun i hi => h _ (by omega) ?_
  have := mem_range.mp hi
  omega

theorem slice_add (m : ℕ) :
    slice image ofs (m + n) = slice image ofs m ++ slice image (ofs + m) n := by
  simp [slice, range_add, Function.comp_def, Nat.add_assoc]

theorem take_slice (h : k ≤ n) : (slice image ofs n).take k = slice image ofs k := by
  obtain ⟨m, rfl⟩ := Nat.exists_eq_add_of_le h
  rw [slice_add, take_left' length_slice]

theorem drop_slice (h : k ≤ n) : (slice image ofs n).drop k = slice image (ofs + k) (n - k) := by
  obtain ⟨m, rfl⟩ := Nat.exists_eq_add_of_le h
  rw [slice_add, drop_left' length_slice, Nat.add_sub_cancel_left]

theorem slice_eq_append_iff :
    slice image ofs (bytes ++ more).length = bytes ++ more ↔
      slice image ofs bytes.length = bytes ∧
        slice image (ofs + bytes.length) more.length = more := by
  rw [length_append, slice_add]
  constructor
  · exact fun heq => append_inj heq length_slice
  · rintro ⟨hbytes, hmore⟩
    rw [hbytes, hmore]

theorem patch_of_lt (h : i < ofs) : patch image ofs bytes i = image i :=
  if_neg (by omega)

theorem patch_of_ge (h : ofs + bytes.length ≤ i) : patch image ofs bytes i = image i := by
  rw [patch, if_pos (by omega)]
  exact getD_eq_default _ _ (by omega)

theorem patch_of_mem (h₁ : ofs ≤ i) (h₂ : i - ofs < bytes.length) :
    patch image ofs bytes i = bytes[i - ofs] := by
  rw [patch, if_pos h₁, getD_eq_getElem _ _ h₂]

@[simp] theorem patch_nil : patch image ofs [] = image := by
  funext i
  rcases Nat.lt_or_ge i ofs with h | h
  · exact patch_of_lt h
  · exact patch_of_ge h

theorem patch_singleton (v : UInt8) : patch image ofs [v] = Function.update image ofs v := by
  funext x
  rcases Nat.lt_trichotomy x ofs with hlt | rfl | hgt
  · rw [patch_of_lt hlt, Function.update_of_ne hlt.ne]
  · rw [patch_of_mem le_rfl (by simp), Function.update_self]
    simp
  · rw [patch_of_ge hgt, Function.update_of_ne hgt.ne']

@[simp] theorem slice_patch_eq : slice (patch image ofs bytes) ofs bytes.length = bytes := by
  apply ext_getElem length_slice
  intro i h₁ h₂
  rw [getElem_slice, patch_of_mem (by omega) (by omega)]
  simp

theorem slice_patch_of_disjoint {ofs' : ℕ} (h : ofs' + n ≤ ofs ∨ ofs + bytes.length ≤ ofs') :
    slice (patch image ofs bytes) ofs' n = slice image ofs' n := by
  refine slice_congr fun i h₁ h₂ => ?_
  rcases h with h | h
  · exact patch_of_lt (by omega)
  · exact patch_of_ge (by omega)

theorem slice_patch_of_inside (h : k + bytes.length ≤ n) :
    slice (patch image (ofs + k) bytes) ofs n = overwrite (slice image ofs n) k bytes := by
  have hsplit : n = k + (bytes.length + (n - (k + bytes.length))) := by omega
  rw [overwrite, take_slice (by omega), drop_slice h]
  nth_rewrite 1 [hsplit]
  rw [slice_add, slice_add, slice_patch_eq, slice_patch_of_disjoint (.inl (by omega)),
    slice_patch_of_disjoint (.inr (by omega)), append_assoc, ← Nat.add_assoc]

theorem patch_append (more : Bytes) :
    patch (patch image ofs bytes) (ofs + bytes.length) more = patch image ofs (bytes ++ more) := by
  funext i
  rcases Nat.lt_or_ge i ofs with h₁ | h₁
  · rw [patch_of_lt (by omega), patch_of_lt h₁, patch_of_lt h₁]
  · rcases Nat.lt_or_ge i (ofs + bytes.length) with h₂ | h₂
    · rw [patch_of_lt h₂, patch_of_mem h₁ (by omega), patch_of_mem h₁ (by simp; omega),
        getElem_append_left]
    · rcases Nat.lt_or_ge i (ofs + bytes.length + more.length) with h₃ | h₃
      · rw [patch_of_mem h₂ (by omega), patch_of_mem h₁ (by simp; omega),
          getElem_append_right (by omega)]
        congr 1
        omega
      · rw [patch_of_ge h₃, patch_of_ge h₂, patch_of_ge (by simp; omega)]

theorem patch_patch_eq {bytes' : Bytes} (h : bytes.length ≤ bytes'.length) :
    patch (patch image ofs bytes) ofs bytes' = patch image ofs bytes' := by
  funext i
  rcases Nat.lt_or_ge i ofs with h₁ | h₁
  · rw [patch_of_lt h₁, patch_of_lt h₁, patch_of_lt h₁]
  · rcases Nat.lt_or_ge i (ofs + bytes'.length) with h₂ | h₂
    · rw [patch_of_mem h₁ (by omega), patch_of_mem h₁ (by omega)]
    · rw [patch_of_ge h₂, patch_of_ge h₂, patch_of_ge (by omega)]

theorem patch_append_patch {more' : Bytes} (h : more.length ≤ more'.length) :
    patch (patch image ofs (bytes ++ more)) (ofs + bytes.length) more' =
      patch image ofs (bytes ++ more') := by
  rw [← patch_append, patch_patch_eq h, patch_append]

theorem overwrite_append (written bytes : Bytes) (size : ℕ) :
    overwrite (written ++ replicate size 0) written.length bytes =
      written ++ bytes ++ replicate (size - bytes.length) 0 := by
  rw [overwrite, take_left, drop_append, drop_of_length_le (by omega),
    nil_append, drop_replicate, Nat.add_sub_cancel_left]

theorem length_overwrite (h : k + bytes.length ≤ buffer.length) :
    (overwrite buffer k bytes).length = buffer.length := by
  simp only [overwrite, length_append, length_take, length_drop]
  omega

theorem getElem?_overwrite (h : k + bytes.length ≤ buffer.length) (i : ℕ) :
    (overwrite buffer k bytes)[i]? =
      if k ≤ i ∧ i < k + bytes.length then bytes[i - k]? else buffer[i]? := by
  have hk : (buffer.take k).length = k := by rw [length_take]; omega
  rw [overwrite, append_assoc]
  rcases Nat.lt_or_ge i k with hlt | hge
  · rw [getElem?_append_left (by omega), getElem?_take_of_lt hlt, if_neg (by omega)]
  · rw [getElem?_append_right (by omega), hk]
    rcases Nat.lt_or_ge i (k + bytes.length) with hin | hout
    · rw [getElem?_append_left (by omega), if_pos ⟨hge, hin⟩]
    · rw [getElem?_append_right (by omega), getElem?_drop, if_neg (by omega)]
      congr 1
      omega

theorem overwrite_all (h : buffer.length ≤ bytes.length) : overwrite buffer 0 bytes = bytes := by
  rw [overwrite, take_zero, nil_append, Nat.zero_add, drop_of_length_le h, append_nil]

@[simp] theorem overwrite_nil : overwrite buffer k [] = buffer := by
  rw [overwrite, append_nil, length_nil, Nat.add_zero, take_append_drop]

theorem overwrite_overwrite (h : k + bytes.length + more.length ≤ buffer.length) :
    overwrite (overwrite buffer k bytes) (k + bytes.length) more =
      overwrite buffer k (bytes ++ more) := by
  have hlen : (overwrite buffer k bytes).length = buffer.length := length_overwrite (by omega)
  refine ext_getElem? fun i => ?_
  rw [getElem?_overwrite (by omega), getElem?_overwrite (by omega),
    getElem?_overwrite (by rw [length_append]; omega), length_append]
  by_cases hmore : k + bytes.length ≤ i ∧ i < k + bytes.length + more.length
  · rw [if_pos hmore, if_pos (by omega), getElem?_append_right (by omega)]
    congr 1
    omega
  · rw [if_neg hmore]
    by_cases hbytes : k ≤ i ∧ i < k + bytes.length
    · rw [if_pos hbytes, if_pos (by omega), getElem?_append_left (by omega)]
    · rw [if_neg hbytes, if_neg (by omega)]

/-- Reading a range, changing a part of it in a buffer, and writing the buffer back
writes that part. -/
theorem patch_overwrite (h : k + bytes.length ≤ n) :
    patch image ofs (overwrite (slice image ofs n) k bytes) = patch image (ofs + k) bytes := by
  rw [← slice_patch_of_inside h]
  funext i
  rcases Nat.lt_or_ge i ofs with h₁ | h₁
  · rw [patch_of_lt h₁, patch_of_lt (by omega)]
  · rcases Nat.lt_or_ge i (ofs + n) with h₂ | h₂
    · rw [patch_of_mem h₁ (by simp; omega), getElem_slice]
      congr 1
      omega
    · rw [patch_of_ge (by simpa using h₂), patch_of_ge (by omega)]

end

/-! ### Strings -/

def isSpaceByte (c : UInt8) : Bool :=
  c = 0x20 || c = 0x0c || c = 0x0a || c = 0x0d || c = 0x09 || c = 0x0b

def isDigitByte (c : UInt8) : Bool := 0x30 ≤ c && c ≤ 0x39

@[ext] structure CString where
  bytes : Bytes
  nul_notMem : 0 ∉ bytes
  deriving DecidableEq

def cstring (array : Bytes) : Bytes :=
  array.takeWhile (· ≠ 0)

theorem nul_notMem_cstring (array : Bytes) : 0 ∉ cstring array := by
  intro hmem
  have hne := mem_takeWhile_imp hmem
  exact absurd rfl (of_decide_eq_true hne)

def CString.ofArray (array : Bytes) : CString := ⟨cstring array, nul_notMem_cstring array⟩

theorem cstring_append (src : CString) (rest : Bytes) :
    cstring (src.bytes ++ 0 :: rest) = src.bytes := by
  have hall : ∀ b ∈ src.bytes, (decide (b ≠ 0)) = true := by
    intro b hb
    exact decide_eq_true fun h0 => src.nul_notMem (h0 ▸ hb)
  rw [cstring, takeWhile_append_of_pos hall]
  simp

end OsMaterial
