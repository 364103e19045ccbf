import OsMaterial.Directory

/-!
# Who Owns a Sector

The invariant of the file system on the device (`VolInv`): **no sector has two owners**, every owned
sector is marked in the free map, and the free map on the device is the one in memory. A file is
named by its inode sector. What a step leaves alone is stated by agreement on sectors (`AgreeOn`).

* `VolInv.of_agree`: the invariant survives a step that leaves inodes and directory alone.
* `VolInv.agreeOn_patch`: a write into the sectors of one owner is seen by no other.
-/

namespace OsMaterial

/-! ### Agreement on sectors -/

/-- The image `d'` is the image `d` on the sectors that `P` holds of. -/
def AgreeOn (P : ℕ → Prop) (d d' : ℕ → UInt8) : Prop :=
  ∀ i, P (i / 512) → d' i = d i

variable {x ofs k i : ℕ} {o : Owner} {map : Bitmap} {bytes : Bytes}

section

variable {P R : ℕ → Prop} {d d' d'' : ℕ → UInt8}

theorem AgreeOn.refl (P : ℕ → Prop) (d : ℕ → UInt8) : AgreeOn P d d :=
  fun _ _ => rfl

section

variable (h : AgreeOn P d d')

include h

theorem AgreeOn.trans (h' : AgreeOn P d' d'') : AgreeOn P d d'' :=
  fun i hi => (h' i hi).trans (h i hi)

theorem AgreeOn.symm : AgreeOn P d' d :=
  fun i hi => (h i hi).symm

theorem AgreeOn.mono (hRP : ∀ k, R k → P k) : AgreeOn R d d' :=
  fun i hi => h i (hRP _ hi)

theorem AgreeOn.slice_eq {a c n : ℕ} (hP : ∀ k, a ≤ k → k < a + c → P k) (h₁ : 512 * a ≤ ofs)
    (h₂ : ofs + n ≤ 512 * (a + c)) : slice d' ofs n = slice d ofs n :=
  slice_congr fun i hi hi' => h i (hP _ (by omega) (by omega))

theorem AgreeOn.inodeOn_eq (hx : P x) : inodeOn d' x = inodeOn d x := by
  have hbytes : sectorBytes d' x = sectorBytes d x :=
    h.slice_eq (a := x) (c := 1) (fun k h₁ h₂ => by rwa [show k = x by omega]) le_rfl (by omega)
  rw [OsMaterial.inodeOn_eq, hbytes, ← OsMaterial.inodeOn_eq]

theorem AgreeOn.patch (ofs : ℕ) (bytes : Bytes) :
    AgreeOn P (OsMaterial.patch d ofs bytes) (OsMaterial.patch d' ofs bytes) := by
  intro i hi
  rw [OsMaterial.patch, OsMaterial.patch, h i hi]

end

theorem agreeOn_patch (h : ∀ i, ofs ≤ i → i < ofs + bytes.length → ¬ P (i / 512)) :
    AgreeOn P d (patch d ofs bytes) := by
  intro i hi
  rcases Nat.lt_or_ge i ofs with h₁ | h₁
  · exact patch_of_lt h₁
  · rcases Nat.lt_or_ge i (ofs + bytes.length) with h₂ | h₂
    · exact absurd hi (h i h₁ h₂)
    · exact patch_of_ge h₂

end

/-! ### The directory and the files -/

def FsState.slotOfs (s : FsState) (i : ℕ) : ℕ :=
  512 * (inodeOn s.disk 1).start + 20 * i

def FsState.entry (s : FsState) (i : ℕ) : DirEntry :=
  decodeEntry (slice s.disk (s.slotOfs i) 20)

/-- What entry `i` of the root directory binds: a name, and the sector of an inode. -/
def FsState.slot (s : FsState) (i : ℕ) : Option (Bytes × ℕ) :=
  if (s.entry i).inUse then some (cstring (s.entry i).name, (s.entry i).inodeSector) else none

def FsState.Bound (s : FsState) (x : ℕ) : Prop :=
  ∃ i < 16, ∃ name, s.slot i = some (name, x)

/-- A file that is removed and still open. -/
def FsState.Orphan (s : FsState) (x : ℕ) : Prop :=
  ∃ a ∈ s.openInodes, ∃ ino, s.inodes a = some ino ∧ ino.sector = x ∧ ino.removed = true

def FsState.IsFile (s : FsState) (x : ℕ) : Prop :=
  s.Bound x ∨ s.Orphan x

/-- **The bytes of a file.** -/
def FsState.contents (s : FsState) (x : ℕ) : Bytes :=
  slice s.disk (512 * (inodeOn s.disk x).start) (inodeOn s.disk x).length.toNat

/-! ### Owners -/

/-- What a sector can **belong to**. -/
inductive Owner where
  | freeMapInode
  | rootDirInode
  | freeMapData
  | rootDirData
  | fileInode (x : ℕ)
  | fileData (x : ℕ)
  deriving DecidableEq

def dataRun (disk : ℕ → UInt8) (x : ℕ) : ℕ × ℕ :=
  ((inodeOn disk x).start, bytesToSectors (inodeOn disk x).length)

namespace Owner

def extent (disk : ℕ → UInt8) : Owner → ℕ × ℕ
  | freeMapInode => (0, 1)
  | rootDirInode => (1, 1)
  | freeMapData => dataRun disk 0
  | rootDirData => dataRun disk 1
  | fileInode x => (x, 1)
  | fileData x => dataRun disk x

def Present (s : FsState) : Owner → Prop
  | fileInode x => s.IsFile x
  | fileData x => s.IsFile x
  | _ => True

def Holds (s : FsState) (o : Owner) (k : ℕ) : Prop :=
  o.Present s ∧ (o.extent s.disk).1 ≤ k ∧ k < (o.extent s.disk).1 + (o.extent s.disk).2

def IsMeta : Owner → Prop
  | freeMapData => False
  | fileData _ => False
  | _ => True

end Owner

def FsState.OwnedBy (s : FsState) (P : Owner → Prop) (k : ℕ) : Prop :=
  ∃ o, P o ∧ o.Holds s k

def FsState.diskBit (s : FsState) (i : ℕ) : Bool :=
  let bytes := slice s.disk (512 * (inodeOn s.disk 0).start) (byteCnt s.size)
  bitOf (fun j => (wordsOfBytes bytes).getD j 0) i

/-- **The invariant of the volume.** -/
structure VolInv (s : FsState) : Prop where
  bitCnt_eq : s.freeMap.bitCnt = s.size
  freeMap_length : (inodeOn s.disk 0).length = byteCnt s.size
  rootDir_length : (inodeOn s.disk 1).length = 320
  file_length : ∀ {x}, s.IsFile x → 0 ≤ (inodeOn s.disk x).length
  file_run_le : ∀ {x}, s.IsFile x → (dataRun s.disk x).1 + (dataRun s.disk x).2 ≤ s.size
  /-- **No sector has two owners.** -/
  owner_eq : ∀ {o p : Owner} {k}, o.Holds s k → p.Holds s k → o = p
  owner_lt : ∀ {o : Owner} {k}, o.Holds s k → k < s.size
  /-- **An owned sector is marked.** -/
  owner_marked : ∀ {o : Owner} {k}, o.Holds s k → s.freeMap.bit k = true
  name_valid : ∀ {i name x}, i < 16 → s.slot i = some (name, x) → name ≠ [] ∧ name.length ≤ 14
  name_inj : ∀ {i j name x y}, i < 16 → j < 16 → s.slot i = some (name, x) →
    s.slot j = some (name, y) → i = j
  sector_inj : ∀ {i j name name' x}, i < 16 → j < 16 → s.slot i = some (name, x) →
    s.slot j = some (name', x) → i = j
  orphan_unbound : ∀ {x}, s.Orphan x → ¬ s.Bound x
  /-- **The free map on the device** is the one in memory. -/
  diskBit_eq : ∀ {i}, i < s.size → s.diskBit i = s.freeMap.bit i

/-- An inode that is made and not yet in the directory. -/
structure FsState.Fresh (s : FsState) (x : ℕ) : Prop where
  length_nonneg : 0 ≤ (inodeOn s.disk x).length
  sector_lt : x < s.size
  sector_marked : s.freeMap.bit x = true
  sector_unowned : ∀ o : Owner, ¬ o.Holds s x
  run_le : (dataRun s.disk x).1 + (dataRun s.disk x).2 ≤ s.size
  run_marked : ∀ k, (dataRun s.disk x).1 ≤ k →
    k < (dataRun s.disk x).1 + (dataRun s.disk x).2 → s.freeMap.bit k = true
  run_unowned : ∀ k, (dataRun s.disk x).1 ≤ k →
    k < (dataRun s.disk x).1 + (dataRun s.disk x).2 → ∀ o : Owner, ¬ o.Holds s k
  run_ne : ∀ k, (dataRun s.disk x).1 ≤ k → k < (dataRun s.disk x).1 + (dataRun s.disk x).2 → k ≠ x

theorem inodeOn_length_lt (disk : ℕ → UInt8) (x : ℕ) : (inodeOn disk x).length < 2 ^ 31 := by
  have hw : ((wordSize : ℤ) + 1) / 2 = 2 ^ 31 := by decide
  simp only [inodeOn_eq, decodeInode, offOfWord]
  exact hw ▸ Int.bmod_lt (by decide)

theorem bytesToSectors_rootDir : bytesToSectors 320 = 1 := by decide

open FsState

namespace VolInv

variable {s t : FsState}

theorem size_le (h : VolInv s) : s.size + 32 ≤ wordSize :=
  h.bitCnt_eq ▸ s.freeMap.bitCnt_le

theorem holds_zero : Owner.freeMapInode.Holds s 0 := ⟨trivial, le_rfl, Nat.one_pos⟩

theorem holds_one : Owner.rootDirInode.Holds s 1 := ⟨trivial, le_rfl, Nat.lt_succ_self 1⟩

theorem holds_fileInode (hx : s.IsFile x) : (Owner.fileInode x).Holds s x :=
  ⟨hx, le_rfl, Nat.lt_succ_self x⟩

theorem holds_rootDirData (h : VolInv s) : Owner.rootDirData.Holds s (inodeOn s.disk 1).start := by
  simp [Owner.Holds, Owner.Present, Owner.extent, dataRun, h.rootDir_length, bytesToSectors_rootDir]

theorem two_le (h : VolInv s) (hx : s.IsFile x) : 2 ≤ x := by
  by_contra hlt
  obtain rfl | rfl : x = 0 ∨ x = 1 := by omega
  · cases h.owner_eq holds_zero (holds_fileInode hx)
  · cases h.owner_eq holds_one (holds_fileInode hx)

theorem exists_dataOwner (hx : x = 0 ∨ x = 1 ∨ s.IsFile x) :
    ∃ o : Owner, o.Present s ∧ o.extent s.disk = dataRun s.disk x := by
  rcases hx with rfl | rfl | hx
  · exact ⟨.freeMapData, trivial, rfl⟩
  · exact ⟨.rootDirData, trivial, rfl⟩
  · exact ⟨.fileData x, hx, rfl⟩

section

variable (h : VolInv s) (hx : x = 0 ∨ x = 1 ∨ s.IsFile x)

include h hx

theorem length_nonneg : 0 ≤ (inodeOn s.disk x).length := by
  rcases hx with rfl | rfl | hx
  · rw [h.freeMap_length]
    omega
  · rw [h.rootDir_length]
    omega
  · exact h.file_length hx

theorem fits : s.Fits (inodeOn s.disk x) := by
  intro pos hpos
  obtain ⟨o, hpresent, hext⟩ := exists_dataOwner hx
  have hroom := le_bytesToSectors (h.length_nonneg hx) (inodeOn_length_lt s.disk x)
  refine h.owner_lt (o := o) ⟨hpresent, ?_, ?_⟩ <;> rw [hext] <;> simp only [dataRun] <;> omega

theorem holds_byte {pos : ℕ} (hpresent : o.Present s) (hext : o.extent s.disk = dataRun s.disk x)
    (hpos : pos < (inodeOn s.disk x).length.toNat) :
    o.Holds s ((512 * (inodeOn s.disk x).start + pos) / 512) := by
  have hroom := le_bytesToSectors (h.length_nonneg hx) (inodeOn_length_lt s.disk x)
  refine ⟨hpresent, ?_, ?_⟩ <;> rw [hext] <;> simp only [dataRun] <;> omega

end

theorem agreeOn_patch (h : VolInv s) {p : Owner}
    (hp : ∀ i, ofs ≤ i → i < ofs + bytes.length → p.Holds s (i / 512)) :
    AgreeOn (s.OwnedBy (· ≠ p)) s.disk (patch s.disk ofs bytes) :=
  OsMaterial.agreeOn_patch fun i h₁ h₂ ⟨_, hne, ho⟩ => hne (h.owner_eq ho (hp i h₁ h₂))

/-! ### Steps that leave inodes and directory alone -/

theorem inodeOn_eq_of_agree (hdisk : AgreeOn (s.OwnedBy Owner.IsMeta) s.disk t.disk)
    (hx : x = 0 ∨ x = 1 ∨ s.IsFile x) : inodeOn t.disk x = inodeOn s.disk x := by
  rcases hx with rfl | rfl | hx
  · exact hdisk.inodeOn_eq ⟨.freeMapInode, trivial, holds_zero⟩
  · exact hdisk.inodeOn_eq ⟨.rootDirInode, trivial, holds_one⟩
  · exact hdisk.inodeOn_eq ⟨.fileInode x, trivial, holds_fileInode hx⟩

theorem slot_eq_of_agree (h : VolInv s) (hdisk : AgreeOn (s.OwnedBy Owner.IsMeta) s.disk t.disk)
    (hi : i < 16) : t.slot i = s.slot i := by
  have hofs : t.slotOfs i = s.slotOfs i := by
    rw [slotOfs, inodeOn_eq_of_agree hdisk (.inr (.inl rfl)), slotOfs]
  have hbytes : slice t.disk (s.slotOfs i) 20 = slice s.disk (s.slotOfs i) 20 := by
    rw [slotOfs]
    refine hdisk.slice_eq (a := (inodeOn s.disk 1).start) (c := 1) (fun k h₁ h₂ => ?_)
      (by omega) (by omega)
    have hk : k = (inodeOn s.disk 1).start := by omega
    exact ⟨.rootDirData, trivial, hk ▸ h.holds_rootDirData⟩
  rw [slot, entry, hofs, hbytes]
  rfl

theorem bound_iff_of_slot (hslot : ∀ i < 16, t.slot i = s.slot i) (x : ℕ) :
    t.Bound x ↔ s.Bound x := by
  refine exists_congr fun i => and_congr_right fun hi => ?_
  rw [hslot i hi]

theorem extent_eq (hinode : ∀ x, x = 0 ∨ x = 1 ∨ s.IsFile x → inodeOn t.disk x = inodeOn s.disk x)
    (ho : o.Present s) : o.extent t.disk = o.extent s.disk := by
  cases o with
  | freeMapInode | rootDirInode | fileInode => rfl
  | freeMapData => simp only [Owner.extent, dataRun, hinode 0 (.inl rfl)]
  | rootDirData => simp only [Owner.extent, dataRun, hinode 1 (.inr (.inl rfl))]
  | fileData x => simp only [Owner.extent, dataRun, hinode x (.inr (.inr ho))]

theorem holds_of_holds (hfile : ∀ x, t.IsFile x → s.IsFile x)
    (hinode : ∀ x, x = 0 ∨ x = 1 ∨ s.IsFile x → inodeOn t.disk x = inodeOn s.disk x)
    (ho : o.Holds t k) : o.Holds s k := by
  obtain ⟨hpresent, hk⟩ := ho
  have hpresent' : o.Present s := by
    cases o with
    | freeMapInode | rootDirInode | freeMapData | rootDirData => trivial
    | fileInode x | fileData x => exact hfile x hpresent
  exact ⟨hpresent', extent_eq hinode hpresent' ▸ hk⟩

theorem of_inodes (h : VolInv s) (hsize : t.size = s.size)
    (hcnt : t.freeMap.bitCnt = s.freeMap.bitCnt)
    (hinode : ∀ x, x = 0 ∨ x = 1 ∨ s.IsFile x → inodeOn t.disk x = inodeOn s.disk x)
    (hslot : ∀ i < 16, ∀ b, t.slot i = some b → s.slot i = some b)
    (hfile : ∀ x, t.IsFile x → s.IsFile x) (hunbound : ∀ x, t.Orphan x → ¬ t.Bound x)
    (hmarked : ∀ {o : Owner} {k}, o.Holds s k → t.freeMap.bit k = true)
    (hmap : ∀ i < t.size, t.diskBit i = t.freeMap.bit i) : VolInv t := by
  have hholds := fun {o : Owner} {k : ℕ} => holds_of_holds (o := o) (k := k) hfile hinode
  exact
    { bitCnt_eq := by rw [hcnt, hsize, h.bitCnt_eq]
      freeMap_length := by rw [hinode 0 (.inl rfl), hsize, h.freeMap_length]
      rootDir_length := by rw [hinode 1 (.inr (.inl rfl)), h.rootDir_length]
      file_length := fun hx => by
        rw [hinode _ (.inr (.inr (hfile _ hx)))]
        exact h.file_length (hfile _ hx)
      file_run_le := fun hx => by
        rw [dataRun, hinode _ (.inr (.inr (hfile _ hx))), ← dataRun, hsize]
        exact h.file_run_le (hfile _ hx)
      owner_eq := fun ho hp => h.owner_eq (hholds ho) (hholds hp)
      owner_lt := fun ho => hsize ▸ h.owner_lt (hholds ho)
      owner_marked := fun ho => hmarked (hholds ho)
      name_valid := fun hi hname => h.name_valid hi (hslot _ hi _ hname)
      name_inj := fun hi hj hx hy => h.name_inj hi hj (hslot _ hi _ hx) (hslot _ hj _ hy)
      sector_inj := fun hi hj hx hy => h.sector_inj hi hj (hslot _ hi _ hx) (hslot _ hj _ hy)
      orphan_unbound := fun hx => hunbound _ hx
      diskBit_eq := fun hi => hmap _ hi }

theorem of_agree (h : VolInv s) (hsize : t.size = s.size)
    (hcnt : t.freeMap.bitCnt = s.freeMap.bitCnt) (horphan : ∀ x, t.Orphan x → s.Orphan x)
    (hdisk : AgreeOn (s.OwnedBy Owner.IsMeta) s.disk t.disk)
    (hmarked : ∀ {o : Owner} {k}, o.Holds s k → t.freeMap.bit k = true)
    (hmap : ∀ i < t.size, t.diskBit i = t.freeMap.bit i) : VolInv t := by
  have hslot : ∀ i < 16, t.slot i = s.slot i := fun i hi => h.slot_eq_of_agree hdisk hi
  have hbound := bound_iff_of_slot hslot
  exact h.of_inodes hsize hcnt (fun x hx => inodeOn_eq_of_agree hdisk hx)
    (fun i hi b hb => hslot i hi ▸ hb) (fun x => Or.imp (hbound x).mp (horphan x))
    (fun x hx hb => h.orphan_unbound (horphan x hx) ((hbound x).mp hb)) hmarked hmap

/-! ### Writing the free map -/

theorem diskBit_eq_of_agree (h : VolInv s) (hsize : t.size = s.size)
    (hinode : inodeOn t.disk 0 = inodeOn s.disk 0)
    (hdisk : AgreeOn (Owner.freeMapData.Holds s) s.disk t.disk) (i : ℕ) :
    t.diskBit i = s.diskBit i := by
  have hroom := le_bytesToSectors (h.length_nonneg (.inl rfl)) (inodeOn_length_lt s.disk 0)
  have hlen := h.freeMap_length
  have hbytes : slice t.disk (512 * (inodeOn s.disk 0).start) (byteCnt s.size) =
      slice s.disk (512 * (inodeOn s.disk 0).start) (byteCnt s.size) :=
    hdisk.slice_eq (a := (inodeOn s.disk 0).start)
      (c := bytesToSectors (inodeOn s.disk 0).length) (fun k h₁ h₂ => ⟨trivial, h₁, h₂⟩) le_rfl
      (by omega)
  rw [diskBit, hinode, hsize, hbytes, diskBit]

theorem bitOf_bytes (hi : i < map.bitCnt) :
    bitOf (fun j => (wordsOfBytes map.bytes).getD j 0) i = map.bit i := by
  have hidx : i / 32 < elemCnt map.bitCnt := elemIdx_lt hi
  simp [bitOf, Bitmap.bytes, Bitmap.bit, hidx]

section

variable (h : VolInv s) (hcnt : map.bitCnt = s.freeMap.bitCnt)

include h hcnt

theorem agreeOn_withMap :
    AgreeOn (s.OwnedBy (· ≠ .freeMapData)) s.disk
      (s.withMap (inodeOn s.disk 0).start map).disk := by
  refine h.agreeOn_patch fun i h₁ h₂ => ?_
  have hlen : map.bytes.length = (inodeOn s.disk 0).length.toNat := by
    rw [map.length_bytes, h.freeMap_length, hcnt, h.bitCnt_eq]
    rfl
  have hpos : i - 512 * (inodeOn s.disk 0).start < (inodeOn s.disk 0).length.toNat := by omega
  have hbyte := h.holds_byte (o := .freeMapData) (x := 0) (.inl rfl) trivial rfl hpos
  rwa [show 512 * (inodeOn s.disk 0).start + (i - 512 * (inodeOn s.disk 0).start) = i by omega]
    at hbyte

theorem agreeOn_meta_withMap :
    AgreeOn (s.OwnedBy Owner.IsMeta) s.disk (s.withMap (inodeOn s.disk 0).start map).disk := by
  refine (h.agreeOn_withMap hcnt).mono ?_
  rintro k ⟨o, hmeta, ho⟩
  refine ⟨o, ?_, ho⟩
  rintro rfl
  exact hmeta

theorem holds_of_withMap (ho : o.Holds (s.withMap (inodeOn s.disk 0).start map) k) :
    o.Holds s k := by
  have hdisk := h.agreeOn_meta_withMap hcnt
  have hbound := bound_iff_of_slot fun i hi => h.slot_eq_of_agree hdisk hi
  exact holds_of_holds (s := s) (t := s.withMap (inodeOn s.disk 0).start map)
    (fun x => Or.imp_left (hbound x).mp) (fun x hx => inodeOn_eq_of_agree hdisk hx) ho

theorem withMap (hmarked : ∀ {o : Owner} {k}, o.Holds s k → map.bit k = true) :
    VolInv (s.withMap (inodeOn s.disk 0).start map) := by
  have hdisk := h.agreeOn_withMap hcnt
  refine h.of_agree rfl hcnt (fun _ hx => hx) (h.agreeOn_meta_withMap hcnt) hmarked fun i hi => ?_
  have hinode : inodeOn (s.withMap (inodeOn s.disk 0).start map).disk 0 = inodeOn s.disk 0 :=
    hdisk.inodeOn_eq ⟨.freeMapInode, by decide, holds_zero⟩
  have hbytes : slice (s.withMap (inodeOn s.disk 0).start map).disk
      (512 * (inodeOn s.disk 0).start) (byteCnt s.size) = map.bytes := by
    rw [← h.bitCnt_eq, ← hcnt, ← map.length_bytes]
    exact slice_patch_eq
  have hi : i < map.bitCnt := by
    rw [hcnt, h.bitCnt_eq]
    exact hi
  rw [diskBit, hinode]
  exact (congrArg (fun b => bitOf (fun j => (wordsOfBytes b).getD j 0) i) hbytes).trans
    (bitOf_bytes hi)

end

/-! ### Writing data -/

theorem patchData (h : VolInv s) (hdisk : AgreeOn (s.OwnedBy fun o => ∀ x, o ≠ .fileData x) s.disk
      (s.patchDisk ofs bytes).disk) : VolInv (s.patchDisk ofs bytes) := by
  have hmeta : AgreeOn (s.OwnedBy Owner.IsMeta) s.disk (s.patchDisk ofs bytes).disk := by
    refine hdisk.mono ?_
    rintro k ⟨o, hmeta, ho⟩
    refine ⟨o, ?_, ho⟩
    rintro x rfl
    exact hmeta
  refine h.of_agree rfl rfl (fun _ hx => hx) hmeta h.owner_marked fun i hi => ?_
  have hbit : (s.patchDisk ofs bytes).diskBit i = s.diskBit i :=
    h.diskBit_eq_of_agree (t := s.patchDisk ofs bytes) rfl
      (inodeOn_eq_of_agree hmeta (.inl rfl)) (hdisk.mono fun k hk => ⟨.freeMapData, by simp, hk⟩) i
  exact hbit.trans (h.diskBit_eq hi)

/-! ### Writing a directory entry -/

variable {i : ℕ} {e : DirEntry}

theorem agreeOn_entry (h : VolInv s) (hi : i < 16) (hname : e.name.length = 15) :
    AgreeOn (s.OwnedBy (· ≠ .rootDirData)) s.disk (patch s.disk (s.slotOfs i) (encodeEntry e)) := by
  refine h.agreeOn_patch fun j h₁ h₂ => ?_
  rw [length_encodeEntry hname, slotOfs] at h₂
  rw [slotOfs] at h₁
  have hsector : j / 512 = (inodeOn s.disk 1).start := by omega
  exact hsector ▸ h.holds_rootDirData

theorem slot_patch_of_start_ne (hstart : (inodeOn s.disk 1).start ≠ 1) (hi : i < 16)
    (hname : e.name.length = 15) (hsector : e.inodeSector < wordSize)
    (hdisk : t.disk = patch s.disk (s.slotOfs i) (encodeEntry e)) :
    t.slot i = (if e.inUse then some (cstring e.name, e.inodeSector) else none) ∧
      ∀ j < 16, j ≠ i → t.slot j = s.slot j := by
  have hlen := length_encodeEntry hname
  have hinode : inodeOn t.disk 1 = inodeOn s.disk 1 := by
    rw [hdisk]
    refine (OsMaterial.agreeOn_patch (P := (· = 1)) fun j h₁ h₂ h => ?_).inodeOn_eq rfl
    rw [hlen, slotOfs] at h₂
    rw [slotOfs] at h₁
    omega
  have hofs : ∀ j, t.slotOfs j = s.slotOfs j := fun j => by rw [slotOfs, hinode, slotOfs]
  refine ⟨?_, fun j hj hne => ?_⟩
  · have hentry : t.entry i = e := by
      rw [entry, hofs, hdisk, ← hlen, slice_patch_eq, decodeEntry_encodeEntry hname hsector]
    rw [slot, hentry]
  · have hentry : t.entry j = s.entry j := by
      rw [entry, hofs, hdisk, slice_patch_of_disjoint, entry]
      rw [hlen, slotOfs, slotOfs]
      omega
    rw [slot, hentry, slot]

theorem rootDir_start_ne (h : VolInv s) : (inodeOn s.disk 1).start ≠ 1 := by
  intro hstart
  cases h.owner_eq holds_one (hstart ▸ h.holds_rootDirData)

theorem frame_entry (h : VolInv s) (hi : i < 16) (hname : e.name.length = 15)
    (hdisk : t.disk = patch s.disk (s.slotOfs i) (encodeEntry e)) (hsize : t.size = s.size)
    (hmap : t.freeMap = s.freeMap) :
    (∀ x, x = 0 ∨ x = 1 ∨ s.IsFile x → inodeOn t.disk x = inodeOn s.disk x) ∧
      ∀ i < t.size, t.diskBit i = t.freeMap.bit i := by
  have hagree := h.agreeOn_entry hi hname
  rw [← hdisk] at hagree
  have hinode : ∀ x, x = 0 ∨ x = 1 ∨ s.IsFile x → inodeOn t.disk x = inodeOn s.disk x := by
    rintro x (rfl | rfl | hx)
    · exact hagree.inodeOn_eq ⟨.freeMapInode, by decide, holds_zero⟩
    · exact hagree.inodeOn_eq ⟨.rootDirInode, by decide, holds_one⟩
    · exact hagree.inodeOn_eq ⟨.fileInode x, by simp, holds_fileInode hx⟩
  refine ⟨hinode, fun i hi => ?_⟩
  rw [h.diskBit_eq_of_agree hsize (hinode 0 (.inl rfl))
    (hagree.mono fun k hk => ⟨.freeMapData, by decide, hk⟩), hmap]
  exact h.diskBit_eq (hsize ▸ hi)

theorem unbind (h : VolInv s) {name : Bytes} (hi : i < 16) (hslot : s.slot i = some (name, x))
    (hname : e.name.length = 15) (hsector : e.inodeSector < wordSize) (huse : e.inUse = false)
    (hdisk : t.disk = patch s.disk (s.slotOfs i) (encodeEntry e)) (hsize : t.size = s.size)
    (hmap : t.freeMap = s.freeMap) (horphan : ∀ y, t.Orphan y → s.Orphan y ∨ y = x) : VolInv t := by
  obtain ⟨hself, hother⟩ := slot_patch_of_start_ne h.rootDir_start_ne hi hname hsector hdisk
  obtain ⟨hinode, hdiskBit⟩ := h.frame_entry hi hname hdisk hsize hmap
  rw [huse, if_neg (by decide)] at hself
  have hslots : ∀ j < 16, ∀ b, t.slot j = some b → s.slot j = some b := by
    intro j hj b hb
    by_cases hji : j = i
    · rw [hji, hself] at hb
      cases hb
    · rwa [hother j hj hji] at hb
  have hbound : ∀ y, t.Bound y → s.Bound y := by
    rintro y ⟨j, hj, n, hn⟩
    exact ⟨j, hj, n, hslots j hj _ hn⟩
  refine h.of_inodes hsize (by rw [hmap]) hinode hslots (fun y hy => ?_) (fun y hy hb => ?_)
    (fun ho => by rw [hmap]; exact h.owner_marked ho) hdiskBit
  · rcases hy with hy | hy
    · exact .inl (hbound y hy)
    · obtain hy | rfl := horphan y hy
      · exact .inr hy
      · exact .inl ⟨i, hi, name, hslot⟩
  · obtain hy | rfl := horphan y hy
    · exact h.orphan_unbound hy (hbound y hb)
    · -- another entry would bind the file a second time
      obtain ⟨j, hj, n, hn⟩ := hb
      have hji := h.sector_inj hj hi (hslots j hj _ hn) hslot
      rw [hji, hself] at hn
      cases hn

theorem holds_of_bind (hfile : ∀ y, t.IsFile y → s.IsFile y ∨ y = x)
    (hinode : ∀ y, y = 0 ∨ y = 1 ∨ s.IsFile y → inodeOn t.disk y = inodeOn s.disk y)
    (hnew : inodeOn t.disk x = inodeOn s.disk x) (ho : o.Holds t k) :
    o.Holds s k ∨ (o = .fileInode x ∧ k = x) ∨
      (o = .fileData x ∧ (dataRun s.disk x).1 ≤ k ∧
        k < (dataRun s.disk x).1 + (dataRun s.disk x).2) := by
  obtain ⟨hpresent, h₁, h₂⟩ := ho
  have hold : o.Present s → o.Holds s k := fun hp => by
    rw [extent_eq hinode hp] at h₁ h₂
    exact ⟨hp, h₁, h₂⟩
  cases o with
  | freeMapInode | rootDirInode | freeMapData | rootDirData => exact .inl (hold trivial)
  | fileInode y =>
    obtain hy | rfl := hfile y hpresent
    · exact .inl (hold hy)
    · simp only [Owner.extent] at h₁ h₂
      exact .inr (.inl ⟨rfl, by omega⟩)
  | fileData y =>
    obtain hy | rfl := hfile y hpresent
    · exact .inl (hold hy)
    · simp only [Owner.extent, dataRun, hnew] at h₁ h₂
      exact .inr (.inr ⟨rfl, h₁, h₂⟩)

theorem bind (h : VolInv s) (hfresh : s.Fresh x) (hi : i < 16) (hfree : s.slot i = none)
    {name : CString} (hvalid : name.Valid)
    (hunbound : ∀ j < 16, ∀ y, s.slot j ≠ some (name.bytes, y)) (hlen : e.name.length = 15)
    (huse : e.inUse = true) (hname : cstring e.name = name.bytes) (hsector : e.inodeSector = x) :
    VolInv (s.patchDisk (s.slotOfs i) (encodeEntry e)) := by
  set t := s.patchDisk (s.slotOfs i) (encodeEntry e) with ht
  have hsize := h.size_le
  obtain ⟨hself, hother⟩ := slot_patch_of_start_ne (t := t) h.rootDir_start_ne hi hlen
    (by rw [hsector]; have := hfresh.sector_lt; omega) rfl
  obtain ⟨hinode, hdiskBit⟩ := h.frame_entry (t := t) hi hlen rfl rfl rfl
  rw [if_pos huse, hname, hsector] at hself
  have hslots : ∀ j < 16, ∀ n y, t.slot j = some (n, y) →
      s.slot j = some (n, y) ∨ (j = i ∧ n = name.bytes ∧ y = x) := by
    intro j hj n y hn
    by_cases hji : j = i
    · rw [hji, hself] at hn
      obtain ⟨rfl, rfl⟩ := Prod.mk.inj (Option.some.inj hn)
      exact .inr ⟨hji, rfl, rfl⟩
    · exact .inl (hother j hj hji ▸ hn)
  have hbound : ∀ y, t.Bound y → s.Bound y ∨ y = x := by
    rintro y ⟨j, hj, n, hn⟩
    obtain hn | ⟨-, -, hy⟩ := hslots j hj n y hn
    · exact .inl ⟨j, hj, n, hn⟩
    · exact .inr hy
  have hfile : ∀ y, t.IsFile y → s.IsFile y ∨ y = x := by
    rintro y (hy | hy)
    · exact (hbound y hy).imp .inl id
    · exact .inl (.inr hy)
  have hnotFile : ¬ s.IsFile x := fun hx => hfresh.sector_unowned _ (holds_fileInode hx)
  have hnew : inodeOn t.disk x = inodeOn s.disk x := by
    -- the sector of the directory is owned, so it is another one
    have hagree : AgreeOn (· = x) s.disk t.disk := by
      refine OsMaterial.agreeOn_patch fun j h₁ h₂ hj => ?_
      rw [length_encodeEntry hlen, slotOfs] at h₂
      rw [slotOfs] at h₁
      have hsec : x = (inodeOn s.disk 1).start := by omega
      exact hfresh.sector_unowned _ (hsec ▸ h.holds_rootDirData)
    exact hagree.inodeOn_eq rfl
  have hholds := fun {o : Owner} {k : ℕ} => holds_of_bind (o := o) (k := k) hfile hinode hnew
  exact
    { bitCnt_eq := h.bitCnt_eq
      freeMap_length := by rw [hinode 0 (.inl rfl)]; exact h.freeMap_length
      rootDir_length := by rw [hinode 1 (.inr (.inl rfl))]; exact h.rootDir_length
      file_length := fun {y} hy => by
        obtain hy | rfl := hfile y hy
        · rw [hinode y (.inr (.inr hy))]
          exact h.file_length hy
        · rw [hnew]
          exact hfresh.length_nonneg
      file_run_le := fun {y} hy => by
        obtain hy | rfl := hfile y hy
        · rw [dataRun, hinode y (.inr (.inr hy)), ← dataRun]
          exact h.file_run_le hy
        · rw [dataRun, hnew, ← dataRun]
          exact hfresh.run_le
      owner_eq := fun {o p k} ho hp => by
        obtain ho' | ⟨rfl, rfl⟩ | ⟨rfl, ho₁, ho₂⟩ := hholds ho <;>
          obtain hp' | ⟨rfl, hk⟩ | ⟨rfl, hp₁, hp₂⟩ := hholds hp
        · exact h.owner_eq ho' hp'
        · exact absurd (hk ▸ ho') (hfresh.sector_unowned _)
        · exact absurd ho' (hfresh.run_unowned k hp₁ hp₂ _)
        · exact absurd hp' (hfresh.sector_unowned _)
        · rfl
        · exact absurd rfl (hfresh.run_ne _ hp₁ hp₂)
        · exact absurd hp' (hfresh.run_unowned k ho₁ ho₂ _)
        · exact absurd hk (hfresh.run_ne _ ho₁ ho₂)
        · rfl
      owner_lt := fun {o k} ho => by
        obtain ho | ⟨-, rfl⟩ | ⟨-, ho⟩ := hholds ho
        · exact h.owner_lt ho
        · exact hfresh.sector_lt
        · exact ho.2.trans_le hfresh.run_le
      owner_marked := fun {o k} ho => by
        obtain ho | ⟨-, rfl⟩ | ⟨-, ho⟩ := hholds ho
        · exact h.owner_marked ho
        · exact hfresh.sector_marked
        · exact hfresh.run_marked k ho.1 ho.2
      name_valid := fun {j n y} hj hn => by
        obtain hn | ⟨-, rfl, -⟩ := hslots j hj n y hn
        · exact h.name_valid hj hn
        · exact hvalid
      name_inj := fun {j k n y z} hj hk hy hz => by
        obtain hy | ⟨rfl, rfl, -⟩ := hslots j hj n y hy <;>
          obtain hz | ⟨hki, hn, -⟩ := hslots k hk _ z hz
        · exact h.name_inj hj hk hy hz
        · exact absurd (hn ▸ hy) (hunbound j hj y)
        · exact absurd hz (hunbound k hk z)
        · exact hki.symm
      sector_inj := fun {j k n n' y} hj hk hy hz => by
        obtain hy | ⟨rfl, -, rfl⟩ := hslots j hj n y hy <;>
          obtain hz | ⟨hki, -, hx⟩ := hslots k hk n' _ hz
        · exact h.sector_inj hj hk hy hz
        · exact absurd (.inl ⟨j, hj, n, hx ▸ hy⟩) hnotFile
        · exact absurd (.inl ⟨k, hk, n', hz⟩) hnotFile
        · exact hki.symm
      orphan_unbound := fun {y} hy hb => by
        obtain hb | rfl := hbound y hb
        · exact h.orphan_unbound hy hb
        · exact hnotFile (.inr hy)
      diskBit_eq := fun hk => hdiskBit _ hk }

end VolInv

end OsMaterial
