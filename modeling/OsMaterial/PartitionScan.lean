import Mathlib.Algebra.Order.BigOperators.Group.List
import OsMaterial.Partition

/-!
# Partition Scans of Arbitrary Disks

`partition_scan` on a disk with any contents. `read_partition_table` is given the sector of a table
but reads sector 0, so that an extended partition leads back to the master boot record, until a call
is for a sector past the end of the device. `found_partition` tests for the wraparound of `start +
size`.

* `partition_scan_terminates_iff`: **when a scan ends**, and when it registers the partitions on the
  disk, in terms of the table in sector 0.
* `partitions_confined`: **a partition is confined to its range**, at the scan and at every access.
-/

namespace OsMaterial

open List

variable {e : PartitionTableEntry} {α : Type} {depth nr : ℕ} {entries : List PartitionTableEntry}
  {b : Block}

/-! ### The table that every call reads -/

def entriesOf (pt : Bytes) : List PartitionTableEntry :=
  (range 4).map fun i => decodePartition (entryBytes pt i)

def PartitionTableEntry.Extends (e : PartitionTableEntry) : Prop := ¬ e.Empty ∧ isExtended e.type

instance decidableExtends (e : PartitionTableEntry) : Decidable e.Extends :=
  inferInstanceAs (Decidable (¬ e.Empty ∧ isExtended e.type))

def nextTable (sector primary : BitVec 32) (e : PartitionTableEntry) : BitVec 32 × BitVec 32 :=
  if sector = 0 then (e.offset, e.offset) else (e.offset + primary, primary)

/-- Partitions, each with the sector of the table that it is in. -/
abbrev Listing : Type := List (BitVec 32 × PartitionTableEntry)

def ScanState.AllMemory (s : ScanState) : Prop := ∀ n, s.mallocs n = true

variable {image : ℕ → UInt8} {name : String} {size : BitVec 32} {s : ScanState}

section

variable {block : Block} {sector primary : BitVec 32}
variable {pt : Bytes} {recurse : BitVec 32 → BitVec 32 → Scan Unit}
variable {chain : PartitionTableEntry → Listing}

theorem ScanState.AllMemory.spend (h : s.AllMemory) : s.spend.AllMemory := fun n => h (n + 1)

theorem entryLoop_eq (round : PartitionTableEntry → Scan Unit) (pt : Bytes) :
    entryLoop round pt 4 0 = forM (entriesOf pt) round := by
  simp only [entryLoop, entriesOf, range_succ, range_zero]
  simp

theorem returns_mallocOrPanic (e : ScanPanic) (Q : Unit → ScanState → Prop) :
    Returns (mallocOrPanic e) s Q ↔ s.mallocs 0 = true ∧ Q () s.spend := by
  rw [mallocOrPanic, returns_bind, returns_get, returns_bind, returns_set, returns_assert]

theorem returns_readPartitionTable (hsector : sector < size) (Q : Unit → ScanState → Prop) :
    Returns (readPartitionTable image (.drive name size) (depth + 1) sector primary) s Q ↔
      s.mallocs 0 = true ∧
        Returns (if tableSignature (slice image 0 512) ≠ 0xaa55 then
            if primary = 0 then scanPrint .badSignature else scanPrint (.badExtended sector)
          else
            forM (entriesOf (slice image 0 512))
              (readEntry (readPartitionTable image (.drive name size) depth) (.drive name size)
                sector primary))
          s.spend Q := by
  have hpast : ¬ (Block.drive name size).size ≤ sector := BitVec.not_le.mpr hsector
  have hzero : (0 : BitVec 32) < size := by bv_omega
  have hread : (Block.drive name size).read image 0 = .ok (slice image 0 512) := by
    rw [Block.read, Block.checkSector_of_lt (b := .drive name size) hzero]
    rfl
  rw [readPartitionTable, if_neg hpast, returns_bind, returns_mallocOrPanic, hread, Except.mapError,
    returns_bind, returns_liftM_ok, entryLoop_eq]

theorem returns_readPartitionTable_past (h : size ≤ sector) (Q : Unit → ScanState → Prop) :
    Returns (readPartitionTable image (.drive name size) (depth + 1) sector primary) s Q ↔
      Q () { s with printed := s.printed ++ [.tablePastEnd sector] } := by
  have hpast : (Block.drive name size).size ≤ sector := h
  rw [readPartitionTable, if_pos hpast, scanPrint, returns_modify]

theorem returns_readEntry_extends (he : e.Extends) (Q : Unit → ScanState → Prop) :
    Returns (readEntry recurse block sector primary e) s Q ↔
      Returns (recurse (nextTable sector primary e).1 (nextTable sector primary e).2)
        { s with printed := s.printed ++ [.extended sector] } Q := by
  rw [readEntry, if_neg he.1, if_pos he.2, returns_bind, scanPrint, returns_modify, nextTable]
  split <;> rfl

/-! ### Scans that do not end -/

theorem not_returns_readPartitionTable (calls : BitVec 32 → BitVec 32 → Prop)
    (hsignature : tableSignature (slice image 0 512) = 0xaa55)
    (hcalls : ∀ sector primary, calls sector primary → sector < size ∧
      ∃ e ∈ entriesOf (slice image 0 512), e.Extends ∧
      calls (nextTable sector primary e).1 (nextTable sector primary e).2) (depth : ℕ)
    (h : calls sector primary) (Q : Unit → ScanState → Prop) :
    ¬ Returns (readPartitionTable image (.drive name size) depth sector primary) s Q := by
  induction depth generalizing sector primary s Q with
  | zero => exact returns_throw _ _ _
  | succ depth ih =>
    intro hreturns
    obtain ⟨hsector, e, he, hextends, hnext⟩ := hcalls sector primary h
    rw [returns_readPartitionTable hsector, if_neg (not_not.mpr hsignature)] at hreturns
    obtain ⟨t, hround⟩ := hreturns.2.of_forM he
    rw [returns_readEntry_extends hextends] at hround
    exact ih hnext _ hround

/-- The scan **ends**: there is no table in sector 0, or each extended partition in it leads past
the end of the device, at once or after one more reading of the same table. -/
def ScanEnds (image : ℕ → UInt8) (size : BitVec 32) : Prop :=
  size = 0 ∨ tableSignature (slice image 0 512) ≠ 0xaa55 ∨
    ∀ e ∈ entriesOf (slice image 0 512), e.Extends → e.offset < size →
      e.offset ≠ 0 ∧ ∀ e' ∈ entriesOf (slice image 0 512), e'.Extends → size ≤ e'.offset + e.offset

theorem not_returns_of_not_scanEnds (h : ¬ ScanEnds image size) (depth : ℕ)
    (Q : Unit → ScanState → Prop) :
    ¬ Returns (readPartitionTable image (.drive name size) depth 0 0) s Q := by
  simp only [ScanEnds, not_or, not_not, not_forall, exists_prop] at h
  obtain ⟨hsize, hsignature, e, he, hextends, hlt, hlater⟩ := h
  have hzero : (0 : BitVec 32) < size := by bv_omega
  by_cases hoffset : e.offset = 0
  · -- The extended partition is the table in sector 0 itself.
    refine not_returns_readPartitionTable (fun sector _ => sector = 0) hsignature ?_ depth rfl Q
    rintro sector primary rfl
    exact ⟨hzero, e, he, hextends, by rw [nextTable, if_pos rfl, hoffset]⟩
  · simp only [not_and, not_forall, exists_prop] at hlater
    obtain ⟨e', he', hextends', hnext⟩ := hlater hoffset
    rw [BitVec.not_le] at hnext
    -- From the second reading on, `e'` leads to one and the same sector.
    refine not_returns_readPartitionTable (fun sector primary => sector = 0 ∨
      primary = e.offset ∧ (sector = e.offset ∨ sector = e'.offset + e.offset)) hsignature ?_ depth
      (.inl rfl) Q
    rintro sector primary hcall
    by_cases hsector : sector = 0
    · subst hsector
      refine ⟨hzero, e, he, hextends, ?_⟩
      exact .inr ⟨rfl, .inl rfl⟩
    · obtain ⟨rfl, hplace⟩ := hcall.resolve_left hsector
      refine ⟨?_, e', he', hextends', ?_⟩
      · rcases hplace with rfl | rfl
        · exact hlt
        · exact hnext
      · rw [nextTable, if_neg hsector]
        exact .inr ⟨rfl, .inr rfl⟩

/-! ### Scans that end -/

def foundDevice (block : Block) (partType : UInt8) (start size : BitVec 32) (partNr : ℕ) :
    Option Block :=
  if start.toNat + size.toNat ≤ block.size.toNat then
    some (.partition (partitionName block partNr) (partitionRole partType) size block start)
  else
    none

/-- The devices of the partitions **inside the drive**. Every partition has a number, when `nr` of
them came before. -/
def listedDevices (block : Block) (nr : ℕ) (l : Listing) : List Block :=
  (l.zipIdx (nr + 1)).filterMap fun p =>
    foundDevice block p.1.2.type (p.1.2.offset + p.1.1) p.1.2.size p.2

theorem listedDevices_cons (l : Listing) :
    listedDevices block nr ((sector, e) :: l) =
      (foundDevice block e.type (e.offset + sector) e.size (nr + 1)).toList ++
        listedDevices block (nr + 1) l := by
  rw [listedDevices, zipIdx_cons, filterMap_cons, listedDevices]
  cases foundDevice block e.type (e.offset + sector) e.size (nr + 1) <;> rfl

/-- What an entry of the master boot record lists, given what the chain behind an extended entry
lists. -/
def entryListed (chain : PartitionTableEntry → Listing) (e : PartitionTableEntry) : Listing :=
  if e.Empty then [] else if isExtended e.type then chain e else [(0, e)]

theorem returns_foundPartition {partType : UInt8} {start : BitVec 32} {partNr : ℕ}
    (hmem : s.AllMemory) (hsize : size ≠ 0) :
    Returns (foundPartition block partType start size partNr) s fun _ t =>
      t.AllMemory ∧ t.partNr = s.partNr ∧
        t.blocks = s.blocks ++ (foundDevice block partType start size partNr).toList := by
  rw [foundPartition, foundDevice]
  split
  · rw [if_neg (by bv_omega), scanPrint, returns_modify]
    exact ⟨hmem, rfl, (append_nil _).symm⟩
  · split
    · rw [if_neg (by bv_omega), scanPrint, returns_modify]
      exact ⟨hmem, rfl, (append_nil _).symm⟩
    · rw [if_pos (by bv_omega), returns_bind, returns_mallocOrPanic, blockRegister, returns_bind,
        returns_mallocOrPanic, returns_modify]
      exact ⟨hmem 0, hmem 1, hmem.spend.spend, rfl, rfl⟩

theorem returns_readEntry_plain (hmem : s.AllMemory) (he : ¬ e.Extends) :
    Returns (readEntry recurse block sector primary e) s fun _ t => t.AllMemory := by
  rw [readEntry]
  split
  · rw [returns_pure]
    exact hmem
  · rename_i hempty
    rw [if_neg fun h => he ⟨hempty, h⟩, returns_bind, returns_modify, returns_bind, returns_get]
    have hcounted : ScanState.AllMemory { s with partNr := s.partNr + 1 } := hmem
    exact (returns_foundPartition hcounted fun h => hempty (.inl h)).mono fun _ t ht => ht.1

theorem returns_readPartitionTable_of (hmem : s.AllMemory)
    (hnext : sector < size → tableSignature (slice image 0 512) = 0xaa55 →
      ∀ e ∈ entriesOf (slice image 0 512), e.Extends → ∀ t : ScanState, t.AllMemory →
        Returns (readPartitionTable image (.drive name size) depth (nextTable sector primary e).1
          (nextTable sector primary e).2) t fun _ u => u.AllMemory) :
    Returns (readPartitionTable image (.drive name size) (depth + 1) sector primary) s
      fun _ t => t.AllMemory := by
  by_cases hsector : sector < size
  · rw [returns_readPartitionTable hsector]
    refine ⟨hmem 0, ?_⟩
    split
    · split
      · rw [scanPrint, returns_modify]
        exact hmem.spend
      · rw [scanPrint, returns_modify]
        exact hmem.spend
    · rename_i hsignature
      refine returns_forM hmem.spend fun e he t ht => ?_
      by_cases hextends : e.Extends
      · rw [returns_readEntry_extends hextends]
        exact hnext hsector (not_not.mp hsignature) e he hextends _ ht
      · exact returns_readEntry_plain ht hextends
  · rw [returns_readPartitionTable_past (BitVec.not_lt.mp hsector)]
    exact hmem

theorem returns_of_scanEnds (hmem : s.AllMemory) (h : ScanEnds image size) :
    Returns (readPartitionTable image (.drive name size) 3 0 0) s fun _ t => t.AllMemory := by
  refine returns_readPartitionTable_of hmem fun hzero hsignature e he hextends t ht => ?_
  have hlater := (h.resolve_left (by bv_omega)).resolve_left (not_not.mpr hsignature) e he hextends
  rw [nextTable, if_pos rfl]
  refine returns_readPartitionTable_of ht fun hlt _ e' he' hextends' u hu => ?_
  obtain ⟨hoffset, hpast⟩ := hlater hlt
  rw [nextTable, if_neg hoffset]
  exact returns_readPartitionTable_of hu fun hlt' => absurd hlt' (BitVec.not_lt.mpr
    (hpast e' he' hextends'))

theorem returns_entries_past (hpast : ∀ e ∈ entries, e.Extends → size ≤ e.offset ∧ chain e = [])
    (hmem : s.AllMemory) :
    Returns (forM entries (readEntry (readPartitionTable image (.drive name size) (depth + 1))
        (.drive name size) 0 0)) s fun _ t =>
      t.blocks = s.blocks ++
        listedDevices (.drive name size) s.partNr (entries.flatMap (entryListed chain)) := by
  induction entries generalizing s with
  | nil =>
    rw [forM_nil, returns_pure]
    exact (append_nil _).symm
  | cons e entries ih =>
    have hrest := fun e' he' => hpast e' (mem_cons_of_mem e he')
    rw [forM_cons, returns_bind, flatMap_cons, entryListed]
    by_cases hempty : e.Empty
    · rw [readEntry, if_pos hempty, returns_pure, if_pos hempty]
      exact ih hrest hmem
    · rw [if_neg hempty]
      by_cases hextended : isExtended e.type
      · -- The check of the sector comes before the read.
        obtain ⟨hsector, hchain⟩ := hpast e mem_cons_self ⟨hempty, hextended⟩
        rw [if_pos hextended, hchain, returns_readEntry_extends ⟨hempty, hextended⟩, nextTable,
          if_pos rfl, returns_readPartitionTable_past hsector]
        exact ih hrest hmem
      · have hcounted : ScanState.AllMemory { s with partNr := s.partNr + 1 } := hmem
        rw [readEntry, if_neg hempty, if_neg hextended, if_neg hextended, singleton_append,
          returns_bind, returns_modify, returns_bind, returns_get]
        refine (returns_foundPartition hcounted fun h => hempty (.inl h)).mono ?_
        rintro - t ⟨htmem, htnr, htblocks⟩
        refine (ih hrest htmem).mono fun _ u hu => ?_
        rw [hu, htblocks, htnr, append_assoc, listedDevices_cons]

theorem returns_partitionScan (Q : List Block → Prop) :
    Returns (partitionScan image depth block) s (fun _ t => Q t.blocks) ↔
      Returns (readPartitionTable image block depth 0 0) { s with partNr := 0 }
        fun _ t => Q t.blocks := by
  rw [partitionScan, returns_bind, returns_modify, returns_bind]
  refine Iff.of_eq (congrArg _ (funext fun _ => funext fun t => propext ?_))
  rw [returns_bind, returns_get]
  split
  · rw [scanPrint, returns_modify]
  · rw [returns_pure]

/-- **The only table on the disk** is that in sector 0, if any: its extended partitions start past
the end of the disk. -/
def OneTable (image : ℕ → UInt8) (size : BitVec 32) : Prop :=
  size = 0 ∨ tableSignature (slice image 0 512) ≠ 0xaa55 ∨
    ∀ e ∈ entriesOf (slice image 0 512), e.Extends → size ≤ e.offset

/-- The devices **on a disk**, given what the chains behind the extended partitions list. -/
def diskDevices (image : ℕ → UInt8) (name : String) (size : BitVec 32)
    (chain : PartitionTableEntry → Listing) : List Block :=
  if size = 0 ∨ tableSignature (slice image 0 512) ≠ 0xaa55 then []
  else
    listedDevices (.drive name size) 0 ((entriesOf (slice image 0 512)).flatMap (entryListed chain))

/-- **A scan of one table** registers the partitions in it, in their order. -/
theorem OneTable.partitionScan (h : OneTable image size) (hmem : s.AllMemory)
    (hchain : ∀ e, size ≤ e.offset → chain e = []) (depth : ℕ) :
    Returns (partitionScan image (2 + depth) (.drive name size)) s fun _ t =>
      t.blocks = s.blocks ++ diskDevices image name size chain := by
  have hcleared : ScanState.AllMemory { s with partNr := 0 } := hmem
  rw [returns_partitionScan (fun blocks => blocks = _), Nat.add_comm, diskDevices]
  by_cases hsize : size = 0
  · have hpast : size ≤ 0 := hsize ▸ BitVec.le_refl 0
    rw [if_pos (.inl hsize), returns_readPartitionTable_past hpast]
    exact (append_nil _).symm
  · rw [returns_readPartitionTable (by bv_omega)]
    refine ⟨hmem 0, ?_⟩
    by_cases hsignature : tableSignature (slice image 0 512) = 0xaa55
    · have hpast := (h.resolve_left hsize).resolve_left (not_not.mpr hsignature)
      rw [if_neg (not_not.mpr hsignature), if_neg (not_or.mpr ⟨hsize, not_not.mpr hsignature⟩)]
      exact returns_entries_past (fun e he hextends =>
        ⟨hpast e he hextends, hchain e (hpast e he hextends)⟩) hcleared.spend
    · rw [if_pos hsignature, if_pos rfl, if_pos (.inr hsignature), scanPrint, returns_modify]
      exact (append_nil _).symm

theorem partitionScan_returns_iff (hmem : s.AllMemory) :
    (∃ depth, Returns (partitionScan image depth (.drive name size)) s fun _ _ => True) ↔
      ScanEnds image size := by
  refine ⟨?_, fun h => ⟨3, ?_⟩⟩
  · rintro ⟨depth, hreturns⟩
    by_contra h
    rw [returns_partitionScan fun _ => True] at hreturns
    exact not_returns_of_not_scanEnds h depth _ hreturns
  · have hcleared : ScanState.AllMemory { s with partNr := 0 } := hmem
    rw [returns_partitionScan fun _ => True]
    exact (returns_of_scanEnds hcleared h).mono fun _ _ _ => trivial

/-! ### Chains of extended boot records -/

/-- An **extended boot record** in `sector`, with at most one logical partition, and the entries
that lead to the next record. -/
def IsRecord (image : ℕ → UInt8) (size sector : BitVec 32) (logical : Listing)
    (extended : List PartitionTableEntry) : Prop :=
  let record := slice image (512 * sector.toNat) 512
  sector < size ∧ sector ≠ 0 ∧ tableSignature record = 0xaa55 ∧ logical.length ≤ 1 ∧
    logical = ((entriesOf record).filter fun e => ¬ e.Empty ∧ ¬ isExtended e.type).map (sector, ·) ∧
    extended = (entriesOf record).filter fun e => e.Extends

/-- A **finite chain of extended boot records** from `sector` on, with its logical partitions. -/
inductive Chain (image : ℕ → UInt8) (size primary : BitVec 32) : BitVec 32 → Listing → Prop
  | last {sector logical} (h : IsRecord image size sector logical []) :
    Chain image size primary sector logical
  | next {sector logical e l} (h : IsRecord image size sector logical [e])
    (hnext : Chain image size primary (e.offset + primary) l) :
    Chain image size primary sector (logical ++ l)

/-- What the extended partitions list: those inside the disk **head a chain** each. -/
def HeadChains (image : ℕ → UInt8) (size : BitVec 32) (chain : PartitionTableEntry → Listing) :
    Prop :=
  (∀ e ∈ entriesOf (slice image 0 512), e.Extends → e.offset < size →
    Chain image size e.offset e.offset (chain e)) ∧ ∀ e, size ≤ e.offset → chain e = []

/-- The scan of a disk does **what it is for**: it ends, and if the extended partitions head chains
of extended boot records, it registers the devices on the disk, from some depth on. -/
def ScansAsListed (image : ℕ → UInt8) (name : String) (size : BitVec 32) (s : ScanState) : Prop :=
  (∃ depth, Returns (partitionScan image depth (.drive name size)) s fun _ _ => True) ∧
    ∀ chain, HeadChains image size chain → ∃ bound, ∀ depth,
      Returns (partitionScan image (bound + depth) (.drive name size)) s fun _ t =>
        t.blocks = s.blocks ++ diskDevices image name size chain

variable {disk : ℕ → UInt8}

theorem readPartitionTable_congr (h : slice disk 0 512 = slice image 0 512)
    (depth : ℕ) : readPartitionTable disk (.drive name size) depth =
      readPartitionTable image (.drive name size) depth := by
  have hread : (Block.drive name size).read disk 0 = (Block.drive name size).read image 0 :=
    congrArg (fun pt => do (Block.drive name size).checkSector 0; return pt) h
  induction depth with
  | zero => rfl
  | succ depth ih =>
    funext sector primary
    rw [readPartitionTable, readPartitionTable, hread, ih]

theorem partitionScan_congr (h : slice disk 0 512 = slice image 0 512) :
    partitionScan disk depth (.drive name size) = partitionScan image depth (.drive name size) := by
  rw [partitionScan, readPartitionTable_congr h, partitionScan]

/-- A disk with the sector 0 of `image` and one and the same record in every other sector. -/
def recordDisk (image record : ℕ → UInt8) : ℕ → UInt8 :=
  fun i => if i < 512 then image i else record (i % 512)

/-- An extended boot record with no entry. -/
def blankRecord : ℕ → UInt8 := patch (fun _ => 0) 510 [0x55, 0xaa]

def logicalEntry : PartitionTableEntry := ⟨0, [0, 0, 0], 0x22, [0, 0, 0], 0, 1⟩

/-- An extended boot record with one entry, a logical partition of its own sector. -/
def logicalRecord : ℕ → UInt8 :=
  patch blankRecord 446 [0, 0, 0, 0, 0x22, 0, 0, 0, 0, 0, 0, 0, 1, 0, 0, 0]

theorem slice_recordDisk_zero (image record : ℕ → UInt8) :
    slice (recordDisk image record) 0 512 = slice image 0 512 :=
  slice_congr fun i _ hi => if_pos (by omega)

theorem slice_recordDisk (hsector : sector ≠ 0) (image record : ℕ → UInt8) :
    slice (recordDisk image record) (512 * sector.toNat) 512 = slice record 0 512 := by
  refine map_congr_left fun i hi => ?_
  have hi := mem_range.mp hi
  rw [recordDisk, if_neg (by bv_omega), Nat.mul_add_mod, Nat.mod_eq_of_lt hi, Nat.zero_add]

/-- What the extended partitions list when each record has the logical partitions `logical`. -/
def recordListing (size : BitVec 32) (logical : List PartitionTableEntry)
    (e : PartitionTableEntry) : Listing :=
  if e.offset < size then logical.map (e.offset, ·) else []

theorem headChains_recordDisk {record : ℕ → UInt8} (logical : List PartitionTableEntry)
    (hoffset : ∀ e ∈ entriesOf (slice image 0 512), e.Extends → e.offset < size → e.offset ≠ 0)
    (hrecord : tableSignature (slice record 0 512) = 0xaa55 ∧ logical.length ≤ 1 ∧
      logical = (entriesOf (slice record 0 512)).filter (fun e => ¬ e.Empty ∧ ¬ isExtended e.type) ∧
      [] = (entriesOf (slice record 0 512)).filter fun e => e.Extends) :
    HeadChains (recordDisk image record) size (recordListing size logical) := by
  obtain ⟨hsignature, hone, hlogical, hlast⟩ := hrecord
  rw [HeadChains, slice_recordDisk_zero]
  refine ⟨fun e he hextends hlt => .last ?_, fun e he => if_neg (BitVec.not_lt.mpr he)⟩
  have hsector := hoffset e he hextends hlt
  rw [recordListing, if_pos hlt, IsRecord, slice_recordDisk hsector, length_map, ← hlogical]
  exact ⟨hlt, hsector, hsignature, hone, rfl, hlast⟩

theorem length_listedDevices (l : Listing) :
    (listedDevices block nr l).length = l.countP fun p =>
      (p.2.offset + p.1).toNat + p.2.size.toNat ≤ block.size.toNat := by
  induction l generalizing nr with
  | nil => rfl
  | cons p l ih =>
    rw [listedDevices_cons, length_append, ih, countP_cons, Nat.add_comm, foundDevice]
    split <;> simp_all

/-- With a logical partition in the sector of an extended one, there are more devices. -/
theorem length_listedDevices_lt (name : String) (he : e ∈ entries) (hextends : e.Extends)
    (hlt : e.offset < size) :
    (listedDevices (.drive name size) 0
        (entries.flatMap (entryListed (recordListing size [])))).length <
      (listedDevices (.drive name size) 0
        (entries.flatMap (entryListed (recordListing size [logicalEntry])))).length := by
  have hblank (e : PartitionTableEntry) : recordListing size [] e = [] := by
    rw [recordListing, map_nil, ite_self]
  rw [length_listedDevices, length_listedDevices, countP_flatMap, countP_flatMap]
  refine sum_lt_sum _ _ (fun e' _ => ?_) ⟨e, he, ?_⟩
  · rw [Function.comp_apply, Function.comp_apply, entryListed, entryListed, hblank]
    split
    · exact le_rfl
    · split
      · exact Nat.zero_le _
      · exact le_rfl
  · have hend : (0 + e.offset).toNat + (1 : BitVec 32).toNat ≤ size.toNat := by bv_omega
    rw [Function.comp_apply, Function.comp_apply, entryListed, entryListed, if_neg hextends.1,
      if_neg hextends.1, if_pos hextends.2, if_pos hextends.2, hblank, recordListing, if_pos hlt]
    exact countP_pos_iff.mpr ⟨_, mem_singleton_self _, decide_eq_true hend⟩

/-- **When a scan ends**: exactly when each extended partition in the master boot record leads past
the end of the disk, at once or after one more reading. **When it registers the devices on the
disk**, whatever is in the other sectors: exactly when no extended partition starts inside it. -/
theorem partition_scan_terminates_iff (image : ℕ → UInt8) (name : String) (size : BitVec 32)
    (s : ScanState) (hmem : s.AllMemory) :
    ((∃ depth, Returns (partitionScan image depth (.drive name size)) s fun _ _ => True) ↔
      ScanEnds image size) ∧
    ((∀ disk, slice disk 0 512 = slice image 0 512 → ScansAsListed disk name size s) ↔
      OneTable image size) := by
  refine ⟨partitionScan_returns_iff hmem, ⟨fun h => ?_, fun h disk hdisk => ?_⟩⟩
  · by_contra hone
    simp only [OneTable, not_or, not_not, not_forall, exists_prop, BitVec.not_le] at hone
    obtain ⟨hsize, hsignature, e, he, hextends, hlt⟩ := hone
    have hends := (partitionScan_returns_iff hmem).mp (h image rfl).1
    have hlater := (hends.resolve_left hsize).resolve_left (not_not.mpr hsignature)
    have hoffset := fun e he hextends hlt => (hlater e he hextends hlt).1
    -- The scan cannot tell the two disks apart.
    obtain ⟨blank, hblank⟩ := (h _ (slice_recordDisk_zero image blankRecord)).2 _
      (headChains_recordDisk [] hoffset (by decide +kernel))
    obtain ⟨logical, hlogical⟩ := (h _ (slice_recordDisk_zero image logicalRecord)).2 _
      (headChains_recordDisk [logicalEntry] hoffset (by decide +kernel))
    have hblank := hblank logical
    have hlogical := hlogical blank
    rw [partitionScan_congr (slice_recordDisk_zero image _), diskDevices, slice_recordDisk_zero,
      if_neg (not_or.mpr ⟨hsize, not_not.mpr hsignature⟩)] at hblank hlogical
    rw [Nat.add_comm] at hlogical
    obtain ⟨_, t, -, hfew, hmore⟩ := hblank.and hlogical
    refine (length_listedDevices_lt name he hextends hlt).ne ?_
    exact congrArg length (append_cancel_left (hfew.symm.trans hmore))
  · have hone : OneTable disk size := by
      rw [OneTable, hdisk]
      exact h
    refine ⟨(partitionScan_returns_iff hmem).mpr ?_, fun chain hchain =>
      ⟨2, hone.partitionScan hmem hchain.2⟩⟩
    exact hone.imp_right fun h => h.imp_right fun h e he hextends hlt =>
      absurd (h e he hextends) (BitVec.not_le.mpr hlt)

end

/-! ### Two disks -/

def freshScan : ScanState where
  blocks := []
  partNr := 0
  mallocs := fun _ => true
  printed := []

def flatDisk : ℕ → UInt8 :=
  patch (patch (fun _ => 0) 446 [0, 0, 0, 0, 0x21, 0, 0, 0, 1, 0, 0, 0, 3, 0, 0, 0])
    510 [0x55, 0xaa]

/-- The second entry of the table is an extended partition past the end of a disk of 8 sectors. -/
def strayDisk : ℕ → UInt8 :=
  patch flatDisk 462 [0, 0, 0, 0, 0x05, 0, 0, 0, 100, 0, 0, 0, 6, 0, 0, 0]

/-- An extended partition past the end of the disk is not scanned. -/
theorem partition_scan_terminates_strayDisk :
    ∃ bound, ∀ depth,
      Returns (partitionScan strayDisk (bound + depth) (.drive "hda" 8)) freshScan fun _ t =>
        t.blocks = [.partition "hda1" .filesys 3 (.drive "hda" 8) 1] := by
  have hpast : ∀ e ∈ entriesOf (slice strayDisk 0 512), e.Extends → 8 ≤ e.offset := by
    decide +kernel
  obtain ⟨bound, hscan⟩ := ((partition_scan_terminates_iff strayDisk "hda" 8 freshScan fun _ =>
    rfl).2.mpr (.inr (.inr hpast)) strayDisk rfl).2 (fun _ => []) ⟨fun e he hextends hlt =>
      absurd (hpast e he hextends) (BitVec.not_le.mpr hlt), fun _ _ => rfl⟩
  refine ⟨bound, fun depth => (hscan depth).mono fun _ t ht => ht.trans ?_⟩
  decide +kernel

def extendedDisk : ℕ → UInt8 :=
  patch (patch (patch (patch (fun _ => 0)
    446 ([0, 0, 0, 0, 0x21, 0, 0, 0, 1, 0, 0, 0, 1, 0, 0, 0] ++
      [0, 0, 0, 0, 0x05, 0, 0, 0, 2, 0, 0, 0, 6, 0, 0, 0])) 510 [0x55, 0xaa])
    (1024 + 446) [0, 0, 0, 0, 0x22, 0, 0, 0, 1, 0, 0, 0, 3, 0, 0, 0]) (1024 + 510) [0x55, 0xaa]

/-- **A disk with one extended partition** is scanned without end. -/
theorem extended_scan_never_ends :
    tableSignature (slice extendedDisk 0 512) = 0xaa55 ∧
    (entriesOf (slice extendedDisk 0 512)).map (fun e => (e.type, e.offset, e.size)) =
      [(0x21, 1, 1), (0x05, 2, 6), (0, 0, 0), (0, 0, 0)] ∧
    tableSignature (slice extendedDisk (512 * 2) 512) = 0xaa55 ∧
    (entriesOf (slice extendedDisk (512 * 2) 512)).map (fun e => (e.type, e.offset, e.size)) =
      [(0x22, 1, 3), (0, 0, 0), (0, 0, 0), (0, 0, 0)] ∧
    ∀ depth s, ¬ Returns (partitionScan extendedDisk depth (.drive "hda" 8)) s fun _ _ => True := by
  refine ⟨by decide +kernel, by decide +kernel, by decide +kernel, by decide +kernel, ?_⟩
  intro depth s hreturns
  have hends : ¬ ScanEnds extendedDisk 8 := by
    rw [ScanEnds]
    decide +kernel
  rw [returns_partitionScan fun _ => True] at hreturns
  exact not_returns_of_not_scanEnds hends depth _ hreturns

/-! ### Partitions inside a drive -/

theorem slice_patch_sector {image : ℕ → UInt8} {buffer : Bytes}
    (hbuffer : buffer.length = 512) (x y : ℕ) :
    slice (patch image (512 * x) buffer) (512 * y) 512 =
      if y = x then buffer else slice image (512 * y) 512 := by
  split
  · rename_i hy
    rw [hy, ← hbuffer, slice_patch_eq]
  · exact slice_patch_of_disjoint (by omega)

variable {driveName : String} {driveSize : BitVec 32}

namespace Block

variable {type : BlockType} {buffer : Bytes}
variable {start s : BitVec 32}

/-- A device **confined to its range**: a partition of the drive, with `start + size` inside the
drive. -/
def Confined (driveName : String) (driveSize : BitVec 32) (b : Block) : Prop :=
  ∃ name type size start, b = partition name type size (drive driveName driveSize) start ∧
    start.toNat + size.toNat ≤ driveSize.toNat

theorem read_of_le (h : b.size ≤ s) : b.read image s = .error (.pastEnd b.name s b.size) := by
  cases b with
  | drive name size =>
    rw [read, checkSector, if_pos h]
    rfl
  | partition name type size block start =>
    rw [read, checkSector, if_pos h]
    rfl

theorem write_of_le (h : b.size ≤ s) :
    b.write image buffer s = .error (.pastEnd b.name s b.size) := by
  cases b with
  | drive name size =>
    rw [write, checkSector, if_pos h]
    rfl
  | partition name type size block start =>
    rw [write, checkSector, if_pos h]
    rfl

theorem write_foreign {block : Block} (hs : s < size) :
    (partition name .foreign size block start).write image buffer s = .error .foreign := by
  have hcheck := checkSector_of_lt (b := partition name .foreign size block start) hs
  rw [write, hcheck]
  rfl

end Block

/-! ### What a scan registers -/

section

variable {t : ScanState}

def RegistersConfined (driveName : String) (driveSize : BitVec 32) (s t : ScanState) : Prop :=
  ∃ found, t.blocks = s.blocks ++ found ∧ ∀ b ∈ found, Block.Confined driveName driveSize b

theorem RegistersConfined.of_eq (h : t.blocks = s.blocks) :
    RegistersConfined driveName driveSize s t :=
  ⟨[], by rw [h, append_nil], fun _ hb => absurd hb not_mem_nil⟩

theorem RegistersConfined.trans {u : ScanState} (hst : RegistersConfined driveName driveSize s t)
    (htu : RegistersConfined driveName driveSize t u) :
    RegistersConfined driveName driveSize s u := by
  obtain ⟨found, ht, hfound⟩ := hst
  obtain ⟨more, hu, hmore⟩ := htu
  refine ⟨found ++ more, by rw [hu, ht, append_assoc], fun b hb => ?_⟩
  rcases mem_append.mp hb with hb | hb
  · exact hfound b hb
  · exact hmore b hb

def KeepsConfined {α : Type} (driveName : String) (driveSize : BitVec 32) (x : Scan α) : Prop :=
  ∀ s, ReturnsWhen x s False (fun _ => True) fun _ t => RegistersConfined driveName driveSize s t

variable {x : Scan α}

theorem KeepsConfined.bind {β : Type} {f : α → Scan β}
    (hx : KeepsConfined driveName driveSize x) (hf : ∀ a, KeepsConfined driveName driveSize (f a)) :
    KeepsConfined driveName driveSize (x >>= f) := fun s =>
  (hx s).bind_when fun a t ht =>
    ⟨False.elim, fun hn => ((hf a t).panics fun h => hn (h.mono fun _ _ => ht.trans))⟩

theorem keepsConfined_of_returns
    (h : ∀ s, Returns x s fun _ t => t.blocks = s.blocks) : KeepsConfined driveName driveSize x :=
  fun s => ((h s).mono fun _ _ => RegistersConfined.of_eq).when

theorem keepsConfined_throw (e : ScanPanic) :
    KeepsConfined driveName driveSize (throw e : Scan α) :=
  fun _ => ⟨False.elim, fun _ => ⟨e, trivial, rfl⟩⟩

theorem keepsConfined_liftM (x : Except ScanPanic α) :
    KeepsConfined driveName driveSize (liftM x : Scan α) := by
  cases x with
  | error e => exact keepsConfined_throw e
  | ok a => exact keepsConfined_of_returns fun s => by rw [returns_liftM_ok]

theorem keepsConfined_scanPrint (message : ScanMessage) :
    KeepsConfined driveName driveSize (scanPrint message) :=
  keepsConfined_of_returns fun s => by rw [scanPrint, returns_modify]

theorem keepsConfined_mallocOrPanic {e : ScanPanic} (he : e.OutOfMemory) :
    KeepsConfined driveName driveSize (mallocOrPanic e) := fun s => by
  have h := mallocOrPanic_returnsIff (s := s) he
  refine ⟨False.elim, fun hn => ?_⟩
  obtain ⟨e, -, hpanics⟩ := h.panics fun hmem =>
    hn ((h.returns hmem).mono fun _ t ht => .of_eq (by rw [ht, ScanState.spend]))
  exact ⟨e, trivial, hpanics⟩

theorem keepsConfined_foundPartition (partType : UInt8) (start size : BitVec 32) (partNr : ℕ) :
    KeepsConfined driveName driveSize
      (foundPartition (.drive driveName driveSize) partType start size partNr) := by
  rw [foundPartition]
  split
  · exact keepsConfined_scanPrint _
  · split
    · exact keepsConfined_scanPrint _
    · rename_i hpast hwrap
      have hend : start.toNat + size.toNat ≤ driveSize.toNat := by
        rw [Block.size] at hpast hwrap
        bv_omega
      refine (keepsConfined_mallocOrPanic (.inr (.inl rfl))).bind fun _ => ?_
      refine (keepsConfined_mallocOrPanic (.inr (.inr rfl))).bind fun _ s => Returns.when ?_
      rw [returns_modify]
      refine ⟨_, rfl, fun b hb => ?_⟩
      rw [mem_singleton.mp hb]
      exact ⟨_, _, _, _, rfl, hend⟩

theorem keepsConfined_readEntry {recurse : BitVec 32 → BitVec 32 → Scan Unit}
    (hrecurse : ∀ sector primary, KeepsConfined driveName driveSize (recurse sector primary))
    (sector primary : BitVec 32) (e : PartitionTableEntry) :
    KeepsConfined driveName driveSize
      (readEntry recurse (.drive driveName driveSize) sector primary e) := by
  rw [readEntry]
  split
  · exact keepsConfined_of_returns fun s => by rw [returns_pure]
  · split
    · refine (keepsConfined_scanPrint _).bind fun _ => ?_
      split
      · exact hrecurse _ _
      · exact hrecurse _ _
    · refine (keepsConfined_of_returns fun s => by rw [returns_modify]).bind fun _ => ?_
      refine (keepsConfined_of_returns fun s => by rw [returns_get]).bind fun s => ?_
      exact keepsConfined_foundPartition _ _ _ _

theorem keepsConfined_entryLoop {round : PartitionTableEntry → Scan Unit}
    (hround : ∀ e, KeepsConfined driveName driveSize (round e)) (pt : Bytes) (n i : ℕ) :
    KeepsConfined driveName driveSize (entryLoop round pt n i) := by
  induction n generalizing i with
  | zero => exact keepsConfined_of_returns fun s => by rw [entryLoop, returns_pure]
  | succ n ih => exact (hround _).bind fun _ => ih (i + 1)

theorem keepsConfined_readPartitionTable (image : ℕ → UInt8) (depth : ℕ)
    (sector primary : BitVec 32) :
    KeepsConfined driveName driveSize
      (readPartitionTable image (.drive driveName driveSize) depth sector primary) := by
  induction depth generalizing sector primary with
  | zero => exact keepsConfined_throw .depth
  | succ depth ih =>
    rw [readPartitionTable]
    split
    · exact keepsConfined_scanPrint _
    · refine (keepsConfined_mallocOrPanic (.inl rfl)).bind fun _ => ?_
      refine (keepsConfined_liftM _).bind fun pt => ?_
      split
      · split
        · exact keepsConfined_scanPrint _
        · exact keepsConfined_scanPrint _
      · exact keepsConfined_entryLoop (keepsConfined_readEntry ih sector primary) pt 4 0

theorem keepsConfined_partitionScan (image : ℕ → UInt8) (depth : ℕ) :
    KeepsConfined driveName driveSize (partitionScan image depth (.drive driveName driveSize)) := by
  refine (keepsConfined_of_returns fun s => by rw [returns_modify]).bind fun _ => ?_
  refine (keepsConfined_readPartitionTable image depth 0 0).bind fun _ => ?_
  refine (keepsConfined_of_returns fun s => by rw [returns_get]).bind fun s => ?_
  split
  · exact keepsConfined_scanPrint _
  · exact keepsConfined_of_returns fun s => by rw [returns_pure]

/-- **A partition is confined to its range**: it ends inside the drive, and an access to its sector
`x` panics or is one to sector `start + x` of the drive; a foreign one is not written to. -/
theorem partitions_confined (image : ℕ → UInt8) (driveName : String) (driveSize : BitVec 32) :
    (∀ depth s t,
        (partitionScan image depth (.drive driveName driveSize)).run s = .ok ((), t) →
      ∃ found, t.blocks = s.blocks ++ found ∧ ∀ b ∈ found, Block.Confined driveName driveSize b) ∧
    (∀ partType start size partNr s t,
        (foundPartition (.drive driveName driveSize) partType start size partNr).run s =
          .ok ((), t) →
      ∃ found, t.blocks = s.blocks ++ found ∧ ∀ b ∈ found, Block.Confined driveName driveSize b) ∧
    ∀ b, Block.Confined driveName driveSize b →
      ∃ name type size start,
        b = .partition name type size (.drive driveName driveSize) start ∧
        start.toNat + size.toNat ≤ driveSize.toNat ∧
        ∀ (disk : ℕ → UInt8) (x : BitVec 32),
          (size ≤ x → b.read disk x = .error (.pastEnd name x size) ∧
            ∀ buffer, b.write disk buffer x = .error (.pastEnd name x size)) ∧
          (x < size → b.read disk x = .ok (slice disk (512 * (start.toNat + x.toNat)) 512) ∧
            ∀ buffer : Bytes, buffer.length = 512 →
              (type = .foreign → b.write disk buffer x = .error .foreign) ∧
              (type ≠ .foreign → ∃ disk', b.write disk buffer x = .ok disk' ∧
                ∀ y, slice disk' (512 * y) 512 =
                  if y = start.toNat + x.toNat then buffer else slice disk (512 * y) 512)) := by
  refine ⟨fun depth s t hrun => (keepsConfined_partitionScan image depth s).of_run hrun,
    fun partType start size partNr s t hrun =>
      (keepsConfined_foundPartition partType start size partNr s).of_run hrun, ?_⟩
  rintro b ⟨name, type, size, start, rfl, hend⟩
  refine ⟨name, type, size, start, rfl, hend, fun disk x => ⟨fun hx => ?_, fun hx => ?_⟩⟩
  · exact ⟨Block.read_of_le hx, fun buffer => Block.write_of_le hx⟩
  · refine ⟨Block.read_partition hx hend, fun buffer hbuffer => ⟨?_, fun htype => ?_⟩⟩
    · rintro rfl
      exact Block.write_foreign hx
    · exact ⟨_, Block.write_partition hx hend htype, slice_patch_sector hbuffer _⟩

end

/-- A disk of four sectors. -/
theorem partitions_confined_flatDisk :
    ∃ t, (partitionScan flatDisk 2 (.drive "hda" 4)).run freshScan = .ok ((), t) ∧
      ∃ found, t.blocks = [] ++ found ∧ ∀ b ∈ found, Block.Confined "hda" 4 b := by
  have hmem : freshScan.AllMemory := fun _ => rfl
  have hone : OneTable flatDisk 4 := .inr (.inr (by decide +kernel))
  obtain ⟨_, t, hrun, -⟩ : Returns (partitionScan flatDisk 2 (.drive "hda" 4)) freshScan _ :=
    hone.partitionScan hmem (fun _ _ => rfl) 0
  exact ⟨t, hrun, (partitions_confined flatDisk "hda" 4).1 2 freshScan t hrun⟩

end OsMaterial
