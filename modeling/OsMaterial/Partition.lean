import OsMaterial.Calls
import OsMaterial.Words

/-!
# Block Devices and Partitions

The devices of `devices/block.c`, and the scan in `devices/partition.c`. A drive is one flat image
of bytes. An entry of a partition table may lead to another table: `readPartitionTable` is given a
bound on the depth. The state of a scan has the answers of `malloc` to come.

* `foundPartition_returnsIff`: **a partition inside the device is registered**, if there is memory.
* `entryLoop_returnsIff`: the loop over the entries, if each is empty or inside the device.
-/

namespace OsMaterial

open List

/-! ### Block devices -/

inductive BlockType where
  | kernel
  | filesys
  | scratch
  | swap
  | raw
  | foreign
  deriving DecidableEq

inductive Block where
  | drive (name : String) (size : BitVec 32)
  | partition (name : String) (type : BlockType) (size : BitVec 32) (block : Block)
      (start : BitVec 32)
  deriving DecidableEq

namespace Block

def name : Block → String
  | drive name _ => name
  | partition name _ _ _ _ => name

def type : Block → BlockType
  | drive _ _ => .raw
  | partition _ type _ _ _ => type

def size : Block → BitVec 32
  | drive _ size => size
  | partition _ _ size _ _ => size

end Block

inductive BlockPanic where
  | pastEnd (name : String) (sector size : BitVec 32)
  | foreign
  deriving DecidableEq

namespace Block

def checkSector (b : Block) (sector : BitVec 32) : Except BlockPanic Unit :=
  if b.size ≤ sector then .error (.pastEnd b.name sector b.size) else .ok ()

def read (image : ℕ → UInt8) : Block → BitVec 32 → Except BlockPanic Bytes
  | drive name size, sector => do
      (drive name size).checkSector sector
      return slice image (512 * sector.toNat) 512
  | partition name type size block start, sector => do
      (partition name type size block start).checkSector sector
      block.read image (start + sector)

def write (image : ℕ → UInt8) (buffer : Bytes) :
    Block → BitVec 32 → Except BlockPanic (ℕ → UInt8)
  | drive name size, sector => do
      (drive name size).checkSector sector
      return patch image (512 * sector.toNat) buffer
  | partition name type size block start, sector => do
      (partition name type size block start).checkSector sector
      if type = .foreign then
        throw .foreign
      block.write image buffer (start + sector)

end Block

/-! ### The partition table -/

structure PartitionTableEntry where
  bootable : UInt8
  startChs : Bytes
  type : UInt8
  endChs : Bytes
  offset : BitVec 32
  size : BitVec 32
  deriving DecidableEq

def decodePartition (bytes : Bytes) : PartitionTableEntry where
  bootable := bytes.getD 0 0
  startChs := (bytes.drop 1).take 3
  type := bytes.getD 4 0
  endChs := (bytes.drop 5).take 3
  offset := BitVec.ofNat 32 (ofLe ((bytes.drop 8).take 4))
  size := BitVec.ofNat 32 (ofLe ((bytes.drop 12).take 4))

def entryBytes (sector : Bytes) (i : ℕ) : Bytes := (sector.drop (446 + 16 * i)).take 16

def tableSignature (sector : Bytes) : ℕ := ofLe ((sector.drop 510).take 2)

/-! ### The scan -/

inductive ScanMessage where
  | noPartitions
  | tablePastEnd (sector : BitVec 32)
  | badSignature
  | badExtended (sector : BitVec 32)
  | extended (sector : BitVec 32)
  | startPastEnd (partNr : ℕ) (start : BitVec 32)
  | endPastEnd (partNr : ℕ) (stop size : BitVec 32)
  deriving DecidableEq

inductive ScanPanic where
  | tableMemory
  | descriptorMemory
  | blockMemory
  | access (e : BlockPanic)
  | depth
  deriving DecidableEq

def ScanPanic.OutOfMemory (e : ScanPanic) : Prop :=
  e = .tableMemory ∨ e = .descriptorMemory ∨ e = .blockMemory

structure ScanState where
  blocks : List Block
  partNr : ℕ
  mallocs : ℕ → Bool
  printed : List ScanMessage

abbrev Scan (α : Type) : Type := Call ScanPanic ScanState α

def scanPrint (message : ScanMessage) : Scan Unit :=
  modify fun s => { s with printed := s.printed ++ [message] }

def ScanState.spend (s : ScanState) : ScanState :=
  { s with mallocs := fun n => s.mallocs (n + 1) }

def mallocOrPanic (e : ScanPanic) : Scan Unit := do
  let s ← get
  set s.spend
  assert (s.mallocs 0 = true) e

def blockRegister (block : Block) : Scan Unit := do
  mallocOrPanic .blockMemory
  modify fun s => { s with blocks := s.blocks ++ [block] }

/-- The name of a partition: `snprintf (name, sizeof name, "%s%d", block_name (block), part_nr)`
into an array of 16 bytes. -/
def partitionName (block : Block) (partNr : ℕ) : String :=
  String.ofList ((block.name ++ toString partNr).toList.take 15)

def partitionRole (partType : UInt8) : BlockType :=
  if partType = 0x20 then .kernel
  else if partType = 0x21 then .filesys
  else if partType = 0x22 then .scratch
  else if partType = 0x23 then .swap
  else .foreign

def foundPartition (block : Block) (partType : UInt8) (start size : BitVec 32) (partNr : ℕ) :
    Scan Unit :=
  if block.size ≤ start then
    scanPrint (.startPastEnd partNr start)
  else if start + size < start ∨ block.size < start + size then
    scanPrint (.endPastEnd partNr (start + size) block.size)
  else do
    mallocOrPanic .descriptorMemory
    blockRegister
      (.partition (partitionName block partNr) (partitionRole partType) size block start)

def PartitionTableEntry.Empty (e : PartitionTableEntry) : Prop := e.size = 0 ∨ e.type = 0

instance decidableEmpty (e : PartitionTableEntry) : Decidable e.Empty :=
  inferInstanceAs (Decidable (e.size = 0 ∨ e.type = 0))

def isExtended (type : UInt8) : Prop := type = 0x05 ∨ type = 0x0f ∨ type = 0x85 ∨ type = 0xc5

instance decidableIsExtended (type : UInt8) : Decidable (isExtended type) :=
  inferInstanceAs (Decidable (type = 0x05 ∨ type = 0x0f ∨ type = 0x85 ∨ type = 0xc5))

def readEntry (recurse : BitVec 32 → BitVec 32 → Scan Unit) (block : Block)
    (sector primaryExtendedSector : BitVec 32) (e : PartitionTableEntry) : Scan Unit :=
  if e.Empty then
    pure ()
  else if isExtended e.type then do
    scanPrint (.extended sector)
    if sector = 0 then
      recurse e.offset e.offset
    else
      recurse (e.offset + primaryExtendedSector) primaryExtendedSector
  else do
    modify fun s => { s with partNr := s.partNr + 1 }
    let s ← get
    foundPartition block e.type (e.offset + sector) e.size s.partNr

def entryLoop (round : PartitionTableEntry → Scan Unit) (pt : Bytes) : ℕ → ℕ → Scan Unit
  | 0, _ => pure ()
  | n + 1, i => do
      round (decodePartition (entryBytes pt i))
      entryLoop round pt n (i + 1)

/-- `read_partition_table`. The sector that is read is sector 0, whatever `sector` is. -/
def readPartitionTable (image : ℕ → UInt8) (block : Block) :
    ℕ → BitVec 32 → BitVec 32 → Scan Unit
  | 0, _, _ => throw .depth
  | depth + 1, sector, primaryExtendedSector =>
    if block.size ≤ sector then
      scanPrint (.tablePastEnd sector)
    else do
      mallocOrPanic .tableMemory
      let pt ← liftM ((block.read image 0).mapError ScanPanic.access)
      if tableSignature pt ≠ 0xaa55 then
        if primaryExtendedSector = 0 then
          scanPrint .badSignature
        else
          scanPrint (.badExtended sector)
      else
        entryLoop (readEntry (readPartitionTable image block depth) block sector
          primaryExtendedSector) pt 4 0

def partitionScan (image : ℕ → UInt8) (depth : ℕ) (block : Block) : Scan Unit := do
  modify fun s => { s with partNr := 0 }
  readPartitionTable image block depth 0 0
  let s ← get
  if s.partNr = 0 then
    scanPrint .noPartitions

/-! ### Accesses to a partition -/

namespace Block

variable {image : ℕ → UInt8} {name driveName : String} {type : BlockType}
variable {size driveSize start s : BitVec 32}

theorem checkSector_of_lt {b : Block} (h : s < b.size) : b.checkSector s = .ok () := by
  rw [checkSector, if_neg (BitVec.not_le.mpr h)]

section InRange

variable (hs : s < size) (hend : start.toNat + size.toNat ≤ driveSize.toNat)
include hs hend

theorem partition_checks :
    (partition name type size (drive driveName driveSize) start).checkSector s = .ok () ∧
    (drive driveName driveSize).checkSector (start + s) = .ok () ∧
    (start + s).toNat = start.toNat + s.toNat := by
  have hlt : start + s < driveSize := by bv_omega
  exact ⟨checkSector_of_lt hs, checkSector_of_lt hlt, by bv_omega⟩

theorem read_partition :
    (partition name type size (drive driveName driveSize) start).read image s =
      .ok (slice image (512 * (start.toNat + s.toNat)) 512) := by
  obtain ⟨hcheck, hdrive, hadd⟩ := partition_checks hs hend
  rw [read, hcheck, read, hdrive, hadd]
  rfl

theorem write_partition {buffer : Bytes} (htype : type ≠ .foreign) :
    (partition name type size (drive driveName driveSize) start).write image buffer s =
      .ok (patch image (512 * (start.toNat + s.toNat)) buffer) := by
  obtain ⟨hcheck, hdrive, hadd⟩ := partition_checks hs hend
  rw [write, hcheck, write, hdrive, hadd, if_neg htype]
  rfl

end InRange

end Block

/-! ### Scanning a table -/

variable {entries : List Bytes} {n i : ℕ} {e : ScanPanic}
  {recurse : BitVec 32 → BitVec 32 → Scan Unit}

section

variable {s : ScanState} {block : Block} {sector primary start size : BitVec 32} {pt : Bytes}

def ScanState.Memory (s : ScanState) (n : ℕ) : Prop := ∀ i < n, s.mallocs i = true

theorem ScanState.memory_succ : s.Memory (n + 1) ↔ s.mallocs 0 = true ∧ s.spend.Memory n := by
  constructor
  · exact fun h => ⟨h 0 (by omega), fun i hi => h (i + 1) (by omega)⟩
  · rintro ⟨hzero, hrest⟩ i hi
    rcases i with _ | i
    · exact hzero
    · exact hrest i (by omega)

theorem ScanState.memory_zero : s.Memory 0 := fun i hi => absurd hi (Nat.not_lt_zero i)

theorem mallocOrPanic_returnsIff (he : e.OutOfMemory) :
    ReturnsIff (mallocOrPanic e) s (s.mallocs 0 = true) ScanPanic.OutOfMemory
      fun _ t => t = s.spend := by
  rw [mallocOrPanic, returnsIff_get_bind, returnsIff_set_bind]
  refine ⟨fun h => ?_, fun h => ⟨e, he, panics_assert h e _⟩⟩
  rw [returns_assert]
  exact ⟨h, rfl⟩

theorem ReturnsIff.mallocOrPanic_bind {f : Unit → Scan Unit} {Q : Unit → ScanState → Prop}
    (he : e.OutOfMemory)
    (hf : ReturnsIff (f ()) s.spend (s.spend.Memory n) ScanPanic.OutOfMemory Q) :
    ReturnsIff (mallocOrPanic e >>= f) s (s.Memory (n + 1)) ScanPanic.OutOfMemory Q := by
  rw [ScanState.memory_succ]
  refine (mallocOrPanic_returnsIff he).bind ?_
  rintro - ⟨⟩ t rfl
  exact hf

/-- **A partition inside the device is registered**, if there is memory for the descriptors. -/
theorem foundPartition_returnsIff {partType : UInt8} {partNr : ℕ} (hstart : start < block.size)
    (hend : start.toNat + size.toNat ≤ block.size.toNat) :
    ReturnsIff (foundPartition block partType start size partNr) s (s.Memory 2)
      ScanPanic.OutOfMemory fun _ t =>
        t = { s.spend.spend with
          blocks := s.blocks ++ [.partition (partitionName block partNr) (partitionRole partType)
            size block start] } := by
  have hpast : ¬ block.size ≤ start := BitVec.not_le.mpr hstart
  have hwrap : ¬ (start + size < start ∨ block.size < start + size) := by bv_omega
  rw [foundPartition, if_neg hpast, if_neg hwrap]
  refine .mallocOrPanic_bind (.inr (.inl rfl)) (.mallocOrPanic_bind (.inr (.inr rfl)) ?_)
  refine ⟨fun _ => ?_, fun h => absurd ScanState.memory_zero h⟩
  rw [returns_modify]
  rfl

structure PartitionTableEntry.Inside (e : PartitionTableEntry) (block : Block)
    (sector : BitVec 32) : Prop where
  plain : ¬ isExtended e.type
  start_lt : e.offset + sector < block.size
  end_le : (e.offset + sector).toNat + e.size.toNat ≤ block.size.toNat

def tableDevices (block : Block) (sector : BitVec 32) : ℕ → List PartitionTableEntry → List Block
  | _, [] => []
  | nr, e :: es =>
    if e.Empty then
      tableDevices block sector nr es
    else
      .partition (partitionName block (nr + 1)) (partitionRole e.type) e.size block
        (e.offset + sector) :: tableDevices block sector (nr + 1) es

def EntriesAt (pt : Bytes) : ℕ → List Bytes → Prop
  | _, [] => True
  | i, bytes :: entries => entryBytes pt i = bytes ∧ EntriesAt pt (i + 1) entries

theorem entriesAt_of_eq {before after : Bytes}
    (hpt : pt = before ++ (entries.flatten ++ after)) (hbefore : before.length = 446 + 16 * i)
    (hlen : ∀ bytes ∈ entries, bytes.length = 16) : EntriesAt pt i entries := by
  induction entries generalizing before i with
  | nil => trivial
  | cons bytes entries ih =>
    have hbytes := hlen bytes mem_cons_self
    have hrest := fun b hb => hlen b (mem_cons_of_mem bytes hb)
    rw [flatten_cons, append_assoc] at hpt
    have hnext : pt = (before ++ bytes) ++ (entries.flatten ++ after) := by rw [hpt, append_assoc]
    have hplace : (before ++ bytes).length = 446 + 16 * (i + 1) := by
      rw [length_append, hbefore, hbytes]
      ring
    refine ⟨?_, ih hnext hplace hrest⟩
    rw [entryBytes, hpt, ← hbefore, drop_left, ← hbytes, take_left]

theorem readEntry_returnsIff {e : PartitionTableEntry} (he : ¬ e.Empty)
    (hin : e.Inside block sector) :
    ReturnsIff (readEntry recurse block sector primary e) s (s.Memory 2)
      ScanPanic.OutOfMemory fun _ t =>
        t = { s.spend.spend with
          partNr := s.partNr + 1
          blocks := s.blocks ++ [.partition (partitionName block (s.partNr + 1))
            (partitionRole e.type) e.size block (e.offset + sector)] } := by
  rw [readEntry, if_neg he, if_neg hin.plain, returnsIff_modify_bind, returnsIff_get_bind]
  exact foundPartition_returnsIff hin.start_lt hin.end_le

/-- **The loop over the entries of a table**, each of them empty or a partition inside the device:
it registers the partitions in their order, with two calls of `malloc` for each. -/
theorem entryLoop_returnsIff (hpt : EntriesAt pt i entries)
    (hin : ∀ bytes ∈ entries, (decodePartition bytes).Empty ∨
      (decodePartition bytes).Inside block sector) :
    ReturnsIff (entryLoop (readEntry recurse block sector primary) pt entries.length i) s
      (s.Memory (2 * (tableDevices block sector s.partNr (entries.map decodePartition)).length))
      ScanPanic.OutOfMemory fun _ t =>
        t.blocks = s.blocks ++
          tableDevices block sector s.partNr (entries.map decodePartition) := by
  induction entries generalizing s i with
  | nil =>
    refine ⟨fun _ => ?_, fun h => absurd ScanState.memory_zero h⟩
    rw [length_nil, entryLoop, returns_pure]
    exact (append_nil _).symm
  | cons bytes entries ih =>
    obtain ⟨hbytes, hpt⟩ := hpt
    have hrest := fun b hb => hin b (mem_cons_of_mem bytes hb)
    rw [length_cons, entryLoop, hbytes, map_cons, tableDevices]
    by_cases he : (decodePartition bytes).Empty
    · rw [readEntry, if_pos he, if_pos he, pure_bind]
      exact ih hpt hrest
    · have hinside := (hin bytes mem_cons_self).resolve_left he
      rw [if_neg he, length_cons, Nat.mul_succ, ScanState.memory_succ, ScanState.memory_succ,
        ← and_assoc]
      have hfirst : ReturnsIff (readEntry recurse block sector primary (decodePartition bytes)) s
          _ _ _ := readEntry_returnsIff he hinside
      rw [ScanState.memory_succ, ScanState.memory_succ, ← and_assoc,
        and_iff_left ScanState.memory_zero] at hfirst
      refine hfirst.bind ?_
      rintro - ⟨⟩ t rfl
      refine (ih hpt hrest).mono fun _ t ht => ?_
      rw [ht, append_assoc, singleton_append]

theorem partitionScan_returnsIff {image : ℕ → UInt8} (depth : ℕ)
    (hread : block.read image 0 = .ok pt) (hsize : 0 < block.size)
    (hsignature : tableSignature pt = 0xaa55) (hlen : entries.length = 4)
    (hpt : EntriesAt pt 0 entries) (hin : ∀ bytes ∈ entries, (decodePartition bytes).Empty ∨
      (decodePartition bytes).Inside block 0) :
    ReturnsIff (partitionScan image (depth + 1) block) s
      (s.Memory (2 * (tableDevices block 0 0 (entries.map decodePartition)).length + 1))
      ScanPanic.OutOfMemory fun _ t =>
        t.blocks = s.blocks ++ tableDevices block 0 0 (entries.map decodePartition) := by
  have hpure : (liftM ((Except.ok pt : Except BlockPanic Bytes).mapError
      ScanPanic.access) : Scan Bytes) = pure pt := rfl
  rw [partitionScan, returnsIff_modify_bind, readPartitionTable,
    if_neg (BitVec.not_le.mpr hsize), bind_assoc, hread, hpure]
  refine .mallocOrPanic_bind (.inl rfl) ?_
  rw [pure_bind, if_neg (not_not.mpr hsignature), ← hlen]
  refine (entryLoop_returnsIff hpt hin).bind_returns fun _ t ht => ?_
  rw [returns_bind, returns_get]
  split
  · rw [scanPrint, returns_modify]
    exact ht
  · rw [returns_pure]
    exact ht

end

end OsMaterial
