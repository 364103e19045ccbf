import Mathlib.Order.CompletePartialOrder
import Mathlib.Order.Interval.Set.Disjoint
import OsMaterial.KernelCommandLine
import OsMaterial.Partition
import OsMaterial.Ustar

/-!
# Virtual Disks

`assemble_disk` of `utils/Pintos.pm` makes a virtual disk, `interpret_partition_table` and the
kernel (`Partition`) read its table. The geometry is the default one, 16 heads with 63 sectors: what
the tools hand over as `GEOMETRY` is never usable. The host takes an entry as valid by its first
four bytes, the kernel by its type and size.

* `placeParts_eq`: partitions are placed one after the other.
* `partition_tables_agree`: **the host and the kernel read back the table** of a disk.
-/

namespace OsMaterial

open Function (update update_of_ne update_self)
open List (append_assoc flatMap_cons length length_append length_replicate map_cons map_nil
  mem_cons_of_mem mem_cons_self nil_append not_mem_nil replicate sum_cons)

/-! ### Roles and geometry -/

inductive Role where
  | kernel
  | filesys
  | scratch
  | swap
  deriving DecidableEq

def roleOrder : List Role := [.kernel, .filesys, .scratch, .swap]

def Role.partType : Role → UInt8
  | kernel => 0x20
  | filesys => 0x21
  | scratch => 0x22
  | swap => 0x23

def type2role (type : UInt8) : Option Role := roleOrder.find? fun role => role.partType = type

def Role.blockType : Role → BlockType
  | kernel => .kernel
  | filesys => .filesys
  | scratch => .scratch
  | swap => .swap

structure Geometry where
  heads : ℕ
  sectors : ℕ

def defaultGeometry : Geometry := ⟨16, 63⟩

def cylSectors (geometry : Geometry) : ℕ := geometry.heads * geometry.sectors

def divRoundUp (x y : ℕ) : ℕ := (x + y - 1) / y

def perlRoundUp (x y : ℕ) : ℕ := divRoundUp x y * y

def lbaToChs (lba : ℕ) (geometry : Geometry) : ℕ × ℕ × ℕ :=
  let cyl := lba / (geometry.heads * geometry.sectors)
  let temp := lba % (geometry.heads * geometry.sectors)
  let head := temp / geometry.sectors
  let sect := temp % geometry.sectors + 1
  if cyl ≤ 1023 then (cyl, head, sect) else (1023, 254, 63)

def packChs (lba : ℕ) (geometry : Geometry) : Bytes :=
  let chs := lbaToChs lba geometry
  [UInt8.ofNat chs.2.1, UInt8.ofNat (chs.2.2 ||| ((chs.1 >>> 2) &&& 0xc0)),
    UInt8.ofNat (chs.1 &&& 0xff)]

/-! ### Partitions and their sources -/

inductive HostFile where
  | missing
  | contents (bytes : Bytes)
  | zeros
  deriving DecidableEq

def HostFile.sysread (pos n : ℕ) : HostFile → Bytes
  | missing => []
  | contents bytes => (bytes.drop pos).take n
  | zeros => replicate n 0

structure HostPart where
  file : HostFile
  offset : ℕ
  bytes : ℕ
  disk : Option String
  start : ℕ
  sectors : ℕ
  deriving DecidableEq

abbrev HostParts := Role → Option HostPart

inductive DiskAlign where
  | bochs
  | full
  | none
  deriving DecidableEq

inductive DiskFormat where
  | partitioned
  | raw
  deriving DecidableEq

structure DiskArgs where
  disk : String
  parts : HostParts
  align : DiskAlign
  format : DiskFormat
  loader : Bytes
  args : List CString

inductive DiskError where
  | rawParts
  | placed (role : Role)
  | commandLine
  | tableLength
  | mbrLength
  | openFailed (role : Role)
  | unexpectedEof (role : Role)
  deriving DecidableEq

structure DiskImage where
  bytes : Bytes
  parts : HostParts

/-! ### `assemble_disk` -/

def placeParts (disk : String) (align : Bool) :
    List Role → ℕ → HostParts → Except DiskError (ℕ × HostParts)
  | [], totalSectors, parts => .ok (totalSectors, parts)
  | role :: roles, totalSectors, parts =>
    match parts role with
    | none => placeParts disk align roles totalSectors parts
    | some p =>
      if p.disk.isSome then
        .error (.placed role)
      else
        let start := totalSectors
        let stop := start + divRoundUp p.bytes 512
        let stop := if align then perlRoundUp stop (cylSectors defaultGeometry) else stop
        placeParts disk align roles stop (update parts role
          (some { p with disk := some disk, start := start, sectors := stop - start }))

def packEntry (geometry : Geometry) (role : Role) (p : HostPart) : Bytes :=
  [if role = .kernel then 0x80 else 0] ++ packChs p.start geometry ++ [role.partType] ++
    packChs (p.start + p.sectors - 1) geometry ++ toLe 4 p.start ++ toLe 4 p.sectors

def tableLoop (geometry : Geometry) (parts : HostParts) :
    List Role → Bytes → Except DiskError Bytes
  | [], table => .ok table
  | role :: roles, table =>
    match parts role with
    | none => tableLoop geometry parts roles table
    | some p =>
      let table := table ++ packEntry geometry role p
      if table.length % 16 ≠ 0 then
        .error .tableLength
      else
        tableLoop geometry parts roles table

def makePartitionTable (geometry : Geometry) (parts : HostParts) :
    Except DiskError Bytes :=
  (tableLoop geometry parts roleOrder []).map (packA 64)

/-- `$args{LOADER} || "\xcd\x18"`: the strings that are false are the empty one and `"0"`. -/
def loaderOrDefault (loader : Bytes) : Bytes :=
  if loader = [] ∨ loader = [0x30] then [0xcd, 0x18] else loader

def makeMbr (a : DiskArgs) (parts : HostParts) : Except DiskError Bytes :=
  match makeKernelCommandLine a.args with
  | none => .error .commandLine
  | some commandLine =>
    (makePartitionTable defaultGeometry parts).bind fun table =>
      let mbr := packA 314 (loaderOrDefault a.loader) ++ commandLine ++ table ++ toLe 2 0xaa55
      if mbr.length ≠ 512 then .error .mbrLength else .ok mbr

def readFully (file : HostFile) (pos bytes : ℕ) : Option Bytes :=
  let data := file.sysread pos bytes
  if data.length ≠ bytes then none else some data

def hostChunk (size : ℕ) : ℕ := if 4096 > size then size else 4096

theorem hostChunk_pos {size : ℕ} (h : 0 < size) : 0 < hostChunk size := by
  rw [hostChunk]
  split <;> omega

theorem hostChunk_le (size : ℕ) : hostChunk size ≤ size := by
  rw [hostChunk]
  split <;> omega

def copyFile (file : HostFile) (pos size : ℕ) : Option Bytes :=
  if 0 < size then
    match readFully file pos (hostChunk size) with
    | none => none
    | some data =>
      (copyFile file (pos + hostChunk size) (size - hostChunk size)).map (data ++ ·)
  else
    some []
termination_by size
decreasing_by
  have := hostChunk_pos ‹0 < size›
  omega

def writeZeros (size : ℕ) : Bytes :=
  if 0 < size then
    replicate (hostChunk size) 0 ++ writeZeros (size - hostChunk size)
  else
    []
termination_by size
decreasing_by
  have := hostChunk_pos ‹0 < size›
  omega

def copyParts (parts : HostParts) : List Role → Except DiskError Bytes
  | [] => .ok []
  | role :: roles =>
    match parts role with
    | none => copyParts parts roles
    | some p =>
      if p.file = .missing then
        .error (.openFailed role)
      else
        match copyFile p.file p.offset p.bytes with
        | none => .error (.unexpectedEof role)
        | some data =>
          (copyParts parts roles).map fun rest =>
            data ++ writeZeros (p.sectors * 512 - p.bytes) ++ rest

def bootSectors (a : DiskArgs) (align : Bool) (parts : HostParts) :
    Except DiskError Bytes :=
  match a.format with
  | .partitioned =>
    (makeMbr a parts).map fun mbr =>
      mbr ++ if align then writeZeros (512 * (defaultGeometry.sectors - 1)) else []
  | .raw => .ok []

def assembleDisk (a : DiskArgs) : Except DiskError DiskImage :=
  let align : Bool := a.align = .full
  let pad : Bool := a.align = .bochs
  let partCnt := roleOrder.countP fun role => (a.parts role).isSome
  if a.format = .raw ∧ partCnt ≠ 1 then
    .error .rawParts
  else do
    let first := match a.format with
      | .partitioned => if align then defaultGeometry.sectors else 1
      | .raw => 0
    let (totalSectors, parts) ← placeParts a.disk align roleOrder first a.parts
    let boot ← bootSectors a align parts
    let body ← copyParts parts roleOrder
    let padSectors := perlRoundUp totalSectors (cylSectors defaultGeometry)
    let padding := if pad then writeZeros ((padSectors - totalSectors) * 512) else []
    return { bytes := boot ++ body ++ padding, parts }

/-! ### `interpret_partition_table` -/

structure Extent where
  start : ℕ
  sectors : ℕ
  deriving DecidableEq

inductive HostWarning where
  | invalidEntry (i : ℕ)
  | foreignType (type : UInt8)
  | duplicate (role : Role)
  deriving DecidableEq

@[ext] structure Interpreted where
  parts : Role → Option Extent
  warnings : List HostWarning

def Interpreted.warn (found : Interpreted) (warning : HostWarning) : Interpreted :=
  { found with warnings := found.warnings ++ [warning] }

def Interpreted.add (found : Interpreted) (role : Role) (extent : Extent) : Interpreted :=
  { found with parts := update found.parts role (some extent) }

/-- The body of the loop of `interpret_partition_table`: `unpack ("C X V C x3 V V", ...)`. -/
def interpretEntry (i : ℕ) (entry : Bytes) (found : Interpreted) : Interpreted :=
  let bootable := entry.getD 0 0
  let valid := ofLe (entry.take 4)
  let type := entry.getD 4 0
  let lbaStart := ofLe ((entry.drop 8).take 4)
  let lbaLength := ofLe ((entry.drop 12).take 4)
  if valid = 0 then
    found
  else if bootable ≠ 0 ∧ bootable ≠ 0x80 then
    found.warn (.invalidEntry i)
  else
    match type2role type with
    | none => found.warn (.foreignType type)
    | some role =>
      if (found.parts role).isSome then
        found.warn (.duplicate role)
      else
        found.add role ⟨lbaStart, lbaLength⟩

def interpretLoop (mbr : Bytes) : ℕ → ℕ → Interpreted → Interpreted
  | 0, _, found => found
  | n + 1, i, found =>
    interpretLoop mbr n (i + 1) (interpretEntry i (entryBytes mbr i) found)

def interpretPartitionTable (mbr : Bytes) : Interpreted :=
  interpretLoop mbr 4 0 ⟨fun _ => none, []⟩

/-! ### Placing partitions -/

variable {xs : List (Role × HostPart)} {p : HostPart} {geometry : Geometry} {found : Interpreted}
  {mbr : Bytes} {x : Role × HostPart} {a : DiskArgs} {d : DiskImage}

section

variable {parts : HostParts} {roles : List Role} {role : Role} {disk : String} {t u : ℕ}

def chosen (parts : HostParts) (roles : List Role) : List (Role × HostPart) :=
  roles.filterMap fun role => (parts role).map (role, ·)

theorem chosen_cons_none (h : parts role = none) :
    chosen parts (role :: roles) = chosen parts roles := by
  rw [chosen, List.filterMap_cons_none (by rw [h]; rfl), chosen]

theorem chosen_cons_some (h : parts role = some p) :
    chosen parts (role :: roles) = (role, p) :: chosen parts roles := by
  rw [chosen, List.filterMap_cons_some (b := (role, p)) (by rw [h]; rfl), chosen]

theorem mem_chosen : (role, p) ∈ chosen parts roles ↔ role ∈ roles ∧ parts role = some p := by
  rw [chosen, List.mem_filterMap]
  constructor
  · rintro ⟨r, hr, hp⟩
    obtain ⟨q, hq, heq⟩ := Option.map_eq_some_iff.mp hp
    obtain ⟨rfl, rfl⟩ := Prod.mk.inj heq
    exact ⟨hr, hq⟩
  · rintro ⟨hr, hp⟩
    exact ⟨role, hr, by rw [hp]; rfl⟩

theorem chosen_update {v : Option HostPart} (h : role ∉ roles) :
    chosen (update parts role v) roles = chosen parts roles := by
  refine List.filterMap_congr fun r hr => ?_
  have hne : r ≠ role := fun heq => h (heq ▸ hr)
  rw [update_of_ne hne]

theorem mem_roleOrder (role : Role) : role ∈ roleOrder := by
  cases role <;> decide

theorem length_chosen_le (parts : HostParts) (roles : List Role) :
    (chosen parts roles).length ≤ roles.length :=
  List.length_filterMap_le _ _

def HostPart.placeAt (p : HostPart) (disk : String) (t : ℕ) : HostPart :=
  { p with disk := some disk, start := t, sectors := divRoundUp p.bytes 512 }

def placed (disk : String) : ℕ → List (Role × HostPart) → List (Role × HostPart)
  | _, [] => []
  | t, x :: xs => (x.1, x.2.placeAt disk t) :: placed disk (t + divRoundUp x.2.bytes 512) xs

def totalSectors (xs : List (Role × HostPart)) : ℕ :=
  (xs.map fun x => divRoundUp x.2.bytes 512).sum

/-- **Placing the partitions**, none of which has a place yet. -/
theorem placeParts_eq (disk : String) (t : ℕ) (hnodup : roles.Nodup)
    (hfresh : ∀ x ∈ chosen parts roles, x.2.disk = none) :
    ∃ parts', placeParts disk false roles t parts =
        .ok (t + totalSectors (chosen parts roles), parts') ∧
      chosen parts' roles = placed disk t (chosen parts roles) ∧
      ∀ r, r ∉ roles → parts' r = parts r := by
  induction roles generalizing t parts with
  | nil => exact ⟨parts, rfl, rfl, fun _ _ => rfl⟩
  | cons role roles ih =>
    obtain ⟨hnot, hnodup⟩ := List.nodup_cons.mp hnodup
    cases hp : parts role with
    | none =>
      rw [chosen_cons_none hp] at hfresh ⊢
      obtain ⟨parts', heq, hchosen, hkeep⟩ := ih t hnodup hfresh
      have hrole : parts' role = none := (hkeep role hnot).trans hp
      refine ⟨parts', ?_, ?_, fun r hr => hkeep r fun hmem => hr (mem_cons_of_mem _ hmem)⟩
      · rw [placeParts, hp]
        exact heq
      · rw [chosen_cons_none hrole, hchosen]
    | some p =>
      rw [chosen_cons_some hp] at hfresh ⊢
      have hdisk : p.disk = none := hfresh _ mem_cons_self
      have hrest := fun x hx => hfresh x (mem_cons_of_mem _ hx)
      rw [← chosen_update (v := some (p.placeAt disk t)) hnot] at hrest
      obtain ⟨parts', heq, hchosen, hkeep⟩ := ih (t + divRoundUp p.bytes 512) hnodup hrest
      rw [chosen_update hnot] at heq hchosen
      have hrole : parts' role = some (p.placeAt disk t) := by rw [hkeep role hnot, update_self]
      refine ⟨parts', ?_, ?_, fun r hr => ?_⟩
      · rw [placeParts, hp]
        simp only [hdisk, Option.isSome_none, Bool.false_eq_true, if_false,
          Nat.add_sub_cancel_left, totalSectors, map_cons, sum_cons, ← Nat.add_assoc]
        exact heq
      · rw [chosen_cons_some hrole, hchosen, placed]
      · obtain ⟨hne, hr⟩ := not_or.mp (List.mem_cons.not.mp hr)
        rw [hkeep r hr, update_of_ne hne]

theorem placeParts_error {align : Bool} (hnodup : roles.Nodup)
    (h : ∃ x ∈ chosen parts roles, x.2.disk ≠ none) :
    ∃ e, placeParts disk align roles t parts = .error e := by
  induction roles generalizing t parts with
  | nil =>
    obtain ⟨x, hx, -⟩ := h
    exact absurd hx not_mem_nil
  | cons role roles ih =>
    obtain ⟨hnot, hnodup⟩ := List.nodup_cons.mp hnodup
    rw [placeParts]
    cases hp : parts role with
    | none =>
      rw [chosen_cons_none hp] at h
      exact ih hnodup h
    | some p =>
      cases hdisk : p.disk with
      | some name => exact ⟨.placed role, by simp only [hdisk, Option.isSome_some, if_true]⟩
      | none =>
        rw [chosen_cons_some hp] at h
        obtain ⟨x, hx, hne⟩ := h
        simp only [hdisk, Option.isSome_none, Bool.false_eq_true, if_false]
        refine ih hnodup ⟨x, ?_, hne⟩
        rw [chosen_update hnot]
        rcases List.mem_cons.mp hx with rfl | hx
        · exact absurd hdisk hne
        · exact hx

/-! ### Consecutive partitions -/

/-- Partitions that take the sectors from `t` up to `u`, **one after the other**. -/
inductive Consecutive : ℕ → List (Role × HostPart) → ℕ → Prop
  | nil (t : ℕ) : Consecutive t [] t
  | cons {role : Role} {p : HostPart} {xs : List (Role × HostPart)} {u : ℕ}
      (hpos : 0 < p.sectors) (htail : Consecutive (p.start + p.sectors) xs u) :
      Consecutive p.start ((role, p) :: xs) u

theorem Consecutive.le (h : Consecutive t xs u) : t ≤ u := by
  induction h with
  | nil => exact le_rfl
  | cons hpos htail ih => omega

theorem Consecutive.bounds (h : Consecutive t xs u) :
    ∀ x ∈ xs, t ≤ x.2.start ∧ 0 < x.2.sectors ∧ x.2.start + x.2.sectors ≤ u := by
  induction h with
  | nil => exact fun x hx => absurd hx not_mem_nil
  | @cons role p xs u hpos htail ih =>
    intro x hx
    rcases List.mem_cons.mp hx with rfl | hx
    · exact ⟨le_rfl, hpos, htail.le⟩
    · have := ih x hx
      omega

theorem Consecutive.pairwise (h : Consecutive t xs u) :
    xs.Pairwise fun x y => x.2.start + x.2.sectors ≤ y.2.start := by
  induction h with
  | nil => exact .nil
  | cons hpos htail ih => exact .cons (fun y hy => (htail.bounds y hy).1) ih

theorem consecutive_placed (hpos : ∀ x ∈ xs, 0 < x.2.bytes) :
    Consecutive t (placed disk t xs) (t + totalSectors xs) := by
  induction xs generalizing t with
  | nil => exact .nil t
  | cons x xs ih =>
    have hx := hpos x mem_cons_self
    have htail := ih (t := t + divRoundUp x.2.bytes 512) fun y hy => hpos y (mem_cons_of_mem x hy)
    have hsectors : 0 < divRoundUp x.2.bytes 512 := by
      rw [divRoundUp]
      omega
    rw [totalSectors, map_cons, sum_cons, ← Nat.add_assoc, placed]
    exact .cons (p := x.2.placeAt disk t) hsectors htail

theorem totalSectors_le (xs : List (Role × HostPart)) :
    512 * totalSectors xs ≤ (xs.map fun x => x.2.bytes).sum + 511 * xs.length := by
  induction xs with
  | nil => exact le_rfl
  | cons x xs ih =>
    have hx : 512 * divRoundUp x.2.bytes 512 ≤ x.2.bytes + 511 := by
      rw [divRoundUp]
      omega
    simp only [totalSectors, map_cons, sum_cons, List.length_cons] at ih ⊢
    omega

/-! ### The partition table -/

def zeroEntry : Bytes := replicate 16 0

def tableEntries (geometry : Geometry) (xs : List (Role × HostPart)) : List Bytes :=
  xs.map (fun x => packEntry geometry x.1 x.2) ++ replicate (4 - xs.length) zeroEntry

@[simp] theorem length_packEntry (geometry : Geometry) (role : Role) (p : HostPart) :
    (packEntry geometry role p).length = 16 := by
  simp [packEntry, packChs]

theorem length_of_mem_tableEntries {entry : Bytes} (h : entry ∈ tableEntries geometry xs) :
    entry.length = 16 := by
  rcases List.mem_append.mp h with hmem | hmem
  · obtain ⟨x, -, rfl⟩ := List.mem_map.mp hmem
    exact length_packEntry ..
  · rw [List.eq_of_mem_replicate hmem, zeroEntry, length_replicate]

theorem tableLoop_eq {table : Bytes} (htable : table.length % 16 = 0) :
    tableLoop geometry parts roles table =
      .ok (table ++ (chosen parts roles).flatMap fun x => packEntry geometry x.1 x.2) := by
  induction roles generalizing table with
  | nil => rw [tableLoop, chosen, List.filterMap_nil, List.flatMap_nil, List.append_nil]
  | cons role roles ih =>
    rw [tableLoop]
    cases hp : parts role with
    | none =>
      rw [chosen_cons_none hp]
      exact ih htable
    | some p =>
      have hlen : (table ++ packEntry geometry role p).length % 16 = 0 := by
        rw [length_append, length_packEntry]
        omega
      rw [chosen_cons_some hp, flatMap_cons, ← append_assoc]
      simp only [hlen, ne_eq, not_true_eq_false, if_false]
      exact ih hlen

theorem makePartitionTable_eq (geometry : Geometry) (parts : HostParts) :
    makePartitionTable geometry parts =
      .ok (tableEntries geometry (chosen parts roleOrder)).flatten := by
  have hlen : ((chosen parts roleOrder).flatMap
      fun x => packEntry geometry x.1 x.2).length = 16 * (chosen parts roleOrder).length := by
    simp [mul_comm]
  have hle : (chosen parts roleOrder).length ≤ 4 := length_chosen_le parts roleOrder
  have hpad : 64 - 16 * (chosen parts roleOrder).length =
      (4 - (chosen parts roleOrder).length) * 16 := by omega
  rw [makePartitionTable, tableLoop_eq rfl, nil_append, Except.map, packA, hlen, hpad,
    List.take_of_length_le (by omega), tableEntries, List.flatten_append, zeroEntry,
    List.flatten_replicate_replicate, List.flatMap_def]

/-! ### The contents of a disk -/

theorem sysread_add (file : HostFile) (pos m n : ℕ) :
    file.sysread pos (m + n) = file.sysread pos m ++ file.sysread (pos + m) n := by
  cases file with
  | missing => rfl
  | contents bytes =>
    rw [HostFile.sysread, HostFile.sysread, HostFile.sysread, List.take_add, List.drop_drop]
  | zeros => exact List.replicate_add ..

theorem length_sysread_le (file : HostFile) (pos n : ℕ) : (file.sysread pos n).length ≤ n := by
  cases file with
  | missing => exact Nat.zero_le n
  | contents bytes => exact List.length_take_le ..
  | zeros => exact (length_replicate ..).le

theorem copyFile_eq (file : HostFile) (pos size : ℕ) :
    copyFile file pos size =
      if (file.sysread pos size).length = size then some (file.sysread pos size) else none := by
  induction size using Nat.strong_induction_on generalizing pos with
  | _ size ih =>
    rw [copyFile]
    split
    · next hsize =>
      have hpos := hostChunk_pos hsize
      have hle := hostChunk_le size
      have hrest := length_sysread_le file (pos + hostChunk size) (size - hostChunk size)
      have hchunk := length_sysread_le file pos (hostChunk size)
      have hsplit := sysread_add file pos (hostChunk size) (size - hostChunk size)
      rw [Nat.add_sub_cancel' hle] at hsplit
      have hlen := congrArg length hsplit
      rw [length_append] at hlen
      by_cases hread : (file.sysread pos (hostChunk size)).length = hostChunk size
      · have hfully : readFully file pos (hostChunk size) =
            some (file.sysread pos (hostChunk size)) := if_neg (not_not.mpr hread)
        simp only [hfully, ih _ (show size - hostChunk size < size by omega)]
        by_cases htail : (file.sysread (pos + hostChunk size)
            (size - hostChunk size)).length = size - hostChunk size
        · rw [if_pos htail, if_pos (by omega), hsplit]
          rfl
        · rw [if_neg htail, if_neg (by omega)]
          rfl
      · have hfully : readFully file pos (hostChunk size) = none := if_pos hread
        simp only [hfully]
        rw [if_neg (by omega)]
    · next hsize =>
      obtain rfl : size = 0 := by omega
      have hnil : file.sysread pos 0 = [] :=
        List.length_eq_zero_iff.mp (Nat.le_zero.mp (length_sysread_le file pos 0))
      rw [hnil]
      rfl

theorem writeZeros_eq (size : ℕ) : writeZeros size = replicate size 0 := by
  induction size using Nat.strong_induction_on with
  | _ size ih =>
    rw [writeZeros]
    split
    · next hsize =>
      have hpos := hostChunk_pos hsize
      rw [ih _ (by omega), List.replicate_append_replicate,
        Nat.add_sub_cancel' (hostChunk_le size)]
    · next hsize =>
      obtain rfl : size = 0 := by omega
      rfl

structure HostPart.Readable (p : HostPart) : Prop where
  opens : p.file ≠ .missing
  enough : (p.file.sysread p.offset p.bytes).length = p.bytes

def HostPart.data (p : HostPart) : Bytes :=
  p.file.sysread p.offset p.bytes ++ replicate (p.sectors * 512 - p.bytes) 0

theorem copyParts_eq (hread : ∀ x ∈ chosen parts roles, x.2.Readable) :
    copyParts parts roles = .ok ((chosen parts roles).flatMap fun x => x.2.data) := by
  induction roles with
  | nil => rfl
  | cons role roles ih =>
    rw [copyParts]
    cases hp : parts role with
    | none =>
      rw [chosen_cons_none hp] at hread ⊢
      exact ih hread
    | some p =>
      rw [chosen_cons_some hp] at hread ⊢
      have hfirst := hread _ mem_cons_self
      have hrest := ih fun x hx => hread x (mem_cons_of_mem _ hx)
      have hcopy := copyFile_eq p.file p.offset p.bytes
      rw [if_pos hfirst.enough] at hcopy
      simp only [if_neg hfirst.opens, hcopy, hrest, Except.map, flatMap_cons,
        writeZeros_eq, HostPart.data]

theorem copyParts_error (h : ∃ x ∈ chosen parts roles, ¬ x.2.Readable) :
    ∃ e, copyParts parts roles = .error e := by
  induction roles with
  | nil =>
    obtain ⟨x, hx, -⟩ := h
    exact absurd hx not_mem_nil
  | cons role roles ih =>
    rw [copyParts]
    cases hp : parts role with
    | none =>
      rw [chosen_cons_none hp] at h
      exact ih h
    | some p =>
      rw [chosen_cons_some hp] at h
      by_cases hopen : p.file = .missing
      · exact ⟨.openFailed role, if_pos hopen⟩
      · have hcopy := copyFile_eq p.file p.offset p.bytes
        by_cases henough : (p.file.sysread p.offset p.bytes).length = p.bytes
        · obtain ⟨x, hx, hbad⟩ := h
          rcases List.mem_cons.mp hx with rfl | hx
          · exact absurd ⟨hopen, henough⟩ hbad
          · obtain ⟨e, he⟩ := ih ⟨x, hx, hbad⟩
            rw [if_pos henough] at hcopy
            exact ⟨e, by simp only [if_neg hopen, hcopy, he, Except.map]⟩
        · rw [if_neg henough] at hcopy
          exact ⟨.unexpectedEof role, by simp only [if_neg hopen, hcopy]⟩

theorem Consecutive.length_data (h : Consecutive t xs u) (hread : ∀ x ∈ xs, x.2.Readable)
    (hfit : ∀ x ∈ xs, x.2.bytes ≤ 512 * x.2.sectors) :
    (xs.flatMap fun x => x.2.data).length = 512 * (u - t) := by
  induction h with
  | nil => simp
  | @cons role p xs u hpos htail ih =>
    have hlen : p.data.length = 512 * p.sectors := by
      have henough : (p.file.sysread p.offset p.bytes).length = p.bytes :=
        (hread _ mem_cons_self).enough
      have hle : p.bytes ≤ 512 * p.sectors := hfit _ mem_cons_self
      rw [HostPart.data, length_append, henough, length_replicate]
      omega
    have hle := htail.le
    rw [flatMap_cons, length_append, hlen,
      ih (fun x hx => hread x (mem_cons_of_mem _ hx)) fun x hx => hfit x (mem_cons_of_mem _ hx)]
    omega

/-! ### Reading the table back -/

structure HostPart.Fits (p : HostPart) : Prop where
  start_lt : p.start < 2 ^ 32
  sectors_lt : p.sectors < 2 ^ 32
  sectors_pos : 0 < p.sectors

def HostPart.extent (p : HostPart) : Extent := ⟨p.start, p.sectors⟩

theorem sect_lbaToChs (lba : ℕ) :
    0 < (lbaToChs lba defaultGeometry).2.2 ∧ (lbaToChs lba defaultGeometry).2.2 ≤ 63 := by
  have hsect : lba % (16 * 63) % 63 < 63 := Nat.mod_lt _ (by decide)
  rw [lbaToChs, defaultGeometry]
  split
  · exact ⟨Nat.succ_pos _, hsect⟩
  · exact ⟨by decide, le_rfl⟩

theorem packChs_ne_zero (lba : ℕ) : (packChs lba defaultGeometry).getD 1 0 ≠ 0 := by
  obtain ⟨hpos, hle⟩ := sect_lbaToChs lba
  intro hzero
  have hnat := congrArg UInt8.toNat hzero
  have hor := Nat.left_le_or (n := (lbaToChs lba defaultGeometry).2.2 % 2 ^ 8)
    (m := (((lbaToChs lba defaultGeometry).1 >>> 2) &&& 0xc0) % 2 ^ 8)
  rw [packChs, List.getD_cons_succ, List.getD_cons_zero, UInt8.toNat_ofNat', Nat.or_mod_two_pow,
    UInt8.toNat_zero] at hnat
  omega

theorem decodePartition_packEntry (geometry : Geometry) (role : Role) (hfits : p.Fits) :
    (decodePartition (packEntry geometry role p)).type = role.partType ∧
      (decodePartition (packEntry geometry role p)).offset.toNat = p.start ∧
      (decodePartition (packEntry geometry role p)).size.toNat = p.sectors := by
  have hoffset : ((packEntry geometry role p).drop 8).take 4 = toLe 4 p.start := rfl
  have hsize : ((packEntry geometry role p).drop 12).take 4 = toLe 4 p.sectors := rfl
  refine ⟨rfl, ?_, ?_⟩
  · rw [decodePartition, hoffset, ofLe_toLe hfits.start_lt, BitVec.toNat_ofNat,
      Nat.mod_eq_of_lt hfits.start_lt]
  · rw [decodePartition, hsize, ofLe_toLe hfits.sectors_lt, BitVec.toNat_ofNat,
      Nat.mod_eq_of_lt hfits.sectors_lt]

theorem valid_packEntry (role : Role) (p : HostPart) :
    ofLe ((packEntry defaultGeometry role p).take 4) ≠ 0 := by
  obtain ⟨a, b, c, hchs⟩ : ∃ a b c, packChs p.start defaultGeometry = [a, b, c] := ⟨_, _, _, rfl⟩
  have hne := packChs_ne_zero p.start
  have htake : (packEntry defaultGeometry role p).take 4 =
      (if role = .kernel then 0x80 else 0) :: packChs p.start defaultGeometry := rfl
  rw [hchs, List.getD_cons_succ, List.getD_cons_zero] at hne
  rw [htake, hchs]
  simp only [ofLe_cons]
  intro hzero
  exact hne (UInt8.toNat_inj.mp (by rw [UInt8.toNat_zero]; omega))

theorem type2role_partType (role : Role) : type2role role.partType = some role := by
  cases role <;> decide

theorem interpretEntry_packEntry (i : ℕ) (role : Role) (hfits : p.Fits)
    (hnew : found.parts role = none) :
    interpretEntry i (packEntry defaultGeometry role p) found = found.add role p.extent := by
  have hvalid := valid_packEntry role p
  have hfirst : (packEntry defaultGeometry role p).getD 0 0 =
      if role = .kernel then 0x80 else 0 := rfl
  have hboot : ¬ ((packEntry defaultGeometry role p).getD 0 0 ≠ 0 ∧
      (packEntry defaultGeometry role p).getD 0 0 ≠ 0x80) := by
    rw [hfirst]
    cases role <;> decide
  have htype : (packEntry defaultGeometry role p).getD 4 0 = role.partType := rfl
  have hoffset : ((packEntry defaultGeometry role p).drop 8).take 4 = toLe 4 p.start := rfl
  have hsize : ((packEntry defaultGeometry role p).drop 12).take 4 = toLe 4 p.sectors := rfl
  have hstart : ofLe (toLe 4 p.start) = p.start := ofLe_toLe hfits.start_lt
  have hsectors : ofLe (toLe 4 p.sectors) = p.sectors := ofLe_toLe hfits.sectors_lt
  simp only [interpretEntry, if_neg hvalid, if_neg hboot, htype, type2role_partType, hnew,
    Option.isSome_none, Bool.false_eq_true, if_false, hoffset, hsize, hstart, hsectors,
    HostPart.extent]

theorem interpretEntry_zeroEntry (i : ℕ) (found : Interpreted) :
    interpretEntry i zeroEntry found = found := rfl

theorem interpretLoop_eq {i k : ℕ}
    (hmbr : EntriesAt mbr i (xs.map (fun x => packEntry defaultGeometry x.1 x.2) ++
      replicate k zeroEntry)) (hnodup : (xs.map Prod.fst).Nodup) (hfits : ∀ x ∈ xs, x.2.Fits)
    (hnew : ∀ x ∈ xs, found.parts x.1 = none) :
    (∀ x ∈ xs, (interpretLoop mbr (xs.length + k) i found).parts x.1 = some x.2.extent) ∧
      (∀ role, role ∉ xs.map Prod.fst →
        (interpretLoop mbr (xs.length + k) i found).parts role = found.parts role) ∧
      (interpretLoop mbr (xs.length + k) i found).warnings = found.warnings := by
  induction xs generalizing i found with
  | nil =>
    have hzero : interpretLoop mbr (0 + k) i found = found := by
      rw [Nat.zero_add]
      induction k generalizing i with
      | zero => rfl
      | succ k ih =>
        obtain ⟨hentry, hmbr⟩ := hmbr
        rw [interpretLoop, hentry, interpretEntry_zeroEntry]
        exact ih hmbr
    rw [List.length_nil, hzero]
    exact ⟨fun x hx => absurd hx not_mem_nil, fun _ _ => rfl, rfl⟩
  | cons x xs ih =>
    obtain ⟨hentry, hmbr⟩ := hmbr
    rw [map_cons, List.nodup_cons] at hnodup
    have hstep := interpretEntry_packEntry i x.1 (hfits x mem_cons_self) (hnew x mem_cons_self)
    have hne : ∀ y ∈ xs, y.1 ≠ x.1 := fun y hy heq => hnodup.1 (heq ▸ List.mem_map_of_mem hy)
    have hnext : ∀ y ∈ xs, (found.add x.1 x.2.extent).parts y.1 = none :=
      fun y hy => (update_of_ne (hne y hy) ..).trans (hnew y (mem_cons_of_mem x hy))
    obtain ⟨hfound, hkeep, hwarn⟩ := ih hmbr hnodup.2
      (fun y hy => hfits y (mem_cons_of_mem x hy)) hnext
    rw [List.length_cons, Nat.succ_add, interpretLoop, hentry, hstep]
    refine ⟨fun y hy => ?_, fun role hrole => ?_, hwarn⟩
    · rcases List.mem_cons.mp hy with rfl | hy
      · exact (hkeep _ hnodup.1).trans (update_self ..)
      · exact hfound y hy
    · rw [map_cons, List.mem_cons, not_or] at hrole
      exact (hkeep role hrole.2).trans (update_of_ne hrole.1 ..)

/-! ### The devices of the kernel -/

def DiskImage.image (d : DiskImage) : ℕ → UInt8 := fun i => d.bytes.getD i 0

def DiskImage.size (d : DiskImage) : ℕ := d.bytes.length / 512

def DiskImage.drive (d : DiskImage) (name : String) : Block := .drive name (BitVec.ofNat 32 d.size)

/-- **A device for a partition** of a drive: it has the type and the size of the partition, and
sector `s` of the device is sector `START + s` of the drive, whatever the drive holds. -/
structure Serves (drive : Block) (x : Role × HostPart) (b : Block) : Prop where
  type_eq : b.type = x.1.blockType
  size_eq : b.size.toNat = x.2.sectors
  start_eq : ∃ name start, b = .partition name b.type b.size drive start ∧ start.toNat = x.2.start
  read_eq : ∀ (image : ℕ → UInt8) (s : BitVec 32), s.toNat < x.2.sectors →
    b.read image s = .ok (slice image (512 * (x.2.start + s.toNat)) 512)
  write_eq : ∀ (image : ℕ → UInt8) (buffer : Bytes) (s : BitVec 32),
    s.toNat < x.2.sectors →
      b.write image buffer s = .ok (patch image (512 * (x.2.start + s.toNat)) buffer)

theorem partitionRole_partType (role : Role) : partitionRole role.partType = role.blockType := by
  cases role <;> decide

theorem offset_add_zero (offset : BitVec 32) : offset + 0 = offset := BitVec.add_zero offset

variable {n : ℕ}

theorem packEntry_inside (name : String) (hn : n < 2 ^ 32) (role : Role) (hfits : p.Fits)
    (hend : p.start + p.sectors ≤ n) :
    ¬ (decodePartition (packEntry defaultGeometry role p)).Empty ∧
      (decodePartition (packEntry defaultGeometry role p)).Inside
        (.drive name (BitVec.ofNat 32 n)) 0 := by
  obtain ⟨htype, hoffset, hsize⟩ := decodePartition_packEntry defaultGeometry role hfits
  have hpos := hfits.sectors_pos
  have hdrive : (Block.drive name (BitVec.ofNat 32 n)).size.toNat = n := by
    rw [Block.size, BitVec.toNat_ofNat, Nat.mod_eq_of_lt hn]
  refine ⟨?_, ?_, ?_, ?_⟩
  · rintro (hzero | hzero)
    · have hnat := congrArg BitVec.toNat hzero
      rw [hsize] at hnat
      exact hpos.ne' hnat
    · rw [htype] at hzero
      cases role <;> cases hzero
  · rw [htype]
    cases role <;> decide
  · rw [offset_add_zero, BitVec.lt_def, hoffset, hdrive]
    omega
  · rw [offset_add_zero, hoffset, hsize, hdrive]
    exact hend

theorem serves_packEntry (name partName : String) (hn : n < 2 ^ 32) (role : Role) (hfits : p.Fits)
    (hend : p.start + p.sectors ≤ n) :
    Serves (.drive name (BitVec.ofNat 32 n)) (role, p)
      (.partition partName (partitionRole (decodePartition (packEntry defaultGeometry role p)).type)
        (decodePartition (packEntry defaultGeometry role p)).size (.drive name (BitVec.ofNat 32 n))
        ((decodePartition (packEntry defaultGeometry role p)).offset + 0)) := by
  obtain ⟨htype, hoffset, hsize⟩ := decodePartition_packEntry defaultGeometry role hfits
  obtain ⟨-, hinside⟩ := packEntry_inside name hn role hfits hend
  rw [htype, partitionRole_partType, offset_add_zero]
  have hle := hinside.end_le
  rw [offset_add_zero, Block.size] at hle
  have hforeign : role.blockType ≠ .foreign := by cases role <;> decide
  have hlt : ∀ s : BitVec 32, s.toNat < p.sectors →
      s < (decodePartition (packEntry defaultGeometry role p)).size := by
    intro s hs
    rw [BitVec.lt_def, hsize]
    exact hs
  refine ⟨rfl, hsize, ⟨partName, _, rfl, hoffset⟩, fun image s hs => ?_,
    fun image buffer s hs => ?_⟩
  · rw [Block.read_partition (hlt s hs) hle, hoffset]
  · rw [Block.write_partition (hlt s hs) hle hforeign, hoffset]

theorem tableDevices_zeroEntry (block : Block) (sector : BitVec 32) (nr k : ℕ) :
    tableDevices block sector nr ((replicate k zeroEntry).map decodePartition) = [] := by
  induction k with
  | zero => rfl
  | succ k ih => exact ih

theorem tableDevices_serve (name : String) (hn : n < 2 ^ 32)
    (hin : ∀ x ∈ xs, x.2.Fits ∧ x.2.start + x.2.sectors ≤ n) (nr k : ℕ) :
    List.Forall₂ (Serves (.drive name (BitVec.ofNat 32 n))) xs
      (tableDevices (.drive name (BitVec.ofNat 32 n)) 0 nr
        ((xs.map (fun x => packEntry defaultGeometry x.1 x.2) ++
          replicate k zeroEntry).map decodePartition)) := by
  induction xs generalizing nr with
  | nil =>
    rw [map_nil, nil_append, tableDevices_zeroEntry]
    exact .nil
  | cons x xs ih =>
    obtain ⟨hfits, hend⟩ := hin x mem_cons_self
    have hne := (packEntry_inside name hn x.1 hfits hend).1
    rw [map_cons, List.cons_append, map_cons, tableDevices, if_neg hne]
    exact .cons (serves_packEntry name _ hn x.1 hfits hend)
      (ih (fun y hy => hin y (mem_cons_of_mem x hy)) (nr + 1))

/-! ### The whole disk -/

theorem mem_placed (h : x ∈ placed disk t xs) : ∃ y ∈ xs, ∃ u, x = (y.1, y.2.placeAt disk u) := by
  induction xs generalizing t with
  | nil => exact absurd h not_mem_nil
  | cons y ys ih =>
    rcases List.mem_cons.mp h with rfl | h
    · exact ⟨y, mem_cons_self, t, rfl⟩
    · obtain ⟨z, hz, u, rfl⟩ := ih h
      exact ⟨z, mem_cons_of_mem y hz, u, rfl⟩

theorem exists_placed {y : Role × HostPart} (disk : String) (t : ℕ) (h : y ∈ xs) :
    ∃ u, (y.1, y.2.placeAt disk u) ∈ placed disk t xs := by
  induction xs generalizing t with
  | nil => exact absurd h not_mem_nil
  | cons z zs ih =>
    rcases List.mem_cons.mp h with rfl | h
    · exact ⟨t, mem_cons_self⟩
    · obtain ⟨u, hu⟩ := ih (t + divRoundUp z.2.bytes 512) h
      exact ⟨u, mem_cons_of_mem _ hu⟩

theorem readable_placed (hread : ∀ y ∈ xs, y.2.Readable) (hx : x ∈ placed disk t xs) :
    x.2.Readable ∧ x.2.bytes ≤ 512 * x.2.sectors := by
  obtain ⟨y, hy, u, rfl⟩ := mem_placed hx
  have hroom : y.2.bytes ≤ 512 * divRoundUp y.2.bytes 512 := by
    rw [divRoundUp]
    omega
  exact ⟨⟨(hread y hy).opens, (hread y hy).enough⟩, hroom⟩

theorem parts_eq_of_placed {parts' : HostParts}
    (h : chosen parts' roleOrder = placed disk t (chosen parts roleOrder)) (role : Role) :
    ∃ u, parts' role = (parts role).map fun p => p.placeAt disk u := by
  cases hp : parts role with
  | none =>
    refine ⟨0, ?_⟩
    cases hp' : parts' role with
    | none => rfl
    | some p' =>
      have hmem := mem_chosen.mpr ⟨mem_roleOrder role, hp'⟩
      rw [h] at hmem
      obtain ⟨y, hy, u, heq⟩ := mem_placed hmem
      obtain ⟨hrole, -⟩ := Prod.mk.inj heq
      have hsome := (mem_chosen.mp hy).2
      rw [← hrole, hp] at hsome
      cases hsome
  | some p =>
    have hmem := mem_chosen.mpr ⟨mem_roleOrder role, hp⟩
    obtain ⟨u, hu⟩ := exists_placed disk t hmem
    rw [← h] at hu
    exact ⟨u, (mem_chosen.mp hu).2⟩

/-- **What a disk can be made from**: partitions that have no place yet, with contents that can be
read, and arguments that fit into the MBR. -/
structure DiskArgs.Sound (a : DiskArgs) : Prop where
  fresh : ∀ x ∈ chosen a.parts roleOrder, x.2.disk = none
  args : (joinArgs a.args).length ≤ 128
  readable : ∀ x ∈ chosen a.parts roleOrder, x.2.Readable

theorem length_packA (len : ℕ) (bytes : Bytes) : (packA len bytes).length = len := by
  rw [packA, length_append, List.length_take, length_replicate]
  omega

theorem length_tableEntries (geometry : Geometry) (hxs : xs.length ≤ 4) :
    (tableEntries geometry xs).length = 4 := by
  rw [tableEntries, length_append, List.length_map, length_replicate]
  omega

theorem length_flatten_tableEntries (geometry : Geometry) (hxs : xs.length ≤ 4) :
    (tableEntries geometry xs).flatten.length = 64 := by
  have hall : (tableEntries geometry xs).map length = replicate 4 16 := by
    refine List.eq_replicate_iff.mpr ⟨?_, fun n hn => ?_⟩
    · rw [List.length_map, length_tableEntries geometry hxs]
    · obtain ⟨entry, hentry, rfl⟩ := List.mem_map.mp hn
      exact length_of_mem_tableEntries hentry
  rw [List.length_flatten, hall, List.sum_replicate]
  rfl

theorem makeMbr_eq (hargs : (joinArgs a.args).length ≤ 128) (parts : HostParts) :
    ∃ before : Bytes, before.length = 446 ∧ makeMbr a parts =
      .ok (before ++ ((tableEntries defaultGeometry (chosen parts roleOrder)).flatten ++
        toLe 2 0xaa55)) := by
  have htable := length_flatten_tableEntries defaultGeometry (length_chosen_le parts roleOrder)
  have hline : makeKernelCommandLine a.args = some (toLe 4 a.args.length ++
      (joinArgs a.args ++ replicate (128 - (joinArgs a.args).length) 0)) :=
    if_neg (Nat.not_lt.mpr hargs)
  refine ⟨packA 314 (loaderOrDefault a.loader) ++ (toLe 4 a.args.length ++
    (joinArgs a.args ++ replicate (128 - (joinArgs a.args).length) 0)), ?_, ?_⟩
  · simp only [length_append, length_packA, length_toLe, length_replicate]
    omega
  · simp only [makeMbr, hline, makePartitionTable_eq, Except.bind]
    rw [if_neg, append_assoc]
    simp only [length_append, length_packA, length_toLe, length_replicate, htable]
    omega

def padSectors (t : ℕ) : ℕ := perlRoundUp t (cylSectors defaultGeometry) - t

theorem assembleDisk_bochs (halign : a.align = .bochs) (hformat : a.format = .partitioned) :
    assembleDisk a = (placeParts a.disk false roleOrder 1 a.parts).bind fun x =>
      (makeMbr a x.2).bind fun mbr => (copyParts x.2 roleOrder).bind fun body =>
        .ok ⟨mbr ++ body ++ replicate (padSectors x.1 * 512) 0, x.2⟩ := by
  have hboot : ∀ parts, bootSectors a false parts = makeMbr a parts := by
    intro parts
    simp only [bootSectors, hformat, Bool.false_eq_true, if_false, List.append_nil]
    cases makeMbr a parts <;> rfl
  have hfull : decide (DiskAlign.bochs = .full) = false := rfl
  simp only [assembleDisk, halign, hformat, hfull, hboot, writeZeros_eq]
  rfl

theorem assembleDisk_eq (halign : a.align = .bochs) (hformat : a.format = .partitioned)
    (hsound : a.Sound) :
    ∃ (parts : HostParts) (before : Bytes), before.length = 446 ∧
      chosen parts roleOrder = placed a.disk 1 (chosen a.parts roleOrder) ∧
      assembleDisk a = .ok ⟨before ++
        ((tableEntries defaultGeometry (chosen parts roleOrder)).flatten ++ toLe 2 0xaa55) ++
        ((chosen parts roleOrder).flatMap fun x => x.2.data) ++ replicate
          (padSectors (1 + totalSectors (chosen a.parts roleOrder)) * 512) 0, parts⟩ := by
  obtain ⟨parts, hplace, hchosen, -⟩ :=
    placeParts_eq a.disk 1 (by decide : roleOrder.Nodup) hsound.fresh
  obtain ⟨before, hbefore, hmbr⟩ := makeMbr_eq hsound.args parts
  have hread : ∀ x ∈ chosen parts roleOrder, x.2.Readable := by
    rw [hchosen]
    exact fun x hx => (readable_placed hsound.readable hx).1
  refine ⟨parts, before, hbefore, hchosen, ?_⟩
  rw [assembleDisk_bochs halign hformat, hplace, Except.bind, hmbr, Except.bind, copyParts_eq hread]
  rfl

theorem assembleDisk_error (halign : a.align = .bochs) (hformat : a.format = .partitioned)
    (hsound : ¬ a.Sound) : ∃ e, assembleDisk a = .error e := by
  rw [assembleDisk_bochs halign hformat]
  by_cases hfresh : ∀ x ∈ chosen a.parts roleOrder, x.2.disk = none
  · obtain ⟨parts, hplace, hchosen, -⟩ :=
      placeParts_eq a.disk 1 (by decide : roleOrder.Nodup) hfresh
    rw [hplace, Except.bind]
    by_cases hargs : (joinArgs a.args).length ≤ 128
    · obtain ⟨before, -, hmbr⟩ := makeMbr_eq hargs parts
      have hbad : ∃ x ∈ chosen parts roleOrder, ¬ x.2.Readable := by
        by_contra hall
        refine hsound ⟨hfresh, hargs, fun y hy => ?_⟩
        obtain ⟨u, hu⟩ := exists_placed a.disk 1 hy
        rw [← hchosen] at hu
        have hread := not_not.mp fun hnot => hall ⟨_, hu, hnot⟩
        exact ⟨hread.opens, hread.enough⟩
      obtain ⟨e, he⟩ := copyParts_error hbad
      rw [hmbr, Except.bind, he]
      exact ⟨e, rfl⟩
    · have hline : makeKernelCommandLine a.args = none := if_pos (Nat.not_le.mp hargs)
      have hmbr : makeMbr a parts = .error .commandLine := by rw [makeMbr, hline]
      rw [hmbr]
      exact ⟨.commandLine, rfl⟩
  · have hbad : ∃ x ∈ chosen a.parts roleOrder, x.2.disk ≠ none := by
      by_contra hall
      exact hfresh fun x hx => not_not.mp fun hnot => hall ⟨x, hx, hnot⟩
    obtain ⟨e, he⟩ := placeParts_error (by decide : roleOrder.Nodup) hbad
    rw [he]
    exact ⟨e, rfl⟩

def HostPart.span (p : HostPart) : Set ℕ := Set.Ico p.start (p.start + p.sectors)

theorem Consecutive.disjoint (h : Consecutive t xs u) :
    xs.Pairwise fun x y => Disjoint x.2.span y.2.span := by
  refine h.pairwise.imp fun {x y} hle => ?_
  rw [HostPart.span, HostPart.span, Set.Ico_disjoint_Ico]
  omega

/-- **A disk whose partition table is read back**, by the host and by the kernel. -/
structure ReadBack (a : DiskArgs) (d : DiskImage) : Prop where
  parts_eq : ∀ role, ∃ t, d.parts role = (a.parts role).map fun p => p.placeAt a.disk t
  padded : d.bytes.length = 512 * d.size ∧ cylSectors defaultGeometry ∣ d.size ∧ d.size < 2 ^ 32
  disjoint : ∀ role role' p p', role ≠ role' → d.parts role = some p → d.parts role' = some p' →
    Disjoint p.span p'.span
  boot_notMem : ∀ role p, d.parts role = some p → 0 ∉ p.span
  inside : ∀ role p, d.parts role = some p → p.span ⊆ Set.Iio d.size
  host : interpretPartitionTable (d.bytes.take 512) =
    ⟨fun role => (d.parts role).map HostPart.extent, []⟩
  kernel : ∀ (name : String) (depth : ℕ) (s : ScanState),
    ReturnsIff (partitionScan d.image (depth + 1) (d.drive name)) s
      (s.Memory (2 * (chosen d.parts roleOrder).length + 1)) ScanPanic.OutOfMemory fun _ t =>
        ∃ devices, t.blocks = s.blocks ++ devices ∧
          List.Forall₂ (Serves (d.drive name)) (chosen d.parts roleOrder) devices

theorem nodup_fst_chosen (parts : HostParts) (hnodup : roles.Nodup) :
    ((chosen parts roles).map Prod.fst).Nodup := by
  have hsub : ((chosen parts roles).map Prod.fst).Sublist roles := by
    clear hnodup
    induction roles with
    | nil => exact .slnil
    | cons role roles ih =>
      cases hp : parts role with
      | none =>
        rw [chosen_cons_none hp]
        exact ih.cons role
      | some p =>
        rw [chosen_cons_some hp]
        exact ih.cons_cons role
  exact hsub.nodup hnodup

theorem interpretPartitionTable_eq
    (hmbr : EntriesAt mbr 0 (tableEntries defaultGeometry (chosen parts roleOrder)))
    (hfits : ∀ x ∈ chosen parts roleOrder, x.2.Fits) :
    interpretPartitionTable mbr = ⟨fun role => (parts role).map HostPart.extent, []⟩ := by
  have hfour : (chosen parts roleOrder).length + (4 - (chosen parts roleOrder).length) = 4 :=
    Nat.add_sub_cancel' (length_chosen_le parts roleOrder)
  have hnew : ∀ x ∈ chosen parts roleOrder,
      (⟨fun _ => none, []⟩ : Interpreted).parts x.1 = none := fun _ _ => rfl
  obtain ⟨hfound, hkeep, hwarn⟩ :=
    interpretLoop_eq hmbr (nodup_fst_chosen parts (by decide)) hfits hnew
  rw [hfour] at hfound hkeep hwarn
  have hparts : ∀ role, (interpretPartitionTable mbr).parts role =
      (parts role).map HostPart.extent := by
    intro role
    cases hp : parts role with
    | none =>
      refine hkeep role fun hmem => ?_
      obtain ⟨x, hx, rfl⟩ := List.mem_map.mp hmem
      have hsome := (mem_chosen.mp hx).2
      rw [hp] at hsome
      cases hsome
    | some p => exact hfound (role, p) (mem_chosen.mpr ⟨mem_roleOrder role, hp⟩)
  exact Interpreted.ext (funext hparts) hwarn

theorem slice_diskImage (d : DiskImage) {m : ℕ} (hm : m ≤ d.bytes.length) :
    slice d.image 0 m = d.bytes.take m := by
  refine List.ext_getElem ?_ fun i h₁ h₂ => ?_
  · rw [length_slice, List.length_take, Nat.min_eq_left hm]
  · rw [length_slice] at h₁
    rw [getElem_slice, List.getElem_take, DiskImage.image, Nat.zero_add,
      List.getD_eq_getElem _ _ (by omega)]

theorem perlRoundUp_spec (x : ℕ) {y : ℕ} (hy : 0 < y) :
    x ≤ perlRoundUp x y ∧ perlRoundUp x y < x + y ∧ y ∣ perlRoundUp x y := by
  have hdiv := Nat.div_add_mod (x + y - 1) y
  have hmod := Nat.mod_lt (x + y - 1) hy
  rw [perlRoundUp, divRoundUp, Nat.mul_comm]
  exact ⟨by omega, by omega, Nat.dvd_mul_right ..⟩

theorem partitionScan_serves (name : String) (depth : ℕ) (s : ScanState)
    (hlen : d.bytes.length = 512 * d.size) (hpos : 0 < d.size) (hsize : d.size < 2 ^ 32)
    (hentries : EntriesAt (d.bytes.take 512) 0
      (tableEntries defaultGeometry (chosen d.parts roleOrder)))
    (hsignature : tableSignature (d.bytes.take 512) = 0xaa55)
    (hin : ∀ x ∈ chosen d.parts roleOrder, x.2.Fits ∧ x.2.start + x.2.sectors ≤ d.size) :
    ReturnsIff (partitionScan d.image (depth + 1) (d.drive name)) s
      (s.Memory (2 * (chosen d.parts roleOrder).length + 1)) ScanPanic.OutOfMemory fun _ t =>
        ∃ devices, t.blocks = s.blocks ++ devices ∧
          List.Forall₂ (Serves (d.drive name)) (chosen d.parts roleOrder) devices := by
  have hserve := tableDevices_serve name hsize hin 0 (4 - (chosen d.parts roleOrder).length)
  have hdrive : 0 < (d.drive name).size := by
    rw [BitVec.lt_def, DiskImage.drive, Block.size, BitVec.toNat_ofNat, Nat.mod_eq_of_lt hsize]
    exact hpos
  have hread : (d.drive name).read d.image 0 = .ok (d.bytes.take 512) := by
    have hcheck := Block.checkSector_of_lt hdrive
    rw [← slice_diskImage d (by omega), DiskImage.drive, Block.read, ← DiskImage.drive, hcheck]
    rfl
  have hinside : ∀ bytes ∈ tableEntries defaultGeometry (chosen d.parts roleOrder),
      (decodePartition bytes).Empty ∨ (decodePartition bytes).Inside (d.drive name) 0 := by
    intro bytes hbytes
    rcases List.mem_append.mp hbytes with hmem | hmem
    · obtain ⟨x, hx, rfl⟩ := List.mem_map.mp hmem
      exact .inr (packEntry_inside name hsize x.1 (hin x hx).1 (hin x hx).2).2
    · rw [List.eq_of_mem_replicate hmem]
      exact .inl (.inr rfl)
  rw [hserve.length_eq]
  refine (partitionScan_returnsIff depth hread hdrive hsignature
    (length_tableEntries _ (length_chosen_le d.parts roleOrder)) hentries hinside).mono ?_
  exact fun _ t ht => ⟨_, ht, hserve⟩

theorem readBack_of_consecutive {before rest : Bytes}
    (hparts : ∀ role, ∃ t, d.parts role = (a.parts role).map fun p => p.placeAt a.disk t)
    (hbefore : before.length = 446) (hbytes : d.bytes = before ++
      ((tableEntries defaultGeometry (chosen d.parts roleOrder)).flatten ++ toLe 2 0xaa55) ++ rest)
    (hlen : d.bytes.length = 512 * perlRoundUp u (cylSectors defaultGeometry))
    (hplaces : Consecutive 1 (chosen d.parts roleOrder) u) (hu : u < 2 ^ 31 + 2 ^ 30) :
    ReadBack a d := by
  obtain ⟨hle, hlt, hdvd⟩ := perlRoundUp_spec u (by decide : 0 < cylSectors defaultGeometry)
  have hcyl : cylSectors defaultGeometry = 1008 := rfl
  have hsize : d.size = perlRoundUp u (cylSectors defaultGeometry) := by
    rw [DiskImage.size, hlen, Nat.mul_div_cancel_left _ (by decide)]
  have hbounds := hplaces.bounds
  have hmem : ∀ {role p}, d.parts role = some p → (role, p) ∈ chosen d.parts roleOrder :=
    fun hp => mem_chosen.mpr ⟨mem_roleOrder _, hp⟩
  have hpart : ∀ {role p}, d.parts role = some p →
      1 ≤ p.start ∧ 0 < p.sectors ∧ p.start + p.sectors ≤ u := fun hp => hbounds _ (hmem hp)
  have hone := hplaces.le
  have hfits : ∀ x ∈ chosen d.parts roleOrder, x.2.Fits := by
    intro x hx
    have := hbounds x hx
    exact ⟨by omega, by omega, by omega⟩
  have htable := length_flatten_tableEntries defaultGeometry (length_chosen_le d.parts roleOrder)
  have htake : d.bytes.take 512 = before ++
      ((tableEntries defaultGeometry (chosen d.parts roleOrder)).flatten ++ toLe 2 0xaa55) := by
    rw [hbytes, List.take_left']
    rw [length_append, length_append, hbefore, htable, length_toLe]
  have hentries : EntriesAt (d.bytes.take 512) 0
      (tableEntries defaultGeometry (chosen d.parts roleOrder)) :=
    entriesAt_of_eq htake hbefore fun _ => length_of_mem_tableEntries
  have hsignature : tableSignature (d.bytes.take 512) = 0xaa55 := by
    rw [tableSignature, htake, ← append_assoc, List.drop_left', List.take_of_length_le]
    · exact ofLe_toLe (by decide)
    · rw [length_toLe]
    · rw [length_append, hbefore, htable]
  refine ⟨hparts, ⟨?_, ?_, ?_⟩, ?_, ?_, ?_, ?_, ?_⟩
  · rw [hsize, hlen]
  · rw [hsize]
    exact hdvd
  · omega
  · intro role role' p p' hne hp hp'
    exact hplaces.disjoint.forall (hmem hp) (hmem hp') fun heq => hne (Prod.mk.inj heq).1
  · rintro role p hp ⟨hstart, -⟩
    have := (hpart hp).1
    omega
  · rintro role p hp n ⟨-, hn⟩
    have := (hpart hp).2.2
    rw [Set.mem_Iio]
    omega
  · exact interpretPartitionTable_eq hentries hfits
  · intro name depth s
    have hin : ∀ x ∈ chosen d.parts roleOrder,
        x.2.Fits ∧ x.2.start + x.2.sectors ≤ d.size := by
      intro x hx
      have := hbounds x hx
      exact ⟨hfits x hx, by omega⟩
    exact partitionScan_serves name depth s (by rw [hsize, hlen]) (by omega) (by omega)
      hentries hsignature hin

/-- **Partition tables made by the host are read back by the host and by the kernel**, with the
default alignment and sound arguments. -/
theorem partition_tables_agree (a : DiskArgs) (halign : a.align = .bochs)
    (hformat : a.format = .partitioned) (hpos : ∀ role p, a.parts role = some p → 0 < p.bytes)
    (htotal : ((chosen a.parts roleOrder).map fun x => x.2.bytes).sum < 512 * 2 ^ 31) :
    (a.Sound → ∃ d, assembleDisk a = .ok d ∧ ReadBack a d) ∧
      (¬ a.Sound → ∃ e, assembleDisk a = .error e) := by
  refine ⟨fun hsound => ?_, assembleDisk_error halign hformat⟩
  obtain ⟨parts, before, hbefore, hchosen, hmade⟩ := assembleDisk_eq halign hformat hsound
  have hplaces : Consecutive 1 (chosen parts roleOrder)
      (1 + totalSectors (chosen a.parts roleOrder)) := by
    rw [hchosen]
    exact consecutive_placed fun x hx => hpos x.1 x.2 (mem_chosen.mp hx).2
  have hdata : ((chosen parts roleOrder).flatMap fun x => x.2.data).length =
      512 * totalSectors (chosen a.parts roleOrder) := by
    have hall : ∀ x ∈ chosen parts roleOrder, x.2.Readable ∧ x.2.bytes ≤ 512 * x.2.sectors := by
      rw [hchosen]
      exact fun x hx => readable_placed hsound.readable hx
    rw [hplaces.length_data (fun x hx => (hall x hx).1) fun x hx => (hall x hx).2,
      Nat.add_sub_cancel_left]
  have htable := length_flatten_tableEntries defaultGeometry (length_chosen_le parts roleOrder)
  have hround := (perlRoundUp_spec (1 + totalSectors (chosen a.parts roleOrder))
    (by decide : 0 < cylSectors defaultGeometry)).1
  refine ⟨_, hmade, readBack_of_consecutive (parts_eq_of_placed hchosen) hbefore
    (append_assoc ..) ?_ hplaces ?_⟩
  · simp only [length_append, hbefore, htable, length_toLe, hdata, length_replicate, padSectors]
    omega
  · have hle := totalSectors_le (chosen a.parts roleOrder)
    have hfour := length_chosen_le a.parts roleOrder
    have hroles : roleOrder.length = 4 := rfl
    omega

def kernelAndSwap : DiskArgs where
  disk := "os.dsk"
  parts
    | .kernel => some ⟨.contents [1, 2, 3], 1, 2, none, 0, 0⟩
    | .swap => some ⟨.zeros, 0, 2 ^ 30, none, 0, 0⟩
    | _ => none
  align := .bochs
  format := .partitioned
  loader := []
  args := []

theorem chosen_kernelAndSwap : chosen kernelAndSwap.parts roleOrder =
    [(.kernel, ⟨.contents [1, 2, 3], 1, 2, none, 0, 0⟩),
      (.swap, ⟨.zeros, 0, 2 ^ 30, none, 0, 0⟩)] := rfl

theorem sound_kernelAndSwap : kernelAndSwap.Sound := by
  refine ⟨?_, Nat.zero_le _, ?_⟩
  · rw [chosen_kernelAndSwap]
    simp
  · rw [chosen_kernelAndSwap]
    rintro x hx
    rcases List.mem_pair.mp hx with rfl | rfl
    · exact ⟨by simp, rfl⟩
    · exact ⟨by simp, length_replicate⟩

/-- A disk with a kernel and a swap partition. -/
theorem partition_tables_agree_kernelAndSwap :
    ∃ d, assembleDisk kernelAndSwap = .ok d ∧ ReadBack kernelAndSwap d := by
  refine (partition_tables_agree kernelAndSwap rfl rfl ?_ ?_).1 sound_kernelAndSwap
  · rintro role p hp
    rcases List.mem_pair.mp (chosen_kernelAndSwap ▸ mem_chosen.mpr ⟨mem_roleOrder role, hp⟩)
      with heq | heq
    · obtain ⟨-, rfl⟩ := Prod.mk.inj heq
      exact Nat.two_pos
    · obtain ⟨-, rfl⟩ := Prod.mk.inj heq
      exact Nat.two_pow_pos 30
  · rw [chosen_kernelAndSwap]
    norm_num

end

end OsMaterial
