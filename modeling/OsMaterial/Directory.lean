import OsMaterial.FreeMap

/-!
# Directories and the File System Calls

`filesys/directory.c` and `filesys/filesys.c`. A directory is a file of entries of 20 bytes: the
inode sector, a name of at most 14 bytes, and whether it is in use. All searches are one loop over
the entries (`scanEntries`), which ends at the first short read.

* `scanEntries_found`, `dirReaddir_found`: a search stops at the **first entry** it looks for.
-/

namespace OsMaterial

open List

/-! ### Names and entries -/

def strlcpy (dst : Bytes) (src : CString) : Bytes :=
  let dstLen := if src.bytes.length < dst.length - 1 then src.bytes.length else dst.length - 1
  src.bytes.take dstLen ++ 0 :: dst.drop (dstLen + 1)

structure DirEntry where
  inodeSector : ℕ
  name : Bytes
  inUse : Bool
  deriving DecidableEq

def encodeEntry (e : DirEntry) : Bytes :=
  toLe 4 e.inodeSector ++ e.name ++ [if e.inUse then 1 else 0]

def decodeEntry (bytes : Bytes) : DirEntry where
  inodeSector := ofLe (bytes.take 4)
  name := (bytes.drop 4).take 15
  inUse := bytes.getD 19 0 ≠ 0

def CString.Valid (name : CString) : Prop :=
  name.bytes ≠ [] ∧ name.bytes.length ≤ 14

instance CString.decidableValid (name : CString) : Decidable name.Valid :=
  inferInstanceAs (Decidable (_ ∧ _))

variable {e : DirEntry} {i n : ℕ} {dst : Bytes} {src : CString}

theorem length_encodeEntry (hname : e.name.length = 15) : (encodeEntry e).length = 20 := by
  simp [encodeEntry, hname]

theorem name_decodeEntry_encodeEntry (hname : e.name.length = 15) :
    (decodeEntry (encodeEntry e)).name = e.name := by
  simp [decodeEntry, encodeEntry, hname]

theorem inUse_decodeEntry_encodeEntry (hname : e.name.length = 15) :
    (decodeEntry (encodeEntry e)).inUse = e.inUse := by
  have hflag : (encodeEntry e).getD 19 0 = if e.inUse then 1 else 0 := by
    simp [encodeEntry, getD, hname]
  rw [decodeEntry, hflag]
  simp

/-- **An entry is read back** as it was written. -/
theorem decodeEntry_encodeEntry (hname : e.name.length = 15) (hsector : e.inodeSector < wordSize) :
    decodeEntry (encodeEntry e) = e := by
  have hread : (decodeEntry (encodeEntry e)).inodeSector = e.inodeSector := by
    have htake : (encodeEntry e).take 4 = toLe 4 e.inodeSector := by simp [encodeEntry]
    rw [decodeEntry, htake, ofLe_toLe hsector]
  have hname' := name_decodeEntry_encodeEntry hname
  have huse := inUse_decodeEntry_encodeEntry hname
  generalize decodeEntry (encodeEntry e) = e' at *
  cases e
  cases e'
  rw [DirEntry.mk.injEq]
  exact ⟨hread, hname', huse⟩

theorem length_strlcpy (src : CString) (hdst : 0 < dst.length) :
    (strlcpy dst src).length = dst.length := by
  simp only [strlcpy, length_append, length_take, length_cons, length_drop]
  split_ifs <;> omega

theorem strlcpy_eq (hsrc : src.bytes.length < dst.length) :
    strlcpy dst src = src.bytes ++ 0 :: dst.drop (src.bytes.length + 1) := by
  have hlen : (if src.bytes.length < dst.length - 1 then src.bytes.length else dst.length - 1) =
      src.bytes.length := by
    split_ifs <;> omega
  simp only [strlcpy, hlen, take_length]

theorem cstring_strlcpy (hsrc : src.bytes.length < dst.length) :
    cstring (strlcpy dst src) = src.bytes := by
  rw [strlcpy_eq hsrc, cstring_append]

theorem CString.Valid.strlcpy (hvalid : src.Valid) (hdst : dst.length = 15) :
    (strlcpy dst src).length = 15 ∧ cstring (strlcpy dst src) = src.bytes := by
  have := hvalid.2
  exact ⟨by rw [length_strlcpy src (by omega), hdst], cstring_strlcpy (by omega)⟩

/-! ### Directories -/

structure Dir where
  inode : ℕ
  pos : ℕ
  deriving DecidableEq

/-- `dir_create`. -/
def dirCreate (sector entryCnt : ℕ) : Fs Bool :=
  inodeCreate sector (entryCnt * 20 : ℕ)

/-- `dir_open`. -/
def dirOpen (inode : Option ℕ) : Fs (Option Dir) := do
  let dir ← malloc
  match inode, dir with
  | some inode, true => return some { inode, pos := 0 }
  | inode, _ =>
    inodeClose inode
    return none

/-- `dir_open_root`. -/
def dirOpenRoot : Fs (Option Dir) := do
  dirOpen (← inodeOpen 1)

/-- `dir_reopen`. -/
def dirReopen (dir : Dir) : Fs (Option Dir) := do
  dirOpen (some (← inodeReopen dir.inode))

/-- `dir_close`. -/
def dirClose (dir : Option Dir) : Fs Unit := do
  match dir with
  | none => return ()
  | some dir => inodeClose (some dir.inode)

/-- The loop over the entries, left at the first that `stop` holds of: whether there was one, the
entry read last, and its offset. -/
def scanLoop (inode : ℕ) (stop : DirEntry → Bool) :
    (rounds ofs : ℕ) → DirEntry → Fs (Bool × DirEntry × ℕ)
  | 0, ofs, e => return (false, e, ofs)
  | rounds + 1, ofs, e => do
      let bytes ← inodeReadAt inode 20 ofs
      let e := decodeEntry (overwrite (encodeEntry e) 0 bytes)
      if bytes.length = 20 then
        if stop e then
          return (true, e, ofs)
        else
          scanLoop inode stop rounds (ofs + 20) e
      else
        return (false, e, ofs)

/-- The loop over the entries of a directory; it has one round for each, and one for the
short read. An entry that was never read is taken to be zero. -/
def scanEntries (inode : ℕ) (stop : DirEntry → Bool) : Fs (Bool × DirEntry × ℕ) := do
  let ino ← inodeAt inode
  scanLoop inode stop (ino.data.length.toNat / 20 + 1) 0
    { inodeSector := 0, name := replicate 15 0, inUse := false }

def DirEntry.Matches (e : DirEntry) (name : CString) : Bool :=
  e.inUse && decide (name.bytes = cstring e.name)

def lookup (dir : Dir) (name : CString) : Fs (Option (DirEntry × ℕ)) := do
  let (found, e, ofs) ← scanEntries dir.inode fun e => e.Matches name
  return if found then some (e, ofs) else none

/-- `dir_lookup`. -/
def dirLookup (dir : Dir) (name : CString) : Fs (Option ℕ) := do
  match ← lookup dir name with
  | some (e, _) => inodeOpen e.inodeSector
  | none => return none

/-- `dir_add`. -/
def dirAdd (dir : Dir) (name : CString) (inodeSector : ℕ) : Fs Bool := do
  if name.Valid then
    match ← lookup dir name with
    | some _ => return false
    | none =>
      let (_, e, ofs) ← scanEntries dir.inode fun e => !e.inUse
      let e := { e with inUse := true, name := strlcpy e.name name, inodeSector }
      let written ← inodeWriteAt dir.inode (encodeEntry e) ofs
      return written = 20
  else
    return false

/-- `dir_remove`. -/
def dirRemove (dir : Dir) (name : CString) : Fs Bool := do
  match ← lookup dir name with
  | none => return false
  | some (e, ofs) =>
    match ← inodeOpen e.inodeSector with
    | none => return false
    | some inode =>
      let e := { e with inUse := false }
      let written ← inodeWriteAt dir.inode (encodeEntry e) ofs
      if written = 20 then
        inodeRemove inode
        inodeClose (some inode)
        return true
      else
        inodeClose (some inode)
        return false

/-- The loop of `dir_readdir`: the name in the first entry from `pos` on that is in use, if
there is one, and the position after it. -/
def readdirLoop (inode : ℕ) : (rounds pos : ℕ) → Fs (Option Bytes × ℕ)
  | 0, pos => return (none, pos)
  | rounds + 1, pos => do
      let bytes ← inodeReadAt inode 20 pos
      if bytes.length = 20 then
        let e := decodeEntry bytes
        if e.inUse then
          return (some ((cstring e.name).take 14), pos + 20)
        else
          readdirLoop inode rounds (pos + 20)
      else
        return (none, pos)

/-- `dir_readdir`. -/
def dirReaddir (dir : Dir) : Fs (Option Bytes × Dir) := do
  let ino ← inodeAt dir.inode
  let (name, pos) ← readdirLoop dir.inode (ino.data.length.toNat / 20 + 1) dir.pos
  return (name, { dir with pos })

/-! ### The entries of a directory -/

namespace InodeDisk

def slots (data : InodeDisk) : ℕ := data.length.toNat / 20

def entry (data : InodeDisk) (disk : ℕ → UInt8) (i : ℕ) : DirEntry :=
  decodeEntry (slice disk (512 * data.start + 20 * i) 20)

inductive Found (data : InodeDisk) (disk : ℕ → UInt8) (stop : DirEntry → Bool) (i : ℕ) :
    Option ℕ → Prop
  | entry {j : ℕ} (lt : j < data.slots) (le : i ≤ j) (stops : stop (data.entry disk j) = true)
      (first : ∀ k, i ≤ k → k < j → stop (data.entry disk k) = false) :
      Found data disk stop i (some j)
  | none (rest : ∀ j < data.slots, i ≤ j → stop (data.entry disk j) = false) :
      Found data disk stop i none

def Scan (data : InodeDisk) (disk : ℕ → UInt8) : Option ℕ → Bool × DirEntry × ℕ → Prop
  | some j, q => q = (true, data.entry disk j, 20 * j)
  | none, q => ∃ e, q = (false, e, 20 * data.slots)

def listed (data : InodeDisk) (disk : ℕ → UInt8) : Option ℕ → Option Bytes × ℕ
  | some j => (some ((cstring (data.entry disk j).name).take 14), 20 * (j + 1))
  | none => (none, 20 * data.slots)

theorem Found.step {data : InodeDisk} {disk : ℕ → UInt8} {stop : DirEntry → Bool} {r : Option ℕ}
    (h : data.Found disk stop (i + 1) r) (hi : stop (data.entry disk i) = false) :
    data.Found disk stop i r := by
  have hbefore : ∀ k, i ≤ k → (i + 1 ≤ k → stop (data.entry disk k) = false) →
      stop (data.entry disk k) = false := by
    intro k hik hk
    rcases Nat.eq_or_lt_of_le hik with rfl | hlt
    · exact hi
    · exact hk hlt
  cases h with
  | entry lt le stops first =>
    exact .entry lt (by omega) stops fun k h₁ h₂ => hbefore k h₁ fun h₃ => first k h₃ h₂
  | none rest => exact .none fun j hj hij => hbefore j hij (rest j hj)

end InodeDisk

section

variable {s : FsState} {a : ℕ} {ino : Inode} (hm : s.MallocsSucceed) (ha : s.inodes a = some ino)
  (hfit : s.Fits ino.data) (hsize : s.size ≤ wordSize)

include hm ha hfit hsize

theorem scanLoop_found (stop : DirEntry → Bool) (hn : i + n = ino.data.slots) (e : DirEntry) :
    Returns (scanLoop a stop (n + 1) (20 * i) e) s fun q t => t = s ∧
      ∃ r, ino.data.Found s.disk stop i r ∧ ino.data.Scan s.disk r q := by
  induction n generalizing i e with
  | zero =>
    obtain rfl : i = ino.data.slots := hn
    rw [scanLoop]
    simp only [returns_bind, inodeReadAt_returns hm ha hfit hsize, length_slice, clip]
    rw [if_neg (by rw [InodeDisk.slots]; omega), returns_pure]
    exact ⟨rfl, none, .none fun j hj hij => by omega, _, rfl⟩
  | succ n ih =>
    have hfull : min 20 (ino.data.length.toNat - 20 * i) = 20 := by
      rw [InodeDisk.slots] at hn
      omega
    have hentry : decodeEntry (overwrite (encodeEntry e) 0
        (slice s.disk (512 * ino.data.start + 20 * i) 20)) = ino.data.entry s.disk i := by
      rfl
    rw [scanLoop]
    simp only [returns_bind, inodeReadAt_returns hm ha hfit hsize, length_slice, clip, hfull,
      if_true, hentry]
    cases hstop : stop (ino.data.entry s.disk i) with
    | true =>
      simp only [if_true, returns_pure]
      exact ⟨trivial, some i, .entry (by omega) le_rfl hstop fun k h₁ h₂ => by omega, rfl⟩
    | false =>
      simp only [Bool.false_eq_true, if_false]
      refine (ih (i := i + 1) (by omega) (ino.data.entry s.disk i)).mono ?_
      rintro q t ⟨rfl, r, hfound, hq⟩
      exact ⟨rfl, r, hfound.step hstop, hq⟩

/-- **Searching a directory.** -/
theorem scanEntries_found (stop : DirEntry → Bool) :
    Returns (scanEntries a stop) s fun q t => t = s ∧
      ∃ r, ino.data.Found s.disk stop 0 r ∧ ino.data.Scan s.disk r q := by
  rw [scanEntries, returns_bind, returns_inodeAt ha]
  exact scanLoop_found hm ha hfit hsize stop (i := 0) (Nat.zero_add _) _

theorem readdirLoop_found {rounds : ℕ} (hn : i + n = ino.data.slots) (hrounds : n < rounds) :
    Returns (readdirLoop a rounds (20 * i)) s fun q t => t = s ∧
      ∃ r, ino.data.Found s.disk DirEntry.inUse i r ∧ q = ino.data.listed s.disk r := by
  induction rounds generalizing n i with
  | zero => omega
  | succ rounds ih =>
    rw [readdirLoop]
    simp only [returns_bind, inodeReadAt_returns hm ha hfit hsize, length_slice, clip]
    cases n with
    | zero =>
      obtain rfl : i = ino.data.slots := hn
      rw [if_neg (by rw [InodeDisk.slots]; omega), returns_pure]
      exact ⟨rfl, none, .none fun j hj hij => by omega, rfl⟩
    | succ n =>
      have hfull : min 20 (ino.data.length.toNat - 20 * i) = 20 := by
        rw [InodeDisk.slots] at hn
        omega
      simp only [hfull, if_true]
      change Returns (if (ino.data.entry s.disk i).inUse = true then _ else _) s _
      cases huse : (ino.data.entry s.disk i).inUse with
      | true =>
        rw [if_pos rfl, returns_pure]
        exact ⟨rfl, some i, .entry (by omega) le_rfl huse fun k h₁ h₂ => by omega, rfl⟩
      | false =>
        refine (ih (i := i + 1) (n := n) (by omega) (by omega)).mono ?_
        rintro q t ⟨rfl, r, hfound, hq⟩
        exact ⟨rfl, r, hfound.step huse, hq⟩

/-- **`dir_readdir`** returns the name in the first entry in use from the position on. -/
theorem dirReaddir_found (hi : i ≤ ino.data.slots) :
    Returns (dirReaddir ⟨a, 20 * i⟩) s fun q t => t = s ∧
      ∃ r, ino.data.Found s.disk DirEntry.inUse i r ∧
        q = ((ino.data.listed s.disk r).1, ⟨a, (ino.data.listed s.disk r).2⟩) := by
  rw [dirReaddir, returns_bind, returns_inodeAt ha, returns_bind]
  refine (readdirLoop_found hm ha hfit hsize (Nat.add_sub_cancel' hi)
    (by rw [InodeDisk.slots]; omega)).mono ?_
  rintro q t ⟨rfl, r, hfound, rfl⟩
  exact (returns_pure ..).mpr ⟨rfl, r, hfound, rfl⟩

end

/-! ### The calls -/

def createIn (dir : Dir) (name : CString) (initialSize : ℤ) : Fs (Bool × ℕ) := do
  match ← freeMapAllocate 1 with
  | none => return (false, 0)
  | some inodeSector =>
    if ← inodeCreate inodeSector initialSize then
      return (← dirAdd dir name inodeSector, inodeSector)
    else
      return (false, inodeSector)

/-- `filesys_create`. -/
def filesysCreate (name : CString) (initialSize : ℤ) : Fs Bool := do
  let dir ← dirOpenRoot
  let (success, inodeSector) ← match dir with
    | none => pure (false, 0)
    | some dir => createIn dir name initialSize
  if success = false ∧ inodeSector ≠ 0 then
    freeMapRelease inodeSector 1
  dirClose dir
  return success

/-- `filesys_open`. -/
def filesysOpen (name : CString) : Fs (Option File) := do
  let dir ← dirOpenRoot
  let inode ← match dir with
    | none => pure none
    | some dir => dirLookup dir name
  dirClose dir
  fileOpen inode

/-- `filesys_remove`. -/
def filesysRemove (name : CString) : Fs Bool := do
  let dir ← dirOpenRoot
  let success ← match dir with
    | none => pure false
    | some dir => dirRemove dir name
  dirClose dir
  return success

def doFormat : Fs Unit := do
  freeMapCreate
  let created ← dirCreate 1 16
  assert (created = true) .rootDirCreation
  freeMapClose

/-- `filesys_init`. -/
def filesysInit (fill : ℕ → BitVec 32) (format : Bool) : Fs Unit := do
  modify fun s => { s with openInodes := [] }
  freeMapInit fill
  if format then
    doFormat
  freeMapOpen

/-- `filesys_done`. -/
def filesysDone : Fs Unit :=
  freeMapClose

end OsMaterial
