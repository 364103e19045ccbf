import OsMaterial.FreshFiles

/-!
# The Directory without Memory

`inode_read_at` and `inode_write_at` stop early without memory, and the loops of
`filesys/directory.c` take every short read for the end. Here `malloc` fails at any point of
`dir_add` or `dir_remove`. A failure can leave the free map on the device stale, so the state is
followed **behind** one with the invariant, from which it differs in the free map file (`Shadow`).

* `dir_tolerates_iff`: calls without memory are harmless exactly if no `dir_add` is misled by the
  calls of `malloc` that fail before the entry of the name or the first free entry
  (`FsState.Misled`).
* `dirAdd_binds_twice`: one failure is enough to bind a name twice.
-/

namespace OsMaterial

open List

variable {i x n offset j : ℕ} {d : InodeDisk} {ino : Inode} {e : DirEntry} {m : ℕ → Bool}
  {name : CString} {file : File} {s₀ : FsState} {dir : Dir} {α : Type} {size : ℤ} {c : Client}

/-! ### Transfers within a sector -/

open VolInv

section

variable {refs : ℕ → ℕ} {s t : FsState} {a : ℕ}

theorem inodeReadAt_part (ha : s.inodes a = some ino) (hfit : s.Fits ino.data)
    (hsize : s.size ≤ wordSize) {size : ℕ} (h0 : 0 < size) (hpart : size < 512)
    (hchunk : chunkSize ino.data size offset = size) (Q : Bytes → FsState → Prop) :
    Returns (inodeReadAt a size offset) s Q ↔
      Q (if s.mallocs 0 then slice s.disk (512 * ino.data.start + offset) size else [])
        s.spend := by
  obtain ⟨rounds, hrounds⟩ := Nat.exists_add_one_eq.mpr h0
  rw [inodeReadAt, returns_bind, returns_inodeAt ha, ← hrounds,
    readLoop_round hfit hsize (hrounds ▸ hchunk) h0.ne']
  simp only [hrounds, Nat.sub_self, readLoop_zero, returns_pure, hpart.ne, Bool.false_eq_true,
    false_or, or_self, if_false, nil_append]
  split <;> rfl

theorem inodeWriteAt_part {buffer : Bytes} (ha : s.inodes a = some ino)
    (hdeny : ino.denyWriteCnt = 0) (hfit : s.Fits ino.data) (hsize : s.size ≤ wordSize)
    (h0 : 0 < buffer.length) (hpart : buffer.length < 512)
    (hchunk : chunkSize ino.data buffer.length offset = buffer.length) (Q : ℕ → FsState → Prop) :
    Returns (inodeWriteAt a buffer offset) s Q ↔
      if s.mallocs 0 then
        Q buffer.length (s.spend.patchDisk (512 * ino.data.start + offset) buffer)
      else Q 0 s.spend := by
  obtain ⟨rounds, hrounds⟩ := Nat.exists_add_one_eq.mpr h0
  rw [inodeWriteAt, returns_bind, returns_inodeAt ha, if_neg (by simpa using hdeny), ← hrounds,
    writeLoop_round hfit hsize hchunk h0.ne']
  simp only [hrounds, drop_length, writeLoop_nil, returns_pure, hpart.ne, Bool.false_eq_true,
    false_or, or_self, if_false, take_length, Nat.zero_add]

/-! ### The entries of the root directory -/

structure RootDir (a : ℕ) (s : FsState) : Prop where
  node : ∃ ino, s.inodes a = some ino ∧ ino.denyWriteCnt = 0 ∧ ino.data = inodeOn s.disk 1
  length_eq : (inodeOn s.disk 1).length = 320
  start_lt : (inodeOn s.disk 1).start < s.size
  start_ne : (inodeOn s.disk 1).start ≠ 1
  size_le : s.size ≤ wordSize

section

variable (h : RootDir a s)

include h

theorem RootDir.withMallocs (m : ℕ → Bool) : RootDir a { s with mallocs := m } :=
  { h with }

theorem RootDir.fits : s.Fits (inodeOn s.disk 1) := by
  intro pos hpos
  have := h.start_lt
  rw [h.length_eq] at hpos
  omega

theorem RootDir.chunkSize_eq (hi : i < 16) : chunkSize (inodeOn s.disk 1) 20 (20 * i) = 20 := by
  have hlen : (inodeOn s.disk 1).length.toNat = 320 := by rw [h.length_eq]; rfl
  simp only [chunkSize, hlen]
  split_ifs <;> omega

theorem RootDir.inodeReadAt_returns (hi : i < 16) (Q : Bytes → FsState → Prop) :
    Returns (inodeReadAt a 20 (20 * i)) s Q ↔
      Q (if s.mallocs 0 then slice s.disk (s.slotOfs i) 20 else []) s.spend := by
  obtain ⟨ino, hino, -, hdata⟩ := h.node
  rw [inodeReadAt_part hino (hdata ▸ h.fits) h.size_le (by decide) (by decide)
    (hdata ▸ h.chunkSize_eq hi), hdata, FsState.slotOfs]

theorem RootDir.inodeReadAt_end_returns (Q : Bytes → FsState → Prop) :
    Returns (inodeReadAt a 20 320) s Q ↔ Q [] s := by
  obtain ⟨ino, hino, -, hdata⟩ := h.node
  have hlen : ino.data.length.toNat = 320 := by rw [hdata, h.length_eq]; rfl
  have hchunk : chunkSize ino.data 20 320 = 0 := by simp [chunkSize, hlen]
  rw [inodeReadAt, returns_bind, returns_inodeAt hino, readLoop]
  simp only [hchunk, if_true, returns_pure]

theorem RootDir.inodeWriteAt_returns (hname : e.name.length = 15) (hi : i < 16)
    (Q : ℕ → FsState → Prop) :
    Returns (inodeWriteAt a (encodeEntry e) (20 * i)) s Q ↔
      if s.mallocs 0 then Q 20 (s.spend.patchDisk (s.slotOfs i) (encodeEntry e))
      else Q 0 s.spend := by
  obtain ⟨ino, hino, hdeny, hdata⟩ := h.node
  have hlen := length_encodeEntry hname
  rw [inodeWriteAt_part hino hdeny (hdata ▸ h.fits) h.size_le (by omega) (by omega)
    (by rw [hdata, hlen]; exact h.chunkSize_eq hi), hlen, hdata, FsState.slotOfs]

theorem RootDir.inodeWriteAt_end_returns (hname : e.name.length = 15) (Q : ℕ → FsState → Prop) :
    Returns (inodeWriteAt a (encodeEntry e) 320) s Q ↔ Q 0 s := by
  obtain ⟨ino, hino, hdeny, hdata⟩ := h.node
  have hlen : ino.data.length.toNat = 320 := by rw [hdata, h.length_eq]; rfl
  have hchunk : chunkSize ino.data 20 320 = 0 := by simp [chunkSize, hlen]
  rw [inodeWriteAt, returns_bind, returns_inodeAt hino, if_neg (by simpa using hdeny),
    length_encodeEntry hname, writeLoop, length_encodeEntry hname]
  simp only [hchunk, if_true, returns_pure]

end

/-! ### Searching with some memory -/

/-- The first index below `n` with `p`, or `n` if there is none. -/
def firstIdx (p : ℕ → Bool) (n : ℕ) : ℕ := (range n).findIdx p

section

variable {p : ℕ → Bool}

theorem firstIdx_succ (p : ℕ → Bool) (n : ℕ) :
    firstIdx p (n + 1) = if p 0 then 0 else firstIdx (fun k => p (k + 1)) n + 1 := by
  rw [firstIdx, range_succ_eq_map, findIdx_cons, findIdx_map]
  cases p 0 <;> rfl

theorem firstIdx_le (p : ℕ → Bool) (n : ℕ) : firstIdx p n ≤ n :=
  findIdx_le_length.trans_eq length_range

theorem apply_firstIdx (h : firstIdx p n < n) : p (firstIdx p n) = true := by
  have hlt : (range n).findIdx p < (range n).length := by rwa [length_range]
  have hp := findIdx_getElem (w := hlt)
  rwa [getElem_range] at hp

theorem firstIdx_le_of (h : p i = true) : firstIdx p n ≤ i := by
  by_contra hlt
  have hp := not_of_lt_findIdx (not_le.mp hlt)
  rw [getElem_range, h] at hp
  cases hp

end

/-- A search of `n` entries from entry `i` on, when `malloc` gives the answers `m`: whether it
stopped at an entry, the index that it reached, and the answers that are left. -/
def searchFrom (stop : ℕ → Bool) (n i : ℕ) (m : ℕ → Bool) : Bool × ℕ × (ℕ → Bool) :=
  let failed := firstIdx (fun k => !m k) n
  let stopped := firstIdx (fun k => stop (i + k)) n
  (decide (stopped < failed), i + min failed stopped, fun k =>
    m (min (min failed stopped + 1) n + k))

theorem searchFrom_zero (stop : ℕ → Bool) (i : ℕ) (m : ℕ → Bool) :
    searchFrom stop 0 i m = (false, i, m) := by
  simp [searchFrom, firstIdx]

theorem searchFrom_succ (stop : ℕ → Bool) (n i : ℕ) (m : ℕ → Bool) :
    searchFrom stop (n + 1) i m =
      if m 0 then
        if stop i then (true, i, fun k => m (k + 1))
        else searchFrom stop n (i + 1) fun k => m (k + 1)
      else (false, i, fun k => m (k + 1)) := by
  rw [searchFrom, firstIdx_succ, firstIdx_succ, Nat.add_zero]
  have hnext : (fun k => stop (i + (k + 1))) = fun k => stop (i + 1 + k) :=
    funext fun k => congrArg stop (by omega)
  cases m 0 with
  | false => simp [Nat.add_comm]
  | true =>
    cases stop i with
    | true => simp [Nat.add_comm]
    | false =>
      simp only [Bool.not_true, Bool.false_eq_true, if_false, if_true, hnext, searchFrom]
      refine Prod.ext (by simp) (Prod.ext (by simp; omega) (funext fun k => congrArg m ?_))
      omega

/-- The first call of `malloc` that fails, of the 16 in a search of the directory. -/
def failIdx (m : ℕ → Bool) : ℕ := firstIdx (fun k => !m k) 16

/-- The first entry of the directory with `stop`, or 16 if there is none. -/
def FsState.entryIdx (s : FsState) (stop : DirEntry → Bool) : ℕ :=
  firstIdx (fun i => stop (s.entry i)) 16

def FsState.search (s : FsState) (stop : DirEntry → Bool) (m : ℕ → Bool) :
    Bool × ℕ × (ℕ → Bool) :=
  let reached := min (failIdx m) (s.entryIdx stop)
  (decide (s.entryIdx stop < failIdx m), reached, fun k => m (min (reached + 1) 16 + k))

def Searched (s : FsState) (r : Bool × ℕ × (ℕ → Bool)) (q : Bool × DirEntry × ℕ) (t : FsState) :
    Prop :=
  t = { s with mallocs := r.2.2 } ∧ q.1 = r.1 ∧ q.2.2 = 20 * r.2.1 ∧ q.2.1.name.length = 15 ∧
    (r.1 = true → q.2.1 = s.entry r.2.1)

theorem RootDir.scanLoop_returns (stop : DirEntry → Bool) (hn : i + n = 16) (h : RootDir a s)
    (he : e.name.length = 15) :
    Returns (scanLoop a stop (n + 1) (20 * i) e) s
      (Searched s (searchFrom (fun i => stop (s.entry i)) n i s.mallocs)) := by
  induction n generalizing s i e with
  | zero =>
    obtain rfl : i = 16 := by omega
    have hsame : overwrite (encodeEntry e) 0 [] = encodeEntry e := by simp [overwrite]
    have hlen : (decodeEntry (encodeEntry e)).name.length = 15 := by
      simp [decodeEntry, encodeEntry, he]
    rw [scanLoop]
    simp only [returns_bind, h.inodeReadAt_end_returns, hsame]
    rw [if_neg (by simp), returns_pure]
    rw [searchFrom_zero]
    exact ⟨rfl, rfl, rfl, hlen, fun hf => by simp at hf⟩
  | succ n ih =>
    rw [scanLoop]
    simp only [returns_bind, h.inodeReadAt_returns (show i < 16 by omega)]
    rw [searchFrom_succ]
    cases hm : s.mallocs 0 with
    | true =>
      have hentry : decodeEntry (overwrite (encodeEntry e) 0
          (slice s.disk (s.slotOfs i) 20)) = s.entry i := by
        rfl
      have hlen : (s.entry i).name.length = 15 := by simp [FsState.entry, decodeEntry]
      simp only [if_true, length_slice, hentry]
      cases hstop : stop (s.entry i) with
      | true =>
        simp only [if_true, returns_pure]
        exact ⟨rfl, rfl, rfl, hlen, fun _ => rfl⟩
      | false =>
        exact (ih (i := i + 1) (by omega) (h.withMallocs _) hlen).mono fun _ _ hq => hq
    | false =>
      have hlen : (decodeEntry (encodeEntry e)).name.length = 15 := by
        simp [decodeEntry, encodeEntry, he]
      rw [if_neg (by simp), returns_pure]
      exact ⟨rfl, rfl, rfl, hlen, fun hf => by simp at hf⟩

theorem RootDir.scanEntries_returns (h : RootDir a s) (stop : DirEntry → Bool) :
    Returns (scanEntries a stop) s (Searched s (s.search stop s.mallocs)) := by
  obtain ⟨ino, hino, -, hdata⟩ := h.node
  have hrounds : ino.data.length.toNat / 20 + 1 = 16 + 1 := by
    rw [hdata, h.length_eq]
    rfl
  rw [scanEntries, returns_bind, returns_inodeAt hino, hrounds]
  refine (h.scanLoop_returns stop (i := 0) rfl (by simp)).mono fun _ _ hq => ?_
  simp only [searchFrom, Nat.zero_add] at hq
  exact hq

/-! ### `dir_add` -/

/-- The entry of the name in the directory, or 16 if it is not bound. -/
def FsState.nameIdx (s : FsState) (name : CString) : ℕ := s.entryIdx fun e => e.Matches name

/-- The first free entry of the directory, or 16 if there is none. -/
def FsState.freeIdx (s : FsState) : ℕ := s.entryIdx fun e => !e.inUse

/-- The answers of `malloc` behind those to a search of the directory that finds nothing. -/
def leftover (m : ℕ → Bool) : ℕ → Bool := fun k => m (min (failIdx m + 1) 16 + k)

/-- The entry at which the search for a free one ends, when the name was not found. -/
def FsState.addIdx (s : FsState) : ℕ := min (failIdx (leftover s.mallocs)) s.freeIdx

/-- **`dir_add` writes an entry**: a call of `malloc` fails before the entry of the name is read or
there is none, the search for a free entry ends before the end, and there is memory to write it. -/
structure FsState.Writes (s : FsState) (name : CString) : Prop where
  valid : name.Valid
  missed : failIdx s.mallocs ≤ s.nameIdx name
  room : s.addIdx < 16
  memory : leftover s.mallocs (s.addIdx + 1) = true

/-- **A call of `dir_add` is misled** by the answers of `malloc`: it writes an entry, although the
name is bound or a call of `malloc` failed before the first free entry was read. -/
structure FsState.Misled (s : FsState) (name : CString) : Prop extends s.Writes name where
  wrong : s.nameIdx name < 16 ∨ failIdx (leftover s.mallocs) < s.freeIdx

/-- What a call of `dir_add` does. -/
def AddRun (s : FsState) (name : CString) (x : ℕ) (ok : Bool) (t : FsState) : Prop :=
  (¬ s.Writes name ∧ ok = false ∧ t = { s with mallocs := t.mallocs }) ∨
  ∃ e, s.Writes name ∧ ok = true ∧ e.name.length = 15 ∧ e.inUse = true ∧
    cstring e.name = name.bytes ∧ e.inodeSector = x ∧
    t = { s.patchDisk (s.slotOfs s.addIdx) (encodeEntry e) with mallocs := t.mallocs }

theorem RootDir.dirAdd_returns (h : RootDir a s) (pos : ℕ) (name : CString) (x : ℕ) :
    Returns (dirAdd ⟨a, pos⟩ name x) s (AddRun s name x) := by
  rw [dirAdd]
  by_cases hvalid : name.Valid
  · rw [if_pos hvalid, returns_bind, lookup, returns_bind]
    refine (h.scanEntries_returns fun e => e.Matches name).mono ?_
    rintro ⟨b, e, ofs⟩ _ ⟨rfl, rfl, -, -, -⟩
    rw [returns_pure]
    by_cases hmissed : failIdx s.mallocs ≤ s.nameIdx name
    · have hfound : s.search (fun e => e.Matches name) s.mallocs =
          (false, failIdx s.mallocs, leftover s.mallocs) := by
        rw [FsState.search, ← FsState.nameIdx, min_eq_left hmissed,
          decide_eq_false (not_lt.mpr hmissed)]
        rfl
      rw [hfound, if_neg Bool.false_ne_true]
      simp only [returns_bind]
      refine ((h.withMallocs (leftover s.mallocs)).scanEntries_returns fun e => !e.inUse).mono ?_
      rintro ⟨b', e, ofs⟩ u ⟨rfl, -, hofs, hlen, -⟩
      obtain rfl : ofs = 20 * s.addIdx := hofs
      replace hlen : e.name.length = 15 := hlen
      obtain ⟨hcopy, hread⟩ := hvalid.strlcpy hlen
      have hle : s.addIdx ≤ 16 := (min_le_right _ _).trans (firstIdx_le _ _)
      have hdir := h.withMallocs fun k => leftover s.mallocs (min (s.addIdx + 1) 16 + k)
      by_cases hroom : s.addIdx < 16
      · refine (hdir.inodeWriteAt_returns (e := ⟨x, _, true⟩) hcopy hroom _).mpr ?_
        have hanswer : leftover s.mallocs (min (s.addIdx + 1) 16 + 0) =
            leftover s.mallocs (s.addIdx + 1) := congrArg _ (by omega)
        simp only [hanswer]
        split
        · rename_i hm
          rw [returns_pure]
          exact .inr ⟨⟨x, strlcpy e.name name, true⟩, ⟨hvalid, hmissed, hroom, hm⟩, rfl, hcopy, rfl,
            hread, rfl, rfl⟩
        · rename_i hm
          rw [returns_pure]
          exact .inl ⟨fun hw => hm hw.memory, rfl, rfl⟩
      · have hwrite := hdir.inodeWriteAt_end_returns (e := ⟨x, strlcpy e.name name, true⟩) hcopy
        rw [show 20 * s.addIdx = 320 by omega]
        exact (hwrite _).mpr ((returns_pure ..).mpr (.inl ⟨fun hw => hroom hw.room, rfl, rfl⟩))
    · have hfound : (s.search (fun e => e.Matches name) s.mallocs).1 = true :=
        decide_eq_true (not_le.mp hmissed)
      rw [if_pos hfound, returns_pure]
      exact .inl ⟨fun hw => hmissed hw.missed, rfl, rfl⟩
  · rw [if_neg hvalid]
    exact (returns_pure ..).mpr (.inl ⟨fun hw => hvalid hw.valid, rfl, rfl⟩)

/-- What `dir_add` is to do: bind the name, which was not bound, in a free entry, or return false
and leave the entries as they are. -/
def AddEnd (s : FsState) (name : CString) (x : ℕ) (ok : Bool) (t : FsState) : Prop :=
  (ok = true ∧ ¬ s.BoundName name ∧ ∃ i < 16, s.slot i = none ∧
    t.slot i = some (name.bytes, x) ∧ ∀ j < 16, j ≠ i → t.slot j = s.slot j) ∨
  (ok = false ∧ ∀ i < 16, t.slot i = s.slot i)

theorem FsState.boundName_iff : s.BoundName name ↔ s.nameIdx name < 16 := by
  constructor
  · rintro ⟨i, hi, x, hx⟩
    exact (firstIdx_le_of (matches_iff.mpr ⟨x, hx⟩)).trans_lt hi
  · intro h
    obtain ⟨x, hx⟩ := matches_iff.mp (apply_firstIdx h)
    exact ⟨_, h, x, hx⟩

theorem FsState.freeIdx_le (h : s.slot i = none) : s.freeIdx ≤ i :=
  firstIdx_le_of (congrArg not (slot_eq_none_iff.mp h))

theorem FsState.slot_addIdx (h : s.addIdx < 16) :
    s.slot s.addIdx = none ↔ ¬ failIdx (leftover s.mallocs) < s.freeIdx := by
  rw [not_lt]
  constructor
  · exact fun hfree => (FsState.freeIdx_le hfree).trans (min_le_left _ _)
  · intro hle
    rw [FsState.addIdx, min_eq_right hle] at h ⊢
    exact slot_eq_none_iff.mpr ((Bool.not_eq_true' _).mp (apply_firstIdx h))

theorem RootDir.slot_patch (h : RootDir a s) (hj : j < 16) (hlen : e.name.length = 15)
    (hsector : e.inodeSector < wordSize) (huse : e.inUse = true)
    (ht : t = { s.patchDisk (s.slotOfs j) (encodeEntry e) with mallocs := t.mallocs }) :
    t.slot j = some (cstring e.name, e.inodeSector) ∧ ∀ i < 16, i ≠ j → t.slot i = s.slot i := by
  have hpatch := slot_patch_of_start_ne (t := t) h.start_ne hj hlen hsector (by rw [ht]; rfl)
  rwa [huse, if_pos rfl] at hpatch

/-- **`dir_add` does what it is to do** exactly when it is not misled. -/
theorem RootDir.dirAdd_iff (h : RootDir a s) (pos : ℕ) (name : CString) (hx : x < wordSize) :
    Returns (dirAdd ⟨a, pos⟩ name x) s (AddEnd s name x) ↔ ¬ s.Misled name := by
  obtain ⟨ok, t, hrun, hend⟩ := h.dirAdd_returns pos name x
  rw [returns_iff_of_run hrun]
  rcases hend with ⟨hnot, rfl, ht⟩ | ⟨e, hwrites, rfl, hlen, huse, hname, rfl, ht⟩
  · exact iff_of_true (.inr ⟨rfl, fun i _ => by rw [ht]; rfl⟩) fun hbad => hnot hbad.toWrites
  · have hj := hwrites.room
    obtain ⟨hself, hother⟩ := h.slot_patch hj hlen hx huse ht
    rw [hname] at hself
    constructor
    · rintro (⟨-, hunbound, i, -, hfree, -, hkept⟩ | ⟨hfalse, -⟩) hbad
      · -- the entry that was bound is the one that was written
        have hij : i = s.addIdx := by
          by_contra hne
          exact hunbound ⟨_, hj, _, (hkept _ hj (Ne.symm hne)).symm.trans hself⟩
        rw [FsState.boundName_iff] at hunbound
        exact hbad.wrong.elim hunbound ((FsState.slot_addIdx hj).mp (hij ▸ hfree))
      · cases hfalse
    · intro hgood
      have hunbound : ¬ s.BoundName name := fun hb =>
        hgood ⟨hwrites, .inl (FsState.boundName_iff.mp hb)⟩
      have hfree := (FsState.slot_addIdx hj).mpr fun hcut => hgood ⟨hwrites, .inr hcut⟩
      exact .inl ⟨rfl, hunbound, _, hj, hfree, hself, hother⟩

/-! ### Behind a stale free map -/

def InodeDisk.Covers (d : InodeDisk) (k : ℕ) : Prop :=
  d.start ≤ k ∧ k < d.start + bytesToSectors d.length

/-- **A state `s` behind a state `t`**: they differ at most in the answers of `malloc` and in the
sectors of the free map file, the inode of which is `d`. -/
structure Shadow (d : InodeDisk) (s t : FsState) : Prop where
  eq : s = { t with disk := s.disk, mallocs := s.mallocs }
  disk : AgreeOn (fun k => ¬ d.Covers k) t.disk s.disk

theorem Shadow.exists_eq (hs : Shadow d s t) :
    ∃ disk m, s = { t with disk := disk, mallocs := m } ∧
      AgreeOn (fun k => ¬ d.Covers k) t.disk disk :=
  ⟨s.disk, s.mallocs, hs.eq, hs.disk⟩

theorem InodeDisk.covers_byte (h0 : 0 ≤ d.length) (hlen : d.length < 2 ^ 31)
    (h₁ : 512 * d.start ≤ i) (h₂ : i < 512 * d.start + d.length.toNat) : d.Covers (i / 512) := by
  have := le_bytesToSectors h0 hlen
  exact ⟨by omega, by omega⟩

theorem writeLoop_stays {data : InodeDisk} (hfit : s.Fits data) (hsize : s.size ≤ wordSize)
    (h0 : 0 ≤ data.length) (hlen : data.length < 2 ^ 31) (rounds : ℕ) (buffer : Bytes)
    (offset : ℕ) (bounce : Bool) (written : ℕ) :
    Returns (writeLoop data rounds buffer offset bounce written) s fun _ t => Shadow data t s := by
  induction rounds generalizing s buffer offset bounce written with
  | zero =>
    rw [writeLoop, returns_pure]
    exact ⟨rfl, .refl _ _⟩
  | succ rounds ih =>
    by_cases hchunk : chunkSize data buffer.length offset = 0
    · rw [writeLoop]
      simp only [hchunk, if_true, returns_pure]
      exact ⟨rfl, .refl _ _⟩
    · rw [writeLoop_round hfit hsize rfl hchunk]
      split
      swap
      · exact ⟨rfl, .refl _ _⟩
      have hclip := chunkSize_le data buffer.length offset
      rw [clip] at hclip
      set chunk := buffer.take (chunkSize data buffer.length offset) with hc
      have hpatch : AgreeOn (fun k => ¬ data.Covers k) s.disk
          (patch s.disk (512 * data.start + offset) chunk) := by
        refine agreeOn_patch fun i h₁ h₂ hnot => hnot (InodeDisk.covers_byte h0 hlen ?_ ?_)
        · omega
        · rw [hc, length_take] at h₂
          omega
      obtain ⟨m, hm⟩ : ∃ m, (if bounce = true ∨ chunkSize data buffer.length offset = 512 then s
          else s.spend) = { s with mallocs := m } := by
        split
        · exact ⟨_, rfl⟩
        · exact ⟨_, rfl⟩
      rw [hm]
      refine (ih (s := FsState.patchDisk { s with mallocs := m } _ chunk) hfit hsize
        _ _ _ _).mono ?_
      rintro _ u hu
      exact ⟨hu.eq, hpatch.trans hu.disk⟩

theorem bitmapWrite_stays (hino : s.inodes file.inode = some ino) (hfit : s.Fits ino.data)
    (hsize : s.size ≤ wordSize) (h0 : 0 ≤ ino.data.length) (hlen : ino.data.length < 2 ^ 31)
    (map : Bitmap) : Returns (bitmapWrite map file) s fun _ t => Shadow ino.data t s := by
  rw [bitmapWrite, returns_bind, fileWriteAt, inodeWriteAt, returns_bind, returns_inodeAt hino]
  by_cases hdeny : ino.denyWriteCnt = 0
  · rw [if_neg (by simpa using hdeny)]
    exact (writeLoop_stays hfit hsize h0 hlen _ _ _ _ _).mono fun _ t ht => (returns_pure ..).mpr ht
  · rw [if_pos hdeny, returns_pure, returns_pure]
    exact ⟨rfl, .refl _ _⟩

theorem FsState.MapFile.withMap {start : ℕ} {map : Bitmap} (hf : s.MapFile start file ino)
    (hcnt : map.bitCnt = s.freeMap.bitCnt) : (s.withMap start map).MapFile start file ino :=
  { hf with length_eq := by rw [hf.length_eq, ← hcnt]; rfl }

theorem Shadow.freeMapRelease_returns {c : ℕ} {Q : Unit → FsState → Prop} (hs : Shadow ino.data s t)
    (hm : t.MallocsSucceed) (hf : t.MapFile ino.data.start file ino)
    (hlen : ino.data.length < 2 ^ 31) (hrel : Returns (freeMapRelease x c) t Q) :
    Returns (freeMapRelease x c) s fun u s' => ∃ map, map.bitCnt = t.freeMap.bitCnt ∧
      Q u (t.withMap ino.data.start map) ∧
      Shadow ino.data s' (t.withMap ino.data.start map) := by
  obtain ⟨disk, m, rfl, hdisk⟩ := hs.exists_eq
  have h0 : 0 ≤ ino.data.length := by
    rw [hf.length_eq]
    omega
  rw [freeMapRelease] at hrel ⊢
  simp only [returns_bind, returns_get, returns_liftM_iff, returns_assert, returns_set,
    hf.file_eq, returns_pure] at hrel ⊢
  obtain ⟨all, hall, htrue, map, hmap, hwrite⟩ := hrel
  have hcnt := bitCnt_of_bitmapSetMultiple hmap
  rw [bitmapWrite_returns (s := t.setFreeMap map) (b := map) hm (hf.setFreeMap hcnt) rfl] at hwrite
  refine ⟨all, hall, htrue, map, hmap, ?_⟩
  rw [← hf.file_eq]
  refine (bitmapWrite_stays (s := FsState.setFreeMap { t with disk := disk, mallocs := m } map)
    hf.inode_eq hf.fits hf.size_le h0 hlen map).mono ?_
  rintro _ s' hs'
  refine ⟨map, hcnt, hwrite, hs'.eq, ?_⟩
  have hpatch : AgreeOn (fun k => ¬ ino.data.Covers k) t.disk
      (t.withMap ino.data.start map).disk := by
    refine agreeOn_patch fun i h₁ h₂ hnot => hnot (InodeDisk.covers_byte h0 hlen h₁ ?_)
    rw [map.length_bytes, hcnt] at h₂
    rw [hf.length_eq]
    omega
  exact (hpatch.symm.trans hdisk).trans hs'.disk

theorem VolInv.not_covers (h : VolInv t) {o : Owner} {k : ℕ} (ho : o.Holds t k)
    (hne : o ≠ .freeMapData) : ¬ (inodeOn t.disk 0).Covers k :=
  fun hk => hne (h.owner_eq ho ⟨trivial, hk⟩)

theorem Shadow.agreeOn_meta (hs : Shadow (inodeOn t.disk 0) s t) (h : VolInv t) :
    AgreeOn (t.OwnedBy Owner.IsMeta) t.disk s.disk := by
  refine hs.disk.mono ?_
  rintro k ⟨o, hmeta, ho⟩
  refine h.not_covers ho ?_
  rintro rfl
  exact hmeta

theorem Shadow.slot_eq (hs : Shadow (inodeOn t.disk 0) s t) (h : VolInv t) (hi : i < 16) :
    s.slot i = t.slot i :=
  h.slot_eq_of_agree (hs.agreeOn_meta h) hi

theorem Shadow.rootDir (hs : Shadow (inodeOn t.disk 0) s t) (h : FsInv refs t)
    (hroot : IsRoot refs t a) : RootDir a s := by
  obtain ⟨ino, hino, hdeny, hdata⟩ := hroot.node h
  have hinode : inodeOn s.disk 1 = inodeOn t.disk 1 :=
    inodeOn_eq_of_agree (hs.agreeOn_meta h.vol) (.inr (.inl rfl))
  have hlt := h.vol.owner_lt h.vol.holds_rootDirData
  have hsize := h.vol.size_le
  have hsize_eq : s.size = t.size := by rw [hs.eq]
  refine ⟨⟨ino, ?_, hdeny, hinode ▸ hdata⟩, ?_, ?_, ?_, by omega⟩
  · rw [hs.eq]
    exact hino
  · rw [hinode, h.vol.rootDir_length]
  · rw [hinode, hsize_eq]
    exact hlt
  · rw [hinode]
    exact h.vol.rootDir_start_ne

theorem FsInv.mapFile_data (h : FsInv refs t) :
    ∃ file ino, t.MapFile ino.data.start file ino ∧ ino.data = inodeOn t.disk 0 := by
  obtain ⟨file, ino, hf⟩ := h.exists_mapFile
  obtain ⟨file', v, hfile', -, hmem, htarget⟩ := h.table.mapFile
  obtain rfl : file = file' := Option.some.inj (hf.file_eq.symm.trans hfile')
  obtain ⟨ino', hino', -, -, hdata, -⟩ := h.table.node hmem
  obtain rfl : ino = ino' := Option.some.inj (hf.inode_eq.symm.trans hino')
  rw [(FsState.target_inj (FsState.target_eq hf.inode_eq) htarget).1] at hdata
  exact ⟨file, ino, hdata ▸ hf, hdata⟩

theorem Shadow.inodeClose_returns {v : Bool × ℤ} (hs : Shadow (inodeOn t.disk 0) s t)
    (h : FsInv refs t) (ha : 0 < refs a) (hav : t.target a = some (x, v)) (hx : x ≠ 0) :
    Returns (inodeClose (some a)) s fun _ s' =>
      ∃ t', Closed refs t a t' ∧ Shadow (inodeOn t.disk 0) s' t' := by
  have hret := OsMaterial.inodeClose_returns h ha hav hx
  obtain ⟨ino, hino, hcnt, -⟩ := h.table.node ((h.table.mem_iff a).mpr ha)
  obtain ⟨disk, m, rfl, hdisk⟩ := hs.exists_eq
  have hino' : FsState.inodes { t with disk := disk, mallocs := m } a = some ino := hino
  rw [inodeClose] at hret ⊢
  simp only [returns_bind, returns_inodeAt hino, returns_modify] at hret
  simp only [returns_bind, returns_inodeAt hino', returns_modify]
  by_cases hzero : ino.openCnt - 1 = 0
  · rw [if_pos hzero] at hret ⊢
    simp only [returns_bind, returns_modify] at hret ⊢
    by_cases hremoved : ino.removed = true
    · rw [if_pos hremoved] at hret ⊢
      simp only [returns_bind, returns_modify] at hret ⊢
      have hinv := h.dropInode (by omega) hav hx (some { ino with openCnt := ino.openCnt - 1 })
      obtain ⟨file, mino, hf, hdata⟩ := hinv.mapFile_data
      have hlen : mino.data.length < 2 ^ 31 := hdata ▸ inodeOn_length_lt _ _
      have hzone : inodeOn t.disk 0 = mino.data := hdata.symm
      rw [hzone] at hdisk ⊢
      refine (Shadow.freeMapRelease_returns (t := t.dropInode a _) (s := FsState.dropInode
        { t with disk := disk, mallocs := m } a _) ⟨rfl, hdisk⟩ hinv.table.mallocs hf hlen
        hret).mono ?_
      rintro _ s₂ ⟨map₁, hcnt₁, hret₂, hs₂⟩
      refine (hs₂.freeMapRelease_returns hinv.table.mallocs (hf.withMap hcnt₁) hlen hret₂).mono ?_
      rintro _ s₃ ⟨map₂, -, hclosed, hs₃⟩
      refine ⟨_, hclosed, ?_, hs₃.disk⟩
      rw [hs₃.eq]
      rfl
    · rw [if_neg hremoved] at hret ⊢
      simp only [returns_modify] at hret ⊢
      exact ⟨_, hret, rfl, hdisk⟩
  · rw [if_neg hzero] at hret ⊢
    simp only [returns_pure] at hret ⊢
    exact ⟨_, hret, rfl, hdisk⟩

theorem Shadow.inodeOpen_returns (hs : Shadow (inodeOn t.disk 0) s t) (h : FsInv refs t)
    (hx : x = 0 ∨ x = 1 ∨ t.Bound x) :
    Returns (inodeOpen x) s fun r s' => (r = none ∧ Shadow (inodeOn t.disk 0) s' t) ∨
      ∃ b t', r = some b ∧ Opened refs t x b t' ∧ Shadow (inodeOn t.disk 0) s' t' := by
  have hret := OsMaterial.inodeOpen_returns h hx
  have hknown : t.Known x := hx.imp_right (.imp_right .inl)
  have hlt := hknown.lt h.vol
  have hbytes : sectorBytes s.disk x = sectorBytes t.disk x := by
    refine hs.disk.slice_eq (a := x) (c := 1) (fun k h₁ h₂ => ?_) le_rfl (by omega)
    obtain rfl : k = x := by omega
    rcases hknown with rfl | rfl | hfile
    · exact h.vol.not_covers holds_zero (by decide)
    · exact h.vol.not_covers holds_one (by decide)
    · exact h.vol.not_covers (holds_fileInode hfile) (by simp)
  obtain ⟨disk, m, rfl, hdisk⟩ := hs.exists_eq
  rw [inodeOpen] at hret ⊢
  simp only [returns_bind, returns_get] at hret ⊢
  cases hfind : t.openInodes.find? fun a => (t.inodes a).any fun ino => ino.sector = x with
  | some b =>
    obtain ⟨ino, hino, -⟩ : ∃ ino, t.inodes b = some ino ∧ ino.sector = x := by
      have := find?_some hfind
      simpa [Option.any_eq_true] using this
    have hino' : FsState.inodes { t with disk := disk, mallocs := m } b = some ino := hino
    simp only [hfind, inodeReopen, returns_bind, returns_inodeAt hino, returns_modify,
      returns_pure] at hret
    simp only [inodeReopen, returns_bind, returns_inodeAt hino', returns_modify, returns_pure]
    obtain ⟨b', hb', ho⟩ := hret
    exact .inr ⟨b', _, hb', ho, rfl, hdisk⟩
  | none =>
    simp only [hfind, returns_bind, returns_malloc h.table.mallocs, if_true, returns_get,
      returns_set] at hret
    rw [returns_blockRead (s := { t with
      openInodes := t.nextInode :: t.openInodes, nextInode := t.nextInode + 1 }) hlt] at hret
    simp only [returns_modify, returns_pure] at hret
    simp only [returns_bind, returns_malloc_eq]
    by_cases hm : m 0 = true
    · rw [if_pos hm]
      simp only [returns_bind, returns_get, returns_set, FsState.spend]
      rw [returns_blockRead (s := { t with
        openInodes := t.nextInode :: t.openInodes, nextInode := t.nextInode + 1
        disk := disk, mallocs := fun n => m (n + 1) }) hlt]
      simp only [returns_modify, returns_pure]
      obtain ⟨b', hb', ho⟩ := hret
      refine .inr ⟨b', _, hb', ho, ?_, hdisk⟩
      rw [hbytes]
      rfl
    · rw [if_neg hm, returns_pure]
      exact .inl ⟨rfl, rfl, hdisk⟩

/-! ### `dir_remove` -/

/-- **The invariant under failures of `malloc`**: the root directory is open at `a`, and the state
is behind one that has the invariant of the file system. -/
def DirInv (refs : ℕ → ℕ) (a : ℕ) (s : FsState) : Prop :=
  ∃ t, FsInv refs t ∧ IsRoot refs t a ∧ Shadow (inodeOn t.disk 0) s t

theorem DirInv.rootDir (h : DirInv refs a s) : RootDir a s := by
  obtain ⟨t, hinv, hroot, hs⟩ := h
  exact hs.rootDir hinv hroot

theorem DirInv.withMallocs (h : DirInv refs a s) (m : ℕ → Bool) :
    DirInv refs a { s with mallocs := m } := by
  obtain ⟨t, hinv, hroot, hs⟩ := h
  refine ⟨t, hinv, hroot, ?_, hs.disk⟩
  rw [hs.eq]

/-- What `dir_remove` is to do: erase the entry of the name, or return false and leave the entries
as they are. -/
def RemoveEnd (s : FsState) (name : CString) (ok : Bool) (t : FsState) : Prop :=
  (ok = true ∧ ∃ i < 16, ∃ x, s.slot i = some (name.bytes, x) ∧ t.slot i = none ∧
    ∀ j < 16, j ≠ i → t.slot j = s.slot j) ∨
  (ok = false ∧ ∀ i < 16, t.slot i = s.slot i)

theorem Closed.inodeOn_zero (hc : Closed refs s a t) (h : VolInv s) :
    inodeOn t.disk 0 = inodeOn s.disk 0 := by
  obtain ⟨hv, -⟩ | ⟨y, d, -, -, ⟨map, hcnt, -, hv⟩, -⟩ := hc.effect
  · rw [hv.disk_eq]
  · rw [hv.disk_eq]
    exact inodeOn_eq_of_agree (h.agreeOn_meta_withMap hcnt) (.inl rfl)

theorem Opened.dirRemove_returns {b : ℕ} {name : Bytes} {t₂ s₂ : FsState}
    (ho : Opened refs t x b t₂) (hinv : FsInv refs t) (hroot : IsRoot refs t a)
    (hs : Shadow (inodeOn t.disk 0) s₂ t₂) (hi : i < 16) (hslot : t.slot i = some (name, x))
    (hlen : e.name.length = 15) (hsector : e.inodeSector = x) :
    Returns (do
      let written ← inodeWriteAt a (encodeEntry { e with inUse := false }) (20 * i)
      if written = 20 then
        inodeRemove b
        inodeClose (some b)
        return true
      else
        inodeClose (some b)
        return false) s₂ fun ok s' => ∃ t', FsInv refs t' ∧ IsRoot refs t' a ∧
          Shadow (inodeOn t'.disk 0) s' t' ∧
          (if ok then t'.slot i = none ∧ ∀ j < 16, j ≠ i → t'.slot j = t.slot j
            else ∀ j < 16, t'.slot j = t.slot j) := by
  have hbound : t.Bound x := ⟨i, hi, _, hslot⟩
  have h2 := hinv.vol.two_le (.inl hbound)
  have hlt := hinv.vol.owner_lt (holds_fileInode (.inl hbound))
  have hsize := hinv.vol.size_le
  have hroot₂ := hroot.of_opened ho
  have hslot₂ : t₂.slot i = some (name, x) := (ho.volume.slot_eq i).trans hslot
  obtain ⟨ino, d, hpos, hino, rfl, hself⟩ := ho.node
  rw [← ho.volume.disk_eq] at hs
  have hofs : s₂.slotOfs i = t₂.slotOfs i := by
    rw [FsState.slotOfs, inodeOn_eq_of_agree (hs.agreeOn_meta ho.inv.vol)
      (.inr (.inl rfl)), FsState.slotOfs]
  rw [returns_bind, (hs.rootDir ho.inv hroot₂).inodeWriteAt_returns
    (e := { e with inUse := false }) hlen hi, hofs]
  obtain ⟨disk, m, rfl, hdisk⟩ := hs.exists_eq
  have hclose : ∀ {t₃ s₃ : FsState}, FsInv (bump refs b) t₃ → IsRoot (bump refs b) t₃ a →
      (∃ v, t₃.target b = some (ino.sector, v)) → Shadow (inodeOn t₃.disk 0) s₃ t₃ →
      Returns (inodeClose (some b)) s₃ fun _ s' => ∃ t', FsInv refs t' ∧ IsRoot refs t' a ∧
        Shadow (inodeOn t'.disk 0) s' t' ∧ ∀ j < 16, t'.slot j = t₃.slot j := by
    rintro t₃ s₃ h₃ hr₃ ⟨v, hv⟩ hs₃
    refine (hs₃.inodeClose_returns h₃ hpos hv (by omega)).mono ?_
    rintro _ s' ⟨t', hc, hs'⟩
    obtain ⟨-, hslots, -⟩ := hc.frame h₃
    have hinv' := hc.inv
    have hclosed := hc.target_eq
    rw [unref_bump] at hinv' hclosed
    exact ⟨t', hinv', hr₃.of_target_eq hroot.open_pos (hclosed a hroot.open_pos),
      hc.inodeOn_zero h₃.vol ▸ hs', hslots⟩
  cases hm : m 0 with
  | true =>
    have hrem := ho.inv.unlink (e := { e with inUse := false }) hi hslot₂ hpos hino hlen
      (show e.inodeSector < wordSize by omega) rfl
    have hzero : inodeOn (t₂.unlink i { e with inUse := false } b ino).disk 0 =
        inodeOn t₂.disk 0 :=
      (ho.inv.vol.frame_entry (e := { e with inUse := false })
        (t := t₂.unlink i { e with inUse := false } b ino) hi hlen rfl rfl rfl).1 0 (.inl rfl)
    simp only [hm, if_true, returns_bind, inodeRemove, returns_modify, returns_pure]
    refine (@returns_inodeAt _ b ino (by exact hino) _).mpr ?_
    refine (hclose hrem.inv (hrem.isRoot hroot₂)
      ⟨_, (hrem.target_eq b _ _ _ hpos hself).choose_spec⟩ ⟨rfl, ?_⟩).mono ?_
    · rw [hzero]
      exact hdisk.patch _ _
    · rintro _ s' ⟨t', hinv', hroot', hs', hslots⟩
      refine ⟨t', hinv', hroot', hs', (hslots i hi).trans hrem.slot_self, fun j hj hji => ?_⟩
      rw [hslots j hj, hrem.slot_other j hj hji, ho.volume.slot_eq]
  | false =>
    simp only [hm, Bool.false_eq_true, if_false]
    rw [if_neg (by decide)]
    simp only [returns_bind, returns_pure]
    refine (hclose ho.inv hroot₂ ⟨_, hself⟩ ⟨rfl, hdisk⟩).mono ?_
    rintro _ s' ⟨t', hinv', hroot', hs', hslots⟩
    refine ⟨t', hinv', hroot', hs', fun j hj => ?_⟩
    rw [hslots j hj, ho.volume.slot_eq]

theorem DirInv.dirRemove_returns (h : DirInv refs a s) (pos : ℕ) (name : CString) :
    Returns (dirRemove ⟨a, pos⟩ name) s fun ok s' => DirInv refs a s' ∧ RemoveEnd s name ok s' := by
  obtain ⟨t, hinv, hroot, hs⟩ := h
  have hslots : ∀ i < 16, s.slot i = t.slot i := fun i hi => hs.slot_eq hinv.vol hi
  have hkept : ∀ m, Shadow (inodeOn t.disk 0) { s with mallocs := m } t := fun m =>
    ⟨by rw [hs.eq], hs.disk⟩
  rw [dirRemove, returns_bind, lookup, returns_bind]
  refine ((hs.rootDir hinv hroot).scanEntries_returns fun e => e.Matches name).mono ?_
  set found := s.search (fun e => e.Matches name) s.mallocs
  rintro ⟨b, e, ofs⟩ _ ⟨rfl, rfl, hofs, hlen, hentry⟩
  obtain rfl : ofs = 20 * found.2.1 := hofs
  rw [returns_pure]
  cases hb : found.1 with
  | false =>
    exact (returns_pure ..).mpr ⟨⟨t, hinv, hroot, hkept _⟩, .inr ⟨rfl, fun i _ => rfl⟩⟩
  | true =>
    rw [if_pos rfl]
    have hlt : s.nameIdx name < failIdx s.mallocs := of_decide_eq_true hb
    have hidx : found.2.1 = s.nameIdx name := min_eq_right hlt.le
    have hi : found.2.1 < 16 := hidx ▸ hlt.trans_le (firstIdx_le _ _)
    have hmatch : (s.entry found.2.1).Matches name = true := hidx ▸ apply_firstIdx (hidx ▸ hi)
    obtain rfl : e = s.entry found.2.1 := hentry hb
    obtain ⟨x, hx⟩ := matches_iff.mp hmatch
    have hsector : (s.entry found.2.1).inodeSector = x := inodeSector_of_slot hx
    have hslot : t.slot found.2.1 = some (name.bytes, x) := (hslots _ hi).symm.trans hx
    subst hsector
    simp only [returns_bind]
    refine ((hkept _).inodeOpen_returns hinv (.inr (.inr ⟨_, hi, _, hslot⟩))).mono ?_
    rintro _ s₂ (⟨rfl, hs₂⟩ | ⟨b, t₂, rfl, ho, hs₂⟩)
    · refine (returns_pure ..).mpr ⟨⟨t, hinv, hroot, hs₂⟩, .inr ⟨rfl, fun i hi => ?_⟩⟩
      rw [hs₂.slot_eq hinv.vol hi, hslots i hi]
    · refine (ho.dirRemove_returns hinv hroot hs₂ hi hslot hlen rfl).mono ?_
      rintro ok s' ⟨t', hinv', hroot', hs', hend⟩
      refine ⟨⟨t', hinv', hroot', hs'⟩, ?_⟩
      have hslots' : ∀ i < 16, s'.slot i = t'.slot i := fun i hi => hs'.slot_eq hinv'.vol hi
      cases ok with
      | true =>
        obtain ⟨hgone, hother⟩ := hend
        refine .inl ⟨rfl, _, hi, _, hx, (hslots' _ hi).trans hgone, fun j hj hji => ?_⟩
        rw [hslots' j hj, hother j hj hji, hslots j hj]
      | false =>
        refine .inr ⟨rfl, fun j hj => ?_⟩
        rw [hslots' j hj, hslots j hj]
        exact hend j hj

/-! ### Making a file -/

/-- **Behind, with memory to spare**: the states differ in the sectors of the free map file at
most, and the free map can be written. -/
structure Twin (d : InodeDisk) (s t : FsState) : Prop where
  eq : s = { t with disk := s.disk }
  disk : AgreeOn (fun k => ¬ d.Covers k) t.disk s.disk
  mallocs : t.MallocsSucceed
  mapFile : ∃ file ino, t.MapFile d.start file ino ∧ ino.data = d

def Tracks {α : Type} (d : InodeDisk) (x : Fs α) : Prop :=
  ∀ ⦃s t Q⦄, Twin d s t → Returns x t Q → Returns x s fun r s' => ∃ t', Q r t' ∧ Twin d s' t'

theorem Tracks.bind {β : Type} {x : Fs α} {f : α → Fs β} (hx : Tracks d x)
    (hf : ∀ r, Tracks d (f r)) : Tracks d (x >>= f) := by
  intro s t Q h hret
  rw [returns_bind] at hret ⊢
  refine (hx h hret).mono ?_
  rintro r s' ⟨t', hret', h'⟩
  exact hf r h' hret'

theorem tracks_pure (d : InodeDisk) (r : α) : Tracks d (pure r) := by
  intro s t Q h hret
  rw [returns_pure] at hret ⊢
  exact ⟨t, hret, h⟩

theorem tracks_assert (d : InodeDisk) (c : Prop) [Decidable c] (e : Panic) :
    Tracks d (assert c e) := by
  intro s t Q h hret
  rw [returns_assert] at hret ⊢
  exact ⟨hret.1, t, hret.2, h⟩

theorem tracks_malloc (d : InodeDisk) : Tracks d malloc := by
  intro s t Q h hret
  have hm : s.MallocsSucceed := fun n => by
    rw [h.eq]
    exact h.mallocs n
  rw [returns_malloc h.mallocs] at hret
  rw [returns_malloc hm]
  exact ⟨t, hret, h⟩

theorem tracks_blockWrite (d : InodeDisk) (sector : ℕ) (buffer : Bytes) :
    Tracks d (blockWrite sector buffer) := by
  intro s t Q h hret
  rw [blockWrite] at hret ⊢
  simp only [returns_bind, returns_get, returns_assert, returns_set] at hret ⊢
  obtain ⟨hlt, hQ⟩ := hret
  obtain ⟨file, ino, hf, hdata⟩ := h.mapFile
  refine ⟨by rw [h.eq]; exact hlt, _, hQ, ?_, h.disk.patch _ _, h.mallocs, file, ino,
    { hf with }, hdata⟩
  rw [h.eq]

theorem tracks_forM {f : ℕ → Fs PUnit} (hf : ∀ i, Tracks d (f i)) (is : List ℕ) :
    Tracks d (forM is f) := by
  induction is with
  | nil => exact tracks_pure d _
  | cons i is ih =>
    exact (hf i).bind fun _ => ih

theorem tracks_freeMapAllocate (cnt : ℕ) : Tracks d (freeMapAllocate cnt) := by
  intro s t Q h hret
  obtain ⟨file, ino, hf, hdata⟩ := h.mapFile
  obtain ⟨disk, rfl, hdisk⟩ : ∃ disk, s = { t with disk := disk } ∧
      AgreeOn (fun k => ¬ d.Covers k) t.disk disk := ⟨s.disk, h.eq, h.disk⟩
  rw [freeMapAllocate] at hret ⊢
  simp only [returns_bind, returns_get] at hret ⊢
  obtain ⟨k, map, hflip, -, hset⟩ | ⟨hflip, -⟩ := bitmapScanAndFlip_eq t.freeMap cnt false
  · have hf' := hf.setFreeMap hset.bitCnt_eq
    simp only [hflip, returns_liftM_ok, returns_set, returns_bind, hf.file_eq] at hret ⊢
    rw [bitmapWrite_returns (s := t.setFreeMap map) (b := map) h.mallocs hf' rfl] at hret
    rw [← hf.file_eq, bitmapWrite_returns (s := FsState.setFreeMap { t with disk := disk } map)
      (b := map) h.mallocs { hf' with } rfl]
    simp only [if_true, returns_pure] at hret ⊢
    exact ⟨_, hret, rfl, hdisk.patch _ _, h.mallocs, file, ino, { hf' with }, hdata⟩
  · simp only [hflip, returns_liftM_ok, returns_set, returns_pure] at hret ⊢
    exact ⟨_, hret, rfl, hdisk, h.mallocs, file, ino, { hf with }, hdata⟩

theorem tracks_inodeCreate (sector : ℕ) (length : ℤ) : Tracks d (inodeCreate sector length) := by
  refine (tracks_assert d _ _).bind fun _ => (tracks_malloc d).bind fun memory => ?_
  cases memory with
  | false => exact tracks_pure d _
  | true =>
    refine (tracks_freeMapAllocate _).bind fun start => ?_
    cases start with
    | none => exact tracks_pure d _
    | some start =>
      exact (tracks_blockWrite d _ _).bind fun _ =>
        (tracks_forM (fun i => tracks_blockWrite d _ _) _).bind fun _ => tracks_pure d _

/-- What `filesys_create` does before it adds the name to the directory; `none` is a failure. -/
def makeFile (size : ℤ) : Fs (Option ℕ) := do
  match ← freeMapAllocate 1 with
  | none => return none
  | some inodeSector =>
    if ← inodeCreate inodeSector size then
      return some inodeSector
    else
      return none

theorem tracks_makeFile (size : ℤ) : Tracks d (makeFile size) := by
  refine (tracks_freeMapAllocate 1).bind fun sector => ?_
  cases sector with
  | none => exact tracks_pure d _
  | some sector =>
    refine (tracks_inodeCreate sector size).bind fun made => ?_
    cases made with
    | false => exact tracks_pure d _
    | true => exact tracks_pure d _

theorem makeFile_returns (h : FsInv refs t) (h0 : 0 ≤ size) (hsize : size < 2 ^ 31) :
    Returns (makeFile size) t fun r u => Kept refs t u ∧ ∀ x, r = some x → u.Fresh x := by
  rw [makeFile, returns_bind]
  refine (h.freeMapAllocate_returns 1).mono ?_
  rintro _ u (⟨x, map, rfl, hfirst, hset, hu, hk⟩ | ⟨rfl, -, rfl⟩)
  · have hfree : t.freeMap.bit x = false := by simpa using hfirst.1.2 0 Nat.one_pos
    have hlt : x < t.size := by
      have := hfirst.1.1
      rw [h.vol.bitCnt_eq] at this
      omega
    have hmarked : u.freeMap.bit x = true := by
      rw [hu]
      exact (hset.bit_eq x).trans (if_pos ⟨le_rfl, Nat.lt_succ_self x⟩)
    have hunowned : ∀ o : Owner, ¬ o.Holds u x := fun o ho => by
      rw [h.vol.owner_marked (hk.owner ho)] at hfree
      cases hfree
    simp only [returns_bind]
    refine (inodeCreate_returns hk.inv h0 hsize (hk.size_eq ▸ hlt) hmarked hunowned).mono ?_
    rintro _ v (⟨rfl, hk', hfresh, -⟩ | ⟨rfl, -, rfl⟩)
    · refine (returns_pure ..).mpr ⟨hk.trans hk', fun y hy => ?_⟩
      obtain rfl := Option.some.inj hy
      exact hfresh
    · exact (returns_pure ..).mpr ⟨hk, fun y hy => by cases hy⟩
  · refine (returns_pure ..).mpr ⟨?_, fun y hy => by cases hy⟩
    exact ⟨h, .refl _, ⟨rfl, rfl⟩, rfl, fun _ _ => rfl, id⟩

theorem DirInv.makeFile_returns (h : DirInv refs a s) (hm : s.MallocsSucceed) (h0 : 0 ≤ size)
    (hsize : size < 2 ^ 31) : Returns (makeFile size) s fun _ s' => DirInv refs a s' := by
  obtain ⟨t, hinv, hroot, hs⟩ := h
  obtain ⟨file, ino, hf, hdata⟩ := hinv.mapFile_data
  rw [← hdata] at hs
  have htwin : Twin ino.data s t := by
    refine ⟨?_, hs.disk, hinv.table.mallocs, file, ino, hf, rfl⟩
    have hmallocs : s.mallocs = t.mallocs := funext fun n => by rw [hm n, hinv.table.mallocs n]
    have heq := hs.eq
    rwa [hmallocs] at heq
  refine (tracks_makeFile size htwin (OsMaterial.makeFile_returns hinv h0 hsize)).mono ?_
  rintro _ s' ⟨t', ⟨hk, -⟩, htwin'⟩
  -- the inode of the free map in memory is the one on the device, before and after
  obtain ⟨file₁, ino₁, hf₁, hdata₁⟩ := htwin'.mapFile
  obtain ⟨file₂, ino₂, hf₂, hdata₂⟩ := hk.inv.mapFile_data
  obtain rfl : file₁ = file₂ := Option.some.inj (hf₁.file_eq.symm.trans hf₂.file_eq)
  obtain rfl : ino₁ = ino₂ := Option.some.inj (hf₁.inode_eq.symm.trans hf₂.inode_eq)
  refine ⟨t', hk.inv, hroot.of_target_eq hroot.open_pos (hk.table.target_eq a), ?_, ?_⟩
  · rw [htwin'.eq]
  · rw [← hdata₂, hdata₁]
    exact htwin'.disk

/-! ### Runs -/

theorem Shadow.isFile_iff (hs : Shadow (inodeOn t.disk 0) s t) (h : VolInv t) (x : ℕ) :
    s.IsFile x ↔ t.IsFile x := by
  refine or_congr (bound_iff_of_slot (fun i hi => hs.slot_eq h hi) x) ?_
  rw [hs.eq]
  rfl

theorem Shadow.fresh (hs : Shadow (inodeOn t.disk 0) s t) (h : VolInv t) (hfresh : s.Fresh x) :
    t.Fresh x := by
  have hinodes : ∀ y, y = 0 ∨ y = 1 ∨ t.IsFile y → inodeOn s.disk y = inodeOn t.disk y :=
    fun y => inodeOn_eq_of_agree (hs.agreeOn_meta h)
  have hholds : ∀ {o : Owner} {k : ℕ}, o.Holds t k → o.Holds s k := fun {o k} ho =>
    holds_of_holds (s := s) (t := t) (fun y => (hs.isFile_iff h y).mpr)
      (fun y hy => (hinodes y (hy.imp_right (.imp_right (hs.isFile_iff h y).mp))).symm) ho
  have hinode : inodeOn s.disk x = inodeOn t.disk x :=
    hs.disk.inodeOn_eq fun hk => hfresh.sector_unowned .freeMapData (hholds ⟨trivial, hk⟩)
  have hrun : dataRun s.disk x = dataRun t.disk x := by rw [dataRun, hinode, dataRun]
  have hsize : s.size = t.size := by rw [hs.eq]
  have hmap : s.freeMap = t.freeMap := by rw [hs.eq]
  exact
    { length_nonneg := hinode ▸ hfresh.length_nonneg
      sector_lt := hsize ▸ hfresh.sector_lt
      sector_marked := hmap ▸ hfresh.sector_marked
      sector_unowned := fun o ho => hfresh.sector_unowned o (hholds ho)
      run_le := by rw [← hrun, ← hsize]; exact hfresh.run_le
      run_marked := by rw [← hrun, ← hmap]; exact hfresh.run_marked
      run_unowned := fun k h₁ h₂ o ho => hfresh.run_unowned k (hrun ▸ h₁) (hrun ▸ h₂) o (hholds ho)
      run_ne := by rw [← hrun]; exact hfresh.run_ne }

theorem DirInv.dirAdd_returns (h : DirInv refs a s) (hfresh : s.Fresh x) (hgood : ¬ s.Misled name)
    (pos : ℕ) : Returns (dirAdd ⟨a, pos⟩ name x) s fun _ s' => DirInv refs a s' := by
  refine (h.rootDir.dirAdd_returns pos name x).mono ?_
  rintro ok s' (⟨-, -, hs'⟩ | ⟨e, hwrites, -, hlen, huse, hname, hsector, hs'⟩)
  · rw [hs']
    exact h.withMallocs _
  · obtain ⟨t, hinv, hroot, hs⟩ := h
    have hslots : ∀ i < 16, s.slot i = t.slot i := fun i hi => hs.slot_eq hinv.vol hi
    have hunbound : ¬ t.BoundName name := by
      rintro ⟨i, hi, y, hy⟩
      exact hgood ⟨hwrites, .inl (FsState.boundName_iff.mp ⟨i, hi, y, (hslots i hi).trans hy⟩)⟩
    have hj := hwrites.room
    have hfree : t.slot s.addIdx = none := (hslots _ hj).symm.trans
      ((FsState.slot_addIdx hj).mpr fun hcut => hgood ⟨hwrites, .inr hcut⟩)
    have hofs : s.slotOfs s.addIdx = t.slotOfs s.addIdx := by
      rw [FsState.slotOfs, inodeOn_eq_of_agree (hs.agreeOn_meta hinv.vol)
        (.inr (.inl rfl)), FsState.slotOfs]
    obtain ⟨hinv', -, -, -⟩ := hinv.bind (hs.fresh hinv.vol hfresh) hj hfree
      hwrites.valid hunbound hlen huse hname hsector
    have hzero := (hinv.vol.frame_entry (t := t.patchDisk (t.slotOfs s.addIdx) (encodeEntry e)) hj
      hlen rfl rfl rfl).1 0 (.inl rfl)
    refine ⟨_, hinv', hroot.of_target_eq hroot.open_pos rfl, ?_, ?_⟩
    · rw [hs', hs.eq]
      rfl
    · rw [hzero, hs', hofs]
      exact hs.disk.patch _ _

inductive DirCall where
  | make (size : Int32)
  | add (name : CString) (inodeSector : ℕ) (mallocs : ℕ → Bool)
  | remove (name : CString) (mallocs : ℕ → Bool)

namespace DirCall

def mallocs : DirCall → ℕ → Bool
  | make _ => fun _ => true
  | add _ _ mallocs => mallocs
  | remove _ mallocs => mallocs

def exec (dir : Dir) : DirCall → Fs Unit
  | make size => do
      let _ ← makeFile size.toInt
  | add name inodeSector _ => do
      let _ ← dirAdd dir name inodeSector
  | remove name _ => do
      let _ ← dirRemove dir name

/-- `dir_add` is called with a file that was made, and is not misled. -/
def Undisturbed (s : FsState) : DirCall → Prop
  | make size => 0 ≤ size.toInt
  | add name inodeSector mallocs => s.Fresh inodeSector ∧
      ¬ FsState.Misled { s with mallocs := mallocs } name
  | remove _ _ => True

end DirCall

def dirMachine (s : FsState) (dir : Dir) : Machine FsState DirCall Panic where
  start := s
  step s call :=
    match (call.exec dir).run { s with mallocs := call.mallocs } with
    | .ok (_, t) => .next t
    | .error e => .fault e

theorem dirMachine_step {call : DirCall} {P : FsState → Prop}
    (hcall : Returns (call.exec dir) { s with mallocs := call.mallocs } fun _ s' => P s')
    (hstep : (dirMachine s₀ dir).step s call = .next t) : P t := by
  obtain ⟨_, s', hrun, hP⟩ := hcall
  dsimp only [dirMachine] at hstep
  rw [hrun] at hstep
  cases hstep
  exact hP

theorem dirInv_of_reachable (pos : ℕ) (h₀ : DirInv refs a s₀)
    (hr : (dirMachine s₀ ⟨a, pos⟩).ReachableUnder DirCall.Undisturbed s) : DirInv refs a s := by
  refine hr.invariant h₀ fun s t call _ h hok hstep => ?_
  refine dirMachine_step (P := DirInv refs a) ?_ hstep
  have hm := h.withMallocs call.mallocs
  cases call with
  | make size =>
    rw [DirCall.exec, returns_bind]
    exact (hm.makeFile_returns (fun _ => rfl) hok size.toInt_lt).mono
      fun _ _ h' => (returns_pure ..).mpr h'
  | add name x mallocs =>
    have hfresh : FsState.Fresh { s with mallocs := mallocs } x := { hok.1 with }
    rw [DirCall.exec, returns_bind]
    exact (hm.dirAdd_returns hfresh hok.2 pos).mono fun _ _ h' => (returns_pure ..).mpr h'
  | remove name mallocs =>
    rw [DirCall.exec, returns_bind]
    exact (hm.dirRemove_returns pos name).mono fun _ _ h' => (returns_pure ..).mpr h'.1

theorem ClientInv.dirInv {m d : ℕ} (hc : ClientInv m c) (hdir : c.dirs[d]? = some (some dir)) :
    DirInv (c.refs m) dir.inode c.fs :=
  ⟨c.fs, hc.inv, hc.isRoot hdir, rfl, .refl _ _⟩

/-- **The directory under failures of `malloc`**: a call does what it is to do or changes nothing,
**exactly when** `dir_add` is not misled by the answers of `malloc`. -/
theorem dir_tolerates_iff {s₀ s : FsState} {c : Client} {d : ℕ} {dir : Dir} (hs : JustFormatted s₀)
    (hc : (fsMachine s₀).Reachable c) (hdir : c.dirs[d]? = some (some dir))
    (hr : (dirMachine c.fs dir).ReachableUnder DirCall.Undisturbed s) :
    (∀ i < 16, ∀ j < 16, ∀ name x y, s.slot i = some (name, x) → s.slot j = some (name, y) →
      i = j) ∧
    ∀ (mallocs : ℕ → Bool) (name : CString),
      Returns (dirRemove dir name) { s with mallocs := mallocs } (RemoveEnd s name) ∧
      ∀ x < wordSize,
        (Returns (dirAdd dir name x) { s with mallocs := mallocs } (AddEnd s name x) ↔
          ¬ FsState.Misled { s with mallocs := mallocs } name) := by
  obtain ⟨m, hinv⟩ := clientInv_of_reachable hs hc
  have h := dirInv_of_reachable dir.pos (hinv.dirInv hdir) hr
  refine ⟨fun i hi j hj name x y hx hy => ?_, fun mallocs name => ⟨?_, fun x hx => ?_⟩⟩
  · obtain ⟨t, hinv, -, hs⟩ := h
    exact hinv.vol.name_inj hi hj ((hs.slot_eq hinv.vol hi).symm.trans hx)
      ((hs.slot_eq hinv.vol hj).symm.trans hy)
  · exact ((h.withMallocs mallocs).dirRemove_returns dir.pos name).mono fun _ _ hend => hend.2
  · exact (h.withMallocs mallocs).rootDir.dirAdd_iff dir.pos name hx

theorem exists_dir_with_file (name : CString) (hvalid : name.Valid) :
    ∃ (s₀ : FsState) (c : Client) (dir : Dir) (i x : ℕ), JustFormatted s₀ ∧
      (fsMachine s₀).Reachable c ∧ c.dirs[0]? = some (some dir) ∧ i < 16 ∧
      c.fs.slot i = some (name.bytes, x) ∧ ∀ j < 16, j ≠ i → c.fs.slot j = none := by
  obtain ⟨s₀, t, i, x, hs, -, hcreate, hbound, hempty⟩ :=
    exists_created 0 hvalid (by decide) (by decide)
  have hreach := reachable_of_exec .start hcreate
  obtain ⟨m, hinv⟩ := clientInv_of_reachable hs hreach
  obtain ⟨_, u, ⟨a, rfl, ho⟩, hopen⟩ := Client.call_of_returns (dirOpenRoot_returns hinv.inv)
    (Client.addDir ⟨t, [], []⟩)
  have hexec : Client.exec ⟨t, [], []⟩ .openDir = _ := hopen
  refine ⟨s₀, _, ⟨a, 0⟩, i, x, hs, reachable_of_exec hreach hexec, rfl, hbound.lt,
    (ho.volume.slot_eq i).trans hbound.slot_eq, fun j hj hji => ?_⟩
  rw [ho.volume.slot_eq, hbound.slot_other j hj hji, hempty j hj]

/-- **A name that is bound twice**: when the first call of `malloc` fails, the search for the name
ends at once, and `dir_add` binds it again. -/
theorem dirAdd_binds_twice : ∃ (s₀ : FsState) (c : Client) (dir : Dir) (name : CString)
    (mallocs : ℕ → Bool), JustFormatted s₀ ∧ (fsMachine s₀).Reachable c ∧
      c.dirs[0]? = some (some dir) ∧ ∀ x < wordSize, ∃ t,
        (dirAdd dir name x).run { c.fs with mallocs := mallocs } = .ok (true, t) ∧
        ∃ i < 16, ∃ j < 16, ∃ y, i ≠ j ∧ t.slot i = some (name.bytes, y) ∧
          t.slot j = some (name.bytes, x) := by
  have hvalid : CString.Valid ⟨[0x61], by decide⟩ := by decide
  obtain ⟨s₀, c, dir, i, y, hs, hc, hdir, hi, hslot, hother⟩ := exists_dir_with_file _ hvalid
  set name : CString := ⟨[0x61], by decide⟩
  obtain ⟨m, hinv⟩ := clientInv_of_reachable hs hc
  set answers : ℕ → Bool := fun n => decide (n ≠ 0) with hanswers
  have hroot := ((hinv.dirInv hdir).withMallocs answers).rootDir
  refine ⟨s₀, c, dir, name, answers, hs, hc, hdir, fun x hx => ?_⟩
  set s : FsState := { c.fs with mallocs := answers } with hsdef
  have hslots : ∀ k, s.slot k = c.fs.slot k := fun k => rfl
  -- the first call of `malloc` fails, and no other
  have hfail : failIdx answers = 0 := Nat.le_zero.mp (firstIdx_le_of rfl)
  have hleft : leftover answers = fun _ => true := funext fun k => by simp [leftover, hanswers]
  obtain ⟨j, hj, hji⟩ : ∃ j < 16, j ≠ i := by
    by_cases h0 : i = 0
    · exact ⟨1, by decide, by omega⟩
    · exact ⟨0, by decide, by omega⟩
  have hfree : s.freeIdx ≤ j := FsState.freeIdx_le ((hslots j).trans (hother j hj hji))
  have hroom : s.addIdx < 16 := (min_le_right _ _).trans_lt (hfree.trans_lt hj)
  have hwrites : s.Writes name := ⟨hvalid, by rw [hsdef, hfail]; exact Nat.zero_le _, hroom, by
    rw [hsdef, hleft]⟩
  have hused : s.slot s.addIdx = none := by
    rw [FsState.slot_addIdx hroom, hsdef, hleft, not_lt]
    exact firstIdx_le _ _
  obtain ⟨ok, t, hrun, ⟨hnot, -⟩ | ⟨e, -, rfl, hlen, huse, hname, rfl, ht⟩⟩ :=
    hroot.dirAdd_returns dir.pos name x
  · exact absurd hwrites hnot
  · obtain ⟨hself, hkept⟩ := hroot.slot_patch hroom hlen hx huse ht
    have hne : i ≠ s.addIdx := by
      intro heq
      rw [← heq, hslots, hslot] at hused
      cases hused
    exact ⟨t, hrun, i, hi, s.addIdx, hroom, y, hne, (hkept i hi hne).trans hslot, hname ▸ hself⟩

/-- Without any memory, neither call harms a directory with one file. -/
theorem dir_tolerates_no_memory : ∃ (s₀ : FsState) (c : Client) (dir : Dir) (name : CString),
    JustFormatted s₀ ∧ (fsMachine s₀).Reachable c ∧ c.dirs[0]? = some (some dir) ∧
      c.fs.BoundName name ∧
      Returns (dirRemove dir name) { c.fs with mallocs := fun _ => false } (RemoveEnd c.fs name) ∧
      Returns (dirAdd dir name 5) { c.fs with mallocs := fun _ => false } (AddEnd c.fs name 5) := by
  obtain ⟨s₀, c, dir, i, y, hs, hc, hdir, hi, hslot, -⟩ :=
    exists_dir_with_file ⟨[0x61], by decide⟩ (by decide)
  obtain ⟨-, hall⟩ := dir_tolerates_iff hs hc hdir .start
  obtain ⟨hremove, hadd⟩ := hall (fun _ => false) ⟨[0x61], by decide⟩
  refine ⟨s₀, c, dir, _, hs, hc, hdir, ⟨i, hi, y, hslot⟩, hremove, (hadd 5 (by decide)).mpr ?_⟩
  -- the entry could not be written
  exact fun h => Bool.false_ne_true h.memory

end

end OsMaterial
