import OsMaterial.FreshFiles
import OsMaterial.Ustar

/-!
# Archives on the Scratch Device

`fsutil_append` of `filesys/fsutil.c` writes a file to a **scratch device**, in ustar format, after
those of earlier calls, and `fsutil_extract` makes the files of an archive. Both go by whole sectors
from a static variable on. The bytes `image` of `Archive files image` are a header and the padded
contents for each of the files.

* `archive_round_trip`: what was appended is extracted.
* `extract_nothing_appended`: nothing is promised when nothing was appended.
-/

namespace OsMaterial

open List

/-! ### The calls -/

structure FsutilState where
  fs : FsState
  scratchSize : ℕ
  scratch : ℕ → UInt8
  extractSector : ℕ
  appendSector : ℕ

def FsutilState.boot (fs : FsState) (scratchSize : ℕ) (scratch : ℕ → UInt8) : FsutilState :=
  { fs, scratchSize, scratch, extractSector := 0, appendSector := 0 }

inductive FsutilPanic where
  | fs (e : Panic)
  | ustar (e : UstarPanic)
  | buffers
  | pastEnd (sector size : ℕ)
  | badHeader (sector : ℕ) (error : UstarError)
  | createFailed (fileName : CString)
  | openFailed (fileName : CString)
  | writeFailed (fileName : CString) (size : ℕ)
  | nameTooLong (fileName : CString)
  | outOfSpace (fileName : CString)
  | readFailed (fileName : CString) (size : ℕ)
  | endless

abbrev Fsutil (α : Type) : Type := Call FsutilPanic FsutilState α

def liftFs {α : Type} (x : Fs α) : Fsutil α := do
  let s ← get
  match x.run s.fs with
  | .ok (a, fs) =>
    set { s with fs }
    return a
  | .error e => throw (.fs e)

def readNext : Fsutil Bytes := do
  let s ← get
  assert (s.extractSector < s.scratchSize) (.pastEnd s.extractSector s.scratchSize)
  set { s with extractSector := s.extractSector + 1 }
  return sectorBytes s.scratch s.extractSector

def scratchWrite (sector : ℕ) (buffer : Bytes) : Fsutil Unit := do
  let s ← get
  assert (sector < s.scratchSize) (.pastEnd sector s.scratchSize)
  set { s with scratch := patch s.scratch (512 * sector) buffer }

def writeNext (buffer : Bytes) : Fsutil Unit := do
  let s ← get
  scratchWrite s.appendSector buffer
  modify fun s => { s with appendSector := s.appendSector + 1 }

def fileLength (file : File) : Fs ℤ := do
  let ino ← inodeAt file.inode
  return ino.data.length

def extractData (fileName : CString) : ℕ → File → ℕ → Fsutil File
  | 0, _, _ => throw .endless
  | fuel + 1, dst, size =>
    if size > 0 then do
      let chunkSize := if size > 512 then 512 else size
      let data ← readNext
      let (written, dst) ← liftFs (fileWrite dst (data.take chunkSize))
      if written ≠ chunkSize then
        throw (.writeFailed fileName size)
      extractData fileName fuel dst (size - chunkSize)
    else
      return dst

def extractFile (fileName : CString) (size : ℕ) : Fsutil Unit := do
  if ← liftFs (filesysCreate fileName size) then
    match ← liftFs (filesysOpen fileName) with
    | none => throw (.openFailed fileName)
    | some dst =>
      let dst ← extractData fileName (size / 512 + 2) dst size
      liftFs (fileClose dst)
  else
    throw (.createFailed fileName)

def extractLoop : ℕ → Fsutil Unit
  | 0 => throw .endless
  | fuel + 1 => do
      let header ← readNext
      match ustarParseHeader header with
      | .error error => throw (.badHeader ((← get).extractSector - 1) error)
      | .ok entry =>
        match entry.type, entry.fileName with
        | .eof, _ => return
        | .directory, _ => extractLoop fuel
        | .regular, some fileName =>
          extractFile fileName entry.size
          extractLoop fuel
        | .regular, none => throw (.fs .badPointer)

def fsutilExtract : Fsutil Unit := do
  let header ← liftFs malloc
  let data ← liftFs malloc
  if header = false ∨ data = false then
    throw .buffers
  extractLoop ((← get).scratchSize + 1)
  scratchWrite 0 zeros
  scratchWrite 1 zeros

def appendData (fileName : CString) : ℕ → File → ℕ → Fsutil File
  | 0, _, _ => throw .endless
  | fuel + 1, src, size =>
    if size > 0 then do
      let chunkSize := if size > 512 then 512 else size
      let s ← get
      if s.appendSector ≥ s.scratchSize then
        throw (.outOfSpace fileName)
      let (data, src) ← liftFs (fileRead src chunkSize)
      if data.length ≠ chunkSize then
        throw (.readFailed fileName size)
      writeNext (data ++ replicate (512 - chunkSize) 0)
      appendData fileName fuel src (size - chunkSize)
    else
      return src

def fsutilAppend (fileName : CString) : Fsutil Unit := do
  let buffer ← liftFs malloc
  if buffer = false then
    throw .buffers
  match ← liftFs (filesysOpen fileName) with
  | none => throw (.openFailed fileName)
  | some src =>
    let size ← liftFs (fileLength src)
    match ustarMakeHeader fileName .regular (size % wordSize).toNat with
    | .error e => throw (.ustar e)
    | .ok none => throw (.nameTooLong fileName)
    | .ok (some header) =>
      writeNext header.flat
      let src ← appendData fileName (size.toNat / 512 + 2) src size.toNat
      let sector := (← get).appendSector
      scratchWrite sector zeros
      scratchWrite (sector + 1) zeros
      liftFs (fileClose src)

variable {s : FsutilState}

/-! ### Rules -/

section

@[simp] theorem returns_liftFs {α : Type} (x : Fs α) (Q : α → FsutilState → Prop) :
    Returns (liftFs x) s Q ↔ Returns x s.fs fun a fs => Q a { s with fs } := by
  cases hx : x.run s.fs with
  | error e =>
    have hlift : (liftFs x).run s = .error (.fs e) := by
      rw [liftFs, StateT.run_bind, StateT.run_get, pure_bind, hx]
      rfl
    constructor
    · rintro ⟨a, t, hrun, -⟩
      rw [hlift] at hrun
      cases hrun
    · rintro ⟨a, fs, hrun, -⟩
      rw [hx] at hrun
      cases hrun
  | ok r =>
    have hlift : (liftFs x).run s = .ok (r.1, { s with fs := r.2 }) := by
      rw [liftFs, StateT.run_bind, StateT.run_get, pure_bind, hx]
      rfl
    rw [returns_iff_of_run hlift, returns_iff_of_run hx]

theorem returns_readNext (h : s.extractSector < s.scratchSize) (Q : Bytes → FsutilState → Prop) :
    Returns readNext s Q ↔ Q (sectorBytes s.scratch s.extractSector)
      { s with extractSector := s.extractSector + 1 } := by
  rw [readNext]
  simp only [returns_bind, returns_get, returns_assert, h, true_and, returns_set, returns_pure]

theorem returns_scratchWrite {sector : ℕ} (h : sector < s.scratchSize) (buffer : Bytes)
    (Q : Unit → FsutilState → Prop) :
    Returns (scratchWrite sector buffer) s Q ↔
      Q () { s with scratch := patch s.scratch (512 * sector) buffer } := by
  rw [scratchWrite]
  simp only [returns_bind, returns_get, returns_assert, h, true_and, returns_set]

theorem returns_writeNext (h : s.appendSector < s.scratchSize) (buffer : Bytes)
    (Q : Unit → FsutilState → Prop) :
    Returns (writeNext buffer) s Q ↔ Q () { s with
      scratch := patch s.scratch (512 * s.appendSector) buffer
      appendSector := s.appendSector + 1 } := by
  rw [writeNext]
  simp only [returns_bind, returns_get, returns_scratchWrite h, returns_modify]

end

/-! ### The format of an archive -/

def sectorCount (n : ℕ) : ℕ := (n + 511) / 512

def padded (bytes : Bytes) : Bytes :=
  bytes ++ replicate (512 * sectorCount bytes.length - bytes.length) 0

/-- The bytes are **an archive of the files**. -/
inductive Archive : List StoredFile → Bytes → Prop
  | nil : Archive [] []
  | cons {f : StoredFile} {files : List StoredFile} {header image : Bytes}
      (describes : Describes header f.name .regular f.bytes.length) (rest : Archive files image) :
      Archive (f :: files) (header ++ (padded f.bytes ++ image))

def archiveSectors (files : List StoredFile) : ℕ :=
  (files.map fun f => 1 + sectorCount f.bytes.length).sum

theorem length_padded (bytes : Bytes) : (padded bytes).length = 512 * sectorCount bytes.length := by
  rw [padded, length_append, length_replicate, sectorCount]
  omega

variable {files : List StoredFile} {bytes image : Bytes} {fs : FsState} {f : StoredFile}
  {scratch : ℕ → UInt8} {size : ℕ}

theorem padded_of_length_zero (h : bytes.length = 0) : padded bytes = [] :=
  eq_nil_of_length_eq_zero (by rw [length_padded, h]; rfl)

variable {c : ℕ} (hc : c = if bytes.length > 512 then 512 else bytes.length)

include hc

theorem chunk_facts {n : ℕ} (hn : bytes.length ≤ 512 * (n + 1)) :
    c ≤ bytes.length ∧ (bytes.drop c).length ≤ 512 * n ∧ (bytes.take c).length = c ∧
      (bytes.take c ++ replicate (512 - c) 0).length = 512 := by
  have hle : c ≤ bytes.length ∧ c ≤ 512 := by split at hc <;> omega
  have hlen : (bytes.take c).length = c := by rw [length_take]; omega
  refine ⟨hle.1, ?_, hlen, ?_⟩
  · rw [length_drop]
    split at hc <;> omega
  · rw [length_append, hlen, length_replicate]
    omega

theorem padded_eq (hpos : 0 < bytes.length) :
    padded bytes = (bytes.take c ++ replicate (512 - c) 0) ++ padded (bytes.drop c) ∧
      sectorCount bytes.length = 1 + sectorCount (bytes.drop c).length := by
  rw [length_drop]
  split at hc
  · subst hc
    have hcount : sectorCount bytes.length = 1 + sectorCount (bytes.length - 512) := by
      rw [sectorCount, sectorCount]
      omega
    have hzeros : 512 * (1 + sectorCount (bytes.length - 512)) - bytes.length =
        512 * sectorCount (bytes.length - 512) - (bytes.length - 512) := by
      omega
    refine ⟨?_, hcount⟩
    rw [padded, padded, length_drop, hcount, hzeros, Nat.sub_self, replicate_zero,
      append_nil, ← append_assoc, take_append_drop]
  · subst hc
    have hcount : sectorCount bytes.length = 1 + sectorCount (bytes.length - bytes.length) := by
      rw [sectorCount, sectorCount]
      omega
    refine ⟨?_, hcount⟩
    have hone : 1 + sectorCount (bytes.length - bytes.length) = 1 := by
      rw [Nat.sub_self, sectorCount]
    rw [drop_length, padded_of_length_zero length_nil, append_nil,
      take_length, padded, hcount, hone]

omit hc

theorem Archive.length_eq (h : Archive files image) :
    image.length = 512 * archiveSectors files := by
  induction h with
  | nil => rfl
  | cons hd _ ih =>
    rw [length_append, length_append, hd.length, length_padded, ih]
    simp only [archiveSectors, map_cons, sum_cons]
    omega

theorem Archive.append {files' : List StoredFile} {image' : Bytes} (h : Archive files image)
    (h' : Archive files' image') : Archive (files ++ files') (image ++ image') := by
  induction h with
  | nil => exact h'
  | cons hd _ ih =>
    rw [cons_append, append_assoc, append_assoc]
    exact .cons hd ih

variable {refs : ℕ → ℕ} {x : ℕ}

/-! ### Appending -/

section

variable {d : ℤ}

theorem appendData_returns (name : CString) (n : ℕ) (src : File) (bytes : Bytes)
    (hf : IsOpen refs s.fs src.inode x d) (h : FsInv refs s.fs)
    (hbytes : (s.fs.contents x).drop src.pos = bytes) (hn : bytes.length ≤ 512 * n)
    (hspace : s.appendSector + sectorCount bytes.length ≤ s.scratchSize) :
    Returns (appendData name (n + 1) src bytes.length) s fun src' t =>
      src'.inode = src.inode ∧ src'.denyWrite = src.denyWrite ∧ t = { s with
        scratch := patch s.scratch (512 * s.appendSector) (padded bytes)
        appendSector := s.appendSector + sectorCount bytes.length } := by
  induction n generalizing s src bytes with
  | zero =>
    have hzero : bytes.length = 0 := by omega
    rw [appendData, if_neg (by omega), returns_pure, padded_of_length_zero hzero, hzero, patch_nil]
    exact ⟨rfl, rfl, rfl⟩
  | succ n ih =>
    rw [appendData]
    split
    · next hpos =>
      obtain ⟨c, hc⟩ : ∃ c, c = if bytes.length > 512 then 512 else bytes.length := ⟨_, rfl⟩
      obtain ⟨hpadded, hcount⟩ := padded_eq hc hpos
      obtain ⟨-, hleft, hlen, hbuffer⟩ := chunk_facts hc hn
      have hsector : s.appendSector < s.scratchSize := by omega
      rw [← hc]
      simp only [returns_bind, returns_get]
      rw [if_neg (by omega)]
      simp only [returns_bind, returns_liftFs]
      refine (fileRead_returns hf h c).mono ?_
      rintro _ _ ⟨rfl, rfl⟩
      rw [hbytes, hlen, if_neg (not_not.mpr rfl)]
      simp only [returns_bind]
      rw [returns_writeNext (by exact hsector)]
      rw [← length_drop]
      refine (ih (s := { s with
        scratch := patch s.scratch (512 * s.appendSector) (bytes.take c ++ replicate (512 - c) 0)
        appendSector := s.appendSector + 1 })
        { src with pos := src.pos + c } _ hf h ?_ hleft (by dsimp only; omega)).mono ?_
      · rw [← hbytes, drop_drop]
      · rintro src' t ⟨hinode, hdeny, rfl⟩
        refine ⟨hinode, hdeny, ?_⟩
        have hofs : 512 * (s.appendSector + 1) = 512 * s.appendSector +
            (bytes.take c ++ replicate (512 - c) 0).length := by
          omega
        rw [hofs, patch_append, ← hpadded, hcount, ← Nat.add_assoc]
    · next hpos =>
      have hzero : bytes.length = 0 := by omega
      rw [returns_pure, padded_of_length_zero hzero, hzero, patch_nil]
      exact ⟨rfl, rfl, rfl⟩

theorem fileLength_returns {file : File} (hf : IsOpen refs fs file.inode x d) (h : FsInv refs fs)
    (Q : ℤ → FsState → Prop) : Returns (fileLength file) fs Q ↔ Q (fs.contents x).length fs := by
  obtain ⟨ino, hino, -, -, -, hdata, hfile⟩ := hf.node h
  have hlen : ((fs.contents x).length : ℤ) = ino.data.length := by
    rw [length_contents, hdata, Int.toNat_of_nonneg (h.vol.file_length hfile)]
  rw [fileLength, returns_bind, returns_inodeAt hino, returns_pure, hlen]

theorem length_contents_lt (fs : FsState) (x : ℕ) : (fs.contents x).length < 2 ^ 31 := by
  have := inodeOn_length_lt fs.disk x
  rw [length_contents]
  omega

/-- **`fsutil_append`** writes a header, the padded contents, and two sectors of zeros, and
stops before the zeros. -/
theorem fsutilAppend_returns (h : FsInv refs s.fs) (hclean : f.name.strip = f.name)
    (hfile : s.fs.HasFile f.name.bytes f.bytes)
    (hspace : s.appendSector + sectorCount f.bytes.length + 3 ≤ s.scratchSize) :
    Returns (fsutilAppend f.name) s fun _ t => ∃ header fs,
      Describes header f.name .regular f.bytes.length ∧ FsInv refs fs ∧ SameVolume s.fs fs ∧
        t = { s with
          fs
          scratch := patch s.scratch (512 * s.appendSector)
            ((header ++ padded f.bytes) ++ replicate 1024 0)
          appendSector := s.appendSector + (1 + sectorCount f.bytes.length) } := by
  obtain ⟨i, hi, x, hslot, hcontents⟩ := hfile
  have hvalid := h.vol.name_valid hi hslot
  have hlt : f.bytes.length < 2 ^ 31 := hcontents ▸ length_contents_lt s.fs x
  have hword : ((f.bytes.length : ℤ) % wordSize).toNat = f.bytes.length := by
    rw [wordSize]
    omega
  rw [fsutilAppend]
  simp only [returns_bind, returns_liftFs, returns_malloc h.table.mallocs]
  rw [if_neg (by decide)]
  simp only [returns_bind, returns_liftFs]
  refine (filesysOpen_returns h f.name).mono ?_
  rintro _ fs (⟨j, hj, y, b, hslot', rfl, ho⟩ | ⟨hunbound, -⟩)
  · obtain rfl := h.vol.name_inj hi hj hslot hslot'
    obtain ⟨-, rfl⟩ := Prod.mk.inj (Option.some.inj (hslot.symm.trans hslot'))
    obtain ⟨d, htarget, -⟩ := ho.target_self
    have hf : IsOpen (bump refs b) fs b x d :=
      ⟨by simp [bump], ⟨false, htarget⟩, h.vol.two_le (.inl ⟨i, hi, _, hslot⟩)⟩
    have hbytes : fs.contents x = f.bytes := (ho.volume.contents_eq x).trans hcontents
    simp only [returns_bind, returns_liftFs]
    rw [fileLength_returns (by exact hf) ho.inv, hbytes, hword, Int.toNat_natCast]
    have hregular : UstarType.regular ≠ .eof := by decide
    obtain ⟨hlong, -⟩ | ⟨-, header, hmake, hdesc⟩ := ustarMakeHeader_spec f.name hregular hlt
    · rw [hclean] at hlong
      omega
    · rw [hclean] at hdesc
      rw [hmake]
      simp only [returns_bind, returns_liftFs]
      rw [returns_writeNext (by dsimp only; omega)]
      refine (appendData_returns f.name (f.bytes.length / 512 + 1) ⟨b, 0, false⟩ f.bytes
        (by exact hf) ho.inv (by exact hbytes) (by omega) (by dsimp only; omega)).mono ?_
      rintro src t ⟨hinode, hdeny, rfl⟩
      simp only [returns_get]
      rw [returns_scratchWrite (by dsimp only; omega), returns_scratchWrite (by dsimp only; omega)]
      refine (fileClose_returns (by rw [hinode]; exact hf) ho.inv (by simp [hdeny])).mono ?_
      rintro _ fs' ⟨fs₁, hc, hfs₁⟩
      rw [hdeny, if_neg Bool.false_ne_true] at hfs₁
      subst hfs₁
      rw [hinode] at hc
      obtain ⟨hinv, -, ⟨hvol, -⟩ | ⟨y, e, -, hremoved, -⟩⟩ := hc
      · rw [unref_bump] at hinv
        refine ⟨header.flat, fs', hdesc, hinv, ho.volume.trans hvol, ?_⟩
        have h₁ : 512 * (s.appendSector + 1) = 512 * s.appendSector + header.flat.length := by
          rw [hdesc.length]
          omega
        have h₂ : 512 * (s.appendSector + 1 + sectorCount f.bytes.length) =
            512 * s.appendSector + (header.flat ++ padded f.bytes).length := by
          rw [length_append, hdesc.length, length_padded]
          omega
        have h₃ : 512 * (s.appendSector + 1 + sectorCount f.bytes.length + 1) =
            512 * s.appendSector + (header.flat ++ padded f.bytes ++ zeros).length := by
          rw [length_append, zeros, length_replicate]
          omega
        have hzeros : zeros ++ zeros = replicate 1024 0 := replicate_append_replicate
        rw [h₃, h₂, h₁, patch_append, patch_append, patch_append, append_assoc _ zeros,
          hzeros, Nat.add_assoc]
      · rw [htarget] at hremoved
        cases hremoved
  · exact absurd ⟨i, hi, x, hslot⟩ hunbound

end

structure Appended (refs : ℕ → ℕ) (base : ℕ → UInt8) (done : List StoredFile) (tail : Bytes)
    (s : FsutilState) : Prop where
  inv : FsInv refs s.fs
  sector_eq : s.appendSector = archiveSectors done
  image : ∃ image, Archive done image ∧ s.scratch = patch base 0 (image ++ tail)

theorem archiveSectors_append (files files' : List StoredFile) :
    archiveSectors (files ++ files') = archiveSectors files + archiveSectors files' := by
  rw [archiveSectors, map_append, sum_append]
  rfl

variable {done : List StoredFile}

section

variable {base : ℕ → UInt8} {tail : Bytes}

theorem Appended.append_returns (h : Appended refs base done tail s) (htail : tail.length ≤ 1024)
    (hclean : f.name.strip = f.name) (hfile : s.fs.HasFile f.name.bytes f.bytes)
    (hspace : archiveSectors done + archiveSectors [f] + 2 ≤ s.scratchSize) :
    Returns (fsutilAppend f.name) s fun _ t => SameVolume s.fs t.fs ∧
      t.scratchSize = s.scratchSize ∧ Appended refs base (done ++ [f]) (replicate 1024 0) t := by
  obtain ⟨image, harchive, hscratch⟩ := h.image
  have hone : archiveSectors [f] = 1 + sectorCount f.bytes.length := rfl
  have hsector := h.sector_eq
  refine (fsutilAppend_returns h.inv hclean hfile (by omega)).mono ?_
  rintro _ t ⟨header, fs, hdesc, hinv, hvol, rfl⟩
  refine ⟨hvol, rfl, hinv, ?_, image ++ (header ++ padded f.bytes), ?_, ?_⟩
  · rw [archiveSectors_append, hone, ← hsector]
  · have hlast : Archive [f] (header ++ (padded f.bytes ++ [])) := .cons hdesc .nil
    rw [append_nil] at hlast
    exact harchive.append hlast
  · have hofs : 512 * s.appendSector = 0 + image.length := by
      rw [harchive.length_eq, hsector, Nat.zero_add]
    have hlen : tail.length ≤ ((header ++ padded f.bytes) ++ replicate 1024 0).length := by
      rw [length_append, length_replicate]
      omega
    rw [append_assoc image, ← patch_append_patch hlen, ← hofs, ← hscratch]

theorem Appended.run_returns (h : Appended refs base done (replicate 1024 0) s)
    (hclean : ∀ f ∈ files, f.name.strip = f.name)
    (hfiles : ∀ f ∈ files, s.fs.HasFile f.name.bytes f.bytes)
    (hspace : archiveSectors done + archiveSectors files + 2 ≤ s.scratchSize) :
    Returns (forM files fun f => fsutilAppend f.name) s fun _ t =>
      Appended refs base (done ++ files) (replicate 1024 0) t := by
  induction files generalizing done s with
  | nil =>
    rw [append_nil, forM_nil, returns_pure]
    exact h
  | cons f files ih =>
    have hsplit : archiveSectors (f :: files) = archiveSectors [f] + archiveSectors files :=
      archiveSectors_append [f] files
    rw [forM_cons, returns_bind]
    refine (h.append_returns length_replicate.le (hclean f mem_cons_self)
      (hfiles f mem_cons_self) (by omega)).mono ?_
    rintro _ t ⟨hvol, hsize, happended⟩
    rw [← singleton_append, ← append_assoc]
    refine ih happended (fun g hg => hclean g (mem_cons_of_mem f hg)) (fun g hg => ?_) ?_
    · exact (hvol.hasFile_iff _ _).mpr (hfiles g (mem_cons_of_mem f hg))
    · rw [archiveSectors_append, hsize]
      omega

end

variable {a m : ℕ}

/-! ### Extracting -/

section

theorem extractData_returns (name : CString) (n : ℕ) (dst : File) (written : Bytes)
    (h : Writing a files ⟨name, written ++ replicate bytes.length 0⟩ dst.inode x m s.fs)
    (hnew : ∀ g ∈ files, g.name ≠ name) (hpos : dst.pos = written.length)
    (hn : bytes.length ≤ 512 * n)
    (hslice : slice s.scratch (512 * s.extractSector) (padded bytes).length = padded bytes)
    (hspace : s.extractSector + sectorCount bytes.length ≤ s.scratchSize) :
    Returns (extractData name (n + 1) dst bytes.length) s fun dst' t =>
      dst'.inode = dst.inode ∧ dst'.denyWrite = dst.denyWrite ∧ ∃ fs, fs.size = s.fs.size ∧
        Writing a files ⟨name, written ++ bytes⟩ dst.inode x m fs ∧
          t = { s with fs, extractSector := s.extractSector + sectorCount bytes.length } := by
  induction n generalizing s dst written bytes with
  | zero =>
    obtain rfl : bytes = [] := eq_nil_of_length_eq_zero (by omega)
    rw [extractData, if_neg (by simp), returns_pure]
    exact ⟨rfl, rfl, s.fs, rfl, h, rfl⟩
  | succ n ih =>
    rw [extractData]
    split
    · next hlen =>
      obtain ⟨c, hc⟩ : ∃ c, c = if bytes.length > 512 then 512 else bytes.length := ⟨_, rfl⟩
      obtain ⟨hpadded, hcount⟩ := padded_eq hc hlen
      obtain ⟨hle, hleft, htake, hbuffer⟩ := chunk_facts hc hn
      rw [hpadded, slice_eq_append_iff, hbuffer] at hslice
      have hdata : (sectorBytes s.scratch s.extractSector).take c = bytes.take c := by
        rw [sectorBytes, hslice.1, take_left' htake]
      rw [← hc]
      simp only [returns_bind]
      rw [returns_readNext (by omega), hdata, returns_liftFs]
      refine (h.write_returns dst (bytes.take c) hnew ?_).mono ?_
      · rw [htake, hpos, length_append, length_replicate]
        omega
      · rintro _ fs ⟨rfl, hsize, hw⟩
        rw [hpos, overwrite_append, htake, ← length_drop] at hw
        rw [htake, if_neg (not_not.mpr rfl), ← length_drop]
        refine (ih { dst with pos := dst.pos + c } (written ++ bytes.take c) hw ?_ hleft ?_
          ?_).mono ?_
        · rw [length_append, htake, hpos]
        · exact hslice.2
        · dsimp only
          omega
        · rintro dst' t ⟨hinode, hdeny, fs', hsize', hw', rfl⟩
          refine ⟨hinode, hdeny, fs', hsize'.trans hsize, ?_, ?_⟩
          · rw [append_assoc, take_append_drop] at hw'
            exact hw'
          · rw [hcount, ← Nat.add_assoc]
    · next hlen =>
      obtain rfl : bytes = [] := eq_nil_of_length_eq_zero (by omega)
      rw [returns_pure]
      exact ⟨rfl, rfl, s.fs, rfl, h, rfl⟩

theorem extractFile_returns (h : Idle a files m s.fs) (hvalid : f.name.Valid)
    (hnew : ∀ g ∈ files, g.name ≠ f.name) (hlen : files.length < 16) (hlt : f.bytes.length < 2 ^ 31)
    (hroom : m + 1 + bytesToSectors f.bytes.length ≤ s.fs.size)
    (hslice : slice s.scratch (512 * s.extractSector) (padded f.bytes).length = padded f.bytes)
    (hspace : s.extractSector + sectorCount f.bytes.length ≤ s.scratchSize) :
    Returns (extractFile f.name f.bytes.length) s fun _ t => ∃ fs, fs.size = s.fs.size ∧
      Idle a (files ++ [f]) (m + 1 + bytesToSectors f.bytes.length) fs ∧
        t = { s with fs, extractSector := s.extractSector + sectorCount f.bytes.length } := by
  rw [extractFile]
  simp only [returns_bind, returns_liftFs]
  refine (h.create_returns _ _ hvalid hnew hlen hlt hroom).mono ?_
  rintro _ fs₁ ⟨rfl, hsize₁, h₁⟩
  rw [if_pos rfl]
  simp only [returns_bind, returns_liftFs]
  refine (h₁.open_returns).mono ?_
  rintro _ fs₂ ⟨b, y, rfl, hsize₂, hw⟩
  simp only [returns_bind, returns_liftFs]
  refine (extractData_returns f.name (f.bytes.length / 512 + 1) ⟨b, 0, false⟩ []
    (s := { s with fs := fs₂ }) hw hnew rfl (by omega) hslice hspace).mono ?_
  rintro dst _ ⟨hinode, hdeny, fs₃, hsize₃, hw₃, rfl⟩
  rw [nil_append, ← hinode] at hw₃
  refine (hw₃.close_returns hdeny).mono ?_
  rintro _ fs₄ ⟨hsize₄, h₄⟩
  refine ⟨fs₄, ?_, h₄, rfl⟩
  rw [hsize₄, hsize₃, hsize₂, hsize₁]

end

def fileSectors (files : List StoredFile) : ℕ :=
  (files.map fun f => 1 + bytesToSectors f.bytes.length).sum

section

theorem extractLoop_returns {fuel : ℕ} (harchive : Archive files image) (h : Idle a done m s.fs)
    (hvalid : ∀ f ∈ files, f.name.Valid) (hclean : ∀ f ∈ files, f.name.strip = f.name)
    (hnames : ((done ++ files).map StoredFile.name).Nodup) (hlen : (done ++ files).length ≤ 16)
    (hlt : ∀ f ∈ files, f.bytes.length < 2 ^ 31) (hroom : m + fileSectors files ≤ s.fs.size)
    (hslice : slice s.scratch (512 * s.extractSector) (image ++ replicate 512 0).length =
      image ++ replicate 512 0) (hspace : s.extractSector + archiveSectors files < s.scratchSize)
    (hfuel : files.length < fuel) :
    Returns (extractLoop fuel) s fun _ t => ∃ m', Idle a (done ++ files) m' t.fs ∧
      t.scratch = s.scratch ∧ t.scratchSize = s.scratchSize := by
  induction harchive generalizing s done m fuel with
  | nil =>
    obtain ⟨fuel, rfl⟩ := Nat.exists_eq_succ_of_ne_zero (n := fuel) (by omega)
    have hheader : sectorBytes s.scratch s.extractSector = replicate 512 0 := by
      rw [nil_append, length_replicate] at hslice
      exact hslice
    have hparse : ustarParseHeader (replicate 512 0) = .ok ⟨none, .eof, 0⟩ := by
      simp only [ustarParseHeader]
      refine if_pos (all_eq_true.mpr fun b hb => ?_)
      exact decide_eq_true (eq_of_mem_replicate hb)
    rw [extractLoop, returns_bind, returns_readNext (by omega), hheader, hparse]
    rw [append_nil]
    exact (returns_pure ..).mpr ⟨m, h, rfl, rfl⟩
  | @cons f files header image hdesc harchive ih =>
    obtain ⟨fuel, rfl⟩ := Nat.exists_eq_succ_of_ne_zero (n := fuel) (by omega)
    have hone : archiveSectors (f :: files) = 1 + sectorCount f.bytes.length +
        archiveSectors files := rfl
    have htwo : fileSectors (f :: files) = 1 + bytesToSectors f.bytes.length +
        fileSectors files := rfl
    rw [append_assoc, append_assoc, slice_eq_append_iff, slice_eq_append_iff,
      hdesc.length, length_padded] at hslice
    obtain ⟨hheader, hdata, hrest⟩ := hslice
    have hnext : 512 * (s.extractSector + 1) = 512 * s.extractSector + 512 := by omega
    have hparse := hdesc.ustarParseHeader (by decide) (hlt f mem_cons_self)
    rw [hclean f mem_cons_self, if_neg (by decide)] at hparse
    rw [← singleton_append, ← append_assoc] at hnames hlen ⊢
    have hnew : ∀ g ∈ done, g.name ≠ f.name := by
      intro g hg heq
      rw [map_append, map_append, append_assoc] at hnames
      refine (disjoint_of_nodup_append hnames) (mem_map_of_mem hg) ?_
      rw [heq]
      exact mem_append_left _ mem_cons_self
    have hshort : done.length < 16 := by
      simp only [length_append, length_cons] at hlen
      omega
    rw [extractLoop, returns_bind, returns_readNext (by omega), sectorBytes, hheader, hparse]
    simp only [returns_bind]
    refine (extractFile_returns (s := { s with extractSector := s.extractSector + 1 }) h
      (hvalid f mem_cons_self) hnew hshort (hlt f mem_cons_self) (by dsimp only; omega)
      (by rw [length_padded, hnext]; exact hdata) (by dsimp only; omega)).mono ?_
    rintro _ _ ⟨fs, hsize, hidle, rfl⟩
    dsimp only at hsize
    refine ih
      hidle (fun g hg => hvalid g (mem_cons_of_mem f hg))
      (fun g hg => hclean g (mem_cons_of_mem f hg)) hnames hlen
      (fun g hg => hlt g (mem_cons_of_mem f hg)) (by dsimp only; omega) ?_
      (by dsimp only; omega) (by simp only [length_cons] at hfuel; omega)
    have hofs : 512 * (s.extractSector + 1 + sectorCount f.bytes.length) =
        512 * s.extractSector + 512 + 512 * sectorCount f.bytes.length := by omega
    rw [hofs]
    exact hrest

end

/-! ### The round trip -/

theorem length_le_archiveSectors (files : List StoredFile) :
    files.length ≤ archiveSectors files := by
  induction files with
  | nil => exact Nat.zero_le _
  | cons f files ih =>
    simp only [archiveSectors, map_cons, sum_cons, length_cons] at ih ⊢
    omega

theorem sectorBytes_patch_zeros (scratch : ℕ → UInt8) (sector : ℕ) :
    sectorBytes (patch scratch (512 * sector) zeros) sector = zeros := by
  have hread : slice (patch scratch (512 * sector) zeros) (512 * sector) zeros.length = zeros :=
    slice_patch_eq
  rw [zeros, length_replicate] at hread
  exact hread

theorem length_le_of_hasFile {s : FsState} (hnames : (files.map StoredFile.name).Nodup)
    (hfiles : ∀ f ∈ files, s.HasFile f.name.bytes f.bytes) : files.length ≤ 16 := by
  -- the entries that bind the names, in the order of the files
  have hslots : ∃ l : List ℕ, l.Nodup ∧ l ⊆ range 16 ∧ l.length = files.length ∧
      ∀ i ∈ l, ∃ f ∈ files, ∃ x, s.slot i = some (f.name.bytes, x) := by
    induction files with
    | nil => exact ⟨[], nodup_nil, nil_subset _, rfl, by simp⟩
    | cons f files ih =>
      rw [map_cons, nodup_cons] at hnames
      obtain ⟨l, hnodup, hsub, hlen, hbound⟩ :=
        ih hnames.2 fun g hg => hfiles g (mem_cons_of_mem f hg)
      obtain ⟨i, hi, x, hslot, -⟩ := hfiles f mem_cons_self
      refine ⟨i :: l, nodup_cons.mpr ⟨fun hmem => ?_, hnodup⟩,
        cons_subset.mpr ⟨mem_range.mpr hi, hsub⟩, by simp [hlen], fun j hj => ?_⟩
      · obtain ⟨g, hg, y, hslot'⟩ := hbound i hmem
        obtain ⟨hname, -⟩ := Prod.mk.inj (Option.some.inj (hslot.symm.trans hslot'))
        refine hnames.1 ?_
        rw [CString.ext hname]
        exact mem_map_of_mem hg
      · rcases mem_cons.mp hj with rfl | hj
        · exact ⟨f, mem_cons_self, x, hslot⟩
        · obtain ⟨g, hg, hslot'⟩ := hbound j hj
          exact ⟨g, mem_cons_of_mem f hg, hslot'⟩
  obtain ⟨l, hnodup, hsub, hlen, -⟩ := hslots
  have := (subperm_of_subset hnodup hsub).length_le
  rw [length_range] at this
  omega

theorem appendAll_returns {refs : ℕ → ℕ} (h : FsInv refs fs) (hne : files ≠ [])
    (hclean : ∀ f ∈ files, f.name.strip = f.name)
    (hfiles : ∀ f ∈ files, fs.HasFile f.name.bytes f.bytes)
    (hspace : archiveSectors files + 2 ≤ size) :
    Returns (forM files fun f => fsutilAppend f.name) (.boot fs size scratch) fun _ t =>
      ∃ image, Archive files image ∧ t.scratch = patch scratch 0 (image ++ replicate 1024 0) := by
  obtain ⟨f, files, rfl⟩ := exists_cons_of_ne_nil hne
  have hstart : Appended refs scratch [] [] (.boot fs size scratch) :=
    ⟨h, rfl, [], .nil, patch_nil.symm⟩
  have hsplit : archiveSectors (f :: files) = archiveSectors [f] + archiveSectors files :=
    archiveSectors_append [f] files
  have hsize : (FsutilState.boot fs size scratch).scratchSize = size := rfl
  have hnil : archiveSectors [] = 0 := rfl
  rw [forM_cons, returns_bind]
  refine (hstart.append_returns (Nat.zero_le _) (hclean f mem_cons_self)
    (hfiles f mem_cons_self) (by omega)).mono ?_
  rintro _ t ⟨hvol, hsize', happended⟩
  refine (happended.run_returns (fun g hg => hclean g (mem_cons_of_mem f hg))
    (fun g hg => ?_) ?_).mono fun _ u hu => hu.image
  · exact (hvol.hasFile_iff _ _).mpr (hfiles g (mem_cons_of_mem f hg))
  · rw [nil_append]
    omega

theorem Idle.exec_create {a m n : ℕ} {s : FsState} {files : List StoredFile} {size : Int32}
    (h : Idle a files m s) (name : CString) (hsize : size.toInt = n) (hvalid : name.Valid)
    (hnew : ∀ g ∈ files, g.name ≠ name) (hlen : files.length < 16)
    (hroom : m + 1 + bytesToSectors n ≤ s.size) :
    ∃ t, Client.exec ⟨s, [], []⟩ (.create name size) = .next (.flag true, ⟨t, [], []⟩) ∧
      t.size = s.size ∧
      Idle a (files ++ [⟨name, replicate n 0⟩]) (m + 1 + bytesToSectors n) t := by
  have hlt : n < 2 ^ 31 := by
    have := size.toInt_lt
    omega
  obtain ⟨_, t, hrun, rfl, hsize', ht⟩ := h.create_returns name n hvalid hnew hlen hlt hroom
  refine ⟨t, ?_, hsize', ht⟩
  rw [Client.exec, Client.call, hsize, hrun]
  rfl

/-- **What was appended is extracted**, from a file system in any state that calls can bring about
into one that was just formatted. -/
theorem archive_round_trip {s₁ s₂ : FsState} {c : Client} {files : List StoredFile}
    {scratch : ℕ → UInt8} {size : ℕ} (hs₁ : JustFormatted s₁) (hc : (fsMachine s₁).Reachable c)
    (hs₂ : JustFormatted s₂) (hne : files ≠ []) (hnames : (files.map StoredFile.name).Nodup)
    (hclean : ∀ f ∈ files, stripAntisocialPrefixes f.name.bytes = f.name.bytes)
    (hfiles : ∀ f ∈ files, c.fs.HasFile f.name.bytes f.bytes)
    (hspace : archiveSectors files + 2 ≤ size)
    (hroom : 3 + mapSectors s₂.size + fileSectors files ≤ s₂.size) :
    Returns (forM files fun f => fsutilAppend f.name) (.boot c.fs size scratch) fun _ t =>
      Returns fsutilExtract (.boot s₂ size t.scratch) fun _ u =>
        (∀ name bytes, u.fs.HasFile name bytes ↔
          ∃ f ∈ files, f.name.bytes = name ∧ f.bytes = bytes) ∧
        sectorBytes u.scratch 0 = zeros ∧ sectorBytes u.scratch 1 = zeros := by
  obtain ⟨r, hclient⟩ := clientInv_of_reachable hs₁ hc
  obtain ⟨a, hidle⟩ := hs₂.formatted.idle
  have hlen := length_le_of_hasFile hnames hfiles
  have hvalid : ∀ f ∈ files, f.name.Valid := by
    intro f hf
    obtain ⟨i, hi, x, hslot, -⟩ := hfiles f hf
    exact hclient.inv.vol.name_valid hi hslot
  have hlt : ∀ f ∈ files, f.bytes.length < 2 ^ 31 := by
    intro f hf
    obtain ⟨i, hi, x, -, hbytes⟩ := hfiles f hf
    exact hbytes ▸ length_contents_lt c.fs x
  have hstrip : ∀ f ∈ files, f.name.strip = f.name := fun f hf => CString.ext (hclean f hf)
  refine (appendAll_returns hclient.inv hne hstrip hfiles hspace).mono ?_
  rintro _ t ⟨image, harchive, hscratch⟩
  have hzero : replicate 1024 (0 : UInt8) = replicate 512 0 ++ replicate 512 0 := by
    rw [replicate_append_replicate]
  have hslice : slice t.scratch 0 (image ++ replicate 512 0).length =
      image ++ replicate 512 0 := by
    have hall : slice t.scratch 0 (image ++ replicate 1024 0).length =
        image ++ replicate 1024 0 := by
      rw [hscratch, slice_patch_eq]
    rw [hzero, ← append_assoc, slice_eq_append_iff] at hall
    exact hall.1
  have hsectors := length_le_archiveSectors files
  have hmalloc : (FsutilState.boot s₂ size t.scratch).fs.MallocsSucceed := hidle.inv.table.mallocs
  rw [fsutilExtract]
  simp only [returns_bind, returns_liftFs, returns_malloc hmalloc]
  rw [if_neg (by decide)]
  simp only [returns_bind, returns_get]
  refine (extractLoop_returns (s := .boot s₂ size t.scratch) harchive hidle hvalid hstrip hnames
    hlen hlt hroom hslice ?_ ?_).mono ?_
  · dsimp only [FsutilState.boot]
    omega
  · dsimp only [FsutilState.boot]
    omega
  · rintro _ u ⟨m', hextracted, -, hsize⟩
    have hu : u.scratchSize = size := hsize
    rw [returns_scratchWrite (by omega), returns_scratchWrite (by dsimp only; omega)]
    refine ⟨hextracted.stores.hasFile_iff, ?_, ?_⟩
    · rw [sectorBytes, slice_patch_of_disjoint (.inl (by omega))]
      exact sectorBytes_patch_zeros _ 0
    · exact sectorBytes_patch_zeros _ 1

theorem nul_notMem_b : (0 : UInt8) ∉ [0x62] := by decide

def CString.b : CString := ⟨[0x62], nul_notMem_b⟩

def twoFiles : List StoredFile := [⟨.a, replicate 1000 0⟩, ⟨.b, replicate 5 0⟩]

/-- Two files of a client, archived and extracted on a fresh volume. -/
theorem archive_round_trip_twoFiles : ∃ (s : FsState) (c : Client), JustFormatted s ∧
    (fsMachine s).Reachable c ∧ (∀ f ∈ twoFiles, c.fs.HasFile f.name.bytes f.bytes) ∧
      Returns (forM twoFiles fun f => fsutilAppend f.name) (.boot c.fs 7 fun _ => 7) fun _ t =>
        Returns fsutilExtract (.boot s 7 t.scratch) fun _ u =>
          (∀ f ∈ twoFiles, u.fs.HasFile f.name.bytes f.bytes) ∧
            sectorBytes u.scratch 0 = zeros := by
  have hmap : mapSectors 16 = 1 := by rw [mapSectors_eq (by decide)]
  obtain ⟨s, hs, hsize⟩ := exists_justFormatted 16 (by decide) (by decide)
  obtain ⟨a, hidle⟩ := hs.formatted.idle
  rw [hsize, hmap] at hidle
  obtain ⟨t, hexec, hsize', ht⟩ := hidle.exec_create .a
    (show (1000 : Int32).toInt = (1000 : ℕ) by decide) (by decide) (by simp) (by decide)
    (by rw [hsize]; decide)
  have hother : ∀ g ∈ [] ++ [(⟨.a, replicate 1000 0⟩ : StoredFile)], g.name ≠ .b := by
    intro g hg
    rw [mem_singleton.mp hg]
    decide
  obtain ⟨u, hexec', -, hu⟩ := ht.exec_create .b
    (show (5 : Int32).toInt = (5 : ℕ) by decide) (by decide) hother (by decide)
    (by rw [hsize', hsize]; decide)
  have hreach := reachable_of_exec (reachable_of_exec .start hexec) hexec'
  have hfiles : ∀ f ∈ twoFiles, u.HasFile f.name.bytes f.bytes := fun f hf =>
    (hu.stores.hasFile_iff _ _).mpr ⟨f, hf, rfl, rfl⟩
  refine ⟨s, ⟨u, [], []⟩, hs, hreach, hfiles, ?_⟩
  refine (archive_round_trip hs hreach hs (by decide) (by decide) (by decide) hfiles
    (by decide +kernel) ?_).mono ?_
  · rw [hsize, hmap]
    decide +kernel
  · refine fun _ _ hextract => hextract.mono ?_
    rintro _ v ⟨hexact, hzero, -⟩
    exact ⟨fun f hf => (hexact _ _).mpr ⟨f, hf, rfl, rfl⟩, hzero⟩

/-- **Nothing is promised when nothing was appended**: the scratch device may hold anything, and
its first sector may be no header. -/
theorem extract_nothing_appended : ∃ s : FsState, JustFormatted s ∧
    archiveSectors [] + 2 ≤ 2 ∧ 3 + mapSectors s.size + fileSectors [] ≤ s.size ∧
      Returns (forM ([] : List StoredFile) fun f => fsutilAppend f.name)
        (.boot s 2 fun _ => 7) fun _ t =>
          Panics fsutilExtract (.boot s 2 t.scratch) (.badHeader 0 .magic) := by
  obtain ⟨s, hs, hsize⟩ := exists_justFormatted 8 (by decide) (by decide)
  obtain ⟨a, hidle⟩ := hs.formatted.idle
  have hparse : ustarParseHeader (sectorBytes (fun _ => 7) 0) = .error .magic := by
    simp only [ustarParseHeader]
    rw [if_neg (by decide +kernel), if_pos (by decide +kernel)]
  have hmalloc : (FsutilState.boot s 2 fun _ => 7).fs.MallocsSucceed := hidle.inv.table.mallocs
  have hpanics : Panics fsutilExtract (.boot s 2 fun _ => 7) (.badHeader 0 .magic) := by
    refine panics_bind ?_
    rw [returns_liftFs, returns_malloc hmalloc]
    refine panics_bind ?_
    rw [returns_liftFs, returns_malloc hmalloc, if_neg (by decide)]
    refine panics_bind ?_
    rw [returns_get]
    refine Panics.bind ?_ _
    refine panics_bind ?_
    have hfirst : sectorBytes (FsutilState.boot s 2 fun _ => 7).scratch
        (FsutilState.boot s 2 fun _ => 7).extractSector = sectorBytes (fun _ => 7) 0 := rfl
    rw [returns_readNext (by exact Nat.two_pos), hfirst, hparse]
    rfl
  refine ⟨s, hs, le_rfl, by rw [hsize, mapSectors_eight]; decide, ?_⟩
  rw [forM_nil, returns_pure]
  exact hpanics

end OsMaterial
