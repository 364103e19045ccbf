import OsMaterial.Pagedir

/-!
# Loading an Executable

`load` of `userprog/process.c` reads an ELF executable, page by page, into the memory of a new
process. Every field of the headers may have any value, in 32-bit words; `validate_segment` decides
which are used. `file_read` may return less than it was asked for. A segment is an image of bytes
(`segImage`).

* `segment_spec`: no computation with a validated header wraps around.
* `load_spec`: `load` fails no assertion, and adds the pages that the headers say and a stack page.
-/

namespace OsMaterial

open List
open Function (update update_of_ne update_self)

variable {pos n readBytes u k c N i : ℕ} {R : (ℕ → Option UserPage) → Prop} {bytes : Bytes}

/-! ### Executables -/

structure ExecFile where
  bytes : Bytes
  cap : ℕ → ℕ
  length_lt : bytes.length < 2 ^ 31

def headerField (header : Bytes) (ofs size : ℕ) : ℕ := ofLe ((header.drop ofs).take size)

structure Ehdr where
  ident : Bytes
  type : ℕ
  machine : ℕ
  version : ℕ
  entry : ℕ
  phoff : ℕ
  phentsize : ℕ
  phnum : ℕ

def Ehdr.parse (header : Bytes) : Ehdr where
  ident := header.take 16
  type := headerField header 16 2
  machine := headerField header 18 2
  version := headerField header 20 4
  entry := headerField header 24 4
  phoff := headerField header 28 4
  phentsize := headerField header 42 2
  phnum := headerField header 44 2

def Ehdr.ok (ehdr : Ehdr) : Bool :=
  ehdr.ident.take 7 = [0x7f, 0x45, 0x4c, 0x46, 1, 1, 1] ∧ ehdr.type = 2 ∧ ehdr.machine = 3 ∧
    ehdr.version = 1 ∧ ehdr.phentsize = 32 ∧ ¬ ehdr.phnum > 1024

structure Phdr where
  type : ℕ
  offset : ℕ
  vaddr : ℕ
  filesz : ℕ
  memsz : ℕ
  flags : ℕ

def Phdr.parse (header : Bytes) : Phdr where
  type := headerField header 0 4
  offset := headerField header 4 4
  vaddr := headerField header 8 4
  filesz := headerField header 16 4
  memsz := headerField header 20 4
  flags := headerField header 24 4

def ptLoad : ℕ := 1

def ptRefused : List ℕ := [2, 3, 5]

def toOff (x : ℕ) : ℤ := if x < 2 ^ 31 then x else x - 2 ^ 32

def roundUp (x : ℕ) : ℕ := 4096 * ((x + 4095) % wordSize / 4096)

structure Segment where
  ofs : ℤ
  upage : ℕ
  readBytes : ℕ
  zeroBytes : ℕ
  writable : Bool

def validateSegment (phdr : Phdr) (file : ExecFile) : Bool :=
  if pgOfs phdr.offset ≠ pgOfs phdr.vaddr then false
  else if phdr.offset > file.bytes.length then false
  else if phdr.memsz < phdr.filesz then false
  else if phdr.memsz = 0 then false
  else if ¬ phdr.vaddr < physBase then false
  else if ¬ (phdr.vaddr + phdr.memsz) % wordSize < physBase then false
  else if (phdr.vaddr + phdr.memsz) % wordSize < phdr.vaddr then false
  else if phdr.vaddr < 4096 then false
  else true

def Phdr.segment (phdr : Phdr) : Segment :=
  let filePage := phdr.offset - pgOfs phdr.offset
  let memPage := phdr.vaddr - pgOfs phdr.vaddr
  let pageOffset := pgOfs phdr.vaddr
  let size := roundUp ((pageOffset + phdr.memsz) % wordSize)
  let readBytes := if phdr.filesz > 0 then (pageOffset + phdr.filesz) % wordSize else 0
  let zeroBytes := if phdr.filesz > 0 then (size + (wordSize - readBytes)) % wordSize else size
  { ofs := toOff filePage, upage := memPage, readBytes, zeroBytes,
    writable := phdr.flags &&& 2 ≠ 0 }

/-! ### The functions -/

section Functions

variable (P : PageSupply) (initPd : ℕ) (file : ExecFile)

def execFileRead (size : ℕ) : Call ProcPanic ProcState Bytes := do
  let s ← get
  let data := ((file.bytes.drop s.pos).take size).take (file.cap s.calls)
  set { s with pos := s.pos + data.length, calls := s.calls + 1 }
  return data

def execFileSeek (newPos : ℤ) : Call ProcPanic ProcState Unit := do
  assert (0 ≤ newPos) .seek
  modify fun s => { s with pos := newPos.toNat }

def storeBytes (a : ℕ) (bytes : Bytes) : Call ProcPanic ProcState Unit :=
  modify fun s => { s with mem := patch s.mem a bytes }

def loadPages (writable : Bool) : ℕ → ℕ → ℕ → ℕ → Call ProcPanic ProcState Bool
  | 0, _, _, _ => throw .endless
  | fuel + 1, upage, readBytes, zeroBytes =>
    if readBytes > 0 ∨ zeroBytes > 0 then do
      let pageReadBytes := if readBytes < 4096 then readBytes else 4096
      let pageZeroBytes := 4096 - pageReadBytes
      match ← pallocGetPage P false with
      | none => return false
      | some kpage => do
          let data ← execFileRead file pageReadBytes
          storeBytes kpage data
          if data.length ≠ pageReadBytes then do
            pallocFreePage kpage
            return false
          else do
            storeBytes (kpage + pageReadBytes) (replicate pageZeroBytes 0)
            if ← installPage P initPd upage kpage writable then
              loadPages writable fuel ((upage + 4096) % wordSize) (readBytes - pageReadBytes)
                ((zeroBytes + (wordSize - pageZeroBytes)) % wordSize)
            else do
              pallocFreePage kpage
              return false
    else
      return true

/-- `load_segment`. Every round of its loop takes a page off the bytes that are left, so there are
not more rounds than pages. -/
def loadSegment (seg : Segment) : Call ProcPanic ProcState Bool := do
  assert ((seg.readBytes + seg.zeroBytes) % wordSize % 4096 = 0) .segmentSize
  assert (pgOfs seg.upage = 0) .segmentPage
  assert (seg.ofs.tmod 4096 = 0) .segmentOfs
  execFileSeek seg.ofs
  loadPages P initPd file seg.writable ((seg.readBytes + seg.zeroBytes) / 4096 + 1) seg.upage
    seg.readBytes seg.zeroBytes

def setupStack : Call ProcPanic ProcState (Option ℕ) := do
  match ← pallocGetPage P true with
  | none => return none
  | some kpage => do
      if ← installPage P initPd (physBase - 4096) kpage true then
        return some physBase
      else do
        pallocFreePage kpage
        return none

def loadHeaders : ℕ → ℤ → Call ProcPanic ProcState Bool
  | 0, _ => return true
  | n + 1, fileOfs =>
    if fileOfs < 0 ∨ fileOfs > file.bytes.length then
      return false
    else do
      execFileSeek fileOfs
      let data ← execFileRead file 32
      if data.length ≠ 32 then
        return false
      else do
        let phdr := Phdr.parse data
        let next := toOff ((fileOfs.toNat + 32) % wordSize)
        if phdr.type = ptLoad then
          if validateSegment phdr file then do
            if ← loadSegment P initPd file phdr.segment then
              loadHeaders n next
            else
              return false
          else
            return false
        else if phdr.type ∈ ptRefused then
          return false
        else
          loadHeaders n next

def loadFile : Call ProcPanic ProcState (Option (ℕ × ℕ)) := do
  modify fun s => { s with pos := 0 }
  let data ← execFileRead file 52
  let ehdr := Ehdr.parse data
  if data.length ≠ 52 ∨ ¬ ehdr.ok then
    return none
  else do
    if ← loadHeaders P initPd file ehdr.phnum (toOff ehdr.phoff) then do
      match ← setupStack P initPd with
      | none => return none
      | some esp => return some (ehdr.entry, esp)
    else
      return none

/-- `load`: the entry point and the stack pointer, if it returns true. The executable is `none` when
`filesys_open` fails. -/
def load (file : Option ExecFile) : Call ProcPanic ProcState (Option (ℕ × ℕ)) := do
  let pd ← pagedirCreate P initPd
  modify fun s => { s with pagedir := pd }
  match pd, file with
  | some _, some file => loadFile P initPd file
  | _, _ => return none

end Functions

/-! ### Segments in memory -/

/-- The bytes of a segment: `readBytes` bytes of the file from `pos` on, and zeros. -/
def segImage (file : ExecFile) (pos readBytes : ℕ) (x : ℕ) : UInt8 :=
  if x < readBytes then file.bytes.getD (pos + x) 0 else 0

/-- **The pages of a segment were added** to the user pages: `n` pages from page `u` on, which hold
the bytes of an image. -/
structure PagesAdded (image : ℕ → UInt8) (writable : Bool) (u n : ℕ)
    (maps maps' : ℕ → Option UserPage) : Prop where
  fresh : ∀ r < n, maps (u + r) = none
  page : ∀ r < n, ∃ k, maps' (u + r) = some ⟨k, writable, slice image (4096 * r) 4096⟩
  other : ∀ v, v < u ∨ u + n ≤ v → maps' v = maps v

section Pages

variable {P : PageSupply} {initPd pd : ℕ} {base extra : List ℕ} {m₀ : ℕ → UInt8}
  {pts : ℕ → Option ℕ} {maps maps' : ℕ → Option UserPage} {s t : ProcState} {file : ExecFile}

/-- **A part of `load` ended**, and the invariant holds. If the answer is true, so does `R` of the
user pages. -/
def LoadsTo (P : PageSupply) (initPd : ℕ) (base : List ℕ) (m₀ : ℕ → UInt8) (pd : ℕ)
    (extra : List ℕ) (R : (ℕ → Option UserPage) → Prop) (ok : Bool) (t : ProcState) : Prop :=
  ∃ pts maps, ProcInv P initPd base m₀ pd extra pts maps t ∧ (ok = true → R maps)

theorem returns_false (h : ProcInv P initPd base m₀ pd extra pts maps s) :
    Returns (pure false : Call ProcPanic ProcState Bool) s
      (LoadsTo P initPd base m₀ pd extra R) := by
  rw [returns_pure]
  exact ⟨pts, maps, h, nofun⟩

theorem returns_free_false (h : ProcInv P initPd base m₀ pd (k :: extra) pts maps s) :
    Returns (do pallocFreePage k; return false) s (LoadsTo P initPd base m₀ pd extra R) := by
  rw [returns_bind]
  exact h.pallocFreePage.mono fun _ t ht => returns_false ht.1

theorem read_whole (hlen : (((bytes.drop pos).take n).take c).length = n) :
    ((bytes.drop pos).take n).take c = (bytes.drop pos).take n := by
  refine take_of_length_le ?_
  simp only [length_take, length_drop] at hlen ⊢
  omega

theorem read_full (hlen : (((bytes.drop pos).take n).take c).length = n) :
    ((bytes.drop pos).take n).take c = slice (fun x => bytes.getD x 0) pos n ∧
      (n = 0 ∨ pos + n ≤ bytes.length) := by
  have heq := read_whole hlen
  rw [heq] at hlen ⊢
  have hmin := hlen
  rw [length_take, length_drop] at hmin
  refine ⟨ext_getElem (by rw [hlen, length_slice]) fun i h₁ h₂ => ?_, by omega⟩
  rw [getElem_take, getElem_drop, getElem_slice, getD_eq_getElem _ _ (by omega)]

section

variable (hn : n = if readBytes < 4096 then readBytes else 4096)

include hn

theorem firstPage_eq :
    slice (fun x => file.bytes.getD x 0) pos n ++ replicate (4096 - n) 0 =
      slice (segImage file pos readBytes) 0 4096 := by
  have hle : n ≤ 4096 ∧ n ≤ readBytes := by
    rw [hn]
    split <;> omega
  apply ext_getElem
  · rw [length_append, length_slice, length_replicate, length_slice]
    omega
  · intro i h₁ h₂
    rw [length_slice] at h₂
    rw [getElem_slice, segImage, Nat.zero_add]
    by_cases hi : i < n
    · rw [getElem_append_left (by rwa [length_slice]), getElem_slice, if_pos (by omega)]
    · rw [getElem_append_right (by rw [length_slice]; omega), getElem_replicate, if_neg]
      split at hn <;> omega

theorem segImage_next (r : ℕ) :
    slice (segImage file (pos + n) (readBytes - n)) (4096 * r) 4096 =
      slice (segImage file pos readBytes) (4096 * (r + 1)) 4096 := by
  apply ext_getElem (by rw [length_slice, length_slice])
  intro i h₁ h₂
  rw [getElem_slice, getElem_slice, segImage, segImage]
  split at hn
  · rw [if_neg (by omega), if_neg (by omega)]
  · subst hn
    by_cases hlt : 4096 * r + i < readBytes - 4096
    · rw [if_pos hlt, if_pos (by omega)]
      congr 1
      omega
    · rw [if_neg hlt, if_neg (by omega)]

theorem PagesAdded.cons {writable : Bool} (hfresh : maps u = none)
    (h : PagesAdded (segImage file (pos + n) (readBytes - n)) writable (u + 1) N
      (update maps u (some ⟨k, writable, slice (segImage file pos readBytes) 0 4096⟩)) maps') :
    PagesAdded (segImage file pos readBytes) writable u (N + 1) maps maps' := by
  refine ⟨fun r hr => ?_, fun r hr => ?_, fun v hv => ?_⟩
  · cases r with
    | zero => exact hfresh
    | succ r =>
      have hr' := h.fresh r (by omega)
      rw [update_of_ne (by omega)] at hr'
      rw [← hr']
      congr 1
      omega
  · cases r with
    | zero =>
      refine ⟨k, ?_⟩
      rw [Nat.add_zero, h.other u (Or.inl (by omega)), update_self, Nat.mul_zero]
    | succ r =>
      obtain ⟨k', hk'⟩ := h.page r (by omega)
      refine ⟨k', ?_⟩
      rw [← segImage_next hn, ← hk']
      congr 1
      omega
  · rw [h.other v (by omega), update_of_ne (by omega)]

end

theorem ProcInv.setPos (h : ProcInv P initPd base m₀ pd extra pts maps s) (pos calls : ℕ) :
    ProcInv P initPd base m₀ pd extra pts maps { s with pos, calls } :=
  h.congr rfl (h.ledger.congr rfl rfl rfl) rfl

theorem execFileRead_returns (size : ℕ) :
    Returns (execFileRead file size) s fun data t =>
      data = ((file.bytes.drop s.pos).take size).take (file.cap s.calls) ∧
        t = { s with pos := s.pos + data.length, calls := s.calls + 1 } := by
  unfold execFileRead
  simp only [returns_bind, returns_get, returns_set, returns_pure, and_self]

/-- **The loop of `load_segment`** ends, fails no assertion, and adds the pages of the segment if it
returns true. -/
theorem loadPages_returns (writable : Bool) {fuel zeroBytes : ℕ} (hfuel : N < fuel)
    (h : ProcInv P initPd base m₀ pd extra pts maps s) (hsum : readBytes + zeroBytes = 4096 * N)
    (hend : u + N ≤ 1024 * 768) :
    Returns (loadPages P initPd file writable fuel (4096 * u) readBytes zeroBytes) s
      (LoadsTo P initPd base m₀ pd extra fun maps' =>
        PagesAdded (segImage file s.pos readBytes) writable u N maps maps' ∧
          (readBytes = 0 ∨ s.pos + readBytes ≤ file.bytes.length)) := by
  induction N generalizing fuel u readBytes zeroBytes s pts maps with
  | zero =>
    obtain ⟨fuel, rfl⟩ : ∃ n, fuel = n + 1 := ⟨fuel - 1, by omega⟩
    rw [loadPages, if_neg (by omega), returns_pure]
    refine ⟨pts, maps, h, fun _ => ⟨⟨?_, ?_, fun _ _ => rfl⟩, Or.inl (by omega)⟩⟩
    · exact fun r hr => absurd hr (by omega)
    · exact fun r hr => absurd hr (by omega)
  | succ N ih =>
    obtain ⟨fuel, rfl⟩ : ∃ n, fuel = n + 1 := ⟨fuel - 1, by omega⟩
    obtain ⟨n, hn⟩ : ∃ n, n = if readBytes < 4096 then readBytes else 4096 := ⟨_, rfl⟩
    have hle : n ≤ 4096 ∧ n ≤ readBytes ∧ 4096 - n ≤ zeroBytes := by
      rw [hn]
      split <;> omega
    rw [loadPages, if_pos (by omega), ← hn]
    simp only [returns_bind]
    refine (h.pallocGetPage false).mono fun r t hr => ?_
    obtain ⟨hpos, -, ⟨rfl, h₁⟩ | ⟨k, rfl, h₁, -⟩⟩ := hr
    · exact returns_false h₁
    simp only [returns_bind]
    refine (execFileRead_returns n).mono ?_
    rintro data t' ⟨hdata, rfl⟩
    have hlen : data.length ≤ n := by
      rw [hdata]
      simp only [length_take]
      omega
    have hpart : k + data.length ≤ k + 4096 := by omega
    have h₂ := (h₁.setPos (t.pos + data.length) (t.calls + 1)).writeExtra le_rfl hpart
    simp only [storeBytes, returns_modify]
    split
    · exact returns_free_false h₂
    next hfull =>
    have hfull : data.length = n := not_not.mp hfull
    have hwhole := read_full (hdata ▸ hfull)
    rw [← hdata] at hwhole
    have hzeros : k + n + (replicate (4096 - n) (0 : UInt8)).length ≤ k + 4096 := by
      rw [length_replicate]
      omega
    have h₃ := h₂.writeExtra (by omega) hzeros
    simp only [returns_bind, returns_modify]
    have hva : 4096 * u < physBase := by
      rw [physBase]
      omega
    have hofs : pgOfs (4096 * u) = 0 := Nat.mul_mod_right ..
    refine (installPage_returns h₃ hva hofs writable).mono fun ok t'' hinstall => ?_
    rw [Nat.mul_div_cancel_left _ (by decide)] at hinstall
    obtain ⟨hpos', ⟨rfl, h₄⟩ | ⟨rfl, hfresh, pts', h₄⟩⟩ := hinstall
    · rw [if_neg Bool.false_ne_true]
      exact returns_free_false h₄
    -- the rest of the segment
    have hpage : slice (patch (patch t.mem k data) (k + n) (replicate (4096 - n) 0)) k 4096 =
        slice (segImage file s.pos readBytes) 0 4096 := by
      have hlen' : (data ++ replicate (4096 - n) 0).length = 4096 := by
        rw [length_append, length_replicate]
        omega
      rw [← firstPage_eq hn, ← hpos, ← hwhole.1, ← hfull, patch_append, hfull]
      exact (congrArg (slice _ _) hlen'.symm).trans slice_patch_eq
    have hnext : (4096 * u + 4096) % wordSize = 4096 * (u + 1) := by
      rw [wordSize]
      omega
    have hzero : (zeroBytes + (wordSize - (4096 - n))) % wordSize = zeroBytes - (4096 - n) := by
      rw [wordSize]
      omega
    rw [if_pos rfl, hnext, hzero]
    rw [hpage] at h₄
    refine (ih (by omega) h₄ (by omega) (by omega)).mono fun ok t₂ => ?_
    rintro ⟨pts₂, maps₂, h₅, hadded⟩
    refine ⟨pts₂, maps₂, h₅, fun hok => ?_⟩
    obtain ⟨hpages, hin⟩ := hadded hok
    have hpos₂ : t''.pos = s.pos + n := by rw [hpos', ← hpos, ← hfull]
    rw [hpos₂] at hpages hin
    exact ⟨hpages.cons hn hfresh, by omega⟩

end Pages

/-! ### Validated headers -/

structure Phdr.Words (phdr : Phdr) : Prop where
  offset : phdr.offset < wordSize
  vaddr : phdr.vaddr < wordSize
  filesz : phdr.filesz < wordSize
  memsz : phdr.memsz < wordSize

/-- **Page `u` is a page of the segment** of a header. -/
def Phdr.HasPage (phdr : Phdr) (u : ℕ) : Prop :=
  phdr.vaddr / 4096 ≤ u ∧ 4096 * u < phdr.vaddr + phdr.memsz

def Phdr.pageCount (phdr : Phdr) : ℕ := (pgOfs phdr.vaddr + phdr.memsz + 4095) / 4096

def Phdr.image (phdr : Phdr) (file : ExecFile) (va : ℕ) : UInt8 :=
  segImage file (phdr.offset - pgOfs phdr.offset) phdr.segment.readBytes
    (va - 4096 * (phdr.vaddr / 4096))

section Valid

variable {phdr : Phdr} {file : ExecFile}

theorem headerField_lt (header : Bytes) (ofs : ℕ) : headerField header ofs 4 < wordSize :=
  lt_of_lt_of_le (ofLe_lt _) (Nat.pow_le_pow_right (by decide) (length_take_le ..))

theorem Phdr.parse_words (header : Bytes) : (Phdr.parse header).Words :=
  ⟨headerField_lt .., headerField_lt .., headerField_lt .., headerField_lt ..⟩

section

variable (hw : phdr.Words) (h : validateSegment phdr file = true)

include hw h

theorem validateSegment_spec :
    pgOfs phdr.offset = pgOfs phdr.vaddr ∧ phdr.offset ≤ file.bytes.length ∧
      phdr.filesz ≤ phdr.memsz ∧ 0 < phdr.memsz ∧ 4096 ≤ phdr.vaddr ∧
        phdr.vaddr + phdr.memsz < physBase := by
  have hmemsz := hw.memsz
  unfold validateSegment at h
  split_ifs at h with h₁ h₂ h₃ h₄ h₅ h₆ h₇ h₈
  rw [wordSize] at *
  refine ⟨not_not.mp h₁, ?_⟩
  omega

theorem roundUp_memsz : roundUp (pgOfs phdr.vaddr + phdr.memsz) = 4096 * phdr.pageCount := by
  obtain ⟨-, -, -, -, -, hend⟩ := validateSegment_spec hw h
  have hofs : pgOfs phdr.vaddr ≤ phdr.vaddr := Nat.mod_le ..
  rw [physBase] at hend
  rw [roundUp, Phdr.pageCount, wordSize, Nat.mod_eq_of_lt (by omega)]

/-- **No computation of `load` with a validated header wraps around**, and the pages of the segment
end in user memory. -/
theorem segment_spec :
    phdr.segment.ofs = ((phdr.offset - pgOfs phdr.offset : ℕ) : ℤ) ∧
      phdr.segment.upage = 4096 * (phdr.vaddr / 4096) ∧
      phdr.segment.readBytes = (if phdr.filesz > 0 then pgOfs phdr.vaddr + phdr.filesz else 0) ∧
      phdr.segment.readBytes + phdr.segment.zeroBytes = 4096 * phdr.pageCount ∧
      phdr.vaddr / 4096 + phdr.pageCount ≤ 1024 * 768 := by
  obtain ⟨-, hofs, hsz, -, -, hend⟩ := validateSegment_spec hw h
  have hlen := file.length_lt
  rw [physBase] at hend
  have hpage : pgOfs phdr.vaddr + 4096 * (phdr.vaddr / 4096) = phdr.vaddr := Nat.mod_add_div ..
  have hread : phdr.segment.readBytes =
      if phdr.filesz > 0 then pgOfs phdr.vaddr + phdr.filesz else 0 := by
    refine if_congr Iff.rfl (Nat.mod_eq_of_lt ?_) rfl
    rw [wordSize]
    omega
  have hround := roundUp_memsz hw h
  have hsize : roundUp ((pgOfs phdr.vaddr + phdr.memsz) % wordSize) = 4096 * phdr.pageCount := by
    rw [← hround, Nat.mod_eq_of_lt]
    rw [wordSize]
    omega
  have hzero : phdr.segment.zeroBytes = if phdr.filesz > 0
      then (4096 * phdr.pageCount + (wordSize - phdr.segment.readBytes)) % wordSize
      else 4096 * phdr.pageCount := by
    rw [← hsize]
    rfl
  refine ⟨?_, ?_, hread, ?_, ?_⟩
  · exact if_pos (by omega)
  · exact Nat.sub_eq_of_eq_add (by omega)
  · rw [hzero, hread, Phdr.pageCount, wordSize]
    split <;> omega
  · rw [Phdr.pageCount]
    omega

end

theorem hasPage_iff : phdr.HasPage u ↔ ∃ r < phdr.pageCount, u = phdr.vaddr / 4096 + r := by
  have hpage : pgOfs phdr.vaddr + 4096 * (phdr.vaddr / 4096) = phdr.vaddr := Nat.mod_add_div ..
  rw [Phdr.HasPage, Phdr.pageCount]
  constructor
  · intro h
    exact ⟨u - phdr.vaddr / 4096, by omega, by omega⟩
  · rintro ⟨r, hr, rfl⟩
    omega

theorem slice_image (r : ℕ) :
    slice (segImage file (phdr.offset - pgOfs phdr.offset) phdr.segment.readBytes) (4096 * r) 4096 =
      slice (phdr.image file) (4096 * (phdr.vaddr / 4096 + r)) 4096 := by
  apply ext_getElem (by rw [length_slice, length_slice])
  intro i h₁ h₂
  rw [getElem_slice, getElem_slice, Phdr.image]
  congr 1
  omega

theorem image_of_file (hw : phdr.Words) (h : validateSegment phdr file = true)
    (hi : i < phdr.filesz) :
    phdr.image file (phdr.vaddr + i) = file.bytes.getD (phdr.offset + i) 0 := by
  obtain ⟨hofs, -⟩ := validateSegment_spec hw h
  have hpage : pgOfs phdr.vaddr + 4096 * (phdr.vaddr / 4096) = phdr.vaddr := Nat.mod_add_div ..
  have hle : pgOfs phdr.offset ≤ phdr.offset := Nat.mod_le ..
  have hread := (segment_spec hw h).2.2.1
  rw [if_pos (by omega)] at hread
  rw [Phdr.image, segImage, hread, if_pos (by omega)]
  congr 1
  omega

theorem image_of_zero (hw : phdr.Words) (h : validateSegment phdr file = true)
    (hi : phdr.filesz ≤ i) : phdr.image file (phdr.vaddr + i) = 0 := by
  have hpage : pgOfs phdr.vaddr + 4096 * (phdr.vaddr / 4096) = phdr.vaddr := Nat.mod_add_div ..
  rw [Phdr.image, segImage, (segment_spec hw h).2.2.1, if_neg]
  split <;> omega

end Valid

/-! ### What `load` adds to a page directory -/

def ExecFile.phdr (file : ExecFile) (ofs : ℕ) : Phdr := Phdr.parse ((file.bytes.drop ofs).take 32)

def ExecFile.loads (file : ExecFile) (ofs n : ℕ) : List Phdr :=
  ((range' ofs n 32).map file.phdr).filter fun phdr => phdr.type = ptLoad

/-- **The segments of some headers were loaded**, in this order: their pages are new, they hold what
the headers say, and no page is in two segments. -/
structure SegmentsLoaded (file : ExecFile) (phdrs : List Phdr) (maps maps' : ℕ → Option UserPage) :
    Prop where
  valid : ∀ phdr ∈ phdrs, phdr.Words ∧ validateSegment phdr file = true
  inFile : ∀ phdr ∈ phdrs, phdr.filesz = 0 ∨ phdr.offset + phdr.filesz ≤ file.bytes.length
  fresh : ∀ phdr ∈ phdrs, ∀ u, phdr.HasPage u → maps u = none
  page : ∀ phdr ∈ phdrs, ∀ u, phdr.HasPage u → ∃ k,
    maps' u = some ⟨k, decide (phdr.flags &&& 2 ≠ 0), slice (phdr.image file) (4096 * u) 4096⟩
  apart : phdrs.Pairwise fun p q => ∀ u, p.HasPage u → ¬ q.HasPage u
  other : ∀ u, (∀ phdr ∈ phdrs, ¬ phdr.HasPage u) → maps' u = maps u

section Load

variable {P : PageSupply} {initPd pd : ℕ} {base extra : List ℕ} {m₀ : ℕ → UInt8}
  {pts : ℕ → Option ℕ} {maps maps₁ maps' : ℕ → Option UserPage} {s t : ProcState}
  {file : ExecFile} {phdr : Phdr} {phdrs : List Phdr}

theorem SegmentsLoaded.nil : SegmentsLoaded file [] maps maps where
  valid _ h := absurd h not_mem_nil
  inFile _ h := absurd h not_mem_nil
  fresh _ h := absurd h not_mem_nil
  page _ h := absurd h not_mem_nil
  apart := List.Pairwise.nil
  other _ _ := rfl

theorem SegmentsLoaded.cons (h₁ : SegmentsLoaded file [phdr] maps maps₁)
    (h₂ : SegmentsLoaded file phdrs maps₁ maps') :
    SegmentsLoaded file (phdr :: phdrs) maps maps' := by
  have hmem := mem_singleton_self phdr
  -- a page of the first segment is mapped when the others are loaded, and theirs are not
  have hapart : ∀ q ∈ phdrs, ∀ u, phdr.HasPage u → ¬ q.HasPage u := by
    intro q hq u hu hqu
    obtain ⟨k, hk⟩ := h₁.page phdr hmem u hu
    rw [h₂.fresh q hq u hqu] at hk
    cases hk
  refine ⟨?_, ?_, ?_, ?_, pairwise_cons.mpr ⟨hapart, h₂.apart⟩, ?_⟩
  · exact forall_mem_cons.mpr ⟨h₁.valid phdr hmem, h₂.valid⟩
  · exact forall_mem_cons.mpr ⟨h₁.inFile phdr hmem, h₂.inFile⟩
  · refine forall_mem_cons.mpr ⟨h₁.fresh phdr hmem, fun q hq u hu => ?_⟩
    rw [← h₂.fresh q hq u hu]
    refine (h₁.other u fun p hp hpu => ?_).symm
    rw [mem_singleton.mp hp] at hpu
    exact hapart q hq u hpu hu
  · refine forall_mem_cons.mpr ⟨fun u hu => ?_, h₂.page⟩
    rw [h₂.other u fun q hq => hapart q hq u hu]
    exact h₁.page phdr hmem u hu
  · intro u hu
    obtain ⟨hfirst, hrest⟩ := forall_mem_cons.mp hu
    rw [h₂.other u hrest]
    refine h₁.other u fun p hp => ?_
    rwa [mem_singleton.mp hp]

theorem PagesAdded.loaded (hw : phdr.Words) (hv : validateSegment phdr file = true)
    (h : PagesAdded (segImage file (phdr.offset - pgOfs phdr.offset) phdr.segment.readBytes)
      phdr.segment.writable (phdr.vaddr / 4096) phdr.pageCount maps maps')
    (hin : phdr.segment.readBytes = 0 ∨
      phdr.offset - pgOfs phdr.offset + phdr.segment.readBytes ≤ file.bytes.length) :
    SegmentsLoaded file [phdr] maps maps' := by
  have hall : ∀ {R : Phdr → Prop}, R phdr → ∀ p ∈ [phdr], R p := by
    intro R hR p hp
    rwa [mem_singleton.mp hp]
  refine ⟨hall ⟨hw, hv⟩, hall ?_, hall fun u hu => ?_, hall fun u hu => ?_,
    pairwise_singleton .., fun u hu => h.other u ?_⟩
  · obtain ⟨hofs, -⟩ := validateSegment_spec hw hv
    rw [(segment_spec hw hv).2.2.1] at hin
    split at hin <;> omega
  · obtain ⟨r, hr, rfl⟩ := hasPage_iff.mp hu
    exact h.fresh r hr
  · obtain ⟨r, hr, rfl⟩ := hasPage_iff.mp hu
    obtain ⟨k, hk⟩ := h.page r hr
    rw [slice_image] at hk
    exact ⟨k, hk⟩
  · have hnot := mt hasPage_iff.mpr (hu phdr (mem_singleton_self phdr))
    by_contra hin'
    exact hnot ⟨u - phdr.vaddr / 4096, by omega, by omega⟩

/-- **`load_segment`** of a validated header fails no assertion. -/
theorem loadSegment_returns (hw : phdr.Words) (hv : validateSegment phdr file = true)
    (h : ProcInv P initPd base m₀ pd extra pts maps s) :
    Returns (loadSegment P initPd file phdr.segment) s
      (LoadsTo P initPd base m₀ pd extra (SegmentsLoaded file [phdr] maps)) := by
  obtain ⟨hofs, hupage, hread, hsum, hend⟩ := segment_spec hw hv
  obtain ⟨-, -, hsz, -⟩ := validateSegment_spec hw hv
  have hmul : phdr.offset - pgOfs phdr.offset = 4096 * (phdr.offset / 4096) :=
    Nat.sub_eq_of_eq_add (Nat.div_add_mod ..).symm
  have hsize : (phdr.segment.readBytes + phdr.segment.zeroBytes) % wordSize % 4096 = 0 := by
    rw [hsum, wordSize]
    omega
  have hpage : pgOfs phdr.segment.upage = 0 := by
    rw [hupage]
    exact Nat.mul_mod_right ..
  have htmod : phdr.segment.ofs.tmod 4096 = 0 := by
    rw [hofs, hmul, Nat.cast_mul]
    exact Int.mul_tmod_right ..
  have hseek : 0 ≤ phdr.segment.ofs := by
    rw [hofs]
    exact Int.natCast_nonneg _
  unfold loadSegment execFileSeek
  simp only [returns_bind, returns_assert]
  refine ⟨hsize, hpage, htmod, hseek, ?_⟩
  rw [returns_modify, hupage]
  refine (loadPages_returns _ (by rw [hsum]; omega) (h.setPos _ s.calls) hsum hend).mono
    fun ok t => ?_
  rintro ⟨pts', maps', h', hadded⟩
  refine ⟨pts', maps', h', fun hok => ?_⟩
  obtain ⟨hpages, hin⟩ := hadded hok
  simp only [hofs, Int.toNat_natCast] at hpages hin
  exact hpages.loaded hw hv hin

theorem loads_zero (ofs : ℕ) : file.loads ofs 0 = [] := rfl

theorem loads_succ (ofs n : ℕ) :
    file.loads ofs (n + 1) = if (file.phdr ofs).type = ptLoad
      then file.phdr ofs :: file.loads (ofs + 32) n else file.loads (ofs + 32) n := by
  rw [ExecFile.loads, range'_succ, map_cons, filter_cons]
  exact if_congr (by rw [decide_eq_true_iff]) rfl rfl

theorem toOff_toNat {x : ℕ} (hx : x < wordSize) (h : 0 ≤ toOff x) : (toOff x).toNat = x := by
  rw [wordSize] at hx
  unfold toOff at h ⊢
  split at h <;> omega

/-- **The loop over the program headers**. -/
theorem loadHeaders_returns (n : ℕ) (fileOfs : ℤ)
    (h : ProcInv P initPd base m₀ pd extra pts maps s) :
    Returns (loadHeaders P initPd file n fileOfs) s
      (LoadsTo P initPd base m₀ pd extra fun maps' => (n = 0 ∨ 0 ≤ fileOfs) ∧
        SegmentsLoaded file (file.loads fileOfs.toNat n) maps maps') := by
  induction n generalizing fileOfs s pts maps with
  | zero =>
    rw [loadHeaders, returns_pure]
    exact ⟨pts, maps, h, fun _ => ⟨Or.inl rfl, SegmentsLoaded.nil⟩⟩
  | succ n ih =>
    rw [loadHeaders]
    split
    · exact returns_false h
    next hofs =>
    obtain ⟨m, rfl⟩ := Int.eq_ofNat_of_zero_le (not_lt.mp fun hneg => hofs (Or.inl hneg))
    unfold execFileSeek
    simp only [returns_bind, returns_assert, returns_modify]
    refine ⟨Int.natCast_nonneg m, (execFileRead_returns 32).mono ?_⟩
    rintro data t ⟨hdata, rfl⟩
    have h₁ := h.setPos (m + data.length) (s.calls + 1)
    split
    · exact returns_false h₁
    next hfull =>
    have hfull : data.length = 32 := not_not.mp hfull
    have hwhole := read_whole (hdata ▸ hfull)
    have hin := (read_full (hdata ▸ hfull)).2
    rw [← hdata] at hwhole
    simp only [Int.toNat_natCast] at hwhole hin ⊢
    have hphdr : Phdr.parse data = file.phdr m := by rw [hwhole, ExecFile.phdr]
    have hnext : toOff ((m + 32) % wordSize) = ((m + 32 : ℕ) : ℤ) := by
      have hlen := file.length_lt
      rw [wordSize, Nat.mod_eq_of_lt (by omega)]
      exact if_pos (by omega)
    rw [hphdr, hnext, loads_succ]
    -- the headers behind this one
    have hrest : ∀ {t : ProcState} {pts₁ : ℕ → Option ℕ} {maps₁ : ℕ → Option UserPage},
        ProcInv P initPd base m₀ pd extra pts₁ maps₁ t →
        Returns (loadHeaders P initPd file n ((m + 32 : ℕ) : ℤ)) t
          (LoadsTo P initPd base m₀ pd extra
            (SegmentsLoaded file (file.loads (m + 32) n) maps₁)) := by
      intro t pts₁ maps₁ ht
      refine (ih ((m + 32 : ℕ) : ℤ) ht).mono fun ok t' => ?_
      rintro ⟨pts₂, maps₂, h₂, hloaded⟩
      exact ⟨pts₂, maps₂, h₂, fun hok => (hloaded hok).2⟩
    split
    · split
      · next hvalid =>
        rw [returns_bind]
        refine (loadSegment_returns (Phdr.parse_words _) hvalid h₁).mono fun ok t => ?_
        rintro ⟨pts₁, maps₁, h₂, hfirst⟩
        cases ok with
        | false => exact returns_false h₂
        | true =>
          refine (hrest h₂).mono fun ok t' => ?_
          rintro ⟨pts₂, maps₂, h₃, hloaded⟩
          exact ⟨pts₂, maps₂, h₃, fun hok =>
            ⟨Or.inr (Int.natCast_nonneg m), (hfirst rfl).cons (hloaded hok)⟩⟩
      · exact returns_false h₁
    · split
      · exact returns_false h₁
      · refine (hrest h₁).mono fun ok t' => ?_
        rintro ⟨pts₂, maps₂, h₃, hloaded⟩
        exact ⟨pts₂, maps₂, h₃, fun hok => ⟨Or.inr (Int.natCast_nonneg m), hloaded hok⟩⟩

def stackPage : ℕ := 1024 * 768 - 1

theorem setupStack_returns (h : ProcInv P initPd base m₀ pd extra pts maps s) :
    Returns (setupStack P initPd) s fun esp t =>
      LoadsTo P initPd base m₀ pd extra (fun maps' => esp = some physBase ∧
        maps stackPage = none ∧ ∃ k, maps' = update maps stackPage (some ⟨k, true, fillPage 0⟩))
        esp.isSome t := by
  unfold setupStack
  rw [returns_bind]
  refine (h.pallocGetPage true).mono fun r t hr => ?_
  obtain ⟨-, -, ⟨rfl, h₁⟩ | ⟨k, rfl, h₁, hzero⟩⟩ := hr
  · rw [returns_pure]
    exact ⟨pts, maps, h₁, nofun⟩
  rw [returns_bind]
  refine (installPage_returns h₁ (by decide) (by decide) true).mono fun ok t' hinstall => ?_
  obtain ⟨-, ⟨rfl, h₂⟩ | ⟨rfl, hfresh, pts', h₂⟩⟩ := hinstall
  · rw [if_neg Bool.false_ne_true, returns_bind]
    refine h₂.pallocFreePage.mono fun _ t₂ h₃ => ?_
    rw [returns_pure]
    exact ⟨pts, maps, h₃.1, nofun⟩
  · rw [if_pos rfl, returns_pure]
    rw [hzero rfl] at h₂
    exact ⟨pts', _, h₂, fun _ => ⟨rfl, hfresh, k, rfl⟩⟩

def ExecFile.ehdr (file : ExecFile) : Ehdr := Ehdr.parse (file.bytes.take 52)

def ExecFile.segments (file : ExecFile) : List Phdr := file.loads file.ehdr.phoff file.ehdr.phnum

/-- **An executable is loaded**: the user pages are those of its segments, and one for the stack. -/
structure Loaded (file : ExecFile) (eip esp : ℕ) (maps : ℕ → Option UserPage) : Prop where
  header : file.ehdr.ok = true
  eip : eip = file.ehdr.entry
  esp : esp = physBase
  pages : ∃ segs k, SegmentsLoaded file file.segments (fun _ => none) segs ∧
    segs stackPage = none ∧ maps = update segs stackPage (some ⟨k, true, fillPage 0⟩)

theorem loadFile_returns (h : ProcInv P initPd base m₀ pd extra pts (fun _ => none) s) :
    Returns (loadFile P initPd file) s fun r t => ∃ pts maps,
      ProcInv P initPd base m₀ pd extra pts maps t ∧
        ∀ eip esp, r = some (eip, esp) → Loaded file eip esp maps := by
  unfold loadFile
  simp only [returns_bind, returns_modify]
  refine (execFileRead_returns 52).mono ?_
  rintro data t ⟨hdata, rfl⟩
  have h₁ := h.setPos (0 + data.length) (s.calls + 1)
  split
  · rw [returns_pure]
    exact ⟨pts, _, h₁, fun _ _ hr => by cases hr⟩
  next hok =>
  obtain ⟨hlen, hheader⟩ := not_or.mp hok
  have hlen : data.length = 52 := not_not.mp hlen
  have hehdr : Ehdr.parse data = file.ehdr := by
    have hwhole := read_whole (hdata ▸ hlen)
    rw [← hdata] at hwhole
    rw [hwhole, drop_zero, ExecFile.ehdr]
  rw [hehdr] at hheader ⊢
  rw [returns_bind]
  refine (loadHeaders_returns _ _ h₁).mono fun ok t => ?_
  rintro ⟨pts₁, maps₁, h₂, hloaded⟩
  cases ok with
  | false =>
    rw [if_neg Bool.false_ne_true, returns_pure]
    exact ⟨pts₁, maps₁, h₂, fun _ _ hr => by cases hr⟩
  | true =>
    obtain ⟨hofs, hsegs⟩ := hloaded rfl
    have hphoff : file.loads (toOff file.ehdr.phoff).toNat file.ehdr.phnum = file.segments := by
      obtain hnum | hofs := hofs
      · rw [ExecFile.segments, hnum, loads_zero, loads_zero]
      · have hword : file.ehdr.phoff < wordSize := headerField_lt ..
        rw [ExecFile.segments, toOff_toNat hword hofs]
    rw [if_pos rfl, returns_bind]
    refine (setupStack_returns h₂).mono fun esp t => ?_
    rintro ⟨pts₂, maps₂, h₃, hstack⟩
    cases esp with
    | none =>
      rw [returns_pure]
      exact ⟨pts₂, maps₂, h₃, fun _ _ hr => by cases hr⟩
    | some esp =>
      rw [returns_pure]
      obtain ⟨hesp, hfresh, k, hmaps⟩ := hstack rfl
      refine ⟨pts₂, maps₂, h₃, fun eip esp' hr => ?_⟩
      cases hr
      exact ⟨not_not.mp hheader, rfl, Option.some.inj hesp, maps₁, k, hphoff ▸ hsegs, hfresh, hmaps⟩

/-- **`load` fails no assertion**, whatever the file is. If it returns true, the executable is
loaded; if it has no page directory, nothing has changed. -/
theorem load_spec (h : ProcStart P initPd base m₀ extra s) (file : Option ExecFile) :
    Returns (load P initPd file) s fun r t =>
      r = none ∧ ProcStart P initPd base m₀ extra t ∨
        ∃ pd pts maps, ProcInv P initPd base m₀ pd extra pts maps t ∧
          ∀ eip esp, r = some (eip, esp) → ∃ f, file = some f ∧ Loaded f eip esp maps := by
  unfold load
  rw [returns_bind]
  refine (pagedirCreate_returns h).mono fun r t hr => ?_
  rw [returns_bind, returns_modify]
  obtain ⟨rfl, h₁⟩ | ⟨pd, rfl, h₁⟩ := hr
  · rw [returns_pure]
    exact Or.inl ⟨rfl, rfl, h₁.init, h₁.ledger.congr rfl rfl rfl, h₁.frame, h₁.user⟩
  · cases file with
    | none =>
      rw [returns_pure]
      exact Or.inr ⟨pd, _, _, h₁, fun _ _ hr => by cases hr⟩
    | some f =>
      refine (loadFile_returns h₁).mono fun r t => ?_
      rintro ⟨pts, maps, h₂, hloaded⟩
      exact Or.inr ⟨pd, pts, maps, h₂, fun eip esp hr => ⟨f, rfl, hloaded eip esp hr⟩⟩

end Load

end OsMaterial
