import OsMaterial.Load

/-!
# The Life of a Process

`process_execute` of `userprog/process.c` creates a thread, which loads the executable, runs it, and
destroys its page directory. What a page directory means is what the hardware makes of it
(`translate`); a process stores bytes, and the hardware sets flags (`userStep`).

* `load_faithful`: after `load` returned true, the user memory is what the headers say.
* `process_conserves_pages`: all pages obtained for a process are freed, once.
-/

namespace OsMaterial

open List

/-! ### The hardware -/

def pteA : ℕ := 0x20

def pteD : ℕ := 0x40

structure Mapping where
  frame : ℕ
  writable : Bool
  user : Bool
  deriving DecidableEq

def frameOf (entry : ℕ) : ℕ := (entry &&& pteAddr) + physBase

/-- **The translation of an address** by a page directory. Both entries have to allow an access. -/
def translate (mem : ℕ → UInt8) (pd va : ℕ) : Option Mapping :=
  let pde := word mem (pd + 4 * pdNo va)
  if pde &&& pteP = 0 then none
  else
    let pte := word mem (frameOf pde + 4 * ptNo va)
    if pte &&& pteP = 0 then none
    else some {
      frame := frameOf pte
      writable := pde &&& pteW ≠ 0 ∧ pte &&& pteW ≠ 0
      user := pde &&& pteU ≠ 0 ∧ pte &&& pteU ≠ 0 }

def userByte (mem : ℕ → UInt8) (pd va : ℕ) : Option UInt8 :=
  match translate mem pd va with
  | none => none
  | some m => if m.user then some (mem (m.frame + pgOfs va)) else none

inductive UserStep where
  | store (va : ℕ) (byte : UInt8)
  | access (va : ℕ) (dirty : Bool)

def setFlags (mem : ℕ → UInt8) (a flags : ℕ) : ℕ → UInt8 :=
  patch mem a (toLe 4 (word mem a ||| flags))

/-- A process stores a byte. An access that its page directory does not allow faults, and the pages
above `PHYS_BASE` are the kernel's. -/
def userStore (pd va : ℕ) (byte : UInt8) (s : ProcState) : ProcState :=
  match translate s.mem pd va with
  | none => s
  | some m =>
    if va < physBase ∧ m.user ∧ m.writable then
      { s with mem := patch s.mem (m.frame + pgOfs va) [byte] }
    else s

def userAccess (pd va : ℕ) (dirty : Bool) (s : ProcState) : ProcState :=
  if va < physBase ∧ (translate s.mem pd va).isSome then
    let mem := setFlags s.mem (pd + 4 * pdNo va) pteA
    let pte := frameOf (word mem (pd + 4 * pdNo va)) + 4 * ptNo va
    { s with mem := setFlags mem pte (if dirty then pteA ||| pteD else pteA) }
  else s

def userStep (s : ProcState) (step : UserStep) : ProcState :=
  match s.pagedir, step with
  | none, _ => s
  | some pd, .store va byte => userStore pd va byte s
  | some pd, .access va dirty => userAccess pd va dirty s

/-! ### The functions -/

section Functions

variable (P : PageSupply) (initPd : ℕ)

def processExit : Call ProcPanic ProcState Unit := do
  match (← get).pagedir with
  | none => pure ()
  | some pd => do
      modify fun s => { s with pagedir := none }
      pagedirDestroy initPd pd

/-- `start_process`, up to the exit of the thread; `run` is what the process does before. -/
def startProcess (file : Option ExecFile) (fileName : ℕ) (run : List UserStep) :
    Call ProcPanic ProcState Unit := do
  let success ← load P initPd file
  pallocFreePage fileName
  if success.isSome then
    modify fun s => run.foldl userStep s
  processExit initPd

/-- `process_execute`, and the new thread up to its exit; `created` says whether `thread_create`
succeeds. -/
def processExecute (fileName : Bytes) (created : Bool) (file : Option ExecFile)
    (run : List UserStep) : Call ProcPanic ProcState Unit := do
  match ← pallocGetPage P false with
  | none => pure ()
  | some fnCopy => do
      storeBytes fnCopy (fileName.take 4095 ++ [0])
      if created then
        startProcess P initPd file fnCopy run
      else
        pallocFreePage fnCopy

end Functions

variable {pd va f v : ℕ} {base extra : List ℕ} {m₀ mem : ℕ → UInt8} {pts : ℕ → Option ℕ}
  {maps : ℕ → Option UserPage} {s t : ProcState}

/-! ### Translation -/

section Translate

variable {P : PageSupply} {initPd : ℕ} {page pt w : ℕ}

theorem RamPage.frameOf (h : RamPage P page) (hf : f < 4096) : frameOf (entryOf page f) = page := by
  have hlt := h.lt
  obtain ⟨i, hi, -, hsub⟩ := h.vtop
  have hram := P.ramPages_le
  rw [OsMaterial.frameOf, entryOf, hsub, add_flags_and_addr (by omega) hf]
  omega

theorem SameEntry.frameOf_eq (h : SameEntry v w) : frameOf v = frameOf w := by
  rw [frameOf, frameOf, h.2]

theorem sameEntry_or (hP : f &&& pteP = 0) (hA : f &&& pteAddr = 0) : SameEntry (v ||| f) v := by
  constructor
  · rw [Nat.and_or_distrib_right, hP, Nat.or_zero]
  · rw [Nat.and_or_distrib_right, hA, Nat.or_zero]

theorem translate_eq_none (h : word mem (pd + 4 * pdNo va) = 0) : translate mem pd va = none := by
  rw [translate, h]
  exact if_pos (Nat.zero_and _)

theorem RamPage.translate_eq (hram : RamPage P pt)
    (hpde : word mem (pd + 4 * pdNo va) = entryOf pt 7)
    (hpte : word mem (pt + 4 * ptNo va) = v) : translate mem pd va =
      if v &&& pteP = 0 then none
      else some ⟨OsMaterial.frameOf v, v &&& pteW ≠ 0, v &&& pteU ≠ 0⟩ := by
  have hbit : ∀ m < 4096, entryOf pt 7 &&& m = 7 &&& m := fun m hm =>
    hram.entryOf_and (by omega) hm
  simp only [translate, hpde, hram.frameOf (show 7 < 4096 by omega), hpte]
  rw [hbit pteP (by decide), hbit pteW (by decide), hbit pteU (by decide), if_neg (by decide),
    decide_eq_decide.mpr (and_iff_right (show 7 &&& pteW ≠ 0 by decide)),
    decide_eq_decide.mpr (and_iff_right (show 7 &&& pteU ≠ 0 by decide))]

/-- **The translation of a user address** is that of its page. -/
theorem ProcInv.translate (h : ProcInv P initPd base m₀ pd extra pts maps s) (hva : va < physBase) :
    translate s.mem pd va = (maps (va / 4096)).map fun p => ⟨p.kpage, p.writable, true⟩ := by
  obtain ⟨hi, hj, hsplit⟩ := pdNo_ptNo hva
  have hpde := h.space.pde _ hi
  cases hpt : pts (pdNo va) with
  | none =>
    have hnone := h.space.covered _ hi hpt _ hj
    rw [hsplit] at hnone
    rw [hpt] at hpde
    rw [translate_eq_none hpde, hnone, Option.map_none]
  | some pt =>
    have hpte := h.space.pte _ hi pt hpt _ hj
    obtain ⟨hram, -⟩ := h.owned_ram (mem_append_left _ (mem_ownedPages_of_table maps hi hpt))
    rw [hpt] at hpde
    rw [hsplit] at hpte
    rw [hram.translate_eq hpde hpte]
    cases hmap : maps (va / 4096) with
    | none => rw [pteWord, if_pos (Nat.zero_and _), Option.map_none]
    | some p =>
      obtain ⟨hramp, -⟩ := h.owned_ram (mem_append_left _ (h.space.mem_ownedPages hmap))
      have hflags : (if p.writable then 7 else 5) < 4096 := by split <;> omega
      have hbit : ∀ m < 4096, pteWord (some p) &&& m = (if p.writable then 7 else 5) &&& m :=
        fun m hm => hramp.entryOf_and hflags hm
      rw [hbit pteP (by decide), hbit pteW (by decide), hbit pteU (by decide), pteWord,
        hramp.frameOf hflags]
      obtain ⟨kpage, writable, bytes⟩ := p
      cases writable <;> simp [pteP, pteW, pteU]

end Translate

/-! ### Before a process is created -/

/-- **The kernel is ready to create a process**: the base page directory maps no user page, and its
page tables are pages in use. -/
structure KernelReady (initPd : ℕ) (s : ProcState) : Prop where
  pagedir : s.pagedir = none
  init : initPd ∈ s.used
  nodup : s.used.Nodup
  aligned : ∀ k ∈ s.used, pgOfs k = 0
  user : ∀ i < 768, word s.mem (initPd + 4 * i) = 0
  kernel : ∀ i < 1024, word s.mem (initPd + 4 * i) &&& pteP ≠ 0 →
    frameOf (word s.mem (initPd + 4 * i)) ∈ s.used
  obtained : s.obtained = []
  freed : s.freed = []

section Ready

variable {P : PageSupply} {initPd : ℕ}

theorem KernelReady.start (h : KernelReady initPd s) : ProcStart P initPd s.used s.mem [] s where
  pagedir := h.pagedir
  init := h.init
  ledger := by
    refine ⟨?_, h.nodup, h.aligned, fun k hk => absurd hk not_mem_nil, ?_⟩
    · rw [append_nil]
    · rw [h.obtained, h.freed, append_nil]
  frame _ _ := rfl
  user := h.user

theorem KernelReady.translate_user (h : KernelReady initPd s) (hva : va < physBase) :
    translate s.mem initPd va = none :=
  translate_eq_none (h.user _ (pdNo_ptNo hva).1)

theorem ProcInv.translate_kernel (hs : KernelReady initPd s)
    (h : ProcInv P initPd s.used s.mem pd extra pts maps t) (hva : physBase ≤ va)
    (hlt : va < wordSize) :
    OsMaterial.translate t.mem pd va = OsMaterial.translate s.mem initPd va := by
  have hi : pdNo va < 1024 ∧ 768 ≤ pdNo va := by
    rw [wordSize] at hlt
    rw [physBase] at hva
    rw [pdNo]
    omega
  have hj : ptNo va < 1024 := Nat.mod_lt _ (by decide)
  have hpde : word t.mem (pd + 4 * pdNo va) = word s.mem (initPd + 4 * pdNo va) := by
    rw [h.space.kernel _ hi.1 hi.2, word_congr (h.frame initPd hs.init) hi.1]
  simp only [OsMaterial.translate]
  rw [hpde]
  split
  · rfl
  · next hpresent => rw [word_congr (h.frame _ (hs.kernel _ hi.1 hpresent)) hj]

end Ready

def firstFit : PageSupply where
  ramPages := 64
  pick _ used := ((range 64).map fun i => physBase + 4096 * i).find? fun page => page ∉ used
  ramPages_le := by decide
  fresh h := of_decide_eq_true (find?_some (p := fun page => decide (page ∉ _)) h)
  inRam h := by
    obtain ⟨i, hi, rfl⟩ := mem_map.mp (mem_of_find?_eq_some h)
    exact ⟨i, mem_range.mp hi, rfl⟩

def bootState : ProcState where
  mem := patch (fun _ => 0) (physBase + 4 * 768) (toLe 4 0x1007)
  used := [physBase, physBase + 4096]
  calls := 0
  obtained := []
  freed := []
  pagedir := none
  pos := 0

theorem word_bootState (i : ℕ) :
    word bootState.mem (physBase + 4 * i) = if i = 768 then 0x1007 else 0 := by
  split
  · next heq =>
    rw [heq]
    exact word_patch_self (by decide)
  · next hne =>
    refine (word_patch_of_disjoint ?_).trans rfl
    rw [length_toLe]
    omega

theorem bootState_ready : KernelReady physBase bootState where
  pagedir := rfl
  init := mem_cons_self
  nodup := by decide
  aligned := by decide
  user i hi := by rw [word_bootState, if_neg (by omega)]
  kernel i hi hpresent := by
    rw [word_bootState] at hpresent ⊢
    split at hpresent
    · rw [if_pos ‹_›]
      decide
    · exact absurd (Nat.zero_and _) hpresent
  obtained := rfl
  freed := rfl

def tinyExec : ExecFile where
  bytes := [0x7f, 0x45, 0x4c, 0x46, 1, 1, 1, 0, 0, 0, 0, 0, 0, 0, 0, 0, 2, 0, 3, 0, 1, 0, 0, 0,
    0x54, 0x80, 4, 8, 52, 0, 0, 0, 0, 0, 0, 0, 0, 0, 0, 0, 52, 0, 32, 0, 1, 0, 0, 0, 0, 0, 0, 0,
    1, 0, 0, 0, 84, 0, 0, 0, 0x54, 0x80, 4, 8, 0, 0, 0, 0, 4, 0, 0, 0, 8, 0, 0, 0, 6, 0, 0, 0,
    0, 16, 0, 0, 10, 20, 30, 40]
  cap _ := 4096
  length_lt := by decide

/-! ### What a loaded process sees -/

/-- **The memory of a process is that of its executable**, and its directory maps nothing else. -/
structure Faithful (file : ExecFile) (initPd : ℕ) (m₀ mem : ℕ → UInt8) (pd : ℕ) : Prop where
  bytes : ∀ phdr ∈ file.segments, ∀ i < phdr.filesz, phdr.offset + i < file.bytes.length ∧
    userByte mem pd (phdr.vaddr + i) = file.bytes[phdr.offset + i]?
  zeros : ∀ phdr ∈ file.segments, ∀ i < phdr.memsz, phdr.filesz ≤ i →
    userByte mem pd (phdr.vaddr + i) = some 0
  writable : ∀ phdr ∈ file.segments, ∀ va, phdr.HasPage (va / 4096) →
    ∃ m, translate mem pd va = some m ∧ m.user = true ∧ (m.writable = true ↔ phdr.flags &&& 2 ≠ 0)
  mapped : ∀ va < physBase, (translate mem pd va).isSome = true ↔
    (∃ phdr ∈ file.segments, phdr.HasPage (va / 4096)) ∨ physBase - 4096 ≤ va
  apart : file.segments.Pairwise fun p q => ∀ u, p.HasPage u → ¬ q.HasPage u
  stack : ∀ phdr ∈ file.segments, ∀ u, phdr.HasPage u → 4096 * u < physBase - 4096
  frames : ∀ va < physBase, ∀ va' < physBase, ∀ m m', translate mem pd va = some m →
    translate mem pd va' = some m' → m.frame = m'.frame → va / 4096 = va' / 4096
  kept : ∀ va < wordSize, va < 4096 ∨ physBase ≤ va → translate mem pd va = translate m₀ initPd va

section Faithful

variable {P : PageSupply} {initPd eip esp : ℕ} {file : ExecFile} {phdr : Phdr} {u : ℕ}

section

variable (h : Loaded file eip esp maps)

include h

theorem Loaded.valid (hphdr : phdr ∈ file.segments) :
    phdr.Words ∧ validateSegment phdr file = true := by
  obtain ⟨segs, k, hsegs, -⟩ := h.pages
  exact hsegs.valid phdr hphdr

theorem Loaded.inFile (hphdr : phdr ∈ file.segments) :
    phdr.filesz = 0 ∨ phdr.offset + phdr.filesz ≤ file.bytes.length := by
  obtain ⟨segs, k, hsegs, -⟩ := h.pages
  exact hsegs.inFile phdr hphdr

theorem Loaded.apart : file.segments.Pairwise fun p q => ∀ u, p.HasPage u → ¬ q.HasPage u := by
  obtain ⟨segs, k, hsegs, -⟩ := h.pages
  exact hsegs.apart

theorem Loaded.page (hphdr : phdr ∈ file.segments) (hu : phdr.HasPage u) :
    u ≠ stackPage ∧ ∃ k, maps u = some ⟨k, decide (phdr.flags &&& 2 ≠ 0),
      slice (phdr.image file) (4096 * u) 4096⟩ := by
  obtain ⟨segs, k, hsegs, hfresh, rfl⟩ := h.pages
  obtain ⟨k', hk'⟩ := hsegs.page phdr hphdr u hu
  have hne : u ≠ stackPage := by
    rintro rfl
    rw [hfresh] at hk'
    cases hk'
  exact ⟨hne, k', by rw [Function.update_of_ne hne, hk']⟩

theorem Loaded.isSome_iff :
    (maps u).isSome = true ↔ (∃ phdr ∈ file.segments, phdr.HasPage u) ∨ u = stackPage := by
  obtain ⟨segs, k, hsegs, hfresh, rfl⟩ := h.pages
  by_cases hu : u = stackPage
  · rw [hu, Function.update_self]
    simp
  rw [Function.update_of_ne hu, or_iff_left hu]
  constructor
  · intro hsome
    by_contra hnone
    rw [hsegs.other u fun phdr hphdr hpage => hnone ⟨phdr, hphdr, hpage⟩] at hsome
    cases hsome
  · rintro ⟨phdr, hphdr, hpage⟩
    obtain ⟨k', hk'⟩ := hsegs.page phdr hphdr u hpage
    rw [hk']
    rfl

end

theorem ProcInv.userByte (h : ProcInv P initPd base m₀ pd extra pts maps s) (hva : va < physBase)
    {p : UserPage} (hp : maps (va / 4096) = some p) :
    userByte s.mem pd va = p.bytes[va % 4096]? := by
  have hlt : va % 4096 < 4096 := Nat.mod_lt _ (by decide)
  rw [OsMaterial.userByte, h.translate hva, hp, ← h.space.bytes _ p hp]
  simp only [Option.map_some, if_true]
  rw [getElem?_eq_getElem (by rwa [length_slice]), getElem_slice]
  rfl

theorem Loaded.userByte (hl : Loaded file eip esp maps)
    (h : ProcInv P initPd base m₀ pd extra pts maps s) (hphdr : phdr ∈ file.segments)
    {i : ℕ} (hi : i < phdr.memsz) :
    OsMaterial.userByte s.mem pd (phdr.vaddr + i) = some (phdr.image file (phdr.vaddr + i)) := by
  obtain ⟨hw, hv⟩ := hl.valid hphdr
  obtain ⟨-, -, -, -, -, hend⟩ := validateSegment_spec hw hv
  have hpage : phdr.HasPage ((phdr.vaddr + i) / 4096) := by
    rw [Phdr.HasPage]
    omega
  obtain ⟨-, k, hk⟩ := hl.page hphdr hpage
  have hlt : (phdr.vaddr + i) % 4096 < 4096 := Nat.mod_lt _ (by decide)
  rw [h.userByte (by omega) hk, getElem?_eq_getElem (by rwa [length_slice]), getElem_slice,
    Nat.div_add_mod]

theorem Loaded.faithful (hs : KernelReady initPd s) (hl : Loaded file eip esp maps)
    (h : ProcInv P initPd s.used s.mem pd extra pts maps t) :
    Faithful file initPd s.mem t.mem pd where
  bytes phdr hphdr i hi := by
    obtain ⟨hw, hv⟩ := hl.valid hphdr
    obtain ⟨-, -, hsz, -⟩ := validateSegment_spec hw hv
    have hin := hl.inFile hphdr
    refine ⟨by omega, ?_⟩
    rw [hl.userByte h hphdr (by omega), image_of_file hw hv hi,
      getD_eq_getElem _ _ (by omega), getElem?_eq_getElem]
  zeros phdr hphdr i hi hfile := by
    obtain ⟨hw, hv⟩ := hl.valid hphdr
    rw [hl.userByte h hphdr hi, image_of_zero hw hv hfile]
  writable phdr hphdr va hva := by
    obtain ⟨hw, hv⟩ := hl.valid hphdr
    obtain ⟨-, k, hk⟩ := hl.page hphdr hva
    obtain ⟨r, hr, hu⟩ := hasPage_iff.mp hva
    have hend := (segment_spec hw hv).2.2.2.2
    have hlt : va < physBase := by
      rw [physBase]
      omega
    rw [h.translate hlt, hk]
    exact ⟨_, rfl, rfl, decide_eq_true_iff⟩
  mapped va hva := by
    have hstack : va / 4096 = stackPage ↔ physBase - 4096 ≤ va := by
      rw [physBase] at hva ⊢
      rw [stackPage]
      omega
    rw [h.translate hva, Option.isSome_map, hl.isSome_iff, hstack]
  apart := hl.apart
  stack phdr hphdr u hu := by
    obtain ⟨hw, hv⟩ := hl.valid hphdr
    obtain ⟨hne, -⟩ := hl.page hphdr hu
    obtain ⟨-, -, -, -, -, hend⟩ := validateSegment_spec hw hv
    obtain ⟨-, hlt⟩ := hu
    rw [stackPage] at hne
    rw [physBase] at hend ⊢
    omega
  frames va hva va' hva' m m' hm hm' hframe := by
    rw [h.translate hva] at hm
    rw [h.translate hva'] at hm'
    obtain ⟨p, hp, rfl⟩ := Option.map_eq_some_iff.mp hm
    obtain ⟨q, hq, rfl⟩ := Option.map_eq_some_iff.mp hm'
    exact h.space.frame_inj h.owned_nodup.1 hp hq hframe
  kept va hlt hva := by
    rcases hva with hzero | hkernel
    · have hu : va < physBase := by
        rw [physBase]
        omega
      rw [h.translate hu, hs.translate_user hu, Option.map_eq_none_iff,
        ← Option.not_isSome_iff_eq_none, hl.isSome_iff]
      rintro (⟨phdr, hphdr, hpage⟩ | hstack)
      · obtain ⟨hw, hv⟩ := hl.valid hphdr
        obtain ⟨-, -, -, -, hfirst, -⟩ := validateSegment_spec hw hv
        have := hpage.1
        omega
      · rw [stackPage] at hstack
        omega
    · exact h.translate_kernel hs hkernel hlt

/-- **Loading an executable is faithful and confined.** -/
theorem load_faithful (hs : KernelReady initPd s)
    (hload : (load P initPd (some file)).run s = .ok (some (eip, esp), t)) :
    ∃ pd, t.pagedir = some pd ∧ Faithful file initPd s.mem t.mem pd := by
  obtain ⟨hnone, -⟩ | ⟨pd, pts, maps, h, hloaded⟩ :=
    (load_spec (P := P) hs.start (some file)).of_run hload
  · cases hnone
  · obtain ⟨f, hf, hl⟩ := hloaded eip esp rfl
    cases hf
    exact ⟨pd, h.pagedir, hl.faithful hs h⟩

/-- A file with one segment. -/
theorem load_faithful_tiny :
    ∃ eip esp t, (load firstFit physBase (some tinyExec)).run bootState = .ok (some (eip, esp), t) ∧
      ∃ pd, t.pagedir = some pd ∧ Faithful tinyExec physBase bootState.mem t.mem pd := by
  have hok : ((load firstFit physBase (some tinyExec)).run bootState).toOption.any
      (fun r => r.1.isSome) = true := by decide +kernel
  cases hrun : (load firstFit physBase (some tinyExec)).run bootState with
  | error e =>
    rw [hrun] at hok
    cases hok
  | ok r =>
    rw [hrun] at hok
    obtain ⟨entry, hentry⟩ := Option.isSome_iff_exists.mp hok
    obtain ⟨r, t⟩ := r
    obtain rfl : r = some entry := hentry
    exact ⟨entry.1, entry.2, t, rfl, load_faithful bootState_ready hrun⟩

/-- **A malformed executable cannot stop the kernel**: `load` returns, whatever is in the file and
whichever allocations fail. -/
theorem load_returns (hs : KernelReady initPd s) (file : ExecFile) :
    (∃ r t, (load P initPd (some file)).run s = .ok (r, t)) ∧
      ∀ header phdr, phdr = Phdr.parse header → validateSegment phdr file = true →
        pgOfs phdr.vaddr + phdr.filesz < wordSize ∧
        pgOfs phdr.vaddr + phdr.memsz + 4095 < wordSize ∧
        phdr.segment.readBytes ≤ roundUp (pgOfs phdr.vaddr + phdr.memsz) ∧
        phdr.segment.readBytes + phdr.segment.zeroBytes = roundUp (pgOfs phdr.vaddr + phdr.memsz) ∧
        phdr.segment.upage + roundUp (pgOfs phdr.vaddr + phdr.memsz) ≤ physBase := by
  obtain ⟨r, t, hrun, -⟩ := load_spec (P := P) hs.start (some file)
  refine ⟨⟨r, t, hrun⟩, ?_⟩
  rintro header phdr rfl hv
  have hw := Phdr.parse_words header
  obtain ⟨-, hupage, hread, hsum, hpages⟩ := segment_spec hw hv
  obtain ⟨-, -, hsz, -, -, hend⟩ := validateSegment_spec hw hv
  have hofs : pgOfs (Phdr.parse header).vaddr ≤ (Phdr.parse header).vaddr := Nat.mod_le ..
  rw [physBase] at hend
  rw [roundUp_memsz hw hv, hupage, wordSize, physBase]
  omega

/-- The same file is loaded. -/
theorem load_returns_tiny :
    (∃ r t, (load firstFit physBase (some tinyExec)).run bootState = .ok (r, t)) ∧
      validateSegment (tinyExec.phdr 52) tinyExec = true ∧
        (tinyExec.phdr 52).segment.upage + roundUp (pgOfs (tinyExec.phdr 52).vaddr +
          (tinyExec.phdr 52).memsz) ≤ physBase := by
  have hload := load_returns (P := firstFit) bootState_ready tinyExec
  have hvalid : validateSegment (tinyExec.phdr 52) tinyExec = true := by decide
  exact ⟨hload.1, hvalid, (hload.2 _ _ rfl hvalid).2.2.2.2⟩

end Faithful

/-! ### A process that runs -/

/-- **A process runs**: its page directory has the entries it was given, up to flags. -/
structure Running (P : PageSupply) (base : List ℕ) (pd : ℕ) (pts : ℕ → Option ℕ)
    (maps : ℕ → Option UserPage) (s : ProcState) : Prop where
  pagedir : s.pagedir = some pd
  ledger : Ledger P base (ownedPages pts maps ++ [pd]) s
  tables : Tables s.mem pd pts maps

section Running

variable {P : PageSupply} {initPd : ℕ} {a : ℕ}

theorem ProcInv.running (h : ProcInv P initPd base m₀ pd [] pts maps s) :
    Running P base pd pts maps s := by
  have hledger := h.ledger
  rw [nil_append] at hledger
  exact ⟨h.pagedir, hledger, h.space.tables⟩

theorem word_setFlags (ha : a % 4 = 0) (hv : v % 4 = 0) (hf : f < 256 ^ 4) :
    word (setFlags mem a f) v = if v = a then word mem a ||| f else word mem v := by
  have hlt : word mem a ||| f < 256 ^ 4 := by
    have hword : word mem a < 256 ^ 4 := by
      have h := ofLe_lt (slice mem a 4)
      rwa [length_slice] at h
    exact Nat.or_lt_two_pow (n := 32) hword hf
  split
  · next heq =>
    rw [heq]
    exact word_patch_self hlt
  · next hne =>
    refine word_patch_of_disjoint ?_
    rw [length_toLe]
    omega

section

variable (h : Running P base pd pts maps s)

include h

theorem Running.aligned {page : ℕ} (hpage : page ∈ ownedPages pts maps ++ [pd]) (i : ℕ) :
    (page + 4 * i) % 4 = 0 := by
  have := (h.ledger.ram page hpage).aligned
  rw [pgOfs, pgSize] at this
  omega

theorem Running.setFlags (ha : a % 4 = 0) (hf : f < 256 ^ 4) (hP : f &&& pteP = 0)
    (hA : f &&& pteAddr = 0) : Running P base pd pts maps { s with mem := setFlags s.mem a f } := by
  have hsame : ∀ {v w}, v % 4 = 0 → SameEntry (word s.mem v) w →
      SameEntry (word (OsMaterial.setFlags s.mem a f) v) w := by
    intro v w hv hw
    rw [word_setFlags ha hv hf]
    split
    · next heq =>
      subst heq
      have hor := sameEntry_or (v := word s.mem v) hP hA
      exact ⟨hor.1.trans hw.1, hor.2.trans hw.2⟩
    · exact hw
  refine ⟨h.pagedir, h.ledger.congr rfl rfl rfl, fun i hi => ?_, fun i hi pt hpt j hj => ?_⟩
  · exact hsame (h.aligned (by simp) i) (h.tables.pde i hi)
  · have hmem := mem_append_left [pd] (mem_ownedPages_of_table maps hi hpt)
    exact hsame (h.aligned hmem j) (h.tables.pte i hi pt hpt j hj)

variable {m : Mapping}

theorem Running.page (hva : va < physBase) (hm : translate s.mem pd va = some m) :
    ∃ pt, pts (pdNo va) = some pt ∧ frameOf (word s.mem (pd + 4 * pdNo va)) = pt ∧
      m.frame ∈ tableFrames maps (pdNo va) := by
  obtain ⟨hi, hj, -⟩ := pdNo_ptNo hva
  have hpde := h.tables.pde _ hi
  simp only [translate] at hm
  split at hm
  · cases hm
  next hpresent =>
  cases hpt : pts (pdNo va) with
  | none =>
    rw [hpt] at hpde
    exact absurd (hpde.1.trans (Nat.zero_and _)) hpresent
  | some pt =>
    have hram := h.ledger.ram pt (mem_append_left _ (mem_ownedPages_of_table maps hi hpt))
    have hpte := h.tables.pte _ hi pt hpt _ hj
    have hframe : frameOf (word s.mem (pd + 4 * pdNo va)) = pt := by
      rw [hpt] at hpde
      rw [hpde.frameOf_eq]
      exact hram.frameOf (by omega)
    rw [hframe] at hm
    split at hm
    · cases hm
    next hpresent' =>
    cases hmap : maps (1024 * pdNo va + ptNo va) with
    | none =>
      rw [hmap] at hpte
      exact absurd (hpte.1.trans (Nat.zero_and _)) hpresent'
    | some p =>
      have hmem : p.kpage ∈ tableFrames maps (pdNo va) :=
        mem_tableFrames.mpr ⟨ptNo va, hj, p, hmap, rfl⟩
      have hram' : RamPage P p.kpage := by
        refine h.ledger.ram _ (mem_append_left _ (mem_flatMap.mpr ⟨pdNo va, mem_range.mpr hi, ?_⟩))
        rw [tablePages, hpt]
        exact mem_append_left _ hmem
      have hflags : (if p.writable then 7 else 5) < 4096 := by split <;> omega
      refine ⟨pt, rfl, hframe, ?_⟩
      rw [← Option.some.inj hm, hpte.frameOf_eq, hmap]
      exact (hram'.frameOf hflags).symm ▸ hmem

theorem Running.store (hva : va < physBase) (hm : translate s.mem pd va = some m) (byte : UInt8) :
    Running P base pd pts maps { s with mem := patch s.mem (m.frame + pgOfs va) [byte] } := by
  obtain ⟨hi, -, -⟩ := pdNo_ptNo hva
  obtain ⟨pt, hpt, -, hmem⟩ := h.page hva hm
  obtain ⟨hnodup, -⟩ := h.ledger.separate
  obtain ⟨howned, -, hdisj⟩ := nodup_append.mp hnodup
  have htable : m.frame ∈ tablePages pts maps (pdNo va) := by
    rw [tablePages, hpt]
    exact mem_append_left _ hmem
  have hown : m.frame ∈ ownedPages pts maps := mem_flatMap.mpr ⟨pdNo va, mem_range.mpr hi, htable⟩
  have hframe := (h.ledger.ram _ (mem_append_left [pd] hown)).aligned
  have hofs : pgOfs va < 4096 := Nat.mod_lt _ (by decide)
  -- the words of another page are not changed
  have hword : ∀ page ∈ ownedPages pts maps ++ [pd], page ≠ m.frame → ∀ j < 1024,
      word (patch s.mem (m.frame + pgOfs va) [byte]) (page + 4 * j) =
        word s.mem (page + 4 * j) := by
    intro page hpage hne j hj
    refine word_congr
      (slice_patch_page (h.ledger.ram page hpage).aligned hframe hne (by omega) ?_) hj
    rw [length_singleton]
    omega
  refine ⟨h.pagedir, h.ledger.congr rfl rfl rfl, fun i hi' => ?_, fun i hi' pt' hpt' j hj => ?_⟩
  · have hne : pd ≠ m.frame := fun heq => hdisj m.frame hown pd (mem_singleton_self pd) heq.symm
    rw [hword pd (by simp) hne i (by omega)]
    exact h.tables.pde i hi'
  · have hne : pt' ≠ m.frame := by
      rintro rfl
      have heq : i = pdNo va := by
        refine table_eq howned hi' hi ?_ htable
        rw [tablePages, hpt']
        simp
      rw [heq] at hpt'
      exact (table_nodup howned hi hpt').2 hmem
    change SameEntry (word (patch s.mem (m.frame + pgOfs va) [byte]) _) _
    rw [hword pt' (mem_append_left _ (mem_ownedPages_of_table maps hi' hpt')) hne j hj]
    exact h.tables.pte i hi' pt' hpt' j hj

theorem Running.access (hva : va < physBase) (hm : translate s.mem pd va = some m)
    (dirty : Bool) : Running P base pd pts maps (userAccess pd va dirty s) := by
  obtain ⟨hi, hj, -⟩ := pdNo_ptNo hva
  obtain ⟨pt, hpt, hframe, -⟩ := h.page hva hm
  have hpd : (pd + 4 * pdNo va) % 4 = 0 := h.aligned (by simp) _
  have h₁ := h.setFlags hpd (f := pteA) (by decide) (by decide) (by decide)
  have hpte : frameOf (word (OsMaterial.setFlags s.mem (pd + 4 * pdNo va) pteA)
      (pd + 4 * pdNo va)) = pt := by
    have hor := sameEntry_or (f := pteA) (v := word s.mem (pd + 4 * pdNo va)) (by decide)
      (by decide)
    rw [word_setFlags hpd hpd (by decide), if_pos rfl, hor.frameOf_eq, hframe]
  have halign : (pt + 4 * ptNo va) % 4 = 0 :=
    h.aligned (mem_append_left _ (mem_ownedPages_of_table maps hi hpt)) _
  have hdirty : ∀ {R : ℕ → Prop}, R (pteA ||| pteD) → R pteA →
      R (if dirty then pteA ||| pteD else pteA) := by
    intro R hset hclear
    split
    · exact hset
    · exact hclear
  simp only [userAccess]
  rw [if_pos ⟨hva, by rw [hm]; rfl⟩, hpte]
  exact h₁.setFlags halign (hdirty (R := fun f => f < 256 ^ 4) (by decide) (by decide))
    (hdirty (R := fun f => f &&& pteP = 0) (by decide) (by decide))
    (hdirty (R := fun f => f &&& pteAddr = 0) (by decide) (by decide))

theorem Running.step (step : UserStep) : Running P base pd pts maps (userStep s step) := by
  unfold userStep
  rw [h.pagedir]
  cases step with
  | store va byte =>
    change Running P base pd pts maps (userStore pd va byte s)
    unfold userStore
    split
    · exact h
    · next m hm =>
      split
      · next hva => exact h.store hva.1 hm byte
      · exact h
  | access va dirty =>
    change Running P base pd pts maps (userAccess pd va dirty s)
    by_cases hva : va < physBase ∧ (translate s.mem pd va).isSome = true
    · obtain ⟨m, hm⟩ := Option.isSome_iff_exists.mp hva.2
      exact h.access hva.1 hm dirty
    · rw [userAccess, if_neg hva]
      exact h

theorem Running.run (run : List UserStep) : Running P base pd pts maps (run.foldl userStep s) := by
  induction run generalizing s with
  | nil => exact h
  | cons step run ih => exact ih (h.step step)

theorem processExit_returns (hinit : initPd ∈ base) :
    Returns (processExit initPd) s fun _ t => Ledger P base [] t := by
  have hledger : Ledger P base (ownedPages pts maps ++ [pd]) { s with pagedir := none } :=
    h.ledger.congr rfl rfl rfl
  unfold processExit
  simp only [returns_bind, returns_get, h.pagedir, returns_modify]
  exact (pagedirDestroy_returns (t := { s with pagedir := none }) h.tables hinit hledger).mono
    fun _ t ht => ht.1

end

theorem startProcess_returns {fileName : ℕ} (h : ProcStart P initPd base m₀ [fileName] s)
    (file : Option ExecFile) (run : List UserStep) :
    Returns (startProcess P initPd file fileName run) s fun _ t => Ledger P base [] t := by
  unfold startProcess
  simp only [returns_bind]
  refine (load_spec h file).mono fun r t => ?_
  rintro (⟨rfl, h₁⟩ | ⟨pd, pts, maps, h₁, -⟩)
  · refine (pallocFreePage_returns h₁.ledger).mono ?_
    rintro _ t' ⟨hledger, hpagedir, -⟩
    rw [h₁.pagedir] at hpagedir
    unfold processExit
    simp only [Option.isSome_none, Bool.false_eq_true, if_false, returns_pure, returns_bind,
      returns_get, hpagedir]
    exact hledger
  · refine h₁.pallocFreePage.mono ?_
    rintro _ t' ⟨h₂, -⟩
    cases r with
    | none =>
      simp only [Option.isSome_none, Bool.false_eq_true, if_false]
      exact processExit_returns h₂.running h₂.init
    | some r =>
      simp only [Option.isSome_some, if_true, returns_bind, returns_modify]
      exact processExit_returns (h₂.running.run run) h₂.init

/-- **Creating and ending a process conserves pages**, wherever an allocation or a read of the file
fails, and whatever the process does. -/
theorem process_conserves_pages (hs : KernelReady initPd s) (fileName : Bytes)
    (created : Bool) (file : Option ExecFile) (run : List UserStep) :
    Returns (processExecute P initPd fileName created file run) s fun _ t =>
      t.obtained.Perm t.freed ∧ t.used.Perm s.used := by
  have hend : ∀ {t : ProcState}, Ledger P s.used [] t →
      t.obtained.Perm t.freed ∧ t.used.Perm s.used := by
    intro t h
    have hlog := h.log
    have hused := h.used
    rw [append_nil] at hlog hused
    exact ⟨hlog, hused⟩
  have h₀ : ProcStart P initPd s.used s.mem [] s := hs.start
  unfold processExecute
  rw [returns_bind]
  refine (pallocGetPage_returns h₀.ledger false).mono fun r t hr => ?_
  rcases hr with ⟨rfl, rfl⟩ | ⟨k, rfl, hfresh, hram, hledger, hpagedir, -, hmem⟩
  · rw [returns_pure]
    exact hend (h₀.ledger.congr rfl rfl rfl)
  rw [if_neg Bool.false_ne_true] at hmem
  simp only [storeBytes, returns_bind, returns_modify]
  have hledger' : Ledger P s.used [k]
      { t with mem := patch t.mem k (fileName.take 4095 ++ [0]) } := hledger.congr rfl rfl rfl
  cases created with
  | false =>
    refine (pallocFreePage_returns hledger').mono ?_
    rintro _ t' ⟨hfree, -⟩
    exact hend hfree
  | true =>
    have hframe : ∀ l ∈ s.used,
        slice (patch t.mem k (fileName.take 4095 ++ [0])) l 4096 = slice s.mem l 4096 := by
      intro l hl
      have hlen : k + (fileName.take 4095 ++ [0]).length ≤ k + 4096 := by
        rw [length_append, length_take, length_singleton]
        omega
      have hne : l ≠ k := fun heq => hfresh (heq ▸ hl)
      rw [hmem]
      exact slice_patch_page (hs.aligned l hl) hram.aligned hne le_rfl hlen
    have h₁ : ProcStart P initPd s.used s.mem [k]
        { t with mem := patch t.mem k (fileName.take 4095 ++ [0]) } :=
      ⟨hpagedir.trans hs.pagedir, hs.init, hledger', hframe, hs.user⟩
    exact (startProcess_returns h₁ file run).mono fun _ t' ht => hend ht

/-- A process that stores a byte. -/
theorem process_conserves_pages_tiny :
    Returns (processExecute firstFit physBase [0x61] true (some tinyExec)
      [.store 0x08048054 1, .access 0x08048054 true]) bootState fun _ t =>
        t.obtained.Perm t.freed ∧ t.used.Perm bootState.used :=
  process_conserves_pages bootState_ready [0x61] true (some tinyExec) _

end Running

end OsMaterial
