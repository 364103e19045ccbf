import Mathlib.Data.List.Pairwise
import Mathlib.Data.List.Perm.Basic
import Mathlib.Data.Nat.Bitwise
import OsMaterial.Calls
import OsMaterial.Palloc

/-!
# Page Directories

`userprog/pagedir.c` over the memory of the kernel, a byte image indexed by kernel virtual
addresses; entries have the format of `threads/pte.h`. Pages come from a `PageSupply`, which can
fail at any time and hands out pages that are not in use. A page directory is its page tables and
user pages (`Space`), and a `Ledger` says who has which page.

* `installPage_returns`: `install_page` maps the page, or leaves the directory as it was.
* `pagedirDestroy_returns`: `pagedir_destroy` frees each page that the directory owns, once.
-/

namespace OsMaterial

open Function (update update_of_ne update_self)
open List

variable {n k i a : ℕ} {α : Type*} {bytes : Bytes}

inductive ProcPanic where
  | palloc (e : PallocPanic)
  | kernelAddr
  | entryPage
  | pdePresent
  | noPagedir
  | createKernel
  | upageOffset
  | kpageOffset
  | upageUser
  | kpageRam
  | basePagedir
  | alreadyMapped
  | uaddrUser
  | segmentSize
  | segmentPage
  | segmentOfs
  | seek
  | endless
  deriving DecidableEq

/-- Where `palloc_get_page` takes its pages from: the answer to call number `n`, when the pages
`used` are in use. -/
structure PageSupply where
  ramPages : ℕ
  pick : ℕ → List ℕ → Option ℕ
  ramPages_le : ramPages ≤ 2 ^ 18
  fresh : ∀ {n used page}, pick n used = some page → page ∉ used
  inRam : ∀ {n used page}, pick n used = some page → ∃ i < ramPages, page = physBase + 4096 * i

structure ProcState where
  mem : ℕ → UInt8
  used : List ℕ
  calls : ℕ
  obtained : List ℕ
  freed : List ℕ
  pagedir : Option ℕ
  pos : ℕ

/-! ### Entries -/

def pdNo (va : ℕ) : ℕ := va / 2 ^ 22

def ptNo (va : ℕ) : ℕ := va / 2 ^ 12 % 2 ^ 10

def pteAddr : ℕ := 0xfffff000

def pteP : ℕ := 0x1

def pteW : ℕ := 0x2

def pteU : ℕ := 0x4

def vtop (vaddr : ℕ) : Except ProcPanic ℕ :=
  if physBase ≤ vaddr then .ok (vaddr - physBase) else .error .kernelAddr

def pdeCreate (pt : ℕ) : Except ProcPanic ℕ :=
  if pgOfs pt = 0 then (vtop pt).map (· ||| pteU ||| pteP ||| pteW) else .error .entryPage

def pdeGetPt (pde : ℕ) : Except ProcPanic ℕ :=
  if pde &&& pteP ≠ 0 then (ptov (pde &&& pteAddr)).mapError .palloc else .error .pdePresent

def pteCreateKernel (page : ℕ) (writable : Bool) : Except ProcPanic ℕ :=
  if pgOfs page = 0 then
    (vtop page).map (· ||| pteP ||| (if writable then pteW else 0))
  else
    .error .entryPage

def pteCreateUser (page : ℕ) (writable : Bool) : Except ProcPanic ℕ :=
  (pteCreateKernel page writable).map (· ||| pteU)

def pteGetPage (pte : ℕ) : Except ProcPanic ℕ := (ptov (pte &&& pteAddr)).mapError .palloc

def word (mem : ℕ → UInt8) (a : ℕ) : ℕ := ofLe (slice mem a 4)

def fillPage (byte : UInt8) : Bytes := replicate 4096 byte

@[simp] theorem length_fillPage (byte : UInt8) : (fillPage byte).length = 4096 :=
  length_replicate

/-! ### The functions -/

section Functions

variable (P : PageSupply) (initPd : ℕ)

def loadWord (a : ℕ) : Call ProcPanic ProcState ℕ := do
  return word (← get).mem a

def storeWord (a v : ℕ) : Call ProcPanic ProcState Unit :=
  modify fun s => { s with mem := patch s.mem a (toLe 4 v) }

def pallocGetPage (zero : Bool) : Call ProcPanic ProcState (Option ℕ) := do
  let s ← get
  match P.pick s.calls s.used with
  | none =>
    set { s with calls := s.calls + 1 }
    return none
  | some page =>
    set { s with
      calls := s.calls + 1
      used := page :: s.used
      obtained := page :: s.obtained
      mem := if zero then patch s.mem page (fillPage 0) else s.mem }
    return some page

def pallocFreePage (page : ℕ) : Call ProcPanic ProcState Unit := do
  assert (pgOfs page = 0) (.palloc .pageOffset)
  let s ← get
  assert (page ∈ s.used) (.palloc .notUsed)
  set { s with
    used := s.used.erase page
    freed := page :: s.freed
    mem := patch s.mem page (fillPage 0xcc) }

/-- `pagedir_create`. -/
def pagedirCreate : Call ProcPanic ProcState (Option ℕ) := do
  match ← pallocGetPage P false with
  | none => return none
  | some pd =>
    modify fun s => { s with mem := patch s.mem pd (slice s.mem initPd 4096) }
    return some pd

def ptePointer (pd vaddr : ℕ) : Call ProcPanic ProcState (Option ℕ) := do
  let pt ← liftM (pdeGetPt (← loadWord (pd + 4 * pdNo vaddr)))
  return some (pt + 4 * ptNo vaddr)

/-- `lookup_page`. -/
def lookupPage (pd : Option ℕ) (vaddr : ℕ) (create : Bool) :
    Call ProcPanic ProcState (Option ℕ) :=
  match pd with
  | none => throw .noPagedir
  | some pd => do
      assert (create = false ∨ vaddr < physBase) .createKernel
      if (← loadWord (pd + 4 * pdNo vaddr)) = 0 then
        if create then
          match ← pallocGetPage P true with
          | none => return none
          | some pt => do
              storeWord (pd + 4 * pdNo vaddr) (← liftM (pdeCreate pt))
              ptePointer pd vaddr
        else
          return none
      else
        ptePointer pd vaddr

/-- `pagedir_set_page`. -/
def pagedirSetPage (pd : Option ℕ) (upage kpage : ℕ) (writable : Bool) :
    Call ProcPanic ProcState Bool := do
  assert (pgOfs upage = 0) .upageOffset
  assert (pgOfs kpage = 0) .kpageOffset
  assert (upage < physBase) .upageUser
  assert ((← liftM (vtop kpage)) / 2 ^ 12 < P.ramPages) .kpageRam
  assert (pd ≠ some initPd) .basePagedir
  match ← lookupPage P pd upage true with
  | none => return false
  | some pte => do
      assert ((← loadWord pte) &&& pteP = 0) .alreadyMapped
      storeWord pte (← liftM (pteCreateUser kpage writable))
      return true

/-- `pagedir_get_page`. -/
def pagedirGetPage (pd : Option ℕ) (uaddr : ℕ) : Call ProcPanic ProcState (Option ℕ) := do
  assert (uaddr < physBase) .uaddrUser
  match ← lookupPage P pd uaddr false with
  | none => return none
  | some pte => do
      let entry ← loadWord pte
      if entry &&& pteP ≠ 0 then
        return some ((← liftM (pteGetPage entry)) + pgOfs uaddr)
      else
        return none

def installPage (upage kpage : ℕ) (writable : Bool) : Call ProcPanic ProcState Bool := do
  let pd := (← get).pagedir
  match ← pagedirGetPage P pd upage with
  | none => pagedirSetPage P initPd pd upage kpage writable
  | some _ => return false

def destroyTable (pde : ℕ) : Call ProcPanic ProcState Unit := do
  let entry ← loadWord pde
  if entry &&& pteP ≠ 0 then do
    let pt ← liftM (pdeGetPt entry)
    forM (range 1024) fun j => do
      let pte ← loadWord (pt + 4 * j)
      if pte &&& pteP ≠ 0 then
        pallocFreePage (← liftM (pteGetPage pte))
      else
        pure ()
    pallocFreePage pt
  else
    pure ()

/-- `pagedir_destroy`. -/
def pagedirDestroy (pd : ℕ) : Call ProcPanic ProcState Unit := do
  assert (pd ≠ initPd) .basePagedir
  forM (range (pdNo physBase)) fun i => destroyTable (pd + 4 * i)
  pallocFreePage pd

end Functions

/-! ### What entries say -/

def RamPage (P : PageSupply) (page : ℕ) : Prop := ∃ i < P.ramPages, page = physBase + 4096 * i

def entryOf (page flags : ℕ) : ℕ := page - physBase + flags

variable {page : ℕ}

section Entries

variable {P : PageSupply} {f m : ℕ}

theorem add_flags_and (hm : m < 4096) : (4096 * i + f) &&& m = (f % 4096) &&& m := by
  have hlt : (4096 * i + f) &&& m < 2 ^ 12 := lt_of_le_of_lt Nat.and_le_right hm
  rw [← Nat.mod_eq_of_lt hlt, Nat.and_mod_two_pow]
  have h₁ : (4096 * i + f) % 2 ^ 12 = f % 4096 := Nat.mul_add_mod ..
  rw [h₁, Nat.mod_eq_of_lt hm]

theorem add_flags_and_addr (hi : i < 2 ^ 20) (hf : f < 4096) :
    (4096 * i + f) &&& pteAddr = 4096 * i := by
  have hdiv : ((4096 * i + f) &&& pteAddr) / 2 ^ 12 = i := by
    rw [Nat.and_div_two_pow, show pteAddr / 2 ^ 12 = 2 ^ 20 - 1 from rfl,
      Nat.and_two_pow_sub_one_eq_mod]
    omega
  have hmod : ((4096 * i + f) &&& pteAddr) % 2 ^ 12 = 0 := by
    rw [Nat.and_mod_two_pow, show pteAddr % 2 ^ 12 = 0 from rfl, Nat.and_zero]
  omega

theorem or_flags (hf : f < 4096) : 4096 * i ||| f = 4096 * i + f :=
  (Nat.two_pow_add_eq_or_of_lt (i := 12) hf i).symm

section

variable (h : RamPage P page)

include h

theorem RamPage.aligned : pgOfs page = 0 := by
  obtain ⟨i, -, rfl⟩ := h
  rw [pgOfs, pgSize, physBase]
  omega

theorem RamPage.lt : physBase ≤ page ∧ page + 4096 ≤ wordSize := by
  obtain ⟨i, hi, rfl⟩ := h
  have := P.ramPages_le
  rw [wordSize, physBase]
  omega

theorem RamPage.vtop :
    ∃ i < P.ramPages, vtop page = .ok (4096 * i) ∧ page - physBase = 4096 * i := by
  obtain ⟨i, hi, rfl⟩ := h
  refine ⟨i, hi, ?_, Nat.add_sub_cancel_left ..⟩
  rw [OsMaterial.vtop, if_pos (Nat.le_add_right ..), Nat.add_sub_cancel_left]

theorem RamPage.pdeCreate : pdeCreate page = .ok (entryOf page 7) := by
  obtain ⟨i, -, hv, hsub⟩ := h.vtop
  rw [OsMaterial.pdeCreate, if_pos h.aligned, hv, entryOf, hsub, ← or_flags (by omega)]
  change Except.ok (4096 * i ||| 4 ||| 1 ||| 2) = _
  rw [Nat.or_assoc, Nat.or_assoc]
  rfl

theorem RamPage.pteCreateUser (writable : Bool) :
    pteCreateUser page writable = .ok (entryOf page (if writable then 7 else 5)) := by
  obtain ⟨i, -, hv, hsub⟩ := h.vtop
  rw [OsMaterial.pteCreateUser, pteCreateKernel, if_pos h.aligned, hv, entryOf, hsub]
  cases writable with
  | true =>
    change Except.ok (4096 * i ||| 1 ||| 2 ||| 4) = Except.ok (4096 * i + 7)
    rw [Nat.or_assoc, Nat.or_assoc, ← or_flags (by omega)]
    rfl
  | false =>
    change Except.ok (4096 * i ||| 1 ||| 0 ||| 4) = Except.ok (4096 * i + 5)
    rw [Nat.or_assoc, Nat.or_assoc, ← or_flags (by omega)]
    rfl

theorem RamPage.ptov_entryOf (hf : f < 4096) : ptov (entryOf page f &&& pteAddr) = .ok page := by
  have hlt := h.lt
  obtain ⟨i, hi, -, hsub⟩ := h.vtop
  have hram := P.ramPages_le
  rw [entryOf, hsub, add_flags_and_addr (by omega) hf, ptov,
    if_pos (by rw [physBase]; omega), ← hsub, Nat.sub_add_cancel hlt.1, Nat.mod_eq_of_lt (by omega)]

theorem RamPage.pteGetPage (hf : f < 4096) : pteGetPage (entryOf page f) = .ok page := by
  rw [OsMaterial.pteGetPage, h.ptov_entryOf hf]
  rfl

theorem RamPage.entryOf_and (hf : f < 4096) (hm : m < 4096) : entryOf page f &&& m = f &&& m := by
  obtain ⟨i, -, -, hsub⟩ := h.vtop
  rw [entryOf, hsub, add_flags_and hm, Nat.mod_eq_of_lt hf]

theorem RamPage.pdeGetPt : pdeGetPt (entryOf page 7) = .ok page := by
  rw [OsMaterial.pdeGetPt, h.entryOf_and (by omega) (show pteP < 4096 by decide),
    if_pos (by decide), h.ptov_entryOf (by omega)]
  rfl

theorem RamPage.entryOf_lt (hf : f < 4096) : entryOf page f < 256 ^ 4 := by
  have hlt := h.lt
  rw [wordSize] at hlt
  rw [entryOf]
  omega

end

theorem entryOf_ne_zero (hf : f ≠ 0) : entryOf page f ≠ 0 := by
  rw [entryOf]
  omega

end Entries

variable {j pt v : ℕ} {mem mem' : ℕ → UInt8}

/-! ### Words and pages of memory -/

section Memory

variable {p q : ℕ}

theorem word_patch_self (hv : v < 256 ^ 4) : word (patch mem a (toLe 4 v)) a = v := by
  have h : slice (patch mem a (toLe 4 v)) a (toLe 4 v).length = toLe 4 v := slice_patch_eq
  rw [length_toLe] at h
  rw [word, h, ofLe_toLe hv]

theorem word_patch_of_disjoint (h : p + 4 ≤ a ∨ a + bytes.length ≤ p) :
    word (patch mem a bytes) p = word mem p := by
  rw [word, slice_patch_of_disjoint h, word]

theorem word_copy (h : slice mem' p 4096 = slice mem q 4096) (hi : i < 1024) :
    word mem' (p + 4 * i) = word mem (q + 4 * i) := by
  have hpart : ∀ (m : ℕ → UInt8) a,
      slice m (a + 4 * i) 4 = ((slice m a 4096).drop (4 * i)).take 4 := by
    intro m a
    rw [drop_slice (by omega), take_slice (by omega)]
  rw [word, word, hpart, hpart, h]

theorem word_congr (h : slice mem' p 4096 = slice mem p 4096) (hi : i < 1024) :
    word mem' (p + 4 * i) = word mem (p + 4 * i) :=
  word_copy h hi

theorem slice_patch_page (hp : pgOfs p = 0) (hq : pgOfs q = 0) (hne : p ≠ q) (ha : q ≤ a)
    (hb : a + bytes.length ≤ q + 4096) : slice (patch mem a bytes) p 4096 = slice mem p 4096 := by
  rw [pgOfs, pgSize] at hp hq
  exact slice_patch_of_disjoint (by omega)

theorem word_of_zero (h : slice mem p 4096 = fillPage 0) (hi : i < 1024) :
    word mem (p + 4 * i) = 0 := by
  have hpart : slice mem (p + 4 * i) 4 = ((slice mem p 4096).drop (4 * i)).take 4 := by
    rw [drop_slice (by omega), take_slice (by omega)]
  rw [word, hpart, h, fillPage, drop_replicate, take_replicate,
    show min 4 (4096 - 4 * i) = 4 by omega]
  rfl

theorem slice_page (h : bytes.length = 4096) : slice (patch mem p bytes) p 4096 = bytes := by
  rw [← h, slice_patch_eq]

theorem slice_fillPage {byte : UInt8} :
    slice (patch mem p (fillPage byte)) p 4096 = fillPage byte :=
  slice_page (length_fillPage byte)

theorem word_store (hp : pgOfs p = 0) (hq : pgOfs q = 0) (hi : i < 1024) (hj : j < 1024)
    (hv : v < 256 ^ 4) : word (patch mem (q + 4 * j) (toLe 4 v)) (p + 4 * i) =
      if p = q ∧ i = j then v else word mem (p + 4 * i) := by
  split_ifs with h
  · rw [h.1, h.2, word_patch_self hv]
  · refine word_patch_of_disjoint ?_
    rw [length_toLe]
    rw [pgOfs, pgSize] at hp hq
    omega

/-- The memory after a page table was put into slot `j` of a page directory. -/
theorem word_addTable {P : PageSupply} (hp : pgOfs p = 0) (hq : pgOfs q = 0) (hpt : RamPage P pt)
    (hi : i < 1024) (hj : j < 1024) :
    word (patch (patch mem pt (fillPage 0)) (q + 4 * j) (toLe 4 (entryOf pt 7))) (p + 4 * i) =
      if p = q ∧ i = j then entryOf pt 7 else if p = pt then 0 else word mem (p + 4 * i) := by
  rw [word_store hp hq hi hj (hpt.entryOf_lt (by omega))]
  congr 1
  split_ifs with h
  · rw [h, word_of_zero slice_fillPage hi]
  · exact word_congr (slice_patch_page hp hpt.aligned h le_rfl (by simp)) hi

end Memory

/-! ### Who has which page -/

/-- **The ledger of pages.** The pages in use are those of `base`, which were in use before, and the
pages `held`; what was obtained was freed or is held. -/
structure Ledger (P : PageSupply) (base held : List ℕ) (s : ProcState) : Prop where
  used : s.used.Perm (base ++ held)
  nodup : s.used.Nodup
  aligned : ∀ k ∈ s.used, pgOfs k = 0
  ram : ∀ k ∈ held, RamPage P k
  log : s.obtained.Perm (s.freed ++ held)

variable {base held : List ℕ} {t s : ProcState}

section Ledger

variable {P : PageSupply} {held' : List ℕ}

section

variable (h : Ledger P base held s)

include h

theorem Ledger.perm (hp : held.Perm held') : Ledger P base held' s where
  used := h.used.trans (hp.append_left base)
  nodup := h.nodup
  aligned := h.aligned
  ram := fun k hk => h.ram k (hp.mem_iff.mpr hk)
  log := h.log.trans (hp.append_left _)

theorem Ledger.congr (hused : t.used = s.used) (hobtained : t.obtained = s.obtained)
    (hfreed : t.freed = s.freed) : Ledger P base held t where
  used := hused ▸ h.used
  nodup := hused ▸ h.nodup
  aligned := hused ▸ h.aligned
  ram := h.ram
  log := by rw [hobtained, hfreed]; exact h.log

theorem Ledger.mem_used (hk : page ∈ held) : page ∈ s.used :=
  h.used.mem_iff.mpr (mem_append_right _ hk)

theorem Ledger.separate : held.Nodup ∧ ∀ k ∈ base, k ∉ held := by
  have hn := h.used.nodup_iff.mp h.nodup
  obtain ⟨-, hheld, hdisj⟩ := nodup_append.mp hn
  exact ⟨hheld, fun k hk hk' => hdisj k hk k hk' rfl⟩

theorem Ledger.base_aligned (hk : page ∈ base) : pgOfs page = 0 :=
  h.aligned page (h.used.mem_iff.mpr (mem_append_left _ hk))

theorem pallocGetPage_returns (zero : Bool) :
    Returns (pallocGetPage P zero) s fun r t =>
      r = none ∧ t = { s with calls := s.calls + 1 } ∨
      ∃ page, r = some page ∧ page ∉ s.used ∧ RamPage P page ∧ Ledger P base (page :: held) t ∧
        t.pagedir = s.pagedir ∧ t.pos = s.pos ∧
        t.mem = if zero then patch s.mem page (fillPage 0) else s.mem := by
  unfold pallocGetPage
  simp only [returns_bind, returns_get]
  cases hpick : P.pick s.calls s.used with
  | none =>
    simp only [returns_bind, returns_set, returns_pure]
    exact Or.inl ⟨trivial, trivial⟩
  | some page =>
    simp only [returns_bind, returns_set, returns_pure]
    have hfresh := P.fresh hpick
    have hram : RamPage P page := P.inRam hpick
    refine Or.inr ⟨page, rfl, hfresh, hram, ⟨?_, ?_, ?_, ?_, ?_⟩, trivial, trivial, rfl⟩
    · exact (h.used.cons page).trans perm_middle.symm
    · exact nodup_cons.mpr ⟨hfresh, h.nodup⟩
    · intro k hk
      rcases mem_cons.mp hk with rfl | hk
      · exact hram.aligned
      · exact h.aligned k hk
    · intro k hk
      rcases mem_cons.mp hk with rfl | hk
      · exact hram
      · exact h.ram k hk
    · exact (h.log.cons page).trans perm_middle.symm

end

theorem pallocFreePage_returns (h : Ledger P base (page :: held) s) :
    Returns (pallocFreePage page) s fun _ t =>
      Ledger P base held t ∧ t.pagedir = s.pagedir ∧ t.pos = s.pos ∧
        t.mem = patch s.mem page (fillPage 0xcc) := by
  have hmem : page ∈ s.used := h.mem_used mem_cons_self
  unfold pallocFreePage
  simp only [returns_bind, returns_assert, returns_get, returns_set]
  refine ⟨h.aligned page hmem, hmem, ⟨?_, ?_, ?_, ?_, ?_⟩, trivial, trivial, trivial⟩
  · have herase := (h.used.trans perm_middle).erase page
    rwa [erase_cons_head] at herase
  · exact h.nodup.erase page
  · exact fun k hk => h.aligned k (mem_of_mem_erase hk)
  · exact fun k hk => h.ram k (mem_cons_of_mem _ hk)
  · exact h.log.trans perm_middle

end Ledger

/-! ### The abstract page directory -/

structure UserPage where
  kpage : ℕ
  writable : Bool
  bytes : Bytes

def pdeWord : Option ℕ → ℕ
  | none => 0
  | some pt => entryOf pt 7

def pteWord : Option UserPage → ℕ
  | none => 0
  | some p => entryOf p.kpage (if p.writable then 7 else 5)

def tableFrames (maps : ℕ → Option UserPage) (i : ℕ) : List ℕ :=
  (range 1024).filterMap fun j => (maps (1024 * i + j)).map UserPage.kpage

def tablePages (pts : ℕ → Option ℕ) (maps : ℕ → Option UserPage) (i : ℕ) : List ℕ :=
  match pts i with
  | none => []
  | some pt => tableFrames maps i ++ [pt]

def ownedPages (pts : ℕ → Option ℕ) (maps : ℕ → Option UserPage) : List ℕ :=
  (range 768).flatMap (tablePages pts maps)

/-- **A page directory** with the page tables `pts`, by index, and the user pages `maps`, by page
number. The kernel part is that of the base page directory. -/
structure Space (initPd : ℕ) (mem : ℕ → UInt8) (pd : ℕ) (pts : ℕ → Option ℕ)
    (maps : ℕ → Option UserPage) : Prop where
  pde : ∀ i < 768, word mem (pd + 4 * i) = pdeWord (pts i)
  pte : ∀ i < 768, ∀ pt, pts i = some pt → ∀ j < 1024,
    word mem (pt + 4 * j) = pteWord (maps (1024 * i + j))
  covered : ∀ i < 768, pts i = none → ∀ j < 1024, maps (1024 * i + j) = none
  user : ∀ u, 1024 * 768 ≤ u → maps u = none
  bytes : ∀ u p, maps u = some p → slice mem p.kpage 4096 = p.bytes
  kernel : ∀ i < 1024, 768 ≤ i → word mem (pd + 4 * i) = word mem (initPd + 4 * i)

variable {pd : ℕ} {pts : ℕ → Option ℕ} {maps : ℕ → Option UserPage}

section Space

variable {initPd : ℕ} {u : ℕ} {p : UserPage}

theorem mem_tableFrames :
    k ∈ tableFrames maps i ↔ ∃ j < 1024, ∃ p, maps (1024 * i + j) = some p ∧ p.kpage = k := by
  simp [tableFrames]

theorem mem_ownedPages_of_table (maps : ℕ → Option UserPage) (hi : i < 768)
    (hpt : pts i = some pt) : pt ∈ ownedPages pts maps := by
  refine mem_flatMap.mpr ⟨i, mem_range.mpr hi, ?_⟩
  rw [tablePages, hpt]
  simp

theorem Space.table (h : Space initPd mem pd pts maps) (hu : maps u = some p) :
    ∃ i < 768, ∃ j < 1024, ∃ pt, u = 1024 * i + j ∧ pts i = some pt ∧
      p.kpage ∈ tableFrames maps i := by
  have hlt : u < 1024 * 768 := by
    by_contra hge
    rw [h.user u (by omega)] at hu
    cases hu
  have hsplit : 1024 * (u / 1024) + u % 1024 = u := Nat.div_add_mod ..
  have hj : u % 1024 < 1024 := Nat.mod_lt _ (by decide)
  refine ⟨u / 1024, by omega, u % 1024, hj, ?_⟩
  cases hpt : pts (u / 1024) with
  | none =>
    have hnone := h.covered (u / 1024) (by omega) hpt (u % 1024) hj
    rw [hsplit, hu] at hnone
    cases hnone
  | some pt =>
    exact ⟨pt, hsplit.symm, rfl, mem_tableFrames.mpr ⟨u % 1024, hj, p, by rw [hsplit, hu], rfl⟩⟩

theorem Space.mem_ownedPages (h : Space initPd mem pd pts maps) (hu : maps u = some p) :
    p.kpage ∈ ownedPages pts maps := by
  obtain ⟨i, hi, _, _, pt, -, hpt, hmem⟩ := h.table hu
  refine mem_flatMap.mpr ⟨i, mem_range.mpr hi, ?_⟩
  rw [tablePages, hpt]
  exact mem_append_left _ hmem

theorem Space.congr (h : Space initPd mem pd pts maps)
    (hpd : slice mem' pd 4096 = slice mem pd 4096)
    (hinit : slice mem' initPd 4096 = slice mem initPd 4096)
    (howned : ∀ k ∈ ownedPages pts maps, slice mem' k 4096 = slice mem k 4096) :
    Space initPd mem' pd pts maps where
  pde := fun i hi => (word_congr hpd (by omega)).trans (h.pde i hi)
  pte := fun i hi pt hpt j hj =>
    (word_congr (howned pt (mem_ownedPages_of_table maps hi hpt)) hj).trans (h.pte i hi pt hpt j hj)
  covered := h.covered
  user := h.user
  bytes := fun u p hu => (howned _ (h.mem_ownedPages hu)).trans (h.bytes u p hu)
  kernel := fun i hi hk => by rw [word_congr hpd hi, word_congr hinit hi, h.kernel i hi hk]

theorem flatMap_range_perm {f g : ℕ → List α} {x : α} (hi : i < n) (hself : (g i).Perm (x :: f i))
    (hother : ∀ j, j ≠ i → g j = f j) : ((range n).flatMap g).Perm (x :: (range n).flatMap f) := by
  induction n with
  | zero => omega
  | succ n ih =>
    rw [range_succ, flatMap_append, flatMap_append, flatMap_singleton, flatMap_singleton]
    by_cases hin : i = n
    · subst hin
      have hsame : (range i).flatMap g = (range i).flatMap f :=
        flatMap_congr fun j hj => hother j (by rw [mem_range] at hj; omega)
      rw [hsame]
      exact (hself.append_left _).trans perm_middle
    · rw [hother n (Ne.symm hin)]
      exact (ih (by omega)).append_right _

theorem eq_of_mem_flatMap {j : ℕ} {f : ℕ → List α} {x : α} (hn : ((range n).flatMap f).Nodup)
    (hi : i < n) (hj : j < n) (hxi : x ∈ f i) (hxj : x ∈ f j) : i = j := by
  by_contra hne
  have hsymm : Std.Symm (Function.onFun List.Disjoint f) := ⟨fun _ _ h _ hb ha => h ha hb⟩
  have hpair := (nodup_flatMap.mp hn).2
  exact hpair.forall (mem_range.mpr hi) (mem_range.mpr hj) hne hxi hxj

theorem ownedPages_addTable (hi : i < 768) (hnone : pts i = none)
    (hcovered : ∀ j < 1024, maps (1024 * i + j) = none) (pt : ℕ) :
    (ownedPages (update pts i (some pt)) maps).Perm (pt :: ownedPages pts maps) := by
  refine flatMap_range_perm hi ?_ fun j hj => ?_
  · have hframes : tableFrames maps i = [] := by
      rw [eq_nil_iff_forall_not_mem]
      intro k hk
      obtain ⟨j, hj, p, hp, -⟩ := mem_tableFrames.mp hk
      rw [hcovered j hj] at hp
      cases hp
    rw [tablePages, tablePages, update_self, hnone, hframes]
    exact List.Perm.refl _
  · rw [tablePages, tablePages, update_of_ne hj]

theorem tableFrames_addPage (hj : j < n) (hnone : maps (1024 * i + j) = none) :
    ((range n).filterMap fun l =>
        (update maps (1024 * i + j) (some p) (1024 * i + l)).map UserPage.kpage).Perm
      (p.kpage :: (range n).filterMap fun l => (maps (1024 * i + l)).map UserPage.kpage) := by
  rw [filterMap_eq_flatMap_toList, filterMap_eq_flatMap_toList]
  refine flatMap_range_perm hj ?_ fun l hl => ?_
  · rw [update_self, hnone]
    exact List.Perm.refl _
  · rw [update_of_ne (by omega)]

theorem ownedPages_addPage (hi : i < 768) (hpt : pts i = some pt) (hj : j < 1024)
    (hnone : maps (1024 * i + j) = none) :
    (ownedPages pts (update maps (1024 * i + j) (some p))).Perm
      (p.kpage :: ownedPages pts maps) := by
  refine flatMap_range_perm hi ?_ fun l hl => ?_
  · rw [tablePages, tablePages, hpt]
    exact (tableFrames_addPage hj hnone).append_right [pt]
  · rw [tablePages, tablePages]
    have hframes : tableFrames (update maps (1024 * i + j) (some p)) l =
        tableFrames maps l := by
      refine filterMap_congr fun m hm => ?_
      rw [mem_range] at hm
      rw [update_of_ne (by omega)]
    rw [hframes]

theorem table_eq (hn : (ownedPages pts maps).Nodup) {l : ℕ} (hi : i < 768) (hl : l < 768)
    (hki : k ∈ tablePages pts maps i) (hkl : k ∈ tablePages pts maps l) : i = l :=
  eq_of_mem_flatMap hn hi hl hki hkl

theorem table_nodup (hn : (ownedPages pts maps).Nodup) (hi : i < 768) (hpt : pts i = some pt) :
    (tableFrames maps i).Nodup ∧ pt ∉ tableFrames maps i := by
  have htable := (nodup_flatMap.mp hn).1 i (mem_range.mpr hi)
  rw [tablePages, hpt] at htable
  obtain ⟨hframes, -, hdisj⟩ := nodup_append.mp htable
  exact ⟨hframes, fun hmem => hdisj pt hmem pt (by simp) rfl⟩

section

variable (h : Space initPd mem pd pts maps)

include h

theorem Space.frame_inj (hn : (ownedPages pts maps).Nodup) {v : ℕ} {q : UserPage}
    (hu : maps u = some p) (hv : maps v = some q) (heq : p.kpage = q.kpage) : u = v := by
  obtain ⟨i, hi, j, hj, pt, rfl, hpt, hmem⟩ := h.table hu
  obtain ⟨i', hi', j', hj', pt', rfl, hpt', hmem'⟩ := h.table hv
  have hii : i = i' := by
    refine table_eq hn hi hi' ?_ (k := p.kpage) ?_
    · rw [tablePages, hpt]
      exact mem_append_left _ hmem
    · rw [tablePages, hpt', heq]
      exact mem_append_left _ hmem'
  subst hii
  have hframes := (table_nodup hn hi hpt).1
  rw [tableFrames, filterMap_eq_flatMap_toList] at hframes
  have hjj : j = j' := by
    refine eq_of_mem_flatMap hframes hj hj' (x := p.kpage) ?_ ?_
    · simp [hu]
    · simp [hv, heq]
  rw [hjj]

theorem Space.addTable (hi : i < 768) (hnone : pts i = none) (hentry : entryOf pt 7 < 256 ^ 4)
    (hzero : slice mem pt 4096 = fillPage 0)
    (hpage : ∀ k ∈ initPd :: pt :: ownedPages pts maps,
      slice (patch mem (pd + 4 * i) (toLe 4 (entryOf pt 7))) k 4096 = slice mem k 4096) :
    Space initPd (patch mem (pd + 4 * i) (toLe 4 (entryOf pt 7))) pd
      (update pts i (some pt)) maps := by
  have hword : ∀ l, l ≠ i → word (patch mem (pd + 4 * i) (toLe 4 (entryOf pt 7))) (pd + 4 * l) =
      word mem (pd + 4 * l) := by
    intro l hl
    refine word_patch_of_disjoint ?_
    rw [length_toLe]
    omega
  have hmaps := h.covered i hi hnone
  refine ⟨?_, ?_, ?_, h.user, ?_, ?_⟩
  · intro l hl
    by_cases hli : l = i
    · subst hli
      rw [update_self, word_patch_self hentry]
      rfl
    · rw [update_of_ne hli, hword l hli, h.pde l hl]
  · intro l hl pt' hpt' j hj
    by_cases hli : l = i
    · subst hli
      rw [update_self, Option.some_inj] at hpt'
      subst hpt'
      rw [word_congr (hpage pt (by simp)) hj, word_of_zero hzero hj, hmaps j hj]
      rfl
    · rw [update_of_ne hli] at hpt'
      have hmem := mem_ownedPages_of_table maps hl hpt'
      rw [word_congr (hpage pt' (by simp [hmem])) hj, h.pte l hl pt' hpt' j hj]
  · intro l hl hl' j hj
    by_cases hli : l = i
    · subst hli
      exact hmaps j hj
    · rw [update_of_ne hli] at hl'
      exact h.covered l hl hl' j hj
  · intro u p hu
    rw [hpage p.kpage (by simp [h.mem_ownedPages hu]), h.bytes u p hu]
  · intro l hl hl'
    rw [hword l (by omega), word_congr (hpage initPd (by simp)) hl, h.kernel l hl hl']

theorem Space.addPage (hn : (ownedPages pts maps).Nodup) (hi : i < 768) (hpt : pts i = some pt)
    (hj : j < 1024) (hentry : pteWord (some p) < 256 ^ 4)
    (hbytes : slice mem p.kpage 4096 = p.bytes)
    (hpage : ∀ k, k ≠ pt → k ∈ initPd :: pd :: p.kpage :: ownedPages pts maps →
      slice (patch mem (pt + 4 * j) (toLe 4 (pteWord (some p)))) k 4096 = slice mem k 4096)
    (hpt_ne : pt ≠ initPd ∧ pt ≠ pd ∧ pt ≠ p.kpage) :
    Space initPd (patch mem (pt + 4 * j) (toLe 4 (pteWord (some p)))) pd pts
      (update maps (1024 * i + j) (some p)) := by
  have hframe : ∀ u q, maps u = some q → q.kpage ≠ pt := by
    rintro u q hu rfl
    obtain ⟨i', hi', j', hj', pt', rfl, hpt', hmem⟩ := h.table hu
    have hii : i' = i := by
      refine table_eq hn hi' hi (k := q.kpage) ?_ ?_
      · rw [tablePages, hpt']
        exact mem_append_left _ hmem
      · rw [tablePages, hpt]
        simp
    subst hii
    exact (table_nodup hn hi hpt).2 hmem
  have hpd := hpage pd hpt_ne.2.1.symm (by simp)
  have hinit := hpage initPd hpt_ne.1.symm (by simp)
  refine ⟨?_, ?_, ?_, ?_, ?_, ?_⟩
  · intro l hl
    rw [word_congr hpd (by omega), h.pde l hl]
  · intro l hl pt' hpt' m hm
    by_cases hli : l = i
    · subst hli
      obtain rfl : pt = pt' := Option.some_inj.mp (hpt.symm.trans hpt')
      by_cases hmj : m = j
      · subst hmj
        rw [update_self, word_patch_self hentry]
      · rw [update_of_ne (by omega), ← h.pte l hl pt hpt m hm]
        refine word_patch_of_disjoint ?_
        rw [length_toLe]
        omega
    · rw [update_of_ne (by omega), ← h.pte l hl pt' hpt' m hm]
      refine word_congr (hpage pt' ?_ ?_) hm
      · rintro rfl
        refine hli (table_eq hn hl hi (k := pt') ?_ ?_)
        · rw [tablePages, hpt']
          simp
        · rw [tablePages, hpt]
          simp
      · simp [mem_ownedPages_of_table maps hl hpt']
  · intro l hl hl' m hm
    have hli : l ≠ i := by
      rintro rfl
      rw [hpt] at hl'
      cases hl'
    rw [update_of_ne (by omega)]
    exact h.covered l hl hl' m hm
  · intro u hu
    rw [update_of_ne (by omega)]
    exact h.user u hu
  · intro u q hu
    by_cases huij : u = 1024 * i + j
    · subst huij
      rw [update_self, Option.some_inj] at hu
      subst hu
      rw [hpage p.kpage hpt_ne.2.2.symm (by simp), hbytes]
    · rw [update_of_ne huij] at hu
      rw [hpage q.kpage (hframe u q hu) (by simp [h.mem_ownedPages hu]), h.bytes u q hu]
  · intro l hl hl'
    rw [word_congr hpd hl, word_congr hinit hl, h.kernel l hl hl']

end

end Space

/-! ### A process with a page directory -/

/-- **The invariant of a process that is loaded**: it holds the pages `extra`, which are not in its
page directory, the pages behind its directory, and the directory; the memory of the pages `base`
is that of `m₀`. -/
structure ProcInv (P : PageSupply) (initPd : ℕ) (base : List ℕ) (m₀ : ℕ → UInt8) (pd : ℕ)
    (extra : List ℕ) (pts : ℕ → Option ℕ) (maps : ℕ → Option UserPage) (s : ProcState) : Prop where
  pagedir : s.pagedir = some pd
  init : initPd ∈ base
  ledger : Ledger P base (extra ++ (ownedPages pts maps ++ [pd])) s
  space : Space initPd s.mem pd pts maps
  frame : ∀ k ∈ base, slice s.mem k 4096 = slice m₀ k 4096

section ProcInv

variable {P : PageSupply} {initPd : ℕ} {extra : List ℕ} {m₀ : ℕ → UInt8} {va : ℕ}

theorem ProcInv.congr (h : ProcInv P initPd base m₀ pd extra pts maps s)
    (hpagedir : t.pagedir = s.pagedir)
    (hledger : Ledger P base (extra ++ (ownedPages pts maps ++ [pd])) t) (hmem : t.mem = s.mem) :
    ProcInv P initPd base m₀ pd extra pts maps t where
  pagedir := hpagedir.trans h.pagedir
  init := h.init
  ledger := hledger
  space := hmem ▸ h.space
  frame := hmem ▸ h.frame

theorem ProcInv.write (h : ProcInv P initPd base m₀ pd extra pts maps s) (hk : pgOfs k = 0)
    (hbase : k ∉ base) (howned : k ∉ ownedPages pts maps ++ [pd]) (ha : k ≤ a)
    (hb : a + bytes.length ≤ k + 4096) :
    Space initPd (patch s.mem a bytes) pd pts maps ∧
      ∀ l ∈ base, slice (patch s.mem a bytes) l 4096 = slice m₀ l 4096 := by
  have hother : ∀ l ∈ base ++ (ownedPages pts maps ++ [pd]),
      slice (patch s.mem a bytes) l 4096 = slice s.mem l 4096 := by
    intro l hl
    refine slice_patch_page (h.ledger.aligned l (h.ledger.used.mem_iff.mpr ?_)) hk ?_ ha hb
    · rcases mem_append.mp hl with hl | hl
      · exact mem_append_left _ hl
      · exact mem_append_right _ (mem_append_right _ hl)
    · rintro rfl
      exact (mem_append.mp hl).elim hbase howned
  refine ⟨h.space.congr (hother pd (by simp)) (hother initPd ?_) fun l hl => hother l ?_, ?_⟩
  · exact mem_append_left _ h.init
  · exact mem_append_right _ (mem_append_left _ hl)
  · exact fun l hl => (hother l (mem_append_left _ hl)).trans (h.frame l hl)

theorem ProcInv.extra_separate (h : ProcInv P initPd base m₀ pd (k :: extra) pts maps s) :
    RamPage P k ∧ k ∉ base ∧ k ∉ ownedPages pts maps ++ [pd] := by
  obtain ⟨hnodup, hbase⟩ := h.ledger.separate
  rw [cons_append, nodup_cons, mem_append, not_or] at hnodup
  refine ⟨h.ledger.ram k (by simp), fun hk => hbase k hk (by simp), hnodup.1.2⟩

theorem ProcInv.writeExtra (h : ProcInv P initPd base m₀ pd (k :: extra) pts maps s) (ha : k ≤ a)
    (hb : a + bytes.length ≤ k + 4096) :
    ProcInv P initPd base m₀ pd (k :: extra) pts maps { s with mem := patch s.mem a bytes } := by
  obtain ⟨hram, hbase, howned⟩ := h.extra_separate
  obtain ⟨hspace, hframe⟩ := h.write hram.aligned hbase howned ha hb
  exact ⟨h.pagedir, h.init, h.ledger.congr rfl rfl rfl, hspace, hframe⟩

theorem ProcInv.pallocGetPage (h : ProcInv P initPd base m₀ pd extra pts maps s) (zero : Bool) :
    Returns (pallocGetPage P zero) s fun r t =>
      t.pos = s.pos ∧ (∀ l ∈ extra, slice t.mem l 4096 = slice s.mem l 4096) ∧
      (r = none ∧ ProcInv P initPd base m₀ pd extra pts maps t ∨
        ∃ k, r = some k ∧ ProcInv P initPd base m₀ pd (k :: extra) pts maps t ∧
          (zero = true → slice t.mem k 4096 = fillPage 0)) := by
  refine (pallocGetPage_returns h.ledger zero).mono fun r t hr => ?_
  rcases hr with ⟨rfl, rfl⟩ | ⟨k, rfl, hfresh, hram, hledger, hpagedir, hpos, hmem⟩
  · exact ⟨rfl, fun _ _ => rfl, Or.inl ⟨rfl, h.congr rfl (h.ledger.congr rfl rfl rfl) rfl⟩⟩
  have hout : ∀ l ∈ s.used, l ≠ k := fun l hl hlk => hfresh (hlk ▸ hl)
  have hused : ∀ l, l ∈ base ++ (extra ++ (ownedPages pts maps ++ [pd])) → l ≠ k := fun l hl =>
    hout l (h.ledger.used.mem_iff.mpr hl)
  cases zero with
  | false =>
    rw [if_neg Bool.false_ne_true] at hmem
    refine ⟨hpos, fun _ _ => by rw [hmem], Or.inr ⟨k, rfl, ?_, nofun⟩⟩
    exact ⟨hpagedir.trans h.pagedir, h.init, hledger, hmem ▸ h.space, hmem ▸ h.frame⟩
  | true =>
    rw [if_pos rfl] at hmem
    have hlen : k + (fillPage 0).length ≤ k + 4096 := by rw [length_fillPage]
    have hbase : k ∉ base := fun hk => hused k (by simp [hk]) rfl
    have howned : k ∉ ownedPages pts maps ++ [pd] := fun hk =>
      hused k (mem_append_right _ (mem_append_right _ hk)) rfl
    obtain ⟨hspace, hframe⟩ := h.write hram.aligned hbase howned le_rfl hlen
    refine ⟨hpos, fun l hl => ?_, Or.inr ⟨k, rfl, ?_, fun _ => ?_⟩⟩
    · have hmem' : l ∈ base ++ (extra ++ (ownedPages pts maps ++ [pd])) := by simp [hl]
      rw [hmem]
      exact slice_patch_page (h.ledger.aligned l (h.ledger.used.mem_iff.mpr hmem')) hram.aligned
        (hused l hmem') le_rfl hlen
    · exact ⟨hpagedir.trans h.pagedir, h.init, hledger, hmem ▸ hspace, hmem ▸ hframe⟩
    · rw [hmem, slice_fillPage]

theorem ProcInv.pallocFreePage (h : ProcInv P initPd base m₀ pd (k :: extra) pts maps s) :
    Returns (pallocFreePage k) s fun _ t =>
      ProcInv P initPd base m₀ pd extra pts maps t ∧ t.pos = s.pos := by
  obtain ⟨hram, hbase, howned⟩ := h.extra_separate
  refine (pallocFreePage_returns h.ledger).mono ?_
  rintro _ t ⟨hledger, hpagedir, hpos, hmem⟩
  have hlen : k + (fillPage 0xcc).length ≤ k + 4096 := by rw [length_fillPage]
  obtain ⟨hspace, hframe⟩ := h.write hram.aligned hbase howned le_rfl hlen
  exact ⟨⟨hpagedir.trans h.pagedir, h.init, hledger, hmem ▸ hspace, hmem ▸ hframe⟩, hpos⟩

theorem ProcInv.owned_ram (h : ProcInv P initPd base m₀ pd extra pts maps s)
    (hk : k ∈ ownedPages pts maps ++ [pd]) : RamPage P k ∧ k ∉ base :=
  ⟨h.ledger.ram k (mem_append_right _ hk), fun hb =>
    h.ledger.separate.2 k hb (mem_append_right _ hk)⟩

theorem ProcInv.owned_nodup (h : ProcInv P initPd base m₀ pd extra pts maps s) :
    (ownedPages pts maps).Nodup ∧ pd ∉ ownedPages pts maps := by
  obtain ⟨hnodup, -⟩ := h.ledger.separate
  obtain ⟨-, howned, -⟩ := nodup_append.mp hnodup
  obtain ⟨hn, -, hdisj⟩ := nodup_append.mp howned
  exact ⟨hn, fun hpd => hdisj pd hpd pd (by simp) rfl⟩

theorem ProcInv.addTable (h : ProcInv P initPd base m₀ pd (pt :: extra) pts maps s)
    (hzero : slice s.mem pt 4096 = fillPage 0) (hi : i < 768) (hnone : pts i = none) :
    ProcInv P initPd base m₀ pd extra (update pts i (some pt)) maps
      { s with mem := patch s.mem (pd + 4 * i) (toLe 4 (entryOf pt 7)) } := by
  obtain ⟨hram, hbase, howned⟩ := h.extra_separate
  obtain ⟨hpd, hpd_base⟩ := h.owned_ram (k := pd) (by simp)
  obtain ⟨-, hpd_owned⟩ := h.owned_nodup
  have hother : ∀ k, k ≠ pd → pgOfs k = 0 →
      slice (patch s.mem (pd + 4 * i) (toLe 4 (entryOf pt 7))) k 4096 = slice s.mem k 4096 := by
    intro k hk hofs
    refine slice_patch_page hofs hpd.aligned hk (by omega) ?_
    rw [length_toLe]
    omega
  refine ⟨h.pagedir, h.init, ?_,
    h.space.addTable hi hnone (hram.entryOf_lt (by omega)) hzero ?_, ?_⟩
  · refine (h.ledger.perm ?_).congr rfl rfl rfl
    have hperm := ownedPages_addTable hi hnone (h.space.covered i hi hnone) pt
    refine perm_middle.symm.trans ?_
    exact (((hperm.append_right [pd]).append_left extra).symm)
  · intro k hk
    simp only [mem_cons] at hk
    rcases hk with rfl | rfl | hk
    · exact hother _ (fun heq => hpd_base (heq ▸ h.init)) (h.ledger.base_aligned h.init)
    · refine hother _ (fun heq => howned (by simp [heq])) hram.aligned
    · exact hother _ (fun heq => hpd_owned (heq ▸ hk))
        (h.owned_ram (mem_append_left _ hk)).1.aligned
  · intro k hk
    rw [← h.frame k hk]
    exact hother k (fun heq => hpd_base (heq ▸ hk)) (h.ledger.base_aligned hk)

theorem ProcInv.addPage {p : UserPage}
    (h : ProcInv P initPd base m₀ pd (p.kpage :: extra) pts maps s) (hi : i < 768)
    (hpt : pts i = some pt) (hj : j < 1024) (hnone : maps (1024 * i + j) = none)
    (hbytes : slice s.mem p.kpage 4096 = p.bytes) :
    ProcInv P initPd base m₀ pd extra pts (update maps (1024 * i + j) (some p))
      { s with mem := patch s.mem (pt + 4 * j) (toLe 4 (pteWord (some p))) } := by
  obtain ⟨hram, hbase, howned⟩ := h.extra_separate
  obtain ⟨hn, hpd_owned⟩ := h.owned_nodup
  have hpt_owned := mem_ownedPages_of_table maps hi hpt
  obtain ⟨hpt_ram, hpt_base⟩ := h.owned_ram (mem_append_left _ hpt_owned)
  have hother : ∀ l, l ≠ pt → pgOfs l = 0 →
      slice (patch s.mem (pt + 4 * j) (toLe 4 (pteWord (some p)))) l 4096 = slice s.mem l 4096 := by
    intro l hl hofs
    refine slice_patch_page hofs hpt_ram.aligned hl (by omega) ?_
    rw [length_toLe]
    omega
  have hlt : pteWord (some p) < 256 ^ 4 := by exact hram.entryOf_lt (by split <;> omega)
  refine ⟨h.pagedir, h.init, ?_, ?_, ?_⟩
  · refine (h.ledger.perm ?_).congr rfl rfl rfl
    have hperm := ownedPages_addPage (p := p) hi hpt hj hnone
    refine perm_middle.symm.trans ?_
    exact ((hperm.append_right [pd]).append_left extra).symm
  · refine h.space.addPage hn hi hpt hj hlt hbytes ?_ ⟨?_, ?_, ?_⟩
    · intro l hl hmem
      refine hother l hl ?_
      simp only [mem_cons] at hmem
      rcases hmem with rfl | rfl | rfl | hmem
      · exact h.ledger.base_aligned h.init
      · exact (h.owned_ram (by simp)).1.aligned
      · exact hram.aligned
      · exact (h.owned_ram (mem_append_left _ hmem)).1.aligned
    · exact fun heq => hpt_base (heq ▸ h.init)
    · exact fun heq => hpd_owned (heq ▸ hpt_owned)
    · exact fun heq => howned (mem_append_left _ (heq ▸ hpt_owned))
  · intro l hl
    rw [← h.frame l hl]
    exact hother l (fun heq => hpt_base (heq ▸ hl)) (h.ledger.base_aligned hl)

/-! ### Looking up and installing pages -/

theorem pdNo_ptNo (hva : va < physBase) :
    pdNo va < 768 ∧ ptNo va < 1024 ∧ 1024 * pdNo va + ptNo va = va / 4096 := by
  rw [physBase] at hva
  rw [pdNo, ptNo]
  omega

theorem ptePointer_returns_of_pde (hram : RamPage P pt)
    (hpde : word s.mem (pd + 4 * pdNo va) = entryOf pt 7) :
    Returns (ptePointer pd va) s fun r t => r = some (pt + 4 * ptNo va) ∧ t = s := by
  unfold ptePointer loadWord
  simp only [returns_bind, returns_get, returns_pure, hpde, hram.pdeGetPt, returns_liftM_ok,
    and_self]

theorem lookupPage_returns_of_pde {table : Option ℕ} (hram : ∀ pt, table = some pt → RamPage P pt)
    (hpde : word s.mem (pd + 4 * pdNo va) = pdeWord table) :
    Returns (lookupPage P (some pd) va false) s fun r t =>
      r = table.map (· + 4 * ptNo va) ∧ t = s := by
  simp only [lookupPage, loadWord, returns_bind, returns_assert, true_or, true_and, returns_get,
    returns_pure, hpde]
  cases table with
  | none =>
    rw [pdeWord, if_pos rfl, if_neg Bool.false_ne_true]
    simp only [returns_pure, Option.map_none, and_self]
  | some pt =>
    rw [pdeWord, if_neg (entryOf_ne_zero (by decide))]
    exact ptePointer_returns_of_pde (hram pt rfl) hpde

section

variable (h : ProcInv P initPd base m₀ pd extra pts maps s) (hva : va < physBase)

include h hva

theorem ptePointer_returns (hpt : pts (pdNo va) = some pt) :
    Returns (ptePointer pd va) s fun r t => r = some (pt + 4 * ptNo va) ∧ t = s := by
  obtain ⟨hi, -, -⟩ := pdNo_ptNo hva
  obtain ⟨hram, -⟩ := h.owned_ram (mem_append_left _ (mem_ownedPages_of_table maps hi hpt))
  refine ptePointer_returns_of_pde hram ?_
  rw [h.space.pde _ hi, hpt]
  rfl

theorem lookupPage_returns :
    Returns (lookupPage P (some pd) va false) s fun r t =>
      r = (pts (pdNo va)).map (· + 4 * ptNo va) ∧ t = s := by
  obtain ⟨hi, -, -⟩ := pdNo_ptNo hva
  refine lookupPage_returns_of_pde (fun pt hpt => ?_) (h.space.pde _ hi)
  exact (h.owned_ram (mem_append_left _ (mem_ownedPages_of_table maps hi hpt))).1

theorem lookupPage_create_returns :
    Returns (lookupPage P (some pd) va true) s fun r t =>
      t.pos = s.pos ∧ (∀ l ∈ extra, slice t.mem l 4096 = slice s.mem l 4096) ∧
      (r = none ∧ ProcInv P initPd base m₀ pd extra pts maps t ∨
        ∃ pts' pt, r = some (pt + 4 * ptNo va) ∧ pts' (pdNo va) = some pt ∧
          ProcInv P initPd base m₀ pd extra pts' maps t) := by
  obtain ⟨hi, -, -⟩ := pdNo_ptNo hva
  have hpde := h.space.pde _ hi
  simp only [lookupPage, loadWord, returns_bind, returns_assert, hva, or_true, true_and,
    returns_get, returns_pure, hpde]
  cases hpt : pts (pdNo va) with
  | none =>
    rw [pdeWord, if_pos rfl, if_pos trivial]
    simp only [returns_bind]
    refine (h.pallocGetPage true).mono fun r t hr => ?_
    obtain ⟨hpos, hextra, ⟨rfl, h'⟩ | ⟨pt, rfl, h', hzero⟩⟩ := hr
    · simp only [returns_pure]
      exact ⟨hpos, hextra, Or.inl ⟨trivial, h'⟩⟩
    · obtain ⟨hram, -, howned⟩ := h'.extra_separate
      obtain ⟨hpd, -⟩ := h'.owned_ram (k := pd) (by simp)
      have hadd := h'.addTable (hzero rfl) hi hpt
      simp only [hram.pdeCreate, returns_bind, returns_liftM_ok, storeWord, returns_modify]
      refine (ptePointer_returns hadd hva (update_self ..)).mono ?_
      rintro r t' ⟨rfl, rfl⟩
      refine ⟨hpos, fun l hl => ?_, Or.inr ⟨_, pt, rfl, update_self .., hadd⟩⟩
      rw [← hextra l hl]
      have hl_ne : l ≠ pd := by
        rintro rfl
        obtain ⟨hnodup, -⟩ := h.ledger.separate
        exact (nodup_append.mp hnodup).2.2 l hl l (by simp) rfl
      refine slice_patch_page (h.ledger.ram l (mem_append_left _ hl)).aligned hpd.aligned
        hl_ne (by omega) ?_
      rw [length_toLe]
      omega
  | some pt =>
    rw [pdeWord, if_neg (entryOf_ne_zero (by decide))]
    refine (ptePointer_returns h hva hpt).mono ?_
    rintro r t ⟨rfl, rfl⟩
    exact ⟨rfl, fun _ _ => rfl, Or.inr ⟨pts, pt, rfl, hpt, h⟩⟩

theorem pagedirGetPage_returns :
    Returns (pagedirGetPage P (some pd) va) s fun r t =>
      r = (maps (va / 4096)).map (fun p => p.kpage + pgOfs va) ∧ t = s := by
  obtain ⟨hi, hj, hsplit⟩ := pdNo_ptNo hva
  unfold pagedirGetPage
  simp only [returns_bind, returns_assert, hva, true_and]
  refine (lookupPage_returns h hva).mono ?_
  rintro r t ⟨rfl, rfl⟩
  cases hpt : pts (pdNo va) with
  | none =>
    have hnone := h.space.covered _ hi hpt _ hj
    rw [hsplit] at hnone
    simp only [Option.map_none, returns_pure, hnone, and_self]
  | some pt =>
    have hpte := h.space.pte _ hi pt hpt _ hj
    rw [hsplit] at hpte
    simp only [Option.map_some, returns_bind, loadWord, returns_get, returns_pure, hpte]
    cases hmap : maps (va / 4096) with
    | none =>
      rw [pteWord, if_neg (by decide)]
      simp only [returns_pure, Option.map_none, and_self]
    | some p =>
      obtain ⟨hram, -⟩ := h.owned_ram (mem_append_left _ (h.space.mem_ownedPages hmap))
      have hflags : (if p.writable then 7 else 5) < 4096 := by split <;> omega
      have hpresent : entryOf p.kpage (if p.writable then 7 else 5) &&& pteP ≠ 0 := by
        rw [hram.entryOf_and hflags (show pteP < 4096 by decide)]
        split <;> decide
      rw [pteWord, if_pos hpresent]
      simp only [hram.pteGetPage hflags, returns_bind, returns_liftM_ok, returns_pure,
        Option.map_some, and_self]

end

theorem pagedirSetPage_returns (h : ProcInv P initPd base m₀ pd (k :: extra) pts maps s)
    (hva : va < physBase) (hofs : pgOfs va = 0) (hnone : maps (va / 4096) = none)
    (writable : Bool) :
    Returns (pagedirSetPage P initPd (some pd) va k writable) s fun ok t =>
      t.pos = s.pos ∧
      (ok = false ∧ ProcInv P initPd base m₀ pd (k :: extra) pts maps t ∨
        ok = true ∧ ∃ pts', ProcInv P initPd base m₀ pd extra pts'
          (update maps (va / 4096) (some ⟨k, writable, slice s.mem k 4096⟩)) t) := by
  obtain ⟨hram, -, -⟩ := h.extra_separate
  obtain ⟨n, hn, hvtop, -⟩ := hram.vtop
  obtain ⟨hi, hj, hsplit⟩ := pdNo_ptNo hva
  have hpd : pd ≠ initPd := fun heq => (h.owned_ram (k := pd) (by simp)).2 (heq ▸ h.init)
  have hdiv : 4096 * n / 2 ^ 12 < P.ramPages := by omega
  unfold pagedirSetPage
  simp only [returns_bind, returns_assert, hofs, hram.aligned, hva, hvtop, returns_liftM_ok, hdiv,
    ne_eq, Option.some_inj, hpd, not_false_eq_true, true_and]
  refine (lookupPage_create_returns h hva).mono fun r t hr => ?_
  obtain ⟨hpos, hextra, ⟨rfl, h'⟩ | ⟨pts', pt, rfl, hpt, h'⟩⟩ := hr
  · simp only [returns_pure]
    exact ⟨hpos, Or.inl ⟨trivial, h'⟩⟩
  · have hpte := h'.space.pte _ hi pt hpt _ hj
    have hnone' : maps (1024 * pdNo va + ptNo va) = none := by rw [hsplit, hnone]
    rw [hnone'] at hpte
    have hkeep := hextra k (by simp)
    simp only [returns_bind, loadWord, returns_get, returns_pure, hpte, pteWord, returns_assert,
      Nat.zero_and, true_and, hram.pteCreateUser, returns_liftM_ok, storeWord, returns_modify]
    refine ⟨hpos, Or.inr ⟨pts', ?_⟩⟩
    obtain ⟨bytes, hbytes⟩ : ∃ bytes, slice t.mem k 4096 = bytes := ⟨_, rfl⟩
    rw [← hsplit, ← hkeep, hbytes]
    exact ProcInv.addPage (p := ⟨k, writable, bytes⟩) h' hi hpt hj hnone' hbytes

/-- **`install_page`** maps the page, or leaves the directory as it was. -/
theorem installPage_returns (h : ProcInv P initPd base m₀ pd (k :: extra) pts maps s)
    (hva : va < physBase) (hofs : pgOfs va = 0) (writable : Bool) :
    Returns (installPage P initPd va k writable) s fun ok t =>
      t.pos = s.pos ∧
      (ok = false ∧ ProcInv P initPd base m₀ pd (k :: extra) pts maps t ∨
        ok = true ∧ maps (va / 4096) = none ∧ ∃ pts', ProcInv P initPd base m₀ pd extra pts'
          (update maps (va / 4096) (some ⟨k, writable, slice s.mem k 4096⟩)) t) := by
  unfold installPage
  simp only [returns_bind, returns_get, h.pagedir]
  refine (pagedirGetPage_returns h hva).mono ?_
  rintro r t ⟨rfl, rfl⟩
  cases hmap : maps (va / 4096) with
  | none =>
    refine (pagedirSetPage_returns h hva hofs hmap writable).mono fun ok t ht => ?_
    obtain ⟨hpos, hfalse | ⟨htrue, hpts⟩⟩ := ht
    · exact ⟨hpos, Or.inl hfalse⟩
    · exact ⟨hpos, Or.inr ⟨htrue, rfl, hpts⟩⟩
  | some p =>
    simp only [Option.map_some, returns_pure]
    exact ⟨trivial, Or.inl ⟨trivial, h⟩⟩

/-! ### Creating a page directory -/

structure ProcStart (P : PageSupply) (initPd : ℕ) (base : List ℕ) (m₀ : ℕ → UInt8)
    (extra : List ℕ) (s : ProcState) : Prop where
  pagedir : s.pagedir = none
  init : initPd ∈ base
  ledger : Ledger P base extra s
  frame : ∀ k ∈ base, slice s.mem k 4096 = slice m₀ k 4096
  user : ∀ i < 768, word m₀ (initPd + 4 * i) = 0

theorem ownedPages_nil : ownedPages (fun _ => none) (fun _ => none) = [] :=
  flatMap_eq_nil_iff.mpr fun _ _ => rfl

theorem pagedirCreate_returns (h : ProcStart P initPd base m₀ extra s) :
    Returns (pagedirCreate P initPd) s fun r t =>
      r = none ∧ ProcStart P initPd base m₀ extra t ∨
      ∃ pd, r = some pd ∧ ProcInv P initPd base m₀ pd extra (fun _ => none) (fun _ => none)
        { t with pagedir := some pd } := by
  unfold pagedirCreate
  simp only [returns_bind]
  refine (pallocGetPage_returns h.ledger false).mono fun r t hr => ?_
  rcases hr with ⟨rfl, rfl⟩ | ⟨pd, rfl, hfresh, hram, hledger, hpagedir, hpos, hmem⟩
  · simp only [returns_pure]
    exact Or.inl ⟨trivial, h.pagedir, h.init, h.ledger.congr rfl rfl rfl, h.frame, h.user⟩
  simp only [returns_bind, returns_modify, returns_pure, hmem]
  refine Or.inr ⟨pd, rfl, ⟨rfl, h.init, ?_, ?_, ?_⟩⟩
  · rw [ownedPages_nil]
    refine (hledger.perm ?_).congr rfl rfl rfl
    exact (perm_append_singleton pd extra).symm
  · have hout : initPd ≠ pd := fun heq =>
      hfresh (heq ▸ h.ledger.used.mem_iff.mpr (mem_append_left _ h.init))
    have hinit_ofs := h.ledger.base_aligned h.init
    have hlen : pd + (slice s.mem initPd 4096).length ≤ pd + 4096 := by rw [length_slice]
    have hinit : slice (patch s.mem pd (slice s.mem initPd 4096)) initPd 4096 =
        slice s.mem initPd 4096 := slice_patch_page hinit_ofs hram.aligned hout le_rfl hlen
    have hcopy : slice (patch s.mem pd (slice s.mem initPd 4096)) pd 4096 =
        slice s.mem initPd 4096 := slice_page length_slice
    have hword : ∀ i < 1024, word (patch s.mem pd (slice s.mem initPd 4096)) (pd + 4 * i) =
        word s.mem (initPd + 4 * i) := fun i hi => word_copy hcopy hi
    refine ⟨fun i hi => ?_, fun _ _ _ hnone => (by cases hnone), fun _ _ _ _ _ => rfl,
      fun _ _ => rfl, fun _ _ hnone => (by cases hnone), fun i hi _ => ?_⟩
    · change word (patch s.mem pd (slice s.mem initPd 4096)) (pd + 4 * i) = 0
      rw [hword i (by omega), word_congr (h.frame initPd h.init) (by omega), h.user i hi]
    · change word (patch s.mem pd (slice s.mem initPd 4096)) (pd + 4 * i) =
        word (patch s.mem pd (slice s.mem initPd 4096)) (initPd + 4 * i)
      rw [hword i hi, word_congr hinit hi]
  · intro k hk
    rw [← h.frame k hk]
    refine slice_patch_page (h.ledger.base_aligned hk) hram.aligned ?_ le_rfl (by rw [length_slice])
    rintro rfl
    exact hfresh (h.ledger.used.mem_iff.mpr (mem_append_left _ hk))

end ProcInv

/-! ### Destroying a page directory -/

def SameEntry (v w : ℕ) : Prop := v &&& pteP = w &&& pteP ∧ v &&& pteAddr = w &&& pteAddr

/-- **The entries of a page directory**, up to the flags that the hardware sets while the process
runs. -/
structure Tables (mem : ℕ → UInt8) (pd : ℕ) (pts : ℕ → Option ℕ)
    (maps : ℕ → Option UserPage) : Prop where
  pde : ∀ i < 768, SameEntry (word mem (pd + 4 * i)) (pdeWord (pts i))
  pte : ∀ i < 768, ∀ pt, pts i = some pt → ∀ j < 1024,
    SameEntry (word mem (pt + 4 * j)) (pteWord (maps (1024 * i + j)))

theorem Space.tables {initPd pd : ℕ} {mem : ℕ → UInt8} {pts : ℕ → Option ℕ}
    {maps : ℕ → Option UserPage} (h : Space initPd mem pd pts maps) : Tables mem pd pts maps where
  pde := fun i hi => by rw [h.pde i hi]; exact ⟨rfl, rfl⟩
  pte := fun i hi pt hpt j hj => by rw [h.pte i hi pt hpt j hj]; exact ⟨rfl, rfl⟩

section Destroy

variable {P : PageSupply} {initPd : ℕ} {rest : List ℕ} {m : ℕ → UInt8}

def PagesKept (m : ℕ → UInt8) (pages : List ℕ) (t : ProcState) : Prop :=
  ∀ k ∈ pages, slice t.mem k 4096 = slice m k 4096

theorem freeHeld_returns (h : Ledger P base (k :: rest) t) (hkept : PagesKept m (k :: rest) t) :
    Returns (pallocFreePage k) t fun _ t' =>
      Ledger P base rest t' ∧ PagesKept m rest t' ∧ t'.pagedir = t.pagedir := by
  have hnodup := (nodup_cons.mp h.separate.1).1
  have hlen : k + (fillPage 0xcc).length ≤ k + 4096 := by rw [length_fillPage]
  refine (pallocFreePage_returns h).mono ?_
  rintro _ t' ⟨hledger, hpagedir, -, hmem⟩
  refine ⟨hledger, fun l hl => ?_, hpagedir⟩
  rw [hmem, ← hkept l (mem_cons_of_mem _ hl)]
  refine slice_patch_page (h.ram l (mem_cons_of_mem _ hl)).aligned
    (h.ram k mem_cons_self).aligned ?_ le_rfl hlen
  rintro rfl
  exact hnodup hl

def framesFrom (maps : ℕ → Option UserPage) (i j : ℕ) : List ℕ :=
  ((range 1024).drop j).filterMap fun l => (maps (1024 * i + l)).map UserPage.kpage

theorem drop_range (hj : j < n) : (range n).drop j = j :: (range n).drop (j + 1) := by
  rw [drop_eq_getElem_cons (by rwa [length_range]), getElem_range]

theorem framesFrom_zero : framesFrom maps i 0 = tableFrames maps i := by
  rw [framesFrom, drop_zero, tableFrames]

theorem framesFrom_last : framesFrom maps i 1024 = [] := by
  rw [framesFrom, drop_eq_nil_of_le (by rw [length_range]), filterMap_nil]

theorem framesFrom_eq (hj : j < 1024) :
    framesFrom maps i j =
      ((maps (1024 * i + j)).map UserPage.kpage).toList ++ framesFrom maps i (j + 1) := by
  rw [framesFrom, drop_range hj, filterMap_cons, framesFrom]
  cases maps (1024 * i + j) with
  | none => rw [Option.map_none, Option.toList_none, nil_append]
  | some p => rw [Option.map_some, Option.toList_some, singleton_append]

theorem destroyEntry_returns (hpte : SameEntry v (pteWord (maps (1024 * i + j))))
    (h : Ledger P base (((maps (1024 * i + j)).map UserPage.kpage).toList ++ rest) t)
    (hkept : PagesKept m (((maps (1024 * i + j)).map UserPage.kpage).toList ++ rest) t) :
    Returns (if v &&& pteP ≠ 0 then do pallocFreePage (← liftM (pteGetPage v)) else pure ()) t
      fun _ t' => Ledger P base rest t' ∧ PagesKept m rest t' ∧ t'.pagedir = t.pagedir := by
  cases hmap : maps (1024 * i + j) with
  | none =>
    rw [hmap] at hpte h hkept
    rw [if_neg (by rw [hpte.1]; decide), returns_pure]
    exact ⟨h, hkept, rfl⟩
  | some p =>
    rw [hmap] at hpte h hkept
    have hram := h.ram p.kpage mem_cons_self
    have hflags : (if p.writable then 7 else 5) < 4096 := by split <;> omega
    have hpresent : v &&& pteP ≠ 0 := by
      rw [hpte.1, pteWord, hram.entryOf_and hflags (show pteP < 4096 by decide)]
      split <;> decide
    have hpage : pteGetPage v = .ok p.kpage := by
      rw [pteGetPage, hpte.2]
      exact hram.pteGetPage hflags
    rw [if_pos hpresent]
    simp only [hpage, returns_bind, returns_liftM_ok]
    exact freeHeld_returns h hkept

theorem destroyTable_returns (hT : Tables m pd pts maps) (hi : i < 768) (hpd : pd ∈ rest)
    (h : Ledger P base (tablePages pts maps i ++ rest) t)
    (hkept : PagesKept m (tablePages pts maps i ++ rest) t) :
    Returns (destroyTable (pd + 4 * i)) t fun _ t' =>
      Ledger P base rest t' ∧ PagesKept m rest t' ∧ t'.pagedir = t.pagedir := by
  have hpde := hT.pde i hi
  rw [← word_congr (hkept pd (mem_append_right _ hpd)) (show i < 1024 by omega)] at hpde
  unfold destroyTable
  simp only [returns_bind, loadWord, returns_get, returns_pure]
  cases hpt : pts i with
  | none =>
    rw [hpt] at hpde
    rw [if_neg (by rw [hpde.1]; decide), returns_pure]
    rw [tablePages, hpt] at h hkept
    exact ⟨h, hkept, rfl⟩
  | some pt =>
    rw [tablePages, hpt, append_assoc] at h hkept
    rw [hpt] at hpde
    have hram := h.ram pt (by simp)
    have hpresent : word t.mem (pd + 4 * i) &&& pteP ≠ 0 := by
      rw [hpde.1, pdeWord, hram.entryOf_and (by omega) (show pteP < 4096 by decide)]
      decide
    have hget : pdeGetPt (word t.mem (pd + 4 * i)) = .ok pt := by
      rw [pdeGetPt, if_pos hpresent, hpde.2, pdeWord, hram.ptov_entryOf (by omega)]
      rfl
    rw [if_pos hpresent]
    simp only [hget, returns_bind, returns_liftM_ok]
    -- What is left to free after `j` entries is not changed by freeing the frames before.
    refine (returns_forM_range
      (fun j t' => Ledger P base (framesFrom maps i j ++ (pt :: rest)) t' ∧
        PagesKept m (framesFrom maps i j ++ (pt :: rest)) t' ∧ t'.pagedir = t.pagedir)
      ?_ ?_).mono ?_
    · rw [framesFrom_zero]
      exact ⟨h, hkept, rfl⟩
    · rintro j hj t' ⟨hl, hk, hp⟩
      have hpte := hT.pte i hi pt hpt j hj
      rw [← word_congr (hk pt (by simp)) hj] at hpte
      rw [framesFrom_eq hj, append_assoc] at hl hk
      refine (destroyEntry_returns hpte hl hk).mono ?_
      rintro _ t'' ⟨hl', hk', hp'⟩
      exact ⟨hl', hk', hp'.trans hp⟩
    · rintro _ t' ⟨hl, hk, hp⟩
      rw [framesFrom_last, nil_append] at hl hk
      refine (freeHeld_returns hl hk).mono ?_
      rintro _ t'' ⟨hl', hk', hp'⟩
      exact ⟨hl', hk', hp'.trans hp⟩

/-- **`pagedir_destroy`** frees the pages behind the directory, and the directory. -/
theorem pagedirDestroy_returns (hT : Tables t.mem pd pts maps) (hinit : initPd ∈ base)
    (h : Ledger P base (ownedPages pts maps ++ [pd]) t) :
    Returns (pagedirDestroy initPd pd) t fun _ t' =>
      Ledger P base [] t' ∧ t'.pagedir = t.pagedir := by
  have hpd : pd ≠ initPd := fun heq => h.separate.2 initPd hinit (by simp [heq])
  have hcount : pdNo physBase = 768 := by decide
  unfold pagedirDestroy
  simp only [returns_bind, returns_assert, ne_eq, hpd, not_false_eq_true, true_and, hcount]
  refine (returns_forM_range (fun i t' =>
    Ledger P base (((range 768).drop i).flatMap (tablePages pts maps) ++ [pd]) t' ∧
      PagesKept t.mem (((range 768).drop i).flatMap (tablePages pts maps) ++ [pd]) t' ∧
      t'.pagedir = t.pagedir) ?_ ?_).mono ?_
  · rw [drop_zero]
    exact ⟨h, fun _ _ => rfl, rfl⟩
  · rintro i hi t' ⟨hl, hk, hp⟩
    rw [drop_range hi, flatMap_cons, append_assoc] at hl hk
    refine (destroyTable_returns hT hi (by simp) hl hk).mono ?_
    rintro _ t'' ⟨hl', hk', hp'⟩
    exact ⟨hl', hk', hp'.trans hp⟩
  · rintro _ t' ⟨hl, hk, hp⟩
    rw [drop_eq_nil_of_le (by rw [length_range]), flatMap_nil, nil_append]
      at hl hk
    refine (freeHeld_returns hl hk).mono ?_
    rintro _ t'' ⟨hl', -, hp'⟩
    exact ⟨hl', hp'.trans hp⟩

end Destroy

end OsMaterial
