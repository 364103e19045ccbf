import OsMaterial.Machine
import OsMaterial.Process

/-!
# Page Directories as Maps

`pagedir_set_page`, `pagedir_clear_page`, and the calls for the dirty and accessed bits. An entry is
a record (`Pte`) that remembers the frame also while the page is not present. The log of the calls
says what a page directory is for: the frame of a page is the one set last, unless it was cleared
since, and a bit has the value it was given last. `invalidate_pagedir` changes nothing in memory.

* `pagedir_refines_map`: **page directories are maps**, after any calls, with memory or without.
-/

namespace OsMaterial

open List
open Function (update update_eq_self update_of_ne update_self)

/-! ### The functions -/

section Functions

variable (P : PageSupply)

def maskOut (v bits : ℕ) : ℕ := v &&& (wordSize - 1 - bits)

def pagedirClearPage (pd : Option ℕ) (upage : ℕ) : Call ProcPanic ProcState Unit := do
  assert (pgOfs upage = 0) .upageOffset
  assert (upage < physBase) .upageUser
  match ← lookupPage P pd upage false with
  | none => return ()
  | some pte =>
    let entry ← loadWord pte
    if entry &&& pteP ≠ 0 then
      storeWord pte (maskOut entry pteP)
    else
      return ()

def pagedirTest (bit : ℕ) (pd : Option ℕ) (vpage : ℕ) : Call ProcPanic ProcState Bool := do
  match ← lookupPage P pd vpage false with
  | none => return false
  | some pte => return (← loadWord pte) &&& bit ≠ 0

def pagedirAssign (bit : ℕ) (pd : Option ℕ) (vpage : ℕ) (value : Bool) :
    Call ProcPanic ProcState Unit := do
  match ← lookupPage P pd vpage false with
  | none => return ()
  | some pte =>
    let entry ← loadWord pte
    storeWord pte (if value then entry ||| bit else maskOut entry bit)

def pagedirIsDirty (pd : Option ℕ) (vpage : ℕ) : Call ProcPanic ProcState Bool :=
  pagedirTest P pteD pd vpage

def pagedirSetDirty (pd : Option ℕ) (vpage : ℕ) (dirty : Bool) : Call ProcPanic ProcState Unit :=
  pagedirAssign P pteD pd vpage dirty

def pagedirIsAccessed (pd : Option ℕ) (vpage : ℕ) : Call ProcPanic ProcState Bool :=
  pagedirTest P pteA pd vpage

def pagedirSetAccessed (pd : Option ℕ) (vpage : ℕ) (accessed : Bool) :
    Call ProcPanic ProcState Unit :=
  pagedirAssign P pteA pd vpage accessed

end Functions

/-! ### Entries -/

/-- An entry of a page table: the frame that was set last, with whether it is writable, and the
bits. -/
structure Pte where
  frame : Option (ℕ × Bool)
  present : Bool
  accessed : Bool
  dirty : Bool

def packFlags (p w u a d : Bool) : ℕ :=
  p.toNat + 2 * w.toNat + 4 * u.toNat + 32 * a.toNat + 64 * d.toNat

theorem packFlags_lt (p w u a d : Bool) : packFlags p w u a d < 128 := by
  revert p w u a d
  decide

theorem packFlags_test (p w u a d : Bool) :
    (packFlags p w u a d &&& pteP ≠ 0 ↔ p = true) ∧
      (packFlags p w u a d &&& pteA ≠ 0 ↔ a = true) ∧
        (packFlags p w u a d &&& pteD ≠ 0 ↔ d = true) := by
  revert p w u a d
  decide

theorem packFlags_assign (p w u a d : Bool) :
    packFlags p w u a d &&& (4095 - pteP) = packFlags false w u a d ∧
      packFlags p w u a d ||| pteA = packFlags p w u true d ∧
      packFlags p w u a d &&& (4095 - pteA) = packFlags p w u false d ∧
      packFlags p w u a d ||| pteD = packFlags p w u a true ∧
      packFlags p w u a d &&& (4095 - pteD) = packFlags p w u a false := by
  revert p w u a d
  decide

namespace Pte

def blank : Pte := ⟨none, false, false, false⟩

def ofFrame (kpage : ℕ) (writable : Bool) : Pte := ⟨some (kpage, writable), true, false, false⟩

def flags (e : Pte) : ℕ :=
  packFlags e.present (e.frame.elim false Prod.snd) e.frame.isSome e.accessed e.dirty

def kpage (e : Pte) : ℕ := e.frame.elim physBase Prod.fst

def toWord (e : Pte) : ℕ := entryOf e.kpage e.flags

def shown (e : Pte) : Option ℕ := if e.present then e.frame.map Prod.fst else none

def InRam (P : PageSupply) (e : Pte) : Prop := ∀ f, e.frame = some f → RamPage P f.1

end Pte

variable {c : PdOp × Bool} {u : ℕ} {e' e : Pte} {α : Type} {log : PdLog} {op : PdOp}

section Entries

variable {P : PageSupply} {i f m : ℕ}

theorem add_flags_or (hf : f < 4096) (hm : m < 4096) :
    (4096 * i + f) ||| m = 4096 * i + (f ||| m) := by
  have hlt : f ||| m < 2 ^ 12 := Nat.or_lt_two_pow hf hm
  rw [← or_flags hf, Nat.or_assoc, or_flags hlt]

theorem maskOut_add_flags (hi : i < 2 ^ 20) (hf : f < 4096) (hm : m < 4096) :
    maskOut (4096 * i + f) m = 4096 * i + (f &&& (4095 - m)) := by
  have hdiv : maskOut (4096 * i + f) m / 2 ^ 12 = i := by
    rw [maskOut, Nat.and_div_two_pow, show (wordSize - 1 - m) / 2 ^ 12 = 2 ^ 20 - 1 by
      rw [wordSize]; omega, Nat.and_two_pow_sub_one_eq_mod]
    omega
  have hmod : maskOut (4096 * i + f) m % 2 ^ 12 = f &&& (4095 - m) := by
    rw [maskOut, Nat.and_mod_two_pow, show (wordSize - 1 - m) % 2 ^ 12 = 4095 - m by
      rw [wordSize]; omega, show (4096 * i + f) % 2 ^ 12 = f by omega]
  omega

namespace Pte

theorem flags_lt (e : Pte) : e.flags < 4096 :=
  (packFlags_lt ..).trans (by decide)

theorem inRam_blank : blank.InRam P := nofun

section

variable (h : e.InRam P)

include h

theorem InRam.toWord_eq :
    ∃ i < 2 ^ 20, ∀ e' : Pte, e'.frame = e.frame → e'.toWord = 4096 * i + e'.flags := by
  cases hframe : e.frame with
  | none =>
    refine ⟨0, by decide, fun e' he' => ?_⟩
    rw [toWord, entryOf, kpage, he', Option.elim_none]
    omega
  | some f =>
    obtain ⟨i, hi, -, hsub⟩ := (h f hframe).vtop
    have := P.ramPages_le
    refine ⟨i, by omega, fun e' he' => ?_⟩
    rw [toWord, entryOf, kpage, he', Option.elim_some, hsub]

theorem InRam.toWord_lt : e.toWord < 256 ^ 4 := by
  obtain ⟨i, hi, heq⟩ := h.toWord_eq
  have := e.flags_lt
  rw [heq e rfl]
  omega

theorem InRam.toWord_and (hm : m < 4096) : e.toWord &&& m = e.flags &&& m := by
  obtain ⟨i, -, heq⟩ := h.toWord_eq
  rw [heq e rfl, add_flags_and hm, Nat.mod_eq_of_lt e.flags_lt]

theorem InRam.toWord_or (hframe : e'.frame = e.frame) (hm : m < 4096)
    (hflags : e.flags ||| m = e'.flags) : e.toWord ||| m = e'.toWord := by
  obtain ⟨i, -, heq⟩ := h.toWord_eq
  rw [heq e rfl, heq e' hframe, add_flags_or e.flags_lt hm, hflags]

theorem InRam.maskOut_toWord (hframe : e'.frame = e.frame) (hm : m < 4096)
    (hflags : e.flags &&& (4095 - m) = e'.flags) : maskOut e.toWord m = e'.toWord := by
  obtain ⟨i, hi, heq⟩ := h.toWord_eq
  rw [heq e rfl, heq e' hframe, maskOut_add_flags hi e.flags_lt hm, hflags]

theorem InRam.present_iff : e.toWord &&& pteP ≠ 0 ↔ e.present = true := by
  rw [h.toWord_and (by decide)]
  exact (packFlags_test ..).1

theorem InRam.clear_present : maskOut e.toWord pteP = Pte.toWord { e with present := false } :=
  h.maskOut_toWord rfl (by decide) (packFlags_assign ..).1

theorem InRam.getPage {f : ℕ × Bool} (hframe : e.frame = some f) :
    pteGetPage e.toWord = .ok f.1 := by
  rw [toWord, kpage, hframe, Option.elim_some, (h f hframe).pteGetPage e.flags_lt]

end

end Pte

structure PteBit where
  bit : ℕ
  get : Pte → Bool
  set : Pte → Bool → Pte
  lt : bit < 4096
  frame_set : ∀ e value, (set e value).frame = e.frame
  present_set : ∀ e value, (set e value).present = e.present
  get_set : ∀ e value, get (set e value) = value
  test : ∀ e, e.flags &&& bit ≠ 0 ↔ get e = true
  on : ∀ e, e.flags ||| bit = (set e true).flags
  off : ∀ e, e.flags &&& (4095 - bit) = (set e false).flags

def dirtyBit : PteBit where
  bit := pteD
  get e := e.dirty
  set e value := { e with dirty := value }
  lt := by decide
  frame_set _ _ := rfl
  present_set _ _ := rfl
  get_set _ _ := rfl
  test _ := (packFlags_test ..).2.2
  on _ := (packFlags_assign ..).2.2.2.1
  off _ := (packFlags_assign ..).2.2.2.2

def accessedBit : PteBit where
  bit := pteA
  get e := e.accessed
  set e value := { e with accessed := value }
  lt := by decide
  frame_set _ _ := rfl
  present_set _ _ := rfl
  get_set _ _ := rfl
  test _ := (packFlags_test ..).2.1
  on _ := (packFlags_assign ..).2.1
  off _ := (packFlags_assign ..).2.2.1

theorem PteBit.test_iff (b : PteBit) (h : e.InRam P) : e.toWord &&& b.bit ≠ 0 ↔ b.get e = true := by
  rw [h.toWord_and b.lt]
  exact b.test e

theorem PteBit.assign_eq (b : PteBit) (h : e.InRam P) (value : Bool) :
    (if value then e.toWord ||| b.bit else maskOut e.toWord b.bit) = (b.set e value).toWord := by
  cases value with
  | true =>
    rw [if_pos rfl]
    exact h.toWord_or (b.frame_set e true) b.lt (b.on e)
  | false =>
    rw [if_neg Bool.false_ne_true]
    exact h.maskOut_toWord (b.frame_set e false) b.lt (b.off e)

end Entries

/-! ### The invariant -/

/-- **A page directory** `pd` with the page tables `pts` and the entries `ptes`: all different pages
in use, with the kernel part of the base page directory. -/
structure PdInv (P : PageSupply) (initPd pd : ℕ) (pts : ℕ → Option ℕ) (ptes : ℕ → Pte)
    (s : ProcState) : Prop where
  init_used : initPd ∈ s.used
  init_aligned : pgOfs initPd = 0
  pd_used : pd ∈ s.used
  pd_ram : RamPage P pd
  pd_ne : pd ≠ initPd
  table_used : ∀ {i pt}, i < 768 → pts i = some pt → pt ∈ s.used
  table_ram : ∀ {i pt}, i < 768 → pts i = some pt → RamPage P pt
  table_ne : ∀ {i pt}, i < 768 → pts i = some pt → pt ≠ pd ∧ pt ≠ initPd
  table_inj : ∀ {i j pt}, i < 768 → j < 768 → pts i = some pt → pts j = some pt → i = j
  pde : ∀ {i}, i < 768 → word s.mem (pd + 4 * i) = pdeWord (pts i)
  pte : ∀ {i pt j}, i < 768 → pts i = some pt → j < 1024 →
    word s.mem (pt + 4 * j) = (ptes (1024 * i + j)).toWord
  blank : ∀ {i j}, i < 768 → pts i = none → j < 1024 → ptes (1024 * i + j) = .blank
  inRam : ∀ u, (ptes u).InRam P
  kernel : ∀ {i}, 768 ≤ i → i < 1024 → word s.mem (pd + 4 * i) = word s.mem (initPd + 4 * i)

variable {pts : ℕ → Option ℕ} {ptes : ℕ → Pte} {s t : ProcState}

section PdInv

variable {P : PageSupply} {initPd pd : ℕ} {va pt : ℕ}

theorem PdInv.congr (h : PdInv P initPd pd pts ptes s) (hused : t.used = s.used)
    (hmem : t.mem = s.mem) : PdInv P initPd pd pts ptes t :=
  { h with
    init_used := hused ▸ h.init_used
    pd_used := hused ▸ h.pd_used
    table_used := fun hi hpt => hused ▸ h.table_used hi hpt
    pde := fun hi => hmem ▸ h.pde hi
    pte := fun hi hpt hj => hmem ▸ h.pte hi hpt hj
    kernel := fun hi hi' => hmem ▸ h.kernel hi hi' }

variable (h : PdInv P initPd pd pts ptes s) (hva : va < physBase)

include h hva

theorem PdInv.pte_eq (hpt : pts (pdNo va) = some pt) :
    word s.mem (pt + 4 * ptNo va) = (ptes (va / 4096)).toWord := by
  obtain ⟨hi, hj, hsplit⟩ := pdNo_ptNo hva
  rw [h.pte hi hpt hj, hsplit]

theorem PdInv.blank_eq (hpt : pts (pdNo va) = none) : ptes (va / 4096) = .blank := by
  obtain ⟨hi, hj, hsplit⟩ := pdNo_ptNo hva
  rw [← hsplit, h.blank hi hpt hj]

theorem PdInv.store (hpt : pts (pdNo va) = some pt) (he : e.InRam P) :
    PdInv P initPd pd pts (update ptes (va / 4096) e)
      { s with mem := patch s.mem (pt + 4 * ptNo va) (toLe 4 e.toWord) } := by
  obtain ⟨hi, hj, hsplit⟩ := pdNo_ptNo hva
  have hpt_ram := h.table_ram hi hpt
  obtain ⟨hpt_pd, hpt_init⟩ := h.table_ne hi hpt
  have hword {k l : ℕ} (hofs : pgOfs k = 0) (hl : l < 1024) :
      word (patch s.mem (pt + 4 * ptNo va) (toLe 4 e.toWord)) (k + 4 * l) =
        if k = pt ∧ l = ptNo va then e.toWord else word s.mem (k + 4 * l) :=
    word_store hofs hpt_ram.aligned hl hj he.toWord_lt
  refine { h with pde := ?_, pte := ?_, blank := ?_, inRam := ?_, kernel := ?_ }
  · intro i hi'
    rw [hword h.pd_ram.aligned (by omega), if_neg fun heq => hpt_pd heq.1.symm, h.pde hi']
  · intro i pt' j hi' hpt' hj'
    rw [hword (h.table_ram hi' hpt').aligned hj', h.pte hi' hpt' hj']
    by_cases hsame : i = pdNo va ∧ j = ptNo va
    · obtain ⟨rfl, rfl⟩ := hsame
      rw [if_pos ⟨Option.some_inj.mp (hpt'.symm.trans hpt), rfl⟩, hsplit, update_self]
    · have hne : ¬(pt' = pt ∧ j = ptNo va) := fun heq =>
        hsame ⟨h.table_inj hi' hi hpt' (heq.1 ▸ hpt), heq.2⟩
      rw [if_neg hne, update_of_ne (by omega)]
  · intro i j hi' hnone hj'
    have hne : i ≠ pdNo va := by
      rintro rfl
      rw [hpt] at hnone
      cases hnone
    rw [update_of_ne (by omega), h.blank hi' hnone hj']
  · intro u
    by_cases hu : u = va / 4096
    · rw [hu, update_self]
      exact he
    · rw [update_of_ne hu]
      exact h.inRam u
  · intro i hi' hi''
    rw [hword h.pd_ram.aligned hi'', if_neg fun heq => hpt_pd heq.1.symm,
      hword h.init_aligned hi'', if_neg fun heq => hpt_init heq.1.symm, h.kernel hi' hi'']

theorem PdInv.addTable (hnone : pts (pdNo va) = none) (hfresh : pt ∉ s.used) (hram : RamPage P pt)
    (hused : t.used = pt :: s.used)
    (hmem : t.mem = patch (patch s.mem pt (fillPage 0)) (pd + 4 * pdNo va)
      (toLe 4 (entryOf pt 7))) :
    PdInv P initPd pd (update pts (pdNo va) (some pt)) ptes t := by
  obtain ⟨hi, -, -⟩ := pdNo_ptNo hva
  have hne : ∀ {k}, k ∈ s.used → k ≠ pt := fun hk heq => hfresh (heq ▸ hk)
  have hpd := hne h.pd_used
  have hword {k l : ℕ} (hofs : pgOfs k = 0) (hl : l < 1024) : word t.mem (k + 4 * l) =
      if k = pd ∧ l = pdNo va then entryOf pt 7 else if k = pt then 0 else word s.mem (k + 4 * l) :=
    hmem ▸ word_addTable hofs h.pd_ram.aligned hram hl (by omega)
  have htable : ∀ {i pt'}, i < 768 → update pts (pdNo va) (some pt) i = some pt' →
      (i = pdNo va ∧ pt' = pt) ∨ (i ≠ pdNo va ∧ pts i = some pt') := by
    intro i pt' hi' hpt'
    by_cases hsame : i = pdNo va
    · rw [hsame, update_self] at hpt'
      exact .inl ⟨hsame, (Option.some_inj.mp hpt').symm⟩
    · rw [update_of_ne hsame] at hpt'
      exact .inr ⟨hsame, hpt'⟩
  refine
    { init_used := hused ▸ mem_cons_of_mem _ h.init_used
      init_aligned := h.init_aligned
      pd_used := hused ▸ mem_cons_of_mem _ h.pd_used
      pd_ram := h.pd_ram
      pd_ne := h.pd_ne
      table_used := ?_, table_ram := ?_, table_ne := ?_, table_inj := ?_, pde := ?_, pte := ?_
      blank := ?_
      inRam := h.inRam
      kernel := ?_ }
  · intro i pt' hi' hpt'
    rw [hused]
    obtain ⟨-, rfl⟩ | ⟨-, hold⟩ := htable hi' hpt'
    · exact mem_cons_self
    · exact mem_cons_of_mem _ (h.table_used hi' hold)
  · intro i pt' hi' hpt'
    obtain ⟨-, rfl⟩ | ⟨-, hold⟩ := htable hi' hpt'
    · exact hram
    · exact h.table_ram hi' hold
  · intro i pt' hi' hpt'
    obtain ⟨-, rfl⟩ | ⟨-, hold⟩ := htable hi' hpt'
    · exact ⟨hpd.symm, (hne h.init_used).symm⟩
    · exact h.table_ne hi' hold
  · intro i j pt' hi' hj' hpt' hpt''
    obtain ⟨hsame, rfl⟩ | ⟨-, hold⟩ := htable hi' hpt'
    · obtain ⟨hsame', -⟩ | ⟨-, hold'⟩ := htable hj' hpt''
      · rw [hsame, hsame']
      · exact absurd rfl (hne (h.table_used hj' hold'))
    · obtain ⟨-, rfl⟩ | ⟨-, hold'⟩ := htable hj' hpt''
      · exact absurd rfl (hne (h.table_used hi' hold))
      · exact h.table_inj hi' hj' hold hold'
  · intro i hi'
    rw [hword h.pd_ram.aligned (by omega)]
    by_cases hsame : i = pdNo va
    · rw [if_pos ⟨rfl, hsame⟩, hsame, update_self]
      rfl
    · rw [if_neg fun heq => hsame heq.2, if_neg hpd, update_of_ne hsame, h.pde hi']
  · intro i pt' j hi' hpt' hj
    obtain ⟨rfl, rfl⟩ | ⟨-, hold⟩ := htable hi' hpt'
    · rw [hword hram.aligned hj, if_neg fun heq => hpd heq.1.symm, if_pos rfl, h.blank hi hnone hj]
      rfl
    · rw [hword (h.table_ram hi' hold).aligned hj, if_neg fun heq => (h.table_ne hi' hold).1 heq.1,
        if_neg (hne (h.table_used hi' hold)), h.pte hi' hold hj]
  · intro i j hi' hnone' hj
    by_cases hsame : i = pdNo va
    · rw [hsame, update_self] at hnone'
      cases hnone'
    · rw [update_of_ne hsame] at hnone'
      exact h.blank hi' hnone' hj
  · intro i hi' hi''
    rw [hword h.pd_ram.aligned hi'', if_neg fun heq => by omega, if_neg hpd,
      hword h.init_aligned hi'', if_neg fun heq => h.pd_ne heq.1.symm, if_neg (hne h.init_used),
      h.kernel hi' hi'']

/-! ### What the calls do -/

theorem PdInv.lookupPage_returns :
    Returns (lookupPage P (some pd) va false) s fun r t =>
      r = (pts (pdNo va)).map (· + 4 * ptNo va) ∧ t = s :=
  lookupPage_returns_of_pde (fun _ hpt => h.table_ram (pdNo_ptNo hva).1 hpt)
    (h.pde (pdNo_ptNo hva).1)

theorem PdInv.lookupPage_create_returns :
    Returns (lookupPage P (some pd) va true) s fun r t =>
      (r = none ∧ P.pick s.calls s.used = none ∧ PdInv P initPd pd pts ptes t) ∨
      ∃ pts' pt, r = some (pt + 4 * ptNo va) ∧ pts' (pdNo va) = some pt ∧
        PdInv P initPd pd pts' ptes t := by
  obtain ⟨hi, -, -⟩ := pdNo_ptNo hva
  simp only [lookupPage, loadWord, returns_bind, returns_assert, hva, or_true, true_and,
    returns_get, returns_pure, h.pde hi]
  cases hpt : pts (pdNo va) with
  | none =>
    rw [pdeWord, if_pos rfl, if_pos trivial, pallocGetPage]
    simp only [returns_bind, returns_get]
    cases hpick : P.pick s.calls s.used with
    | none =>
      simp only [returns_bind, returns_set, returns_pure]
      exact .inl ⟨trivial, trivial, h.congr rfl rfl⟩
    | some pt =>
      have hram : RamPage P pt := P.inRam hpick
      have hadd := h.addTable (t := { s with
        calls := s.calls + 1, used := pt :: s.used, obtained := pt :: s.obtained
        mem := patch (patch s.mem pt (fillPage 0)) (pd + 4 * pdNo va)
          (toLe 4 (entryOf pt 7)) }) hva hpt (P.fresh hpick) hram rfl rfl
      simp only [returns_bind, returns_set, returns_pure, hram.pdeCreate, returns_liftM_ok,
        storeWord, returns_modify, if_true]
      refine (ptePointer_returns_of_pde hram ?_).mono ?_
      · exact word_patch_self (hram.entryOf_lt (by decide))
      · rintro r t ⟨rfl, rfl⟩
        exact .inr ⟨_, pt, rfl, update_self .., hadd⟩
  | some pt =>
    rw [pdeWord, if_neg (entryOf_ne_zero (by decide))]
    refine (ptePointer_returns_of_pde (h.table_ram hi hpt) ?_).mono ?_
    · rw [h.pde hi, hpt]
      rfl
    · rintro r t ⟨rfl, rfl⟩
      exact .inr ⟨pts, pt, rfl, hpt, h⟩

/-- **`pagedir_set_page`** of a page that is not present. It fails only if there is no page for a
page table. -/
theorem PdInv.pagedirSetPage_returns {k : ℕ} (hofs : pgOfs va = 0) (hram : RamPage P k)
    (habsent : (ptes (va / 4096)).present = false) (writable : Bool) :
    Returns (pagedirSetPage P initPd (some pd) va k writable) s fun ok t =>
      (ok = false ∧ P.pick s.calls s.used = none ∧ PdInv P initPd pd pts ptes t) ∨
      (ok = true ∧ ∃ pts', PdInv P initPd pd pts'
        (update ptes (va / 4096) (.ofFrame k writable)) t) := by
  obtain ⟨n, hn, hvtop, -⟩ := hram.vtop
  have hdiv : 4096 * n / 2 ^ 12 < P.ramPages := by omega
  have hnew : (Pte.ofFrame k writable).InRam P := fun f hf => by
    obtain rfl := Option.some.inj hf
    exact hram
  have hword : entryOf k (if writable then 7 else 5) = (Pte.ofFrame k writable).toWord := by
    cases writable <;> rfl
  unfold pagedirSetPage
  simp only [returns_bind, returns_assert, hofs, hram.aligned, hva, hvtop, returns_liftM_ok, hdiv,
    ne_eq, Option.some_inj, h.pd_ne, not_false_eq_true, true_and]
  refine (h.lookupPage_create_returns hva).mono fun r t hr => ?_
  obtain ⟨rfl, hpick, h'⟩ | ⟨pts', pt, rfl, hpt, h'⟩ := hr
  · exact (returns_pure ..).mpr (.inl ⟨rfl, hpick, h'⟩)
  · have hclear : (ptes (va / 4096)).toWord &&& pteP = 0 := by
      by_contra hset
      rw [← ne_eq, (h.inRam _).present_iff, habsent] at hset
      cases hset
    simp only [returns_bind, loadWord, returns_get, returns_pure, h'.pte_eq hva hpt, hclear,
      returns_assert, true_and, hram.pteCreateUser, returns_liftM_ok, storeWord, returns_modify,
      hword]
    exact .inr ⟨pts', h'.store hva hpt hnew⟩

/-- **`pagedir_get_page`.** -/
theorem PdInv.pagedirGetPage_returns
    (hset : (ptes (va / 4096)).present = true → (ptes (va / 4096)).frame.isSome = true) :
    Returns (pagedirGetPage P (some pd) va) s fun r t =>
      r = (ptes (va / 4096)).shown.map (· + pgOfs va) ∧ t = s := by
  unfold pagedirGetPage Pte.shown
  simp only [returns_bind, returns_assert, hva, true_and]
  refine (h.lookupPage_returns hva).mono ?_
  rintro r t ⟨rfl, rfl⟩
  cases hpt : pts (pdNo va) with
  | none =>
    rw [h.blank_eq hva hpt]
    exact (returns_pure ..).mpr ⟨rfl, rfl⟩
  | some pt =>
    simp only [Option.map_some, returns_bind, loadWord, returns_get, returns_pure, h.pte_eq hva hpt]
    cases hp : (ptes (va / 4096)).present with
    | false =>
      rw [if_neg (by rw [(h.inRam _).present_iff, hp]; decide), if_neg (by decide)]
      exact (returns_pure ..).mpr ⟨rfl, rfl⟩
    | true =>
      obtain ⟨f, hf⟩ := Option.isSome_iff_exists.mp (hset hp)
      rw [if_pos ((h.inRam _).present_iff.mpr hp), if_pos rfl, hf]
      simp only [(h.inRam _).getPage hf, returns_bind, returns_liftM_ok, returns_pure,
        Option.map_some, and_self]

/-- **`pagedir_clear_page`.** -/
theorem PdInv.pagedirClearPage_returns (hofs : pgOfs va = 0) :
    Returns (pagedirClearPage P (some pd) va) s fun _ t => PdInv P initPd pd pts
      (update ptes (va / 4096) { ptes (va / 4096) with present := false }) t := by
  have hsame : (ptes (va / 4096)).present = false →
      update ptes (va / 4096) { ptes (va / 4096) with present := false } = ptes := by
    intro hp
    rw [← hp]
    exact update_eq_self ..
  unfold pagedirClearPage
  simp only [returns_bind, returns_assert, hofs, hva, true_and]
  refine (h.lookupPage_returns hva).mono ?_
  rintro r t ⟨rfl, rfl⟩
  cases hpt : pts (pdNo va) with
  | none =>
    rw [hsame (by rw [h.blank_eq hva hpt]; rfl)]
    exact (returns_pure ..).mpr h
  | some pt =>
    simp only [Option.map_some, returns_bind, loadWord, returns_get, returns_pure, h.pte_eq hva hpt]
    cases hp : (ptes (va / 4096)).present with
    | false =>
      rw [if_neg (by rw [(h.inRam _).present_iff, hp]; decide), hsame hp]
      exact (returns_pure ..).mpr h
    | true =>
      rw [if_pos ((h.inRam _).present_iff.mpr hp), storeWord, returns_modify,
        (h.inRam _).clear_present]
      exact h.store hva hpt (h.inRam _)

/-- **`pagedir_is_dirty` and `pagedir_is_accessed`.** -/
theorem PdInv.pagedirTest_returns (b : PteBit) (hblank : b.get .blank = false) :
    Returns (pagedirTest P b.bit (some pd) va) s fun r t =>
      r = b.get (ptes (va / 4096)) ∧ t = s := by
  unfold pagedirTest
  simp only [returns_bind]
  refine (h.lookupPage_returns hva).mono ?_
  rintro r t ⟨rfl, rfl⟩
  cases hpt : pts (pdNo va) with
  | none =>
    rw [h.blank_eq hva hpt, hblank]
    exact (returns_pure ..).mpr ⟨rfl, rfl⟩
  | some pt =>
    simp only [Option.map_some, returns_bind, loadWord, returns_get, returns_pure,
      h.pte_eq hva hpt, b.test_iff (h.inRam _), and_true]
    cases b.get (ptes (va / 4096)) <;> rfl

/-- **`pagedir_set_dirty` and `pagedir_set_accessed`**, where there is a page table. Without one
they do nothing. -/
theorem PdInv.pagedirAssign_returns (b : PteBit) (value : Bool) :
    Returns (pagedirAssign P b.bit (some pd) va value) s fun _ t =>
      (ptes (va / 4096) = .blank ∧ PdInv P initPd pd pts ptes t) ∨
      PdInv P initPd pd pts (update ptes (va / 4096) (b.set (ptes (va / 4096)) value)) t := by
  unfold pagedirAssign
  simp only [returns_bind]
  refine (h.lookupPage_returns hva).mono ?_
  rintro r t ⟨rfl, rfl⟩
  cases hpt : pts (pdNo va) with
  | none => exact (returns_pure ..).mpr (.inl ⟨h.blank_eq hva hpt, h⟩)
  | some pt =>
    simp only [Option.map_some, returns_bind, loadWord, returns_get, returns_pure,
      h.pte_eq hva hpt, storeWord, returns_modify, b.assign_eq (h.inRam _)]
    refine .inr (h.store hva hpt fun f hf => h.inRam (va / 4096) f ?_)
    rwa [b.frame_set] at hf

end PdInv

/-! ### The log of the calls -/

inductive PdOp where
  | setPage (upage kpage : ℕ) (writable : Bool)
  | clearPage (upage : ℕ)
  | setDirty (vpage : ℕ) (dirty : Bool)
  | setAccessed (vpage : ℕ) (accessed : Bool)

abbrev PdLog : Type := List (PdOp × Bool)

namespace PdOp

def page : PdOp → ℕ
  | setPage upage _ _ => upage / 4096
  | clearPage upage => upage / 4096
  | setDirty vpage _ => vpage / 4096
  | setAccessed vpage _ => vpage / 4096

def frameEvent : PdOp × Bool → Option (Option ℕ)
  | (setPage _ kpage _, true) => some (some kpage)
  | (clearPage _, _) => some none
  | _ => none

def dirtyEvent : PdOp × Bool → Option Bool
  | (setPage _ _ _, true) => some false
  | (setDirty _ dirty, _) => some dirty
  | _ => none

def accessedEvent : PdOp × Bool → Option Bool
  | (setPage _ _ _, true) => some false
  | (setAccessed _ accessed, _) => some accessed
  | _ => none

end PdOp

namespace PdLog

/-- The value that the last event about page `u` gives, and `default` before the first. -/
def value {α : Type} (event : PdOp × Bool → Option α) (default : α) (log : PdLog) (u : ℕ) : α :=
  (log.findSome? fun c => if c.1.page = u then event c else none).getD default

/-- **The frame** set last for page `u`, if the page has not been cleared since. -/
def frameOf (log : PdLog) (u : ℕ) : Option ℕ := log.value PdOp.frameEvent none u

/-- **The dirty bit** of page `u`: the value it was given last, since the page was set. -/
def dirtyOf (log : PdLog) (u : ℕ) : Bool := log.value PdOp.dirtyEvent false u

/-- **The accessed bit** of page `u`. -/
def accessedOf (log : PdLog) (u : ℕ) : Bool := log.value PdOp.accessedEvent false u

def EverMapped (log : PdLog) (u : ℕ) : Prop :=
  ∃ upage kpage writable, (PdOp.setPage upage kpage writable, true) ∈ log ∧ upage / 4096 = u

theorem value_cons_self (event : PdOp × Bool → Option α) (default : α) (c : PdOp × Bool)
    (log : PdLog) :
    PdLog.value event default (c :: log) c.1.page =
      (event c).getD (log.value event default c.1.page) := by
  rw [value, findSome?_cons, if_pos rfl]
  cases event c <;> rfl

theorem value_cons_of_ne (event : PdOp × Bool → Option α) (default : α) (log : PdLog)
    (h : c.1.page ≠ u) : PdLog.value event default (c :: log) u = log.value event default u := by
  rw [value, findSome?_cons, if_neg h]
  rfl

theorem everMapped_cons :
    EverMapped (c :: log) u ↔
      (∃ upage kpage writable, c = (.setPage upage kpage writable, true) ∧ upage / 4096 = u) ∨
        log.EverMapped u := by
  constructor
  · rintro ⟨upage, kpage, writable, hmem, hu⟩
    rcases mem_cons.mp hmem with heq | hmem
    · exact .inl ⟨upage, kpage, writable, heq.symm, hu⟩
    · exact .inr ⟨upage, kpage, writable, hmem, hu⟩
  · rintro (⟨upage, kpage, writable, rfl, hu⟩ | ⟨upage, kpage, writable, hmem, hu⟩)
    · exact ⟨upage, kpage, writable, mem_cons_self, hu⟩
    · exact ⟨upage, kpage, writable, mem_cons_of_mem _ hmem, hu⟩

end PdLog

theorem PdLog.everMapped_cons_iff
    (hc : ∀ upage kpage writable, c ≠ (.setPage upage kpage writable, true)) :
    PdLog.EverMapped (c :: log) u ↔ log.EverMapped u := by
  rw [PdLog.everMapped_cons]
  refine or_iff_right ?_
  rintro ⟨upage, kpage, writable, heq, -⟩
  exact hc upage kpage writable heq

structure Pte.Agrees (e : Pte) (log : PdLog) (u : ℕ) : Prop where
  frame_eq : log.frameOf u = e.shown
  isSome_of_present : e.present = true → e.frame.isSome = true
  mapped_iff : log.EverMapped u ↔ e.frame.isSome = true
  dirty_eq : log.EverMapped u → log.dirtyOf u = e.dirty
  accessed_eq : log.EverMapped u → log.accessedOf u = e.accessed

section Agrees

theorem Pte.agrees_blank (u : ℕ) : Pte.blank.Agrees [] u := by
  have hnone : ¬ PdLog.EverMapped [] u := by
    rintro ⟨_, _, _, hmem, -⟩
    exact not_mem_nil hmem
  exact ⟨rfl, nofun, iff_of_false hnone (by decide), fun hm => absurd hm hnone,
    fun hm => absurd hm hnone⟩

theorem Pte.Agrees.other (h : e.Agrees log u) (hne : c.1.page ≠ u) : e.Agrees (c :: log) u := by
  have hmapped : PdLog.EverMapped (c :: log) u ↔ log.EverMapped u := by
    rw [PdLog.everMapped_cons]
    refine or_iff_right ?_
    rintro ⟨upage, kpage, writable, rfl, hu⟩
    exact hne hu
  refine ⟨?_, h.isSome_of_present, hmapped.trans h.mapped_iff, fun hm => ?_, fun hm => ?_⟩
  · exact (PdLog.value_cons_of_ne _ _ log hne).trans h.frame_eq
  · exact (PdLog.value_cons_of_ne _ _ log hne).trans (h.dirty_eq (hmapped.mp hm))
  · exact (PdLog.value_cons_of_ne _ _ log hne).trans (h.accessed_eq (hmapped.mp hm))

theorem Pte.agrees_ofFrame (upage kpage : ℕ) (writable : Bool) (log : PdLog) :
    (Pte.ofFrame kpage writable).Agrees ((.setPage upage kpage writable, true) :: log)
      (upage / 4096) := by
  refine ⟨?_, fun _ => rfl, iff_of_true ?_ rfl, fun _ => ?_, fun _ => ?_⟩
  · exact PdLog.value_cons_self PdOp.frameEvent _ (.setPage upage kpage writable, true) log
  · exact ⟨upage, kpage, writable, mem_cons_self, rfl⟩
  · exact PdLog.value_cons_self PdOp.dirtyEvent _ (.setPage upage kpage writable, true) log
  · exact PdLog.value_cons_self PdOp.accessedEvent _ (.setPage upage kpage writable, true) log

theorem Pte.Agrees.own (h : e.Agrees log c.1.page)
    (hc : ∀ upage kpage writable, c ≠ (.setPage upage kpage writable, true))
    (hframe : e'.frame = e.frame) (hpresent : e'.present = true → e.present = true)
    (hshown : (PdOp.frameEvent c).getD e.shown = e'.shown)
    (hdirty : e.frame.isSome = true → (PdOp.dirtyEvent c).getD e.dirty = e'.dirty)
    (haccessed : e.frame.isSome = true → (PdOp.accessedEvent c).getD e.accessed = e'.accessed) :
    e'.Agrees (c :: log) c.1.page := by
  have hmapped : PdLog.EverMapped (c :: log) c.1.page ↔ log.EverMapped c.1.page :=
    PdLog.everMapped_cons_iff hc
  refine ⟨?_, fun hp => ?_, ?_, fun hm => ?_, fun hm => ?_⟩
  · rw [PdLog.frameOf, PdLog.value_cons_self, ← PdLog.frameOf, h.frame_eq, hshown]
  · rw [hframe]
    exact h.isSome_of_present (hpresent hp)
  · rw [hmapped, h.mapped_iff, hframe]
  · have hm := hmapped.mp hm
    rw [PdLog.dirtyOf, PdLog.value_cons_self, ← PdLog.dirtyOf, h.dirty_eq hm,
      hdirty (h.mapped_iff.mp hm)]
  · have hm := hmapped.mp hm
    rw [PdLog.accessedOf, PdLog.value_cons_self, ← PdLog.accessedOf, h.accessed_eq hm,
      haccessed (h.mapped_iff.mp hm)]

end Agrees

/-! ### Runs -/

section Runs

variable (P : PageSupply) (initPd pd : ℕ)

def PdOp.exec : PdOp → Call ProcPanic ProcState Bool
  | setPage upage kpage writable => pagedirSetPage P initPd (some pd) upage kpage writable
  | clearPage upage => do
      pagedirClearPage P (some pd) upage
      return true
  | setDirty vpage dirty => do
      pagedirSetDirty P (some pd) vpage dirty
      return true
  | setAccessed vpage accessed => do
      pagedirSetAccessed P (some pd) vpage accessed
      return true

/-- **The runs of calls** on the page directory `pd`, with their log. -/
def pagedirMachine (s : ProcState) : Machine (ProcState × PdLog) PdOp ProcPanic where
  start := (s, [])
  step c op :=
    match (op.exec P initPd pd).run c.1 with
    | .ok (ok, t) => .next (t, (op, ok) :: c.2)
    | .error e => .fault e

def PdOp.Allowed (c : ProcState × PdLog) : PdOp → Prop
  | setPage upage kpage _ => upage < physBase ∧ pgOfs upage = 0 ∧ pgOfs kpage = 0 ∧
      c.2.frameOf (upage / 4096) = none
  | clearPage upage => upage < physBase ∧ pgOfs upage = 0
  | setDirty vpage _ => vpage < physBase
  | setAccessed vpage _ => vpage < physBase

def PdOp.InRam : PdOp → Prop
  | setPage _ kpage _ => RamPage P kpage
  | clearPage _ => True
  | setDirty _ _ => True
  | setAccessed _ _ => True

def pageAnswers (uaddr : ℕ) : Call ProcPanic ProcState (Option ℕ × Bool × Bool) := do
  let page ← pagedirGetPage P (some pd) uaddr
  let dirty ← pagedirIsDirty P (some pd) uaddr
  let accessed ← pagedirIsAccessed P (some pd) uaddr
  return (page, dirty, accessed)

end Runs

structure BaseDir (initPd : ℕ) (s : ProcState) : Prop where
  used : initPd ∈ s.used
  aligned : pgOfs initPd = 0
  user : ∀ i < 768, word s.mem (initPd + 4 * i) = 0

section

variable {P : PageSupply} {initPd pd : ℕ}

theorem BaseDir.pagedirCreate_returns (h : BaseDir initPd s) :
    Returns (pagedirCreate P initPd) s fun r t => ∀ pd, r = some pd →
      PdInv P initPd pd (fun _ => none) (fun _ => .blank) t := by
  unfold pagedirCreate pallocGetPage
  simp only [returns_bind, returns_get]
  cases hpick : P.pick s.calls s.used with
  | none =>
    simp only [returns_bind, returns_set, returns_pure]
    intro pd hpd
    cases hpd
  | some pd =>
    simp only [returns_bind, returns_set, returns_pure, returns_modify, Bool.false_eq_true,
      if_false]
    intro pd' hpd'
    obtain rfl := Option.some.inj hpd'
    have hram : RamPage P pd := P.inRam hpick
    have hne : pd ≠ initPd := fun heq => P.fresh hpick (heq ▸ h.used)
    have hlen : pd + (slice s.mem initPd 4096).length ≤ pd + 4096 := by rw [length_slice]
    have hinit : slice (patch s.mem pd (slice s.mem initPd 4096)) initPd 4096 =
        slice s.mem initPd 4096 := slice_patch_page h.aligned hram.aligned hne.symm le_rfl hlen
    have hcopy : slice (patch s.mem pd (slice s.mem initPd 4096)) pd 4096 =
        slice s.mem initPd 4096 := slice_page length_slice
    exact
      { init_used := mem_cons_of_mem _ h.used
        init_aligned := h.aligned
        pd_used := mem_cons_self
        pd_ram := hram
        pd_ne := hne
        table_used := fun _ hpt => (by cases hpt)
        table_ram := fun _ hpt => (by cases hpt)
        table_ne := fun _ hpt => (by cases hpt)
        table_inj := fun _ _ hpt => (by cases hpt)
        pde := fun {i} hi => (word_copy hcopy (by omega)).trans (h.user i hi)
        pte := fun _ hpt => (by cases hpt)
        blank := fun _ _ _ => rfl
        inRam := fun _ => Pte.inRam_blank
        kernel := fun _ hi => (word_copy hcopy hi).trans (word_congr hinit hi).symm }

structure Stepped (P : PageSupply) (initPd pd : ℕ) (ptes : ℕ → Pte) (log : PdLog) (c : PdOp × Bool)
    (t : ProcState) (pts' : ℕ → Option ℕ) (ptes' : ℕ → Pte) : Prop where
  inv : PdInv P initPd pd pts' ptes' t
  agrees : ∀ u, (ptes' u).Agrees (c :: log) u
  other : ∀ u, u ≠ c.1.page → ptes' u = ptes u
  failed : c.2 = false → ptes' = ptes

theorem Stepped.update (hlog : ∀ u, (ptes u).Agrees log u)
    (h : PdInv P initPd pd pts (update ptes c.1.page e) t) (he : e.Agrees (c :: log) c.1.page)
    (hc : c.2 = true) : Stepped P initPd pd ptes log c t pts (update ptes c.1.page e) := by
  refine ⟨h, fun u => ?_, fun u hu => update_of_ne hu .., fun hf => ?_⟩
  · by_cases hu : u = c.1.page
    · rw [hu, update_self]
      exact he
    · rw [update_of_ne hu]
      exact (hlog u).other (Ne.symm hu)
  · rw [hc] at hf
    cases hf

theorem Stepped.keep (hlog : ∀ u, (ptes u).Agrees log u) (h : PdInv P initPd pd pts ptes t)
    (he : (ptes c.1.page).Agrees (c :: log) c.1.page) :
    Stepped P initPd pd ptes log c t pts ptes := by
  refine ⟨h, fun u => ?_, fun _ _ => rfl, fun _ => rfl⟩
  by_cases hu : u = c.1.page
  · rw [hu]
    exact he
  · exact (hlog u).other (Ne.symm hu)

theorem PdOp.inRam_of_run {r : Bool × ProcState} (hr : (op.exec P initPd pd).run s = .ok r) :
    op.InRam P := by
  cases op with
  | setPage upage kpage writable =>
    have hreturns : Returns (pagedirSetPage P initPd (some pd) upage kpage writable) s
        fun _ _ => True := ⟨r.1, r.2, hr, trivial⟩
    unfold pagedirSetPage vtop at hreturns
    simp only [returns_bind, returns_assert, returns_liftM_iff] at hreturns
    obtain ⟨-, hofs, -, phys, hphys, hlt, -⟩ := hreturns
    by_cases hle : physBase ≤ kpage
    · rw [if_pos hle] at hphys
      obtain rfl := Except.ok.inj hphys
      have hmod : kpage % 4096 = 0 := hofs
      have hbase : physBase = 4096 * 786432 := rfl
      exact ⟨(kpage - physBase) / 2 ^ 12, hlt, by omega⟩
    · rw [if_neg hle] at hphys
      cases hphys
  | clearPage upage => exact trivial
  | setDirty vpage dirty => exact trivial
  | setAccessed vpage accessed => exact trivial

theorem PdInv.exec_returns (h : PdInv P initPd pd pts ptes s) (hlog : ∀ u, (ptes u).Agrees log u)
    (hop : op.Allowed (s, log)) (hram : op.InRam P) :
    Returns (op.exec P initPd pd) s fun ok t =>
      ∃ pts' ptes', Stepped P initPd pd ptes log (op, ok) t pts' ptes' := by
  cases op with
  | setPage upage kpage writable =>
    obtain ⟨hva, hofs, -, habsent⟩ := hop
    have hlog' := hlog (upage / 4096)
    have hp : (ptes (upage / 4096)).present = false := by
      by_contra hp
      rw [Bool.not_eq_false] at hp
      have hshown := hlog'.frame_eq.symm.trans habsent
      have hsome := hlog'.isSome_of_present hp
      rw [Pte.shown, hp, if_pos rfl, Option.map_eq_none_iff] at hshown
      rw [hshown] at hsome
      cases hsome
    refine (h.pagedirSetPage_returns hva hofs hram hp writable).mono ?_
    rintro ok t (⟨rfl, -, h'⟩ | ⟨rfl, pts', h'⟩)
    · refine ⟨pts, ptes, .keep hlog h' ?_⟩
      exact hlog'.own (c := (.setPage upage kpage writable, false))
        nofun rfl id rfl (fun _ => rfl) fun _ => rfl
    · exact ⟨pts', _, .update (c := (.setPage upage kpage writable, true)) hlog h'
        (Pte.agrees_ofFrame upage kpage writable log) rfl⟩
  | clearPage upage =>
    obtain ⟨hva, hofs⟩ := hop
    rw [PdOp.exec, returns_bind]
    refine (h.pagedirClearPage_returns hva hofs).mono fun _ t h' => (returns_pure ..).mpr ?_
    refine ⟨pts, _, .update (c := (.clearPage upage, true)) hlog h' ?_ rfl⟩
    exact (hlog (upage / 4096)).own (c := (.clearPage upage, true))
      nofun rfl nofun rfl (fun _ => rfl) fun _ => rfl
  | setDirty vpage dirty =>
    rw [PdOp.exec, returns_bind, pagedirSetDirty]
    refine (h.pagedirAssign_returns hop dirtyBit dirty).mono fun _ t h' => (returns_pure ..).mpr ?_
    rcases h' with ⟨hblank, h'⟩ | h'
    · refine ⟨pts, ptes, .keep hlog h' ?_⟩
      refine (hlog (vpage / 4096)).own (c := (.setDirty vpage dirty, true))
        nofun rfl id rfl (fun hsome => ?_) fun _ => rfl
      rw [hblank] at hsome
      cases hsome
    · refine ⟨pts, _, .update (c := (.setDirty vpage dirty, true)) hlog h' ?_ rfl⟩
      exact (hlog (vpage / 4096)).own (c := (.setDirty vpage dirty, true))
        nofun rfl id rfl (fun _ => rfl) fun _ => rfl
  | setAccessed vpage accessed =>
    rw [PdOp.exec, returns_bind, pagedirSetAccessed]
    refine (h.pagedirAssign_returns hop accessedBit accessed).mono fun _ t h' =>
      (returns_pure ..).mpr ?_
    rcases h' with ⟨hblank, h'⟩ | h'
    · refine ⟨pts, ptes, .keep hlog h' ?_⟩
      refine (hlog (vpage / 4096)).own (c := (.setAccessed vpage accessed, true))
        nofun rfl id rfl (fun _ => rfl) fun hsome => ?_
      rw [hblank] at hsome
      cases hsome
    · refine ⟨pts, _, .update (c := (.setAccessed vpage accessed, true)) hlog h' ?_ rfl⟩
      exact (hlog (vpage / 4096)).own (c := (.setAccessed vpage accessed, true))
        nofun rfl id rfl (fun _ => rfl) fun _ => rfl

theorem PdInv.pageAnswers_returns (h : PdInv P initPd pd pts ptes s) {uaddr : ℕ}
    (hva : uaddr < physBase) (hlog : (ptes (uaddr / 4096)).Agrees log (uaddr / 4096)) :
    Returns (pageAnswers P pd uaddr) s fun answers t => answers =
      ((ptes (uaddr / 4096)).shown.map (· + pgOfs uaddr), (ptes (uaddr / 4096)).dirty,
        (ptes (uaddr / 4096)).accessed) ∧ t = s := by
  unfold pageAnswers
  simp only [returns_bind, returns_pure]
  refine (h.pagedirGetPage_returns hva hlog.isSome_of_present).mono ?_
  rintro page t ⟨rfl, rfl⟩
  refine (h.pagedirTest_returns hva dirtyBit rfl).mono ?_
  rintro dirty t ⟨rfl, rfl⟩
  refine (h.pagedirTest_returns hva accessedBit rfl).mono ?_
  rintro accessed t ⟨rfl, rfl⟩
  exact ⟨rfl, rfl⟩

/-- **The entries agree with the log.** -/
def PdRefines (P : PageSupply) (initPd pd : ℕ) (c : ProcState × PdLog) : Prop :=
  ∃ pts ptes, PdInv P initPd pd pts ptes c.1 ∧ ∀ u, (ptes u).Agrees c.2 u

theorem pdRefines_of_reachable {c : ProcState × PdLog}
    (h : PdInv P initPd pd (fun _ => none) (fun _ => .blank) s)
    (hr : (pagedirMachine P initPd pd s).ReachableUnder PdOp.Allowed c) :
    PdRefines P initPd pd c := by
  refine hr.invariant ⟨_, _, h, Pte.agrees_blank⟩ ?_
  rintro ⟨s, log⟩ c op - ⟨pts, ptes, hinv, hlog⟩ hop hstep
  rw [pagedirMachine] at hstep
  cases hrun : (op.exec P initPd pd).run s with
  | error e =>
    simp only [hrun] at hstep
    cases hstep
  | ok r =>
    obtain ⟨ok, t⟩ := r
    simp only [hrun, Outcome.next.injEq] at hstep
    obtain ⟨pts', ptes', hnext⟩ := (hinv.exec_returns hlog hop (PdOp.inRam_of_run hrun)).of_run hrun
    subst hstep
    exact ⟨pts', ptes', hnext.inv, hnext.agrees⟩

/-- **Page directories refine a map**: after any calls, the frame of a page is the one set last, if
it was not cleared since, and so for its bits; a call changes the answers for one page at most. -/
theorem pagedir_refines_map {s₀ s₁ : ProcState} (hbase : BaseDir initPd s₀)
    (hcreate : (pagedirCreate P initPd).run s₀ = .ok (some pd, s₁))
    (hr : (pagedirMachine P initPd pd s₁).ReachableUnder PdOp.Allowed (s, log)) :
    (∀ uaddr < physBase, (pagedirGetPage P (some pd) uaddr).run s =
      .ok ((log.frameOf (uaddr / 4096)).map (· + uaddr % 4096), s)) ∧
    (∀ vpage < physBase, log.EverMapped (vpage / 4096) →
      (pagedirIsDirty P (some pd) vpage).run s = .ok (log.dirtyOf (vpage / 4096), s) ∧
      (pagedirIsAccessed P (some pd) vpage).run s = .ok (log.accessedOf (vpage / 4096), s)) ∧
    (∀ op : PdOp, op.Allowed (s, log) →
      ((∃ r, (op.exec P initPd pd).run s = .ok r) ↔ op.InRam P) ∧
      ∀ ok t, (op.exec P initPd pd).run s = .ok (ok, t) →
        ∀ uaddr < physBase, uaddr / 4096 ≠ op.page ∨ ok = false →
          ∃ answers, (pageAnswers P pd uaddr).run s = .ok (answers, s) ∧
            (pageAnswers P pd uaddr).run t = .ok (answers, t)) ∧
    (∀ i, 768 ≤ i → i < 1024 → word s.mem (pd + 4 * i) = word s.mem (initPd + 4 * i)) := by
  have hstart := (hbase.pagedirCreate_returns (P := P)).of_run hcreate pd rfl
  obtain ⟨pts, ptes, hinv, hlog⟩ := pdRefines_of_reachable hstart hr
  refine ⟨fun uaddr hva => ?_, fun vpage hva hmapped => ⟨?_, ?_⟩, fun op hop => ⟨⟨?_, ?_⟩, ?_⟩,
    fun i hle hlt => hinv.kernel hle hlt⟩
  · rw [(hlog _).frame_eq]
    exact (hinv.pagedirGetPage_returns hva (hlog _).isSome_of_present).run_eq
  · rw [(hlog _).dirty_eq hmapped]
    exact (hinv.pagedirTest_returns hva dirtyBit rfl).run_eq
  · rw [(hlog _).accessed_eq hmapped]
    exact (hinv.pagedirTest_returns hva accessedBit rfl).run_eq
  · rintro ⟨r, hrun⟩
    exact PdOp.inRam_of_run hrun
  · intro hram
    obtain ⟨ok, t, hrun, -⟩ := hinv.exec_returns hlog hop hram
    exact ⟨(ok, t), hrun⟩
  · intro ok t hrun uaddr hva hother
    obtain ⟨pts', ptes', hnext⟩ := (hinv.exec_returns hlog hop (PdOp.inRam_of_run hrun)).of_run hrun
    have hsame : ptes' (uaddr / 4096) = ptes (uaddr / 4096) := by
      rcases hother with hne | hfailed
      · exact hnext.other _ hne
      · rw [hnext.failed hfailed]
    have hafter := (hnext.inv.pageAnswers_returns hva (hnext.agrees _)).run_eq
    rw [hsame] at hafter
    exact ⟨_, (hinv.pageAnswers_returns hva (hlog _)).run_eq, hafter⟩

end

theorem bootState_baseDir : BaseDir physBase bootState :=
  ⟨bootState_ready.init, bootState_ready.aligned _ bootState_ready.init, bootState_ready.user⟩

def bootedState : ProcState :=
  { bootState with
    calls := 1
    used := (physBase + 4096 * 2) :: bootState.used
    obtained := [physBase + 4096 * 2]
    mem := patch bootState.mem (physBase + 4096 * 2) (slice bootState.mem physBase 4096) }

theorem bootedState_eq : (pagedirCreate firstFit physBase).run bootState =
    .ok (some (physBase + 4096 * 2), bootedState) := by
  have hpick : firstFit.pick bootState.calls bootState.used = some (physBase + 4096 * 2) := by
    decide
  apply Returns.run_eq
  unfold pagedirCreate pallocGetPage
  simp only [returns_bind, returns_get, hpick, returns_set, returns_pure, returns_modify,
    Bool.false_eq_true, if_false, true_and]
  rfl

/-- A page is set, and an address in it is looked up. -/
theorem pagedir_refines_map_boot : ∃ s,
    (pagedirMachine firstFit physBase (physBase + 4096 * 2) bootedState).ReachableUnder
      PdOp.Allowed (s, [(.setPage 4096 (physBase + 4096 * 9) true, true)]) ∧
    (pagedirGetPage firstFit (some (physBase + 4096 * 2)) 4100).run s =
      .ok (some (physBase + 4096 * 9 + 4), s) := by
  have hstart :=
    (bootState_baseDir.pagedirCreate_returns (P := firstFit)).of_run bootedState_eq _ rfl
  have hram : RamPage firstFit (physBase + 4096 * 9) := ⟨9, by decide, rfl⟩
  have huser : 4096 < physBase := by decide
  obtain ⟨ok, s, hrun, ⟨-, hpick, -⟩ | ⟨rfl, -⟩⟩ :=
    hstart.pagedirSetPage_returns huser rfl hram rfl true
  · cases hpick
  · have hr : (pagedirMachine firstFit physBase (physBase + 4096 * 2) bootedState).ReachableUnder
        PdOp.Allowed (s, [(.setPage 4096 (physBase + 4096 * 9) true, true)]) := by
      refine .step .start (i := .setPage 4096 (physBase + 4096 * 9) true)
        ⟨by decide, rfl, rfl, rfl⟩ ?_
      simp only [pagedirMachine, PdOp.exec, hrun]
    exact ⟨s, hr, (pagedir_refines_map bootState_baseDir bootedState_eq hr).1 4100 (by decide)⟩

end OsMaterial
