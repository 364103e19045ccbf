import OsMaterial.Process

/-!
# The Kernel Mapping

`paging_init` of `threads/init.c`: the base page directory maps the physical memory from `PHYS_BASE`
on. The loop keeps the page table of the current slot in a variable.

* `paging_init_identity`: **every page of memory is mapped once**, for the kernel only.
-/

namespace OsMaterial

open List

section Functions

variable (P : PageSupply) (start endKernelText : ℕ)

/-- `palloc_get_page (PAL_ASSERT | PAL_ZERO)`. -/
def pallocGetZeroed : Call ProcPanic ProcState ℕ := do
  match ← pallocGetPage P true with
  | none => throw (.palloc .outOfPages)
  | some page => return page

/-- The loop of `paging_init`, for `n` pages. -/
def pagingLoop (pd : ℕ) : ℕ → ℕ → ℕ → Call ProcPanic ProcState Unit
  | 0, _, _ => return
  | n + 1, page, pt => do
    let vaddr ← liftM ((ptov (page * pgSize)).mapError ProcPanic.palloc)
    let inKernelText := decide (start ≤ vaddr ∧ vaddr < endKernelText)
    let pt ←
      if (← loadWord (pd + 4 * pdNo vaddr)) = 0 then do
        let pt ← pallocGetZeroed P
        storeWord (pd + 4 * pdNo vaddr) (← liftM (pdeCreate pt))
        pure pt
      else pure pt
    storeWord (pt + 4 * ptNo vaddr) (← liftM (pteCreateKernel vaddr !inKernelText))
    pagingLoop pd n (page + 1) pt

def pagingInit : Call ProcPanic ProcState ℕ := do
  let pd ← pallocGetZeroed P
  pagingLoop P start endKernelText pd P.ramPages 0 0
  return pd

end Functions

variable {P : PageSupply} {start stop pd n i j k p q v page : ℕ} {mem : ℕ → UInt8}
  {s t : ProcState} {tables : List ℕ}

theorem pallocGetZeroed_returns (hsome : P.pick s.calls s.used ≠ none) :
    Returns (pallocGetZeroed P) s fun page t => page ∉ s.used ∧ RamPage P page ∧
      t.used = page :: s.used ∧ t.mem = patch s.mem page (fillPage 0) := by
  obtain ⟨page, hpick⟩ := Option.ne_none_iff_exists'.mp hsome
  unfold pallocGetZeroed pallocGetPage
  simp only [returns_bind, returns_get, hpick, returns_set, returns_pure]
  exact ⟨P.fresh hpick, P.inRam hpick, trivial, rfl⟩

/-- The page table entry for page `n` of memory. -/
def kernelEntry (start stop n : ℕ) : ℕ :=
  entryOf (physBase + 4096 * n)
    (if start ≤ physBase + 4096 * n ∧ physBase + 4096 * n < stop then 1 else 3)

theorem RamPage.pteCreateKernel (h : RamPage P page) (writable : Bool) :
    pteCreateKernel page writable = .ok (entryOf page (if writable then 3 else 1)) := by
  obtain ⟨i, -, hv, hsub⟩ := h.vtop
  rw [OsMaterial.pteCreateKernel, if_pos h.aligned, hv, entryOf, hsub]
  cases writable with
  | true =>
    change Except.ok (4096 * i ||| 1 ||| 2) = Except.ok (4096 * i + 3)
    rw [Nat.or_assoc, ← or_flags (by omega)]
    rfl
  | false =>
    change Except.ok (4096 * i ||| 1 ||| 0) = Except.ok (4096 * i + 1)
    rw [Nat.or_assoc, ← or_flags (by omega)]
    rfl

/-- **The base page directory** with the page tables `tables`, after `n` pages. -/
structure PagingInv (P : PageSupply) (start stop pd n : ℕ) (tables : List ℕ) (s : ProcState) :
    Prop where
  nodup : (pd :: tables).Nodup
  ram : ∀ q ∈ pd :: tables, RamPage P q
  used : ∀ q ∈ pd :: tables, q ∈ s.used
  pde : ∀ i < 1024, word s.mem (pd + 4 * i) = pdeWord (if 768 ≤ i then tables[i - 768]? else none)
  pte : ∀ k q, tables[k]? = some q → ∀ j < 1024, word s.mem (q + 4 * j) =
    if 1024 * k + j < n then kernelEntry start stop (1024 * k + j) else 0

theorem PagingInv.addTable (h : PagingInv P start stop pd n tables s) (hfresh : page ∉ s.used)
    (hram : RamPage P page) (hn : n ≤ 1024 * tables.length) (hlen : tables.length < 256)
    (hused : t.used = page :: s.used)
    (hmem : t.mem = patch (patch s.mem page (fillPage 0)) (pd + 4 * (768 + tables.length))
      (toLe 4 (entryOf page 7))) : PagingInv P start stop pd n (tables ++ [page]) t := by
  have hpd := h.ram pd mem_cons_self
  have hnew : page ∉ pd :: tables := fun hmem => hfresh (h.used page hmem)
  have hword {q i : ℕ} (hq : pgOfs q = 0) (hi : i < 1024) :
      word t.mem (q + 4 * i) = if q = pd ∧ i = 768 + tables.length then entryOf page 7
        else if q = page then 0 else word s.mem (q + 4 * i) :=
    hmem ▸ word_addTable hq hpd.aligned hram hi (by omega)
  have hne {q : ℕ} (hq : q ∈ pd :: tables) : q ≠ page := fun heq => hnew (heq ▸ hq)
  constructor
  case nodup =>
    exact nodup_append.mpr ⟨h.nodup, nodup_singleton page,
      fun q hq r hr heq => hnew (mem_singleton.mp hr ▸ heq ▸ hq)⟩
  case ram =>
    rw [← cons_append]
    exact forall_mem_append.mpr ⟨h.ram, forall_mem_singleton.mpr hram⟩
  case used =>
    rw [← cons_append, hused]
    exact forall_mem_append.mpr ⟨fun q hq => .tail _ (h.used q hq),
      forall_mem_singleton.mpr mem_cons_self⟩
  case pde =>
    intro i hi
    rw [hword hpd.aligned hi, if_neg (hne mem_cons_self), h.pde i hi, getElem?_append]
    by_cases heq : i = 768 + tables.length
    · rw [if_pos ⟨rfl, heq⟩, if_pos (by omega), if_neg (by omega), heq, Nat.add_sub_cancel_left,
        Nat.sub_self]
      rfl
    · rw [if_neg fun h => heq h.2]
      split_ifs with hkernel hlt
      · rfl
      · rw [getElem?_eq_none (by omega), getElem?_eq_none (by simp; omega)]
      · rfl
  case pte =>
    intro k q hk j hj
    rw [getElem?_append] at hk
    split_ifs at hk with hlt
    · have hq := mem_of_getElem? hk
      have hq' : q ≠ pd := fun heq => (nodup_cons.mp h.nodup).1 (heq ▸ hq)
      rw [hword (h.ram q (.tail _ hq)).aligned hj, if_neg fun h => hq' h.1,
        if_neg (hne (.tail _ hq)), h.pte k q hk j hj]
    · obtain rfl := mem_singleton.mp (mem_of_getElem? hk)
      rw [hword hram.aligned hj, if_neg fun heq => hne mem_cons_self heq.1.symm, if_pos rfl,
        if_neg (by omega)]

theorem PagingInv.addEntry (h : PagingInv P start stop pd n tables s) (hk : tables[k]? = some q)
    (hj : j < 1024) (hn : n = 1024 * k + j) (hram : n < P.ramPages) (hused : t.used = s.used)
    (hmem : t.mem = patch s.mem (q + 4 * j) (toLe 4 (kernelEntry start stop n))) :
    PagingInv P start stop pd (n + 1) tables t := by
  have hq := mem_cons_of_mem pd (mem_of_getElem? hk)
  have hlt : kernelEntry start stop n < 256 ^ 4 := by
    have hpage : RamPage P (physBase + 4096 * n) := ⟨n, hram, rfl⟩
    exact hpage.entryOf_lt (by split <;> omega)
  have hword {p i : ℕ} (hp : p ∈ pd :: tables) (hi : i < 1024) : word t.mem (p + 4 * i) =
      if p = q ∧ i = j then kernelEntry start stop n else word s.mem (p + 4 * i) := by
    rw [hmem, word_store (h.ram p hp).aligned (h.ram q hq).aligned hi hj hlt]
  refine ⟨h.nodup, h.ram, hused ▸ h.used, fun i hi => ?_, fun l p hl i hi => ?_⟩
  · have hne : pd ≠ q := fun heq => (nodup_cons.mp h.nodup).1 (heq ▸ mem_of_getElem? hk)
    rw [hword mem_cons_self hi, if_neg fun h => hne h.1, h.pde i hi]
  · rw [hword (.tail _ (mem_of_getElem? hl)) hi, h.pte l p hl i hi]
    by_cases heq : l = k ∧ i = j
    · obtain ⟨rfl, rfl⟩ := heq
      rw [if_pos ⟨Option.some.inj (hl.symm.trans hk), rfl⟩, if_pos (by omega), hn]
    · have hne : ¬(p = q ∧ i = j) := by
        rintro ⟨rfl, rfl⟩
        obtain ⟨hlen, -⟩ := List.getElem?_eq_some_iff.mp hl
        exact heq ⟨(List.getElem?_inj hlen h.nodup.of_cons).mp (hl.trans hk.symm), rfl⟩
      rw [if_neg hne]
      exact if_congr (by omega) rfl rfl

theorem pagingLoop_returns {m u pt : ℕ} (hcnt : n + m = P.ramPages)
    (hsupply : ∀ c used, used.length ≤ u + (P.ramPages + 1023) / 1024 → P.pick c used ≠ none)
    (h : PagingInv P start stop pd n tables s) (hn : n ≤ 1024 * tables.length)
    (hlen : 1024 * tables.length < n + 1024) (hused : s.used.length = u + 1 + tables.length)
    (hpt : ∀ k, tables.length = k + 1 → tables[k]? = some pt) :
    Returns (pagingLoop P start stop pd m n pt) s fun _ t =>
      ∃ tables, PagingInv P start stop pd P.ramPages tables t ∧
        P.ramPages ≤ 1024 * tables.length := by
  induction m generalizing n tables s pt with
  | zero =>
    rw [pagingLoop, returns_pure]
    exact ⟨tables, hcnt ▸ h, hcnt ▸ hn⟩
  | succ m ih =>
    have hle := P.ramPages_le
    have hvaddr : ptov (n * pgSize) = .ok (physBase + 4096 * n) := by
      rw [ptov, pgSize, physBase, wordSize, if_pos (by omega), Nat.mod_eq_of_lt (by omega)]
      congr 1
      omega
    have hpd : pdNo (physBase + 4096 * n) = 768 + n / 1024 := by rw [pdNo, physBase]; omega
    have hpt' : ptNo (physBase + 4096 * n) = n % 1024 := by rw [ptNo, physBase]; omega
    have hpage : RamPage P (physBase + 4096 * n) := ⟨n, by omega, rfl⟩
    -- With the table of the current slot, the entry is written and the loop goes on.
    have hrest {tables : List ℕ} {s : ProcState} {pt : ℕ} (h : PagingInv P start stop pd n tables s)
        (hn : n < 1024 * tables.length) (hlen : 1024 * tables.length ≤ n + 1024)
        (hused : s.used.length = u + 1 + tables.length)
        (hpt : ∀ k, tables.length = k + 1 → tables[k]? = some pt) :
        Returns (do
          storeWord (pt + 4 * (n % 1024)) (kernelEntry start stop n)
          pagingLoop P start stop pd m (n + 1) pt) s fun _ t =>
            ∃ tables, PagingInv P start stop pd P.ramPages tables t ∧
              P.ramPages ≤ 1024 * tables.length := by
      have hslot := hpt (n / 1024) (by omega)
      exact ih (by omega) (h.addEntry hslot (by omega) (by omega) (by omega) rfl rfl) (by omega)
        (by omega) hused hpt
    have hentry : pteCreateKernel (physBase + 4096 * n)
        (!decide (start ≤ physBase + 4096 * n ∧ physBase + 4096 * n < stop)) =
          .ok (kernelEntry start stop n) := by
      rw [hpage.pteCreateKernel, kernelEntry]
      by_cases htext : start ≤ physBase + 4096 * n ∧ physBase + 4096 * n < stop <;> simp [htext]
    simp only [pagingLoop, hvaddr, Except.mapError, returns_bind, returns_liftM_ok, loadWord,
      returns_get, returns_pure, hpd, hpt', hentry]
    rw [h.pde _ (by omega), if_pos (Nat.le_add_right ..), Nat.add_sub_cancel_left]
    simp only [returns_bind] at hrest
    by_cases hfull : n = 1024 * tables.length
    · have hslot : n / 1024 = tables.length := by omega
      rw [getElem?_eq_none hslot.ge, if_pos (by rfl), returns_bind]
      refine (pallocGetZeroed_returns (hsupply _ _ (by omega))).mono ?_
      rintro page t ⟨hfresh, hram, hused', hmem⟩
      rw [returns_bind, hram.pdeCreate, returns_liftM_ok, returns_bind, storeWord, returns_modify,
        hslot]
      simp only [returns_bind, returns_liftM_ok, returns_pure]
      have hlen' : (tables ++ [page]).length = tables.length + 1 := length_append ..
      refine hrest (h.addTable hfresh hram hn (by omega) hused' (by rw [hmem])) (by omega)
        (by omega) ?_ fun k hk => ?_
      · change t.used.length = _
        rw [hused', length_cons, hused, hlen']
        rfl
      · rw [← Nat.succ.inj (hlen'.symm.trans hk)]
        exact getElem?_concat_length
    · rw [hpt (n / 1024) (by omega), pdeWord, if_neg (entryOf_ne_zero (by omega))]
      simp only [returns_bind, returns_liftM_ok, returns_pure]
      exact hrest h (by omega) (by omega) hused hpt

/-- **Every page of memory is mapped once.** With pages for the tables, the page directory maps
the pages of memory, in their order, from `PHYS_BASE` on and nothing else; for the kernel only, and
not writable if they are in the kernel text. -/
theorem paging_init_identity (P : PageSupply) (start endKernelText : ℕ) (s : ProcState)
    (hsupply : ∀ calls used, used.length ≤ s.used.length + (P.ramPages + 1023) / 1024 →
      P.pick calls used ≠ none) :
    Returns (pagingInit P start endKernelText) s fun pd t => ∀ va < wordSize,
      translate t.mem pd va =
        if physBase ≤ va ∧ va < physBase + 4096 * P.ramPages then
          some {
            frame := va - pgOfs va
            writable := ¬(start ≤ va - pgOfs va ∧ va - pgOfs va < endKernelText)
            user := false }
        else none := by
  rw [pagingInit, returns_bind]
  refine (pallocGetZeroed_returns (hsupply _ _ (Nat.le_add_right ..))).mono ?_
  rintro pd t ⟨hfresh, hram, hused, hmem⟩
  have hstart : PagingInv P start endKernelText pd 0 [] t := by
    refine ⟨nodup_singleton pd, forall_mem_singleton.mpr hram,
      forall_mem_singleton.mpr (hused ▸ mem_cons_self), fun i hi => ?_, nofun⟩
    rw [hmem, word_of_zero slice_fillPage hi]
    split <;> rfl
  rw [returns_bind]
  refine (pagingLoop_returns (Nat.zero_add _) hsupply hstart le_rfl (by simp) (by simp [hused])
    nofun).mono ?_
  rintro - t ⟨tables, h, hlen⟩
  rw [returns_pure]
  intro va hva
  have hle := P.ramPages_le
  rw [wordSize] at hva
  have hpde := h.pde (pdNo va) (by rw [pdNo]; omega)
  have hphys : physBase = 3221225472 := rfl
  have hpd : pdNo va = va / 2 ^ 22 := rfl
  have hpt : ptNo va = va / 2 ^ 12 % 2 ^ 10 := rfl
  have hofs : pgOfs va = va % 4096 := rfl
  cases htable : (if 768 ≤ pdNo va then tables[pdNo va - 768]? else none) with
  | none =>
    rw [htable] at hpde
    rw [translate_eq_none hpde, if_neg]
    split_ifs at htable with hkernel
    · have hend := getElem?_eq_none_iff.mp htable
      omega
    · omega
  | some q =>
    rw [htable] at hpde
    split_ifs at htable with hkernel
    have hq := h.ram q (.tail _ (mem_of_getElem? htable))
    have hva' : va - pgOfs va = physBase + 4096 * (1024 * (pdNo va - 768) + ptNo va) := by omega
    rw [hq.translate_eq hpde (h.pte _ q htable _ (by omega))]
    by_cases hin : 1024 * (pdNo va - 768) + ptNo va < P.ramPages
    · have hpage : RamPage P (va - pgOfs va) := ⟨_, hin, hva'⟩
      rw [if_pos hin, if_pos (show _ ∧ _ by omega), kernelEntry, ← hva']
      by_cases htext : start ≤ va - pgOfs va ∧ va - pgOfs va < endKernelText <;>
        simp [htext, hpage.entryOf_and, hpage.frameOf, pteP, pteW, pteU]
    · rw [if_neg hin, if_pos (Nat.zero_and _), if_neg (by omega)]

theorem firstFit_pick {calls : ℕ} {used : List ℕ} (h : used.length < 64) :
    firstFit.pick calls used ≠ none := by
  intro hnone
  have hall : (range 64).map (fun i => physBase + 4096 * i) ⊆ used := fun page hpage => by
    simpa using find?_eq_none.mp hnone page hpage
  have hnodup : ((range 64).map fun i => physBase + 4096 * i).Nodup :=
    nodup_range.map fun i j h => by omega
  have hle := (subperm_of_subset hnodup hall).length_le
  rw [length_map, length_range] at hle
  omega

/-- The first page is read-only, the third is not, and user addresses have no page. -/
theorem paging_init_identity_firstFit :
    Returns (pagingInit firstFit physBase (physBase + 8192)) bootState fun pd t =>
      translate t.mem pd (physBase + 5) = some ⟨physBase, false, false⟩ ∧
      translate t.mem pd (physBase + 8200) = some ⟨physBase + 8192, true, false⟩ ∧
      translate t.mem pd 5 = none :=
  (paging_init_identity firstFit physBase (physBase + 8192) bootState fun _ _ h =>
    firstFit_pick (h.trans_lt (by decide))).mono fun _ _ h =>
      ⟨(h _ (by decide)).trans (by decide), (h _ (by decide)).trans (by decide),
        (h _ (by decide)).trans (by decide)⟩

end OsMaterial
