import Mathlib.Data.Finset.Card
import Mathlib.Data.Finset.Range
import Mathlib.Data.List.Nodup
import OsMaterial.Semaphore

/-!
# The Kernel Heap

`malloc` and `free` of `threads/malloc.c`. A descriptor manages blocks of one size, which are cut
from arenas of one page; a bigger request gets an arena of its own. The page allocator is an oracle,
and arithmetic on `size_t` is modulo `wordSize`. Ledgers hold the blocks in use (`live`), the page
runs of the heap, and the runs obtained and returned.

* `malloc_size_iff`: **a block is as large as requested** unless the computation wraps around.
* `heap_correct`: live blocks are apart, free lists hold the others, every run is returned once, and
  **no assertion fails**.
-/

namespace OsMaterial

open Function (update update_apply update_idem update_of_ne update_self)
open List

abbrev pageSize : ℕ := 4096

abbrev arenaSize : ℕ := 12

/-! ### Descriptors -/

/-- `struct desc`. -/
structure Desc where
  blockSize : ℕ
  blocksPerArena : ℕ
  blockSize_pos : 0 < blockSize
  blocksPerArena_pos : 0 < blocksPerArena
  fits : arenaSize + blocksPerArena * blockSize ≤ pageSize

def mallocInitFrom (fuel blockSize : ℕ) (hpos : 0 < blockSize) : List Desc :=
  match fuel with
  | 0 => []
  | fuel + 1 =>
    if hlt : blockSize < pageSize / 2 then
      { blockSize
        blocksPerArena := (pageSize - arenaSize) / blockSize
        blockSize_pos := hpos
        blocksPerArena_pos := Nat.div_pos (by simp only [pageSize, arenaSize] at *; omega) hpos
        fits := by
          have := Nat.div_mul_le_self (pageSize - arenaSize) blockSize
          simp only [pageSize, arenaSize] at *
          omega } ::
        mallocInitFrom fuel (blockSize * 2) (by omega)
    else
      []

def descs : List Desc :=
  mallocInitFrom 10 16 (by decide)

example : descs.map Desc.blockSize = [16, 32, 64, 128, 256, 512, 1024] := by decide

abbrev DescId : Type := Fin descs.length

def desc (d : DescId) : Desc := descs.get d

def blockAddr (a : ℕ) (d : DescId) (i : ℕ) : ℕ :=
  pageSize * a + arenaSize + i * (desc d).blockSize

/-! ### The heap -/

/-- `struct arena`: the descriptor of its blocks, or none and a number of pages. -/
structure Arena where
  desc : Option DescId
  freeCnt : ℕ
  deriving DecidableEq

def Arena.pages (arena : Arena) : ℕ :=
  match arena.desc with
  | none => arena.freeCnt
  | some _ => 1

inductive HeapFault where
  | nullArena
  | badMagic
  | misaligned
  | badIndex
  | overfull
  | notFree
  | notOwned
  deriving DecidableEq

/-- **The heap**: the arenas, the free lists and the pages it has. -/
structure HeapState where
  arenas : ℕ → Option Arena
  freeList : DescId → List ℕ
  live : List ℕ
  runs : List (ℕ × ℕ)
  gets : List (ℕ × ℕ)
  puts : List (ℕ × ℕ)

def Apart (r q : ℕ × ℕ) : Prop :=
  r.1 + r.2 ≤ q.1 ∨ q.1 + q.2 ≤ r.1

instance (r q : ℕ × ℕ) : Decidable (Apart r q) :=
  inferInstanceAs (Decidable (_ ∨ _))

instance : Std.Symm Apart :=
  ⟨fun _ _ => Or.symm⟩

namespace HeapState

/-- `block_to_arena`. -/
def blockToArena (s : HeapState) (b : ℕ) : Outcome HeapFault (ℕ × Arena) :=
  let a := b / pageSize
  let ofs := b % pageSize
  if a = 0 then
    .fault .nullArena
  else
    match s.arenas a with
    | none => .fault .badMagic
    | some arena =>
      match arena.desc with
      | some d =>
        if (ofs + wordSize - arenaSize) % wordSize % (desc d).blockSize = 0 then
          .next (a, arena)
        else
          .fault .misaligned
      | none => if ofs = arenaSize then .next (a, arena) else .fault .misaligned

/-- `arena_to_block`. -/
def arenaToBlock (s : HeapState) (a idx : ℕ) : Outcome HeapFault ℕ :=
  if a = 0 then
    .fault .nullArena
  else
    match s.arenas a with
    | none => .fault .badMagic
    | some arena =>
      match arena.desc with
      | none => .fault .badMagic
      | some d =>
        if idx < (desc d).blocksPerArena then .next (blockAddr a d idx)
        else .fault .badIndex

def setArena (s : HeapState) (a : ℕ) (arena : Option Arena) : HeapState :=
  { s with arenas := update s.arenas a arena }

def setFree (s : HeapState) (d : DescId) (blocks : List ℕ) : HeapState :=
  { s with freeList := update s.freeList d blocks }

def getPages (s : HeapState) (a cnt : ℕ) : HeapState :=
  { s with runs := (a, cnt) :: s.runs, gets := s.gets ++ [(a, cnt)] }

def dropPages (s : HeapState) (a cnt : ℕ) : HeapState :=
  { s with
    arenas := update s.arenas a none
    runs := s.runs.erase (a, cnt)
    puts := s.puts ++ [(a, cnt)] }

def putPages (s : HeapState) (a cnt : ℕ) : Outcome HeapFault HeapState :=
  if (a, cnt) ∈ s.runs then .next (s.dropPages a cnt) else .fault .notOwned

def addBlocks (s : HeapState) (a : ℕ) (d : DescId) : List ℕ → Outcome HeapFault HeapState
  | [] => .next s
  | i :: is =>
    (s.arenaToBlock a i).bind fun b => addBlocks (s.setFree d (s.freeList d ++ [b])) a d is

def removeBlocks (s : HeapState) (a : ℕ) (d : DescId) : List ℕ → Outcome HeapFault HeapState
  | [] => .next s
  | i :: is =>
    (s.arenaToBlock a i).bind fun b =>
      if b ∈ s.freeList d then removeBlocks (s.setFree d ((s.freeList d).erase b)) a d is
      else .fault .notFree

def pageCnt (size : ℕ) : ℕ :=
  (size + arenaSize + pageSize - 1) % wordSize / pageSize

def findDesc (size : ℕ) : Option DescId :=
  (finRange descs.length).find? fun d => size ≤ (desc d).blockSize

def request (size : ℕ) : ℕ :=
  match findDesc size with
  | none => pageCnt size
  | some _ => 1

def mallocBig (s : HeapState) (size : ℕ) (page : Option ℕ) : HeapState × Option ℕ :=
  -- `palloc_get_multiple` returns a null pointer for no pages
  match if pageCnt size = 0 then none else page with
  | none => (s, none)
  | some a =>
    ((s.getPages a (pageCnt size)).setArena a (some ⟨none, pageCnt size⟩),
      some (pageSize * a + arenaSize))

def refill (s : HeapState) (d : DescId) (page : Option ℕ) :
    Outcome HeapFault (Option HeapState) :=
  if s.freeList d = [] then
    match page with
    | none => .next none
    | some a =>
      (((s.getPages a 1).setArena a
        (some ⟨some d, (desc d).blocksPerArena⟩)).addBlocks a d
          (range (desc d).blocksPerArena)).bind fun s => .next (some s)
  else
    .next (some s)

def takeBlock (s : HeapState) (d : DescId) : Outcome HeapFault (HeapState × Option ℕ) :=
  match s.freeList d with
  | [] => .fault .notFree
  | b :: bs =>
    (s.blockToArena b).bind fun (a, arena) =>
      .next ((s.setFree d bs).setArena a
        (some { arena with freeCnt := (arena.freeCnt + wordSize - 1) % wordSize }), some b)

/-- `malloc`. -/
def malloc (s : HeapState) (size : ℕ) (page : Option ℕ) :
    Outcome HeapFault (HeapState × Option ℕ) :=
  if size = 0 then
    .next (s, none)
  else
    match findDesc size with
    | none => .next (s.mallocBig size page)
    | some d =>
      (s.refill d page).bind fun
        | none => .next (s, none)
        | some s => s.takeBlock d

/-- `free`. -/
def free (s : HeapState) : Option ℕ → Outcome HeapFault HeapState
  | none => .next s
  | some b =>
    (s.blockToArena b).bind fun (a, arena) =>
      match arena.desc with
      | none => s.putPages a arena.freeCnt
      | some d =>
        let cnt := (arena.freeCnt + 1) % wordSize
        let s := (s.setFree d (b :: s.freeList d)).setArena a
          (some { arena with freeCnt := cnt })
        if (desc d).blocksPerArena ≤ cnt then
          if cnt = (desc d).blocksPerArena then
            (s.removeBlocks a d (range (desc d).blocksPerArena)).bind fun s =>
              s.putPages a 1
          else
            .fault .overfull
        else
          .next s

/-- `block_size`. -/
def blockSize (s : HeapState) (b : ℕ) : Outcome HeapFault ℕ :=
  (s.blockToArena b).bind fun (_, arena) =>
    match arena.desc with
    | some d => .next (desc d).blockSize
    | none => .next ((pageSize * arena.freeCnt + wordSize - b % pageSize) % wordSize)

inductive Call where
  /-- `malloc (size)`, with the answer of the page allocator in case it is asked. -/
  | malloc (size : ℕ) (page : Option ℕ)
  | free (b : ℕ)
  deriving DecidableEq

def step (s : HeapState) : Call → Outcome HeapFault HeapState
  | .malloc size page =>
    (s.malloc size page).bind fun (s, p) => .next { s with live := p.toList ++ s.live }
  | .free b => (s.free (some b)).bind fun s => .next { s with live := s.live.erase b }

/-- The discipline: a size is a `size_t`, the page allocator hands out pages other than
those the heap holds and never page zero, and only live blocks are freed. -/
def Disciplined (s : HeapState) : Call → Prop
  | .malloc size none => size < wordSize
  | .malloc size (some a) =>
    size < wordSize ∧ 0 < a ∧ ∀ r ∈ s.runs, Apart (a, request size) r
  | .free b => b ∈ s.live

end HeapState

def heapMachine : Machine HeapState HeapState.Call HeapFault where
  start :=
    { arenas := fun _ => none
      freeList := fun _ => []
      live := []
      runs := []
      gets := []
      puts := [] }
  step := HeapState.step

/-! ### Addresses -/

section Addresses

variable {a a' i j : ℕ} {d : DescId}

section

variable (hi : i < (desc d).blocksPerArena)

include hi

theorem block_end_le : arenaSize + i * (desc d).blockSize + (desc d).blockSize ≤ pageSize := by
  have hmul := Nat.mul_le_mul_right (desc d).blockSize hi
  rw [Nat.succ_mul] at hmul
  have := (desc d).fits
  omega

theorem blockAddr_div : blockAddr a d i / pageSize = a := by
  have := block_end_le hi
  have := (desc d).blockSize_pos
  simp only [blockAddr, pageSize] at *
  omega

theorem blockAddr_mod : blockAddr a d i % pageSize = arenaSize + i * (desc d).blockSize := by
  have := block_end_le hi
  have := (desc d).blockSize_pos
  simp only [blockAddr, pageSize] at *
  omega

theorem blockAddr_inj (hj : j < (desc d).blocksPerArena) (h : blockAddr a d i = blockAddr a' d j) :
    a = a' ∧ i = j := by
  have ha : a = a' := by rw [← blockAddr_div (a := a) hi, h, blockAddr_div hj]
  subst ha
  refine ⟨rfl, Nat.eq_of_mul_eq_mul_right (desc d).blockSize_pos ?_⟩
  simp only [blockAddr] at h
  omega

end

theorem bigBlock_div (a : ℕ) : (pageSize * a + arenaSize) / pageSize = a := by
  simp only [pageSize, arenaSize]
  omega

theorem bigBlock_mod (a : ℕ) : (pageSize * a + arenaSize) % pageSize = arenaSize := by
  simp only [pageSize, arenaSize]
  omega

end Addresses

/-! ### The invariant -/

namespace HeapState

def Small (s : HeapState) (a : ℕ) (d : DescId) : Prop :=
  ∃ n, s.arenas a = some ⟨some d, n⟩

def freeIn (s : HeapState) (a : ℕ) (d : DescId) : ℕ :=
  ((Finset.range (desc d).blocksPerArena).filter fun i =>
    blockAddr a d i ∈ s.freeList d).card

end HeapState

structure RunInv (s : HeapState) : Prop where
  runs_apart : s.runs.Pairwise Apart
  runs_pos : ∀ r ∈ s.runs, 0 < r.1 ∧ 0 < r.2
  arena_iff : ∀ a c, (a, c) ∈ s.runs ↔ ∃ arena, s.arenas a = some arena ∧ arena.pages = c
  big_lt : ∀ a n, s.arenas a = some ⟨none, n⟩ → pageSize * n < wordSize
  ledger : ∀ r, s.gets.count r = s.puts.count r + s.runs.count r

structure BlockInv (s : HeapState) : Prop where
  free_nodup : ∀ d, (s.freeList d).Nodup
  free_block : ∀ d, ∀ b ∈ s.freeList d,
    ∃ a i, s.Small a d ∧ i < (desc d).blocksPerArena ∧ b = blockAddr a d i
  free_iff : ∀ a d i, s.Small a d → i < (desc d).blocksPerArena →
    (blockAddr a d i ∈ s.freeList d ↔ blockAddr a d i ∉ s.live)
  live_nodup : s.live.Nodup
  live_block : ∀ b ∈ s.live,
    (∃ a d i, s.Small a d ∧ i < (desc d).blocksPerArena ∧ b = blockAddr a d i) ∨
      ∃ a n, s.arenas a = some ⟨none, n⟩ ∧ b = pageSize * a + arenaSize
  cnt : ∀ a d n, s.arenas a = some ⟨some d, n⟩ → n = s.freeIn a d

structure HeapInv (s : HeapState) : Prop where
  run : RunInv s
  block : BlockInv s
  used : ∀ a d n, s.arenas a = some ⟨some d, n⟩ → n < (desc d).blocksPerArena

theorem heapInv_start : HeapInv heapMachine.start where
  run := by constructor <;> simp [heapMachine]
  block := by constructor <;> simp [heapMachine, HeapState.Small]
  used := by simp [heapMachine]

variable {n i size m c x : ℕ} {s' : HeapState} {arena : Arena} {is live : List ℕ}

open Outcome

open HeapState

section Steps

variable {s : HeapState} {a b : ℕ} {d : DescId}

/-! ### The assertions -/

theorem RunInv.page_pos (h : RunInv s) (ha : s.arenas a = some arena) : 0 < a :=
  (h.runs_pos (a, arena.pages) ((h.arena_iff a _).mpr ⟨arena, ha, rfl⟩)).1

theorem blockToArena_small (hpos : 0 < a) (ha : s.arenas a = some ⟨some d, n⟩)
    (hi : i < (desc d).blocksPerArena) :
    s.blockToArena (blockAddr a d i) = .next (a, ⟨some d, n⟩) := by
  have hofs : (arenaSize + i * (desc d).blockSize + wordSize - arenaSize) % wordSize %
      (desc d).blockSize = 0 := by
    have hend := block_end_le hi
    have hlt : i * (desc d).blockSize < wordSize := by
      simp only [pageSize, arenaSize, wordSize] at *
      omega
    have heq : arenaSize + i * (desc d).blockSize + wordSize - arenaSize =
        i * (desc d).blockSize + wordSize := by omega
    rw [heq, Nat.add_mod_right, Nat.mod_eq_of_lt hlt, Nat.mul_mod_left]
  simp only [blockToArena, blockAddr_div hi, blockAddr_mod hi, ha, if_neg hpos.ne', if_pos hofs]

theorem blockToArena_big (hpos : 0 < a) (ha : s.arenas a = some ⟨none, n⟩) :
    s.blockToArena (pageSize * a + arenaSize) = .next (a, ⟨none, n⟩) := by
  simp only [blockToArena, bigBlock_div, bigBlock_mod, ha, if_neg hpos.ne', if_true]

theorem arenaToBlock_eq (ha : s.Small a d) (hpos : 0 < a) (hi : i < (desc d).blocksPerArena) :
    s.arenaToBlock a i = .next (blockAddr a d i) := by
  obtain ⟨n, ha⟩ := ha
  simp only [arenaToBlock, ha, if_neg hpos.ne', if_pos hi]

theorem addBlocks_eq (ha : s.Small a d) (hpos : 0 < a)
    (hi : ∀ i ∈ is, i < (desc d).blocksPerArena) :
    s.addBlocks a d is = .next (s.setFree d (s.freeList d ++ is.map (blockAddr a d))) := by
  induction is generalizing s with
  | nil => simp [addBlocks, setFree]
  | cons i is ih =>
    have hs : (s.setFree d (s.freeList d ++ [blockAddr a d i])).Small a d := ha
    rw [addBlocks, arenaToBlock_eq ha hpos (hi i (by simp)), bind_next,
      ih hs fun j hj => hi j (by simp [hj])]
    simp [setFree]

theorem removeBlocks_eq (ha : s.Small a d) (hpos : 0 < a) (hnd : is.Nodup)
    (hfree : (s.freeList d).Nodup) (hi : ∀ i ∈ is, i < (desc d).blocksPerArena)
    (hmem : ∀ i ∈ is, blockAddr a d i ∈ s.freeList d) :
    s.removeBlocks a d is =
      .next (s.setFree d ((s.freeList d).filter (· ∉ is.map (blockAddr a d)))) := by
  induction is generalizing s with
  | nil => simp [removeBlocks, setFree]
  | cons i is ih =>
    obtain ⟨hnot, hnd⟩ := nodup_cons.mp hnd
    rw [removeBlocks, arenaToBlock_eq ha hpos (hi i (by simp)), bind_next,
      if_pos (hmem i (by simp))]
    -- the other blocks are still there when block `i` is gone
    have hne : ∀ j ∈ is, blockAddr a d j ≠ blockAddr a d i := by
      intro j hj heq
      obtain ⟨-, rfl⟩ := blockAddr_inj (hi j (by simp [hj])) (hi i (by simp)) heq
      exact hnot hj
    have hrest : ∀ j ∈ is, blockAddr a d j ∈ (s.freeList d).erase (blockAddr a d i) :=
      fun j hj => (mem_erase_of_ne (hne j hj)).mpr (hmem j (by simp [hj]))
    have hs : (s.setFree d ((s.freeList d).erase (blockAddr a d i))).Small a d := ha
    rw [ih hs hnd (by simpa [setFree] using hfree.erase _)
      (fun j hj => hi j (by simp [hj])) (by simpa [setFree] using hrest)]
    simp only [setFree, update_self, update_idem, Outcome.next.injEq, mk.injEq, and_true, true_and]
    rw [hfree.erase_eq_filter, filter_filter]
    congr 1
    refine filter_congr fun x _ => ?_
    grind

/-! ### Page runs -/

namespace RunInv

theorem arenas_eq_none (h : RunInv s) (hc : 0 < c) (hap : ∀ r ∈ s.runs, Apart (a, c) r) :
    s.arenas a = none := by
  cases ha : s.arenas a with
  | none => rfl
  | some arena =>
    have hr := (h.arena_iff a _).mpr ⟨arena, ha, rfl⟩
    have hpos := h.runs_pos _ hr
    have := hap _ hr
    simp only [Apart] at this hpos
    omega

theorem get (h : RunInv s) (arena : Arena) (hpos : 0 < a) (hc : 0 < arena.pages)
    (hap : ∀ r ∈ s.runs, Apart (a, arena.pages) r)
    (hbig : ∀ n, arena = ⟨none, n⟩ → pageSize * n < wordSize) :
    RunInv ((s.getPages a arena.pages).setArena a (some arena)) := by
  have hnone := h.arenas_eq_none hc hap
  constructor <;> simp only [getPages, setArena, update_apply]
  case runs_apart => exact pairwise_cons.mpr ⟨hap, h.runs_apart⟩
  case runs_pos => simpa [hpos, hc] using h.runs_pos
  case arena_iff =>
    intro x c
    rw [mem_cons, h.arena_iff]
    by_cases hx : x = a
    · subst hx
      simp [hnone, eq_comm]
    · simp [hx]
  case big_lt =>
    intro x n hx
    split at hx
    · exact hbig n (Option.some_inj.mp hx)
    · exact h.big_lt x n hx
  case ledger =>
    intro r
    have := h.ledger r
    simp only [count_append, count_cons, count_nil]
    omega

theorem put (h : RunInv s) (ha : s.arenas a = some arena) : RunInv (s.dropPages a arena.pages) := by
  have hr := (h.arena_iff a _).mpr ⟨arena, ha, rfl⟩
  have hnd : s.runs.Nodup := by
    refine h.runs_apart.imp_of_mem fun {r q} hr hq hap heq => ?_
    have := h.runs_pos r hr
    subst heq
    simp only [Apart] at hap
    omega
  constructor <;> simp only [dropPages, update_apply]
  case runs_apart => exact h.runs_apart.sublist erase_sublist
  case runs_pos => exact fun r hr => h.runs_pos r (mem_of_mem_erase hr)
  case arena_iff =>
    intro x c
    rw [hnd.mem_erase_iff, h.arena_iff]
    by_cases hx : x = a
    · subst hx
      simp [ha, eq_comm]
    · simp [hx]
  case big_lt =>
    intro x n hx
    split at hx
    · cases hx
    · exact h.big_lt x n hx
  case ledger =>
    intro r
    have hled := h.ledger r
    grind

theorem count (h : RunInv s) (ha : s.arenas a = some ⟨some d, n⟩) (m : ℕ) :
    RunInv (s.setArena a (some ⟨some d, m⟩)) := by
  constructor <;> simp only [setArena, update_apply]
  case runs_apart => exact h.runs_apart
  case runs_pos => exact h.runs_pos
  case ledger => exact h.ledger
  case arena_iff =>
    intro x c
    rw [h.arena_iff]
    by_cases hx : x = a
    · subst hx
      simp [ha, Arena.pages]
    · simp [hx]
  case big_lt =>
    intro x n hx
    split at hx
    · cases hx
    · exact h.big_lt x n hx

end RunInv

/-! ### Blocks -/

theorem freeIn_congr (h : ∀ i < (desc d).blocksPerArena,
      (blockAddr a d i ∈ s'.freeList d ↔ blockAddr a d i ∈ s.freeList d)) :
    s'.freeIn a d = s.freeIn a d := by
  refine congrArg Finset.card (Finset.filter_congr fun i hi => ?_)
  exact h i (Finset.mem_range.mp hi)

structure PageInv (s : HeapState) (x : ℕ) : Prop where
  free_block : ∀ e, ∀ b ∈ s.freeList e, b / pageSize = x →
    s.Small x e ∧ ∃ i < (desc e).blocksPerArena, b = blockAddr x e i
  free_iff : ∀ e, ∀ i < (desc e).blocksPerArena, s.Small x e →
    (blockAddr x e i ∈ s.freeList e ↔ blockAddr x e i ∉ s.live)
  live_block : ∀ b ∈ s.live, b / pageSize = x →
    (∃ e, s.Small x e ∧ ∃ i < (desc e).blocksPerArena, b = blockAddr x e i) ∨
      ∃ n, s.arenas x = some ⟨none, n⟩ ∧ b = pageSize * x + arenaSize
  cnt : ∀ e n, s.arenas x = some ⟨some e, n⟩ → n = s.freeIn x e

theorem BlockInv.page (h : BlockInv s) (x : ℕ) : PageInv s x where
  free_block := by
    rintro e b hb rfl
    obtain ⟨y, i, hy, hi, rfl⟩ := h.free_block e b hb
    rw [blockAddr_div hi]
    exact ⟨hy, i, hi, rfl⟩
  free_iff := fun e i hi hx => h.free_iff x e i hx hi
  live_block := by
    rintro b hb rfl
    rcases h.live_block b hb with ⟨y, e, i, hy, hi, rfl⟩ | ⟨y, n, hy, rfl⟩
    · rw [blockAddr_div hi]
      exact .inl ⟨e, hy, i, hi, rfl⟩
    · rw [bigBlock_div]
      exact .inr ⟨n, hy, rfl⟩
  cnt := h.cnt x

theorem PageInv.congr (h : PageInv s x) (harenas : s'.arenas x = s.arenas x)
    (hfree : ∀ b, b / pageSize = x → ∀ e, b ∈ s'.freeList e ↔ b ∈ s.freeList e)
    (hlive : ∀ b, b / pageSize = x → (b ∈ s'.live ↔ b ∈ s.live)) : PageInv s' x := by
  have hsmall : ∀ e, s'.Small x e ↔ s.Small x e := fun e => by
    rw [HeapState.Small, harenas, HeapState.Small]
  constructor
  case free_block =>
    intro e b hb hx
    rw [hsmall]
    exact h.free_block e b ((hfree b hx e).mp hb) hx
  case free_iff =>
    intro e i hi hx
    rw [hfree _ (blockAddr_div hi), hlive _ (blockAddr_div hi)]
    exact h.free_iff e i hi ((hsmall e).mp hx)
  case live_block =>
    intro b hb hx
    simp only [hsmall, harenas]
    exact h.live_block b ((hlive b hx).mp hb) hx
  case cnt =>
    intro e n hx
    rw [h.cnt e n (harenas ▸ hx)]
    exact (freeIn_congr fun i hi => hfree _ (blockAddr_div hi) e).symm

theorem pageInv_of_none (ha : s.arenas a = none) (hfree : ∀ e, ∀ b ∈ s.freeList e, b / pageSize ≠ a)
    (hlive : ∀ b ∈ s.live, b / pageSize ≠ a) : PageInv s a where
  free_block := fun e b hb hx => absurd hx (hfree e b hb)
  free_iff := by
    rintro e i - ⟨n, hn⟩
    rw [ha] at hn
    cases hn
  live_block := fun b hb hx => absurd hx (hlive b hb)
  cnt := by
    intro e n hn
    rw [ha] at hn
    cases hn

theorem pageInv_of_big (ha : s.arenas a = some ⟨none, n⟩)
    (hfree : ∀ e, ∀ b ∈ s.freeList e, b / pageSize ≠ a)
    (hlive : ∀ b ∈ s.live, b / pageSize = a → b = pageSize * a + arenaSize) : PageInv s a where
  free_block := fun e b hb hx => absurd hx (hfree e b hb)
  free_iff := by
    rintro e i - ⟨m, hm⟩
    rw [ha] at hm
    cases hm
  live_block := fun b hb hx => .inr ⟨n, ha, hlive b hb hx⟩
  cnt := by
    intro e m hm
    rw [ha] at hm
    cases hm

theorem pageInv_of_small (ha : s.arenas a = some ⟨some d, n⟩) (hn : n = s.freeIn a d)
    (hother : ∀ e ≠ d, ∀ b ∈ s.freeList e, b / pageSize ≠ a)
    (hfree : ∀ b ∈ s.freeList d, b / pageSize = a →
      ∃ i < (desc d).blocksPerArena, b = blockAddr a d i) (hlive : ∀ b ∈ s.live, b / pageSize = a →
      ∃ i < (desc d).blocksPerArena, b = blockAddr a d i) (hiff : ∀ i < (desc d).blocksPerArena,
      (blockAddr a d i ∈ s.freeList d ↔ blockAddr a d i ∉ s.live)) : PageInv s a := by
  have heq : ∀ e, s.Small a e → e = d := by
    rintro e ⟨m, hm⟩
    rw [ha, Option.some_inj, Arena.mk.injEq, Option.some_inj] at hm
    exact hm.1.symm
  constructor
  case free_block =>
    intro e b hb hx
    by_cases he : e = d
    · subst he
      exact ⟨⟨n, ha⟩, hfree b hb hx⟩
    · exact absurd hx (hother e he b hb)
  case free_iff =>
    intro e i hi hx
    obtain rfl := heq e hx
    exact hiff i hi
  case live_block => exact fun b hb hx => .inl ⟨d, ⟨n, ha⟩, hlive b hb hx⟩
  case cnt =>
    intro e m hm
    obtain rfl := heq e ⟨m, hm⟩
    rw [ha, Option.some_inj, Arena.mk.injEq] at hm
    exact hm.2 ▸ hn

namespace BlockInv

theorem change (h : BlockInv s) (hfl : ∀ d, (s'.freeList d).Nodup) (hnd : s'.live.Nodup)
    (harenas : ∀ x ≠ a, s'.arenas x = s.arenas x)
    (hfree : ∀ b, b / pageSize ≠ a → ∀ e, b ∈ s'.freeList e ↔ b ∈ s.freeList e)
    (hlive : ∀ b, b / pageSize ≠ a → (b ∈ s'.live ↔ b ∈ s.live)) (hpage : PageInv s' a) :
    BlockInv s' := by
  have hall : ∀ x, PageInv s' x := by
    intro x
    by_cases hx : x = a
    · exact hx ▸ hpage
    · exact (h.page x).congr (harenas x hx) (fun b hb => hfree b (hb ▸ hx))
        fun b hb => hlive b (hb ▸ hx)
  constructor
  case free_nodup => exact hfl
  case free_block =>
    intro e b hb
    obtain ⟨hx, i, hi, heq⟩ := (hall _).free_block e b hb rfl
    exact ⟨_, i, hx, hi, heq⟩
  case free_iff => exact fun x e i hx hi => (hall x).free_iff e i hi hx
  case live_nodup => exact hnd
  case live_block =>
    intro b hb
    rcases (hall _).live_block b hb rfl with ⟨e, hx, i, hi, heq⟩ | ⟨n, hx, heq⟩
    · exact .inl ⟨_, e, i, hx, hi, heq⟩
    · exact .inr ⟨_, n, hx, heq⟩
  case cnt => exact fun x => (hall x).cnt

theorem not_mem_of_none (h : BlockInv s) (ha : s.arenas a = none) :
    (∀ e, ∀ b ∈ s.freeList e, b / pageSize ≠ a) ∧ ∀ b ∈ s.live, b / pageSize ≠ a := by
  refine ⟨fun e b hb hx => ?_, fun b hb hx => ?_⟩
  · obtain ⟨⟨n, hn⟩, -⟩ := (h.page a).free_block e b hb hx
    rw [ha] at hn
    cases hn
  · rcases (h.page a).live_block b hb hx with ⟨e, ⟨n, hn⟩, -⟩ | ⟨n, hn, -⟩
    · rw [ha] at hn
      cases hn
    · rw [ha] at hn
      cases hn

theorem mem_of_small (h : BlockInv s) (ha : s.arenas a = some ⟨some d, n⟩) :
    (∀ e ≠ d, ∀ b ∈ s.freeList e, b / pageSize ≠ a) ∧
    (∀ b ∈ s.freeList d, b / pageSize = a → ∃ i < (desc d).blocksPerArena, b = blockAddr a d i) ∧
    ∀ b ∈ s.live, b / pageSize = a → ∃ i < (desc d).blocksPerArena, b = blockAddr a d i := by
  have heq : ∀ e, s.Small a e → e = d := by
    rintro e ⟨m, hm⟩
    rw [ha, Option.some_inj, Arena.mk.injEq, Option.some_inj] at hm
    exact hm.1.symm
  refine ⟨fun e he b hb hx => he (heq e ((h.page a).free_block e b hb hx).1),
    fun b hb hx => ((h.page a).free_block d b hb hx).2, fun b hb hx => ?_⟩
  rcases (h.page a).live_block b hb hx with ⟨e, he, hblock⟩ | ⟨m, hm, -⟩
  · obtain rfl := heq e he
    exact hblock
  · rw [ha] at hm
    cases hm

theorem newArena (h : BlockInv s) (hd : s.freeList d = []) (hnone : s.arenas a = none) :
    BlockInv ((s.setArena a (some ⟨some d, (desc d).blocksPerArena⟩)).setFree d
      ((range (desc d).blocksPerArena).map (blockAddr a d))) := by
  obtain ⟨hfree, hlive⟩ := h.not_mem_of_none hnone
  have hmem : ∀ b, b ∈ (range (desc d).blocksPerArena).map (blockAddr a d) ↔
      ∃ i < (desc d).blocksPerArena, b = blockAddr a d i := by
    simp [eq_comm]
  have hself := fun i hi => (hmem (blockAddr a d i)).mpr ⟨i, hi, rfl⟩
  refine h.change (a := a) (fun e => ?_) h.live_nodup
    (fun x hx => update_of_ne hx ..) (fun b hb e => ?_) (fun b _ => Iff.rfl)
    (pageInv_of_small (n := (desc d).blocksPerArena) (update_self ..) ?_ ?_ ?_ ?_ ?_)
  · by_cases he : e = d
    · subst he
      simp only [setFree, update_self]
      refine List.Nodup.map_on (fun i hi j hj hij => ?_) nodup_range
      exact (blockAddr_inj (mem_range.mp hi) (mem_range.mp hj) hij).2
    · simp only [setFree, update_of_ne he]
      exact h.free_nodup e
  · by_cases he : e = d
    · subst he
      simp only [setFree, update_self, hmem, hd, not_mem_nil, iff_false]
      rintro ⟨i, hi, rfl⟩
      exact hb (blockAddr_div hi)
    · simp only [setFree, update_of_ne he]
      rfl
  all_goals simp only [freeIn, setFree, update_self]
  · rw [Finset.filter_true_of_mem fun i hi => hself i (Finset.mem_range.mp hi), Finset.card_range]
  · intro e he
    rw [update_of_ne he]
    exact hfree e
  · exact fun b hb _ => (hmem b).mp hb
  · exact fun b hb hx => absurd hx (hlive b hb)
  · exact fun i hi => iff_of_true (hself i hi) fun hl => hlive _ hl (blockAddr_div hi)

theorem newBig (h : BlockInv s) (hnone : s.arenas a = none) (c : ℕ) :
    BlockInv { s.setArena a (some ⟨none, c⟩) with
      live := (pageSize * a + arenaSize) :: s.live } := by
  obtain ⟨hfree, hlive⟩ := h.not_mem_of_none hnone
  refine h.change h.free_nodup
    (nodup_cons.mpr ⟨fun hl => hlive _ hl (bigBlock_div a), h.live_nodup⟩)
    (fun x hx => update_of_ne hx ..) (fun b _ e => Iff.rfl) (fun b hb => ?_)
    (pageInv_of_big (n := c) (update_self ..) hfree fun b hb hx => ?_)
  · refine mem_cons.trans (or_iff_right ?_)
    rintro rfl
    exact hb (bigBlock_div a)
  · exact (mem_cons.mp hb).resolve_right fun hl => hlive b hl hx

theorem move (h : BlockInv s) {fl : List ℕ} (ha : s.arenas a = some ⟨some d, n⟩)
    (hi : i < (desc d).blocksPerArena) (hfl : fl.Nodup) (hlive : live.Nodup)
    (hfmem : ∀ x, x ≠ blockAddr a d i → (x ∈ fl ↔ x ∈ s.freeList d))
    (hlmem : ∀ x, x ≠ blockAddr a d i → (x ∈ live ↔ x ∈ s.live))
    (hone : blockAddr a d i ∈ fl ↔ blockAddr a d i ∉ live)
    (hm : m = ((Finset.range (desc d).blocksPerArena).filter fun j => blockAddr a d j ∈ fl).card) :
    BlockInv { (s.setFree d fl).setArena a (some ⟨some d, m⟩) with live := live } := by
  obtain ⟨hother, hfblock, hlblock⟩ := h.mem_of_small ha
  have hne : ∀ {b}, b / pageSize ≠ a → b ≠ blockAddr a d i := by
    rintro _ hb rfl
    exact hb (blockAddr_div hi)
  refine h.change (a := a) (fun e => ?_) hlive (fun x hx => update_of_ne hx ..)
    (fun b hb e => ?_) (fun b hb => hlmem b (hne hb))
    (pageInv_of_small (n := m) (update_self ..) ?_ ?_ ?_ ?_ ?_)
  · by_cases he : e = d
    · subst he
      simpa only [setArena, setFree, update_self] using hfl
    · simpa only [setArena, setFree, update_of_ne he] using h.free_nodup e
  · by_cases he : e = d
    · subst he
      simpa only [setArena, setFree, update_self] using hfmem b (hne hb)
    · simp only [setArena, setFree, update_of_ne he]
  all_goals simp only [freeIn, setArena, setFree, update_self]
  · exact hm
  · intro e he
    rw [update_of_ne he]
    exact hother e he
  · intro b hb hx
    by_cases hbi : b = blockAddr a d i
    · exact ⟨i, hi, hbi⟩
    · exact hfblock b ((hfmem b hbi).mp hb) hx
  · intro b hb hx
    by_cases hbi : b = blockAddr a d i
    · exact ⟨i, hi, hbi⟩
    · exact hlblock b ((hlmem b hbi).mp hb) hx
  · intro j hj
    by_cases hbi : blockAddr a d j = blockAddr a d i
    · rw [hbi]
      exact hone
    · rw [hfmem _ hbi, hlmem _ hbi]
      exact h.free_iff a d j ⟨n, ha⟩ hj

end BlockInv

/-! ### The calls -/

theorem blocksPerArena_lt (d : DescId) : (desc d).blocksPerArena < wordSize := by
  have hfits := (desc d).fits
  have hpos := (desc d).blockSize_pos
  have := Nat.le_mul_of_pos_right (desc d).blocksPerArena hpos
  simp only [pageSize, arenaSize, wordSize] at *
  omega

theorem freeIn_le (s : HeapState) (a : ℕ) (d : DescId) :
    s.freeIn a d ≤ (desc d).blocksPerArena := by
  have := Finset.card_filter_le (Finset.range (desc d).blocksPerArena) fun i =>
    blockAddr a d i ∈ s.freeList d
  rwa [Finset.card_range] at this

theorem blockSize_small (hpos : 0 < a) (ha : s.arenas a = some ⟨some d, n⟩)
    (hi : i < (desc d).blocksPerArena) :
    s.blockSize (blockAddr a d i) = .next (desc d).blockSize := by
  rw [HeapState.blockSize, blockToArena_small hpos ha hi, bind_next]

theorem blockSize_big (hpos : 0 < a) (ha : s.arenas a = some ⟨none, n⟩) (hn : 0 < n)
    (hlt : pageSize * n < wordSize) :
    s.blockSize (pageSize * a + arenaSize) = .next (pageSize * n - arenaSize) := by
  have heq : (pageSize * n + wordSize - arenaSize) % wordSize = pageSize * n - arenaSize := by
    simp only [pageSize, arenaSize, wordSize] at *
    omega
  rw [HeapState.blockSize, blockToArena_big hpos ha, bind_next]
  simp only [bigBlock_mod, heq]

def KeepsArena (s s' : HeapState) (x : ℕ) : Prop :=
  ∀ arena, s.arenas x = some arena →
    ∃ n, s'.arenas x = some ⟨arena.desc, n⟩ ∧ (arena.desc = none → n = arena.freeCnt)

def KeepsArenas (s s' : HeapState) : Prop := ∀ x, KeepsArena s s' x

theorem keepsArena_of_eq (h : s'.arenas x = s.arenas x) :
    KeepsArena s s' x := fun arena hx => ⟨arena.freeCnt, by rw [h, hx], fun _ => rfl⟩

theorem KeepsArenas.refl (s : HeapState) : KeepsArenas s s := fun _ => keepsArena_of_eq rfl

theorem KeepsArenas.trans {s'' : HeapState} (h : KeepsArenas s s') (h' : KeepsArenas s' s'') :
    KeepsArenas s s'' := by
  intro x arena hx
  obtain ⟨n, hn, hbig⟩ := h x arena hx
  obtain ⟨m, hm, hbig'⟩ := h' x _ hn
  exact ⟨m, hm, fun hnone => (hbig' hnone).trans (hbig hnone)⟩

theorem keepsArenas_update {arena : Option Arena} (hnone : s.arenas a = none)
    (harenas : s'.arenas = update s.arenas a arena) : KeepsArenas s s' := by
  intro x old hx
  have hxa : x ≠ a := by
    rintro rfl
    rw [hnone] at hx
    cases hx
  exact keepsArena_of_eq (by rw [harenas, update_of_ne hxa]) old hx

theorem keepsArenas_count (ha : s.arenas a = some ⟨some d, n⟩)
    (harenas : s'.arenas = update s.arenas a (some ⟨some d, m⟩)) : KeepsArenas s s' := by
  intro x old hx
  by_cases hxa : x = a
  · subst hxa
    rw [ha, Option.some_inj] at hx
    subst hx
    exact ⟨m, by rw [harenas, update_self], nofun⟩
  · exact keepsArena_of_eq (by rw [harenas, update_of_ne hxa]) old hx

theorem KeepsArena.blockSize (h : KeepsArena s s' (b / pageSize)) (hn : s.blockSize b = .next n) :
    s'.blockSize b = .next n := by
  rw [HeapState.blockSize, blockToArena] at hn ⊢
  by_cases hzero : b / pageSize = 0
  · simp only [hzero, if_true, bind_fault] at hn
    cases hn
  · simp only [hzero, if_false] at hn ⊢
    cases ha : s.arenas (b / pageSize) with
    | none =>
      simp only [ha, bind_fault] at hn
      cases hn
    | some arena =>
      obtain ⟨m, hm, hbig⟩ := h arena ha
      obtain ⟨dsc, cnt⟩ := arena
      cases dsc with
      | some d =>
        simp only [ha, hm] at hn ⊢
        split at hn
        · rename_i halign
          rw [if_pos halign]
          exact hn
        · cases hn
      | none =>
        obtain rfl := hbig rfl
        simp only [ha, hm] at hn ⊢
        exact hn

theorem takeBlock_spec (hr : RunInv s) (h : BlockInv s) {bs : List ℕ} (hd : s.freeList d = b :: bs)
    (hused : ∀ x e k, s.arenas x = some ⟨some e, k⟩ →
      k < (desc e).blocksPerArena ∨ x = b / pageSize) :
    ∃ s', s.takeBlock d = .next (s', some b) ∧ s'.blockSize b = .next (desc d).blockSize ∧
      (s'.live = s.live ∧ KeepsArenas s s') ∧ HeapInv { s' with live := b :: s'.live } := by
  obtain ⟨a, i, ⟨n, ha⟩, hi, rfl⟩ := h.free_block d b (by simp [hd])
  obtain ⟨hnot, hnd⟩ := nodup_cons.mp (hd ▸ h.free_nodup d)
  have hcnt := h.cnt a d n ha
  have hlive : blockAddr a d i ∉ s.live := (h.free_iff a d i ⟨n, ha⟩ hi).mp (by simp [hd])
  have hfilter : ((Finset.range (desc d).blocksPerArena).filter fun j =>
      blockAddr a d j ∈ s.freeList d).erase i =
      (Finset.range (desc d).blocksPerArena).filter fun j => blockAddr a d j ∈ bs := by
    ext j
    simp only [Finset.mem_erase, Finset.mem_filter, Finset.mem_range, hd, mem_cons]
    constructor
    · rintro ⟨hji, hj, heq | hm⟩
      · exact absurd (blockAddr_inj hj hi heq).2 hji
      · exact ⟨hj, hm⟩
    · rintro ⟨hj, hm⟩
      exact ⟨by rintro rfl; exact hnot hm, hj, .inr hm⟩
  have hmem : i ∈ (Finset.range (desc d).blocksPerArena).filter fun j =>
      blockAddr a d j ∈ s.freeList d := by
    simp [hi, hd]
  have hpos : 0 < n := by
    rw [hcnt]
    exact Finset.card_pos.mpr ⟨i, hmem⟩
  have hle : n ≤ (desc d).blocksPerArena := hcnt ▸ freeIn_le s a d
  have hdec : (n + wordSize - 1) % wordSize = n - 1 := by
    have := blocksPerArena_lt d
    rw [show n + wordSize - 1 = n - 1 + wordSize by omega, Nat.add_mod_right,
      Nat.mod_eq_of_lt (by omega)]
  refine ⟨(s.setFree d bs).setArena a (some ⟨some d, n - 1⟩), ?_, ?_,
    ⟨rfl, keepsArenas_count ha rfl⟩, ?_, ?_, ?_⟩
  · simp only [takeBlock, hd, blockToArena_small (hr.page_pos ha) ha hi, bind_next, hdec]
  · exact blockSize_small (hr.page_pos ha) (update_self ..) hi
  · exact { RunInv.count (s := s) hr ha (n - 1) with }
  · refine h.move ha hi hnd (nodup_cons.mpr ⟨hlive, h.live_nodup⟩) ?_ ?_ ?_ ?_
    · intro x hx
      simp [hd, hx]
    · intro x hx
      exact mem_cons.trans (or_iff_right hx)
    · exact iff_of_false hnot (not_not.mpr mem_cons_self)
    · rw [← hfilter, Finset.card_erase_of_mem hmem, hcnt]
      rfl
  · intro x e k hx
    simp only [setFree, setArena, update_apply] at hx
    split at hx
    next hxa =>
      obtain ⟨rfl, rfl⟩ := hx
      omega
    next hxa =>
      refine (hused x e k hx).resolve_right fun heq => hxa ?_
      rw [heq, blockAddr_div hi]

theorem mallocSmall_spec (h : HeapInv s) (page : Option ℕ)
    (hpage : ∀ a, page = some a → 0 < a ∧ ∀ r ∈ s.runs, Apart (a, 1) r) :
    ∃ s' p, ((s.refill d page).bind fun
        | none => .next (s, none)
        | some s => s.takeBlock d) = .next (s', p) ∧
      (∀ b, p = some b → s'.blockSize b = .next (desc d).blockSize) ∧
      ((p = none → s' = s ∧ page = none) ∧ s'.live = s.live ∧ KeepsArenas s s') ∧
      HeapInv { s' with live := p.toList ++ s'.live } := by
  cases hd : s.freeList d with
  | cons b bs =>
    obtain ⟨s', hs', hsize, hkeeps, hi⟩ := takeBlock_spec h.run h.block hd
      fun x e k hx => .inl (h.used x e k hx)
    refine ⟨s', some b, ?_, fun b' hb' => Option.some.inj hb' ▸ hsize, ⟨nofun, hkeeps⟩, hi⟩
    simp only [refill, hd, reduceCtorEq, if_false, bind_next, hs']
  | nil =>
    cases page with
    | none =>
      exact ⟨s, none, by simp only [refill, hd, if_true, bind_next],
        nofun, ⟨fun _ => ⟨rfl, rfl⟩, rfl, .refl s⟩, h⟩
    | some a =>
      obtain ⟨hpos, hap⟩ := hpage a rfl
      set arena : Arena := ⟨some d, (desc d).blocksPerArena⟩ with harena
      have hnone := h.run.arenas_eq_none Nat.one_pos hap
      have hr := h.run.get arena hpos Nat.one_pos hap (by simp [harena])
      have hb := h.block.newArena hd hnone
      set s₁ := (s.getPages a 1).setArena a (some arena) with hs₁
      have hadd : s₁.addBlocks a d (range (desc d).blocksPerArena) = .next
          (s₁.setFree d ((range (desc d).blocksPerArena).map (blockAddr a d))) := by
        have hsmall : s₁.Small a d := ⟨(desc d).blocksPerArena, by simp [hs₁, setArena, harena]⟩
        have hnil : s₁.freeList d = [] := hd
        rw [addBlocks_eq hsmall hpos fun i => mem_range.mp, hnil, nil_append]
      set s₂ := s₁.setFree d ((range (desc d).blocksPerArena).map (blockAddr a d)) with hs₂
      obtain ⟨k, hk⟩ : ∃ k, (desc d).blocksPerArena = k + 1 :=
        Nat.exists_eq_add_one.mpr (desc d).blocksPerArena_pos
      have hcons : s₂.freeList d = blockAddr a d 0 ::
          ((range k).map Nat.succ).map (blockAddr a d) := by
        simp [hs₂, setFree, hk, range_succ_eq_map]
      -- the new arena is the only one that is entirely free
      have hused : ∀ x e n, s₂.arenas x = some ⟨some e, n⟩ →
          n < (desc e).blocksPerArena ∨ x = blockAddr a d 0 / pageSize := by
        intro x e n hx
        by_cases hxa : x = a
        · exact .inr (by rw [hxa, blockAddr_div (desc d).blocksPerArena_pos])
        · refine .inl (h.used x e n ?_)
          simpa [hs₂, setFree, hs₁, setArena, getPages, hxa] using hx
      obtain ⟨s', hs', hsize, ⟨hlive, hkeeps⟩, hi⟩ :=
        takeBlock_spec (s := s₂) { hr with } { hb with } hcons hused
      refine ⟨s', some (blockAddr a d 0), ?_, fun b' hb' => Option.some.inj hb' ▸ hsize,
        ⟨nofun, hlive, (keepsArenas_update hnone rfl).trans hkeeps⟩, hi⟩
      simp only [refill, hd, if_true]
      rw [← harena, ← hs₁, hadd, bind_next, bind_next]
      exact hs'

theorem pageCnt_lt (size : ℕ) : pageSize * pageCnt size < wordSize := by
  have hlt := Nat.mod_lt (size + arenaSize + pageSize - 1) (show 0 < wordSize by decide)
  have := Nat.mul_div_le ((size + arenaSize + pageSize - 1) % wordSize) pageSize
  rw [pageCnt]
  omega

theorem mallocBig_spec (h : HeapInv s) (page : Option ℕ)
    (hpage : ∀ a, page = some a → 0 < a ∧ ∀ r ∈ s.runs, Apart (a, pageCnt size) r) :
    (((s.mallocBig size page).2 = none →
        (s.mallocBig size page).1 = s ∧ (page = none ∨ pageCnt size = 0)) ∧
      (s.mallocBig size page).1.live = s.live ∧ KeepsArenas s (s.mallocBig size page).1) ∧
    HeapInv { (s.mallocBig size page).1 with
      live := (s.mallocBig size page).2.toList ++ (s.mallocBig size page).1.live } := by
  by_cases hc : pageCnt size = 0
  · rw [mallocBig, if_pos hc]
    exact ⟨⟨fun _ => ⟨rfl, .inr hc⟩, rfl, .refl s⟩, h⟩
  · cases page with
    | none =>
      rw [mallocBig, if_neg hc]
      exact ⟨⟨fun _ => ⟨rfl, .inl rfl⟩, rfl, .refl s⟩, h⟩
    | some a =>
      obtain ⟨hpos, hap⟩ := hpage a rfl
      have hcpos : 0 < pageCnt size := Nat.pos_of_ne_zero hc
      have hnone := h.run.arenas_eq_none hcpos hap
      have hr := h.run.get ⟨none, pageCnt size⟩ hpos hcpos hap (by
        rintro n ⟨⟩
        exact pageCnt_lt size)
      have hb := h.block.newBig hnone (pageCnt size)
      simp only [mallocBig, if_neg hc]
      refine ⟨⟨nofun, rfl, keepsArenas_update hnone rfl⟩, { hr with }, { hb with }, ?_⟩
      intro x e n hx
      simp only [setArena, update_apply] at hx
      split at hx
      · cases hx
      · exact h.used x e n hx

theorem lt_of_findDesc_eq_none (hf : findDesc size = none) : 1024 < size := by
  have hall := find?_eq_none.mp hf
  have hlast := hall ⟨6, by decide⟩ (mem_finRange _)
  have hsize : (desc ⟨6, by decide⟩).blockSize = 1024 := by decide
  rw [hsize, decide_eq_true_eq] at hlast
  omega

/-- The rounding to pages wraps around to zero just below `wordSize`. -/
theorem pageCnt_eq_zero_iff (hsize : size < wordSize) : pageCnt size = 0 ↔
    wordSize < size + arenaSize + pageSize ∧ size + arenaSize ≤ wordSize := by
  simp only [pageCnt, pageSize, arenaSize, wordSize] at *
  omega

theorem le_pageCnt_iff (hlarge : 1024 < size) (hsize : size < wordSize) (hc : pageCnt size ≠ 0) :
    size ≤ pageSize * pageCnt size - arenaSize ↔ size + arenaSize < wordSize := by
  simp only [pageCnt, pageSize, arenaSize, wordSize] at *
  omega

variable {page : Option ℕ}

theorem blockSize_mallocBig {b : ℕ} (hlarge : 1024 < size) (hsize : size < wordSize)
    (hpage : ∀ a, page = some a → 0 < a) (hb : (s.mallocBig size page).2 = some b) :
    pageCnt size ≠ 0 ∧ ∃ n, (s.mallocBig size page).1.blockSize b = .next n ∧
      (size ≤ n ↔ size + arenaSize < wordSize) := by
  by_cases hc : pageCnt size = 0
  · simp only [mallocBig, if_pos hc] at hb
    cases hb
  · cases page with
    | none =>
      simp only [mallocBig, if_neg hc] at hb
      cases hb
    | some a =>
      simp only [mallocBig, if_neg hc] at hb ⊢
      cases hb
      exact ⟨hc, _, blockSize_big (hpage a rfl) (update_self ..) (Nat.pos_of_ne_zero hc)
        (pageCnt_lt size), le_pageCnt_iff hlarge hsize hc⟩

theorem malloc_spec (h : HeapInv s) (hok : s.Disciplined (.malloc size page)) :
    ∃ s' p, s.malloc size page = .next (s', p) ∧
      (∀ b, p = some b → pageCnt size ≠ 0 ∧
        ∃ n, s'.blockSize b = .next n ∧ (size ≤ n ↔ size + arenaSize < wordSize)) ∧
      ((p = none → s' = s ∧ (size = 0 ∨ page = none ∨ pageCnt size = 0)) ∧ s'.live = s.live ∧
        KeepsArenas s s') ∧
      HeapInv { s' with live := p.toList ++ s'.live } := by
  have hsize : size < wordSize := by
    cases page with
    | none => exact hok
    | some a => exact hok.1
  by_cases hz : size = 0
  · exact ⟨s, none, by simp only [HeapState.malloc, if_pos hz], nofun,
      ⟨fun _ => ⟨rfl, .inl hz⟩, rfl, .refl s⟩, h⟩
  · have hpage : ∀ a, page = some a →
        0 < a ∧ ∀ r ∈ s.runs, Apart (a, request size) r := by
      rintro a rfl
      exact hok.2
    cases hf : findDesc size with
    | none =>
      simp only [request, hf] at hpage
      obtain ⟨⟨hnone, hkeeps⟩, hi⟩ := mallocBig_spec h page hpage
      refine ⟨_, _, ?_, fun b hb => ?_, ⟨fun hp => ?_, hkeeps⟩, hi⟩
      · simp only [HeapState.malloc, if_neg hz, hf]
      · exact blockSize_mallocBig (lt_of_findDesc_eq_none hf) hsize (fun a ha => (hpage a ha).1) hb
      · exact ⟨(hnone hp).1, .inr (hnone hp).2⟩
    | some d =>
      simp only [request, hf] at hpage
      simp only [HeapState.malloc, if_neg hz, hf]
      obtain ⟨s', p, hs', hblock, ⟨hnone, hkeeps⟩, hi⟩ := mallocSmall_spec h page hpage
      refine ⟨s', p, hs', fun b hb => ?_, ⟨fun hp => ⟨(hnone hp).1, .inr (.inl (hnone hp).2)⟩,
        hkeeps⟩, hi⟩
      have hfound := find?_some hf
      have hle : size ≤ (desc d).blockSize := of_decide_eq_true hfound
      have hfits := (desc d).fits
      have hcnt := Nat.le_mul_of_pos_left (desc d).blockSize (desc d).blocksPerArena_pos
      have hfew : size + arenaSize + pageSize ≤ wordSize := by
        simp only [pageSize, arenaSize, wordSize] at *
        omega
      refine ⟨fun hc => ?_, _, hblock b hb, iff_of_true hle ?_⟩
      · exact absurd ((pageCnt_eq_zero_iff hsize).mp hc).1 (Nat.not_lt.mpr hfew)
      · exact Nat.lt_of_lt_of_le (Nat.lt_add_of_pos_right (by decide)) hfew

theorem giveBlock (h : HeapInv s) (ha : s.arenas a = some ⟨some d, n⟩)
    (hi : i < (desc d).blocksPerArena) (hl : blockAddr a d i ∈ s.live) :
    RunInv ((s.setFree d (blockAddr a d i :: s.freeList d)).setArena a (some ⟨some d, n + 1⟩)) ∧
      BlockInv { (s.setFree d (blockAddr a d i :: s.freeList d)).setArena a
        (some ⟨some d, n + 1⟩) with live := s.live.erase (blockAddr a d i) } := by
  have hcnt := h.block.cnt a d n ha
  have hnot : blockAddr a d i ∉ s.freeList d := fun hm =>
    (h.block.free_iff a d i ⟨n, ha⟩ hi).mp hm hl
  have hgone : blockAddr a d i ∉ s.live.erase (blockAddr a d i) := h.block.live_nodup.not_mem_erase
  refine ⟨{ RunInv.count (s := s) h.run ha (n + 1) with }, ?_⟩
  refine h.block.move ha hi (nodup_cons.mpr ⟨hnot, h.block.free_nodup d⟩)
    (h.block.live_nodup.erase _) ?_ ?_ ?_ ?_
  · exact fun x hx => mem_cons.trans (or_iff_right hx)
  · exact fun x hx => mem_erase_of_ne hx
  · exact iff_of_true mem_cons_self hgone
  · have hfilter : ((Finset.range (desc d).blocksPerArena).filter fun j =>
        blockAddr a d j ∈ blockAddr a d i :: s.freeList d) =
        insert i ((Finset.range (desc d).blocksPerArena).filter fun j =>
          blockAddr a d j ∈ s.freeList d) := by
      ext j
      simp only [Finset.mem_insert, Finset.mem_filter, Finset.mem_range, mem_cons]
      constructor
      · rintro ⟨hj, heq | hm⟩
        · exact .inl (blockAddr_inj hj hi heq).2
        · exact .inr ⟨hj, hm⟩
      · rintro (rfl | ⟨hj, hm⟩)
        · exact ⟨hi, .inl rfl⟩
        · exact ⟨hj, .inr hm⟩
    rw [hfilter, Finset.card_insert_of_notMem (by simp [hnot]), hcnt]
    rfl

theorem BlockInv.all_free (h : BlockInv s)
    (ha : s.arenas a = some ⟨some d, (desc d).blocksPerArena⟩) (hi : i < (desc d).blocksPerArena) :
    blockAddr a d i ∈ s.freeList d := by
  have hcard := h.cnt a d _ ha
  have hall := Finset.eq_of_subset_of_card_le
    (Finset.filter_subset (fun j => blockAddr a d j ∈ s.freeList d)
      (Finset.range (desc d).blocksPerArena))
    (by rw [Finset.card_range]; exact hcard.le)
  have hm : i ∈ Finset.range (desc d).blocksPerArena := Finset.mem_range.mpr hi
  rw [← hall] at hm
  exact (Finset.mem_filter.mp hm).2

theorem release_spec (hr : RunInv s) (hb : BlockInv { s with live := live })
    (ha : s.arenas a = some ⟨some d, (desc d).blocksPerArena⟩) :
    ∃ s', ((s.removeBlocks a d (range (desc d).blocksPerArena)).bind fun s =>
        s.putPages a 1) = .next s' ∧
      s'.live = s.live ∧ s'.puts = s.puts ++ [(a, 1)] ∧
      s'.arenas = update s.arenas a none ∧
      RunInv s' ∧ BlockInv { s' with live := live } := by
  have hpos := hr.page_pos ha
  have hall : ∀ i < (desc d).blocksPerArena, blockAddr a d i ∈ s.freeList d :=
    fun i hi => hb.all_free ha hi
  have hput : RunInv (s.dropPages a 1) := hr.put ha
  have hrun : (a, 1) ∈ s.runs := (hr.arena_iff a 1).mpr ⟨_, ha, rfl⟩
  set fl := (s.freeList d).filter (· ∉ (range (desc d).blocksPerArena).map (blockAddr a d)) with hfl
  have hrem : s.removeBlocks a d (range (desc d).blocksPerArena) =
      .next (s.setFree d fl) := by
    refine removeBlocks_eq ⟨_, ha⟩ hpos nodup_range (hb.free_nodup d) ?_ ?_
    · exact fun i => mem_range.mp
    · exact fun i hi => hall i (mem_range.mp hi)
  refine ⟨(s.setFree d fl).dropPages a 1, ?_, rfl, rfl, rfl, { hput with }, ?_⟩
  · rw [hrem, bind_next]
    exact if_pos hrun
  -- what is left are the blocks on other pages
  obtain ⟨hother, hblock, hlblock⟩ := hb.mem_of_small ha
  have hmem : ∀ b ∈ fl, b / pageSize ≠ a := by
    intro b hbf hx
    obtain ⟨hbf, hnot⟩ := mem_filter.mp hbf
    obtain ⟨i, hi, rfl⟩ := hblock b hbf hx
    exact of_decide_eq_true hnot (mem_map_of_mem (mem_range.mpr hi))
  refine hb.change (fun e => ?_) hb.live_nodup (fun x hx => update_of_ne hx ..)
    (fun b hx e => ?_) (fun b _ => Iff.rfl)
    (pageInv_of_none (update_self ..) (fun e => ?_) fun b hbl hx => ?_)
  · by_cases he : e = d
    · subst he
      simpa only [dropPages, setFree, update_self] using (hb.free_nodup e).filter _
    · simpa only [dropPages, setFree, update_of_ne he] using hb.free_nodup e
  · by_cases he : e = d
    · subst he
      simp only [dropPages, setFree, update_self, hfl,
        mem_filter, decide_eq_true_eq, and_iff_left_iff_imp]
      rintro - hmap
      obtain ⟨i, hi, rfl⟩ := mem_map.mp hmap
      exact hx (blockAddr_div (mem_range.mp hi))
    · simp only [dropPages, setFree, update_of_ne he]
  · by_cases he : e = d
    · subst he
      simpa only [dropPages, setFree, update_self] using hmem
    · simpa only [dropPages, setFree, update_of_ne he] using hother e he
  · obtain ⟨i, hi, rfl⟩ := hlblock b hbl hx
    exact (hb.free_iff a d i ⟨_, ha⟩ hi).mp (hall i hi) hbl

def FreeReturns (s s' : HeapState) (a : ℕ) (arena : Arena) : Prop :=
  match arena.desc with
  | none => s'.puts = s.puts ++ [(a, arena.freeCnt)] ∧ s'.arenas a = none
  | some d =>
    if arena.freeCnt + 1 = (desc d).blocksPerArena then
      s'.puts = s.puts ++ [(a, 1)] ∧ s'.arenas a = none
    else
      s'.puts = s.puts ∧ s'.arenas a = some ⟨some d, arena.freeCnt + 1⟩

theorem free_spec (h : HeapInv s) (hl : b ∈ s.live) :
    ∃ s' arena, s.free (some b) = .next s' ∧ s.arenas (b / pageSize) = some arena ∧
      FreeReturns s s' (b / pageSize) arena ∧
      (s'.live = s.live ∧ ∀ x ≠ b / pageSize, s'.arenas x = s.arenas x) ∧
      HeapInv { s' with live := s'.live.erase b } := by
  rcases h.block.live_block b hl with ⟨a, d, i, ⟨n, ha⟩, hi, rfl⟩ | ⟨a, n, ha, rfl⟩
  · have hlt := h.used a d n ha
    have hinc : (n + 1) % wordSize = n + 1 := by
      have := blocksPerArena_lt d
      exact Nat.mod_eq_of_lt (by omega)
    have hbta := blockToArena_small (h.run.page_pos ha) ha hi
    obtain ⟨hr, hb⟩ := giveBlock h ha hi hl
    set s₁ := (s.setFree d (blockAddr a d i :: s.freeList d)).setArena a
      (some ⟨some d, n + 1⟩) with hs₁
    have hfree : s.free (some (blockAddr a d i)) =
        if (desc d).blocksPerArena ≤ n + 1 then
          if n + 1 = (desc d).blocksPerArena then
            (s₁.removeBlocks a d (range (desc d).blocksPerArena)).bind fun s => s.putPages a 1
          else .fault .overfull
        else .next s₁ := by
      simp only [free, hbta, bind_next, hinc, hs₁]
    rw [blockAddr_div hi, ha]
    by_cases hfull : n + 1 = (desc d).blocksPerArena
    · have ha₁ : s₁.arenas a = some ⟨some d, (desc d).blocksPerArena⟩ := by
        simp [hs₁, setArena, hfull]
      obtain ⟨s', hs', hlive, hputs, harenas, hr', hb'⟩ := release_spec hr hb ha₁
      refine ⟨s', _, ?_, rfl, ?_, ⟨hlive, fun x hx => ?_⟩, { hr' with }, ?_, ?_⟩
      · rw [hfree, if_pos hfull.ge, if_pos hfull]
        exact hs'
      · simp [FreeReturns, hfull, hputs, harenas, hs₁, setArena, setFree]
      · rw [harenas, update_of_ne hx]
        exact update_of_ne hx ..
      · rw [hlive]
        exact hb'
      · intro x e k hx
        simp only [harenas, update_apply, hs₁, setArena, setFree] at hx
        split at hx
        · cases hx
        · exact h.used x e k hx
    · have hnle : ¬ (desc d).blocksPerArena ≤ n + 1 := by omega
      refine ⟨s₁, _, ?_, rfl, ?_, ⟨rfl, fun x hx => update_of_ne hx ..⟩, { hr with }, hb, ?_⟩
      · rw [hfree, if_neg hnle]
      · simp [FreeReturns, hfull, hs₁, setArena, setFree]
      · intro x e k hx
        simp only [hs₁, setArena, setFree, update_apply] at hx
        split at hx
        · simp only [Option.some.injEq, Arena.mk.injEq] at hx
          obtain ⟨rfl, rfl⟩ := hx
          omega
        · exact h.used x e k hx
  · have hbta := blockToArena_big (h.run.page_pos ha) ha
    have hput : RunInv (s.dropPages a n) := h.run.put ha
    have hrun : (a, n) ∈ s.runs := (h.run.arena_iff a n).mpr ⟨_, ha, rfl⟩
    have hdrop : BlockInv
        { s.dropPages a n with live := s.live.erase (pageSize * a + arenaSize) } := by
      refine h.block.change h.block.free_nodup (h.block.live_nodup.erase _)
        (fun x hx => update_of_ne hx ..) (fun b _ e => Iff.rfl) (fun b hx => ?_)
        (pageInv_of_none (update_self ..) (fun e b hb hx => ?_) fun b hb hx => ?_)
      · refine mem_erase_of_ne ?_
        rintro rfl
        exact hx (bigBlock_div a)
      · obtain ⟨⟨k, hk⟩, -⟩ := (h.block.page a).free_block e b hb hx
        rw [ha] at hk
        cases hk
      -- the big block is the only one on its page
      · obtain ⟨hne, hb⟩ := h.block.live_nodup.mem_erase_iff.mp hb
        rcases (h.block.page a).live_block b hb hx with ⟨e, ⟨k, hk⟩, -⟩ | ⟨-, -, heq⟩
        · rw [ha] at hk
          cases hk
        · exact hne heq
    rw [bigBlock_div, ha]
    refine ⟨s.dropPages a n, _, ?_, rfl, ?_, ⟨rfl, fun x hx => update_of_ne hx ..⟩,
      { hput with }, hdrop, ?_⟩
    · simp only [free, hbta, bind_next, putPages, if_pos hrun]
    · simp [FreeReturns, dropPages]
    · intro x e k hx
      simp only [dropPages, update_apply] at hx
      split at hx
      · cases hx
      · exact h.used x e k hx

theorem heapMachine_preserves : heapMachine.Preserves Disciplined HeapInv := by
  intro s i h hok
  right
  cases i with
  | malloc size page =>
    obtain ⟨s', p, hs', -, -, hi⟩ := malloc_spec h hok
    exact ⟨_, by simp only [heapMachine, HeapState.step, hs', bind_next], hi⟩
  | free b =>
    obtain ⟨s', arena, hs', -, -, -, hi⟩ := free_spec h hok
    exact ⟨_, by simp only [heapMachine, HeapState.step, hs', bind_next], hi⟩

/-! ### Correctness -/

/-- **What the heap promises** in a state. -/
structure HeapCorrect (s : HeapState) : Prop where
  live_size : ∀ b ∈ s.live, ∃ n, s.blockSize b = .next n ∧ 0 < n
  live_apart : ∀ b ∈ s.live, ∀ c ∈ s.live, b ≠ c → ∀ m n, s.blockSize b = .next m →
    s.blockSize c = .next n → Apart (b, m) (c, n)
  live_header : ∀ b ∈ s.live, ∀ n, s.blockSize b = .next n →
    ∀ a arena, s.arenas a = some arena → Apart (b, n) (pageSize * a, arenaSize)
  live_owned : ∀ b ∈ s.live, ∀ n, s.blockSize b = .next n →
    ∃ r ∈ s.runs, pageSize * r.1 ≤ b ∧ b + n ≤ pageSize * (r.1 + r.2)
  live_nodup : s.live.Nodup
  free_iff : ∀ d b, b ∈ s.freeList d ↔
    (∃ a i, s.Small a d ∧ i < (desc d).blocksPerArena ∧ b = blockAddr a d i) ∧ b ∉ s.live
  free_nodup : ∀ d, (s.freeList d).Nodup
  /-- `free_cnt` is the number of blocks in the free list, and not all of them. -/
  free_cnt : ∀ a d n, s.arenas a = some ⟨some d, n⟩ → n = s.freeIn a d ∧ n < (desc d).blocksPerArena
  runs_apart : s.runs.Pairwise Apart
  returned_once : ∀ r, s.gets.count r = s.puts.count r + s.runs.count r
  returned_at_once : ∀ b ∈ s.live, ∀ s', s.step (.free b) = .next s' →
    ∃ arena, s.arenas (b / pageSize) = some arena ∧ FreeReturns s s' (b / pageSize) arena
  no_fault : ∀ i e, s.Disciplined i → s.step i ≠ .fault e

/-- There is a block of `n` bytes at `b`: a block of a descriptor, or a big block. -/
def HeapState.BlockAt (s : HeapState) (b n : ℕ) : Prop :=
  (∃ a d k i, s.arenas a = some ⟨some d, k⟩ ∧ i < (desc d).blocksPerArena ∧
    b = blockAddr a d i ∧ n = (desc d).blockSize) ∨
  ∃ a k, s.arenas a = some ⟨none, k⟩ ∧ 0 < k ∧ b = pageSize * a + arenaSize ∧
    n = pageSize * k - arenaSize

theorem HeapInv.live_blockAt (h : HeapInv s) (hl : b ∈ s.live) :
    ∃ n, s.blockSize b = .next n ∧ s.BlockAt b n := by
  rcases h.block.live_block b hl with ⟨a, d, i, ⟨n, ha⟩, hi, rfl⟩ | ⟨a, n, ha, rfl⟩
  · exact ⟨_, blockSize_small (h.run.page_pos ha) ha hi, .inl ⟨a, d, n, i, ha, hi, rfl, rfl⟩⟩
  · have hpos : 0 < n := (h.run.runs_pos _ ((h.run.arena_iff a _).mpr ⟨_, ha, rfl⟩)).2
    exact ⟨_, blockSize_big (h.run.page_pos ha) ha hpos (h.run.big_lt a n ha),
      .inr ⟨a, n, ha, hpos, rfl, rfl⟩⟩

theorem HeapInv.blockAt_of_size (h : HeapInv s) (hl : b ∈ s.live) (hn : s.blockSize b = .next n) :
    s.BlockAt b n := by
  obtain ⟨n', hn', hat⟩ := h.live_blockAt hl
  rw [hn', Outcome.next.injEq] at hn
  exact hn ▸ hat

theorem HeapState.BlockAt.place (h : s.BlockAt b n) :
    ∃ arena, s.arenas (b / pageSize) = some arena ∧ 0 < n ∧
      pageSize * (b / pageSize) + arenaSize ≤ b ∧
      b + n ≤ pageSize * (b / pageSize + arena.pages) := by
  rcases h with ⟨a, d, k, i, ha, hi, rfl, rfl⟩ | ⟨a, k, ha, hpos, rfl, rfl⟩
  · have hend := block_end_le hi
    rw [blockAddr_div hi]
    refine ⟨_, ha, (desc d).blockSize_pos, ?_, ?_⟩
    · rw [blockAddr]
      omega
    · simp only [Arena.pages, blockAddr, Nat.mul_add]
      omega
  · rw [bigBlock_div]
    refine ⟨_, ha, ?_, le_rfl, ?_⟩
    · simp only [pageSize, arenaSize]
      omega
    · simp only [Arena.pages, pageSize, arenaSize]
      omega

theorem RunInv.arenas_apart (h : RunInv s) {a' : ℕ} {arena' : Arena} (ha : s.arenas a = some arena)
    (ha' : s.arenas a' = some arena') (hne : a ≠ a') :
    Apart (pageSize * a, pageSize * arena.pages) (pageSize * a', pageSize * arena'.pages) := by
  have hap := h.runs_apart.forall ((h.arena_iff _ _).mpr ⟨arena, ha, rfl⟩)
    ((h.arena_iff _ _).mpr ⟨arena', ha', rfl⟩) fun heq => hne (congrArg Prod.fst heq)
  simp only [Apart, pageSize] at hap ⊢
  omega

theorem blocks_apart {j : ℕ} (hij : i ≠ j) :
    Apart (blockAddr a d i, (desc d).blockSize) (blockAddr a d j, (desc d).blockSize) := by
  have hmul : ∀ i j : ℕ, i < j →
      i * (desc d).blockSize + (desc d).blockSize ≤ j * (desc d).blockSize := by
    intro i j hlt
    have := Nat.mul_le_mul_right (desc d).blockSize hlt
    rwa [Nat.succ_mul] at this
  simp only [Apart, blockAddr]
  rcases Nat.lt_or_gt_of_ne hij with hlt | hlt
  · have := hmul i j hlt
    omega
  · have := hmul j i hlt
    omega

theorem RunInv.block_arena_apart (h : RunInv s) (hb : s.BlockAt b n) (ha : s.arenas a = some arena)
    (hne : b / pageSize ≠ a) : Apart (b, n) (pageSize * a, pageSize * arena.pages) := by
  obtain ⟨arena', ha', -, hlo, hhi⟩ := hb.place
  have hap := h.arenas_apart ha' ha hne
  simp only [Apart, Nat.mul_add] at hap hhi ⊢
  omega

theorem RunInv.blocks_apart (h : RunInv s) (hb : s.BlockAt b m) (hc : s.BlockAt c n) (hne : b ≠ c) :
    Apart (b, m) (c, n) := by
  by_cases hpage : b / pageSize = c / pageSize
  · rcases hb with ⟨a, d, k, i, ha, hi, rfl, rfl⟩ | ⟨a, k, ha, -, rfl, rfl⟩
    · rcases hc with ⟨a', e, l, j, ha', hj, rfl, rfl⟩ | ⟨a', l, ha', -, rfl, rfl⟩
      · rw [blockAddr_div hi, blockAddr_div hj] at hpage
        subst hpage
        simp only [ha, Option.some.injEq, Arena.mk.injEq] at ha'
        obtain ⟨rfl, -⟩ := ha'
        exact OsMaterial.blocks_apart fun hij => hne (by rw [hij])
      · rw [blockAddr_div hi, bigBlock_div] at hpage
        simp [hpage, ha'] at ha
    · rcases hc with ⟨a', e, l, j, ha', hj, rfl, rfl⟩ | ⟨a', l, ha', -, rfl, rfl⟩
      · rw [blockAddr_div hj, bigBlock_div] at hpage
        simp [hpage, ha'] at ha
      · rw [bigBlock_div, bigBlock_div] at hpage
        exact absurd (by rw [hpage]) hne
  · obtain ⟨arena, ha, -, hlo, hhi⟩ := hc.place
    have hap := h.block_arena_apart hb ha hpage
    simp only [Apart, Nat.mul_add] at hap hhi ⊢
    omega

theorem RunInv.block_header_apart (h : RunInv s) (hb : s.BlockAt b n)
    (ha : s.arenas a = some arena) : Apart (b, n) (pageSize * a, arenaSize) := by
  by_cases hpage : b / pageSize = a
  · obtain ⟨-, -, -, hlo, -⟩ := hb.place
    exact .inr (hpage ▸ hlo)
  · have hap := h.block_arena_apart hb ha hpage
    have hpos := (h.runs_pos _ ((h.arena_iff a _).mpr ⟨arena, ha, rfl⟩)).2
    simp only [Apart, pageSize, arenaSize] at hap hpos ⊢
    omega

theorem HeapInv.live_apart (h : HeapInv s) (hb : b ∈ s.live) (hc : c ∈ s.live) (hne : b ≠ c)
    (hm : s.blockSize b = .next m) (hn : s.blockSize c = .next n) : Apart (b, m) (c, n) :=
  h.run.blocks_apart (h.blockAt_of_size hb hm) (h.blockAt_of_size hc hn) hne

/-- **Heap correctness** over every sequence of calls of a disciplined client. -/
theorem heap_correct (s : HeapState)
    (h : heapMachine.ReachableUnder Disciplined s) : HeapCorrect s := by
  have hi := h.of_preserves heapMachine_preserves heapInv_start
  constructor
  case live_size =>
    intro b hb
    obtain ⟨n, hn, hat⟩ := hi.live_blockAt hb
    obtain ⟨-, -, hpos, -⟩ := hat.place
    exact ⟨n, hn, hpos⟩
  case live_apart => exact fun b hb c hc hne m n => hi.live_apart hb hc hne
  case live_header =>
    exact fun b hb n hn a arena => hi.run.block_header_apart (hi.blockAt_of_size hb hn)
  case live_owned =>
    intro b hb n hn
    obtain ⟨arena, ha, -, hlo, hhi⟩ := (hi.blockAt_of_size hb hn).place
    refine ⟨_, (hi.run.arena_iff _ _).mpr ⟨arena, ha, rfl⟩, ?_, hhi⟩
    exact Nat.le_of_add_right_le hlo
  case live_nodup => exact hi.block.live_nodup
  case free_iff =>
    intro d b
    constructor
    · intro hb
      obtain ⟨a, i, ha, hlt, rfl⟩ := hi.block.free_block d b hb
      exact ⟨⟨a, i, ha, hlt, rfl⟩, (hi.block.free_iff a d i ha hlt).mp hb⟩
    · rintro ⟨⟨a, i, ha, hlt, rfl⟩, hb⟩
      exact (hi.block.free_iff a d i ha hlt).mpr hb
  case free_nodup => exact hi.block.free_nodup
  case free_cnt => exact fun a d n ha => ⟨hi.block.cnt a d n ha, hi.used a d n ha⟩
  case runs_apart => exact hi.run.runs_apart
  case returned_once => exact hi.run.ledger
  case returned_at_once =>
    intro b hb s' hs'
    obtain ⟨s₁, arena, hs₁, ha, hret, -⟩ := free_spec hi hb
    simp only [HeapState.step, hs₁, bind_next, Outcome.next.injEq] at hs'
    exact ⟨arena, ha, hs' ▸ hret⟩
  case no_fault => exact fun i e hok => heapMachine_preserves.not_fault hi hok e

/-- **The block is large enough** exactly if `size + sizeof *a` does not wrap around. -/
theorem malloc_size_iff {s' : HeapState} {size : ℕ} {page : Option ℕ}
    (hr : heapMachine.ReachableUnder Disciplined s)
    (hok : s.Disciplined (.malloc size page)) (hs' : s.malloc size page = .next (s', some b)) :
    ∃ n, s'.blockSize b = .next n ∧ (size ≤ n ↔ size + arenaSize < wordSize) := by
  have hi := hr.of_preserves heapMachine_preserves heapInv_start
  obtain ⟨s₁, p, hs₁, hsize, -⟩ := malloc_spec hi hok
  rw [hs₁, Outcome.next.injEq, Prod.mk.injEq] at hs'
  obtain ⟨rfl, rfl⟩ := hs'
  exact (hsize b rfl).2

end Steps

instance HeapState.decidableDisciplined (s : HeapState) (i : HeapState.Call) :
    Decidable (s.Disciplined i) := by
  unfold HeapState.Disciplined
  split <;> infer_instance

def threeBlocks : List HeapState.Call :=
  [.malloc 1000 (some 5), .malloc 1000 none, .malloc 5000 (some 7), .free 20492, .free 28684]

/-- The calls of `threeBlocks` are disciplined; one block of page `5` is live, and its
arena has two free blocks. -/
theorem heap_correct_threeBlocks :
    ∃ s : HeapState, heapMachine.run heapMachine.start threeBlocks = .next s ∧
      s.live = [21516] ∧ s.puts = [(7, 2)] ∧
      (∃ n, s.blockSize 21516 = .next n ∧ 0 < n) := by
  refine ⟨_, rfl, rfl, rfl, ?_⟩
  have hok : heapMachine.GuardedRun Disciplined heapMachine.start threeBlocks := by decide
  have hr := Machine.ReachableUnder.start.of_run hok rfl
  exact (heap_correct _ hr).live_size 21516 (by decide)

/-- A request for 5000 bytes gets at least as many. -/
theorem malloc_size_iff_fresh :
    ∃ s', heapMachine.start.malloc 5000 (some 5) = .next (s', some 20492) ∧
      ∃ n, s'.blockSize 20492 = .next n ∧ 5000 ≤ n := by
  have hok : heapMachine.start.Disciplined (.malloc 5000 (some 5)) := by decide
  obtain ⟨n, hn, hiff⟩ := malloc_size_iff .start hok rfl
  exact ⟨_, rfl, n, hn, hiff.mpr (by decide)⟩

/-- **A request for `2 ^ 32 - 1` bytes** gets a block of 4084 bytes. -/
theorem malloc_size_wraps :
    Disciplined heapMachine.start (.malloc (2 ^ 32 - 1) (some 5)) ∧
      ∃ s', heapMachine.start.malloc (2 ^ 32 - 1) (some 5) = .next (s', some 20492) ∧
        s'.blockSize 20492 = .next 4084 ∧ ¬ 2 ^ 32 - 1 ≤ 4084 :=
  ⟨by decide, _, rfl, rfl, by decide⟩

end OsMaterial
