import Mathlib.Data.List.Nodup
import OsMaterial.Bitmap
import OsMaterial.Machine

/-!
# The Page Allocator

`threads/palloc.c`. `palloc_init` divides the memory above 1 MB into two pools, each behind the
bitmap of its used pages. `palloc_get_multiple` scans and sets bits with the lock of the pool held,
and `palloc_free_multiple` clears them **without the lock**. Activities interleave at the
granularity of single bits. The invariant names who has which bit (`PallocState.Has`): what a scan
has seen clear stays clear, because whoever sets bits needs the lock.

* `pallocInit_layout`: where the pools and the bitmaps lie.
* `palloc_safe`: live runs are disjoint and marked, in every interleaving.
-/

namespace OsMaterial

open List

inductive PallocPanic where
  | physAddr
  | notEnoughMemory
  | blockSize
  | bitmap (e : Panic)
  | lockNotHeld
  | outOfPages
  | pageOffset
  | notReached
  | notUsed
  deriving DecidableEq

/-! ### The pools -/

def pgSize : ℕ := 4096

def physBase : ℕ := 0xc0000000

def pgNo (va : ℕ) : ℕ := va / pgSize

def pgOfs (va : ℕ) : ℕ := va % pgSize

def ptov (paddr : ℕ) : Except PallocPanic ℕ :=
  if paddr < physBase then .ok ((paddr + physBase) % wordSize) else .error .physAddr

structure Pool where
  usedMap : Bitmap
  mapAddr : ℕ
  base : ℕ

def bitmapBufSize (bitCnt : ℕ) : ℕ := (8 + byteCnt bitCnt) % wordSize

def bitmapCreateInBuf (bitCnt : ℕ) (block : ℕ → BitVec 32) (blockSize : ℕ) :
    Except PallocPanic Bitmap :=
  if bitmapBufSize bitCnt ≤ blockSize then
    if h : bitCnt + 32 ≤ wordSize then
      (bitmapSetAll ⟨bitCnt, block, h⟩ false).mapError .bitmap
    else
      .error (.bitmap .elemIndex)
  else
    .error .blockSize

/-- `init_pool`. -/
def initPool (base pageCnt : ℕ) (block : ℕ → BitVec 32) : Except PallocPanic Pool := do
  let bmPages := (bitmapBufSize pageCnt + (pgSize - 1)) % wordSize / pgSize
  if bmPages > pageCnt then
    .error .notEnoughMemory
  else
    let usedMap ← bitmapCreateInBuf (pageCnt - bmPages) block (pgSize * bmPages % wordSize)
    return { usedMap, mapAddr := base, base := (base + pgSize * bmPages) % wordSize }

/-- `palloc_init`. -/
def pallocInit (initRamPages userPageLimit : ℕ) (memory : Bool → ℕ → BitVec 32) :
    Except PallocPanic (Bool → Pool) := do
  let freeStart ← ptov (1024 * 1024)
  let freeEnd ← ptov (pgSize * initRamPages % wordSize)
  let freePages := (((freeEnd : ℤ) - freeStart).tdiv pgSize % wordSize).toNat
  let userPages := freePages / 2
  let userPages := if userPages > userPageLimit then userPageLimit else userPages
  let kernelPages := freePages - userPages
  let kernelPool ← initPool freeStart kernelPages (memory false)
  let userPool ← initPool ((freeStart + pgSize * kernelPages) % wordSize) userPages (memory true)
  return fun user => if user then userPool else kernelPool

/-- `page_from_pool`. -/
def pageFromPool (pool : Pool) (page : ℕ) : Bool :=
  let pageNo := pgNo page
  let startPage := pgNo pool.base
  let endPage := (startPage + pool.usedMap.bitCnt) % wordSize
  startPage ≤ pageNo ∧ pageNo < endPage

/-! ### The layout -/

structure PoolAt (base pageCnt : ℕ) (pool : Pool) : Prop where
  mapAddr_eq : pool.mapAddr = base
  map_le : pool.mapAddr + bitmapBufSize pool.usedMap.bitCnt ≤ pool.base
  pages_le : pool.base + pgSize * pool.usedMap.bitCnt ≤ base + pgSize * pageCnt
  aligned : pgOfs pool.base = 0
  clear : ∀ i < pool.usedMap.bitCnt, pool.usedMap.bit i = false

theorem byteCnt_le {n : ℕ} (hn : n + 32 ≤ wordSize) : byteCnt n = 4 * ((n + 31) / 32) := by
  rw [byteCnt, elemCnt, Nat.mod_eq_of_lt (by omega)]

theorem initPool_at {base pageCnt : ℕ} {block : ℕ → BitVec 32} {pool : Pool}
    (hbase : pgOfs base = 0) (hcnt : pageCnt < 2 ^ 20) (hend : base + pgSize * pageCnt < wordSize)
    (h : initPool base pageCnt block = .ok pool) : PoolAt base pageCnt pool := by
  have hw : wordSize = 4294967296 := rfl
  have hp : pgSize = 4096 := rfl
  have hsize : ∀ n ≤ pageCnt, bitmapBufSize n = 8 + 4 * ((n + 31) / 32) := fun n hn => by
    rw [bitmapBufSize, byteCnt_le (by omega), Nat.mod_eq_of_lt (by omega)]
  rw [hp] at hend
  rw [initPool, hsize pageCnt le_rfl, hp, Nat.mod_eq_of_lt (by omega)] at h
  obtain ⟨bm, hbm⟩ : ∃ bm, (8 + 4 * ((pageCnt + 31) / 32) + (4096 - 1)) / 4096 = bm := ⟨_, rfl⟩
  simp only [hbm] at h
  split at h
  · cases h
  · next hle =>
    have hbuf := hsize (pageCnt - bm) (by omega)
    have hroom : bitmapBufSize (pageCnt - bm) ≤ 4096 * bm := by omega
    have hblock : 4096 * bm % wordSize = 4096 * bm := Nat.mod_eq_of_lt (by omega)
    have hstart : (base + 4096 * bm) % wordSize = base + 4096 * bm := Nat.mod_eq_of_lt (by omega)
    obtain ⟨b, hb, hcnt', hbits⟩ := bitmapSetMultiple_eq
      (show 0 + (pageCnt - bm) ≤ (⟨pageCnt - bm, block, by omega⟩ : Bitmap).bitCnt by simp) false
    have hcntb : b.bitCnt = pageCnt - bm := hcnt'
    have hb' : bitmapCreateInBuf (pageCnt - bm) block (4096 * bm % wordSize) = .ok b := by
      rw [hblock, bitmapCreateInBuf, if_pos hroom, dif_pos (by omega), bitmapSetAll, hb]
      rfl
    rw [hb', hstart] at h
    cases h
    refine ⟨rfl, ?_, ?_, ?_, fun i hi => ?_⟩
    · rw [hcntb]
      exact Nat.add_le_add_left hroom base
    · change base + 4096 * bm + pgSize * b.bitCnt ≤ base + pgSize * pageCnt
      rw [hcntb, hp]
      omega
    · change (base + 4096 * bm) % 4096 = 0
      rw [Nat.add_mul_mod_self_left]
      exact hbase
    · change i < b.bitCnt at hi
      rw [hbits, if_pos ⟨Nat.zero_le i, by omega⟩]

/-- The four regions of memory that `palloc_init` lays out, in order: each as its first address
and the one after its last. -/
def poolRegions (pools : Bool → Pool) : List (ℕ × ℕ) :=
  [false, true].flatMap fun user =>
    let pool := pools user
    [(pool.mapAddr, pool.mapAddr + bitmapBufSize pool.usedMap.bitCnt),
      (pool.base, pool.base + pgSize * pool.usedMap.bitCnt)]

structure Layout (initRamPages : ℕ) (pools : Bool → Pool) : Prop where
  apart : (poolRegions pools).Pairwise fun a b => a.2 ≤ b.1
  inside : ∀ r ∈ poolRegions pools,
    physBase + 1024 * 1024 ≤ r.1 ∧ r.2 ≤ physBase + pgSize * initRamPages
  aligned : ∀ user, pgOfs (pools user).base = 0
  clear : ∀ user, ∀ i < (pools user).usedMap.bitCnt, (pools user).usedMap.bit i = false

variable {cnt i j initRamPages userPageLimit : ℕ} {run : PageRun} {must v : Bool}
  {pools : Bool → Pool} {pc : PallocPc} {memory : Bool → ℕ → BitVec 32}

/-- **The layout of the pools**, for every size of the memory between 1 MB and 1 GB. -/
theorem pallocInit_layout (hmin : 1024 * 1024 < pgSize * initRamPages)
    (hmax : pgSize * initRamPages < 1024 * 1024 * 1024)
    (h : pallocInit initRamPages userPageLimit memory = .ok pools) : Layout initRamPages pools := by
  have hw : wordSize = 4294967296 := rfl
  have hp : pgSize = 4096 := rfl
  have hphys : physBase = 3221225472 := rfl
  rw [hp] at hmin hmax
  obtain ⟨n, rfl⟩ : ∃ n, initRamPages = 256 + n := ⟨initRamPages - 256, by omega⟩
  have hstart : ptov (1024 * 1024) = .ok (physBase + 1048576) := rfl
  have hend : ptov (pgSize * (256 + n) % wordSize) = .ok (physBase + 1048576 + 4096 * n) := by
    rw [ptov, hp, Nat.mod_eq_of_lt (show 4096 * (256 + n) < wordSize by omega),
      if_pos (by omega), Nat.mod_eq_of_lt (by omega)]
    congr 1
    omega
  have hpages : (((physBase + 1048576 + 4096 * n : ℕ) : ℤ) - (physBase + 1048576 : ℕ)).tdiv pgSize %
      wordSize = n := by
    rw [show ((physBase + 1048576 + 4096 * n : ℕ) : ℤ) - (physBase + 1048576 : ℕ) =
      (4096 * n : ℕ) by push_cast; ring, hp, Int.tdiv_eq_ediv_of_nonneg (by omega), hw]
    omega
  rw [pallocInit, hstart] at h
  simp only [bind, Except.bind, hend, hpages, Int.toNat_natCast] at h
  obtain ⟨u, hu⟩ : ∃ u, (if n / 2 > userPageLimit then userPageLimit else n / 2) = u := ⟨_, rfl⟩
  have hle : u ≤ n / 2 := by
    rw [← hu]
    split <;> omega
  rw [hu, hp, Nat.mod_eq_of_lt (by omega)] at h
  cases hkernel : initPool (physBase + 1048576) (n - u) (memory false) with
  | error e =>
    rw [hkernel] at h
    cases h
  | ok kernelPool =>
    cases huser : initPool (physBase + 1048576 + 4096 * (n - u)) u (memory true) with
    | error e =>
      rw [hkernel, huser] at h
      cases h
    | ok userPool =>
      rw [hkernel, huser] at h
      cases h
      have hk := initPool_at (by rw [pgOfs, hphys, hp]) (by omega) (by rw [hp]; omega) hkernel
      have hu := initPool_at (by rw [pgOfs, hphys, hp]; omega) (by omega) (by rw [hp]; omega) huser
      obtain ⟨hk₁, hk₂, hk₃, hkaligned, hkclear⟩ := hk
      obtain ⟨hu₁, hu₂, hu₃, hualigned, huclear⟩ := hu
      rw [hp] at hk₃ hu₃
      refine ⟨?_, ?_, fun user => ?_, fun user => ?_⟩
      · simp only [poolRegions, flatMap_cons, flatMap_nil, cons_append,
          nil_append, pairwise_cons, mem_cons, not_mem_nil, hp]
        simp
        omega
      · simp only [poolRegions, flatMap_cons, flatMap_nil, cons_append,
          nil_append, forall_mem_cons, hp]
        simp
        omega
      · cases user with
        | false => exact hkaligned
        | true => exact hualigned
      · cases user with
        | false => exact hkclear
        | true => exact huclear

/-! ### Calls, bit by bit -/

structure PageRun where
  user : Bool
  pages : ℕ
  cnt : ℕ
  deriving DecidableEq

inductive PallocPc where
  | outside
  | acquiring (user must : Bool) (cnt : ℕ)
  | scanning (user must : Bool) (cnt i j : ℕ)
  | flipping (user must : Bool) (cnt idx j : ℕ)
  | releasing (user must : Bool) (cnt : ℕ) (idx : Option ℕ)
  | checking (user : Bool) (cnt idx j : ℕ)
  | clearing (user : Bool) (cnt idx j : ℕ)
  deriving DecidableEq

structure PallocState (τ : Type*) where
  pools : Bool → Pool
  holder : Bool → Option τ
  pc : τ → PallocPc
  live : List PageRun

inductive PallocLabel (τ : Type*) where
  | get (t : τ) (user must : Bool) (cnt : ℕ)
  | free (t : τ) (run : PageRun)
  | step (t : τ)

namespace PallocState

variable {τ : Type*} [DecidableEq τ] (s : PallocState τ)

def goto (t : τ) (pc : PallocPc) : PallocState τ := { s with pc := Function.update s.pc t pc }

def setMap (user : Bool) (b : Bitmap) : PallocState τ :=
  { s with pools := Function.update s.pools user { s.pools user with usedMap := b } }

def setHolder (user : Bool) (t : Option τ) : PallocState τ :=
  { s with holder := Function.update s.holder user t }

def setLive (live : List PageRun) : PallocState τ := { s with live }

def inRange (user : Bool) (start cnt : ℕ) (next : PallocState τ) :
    Outcome PallocPanic (PallocState τ) :=
  if start ≤ (s.pools user).usedMap.bitCnt ∧
      (start + cnt) % wordSize ≤ (s.pools user).usedMap.bitCnt then
    .next next
  else
    .fault (.bitmap .bitRange)

def scanAt (t : τ) (user must : Bool) (cnt i : ℕ) : Outcome PallocPanic (PallocState τ) :=
  if i ≤ (s.pools user).usedMap.bitCnt - cnt then
    s.inRange user i cnt (s.goto t (.scanning user must cnt i 0))
  else
    .next (s.goto t (.releasing user must cnt none))

/-- `palloc_get_multiple`. -/
def pallocGetMultiple (t : τ) (user must : Bool) (cnt : ℕ) : PallocState τ :=
  if cnt = 0 then s else s.goto t (.acquiring user must cnt)

/-- `palloc_free_multiple`. -/
def pallocFreeMultiple (t : τ) (pages cnt : ℕ) : Outcome PallocPanic (PallocState τ) :=
  if pgOfs pages = 0 then
    if pages = 0 ∨ cnt = 0 then
      .next s
    else if pageFromPool (s.pools false) pages then
      let pageIdx := pgNo pages - pgNo (s.pools false).base
      s.inRange false pageIdx cnt (s.goto t (.checking false cnt pageIdx 0))
    else if pageFromPool (s.pools true) pages then
      let pageIdx := pgNo pages - pgNo (s.pools true).base
      s.inRange true pageIdx cnt (s.goto t (.checking true cnt pageIdx 0))
    else
      .fault .notReached
  else
    .fault .pageOffset

def test (user : Bool) (idx : ℕ) (next : Bool → Outcome PallocPanic (PallocState τ)) :
    Outcome PallocPanic (PallocState τ) :=
  match bitmapTest (s.pools user).usedMap (idx % wordSize) with
  | .ok v => next v
  | .error e => .fault (.bitmap e)

def set (t : τ) (user : Bool) (idx : ℕ) (value : Bool) (pc : PallocPc) :
    Outcome PallocPanic (PallocState τ) :=
  match bitmapSet (s.pools user).usedMap (idx % wordSize) value with
  | .ok b => .next ((s.setMap user b).goto t pc)
  | .error e => .fault (.bitmap e)

def exec (t : τ) : Outcome PallocPanic (PallocState τ) :=
  match s.pc t with
  | .outside => .blocked
  | .acquiring user must cnt =>
    match s.holder user with
    | some _ => .blocked
    | none =>
      let s := s.setHolder user (some t)
      if cnt ≤ (s.pools user).usedMap.bitCnt then
        s.scanAt t user must cnt 0
      else
        .next (s.goto t (.releasing user must cnt none))
  | .scanning user must cnt i j =>
    s.test user (i + j) fun v =>
      if v then
        s.scanAt t user must cnt (i + 1)
      else if j + 1 < cnt then
        .next (s.goto t (.scanning user must cnt i (j + 1)))
      else
        s.inRange user i cnt (s.goto t (.flipping user must cnt i 0))
  | .flipping user must cnt idx j =>
    s.set t user (idx + j) true
      (if j + 1 < cnt then .flipping user must cnt idx (j + 1)
        else .releasing user must cnt (some idx))
  | .releasing user must cnt idx =>
    if s.holder user = some t then
      let s := (s.setHolder user none).goto t .outside
      match idx with
      | some idx =>
        let pages := ((s.pools user).base + pgSize * idx) % wordSize
        .next (s.setLive (⟨user, pages, cnt⟩ :: s.live))
      | none => if must then .fault .outOfPages else .next s
    else
      .fault .lockNotHeld
  | .checking user cnt idx j =>
    s.test user (idx + j) fun v =>
      if v then
        if j + 1 < cnt then
          .next (s.goto t (.checking user cnt idx (j + 1)))
        else
          s.inRange user idx cnt (s.goto t (.clearing user cnt idx 0))
      else
        .fault .notUsed
  | .clearing user cnt idx j =>
    s.set t user (idx + j) false (if j + 1 < cnt then .clearing user cnt idx (j + 1) else .outside)

def step : PallocLabel τ → Outcome PallocPanic (PallocState τ)
  | .get t user must cnt =>
    if s.pc t = .outside then .next (s.pallocGetMultiple t user must cnt) else .blocked
  | .free t run =>
    if s.pc t = .outside ∧ run ∈ s.live then
      (s.setLive (s.live.erase run)).pallocFreeMultiple t run.pages run.cnt
    else
      .blocked
  | .step t => s.exec t

end PallocState

/-- **The page allocator as a machine**, after `palloc_init`. -/
def pallocMachine (τ : Type*) [DecidableEq τ] (pools : Bool → Pool) :
    Machine (PallocState τ) (PallocLabel τ) PallocPanic where
  start := ⟨pools, fun _ => none, fun _ => .outside, []⟩
  step := PallocState.step

/-! ### Who has a bit -/

/-- The activity has bit `k`: it has set the bit and not yet handed it out, or it is about to
clear it. -/
def PallocPc.Has (user : Bool) (k : ℕ) : PallocPc → Prop
  | flipping u _ _ idx j => u = user ∧ idx ≤ k ∧ k < idx + j
  | releasing u _ cnt (some idx) => u = user ∧ idx ≤ k ∧ k < idx + cnt
  | checking u cnt idx _ => u = user ∧ idx ≤ k ∧ k < idx + cnt
  | clearing u cnt idx j => u = user ∧ idx + j ≤ k ∧ k < idx + cnt
  | _ => False

def PallocPc.InLock (user : Bool) : PallocPc → Prop
  | scanning u .. => u = user
  | flipping u .. => u = user
  | releasing u .. => u = user
  | _ => False

def PageRun.idx (pools : Bool → Pool) (run : PageRun) : ℕ :=
  pgNo run.pages - pgNo (pools run.user).base

def PageRun.Has (pools : Bool → Pool) (user : Bool) (k : ℕ) (run : PageRun) : Prop :=
  run.user = user ∧ run.idx pools ≤ k ∧ k < run.idx pools + run.cnt

/-- **Who has bit `k`** of a pool: a live run, or an activity. -/
def PallocState.Has {τ : Type*} (s : PallocState τ) (user : Bool) (k : ℕ) : PageRun ⊕ τ → Prop
  | .inl run => run ∈ s.live ∧ run.Has s.pools user k
  | .inr t => (s.pc t).Has user k

def PallocPc.Sound (pools : Bool → Pool) : PallocPc → Prop
  | outside => True
  | acquiring _ _ cnt => 0 < cnt
  | scanning u _ cnt i j => j < cnt ∧ i + cnt ≤ (pools u).usedMap.bitCnt ∧
      ∀ k, i ≤ k → k < i + j → (pools u).usedMap.bit k = false
  | flipping u _ cnt idx j => j < cnt ∧ idx + cnt ≤ (pools u).usedMap.bitCnt ∧
      ∀ k, idx + j ≤ k → k < idx + cnt → (pools u).usedMap.bit k = false
  | releasing _ _ _ none => True
  | releasing u _ cnt (some idx) => 0 < cnt ∧ idx + cnt ≤ (pools u).usedMap.bitCnt
  | checking u cnt idx j => j < cnt ∧ idx + cnt ≤ (pools u).usedMap.bitCnt
  | clearing u cnt idx j => j < cnt ∧ idx + cnt ≤ (pools u).usedMap.bitCnt

structure PoolsOk (pools : Bool → Pool) : Prop where
  aligned : ∀ user, (pools user).base % 4096 = 0
  pos : ∀ user, 0 < (pools user).base
  fits : ∀ user, (pools user).base + 4096 * (pools user).usedMap.bitCnt < wordSize
  apart : (pools false).base + 4096 * (pools false).usedMap.bitCnt ≤ (pools true).base

theorem Layout.poolsOk (h : Layout initRamPages pools)
    (hmax : pgSize * initRamPages < 1024 * 1024 * 1024) : PoolsOk pools := by
  have hw : wordSize = 4294967296 := rfl
  have hphys : physBase = 3221225472 := rfl
  have hinside : ∀ user, physBase + 1024 * 1024 ≤ (pools user).base ∧
      (pools user).base + 4096 * (pools user).usedMap.bitCnt ≤
        physBase + pgSize * initRamPages := by
    intro user
    refine h.inside ((pools user).base, (pools user).base + 4096 * (pools user).usedMap.bitCnt) ?_
    cases user <;> simp [poolRegions, pgSize]
  have hapart := h.apart
  simp only [poolRegions, flatMap_cons, flatMap_nil, cons_append, nil_append,
    pairwise_cons, forall_mem_cons] at hapart
  have hmap := hapart.2.1.1
  refine ⟨h.aligned, fun user => ?_, fun user => ?_, ?_⟩
  · have := (hinside user).1
    omega
  · have := (hinside user).2
    omega
  · exact hmap.trans (by omega)

variable {user : Bool}

section

variable {idx : ℕ}

theorem pgNo_add (base idx : ℕ) : pgNo (base + pgSize * idx) = pgNo base + idx := by
  rw [pgNo, pgNo, pgSize, Nat.add_mul_div_left _ _ (by decide)]

theorem PoolsOk.pgOfs_eq (h : PoolsOk pools) : pgOfs ((pools user).base + pgSize * idx) = 0 := by
  rw [pgOfs, pgSize, Nat.add_mul_mod_self_left]
  exact h.aligned user

theorem PoolsOk.pageFromPool_eq (h : PoolsOk pools) (hidx : idx < (pools user).usedMap.bitCnt)
    (v : Bool) : pageFromPool (pools v) ((pools user).base + pgSize * idx) = decide (v = user) := by
  have hend : ∀ u, pgNo (pools u).base + (pools u).usedMap.bitCnt < wordSize := by
    intro u
    have := h.fits u
    rw [pgNo, pgSize]
    omega
  rw [pageFromPool, pgNo_add, Nat.mod_eq_of_lt (hend v), Bool.eq_iff_iff, decide_eq_true_iff,
    decide_eq_true_iff]
  have hapart := h.apart
  simp only [pgNo, pgSize]
  cases user <;> cases v <;> simp <;> omega

end

/-- **The invariant of the page allocator.** -/
structure PallocInv {τ : Type*} (pools : Bool → Pool) (s : PallocState τ) : Prop where
  ok : PoolsOk s.pools
  base_eq : ∀ user, (s.pools user).base = (pools user).base
  bitCnt_eq : ∀ user, (s.pools user).usedMap.bitCnt = (pools user).usedMap.bitCnt
  nodup : s.live.Nodup
  live : ∀ run ∈ s.live, 0 < run.cnt ∧
    run.pages = (s.pools run.user).base + pgSize * run.idx s.pools ∧
    run.idx s.pools + run.cnt ≤ (s.pools run.user).usedMap.bitCnt
  sound : ∀ t, (s.pc t).Sound s.pools
  lock : ∀ t user, (s.pc t).InLock user → s.holder user = some t
  marked : ∀ o user k, s.Has user k o → (s.pools user).usedMap.bit k = true
  /-- **No bit is had twice.** -/
  unique : ∀ o o' user k, s.Has user k o → s.Has user k o' → o = o'

namespace PallocInv

variable {τ : Type*} [DecidableEq τ] {s : PallocState τ} {t : τ}

theorem goto (h : PallocInv pools s) (hsound : pc.Sound s.pools)
    (hlock : ∀ user, pc.InLock user → s.holder user = some t)
    (hhas : ∀ user k, pc.Has user k → (s.pc t).Has user k) : PallocInv pools (s.goto t pc) := by
  have hold : ∀ o user k, (s.goto t pc).Has user k o → s.Has user k o := by
    rintro (run | u) user k ho
    · exact ho
    · by_cases hu : u = t
      · subst hu
        exact hhas user k (by simpa [PallocState.Has, PallocState.goto] using ho)
      · simpa [PallocState.Has, PallocState.goto, hu] using ho
  refine ⟨h.ok, h.base_eq, h.bitCnt_eq, h.nodup, h.live, fun u => ?_, fun u user hu => ?_,
    fun o user k ho => h.marked o user k (hold o user k ho),
    fun o o' user k ho ho' => h.unique o o' user k (hold o user k ho) (hold o' user k ho')⟩
  · by_cases hut : u = t
    · simpa [PallocState.goto, hut] using hsound
    · simpa [PallocState.goto, hut] using h.sound u
  · by_cases hut : u = t
    · subst hut
      exact hlock user (by simpa [PallocState.goto] using hu)
    · exact h.lock u user (by simpa [PallocState.goto, hut] using hu)

omit [DecidableEq τ] in
theorem setHolder {o : Option τ} (h : PallocInv pools s)
    (hlock : ∀ u, (s.pc u).InLock user → o = some u) : PallocInv pools (s.setHolder user o) := by
  refine ⟨h.ok, h.base_eq, h.bitCnt_eq, h.nodup, h.live, h.sound, fun u v hu => ?_, h.marked,
    h.unique⟩
  by_cases hv : v = user
  · subst hv
    simpa [PallocState.setHolder] using hlock u hu
  · simpa [PallocState.setHolder, hv] using h.lock u v hu

end PallocInv

theorem PallocPc.Sound.congr {pools' : Bool → Pool} (h : pc.Sound pools)
    (hcnt : ∀ u, (pools' u).usedMap.bitCnt = (pools u).usedMap.bitCnt)
    (hbits : ∀ u k, pc.InLock u → (pools u).usedMap.bit k = false →
      (pools' u).usedMap.bit k = false) : pc.Sound pools' := by
  cases pc with
  | outside => trivial
  | acquiring => exact h
  | scanning u must cnt i j =>
    obtain ⟨hj, hfits, hclear⟩ := h
    exact ⟨hj, (hcnt u).symm ▸ hfits, fun k h₁ h₂ => hbits u k rfl (hclear k h₁ h₂)⟩
  | flipping u must cnt idx j =>
    obtain ⟨hj, hfits, hclear⟩ := h
    exact ⟨hj, (hcnt u).symm ▸ hfits, fun k h₁ h₂ => hbits u k rfl (hclear k h₁ h₂)⟩
  | releasing u must cnt idx =>
    cases idx with
    | none => trivial
    | some idx => exact ⟨h.1, (hcnt u).symm ▸ h.2⟩
  | checking u cnt idx j => exact ⟨h.1, (hcnt u).symm ▸ h.2⟩
  | clearing u cnt idx j => exact ⟨h.1, (hcnt u).symm ▸ h.2⟩

open PallocState

section

variable {τ : Type*} {s : PallocState τ} {b : Bitmap}

theorem base_setMap (u : Bool) : ((s.setMap user b).pools u).base = (s.pools u).base := by
  by_cases hu : u = user <;> simp [setMap, hu]

theorem bitCnt_setMap (hcnt : b.bitCnt = (s.pools user).usedMap.bitCnt) (u : Bool) :
    ((s.setMap user b).pools u).usedMap.bitCnt = (s.pools u).usedMap.bitCnt := by
  by_cases hu : u = user <;> simp [setMap, hu, hcnt]

theorem bit_setMap (hbit : ∀ j, b.bit j = if j = i then v else (s.pools user).usedMap.bit j)
    (u : Bool) (k : ℕ) :
    ((s.setMap user b).pools u).usedMap.bit k =
      if u = user ∧ k = i then v else (s.pools u).usedMap.bit k := by
  by_cases hu : u = user
  · subst hu
    simp [setMap, hbit]
  · simp [setMap, hu]

theorem idx_setMap (run : PageRun) : run.idx (s.setMap user b).pools = run.idx s.pools := by
  rw [PageRun.idx, base_setMap, PageRun.idx]

end

namespace PallocInv

variable {τ : Type*} [DecidableEq τ] {s : PallocState τ} {t : τ}

theorem set {b : Bitmap} (h : PallocInv pools s) (hcnt : b.bitCnt = (s.pools user).usedMap.bitCnt)
    (hbit : ∀ j, b.bit j = if j = i then v else (s.pools user).usedMap.bit j)
    (hsound : pc.Sound (s.setMap user b).pools) (hlock : ∀ w, pc.InLock w → s.holder w = some t)
    (hset : v = true → s.holder user = some t ∧ (s.pools user).usedMap.bit i = false)
    (hclear : v = false → (s.pc t).Has user i ∧ ¬ pc.Has user i)
    (hhas : ∀ w k, pc.Has w k → (s.pc t).Has w k ∨ v = true ∧ w = user ∧ k = i) :
    PallocInv pools ((s.setMap user b).goto t pc) := by
  have hbits := bit_setMap hbit
  -- who has a bit had it before, or it is the activity and the bit was just set
  have hold : ∀ o w k, ((s.setMap user b).goto t pc).Has w k o →
      s.Has w k o ∨ o = .inr t ∧ v = true ∧ w = user ∧ k = i := by
    rintro (run | u) w k ho
    · refine .inl ⟨ho.1, ho.2.1, ?_⟩
      have := ho.2.2
      rwa [show ((s.setMap user b).goto t pc).pools = (s.setMap user b).pools from rfl,
        idx_setMap] at this
    · by_cases hu : u = t
      · subst hu
        have hpc : pc.Has w k := by simpa [PallocState.Has, PallocState.goto] using ho
        exact (hhas w k hpc).imp id fun hnew => ⟨rfl, hnew⟩
      · left
        simpa [PallocState.Has, PallocState.goto, setMap, hu] using ho
  -- nobody else has the bit
  have hbit' : ∀ o, s.Has user i o → v = false ∧ o = .inr t := by
    intro o ho
    cases v with
    | true =>
      have hmarked := h.marked o user i ho
      rw [(hset rfl).2] at hmarked
      cases hmarked
    | false => exact ⟨rfl, h.unique o (.inr t) user i ho (hclear rfl).1⟩
  refine ⟨⟨fun u => ?_, fun u => ?_, fun u => ?_, ?_⟩, fun u => ?_, fun u => ?_, h.nodup,
    fun run hrun => ?_, fun u => ?_, fun u w hu => ?_, fun o w k ho => ?_,
    fun o o' w k ho ho' => ?_⟩
  · exact (base_setMap u).symm ▸ h.ok.aligned u
  · exact (base_setMap u).symm ▸ h.ok.pos u
  · change ((s.setMap user b).pools u).base + 4096 * ((s.setMap user b).pools u).usedMap.bitCnt < _
    rw [base_setMap, bitCnt_setMap hcnt]
    exact h.ok.fits u
  · change ((s.setMap user b).pools false).base +
      4096 * ((s.setMap user b).pools false).usedMap.bitCnt ≤ ((s.setMap user b).pools true).base
    rw [base_setMap, base_setMap, bitCnt_setMap hcnt]
    exact h.ok.apart
  · exact (base_setMap u).trans (h.base_eq u)
  · exact (bitCnt_setMap hcnt u).trans (h.bitCnt_eq u)
  · change 0 < run.cnt ∧ run.pages = ((s.setMap user b).pools run.user).base +
      pgSize * run.idx (s.setMap user b).pools ∧ run.idx (s.setMap user b).pools + run.cnt ≤
        ((s.setMap user b).pools run.user).usedMap.bitCnt
    rw [base_setMap, bitCnt_setMap hcnt, idx_setMap]
    exact h.live run hrun
  · by_cases hu : u = t
    · simpa [PallocState.goto, hu] using hsound
    · have hpc : ((s.setMap user b).goto t pc).pc u = s.pc u := by
        simp [PallocState.goto, setMap, hu]
      rw [hpc]
      refine (h.sound u).congr (bitCnt_setMap hcnt) fun w k hw hk => ?_
      change ((s.setMap user b).pools w).usedMap.bit k = false
      rw [hbits]
      split
      · next heq =>
        obtain ⟨rfl, rfl⟩ := heq
        cases v with
        | false => rfl
        | true => exact absurd (Option.some.inj ((h.lock u w hw).symm.trans (hset rfl).1)) hu
      · exact hk
  · by_cases hut : u = t
    · subst hut
      exact hlock w (by simpa [PallocState.goto] using hu)
    · exact h.lock u w (by simpa [PallocState.goto, setMap, hut] using hu)
  · change ((s.setMap user b).pools w).usedMap.bit k = true
    rw [hbits]
    rcases hold o w k ho with hso | ⟨-, rfl, rfl, rfl⟩
    · split
      · next heq =>
        obtain ⟨rfl, rfl⟩ := heq
        obtain ⟨hv, rfl⟩ := hbit' o hso
        refine absurd ?_ (hclear hv).2
        simpa [PallocState.Has, PallocState.goto] using ho
      · exact h.marked o w k hso
    · rw [if_pos ⟨rfl, rfl⟩]
  · rcases hold o w k ho with hso | ⟨rfl, rfl, rfl, rfl⟩
    · rcases hold o' w k ho' with hso' | ⟨rfl, rfl, rfl, rfl⟩
      · exact h.unique o o' w k hso hso'
      · exact (hbit' o hso).2
    · rcases hold o' w k ho' with hso' | ⟨rfl, -⟩
      · exact (hbit' o' hso').2.symm
      · rfl

theorem handOut (h : PallocInv pools s) (hcnt : 0 < run.cnt)
    (hpages : run.pages = (s.pools run.user).base + pgSize * run.idx s.pools)
    (hfits : run.idx s.pools + run.cnt ≤ (s.pools run.user).usedMap.bitCnt)
    (hhas : ∀ user k, run.Has s.pools user k → (s.pc t).Has user k) :
    PallocInv pools ((s.goto t .outside).setLive (run :: s.live)) := by
  have hfirst : run.Has s.pools run.user (run.idx s.pools) := ⟨rfl, le_rfl, by omega⟩
  have hnew : run ∉ s.live := fun hmem => by
    have := h.unique (.inl run) (.inr t) _ _ ⟨hmem, hfirst⟩ (hhas _ _ hfirst)
    cases this
  -- the run has what the activity had, and the activity has nothing any more
  have hold : ∀ o user k, ((s.goto t .outside).setLive (run :: s.live)).Has user k o →
      o = .inl run ∧ s.Has user k (.inr t) ∨ o ≠ .inl run ∧ o ≠ .inr t ∧ s.Has user k o := by
    rintro (run' | u) user k ho
    · rcases mem_cons.mp ho.1 with rfl | hmem
      · exact .inl ⟨rfl, hhas user k ho.2⟩
      · exact .inr ⟨fun heq => hnew (Sum.inl.inj heq ▸ hmem), by simp, hmem, ho.2⟩
    · by_cases hu : u = t
      · subst hu
        simp [PallocState.Has, setLive, PallocState.goto, PallocPc.Has] at ho
      · refine .inr ⟨by simp, by simpa using hu, ?_⟩
        simpa [PallocState.Has, setLive, PallocState.goto, hu] using ho
  refine ⟨h.ok, h.base_eq, h.bitCnt_eq, nodup_cons.mpr ⟨hnew, h.nodup⟩, fun r hr => ?_,
    fun u => ?_, fun u user hu => ?_, fun o user k ho => ?_, fun o o' user k ho ho' => ?_⟩
  · rcases mem_cons.mp hr with rfl | hr
    · exact ⟨hcnt, hpages, hfits⟩
    · exact h.live r hr
  · by_cases hu : u = t
    · simp [setLive, PallocState.goto, hu, PallocPc.Sound]
    · simpa [setLive, PallocState.goto, hu] using h.sound u
  · by_cases hut : u = t
    · simp [setLive, PallocState.goto, hut, PallocPc.InLock] at hu
    · exact h.lock u user (by simpa [setLive, PallocState.goto, hut] using hu)
  · rcases hold o user k ho with ⟨-, hs⟩ | ⟨-, -, hs⟩
    · exact h.marked _ user k hs
    · exact h.marked o user k hs
  · rcases hold o user k ho with ⟨rfl, hs⟩ | ⟨-, hne, hs⟩ <;>
      rcases hold o' user k ho' with ⟨rfl, hs'⟩ | ⟨-, hne', hs'⟩
    · rfl
    · exact absurd (h.unique _ _ user k hs' hs) hne'
    · exact absurd (h.unique _ _ user k hs hs') hne
    · exact h.unique o o' user k hs hs'

theorem takeBack (h : PallocInv pools s) (hmem : run ∈ s.live) (hout : s.pc t = .outside) :
    PallocInv pools ((s.setLive (s.live.erase run)).goto t
      (.checking run.user run.cnt (run.idx s.pools) 0)) := by
  obtain ⟨hcnt, -, hfits⟩ := h.live run hmem
  have hold : ∀ o user k, ((s.setLive (s.live.erase run)).goto t
      (.checking run.user run.cnt (run.idx s.pools) 0)).Has user k o →
      o = .inr t ∧ s.Has user k (.inl run) ∨ o ≠ .inl run ∧ s.Has user k o := by
    rintro (run' | u) user k ho
    · have hmem' : run' ∈ s.live.erase run := ho.1
      refine .inr ⟨?_, mem_of_mem_erase hmem', ho.2⟩
      rintro heq
      cases heq
      exact h.nodup.not_mem_erase hmem'
    · by_cases hu : u = t
      · subst hu
        refine .inl ⟨rfl, hmem, ?_⟩
        simpa [PallocState.Has, PallocState.goto, PallocPc.Has, PageRun.Has] using ho
      · refine .inr ⟨by simp, ?_⟩
        simpa [PallocState.Has, setLive, PallocState.goto, hu] using ho
  refine ⟨h.ok, h.base_eq, h.bitCnt_eq, h.nodup.erase run,
    fun r hr => h.live r (mem_of_mem_erase hr), fun u => ?_, fun u user hu => ?_,
    fun o user k ho => ?_, fun o o' user k ho ho' => ?_⟩
  · by_cases hu : u = t
    · simpa [setLive, PallocState.goto, hu, PallocPc.Sound] using ⟨hcnt, hfits⟩
    · simpa [setLive, PallocState.goto, hu] using h.sound u
  · by_cases hut : u = t
    · simp [PallocState.goto, hut, PallocPc.InLock] at hu
    · exact h.lock u user (by simpa [setLive, PallocState.goto, hut] using hu)
  · rcases hold o user k ho with ⟨-, hs⟩ | ⟨-, hs⟩
    · exact h.marked _ user k hs
    · exact h.marked o user k hs
  · rcases hold o user k ho with ⟨rfl, hs⟩ | ⟨hne, hs⟩ <;>
      rcases hold o' user k ho' with ⟨rfl, hs'⟩ | ⟨hne', hs'⟩
    · rfl
    · exact absurd (h.unique _ _ user k hs' hs) hne'
    · exact absurd (h.unique _ _ user k hs hs') hne
    · exact h.unique o o' user k hs hs'

/-! ### Steps -/

omit [DecidableEq τ] in
theorem inRange_eq {start : ℕ} (hle : start + cnt ≤ (s.pools user).usedMap.bitCnt)
    (next : PallocState τ) : s.inRange user start cnt next = .next next := by
  rw [inRange, if_pos]
  refine ⟨by omega, ?_⟩
  rwa [(s.pools user).usedMap.mod_eq hle]

omit [DecidableEq τ] in
theorem test_eq {idx : ℕ} (hlt : idx < (s.pools user).usedMap.bitCnt)
    (next : Bool → Outcome PallocPanic (PallocState τ)) :
    s.test user idx next = next ((s.pools user).usedMap.bit idx) := by
  rw [test, (s.pools user).usedMap.mod_eq hlt.le, bitmapTest_eq hlt]

theorem set_eq {idx : ℕ} (hlt : idx < (s.pools user).usedMap.bitCnt) (v : Bool) (pc : PallocPc) :
    ∃ b, s.set t user idx v pc = .next ((s.setMap user b).goto t pc) ∧
      b.bitCnt = (s.pools user).usedMap.bitCnt ∧
      ∀ j, b.bit j = if j = idx then v else (s.pools user).usedMap.bit j := by
  obtain ⟨b, hset, hcnt, hbit⟩ := bitmapSet_eq hlt v
  refine ⟨b, ?_, hcnt, hbit⟩
  rw [PallocState.set, (s.pools user).usedMap.mod_eq hlt.le, hset]

section

variable (h : PallocInv pools s)

include h

theorem scanAt (hlock : s.holder user = some t) (hcnt : 0 < cnt)
    (hfits : cnt ≤ (s.pools user).usedMap.bitCnt) :
    ∃ s', s.scanAt t user must cnt i = .next s' ∧ PallocInv pools s' := by
  rw [PallocState.scanAt]
  have hheld : ∀ v, user = v → s.holder v = some t := by
    rintro v rfl
    exact hlock
  split
  · next hi =>
    rw [inRange_eq (by omega)]
    refine ⟨_, rfl, h.goto ⟨hcnt, by omega, fun k h₁ h₂ => by omega⟩ hheld ?_⟩
    intro v k hk
    exact hk.elim
  · exact ⟨_, rfl, h.goto trivial hheld fun v k hk => hk.elim⟩

theorem exec_acquiring (hpc : s.pc t = .acquiring user must cnt) :
    s.exec t = .blocked ∨ ∃ s', s.exec t = .next s' ∧ PallocInv pools s' := by
  have hcnt : PallocPc.Sound s.pools (.acquiring user must cnt) := hpc ▸ h.sound t
  cases hholder : s.holder user with
  | some u =>
    left
    simp only [exec, hpc, hholder]
  | none =>
    right
    have hinv : PallocInv pools (s.setHolder user (some t)) := by
      refine h.setHolder fun u hu => ?_
      have := h.lock u user hu
      rw [hholder] at this
      cases this
    have hlock : (s.setHolder user (some t)).holder user = some t := by simp [PallocState.setHolder]
    simp only [exec, hpc, hholder]
    split
    · next hfits => exact hinv.scanAt hlock hcnt hfits
    · refine ⟨_, rfl, hinv.goto trivial ?_ fun v k hk => hk.elim⟩
      rintro v rfl
      exact hlock

theorem exec_scanning (hpc : s.pc t = .scanning user must cnt i j) :
    ∃ s', s.exec t = .next s' ∧ PallocInv pools s' := by
  obtain ⟨hj, hfits, hclear⟩ : PallocPc.Sound s.pools (.scanning user must cnt i j) :=
    hpc ▸ h.sound t
  have hlock : s.holder user = some t := h.lock t user (by rw [hpc]; rfl)
  have hheld : ∀ v, user = v → s.holder v = some t := by
    rintro v rfl
    exact hlock
  simp only [exec, hpc]
  rw [test_eq (by omega)]
  cases hbit : (s.pools user).usedMap.bit (i + j) with
  | true => exact h.scanAt hlock (by omega) (by omega)
  | false =>
    rw [if_neg Bool.false_ne_true]
    have hseen : ∀ k, i ≤ k → k < i + (j + 1) → (s.pools user).usedMap.bit k = false := by
      intro k h₁ h₂
      rcases Nat.lt_or_ge k (i + j) with hlt | hge
      · exact hclear k h₁ hlt
      · obtain rfl : k = i + j := by omega
        exact hbit
    split
    · next hlt => exact ⟨_, rfl, h.goto ⟨hlt, hfits, hseen⟩ hheld fun v k hk => hk.elim⟩
    · rw [inRange_eq hfits]
      refine ⟨_, rfl, h.goto ⟨by omega, hfits, fun k h₁ h₂ => hseen k (by omega) (by omega)⟩
        hheld ?_⟩
      rintro v k ⟨-, h₁, h₂⟩
      omega

theorem exec_flipping {idx : ℕ} (hpc : s.pc t = .flipping user must cnt idx j) :
    ∃ s', s.exec t = .next s' ∧ PallocInv pools s' := by
  obtain ⟨hj, hfits, hclear⟩ : PallocPc.Sound s.pools (.flipping user must cnt idx j) :=
    hpc ▸ h.sound t
  have hlock : s.holder user = some t := h.lock t user (by rw [hpc]; rfl)
  simp only [exec, hpc]
  obtain ⟨b, hset, hcnt, hbit⟩ := set_eq
    (show idx + j < (s.pools user).usedMap.bitCnt by omega) true
    (if j + 1 < cnt then .flipping user must cnt idx (j + 1)
      else .releasing user must cnt (some idx))
  refine ⟨_, hset, h.set hcnt hbit ?_ ?_ (fun _ => ⟨hlock, hclear _ (by omega) (by omega)⟩)
    nofun ?_⟩
  · split
    · next hlt =>
      refine ⟨hlt, (bitCnt_setMap hcnt user).symm ▸ hfits, fun k h₁ h₂ => ?_⟩
      rw [bit_setMap hbit, if_neg (by omega)]
      exact hclear k (by omega) h₂
    · exact ⟨by omega, (bitCnt_setMap hcnt user).symm ▸ hfits⟩
  · intro w hw
    have hw' : user = w := by split at hw <;> exact hw
    exact hw' ▸ hlock
  · intro w k hk
    rw [hpc]
    have hk' : user = w ∧ idx ≤ k ∧ k < idx + (j + 1) := by
      split at hk
      · exact hk
      · obtain ⟨h₁, h₂, h₃⟩ := hk
        exact ⟨h₁, h₂, by omega⟩
    obtain ⟨rfl, h₂, h₃⟩ := hk'
    rcases Nat.lt_or_ge k (idx + j) with hlt | hge
    · exact .inl ⟨rfl, h₂, hlt⟩
    · exact .inr ⟨rfl, rfl, by omega⟩

theorem exec_releasing {idx : Option ℕ} (hpc : s.pc t = .releasing user must cnt idx) :
    s.exec t = .fault .outOfPages ∨ ∃ s', s.exec t = .next s' ∧ PallocInv pools s' := by
  have hlock : s.holder user = some t := h.lock t user (by rw [hpc]; rfl)
  have hsound : PallocPc.Sound s.pools (.releasing user must cnt idx) := hpc ▸ h.sound t
  -- the lock is given up after the activity has left the critical section
  have hrelease : ∀ {s₁ : PallocState τ}, PallocInv pools s₁ → s₁.holder = s.holder →
      (∀ u, s₁.pc u = (s.goto t .outside).pc u) → PallocInv pools (s₁.setHolder user none) := by
    intro s₁ h₁ hholder hpcs
    refine h₁.setHolder fun u hu => ?_
    have hu' := h₁.lock u user hu
    rw [hholder, hlock] at hu'
    obtain rfl := Option.some.inj hu'
    rw [hpcs] at hu
    simp [PallocState.goto, PallocPc.InLock] at hu
  simp only [exec, hpc, if_pos hlock]
  cases idx with
  | none =>
    cases must with
    | true => exact .inl rfl
    | false =>
      have hout : PallocInv pools (s.goto t .outside) :=
        h.goto trivial (fun v hv => hv.elim) fun v k hk => hk.elim
      exact .inr ⟨_, rfl, hrelease hout rfl fun _ => rfl⟩
  | some idx =>
    obtain ⟨hcnt, hfits⟩ := hsound
    have hsize := h.ok.fits user
    have haddr : ((s.pools user).base + pgSize * idx) % wordSize =
        (s.pools user).base + pgSize * idx := by
      refine Nat.mod_eq_of_lt ?_
      rw [pgSize]
      omega
    have hidx : PageRun.idx s.pools ⟨user, (s.pools user).base + pgSize * idx, cnt⟩ = idx := by
      rw [PageRun.idx, pgNo_add]
      exact Nat.add_sub_cancel_left _ _
    refine .inr ⟨_, rfl, ?_⟩
    change PallocInv pools (((s.goto t .outside).setLive
      (⟨user, ((s.pools user).base + pgSize * idx) % wordSize, cnt⟩ :: s.live)).setHolder user none)
    rw [haddr]
    refine hrelease (h.handOut hcnt (by rw [hidx]) (by rw [hidx]; exact hfits) ?_) rfl fun _ => rfl
    rintro v k ⟨hv, h₁, h₂⟩
    rw [hidx] at h₁ h₂
    rw [hpc]
    exact ⟨hv, h₁, h₂⟩

theorem exec_checking {idx : ℕ} (hpc : s.pc t = .checking user cnt idx j) :
    ∃ s', s.exec t = .next s' ∧ PallocInv pools s' := by
  obtain ⟨hj, hfits⟩ : PallocPc.Sound s.pools (.checking user cnt idx j) := hpc ▸ h.sound t
  have hbit : (s.pools user).usedMap.bit (idx + j) = true := by
    refine h.marked (.inr t) user _ ?_
    change PallocPc.Has user (idx + j) (s.pc t)
    rw [hpc]
    exact ⟨rfl, by omega, by omega⟩
  simp only [exec, hpc]
  rw [test_eq (by omega), hbit, if_pos rfl]
  split
  · next hlt =>
    exact ⟨_, rfl, h.goto ⟨hlt, hfits⟩ (fun v hv => hv.elim) fun v k hk => by rw [hpc]; exact hk⟩
  · rw [inRange_eq hfits]
    exact ⟨_, rfl, h.goto ⟨by omega, hfits⟩ (fun v hv => hv.elim) fun v k hk => by
      rw [hpc]
      exact hk⟩

theorem exec_clearing {idx : ℕ} (hpc : s.pc t = .clearing user cnt idx j) :
    ∃ s', s.exec t = .next s' ∧ PallocInv pools s' := by
  obtain ⟨hj, hfits⟩ : PallocPc.Sound s.pools (.clearing user cnt idx j) := hpc ▸ h.sound t
  simp only [exec, hpc]
  obtain ⟨b, hset, hcnt, hbit⟩ := set_eq
    (show idx + j < (s.pools user).usedMap.bitCnt by omega) false
    (if j + 1 < cnt then .clearing user cnt idx (j + 1) else .outside)
  -- what is left to clear
  have hleft : ∀ w k, PallocPc.Has w k
      (if j + 1 < cnt then .clearing user cnt idx (j + 1) else .outside) →
      user = w ∧ idx + (j + 1) ≤ k ∧ k < idx + cnt := by
    intro w k hk
    split at hk
    · exact hk
    · exact hk.elim
  refine ⟨_, hset, h.set hcnt hbit ?_ ?_ nofun (fun _ => ⟨?_, ?_⟩) ?_⟩
  · split
    · next hlt => exact ⟨hlt, (bitCnt_setMap hcnt user).symm ▸ hfits⟩
    · trivial
  · intro w hw
    split at hw <;> exact hw.elim
  · rw [hpc]
    exact ⟨rfl, by omega, by omega⟩
  · intro hk
    have := (hleft _ _ hk).2.1
    omega
  · intro w k hk
    obtain ⟨h₁, h₂, h₃⟩ := hleft w k hk
    rw [hpc]
    exact .inl ⟨h₁, by omega, h₃⟩

theorem free (hmem : run ∈ s.live) (hout : s.pc t = .outside) :
    ∃ s', (s.setLive (s.live.erase run)).pallocFreeMultiple t run.pages run.cnt = .next s' ∧
      PallocInv pools s' := by
  obtain ⟨hcnt, hpages, hfits⟩ := h.live run hmem
  have hpos := h.ok.pos run.user
  have hpool : ∀ v, pageFromPool (s.pools v) run.pages = decide (v = run.user) := fun v => by
    rw [hpages]
    exact h.ok.pageFromPool_eq (by omega) v
  have hofs : pgOfs run.pages = 0 := by
    rw [hpages]
    exact h.ok.pgOfs_eq
  have hne : ¬ (run.pages = 0 ∨ run.cnt = 0) := by omega
  refine ⟨_, ?_, h.takeBack hmem hout⟩
  rw [pallocFreeMultiple, if_pos hofs, if_neg hne]
  change (if pageFromPool (s.pools false) run.pages = true then _
    else if pageFromPool (s.pools true) run.pages = true then _ else _) = _
  rw [hpool, hpool]
  have hidx : pgNo run.pages - pgNo (s.pools run.user).base = run.idx s.pools := rfl
  cases huser : run.user with
  | false =>
    rw [huser] at hidx hfits
    exact hidx ▸ inRange_eq hfits _
  | true =>
    rw [huser] at hidx hfits
    exact hidx ▸ inRange_eq hfits _

theorem step (label : PallocLabel τ) :
    s.step label = .blocked ∨ s.step label = .fault .outOfPages ∨
      ∃ s', s.step label = .next s' ∧ PallocInv pools s' := by
  cases label with
  | get t user must cnt =>
    rw [PallocState.step]
    split
    · next hout =>
      refine .inr (.inr ⟨_, rfl, ?_⟩)
      rw [pallocGetMultiple]
      split
      · exact h
      · next hne =>
        exact h.goto (Nat.pos_of_ne_zero hne) (fun v hv => hv.elim) fun v k hk => hk.elim
    · exact .inl rfl
  | free t run =>
    rw [PallocState.step]
    split
    · next hfree => exact .inr (.inr (h.free hfree.2 hfree.1))
    · exact .inl rfl
  | step t =>
    change s.exec t = .blocked ∨ s.exec t = .fault .outOfPages ∨ _
    cases hpc : s.pc t with
    | outside =>
      left
      simp only [exec, hpc]
    | acquiring => exact (h.exec_acquiring hpc).imp_right .inr
    | scanning => exact .inr (.inr (h.exec_scanning hpc))
    | flipping => exact .inr (.inr (h.exec_flipping hpc))
    | releasing => exact .inr (h.exec_releasing hpc)
    | checking => exact .inr (.inr (h.exec_checking hpc))
    | clearing => exact .inr (.inr (h.exec_clearing hpc))

end

end PallocInv

/-! ### Safety -/

section

variable {τ : Type*} [DecidableEq τ] {s : PallocState τ}

theorem pallocInv_start (hok : PoolsOk pools) : PallocInv pools (pallocMachine τ pools).start where
  ok := hok
  base_eq := fun _ => rfl
  bitCnt_eq := fun _ => rfl
  nodup := nodup_nil
  live := fun _ h => absurd h not_mem_nil
  sound := fun _ => trivial
  lock := fun _ _ h => h.elim
  marked := fun o _ _ h => by
    cases o with
    | inl run => exact absurd h.1 not_mem_nil
    | inr t => exact h.elim
  unique := fun o _ _ _ h => by
    cases o with
    | inl run => exact absurd h.1 not_mem_nil
    | inr t => exact h.elim

theorem pallocInv_of_reachable (hok : PoolsOk pools) (hs : (pallocMachine τ pools).Reachable s) :
    PallocInv pools s := by
  refine hs.invariant (pallocInv_start hok) fun s s' label _ h _ hstep => ?_
  change s.step label = _ at hstep
  rcases h.step label with heq | heq | ⟨s'', heq, h'⟩
  · rw [heq] at hstep
    cases hstep
  · rw [heq] at hstep
    cases hstep
  · rw [heq] at hstep
    cases hstep
    exact h'

omit [DecidableEq τ] in
theorem PallocInv.page_eq (h : PallocInv pools s) (hrun : run ∈ s.live) (i : ℕ) :
    run.pages + pgSize * i = (s.pools run.user).base + pgSize * (run.idx s.pools + i) := by
  rw [(h.live run hrun).2.1, Nat.mul_add, Nat.add_assoc]

omit [DecidableEq τ] in
theorem PallocInv.live_apart {run' : PageRun} (h : PallocInv pools s) (hrun : run ∈ s.live)
    (hrun' : run' ∈ s.live) (hne : run ≠ run') :
    run.pages + pgSize * run.cnt ≤ run'.pages ∨ run'.pages + pgSize * run'.cnt ≤ run.pages := by
  obtain ⟨hcnt, hpages, hfits⟩ := h.live run hrun
  obtain ⟨hcnt', hpages', hfits'⟩ := h.live run' hrun'
  have hapart := h.ok.apart
  by_cases huser : run.user = run'.user
  · -- in one pool, a common page would be a bit that both have
    have hbits : run.idx s.pools + run.cnt ≤ run'.idx s.pools ∨
        run'.idx s.pools + run'.cnt ≤ run.idx s.pools := by
      by_contra hoverlap
      have hone := h.unique (.inl run) (.inl run') run.user
        (max (run.idx s.pools) (run'.idx s.pools)) ⟨hrun, rfl, by omega, by omega⟩
        ⟨hrun', huser.symm, by omega, by omega⟩
      exact hne (Sum.inl.inj hone)
    rw [h.page_eq hrun, h.page_eq hrun', hpages, hpages', huser, pgSize]
    omega
  · rw [h.page_eq hrun, h.page_eq hrun', hpages, hpages', pgSize]
    cases hu : run.user <;> cases hu' : run'.user <;> rw [hu, hu'] at huser <;>
      rw [hu] at hfits <;> rw [hu'] at hfits' <;> first | exact absurd rfl huser | omega

/-- **The page allocator is safe.** However the accesses to single bits interleave, live runs do not
overlap, lie in the pool that was asked for, and no assertion fails. -/
theorem palloc_safe {initRamPages userPageLimit : ℕ} {memory : Bool → ℕ → BitVec 32}
    (hmin : 1024 * 1024 < pgSize * initRamPages) (hmax : pgSize * initRamPages < 1024 * 1024 * 1024)
    (hinit : pallocInit initRamPages userPageLimit memory = .ok pools) :
    (poolRegions pools).Pairwise (fun a b => a.2 ≤ b.1) ∧
    (∀ r ∈ poolRegions pools,
      physBase + 1024 * 1024 ≤ r.1 ∧ r.2 ≤ physBase + pgSize * initRamPages) ∧
    ∀ s : PallocState τ, (pallocMachine τ pools).Reachable s →
      (∀ user, (s.pools user).base = (pools user).base ∧
        (s.pools user).usedMap.bitCnt = (pools user).usedMap.bitCnt) ∧
      s.live.Pairwise (fun run run' => run.pages + pgSize * run.cnt ≤ run'.pages ∨
        run'.pages + pgSize * run'.cnt ≤ run.pages) ∧
      (∀ run ∈ s.live, (pools run.user).base ≤ run.pages ∧ run.pages + pgSize * run.cnt ≤
        (pools run.user).base + pgSize * (pools run.user).usedMap.bitCnt) ∧
      (∀ run ∈ s.live, ∀ i < run.cnt,
        (s.pools run.user).usedMap.bit
          (pgNo (run.pages + pgSize * i) - pgNo (pools run.user).base) = true ∧
        ∀ user, pageFromPool (s.pools user) (run.pages + pgSize * i) = decide (user = run.user)) ∧
      ∀ label, (pallocMachine τ pools).step s label ≠ .fault .notUsed := by
  have hlayout := pallocInit_layout hmin hmax hinit
  refine ⟨hlayout.apart, hlayout.inside, fun s hs => ?_⟩
  have h := pallocInv_of_reachable (hlayout.poolsOk hmax) hs
  refine ⟨fun user => ⟨h.base_eq user, h.bitCnt_eq user⟩, ?_, fun run hrun => ?_,
    fun run hrun i hi => ⟨?_, fun user => ?_⟩, fun label hfault => ?_⟩
  · exact h.nodup.pairwise_of_forall_ne fun run hrun run' hrun' => h.live_apart hrun hrun'
  · obtain ⟨hcnt, hpages, hfits⟩ := h.live run hrun
    rw [h.page_eq hrun, ← h.base_eq, ← h.bitCnt_eq, hpages, pgSize]
    omega
  · rw [h.page_eq hrun, pgNo_add, ← h.base_eq, Nat.add_sub_cancel_left]
    exact h.marked (.inl run) run.user _ ⟨hrun, rfl, by omega, by omega⟩
  · obtain ⟨hcnt, hpages, hfits⟩ := h.live run hrun
    rw [h.page_eq hrun]
    exact h.ok.pageFromPool_eq (by omega) user
  · change s.step label = _ at hfault
    rcases h.step label with heq | heq | ⟨s', heq, -⟩ <;> rw [heq] at hfault <;> cases hfault

end

/-- A machine with four free pages, one of which is in use. -/
theorem palloc_safe_fourPages : ∃ pools, pallocInit 260 2 (fun _ _ => 0) = .ok pools ∧
    ∃ s : PallocState (Fin 2), (pallocMachine (Fin 2) pools).Reachable s ∧
      s.live = [⟨false, 0xc0101000, 1⟩] ∧
      ∀ label, (pallocMachine (Fin 2) pools).step s label ≠ .fault .notUsed := by
  obtain ⟨pools, hinit, s, hrun, hlive⟩ : ∃ pools,
      pallocInit 260 2 (fun _ _ => 0) = .ok pools ∧ ∃ s : PallocState (Fin 2),
      (pallocMachine (Fin 2) pools).run (pallocMachine (Fin 2) pools).start
        [.get 0 false false 1, .step 0, .step 0, .step 0, .step 0] = .next s ∧
      s.live = [⟨false, 0xc0101000, 1⟩] := ⟨_, rfl, _, rfl, rfl⟩
  have hs := Machine.reachable_of_run hrun
  have h := (palloc_safe (by decide) (by decide) hinit).2.2 s hs
  exact ⟨pools, hinit, s, hs, hlive, h.2.2.2.2⟩

end OsMaterial
