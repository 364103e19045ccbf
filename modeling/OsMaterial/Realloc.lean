import OsMaterial.Malloc
import OsMaterial.Words

/-!
# The Contents of Heap Blocks

`calloc` and `realloc` of `threads/malloc.c`, on the heap together with the bytes of memory. Which
bytes the allocator stores in its headers and free blocks is left open: each call is given them.
`calloc` compares its product, modulo `wordSize`, with the factors, which does not find every
overflow.

* `calloc_zeroed_iff`: **for which factors the block of `calloc` is what was asked for**, and which
  of the products that do not fit are refused.
* `realloc_correct`: **a resized block keeps its contents**, and every other block is left alone.
-/

namespace OsMaterial

open List

abbrev linkSize : ℕ := 8

/-- `x` is an address in the header of an arena, or in the list element of a free block. -/
def HeapState.Metadata (s : HeapState) (x : ℕ) : Prop :=
  ((s.arenas (x / pageSize)).isSome ∧ x % pageSize < arenaSize) ∨
    ∃ d, ∃ b ∈ s.freeList d, b ≤ x ∧ x < b + linkSize

instance HeapState.decidableMetadata (s : HeapState) (x : ℕ) : Decidable (s.Metadata x) :=
  inferInstanceAs (Decidable (_ ∨ _))

structure HeapMemory where
  heap : HeapState
  bytes : ℕ → UInt8

def memset (bytes : ℕ → UInt8) (dst : ℕ) (value : UInt8) (size : ℕ) : ℕ → UInt8 :=
  patch bytes dst (replicate size value)

def memcpy (bytes : ℕ → UInt8) (dst src : ℕ) : ℕ → ℕ → UInt8
  | 0 => bytes
  | size + 1 =>
    let bytes := memcpy bytes dst src size
    Function.update bytes (dst + size) (bytes (src + size))

namespace HeapMemory

/-- What a call writes to its own data: to that of the state `s` it leads to, and to the list
element of the block `b` that it takes or gives. -/
def writeMetadata (bytes : ℕ → UInt8) (s : HeapState) (b : ℕ) (data : ℕ → UInt8) : ℕ → UInt8 :=
  fun x => if s.Metadata x ∨ (b ≤ x ∧ x < b + linkSize) then data x else bytes x

def malloc (m : HeapMemory) (size : ℕ) (page : Option ℕ) (data : ℕ → UInt8) :
    Outcome HeapFault (HeapMemory × Option ℕ) :=
  (m.heap.malloc size page).bind fun (s, p) =>
    match p with
    | none => .next (⟨s, m.bytes⟩, none)
    | some b =>
      .next (⟨{ s with live := b :: s.live }, writeMetadata m.bytes s b data⟩, some b)

/-- `free`, with the ledger of live blocks. The page allocator overwrites what it gets back. -/
def free (m : HeapMemory) (data : ℕ → UInt8) : Option ℕ → Outcome HeapFault HeapMemory
  | none => .next m
  | some b =>
    (m.heap.blockToArena b).bind fun (a, arena) =>
      (m.heap.free (some b)).bind fun s =>
        let heap := { s with live := s.live.erase b }
        match arena.desc with
        | none => .next ⟨heap, memset m.bytes (pageSize * a) 0xcc (pageSize * arena.freeCnt)⟩
        | some d =>
          let cleared := memset m.bytes b 0xcc (desc d).blockSize
          let linked := writeMetadata cleared s b data
          if (desc d).blocksPerArena ≤ (arena.freeCnt + 1) % wordSize then
            .next ⟨heap, memset linked (pageSize * a) 0xcc pageSize⟩
          else
            .next ⟨heap, linked⟩

def calloc (m : HeapMemory) (a b : ℕ) (page : Option ℕ) (data : ℕ → UInt8) :
    Outcome HeapFault (HeapMemory × Option ℕ) :=
  let size := a * b % wordSize
  if size < a ∨ size < b then
    .next (m, none)
  else
    (m.malloc size page data).bind fun (m, p) =>
      match p with
      | none => .next (m, none)
      | some p => .next ({ m with bytes := memset m.bytes p 0 size }, some p)

def realloc (m : HeapMemory) (oldBlock : Option ℕ) (newSize : ℕ) (page : Option ℕ)
    (data data' : ℕ → UInt8) : Outcome HeapFault (HeapMemory × Option ℕ) :=
  if newSize = 0 then
    (m.free data' oldBlock).bind fun m => .next (m, none)
  else
    (m.malloc newSize page data).bind fun (m, newBlock) =>
      match oldBlock, newBlock with
      | some p, some q =>
        (m.heap.blockSize p).bind fun oldSize =>
          let minSize := if newSize < oldSize then newSize else oldSize
          let m := { m with bytes := memcpy m.bytes q p minSize }
          (m.free data' (some p)).bind fun m => .next (m, some q)
      | _, _ => .next (m, newBlock)

end HeapMemory

/-! ### Reads and writes of memory -/

section Memory

variable {bytes : ℕ → UInt8} {b n x : ℕ}

theorem memset_of_apart {dst size : ℕ} {value : UInt8} (h : Apart (b, n) (dst, size)) (hx : b ≤ x)
    (hx' : x < b + n) : memset bytes dst value size x = bytes x := by
  rcases h with h | h
  · exact patch_of_lt (by omega)
  · exact patch_of_ge (by rw [length_replicate]; omega)

theorem slice_memset (bytes : ℕ → UInt8) (dst : ℕ) (value : UInt8) (size : ℕ) :
    slice (memset bytes dst value size) dst size = replicate size value := by
  have h : slice (memset bytes dst value size) dst (replicate size value).length = _ :=
    slice_patch_eq
  rwa [length_replicate] at h

theorem memcpy_eq_patch {dst src size : ℕ} (h : Apart (dst, size) (src, size)) :
    memcpy bytes dst src size = patch bytes dst (slice bytes src size) := by
  induction size with
  | zero => rw [memcpy, slice_zero, patch_nil]
  | succ size ih =>
    have hrest : Apart (dst, size) (src, size) := by
      simp only [Apart] at h ⊢
      omega
    have hsource : patch bytes dst (slice bytes src size) (src + size) = bytes (src + size) := by
      rcases h with h | h
      · exact patch_of_ge (by rw [length_slice]; omega)
      · exact patch_of_lt (by omega)
    have hlast : slice bytes (src + size) 1 = [bytes (src + size)] := rfl
    have hwrite : patch (patch bytes dst (slice bytes src size))
        (dst + (slice bytes src size).length) [bytes (src + size)] = _ := patch_append _
    rw [length_slice, patch_singleton] at hwrite
    rw [memcpy, ih hrest, hsource, slice_add, hlast, hwrite]

end Memory

/-! ### The allocator's own data -/

variable {page : Option ℕ}

section Calls

variable {s : HeapState} {m : HeapMemory} {b n x : ℕ} {d : DescId} {data : ℕ → UInt8}

theorem linkSize_le (d : DescId) : linkSize ≤ (desc d).blockSize := by
  revert d
  decide

theorem BlockInv.free_blockAt (h : BlockInv s) (hb : b ∈ s.freeList d) :
    s.BlockAt b (desc d).blockSize := by
  obtain ⟨a, i, ⟨k, ha⟩, hi, rfl⟩ := h.free_block d b hb
  exact .inl ⟨a, d, k, i, ha, hi, rfl, rfl⟩

theorem BlockInv.not_live_of_free (h : BlockInv s) (hb : b ∈ s.freeList d) : b ∉ s.live := by
  obtain ⟨a, i, ha, hi, rfl⟩ := h.free_block d b hb
  exact (h.free_iff a d i ha hi).mp hb

theorem HeapInv.not_metadata (h : HeapInv s) (hb : b ∈ s.live) (hn : s.blockSize b = .next n)
    (hx : b ≤ x) (hx' : x < b + n) : ¬ s.Metadata x := by
  have hat := h.blockAt_of_size hb hn
  rintro (⟨hsome, hofs⟩ | ⟨d, c, hc, hcx, hxc⟩)
  · obtain ⟨arena, ha⟩ := Option.isSome_iff_exists.mp hsome
    have hap := h.run.block_header_apart hat ha
    have hdiv := Nat.div_add_mod x pageSize
    simp only [Apart] at hap
    omega
  · have hne : b ≠ c := by
      rintro rfl
      exact h.block.not_live_of_free hc hb
    have hap := h.run.blocks_apart hat (h.block.free_blockAt hc) hne
    have hle := linkSize_le d
    simp only [Apart] at hap
    omega

theorem HeapInv.blockToArena_live {arena : Arena} (h : HeapInv s) (hb : b ∈ s.live)
    (ha : s.arenas (b / pageSize) = some arena) :
    s.blockToArena b = .next (b / pageSize, arena) := by
  rcases h.block.live_block b hb with ⟨a, d, i, ⟨k, ha'⟩, hi, rfl⟩ | ⟨a, k, ha', rfl⟩
  · rw [blockAddr_div hi] at ha ⊢
    rw [ha', Option.some_inj] at ha
    rw [blockToArena_small (h.run.page_pos ha') ha' hi, ha]
  · rw [bigBlock_div] at ha ⊢
    rw [ha', Option.some_inj] at ha
    rw [blockToArena_big (h.run.page_pos ha') ha', ha]

theorem HeapState.BlockAt.linkSize_le (h : s.BlockAt b n) : linkSize ≤ n := by
  rcases h with ⟨a, d, k, i, -, -, -, rfl⟩ | ⟨a, k, -, hpos, -, rfl⟩
  · exact OsMaterial.linkSize_le d
  · simp only [linkSize, pageSize, arenaSize]
    omega

/-- From `m` to `m'`, the block `b` **keeps its size and its contents**. -/
def KeepsBlock (m m' : HeapMemory) (b : ℕ) : Prop :=
  ∀ n, m.heap.blockSize b = .next n →
    m'.heap.blockSize b = .next n ∧ slice m'.bytes b n = slice m.bytes b n

theorem KeepsBlock.trans {m' m'' : HeapMemory} (h : KeepsBlock m m' b) (h' : KeepsBlock m' m'' b) :
    KeepsBlock m m'' b := by
  intro n hn
  obtain ⟨hn', hslice⟩ := h n hn
  obtain ⟨hn'', hslice'⟩ := h' n hn'
  exact ⟨hn'', hslice'.trans hslice⟩

theorem HeapInv.writeMetadata_eq {bytes : ℕ → UInt8} {p k : ℕ} (h : HeapInv s) (hb : b ∈ s.live)
    (hn : s.blockSize b = .next n) (hk : linkSize ≤ k) (hap : Apart (b, n) (p, k)) (hx : b ≤ x)
    (hx' : x < b + n) : HeapMemory.writeMetadata bytes s p data x = bytes x := by
  rw [HeapMemory.writeMetadata, if_neg]
  rintro (hmeta | ⟨hpx, hxp⟩)
  · exact h.not_metadata hb hn hx hx' hmeta
  · simp only [Apart] at hap
    omega

namespace HeapMemory

theorem malloc_returns (h : HeapInv m.heap) {size : ℕ}
    (hok : m.heap.Disciplined (.malloc size page)) (data : ℕ → UInt8) :
    ∃ m' p, m.malloc size page data = .next (m', p) ∧
      m.heap.step (.malloc size page) = .next m'.heap ∧ HeapInv m'.heap ∧
      (p = none → m' = m ∧ (size = 0 ∨ page = none ∨ HeapState.pageCnt size = 0)) ∧
      (∀ q, p = some q → m'.heap.live = q :: m.heap.live ∧ HeapState.pageCnt size ≠ 0 ∧
        ∃ n, m'.heap.blockSize q = .next n ∧ (size ≤ n ↔ size + arenaSize < wordSize)) ∧
      ∀ b ∈ m.heap.live, KeepsBlock m m' b := by
  obtain ⟨s', p, hs', hsize, ⟨hnone, hlive, hkeeps⟩, hi⟩ := malloc_spec h hok
  cases p with
  | none =>
    obtain ⟨rfl, hwhy⟩ := hnone rfl
    refine ⟨m, none, ?_, ?_, h, fun _ => ⟨rfl, hwhy⟩, fun q hq => (by cases hq),
      fun b _ n hn => ⟨hn, rfl⟩⟩
    · rw [malloc, hs', Outcome.bind_next]
    · rw [HeapState.step, hs', Outcome.bind_next]
      rfl
  | some q =>
    obtain ⟨hpages, k, hk, hlarge⟩ := hsize q rfl
    refine ⟨⟨{ s' with live := q :: s'.live }, writeMetadata m.bytes s' q data⟩, some q, ?_, ?_,
      hi, fun hq => (by cases hq), ?_, ?_⟩
    · rw [malloc, hs', Outcome.bind_next]
    · rw [HeapState.step, hs', Outcome.bind_next]
      rfl
    · rintro q' ⟨⟩
      exact ⟨by rw [hlive], hpages, k, hk, hlarge⟩
    · intro b hb n hn
      have hn' : s'.blockSize b = .next n := (hkeeps _).blockSize hn
      have hb' : b ∈ s'.live := hlive ▸ hb
      have hqb : b ≠ q := by
        rintro rfl
        exact (nodup_cons.mp hi.block.live_nodup).1 hb'
      have hap := hi.live_apart (mem_cons_of_mem q hb') mem_cons_self hqb hn' hk
      have hlink := (hi.blockAt_of_size mem_cons_self hk).linkSize_le
      refine ⟨hn', slice_congr fun x hx hx' => ?_⟩
      exact hi.writeMetadata_eq (mem_cons_of_mem q hb') hn' hlink hap hx hx'

theorem free_returns (h : HeapInv m.heap) {p : ℕ} (hp : p ∈ m.heap.live) (data : ℕ → UInt8) :
    ∃ m', m.free data (some p) = .next m' ∧ m.heap.step (.free p) = .next m'.heap ∧
      HeapInv m'.heap ∧ m'.heap.live = m.heap.live.erase p ∧
      ∀ b ∈ m.heap.live, b ≠ p → KeepsBlock m m' b := by
  obtain ⟨s', arena, hs', ha, hret, ⟨hlive, hother⟩, hi⟩ := free_spec h hp
  have hstep : m.heap.step (.free p) = .next { s' with live := s'.live.erase p } := by
    rw [HeapState.step, hs', Outcome.bind_next]
  have hbta : m.heap.blockToArena p = .next (p / pageSize, arena) := h.blockToArena_live hp ha
  -- what is left is live after the call, and its arena is there
  have hleft : ∀ b ∈ m.heap.live, b ≠ p →
      b ∈ s'.live.erase p ∧ (s'.arenas (p / pageSize) = none → b / pageSize ≠ p / pageSize) := by
    intro b hb hbp
    have hb' : b ∈ s'.live.erase p := (mem_erase_of_ne hbp).mpr (hlive ▸ hb)
    obtain ⟨n, -, hat⟩ := hi.live_blockAt hb'
    obtain ⟨arena', ha', -⟩ := hat.place
    refine ⟨hb', fun hnone heq => ?_⟩
    have hcontra : s'.arenas (b / pageSize) = some arena' := ha'
    rw [heq, hnone] at hcontra
    cases hcontra
  obtain ⟨dsc, cnt⟩ := arena
  cases dsc with
  | none =>
    refine ⟨⟨{ s' with live := s'.live.erase p },
      memset m.bytes (pageSize * (p / pageSize)) 0xcc (pageSize * cnt)⟩, ?_, hstep, hi,
      by rw [hlive], ?_⟩
    · simp only [free, hbta, Outcome.bind_next, hs']
    · intro b hb hbp n hn
      have hne := (hleft b hb hbp).2 hret.2
      have hap := h.run.block_arena_apart (h.blockAt_of_size hb hn) ha hne
      refine ⟨(keepsArena_of_eq (hother _ hne)).blockSize hn, slice_congr fun x hx hx' => ?_⟩
      exact memset_of_apart hap hx hx'
  | some d =>
    have hlt := h.used _ d cnt ha
    have hinc : (cnt + 1) % wordSize = cnt + 1 := by
      have := blocksPerArena_lt d
      exact Nat.mod_eq_of_lt (by omega)
    have hpsize : m.heap.blockSize p = .next (desc d).blockSize := by
      rw [HeapState.blockSize, hbta, Outcome.bind_next]
    -- neither the clearing of the block nor the links are seen elsewhere
    have hlinked : ∀ b ∈ m.heap.live, b ≠ p → ∀ n, m.heap.blockSize b = .next n →
        s'.blockSize b = .next n → ∀ x, b ≤ x → x < b + n →
        writeMetadata (memset m.bytes p 0xcc (desc d).blockSize) s' p data x = m.bytes x := by
      intro b hb hbp n hn hn' x hx hx'
      have hap := h.live_apart hb hp hbp hn hpsize
      exact (hi.writeMetadata_eq (hleft b hb hbp).1 hn' (linkSize_le d) hap hx hx').trans
        (memset_of_apart hap hx hx')
    by_cases hfull : cnt + 1 = (desc d).blocksPerArena
    · simp only [FreeReturns, if_pos hfull] at hret
      refine ⟨⟨{ s' with live := s'.live.erase p },
        memset (writeMetadata (memset m.bytes p 0xcc (desc d).blockSize) s' p data)
          (pageSize * (p / pageSize)) 0xcc pageSize⟩, ?_, hstep, hi, by rw [hlive], ?_⟩
      · simp only [free, hbta, Outcome.bind_next, hs', hinc, if_pos hfull.ge]
      · intro b hb hbp n hn
        have hne := (hleft b hb hbp).2 hret.2
        have hn' : s'.blockSize b = .next n := (keepsArena_of_eq (hother _ hne)).blockSize hn
        have hap := h.run.block_arena_apart (h.blockAt_of_size hb hn) ha hne
        refine ⟨hn', slice_congr fun x hx hx' => ?_⟩
        exact (memset_of_apart hap hx hx').trans (hlinked b hb hbp n hn hn' x hx hx')
    · simp only [FreeReturns, if_neg hfull] at hret
      have hnle : ¬ (desc d).blocksPerArena ≤ cnt + 1 := by omega
      refine ⟨⟨{ s' with live := s'.live.erase p },
        writeMetadata (memset m.bytes p 0xcc (desc d).blockSize) s' p data⟩, ?_, hstep, hi,
        by rw [hlive], ?_⟩
      · simp only [free, hbta, Outcome.bind_next, hs', hinc, if_neg hnle]
      · intro b hb hbp n hn
        have hkeeps : KeepsArenas m.heap s' := fun x => by
          by_cases hx : x = p / pageSize
          · subst hx
            intro arena harena
            rw [ha, Option.some_inj] at harena
            subst harena
            exact ⟨cnt + 1, hret.2, fun hnone => (by cases hnone)⟩
          · exact keepsArena_of_eq (hother x hx)
        have hn' : s'.blockSize b = .next n := (hkeeps _).blockSize hn
        exact ⟨hn', slice_congr (hlinked b hb hbp n hn hn')⟩

end HeapMemory

end Calls

/-! ### Zeroed blocks -/

/-- **What `calloc` refuses** whatever memory there is: its test fires on the wrapped product, or
`malloc` rounds that product up to no pages at all. -/
def CallocRefuses (a b : ℕ) : Prop :=
  let size := a * b % wordSize
  size < a ∨ size < b ∨ wordSize < size + arenaSize + pageSize ∧ size + arenaSize ≤ wordSize

instance decidableCallocRefuses (a b : ℕ) : Decidable (CallocRefuses a b) :=
  inferInstanceAs (Decidable (_ ∨ _ ∨ _))

namespace HeapMemory

variable {m : HeapMemory} {a b : ℕ}

/-- A call of `calloc` returns; a block it returns is as large as `malloc` makes it, and zero up to
the wrapped product. -/
theorem calloc_returns (h : HeapInv m.heap)
    (hok : m.heap.Disciplined (.malloc (a * b % wordSize) page)) (data : ℕ → UInt8) :
    ∃ m' r, m.calloc a b page data = .next (m', r) ∧
      (r = none → CallocRefuses a b ∨ a * b % wordSize = 0 ∨ page = none) ∧
      ∀ q, r = some q → ¬ CallocRefuses a b ∧ ∃ n, m'.heap.blockSize q = .next n ∧
        (a * b % wordSize ≤ n ↔ a * b % wordSize + arenaSize < wordSize) ∧
        slice m'.bytes q (a * b % wordSize) = replicate (a * b % wordSize) 0 := by
  have hzero := pageCnt_eq_zero_iff (Nat.mod_lt (a * b) (show 0 < wordSize by decide))
  rw [calloc]
  by_cases htest : a * b % wordSize < a ∨ a * b % wordSize < b
  · rw [if_pos htest]
    exact ⟨m, none, rfl, fun _ => .inl (htest.imp_right .inl), fun q hq => (by cases hq)⟩
  · obtain ⟨m', r, hmalloc, -, -, hnone, hblock, -⟩ := malloc_returns h hok data
    rw [if_neg htest, hmalloc, Outcome.bind_next]
    cases r with
    | none =>
      refine ⟨m', none, rfl, fun _ => ?_, fun q hq => (by cases hq)⟩
      rcases (hnone rfl).2 with hsize | hpage | hpages
      · exact .inr (.inl hsize)
      · exact .inr (.inr hpage)
      · exact .inl (.inr (.inr (hzero.mp hpages)))
    | some q =>
      obtain ⟨-, hpages, n, hn, hlarge⟩ := hblock q rfl
      refine ⟨_, some q, rfl, fun hq => (by cases hq), ?_⟩
      rintro q' ⟨⟩
      refine ⟨?_, n, hn, hlarge, slice_memset _ _ _ _⟩
      rintro (hlt | hlt | hwrap)
      · exact htest (.inl hlt)
      · exact htest (.inr hlt)
      · exact hpages (hzero.mpr hwrap)

/-- **The block is what was asked for**: `r` is null, or the product of the factors fits, and `r`
has as many bytes, all zero. -/
def Zeroed (m : HeapMemory) (a b : ℕ) (r : Option ℕ) : Prop :=
  ∀ q, r = some q → a * b < wordSize ∧ ∃ n, m.heap.blockSize q = .next n ∧ a * b ≤ n ∧
    slice m.bytes q (a * b) = replicate (a * b) 0

/-- Every call of `calloc` with these factors, on any heap and with any free pages, returns, and
what it leads to and returns has `P`. -/
def EveryCalloc (a b : ℕ) (P : HeapMemory → Option ℕ → Prop) : Prop :=
  ∀ (m : HeapMemory) (page : Option ℕ) (data : ℕ → UInt8),
    heapMachine.ReachableUnder HeapState.Disciplined m.heap →
    m.heap.Disciplined (.malloc (a * b % wordSize) page) →
    ∃ m' r, m.calloc a b page data = .next (m', r) ∧ P m' r

end HeapMemory

/-- The heap after `malloc_init`, in a memory of zeros. -/
def freshMemory : HeapMemory := ⟨heapMachine.start, fun _ => 0⟩

theorem freshMemory_disciplined (a b : ℕ) :
    freshMemory.heap.Disciplined (.malloc (a * b % wordSize) (some 1)) :=
  ⟨Nat.mod_lt _ (by decide), Nat.one_pos, fun r hr => (by cases hr)⟩

open HeapMemory (EveryCalloc)

/-- **When `calloc` returns what was asked for**, whatever the heap and the free pages: exactly if
the product and the header of an arena together fit a `size_t`, or the call is refused. **When it
returns a null pointer for a product that does not fit**: exactly if the call is refused. -/
theorem calloc_zeroed_iff (a b : ℕ) :
    (EveryCalloc a b (fun m r => m.Zeroed a b r) ↔
      a * b + arenaSize < wordSize ∨ CallocRefuses a b) ∧
    (EveryCalloc a b (fun _ r => wordSize ≤ a * b → r = none) ↔
      (wordSize ≤ a * b → CallocRefuses a b)) := by
  -- on a fresh heap with free pages a call that is not refused returns a block
  obtain ⟨m₀, r₀, hr₀, hnone₀, hsome₀⟩ := HeapMemory.calloc_returns heapInv_start
    (freshMemory_disciplined a b) fun _ => 0
  have hrefused : r₀ = none → wordSize ≤ a * b + arenaSize → CallocRefuses a b := by
    intro hr hlarge
    rcases hnone₀ hr with hrefuses | hsize | hpage
    · exact hrefuses
    · refine .inl (hsize ▸ Nat.pos_of_ne_zero ?_)
      rintro rfl
      rw [Nat.zero_mul] at hlarge
      exact absurd hlarge (by decide)
    · cases hpage
  refine ⟨⟨fun hall => ?_, fun hcond m page data hm hok => ?_⟩,
    ⟨fun hall hlarge => ?_, fun hcond m page data hm hok => ?_⟩⟩
  · by_contra hcond
    rw [not_or, Nat.not_lt] at hcond
    obtain ⟨m', r, hr, hzeroed⟩ := hall freshMemory (some 1) (fun _ => 0) .start
      (freshMemory_disciplined a b)
    obtain ⟨rfl, rfl⟩ := Prod.mk.inj (Outcome.next.inj (hr₀.symm.trans hr))
    cases r₀ with
    | none => exact hcond.2 (hrefused rfl hcond.1)
    | some q =>
      obtain ⟨-, n, hn, hlarge, -⟩ := hsome₀ q rfl
      obtain ⟨hlt, n', hn', hle, -⟩ := hzeroed q rfl
      rw [Nat.mod_eq_of_lt hlt] at hlarge
      have hfits := hlarge.mp (Outcome.next.inj (hn.symm.trans hn') ▸ hle)
      omega
  · have hi := hm.of_preserves heapMachine_preserves heapInv_start
    obtain ⟨m', r, hr, -, hsome⟩ := HeapMemory.calloc_returns hi hok data
    refine ⟨m', r, hr, fun q hq => ?_⟩
    obtain ⟨hnot, n, hn, hlarge, hzero⟩ := hsome q hq
    have hfits := hcond.resolve_right hnot
    have hlt : a * b < wordSize := Nat.lt_of_add_right_lt hfits
    rw [Nat.mod_eq_of_lt hlt] at hlarge hzero
    exact ⟨hlt, n, hn, hlarge.mpr hfits, hzero⟩
  · obtain ⟨m', r, hr, hnull⟩ := hall freshMemory (some 1) (fun _ => 0) .start
      (freshMemory_disciplined a b)
    obtain ⟨rfl, rfl⟩ := Prod.mk.inj (Outcome.next.inj (hr₀.symm.trans hr))
    exact hrefused (hnull hlarge) (Nat.le_add_right_of_le hlarge)
  · have hi := hm.of_preserves heapMachine_preserves heapInv_start
    obtain ⟨m', r, hr, -, hsome⟩ := HeapMemory.calloc_returns hi hok data
    refine ⟨m', r, hr, fun hlarge => ?_⟩
    cases r with
    | none => rfl
    | some q => exact absurd (hcond hlarge) (hsome q rfl).1

/-- A hundred elements of ten bytes are what was asked for, and `2 ^ 16` of `2 ^ 16` bytes are
refused. -/
theorem calloc_zeroed_iff_fresh :
    (∃ m', freshMemory.calloc 10 100 (some 5) (fun _ => 1) = .next (m', some 20492) ∧
      m'.Zeroed 10 100 (some 20492)) ∧
    ∃ m', freshMemory.calloc 65536 65536 (some 5) (fun _ => 1) = .next (m', none) := by
  have hok : freshMemory.heap.Disciplined (.malloc (10 * 100 % wordSize) (some 5)) := by decide
  have hok' : freshMemory.heap.Disciplined (.malloc (65536 * 65536 % wordSize) (some 5)) := by
    decide
  constructor
  · obtain ⟨m', r, hr, hzeroed⟩ := (calloc_zeroed_iff 10 100).1.mpr (.inl (by decide))
      freshMemory (some 5) (fun _ => 1) .start hok
    obtain ⟨m₁, hm₁⟩ : ∃ m₁, freshMemory.calloc 10 100 (some 5) (fun _ => 1) =
        .next (m₁, some 20492) := ⟨_, rfl⟩
    obtain ⟨rfl, rfl⟩ := Prod.mk.inj (Outcome.next.inj (hr.symm.trans hm₁))
    exact ⟨m', hr, hzeroed⟩
  · obtain ⟨m', r, hr, hnull⟩ := (calloc_zeroed_iff 65536 65536).2.mpr (fun _ => by decide)
      freshMemory (some 5) (fun _ => 1) .start hok'
    exact ⟨m', (hnull (by decide)) ▸ hr⟩

/-- **A product that does not fit**: 65537 elements of 65537 bytes get 135156 bytes. -/
theorem calloc_overflow_undetected :
    HeapState.Disciplined heapMachine.start (.malloc (65537 * 65537 % wordSize) (some 5)) ∧
      ∃ m', freshMemory.calloc 65537 65537 (some 5) (fun _ => 1) = .next (m', some 20492) ∧
        m'.heap.blockSize 20492 = .next 135156 ∧ ¬ 65537 * 65537 < 2 ^ 32 ∧
        ¬ 65537 * 65537 ≤ 135156 :=
  ⟨by decide, _, rfl, rfl, by decide, by decide⟩

/-! ### Resized blocks -/

theorem HeapInv.memcpy_spec {m : HeapMemory} {p q k n c : ℕ} (h : HeapInv m.heap)
    (hq : q ∈ m.heap.live) (hp : p ∈ m.heap.live) (hqp : q ≠ p) (hk : m.heap.blockSize q = .next k)
    (hn : m.heap.blockSize p = .next n) (hck : c ≤ k) (hcn : c ≤ n) :
    slice (memcpy m.bytes q p c) q c = slice m.bytes p c ∧
      ∀ b ∈ m.heap.live, b ≠ q → KeepsBlock m { m with bytes := memcpy m.bytes q p c } b := by
  have hap := h.live_apart hq hp hqp hk hn
  have hcopy : memcpy m.bytes q p c = patch m.bytes q (slice m.bytes p c) :=
    memcpy_eq_patch (by simp only [Apart] at hap ⊢; omega)
  rw [hcopy]
  constructor
  · have hread : slice (patch m.bytes q (slice m.bytes p c)) q (slice m.bytes p c).length = _ :=
      slice_patch_eq
    rwa [length_slice] at hread
  · intro b hb hbq l hl
    have hapart := h.live_apart hb hq hbq hl hk
    refine ⟨hl, slice_patch_of_disjoint ?_⟩
    rw [length_slice]
    simp only [Apart] at hapart
    omega

/-- **A resized block keeps its contents**, or there is no memory and nothing changes; the other
live blocks keep theirs. -/
theorem realloc_correct (m : HeapMemory)
    (hm : heapMachine.ReachableUnder HeapState.Disciplined m.heap) (p : ℕ) (hp : p ∈ m.heap.live)
    (newSize : ℕ) (hpos : 1 ≤ newSize) (hlt : newSize < 2 ^ 31) (page : Option ℕ)
    (hok : m.heap.Disciplined (.malloc newSize page)) (data data' : ℕ → UInt8) :
    ∃ m' r n, m.realloc (some p) newSize page data data' = .next (m', r) ∧
      heapMachine.ReachableUnder HeapState.Disciplined m'.heap ∧
      m.heap.blockSize p = .next n ∧
      (∀ q, r = some q → p ∉ m'.heap.live ∧ q ∈ m'.heap.live ∧
        (∃ k, m'.heap.blockSize q = .next k ∧ newSize ≤ k ∧
          ∀ b ∈ m'.heap.live, b ≠ q → ∀ l, m'.heap.blockSize b = .next l → Apart (q, k) (b, l)) ∧
        slice m'.bytes q (min newSize n) = slice m.bytes p (min newSize n)) ∧
      (r = none → m' = m) ∧
      ∀ b ∈ m.heap.live, b ≠ p → b ∈ m'.heap.live ∧ KeepsBlock m m' b := by
  have hi := hm.of_preserves heapMachine_preserves heapInv_start
  obtain ⟨n, hn, -⟩ := hi.live_blockAt hp
  obtain ⟨m₁, r, hmalloc, hstep₁, hi₁, hnone, hsome, hkeeps₁⟩ :=
    HeapMemory.malloc_returns hi hok data
  rw [HeapMemory.realloc, if_neg (by omega), hmalloc, Outcome.bind_next]
  cases r with
  | none =>
    obtain rfl := (hnone rfl).1
    exact ⟨m₁, none, n, rfl, hm, hn, fun q hq => (by cases hq), fun _ => rfl,
      fun b hb _ => ⟨hb, fun k hk => ⟨hk, rfl⟩⟩⟩
  | some q =>
    obtain ⟨hlive₁, -, k, hk, hlarge⟩ := hsome q rfl
    obtain ⟨hn₁, hold⟩ := hkeeps₁ p hp n hn
    have hroom : newSize ≤ k := hlarge.mpr (by simp only [arenaSize, wordSize]; omega)
    have hnd := hlive₁ ▸ hi₁.block.live_nodup
    have hmem₁ : ∀ b ∈ m.heap.live, b ∈ m₁.heap.live ∧ b ≠ q := fun b hb =>
      ⟨hlive₁ ▸ mem_cons_of_mem q hb, fun heq => (nodup_cons.mp hnd).1 (heq ▸ hb)⟩
    have hq₁ : q ∈ m₁.heap.live := hlive₁ ▸ mem_cons_self
    obtain ⟨hp₁, hpq⟩ := hmem₁ p hp
    -- the copy stays inside both blocks
    have hmin : (if newSize < n then newSize else n) = min newSize n := by
      split
      · omega
      · omega
    have hck : min newSize n ≤ k := (min_le_left newSize n).trans hroom
    have hcn : min newSize n ≤ n := min_le_right newSize n
    obtain ⟨hcopied, hkeeps₂⟩ := hi₁.memcpy_spec hq₁ hp₁ hpq.symm hk hn₁ hck hcn
    -- the old block is given back after that
    obtain ⟨m₃, hfree, hstep₃, hi₃, hlive₃, hkeeps₃⟩ := HeapMemory.free_returns
      (m := { m₁ with bytes := memcpy m₁.bytes q p (min newSize n) }) hi₁ hp₁ data'
    have hok₃ : m₁.heap.Disciplined (.free p) := hp₁
    have hmem₃ : ∀ b ∈ m₁.heap.live, b ≠ p → b ∈ m₃.heap.live := fun b hb hbp => by
      rw [hlive₃]
      exact (mem_erase_of_ne hbp).mpr hb
    obtain ⟨hk₃, hslice₃⟩ := hkeeps₃ q hq₁ hpq.symm k hk
    refine ⟨m₃, some q, n, ?_, (hm.step hok hstep₁).step hok₃ hstep₃, hn, ?_,
      fun hr => (by cases hr), fun b hb hbp => ?_⟩
    · simp only [hn₁, Outcome.bind_next, hmin, hfree]
    · rintro q' ⟨⟩
      refine ⟨?_, hmem₃ q hq₁ hpq.symm, ⟨k, hk₃, hroom, fun b hb hbq l hl => ?_⟩, ?_⟩
      · rw [hlive₃]
        exact hi₁.block.live_nodup.not_mem_erase
      · exact hi₃.live_apart (hmem₃ q hq₁ hpq.symm) hb hbq.symm hk₃ hl
      · rw [← take_slice hck, hslice₃, take_slice hck, hcopied, ← take_slice hcn, hold,
          take_slice hcn]
    · obtain ⟨hb₁, hbq⟩ := hmem₁ b hb
      exact ⟨hmem₃ b hb₁ hbp, ((hkeeps₁ b hb).trans (hkeeps₂ b hb₁ hbq)).trans (hkeeps₃ b hb₁ hbp)⟩

/-- A block of 1000 bytes that grows to 5000. -/
theorem realloc_correct_larger :
    ∃ s, heapMachine.run heapMachine.start [.malloc 1000 (some 5)] = .next s ∧
      ∃ m', HeapMemory.realloc ⟨s, fun x => UInt8.ofNat x⟩ (some 20492) 5000 (some 7)
          (fun _ => 1) (fun _ => 2) = .next (m', some 28684) ∧
        ∃ n, s.blockSize 20492 = .next n ∧
          slice m'.bytes 28684 (min 5000 n) =
            slice (fun x => UInt8.ofNat x) 20492 (min 5000 n) := by
  have hok : heapMachine.GuardedRun HeapState.Disciplined heapMachine.start
      [.malloc 1000 (some 5)] := by decide
  obtain ⟨s, hs⟩ : ∃ s, heapMachine.run heapMachine.start [.malloc 1000 (some 5)] = .next s :=
    ⟨_, rfl⟩
  have hr := Machine.ReachableUnder.start.of_run hok hs
  obtain rfl := Outcome.next.inj hs
  obtain ⟨m', r, n, hrun, -, hn, hsome, -⟩ := realloc_correct ⟨_, fun x => UInt8.ofNat x⟩ hr
    20492 (by decide) 5000 (by decide) (by decide) (some 7) (by decide) (fun _ => 1) (fun _ => 2)
  have hq : r = some 28684 := by
    have hresult : Outcome.next (m', r) = Outcome.next (_, some 28684) := hrun.symm.trans rfl
    rw [Outcome.next.injEq, Prod.mk.injEq] at hresult
    exact hresult.2
  subst hq
  exact ⟨_, rfl, m', hrun, n, hn, (hsome _ rfl).2.2.2⟩

end OsMaterial
