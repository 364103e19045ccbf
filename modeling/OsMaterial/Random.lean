import OsMaterial.Rc4
import OsMaterial.Words

/-!
# The Pseudo-Random Number Generator

`lib/random.c`: a generator in the manner of RC4. `random_init` sets the whole state from a seed,
whether or not the generator has been seeded before, and `random_bytes` seeds it only if it has not.

* `Prng.Follows.bytes`: **the generator computes RC4.**
* `prng_stream`: the bytes of any requests are those of one request, and the stream of RC4.
-/

namespace OsMaterial

open List (cons_append foldl_append foldl_cons foldl_nil map_cons range range_succ sum_cons)

structure Prng where
  s : Vector UInt8 256
  si : UInt8
  sj : UInt8
  inited : Bool
  deriving DecidableEq

def swapByte (s : Vector UInt8 256) (a b : UInt8) : Vector UInt8 256 :=
  (s.set a.toFin (s.get b.toFin)).set b.toFin (s.get a.toFin)

def keyStep (seedp : Bytes) (st : Vector UInt8 256 × UInt8) (i : ℕ) :
    Vector UInt8 256 × UInt8 :=
  let j := st.2 + (st.1.get (UInt8.ofNat i).toFin + seedp.getD (i % 4) 0)
  (swapByte st.1 (UInt8.ofNat i) j, j)

def randomInit (seed : BitVec 32) : Prng where
  s := ((range 256).foldl (keyStep (toLe 4 seed.toNat)) (Vector.ofFn fun i => UInt8.ofNat i, 0)).1
  si := 0
  sj := 0
  inited := true

def Prng.nextByte (p : Prng) : UInt8 × Prng :=
  let si := p.si + 1
  let sj := p.sj + p.s.get si.toFin
  let s := swapByte p.s si sj
  (s.get (s.get si.toFin + s.get sj.toFin).toFin, { p with s, si, sj })

def Prng.bytes : ℕ → Prng → Bytes × Prng
  | 0, p => ([], p)
  | n + 1, p =>
    let (byte, p) := p.nextByte
    let (rest, p) := bytes n p
    (byte :: rest, p)

def Prng.randomBytes (p : Prng) (size : ℕ) : Bytes × Prng :=
  bytes size (if p.inited then p else randomInit 0)

def Prng.randomUlong (p : Prng) : ℕ × Prng :=
  let (buf, p) := p.randomBytes 4
  (ofLe buf, p)

/-! ### RC4 -/

inductive PrngCall where
  | randomBytes (size : ℕ)
  | randomUlong

def PrngCall.size : PrngCall → ℕ
  | randomBytes size => size
  | randomUlong => 4

def Prng.call (p : Prng) : PrngCall → Bytes × Prng
  | .randomBytes size => p.randomBytes size
  | .randomUlong =>
    let (ul, p) := p.randomUlong
    (toLe 4 ul, p)

def Prng.run : Prng → List PrngCall → Bytes × Prng
  | p, [] => ([], p)
  | p, c :: cs => ((p.call c).1 ++ ((p.call c).2.run cs).1, ((p.call c).2.run cs).2)

structure Prng.Follows (p : Prng) (r : Rc4) : Prop where
  inited : p.inited = true
  si : p.si = r.i
  sj : p.sj = r.j
  perm : ∀ a : UInt8, p.s.get a.toFin = r.perm a

theorem vector_get (s : Vector UInt8 256) (i : Fin 256) : s.get i = s[i.val] := rfl

theorem get_swapByte (s : Vector UInt8 256) (a b c : UInt8) :
    (swapByte s a b).get c.toFin = s.get (Equiv.swap a b c).toFin := by
  have heq (x : UInt8) : x.toFin.val = c.toFin.val ↔ c = x := by
    rw [Fin.val_inj, UInt8.toFin_inj, eq_comm]
  simp only [swapByte, vector_get, Vector.getElem_set, heq, Equiv.swap_apply_def]
  split_ifs <;> subst_vars <;> rfl

variable {p : Prng} {r : Rc4}

theorem Prng.Follows.nextByte (h : p.Follows r) :
    p.nextByte.1 = r.next.1 ∧ p.nextByte.2.Follows r.next.2 := by
  have hperm (i j a : UInt8) :
      (swapByte p.s i j).get a.toFin = (Equiv.swap i j).trans r.perm a := by
    rw [get_swapByte, h.perm, Equiv.trans_apply]
  simp only [Prng.nextByte, Rc4.next, hperm, h.si, h.sj, h.perm]
  exact ⟨trivial, h.inited, rfl, rfl, hperm _ _⟩

/-- **The generator computes RC4.** -/
theorem Prng.Follows.bytes (h : p.Follows r) (n : ℕ) :
    (p.bytes n).1 = (r.stream n).1 ∧ (p.bytes n).2.Follows (r.stream n).2 := by
  induction n generalizing p r with
  | zero => exact ⟨rfl, h⟩
  | succ n ih =>
    obtain ⟨hbyte, hnext⟩ := h.nextByte
    obtain ⟨hrest, hlast⟩ := ih hnext
    exact ⟨congrArg₂ (· :: ·) hbyte hrest, hlast⟩

theorem randomInit_follows (seed : BitVec 32) :
    (randomInit seed).Follows (Rc4.start (toLe 4 seed.toNat)) := by
  have hround (n : ℕ) : ∀ a : UInt8,
      ((range n).foldl (keyStep (toLe 4 seed.toNat))
          (Vector.ofFn fun i => UInt8.ofNat i, 0)).1.get a.toFin =
          (Rc4.schedule (toLe 4 seed.toNat) n).1 a ∧
        ((range n).foldl (keyStep (toLe 4 seed.toNat))
          (Vector.ofFn fun i => UInt8.ofNat i, 0)).2 = (Rc4.schedule (toLe 4 seed.toNat) n).2 := by
    induction n with
    | zero =>
      intro a
      have hget : (Vector.ofFn fun i : Fin 256 => UInt8.ofNat i).get a.toFin = a := by
        rw [vector_get, Vector.getElem_ofFn]
        exact UInt8.ofNat_toNat
      exact ⟨hget, rfl⟩
    | succ n ih =>
      intro a
      simp only [range_succ, foldl_append, foldl_cons, foldl_nil, keyStep,
        Rc4.schedule, length_toLe, get_swapByte, (ih _).1, (ih a).2, ← UInt8.add_assoc,
        Equiv.trans_apply, and_self]
  refine ⟨rfl, rfl, rfl, fun a => ?_⟩
  simp only [randomInit, Rc4.start]
  exact (hround 256 a).1

theorem randomInit_ne : randomInit 1 ≠ randomInit 2 := by
  intro heq
  have hget (seed : BitVec 32) : ((randomInit seed).s.get (UInt8.toFin 0)).toNat =
      Rc4.track (Rc4.exchanges (toLe 4 seed.toNat) 256).1 (UInt8.toNat 0) := by
    rw [(randomInit_follows seed).perm, (Rc4.exchanges_eq _ le_rfl).1, Rc4.start]
  have hne : Rc4.track (Rc4.exchanges (toLe 4 1) 256).1 (UInt8.toNat 0) ≠
      Rc4.track (Rc4.exchanges (toLe 4 2) 256).1 (UInt8.toNat 0) := by decide +kernel
  have hget₁ := hget 1
  rw [heq, hget 2] at hget₁
  exact hne hget₁.symm

theorem bytes_add (n m : ℕ) (p : Prng) :
    p.bytes (n + m) = ((p.bytes n).1 ++ ((p.bytes n).2.bytes m).1, ((p.bytes n).2.bytes m).2) := by
  induction n generalizing p with
  | zero => rw [Nat.zero_add]; rfl
  | succ n ih => simp only [Nat.succ_add, Prng.bytes, ih, cons_append]

/-- **The stream of the generator**: whatever is requested, in whatever pieces, it is the stream of
RC4. -/
theorem prng_stream (seed : BitVec 32) (calls : List PrngCall) :
    (randomInit seed).run calls = (randomInit seed).randomBytes (calls.map PrngCall.size).sum ∧
      ((randomInit seed).run calls).1 =
        ((Rc4.start (toLe 4 seed.toNat)).stream (calls.map PrngCall.size).sum).1 ∧
      ∃ perm : Equiv.Perm UInt8, ∀ a, ((randomInit seed).run calls).2.s.get a.toFin = perm a := by
  have hcall {p : Prng} {r : Rc4} (h : p.Follows r) (c : PrngCall) : p.call c = p.bytes c.size := by
    have hbytes (n : ℕ) : p.randomBytes n = p.bytes n := by rw [Prng.randomBytes, if_pos h.inited]
    cases c with
    | randomBytes size => exact hbytes size
    | randomUlong =>
      have hlen : (p.bytes 4).1.length = 4 := rfl
      have hle := toLe_ofLe (p.bytes 4).1
      rw [hlen] at hle
      simp only [Prng.call, Prng.randomUlong, hbytes, hle, PrngCall.size]
  have hrun {p : Prng} {r : Rc4} (h : p.Follows r) :
      p.run calls = p.bytes (calls.map PrngCall.size).sum := by
    induction calls generalizing p r with
    | nil => rfl
    | cons c cs ih =>
      rw [Prng.run, hcall h, ih (h.bytes _).2, map_cons, sum_cons, bytes_add]
  have h := randomInit_follows seed
  rw [hrun h]
  exact ⟨by rw [Prng.randomBytes, if_pos h.inited], (h.bytes _).1, _, (h.bytes _).2.perm⟩

end OsMaterial
