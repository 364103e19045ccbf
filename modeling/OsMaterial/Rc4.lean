import Mathlib.Logic.Equiv.Basic

/-!
# RC4

The stream cipher RC4, on permutations of bytes: the key schedule makes 256 exchanges, and every
byte of the stream one more.
-/

namespace OsMaterial

structure Rc4 where
  perm : Equiv.Perm UInt8
  i : UInt8
  j : UInt8

namespace Rc4

def schedule (key : List UInt8) : ℕ → Equiv.Perm UInt8 × UInt8
  | 0 => (Equiv.refl UInt8, 0)
  | n + 1 =>
    let (perm, j) := schedule key n
    let j := j + perm (UInt8.ofNat n) + key.getD (n % key.length) 0
    ((Equiv.swap (UInt8.ofNat n) j).trans perm, j)

def start (key : List UInt8) : Rc4 := ⟨(schedule key 256).1, 0, 0⟩

def next (r : Rc4) : UInt8 × Rc4 :=
  let i := r.i + 1
  let j := r.j + r.perm i
  let perm := (Equiv.swap i j).trans r.perm
  (perm (perm i + perm j), ⟨perm, i, j⟩)

def stream : ℕ → Rc4 → List UInt8 × Rc4
  | 0, r => ([], r)
  | n + 1, r => (r.next.1 :: (stream n r.next.2).1, (stream n r.next.2).2)

/-! ### The key schedule on numbers -/

/-- Where exchanges, the last one first, take an index from. -/
def track : List (ℕ × ℕ) → ℕ → ℕ
  | [], a => a
  | (i, j) :: es, a => track es (bif a.beq i then j else bif a.beq j then i else a)

def exchanges (key : List UInt8) : ℕ → List (ℕ × ℕ) × ℕ
  | 0 => ([], 0)
  | n + 1 =>
    let (es, j) := exchanges key n
    let j := (j + track es n + (key.getD (n % key.length) 0).toNat) % 256
    ((n, j) :: es, j)

theorem exchanges_eq (key : List UInt8) {n : ℕ} (hn : n ≤ 256) :
    (∀ a : UInt8, track (exchanges key n).1 a.toNat = ((schedule key n).1 a).toNat) ∧
      (exchanges key n).2 = (schedule key n).2.toNat := by
  induction n with
  | zero => exact ⟨fun _ => rfl, rfl⟩
  | succ n ih =>
    obtain ⟨htrack, hj⟩ := ih (Nat.le_of_succ_le hn)
    have hto : (UInt8.ofNat n).toNat = n := by
      rw [UInt8.toNat_ofNat']
      omega
    have hn := htrack (UInt8.ofNat n)
    rw [hto] at hn
    have hnext : (exchanges key (n + 1)).2 = (schedule key (n + 1)).2.toNat := by
      simp only [exchanges, schedule, hj, hn, UInt8.toNat_add]
      omega
    refine ⟨fun a => ?_, hnext⟩
    change track ((n, (exchanges key (n + 1)).2) :: (exchanges key n).1) a.toNat =
      ((schedule key n).1 (Equiv.swap (UInt8.ofNat n) (schedule key (n + 1)).2 a)).toNat
    have heq (b : UInt8) : a.toNat.beq b.toNat = decide (a = b) := by
      rw [Bool.eq_iff_iff, Nat.beq_eq, decide_eq_true_iff, UInt8.toNat_inj]
    have hi := heq (UInt8.ofNat n)
    rw [hto] at hi
    rw [hnext, track, ← htrack, hi, heq, Equiv.swap_apply_def]
    simp only [Bool.cond_decide, apply_ite UInt8.toNat, hto]

end Rc4

end OsMaterial
