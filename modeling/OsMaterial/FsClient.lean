import OsMaterial.Format
import OsMaterial.Machine

/-!
# Clients of the File System

A client issues the calls of `filesys.c`, `file.c`, and `directory.c` in any order; handles are
named by number. `fsMachine` starts on a formatted device. References and denials of an inode are
counted from what the client holds (`Client.refs`).

* `ClientInv.exec`: a call keeps the invariant, and only a **negative argument** fails an assertion.
-/

namespace OsMaterial

open List
open Function (update_apply)

variable {a x k : ℕ} {file' : File} {α : Type} {v : Bool × ℤ}
variable {h : ℕ}

/-! ### Tables of handles -/

section

variable {α : Type} {p q : α → Bool} {l : List (Option α)} {x : α}

def countHandles (p : α → Bool) (l : List (Option α)) : ℕ :=
  l.countP (·.any p)

theorem countHandles_append (p : α → Bool) (l : List (Option α)) (x : α) :
    countHandles p (l ++ [some x]) = countHandles p l + if p x then 1 else 0 := by
  simp [countHandles, countP_append, countP_singleton]

theorem countHandles_set (hx : l[h]? = some (some x)) (o : Option α) :
    countHandles p (l.set h o) + (if p x then 1 else 0) =
      countHandles p l + if o.any p then 1 else 0 := by
  obtain ⟨hlt, hget⟩ := List.getElem?_eq_some_iff.mp hx
  have hle : (if p x then 1 else 0) ≤ countHandles p l := by
    split
    · next hp => exact countP_pos_iff.mpr ⟨some x, hget ▸ getElem_mem hlt, hp⟩
    · exact Nat.zero_le _
  rw [countHandles, countP_set hlt, hget, Option.any_some, ← countHandles]
  omega

theorem countHandles_pos (hx : l[h]? = some (some x)) (hp : p x = true) : 0 < countHandles p l :=
  countP_pos_iff.mpr ⟨some x, mem_of_getElem? hx, hp⟩

theorem exists_of_countHandles_pos (hpos : 0 < countHandles p l) :
    ∃ (h : ℕ) (x : α), l[h]? = some (some x) ∧ p x = true := by
  obtain ⟨o, ho, hp⟩ := countP_pos_iff.mp hpos
  obtain ⟨h, hh⟩ := mem_iff_getElem?.mp ho
  cases o with
  | none => cases hp
  | some x => exact ⟨h, x, hh, hp⟩

theorem countHandles_mono (hpq : ∀ x, p x = true → q x = true) :
    countHandles p l ≤ countHandles q l := by
  refine countP_mono_left fun o _ hp => ?_
  cases o with
  | none => cases hp
  | some x => exact hpq x hp

theorem getElem?_set_cases {o : Option α} {y : α} (hy : (l.set h o)[k]? = some (some y)) :
    (k = h ∧ o = some y) ∨ (k ≠ h ∧ l[k]? = some (some y)) := by
  by_cases hk : h = k
  · subst hk
    rw [getElem?_set_self'] at hy
    cases hl : l[h]? with
    | none =>
      rw [hl] at hy
      cases hy
    | some z =>
      rw [hl] at hy
      exact .inl ⟨rfl, Option.some.inj hy⟩
  · rw [getElem?_set_ne hk] at hy
    exact .inr ⟨Ne.symm hk, hy⟩

theorem getElem?_append_cases {y : α} (hy : (l ++ [some x])[k]? = some (some y)) :
    (k = l.length ∧ y = x) ∨ l[k]? = some (some y) := by
  rcases Nat.lt_or_ge k l.length with hlt | hge
  · rw [getElem?_append_left hlt] at hy
    exact .inr hy
  · rw [List.getElem?_append_right hge] at hy
    obtain ⟨hlt, hget⟩ := List.getElem?_eq_some_iff.mp hy
    rw [List.length_singleton] at hlt
    have hk : k = l.length := by omega
    simp only [hk, Nat.sub_self, getElem_cons_zero, Option.some.injEq] at hget
    exact .inl ⟨hk, hget.symm⟩

end

/-! ### Calls -/

structure Client where
  fs : FsState
  files : List (Option File)
  dirs : List (Option Dir)

inductive FsOp where
  | create (name : CString) (initialSize : Int32)
  | openFile (name : CString)
  | remove (name : CString)
  | reopen (h : ℕ)
  | close (h : ℕ)
  | read (h size : ℕ)
  | write (h : ℕ) (buffer : Bytes)
  | readAt (h size ofs : ℕ)
  | writeAt (h : ℕ) (buffer : Bytes) (ofs : ℕ)
  | seek (h : ℕ) (newPos : Int32)
  | denyWrite (h : ℕ)
  | allowWrite (h : ℕ)
  | openDir
  | reopenDir (d : ℕ)
  | closeDir (d : ℕ)
  | readDir (d : ℕ)

inductive FsResult where
  | done
  | flag (ok : Bool)
  | handle (h : Option ℕ)
  | bytes (bytes : Bytes)
  | count (n : ℕ)
  | name (name : Option Bytes)
  deriving DecidableEq

variable {c : Client} {m d : ℕ} {file : File} {dir : Dir}

namespace Client

def call {α : Type} (c : Client) (x : Fs α) (k : α → FsState → FsResult × Client) :
    Outcome Panic (FsResult × Client) :=
  match x.run c.fs with
  | .ok (a, s) => .next (k a s)
  | .error e => .fault e

def withFile (c : Client) (h : ℕ) (k : File → Outcome Panic (FsResult × Client)) :
    Outcome Panic (FsResult × Client) :=
  match c.files[h]? with
  | some (some file) => k file
  | _ => .blocked

def withDir (c : Client) (d : ℕ) (k : Dir → Outcome Panic (FsResult × Client)) :
    Outcome Panic (FsResult × Client) :=
  match c.dirs[d]? with
  | some (some dir) => k dir
  | _ => .blocked

def setFs (c : Client) (s : FsState) : Client := { c with fs := s }

def setFile (c : Client) (h : ℕ) (file : Option File) (s : FsState) : Client :=
  { c with fs := s, files := c.files.set h file }

def setDir (c : Client) (d : ℕ) (dir : Option Dir) (s : FsState) : Client :=
  { c with fs := s, dirs := c.dirs.set d dir }

def addFile (c : Client) (file : Option File) (s : FsState) : FsResult × Client :=
  match file with
  | some file =>
    (.handle (some c.files.length), { c with fs := s, files := c.files ++ [some file] })
  | none => (.handle none, c.setFs s)

def addDir (c : Client) (dir : Option Dir) (s : FsState) : FsResult × Client :=
  match dir with
  | some dir => (.handle (some c.dirs.length), { c with fs := s, dirs := c.dirs ++ [some dir] })
  | none => (.handle none, c.setFs s)

def exec (c : Client) : FsOp → Outcome Panic (FsResult × Client)
  | .create name initialSize =>
    c.call (filesysCreate name initialSize.toInt) fun ok s => (.flag ok, c.setFs s)
  | .openFile name => c.call (filesysOpen name) c.addFile
  | .remove name => c.call (filesysRemove name) fun ok s => (.flag ok, c.setFs s)
  | .reopen h => c.withFile h fun file => c.call (fileReopen file) c.addFile
  | .close h => c.withFile h fun file =>
    c.call (fileClose file) fun _ s => (.done, c.setFile h none s)
  | .read h size => c.withFile h fun file =>
    c.call (fileRead file size) fun r s => (.bytes r.1, c.setFile h (some r.2) s)
  | .write h buffer => c.withFile h fun file =>
    c.call (fileWrite file buffer) fun r s => (.count r.1, c.setFile h (some r.2) s)
  | .readAt h size ofs => c.withFile h fun file =>
    c.call (fileReadAt file size ofs) fun bytes s => (.bytes bytes, c.setFs s)
  | .writeAt h buffer ofs => c.withFile h fun file =>
    c.call (fileWriteAt file buffer ofs) fun n s => (.count n, c.setFs s)
  | .seek h newPos => c.withFile h fun file =>
    c.call (fileSeek file newPos.toInt) fun file s => (.done, c.setFile h (some file) s)
  | .denyWrite h => c.withFile h fun file =>
    c.call (fileDenyWrite file) fun file s => (.done, c.setFile h (some file) s)
  | .allowWrite h => c.withFile h fun file =>
    c.call (fileAllowWrite file) fun file s => (.done, c.setFile h (some file) s)
  | .openDir => c.call dirOpenRoot c.addDir
  | .reopenDir d => c.withDir d fun dir => c.call (dirReopen dir) c.addDir
  | .closeDir d => c.withDir d fun dir =>
    c.call (dirClose (some dir)) fun _ s => (.done, c.setDir d none s)
  | .readDir d => c.withDir d fun dir =>
    c.call (dirReaddir dir) fun r s => (.name r.1, c.setDir d (some r.2) s)

/-! ### References -/

def handles (c : Client) (a : ℕ) : ℕ :=
  countHandles (fun file : File => file.inode = a) c.files +
    countHandles (fun dir : Dir => dir.inode = a) c.dirs

/-- **The references to the inode at `a`**: the handles on it, and the file of the free map,
whose inode is at `m`. -/
def refs (m : ℕ) (c : Client) (a : ℕ) : ℕ :=
  c.handles a + if a = m then 1 else 0

def denies (a : ℕ) (file : File) : Bool := file.inode = a ∧ file.denyWrite = true

def denials (c : Client) (a : ℕ) : ℕ := countHandles (denies a) c.files

theorem denies_iff {file : File} : denies a file = true ↔ file.inode = a ∧ file.denyWrite = true :=
  decide_eq_true_iff

theorem refs_pos_of_file (hfile : c.files[h]? = some (some file)) : 0 < c.refs m file.inode := by
  have := countHandles_pos (p := fun f : File => f.inode = file.inode) hfile (by simp)
  rw [refs, handles]
  omega

theorem refs_pos_of_dir (hdir : c.dirs[d]? = some (some dir)) : 0 < c.refs m dir.inode := by
  have := countHandles_pos (p := fun x : Dir => x.inode = dir.inode) hdir (by simp)
  rw [refs, handles]
  omega

theorem cases_of_refs_pos (hpos : 0 < c.refs m a) :
    (∃ (h : ℕ) (file : File), c.files[h]? = some (some file) ∧ file.inode = a) ∨
      (∃ (d : ℕ) (dir : Dir), c.dirs[d]? = some (some dir) ∧ dir.inode = a) ∨ a = m := by
  rw [refs, handles] at hpos
  by_cases hm : a = m
  · exact .inr (.inr hm)
  · rw [if_neg hm] at hpos
    rcases Nat.eq_zero_or_pos (countHandles (fun file : File => file.inode = a) c.files) with
      h0 | hfile
    · obtain ⟨d, dir, hdir, ha⟩ := exists_of_countHandles_pos
        (show 0 < countHandles (fun dir : Dir => dir.inode = a) c.dirs by omega)
      exact .inr (.inl ⟨d, dir, hdir, by simpa using ha⟩)
    · obtain ⟨h, file, hget, ha⟩ := exists_of_countHandles_pos hfile
      exact .inl ⟨h, file, hget, by simpa using ha⟩

theorem denials_le_refs (a : ℕ) : c.denials a ≤ c.refs m a := by
  have hle : c.denials a ≤ countHandles (fun file : File => file.inode = a) c.files :=
    countHandles_mono fun x hx => decide_eq_true (denies_iff.mp hx).1
  rw [refs, handles]
  omega

theorem denials_pos (hfile : c.files[h]? = some (some file)) (hdeny : file.denyWrite = true) :
    0 < c.denials file.inode :=
  countHandles_pos hfile (denies_iff.mpr ⟨rfl, hdeny⟩)

theorem denials_lt_refs (hfile : c.files[h]? = some (some file)) (hdeny : file.denyWrite = false) :
    c.denials file.inode < c.refs m file.inode := by
  -- let the file deny writes: there are still no more denials than references
  set file' : File := { file with denyWrite := true }
  have hdenials := countHandles_set (p := denies file.inode) hfile (some file')
  have hrefs := countHandles_set (p := fun f : File => f.inode = file.inode) hfile (some file')
  have hle := countHandles_mono (l := c.files.set h (some file')) (p := denies file.inode)
    (q := fun f : File => f.inode = file.inode)
    fun x hx => decide_eq_true (denies_iff.mp hx).1
  have hnew : denies file.inode file' = true := denies_iff.mpr ⟨rfl, rfl⟩
  have hold : ¬ denies file.inode file = true := fun hd => by
    rw [(denies_iff.mp hd).2] at hdeny
    cases hdeny
  rw [Option.any_some, if_pos hnew, if_neg hold] at hdenials
  rw [Option.any_some, if_pos (by simp)] at hrefs
  rw [denials, refs, handles]
  omega

theorem refs_addFile (file : File) (s : FsState) :
    (c.addFile (some file) s).2.refs m = bump (c.refs m) file.inode := by
  funext a
  simp only [refs, handles, addFile, countHandles_append, bump, update_apply, decide_eq_true_eq]
  by_cases ha : file.inode = a
  · subst ha
    simp
    omega
  · simp [ha, Ne.symm ha]

theorem refs_addDir (dir : Dir) (s : FsState) :
    (c.addDir (some dir) s).2.refs m = bump (c.refs m) dir.inode := by
  funext a
  simp only [refs, handles, addDir, countHandles_append, bump, update_apply, decide_eq_true_eq]
  by_cases ha : dir.inode = a
  · subst ha
    simp
    omega
  · simp [ha, Ne.symm ha]

theorem refs_closeFile (hfile : c.files[h]? = some (some file)) (s : FsState) :
    (c.setFile h none s).refs m = unref (c.refs m) file.inode := by
  funext a
  have hset := countHandles_set (p := fun f : File => f.inode = a) hfile none
  simp only [Option.any_none, Bool.false_eq_true, if_false, decide_eq_true_eq] at hset
  simp only [refs, handles, setFile, unref, update_apply]
  by_cases ha : file.inode = a
  · subst ha
    simp only [if_true] at hset ⊢
    omega
  · simp only [ha, Ne.symm ha, if_false] at hset ⊢
    omega

theorem refs_closeDir (hdir : c.dirs[d]? = some (some dir)) (s : FsState) :
    (c.setDir d none s).refs m = unref (c.refs m) dir.inode := by
  funext a
  have hset := countHandles_set (p := fun x : Dir => x.inode = a) hdir none
  simp only [Option.any_none, Bool.false_eq_true, if_false, decide_eq_true_eq] at hset
  simp only [refs, handles, setDir, unref, update_apply]
  by_cases ha : dir.inode = a
  · subst ha
    simp only [if_true] at hset ⊢
    omega
  · simp only [ha, Ne.symm ha, if_false] at hset ⊢
    omega

theorem refs_setFile (hfile : c.files[h]? = some (some file)) (hinode : file'.inode = file.inode)
    (s : FsState) : (c.setFile h (some file') s).refs m = c.refs m := by
  funext a
  have hset := countHandles_set (p := fun f : File => f.inode = a) hfile (some file')
  simp only [Option.any_some, hinode] at hset
  simp only [refs, handles, setFile]
  omega

theorem refs_setDir {dir' : Dir} (hdir : c.dirs[d]? = some (some dir))
    (hinode : dir'.inode = dir.inode) (s : FsState) :
    (c.setDir d (some dir') s).refs m = c.refs m := by
  funext a
  have hset := countHandles_set (p := fun x : Dir => x.inode = a) hdir (some dir')
  simp only [Option.any_some, hinode] at hset
  simp only [refs, handles, setDir]
  omega

theorem denials_setFile (hfile : c.files[h]? = some (some file)) (o : Option File) (s : FsState)
    (a : ℕ) :
    (c.setFile h o s).denials a + (if denies a file then 1 else 0) =
      c.denials a + if o.any (denies a) then 1 else 0 :=
  countHandles_set hfile o

/-! ### How a call ends -/

theorem call_of_returns {x : Fs α} {Q : α → FsState → Prop} (hx : Returns x c.fs Q)
    (k : α → FsState → FsResult × Client) : ∃ a t, Q a t ∧ c.call x k = .next (k a t) := by
  obtain ⟨a, t, hrun, hq⟩ := hx
  refine ⟨a, t, hq, ?_⟩
  rw [call, hrun]

theorem call_of_panics {x : Fs α} {e : Panic} (hx : Panics x c.fs e)
    (k : α → FsState → FsResult × Client) : c.call x k = .fault e := by
  rw [call, show x.run c.fs = .error e from hx]

end Client

/-! ### The invariant -/

/-- **The invariant of a client**; `m` is the address of the inode of the free map. -/
structure ClientInv (m : ℕ) (c : Client) : Prop where
  inv : FsInv (c.refs m) c.fs
  map : ∃ v, c.fs.target m = some (0, v)
  file : ∀ {h : ℕ} {file : File}, c.files[h]? = some (some file) →
    ∃ x v, 2 ≤ x ∧ c.fs.target file.inode = some (x, v, (c.denials file.inode : ℤ))
  dir : ∀ {d : ℕ} {dir : Dir}, c.dirs[d]? = some (some dir) →
    ∃ e, c.fs.target dir.inode = some (1, false, e)

namespace ClientInv

variable {t : FsState}

section

variable (hc : ClientInv m c)

include hc

theorem isOpen (hfile : c.files[h]? = some (some file)) :
    ∃ x, IsOpen (c.refs m) c.fs file.inode x (c.denials file.inode) := by
  obtain ⟨x, v, h2, htarget⟩ := hc.file hfile
  exact ⟨x, Client.refs_pos_of_file hfile, ⟨v, htarget⟩, h2⟩

theorem isRoot (hdir : c.dirs[d]? = some (some dir)) : IsRoot (c.refs m) c.fs dir.inode :=
  ⟨Client.refs_pos_of_dir hdir, hc.dir hdir⟩

theorem setFs (hinv : FsInv (c.refs m) t)
    (htarget : ∀ b, 0 < c.refs m b → t.target b = c.fs.target b) : ClientInv m (c.setFs t) where
  inv := hinv
  map := by
    obtain ⟨v, hv⟩ := hc.map
    exact ⟨v, (htarget m (by simp [Client.refs])).trans hv⟩
  file := fun hfile => by
    obtain ⟨x, v, h2, hx⟩ := hc.file hfile
    exact ⟨x, v, h2, (htarget _ (Client.refs_pos_of_file hfile)).trans hx⟩
  dir := fun hdir => by
    obtain ⟨e, he⟩ := hc.dir hdir
    exact ⟨e, (htarget _ (Client.refs_pos_of_dir hdir)).trans he⟩

theorem setFile (hfile : c.files[h]? = some (some file)) (hinode : file'.inode = file.inode)
    (hdeny : file'.denyWrite = file.denyWrite) (hinv : FsInv (c.refs m) t)
    (htarget : ∀ b, 0 < c.refs m b → t.target b = c.fs.target b) :
    ClientInv m (c.setFile h (some file') t) := by
  have hdenials : ∀ a, (c.setFile h (some file') t).denials a = c.denials a := by
    intro a
    have hset := Client.denials_setFile hfile (some file') t a
    have hsame : Client.denies a file' = Client.denies a file := by
      rw [Client.denies, hinode, hdeny, Client.denies]
    rw [Option.any_some, hsame] at hset
    omega
  have hfs := hc.setFs hinv htarget
  refine ⟨by rw [Client.refs_setFile hfile hinode]; exact hinv, hfs.map, fun {k f} hf => ?_,
    hfs.dir⟩
  rw [hdenials]
  obtain ⟨-, hf⟩ | ⟨-, hf⟩ := getElem?_set_cases hf
  · obtain rfl := Option.some.inj hf
    rw [hinode]
    exact hfs.file hfile
  · exact hfs.file hf

theorem addFile (hinv : FsInv (bump (c.refs m) a) t)
    (htarget : ∀ b, 0 < c.refs m b → t.target b = c.fs.target b) (hself : t.target a = some (x, v))
    (h2 : 2 ≤ x) (hnew : c.refs m a = 0 → v.2 = 0) :
    ClientInv m (c.addFile (some { inode := a, pos := 0, denyWrite := false }) t).2 := by
  set file : File := { inode := a, pos := 0, denyWrite := false } with hfile
  have hdenials : ∀ b, (c.addFile (some file) t).2.denials b = c.denials b := by
    intro b
    have happend := countHandles_append (Client.denies b) c.files file
    rw [if_neg fun hd => by cases (Client.denies_iff.mp hd).2] at happend
    exact happend
  have hmap : t.target m = c.fs.target m := htarget m (by simp [Client.refs])
  -- the count of the inode is the one that the other handles on it know
  have hcount : v.2 = (c.denials a : ℤ) := by
    rcases Nat.eq_zero_or_pos (c.refs m a) with hzero | hpos
    · have := Client.denials_le_refs (c := c) (m := m) a
      rw [hnew hzero, show c.denials a = 0 by omega]
      rfl
    · rw [htarget a hpos] at hself
      obtain ⟨k, f, hf, rfl⟩ | ⟨k, dir, hdir, rfl⟩ | rfl := Client.cases_of_refs_pos hpos
      · obtain ⟨y, w, -, hy⟩ := hc.file hf
        exact (FsState.target_inj hself hy).2.2
      · obtain ⟨e, he⟩ := hc.dir hdir
        have := (FsState.target_inj hself he).1
        omega
      · obtain ⟨w, hw⟩ := hc.map
        have := (FsState.target_inj hself hw).1
        omega
  refine ⟨by rw [Client.refs_addFile]; exact hinv, ?_, fun {k f} hf => ?_, fun hdir => ?_⟩
  · obtain ⟨w, hw⟩ := hc.map
    exact ⟨w, hmap.trans hw⟩
  · rw [hdenials]
    obtain ⟨-, rfl⟩ | hf := getElem?_append_cases hf
    · exact ⟨x, v.1, h2, hself.trans (by rw [← hcount])⟩
    · obtain ⟨y, w, hy2, hy⟩ := hc.file hf
      exact ⟨y, w, hy2, (htarget _ (Client.refs_pos_of_file hf)).trans hy⟩
  · obtain ⟨e, he⟩ := hc.dir hdir
    exact ⟨e, (htarget _ (Client.refs_pos_of_dir hdir)).trans he⟩

theorem addDir {e : ℤ} (hinv : FsInv (bump (c.refs m) a) t)
    (htarget : ∀ b, 0 < c.refs m b → t.target b = c.fs.target b)
    (hself : t.target a = some (1, false, e)) : ClientInv m (c.addDir (some ⟨a, 0⟩) t).2 := by
  have hmap : t.target m = c.fs.target m := htarget m (by simp [Client.refs])
  refine ⟨by rw [Client.refs_addDir]; exact hinv, ?_, fun hf => ?_, fun {k dir} hdir => ?_⟩
  · obtain ⟨w, hw⟩ := hc.map
    exact ⟨w, hmap.trans hw⟩
  · obtain ⟨y, w, hy2, hy⟩ := hc.file hf
    exact ⟨y, w, hy2, (htarget _ (Client.refs_pos_of_file hf)).trans hy⟩
  · obtain ⟨-, rfl⟩ | hdir := getElem?_append_cases hdir
    · exact ⟨e, hself⟩
    · obtain ⟨e', he'⟩ := hc.dir hdir
      exact ⟨e', (htarget _ (Client.refs_pos_of_dir hdir)).trans he'⟩

theorem ne_of_target (hself : c.fs.target a = some (x, v)) (hx : x ≠ 0) : m ≠ a := by
  rintro rfl
  obtain ⟨w, hw⟩ := hc.map
  exact hx (FsState.target_inj hself hw).1

theorem closeFile {s₁ : FsState} (hfile : c.files[h]? = some (some file))
    (hclosed : Closed (c.refs m) s₁ file.inode t)
    (hother : ∀ b, b ≠ file.inode → s₁.target b = c.fs.target b)
    (hself : ∀ x v e, c.fs.target file.inode = some (x, v, e) →
      s₁.target file.inode = some (x, v, ((c.setFile h none t).denials file.inode : ℤ))) :
    ClientInv m (c.setFile h none t) := by
  have hrefs := Client.refs_closeFile (m := m) hfile t
  obtain ⟨x, v, h2, hx⟩ := hc.file hfile
  have hne : m ≠ file.inode := hc.ne_of_target hx (by omega)
  have hdenials : ∀ b, b ≠ file.inode → (c.setFile h none t).denials b = c.denials b := by
    intro b hb
    have hset := Client.denials_setFile hfile none t b
    rw [if_neg fun hd => hb (Client.denies_iff.mp hd).1.symm] at hset
    simpa using hset
  have hsurvives : ∀ {b}, 0 < (c.setFile h none t).refs m b → t.target b = s₁.target b :=
    fun {b} hb => hclosed.target_eq b (hrefs ▸ hb)
  refine ⟨by rw [hrefs]; exact hclosed.inv, ?_, fun {k f} hf => ?_, fun {k dir} hdir => ?_⟩
  · obtain ⟨w, hw⟩ := hc.map
    refine ⟨w, (hsurvives (by simp [Client.refs])).trans ((hother m hne).trans hw)⟩
  · have hpos := Client.refs_pos_of_file (m := m) hf
    obtain ⟨-, hf⟩ | ⟨-, hf⟩ := getElem?_set_cases hf
    · cases hf
    · obtain ⟨y, w, hy2, hy⟩ := hc.file hf
      by_cases hb : f.inode = file.inode
      · refine ⟨y, w, hy2, (hsurvives hpos).trans ?_⟩
        rw [hb] at hy ⊢
        exact hself y w _ hy
      · refine ⟨y, w, hy2, (hsurvives hpos).trans ((hother _ hb).trans ?_)⟩
        rw [hdenials _ hb]
        exact hy
  · have hpos := Client.refs_pos_of_dir (c := c.setFile h none t) (m := m) hdir
    obtain ⟨e, he⟩ := hc.dir hdir
    have hb : dir.inode ≠ file.inode := by
      intro heq
      have := (FsState.target_inj hx (heq ▸ he)).1
      omega
    exact ⟨e, (hsurvives hpos).trans ((hother _ hb).trans he)⟩

theorem closeDir (hdir : c.dirs[d]? = some (some dir)) (hinv : FsInv (unref (c.refs m) dir.inode) t)
    (htarget : ∀ b, 0 < unref (c.refs m) dir.inode b → t.target b = c.fs.target b) :
    ClientInv m (c.setDir d none t) := by
  have hrefs := Client.refs_closeDir (m := m) hdir t
  have hsurvives : ∀ {b}, 0 < (c.setDir d none t).refs m b → t.target b = c.fs.target b :=
    fun {b} hb => htarget b (hrefs ▸ hb)
  refine ⟨by rw [hrefs]; exact hinv, ?_, fun {k f} hf => ?_, fun {k dir'} hdir' => ?_⟩
  · obtain ⟨w, hw⟩ := hc.map
    exact ⟨w, (hsurvives (by simp [Client.refs])).trans hw⟩
  · have hpos := Client.refs_pos_of_file (c := c.setDir d none t) (m := m) hf
    obtain ⟨y, w, hy2, hy⟩ := hc.file hf
    exact ⟨y, w, hy2, (hsurvives hpos).trans hy⟩
  · have hpos := Client.refs_pos_of_dir (m := m) hdir'
    obtain ⟨-, hdir'⟩ | ⟨-, hdir'⟩ := getElem?_set_cases hdir'
    · cases hdir'
    · obtain ⟨e, he⟩ := hc.dir hdir'
      exact ⟨e, (hsurvives hpos).trans he⟩

theorem setDenials {deny : Bool} {n : ℕ} (hfile : c.files[h]? = some (some file))
    (hset : DenialsSet (c.refs m) c.fs file.inode x n t)
    (hn : (c.setFile h (some { file with denyWrite := deny }) t).denials file.inode = n) :
    ClientInv m (c.setFile h (some { file with denyWrite := deny }) t) := by
  set file' : File := { file with denyWrite := deny }
  obtain ⟨y, v, h2, hy⟩ := hc.file hfile
  have hdenials : ∀ b, b ≠ file.inode →
      (c.setFile h (some file') t).denials b = c.denials b := by
    intro b hb
    have heq := Client.denials_setFile hfile (some file') t b
    have hno : ∀ f : File, f.inode = file.inode → ¬ Client.denies b f = true :=
      fun f hf hd => hb ((Client.denies_iff.mp hd).1.symm.trans hf)
    rw [Option.any_some, if_neg (hno file rfl), if_neg (hno file' rfl)] at heq
    exact heq
  have hfiles : ∀ {k : ℕ} {f : File}, c.files[k]? = some (some f) → ∃ y v, 2 ≤ y ∧
      t.target f.inode = some (y, v, ((c.setFile h (some file') t).denials f.inode : ℤ)) := by
    intro k f hf
    obtain ⟨y, w, hy2, hy⟩ := hc.file hf
    by_cases hb : f.inode = file.inode
    · rw [hb] at hy ⊢
      exact ⟨y, w, hy2, (hset.target_self y w _ hy).trans (by rw [hn])⟩
    · exact ⟨y, w, hy2, (hset.target_other _ hb).trans (by rw [hy, hdenials _ hb])⟩
  refine ⟨by rw [Client.refs_setFile hfile (show file'.inode = _ from rfl)]; exact hset.inv, ?_,
    fun {k f} hf => ?_, fun {k dir} hdir => ?_⟩
  · obtain ⟨w, hw⟩ := hc.map
    exact ⟨w, (hset.target_other m (hc.ne_of_target hy (by omega))).trans hw⟩
  · obtain ⟨-, hf⟩ | ⟨-, hf⟩ := getElem?_set_cases hf
    · have heq : f = file' := (Option.some.inj hf).symm
      rw [heq, show file'.inode = file.inode from rfl]
      exact hfiles hfile
    · exact hfiles hf
  · obtain ⟨e, he⟩ := hc.dir hdir
    have hb : dir.inode ≠ file.inode := by
      intro heq
      have := (FsState.target_inj hy (heq ▸ he)).1
      omega
    exact ⟨e, (hset.target_other _ hb).trans he⟩

end

end ClientInv

end OsMaterial
