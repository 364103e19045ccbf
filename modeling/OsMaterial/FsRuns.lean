import Mathlib.Data.List.Nodup
import OsMaterial.FsClient
import OsMaterial.Machine

/-!
# Runs of the File System

A formatted file system under every sequence of calls. `Ends` says once how a call can end, and
`Ends.inv` that each way keeps the invariant.

* `fs_ownership`: the owned extents are disjoint and marked, and only marked sectors are released.
* `create_atomic_iff`: when a failed `filesys_create` leaves the free map alone.
* `freeMap_persistent`: the free map is on the device, and a shutdown keeps everything.
-/

namespace OsMaterial

/-- **How a call of a client can end**: what it returns, and the state after it. -/
inductive Ends (m : ℕ) (c : Client) : FsOp → FsResult → Client → Prop
  | create {name size ok t} (nonneg : 0 ≤ size.toInt) (framed : Framed (c.refs m) c.fs t)
      (created : CreateEnd c.fs name size.toInt ok t) :
      Ends m c (.create name size) (.flag ok) (c.setFs t)
  | createNegative {name size t} (neg : size.toInt < 0) (framed : Framed (c.refs m) c.fs t) :
      Ends m c (.create name size) (.flag false) (c.setFs t)
  | opened {name i x b t} (lt : i < 16) (slot : c.fs.slot i = some (name.bytes, x))
      (opened : Opened (c.refs m) c.fs x b t) :
      Ends m c (.openFile name) (.handle (some c.files.length))
        (c.addFile (some { inode := b, pos := 0, denyWrite := false }) t).2
  | notOpened {name t} (unbound : ¬ c.fs.BoundName name) (same : SameVolume c.fs t)
      (framed : Framed (c.refs m) c.fs t) :
      Ends m c (.openFile name) (.handle none) (c.setFs t)
  | removed {name i x t} (lt : i < 16) (slot : c.fs.slot i = some (name.bytes, x))
      (removed : Removed (c.refs m) c.fs i x t) :
      Ends m c (.remove name) (.flag true) (c.setFs t)
  | notRemoved {name t} (unbound : ¬ c.fs.BoundName name) (same : SameVolume c.fs t)
      (framed : Framed (c.refs m) c.fs t) :
      Ends m c (.remove name) (.flag false) (c.setFs t)
  | reopened {h file t} (file_eq : c.files[h]? = some (some file))
      (inv : FsInv (bump (c.refs m) file.inode) t) (same : SameVolume c.fs t)
      (target_eq : ∀ b, t.target b = c.fs.target b) :
      Ends m c (.reopen h) (.handle (some c.files.length))
        (c.addFile (some { inode := file.inode, pos := 0, denyWrite := false }) t).2
  | closed {h file x s₁ t} (file_eq : c.files[h]? = some (some file))
      (denials : if file.denyWrite then
        DenialsSet (c.refs m) c.fs file.inode x (c.denials file.inode - 1) s₁ else s₁ = c.fs)
      (closed : Closed (c.refs m) s₁ file.inode t) :
      Ends m c (.close h) .done (c.setFile h none t)
  | read {h size file x} (file_eq : c.files[h]? = some (some file))
      (isOpen : IsOpen (c.refs m) c.fs file.inode x (c.denials file.inode)) :
      Ends m c (.read h size) (.bytes (((c.fs.contents x).drop file.pos).take size))
        (c.setFile h (some { file with
          pos := file.pos + (((c.fs.contents x).drop file.pos).take size).length }) c.fs)
  | wrote {h buffer file x t} (file_eq : c.files[h]? = some (some file))
      (isOpen : IsOpen (c.refs m) c.fs file.inode x 0) (denials : c.denials file.inode = 0)
      (wrote : Wrote (c.refs m) c.fs x file.pos
        (buffer.take ((c.fs.contents x).length - file.pos)) t) :
      Ends m c (.write h buffer)
        (.count (buffer.take ((c.fs.contents x).length - file.pos)).length)
        (c.setFile h (some { file with
          pos := file.pos + (buffer.take ((c.fs.contents x).length - file.pos)).length }) t)
  | writeDenied {h buffer file} (file_eq : c.files[h]? = some (some file))
      (denials : c.denials file.inode ≠ 0) :
      Ends m c (.write h buffer) (.count 0) (c.setFile h (some file) c.fs)
  | readAt {h size ofs file x} (file_eq : c.files[h]? = some (some file))
      (isOpen : IsOpen (c.refs m) c.fs file.inode x (c.denials file.inode)) :
      Ends m c (.readAt h size ofs) (.bytes (((c.fs.contents x).drop ofs).take size)) (c.setFs c.fs)
  | wroteAt {h buffer ofs file x t} (file_eq : c.files[h]? = some (some file))
      (isOpen : IsOpen (c.refs m) c.fs file.inode x 0) (denials : c.denials file.inode = 0)
      (wrote : Wrote (c.refs m) c.fs x ofs (buffer.take ((c.fs.contents x).length - ofs)) t) :
      Ends m c (.writeAt h buffer ofs)
        (.count (buffer.take ((c.fs.contents x).length - ofs)).length) (c.setFs t)
  | writeAtDenied {h buffer ofs file} (file_eq : c.files[h]? = some (some file))
      (denials : c.denials file.inode ≠ 0) :
      Ends m c (.writeAt h buffer ofs) (.count 0) (c.setFs c.fs)
  | seek {h newPos file} (file_eq : c.files[h]? = some (some file))
      (nonneg : 0 ≤ newPos.toInt) :
      Ends m c (.seek h newPos) .done
        (c.setFile h (some { file with pos := newPos.toInt.toNat }) c.fs)
  | denied {h file x t} (file_eq : c.files[h]? = some (some file))
      (deny : file.denyWrite = false)
      (set : DenialsSet (c.refs m) c.fs file.inode x ((c.denials file.inode + 1 : ℕ) : ℤ) t) :
      Ends m c (.denyWrite h) .done (c.setFile h (some { file with denyWrite := true }) t)
  | deniedBefore {h file} (file_eq : c.files[h]? = some (some file)) :
      Ends m c (.denyWrite h) .done (c.setFile h (some file) c.fs)
  | allowed {h file x t} (file_eq : c.files[h]? = some (some file))
      (deny : file.denyWrite = true)
      (set : DenialsSet (c.refs m) c.fs file.inode x ((c.denials file.inode - 1 : ℕ) : ℤ) t) :
      Ends m c (.allowWrite h) .done (c.setFile h (some { file with denyWrite := false }) t)
  | allowedBefore {h file} (file_eq : c.files[h]? = some (some file)) :
      Ends m c (.allowWrite h) .done (c.setFile h (some file) c.fs)
  | openedDir {a t} (opened : Opened (c.refs m) c.fs 1 a t) :
      Ends m c .openDir (.handle (some c.dirs.length)) (c.addDir (some ⟨a, 0⟩) t).2
  | reopenedDir {d dir t} (dir_eq : c.dirs[d]? = some (some dir))
      (inv : FsInv (bump (c.refs m) dir.inode) t) (same : SameVolume c.fs t)
      (target_eq : ∀ b, t.target b = c.fs.target b) :
      Ends m c (.reopenDir d) (.handle (some c.dirs.length)) (c.addDir (some ⟨dir.inode, 0⟩) t).2
  | closedDir {d dir t} (dir_eq : c.dirs[d]? = some (some dir))
      (inv : FsInv (unref (c.refs m) dir.inode) t) (same : SameVolume c.fs t)
      (target_eq : ∀ b, 0 < unref (c.refs m) dir.inode b → t.target b = c.fs.target b) :
      Ends m c (.closeDir d) .done (c.setDir d none t)
  | readDir {d dir name dir'} (dir_eq : c.dirs[d]? = some (some dir))
      (inode_eq : dir'.inode = dir.inode) :
      Ends m c (.readDir d) (.name name) (c.setDir d (some dir') c.fs)

inductive ExecCases (m : ℕ) (c : Client) (op : FsOp) : Outcome Panic (FsResult × Client) → Prop
  | blocked : ExecCases m c op .blocked
  | negativeLength {name size} (op_eq : op = .create name size) (neg : size.toInt < 0) :
      ExecCases m c op (.fault .negativeLength)
  | negativePosition {h newPos} (op_eq : op = .seek h newPos) (neg : newPos.toInt < 0) :
      ExecCases m c op (.fault .negativePosition)
  | next {r c'} (ends : Ends m c op r c') : ExecCases m c op (.next (r, c'))

variable {t : FsState} {h x n : ℕ} {file : File} {size : ℤ} {name : CString} {op : FsOp} {ok : Bool}
variable {c : Client} {m : ℕ}

namespace Client

theorem withFile_cases {k : File → Outcome Panic (FsResult × Client)}
    (hk : ∀ {file : File}, c.files[h]? = some (some file) → ExecCases m c op (k file)) :
    ExecCases m c op (c.withFile h k) := by
  rw [withFile]
  split
  case h_1 file hfile => exact hk hfile
  case h_2 => exact .blocked

theorem withDir_cases {d : ℕ} {k : Dir → Outcome Panic (FsResult × Client)}
    (hk : ∀ {dir : Dir}, c.dirs[d]? = some (some dir) → ExecCases m c op (k dir)) :
    ExecCases m c op (c.withDir d k) := by
  rw [withDir]
  split
  case h_1 dir hdir => exact hk hdir
  case h_2 => exact .blocked

theorem call_cases {α : Type} {x : Fs α} {Q : α → FsState → Prop}
    {k : α → FsState → FsResult × Client} (hx : Returns x c.fs Q)
    (hk : ∀ a t, Q a t → Ends m c op (k a t).1 (k a t).2) : ExecCases m c op (c.call x k) := by
  obtain ⟨a, t, hq, heq⟩ := call_of_returns hx k
  rw [heq]
  exact .next (hk a t hq)

variable (hc : ClientInv m c)
include hc

theorem exec_create_cases (name : CString) (size : Int32) :
    ExecCases m c (.create name size) (c.exec (.create name size)) := by
  rcases lt_or_ge size.toInt 0 with hneg | hpos
  · rcases filesysCreate_negative hc.inv name hneg with hret | hpanic
    · refine call_cases hret ?_
      rintro _ t ⟨rfl, hframed⟩
      exact .createNegative hneg hframed
    · rw [exec, call_of_panics hpanic]
      exact .negativeLength rfl hneg
  · refine call_cases (filesysCreate_returns hc.inv name hpos size.toInt_lt) ?_
    rintro ok t ⟨hframed, hend, -⟩
    exact .create hpos hframed hend

theorem exec_openFile_cases (name : CString) :
    ExecCases m c (.openFile name) (c.exec (.openFile name)) := by
  refine call_cases (filesysOpen_returns hc.inv name) ?_
  rintro _ t (⟨i, hi, x, b, hslot, rfl, hopened⟩ | ⟨hunbound, rfl, hsame, hframed⟩)
  · exact .opened hi hslot hopened
  · exact .notOpened hunbound hsame hframed

theorem exec_remove_cases (name : CString) :
    ExecCases m c (.remove name) (c.exec (.remove name)) := by
  refine call_cases (filesysRemove_returns hc.inv name) ?_
  rintro _ t (⟨rfl, i, hi, x, hslot, hremoved⟩ | ⟨rfl, hunbound, hsame, hframed⟩)
  · exact .removed hi hslot hremoved
  · exact .notRemoved hunbound hsame hframed

theorem exec_reopen_cases (h : ℕ) : ExecCases m c (.reopen h) (c.exec (.reopen h)) := by
  refine withFile_cases fun {file} hfile => ?_
  refine call_cases (fileReopen_returns hc.inv (refs_pos_of_file hfile)) ?_
  rintro _ t ⟨rfl, hinv, hsame, htarget⟩
  exact .reopened hfile hinv hsame htarget

theorem exec_close_cases (h : ℕ) : ExecCases m c (.close h) (c.exec (.close h)) := by
  refine withFile_cases fun {file} hfile => ?_
  obtain ⟨x, hx⟩ := hc.isOpen hfile
  have hle := denials_le_refs (c := c) (m := m) file.inode
  refine call_cases (fileClose_returns hx hc.inv fun hdeny => ?_) ?_
  · have := denials_pos hfile hdeny
    omega
  · rintro _ t ⟨s₁, hclosed, hdenials⟩
    exact .closed hfile hdenials hclosed

theorem exec_read_cases (h size : ℕ) : ExecCases m c (.read h size) (c.exec (.read h size)) := by
  refine withFile_cases fun {file} hfile => ?_
  obtain ⟨x, hx⟩ := hc.isOpen hfile
  refine call_cases (fileRead_returns hx hc.inv size) ?_
  rintro _ _ ⟨rfl, rfl⟩
  exact .read hfile hx

theorem exec_write_cases (h : ℕ) (buffer : Bytes) :
    ExecCases m c (.write h buffer) (c.exec (.write h buffer)) := by
  refine withFile_cases fun {file} hfile => ?_
  obtain ⟨x, hx⟩ := hc.isOpen hfile
  by_cases hd : c.denials file.inode = 0
  · rw [hd] at hx
    refine call_cases (fileWrite_returns hx hc.inv buffer) ?_
    rintro _ t ⟨hwrote, rfl⟩
    exact .wrote hfile hx hd hwrote
  · refine call_cases (fileWrite_denied hx hc.inv (by omega) buffer) ?_
    rintro _ _ ⟨rfl, rfl⟩
    exact .writeDenied hfile hd

theorem exec_readAt_cases (h size ofs : ℕ) :
    ExecCases m c (.readAt h size ofs) (c.exec (.readAt h size ofs)) := by
  refine withFile_cases fun {file} hfile => ?_
  obtain ⟨x, hx⟩ := hc.isOpen hfile
  refine call_cases ((hx.inodeReadAt_returns hc.inv size ofs
    fun r t => t = c.fs ∧ r = ((c.fs.contents x).drop ofs).take size).mpr ⟨rfl, rfl⟩) ?_
  rintro _ _ ⟨rfl, rfl⟩
  exact .readAt hfile hx

theorem exec_writeAt_cases (h : ℕ) (buffer : Bytes) (ofs : ℕ) :
    ExecCases m c (.writeAt h buffer ofs) (c.exec (.writeAt h buffer ofs)) := by
  refine withFile_cases fun {file} hfile => ?_
  obtain ⟨x, hx⟩ := hc.isOpen hfile
  by_cases hd : c.denials file.inode = 0
  · rw [hd] at hx
    refine call_cases (hx.inodeWriteAt_returns hc.inv buffer ofs) ?_
    rintro _ t ⟨rfl, hwrote⟩
    exact .wroteAt hfile hx hd hwrote
  · refine call_cases ((hx.inodeWriteAt_denied hc.inv (by omega) buffer ofs
      fun n t => t = c.fs ∧ n = 0).mpr ⟨rfl, rfl⟩) ?_
    rintro _ _ ⟨rfl, rfl⟩
    exact .writeAtDenied hfile hd

omit hc in
theorem exec_seek_cases (h : ℕ) (newPos : Int32) :
    ExecCases m c (.seek h newPos) (c.exec (.seek h newPos)) := by
  refine withFile_cases fun {file} hfile => ?_
  rcases lt_or_ge newPos.toInt 0 with hneg | hpos
  · have hpanic : Panics (fileSeek file newPos.toInt) c.fs .negativePosition :=
      (panics_assert (by omega) _ _).bind _
    rw [call_of_panics hpanic]
    exact .negativePosition rfl hneg
  · refine call_cases (Q := fun r t => t = c.fs ∧ r = { file with pos := newPos.toInt.toNat }) ?_ ?_
    · rw [fileSeek, returns_bind, returns_assert]
      exact ⟨hpos, (returns_pure ..).mpr ⟨rfl, rfl⟩⟩
    · rintro _ _ ⟨rfl, rfl⟩
      exact .seek hfile hpos

theorem exec_denyWrite_cases (h : ℕ) : ExecCases m c (.denyWrite h) (c.exec (.denyWrite h)) := by
  refine withFile_cases fun {file} hfile => ?_
  obtain ⟨x, hx⟩ := hc.isOpen hfile
  cases hdeny : file.denyWrite with
  | true =>
    refine call_cases (Q := fun r t => t = c.fs ∧ r = file) ?_ ?_
    · rw [fileDenyWrite, hdeny]
      exact (returns_pure ..).mpr ⟨rfl, rfl⟩
    · rintro _ _ ⟨rfl, rfl⟩
      exact .deniedBefore hfile
  | false =>
    have hlt := denials_lt_refs (m := m) hfile hdeny
    refine call_cases (fileDenyWrite_returns hx hc.inv hdeny (by omega)) ?_
    rintro _ t ⟨rfl, hset⟩
    exact .denied hfile hdeny (by exact_mod_cast hset)

theorem exec_allowWrite_cases (h : ℕ) : ExecCases m c (.allowWrite h) (c.exec (.allowWrite h)) := by
  refine withFile_cases fun {file} hfile => ?_
  obtain ⟨x, hx⟩ := hc.isOpen hfile
  cases hdeny : file.denyWrite with
  | false =>
    refine call_cases (Q := fun r t => t = c.fs ∧ r = file) ?_ ?_
    · rw [fileAllowWrite, hdeny]
      exact (returns_pure ..).mpr ⟨rfl, rfl⟩
    · rintro _ _ ⟨rfl, rfl⟩
      exact .allowedBefore hfile
  | true =>
    have hpos := denials_pos hfile hdeny
    have hle := denials_le_refs (c := c) (m := m) file.inode
    refine call_cases (fileAllowWrite_returns hx hc.inv hdeny (by omega) (by omega)) ?_
    rintro _ t ⟨rfl, hset⟩
    refine .allowed (x := x) hfile hdeny ?_
    rwa [Nat.cast_sub hpos]

theorem exec_openDir_cases : ExecCases m c .openDir (c.exec .openDir) := by
  refine call_cases (dirOpenRoot_returns hc.inv) ?_
  rintro _ t ⟨a, rfl, hopened⟩
  exact .openedDir hopened

theorem exec_reopenDir_cases (d : ℕ) : ExecCases m c (.reopenDir d) (c.exec (.reopenDir d)) := by
  refine withDir_cases fun {dir} hdir => ?_
  refine call_cases (Q := fun r t => r = some ⟨dir.inode, 0⟩ ∧
    FsInv (bump (c.refs m) dir.inode) t ∧ SameVolume c.fs t ∧ ∀ b, t.target b = c.fs.target b) ?_ ?_
  · rw [dirReopen, returns_bind]
    refine (inodeReopen_returns hc.inv (refs_pos_of_dir hdir)).mono ?_
    rintro _ t ⟨rfl, hinv, hsame, htarget⟩
    rw [dirOpen, returns_bind, returns_malloc hinv.table.mallocs, returns_pure]
    exact ⟨rfl, hinv, hsame, htarget⟩
  · rintro _ t ⟨rfl, hinv, hsame, htarget⟩
    exact .reopenedDir hdir hinv hsame htarget

theorem exec_closeDir_cases (d : ℕ) : ExecCases m c (.closeDir d) (c.exec (.closeDir d)) := by
  refine withDir_cases fun {dir} hdir => ?_
  refine call_cases ((hc.isRoot hdir).dirClose_returns hc.inv dir.pos) ?_
  rintro _ t ⟨hinv, hsame, -, htarget⟩
  exact .closedDir hdir hinv hsame htarget

theorem exec_readDir_cases (d : ℕ) : ExecCases m c (.readDir d) (c.exec (.readDir d)) := by
  refine withDir_cases fun {dir} hdir => ?_
  refine call_cases (dirReaddir_returns (hc.isRoot hdir) hc.inv dir.pos) ?_
  rintro r _ ⟨hinode, rfl⟩
  exact .readDir hdir hinode

theorem exec_cases (op : FsOp) : ExecCases m c op (c.exec op) := by
  cases op with
  | create name size => exact exec_create_cases hc name size
  | openFile name => exact exec_openFile_cases hc name
  | remove name => exact exec_remove_cases hc name
  | reopen h => exact exec_reopen_cases hc h
  | close h => exact exec_close_cases hc h
  | read h size => exact exec_read_cases hc h size
  | write h buffer => exact exec_write_cases hc h buffer
  | readAt h size ofs => exact exec_readAt_cases hc h size ofs
  | writeAt h buffer ofs => exact exec_writeAt_cases hc h buffer ofs
  | seek h newPos => exact exec_seek_cases h newPos
  | denyWrite h => exact exec_denyWrite_cases hc h
  | allowWrite h => exact exec_allowWrite_cases hc h
  | openDir => exact exec_openDir_cases hc
  | reopenDir d => exact exec_reopenDir_cases hc d
  | closeDir d => exact exec_closeDir_cases hc d
  | readDir d => exact exec_readDir_cases hc d

end Client

/-! ### The invariant -/

open Client

variable {c' : Client}

section

variable {r : FsResult}

theorem ClientInv.setFile_self (hc : ClientInv m c) (hfile : c.files[h]? = some (some file)) :
    ClientInv m (c.setFile h (some file) c.fs) :=
  hc.setFile hfile rfl rfl hc.inv fun _ _ => rfl

theorem ClientInv.remove {i : ℕ} (hc : ClientInv m c) (hremoved : Removed (c.refs m) c.fs i x t) :
    ClientInv m (c.setFs t) where
  inv := hremoved.inv
  map := by
    obtain ⟨⟨v, d⟩, hv⟩ := hc.map
    obtain ⟨w, hw⟩ := hremoved.target_eq m _ _ _ (by simp [Client.refs]) hv
    exact ⟨(w, d), hw⟩
  file := fun hfile => by
    obtain ⟨y, v, h2, hy⟩ := hc.file hfile
    obtain ⟨w, hw⟩ := hremoved.target_eq _ _ _ _ (Client.refs_pos_of_file hfile) hy
    exact ⟨y, w, h2, hw⟩
  dir := fun hdir => by
    exact (hremoved.isRoot ⟨Client.refs_pos_of_dir hdir, hc.dir hdir⟩).target_eq

theorem ClientInv.close {s₁ : FsState} (hc : ClientInv m c) (hfile : c.files[h]? = some (some file))
    (hdenials : if file.denyWrite then
      DenialsSet (c.refs m) c.fs file.inode x (c.denials file.inode - 1) s₁ else s₁ = c.fs)
    (hclosed : Closed (c.refs m) s₁ file.inode t) : ClientInv m (c.setFile h none t) := by
  have hcount := denials_setFile hfile none t file.inode
  rw [Option.any_none, if_neg Bool.false_ne_true] at hcount
  cases hdeny : file.denyWrite with
  | true =>
    rw [hdeny, if_pos rfl] at hdenials
    rw [if_pos (denies_iff.mpr ⟨rfl, hdeny⟩)] at hcount
    refine hc.closeFile hfile hclosed hdenials.target_other fun y v e hy => ?_
    rw [hdenials.target_self y v e hy]
    congr
    omega
  | false =>
    rw [hdeny, if_neg Bool.false_ne_true] at hdenials
    subst hdenials
    have hno : ¬ denies file.inode file = true := fun hd => by
      rw [(denies_iff.mp hd).2] at hdeny
      cases hdeny
    rw [if_neg hno] at hcount
    refine hc.closeFile hfile hclosed (fun _ _ => rfl) fun y v e hy => ?_
    obtain ⟨z, w, -, hz⟩ := hc.file hfile
    rw [hz] at hy
    obtain ⟨rfl, rfl, -⟩ := hy
    rw [hz, show (c.setFile h none t).denials file.inode = c.denials file.inode by omega]

theorem Client.denials_setDeny (hfile : c.files[h]? = some (some file)) (deny : Bool)
    (t : FsState) :
    (c.setFile h (some { file with denyWrite := deny }) t).denials file.inode +
        (if file.denyWrite then 1 else 0) =
      c.denials file.inode + if deny then 1 else 0 := by
  have hset := denials_setFile hfile (some { file with denyWrite := deny }) t file.inode
  simpa [denies] using hset

/-- **Every call keeps the invariant.** -/
theorem Ends.inv (he : Ends m c op r c') (hc : ClientInv m c) : ClientInv m c' := by
  cases he with
  | create _ hf _ => exact hc.setFs hf.inv hf.target_eq
  | createNegative _ hf => exact hc.setFs hf.inv hf.target_eq
  | opened hi hslot ho =>
    obtain ⟨d, hself, hnew⟩ := ho.target_self
    exact hc.addFile ho.inv ho.target_eq hself (hc.inv.vol.two_le (.inl ⟨_, hi, _, hslot⟩)) hnew
  | notOpened _ _ hf => exact hc.setFs hf.inv hf.target_eq
  | removed _ _ hr => exact hc.remove hr
  | notRemoved _ _ hf => exact hc.setFs hf.inv hf.target_eq
  | reopened hfile hinv _ htarget =>
    obtain ⟨x, v, h2, hx⟩ := hc.file hfile
    refine hc.addFile hinv (fun b _ => htarget b) ((htarget _).trans hx) h2 fun hzero => ?_
    have := Client.refs_pos_of_file (m := m) hfile
    omega
  | closed hfile hdenials hclosed => exact hc.close hfile hdenials hclosed
  | read hfile _ => exact hc.setFile hfile rfl rfl hc.inv fun _ _ => rfl
  | wrote hfile _ _ hw => exact hc.setFile hfile rfl rfl hw.inv fun b _ => hw.target_eq b
  | writeDenied hfile _ => exact hc.setFile_self hfile
  | readAt _ _ => exact hc
  | wroteAt _ _ _ hw => exact hc.setFs hw.inv fun b _ => hw.target_eq b
  | writeAtDenied _ _ => exact hc
  | seek hfile _ => exact hc.setFile hfile rfl rfl hc.inv fun _ _ => rfl
  | @denied _ _ _ t hfile hdeny hset =>
    have hcount := denials_setDeny hfile true t
    rw [hdeny, if_neg Bool.false_ne_true, if_pos rfl] at hcount
    exact hc.setDenials hfile hset hcount
  | deniedBefore hfile => exact hc.setFile_self hfile
  | @allowed _ _ _ t hfile hdeny hset =>
    have hcount := denials_setDeny hfile false t
    rw [hdeny, if_neg Bool.false_ne_true, if_pos rfl] at hcount
    exact hc.setDenials hfile hset (by omega)
  | allowedBefore hfile => exact hc.setFile_self hfile
  | openedDir ho =>
    obtain ⟨e, hself, -⟩ := ho.target_self
    exact hc.addDir ho.inv ho.target_eq hself
  | reopenedDir hdir hinv _ htarget =>
    obtain ⟨e, he⟩ := hc.dir hdir
    exact hc.addDir hinv (fun b _ => htarget b) ((htarget _).trans he)
  | closedDir hdir hinv _ htarget => exact hc.closeDir hdir hinv htarget
  | readDir hdir hinode =>
    refine ⟨by rw [refs_setDir hdir hinode]; exact hc.inv, hc.map, hc.file, fun {k dir} hdir' => ?_⟩
    obtain ⟨-, heq⟩ | ⟨-, hdir'⟩ := getElem?_set_cases hdir'
    · obtain rfl := Option.some.inj heq
      rw [hinode]
      exact hc.dir hdir
    · exact hc.dir hdir'

end

/-! ### Reachable states -/

/-- **The file system as a machine**: it starts from `s` with nothing open, and every label is
a call. -/
def fsMachine (s : FsState) : Machine Client FsOp Panic where
  start := ⟨s, [], []⟩
  step c op := (c.exec op).bind fun r => .next r.2

section

variable {s : FsState}

theorem clientInv_start {a : ℕ} (h : FsInv (oneRef a) s) : ClientInv a ⟨s, [], []⟩ := by
  have hrefs : Client.refs a ⟨s, [], []⟩ = oneRef a := by
    funext b
    simp [Client.refs, handles, countHandles, oneRef, bump, Function.update_apply]
  refine ⟨hrefs ▸ h, ?_, by simp, by simp⟩
  obtain ⟨file, v, -, -, hmem, hzero⟩ := h.table.mapFile
  obtain rfl := (oneRef_pos_iff a _).mp ((h.table.mem_iff _).mp hmem)
  exact ⟨v, hzero⟩

theorem ends_of_step (hc : ClientInv m c) (hstep : (fsMachine s).step c op = .next c') :
    ∃ r, Ends m c op r c' := by
  obtain ⟨⟨r, d⟩, hexec, hd⟩ := Outcome.bind_eq_next.mp hstep
  have hcases := c.exec_cases hc op
  rw [hexec] at hcases
  cases hd
  cases hcases with
  | next hends => exact ⟨r, hends⟩

theorem reachable_of_exec {r : FsResult} (hc : (fsMachine s).Reachable c)
    (hexec : c.exec op = .next (r, c')) : (fsMachine s).Reachable c' := by
  have hstep : (fsMachine s).step c op = .next c' := by
    dsimp only [fsMachine]
    rw [hexec]
    rfl
  exact .step hc trivial hstep

theorem clientInv_of_reachable (hs : JustFormatted s) (hc : (fsMachine s).Reachable c) :
    ∃ m, ClientInv m c := by
  obtain ⟨a, ha⟩ := hs.formatted.inv
  refine ⟨a, hc.invariant (clientInv_start ha) fun c c' op _ hinv _ hstep => ?_⟩
  obtain ⟨r, hends⟩ := ends_of_step hinv hstep
  exact hends.inv hinv

/-! ### Owned sectors -/

/-- The sectors of an owner as the documentation has them: a file of `length` bytes has
`⌈length / 512⌉` data sectors. -/
def Owner.span (disk : ℕ → UInt8) : Owner → ℕ × ℕ
  | .freeMapInode => (0, 1)
  | .rootDirInode => (1, 1)
  | .freeMapData => ((inodeOn disk 0).start, ((inodeOn disk 0).length.toNat + 511) / 512)
  | .rootDirData => ((inodeOn disk 1).start, ((inodeOn disk 1).length.toNat + 511) / 512)
  | .fileInode x => (x, 1)
  | .fileData x => ((inodeOn disk x).start, ((inodeOn disk x).length.toNat + 511) / 512)

def Owner.Owns (s : FsState) (o : Owner) (k : ℕ) : Prop :=
  o.Present s ∧ (o.span s.disk).1 ≤ k ∧ k < (o.span s.disk).1 + (o.span s.disk).2

def Client.references (c : Client) (a : ℕ) : ℕ :=
  c.handles a + if c.fs.freeMapFile.map File.inode = some a then 1 else 0

def FsState.openSectors (s : FsState) : List ℕ :=
  s.openInodes.filterMap fun a => (s.inodes a).map Inode.sector

theorem Owner.Owns.holds {o : Owner} {k : ℕ} (h : VolInv s) (ho : o.Owns s k) : o.Holds s k := by
  have hle : ∀ x, 0 ≤ (inodeOn s.disk x).length →
      ((inodeOn s.disk x).length.toNat + 511) / 512 ≤ bytesToSectors (inodeOn s.disk x).length := by
    intro x hx
    have := le_bytesToSectors hx (inodeOn_length_lt s.disk x)
    omega
  obtain ⟨hpresent, h₁, h₂⟩ := ho
  cases o with
  | freeMapInode | rootDirInode | fileInode => exact ⟨hpresent, h₁, h₂⟩
  | freeMapData =>
    have := hle 0 (by rw [h.freeMap_length]; omega)
    exact ⟨trivial, h₁, h₂.trans_le (Nat.add_le_add_left this _)⟩
  | rootDirData =>
    have := hle 1 (by rw [h.rootDir_length]; omega)
    exact ⟨trivial, h₁, h₂.trans_le (Nat.add_le_add_left this _)⟩
  | fileData x =>
    have := hle x (h.file_length hpresent)
    exact ⟨hpresent, h₁, h₂.trans_le (Nat.add_le_add_left this _)⟩

theorem ClientInv.references_eq (hc : ClientInv m c) : c.references = c.refs m := by
  funext a
  obtain ⟨file, v, hfile, -, hmem, hzero⟩ := hc.inv.table.mapFile
  obtain ⟨w, hw⟩ := hc.map
  have hm : m ∈ c.fs.openInodes := (hc.inv.table.mem_iff m).mpr (by simp [Client.refs])
  obtain rfl := hc.inv.table.sector_inj hmem hm hzero hw
  rw [references, Client.refs, hfile]
  simp only [Option.map_some, Option.some.injEq, eq_comm]

theorem TableInv.nodup_openSectors {refs : ℕ → ℕ} (h : TableInv refs s) : s.openSectors.Nodup := by
  rw [FsState.openSectors, List.Nodup, List.pairwise_filterMap]
  refine List.Nodup.pairwise_of_forall_ne h.nodup fun a ha b hb hab x hx y hy hxy => ?_
  obtain ⟨ino, hino, rfl⟩ := Option.map_eq_some_iff.mp hx
  obtain ⟨jno, hjno, rfl⟩ := Option.map_eq_some_iff.mp hy
  exact hab (h.sector_inj ha hb (FsState.target_eq hino) (hxy ▸ FsState.target_eq hjno))

/-! ### The life of a file -/

theorem nul_notMem_a : (0 : UInt8) ∉ [0x61] := by decide

def CString.a : CString := ⟨[0x61], nul_notMem_a⟩

theorem VolInv.room_iff_of_marked {m n : ℕ} (h : VolInv s) (hmarked : s.freeMap.MarkedBelow m) :
    s.Room n ↔ m + 1 + n ≤ s.size := by
  have hcnt := h.bitCnt_eq
  constructor
  · rintro ⟨x, hx, start, hfits, hfree⟩
    obtain ⟨rfl, hle⟩ := (hmarked.firstRun_iff Nat.one_pos).mp hx
    rcases Nat.eq_zero_or_pos n with rfl | hn
    · omega
    · obtain ⟨hbit, hne⟩ := hfree start le_rfl (by omega)
      rw [hmarked start (by omega)] at hbit
      have := of_decide_eq_false hbit
      omega
  · intro hle
    refine ⟨m, (hmarked.firstRun_iff Nat.one_pos).mpr ⟨rfl, by omega⟩, m + 1, by omega,
      fun k h₁ h₂ => ⟨?_, by omega⟩⟩
    rw [hmarked k (by omega)]
    exact decide_eq_false (by omega)

theorem Formatted.room_iff {size n : ℕ} (hf : Formatted size s) :
    s.Room n ↔ 4 + mapSectors size + n ≤ size := by
  obtain ⟨a, hinv⟩ := hf.inv
  rw [hinv.vol.room_iff_of_marked hf.marked, hf.size_eq]
  omega

theorem mapSectors_eight : mapSectors 8 = 1 := by
  rw [mapSectors_eq (by decide)]

theorem exists_created (size : Int32) (hvalid : name.Valid) (h0 : 0 ≤ size.toInt)
    (hfits : 5 + bytesToSectors size.toInt ≤ 8) :
    ∃ (s t : FsState) (i x : ℕ), JustFormatted s ∧ s.size = 8 ∧
      Client.exec ⟨s, [], []⟩ (.create name size) = .next (.flag true, ⟨t, [], []⟩) ∧
      SlotBound s i name x t ∧ ∀ j < 16, s.slot j = none := by
  obtain ⟨s, hs, hsize⟩ := exists_justFormatted 8 (by decide) (by decide)
  have hempty := hs.formatted.slot_eq
  obtain ⟨m, hinv⟩ := clientInv_of_reachable hs (c := ⟨s, [], []⟩) .start
  obtain ⟨ok, t, ⟨-, hend, -⟩, hexec⟩ := call_of_returns
    (filesysCreate_returns hinv.inv name h0 size.toInt_lt) fun ok t => (.flag ok, ⟨t, [], []⟩)
  have hroom : s.Room (bytesToSectors size.toInt) := by
    rw [(hsize ▸ hs.formatted : Formatted 8 s).room_iff, mapSectors_eight]
    exact hfits
  cases hend with
  | noRoom room => exact absurd hroom room
  | notAdded _ why =>
    rcases why with h | ⟨i, hi, x, hx⟩ | h
    · exact absurd hvalid h
    · rw [hempty i hi] at hx
      cases hx
    · exact absurd (hempty 0 (by decide)) (h 0 (by decide))
  | @made i x _ _ _ _ hbound _ _ => exact ⟨s, t, i, x, hs, hsize, hexec, hbound, hempty⟩

/-- A file of 1000 bytes on a volume of eight sectors: it is created, opened, removed while it is
open, and closed. -/
structure FileLife (s : FsState) (name : CString) (created opened removed closed : Client) :
    Prop where
  formatted : JustFormatted s
  size_eq : s.size = 8
  create : Client.exec ⟨s, [], []⟩ (.create name 1000) = .next (.flag true, created)
  openFile : created.exec (.openFile name) = .next (.handle (some 0), opened)
  remove : opened.exec (.remove name) = .next (.flag true, removed)
  close : removed.exec (.close 0) = .next (.done, closed)

theorem FileLife.reachable {created opened removed closed : Client}
    (h : FileLife s name created opened removed closed) (hc : c ∈ [removed, closed]) :
    (fsMachine s).Reachable c := by
  have hopened := reachable_of_exec (reachable_of_exec .start h.create) h.openFile
  have hremoved := reachable_of_exec hopened h.remove
  rcases List.mem_pair.mp hc with rfl | rfl
  · exact hremoved
  · exact reachable_of_exec hremoved h.close

theorem ClientInv.exec_openFile (hc : ClientInv m c) (hname : c.fs.BoundName name) :
    ∃ b t, SameVolume c.fs t ∧
      c.exec (.openFile name) = .next (c.addFile (some ⟨b, 0, false⟩) t) := by
  obtain ⟨_, t, ⟨_, -, _, b, -, rfl, hopened⟩ | ⟨hunbound, -⟩, hcall⟩ :=
    call_of_returns (filesysOpen_returns hc.inv name) c.addFile
  · exact ⟨b, t, hopened.volume, hcall⟩
  · exact absurd hname hunbound

theorem ClientInv.exec_remove (hc : ClientInv m c) (hname : c.fs.BoundName name) :
    ∃ t, c.exec (.remove name) = .next (.flag true, c.setFs t) := by
  obtain ⟨_, t, ⟨rfl, -⟩ | ⟨-, hunbound, -⟩, hcall⟩ :=
    call_of_returns (filesysRemove_returns hc.inv name) fun ok t => (.flag ok, c.setFs t)
  · exact ⟨t, hcall⟩
  · exact absurd hname hunbound

theorem ClientInv.exec_close (hc : ClientInv m c) (hfile : c.files[h]? = some (some file))
    (hallow : file.denyWrite = false) :
    ∃ t, c.exec (.close h) = .next (.done, c.setFile h none t) := by
  obtain ⟨x, hx⟩ := hc.isOpen hfile
  have hreturns := fileClose_returns hx hc.inv fun hdeny => by
    rw [hallow] at hdeny
    cases hdeny
  obtain ⟨_, t, -, hcall⟩ := call_of_returns hreturns fun _ t => (.done, c.setFile h none t)
  refine ⟨t, ?_⟩
  rw [exec, withFile, hfile]
  exact hcall

theorem exists_fileLife (name : CString) (hvalid : name.Valid) :
    ∃ s created opened removed closed, FileLife s name created opened removed closed := by
  obtain ⟨s, t, i, x, hs, hsize, hcreate, hbound, -⟩ :=
    exists_created 1000 hvalid (by decide) (by decide)
  have hcreated := reachable_of_exec .start hcreate
  have hname : t.BoundName name := ⟨i, hbound.lt, x, hbound.slot_eq⟩
  obtain ⟨m, hinv⟩ := clientInv_of_reachable hs hcreated
  obtain ⟨b, t₁, hsame, hopen⟩ := hinv.exec_openFile hname
  have hopened := reachable_of_exec hcreated hopen
  obtain ⟨m₁, hinv₁⟩ := clientInv_of_reachable hs hopened
  obtain ⟨t₂, hremove⟩ := hinv₁.exec_remove
    ⟨i, hbound.lt, x, (hsame.slot_eq i).trans hbound.slot_eq⟩
  obtain ⟨m₂, hinv₂⟩ := clientInv_of_reachable hs (reachable_of_exec hopened hremove)
  obtain ⟨t₃, hclose⟩ := hinv₂.exec_close (h := 0) rfl rfl
  exact ⟨s, _, _, _, _, hs, hsize, hcreate, hopen, hremove, hclose⟩

/-- **Ownership**: no sector is in two owned extents, every owned sector is marked, open inodes
count their references, and only marked sectors are released. -/
theorem fs_ownership (hs : JustFormatted s) (hc : (fsMachine s).Reachable c) :
    (∀ (o p : Owner) k, o.Owns c.fs k → p.Owns c.fs k → o = p) ∧
      (∀ (o : Owner) k, o.Owns c.fs k → c.fs.freeMap.bit k = true) ∧
      c.fs.openSectors.Nodup ∧
      (∀ a ∈ c.fs.openInodes, ∃ ino, c.fs.inodes a = some ino ∧ ino.openCnt = c.references a) ∧
      ∀ op, (fsMachine s).step c op ≠ .fault .notAllocated := by
  obtain ⟨m, hinv⟩ := clientInv_of_reachable hs hc
  refine ⟨fun o p k ho hp => ?_, fun o k ho => ?_, hinv.inv.table.nodup_openSectors,
    fun a ha => ?_, fun op hfault => ?_⟩
  · exact hinv.inv.vol.owner_eq (ho.holds hinv.inv.vol) (hp.holds hinv.inv.vol)
  · exact hinv.inv.vol.owner_marked (ho.holds hinv.inv.vol)
  · obtain ⟨ino, hino, hcnt, -⟩ := hinv.inv.table.node ha
    exact ⟨ino, hino, by rw [hcnt, hinv.references_eq]⟩
  · have hcases := c.exec_cases hinv op
    change (c.exec op).bind _ = _ at hfault
    cases hexec : c.exec op with
    | blocked | next =>
      rw [hexec] at hfault
      cases hfault
    | fault e =>
      rw [hexec] at hfault hcases
      cases hfault
      cases hcases

/-- Before and after the last reference to a removed file is closed. -/
theorem fs_ownership_eight :
    ∃ (s : FsState) (name : CString) (created opened removed closed : Client),
      FileLife s name created opened removed closed ∧ ∀ c ∈ [removed, closed],
        (∀ (o p : Owner) k, o.Owns c.fs k → p.Owns c.fs k → o = p) ∧
        (∀ (o : Owner) k, o.Owns c.fs k → c.fs.freeMap.bit k = true) ∧
        ∀ op, (fsMachine s).step c op ≠ .fault .notAllocated := by
  obtain ⟨s, created, opened, removed, closed, hlife⟩ :=
    exists_fileLife .a (by decide)
  refine ⟨s, _, created, opened, removed, closed, hlife, fun c hc => ?_⟩
  obtain ⟨hdisjoint, hmarked, -, -, hstep⟩ := fs_ownership hlife.formatted (hlife.reachable hc)
  exact ⟨hdisjoint, hmarked, hstep⟩

/-! ### Failed creates -/

def FsState.CanBind (s : FsState) (name : CString) : Prop :=
  name.Valid ∧ ¬ s.BoundName name ∧ ¬ s.DirFull

/-- The condition under which a failed `filesys_create` leaves the free map alone: there are
no data sectors, there is no room for them, or the name can be bound. -/
def FsState.Clean (s : FsState) (name : CString) (size : ℤ) : Prop :=
  size = 0 ∨ ¬ s.Room (bytesToSectors size) ∨ s.CanBind name

def FsState.SameSpace (s t : FsState) : Prop :=
  (∀ k < s.size, t.freeMap.bit k = s.freeMap.bit k) ∧ ∀ i < 16, t.slot i = s.slot i

theorem FsState.SameSpace.trans {u : FsState} (h : s.SameSpace t) (hsize : t.size = s.size)
    (h' : t.SameSpace u) : s.SameSpace u :=
  ⟨fun k hk => (h'.1 k (hsize ▸ hk)).trans (h.1 k hk), fun i hi => (h'.2 i hi).trans (h.2 i hi)⟩

theorem bytesToSectors_pos (h0 : 0 < size) (hsize : size < 2 ^ 31) : 0 < bytesToSectors size := by
  have := le_bytesToSectors h0.le hsize
  omega

theorem CreateEnd.sameSpace (h : CreateEnd s name size false t) (hclean : s.Clean name size) :
    s.SameSpace t := by
  cases h with
  | noRoom _ slot_eq bit_eq => exact ⟨fun k _ => bit_eq k, slot_eq⟩
  | notAdded room why slot_eq fits free bit_eq =>
    rcases hclean with rfl | hroom | ⟨hvalid, hunbound, hfull⟩
    · refine ⟨fun k _ => ?_, slot_eq⟩
      rw [bit_eq, if_neg (by rw [show bytesToSectors 0 = 0 by decide]; omega)]
    · exact absurd room hroom
    · rcases why with hv | hb | hf
      · exact absurd hvalid hv
      · exact absurd hb hunbound
      · exact absurd hf hfull

theorem CreateEnd.not_sameSpace (h : CreateEnd s name size ok t) (h0 : 0 ≤ size)
    (hsize : size < 2 ^ 31) (hclean : ¬ s.Clean name size) : ok = false ∧ ¬ s.SameSpace t := by
  simp only [FsState.Clean, not_or, not_not] at hclean
  obtain ⟨hne, hroom, hbind⟩ := hclean
  have hpos := bytesToSectors_pos (show 0 < size by omega) hsize
  cases h with
  | made valid unbound _ bound =>
    exact absurd ⟨valid, unbound, fun hfull => hfull _ bound.lt bound.free⟩ hbind
  | noRoom room => exact absurd hroom room
  | @notAdded start _ _ _ _ fits free bit_eq =>
    refine ⟨rfl, fun hsame => ?_⟩
    have hsector := hsame.1 start (by omega)
    rw [bit_eq, if_pos ⟨le_rfl, by omega⟩, free start le_rfl (by omega)] at hsector
    cases hsector

/-- A creation that fails **under `Clean`**. -/
def CleanFailure (c c' : Client) : Prop :=
  ∃ (name : CString) (size : Int32), 0 ≤ size.toInt ∧ c.fs.Clean name size.toInt ∧
    c.exec (.create name size) = .next (.flag false, c')

theorem ClientInv.create_end {size : Int32} (hc : ClientInv m c) (h0 : 0 ≤ size.toInt)
    (hexec : c.exec (.create name size) = .next (.flag ok, c')) :
    ClientInv m c' ∧ c'.fs.size = c.fs.size ∧ CreateEnd c.fs name size.toInt ok c'.fs := by
  have hcases := c.exec_cases hc (.create name size)
  rw [hexec] at hcases
  cases hcases with
  | next hends =>
    refine ⟨hends.inv hc, ?_⟩
    cases hends with
    | create _ hframed hend => exact ⟨hframed.size_eq, hend⟩
    | createNegative hneg => omega

/-- **When a failed `filesys_create` changes nothing**: exactly when it is clean. -/
theorem create_atomic_iff (hs : JustFormatted s) (hc : (fsMachine s).Reachable c)
    (name : CString) (size : Int32) (h0 : 0 ≤ size.toInt) :
    ((∀ c', c.exec (.create name size) = .next (.flag false, c') → c.fs.SameSpace c'.fs) ↔
      c.fs.Clean name size.toInt) ∧
    ∀ c', Relation.ReflTransGen CleanFailure c c' → c.fs.SameSpace c'.fs := by
  obtain ⟨m, hinv⟩ := clientInv_of_reachable hs hc
  refine ⟨⟨fun hall => ?_, fun hclean c' hexec => ?_⟩, fun c' hrun => ?_⟩
  · -- a create that is not clean fails, and leaks
    by_contra hclean
    have hcases := c.exec_cases hinv (.create name size)
    cases hexec : c.exec (.create name size) with
    | blocked =>
      rw [Client.exec, call] at hexec
      split at hexec <;> cases hexec
    | fault e =>
      rw [hexec] at hcases
      cases hcases with
      | negativeLength op_eq hneg =>
        cases op_eq
        omega
      | negativePosition op_eq => cases op_eq
    | next p =>
      obtain ⟨r, c'⟩ := p
      rw [hexec] at hcases
      cases hcases with
      | next hends =>
        cases hends with
        | create _ _ hend =>
          obtain ⟨rfl, hleak⟩ := hend.not_sameSpace h0 size.toInt_lt hclean
          exact hleak (hall _ hexec)
        | createNegative hneg => omega
  · exact (hinv.create_end h0 hexec).2.2.sameSpace hclean
  · have hrun' : ClientInv m c' ∧ c'.fs.size = c.fs.size ∧ c.fs.SameSpace c'.fs := by
      induction hrun with
      | refl => exact ⟨hinv, rfl, fun _ _ => rfl, fun _ _ => rfl⟩
      | tail _ hstep ih =>
        obtain ⟨name, size, h0, hclean, hexec⟩ := hstep
        obtain ⟨hinv₁, hsize, hsame⟩ := ih
        obtain ⟨hinv₂, hsize₂, hend⟩ := hinv₁.create_end h0 hexec
        exact ⟨hinv₂, hsize₂.trans hsize, hsame.trans hsize (hend.sameSpace hclean)⟩
    exact hrun'.2.2

theorem nul_notMem_nil : (0 : UInt8) ∉ [] := List.not_mem_nil

def CString.empty : CString := ⟨[], nul_notMem_nil⟩

/-- **A sector is lost** when a file with the empty name is created. -/
theorem create_leaks : ∃ (s : FsState) (c c' : Client), JustFormatted s ∧
    (fsMachine s).Reachable c ∧ c.exec (.create .empty 1) = .next (.flag false, c') ∧
    ¬ c.fs.SameSpace c'.fs := by
  obtain ⟨s, hs, hsize⟩ := exists_justFormatted 8 (by decide) (by decide)
  obtain ⟨m, hinv⟩ := clientInv_of_reachable hs (c := ⟨s, [], []⟩) .start
  have hone : (1 : Int32).toInt = 1 := by decide
  have hdirty : ¬ s.Clean .empty (1 : Int32).toInt := by
    have hroom : s.Room (bytesToSectors 1) := by
      rw [(hsize ▸ hs.formatted : Formatted 8 s).room_iff, mapSectors_eight]
      decide
    rw [hone, FsState.Clean]
    rintro (h | h | h)
    · cases h
    · exact h hroom
    · exact h.1.1 rfl
  obtain ⟨_, t, hrun, -, hend, -⟩ := filesysCreate_returns hinv.inv .empty
    (show 0 ≤ (1 : Int32).toInt by decide) (1 : Int32).toInt_lt
  obtain ⟨rfl, hleak⟩ := hend.not_sameSpace (by decide) (1 : Int32).toInt_lt hdirty
  refine ⟨s, ⟨s, [], []⟩, ⟨t, [], []⟩, hs, .start, ?_, hleak⟩
  rw [Client.exec, call, hrun]
  rfl

/-- No sector is lost when the file has no data. -/
theorem create_atomic_eight : ∃ s, JustFormatted s ∧
    ∀ c', (⟨s, [], []⟩ : Client).exec (.create .empty 0) = .next (.flag false, c') →
      s.SameSpace c'.fs := by
  obtain ⟨s, hs, -⟩ := exists_justFormatted 8 (by decide) (by decide)
  exact ⟨s, hs, (create_atomic_iff hs .start .empty 0 (by decide)).1.mpr (.inl (by decide))⟩

/-! ### The free map on the device -/

theorem ClientInv.refs_map (hc : ClientInv m c) {b : ℕ} {v : Bool × ℤ}
    (hmem : b ∈ c.fs.openInodes) (hb : c.fs.target b = some (0, v)) : c.refs m b = 1 := by
  have hfile : countHandles (fun file : File => file.inode = b) c.files = 0 := by
    by_contra hne
    obtain ⟨h, file, hfile, heq⟩ := exists_of_countHandles_pos (Nat.pos_of_ne_zero hne)
    obtain ⟨x, w, h2, hx⟩ := hc.file hfile
    rw [of_decide_eq_true heq] at hx
    have := (FsState.target_inj hb hx).1
    omega
  have hdir : countHandles (fun dir : Dir => dir.inode = b) c.dirs = 0 := by
    by_contra hne
    obtain ⟨d, dir, hdir, heq⟩ := exists_of_countHandles_pos (Nat.pos_of_ne_zero hne)
    obtain ⟨e, he⟩ := hc.dir hdir
    rw [of_decide_eq_true heq, hb] at he
    cases he
  obtain ⟨w, hw⟩ := hc.map
  have hm : m ∈ c.fs.openInodes := (hc.inv.table.mem_iff m).mpr (by simp [Client.refs])
  rw [Client.refs, handles, hfile, hdir, if_pos (hc.inv.table.sector_inj hmem hm hb hw)]

/-- Everything that a remount must bring back. -/
def FsState.Survives (s t : FsState) : Prop :=
  t.size = s.size ∧ (∀ i < s.size, t.freeMap.bit i = s.freeMap.bit i) ∧
    (∀ i < 16, t.slot i = s.slot i) ∧ ∀ x, s.Bound x → t.contents x = s.contents x

theorem Mounted.survives (h : Mounted s t) : s.Survives t := by
  refine ⟨h.size_eq, h.bit_eq, fun i _ => ?_, fun x _ => ?_⟩
  · rw [FsState.slot, FsState.entry, FsState.slotOfs, h.disk_eq, FsState.slot, FsState.entry,
      FsState.slotOfs]
  · rw [FsState.contents, h.disk_eq, FsState.contents]

/-- **The free map is persistent**: it is on the device in every state reached, and a shutdown keeps
it, the directory, and the files. -/
theorem freeMap_persistent (hs : JustFormatted s) (hc : (fsMachine s).Reachable c) :
    (∀ i < c.fs.size, c.fs.diskBit i = c.fs.freeMap.bit i) ∧
      Returns filesysDone c.fs fun _ t => ∀ (u : FsState) (fill : ℕ → BitVec 32),
        u.disk = t.disk → u.size = t.size → u.MallocsSucceed →
          Returns (filesysInit fill false) u fun _ v => c.fs.Survives v := by
  obtain ⟨m, hinv⟩ := clientInv_of_reachable hs hc
  refine ⟨fun i hi => hinv.inv.vol.diskBit_eq hi, ?_⟩
  refine (remount_returns hinv.inv fun {b v} => hinv.refs_map).mono ?_
  intro _ t hmount u fill hdisk hsize hm
  refine (hmount u fill hdisk hsize hm).mono ?_
  intro _ v hv
  exact hv.survives

/-- A shutdown while the removed file is open, and one after it was closed. -/
theorem freeMap_persistent_eight :
    ∃ (s : FsState) (name : CString) (created opened removed closed : Client),
      FileLife s name created opened removed closed ∧ ∀ c ∈ [removed, closed],
        (∀ i < c.fs.size, c.fs.diskBit i = c.fs.freeMap.bit i) ∧
        Returns filesysDone c.fs fun _ t =>
          Returns (filesysInit (fun _ => 0) false) (boot t.size t.disk) fun _ v =>
            c.fs.Survives v := by
  obtain ⟨s, created, opened, removed, closed, hlife⟩ :=
    exists_fileLife .a (by decide)
  refine ⟨s, _, created, opened, removed, closed, hlife, fun c hc => ?_⟩
  obtain ⟨hbit, hdone⟩ := freeMap_persistent hlife.formatted (hlife.reachable hc)
  refine ⟨hbit, hdone.mono fun _ t hmount => ?_⟩
  exact hmount (boot t.size t.disk) _ rfl rfl fun _ => rfl

end

end OsMaterial
