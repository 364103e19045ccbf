import OsMaterial.FreshFiles

/-!
# Denying Writes

A file handle can deny writes to its inode, and the inode counts the handles that do.

* `denyWrite_protocol`: a write returns 0 exactly when there is one, and no assertion fails.
-/

namespace OsMaterial

open List
open Client

section

variable {s : FsState} {c c' : Client} {m : ℕ}

theorem ClientInv.denyWriteCnt_eq {a : ℕ} (hc : ClientInv m c) (ha : a ∈ c.fs.openInodes) :
    ∃ ino, c.fs.inodes a = some ino ∧ ino.denyWriteCnt = c.denials a ∧
      ino.denyWriteCnt ≤ ino.openCnt := by
  obtain ⟨ino, hino, hcnt, hquiet, -⟩ := hc.inv.table.node ha
  have hle := denials_le_refs (c := c) (m := m) a
  suffices hdeny : ino.denyWriteCnt = c.denials a by
    refine ⟨ino, hino, hdeny, ?_⟩
    rw [hdeny, hcnt]
    exact_mod_cast hle
  have htarget := FsState.target_eq hino
  rcases Nat.eq_zero_or_pos (c.denials a) with hzero | hpos
  · -- nobody denies writes: the inode is of no file handle, or its handles know the count
    obtain ⟨k, file, hfile, rfl⟩ | ⟨k, dir, hdir, rfl⟩ | rfl :=
      cases_of_refs_pos ((hc.inv.table.mem_iff a).mp ha)
    · obtain ⟨x, v, -, hx⟩ := hc.file hfile
      exact (FsState.target_inj htarget hx).2.2
    · obtain ⟨e, he⟩ := hc.dir hdir
      have hsector := (FsState.target_inj htarget he).1
      rw [hzero, hquiet (by omega)]
      rfl
    · obtain ⟨v, hv⟩ := hc.map
      have hsector := (FsState.target_inj htarget hv).1
      rw [hzero, hquiet (by omega)]
      rfl
  · obtain ⟨k, file, hfile, hdenies⟩ := exists_of_countHandles_pos hpos
    obtain ⟨rfl, -⟩ := denies_iff.mp hdenies
    obtain ⟨x, v, -, hx⟩ := hc.file hfile
    exact (FsState.target_inj htarget hx).2.2

theorem ClientInv.write_zero_iff {h : ℕ} {file : File} {ino : Inode} {buffer : Bytes}
    (hc : ClientInv m c) (hfile : c.files[h]? = some (some file))
    (hino : c.fs.inodes file.inode = some ino) (hne : buffer ≠ [])
    (hroom : file.pos < ino.data.length.toNat) :
    ∃ n c', c.exec (.write h buffer) = .next (.count n, c') ∧
      (n = 0 ↔ c.denials file.inode ≠ 0) := by
  obtain ⟨x, hx⟩ := hc.isOpen hfile
  obtain ⟨jno, hjno, -, -, -, hdata, -⟩ := hx.node hc.inv
  obtain rfl : ino = jno := Option.some.inj (hino.symm.trans hjno)
  rw [exec, withFile, hfile]
  by_cases hd : c.denials file.inode = 0
  · rw [hd] at hx
    obtain ⟨_, t, ⟨-, rfl⟩, hcall⟩ := call_of_returns (fileWrite_returns hx hc.inv buffer)
      fun r s => (.count r.1, c.setFile h (some r.2) s)
    refine ⟨_, _, hcall, ?_⟩
    have hlen := length_pos_iff.mpr hne
    rw [length_take, length_contents, ← hdata]
    omega
  · obtain ⟨_, t, ⟨-, rfl⟩, hcall⟩ := call_of_returns
      (fileWrite_denied hx hc.inv (by omega) buffer)
      fun r s => (.count r.1, c.setFile h (some r.2) s)
    exact ⟨_, _, hcall, by simp [hd]⟩

theorem Client.denials_ne_zero_iff (c : Client) (a : ℕ) :
    c.denials a ≠ 0 ↔ ∃ (h : ℕ) (file : File), c.files[h]? = some (some file) ∧
      file.inode = a ∧ file.denyWrite = true := by
  constructor
  · intro hne
    obtain ⟨h, file, hfile, hdenies⟩ := exists_of_countHandles_pos (Nat.pos_of_ne_zero hne)
    exact ⟨h, file, hfile, denies_iff.mp hdenies⟩
  · rintro ⟨h, file, hfile, rfl, hdeny⟩
    exact (denials_pos hfile hdeny).ne'

/-- **The write-denial protocol**: `deny_write_cnt` is the number of handles that deny writes, and a
write returns 0 exactly when there is one. -/
theorem denyWrite_protocol (hs : JustFormatted s) (hc : (fsMachine s).Reachable c) :
    (∀ a ∈ c.fs.openInodes, ∃ ino, c.fs.inodes a = some ino ∧
      ino.denyWriteCnt = c.denials a ∧ ino.denyWriteCnt ≤ ino.openCnt) ∧
    (∀ (h : ℕ) (file : File) (ino : Inode) (buffer : Bytes),
      c.files[h]? = some (some file) → c.fs.inodes file.inode = some ino → buffer ≠ [] →
        file.pos < ino.data.length.toNat →
          ∃ n c', c.exec (.write h buffer) = .next (.count n, c') ∧
            (n = 0 ↔ ∃ (h' : ℕ) (file' : File), c.files[h']? = some (some file') ∧
              file'.inode = file.inode ∧ file'.denyWrite = true)) ∧
    ∀ op, c.exec op ≠ .fault .denyCount ∧ c.exec op ≠ .fault .notDenied := by
  obtain ⟨m, hinv⟩ := clientInv_of_reachable hs hc
  refine ⟨fun a ha => hinv.denyWriteCnt_eq ha, fun h file ino buffer hfile hino hne hroom => ?_,
    fun op => ?_⟩
  · obtain ⟨n, c', hexec, hzero⟩ := hinv.write_zero_iff hfile hino hne hroom
    exact ⟨n, c', hexec, hzero.trans (c.denials_ne_zero_iff _)⟩
  · have hcases := c.exec_cases hinv op
    constructor
    · intro hfault
      rw [hfault] at hcases
      cases hcases
    · intro hfault
      rw [hfault] at hcases
      cases hcases

/-- A write to a file that denies writes writes nothing. -/
theorem denyWrite_protocol_denied : ∃ (s : FsState) (c c' : Client), JustFormatted s ∧
    (fsMachine s).Reachable c ∧ c.exec (.write 0 [1]) = .next (.count 0, c') := by
  obtain ⟨s, hs, hsize⟩ := exists_justFormatted 8 (by decide) (by decide)
  obtain ⟨a, hidle⟩ := hs.formatted.idle
  have hcount : bytesToSectors ((3 : ℕ) : ℤ) = 1 := by decide
  have hint : (3 : Int32).toInt = ((3 : ℕ) : ℤ) := by decide
  rw [hsize, mapSectors_eight] at hidle
  set name : CString := ⟨[0x61], by decide⟩
  obtain ⟨_, t₁, hrun₁, rfl, -, h₁⟩ := hidle.create_returns name 3 (by decide) (by simp)
    (by decide) (by decide) (by rw [hcount, hsize]; decide)
  obtain ⟨_, t₂, hrun₂, b, x, rfl, -, h₂⟩ := h₁.open_returns
  set file : File := { inode := b, pos := 0, denyWrite := false }
  have hopen : IsOpen (bump (oneRef a) b) t₂ file.inode x 0 := h₂.isOpen
  obtain ⟨_, t₃, hrun₃, rfl, h₃⟩ := fileDenyWrite_returns hopen h₂.inv rfl (by simp [bump, file])
  have hc₁ : (fsMachine s).Reachable ⟨t₁, [], []⟩ := by
    have hexec : (⟨s, [], []⟩ : Client).exec (.create name 3) =
        .next (.flag true, ⟨t₁, [], []⟩) := by
      rw [exec, call, hint, hrun₁]
      rfl
    exact reachable_of_exec .start hexec
  have hc₂ : (fsMachine s).Reachable ⟨t₂, [some file], []⟩ := by
    have hexec : (⟨t₁, [], []⟩ : Client).exec (.openFile name) =
        .next (.handle (some 0), ⟨t₂, [some file], []⟩) := by
      rw [exec, call, hrun₂]
      rfl
    exact reachable_of_exec hc₁ hexec
  have hc₃ : (fsMachine s).Reachable ⟨t₃, [some { file with denyWrite := true }], []⟩ := by
    have hexec : (⟨t₂, [some file], []⟩ : Client).exec (.denyWrite 0) =
        .next (.done, ⟨t₃, [some { file with denyWrite := true }], []⟩) := by
      simp only [exec, withFile, getElem?_cons_zero, call, hrun₃]
      rfl
    exact reachable_of_exec hc₂ hexec
  -- there is room in the file
  obtain ⟨ino, hino, -, -, -, hdata, -⟩ := h₃.isOpen.node h₃.inv
  obtain ⟨i, hi, hslot⟩ := h₂.bound
  have hlength : ino.data.length.toNat = 3 := by
    rw [hdata, ← length_contents, h₃.volume.contents_eq,
      h₂.stores.contents_last (by simp) hi hslot, length_replicate]
  obtain ⟨n, c', hexec, hzero⟩ := (denyWrite_protocol hs hc₃).2.1 0 { file with denyWrite := true }
    ino [1] rfl hino (cons_ne_nil _ _) (by rw [hlength]; exact Nat.zero_lt_succ 2)
  obtain rfl := hzero.mpr ⟨0, _, rfl, rfl, rfl⟩
  exact ⟨s, _, c', hs, hc₃, hexec⟩

end

end OsMaterial
