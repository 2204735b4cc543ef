import NarcOs.Fs.ArchiveLaws

/-!
# Reading the archive in later runs

No call puts a file into the archive: a vnode keeps its payload there unchanged or
loses it. So the payloads stay inside the archive, and `vfs_read` and
`ensure_pages` read no byte behind its end in any state of any run.
-/

namespace NarcOs

def Vnode.Leaves (v w : Vnode) : Prop := v.archive = none ∨ v.archive = w.archive ∧ v.size = w.size

theorem Vnode.Leaves.refl (v : Vnode) : v.Leaves v := .inr ⟨rfl, rfl⟩

theorem Vnode.Leaves.trans {u v w : Vnode} (h : u.Leaves v) (h' : v.Leaves w) : u.Leaves w := by
  rcases h with h | ⟨ha, hs⟩
  · exact .inl h
  rcases h' with h' | ⟨ha', hs'⟩
  · exact .inl (ha.trans h')
  · exact .inr ⟨ha.trans ha', hs.trans hs'⟩

theorem Vnode.SameData.leaves {v w : Vnode} (h : v.SameData w) : v.Leaves w := .inr ⟨h.archive, h.size⟩

namespace Vfs

variable {s t u : Vfs} {n d : Ptr} {name : List UInt8}

structure Leaves (t s : Vfs) : Prop where
  tarData : t.tarData = s.tarData
  tarSize : t.tarSize = s.tarSize
  node : ∀ p, (t.node p).Leaves (s.node p)

theorem Leaves.refl (s : Vfs) : s.Leaves s := ⟨rfl, rfl, fun _ => .refl _⟩

theorem Leaves.trans (h : u.Leaves t) (h' : t.Leaves s) : u.Leaves s :=
  ⟨h.tarData.trans h'.tarData, h.tarSize.trans h'.tarSize, fun p => (h.node p).trans (h'.node p)⟩

theorem Stored.leaves (h : s.Stored) (hl : t.Leaves s) : t.Stored := by
  intro p archive hp
  rcases hl.node p with hnone | ⟨ha, hs⟩
  · rw [hnone] at hp
    cases hp
  · rw [hs, hl.tarSize]
    exact h p archive (ha ▸ hp)

theorem setPhys_leaves (phys : Phys) : Leaves { s with phys := phys } s := ⟨rfl, rfl, fun _ => .refl _⟩

theorem setHeap_leaves (heap : List (Option Ptr)) : Leaves { s with heap := heap } s := ⟨rfl, rfl, fun _ => .refl _⟩

theorem modify_leaves {f : Vnode → Vnode} (hf : ∀ v, (f v).Leaves v) : (s.modify n f).Leaves s := by
  refine ⟨rfl, rfl, fun p => ?_⟩
  rw [modify_node]
  split
  · exact hf _
  · exact .refl _

theorem setSize_leaves (h : (s.node n).archive = none) (f : Nat → Nat) :
    (s.modify n fun v => { v with size := f v.size }).Leaves s := by
  refine ⟨rfl, rfl, fun p => ?_⟩
  rw [modify_node]
  split
  · rename_i hp
    rw [hp]
    exact .inl h
  · exact .refl _

theorem foldl_leaves {f : Vfs → Nat → Vfs} (hf : ∀ s i, (f s i).Leaves s) (l : List Nat) : (l.foldl f s).Leaves s := by
  induction l generalizing s with
  | nil => exact .refl s
  | cons i l ih => exact ih.trans (hf s i)

-- ---------------------------------------------------------------------------
-- Vnodes
-- ---------------------------------------------------------------------------

theorem kmalloc_leaves : s.kmalloc.2.Leaves s := by
  obtain ⟨heap, h⟩ := kmalloc_rest s
  rw [h]
  exact setHeap_leaves heap

theorem attach_leaves (d n : Ptr) : (s.attach d n).Leaves s :=
  ⟨(attach_rest s d n).tarData, (attach_rest s d n).tarSize, fun p => (attach_data s d n p).leaves⟩

theorem detach_leaves (n : Ptr) : (s.detach n).Leaves s :=
  ⟨(detach_rest s n).tarData, (detach_rest s n).tarSize, fun p => (detach_data s n p).leaves⟩

theorem newNode_leaves (type : VType) (mode : Nat) : (s.newNode d name type mode).2.Leaves s := by
  obtain ⟨heap, hn | ⟨n, -, hn⟩⟩ := newNode_cases s d name type mode
  · rw [hn]
    exact setHeap_leaves heap
  · rw [hn]
    have hr := attach_rest (withNode { s with heap := heap } n name type mode) d n
    refine ⟨hr.tarData, hr.tarSize, fun p => ?_⟩
    by_cases hp : p = n
    · refine .inl ?_
      rw [created_archive, if_pos hp]
    · refine .inr ⟨?_, (created_sameFile { s with heap := heap } n d name type mode hp).size⟩
      rw [created_archive, if_neg hp]

theorem releasePages_leaves : (s.releasePages n).Leaves s := by
  refine foldl_leaves (fun s i => ?_) _
  unfold releasePage
  refine (modify_leaves fun v => by exact .inr ⟨rfl, rfl⟩).trans ?_
  split
  · exact setPhys_leaves _
  · exact .refl s

theorem releaseNode_leaves : (s.releaseNode n).Leaves s := by
  have h : Leaves { s.releasePages n with live := (s.releasePages n).live.erase n } (s.releasePages n) :=
    ⟨rfl, rfl, fun _ => .refl _⟩
  exact h.trans releasePages_leaves

theorem removeNode_leaves : (s.removeNode n).Leaves s := by
  unfold removeNode
  dsimp only
  split
  · exact releaseNode_leaves.trans (detach_leaves n)
  · exact detach_leaves n

theorem moveNode_leaves (target : Option Ptr) : (s.moveNode n target d name).Leaves s := by
  unfold moveNode
  refine (attach_leaves d n).trans ((modify_leaves fun v => by exact .inr ⟨rfl, rfl⟩).trans ((detach_leaves n).trans ?_))
  split
  · exact .refl s
  · exact removeNode_leaves

-- ---------------------------------------------------------------------------
-- Calls
-- ---------------------------------------------------------------------------

theorem openNode_leaves (flags : OpenFlags) : (s.openNode n flags).2.2.Leaves s := by
  unfold openNode
  split
  · exact .refl s
  split
  · exact .refl s
  dsimp only
  refine (modify_leaves fun v => by exact .inr ⟨rfl, rfl⟩).trans ?_
  unfold truncateNode
  split
  · exact (modify_leaves fun v => by exact .inl rfl).trans releasePages_leaves
  · exact .refl s

theorem vfsOpen_leaves (path : CString) (flags : OpenFlags) : (s.vfsOpen path flags).2.2.Leaves s := by
  unfold vfsOpen
  split
  · split
    · exact .refl s
    · exact openNode_leaves flags
  split
  · split
    · exact .refl s
    · rename_i parent name _
      have hn := @newNode_leaves s parent name .reg (sIfreg ||| 0o666)
      split <;> rename_i he <;> rw [he] at hn
      · exact hn
      · exact (openNode_leaves flags).trans hn
  · exact .refl s

theorem vfsClose_leaves (file : File) : (s.vfsClose file).2.Leaves s := by
  unfold vfsClose
  split
  · exact .refl s
  · rename_i n _
    have hdrop : (s.dropRef n).Leaves s := by
      unfold dropRef
      split
      · exact modify_leaves fun v => by exact .inr ⟨rfl, rfl⟩
      · exact .refl s
    dsimp only
    split
    · exact releaseNode_leaves.trans hdrop
    · exact hdrop

theorem allocPages_leaves (l : List Nat) : (allocPages n l s).2.Leaves s := by
  induction l generalizing s with
  | nil => exact .refl s
  | cons i l ih =>
    unfold allocPages
    split
    · exact ih
    · have hm : Leaves (modify { s with phys := s.phys.allocPage.2 } n fun v =>
          { v with pages := Function.update v.pages i s.phys.allocPage.1 }) s :=
        (modify_leaves fun v => by exact .inr ⟨rfl, rfl⟩).trans (setPhys_leaves _)
      simp only
      split
      · exact hm
      · exact ih.trans hm

theorem ensurePages_leaves (stop : Nat) : (s.ensurePages n stop).2.Leaves s ∧
    ((s.ensurePages n stop).1 = true → ((s.ensurePages n stop).2.node n).archive = none) := by
  unfold ensurePages
  split
  · exact ⟨.refl s, fun h => by cases h⟩
  have ha := allocPages_leaves (s := s) (n := n) (List.range ((stop + pageSize - 1) / pageSize))
  split <;> rename_i t h <;> rw [h] at ha
  · exact ⟨ha, fun h => by cases h⟩
  split
  · rename_i hnone
    exact ⟨ha, fun _ => hnone⟩
  · dsimp only
    refine ⟨(modify_leaves fun v => by exact .inl rfl).trans ((foldl_leaves (fun s i => ?_) _).trans ha), fun _ => ?_⟩
    · exact setPhys_leaves _
    · rw [modify_node, if_pos rfl]

theorem writeLoop_leaves (k position : Nat) (bytes : List UInt8) :
    (writeLoop n k position bytes s).Leaves s ∧ (writeLoop n k position bytes s).node = s.node := by
  induction k generalizing position bytes s with
  | zero => exact ⟨.refl s, rfl⟩
  | succ k ih =>
    unfold writeLoop
    split
    · exact ⟨.refl s, rfl⟩
    · obtain ⟨hl, hn⟩ := @ih _ _ _
      exact ⟨hl.trans (setPhys_leaves _), hn⟩

theorem vfsWrite_leaves (file : File) (bytes : List UInt8) : (s.vfsWrite file bytes).2.2.Leaves s := by
  unfold vfsWrite
  cases file.node with
  | none => exact .refl s
  | some n =>
    simp only
    split
    · exact .refl s
    split
    · exact .refl s
    split
    · rename_i t he
      have hs := congrArg (fun r => Leaves r.2 s) he
      exact hs.mp (ensurePages_leaves _).1
    · rename_i t he
      have hs := congrArg (fun r => Leaves r.2 s) he
      have hnone := congrArg (fun r => r.1 = true → (r.2.node n).archive = none) he
      have hgone : (t.node n).archive = none := hnone.mp (ensurePages_leaves _).2 rfl
      obtain ⟨hw, hnode⟩ := writeLoop_leaves (s := t) (n := n) bytes.length (s.writeOffset n file) bytes
      -- the size is changed only here, where the archive is gone
      refine Leaves.trans (setSize_leaves (hnode ▸ hgone) _) (hw.trans (hs.mp (ensurePages_leaves _).1))

theorem vfsMkdir_leaves (path : CString) (mode : Nat) : (s.vfsMkdir path mode).2.Leaves s := by
  unfold vfsMkdir
  split
  · exact .refl s
  split
  · exact .refl s
  · rename_i parent name _ _
    have hn := @newNode_leaves s parent name .dir (sIfdir ||| (mode &&& 0o777))
    split <;> rename_i he <;> rw [he] at hn <;> exact hn

theorem vfsUnlink_leaves (path : CString) (removeDirectory : Bool) : (s.vfsUnlink path removeDirectory).2.Leaves s := by
  unfold vfsUnlink
  split
  · exact .refl s
  split
  · exact .refl s
  split
  · exact .refl s
  split
  · exact .refl s
  split
  · exact .refl s
  · exact removeNode_leaves

theorem vfsRename_leaves (oldPath newPath : CString) : (s.vfsRename oldPath newPath).2.Leaves s := by
  unfold vfsRename
  split
  · exact .refl s
  split
  · exact .refl s
  split
  · exact .refl s
  split
  · exact .refl s
  dsimp only
  split
  · exact .refl s
  split
  · exact .refl s
  have hk := kmalloc_leaves (s := s)
  split <;> rename_i h <;> rw [h] at hk
  · exact hk
  · exact (moveNode_leaves _).trans hk

-- ---------------------------------------------------------------------------
-- Reads
-- ---------------------------------------------------------------------------

theorem chunkAt_pos {position left : Nat} (h : left ≠ 0) :
    0 < chunkAt position left ∧ chunkAt position left ≤ left := by
  have hmod : position % pageSize < pageSize := Nat.mod_lt _ (by decide)
  unfold chunkAt
  split <;> omega

theorem Stored.readLoopChecked_eq (h : s.Stored) {k position left : Nat} (hk : left ≤ k)
    (hin : position + left ≤ (s.node n).size) :
    s.readLoopChecked n k position left = some (s.readLoop n k position left) := by
  induction k generalizing position left with
  | zero =>
    obtain rfl := Nat.le_zero.mp hk
    rfl
  | succ k ih =>
    unfold readLoopChecked readLoop
    split
    · rfl
    rename_i hleft
    obtain ⟨hpos, hle⟩ := @chunkAt_pos position left hleft
    dsimp only
    rw [ih (by omega) (by omega)]
    cases harchive : (s.node n).archive with
    | none => rfl
    | some archive =>
      have hstored := (h n archive harchive).1
      dsimp only
      rw [archiveBytes_eq (by omega)]
      rfl

theorem Stored.vfsReadChecked_eq (h : s.Stored) (file : File) (length : Nat) :
    s.vfsReadChecked file length = some (s.vfsRead file length) := by
  unfold vfsReadChecked vfsRead
  cases file.node with
  | none => rfl
  | some n =>
  dsimp only
  split
  · rfl
  split
  · rfl
  rw [h.readLoopChecked_eq le_rfl (by split <;> omega)]
  rfl

/-- The copies of `ensure_pages` change no vnode. -/
theorem Stored.copyArchivePages_eq (h : s.Stored) {archive : Nat} (harchive : (s.node n).archive = some archive)
    {l : List Nat} (hl : ∀ i ∈ l, i * pageSize < (s.node n).size) :
    l.foldlM (copyArchivePageChecked n archive) s = some (l.foldl (copyArchivePage n archive) s) := by
  induction l generalizing s with
  | nil => rfl
  | cons i l ih =>
    have hi := hl i List.mem_cons_self
    have hstored := (h n archive harchive).1
    rw [List.foldlM_cons, List.foldl_cons]
    have hone : copyArchivePageChecked n archive s i = some (copyArchivePage n archive s i) := by
      unfold copyArchivePageChecked copyArchivePage
      dsimp only
      rw [archiveBytes_eq (by split <;> omega)]
      rfl
    rw [hone, some_bind]
    exact ih (h.leaves (setPhys_leaves _)) harchive fun j hj => hl j (List.mem_cons_of_mem _ hj)

theorem Stored.ensurePagesChecked_eq (h : s.Stored) (stop : Nat) :
    s.ensurePagesChecked n stop = some (s.ensurePages n stop) := by
  unfold ensurePagesChecked ensurePages
  split
  · rfl
  have ha := allocPages_leaves (s := s) (n := n) (List.range ((stop + pageSize - 1) / pageSize))
  rcases hpages : allocPages n (List.range ((stop + pageSize - 1) / pageSize)) s with ⟨_ | _, t⟩
  · rfl
  rw [hpages] at ha
  dsimp only
  cases harchive : (t.node n).archive with
  | none => rfl
  | some archive =>
    dsimp only
    have hrange : ∀ i ∈ List.range (((t.node n).size + pageSize - 1) / pageSize), i * pageSize < (t.node n).size := by
      intro i hi
      have := List.mem_range.mp hi
      unfold pageSize at *
      omega
    rw [(h.leaves ha).copyArchivePages_eq harchive hrange]
    rfl

end Vfs

namespace Session

theorem call_leaves (s : Session) (c : FsCall) : (s.call c).vfs.Leaves s.vfs := by
  cases c with
  | openPath handle path flags =>
    simp only [call]
    split
    · exact .refl _
    · exact Vfs.vfsOpen_leaves path flags
  | close handle =>
    simp only [call]
    split
    · exact .refl _
    · exact Vfs.vfsClose_leaves _
  | read | seek | readdir =>
    simp only [call]
    split <;> exact .refl _
  | write handle bytes =>
    simp only [call]
    split
    · exact .refl _
    · exact Vfs.vfsWrite_leaves _ bytes
  | mkdir path mode => exact Vfs.vfsMkdir_leaves path mode
  | unlink path removeDirectory => exact Vfs.vfsUnlink_leaves path removeDirectory
  | rename oldPath newPath => exact Vfs.vfsRename_leaves oldPath newPath

theorem Steps.leaves {s t : Session} (hs : Steps s t) : t.vfs.Leaves s.vfs := by
  induction hs with
  | refl => exact .refl _
  | tail _ hstep ih =>
    obtain ⟨c, rfl⟩ := hstep
    exact (call_leaves _ c).trans ih

/-- The archive is parsed inside its bounds and to an end, and read inside its bounds
ever after. -/
theorem archive_inside (archive : Option Mem) (tarSize : Nat) (heap : List (Option Ptr)) (phys : Phys)
    (hsize : tarSize < 2 ^ 64) :
    Vfs.vfsInitChecked archive tarSize heap phys =
        some (archive.bind fun tarData => Vfs.vfsInit tarData tarSize heap phys) ∧
      ∀ tarData boot, archive = some tarData → Vfs.vfsInit tarData tarSize heap phys = some boot →
        (∀ p ∈ boot.live, (boot.node p).type = .reg → ∃ start, (boot.node p).archive = some start ∧
          start + (boot.node p).size ≤ tarSize ∧ (boot.node p).size ≤ vfsFileMax) ∧
        ∀ s, Steps (start boot) s →
          (∀ file length, s.vfs.vfsReadChecked file length = some (s.vfs.vfsRead file length)) ∧
          ∀ n stop, s.vfs.ensurePagesChecked n stop = some (s.vfs.ensurePages n stop) := by
  refine ⟨?_, fun tarData boot _ hboot => ?_⟩
  · cases archive with
    | none => rfl
    | some tarData => exact Vfs.vfsInitChecked_eq tarData heap phys hsize
  obtain ⟨harchived, htar⟩ := Vfs.archived_vfsInit hsize hboot
  refine ⟨fun p hp hreg => ?_, fun s hs => ?_⟩
  · cases harchive : (boot.node p).archive with
    | none => exact absurd ⟨hp, hreg, harchive⟩ (harchived.none_missing p)
    | some start => exact ⟨start, rfl, htar ▸ harchived.stored p start harchive⟩
  · have hstored : s.vfs.Stored := harchived.stored.leaves hs.leaves
    exact ⟨hstored.vfsReadChecked_eq, fun n stop => hstored.ensurePagesChecked_eq stop⟩

def oneMember : Mem := fun i =>
  (([(0, 97), (124, 51), (156, 48), (257, 117), (258, 115), (259, 116), (260, 97), (261, 114),
    (512, 120), (513, 121), (514, 122)] : List (Nat × UInt8)).lookup i).getD 0

def oneMemberBoot : Option Vfs :=
  Vfs.vfsInit oneMember 2048 [some 1, some 2, some 3, some 4] (mmInit [] (fun _ => 0) [])

theorem archive_inside_oneMember : oneMemberBoot.isSome ∧
    Vfs.vfsInitChecked (some oneMember) 2048 [some 1, some 2, some 3, some 4] (mmInit [] (fun _ => 0) []) =
      some oneMemberBoot := by
  refine ⟨by decide +kernel, ?_⟩
  have h := (archive_inside (some oneMember) 2048 [some 1, some 2, some 3, some 4] (mmInit [] (fun _ => 0) [])
    (by decide)).1
  rwa [Option.bind_some] at h

end Session

end NarcOs
