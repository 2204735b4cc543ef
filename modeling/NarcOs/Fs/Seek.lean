import NarcOs.Fs.Lifetime

/-!
# Seek arithmetic

`vfs_seek` with its signed operations checked. Along every run the offset of a handle
on a regular file is at most `VFS_FILE_MAX`, so the negation never overflows; the
addition does when the offset asked for is within the base of `INT64_MAX`.
-/

namespace NarcOs

def signed (z : Int) : Option Int := if -2 ^ 63 ≤ z ∧ z < 2 ^ 63 then some z else none

namespace Vfs

/-- `vfs_seek`; `none` when it evaluates a signed operation that overflows. -/
def vfsSeekChecked (s : Vfs) (file : File) (offset : Int) (origin : Nat) : Option (Option Nat × File) :=
  match file.node with
  | none => some (none, file)
  | some node =>
    if (s.node node).type ≠ .reg then some (none, file)
    else
      let base : Int := if origin = 0 then 0 else if origin = 1 then toSigned file.offset
        else if origin = 2 then toSigned (s.node node).size else -1
      if base < 0 then some (none, file)
      else
        match signed (-base) with
        | none => none
        | some low =>
          if offset < low then some (none, file)
          else
            match signed (base + offset) with
            | none => none
            | some sum =>
              let next := ofSigned sum
              if next > vfsFileMax then some (none, file)
              else some (some next, { file with offset := next })

variable {s t : Vfs} {n : Ptr} {file : File} {offset : Int} {origin : Nat}

theorem vfsSeekChecked_eq {r : Option Nat × File} (h : s.vfsSeekChecked file offset origin = some r) :
    s.vfsSeek file offset origin = r := by
  unfold vfsSeekChecked at h
  unfold vfsSeek
  cases hnode : file.node with
  | none =>
    rw [hnode] at h
    exact Option.some_inj.mp h
  | some node =>
    rw [hnode] at h
    dsimp only at h ⊢
    generalize (if origin = 0 then (0 : Int) else if origin = 1 then toSigned file.offset
      else if origin = 2 then toSigned (s.node node).size else -1) = base at h ⊢
    split at h
    · rename_i hreg
      rw [if_pos hreg]
      exact Option.some_inj.mp h
    rename_i hreg
    rw [if_neg hreg]
    split at h
    · rename_i hlow
      rw [if_pos (.inl hlow)]
      exact Option.some_inj.mp h
    rename_i hbase
    unfold signed at h
    split at h
    · cases h
    rename_i low hlow
    split at hlow <;> cases hlow
    split at h
    · rename_i hoff
      rw [if_pos (.inr hoff)]
      exact Option.some_inj.mp h
    rename_i hoff
    rw [if_neg (not_or.mpr ⟨hbase, hoff⟩)]
    split at h
    · cases h
    rename_i sum hsum
    split at hsum <;> cases hsum
    split at h
    · rename_i hmax
      rw [if_pos hmax]
      exact Option.some_inj.mp h
    · rename_i hmax
      rw [if_neg hmax]
      exact Option.some_inj.mp h

def seekBase (s : Vfs) (n : Ptr) (file : File) (origin : Nat) : Int :=
  if origin = 0 then 0 else if origin = 1 then file.offset else (s.node n).size

/-- The seek overflows nothing, and moves to the exact sum when that is a position. -/
def SeekExact (s : Vfs) (n : Ptr) (file : File) (offset : Int) (origin : Nat) : Prop :=
  ∃ r, s.vfsSeekChecked file offset origin = some r ∧
    if 0 ≤ s.seekBase n file origin + offset ∧ s.seekBase n file origin + offset ≤ vfsFileMax then
      r = (some (s.seekBase n file origin + offset).toNat,
        { file with offset := (s.seekBase n file origin + offset).toNat })
    else r = (none, file)

theorem seekExact_iff (hnode : file.node = some n) (hreg : (s.node n).type = .reg) (hoff : file.offset ≤ vfsFileMax)
    (hsize : (s.node n).size ≤ vfsFileMax) (horigin : origin ≤ 2) (hlow : -2 ^ 63 ≤ offset) :
    s.SeekExact n file offset origin ↔ s.seekBase n file origin + offset < 2 ^ 63 := by
  have hbase : (if origin = 0 then (0 : Int) else if origin = 1 then toSigned file.offset
      else if origin = 2 then toSigned (s.node n).size else -1) = s.seekBase n file origin := by
    simp only [vfsFileMax] at hoff hsize
    unfold seekBase toSigned
    rw [if_pos (show file.offset < 2 ^ 63 by omega), if_pos (show (s.node n).size < 2 ^ 63 by omega)]
    split
    · rfl
    split
    · rfl
    · rw [if_pos (by omega)]
  have hpos : 0 ≤ s.seekBase n file origin ∧ s.seekBase n file origin ≤ vfsFileMax := by
    unfold seekBase
    split
    · simp
    split <;> omega
  unfold SeekExact vfsSeekChecked
  rw [hnode]
  dsimp only
  rw [hbase, if_neg (not_not.mpr hreg), ← hnode]
  generalize s.seekBase n file origin = base at hpos
  have hbound : vfsFileMax < 2 ^ 62 := by decide
  rw [if_neg (by omega), signed, if_pos (by omega)]
  dsimp only
  by_cases hneg : offset < -base
  · rw [if_pos hneg]
    simp only [Option.some.injEq, exists_eq_left']
    rw [if_neg (by omega)]
    simp only [true_iff]
    omega
  · rw [if_neg hneg]
    by_cases hover : base + offset < 2 ^ 63
    · rw [signed, if_pos ⟨by omega, hover⟩]
      have hnext : ofSigned (base + offset) = (base + offset).toNat := by
        unfold ofSigned
        rw [Int.emod_eq_of_lt (by omega) (by omega)]
      dsimp only
      rw [hnext]
      simp only [hover, iff_true]
      by_cases hmax : base + offset ≤ vfsFileMax
      · rw [if_neg (by omega)]
        refine ⟨_, rfl, ?_⟩
        rw [if_pos ⟨by omega, hmax⟩]
      · rw [if_pos (by omega)]
        refine ⟨_, rfl, ?_⟩
        rw [if_neg fun h => hmax h.2]
    · rw [signed, if_neg (by omega)]
      exact ⟨fun h => (Option.some_ne_none _ h.choose_spec.1.symm).elim, fun h => absurd h hover⟩

-- ---------------------------------------------------------------------------
-- Sizes and offsets
-- ---------------------------------------------------------------------------

def SizesOk (s : Vfs) : Prop := ∀ p, (s.node p).size ≤ vfsFileMax

theorem SizesOk.uses (h : s.SizesOk) (hu : t.SameUses s) : t.SizesOk := fun p => (hu p).size ▸ h p

theorem SizesOk.newNode (h : s.SizesOk) (d : Ptr) (name : List UInt8) (type : VType) (mode : Nat) :
    (s.newNode d name type mode).2.SizesOk ∧
      ∀ p ∈ s.live, ((s.newNode d name type mode).2.node p).type = (s.node p).type := by
  cases he : s.newNode d name type mode with
  | mk answer t =>
    cases answer with
    | none =>
      have hu := (newNode_none_uses he).1
      exact ⟨h.uses hu, fun p _ => (hu p).type⟩
    | some m =>
      obtain ⟨hm, -, -, hz, -, hother⟩ := newNode_use he
      refine ⟨fun p => ?_, fun p hp => (hother p (ne_of_mem_of_not_mem hp hm)).type⟩
      by_cases hp : p = m
      · rw [hp, hz]
        exact Nat.zero_le _
      · rw [(hother p hp).size]
        exact h p

theorem SizesOk.openNode (h : s.SizesOk) (n : Ptr) (flags : OpenFlags) :
    (s.openNode n flags).2.2.SizesOk ∧
      ∀ file, (s.openNode n flags).2.1 = some file → file.offset ≤ vfsFileMax := by
  have htrunc : (s.truncateNode n flags).SizesOk := by
    unfold truncateNode
    split
    · intro p
      rw [modify_node]
      split
      · exact Nat.zero_le _
      · rw [(releasePages_sameUses p).size]
        exact h p
    · exact h
  unfold Vfs.openNode
  split
  · exact ⟨h, fun file hf => by cases hf⟩
  split
  · exact ⟨h, fun file hf => by cases hf⟩
  refine ⟨fun p => ?_, fun file hf => ?_⟩
  · rw [modify_node]
    split <;> exact htrunc _
  · cases hf
    dsimp only
    split
    · exact htrunc n
    · exact Nat.zero_le _

theorem SizesOk.vfsOpen (h : s.SizesOk) (path : CString) (flags : OpenFlags) :
    (s.vfsOpen path flags).2.2.SizesOk ∧
      (∀ file, (s.vfsOpen path flags).2.1 = some file → file.offset ≤ vfsFileMax) ∧
      ∀ p ∈ s.live, ((s.vfsOpen path flags).2.2.node p).type = (s.node p).type := by
  have hsame : ∀ file : File, none = some file → file.offset ≤ vfsFileMax := fun file hf => by cases hf
  unfold Vfs.vfsOpen
  split
  · rename_i m _
    split
    · exact ⟨h, hsame, fun _ _ => rfl⟩
    · obtain ⟨hs, ho⟩ := h.openNode m flags
      exact ⟨hs, ho, fun p _ => (openNode_sameTree.node p).type⟩
  split
  · split
    · exact ⟨h, hsame, fun _ _ => rfl⟩
    · rename_i parent name _
      obtain ⟨hs, ht⟩ := h.newNode parent name .reg (sIfreg ||| 0o666)
      split <;> rename_i he <;> rw [he] at hs ht
      · exact ⟨hs, hsame, ht⟩
      · rename_i m u
        obtain ⟨hs', ho⟩ := SizesOk.openNode hs m flags
        exact ⟨hs', ho, fun p hp => (openNode_sameTree.node p).type.trans (ht p hp)⟩
  · exact ⟨h, hsame, fun _ _ => rfl⟩

theorem SizesOk.vfsMkdir (h : s.SizesOk) (path : CString) (mode : Nat) :
    (s.vfsMkdir path mode).2.SizesOk ∧ ∀ p ∈ s.live, ((s.vfsMkdir path mode).2.node p).type = (s.node p).type := by
  unfold Vfs.vfsMkdir
  split
  · exact ⟨h, fun _ _ => rfl⟩
  split
  · exact ⟨h, fun _ _ => rfl⟩
  · rename_i parent name _ _
    have hn := h.newNode parent name .dir (sIfdir ||| (mode &&& 0o777))
    split <;> rename_i he <;> rw [he] at hn <;> exact hn

theorem SizesOk.vfsClose (h : s.SizesOk) (file : File) : (s.vfsClose file).2.SizesOk := by
  have hdrop : ∀ n, (s.dropRef n).SizesOk := fun n p => by
    unfold dropRef
    split
    · rw [modify_node]
      split <;> exact h _
    · exact h p
  unfold Vfs.vfsClose
  split
  · exact h
  · rename_i n _
    dsimp only
    split
    · exact SizesOk.uses (hdrop n) releaseNode_sameUses
    · exact hdrop n

theorem ensurePages_max {stop : Nat} (h : s.ensurePages n stop = (true, t)) : stop ≤ vfsFileMax := by
  unfold ensurePages at h
  split at h
  · cases h
  · exact not_lt.mp ‹_›

theorem SizesOk.vfsWrite (h : s.SizesOk)
    (hoff : ∀ n, file.node = some n → (s.node n).type = .reg → file.offset ≤ vfsFileMax) (bytes : List UInt8) :
    (s.vfsWrite file bytes).2.2.SizesOk ∧ ∀ n, file.node = some n → (s.node n).type = .reg →
      (s.vfsWrite file bytes).2.1.offset ≤ vfsFileMax := by
  unfold Vfs.vfsWrite
  cases hnode : file.node with
  | none => exact ⟨h, fun n hn => by cases hn⟩
  | some n =>
    have hoff' : ∀ m, some n = some m → (s.node m).type = .reg → file.offset ≤ vfsFileMax :=
      fun m hm => hoff m (hnode.trans hm)
    simp only
    split
    · exact ⟨h, hoff'⟩
    rename_i hreg
    have hstart : s.writeOffset n file ≤ vfsFileMax := by
      unfold writeOffset
      split
      · exact h n
      · exact hoff' n rfl (not_not.mp (not_or.mp hreg).1)
    split
    · exact ⟨h, fun _ _ _ => hstart⟩
    have hens : ∀ r, s.ensurePages n (if wrap64 (s.writeOffset n file + bytes.length) > (s.node n).size then
        wrap64 (s.writeOffset n file + bytes.length) else (s.node n).size) = r → r.2.SizesOk := by
      rintro _ rfl
      exact h.uses ensurePages_sameUses
    split
    · rename_i t he
      exact ⟨hens _ he, fun _ _ _ => hstart⟩
    · rename_i t he
      have hmax := ensurePages_max he
      have hw : SizesOk (writeLoop n bytes.length (s.writeOffset n file) bytes t) :=
        SizesOk.uses (hens _ he) (writeLoop_sameUses _ _ _)
      have hstop : wrap64 (s.writeOffset n file + bytes.length) ≤ vfsFileMax := by
        split at hmax <;> omega
      refine ⟨fun p => ?_, fun _ _ _ => hstop⟩
      dsimp only
      rw [modify_node]
      split
      · dsimp only
        split
        · exact hstop
        · exact hw p
      · exact hw p

theorem vfsRead_offset (h : s.SizesOk) (hoff : file.offset ≤ vfsFileMax) (length : Nat) :
    (s.vfsRead file length).2.offset ≤ vfsFileMax := by
  unfold vfsRead
  split
  · exact hoff
  rename_i n _
  split
  · exact hoff
  split
  · exact hoff
  rename_i hin
  have hsize := h n
  have hle : (if length > (s.node n).size - file.offset then (s.node n).size - file.offset
      else length) ≤ (s.node n).size - file.offset := by split <;> omega
  exact (Nat.mod_le _ _).trans (by omega)

end Vfs

namespace Session

structure OffsetsOk (s : Session) : Prop where
  sizes : s.vfs.SizesOk
  offset : ∀ k file n, s.file k = some file → file.node = some n → (s.vfs.node n).type = .reg →
    file.offset ≤ vfsFileMax

variable {s : Session} {v : Vfs} {k : Nat} {f : Option File}

theorem OffsetsOk.set (h : s.OffsetsOk) (hl : s.PointsToLive) (hv : v.SizesOk)
    (ht : ∀ p ∈ s.vfs.live, (v.node p).type = (s.vfs.node p).type)
    (hf : ∀ file n, f = some file → file.node = some n → (v.node n).type = .reg → file.offset ≤ vfsFileMax) :
    (Session.setFile { s with vfs := v } k f).OffsetsOk := by
  refine ⟨hv, fun j file n hj hn hreg => ?_⟩
  change Function.update s.file k f j = some file at hj
  rw [Function.update_apply] at hj
  split at hj
  · exact hf file n hj hn hreg
  · refine h.offset j file n hj hn ?_
    rw [← ht n (hl.handle j file n hj hn)]
    exact hreg

theorem OffsetsOk.keep (h : s.OffsetsOk) (hl : s.PointsToLive) (hv : v.SizesOk)
    (ht : ∀ p ∈ s.vfs.live, (v.node p).type = (s.vfs.node p).type) : OffsetsOk { s with vfs := v } :=
  ⟨hv, fun j file n hj hn hreg => h.offset j file n hj hn (ht n (hl.handle j file n hj hn) ▸ hreg)⟩

theorem OffsetsOk.call (h : s.OffsetsOk) (hl : s.PointsToLive) (c : FsCall) : (s.call c).OffsetsOk := by
  cases c with
  | openPath k path flags =>
    simp only [Session.call]
    cases hk : s.file k with
    | some file => exact h
    | none =>
      obtain ⟨hs, ho, ht⟩ := h.sizes.vfsOpen path flags
      exact h.set hl hs ht fun file n hf _ _ => ho file hf
  | close k =>
    simp only [Session.call]
    cases hk : s.file k with
    | none => exact h
    | some file =>
      refine h.set hl (h.sizes.vfsClose file) (fun p _ => ?_) fun file n hf => by cases hf
      cases hnode : file.node with
      | none =>
        unfold Vfs.vfsClose
        rw [hnode]
      | some n => exact ((Vfs.vfsClose_life hnode).2.1 p).type
  | read k length =>
    simp only [Session.call]
    cases hk : s.file k with
    | none => exact h
    | some file =>
      refine h.set hl h.sizes (fun _ _ => rfl) ?_
      rintro _ n ⟨⟩ hn hreg
      rw [Vfs.vfsRead_node] at hn
      exact Vfs.vfsRead_offset h.sizes (h.offset k file n hk hn hreg) length
  | write k bytes =>
    simp only [Session.call]
    cases hk : s.file k with
    | none => exact h
    | some file =>
      obtain ⟨hs, ho⟩ := h.sizes.vfsWrite (fun n hn hreg => h.offset k file n hk hn hreg) bytes
      have ht := fun p => (Vfs.vfsWrite_use (s := s.vfs) file bytes p).1
      refine h.set hl hs (fun p _ => ht p) ?_
      rintro _ n ⟨⟩ hn hreg
      rw [Vfs.vfsWrite_node] at hn
      rw [ht] at hreg
      exact ho n hn hreg
  | seek k offset origin =>
    simp only [Session.call]
    cases hk : s.file k with
    | none => exact h
    | some file =>
      refine h.set hl h.sizes (fun _ _ => rfl) ?_
      rintro _ n ⟨⟩ hn hreg
      rw [Vfs.vfsSeek_node] at hn
      exact (Vfs.vfsSeek_file hn (h.offset k file n hk hn hreg) offset origin).2
  | readdir k entry =>
    simp only [Session.call]
    cases hk : s.file k with
    | none => exact h
    | some file =>
      refine h.set hl h.sizes (fun _ _ => rfl) ?_
      rintro _ n ⟨⟩ hn hreg
      rw [Vfs.vfsReaddir_node] at hn
      -- a regular file is refused
      unfold Vfs.vfsReaddir
      rw [hn]
      dsimp only
      rw [if_pos (by rw [hreg]; decide)]
      exact h.offset k file n hk hn hreg
  | mkdir path mode =>
    obtain ⟨hs, ht⟩ := h.sizes.vfsMkdir path mode
    exact h.keep hl hs ht
  | unlink path removeDirectory =>
    have hu : (s.vfs.vfsUnlink path removeDirectory).2.SameUses s.vfs := Vfs.vfsUnlink_sameUses path removeDirectory
    exact h.keep hl (h.sizes.uses hu) fun p _ => (hu p).type
  | rename oldPath newPath =>
    have hu : (s.vfs.vfsRename oldPath newPath).2.SameUses s.vfs := Vfs.vfsRename_sameUses oldPath newPath
    exact h.keep hl (h.sizes.uses hu) fun p _ => (hu p).type

theorem offsetsOk_start {tarData : Mem} {tarSize : Nat} {heap : List (Option Ptr)} {phys : Phys} {boot : Vfs}
    (h : Vfs.vfsInit tarData tarSize heap phys = some boot) : (Session.start boot).OffsetsOk :=
  ⟨(Vfs.loaded_vfsInit h).size, fun _ _ _ hf => by cases hf⟩

theorem Logged.offsetsOk {boot : Vfs} {made freed : Multiset Ptr} (hrun : Logged boot s made freed)
    (hc : (Session.start boot).Counted) (h : (Session.start boot).OffsetsOk) : s.OffsetsOk := by
  induction hrun with
  | start => exact h
  | call c hrun _ ih => exact ih.call (hrun.counted hc).1.pointsToLive c

/-- Offsets of regular files are in range along every run, and a seek is exact when the
sum is a signed 64-bit number. -/
theorem logged_seek (tarData : Mem) (tarSize : Nat) (heap : List (Option Ptr)) (phys : Phys) (boot : Vfs)
    (hboot : Vfs.vfsInit tarData tarSize heap phys = some boot) (s : Session) (made freed : Multiset Ptr)
    (hrun : Logged boot s made freed) (k : Nat) (file : File) (n : Ptr) (hk : s.file k = some file)
    (hnode : file.node = some n) (hreg : (s.vfs.node n).type = .reg) :
    file.offset ≤ vfsFileMax ∧ ∀ offset origin, -2 ^ 63 ≤ offset → offset < 2 ^ 63 → origin ≤ 2 →
      (s.vfs.SeekExact n file offset origin ↔ s.vfs.seekBase n file origin + offset < 2 ^ 63) := by
  have h := hrun.offsetsOk (counted_start hboot) (offsetsOk_start hboot)
  have hoff := h.offset k file n hk hnode hreg
  exact ⟨hoff, fun offset origin hlow _ horigin => Vfs.seekExact_iff hnode hreg hoff (h.sizes n) horigin hlow⟩

def atOne : Session := (scratchCalls 1).foldl call (start scratchBoot)

theorem atOne_logged : ∃ made freed, Logged scratchBoot atOne made freed :=
  exists_logged {0} (by decide) (scratchCalls 1) (by simp [scratchCalls, FsCall.handle])

/-- From position 1 the largest offset overflows the sum. -/
theorem logged_seek_overflows :
    Vfs.vfsInit (fun _ => 0) 1024 [some 1, some 2, some 3, some 4] scratchPhys = some scratchBoot ∧
      (∃ made freed, Logged scratchBoot atOne made freed) ∧ atOne.file 0 = some ⟨some 3, 1, 7⟩ ∧
      (atOne.vfs.node 3).type = .reg ∧ ¬ atOne.vfs.SeekExact 3 ⟨some 3, 1, 7⟩ (2 ^ 63 - 1) 1 := by
  have hreg : (atOne.vfs.node 3).type = .reg := by decide +kernel
  refine ⟨vfsInit_emptyBoot _ _, atOne_logged, by decide +kernel, hreg, ?_⟩
  rw [Vfs.seekExact_iff rfl hreg (by decide) (by decide +kernel) (by decide) (by decide)]
  decide

theorem logged_seek_back : atOne.vfs.SeekExact 3 ⟨some 3, 1, 7⟩ (-1) 1 := by
  obtain ⟨made, freed, hrun⟩ := atOne_logged
  have h := logged_seek (fun _ => 0) 1024 [some 1, some 2, some 3, some 4] scratchPhys scratchBoot
    (vfsInit_emptyBoot _ _) atOne made freed hrun 0 ⟨some 3, 1, 7⟩ 3 (by decide +kernel) rfl (by decide +kernel)
  exact (h.2 (-1) 1 (by decide) (by decide) (by decide)).mpr (by decide)

end Session

end NarcOs
