import NarcOs.Fs.FailedOpen
import NarcOs.Fs.Keys

/-!
# Namespace operations that fail

`vfs_mkdir`, `vfs_unlink` and `vfs_rename` make every check, and the only
allocation, before they change anything. A rename into the subtree that it is to
move is refused.
-/

namespace NarcOs

namespace Vfs

variable {s : Vfs} {kids : Ptr → List Ptr} {n d : Ptr} {key r : Key}

theorem vfsMkdir_failed {path : CString} {mode : Nat} (h : (s.vfsMkdir path mode).1 ≠ .ok) :
    (s.vfsMkdir path mode).2.Untouched s := by
  unfold vfsMkdir at h ⊢
  split
  · exact .refl s
  rename_i parent name hparent
  simp only [hparent] at h
  split
  · exact .refl s
  rename_i hnew
  rw [if_neg hnew] at h
  split
  · rename_i t ht
    exact newNode_none ht
  · rename_i n t ht
    rw [ht] at h
    exact absurd rfl h

theorem vfsUnlink_failed {path : CString} {removeDirectory : Bool} (h : (s.vfsUnlink path removeDirectory).1 ≠ .ok) :
    (s.vfsUnlink path removeDirectory).2.Untouched s := by
  unfold vfsUnlink at h ⊢
  split
  · exact .refl s
  rename_i parent name hparent
  simp only [hparent] at h
  split
  · exact .refl s
  rename_i n hn
  simp only [hn] at h
  split
  · exact .refl s
  rename_i hdir
  rw [if_neg hdir] at h
  split
  · exact .refl s
  rename_i hreg
  rw [if_neg hreg] at h
  split
  · exact .refl s
  rename_i hempty
  rw [if_neg hempty] at h
  exact absurd rfl h

theorem vfsRename_failed {oldPath newPath : CString} (h : (s.vfsRename oldPath newPath).1 ≠ .ok) :
    (s.vfsRename oldPath newPath).2.Untouched s := by
  unfold vfsRename at h ⊢
  split
  · exact .refl s
  rename_i oldParent oldName hold
  simp only [hold] at h
  split
  · exact .refl s
  rename_i n hn
  simp only [hn] at h
  split
  · exact .refl s
  rename_i newParent newName hnew
  simp only [hnew] at h
  split
  · exact .refl s
  rename_i hanc
  rw [if_neg hanc] at h
  simp only at h ⊢
  split
  · exact .refl s
  rename_i hself
  rw [if_neg hself] at h
  split
  · exact .refl s
  rename_i hreplace
  simp only [hreplace] at h
  obtain ⟨heap, hheap⟩ := kmalloc_rest s
  split
  · rename_i t ht
    rw [ht] at hheap
    rw [show t = { s with heap := heap } from hheap]
    exact ⟨rfl, rfl, rfl, rfl, rfl⟩
  · rename_i m t ht
    rw [ht] at h
    exact absurd rfl h

theorem Tree.mem_ancestors (h : s.Tree kids) (hn : s.reach key = some n) (hd : s.reach (key ++ r) = some d) :
    n ∈ s.ancestors d := by
  rw [reach_append, hn] at hd
  exact h.resolve_ancestor hd (h.ancestors (h.reach_linked (reach_append s key r ▸ hn ▸ hd))).1

theorem Tree.vfsRename_inside (h : s.Tree kids) {oldPath newPath : CString}
    (hold : ∃ o name, s.lookupParent oldPath.bytes = .ok (o, name) ∧ (s.childNamed o name).isSome)
    (hnew : ∃ e, s.lookupParent newPath.bytes = .ok e)
    (hin : canonical oldPath.bytes <+: canonical newPath.bytes) (hne : canonical oldPath.bytes ≠ canonical newPath.bytes) :
    s.vfsRename oldPath newPath = (.invalid, s) := by
  obtain ⟨o, oldName, hop, hchild⟩ := hold
  obtain ⟨⟨d, name⟩, hnp⟩ := hnew
  obtain ⟨n, hn⟩ := Option.isSome_iff_exists.mp hchild
  have hpold := lookupParent_ok oldPath.noNul hop
  have hpnew := lookupParent_ok newPath.noNul hnp
  obtain ⟨key, hkey, hd⟩ := h.parentOf_key hpnew
  have hreach := (h.entry_reach hpold).trans hn
  -- a proper prefix of the new key is one of its directory's key
  obtain ⟨r, hr⟩ : canonical oldPath.bytes <+: key := by
    rw [hkey] at hin hne
    rcases List.prefix_concat_iff.mp hin with he | hin
    · exact absurd he hne
    · exact hin
  have hanc : n ∈ s.ancestors d := h.mem_ancestors hreach (hr.symm ▸ hd)
  unfold Vfs.vfsRename
  simp only [hop, hn, hnp, if_pos hanc]

end Vfs

namespace Session

/-- In every state that a run reaches, a failed mkdir, unlink or rename changes nothing,
and a rename into the subtree to be moved is invalid. -/
theorem steps_failed_names (tarData : Mem) (tarSize : Nat) (heap : List (Option Ptr)) (phys : Phys) (v : Vfs)
    (hv : Vfs.vfsInit tarData tarSize heap phys = some v) (s : Session) (hs : Steps (start v) s) :
    (∀ path mode, (s.vfs.vfsMkdir path mode).1 ≠ .ok → (s.vfs.vfsMkdir path mode).2.Untouched s.vfs) ∧
    (∀ path removeDirectory, (s.vfs.vfsUnlink path removeDirectory).1 ≠ .ok →
      (s.vfs.vfsUnlink path removeDirectory).2.Untouched s.vfs) ∧
    (∀ oldPath newPath, (s.vfs.vfsRename oldPath newPath).1 ≠ .ok →
      (s.vfs.vfsRename oldPath newPath).2.Untouched s.vfs) ∧
    ∀ oldPath newPath,
      (∃ o name, s.vfs.lookupParent oldPath.bytes = .ok (o, name) ∧ (s.vfs.childNamed o name).isSome) →
      (∃ e, s.vfs.lookupParent newPath.bytes = .ok e) → canonical oldPath.bytes <+: canonical newPath.bytes →
      canonical oldPath.bytes ≠ canonical newPath.bytes → s.vfs.vfsRename oldPath newPath = (.invalid, s.vfs) := by
  obtain ⟨kids₀, h₀⟩ := Vfs.tree_vfsInit hv
  obtain ⟨kids, h⟩ := hs.tree h₀
  exact ⟨fun _ _ => Vfs.vfsMkdir_failed, fun _ _ => Vfs.vfsUnlink_failed, fun _ _ => Vfs.vfsRename_failed,
    fun _ _ hold hnew hin hne => h.vfsRename_inside hold hnew hin hne⟩

/-- `/a` is not moved to `/a/b`. -/
theorem steps_failed_names_inside :
    let s := (start (emptyBoot [some 3, some 4] (mmInit [] (fun _ => 0) []))).call (.mkdir ⟨[47, 97], by decide⟩ 0o755)
    s.vfs.vfsRename ⟨[47, 97], by decide⟩ ⟨[47, 97, 47, 98], by decide⟩ = (.invalid, s.vfs) := by
  intro s
  refine (steps_failed_names _ _ _ _ _ (vfsInit_emptyBoot [some 3, some 4] (mmInit [] (fun _ => 0) [])) s
    (.single ⟨_, rfl⟩)).2.2.2 _ _ ?_ ?_ ?_ ?_
  · exact ⟨1, [97], by decide +kernel, by decide +kernel⟩
  · exact ⟨(3, [98]), by decide +kernel⟩
  · decide +kernel
  · decide +kernel

/-- `/a/b/c` has no parent while `/a` is empty, and is not found before `/a` is seen above it. -/
theorem steps_not_invalid_inside : ¬ ∀ tarData tarSize heap phys v, Vfs.vfsInit tarData tarSize heap phys = some v →
    ∀ s, Steps (start v) s → ∀ oldPath newPath : CString,
      (∃ o name, s.vfs.lookupParent oldPath.bytes = .ok (o, name) ∧ (s.vfs.childNamed o name).isSome) →
      canonical oldPath.bytes <+: canonical newPath.bytes → canonical oldPath.bytes ≠ canonical newPath.bytes →
      (s.vfs.vfsRename oldPath newPath).1 = .invalid := by
  intro h
  have hinvalid := h _ _ _ _ _ (vfsInit_emptyBoot [some 3, some 4] (mmInit [] (fun _ => 0) []))
    ((start (emptyBoot [some 3, some 4] (mmInit [] (fun _ => 0) []))).call (.mkdir ⟨[47, 97], by decide⟩ 0o755))
    (.single ⟨_, rfl⟩) ⟨[47, 97], by decide⟩ ⟨[47, 97, 47, 98, 47, 99], by decide⟩
    ⟨1, [97], by decide +kernel, by decide +kernel⟩ (by decide +kernel) (by decide +kernel)
  revert hinvalid
  decide +kernel

end Session

end NarcOs
