import NarcOs.Fs.Arrays

/-!
# What backs a file

Along the runs of the calls on file contents a regular file is in the archive, or has
a page for each of its bytes and zeros behind its end. A write that fails may have
taken pages for the file, but its bytes are those from before.
-/

namespace NarcOs

namespace Vfs

variable {s : Vfs} {p : Ptr}

structure Backed (s : Vfs) (p : Ptr) : Prop where
  size : (s.node p).size ≤ vfsFileMax
  stored : (s.node p).archive ≠ none ∨
    (∀ i < ((s.node p).size + pageSize - 1) / pageSize, s.slot p i ≠ 0) ∧
      ∀ x, (s.node p).size ≤ x → s.slot p (x / pageSize) ≠ 0 → s.raw p x = 0

theorem Backed.of_filled (h : s.Filled p) : s.Backed p where
  size := h.size
  stored := by
    cases ha : (s.node p).archive with
    | some archive => exact .inl (by simp)
    | none =>
      refine .inr ⟨fun i hi => ?_, fun x hx hslot => h.slack x hslot (.inr hx)⟩
      -- the first byte of the page is in the file
      have hsize : i * 4096 < (s.node p).size := by
        simp only [pageSize] at hi
        omega
      have hpage := h.backed ha (i * 4096) hsize
      rwa [Nat.mul_div_cancel _ (by decide)] at hpage

end Vfs

namespace Session

theorem storage_backed (tarData : Mem) (tarSize : Nat) (heap : List (Option Ptr)) (phys : Phys) (A : Multiset Nat)
    (hphys : phys.Avail A) (boot : Vfs) (hboot : Vfs.vfsInit tarData tarSize heap phys = some boot) (s : Session)
    (a : Ptr → List UInt8) (hrun : ArrayRun boot s a) :
    (∀ p ∈ s.vfs.live, (s.vfs.node p).type = .reg → s.vfs.Backed p) ∧
    ∀ handle file n bytes, s.file handle = some file → file.node = some n → (s.vfs.vfsWrite file bytes).1 = none →
      ((s.vfs.vfsWrite file bytes).2.2.node n).size = (s.vfs.node n).size ∧
        ∀ p ∈ s.vfs.live, (s.vfs.vfsWrite file bytes).2.2.contents p = s.vfs.contents p := by
  have h := hrun.refines (refines_start hphys hboot)
  refine ⟨fun p hp _ => .of_filled (h.filled p hp), fun handle file n bytes hfile hnode hfail => ?_⟩
  obtain ⟨m, hm, hnode', hoff⟩ := h.handle handle file hfile
  obtain rfl : m = n := Option.some_inj.mp (hnode'.symm.trans hnode)
  obtain ⟨A', hA⟩ := h.frames
  obtain ⟨hholds, -⟩ := Vfs.vfsWrite_holds bytes hA (h.filled m (h.linked_live hm)) hnode hoff
  rw [hfail] at hholds
  have hkept : (s.vfs.vfsWrite file bytes).2.2.contents m = s.vfs.contents m := hholds.contents
  refine ⟨?_, fun p _ => ?_⟩
  · rw [← Vfs.length_contents, hkept, Vfs.length_contents]
  · by_cases hp : p = m
    · rw [hp, hkept]
    · exact (hholds.other p hp).contents

/-- With one free page a write over two pages fails, and the file holds `ab` as before. -/
theorem storage_backed_scratch :
    (scratch 0).1.vfs.Backed 3 ∧
      ((scratch 0).1.vfs.vfsWrite ⟨some 3, 0, 7⟩ (List.replicate 5000 0)).2.2.contents 3 =
        (scratch 0).1.vfs.contents 3 := by
  have h := storage_backed (fun _ => 0) 1024 [some 1, some 2, some 3, some 4] scratchPhys _
    (Phys.avail_mmInit memmapOk_scratchPhys) scratchBoot (vfsInit_emptyBoot _ _) (scratch 0).1 (scratch 0).2
    (scratch_run 0)
  exact ⟨h.1 3 (by decide +kernel) (by decide +kernel),
    (h.2 0 ⟨some 3, 0, 7⟩ 3 (List.replicate 5000 0) (by decide +kernel) rfl (by decide +kernel)).2 3 (by decide +kernel)⟩

end Session

end NarcOs
