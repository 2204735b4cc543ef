import NarcOs.Fs.Arrays
import NarcOs.Mm.Frames

/-!
# Frames of others

An open or a write touches frames of the file system and of the allocator only. A
frame that neither has keeps its bytes, and stays the other's.
-/

namespace NarcOs

namespace Vfs

variable {s t u : Vfs} {A B : Multiset Nat} {n : Ptr} {f i : Nat}

structure Foreign (s : Vfs) (A : Multiset Nat) (f : Nat) : Prop where
  frame : IsFrame f
  taken : f ∉ A
  slot : ∀ p i, s.slot p i ≠ f

structure Spares (t s : Vfs) : Prop where
  foreign : ∀ A, s.Frames A → ∃ B, t.Frames B ∧ ∀ f, s.Foreign A f → t.Foreign B f
  within : ∀ A, s.Frames A → ∃ S, Mem.Within S s.phys.mem t.phys.mem ∧ ∀ f, s.Foreign A f → f ∉ S

theorem Spares.refl (s : Vfs) : s.Spares s :=
  ⟨fun A h => ⟨A, h, fun _ hf => hf⟩, fun _ _ => ⟨0, .refl _ _, fun _ _ => Multiset.notMem_zero _⟩⟩

theorem Spares.trans (h : u.Spares t) (h' : t.Spares s) : u.Spares s where
  foreign A hA := by
    obtain ⟨B, hB, hkeep⟩ := h'.foreign A hA
    obtain ⟨C, hC, hkeep'⟩ := h.foreign B hB
    exact ⟨C, hC, fun f hf => hkeep' f (hkeep f hf)⟩
  within A hA := by
    obtain ⟨B, hB, hkeep⟩ := h'.foreign A hA
    obtain ⟨S, hS, hnot⟩ := h'.within A hA
    obtain ⟨T, hT, hnot'⟩ := h.within B hB
    refine ⟨S + T, (hS.mono (Multiset.subset_of_le (Multiset.le_add_right S T))).trans
      (hT.mono (Multiset.subset_of_le (Multiset.le_add_left T S))), fun f hf hm => ?_⟩
    rcases Multiset.mem_add.mp hm with hm | hm
    · exact hnot f hf hm
    · exact hnot' f (hkeep f hf) hm

theorem spares_of_slots (hphys : t.phys = s.phys) (hslot : ∀ p i, t.slot p i ≠ 0 → t.slot p i = s.slot p i) :
    t.Spares s where
  foreign A hA := by
    refine ⟨A, hA.shrink (hphys ▸ hA.avail) hslot fun p i hp => ?_, fun f hf => ⟨hf.frame, hf.taken, fun p i hp => ?_⟩⟩
    · have e := hslot p i hp
      exact e ▸ hA.held p i (e ▸ hp)
    · have hne : t.slot p i ≠ 0 := hp ▸ hf.frame.pos
      exact hf.slot p i ((hslot p i hne).symm.trans hp)
  within A _ := by
    refine ⟨0, ?_, fun _ _ => Multiset.notMem_zero _⟩
    rw [hphys]
    exact .refl _ _

theorem modify_spares (s : Vfs) (n : Ptr) {change : Vnode → Vnode} (hpages : ∀ v, (change v).pages = v.pages) :
    (s.modify n change).Spares s :=
  spares_of_slots rfl fun p i _ => by
    rw [slot, modify_node]
    split
    · rw [hpages]
      rfl
    · rfl

theorem grow_spares (hi : i < 16) (hz : s.slot n i = 0) : (s.grow n i).Spares s := by
  constructor
  · intro A h
    obtain ⟨B, hB⟩ := h.grow hi hz
    refine ⟨B, hB, fun f hf => ?_⟩
    rcases h.avail.allocPage with ⟨h0, hav, -⟩ | ⟨C, hne, hAC, hav, -⟩
    · obtain rfl := hB.avail.unique hav
      refine ⟨hf.frame, hf.taken, fun p j => ?_⟩
      rw [grow_slot]
      split
      · rw [h0]
        exact fun e => hf.frame.pos e.symm
      · exact hf.slot p j
    · obtain rfl := hB.avail.unique hav
      refine ⟨hf.frame, fun hm => hf.taken (hAC ▸ Multiset.mem_cons_of_mem hm), fun p j => ?_⟩
      rw [grow_slot]
      split
      · rintro rfl
        exact hf.taken (hAC ▸ Multiset.mem_cons_self _ _)
      · exact hf.slot p j
  · intro A h
    rcases h.avail.allocPage with ⟨-, -, hm⟩ | ⟨B, -, hAB, -, hm⟩
    · refine ⟨0, ?_, fun _ _ => Multiset.notMem_zero _⟩
      show Mem.Within 0 s.phys.mem s.phys.allocPage.2.mem
      rw [hm]
      exact .refl _ _
    · have hmem : s.phys.allocPage.1 ∈ A := hAB ▸ Multiset.mem_cons_self _ _
      refine ⟨{s.phys.allocPage.1}, ?_, fun f hf hf' => hf.taken (Multiset.mem_singleton.mp hf' ▸ hmem)⟩
      show Mem.Within _ s.phys.mem s.phys.allocPage.2.mem
      rw [hm]
      exact Mem.within_memset (h.avail.isFrame hmem) (Multiset.mem_singleton_self _) 0

theorem allocPages_spares (n : Ptr) (l : List Nat) (s : Vfs) (hl : ∀ i ∈ l, i < 16) : (allocPages n l s).2.Spares s := by
  induction l generalizing s with
  | nil => exact .refl s
  | cons i l ih =>
    have hrest : ∀ j ∈ l, j < 16 := fun j hj => hl j (List.mem_cons_of_mem _ hj)
    rw [allocPages_cons]
    split
    · exact ih s hrest
    · rename_i hz
      have hgrow := grow_spares (hl i (by simp)) (not_not.mp hz)
      split
      · exact hgrow
      · exact (ih (s.grow n i) hrest).trans hgrow

theorem poke_spares (start : Nat) (bytes : List UInt8) (hslot : s.slot n (start / 4096) ≠ 0)
    (hlen : start % 4096 + bytes.length ≤ 4096) :
    (s.poke (s.slot n (start / 4096) + start % 4096) bytes).Spares s where
  foreign A hA := ⟨A, (poke_patched start bytes hslot hlen).frames A hA, fun _ hf => ⟨hf.frame, hf.taken, hf.slot⟩⟩
  within _ hA := ⟨{s.slot n (start / 4096)}, Mem.within_write (hA.frame n _ hslot) (Multiset.mem_singleton_self _) hlen,
    fun _ hf hm => hf.slot n _ (Multiset.mem_singleton.mp hm).symm⟩

theorem writeLoop_spares (n : Ptr) (k position : Nat) (bytes : List UInt8) (s : Vfs)
    (hslot : ∀ x, position ≤ x → x < position + bytes.length → s.slot n (x / 4096) ≠ 0) :
    (writeLoop n k position bytes s).Spares s := by
  induction k generalizing position bytes s with
  | zero => exact .refl s
  | succ k ih =>
    unfold writeLoop
    split
    · exact .refl s
    · rename_i hne
      have hpos := List.length_pos_iff.mpr hne
      have hchunk := chunkAt_eq_min position bytes.length
      generalize chunkAt position bytes.length = chunk at hchunk
      have hlen := List.length_take_of_le (show chunk ≤ bytes.length by omega)
      have hfirst := poke_spares (s := s) (n := n) position (bytes.take chunk) (hslot position le_rfl (by omega)) (by omega)
      refine (ih (position + chunk) (bytes.drop chunk) _ fun x h₁ h₂ => ?_).trans hfirst
      rw [List.length_drop] at h₂
      exact hslot x (by omega) (by omega)

theorem copyArchive_spares (n : Ptr) (archive k : Nat) (s : Vfs) (hk : k * 4096 < (s.node n).size + 4096)
    (hslot : ∀ i < k, s.slot n i ≠ 0) : ((List.range k).foldl (copyArchivePage n archive) s).Spares s := by
  induction k with
  | zero => exact .refl s
  | succ k ih =>
    have hk' : k * 4096 < (s.node n).size + 4096 := Nat.lt_of_le_of_lt (Nat.mul_le_mul_right _ (Nat.le_succ k)) hk
    have hold : ∀ i < k, s.slot n i ≠ 0 := fun i hi => hslot i (Nat.lt_succ_of_lt hi)
    have hprev := ih hk' hold
    have hnode := (copyArchive_patched n archive k s hk' hold).node
    rw [List.range_succ, List.foldl_append, List.foldl_cons, List.foldl_nil]
    generalize (List.range k).foldl (copyArchivePage n archive) s = t at hprev hnode
    rw [copyArchivePage_eq]
    refine (poke_spares (k * 4096) _ ?_ ?_).trans hprev
    · rw [slot, hnode, Nat.mul_div_cancel _ (by decide)]
      exact hslot k (Nat.lt_succ_self k)
    · rw [Mem.length_read]
      omega

theorem ensurePages_spares {stop : Nat} (h : s.Frames A) (hf : s.Filled n) (hstop : (s.node n).size ≤ stop) :
    (s.ensurePages n stop).2.Spares s := by
  unfold ensurePages
  split
  · exact .refl s
  · rename_i hmax
    simp only [vfsFileMax] at hmax
    have hsmall : ∀ i ∈ List.range ((stop + pageSize - 1) / pageSize), i < 16 := fun i hi => by
      rw [List.mem_range, pageSize] at hi
      omega
    have hspares := allocPages_spares n _ s hsmall
    obtain ⟨hg, hall⟩ := allocPages_grown n _ s hsmall
    have hkept := hg.kept_contents h hf
    generalize allocPages n (List.range ((stop + pageSize - 1) / pageSize)) s = r at hspares hg hall hkept ⊢
    obtain ⟨ok, t⟩ := r
    cases ok with
    | false => exact hspares
    | true =>
      simp only at hspares hg hall hkept ⊢
      split
      · exact hspares
      · rename_i archive ha
        have hcopy := copyArchive_spares n archive (((t.node n).size + pageSize - 1) / pageSize) t
          (by rw [pageSize]; omega) fun i hi => hall trivial i (List.mem_range.mpr (by
            rw [hkept.size, length_contents, pageSize] at hi
            rw [pageSize]
            omega))
        have hdone := hcopy.trans hspares
        dsimp only
        refine Spares.trans ?_ hdone
        exact modify_spares _ n fun v => rfl

theorem vfsWrite_spares (bytes : List UInt8) {file : File} (h : s.Frames A) (hf : s.Filled n) (hn : file.node = some n)
    (hoff : file.offset ≤ vfsFileMax) : (s.vfsWrite file bytes).2.2.Spares s := by
  have hstart := writeOffset_le hf hoff
  unfold vfsWrite
  rw [hn]
  simp only
  split
  · exact .refl s
  split
  · exact .refl s
  · rename_i hfits
    simp only [wrap64, vfsFileMax] at hfits hstart
    have hwrap : wrap64 (s.writeOffset n file + bytes.length) = s.writeOffset n file + bytes.length :=
      Nat.mod_eq_of_lt (by omega)
    simp only [hwrap]
    have hstop : (if s.writeOffset n file + bytes.length > (s.node n).size then s.writeOffset n file + bytes.length
        else (s.node n).size) = max (s.node n).size (s.writeOffset n file + bytes.length) := by split <;> omega
    rw [hstop]
    have hroom : (s.node n).size ≤ max (s.node n).size (s.writeOffset n file + bytes.length) := le_max_left _ _
    have hspares := ensurePages_spares h hf hroom
    obtain ⟨-, hready⟩ := ensurePages_kept h hf hroom
    generalize s.ensurePages n (max (s.node n).size (s.writeOffset n file + bytes.length)) = r at hspares hready ⊢
    obtain ⟨ok, t⟩ := r
    cases ok with
    | false => exact hspares
    | true =>
      simp only at hspares hready ⊢
      have hcopy := writeLoop_spares n bytes.length (s.writeOffset n file) bytes t fun x _ hx =>
        (hready trivial).2 x (Nat.lt_of_lt_of_le hx (le_max_right _ _))
      refine Spares.trans ?_ (hcopy.trans hspares)
      exact modify_spares _ n fun v => rfl

theorem releasePage_spares (n : Ptr) (s : Vfs) (i : Nat) : (releasePage n s i).Spares s := by
  by_cases hz : s.slot n i = 0
  · refine spares_of_slots ?_ fun p j hp => ?_
    · rw [releasePage_phys, if_neg (not_not.mpr hz)]
    · rw [releasePage_slot] at hp ⊢
      split at hp
      · exact absurd rfl hp
      · rename_i hne
        rw [if_neg hne]
  · constructor
    · intro A hA
      refine ⟨_, hA.releasePage n i, fun f hf => ⟨hf.frame, ?_, fun p j => ?_⟩⟩
      · rw [if_neg hz, Multiset.mem_cons, not_or]
        exact ⟨(hf.slot n i).symm, hf.taken⟩
      · rw [releasePage_slot]
        split
        · exact fun e => hf.frame.pos e.symm
        · exact hf.slot p j
    · intro A hA
      refine ⟨{s.slot n i}, Mem.OnlyIn.within (fun x hx => ?_) fun f hf => ?_, fun f hf hm => ?_⟩
      · have := hx (s.slot n i) (Multiset.mem_singleton_self _)
        rw [releasePage_phys, if_pos hz]
        exact Phys.pmmFreePage_mem_outside (by omega)
      · exact Multiset.mem_singleton.mp hf ▸ hA.frame n i hz
      · exact hf.slot n i (Multiset.mem_singleton.mp hm).symm

theorem releasePages_spares (s : Vfs) (n : Ptr) : (s.releasePages n).Spares s := by
  have hgen : ∀ (l : List Nat) (s : Vfs), (l.foldl (releasePage n) s).Spares s := by
    intro l
    induction l with
    | nil => exact fun s => .refl s
    | cons i l ih => exact fun s => (ih (releasePage n s i)).trans (releasePage_spares n s i)
  exact hgen _ s

theorem openNode_spares (s : Vfs) (n : Ptr) (flags : OpenFlags) : (s.openNode n flags).2.2.Spares s := by
  have htruncate : (s.truncateNode n flags).Spares s := by
    unfold truncateNode
    split
    · refine Spares.trans ?_ (releasePages_spares s n)
      exact modify_spares _ n fun _ => rfl
    · exact .refl s
  unfold openNode
  split
  · exact .refl s
  split
  · exact .refl s
  · dsimp only
    refine Spares.trans ?_ htruncate
    exact modify_spares _ n fun _ => rfl

theorem newNode_spares (s : Vfs) (d : Ptr) (name : List UInt8) (type : VType) (mode : Nat) :
    (s.newNode d name type mode).2.Spares s := by
  obtain ⟨heap, hn | ⟨n, -, hn⟩⟩ := newNode_cases s d name type mode
  · rw [hn]
    exact spares_of_slots rfl fun _ _ _ => rfl
  · rw [hn]
    refine spares_of_slots (attach_rest _ d n).phys fun p i hp => ?_
    by_cases hpn : p = n
    · exact absurd (hpn ▸ (created_self { s with heap := heap } n d name type mode).2.2 i) hp
    · exact (created_sameFile { s with heap := heap } n d name type mode hpn).slot i

theorem vfsOpen_spares (s : Vfs) (path : CString) (flags : OpenFlags) : (s.vfsOpen path flags).2.2.Spares s := by
  unfold vfsOpen
  split
  · split
    · exact .refl s
    · exact openNode_spares s _ flags
  · split
    · split
      · exact .refl s
      · rename_i parent name _
        have hnew := newNode_spares s parent name .reg (sIfreg ||| 0o666)
        split
        · rename_i he
          rw [he] at hnew
          exact hnew
        · rename_i node t he
          rw [he] at hnew
          exact (openNode_spares t node flags).trans hnew
    · exact .refl s

end Vfs

end NarcOs
