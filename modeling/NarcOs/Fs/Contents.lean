import NarcOs.Fs.Storage

/-!
# File contents

What `vfs_write` and `vfs_read` do to the contents of a vnode, as a list of
bytes. The copy loops are described by `Patched`, which says which positions
of one vnode's pages change; a write is then a splice of the contents.
-/

namespace NarcOs

/-- `bytes` put over `a` at `offset`, with zeros over a gap before it. -/
def splice (a : List UInt8) (offset : Nat) (bytes : List UInt8) : List UInt8 :=
  (a ++ List.replicate (offset - a.length) 0).take offset ++ bytes ++ a.drop (offset + bytes.length)

theorem length_splice (a : List UInt8) (offset : Nat) (bytes : List UInt8) :
    (splice a offset bytes).length = max a.length (offset + bytes.length) := by
  simp only [splice, List.length_append, List.length_take, List.length_replicate, List.length_drop]
  omega

theorem getD_splice (a : List UInt8) (offset : Nat) (bytes : List UInt8) (x : Nat) :
    (splice a offset bytes).getD x 0 =
      if offset ≤ x ∧ x < offset + bytes.length then bytes.getD (x - offset) 0 else a.getD x 0 := by
  simp only [splice, List.getD_eq_getElem?_getD, List.getElem?_append, List.length_append,
    List.length_take, List.length_replicate, List.getElem?_take, List.getElem?_drop,
    List.getElem?_replicate]
  have hlen : min offset (a.length + (offset - a.length)) = offset := by omega
  rw [hlen]
  by_cases h₁ : x < offset
  · have h₂ : x < offset + bytes.length := by omega
    have h₃ : ¬ (offset ≤ x ∧ x < offset + bytes.length) := by omega
    rw [if_neg h₃, if_pos h₂, if_pos h₁, if_pos h₁]
    by_cases h₄ : x < a.length
    · rw [if_pos h₄]
    · rw [if_neg h₄, if_pos (by omega), List.getElem?_eq_none (by omega)]
      rfl
  · by_cases h₂ : x < offset + bytes.length
    · rw [if_pos h₂, if_neg h₁, if_pos (by omega)]
    · have h₄ : offset + bytes.length + (x - (offset + bytes.length)) = x := by omega
      rw [if_neg h₂, if_neg (by omega), h₄]

theorem splice_append (a : List UInt8) (offset : Nat) (bs cs : List UInt8) :
    splice (splice a offset bs) (offset + bs.length) cs = splice a offset (bs ++ cs) := by
  refine List.ext_getElem ?_ fun i h₁ h₂ => ?_
  · simp only [length_splice, List.length_append]
    omega
  · rw [← List.getD_eq_getElem _ 0 h₁, ← List.getD_eq_getElem _ 0 h₂, getD_splice, getD_splice, getD_splice,
      List.length_append]
    by_cases hb : offset ≤ i ∧ i < offset + bs.length
    · rw [if_neg (by omega), if_pos hb, if_pos (by omega), List.getD_append _ _ _ _ (by omega)]
    · by_cases hc : offset + bs.length ≤ i ∧ i < offset + bs.length + cs.length
      · rw [if_pos hc, if_pos (by omega), List.getD_append_right _ _ _ _ (by omega), Nat.sub_sub]
      · rw [if_neg hc, if_neg hb, if_neg (by omega)]

namespace Vfs

variable {s t u : Vfs} {A : Multiset Nat} {n : Ptr} {start x : Nat} {bytes : List UInt8}

theorem getD_contents (h : x < (s.node n).size) : (s.contents n).getD x 0 = s.byteAt n x := by
  rw [List.getD_eq_getElem?_getD, getElem?_contents h]
  rfl

theorem contents_eq {l : List UInt8} (hsize : (s.node n).size = l.length)
    (h : ∀ x < l.length, s.byteAt n x = l.getD x 0) : s.contents n = l := by
  apply List.ext_getElem?
  intro x
  by_cases hx : x < l.length
  · rw [getElem?_contents (hsize ▸ hx), h x hx, List.getElem?_eq_getElem hx,
      List.getD_eq_getElem _ _ hx]
  · rw [List.getElem?_eq_none (by simp; omega), List.getElem?_eq_none (by omega)]

-- ---------------------------------------------------------------------------
-- The copy loops
-- ---------------------------------------------------------------------------

structure Patched (t s : Vfs) (n : Ptr) (start : Nat) (bytes : List UInt8) : Prop where
  frames : ∀ A, s.Frames A → t.Frames A
  other : ∀ A, s.Frames A → ∀ p ≠ n, t.SameFile s p
  tarData : t.tarData = s.tarData
  node : t.node = s.node
  raw : ∀ A, s.Frames A → ∀ x, t.raw n x =
    if start ≤ x ∧ x < start + bytes.length then bytes.getD (x - start) 0 else s.raw n x

theorem Patched.refl (s : Vfs) (n : Ptr) (start : Nat) : s.Patched s n start [] :=
  ⟨fun _ h => h, fun _ _ p _ => .refl s p, rfl, rfl, fun _ _ x => by
    rw [if_neg]
    simp only [List.length_nil]
    omega⟩

theorem Patched.append {mid : Nat} {cs : List UInt8} (h : u.Patched t n mid cs)
    (h' : t.Patched s n start bytes) (hmid : mid = start + bytes.length) :
    u.Patched s n start (bytes ++ cs) where
  frames A hA := h.frames A (h'.frames A hA)
  other A hA p hp := (h.other A (h'.frames A hA) p hp).trans (h'.other A hA p hp)
  tarData := h.tarData.trans h'.tarData
  node := h.node.trans h'.node
  raw A hA x := by
    subst hmid
    rw [h.raw A (h'.frames A hA), h'.raw A hA, List.length_append]
    by_cases h₁ : start ≤ x ∧ x < start + bytes.length
    · rw [if_neg (by omega), if_pos h₁, if_pos (by omega), List.getD_append _ _ _ _ (by omega)]
    · by_cases h₂ : start + bytes.length ≤ x ∧ x < start + bytes.length + cs.length
      · rw [if_pos h₂, if_pos (by omega), List.getD_append_right _ _ _ _ (by omega)]
        congr 1
        omega
      · rw [if_neg h₂, if_neg h₁, if_neg (by omega)]

def poke (s : Vfs) (a : Nat) (bytes : List UInt8) : Vfs :=
  { s with phys := { s.phys with mem := s.phys.mem.write a bytes } }

theorem poke_patched (start : Nat) (bytes : List UInt8) (hslot : s.slot n (start / 4096) ≠ 0)
    (hlen : start % 4096 + bytes.length ≤ 4096) :
    (s.poke (s.slot n (start / 4096) + start % 4096) bytes).Patched s n start bytes := by
  -- memory outside the page keeps its bytes
  have hmem : ∀ b, b < s.slot n (start / 4096) ∨ s.slot n (start / 4096) + 4096 ≤ b →
      (s.poke (s.slot n (start / 4096) + start % 4096) bytes).phys.mem b = s.phys.mem b :=
    fun b hb => Mem.write_apply_outside (by omega)
  constructor
  · intro A h
    refine ⟨h.avail.setMem fun a ha i hi => ?_, h.frame, h.held, h.inj, h.bound⟩
    have hd := (h.avail.isFrame ha).disjoint (h.frame n _ hslot)
      fun e => h.held n _ hslot (e ▸ ha)
    exact hmem _ (by omega)
  · intro A h p hp
    refine ⟨rfl, rfl, rfl, rfl, fun x => h.raw_eq (h.frame n _ hslot) ?_ rfl hmem⟩
    exact fun e => hp (h.inj n p _ _ hslot e.symm).1.symm
  · rfl
  · rfl
  · intro A h x
    by_cases hpage : x / 4096 = start / 4096
    · rw [raw, raw, show (s.poke _ bytes).slot n = s.slot n from rfl, hpage]
      by_cases hx : start ≤ x ∧ x < start + bytes.length
      · have e : s.slot n (start / 4096) + x % 4096 =
            s.slot n (start / 4096) + start % 4096 + (x - start) := by omega
        rw [if_pos hx, e]
        exact Mem.write_apply_inside (by omega)
      · rw [if_neg hx]
        exact Mem.write_apply_outside (by omega)
    · rw [if_neg (by omega)]
      refine h.raw_eq (h.frame n _ hslot) ?_ rfl hmem
      exact fun e => hpage (h.inj n n _ _ hslot e.symm).2.symm

theorem chunkAt_eq_min (position left : Nat) :
    chunkAt position left = min left (4096 - position % 4096) := by
  unfold chunkAt pageSize
  by_cases h : 4096 - position % 4096 > left
  · rw [if_pos h]
    omega
  · rw [if_neg h]
    omega

theorem writeLoop_patched (n : Ptr) (k position : Nat) (bytes : List UInt8) (s : Vfs)
    (hk : bytes.length ≤ k)
    (hslot : ∀ x, position ≤ x → x < position + bytes.length → s.slot n (x / 4096) ≠ 0) :
    (writeLoop n k position bytes s).Patched s n position bytes := by
  induction k generalizing position bytes s with
  | zero =>
    have hnil : bytes = [] := List.eq_nil_of_length_eq_zero (by omega)
    rw [hnil]
    exact .refl s n position
  | succ k ih =>
    unfold writeLoop
    split
    · rename_i hnil
      rw [hnil]
      exact .refl s n position
    · rename_i hne
      have hpos : bytes.length ≠ 0 := fun e => hne (List.eq_nil_of_length_eq_zero e)
      have hchunk := chunkAt_eq_min position bytes.length
      generalize chunkAt position bytes.length = chunk at hchunk
      have hlen : (bytes.take chunk).length = chunk := by
        rw [List.length_take]
        omega
      have hfirst := poke_patched (s := s) (n := n) position (bytes.take chunk)
        (hslot position (Nat.le_refl _) (by omega)) (by omega)
      have hrest := ih (position + chunk) (bytes.drop chunk)
        (s.poke (s.slot n (position / 4096) + position % 4096) (bytes.take chunk))
        (by rw [List.length_drop]; omega)
        (fun x h₁ h₂ => hslot x (by omega) (by rw [List.length_drop] at h₂; omega))
      have hall := hrest.append hfirst (by rw [hlen])
      rw [List.take_append_drop] at hall
      exact hall

theorem copyArchivePage_eq (n : Ptr) (archive : Nat) (s : Vfs) (k : Nat) :
    copyArchivePage n archive s k = s.poke (s.slot n (k * 4096 / 4096) + k * 4096 % 4096)
      (s.tarData.read (archive + k * 4096) (min ((s.node n).size - k * 4096) 4096)) := by
  have hamount : (if (s.node n).size - k * pageSize > pageSize then pageSize
      else (s.node n).size - k * pageSize) = min ((s.node n).size - k * 4096) 4096 := by
    by_cases h : (s.node n).size - k * pageSize > pageSize
    · rw [if_pos h]
      unfold pageSize at h ⊢
      omega
    · rw [if_neg h]
      unfold pageSize at h ⊢
      omega
  rw [Nat.mul_div_cancel _ (by decide), Nat.mul_mod_left, Nat.add_zero]
  unfold copyArchivePage
  simp only [hamount]
  rfl

theorem copyArchive_patched (n : Ptr) (archive k : Nat) (s : Vfs)
    (hk : k * 4096 < (s.node n).size + 4096) (hslot : ∀ i < k, s.slot n i ≠ 0) :
    ((List.range k).foldl (copyArchivePage n archive) s).Patched s n 0
      (s.tarData.read archive (min (k * 4096) (s.node n).size)) := by
  induction k with
  | zero =>
    have hnil : s.tarData.read archive (min (0 * 4096) (s.node n).size) = [] := by
      rw [Nat.zero_mul, Nat.zero_min]
      rfl
    rw [hnil]
    exact .refl s n 0
  | succ k ih =>
    have hk' : k * 4096 < (s.node n).size + 4096 :=
      Nat.lt_of_le_of_lt (Nat.mul_le_mul_right _ (Nat.le_succ k)) hk
    have hprev := ih hk' fun i hi => hslot i (Nat.lt_succ_of_lt hi)
    rw [List.range_succ, List.foldl_append, List.foldl_cons, List.foldl_nil]
    generalize (List.range k).foldl (copyArchivePage n archive) s = t at hprev
    have hts : t.slot n = s.slot n := by
      unfold slot
      rw [hprev.node]
    have hmin : min (k * 4096) (s.node n).size = k * 4096 := by omega
    rw [hmin] at hprev
    have hround := poke_patched (s := t) (n := n) (k * 4096)
      (s.tarData.read (archive + k * 4096) (min ((s.node n).size - k * 4096) 4096))
      (by
        rw [hts, Nat.mul_div_cancel _ (by decide)]
        exact hslot k (by omega))
      (by
        rw [Mem.length_read]
        omega)
    rw [copyArchivePage_eq, hprev.tarData, hprev.node]
    have hall := hround.append hprev (by simp)
    have hsum : k * 4096 + min ((s.node n).size - k * 4096) 4096 =
        min ((k + 1) * 4096) (s.node n).size := by omega
    rw [← Mem.read_add, hsum] at hall
    exact hall

-- ---------------------------------------------------------------------------
-- Making room
-- ---------------------------------------------------------------------------

structure Holds (t s : Vfs) (n : Ptr) (l : List UInt8) : Prop where
  frames : ∃ B, t.Frames B
  other : ∀ p ≠ n, t.SameFile s p
  filled : t.Filled n
  contents : t.contents n = l

abbrev Kept (t s : Vfs) (n : Ptr) : Prop := t.Holds s n (s.contents n)

theorem Holds.size {l : List UInt8} (h : t.Holds s n l) : (t.node n).size = l.length := by
  rw [← length_contents, h.contents]

theorem Holds.trans {l k : List UInt8} (h : u.Holds t n l) (h' : t.Holds s n k) : u.Holds s n l :=
  ⟨h.frames, fun p hp => (h.other p hp).trans (h'.other p hp), h.filled, h.contents⟩

theorem Frames.kept (h : s.Frames A) (hf : s.Filled n) : s.Kept s n :=
  ⟨⟨A, h⟩, fun p _ => .refl s p, hf, rfl⟩

theorem Holds.congr {l : List UInt8} (h : t.Holds s n l) (htar : u.tarData = t.tarData)
    (hphys : u.phys = t.phys) (hsize : ∀ p, (u.node p).size = (t.node p).size)
    (harchive : ∀ p, (u.node p).archive = (t.node p).archive)
    (hpages : ∀ p, (u.node p).pages = (t.node p).pages) : u.Holds s n l := by
  have hsame : ∀ p, u.SameFile t p := fun p =>
    sameFile_of_mem_eq htar (by rw [hphys]) (hsize p) (harchive p) (hpages p)
  obtain ⟨B, hB⟩ := h.frames
  exact ⟨⟨B, hB.congr hphys hpages⟩, fun p hp => (hsame p).trans (h.other p hp),
    (hsame n).filled h.filled, (hsame n).contents.trans h.contents⟩

theorem Grown.kept_contents (h : t.Grown s n) (hA : s.Frames A) (hf : s.Filled n) : t.Kept s n :=
  ⟨h.frames A hA, h.other A hA, h.filled hA hf, h.contents hA hf⟩

/-- The archive is copied to pages that are all there, and then forgotten. -/
theorem Frames.materialise (h : s.Frames A) (hf : s.Filled n) {archive : Nat}
    (ha : (s.node n).archive = some archive)
    (hslot : ∀ x < (s.node n).size, s.slot n (x / 4096) ≠ 0) :
    (((List.range (((s.node n).size + pageSize - 1) / pageSize)).foldl
      (copyArchivePage n archive) s).modify n fun v => { v with archive := none }).Kept s n := by
  have hp := copyArchive_patched n archive (((s.node n).size + 4096 - 1) / 4096) s (by omega)
    fun i hi => by
      have hx := hslot (i * 4096) (by omega)
      rwa [Nat.mul_div_cancel _ (by decide)] at hx
  have hmin : min (((s.node n).size + 4096 - 1) / 4096 * 4096) (s.node n).size =
      (s.node n).size := by omega
  rw [hmin] at hp
  simp only [pageSize]
  generalize (List.range (((s.node n).size + 4096 - 1) / 4096)).foldl
    (copyArchivePage n archive) s = t at hp
  have hnode : ∀ q, (t.modify n fun v => { v with archive := none }).node q =
      if q = n then { s.node q with archive := none } else s.node q := by
    intro q
    rw [modify_node, hp.node]
  have hraw : ∀ x, (t.modify n fun v => { v with archive := none }).raw n x =
      if x < (s.node n).size then s.tarData (archive + x) else s.raw n x := by
    intro x
    have e : (t.modify n fun v => { v with archive := none }).raw n x = t.raw n x := by
      unfold raw slot
      rw [hnode, if_pos rfl, hp.node]
      rfl
    rw [e, hp.raw A h, Mem.length_read]
    by_cases hx : x < (s.node n).size
    · rw [if_pos (by omega), if_pos hx, Nat.sub_zero, Mem.getD_read hx]
    · rw [if_neg (by omega), if_neg hx]
  constructor
  · refine ⟨A, (hp.frames A h).congr rfl fun q => ?_⟩
    rw [hnode, hp.node]
    split <;> rfl
  · intro p hne
    have hs := hp.other A h p hne
    refine SameFile.trans (t := t) (sameFile_of_mem_eq rfl rfl ?_ ?_ ?_) hs
    all_goals rw [hnode, if_neg hne, hp.node]
  · constructor
    · rw [hnode, if_pos rfl]
      exact hf.size
    · intro _ x hx
      rw [hnode, if_pos rfl] at hx
      rw [slot, hnode, if_pos rfl]
      exact hslot x hx
    · intro x hx hc
      rw [slot, hnode, if_pos rfl] at hx
      rw [hnode, if_pos rfl] at hc
      have hge : (s.node n).size ≤ x := hc.resolve_left (by simp)
      rw [hraw, if_neg (by omega)]
      exact hf.slack x hx (.inl (by simp [ha]))
  · have hsize : ((t.modify n fun v => { v with archive := none }).node n).size =
        (s.contents n).length := by
      rw [hnode, if_pos rfl, length_contents]
    refine contents_eq hsize fun x hx => ?_
    rw [length_contents] at hx
    unfold byteAt
    rw [hnode, if_pos rfl, getD_contents hx, byteAt, ha]
    simp only
    rw [hraw, if_pos hx]

theorem ensurePages_kept {stop : Nat} (h : s.Frames A) (hf : s.Filled n)
    (hstop : (s.node n).size ≤ stop) :
    (s.ensurePages n stop).2.Kept s n ∧ ((s.ensurePages n stop).1 = true →
      ((s.ensurePages n stop).2.node n).archive = none ∧
      ∀ x < stop, (s.ensurePages n stop).2.slot n (x / 4096) ≠ 0) := by
  unfold ensurePages
  split
  · exact ⟨h.kept hf, by simp⟩
  · rename_i hmax
    simp only [vfsFileMax] at hmax
    obtain ⟨hg, hall⟩ := allocPages_grown n (List.range ((stop + pageSize - 1) / pageSize)) s
      fun i hi => by
        rw [List.mem_range, pageSize] at hi
        omega
    have hkept := hg.kept_contents h hf
    split
    · rename_i t he
      rw [he] at hkept
      exact ⟨hkept, by simp⟩
    · rename_i t he
      rw [he] at hkept hg hall
      simp only at hkept hg hall
      have hslot : ∀ x < stop, t.slot n (x / 4096) ≠ 0 := fun x hx =>
        hall trivial _ (List.mem_range.mpr (by rw [pageSize]; omega))
      split
      · rename_i ha
        exact ⟨hkept, fun _ => ⟨ha, hslot⟩⟩
      · rename_i archive ha
        obtain ⟨B, hB⟩ := hkept.frames
        have hm := hB.materialise hkept.filled ha fun x hx =>
          hslot x (by rw [hkept.size, length_contents] at hx; omega)
        have hp := copyArchive_patched n archive (((t.node n).size + pageSize - 1) / pageSize) t
          (by rw [pageSize]; omega) fun i hi => by
            have hx := hslot (i * 4096) (by
              rw [hkept.size, length_contents, pageSize] at hi
              omega)
            rwa [Nat.mul_div_cancel _ (by decide)] at hx
        have hms := hm.trans hkept
        rw [hkept.contents] at hms
        refine ⟨hms, fun _ => ⟨?_, fun x hx => ?_⟩⟩
        · simp only [modify_node, if_pos]
        · rw [slot, modify_node, if_pos rfl, hp.node]
          exact hslot x hx

-- ---------------------------------------------------------------------------
-- Writing
-- ---------------------------------------------------------------------------

/-- The bytes are copied into pages that are all there, and the size grows. -/
theorem Frames.put (h : s.Frames A) (hf : s.Filled n) {offset : Nat}
    (ha : (s.node n).archive = none) (hmax : offset + bytes.length ≤ vfsFileMax)
    (hslot : ∀ x < max (s.node n).size (offset + bytes.length), s.slot n (x / 4096) ≠ 0) :
    ((writeLoop n bytes.length offset bytes s).modify n fun v =>
      { v with size := if offset + bytes.length > v.size then offset + bytes.length else v.size }).Holds
        s n (splice (s.contents n) offset bytes) := by
  have hp := writeLoop_patched n bytes.length offset bytes s (Nat.le_refl _)
    fun x _ hx => hslot x (by omega)
  generalize writeLoop n bytes.length offset bytes s = t at hp
  have hgrow : ∀ v : Vnode, (if offset + bytes.length > v.size then offset + bytes.length
      else v.size) = max v.size (offset + bytes.length) := fun v => by split <;> omega
  simp only [hgrow]
  generalize hu : (t.modify n fun v => { v with size := max v.size (offset + bytes.length) }) = u
  have hnode : ∀ q, u.node q = if q = n then
      { s.node q with size := max (s.node q).size (offset + bytes.length) } else s.node q := by
    intro q
    rw [← hu, modify_node, hp.node]
  have huslot : ∀ q, u.slot q = t.slot q := by
    intro q
    unfold slot
    rw [hnode, hp.node]
    split <;> rfl
  have hraw : ∀ x, u.raw n x = if offset ≤ x ∧ x < offset + bytes.length then
      bytes.getD (x - offset) 0 else s.raw n x := by
    intro x
    rw [← hp.raw A h x, raw, raw, huslot, ← hu]
    rfl
  have hun : u.slot n = s.slot n := by
    rw [huslot]
    unfold slot
    rw [hp.node]
  constructor
  · refine ⟨A, (hp.frames A h).congr (by rw [← hu]; rfl) fun q => ?_⟩
    rw [hnode, hp.node]
    split <;> rfl
  · intro p hne
    have hs := hp.other A h p hne
    refine SameFile.trans (t := t) (sameFile_of_mem_eq ?_ ?_ ?_ ?_ ?_) hs
    · rw [← hu]
      rfl
    · rw [← hu]
      rfl
    all_goals rw [hnode, if_neg hne, hp.node]
  · constructor
    · rw [hnode, if_pos rfl]
      exact max_le hf.size hmax
    · intro _ x hx
      rw [hnode, if_pos rfl] at hx
      rw [hun]
      exact hslot x hx
    · intro x hx hc
      rw [hnode, if_pos rfl] at hc
      rw [hun] at hx
      have hge : max (s.node n).size (offset + bytes.length) ≤ x := hc.resolve_left (not_not.mpr ha)
      rw [hraw, if_neg (by omega)]
      exact hf.slack x hx (.inr (by omega))
  · have hsize : (u.node n).size = (splice (s.contents n) offset bytes).length := by
      rw [hnode, if_pos rfl, length_splice, length_contents]
    refine contents_eq hsize fun x hx => ?_
    rw [length_splice, length_contents] at hx
    have hb : u.byteAt n x = u.raw n x := by
      unfold byteAt
      rw [hnode, if_pos rfl]
      simp only [ha]
    rw [hb, hraw, getD_splice]
    by_cases hin : offset ≤ x ∧ x < offset + bytes.length
    · rw [if_pos hin, if_pos hin]
    · rw [if_neg hin, if_neg hin]
      -- outside the write: old contents, or the zeros of a gap
      by_cases hold : x < (s.node n).size
      · rw [getD_contents hold, byteAt, ha]
      · rw [List.getD_eq_default _ _ (by rw [length_contents]; omega)]
        exact hf.slack x (hslot x hx) (.inr (by omega))

theorem writeOffset_le {file : File} (hf : s.Filled n) (hoff : file.offset ≤ vfsFileMax) :
    s.writeOffset n file ≤ vfsFileMax := by
  unfold writeOffset
  split
  · exact hf.size
  · exact hoff

theorem vfsWrite_holds (bytes : List UInt8) {file : File} (h : s.Frames A) (hf : s.Filled n)
    (hn : file.node = some n) (hoff : file.offset ≤ vfsFileMax) :
    (s.vfsWrite file bytes).2.2.Holds s n
        (if (s.vfsWrite file bytes).1.isSome then
          splice (s.contents n) (s.writeOffset n file) bytes else s.contents n) ∧
      (s.vfsWrite file bytes).2.1.node = some n ∧
      (s.vfsWrite file bytes).2.1.flags = file.flags ∧
      (s.vfsWrite file bytes).2.1.offset ≤ vfsFileMax := by
  have hstart := writeOffset_le hf hoff
  unfold vfsWrite
  rw [hn]
  simp only
  split
  · exact ⟨h.kept hf, hn, rfl, hoff⟩
  split
  · exact ⟨h.kept hf, rfl, rfl, hstart⟩
  · rename_i hfits
    simp only [wrap64, vfsFileMax] at hfits hstart
    have hsum : s.writeOffset n file + bytes.length ≤ 65536 := by omega
    have hwrap : wrap64 (s.writeOffset n file + bytes.length) =
        s.writeOffset n file + bytes.length := Nat.mod_eq_of_lt (by omega)
    simp only [hwrap]
    have hstop : (if s.writeOffset n file + bytes.length > (s.node n).size then
        s.writeOffset n file + bytes.length else (s.node n).size) =
        max (s.node n).size (s.writeOffset n file + bytes.length) := by split <;> omega
    rw [hstop]
    obtain ⟨hkept, hready⟩ := ensurePages_kept h hf
      (le_max_left (s.node n).size (s.writeOffset n file + bytes.length))
    split
    · rename_i t he
      rw [he] at hkept
      exact ⟨hkept, rfl, rfl, hstart⟩
    · rename_i t he
      rw [he] at hkept hready
      obtain ⟨ha, hslot⟩ := hready rfl
      obtain ⟨B, hB⟩ := hkept.frames
      refine ⟨?_, rfl, rfl, hsum⟩
      rw [Option.isSome_some, if_pos rfl, ← hkept.contents]
      refine (hB.put hkept.filled ha hsum fun x hx => hslot x ?_).trans hkept
      rwa [hkept.size, length_contents] at hx

-- ---------------------------------------------------------------------------
-- Emptying
-- ---------------------------------------------------------------------------

theorem Frames.truncate (h : s.Frames A) (n : Ptr) :
    ((s.releasePages n).modify n fun v => { v with archive := none, size := 0 }).Holds s n [] := by
  have hr := releasePages_released s n
  have hzero := h.releasePages_slot n
  generalize hu : ((s.releasePages n).modify n fun v => { v with archive := none, size := 0 }) = u
  have hnode : ∀ q, u.node q = if q = n then
      { (s.releasePages n).node q with archive := none, size := 0 } else (s.releasePages n).node q := by
    intro q
    rw [← hu, modify_node]
  have hslot : ∀ q, u.slot q = (s.releasePages n).slot q := by
    intro q
    unfold slot
    rw [hnode]
    split <;> rfl
  obtain ⟨B, hB⟩ := hr.frames A h
  constructor
  · refine ⟨B, hB.congr (by rw [← hu]; rfl) fun q => ?_⟩
    exact hslot q
  · intro p hne
    refine SameFile.trans (t := s.releasePages n) (sameFile_of_mem_eq ?_ ?_ ?_ ?_ ?_)
      (hr.other A h p hne)
    · rw [← hu]
      rfl
    · rw [← hu]
      rfl
    all_goals rw [hnode, if_neg hne]
  · constructor
    · rw [hnode, if_pos rfl]
      exact Nat.zero_le _
    · intro _ x hx
      rw [hnode, if_pos rfl] at hx
      exact absurd hx (Nat.not_lt_zero x)
    · intro x hx
      rw [hslot, hzero] at hx
      exact absurd rfl hx
  · refine contents_eq_nil ?_
    rw [hnode, if_pos rfl]

theorem openNode_holds (h : s.Frames A) (hf : s.Filled n) (flags : OpenFlags) :
    (s.openNode n flags).2.2.Holds s n
        (if (s.openNode n flags).2.1.isSome ∧ flags.truncate ∧ flags.write then []
          else s.contents n) ∧
      ∀ file, (s.openNode n flags).2.1 = some file →
        file.node = some n ∧ file.flags = flags ∧ file.offset ≤ vfsFileMax := by
  unfold openNode
  split
  · exact ⟨by simpa using h.kept hf, by simp⟩
  split
  · exact ⟨by simpa using h.kept hf, by simp⟩
  have htrunc : (s.truncateNode n flags).Holds s n
      (if flags.truncate ∧ flags.write then [] else s.contents n) := by
    unfold truncateNode
    split
    · exact h.truncate n
    · exact h.kept hf
  dsimp only
  refine ⟨?_, ?_⟩
  · simp only [Option.isSome_some, true_and]
    refine htrunc.congr rfl rfl ?_ ?_ ?_
    all_goals
      intro p
      rw [modify_node]
      split <;> rfl
  · rintro file ⟨⟩
    refine ⟨rfl, rfl, ?_⟩
    simp only
    split
    · exact htrunc.filled.size
    · exact Nat.zero_le _

-- ---------------------------------------------------------------------------
-- Reading
-- ---------------------------------------------------------------------------

theorem readLoop_archive {archive : Nat} (ha : (s.node n).archive = some archive)
    (k position left : Nat) (hk : left ≤ k) :
    s.readLoop n k position left = s.tarData.read (archive + position) left := by
  induction k generalizing position left with
  | zero =>
    have hz : left = 0 := by omega
    subst hz
    rfl
  | succ k ih =>
    unfold readLoop
    split
    · rename_i hz
      subst hz
      rfl
    · have hchunk := chunkAt_eq_min position left
      have hle : chunkAt position left ≤ left := by omega
      simp only [ha]
      rw [ih _ _ (by omega), ← Nat.add_assoc, ← Mem.read_add, Nat.add_sub_cancel' hle]

theorem readLoop_aligned (ha : (s.node n).archive = none) (k position left : Nat) (hk : left ≤ k)
    (hpos : position % 4096 = 0) :
    s.readLoop n k position left = (List.range left).map fun i => s.raw n (position + i) := by
  induction k generalizing position left with
  | zero =>
    have hz : left = 0 := by omega
    subst hz
    rfl
  | succ k ih =>
    unfold readLoop
    split
    · rename_i hz
      subst hz
      rfl
    · have hchunk := chunkAt_eq_min position left
      simp only [ha]
      have hfirst : s.phys.mem.read ((s.node n).pages (position / pageSize)) (chunkAt position left) =
          (List.range (chunkAt position left)).map fun i => s.raw n (position + i) := by
        refine List.map_congr_left fun i hi => ?_
        rw [List.mem_range] at hi
        have hdiv : (position + i) / 4096 = position / 4096 := by omega
        have hmod : (position + i) % 4096 = i := by omega
        rw [raw, hdiv, hmod]
        rfl
      have hsum : left = chunkAt position left + (left - chunkAt position left) := by omega
      conv_rhs => rw [hsum, List.range_add, List.map_append, List.map_map]
      rw [hfirst]
      congr 1
      by_cases hlast : left - chunkAt position left = 0
      · rw [hlast]
        cases k <;> rfl
      · rw [ih _ _ (by omega) (by omega)]
        refine List.map_congr_left fun i _ => ?_
        simp only [Function.comp_apply, Nat.add_assoc]

theorem readLoop_pages (ha : (s.node n).archive = none) (position left : Nat) :
    s.readLoop n left position left = (List.range left).map fun i =>
      if i < 4096 - position % 4096 then s.raw n (position - position % 4096 + i)
      else s.raw n (position + i) := by
  cases left with
  | zero => rfl
  | succ k =>
    unfold readLoop
    rw [if_neg (by omega)]
    have hchunk := chunkAt_eq_min position (k + 1)
    generalize hleft : k + 1 = left at hchunk ⊢
    simp only [ha]
    have hsum : left = chunkAt position left + (left - chunkAt position left) := by omega
    conv_rhs => rw [hsum, List.range_add, List.map_append, List.map_map]
    congr 1
    · refine List.map_congr_left fun i hi => ?_
      rw [List.mem_range] at hi
      have hdiv : (position - position % 4096 + i) / 4096 = position / 4096 := by omega
      have hmod : (position - position % 4096 + i) % 4096 = i := by omega
      rw [if_pos (by omega), raw, hdiv, hmod]
      rfl
    · by_cases hlast : left - chunkAt position left = 0
      · rw [hlast]
        cases k <;> rfl
      · rw [readLoop_aligned ha _ _ _ (by omega) (by omega)]
        refine List.map_congr_left fun i hi => ?_
        simp only [Function.comp_apply]
        rw [if_neg (by omega), Nat.add_assoc]

end Vfs

end NarcOs
