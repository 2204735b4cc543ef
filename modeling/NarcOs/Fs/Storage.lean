import NarcOs.Fs.Change
import NarcOs.Mm.PmmLaws

/-!
# Page slots

`Frames s A` says that the frames in the vnodes' page slots are distinct and
that none of them is among the frames `A` available to the allocator. A call
that works on the storage of one vnode keeps it and leaves every other vnode
the same file. `Filled s p` relates the slots of one vnode to its size.
-/

namespace NarcOs

namespace Vfs

variable {s t u : Vfs} {A B : Multiset Nat} {p q n : Ptr} {a i j x : Nat}

def slot (s : Vfs) (p : Ptr) (i : Nat) : Nat := (s.node p).pages i

def raw (s : Vfs) (p : Ptr) (x : Nat) : UInt8 := s.phys.mem (s.slot p (x / 4096) + x % 4096)

def byteAt (s : Vfs) (p : Ptr) (x : Nat) : UInt8 :=
  match (s.node p).archive with
  | some archive => s.tarData (archive + x)
  | none => s.raw p x

def contents (s : Vfs) (p : Ptr) : List UInt8 :=
  (List.range (s.node p).size).map (s.byteAt p)

structure Frames (s : Vfs) (A : Multiset Nat) : Prop where
  avail : s.phys.Avail A
  frame : ∀ p i, s.slot p i ≠ 0 → IsFrame (s.slot p i)
  held : ∀ p i, s.slot p i ≠ 0 → s.slot p i ∉ A
  inj : ∀ p q i j, s.slot p i ≠ 0 → s.slot p i = s.slot q j → p = q ∧ i = j
  bound : ∀ p i, 16 ≤ i → s.slot p i = 0

/-- A file without archive has a page for each of its bytes, and the bytes of
its pages that are not contents are zero. -/
structure Filled (s : Vfs) (p : Ptr) : Prop where
  size : (s.node p).size ≤ vfsFileMax
  backed : (s.node p).archive = none → ∀ x < (s.node p).size, s.slot p (x / 4096) ≠ 0
  slack : ∀ x, s.slot p (x / 4096) ≠ 0 →
    ((s.node p).archive ≠ none ∨ (s.node p).size ≤ x) → s.raw p x = 0

structure SameFile (t s : Vfs) (p : Ptr) : Prop where
  tarData : t.tarData = s.tarData
  size : (t.node p).size = (s.node p).size
  archive : (t.node p).archive = (s.node p).archive
  pages : (t.node p).pages = (s.node p).pages
  raw : ∀ x, t.raw p x = s.raw p x

@[simp] theorem length_contents : (s.contents p).length = (s.node p).size := by simp [contents]

theorem getElem?_contents (h : x < (s.node p).size) : (s.contents p)[x]? = some (s.byteAt p x) := by
  simp [contents, h]

theorem contents_eq_nil (h : (s.node p).size = 0) : s.contents p = [] := by simp [contents, h]

theorem SameFile.refl (s : Vfs) (p : Ptr) : s.SameFile s p := ⟨rfl, rfl, rfl, rfl, fun _ => rfl⟩

theorem SameFile.trans (h : u.SameFile t p) (h' : t.SameFile s p) : u.SameFile s p :=
  ⟨h.tarData.trans h'.tarData, h.size.trans h'.size, h.archive.trans h'.archive,
    h.pages.trans h'.pages, fun x => (h.raw x).trans (h'.raw x)⟩

theorem SameFile.slot (h : t.SameFile s p) (i : Nat) : t.slot p i = s.slot p i :=
  congrFun h.pages i

theorem SameFile.contents (h : t.SameFile s p) : t.contents p = s.contents p := by
  unfold Vfs.contents
  rw [h.size]
  refine List.map_congr_left fun x _ => ?_
  unfold byteAt
  rw [h.archive, h.tarData, h.raw]

theorem SameFile.filled (h : t.SameFile s p) (hf : s.Filled p) : t.Filled p := by
  constructor
  · rw [h.size]
    exact hf.size
  · intro ha x hx
    rw [h.archive] at ha
    rw [h.size] at hx
    rw [h.slot]
    exact hf.backed ha x hx
  · intro x hp hc
    rw [h.slot] at hp
    rw [h.archive, h.size] at hc
    rw [h.raw]
    exact hf.slack x hp hc

theorem sameFile_of_mem_eq (htar : t.tarData = s.tarData) (hmem : t.phys.mem = s.phys.mem)
    (hsize : (t.node p).size = (s.node p).size) (harchive : (t.node p).archive = (s.node p).archive)
    (hpages : (t.node p).pages = (s.node p).pages) : t.SameFile s p :=
  ⟨htar, hsize, harchive, hpages, fun x => by rw [raw, raw, slot, slot, hmem, hpages]⟩

theorem Frames.congr (h : s.Frames A) (hphys : t.phys = s.phys)
    (hpages : ∀ p, (t.node p).pages = (s.node p).pages) : t.Frames A := by
  have hslot : t.slot = s.slot := funext hpages
  constructor
  · exact hphys ▸ h.avail
  all_goals rw [hslot]
  · exact h.frame
  · exact h.held
  · exact h.inj
  · exact h.bound

/-- Slots become empty, and the frames that were in them go anywhere but into
the others. -/
theorem Frames.shrink (h : s.Frames A) (hav : t.phys.Avail B)
    (hslot : ∀ p i, t.slot p i ≠ 0 → t.slot p i = s.slot p i)
    (hheld : ∀ p i, t.slot p i ≠ 0 → t.slot p i ∉ B) : t.Frames B where
  avail := hav
  frame p i hp := by
    have e := hslot p i hp
    exact e ▸ h.frame p i (e ▸ hp)
  held := hheld
  inj p q i j hp he := by
    have hq : t.slot q j ≠ 0 := he ▸ hp
    have e := hslot p i hp
    rw [hslot q j hq] at he
    exact h.inj p q i j (e ▸ hp) (e.symm.trans he)
  bound p i hi := by
    by_contra hp
    exact hp ((hslot p i hp).trans (h.bound p i hi))

/-- What happens inside a frame is not seen in the slots that do not hold it. -/
theorem Frames.raw_eq (h : s.Frames A) (ha : IsFrame a) (hx : s.slot p (x / 4096) ≠ a)
    (hslot : t.slot p (x / 4096) = s.slot p (x / 4096))
    (hmem : ∀ b, b < a ∨ a + 4096 ≤ b → t.phys.mem b = s.phys.mem b) : t.raw p x = s.raw p x := by
  rw [raw, raw, hslot]
  apply hmem
  have := ha.pos
  have := ha.aligned
  by_cases hz : s.slot p (x / 4096) = 0
  · omega
  · have := (h.frame p _ hz).disjoint ha hx
    omega

-- ---------------------------------------------------------------------------
-- Releasing
-- ---------------------------------------------------------------------------

theorem releasePage_node (n : Ptr) (s : Vfs) (i : Nat) (q : Ptr) :
    (releasePage n s i).node q =
      if q = n then { s.node q with pages := Function.update (s.node q).pages i 0 }
      else s.node q := by
  unfold releasePage
  dsimp only
  split <;> exact modify_node _ _ _ _

theorem releasePage_tarData (n : Ptr) (s : Vfs) (i : Nat) :
    (releasePage n s i).tarData = s.tarData := by
  unfold releasePage
  dsimp only
  split <;> rfl

theorem releasePage_phys (n : Ptr) (s : Vfs) (i : Nat) :
    (releasePage n s i).phys =
      if s.slot n i ≠ 0 then s.phys.pmmFreePage (s.slot n i) else s.phys := by
  unfold releasePage slot
  dsimp only
  split <;> rfl

theorem releasePage_slot (n : Ptr) (s : Vfs) (i : Nat) (q : Ptr) (j : Nat) :
    (releasePage n s i).slot q j = if q = n ∧ j = i then 0 else s.slot q j := by
  rw [slot, releasePage_node]
  by_cases hq : q = n
  · subst hq
    simp [Function.update_apply, slot]
  · simp [hq, slot]

structure Released (t s : Vfs) (n : Ptr) : Prop where
  frames : ∀ A, s.Frames A → ∃ B, t.Frames B
  other : ∀ A, s.Frames A → ∀ p ≠ n, t.SameFile s p
  live : t.live = s.live
  node : ∀ q, t.node q = { s.node q with pages := (t.node q).pages }
  slot : ∀ i, t.slot n i = 0 ∨ t.slot n i = s.slot n i

theorem Released.refl (s : Vfs) (n : Ptr) : s.Released s n :=
  ⟨fun A h => ⟨A, h⟩, fun _ _ p _ => .refl s p, rfl, fun _ => rfl, fun _ => .inr rfl⟩

theorem Released.trans (h : u.Released t n) (h' : t.Released s n) : u.Released s n where
  frames A hA := by
    obtain ⟨B, hB⟩ := h'.frames A hA
    exact h.frames B hB
  other A hA p hp := by
    obtain ⟨B, hB⟩ := h'.frames A hA
    exact (h.other B hB p hp).trans (h'.other A hA p hp)
  live := h.live.trans h'.live
  node q := by
    conv_lhs => rw [h.node q, h'.node q]
  slot i := by
    rcases h.slot i with hi | hi
    · exact .inl hi
    · rw [hi]
      exact h'.slot i

theorem Frames.releasePage (h : s.Frames A) (n : Ptr) (i : Nat) :
    (releasePage n s i).Frames (if s.slot n i = 0 then A else s.slot n i ::ₘ A) := by
  have hkeep : ∀ p j, (Vfs.releasePage n s i).slot p j ≠ 0 →
      ¬ (p = n ∧ j = i) ∧ (Vfs.releasePage n s i).slot p j = s.slot p j := by
    intro p j hp
    rw [releasePage_slot] at hp ⊢
    split at hp
    · exact absurd rfl hp
    · rename_i hne
      exact ⟨hne, if_neg hne⟩
  refine h.shrink ?_ (fun p j hp => (hkeep p j hp).2) fun p j hp => ?_
  · rw [releasePage_phys]
    split
    · rename_i hz
      exact h.avail.pmmFreePage (h.frame n i hz) (h.held n i hz)
    · rename_i hz
      rw [if_pos (not_not.mp hz)]
      exact h.avail
  · obtain ⟨hne, e⟩ := hkeep p j hp
    rw [e] at hp ⊢
    split
    · exact h.held p j hp
    · rw [Multiset.mem_cons, not_or]
      exact ⟨fun e' => hne (h.inj p n j i hp e'), h.held p j hp⟩

theorem releasePage_released (n : Ptr) (s : Vfs) (i : Nat) : (releasePage n s i).Released s n := by
  constructor
  · exact fun A h => ⟨_, h.releasePage n i⟩
  · intro A h p hp
    have hnode : (Vfs.releasePage n s i).node p = s.node p := by rw [releasePage_node, if_neg hp]
    by_cases hz : s.slot n i = 0
    · refine sameFile_of_mem_eq (releasePage_tarData n s i) ?_ ?_ ?_ ?_
      · rw [releasePage_phys, if_neg (not_not.mpr hz)]
      all_goals rw [hnode]
    · refine ⟨releasePage_tarData n s i, ?_, ?_, ?_, fun x => ?_⟩
      · rw [hnode]
      · rw [hnode]
      · rw [hnode]
      · refine h.raw_eq (h.frame n i hz) ?_ ?_ ?_
        · exact fun e => hp (h.inj n p i _ hz e.symm).1.symm
        · rw [slot, hnode]
          rfl
        · intro b hb
          rw [releasePage_phys, if_pos hz]
          exact Phys.pmmFreePage_mem_outside (by omega)
  · unfold releasePage
    dsimp only
    split <;> rfl
  · intro q
    rw [releasePage_node]
    split <;> rfl
  · intro j
    rw [releasePage_slot]
    split
    · exact .inl rfl
    · exact .inr rfl

theorem foldl_releasePage (n : Ptr) (l : List Nat) (s : Vfs) :
    (l.foldl (releasePage n) s).Released s n ∧
      ∀ i ∈ l, (l.foldl (releasePage n) s).slot n i = 0 := by
  induction l generalizing s with
  | nil => exact ⟨.refl s n, by simp⟩
  | cons i l ih =>
    obtain ⟨hrel, hzero⟩ := ih (releasePage n s i)
    refine ⟨hrel.trans (releasePage_released n s i), ?_⟩
    intro j hj
    rcases List.mem_cons.mp hj with rfl | hj
    · rcases hrel.slot j with h | h
      · exact h
      · rw [List.foldl_cons, h, releasePage_slot, if_pos ⟨rfl, rfl⟩]
    · exact hzero j hj

theorem releasePages_released (s : Vfs) (n : Ptr) : (s.releasePages n).Released s n :=
  (foldl_releasePage n _ s).1

def heldFrames (s : Vfs) (n : Ptr) : Multiset Nat := ((List.range vfsPageMax).map (s.slot n)).filter (· ≠ 0)

/-- `release_pages` gives back the frames of the vnode, each once. -/
theorem Frames.releasePages (h : s.Frames A) (n : Ptr) : (s.releasePages n).Frames (s.heldFrames n + A) := by
  have hgen : ∀ l : List Nat, l.Nodup → ∀ {s : Vfs} {A}, s.Frames A →
      (l.foldl (Vfs.releasePage n) s).Frames (((l.map (s.slot n)).filter (· ≠ 0) : List Nat) + A) := by
    intro l
    induction l with
    | nil =>
      intro _ s A h
      exact (zero_add A).symm ▸ h
    | cons i l ih =>
      intro hnd s A h
      obtain ⟨hi, hnd⟩ := List.nodup_cons.mp hnd
      have hslots : l.map ((Vfs.releasePage n s i).slot n) = l.map (s.slot n) := List.map_congr_left fun j hj => by
        rw [releasePage_slot, if_neg fun e : n = n ∧ j = i => hi (e.2 ▸ hj)]
      have hl := ih hnd (h.releasePage n i)
      rw [hslots] at hl
      rw [List.foldl_cons, List.map_cons]
      by_cases hz : s.slot n i = 0
      · rw [if_pos hz] at hl
        rw [List.filter_cons_of_neg (by simp [hz])]
        exact hl
      · rw [if_neg hz, Multiset.add_cons] at hl
        rw [List.filter_cons_of_pos (by simp [hz]), ← Multiset.cons_coe, Multiset.cons_add]
        exact hl
  exact hgen _ List.nodup_range h

theorem Frames.releasePages_slot (h : s.Frames A) (n : Ptr) (i : Nat) :
    (s.releasePages n).slot n i = 0 := by
  by_cases hi : i < 16
  · exact (foldl_releasePage n _ s).2 i (List.mem_range.mpr hi)
  · rcases (releasePages_released s n).slot i with hz | hz
    · exact hz
    · exact hz.trans (h.bound n i (by omega))

-- ---------------------------------------------------------------------------
-- Allocating
-- ---------------------------------------------------------------------------

structure Grown (t s : Vfs) (n : Ptr) : Prop where
  frames : ∀ A, s.Frames A → ∃ B, t.Frames B
  other : ∀ A, s.Frames A → ∀ p ≠ n, t.SameFile s p
  tarData : t.tarData = s.tarData
  node : ∀ q, t.node q = { s.node q with pages := (t.node q).pages }
  kept : ∀ i, s.slot n i ≠ 0 → t.slot n i = s.slot n i
  old : ∀ A, s.Frames A → ∀ x, s.slot n (x / 4096) ≠ 0 → t.raw n x = s.raw n x
  new : ∀ A, s.Frames A → ∀ x, s.slot n (x / 4096) = 0 → t.slot n (x / 4096) ≠ 0 → t.raw n x = 0

theorem Grown.refl (s : Vfs) (n : Ptr) : s.Grown s n :=
  ⟨fun A h => ⟨A, h⟩, fun _ _ p _ => .refl s p, rfl, fun _ => rfl, fun _ _ => rfl,
    fun _ _ _ _ => rfl, fun _ _ _ hz hn => absurd hz hn⟩

theorem Grown.trans (h : u.Grown t n) (h' : t.Grown s n) : u.Grown s n where
  frames A hA := by
    obtain ⟨B, hB⟩ := h'.frames A hA
    exact h.frames B hB
  other A hA p hp := by
    obtain ⟨B, hB⟩ := h'.frames A hA
    exact (h.other B hB p hp).trans (h'.other A hA p hp)
  tarData := h.tarData.trans h'.tarData
  node q := by
    conv_lhs => rw [h.node q, h'.node q]
  kept i hi := by
    have hi' := h'.kept i hi
    exact (h.kept i (hi' ▸ hi)).trans hi'
  old A hA x hx := by
    obtain ⟨B, hB⟩ := h'.frames A hA
    have hx' := h'.kept _ hx
    exact (h.old B hB x (hx' ▸ hx)).trans (h'.old A hA x hx)
  new A hA x hz hn := by
    obtain ⟨B, hB⟩ := h'.frames A hA
    by_cases ht : t.slot n (x / 4096) = 0
    · exact h.new B hB x ht hn
    · rw [h.old B hB x ht]
      exact h'.new A hA x hz ht

theorem Grown.size (h : t.Grown s n) (q : Ptr) : (t.node q).size = (s.node q).size := by
  rw [h.node q]

theorem Grown.archive (h : t.Grown s n) (q : Ptr) : (t.node q).archive = (s.node q).archive := by
  rw [h.node q]

def grow (s : Vfs) (n : Ptr) (i : Nat) : Vfs :=
  { s with phys := s.phys.allocPage.2 }.modify n fun v =>
    { v with pages := Function.update v.pages i s.phys.allocPage.1 }

theorem grow_node (s : Vfs) (n : Ptr) (i : Nat) (q : Ptr) :
    (s.grow n i).node q = if q = n then
      { s.node q with pages := Function.update (s.node q).pages i s.phys.allocPage.1 }
      else s.node q :=
  modify_node _ _ _ _

theorem grow_slot (s : Vfs) (n : Ptr) (i : Nat) (q : Ptr) (j : Nat) :
    (s.grow n i).slot q j = if q = n ∧ j = i then s.phys.allocPage.1 else s.slot q j := by
  rw [slot, grow_node]
  by_cases hq : q = n
  · subst hq
    simp [Function.update_apply, slot]
  · simp [hq, slot]

theorem Frames.grow (h : s.Frames A) (hi : i < 16) (hz : s.slot n i = 0) :
    ∃ B, (s.grow n i).Frames B := by
  have hslot := grow_slot s n i
  rcases h.avail.allocPage with ⟨h0, hav, -⟩ | ⟨B, hne, hAB, hav, -⟩
  · refine ⟨A, h.shrink hav ?_ ?_⟩
    all_goals
      intro p j hp
      have hold : (s.grow n i).slot p j = s.slot p j := by
        rw [hslot]
        split
        · rename_i hpj
          rw [h0, hpj.1, hpj.2, hz]
        · rfl
    · exact hold
    · exact hold ▸ h.held p j (hold ▸ hp)
  · have hmem : s.phys.allocPage.1 ∈ A := hAB ▸ Multiset.mem_cons_self _ _
    have hsub : ∀ a ∈ B, a ∈ A := fun a ha => hAB ▸ Multiset.mem_cons_of_mem ha
    have hout : s.phys.allocPage.1 ∉ B := by
      have hnd := h.avail.nodup
      rw [hAB] at hnd
      exact (Multiset.nodup_cons.mp hnd).1
    refine ⟨B, hav, ?_, ?_, ?_, ?_⟩
    · intro p j hp
      rw [hslot] at hp ⊢
      split at hp
      · rename_i hpj
        rw [if_pos hpj]
        exact h.avail.isFrame hmem
      · rename_i hpj
        rw [if_neg hpj]
        exact h.frame p j hp
    · intro p j hp
      rw [hslot] at hp ⊢
      split at hp
      · rename_i hpj
        rw [if_pos hpj]
        exact hout
      · rename_i hpj
        rw [if_neg hpj]
        exact fun hb => h.held p j hp (hsub _ hb)
    · intro p q j k hp he
      rw [hslot, hslot] at he
      rw [hslot] at hp
      split at hp
      · rename_i hpj
        rw [if_pos hpj] at he
        split at he
        · rename_i hqk
          exact ⟨hpj.1.trans hqk.1.symm, hpj.2.trans hqk.2.symm⟩
        · exact absurd (he ▸ hmem) (h.held q k (he ▸ hp))
      · rename_i hpj
        rw [if_neg hpj] at he
        split at he
        · exact absurd (he ▸ hmem) (h.held p j hp)
        · exact h.inj p q j k hp he
    · intro p j hj
      rw [hslot, if_neg (by omega)]
      exact h.bound p j hj

theorem Frames.grow_raw (h : s.Frames A) (hx : ¬ (p = n ∧ x / 4096 = i)) :
    (s.grow n i).raw p x = s.raw p x := by
  have hslot : (s.grow n i).slot p (x / 4096) = s.slot p (x / 4096) := by rw [grow_slot, if_neg hx]
  rcases h.avail.allocPage with ⟨-, -, hm⟩ | ⟨B, -, hAB, -, hm⟩
  · rw [raw, raw, hslot]
    exact congrFun hm _
  · have hmem : s.phys.allocPage.1 ∈ A := hAB ▸ Multiset.mem_cons_self _ _
    have hframe := h.avail.isFrame hmem
    refine h.raw_eq hframe ?_ hslot ?_
    · intro e
      exact h.held p _ (e ▸ hframe.pos) (e ▸ hmem)
    · intro b hb
      change s.phys.allocPage.2.mem b = _
      rw [hm]
      exact Mem.memset_apply_outside hb

theorem grow_grown (hi : i < 16) (hz : s.slot n i = 0) : (s.grow n i).Grown s n := by
  constructor
  · intro A h
    exact h.grow hi hz
  · intro A h p hp
    have hnode : (s.grow n i).node p = s.node p := by rw [grow_node, if_neg hp]
    refine ⟨rfl, ?_, ?_, ?_, fun x => h.grow_raw fun e => hp e.1⟩
    all_goals rw [hnode]
  · rfl
  · intro q
    rw [grow_node]
    split <;> rfl
  · intro j hj
    rw [grow_slot, if_neg]
    rintro ⟨-, rfl⟩
    exact hj hz
  · intro A h x hx
    refine h.grow_raw ?_
    rintro ⟨-, rfl⟩
    exact hx hz
  · intro A h x hx hn
    rw [grow_slot] at hn
    split at hn
    · rename_i hxi
      rcases h.avail.allocPage with ⟨h0, -, -⟩ | ⟨B, -, -, -, hm⟩
      · exact absurd h0 hn
      · rw [raw, grow_slot, if_pos hxi]
        change s.phys.allocPage.2.mem _ = 0
        rw [hm]
        exact Mem.memset_apply_inside (Nat.mod_lt _ (by decide))
    · exact absurd hx hn

theorem allocPages_cons (n : Ptr) (i : Nat) (l : List Nat) (s : Vfs) :
    allocPages n (i :: l) s = if s.slot n i ≠ 0 then allocPages n l s
      else if s.phys.allocPage.1 = 0 then (false, s.grow n i) else allocPages n l (s.grow n i) :=
  rfl

/-- The allocation loop; when it succeeds, every slot asked for has a page. -/
theorem allocPages_grown (n : Ptr) (l : List Nat) (s : Vfs) (hl : ∀ i ∈ l, i < 16) :
    (allocPages n l s).2.Grown s n ∧
      ((allocPages n l s).1 = true → ∀ i ∈ l, (allocPages n l s).2.slot n i ≠ 0) := by
  induction l generalizing s with
  | nil => exact ⟨.refl s n, by simp⟩
  | cons i l ih =>
    have hrest : ∀ j ∈ l, j < 16 := fun j hj => hl j (List.mem_cons_of_mem _ hj)
    rw [allocPages_cons]
    split
    · rename_i hne
      obtain ⟨hg, hall⟩ := ih s hrest
      refine ⟨hg, fun hok j hj => ?_⟩
      rcases List.mem_cons.mp hj with rfl | hj
      · rw [hg.kept j hne]
        exact hne
      · exact hall hok j hj
    · rename_i hz
      have hgrow := grow_grown (hl i (by simp)) (not_not.mp hz)
      split
      · exact ⟨hgrow, by simp⟩
      · rename_i hpage
        obtain ⟨hg, hall⟩ := ih (s.grow n i) hrest
        refine ⟨hg.trans hgrow, fun hok j hj => ?_⟩
        rcases List.mem_cons.mp hj with rfl | hj
        · have hj' : (s.grow n j).slot n j ≠ 0 := by
            rw [grow_slot, if_pos ⟨rfl, rfl⟩]
            exact hpage
          rw [hg.kept j hj']
          exact hj'
        · exact hall hok j hj

theorem Grown.filled (h : t.Grown s n) (hA : s.Frames A) (hf : s.Filled n) : t.Filled n := by
  constructor
  · rw [h.size]
    exact hf.size
  · intro ha x hx
    rw [h.archive] at ha
    rw [h.size] at hx
    have hz := hf.backed ha x hx
    rw [h.kept _ hz]
    exact hz
  · intro x hx hc
    rw [h.archive, h.size] at hc
    by_cases hz : s.slot n (x / 4096) = 0
    · exact h.new A hA x hz hx
    · rw [h.old A hA x hz]
      exact hf.slack x hz hc

theorem Grown.contents (h : t.Grown s n) (hA : s.Frames A) (hf : s.Filled n) :
    t.contents n = s.contents n := by
  unfold Vfs.contents
  rw [h.size]
  refine List.map_congr_left fun x hx => ?_
  unfold byteAt
  rw [h.archive, h.tarData]
  split
  · rfl
  · rename_i ha
    exact h.old A hA x (hf.backed ha x (List.mem_range.mp hx))

end Vfs

end NarcOs
