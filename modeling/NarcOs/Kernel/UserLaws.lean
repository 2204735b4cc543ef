import NarcOs.Kernel.User

/-!
# What the loader maps

Every step of the loader keeps the space sound and keeps the user pages that
are there: `Grows`. When the loader returns, each nonempty segment is on user
pages. The entry address is copied from the file header without a check, so it
is in a segment exactly when the file says so: `loadImage_entry_iff`.
-/

namespace NarcOs

variable {p p' p'' q : Phys} {root virt : Nat} {A B : Multiset Nat} {kids kids' : Fin 512 → PTree}

def UserPage (kids : Fin 512 → PTree) (virt : Nat) : Prop :=
  ∃ e, PTree.lookup 3 kids virt = some e ∧ isUser e = true

def Grows (root : Nat) (p p' : Phys) : Prop :=
  ∀ A kids, p.Avail A → IsSpace p.mem root kids → (A + spaceFrames root kids).Nodup →
    ∃ B kids' lost, Remapped p p' root A B kids kids' 0 lost ∧
      ∀ v, UserPage kids v → UserPage kids' v

theorem Grows.refl (root : Nat) (p : Phys) : Grows root p p :=
  fun A kids hA h _ => ⟨A, kids, 0, Remapped.refl hA h, fun _ hv => hv⟩

theorem Grows.trans (h : Grows root p p') (h' : Grows root p' p'') : Grows root p p'' := by
  intro A kids hA hs hnd
  obtain ⟨B, kids₁, lost₁, hre₁, hk₁⟩ := h A kids hA hs hnd
  obtain ⟨C, kids₂, lost₂, hre₂, hk₂⟩ := h' B kids₁ hre₁.avail hre₁.space
    (hre₁.nodup (by rwa [add_zero]))
  exact ⟨C, kids₂, _, hre₁.trans hre₂, fun v hv => hk₂ v (hk₁ v hv)⟩

theorem Grows.sound (h : Grows root p p') (hs : Sound p root) : Sound p' root := by
  obtain ⟨A, kids, hA, hsp, hnd⟩ := hs
  obtain ⟨B, kids', lost, hre, -⟩ := h A kids hA hsp hnd
  exact hre.sound hnd

def Phys.OnUserPage (p : Phys) (root virt : Nat) : Prop :=
  ∃ e, p.mapping root virt = some e ∧ isUser e = true

theorem IsSpace.onUserPage_iff (h : IsSpace p.mem root kids) (hv : UserHalf virt) :
    p.OnUserPage root virt ↔ UserPage kids virt := by
  unfold Phys.OnUserPage UserPage
  rw [h.mapping hv]

theorem Grows.onUserPage (h : Grows root p p') (hs : Sound p root) (hv : UserHalf virt)
    (hp : p.OnUserPage root virt) : p'.OnUserPage root virt := by
  obtain ⟨A, kids, hA, hsp, hnd⟩ := hs
  obtain ⟨B, kids', lost, hre, hk⟩ := h A kids hA hsp hnd
  rw [hsp.onUserPage_iff hv] at hp
  rw [hre.space.onUserPage_iff hv]
  exact hk virt hp

-- ---------------------------------------------------------------------------
-- Loops
-- ---------------------------------------------------------------------------

theorem Phys.forEntries_grows {body : Phys → Nat → Bool × Phys} {l : List Nat}
    (hbody : ∀ q, ∀ k ∈ l, Grows root q (body q k).2) (p : Phys) :
    Grows root p (Phys.forEntries body l p).2 := by
  induction l generalizing p with
  | nil => exact Grows.refl root p
  | cons k l ih =>
    have hk := hbody p k List.mem_cons_self
    rw [Phys.forEntries]
    generalize body p k = r at hk ⊢
    obtain ⟨ok, q⟩ := r
    cases ok with
    | false => exact hk
    | true => exact hk.trans (ih (fun q j hj => hbody q j (List.mem_cons_of_mem _ hj)) q)

theorem Phys.forEntries_ok {body : Phys → Nat → Bool × Phys} {l : List Nat}
    (hbody : ∀ q, ∀ k ∈ l, Grows root q (body q k).2) {p : Phys}
    (hok : (Phys.forEntries body l p).1 = true) {k : Nat} (hk : k ∈ l) :
    ∃ q, Grows root p q ∧ (body q k).1 = true ∧
      Grows root (body q k).2 (Phys.forEntries body l p).2 := by
  induction l generalizing p with
  | nil => cases hk
  | cons j l ih =>
    have hj := hbody p j List.mem_cons_self
    have hrest : ∀ q, ∀ i ∈ l, Grows root q (body q i).2 :=
      fun q i hi => hbody q i (List.mem_cons_of_mem _ hi)
    rw [Phys.forEntries] at hok ⊢
    rcases hr : body p j with ⟨ok, q⟩
    rw [hr] at hok hj
    cases ok with
    | false => cases hok
    | true =>
      rcases List.mem_cons.mp hk with rfl | hk
      · refine ⟨p, Grows.refl root p, by rw [hr], ?_⟩
        rw [hr]
        exact Phys.forEntries_grows hrest q
      · obtain ⟨r, hr₁, hr₂, hr₃⟩ := ih hrest hok hk
        exact ⟨r, hj.trans hr₁, hr₂, hr₃⟩

-- ---------------------------------------------------------------------------
-- Pages
-- ---------------------------------------------------------------------------

theorem mapNew_grows (hv : UserHalf virt) (flags : Nat) :
    Grows root p (p.mapNew root virt flags).2 := by
  intro A kids hA hs hnd
  obtain ⟨B, kids', ⟨-, hre, hl⟩ | ⟨-, hre, phys, hf, hl⟩⟩ := hs.mapNew hA hnd hv flags
  · refine ⟨B, kids', _, hre, fun v hp => ?_⟩
    unfold UserPage
    rwa [hl]
  · refine ⟨B, kids', _, hre, fun v hp => ?_⟩
    unfold UserPage
    rw [hl]
    split
    · exact ⟨_, rfl, (leafEntry_spec hf flags true).2.2.1⟩
    · exact hp

theorem mapNew_onUserPage (hs : Sound p root) (hv : UserHalf virt) {flags : Nat}
    (hok : (p.mapNew root virt flags).1 = true) :
    (p.mapNew root virt flags).2.OnUserPage root virt := by
  obtain ⟨A, kids, hA, hsp, hnd⟩ := hs
  obtain ⟨B, kids', ⟨hno, -⟩ | ⟨-, hre, phys, hf, hl⟩⟩ := hsp.mapNew hA hnd hv flags
  · rw [hno] at hok
    cases hok
  · rw [hre.space.onUserPage_iff hv]
    exact ⟨_, by rw [hl, if_pos (PTree.SamePath.refl 3 virt)], (leafEntry_spec hf flags true).2.2.1⟩

theorem IsSpace.vmmProtectUser (h : IsSpace p.mem root kids) (hv : UserHalf virt) {e : Nat}
    (hl : PTree.lookup 3 kids virt = some e) (hu : isUser e = true) (flags : Nat) :
    ∃ pt i e', p.vmmProtectUser root virt flags = (true, p.setEntry pt i e') ∧
      p.walkPte 3 root virt = some (pt, i) ∧ pteAddr e' = pteAddr e ∧ isPresent e' = true ∧
      isUser e' = true ∧ isWrite e' = flags.testBit 1 ∧ e' < 2 ^ 64 := by
  have hpres := h.presentPte hv
  rw [hl] at hpres
  obtain ⟨pt, i, hsome, hw, -⟩ := hpres
  obtain ⟨hp, -, -⟩ := h.entries.isFrame_leaf hv hl
  have he64 : e < 2 ^ 64 := by
    have hsome' := hsome
    unfold Phys.presentPte at hsome'
    split at hsome'
    · cases hsome'
    · split at hsome'
      · cases hsome'
        exact Mem.load64_lt _ _
      · cases hsome'
  have hu' := isUser_iff.mp hu
  have hp' := isPresent_iff.mp hp
  have hw2 : pteWrite = 2 := rfl
  unfold Phys.vmmProtectUser
  simp only [hsome, hu, not_true_eq_false, if_false]
  cases hf : flags.testBit 1 with
  | true =>
    simp only [if_true]
    rw [or_pteWrite]
    cases hwr : isWrite e with
    | true => exact ⟨pt, i, e, rfl, hw, rfl, hp, hu, hwr, he64⟩
    | false =>
      have hwr' : ¬ isWrite e = true := by simp [hwr]
      rw [isWrite_iff] at hwr'
      refine ⟨pt, i, e + 2, rfl, hw, ?_, isPresent_iff.mpr ?_, isUser_iff.mpr ?_, isWrite_iff.mpr ?_, ?_⟩
      · unfold pteAddr
        omega
      all_goals omega
  | false =>
    simp only [Bool.false_eq_true, if_false]
    cases hwr : isWrite e with
    | false => exact ⟨pt, i, e, rfl, hw, rfl, hp, hu, hwr, he64⟩
    | true =>
      have hwr' := isWrite_iff.mp hwr
      simp only [if_true, hw2]
      refine ⟨pt, i, e - 2, rfl, hw, ?_, isPresent_iff.mpr ?_, isUser_iff.mpr ?_,
        Bool.eq_false_iff.mpr (isWrite_iff.not.mpr ?_), ?_⟩
      · unfold pteAddr
        omega
      all_goals omega

theorem IsSpace.protected (h : IsSpace p.mem root kids) (hA : p.Avail A)
    (hnd : (A + spaceFrames root kids).Nodup) (hv : UserHalf virt) {pt i e e' : Nat}
    (hl : PTree.lookup 3 kids virt = some e) (hw : p.walkPte 3 root virt = some (pt, i))
    (haddr : pteAddr e' = pteAddr e) (hp : isPresent e' = true) (hlt : e' < 2 ^ 64) :
    ∃ kids', Remapped p (p.setEntry pt i e') root A A kids kids' 0 0 ∧
      (∀ v, PTree.lookup 3 kids' v = if PTree.SamePath 3 virt v then some e' else PTree.lookup 3 kids v) ∧
      Mem.Within (root ::ₘ sumFin fun j => (kids j).tables) p.mem (p.setEntry pt i e').mem := by
  obtain ⟨-, hf, -⟩ := h.entries.isFrame_leaf hv hl
  have ht : PTree.Rep p.mem 0 e' (.page e') := ⟨rfl, hp, by rwa [haddr]⟩
  obtain ⟨hav, hsp, hframes, hlook, hwithin⟩ := h.setEntry hA hnd hv hw ht hlt
  rw [leafFrames, hl, PTree.pages, haddr] at hframes
  refine ⟨_, ⟨hav, hsp, by rw [add_right_cancel hframes], hwithin.mono ?_⟩, hlook, hwithin⟩
  rw [spaceFrames, ← add_assoc]
  exact Multiset.subset_of_le ((Multiset.le_add_left _ _).trans (Multiset.le_add_right _ _))

theorem vmmProtectUser_grows (hv : UserHalf virt) (flags : Nat) :
    Grows root p (p.vmmProtectUser root virt flags).2 := by
  intro A kids hA hs hnd
  have hpres := hs.presentPte hv
  cases hl : PTree.lookup 3 kids virt with
  | none =>
    rw [hl] at hpres
    unfold Phys.vmmProtectUser
    rw [hpres]
    exact Grows.refl root p A kids hA hs hnd
  | some e =>
    cases hu : isUser e with
    | false =>
      rw [hl] at hpres
      obtain ⟨pt, i, hsome, -⟩ := hpres
      unfold Phys.vmmProtectUser
      simp only [hsome, hu, Bool.false_eq_true, not_false_eq_true, if_true]
      exact Grows.refl root p A kids hA hs hnd
    | true =>
      obtain ⟨pt, i, e', hcall, hw, haddr, hp, hu', -, hlt⟩ := hs.vmmProtectUser hv hl hu flags
      obtain ⟨kids', hre, hlook, -⟩ := hs.protected hA hnd hv hl hw haddr hp hlt
      rw [hcall]
      refine ⟨A, kids', 0, hre, fun v hpage => ?_⟩
      unfold UserPage
      rw [hlook]
      split
      · exact ⟨e', rfl, hu'⟩
      · exact hpage

-- ---------------------------------------------------------------------------
-- Filling pages
-- ---------------------------------------------------------------------------

theorem writePage_grows {m : Mem} {dst : Nat} (hv : UserHalf dst) (hne : p.vmmUserPhys root dst ≠ 0)
    (hm : ∀ a, IsFrame a → p.vmmUserPhys root dst = a + dst % 4096 → Mem.Within {a} p.mem m) :
    Grows root p { p with mem := m } := by
  intro A kids hA hs hnd
  obtain ⟨e, hl, hu⟩ := (hs.vmmUserPhys hv).mp hne
  obtain ⟨-, hf, hmem⟩ := hs.entries.isFrame_leaf hv hl
  have hphys : p.vmmUserPhys root dst = pteAddr e + dst % 4096 := by
    have hpres := hs.presentPte hv
    rw [hl] at hpres
    obtain ⟨pt, i, hsome, -, -⟩ := hpres
    unfold Phys.vmmUserPhys
    simp only [hsome, hu, not_true_eq_false, if_false]
    exact or_eq_add hf.aligned (Nat.mod_lt _ (by decide))
  have hw := hm _ hf hphys
  have hown : pteAddr e ∈ spaceFrames root kids := Multiset.mem_add.mpr (.inr hmem)
  refine ⟨A, kids, 0, ⟨?_, ?_, rfl, hw.mono ?_⟩, fun _ hv => hv⟩
  · refine hA.within hw (fun f hfA => ?_) rfl
    rw [Multiset.mem_singleton]
    rintro rfl
    exact not_mem_of_add hnd hfA hown
  · refine hs.within hw fun f hft => ?_
    rw [Multiset.mem_singleton]
    rintro rfl
    exact not_mem_of_add (Multiset.nodup_add.mp hnd).2.1 hft hmem
  · intro f hf
    rw [Multiset.mem_singleton.mp hf]
    exact Multiset.mem_add.mpr (.inr hown)

theorem chunkTo_le (dst len : Nat) : Phys.chunkTo dst len ≤ len ∧
    dst % 4096 + Phys.chunkTo dst len ≤ 4096 := by
  unfold Phys.chunkTo pageSize
  split <;> omega

theorem copyOut_grows (root n dst : Nat) (bytes : List UInt8) (hend : dst + bytes.length ≤ 2 ^ 47)
    (p : Phys) : Grows root p (Phys.copyOut root n dst bytes p).2 := by
  induction n generalizing dst bytes p with
  | zero => exact Grows.refl root p
  | succ n ih =>
    rw [Phys.copyOut]
    split
    · exact Grows.refl root p
    rename_i hbytes
    simp only
    split
    · exact Grows.refl root p
    rename_i hne
    have hpos : 0 < bytes.length := List.length_pos_iff.mpr hbytes
    obtain ⟨hle, hpage⟩ := chunkTo_le dst bytes.length
    have hw : wrap64 (dst + Phys.chunkTo dst bytes.length) = dst + Phys.chunkTo dst bytes.length := by
      unfold wrap64
      omega
    refine (writePage_grows (userHalf_of_lt (by omega)) hne fun a ha heq => ?_).trans
      (ih _ _ (by rw [hw, List.length_drop]; omega) _)
    rw [heq]
    exact Mem.within_write ha (Multiset.mem_singleton_self _) (by rw [List.length_take]; omega)

theorem zeroOut_grows (n : Nat) {dst len : Nat} (hend : dst + len ≤ 2 ^ 47) (p : Phys) :
    Grows root p (Phys.zeroOut root n dst len p).2 := by
  induction n generalizing dst len p with
  | zero => exact Grows.refl root p
  | succ n ih =>
    rw [Phys.zeroOut]
    split
    · exact Grows.refl root p
    rename_i hlen
    simp only
    split
    · exact Grows.refl root p
    rename_i hne
    obtain ⟨hle, hpage⟩ := chunkTo_le dst len
    have hw : wrap64 (dst + Phys.chunkTo dst len) = dst + Phys.chunkTo dst len := by
      unfold wrap64
      omega
    refine (writePage_grows (userHalf_of_lt (by omega)) hne fun a ha heq => ?_).trans
      (ih (by rw [hw]; omega) _)
    rw [heq]
    intro f hf hn x hx
    have := hf.disjoint ha fun e => hn (e ▸ Multiset.mem_singleton_self _)
    exact Mem.memset_apply_outside (by omega)

-- ---------------------------------------------------------------------------
-- Ranges
-- ---------------------------------------------------------------------------

/-- A range below `2 ^ 47` that starts on or after the page of `start`. -/
theorem forPages_grows {body : Phys → Nat → Bool × Phys} {start stop : Nat} (hstop : stop < 2 ^ 46)
    (hbody : ∀ q va, UserHalf va → Grows root q (body q va).2) (p : Phys) :
    Grows root p (Phys.forPages body start stop p).2 := by
  refine Phys.forEntries_grows (fun q k hk => hbody q _ (userHalf_of_lt ?_)) p
  rw [List.mem_range] at hk
  unfold alignUp alignDown wrap64 pageSize at *
  omega

theorem forPages_ok {body : Phys → Nat → Bool × Phys} {start stop : Nat} (hstop : stop < 2 ^ 46)
    (hbody : ∀ q va, UserHalf va → Grows root q (body q va).2)
    (hok : (Phys.forPages body start stop p).1 = true) {va : Nat} (h₁ : start ≤ va) (h₂ : va < stop) :
    ∃ q, Grows root p q ∧ (body q (va / 4096 * 4096)).1 = true ∧
      Grows root (body q (va / 4096 * 4096)).2 (Phys.forPages body start stop p).2 := by
  have hk : va / 4096 - start / 4096 ∈
      List.range ((alignUp stop pageSize - alignDown start) / pageSize) := by
    rw [List.mem_range]
    unfold alignUp alignDown wrap64 pageSize
    omega
  have hva : alignDown start + pageSize * (va / 4096 - start / 4096) = va / 4096 * 4096 := by
    unfold alignDown pageSize
    omega
  have := Phys.forEntries_ok (fun q k hk => hbody q _ (userHalf_of_lt (by
    rw [List.mem_range] at hk
    unfold alignUp alignDown wrap64 pageSize at *
    omega))) hok hk
  rwa [hva] at this

theorem mapRange_body_grows (q : Phys) {va : Nat} (hva : UserHalf va) :
    Grows root q (if q.vmmUserPhys root va ≠ 0 then (true, q) else q.mapNew root va vmmWrite).2 := by
  split
  · exact Grows.refl root q
  · exact mapNew_grows hva vmmWrite

theorem mapRange_grows (root start stop : Nat) (hstop : stop < 2 ^ 46) (p : Phys) :
    Grows root p (p.mapRange root start stop).2 :=
  forPages_grows hstop (fun q _ hva => mapRange_body_grows q hva) p

theorem onUserPage_page {va : Nat} : p.OnUserPage root (va / 4096 * 4096) ↔ p.OnUserPage root va := by
  have hi : ∀ l, tableIndex (va / 4096 * 4096) l = tableIndex va l := fun l => by
    rw [tableIndex, tableIndex, Nat.mul_div_cancel _ (by decide)]
  unfold Phys.OnUserPage Phys.mapping Phys.presentPte Phys.getPte
  simp only [hi]

theorem Sound.onUserPage (hs : Sound p root) (hv : UserHalf virt) :
    p.vmmUserPhys root virt ≠ 0 ↔ p.OnUserPage root virt := by
  obtain ⟨A, kids, hA, hsp, hnd⟩ := hs
  rw [hsp.vmmUserPhys hv, hsp.onUserPage_iff hv, UserPage]

/-- After a successful `map_range`, and whatever follows, every address of the
range is on a user page. -/
theorem mapRange_onUserPage (start stop : Nat) (hstop : stop < 2 ^ 46) (hs : Sound p root)
    (hok : (p.mapRange root start stop).1 = true) (hg : Grows root (p.mapRange root start stop).2 p')
    {va : Nat} (h₁ : start ≤ va) (h₂ : va < stop) : p'.OnUserPage root va := by
  obtain ⟨q, hpq, hbody, hlast⟩ := forPages_ok hstop (fun q _ hva => mapRange_body_grows q hva) hok h₁ h₂
  have hv : UserHalf (va / 4096 * 4096) := userHalf_of_lt (by omega)
  have hq : Sound q root := hpq.sound hs
  rw [← onUserPage_page]
  refine (hlast.trans hg).onUserPage ((mapRange_body_grows q hv).sound hq) hv ?_
  split at hbody
  · rename_i hne
    rw [if_pos hne]
    exact (hq.onUserPage hv).mp hne
  · rename_i hne
    rw [if_neg hne]
    exact mapNew_onUserPage hq hv hbody

-- ---------------------------------------------------------------------------
-- Segments
-- ---------------------------------------------------------------------------

theorem segmentOk_iff {size : Nat} {ph : Elf64Phdr} : segmentOk size ph = true ↔
    ph.filesz ≤ ph.memsz ∧ ph.offset ≤ size ∧ ph.filesz ≤ size - ph.offset ∧ userMin ≤ ph.vaddr ∧
      ph.vaddr < userImageEnd ∧ ph.memsz ≤ userImageEnd - ph.vaddr := by
  rw [segmentOk, decide_eq_true_iff]

theorem segment_stop {size : Nat} {ph : Elf64Phdr} (h : segmentOk size ph = true) :
    wrap64 (ph.vaddr + ph.memsz) = ph.vaddr + ph.memsz ∧ ph.vaddr + ph.memsz ≤ userImageEnd ∧
      wrap64 (ph.vaddr + ph.filesz) = ph.vaddr + ph.filesz := by
  obtain ⟨h₁, -, -, -, h₅, h₆⟩ := segmentOk_iff.mp h
  unfold wrap64 userImageEnd at *
  omega

theorem loadSegment_grows (image : List UInt8) (p : Phys) (ph : Elf64Phdr) :
    Grows root p (p.loadSegment root image ph).2 := by
  unfold Phys.loadSegment
  split
  · exact Grows.refl root p
  split
  · exact Grows.refl root p
  rename_i hseg
  split
  · exact Grows.refl root p
  obtain ⟨hw, hle, hwf⟩ := segment_stop (not_not.mp hseg)
  obtain ⟨h₁, -, -, -, h₅, h₆⟩ := segmentOk_iff.mp (not_not.mp hseg)
  unfold userImageEnd at *
  have hmap := mapRange_grows root ph.vaddr (wrap64 (ph.vaddr + ph.memsz)) (by omega) p
  generalize p.mapRange root ph.vaddr (wrap64 (ph.vaddr + ph.memsz)) = r at hmap ⊢
  obtain ⟨_ | _, p₁⟩ := r
  · exact hmap
  simp only
  have hcopy := copyOut_grows root ((image.drop ph.offset).take ph.filesz).length ph.vaddr
    ((image.drop ph.offset).take ph.filesz) (by rw [List.length_take]; omega) p₁
  generalize Phys.copyOut root _ ph.vaddr ((image.drop ph.offset).take ph.filesz) p₁ = r at hcopy ⊢
  obtain ⟨_ | _, p₂⟩ := r
  · exact hmap.trans hcopy
  · exact (hmap.trans hcopy).trans (zeroOut_grows _ (by omega) p₂)

theorem loadSegment_onUserPage {image : List UInt8} {ph : Elf64Phdr} (hs : Sound p root)
    (hload : ph.type = ptLoad) (hok : (p.loadSegment root image ph).1 = true)
    (hg : Grows root (p.loadSegment root image ph).2 p') {va : Nat} (h₁ : ph.vaddr ≤ va)
    (h₂ : va < ph.vaddr + ph.memsz) :
    userMin ≤ ph.vaddr ∧ ph.vaddr + ph.memsz ≤ userImageEnd ∧ p'.OnUserPage root va := by
  unfold Phys.loadSegment at hok hg
  rw [if_neg (not_not.mpr hload)] at hok hg
  split at hok
  · cases hok
  rename_i hseg
  rw [if_neg hseg] at hg
  have hmem : ph.memsz ≠ 0 := by omega
  rw [if_neg hmem] at hok hg
  obtain ⟨hw, hle, hwf⟩ := segment_stop (not_not.mp hseg)
  obtain ⟨hfz, -, -, hmin, h₅, h₆⟩ := segmentOk_iff.mp (not_not.mp hseg)
  refine ⟨hmin, hle, ?_⟩
  unfold userImageEnd at *
  have hmap : _ → Grows root _ p' → _ :=
    mapRange_onUserPage ph.vaddr (wrap64 (ph.vaddr + ph.memsz)) (by omega) hs
  generalize p.mapRange root ph.vaddr (wrap64 (ph.vaddr + ph.memsz)) = r at hmap hok hg
  obtain ⟨_ | _, p₁⟩ := r
  · cases hok
  refine hmap rfl ?_ h₁ (by omega)
  simp only at hok hg
  have hcopy := copyOut_grows root ((image.drop ph.offset).take ph.filesz).length ph.vaddr
    ((image.drop ph.offset).take ph.filesz) (by rw [List.length_take]; omega) p₁
  generalize Phys.copyOut root _ ph.vaddr ((image.drop ph.offset).take ph.filesz) p₁ = r at hcopy hok hg
  obtain ⟨_ | _, p₂⟩ := r
  · cases hok
  · exact (hcopy.trans (zeroOut_grows _ (by omega) p₂)).trans hg

theorem loadSegment_ok {image : List UInt8} {ph : Elf64Phdr}
    (hok : (p.loadSegment root image ph).1 = true) (hload : ph.type = ptLoad) :
    segmentOk image.length ph = true := by
  unfold Phys.loadSegment at hok
  rw [if_neg (not_not.mpr hload)] at hok
  split at hok
  · cases hok
  · rename_i h
    exact not_not.mp h

theorem protectSegment_grows {size : Nat} {ph : Elf64Phdr}
    (hseg : ph.type = ptLoad → segmentOk size ph = true) (p : Phys) :
    Grows root p (p.protectSegment root ph).2 := by
  unfold Phys.protectSegment
  split
  · exact Grows.refl root p
  rename_i h
  simp only [not_or, not_not] at h
  obtain ⟨hw, hle, -⟩ := segment_stop (hseg h.1)
  unfold userImageEnd at hle
  exact forPages_grows (by omega) (fun q va hva => vmmProtectUser_grows hva _) p

-- ---------------------------------------------------------------------------
-- The stack
-- ---------------------------------------------------------------------------

theorem putStack_grows (root : Nat) {sp : Nat} (hsp : sp ≤ userStackTop) (bytes : List UInt8) (p : Phys) :
    Grows root p (p.putStack root sp bytes).2 ∧
      ∀ sp', (p.putStack root sp bytes).1 = some sp' → sp' ≤ userStackTop := by
  unfold Phys.putStack
  split
  · exact ⟨Grows.refl root p, fun _ h => by cases h⟩
  rename_i hroom
  have hcopy := copyOut_grows root bytes.length (sp - bytes.length) bytes
    (by unfold userStackTop userStackSize at *; omega) p
  simp only
  generalize Phys.copyOut root bytes.length (sp - bytes.length) bytes p = r at hcopy ⊢
  obtain ⟨_ | _, q⟩ := r
  · exact ⟨hcopy, fun _ h => by cases h⟩
  · refine ⟨hcopy, fun sp' h => ?_⟩
    obtain rfl := Option.some.inj h
    omega

theorem putStrings_grows (root : Nat) (strings : List (List UInt8)) {sp : Nat} (hsp : sp ≤ userStackTop)
    (addresses : List Nat) (p : Phys) :
    Grows root p (Phys.putStrings root strings sp addresses p).2 ∧
      ∀ r, (Phys.putStrings root strings sp addresses p).1 = some r →
        r.1 ≤ userStackTop ∧ r.2.length = strings.length + addresses.length := by
  induction strings generalizing sp addresses p with
  | nil =>
    refine ⟨Grows.refl root p, fun r h => ?_⟩
    obtain rfl := Option.some.inj h
    exact ⟨hsp, (Nat.zero_add _).symm⟩
  | cons s rest ih =>
    obtain ⟨hput, hsp'⟩ := putStack_grows root hsp (s ++ [0]) p
    rw [Phys.putStrings]
    generalize p.putStack root sp (s ++ [0]) = r at hput hsp' ⊢
    obtain ⟨_ | sp₁, q⟩ := r
    · exact ⟨hput, fun _ h => by cases h⟩
    · obtain ⟨hg, hlen⟩ := ih (hsp' sp₁ rfl) (sp₁ :: addresses) q
      refine ⟨hput.trans hg, fun r h => ?_⟩
      obtain ⟨h₁, h₂⟩ := hlen r h
      refine ⟨h₁, h₂.trans ?_⟩
      simp only [List.length_cons]
      omega

theorem length_stackBytes (words : List Nat) :
    (words.flatMap (toLE 8)).length = words.length * 8 := by
  induction words with
  | nil => rfl
  | cons w words ih =>
    rw [List.flatMap_cons, List.length_append, ih, length_toLE, List.length_cons]
    omega

theorem buildStack_grows (root : Nat) (eh : Elf64Ehdr) (phdr : Nat) (argv envp : List CString) (p : Phys) :
    Grows root p (p.buildStack root eh phdr argv envp).2 := by
  unfold Phys.buildStack
  have hmap := mapRange_grows root (userStackTop - userStackSize) userStackTop (by decide) p
  generalize p.mapRange root (userStackTop - userStackSize) userStackTop = r at hmap ⊢
  obtain ⟨_ | _, p₁⟩ := r
  · exact hmap
  simp only
  split
  · exact hmap
  rename_i hcount
  obtain ⟨henv, hsp₁⟩ := putStrings_grows root (envp.map CString.bytes).reverse
    (Nat.le_refl userStackTop) [] p₁
  generalize Phys.putStrings root (envp.map CString.bytes).reverse userStackTop [] p₁ = r at henv hsp₁ ⊢
  obtain ⟨_ | ⟨sp₁, envAddresses⟩, p₂⟩ := r
  · exact hmap.trans henv
  obtain ⟨hle₁, hlen₁⟩ := hsp₁ _ rfl
  obtain ⟨harg, hsp₂⟩ := putStrings_grows root (argv.map CString.bytes).reverse hle₁ [] p₂
  simp only
  generalize Phys.putStrings root (argv.map CString.bytes).reverse sp₁ [] p₂ = r at harg hsp₂ ⊢
  obtain ⟨_ | ⟨sp₂, argp⟩, p₃⟩ := r
  · exact (hmap.trans henv).trans harg
  obtain ⟨hle₂, hlen₂⟩ := hsp₂ _ rfl
  obtain ⟨hrandom, hsp₃⟩ := putStack_grows root hle₂ Phys.randomBytes p₃
  simp only
  generalize p₃.putStack root sp₂ Phys.randomBytes = r at hrandom hsp₃ ⊢
  obtain ⟨_ | randomp, p₄⟩ := r
  · exact ((hmap.trans henv).trans harg).trans hrandom
  have hle₃ := hsp₃ _ rfl
  simp only
  have hwords : (Phys.stackWords eh phdr argp envAddresses randomp).length ≤ 64 := by
    simp only [List.length_reverse, List.length_map, List.length_nil, not_or, Nat.not_lt]
      at hlen₁ hlen₂ hcount
    simp only [Phys.stackWords, List.length_append, List.length_cons, List.length_nil]
    omega
  generalize Phys.stackWords eh phdr argp envAddresses randomp = words at hwords ⊢
  have hcopy := copyOut_grows root (words.flatMap (toLE 8)).length
    ((randomp / 16 * 16 - words.length * 8) / 16 * 16) (words.flatMap (toLE 8))
    (by rw [length_stackBytes]; unfold userStackTop at *; omega) p₄
  generalize Phys.copyOut root (words.flatMap (toLE 8)).length _ (words.flatMap (toLE 8)) p₄ = r at hcopy ⊢
  have hall := (((hmap.trans henv).trans harg).trans hrandom).trans hcopy
  obtain ⟨_ | _, p₅⟩ := r
  · exact hall
  · exact hall

-- ---------------------------------------------------------------------------
-- Loading
-- ---------------------------------------------------------------------------

theorem loadSegments_ok {image : List UInt8} {l : List Nat}
    (hok : (Phys.forEntries (fun p i => p.loadSegment root image (programHeader image i)) l p).1 = true)
    {i : Nat} (hi : i ∈ l) (hload : (programHeader image i).type = ptLoad) :
    segmentOk image.length (programHeader image i) = true := by
  obtain ⟨q, -, hq, -⟩ := Phys.forEntries_ok (fun q i _ => loadSegment_grows image q _) hok hi
  exact loadSegment_ok hq hload

/-- A load that returns: the entry is the header's, and the first loop ran to its
end and left what the rest kept. -/
theorem loadImage_ok {image : List UInt8} {argv envp : List CString} {entry stack : Nat}
    (h : (p.loadImage root image argv envp).1 = some (entry, stack)) :
    entry = (elfHeader image).entry ∧
      (Phys.forEntries (fun p i => p.loadSegment root image (programHeader image i))
        (List.range (elfHeader image).phnum) p).1 = true ∧
      Grows root (Phys.forEntries (fun p i => p.loadSegment root image (programHeader image i))
        (List.range (elfHeader image).phnum) p).2 (p.loadImage root image argv envp).2 := by
  unfold Phys.loadImage at h ⊢
  split at h
  · cases h
  rename_i hhead
  rw [if_neg hhead]
  simp only at h ⊢
  split at h
  · cases h
  rename_i hphdr
  rw [if_neg hphdr]
  have hseg : ∀ hok, ∀ i ∈ List.range (elfHeader image).phnum, _ → _ := fun hok i hi =>
    @loadSegments_ok p root image _ hok i hi
  generalize Phys.forEntries (fun p i => p.loadSegment root image (programHeader image i))
    (List.range (elfHeader image).phnum) p = r at h hseg ⊢
  obtain ⟨_ | _, p₁⟩ := r
  · cases h
  have hprot : Grows root p₁ (Phys.forEntries (fun p i => p.protectSegment root (programHeader image i))
      (List.range (elfHeader image).phnum) p₁).2 :=
    Phys.forEntries_grows (fun q i hi => protectSegment_grows (hseg rfl i hi) q) p₁
  simp only at h ⊢
  generalize Phys.forEntries (fun p i => p.protectSegment root (programHeader image i))
    (List.range (elfHeader image).phnum) p₁ = r at h hprot ⊢
  obtain ⟨_ | _, p₂⟩ := r
  · cases h
  have hstack := buildStack_grows root (elfHeader image) (findPhdr image) argv envp p₂
  simp only at h ⊢
  generalize p₂.buildStack root (elfHeader image) (findPhdr image) argv envp = r at h hstack ⊢
  obtain ⟨_ | sp, p₃⟩ := r
  · cases h
  · cases h
    exact ⟨rfl, trivial, hprot.trans hstack⟩

/-- The entry address is on user pages of a segment that was mapped, and a
return to user mode starts there. -/
structure EntryValid (p : Phys) (root : Nat) (image : List UInt8) (entry stack : Nat) : Prop where
  segment : ∃ i < (elfHeader image).phnum, (programHeader image i).type = ptLoad ∧
    (programHeader image i).vaddr ≤ entry ∧
    entry < (programHeader image i).vaddr + (programHeader image i).memsz ∧
    ∀ va, (programHeader image i).vaddr ≤ va →
      va < (programHeader image i).vaddr + (programHeader image i).memsz → p.OnUserPage root va
  image : userMin ≤ entry ∧ entry < userImageEnd
  present : p.OnUserPage root entry
  pc : (taskExecFrame entry stack).rip = entry ∧ (taskExecFrame entry stack).rip < 2 ^ 47

def EntryInSegment (image : List UInt8) : Prop :=
  ∃ i < (elfHeader image).phnum, (programHeader image i).type = ptLoad ∧
    (programHeader image i).vaddr ≤ (elfHeader image).entry ∧
    (elfHeader image).entry < (programHeader image i).vaddr + (programHeader image i).memsz

/-- Of the images that are loaded, exactly those whose header points into a
segment get a valid entry. -/
theorem loadImage_entry_iff {image : List UInt8} {argv envp : List CString} {entry stack : Nat}
    (hs : Sound p root) (h : (p.loadImage root image argv envp).1 = some (entry, stack)) :
    EntryValid (p.loadImage root image argv envp).2 root image entry stack ↔ EntryInSegment image := by
  obtain ⟨rfl, hok, hg⟩ := loadImage_ok h
  constructor
  · rintro ⟨⟨i, hi, hload, h₁, h₂, -⟩, -, -, -⟩
    exact ⟨i, hi, hload, h₁, h₂⟩
  · rintro ⟨i, hi, hload, h₁, h₂⟩
    obtain ⟨q, hpq, hq, hlast⟩ := Phys.forEntries_ok (fun q i _ => loadSegment_grows image q _) hok
      (List.mem_range.mpr hi)
    have hpage : ∀ va, (programHeader image i).vaddr ≤ va →
        va < (programHeader image i).vaddr + (programHeader image i).memsz → _ := fun va ha hb =>
      loadSegment_onUserPage (hpq.sound hs) hload hq (hlast.trans hg) ha hb
    obtain ⟨hmin, hend, hpresent⟩ := hpage _ h₁ h₂
    have hlt : (elfHeader image).entry < userImageEnd := Nat.lt_of_lt_of_le h₂ hend
    refine ⟨⟨i, hi, hload, h₁, h₂, fun va ha hb => (hpage va ha hb).2.2⟩,
      ⟨Nat.le_trans hmin h₁, hlt⟩, hpresent, rfl, ?_⟩
    exact Nat.lt_trans hlt (by decide)

-- ---------------------------------------------------------------------------
-- A file with one segment
-- ---------------------------------------------------------------------------

def oneSegment (entry : Nat) : List UInt8 :=
  [0x7f, 69, 76, 70, 2, 1, 1, 0, 0, 0, 0, 0, 0, 0, 0, 0] ++ toLE 2 etExec ++ toLE 2 archElfMachine ++
    toLE 4 1 ++ toLE 8 entry ++ toLE 8 64 ++ toLE 8 0 ++ toLE 4 0 ++ toLE 2 64 ++ toLE 2 56 ++
    toLE 2 1 ++ toLE 2 0 ++ toLE 2 0 ++ toLE 2 0 ++
  (toLE 4 ptLoad ++ toLE 4 5 ++ toLE 8 0 ++ toLE 8 userMin ++ toLE 8 userMin ++ toLE 8 120 ++
    toLE 8 120 ++ toLE 8 4096)

def loaderMap : List MemmapEntry := [⟨0x100000, 0x100000, limineMemmapUsable⟩]

theorem loaderMap_ok : MemmapOk loaderMap where
  entry := by
    intro e he _
    rw [loaderMap, List.mem_singleton] at he
    subst he
    exact ⟨by decide, by decide, by decide, by decide⟩
  disjoint := List.pairwise_singleton _ _

def newSpace : Phys := ((mmInit loaderMap (fun _ => 0) []).vmmSpaceCreate 0).2

theorem newSpace_sound : Sound newSpace 0x100000 :=
  (Phys.avail_mmInit loaderMap_ok).sound_create (by decide +kernel)

def initName : CString := ⟨[105, 110, 105, 116], by decide⟩

theorem loadImage_entry_inside :
    EntryValid (newSpace.loadImage 0x100000 (oneSegment 0x400040) [initName] []).2 0x100000
      (oneSegment 0x400040) 0x400040 0x7fffff40 :=
  (loadImage_entry_iff newSpace_sound (by decide +kernel)).mpr
    ⟨0, by decide +kernel, by decide +kernel, by decide +kernel, by decide +kernel⟩

/-- The first address that is not canonical becomes the program counter. -/
theorem loadImage_entry_outside :
    (newSpace.loadImage 0x100000 (oneSegment (2 ^ 47)) [initName] []).1 =
        some (2 ^ 47, 0x7fffff40) ∧
      ¬ EntryValid (newSpace.loadImage 0x100000 (oneSegment (2 ^ 47)) [initName] []).2 0x100000
        (oneSegment (2 ^ 47)) (2 ^ 47) 0x7fffff40 :=
  ⟨by decide +kernel, fun h => absurd h.pc.2 (by decide)⟩

end NarcOs
