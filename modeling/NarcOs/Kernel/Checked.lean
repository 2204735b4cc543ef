import NarcOs.Kernel.Image
import NarcOs.Lib.Word64

/-!
# The loader with its reads and sums checked

The image functions of `kernel/user.c` once more, as computations that stop at
`none` when a read of the image reaches past the file, or when an address or a
size does not fit in 64 bits. They never stop, and give what the loader gives.
-/

namespace NarcOs

variable {p : Phys} {root : Nat} {image : List UInt8} {argv envp : List CString}

-- ---------------------------------------------------------------------------
-- Reads and sums
-- ---------------------------------------------------------------------------

def readImage (image : List UInt8) (offset len : Nat) : Option (List UInt8) :=
  if offset + len ≤ image.length then some ((image.drop offset).take len) else none

def readField (image : List UInt8) (offset size : Nat) : Option Nat := (readImage image offset size).map ofLE

theorem readImage_eq {offset len : Nat} (h : offset + len ≤ image.length) :
    readImage image offset len = some ((image.drop offset).take len) := if_pos h

theorem readField_eq {offset size : Nat} (h : offset + size ≤ image.length) :
    readField image offset size = some (elfField image offset size) := by
  rw [readField, readImage_eq h]
  rfl

theorem elfField_lt (image : List UInt8) (offset size : Nat) : elfField image offset size < 256 ^ size := by
  have hlt := ofLE_lt ((image.drop offset).take size)
  have hlen : ((image.drop offset).take size).length ≤ size := List.length_take_le _ _
  exact hlt.trans_le (Nat.pow_le_pow_right (by decide) hlen)

-- ---------------------------------------------------------------------------
-- Headers
-- ---------------------------------------------------------------------------

def elfHeaderChecked (image : List UInt8) : Option Elf64Ehdr := do
  let ident ← readImage image 0 16
  let type ← readField image 16 2
  let machine ← readField image 18 2
  let entry ← readField image 24 8
  let phoff ← readField image 32 8
  let phentsize ← readField image 54 2
  let phnum ← readField image 56 2
  pure ⟨ident, type, machine, entry, phoff, phentsize, phnum⟩

def programHeaderChecked (image : List UInt8) (eh : Elf64Ehdr) (i : Nat) : Option Elf64Phdr := do
  let index ← mul64 sizeofPhdr i
  let start ← add64 eh.phoff index
  let type ← readField image start 4
  let flags ← readField image (start + 4) 4
  let offset ← readField image (start + 8) 8
  let vaddr ← readField image (start + 16) 8
  let filesz ← readField image (start + 32) 8
  let memsz ← readField image (start + 40) 8
  pure ⟨type, flags, offset, vaddr, filesz, memsz⟩

def headerOkChecked (image : List UInt8) (eh : Elf64Ehdr) : Option Bool :=
  if eh.ident.take 6 = [0x7f, 69, 76, 70, 2, 1] ∧ eh.type = etExec ∧ eh.machine = archElfMachine ∧
      eh.phentsize = sizeofPhdr ∧ eh.phnum ≠ 0 then do
    let bytes ← mul64 eh.phnum eh.phentsize
    if eh.phoff > image.length then pure false
    else
      let left ← sub64 image.length eh.phoff
      pure (bytes ≤ left)
  else pure false

def findPhdrChecked (image : List UInt8) (eh : Elf64Ehdr) : Option Nat := do
  let headers ← (List.range eh.phnum).mapM (programHeaderChecked image eh)
  pure (match headers.find? fun ph => ph.type = ptPhdr with
    | some ph => ph.vaddr
    | none =>
      match headers.find? fun ph => ph.type = ptLoad ∧ eh.phoff ≥ ph.offset ∧
          wrap64 (eh.phoff + eh.phnum * eh.phentsize) ≤ wrap64 (ph.offset + ph.filesz) with
      | some ph => wrap64 (2 ^ 64 + ph.vaddr + eh.phoff - ph.offset)
      | none => 0)

theorem elfHeaderChecked_eq (h : sizeofEhdr ≤ image.length) : elfHeaderChecked image = some (elfHeader image) := by
  unfold sizeofEhdr at h
  unfold elfHeaderChecked
  rw [readImage_eq (by omega), readField_eq (by omega), readField_eq (by omega), readField_eq (by omega),
    readField_eq (by omega), readField_eq (by omega), readField_eq (by omega)]
  rfl

def TableInside (image : List UInt8) : Prop :=
  (elfHeader image).phoff + sizeofPhdr * (elfHeader image).phnum ≤ image.length ∧ image.length ≤ vfsFileMax

theorem programHeaderChecked_eq (h : TableInside image) {i : Nat} (hi : i < (elfHeader image).phnum) :
    programHeaderChecked image (elfHeader image) i = some (programHeader image i) := by
  obtain ⟨htable, hsize⟩ := h
  unfold sizeofPhdr vfsFileMax at *
  have hstart : (elfHeader image).phoff + 56 * i + 56 ≤ image.length := by omega
  unfold programHeaderChecked programHeader sizeofPhdr
  rw [mul64_eq (by omega)]
  simp only [Option.bind_eq_bind, Option.bind_some]
  rw [add64_eq (by omega)]
  simp only [Option.bind_some]
  rw [readField_eq (by omega), readField_eq (by omega), readField_eq (by omega), readField_eq (by omega),
    readField_eq (by omega), readField_eq (by omega)]
  rfl

theorem headerOkChecked_eq (image : List UInt8) : headerOkChecked image (elfHeader image) = some (headerOk image) := by
  have hnum : (elfHeader image).phnum < 256 ^ 2 := elfField_lt image 56 2
  have hsize : (elfHeader image).phentsize < 256 ^ 2 := elfField_lt image 54 2
  unfold headerOkChecked headerOk
  dsimp only
  split
  · rename_i h
    obtain ⟨h₁, h₂, h₃, h₄, h₅⟩ := h
    have hmul : (elfHeader image).phnum * (elfHeader image).phentsize < 2 ^ 64 :=
      (Nat.mul_lt_mul'' hnum hsize).trans (by decide)
    rw [mul64_eq hmul]
    simp only [Option.bind_eq_bind, Option.bind_some, h₁, h₂, h₃, h₄, h₅, ne_eq, not_false_eq_true, true_and]
    split
    · rename_i hoff
      rw [Option.pure_def, Option.some_inj, eq_comm, decide_eq_false_iff_not]
      omega
    · rename_i hoff
      rw [sub64_eq (Nat.not_lt.mp hoff)]
      simp only [Option.bind_some, Option.pure_def, Nat.not_lt.mp hoff, true_and]
  · rename_i h
    rw [Option.pure_def, Option.some_inj, eq_comm, decide_eq_false_iff_not]
    exact fun h' => h ⟨h'.1, h'.2.1, h'.2.2.1, h'.2.2.2.1, h'.2.2.2.2.1⟩

theorem mapM_eq_some {α β : Type} {f : α → Option β} {g : α → β} {l : List α} (h : ∀ a ∈ l, f a = some (g a)) :
    l.mapM f = some (l.map g) := by
  induction l with
  | nil => rfl
  | cons a l ih =>
    rw [List.mapM_cons, h a List.mem_cons_self, ih fun b hb => h b (List.mem_cons_of_mem _ hb)]
    rfl

theorem findPhdrChecked_eq (h : TableInside image) :
    findPhdrChecked image (elfHeader image) = some (findPhdr image) := by
  unfold findPhdrChecked
  rw [mapM_eq_some fun i hi => programHeaderChecked_eq h (List.mem_range.mp hi)]
  rfl

theorem tableInside (h : headerOk image = true) (hsize : image.length ≤ vfsFileMax) : TableInside image := by
  rw [headerOk, decide_eq_true_iff] at h
  obtain ⟨-, -, -, hphdr, -, hoff, hbytes⟩ := h
  refine ⟨?_, hsize⟩
  rw [hphdr] at hbytes
  rw [Nat.mul_comm]
  omega

-- ---------------------------------------------------------------------------
-- Loops
-- ---------------------------------------------------------------------------

namespace Phys

def forEntriesChecked (body : Phys → Nat → Option (Bool × Phys)) : List Nat → Phys → Option (Bool × Phys)
  | [], p => some (true, p)
  | i :: rest, p => (body p i).bind fun r =>
    match r with
    | (false, p) => some (false, p)
    | (true, p) => forEntriesChecked body rest p

def forPagesChecked (body : Phys → Nat → Bool × Phys) (start stop : Nat) (p : Phys) : Option (Bool × Phys) := do
  let up ← add64 stop (pageSize - 1)
  forEntriesChecked (fun p k => do
      let va ← add64 (alignDown start) (pageSize * k)
      let _ ← add64 va pageSize
      pure (body p va))
    (List.range ((alignDown up - alignDown start) / pageSize)) p

def copyOutChecked (root : Nat) : Nat → Nat → List UInt8 → Phys → Option (Bool × Phys)
  | 0, _, _, p => some (true, p)
  | n + 1, dst, bytes, p =>
    if bytes = [] then some (true, p)
    else if p.vmmUserPhys root dst = 0 then some (false, p)
    else do
      let left ← sub64 pageSize (dst % pageSize)
      let chunk := if left > bytes.length then bytes.length else left
      let next ← add64 dst chunk
      let _ ← sub64 bytes.length chunk
      copyOutChecked root n next (bytes.drop chunk)
        { p with mem := p.mem.write (p.vmmUserPhys root dst) (bytes.take chunk) }

def zeroOutChecked (root : Nat) : Nat → Nat → Nat → Phys → Option (Bool × Phys)
  | 0, _, _, p => some (true, p)
  | n + 1, dst, len, p =>
    if len = 0 then some (true, p)
    else if p.vmmUserPhys root dst = 0 then some (false, p)
    else do
      let left ← sub64 pageSize (dst % pageSize)
      let chunk := if left > len then len else left
      let next ← add64 dst chunk
      let rest ← sub64 len chunk
      zeroOutChecked root n next rest { p with mem := p.mem.memset (p.vmmUserPhys root dst) 0 chunk }

def mapRangeChecked (p : Phys) (root start stop : Nat) : Option (Bool × Phys) :=
  forPagesChecked (fun p va => if p.vmmUserPhys root va ≠ 0 then (true, p) else p.mapNew root va vmmWrite) start stop p

def segmentOkChecked (size : Nat) (ph : Elf64Phdr) : Option Bool :=
  if ph.filesz > ph.memsz ∨ ph.offset > size then some false
  else do
    let left ← sub64 size ph.offset
    if ph.filesz > left ∨ ph.vaddr < userMin ∨ ph.vaddr ≥ userImageEnd then pure false
    else
      let room ← sub64 userImageEnd ph.vaddr
      pure (ph.memsz ≤ room)

def loadSegmentChecked (root : Nat) (image : List UInt8) (eh : Elf64Ehdr) (p : Phys) (i : Nat) : Option (Bool × Phys) := do
  let ph ← programHeaderChecked image eh i
  if ph.type ≠ ptLoad then pure (true, p)
  else
    let ok ← segmentOkChecked image.length ph
    if ¬ ok then pure (false, p)
    else if ph.memsz = 0 then pure (true, p)
    else
      let stop ← add64 ph.vaddr ph.memsz
      let (mapped, p) ← p.mapRangeChecked root ph.vaddr stop
      if ¬ mapped then pure (false, p)
      else
        let bytes ← readImage image ph.offset ph.filesz
        let (copied, p) ← copyOutChecked root bytes.length ph.vaddr bytes p
        if ¬ copied then pure (false, p)
        else
          let start ← add64 ph.vaddr ph.filesz
          let len ← sub64 ph.memsz ph.filesz
          zeroOutChecked root len start len p

def protectSegmentChecked (root : Nat) (image : List UInt8) (eh : Elf64Ehdr) (p : Phys) (i : Nat) :
    Option (Bool × Phys) := do
  let ph ← programHeaderChecked image eh i
  if ph.type ≠ ptLoad ∨ ph.memsz = 0 then pure (true, p)
  else
    let stop ← add64 ph.vaddr ph.memsz
    forPagesChecked (fun p va => p.vmmProtectUser root va (if ph.flags.testBit 1 then vmmWrite else 0)) ph.vaddr stop p

/-- The image part of `load`. -/
def loadProgramChecked (p : Phys) (root : Nat) (image : List UInt8) : Option (Bool × Phys) :=
  if image.length < sizeofEhdr then some (false, p)
  else do
    let eh ← elfHeaderChecked image
    let ok ← headerOkChecked image eh
    if ¬ ok then pure (false, p)
    else
      let phdr ← findPhdrChecked image eh
      if phdr = 0 then pure (false, p)
      else
        let (loaded, p) ← forEntriesChecked (loadSegmentChecked root image eh) (List.range eh.phnum) p
        if ¬ loaded then pure (false, p)
        else forEntriesChecked (protectSegmentChecked root image eh) (List.range eh.phnum) p

end Phys

theorem forEntriesChecked_eq {body : Phys → Nat → Option (Bool × Phys)} {body' : Phys → Nat → Bool × Phys}
    {l : List Nat} (h : ∀ q, ∀ i ∈ l, body q i = some (body' q i)) (p : Phys) :
    Phys.forEntriesChecked body l p = some (Phys.forEntries body' l p) := by
  induction l generalizing p with
  | nil => rfl
  | cons i rest ih =>
    rw [Phys.forEntriesChecked, Phys.forEntries, h p i List.mem_cons_self, Option.bind_some]
    obtain ⟨_ | _, q⟩ := body' p i
    · rfl
    · exact ih (fun q j hj => h q j (List.mem_cons_of_mem _ hj)) q

theorem forPagesChecked_eq (body : Phys → Nat → Bool × Phys) {start stop : Nat} (hstop : stop < 2 ^ 46) (p : Phys) :
    Phys.forPagesChecked body start stop p = some (Phys.forPages body start stop p) := by
  unfold Phys.forPagesChecked Phys.forPages
  rw [add64_eq (by unfold pageSize; omega)]
  have hup : alignDown (stop + (pageSize - 1)) = alignUp stop pageSize := by
    unfold alignUp alignDown wrap64 pageSize
    omega
  simp only [Option.bind_eq_bind, Option.bind_some, hup]
  refine forEntriesChecked_eq (fun q k hk => ?_) p
  rw [List.mem_range] at hk
  have hk' : alignDown start + pageSize * k + pageSize < 2 ^ 64 := by
    unfold alignUp alignDown wrap64 pageSize at *
    omega
  rw [add64_eq (by omega), Option.bind_some, add64_eq hk', Option.bind_some]
  rfl

theorem copyOutChecked_eq (n : Nat) {dst : Nat} {bytes : List UInt8} (hend : dst + bytes.length < 2 ^ 64) (p : Phys) :
    Phys.copyOutChecked root n dst bytes p = some (Phys.copyOut root n dst bytes p) := by
  induction n generalizing dst bytes p with
  | zero => rfl
  | succ n ih =>
    rw [Phys.copyOutChecked, Phys.copyOut]
    split
    · rfl
    dsimp only
    split
    · rfl
    have hchunk : (if pageSize - dst % pageSize > bytes.length then bytes.length else pageSize - dst % pageSize) =
        Phys.chunkTo dst bytes.length := rfl
    obtain ⟨hle, -⟩ := chunkTo_le dst bytes.length
    rw [sub64_eq (Nat.mod_lt _ (by decide)).le]
    simp only [Option.bind_eq_bind, Option.bind_some, hchunk]
    generalize Phys.chunkTo dst bytes.length = c at hle ⊢
    have hw : wrap64 (dst + c) = dst + c := by
      unfold wrap64
      omega
    rw [add64_eq (by omega), Option.bind_some, sub64_eq hle, Option.bind_some, hw]
    exact ih (by rw [List.length_drop]; omega) _

theorem zeroOutChecked_eq (n : Nat) {dst len : Nat} (hend : dst + len < 2 ^ 64) (p : Phys) :
    Phys.zeroOutChecked root n dst len p = some (Phys.zeroOut root n dst len p) := by
  induction n generalizing dst len p with
  | zero => rfl
  | succ n ih =>
    rw [Phys.zeroOutChecked, Phys.zeroOut]
    split
    · rfl
    dsimp only
    split
    · rfl
    have hchunk : (if pageSize - dst % pageSize > len then len else pageSize - dst % pageSize) =
        Phys.chunkTo dst len := rfl
    obtain ⟨hle, -⟩ := chunkTo_le dst len
    rw [sub64_eq (Nat.mod_lt _ (by decide)).le]
    simp only [Option.bind_eq_bind, Option.bind_some, hchunk]
    generalize Phys.chunkTo dst len = c at hle ⊢
    have hw : wrap64 (dst + c) = dst + c := by
      unfold wrap64
      omega
    rw [add64_eq (by omega), Option.bind_some, sub64_eq hle, Option.bind_some, hw]
    exact ih (by omega) _

theorem segmentOkChecked_eq (size : Nat) (ph : Elf64Phdr) : Phys.segmentOkChecked size ph = some (segmentOk size ph) := by
  unfold Phys.segmentOkChecked segmentOk
  split
  · rename_i h
    rw [Option.some_inj, eq_comm, decide_eq_false_iff_not]
    omega
  rename_i h
  rw [sub64_eq (by omega)]
  simp only [Option.bind_eq_bind, Option.bind_some]
  split
  · rename_i h'
    rw [Option.pure_def, Option.some_inj, eq_comm, decide_eq_false_iff_not]
    omega
  rename_i h'
  rw [sub64_eq (by omega)]
  simp only [Option.bind_some, Option.pure_def, Option.some_inj, decide_eq_decide]
  omega

-- ---------------------------------------------------------------------------
-- The loader
-- ---------------------------------------------------------------------------

theorem loadSegmentChecked_eq (h : TableInside image) {i : Nat} (hi : i < (elfHeader image).phnum) (p : Phys) :
    p.loadSegmentChecked root image (elfHeader image) i = some (p.loadSegment root image (programHeader image i)) := by
  unfold Phys.loadSegmentChecked Phys.loadSegment
  rw [programHeaderChecked_eq h hi, some_bind]
  generalize programHeader image i = ph
  split
  · rfl
  rw [segmentOkChecked_eq, some_bind]
  split
  · rfl
  rename_i hseg
  split
  · rfl
  obtain ⟨hw, hle, hwf⟩ := segment_stop (not_not.mp hseg)
  obtain ⟨h₁, h₂, h₃, h₄, h₅, h₆⟩ := segmentOk_iff.mp (not_not.mp hseg)
  have hend : userImageEnd < 2 ^ 46 := by decide
  rw [hw, hwf, add64_eq (by omega), some_bind, Phys.mapRangeChecked, forPagesChecked_eq _ (by omega),
    some_bind]
  rw [show Phys.forPages (fun p va => if p.vmmUserPhys root va ≠ 0 then (true, p) else p.mapNew root va vmmWrite)
    ph.vaddr (ph.vaddr + ph.memsz) p = p.mapRange root ph.vaddr (ph.vaddr + ph.memsz) from rfl]
  generalize p.mapRange root ph.vaddr (ph.vaddr + ph.memsz) = r
  obtain ⟨_ | _, p₁⟩ := r
  · rfl
  have hbytes : ((image.drop ph.offset).take ph.filesz).length = ph.filesz := by
    rw [List.length_take, List.length_drop]
    omega
  dsimp only
  rw [if_neg (not_not.mpr rfl), readImage_eq (by omega), some_bind, copyOutChecked_eq _ (by omega), some_bind]
  generalize Phys.copyOut root _ ph.vaddr ((image.drop ph.offset).take ph.filesz) p₁ = r
  obtain ⟨_ | _, p₂⟩ := r
  · rfl
  dsimp only
  rw [if_neg (not_not.mpr rfl), add64_eq (by omega), some_bind, sub64_eq h₁, some_bind,
    zeroOutChecked_eq _ (by omega)]

theorem protectSegmentChecked_eq (h : TableInside image) {i : Nat} (hi : i < (elfHeader image).phnum)
    (hseg : (programHeader image i).type = ptLoad → segmentOk image.length (programHeader image i) = true) (p : Phys) :
    p.protectSegmentChecked root image (elfHeader image) i = some (p.protectSegment root (programHeader image i)) := by
  unfold Phys.protectSegmentChecked Phys.protectSegment
  rw [programHeaderChecked_eq h hi, some_bind]
  generalize programHeader image i = ph at hseg
  split
  · rfl
  rename_i htype
  rw [not_or, not_not] at htype
  obtain ⟨hw, hle, -⟩ := segment_stop (hseg htype.1)
  have hend : userImageEnd < 2 ^ 46 := by decide
  rw [hw, add64_eq (by omega), some_bind, forPagesChecked_eq _ (by omega)]

theorem loadProgramChecked_eq (hsize : image.length ≤ vfsFileMax) (p : Phys) :
    p.loadProgramChecked root image = some (p.loadProgram root image) := by
  unfold Phys.loadProgramChecked Phys.loadProgram
  by_cases hshort : image.length < sizeofEhdr
  · rw [if_pos hshort, if_pos (.inl hshort)]
  rw [if_neg hshort, elfHeaderChecked_eq (Nat.not_lt.mp hshort), some_bind, headerOkChecked_eq, some_bind]
  by_cases hhead : headerOk image = true
  · have htable := tableInside hhead hsize
    rw [if_neg (not_not.mpr hhead), if_neg (not_or.mpr ⟨hshort, not_not.mpr hhead⟩), findPhdrChecked_eq htable,
      some_bind]
    split
    · rfl
    rw [forEntriesChecked_eq fun q i hi => loadSegmentChecked_eq htable (List.mem_range.mp hi) q, some_bind]
    have hseg : (Phys.forEntries (fun p i => p.loadSegment root image (programHeader image i))
        (List.range (elfHeader image).phnum) p).1 = true → ∀ i ∈ List.range (elfHeader image).phnum, _ → _ :=
      fun hok i hi => loadSegments_ok hok hi
    generalize Phys.forEntries (fun p i => p.loadSegment root image (programHeader image i))
      (List.range (elfHeader image).phnum) p = r at hseg ⊢
    obtain ⟨_ | _, q⟩ := r
    · rfl
    · dsimp only at hseg ⊢
      rw [if_neg (not_not.mpr rfl)]
      exact forEntriesChecked_eq
        (fun q i hi => protectSegmentChecked_eq htable (List.mem_range.mp hi) (hseg rfl i hi) q) q
  · rw [if_pos hhead, if_pos (.inr hhead)]
    rfl

/-- The user memory outside the stack: the pages with a segment, and what the
segments wrote one after the other. -/
structure ImageLoaded (p : Phys) (root : Nat) (image : List UInt8) : Prop where
  page : ∀ v < 2 ^ 47, ¬ (userStackBottom ≤ v ∧ v < userStackTop) →
    ((p.userView root v).isSome ↔ ∃ ph ∈ segments image, ∃ w, ph.vaddr ≤ w ∧ w < ph.vaddr + ph.memsz ∧ w / 4096 = v / 4096)
  byte : ∀ v < 2 ^ 47, ¬ (userStackBottom ≤ v ∧ v < userStackTop) → ∀ b,
    p.userByte root v = some b → b = imageMemory image v
  range : ∀ v < 2 ^ 47, ¬ (userStackBottom ≤ v ∧ v < userStackTop) → (p.userView root v).isSome →
    userMin ≤ v ∧ v < userImageEnd

theorem load_imageLoaded {s : Vfs} {path : CString} {node : Ptr} (hstores : s.Stores path image node)
    (hs : Sound s.phys root) (hempty : ∀ v < 2 ^ 47, s.phys.userView root v = none) :
    s.phys.loadProgramChecked root image = some (s.phys.loadProgram root image) ∧
      ∀ entry sp, (load s root path argv envp).1 = some (entry, sp) →
        ImageLoaded (load s root path argv envp).2.phys root image := by
  have hsize : image.length ≤ vfsFileMax := by
    rw [← hstores.contents, Vfs.length_contents]
    exact hstores.size
  refine ⟨loadProgramChecked_eq hsize s.phys, fun entry sp hload => ?_⟩
  have hargv : argv ≠ [] := by
    rintro rfl
    cases hload
  rw [load_stores hstores hargv] at hload ⊢
  obtain ⟨hsegs, hview⟩ := loadImage_view hs hempty hload
  dsimp only at hview ⊢
  generalize (s.phys.loadImage root image argv envp).2 = p at hview ⊢
  refine ⟨fun v hv hout => ?_, fun v hv hout b hb => ?_, fun v hv hout hsome => ?_⟩
  · rw [hview v hv hout, imageView, Option.isSome_map, ← any_touches, List.any_eq_true]
    refine exists_congr fun ph => and_congr_right fun hph => Elf64Phdr.touches_iff (hsegs ph hph).2 v
  · rw [Phys.userByte, hview v hv hout, imageView, Option.map_map, Option.map_eq_some_iff] at hb
    obtain ⟨ph, -, hb⟩ := hb
    exact hb.symm
  · rw [hview v hv hout] at hsome
    exact touching_range hsegs (Option.isSome_iff_ne_none.mp hsome)

theorem load_imageLoaded_two :
    ImageLoaded (load (execVfs loaderMap (twoSegments 4 6)) 0x101000 aPath [aPath] []).2.phys 0x101000
      (twoSegments 4 6) := by
  obtain ⟨hstores, hs, hempty, hload⟩ := execVfs_ready
  exact (load_imageLoaded hstores hs hempty).2 0x400000 0x7fffff40 hload

end NarcOs
