import NarcOs.Fs.Arrays
import NarcOs.Kernel.Stack

/-!
# The image of a new program

What the loader leaves in the user half of a space that was empty. The first
loop over the program headers maps and fills, segment after segment; the second
sets the permissions, and of the segments on a page the last one has its way.
-/

namespace NarcOs

variable {p p' : Phys} {root : Nat} {image : List UInt8} {argv envp : List CString}

-- ---------------------------------------------------------------------------
-- What the file says
-- ---------------------------------------------------------------------------

/-- The `PT_LOAD` segments that are not empty, in the order of their headers. -/
def segments (image : List UInt8) : List Elf64Phdr :=
  ((List.range (elfHeader image).phnum).map (programHeader image)).filter fun ph =>
    ph.type = ptLoad ∧ ph.memsz ≠ 0

def Elf64Phdr.writable (ph : Elf64Phdr) : Bool := ph.flags.testBit 1

def Elf64Phdr.touches (ph : Elf64Phdr) (v : Nat) : Bool :=
  ph.vaddr / 4096 ≤ v / 4096 ∧ v / 4096 * 4096 < ph.vaddr + ph.memsz

theorem Elf64Phdr.touches_iff {ph : Elf64Phdr} (hmem : ph.memsz ≠ 0) (v : Nat) :
    ph.touches v = true ↔ ∃ w, ph.vaddr ≤ w ∧ w < ph.vaddr + ph.memsz ∧ w / 4096 = v / 4096 := by
  rw [Elf64Phdr.touches, decide_eq_true_iff]
  constructor
  · rintro ⟨h₁, h₂⟩
    exact ⟨max ph.vaddr (v / 4096 * 4096), by omega, by omega, by omega⟩
  · rintro ⟨w, h₁, h₂, h₃⟩
    omega

def segmentBytes (image : List UInt8) (ph : Elf64Phdr) : List UInt8 :=
  (image.drop ph.offset).take ph.filesz ++ List.replicate (ph.memsz - ph.filesz) 0

def imageMemory (image : List UInt8) : Mem :=
  (segments image).foldl (fun m ph => m.write ph.vaddr (segmentBytes image ph)) fun _ => 0

def touching (image : List UInt8) (v : Nat) : List Elf64Phdr := (segments image).filter (·.touches v)

def imageView (image : List UInt8) (v : Nat) : Option (Bool × UInt8) :=
  (touching image v).getLast?.map fun ph => (ph.writable, imageMemory image v)

-- ---------------------------------------------------------------------------
-- The two loops
-- ---------------------------------------------------------------------------

/-- `load` up to `build_stack`. -/
def Phys.loadProgram (p : Phys) (root : Nat) (image : List UInt8) : Bool × Phys :=
  if image.length < sizeofEhdr ∨ ¬ headerOk image then (false, p)
  else if findPhdr image = 0 then (false, p)
  else
    match forEntries (fun p i => p.loadSegment root image (programHeader image i))
        (List.range (elfHeader image).phnum) p with
    | (false, p) => (false, p)
    | (true, p) => forEntries (fun p i => p.protectSegment root (programHeader image i))
        (List.range (elfHeader image).phnum) p

theorem loadImage_eq (p : Phys) (root : Nat) (image : List UInt8) (argv envp : List CString) :
    p.loadImage root image argv envp =
      match p.loadProgram root image with
      | (false, p) => (none, p)
      | (true, p) =>
        ((p.buildStack root (elfHeader image) (findPhdr image) argv envp).1.map fun sp => ((elfHeader image).entry, sp),
          (p.buildStack root (elfHeader image) (findPhdr image) argv envp).2) := by
  unfold Phys.loadImage Phys.loadProgram
  split
  · rfl
  dsimp only
  split
  · rfl
  generalize Phys.forEntries (fun p i => p.loadSegment root image (programHeader image i))
    (List.range (elfHeader image).phnum) p = r
  obtain ⟨_ | _, p₁⟩ := r
  · rfl
  dsimp only
  generalize Phys.forEntries (fun p i => p.protectSegment root (programHeader image i))
    (List.range (elfHeader image).phnum) p₁ = r
  obtain ⟨_ | _, p₂⟩ := r
  · rfl
  dsimp only
  generalize p₂.buildStack root (elfHeader image) (findPhdr image) argv envp = r
  obtain ⟨_ | sp, p₃⟩ := r
  · rfl
  · rfl

theorem loadImage_built {sp : Nat} (hloads : (p.loadProgram root image).1 = true)
    (hbuild : (p.loadProgram root image).2.buildStack root (elfHeader image) (findPhdr image) argv envp = (some sp, p')) :
    p.loadImage root image argv envp = (some ((elfHeader image).entry, sp), p') := by
  rw [loadImage_eq]
  generalize p.loadProgram root image = r at hloads hbuild ⊢
  obtain ⟨ok, q⟩ := r
  cases hloads
  dsimp only at hbuild ⊢
  rw [hbuild]
  rfl

def Elf64Phdr.load (image : List UInt8) (ph : Elf64Phdr) (v : Nat) (o : Option (Bool × UInt8)) : Option (Bool × UInt8) :=
  writeAt ph.vaddr (segmentBytes image ph) v
    (onPages ph.vaddr (ph.vaddr + ph.memsz) (fun o => o.or (some (true, 0))) v o)

def Elf64Phdr.protect (ph : Elf64Phdr) (v : Nat) (o : Option (Bool × UInt8)) : Option (Bool × UInt8) :=
  onPages ph.vaddr (ph.vaddr + ph.memsz) (fun o => o.map fun w => (ph.writable, w.2)) v o

theorem length_segmentBytes {ph : Elf64Phdr} (h : segmentOk image.length ph = true) :
    (segmentBytes image ph).length = ph.memsz := by
  obtain ⟨h₁, h₂, h₃, -, -, -⟩ := segmentOk_iff.mp h
  rw [segmentBytes, List.length_append, List.length_take, List.length_drop, List.length_replicate]
  omega

theorem loadSegment_shows {ph : Elf64Phdr} (hok : (p.loadSegment root image ph).1 = true) :
    Shows root p (p.loadSegment root image ph).2 fun v o =>
      if ph.type = ptLoad ∧ ph.memsz ≠ 0 then ph.load image v o else o := by
  unfold Phys.loadSegment at hok ⊢
  split
  · rename_i htype
    exact (Shows.refl root p).congr fun v o => (if_neg fun h => htype h.1).symm
  rename_i htype
  rw [if_neg htype] at hok
  split
  · rename_i hseg
    rw [if_pos hseg] at hok
    cases hok
  rename_i hseg
  rw [if_neg hseg] at hok
  split
  · rename_i hmem
    exact (Shows.refl root p).congr fun v o => (if_neg fun h => h.2 hmem).symm
  rename_i hmem
  rw [if_neg hmem] at hok
  obtain ⟨hw, hle, hwf⟩ := segment_stop (not_not.mp hseg)
  obtain ⟨h₁, h₂, h₃, h₄, h₅, h₆⟩ := segmentOk_iff.mp (not_not.mp hseg)
  have hend : userImageEnd < 2 ^ 46 := by decide
  rw [hw, hwf] at hok ⊢
  have hmapped : (p.mapRange root ph.vaddr (ph.vaddr + ph.memsz)).1 = true → _ := mapRange_shows (by omega)
  generalize p.mapRange root ph.vaddr (ph.vaddr + ph.memsz) = r at hok hmapped ⊢
  obtain ⟨_ | _, p₁⟩ := r
  · cases hok
  dsimp only at hok hmapped ⊢
  have hbytes : ((image.drop ph.offset).take ph.filesz).length = ph.filesz := by
    rw [List.length_take, List.length_drop]
    omega
  have hcopied : (Phys.copyOut root ((image.drop ph.offset).take ph.filesz).length ph.vaddr
      ((image.drop ph.offset).take ph.filesz) p₁).1 = true → _ := copyOut_shows _ (by omega) le_rfl
  generalize Phys.copyOut root _ ph.vaddr ((image.drop ph.offset).take ph.filesz) p₁ = r at hok hcopied ⊢
  obtain ⟨_ | _, p₂⟩ := r
  · cases hok
  dsimp only at hok hcopied ⊢
  have hzeroed := zeroOut_shows (by omega) hok
  refine (((hmapped rfl).trans (hcopied rfl)).trans hzeroed).congr fun v o => ?_
  rw [if_pos ⟨not_not.mp htype, hmem⟩, Elf64Phdr.load, segmentBytes]
  have happ := writeAt_append ph.vaddr ((image.drop ph.offset).take ph.filesz)
    (List.replicate (ph.memsz - ph.filesz) 0) v
    (onPages ph.vaddr (ph.vaddr + ph.memsz) (fun o => o.or (some (true, 0))) v o)
  rwa [hbytes] at happ

theorem protectSegment_shows {size : Nat} {ph : Elf64Phdr}
    (hseg : ph.type = ptLoad → ph.memsz ≠ 0 → segmentOk size ph = true)
    (hok : (p.protectSegment root ph).1 = true) :
    Shows root p (p.protectSegment root ph).2 fun v o =>
      if ph.type = ptLoad ∧ ph.memsz ≠ 0 then ph.protect v o else o := by
  unfold Phys.protectSegment at hok ⊢
  split
  · rename_i h
    exact (Shows.refl root p).congr fun v o => (if_neg fun h' => h.elim (· h'.1) h'.2).symm
  rename_i h
  rw [if_neg h] at hok
  simp only [not_or, not_not] at h
  obtain ⟨hw, hle, -⟩ := segment_stop (hseg h.1 h.2)
  have hend : userImageEnd < 2 ^ 46 := by decide
  rw [hw] at hok ⊢
  have hflag : (if ph.flags.testBit 1 = true then vmmWrite else 0).testBit 1 = ph.writable := by
    unfold Elf64Phdr.writable
    cases ph.flags.testBit 1 <;> rfl
  refine (forPages_shows (by omega) (g := fun o => o.map fun w => (ph.writable, w.2)) (fun o => ?_)
    (fun q va hva hbody => ?_) hok).congr fun v o => (if_pos h).symm
  · cases o <;> rfl
  · have hpage := vmmProtectUser_shows hva hbody
    rwa [hflag] at hpage

theorem foldl_segments {α : Type} (f : Elf64Phdr → α → α) (o : α) :
    (List.range (elfHeader image).phnum).foldl (fun o i =>
      if (programHeader image i).type = ptLoad ∧ (programHeader image i).memsz ≠ 0 then f (programHeader image i) o
      else o) o = (segments image).foldl (fun o ph => f ph o) o := by
  rw [segments, List.foldl_filter, List.foldl_map]
  simp only [decide_eq_true_eq]

theorem segments_ok
    (hok : (Phys.forEntries (fun p i => p.loadSegment root image (programHeader image i))
      (List.range (elfHeader image).phnum) p).1 = true) {ph : Elf64Phdr} (hph : ph ∈ segments image) :
    segmentOk image.length ph = true ∧ ph.memsz ≠ 0 := by
  rw [segments, List.mem_filter, List.mem_map, decide_eq_true_iff] at hph
  obtain ⟨⟨i, hi, rfl⟩, htype, hmem⟩ := hph
  exact ⟨loadSegments_ok hok hi htype, hmem⟩

theorem loadProgram_shows (hok : (p.loadProgram root image).1 = true) :
    (∀ ph ∈ segments image, segmentOk image.length ph = true ∧ ph.memsz ≠ 0) ∧
      Shows root p (p.loadProgram root image).2 fun v o =>
        (segments image).foldl (fun o ph => ph.protect v o)
          ((segments image).foldl (fun o ph => ph.load image v o) o) := by
  unfold Phys.loadProgram at hok ⊢
  split
  · rename_i h
    rw [if_pos h] at hok
    cases hok
  rename_i h
  rw [if_neg h] at hok
  split
  · rename_i h
    rw [if_pos h] at hok
    cases hok
  rename_i h
  rw [if_neg h] at hok
  have hseg : (Phys.forEntries (fun p i => p.loadSegment root image (programHeader image i))
      (List.range (elfHeader image).phnum) p).1 = true →
        ∀ ph ∈ segments image, segmentOk image.length ph = true ∧ ph.memsz ≠ 0 := fun h ph hph => segments_ok h hph
  have hloaded : (Phys.forEntries (fun p i => p.loadSegment root image (programHeader image i))
      (List.range (elfHeader image).phnum) p).1 = true → _ := forEntries_shows
    (h := fun i v o => if (programHeader image i).type = ptLoad ∧ (programHeader image i).memsz ≠ 0 then
      (programHeader image i).load image v o else o)
    (fun q i _ hq => loadSegment_shows hq)
  generalize Phys.forEntries (fun p i => p.loadSegment root image (programHeader image i))
    (List.range (elfHeader image).phnum) p = r at hok hseg hloaded ⊢
  obtain ⟨_ | _, p₁⟩ := r
  · cases hok
  dsimp only at hok hseg hloaded ⊢
  have hall := hseg rfl
  have hheader : ∀ i ∈ List.range (elfHeader image).phnum, (programHeader image i).type = ptLoad →
      (programHeader image i).memsz ≠ 0 → segmentOk image.length (programHeader image i) = true := fun i hi htype hmem =>
    (hall _ (by
      rw [segments, List.mem_filter, List.mem_map, decide_eq_true_iff]
      exact ⟨⟨i, hi, rfl⟩, htype, hmem⟩)).1
  have hprotected : Shows root p₁ (Phys.forEntries (fun p i => p.protectSegment root (programHeader image i))
      (List.range (elfHeader image).phnum) p₁).2 _ := forEntries_shows
    (h := fun i v o => if (programHeader image i).type = ptLoad ∧ (programHeader image i).memsz ≠ 0 then
      (programHeader image i).protect v o else o)
    (fun q i hi hq => protectSegment_shows (hheader i hi) hq) hok
  refine ⟨hall, ((hloaded rfl).trans hprotected).congr fun v o => ?_⟩
  rw [foldl_segments (fun ph o => ph.load image v o), foldl_segments (fun ph o => ph.protect v o)]

-- ---------------------------------------------------------------------------
-- The view of the image
-- ---------------------------------------------------------------------------

/-- Segments loaded one after the other into a space that has `m` where it has
anything. -/
theorem foldl_load {segs : List Elf64Phdr} (hsegs : ∀ ph ∈ segs, segmentOk image.length ph = true ∧ ph.memsz ≠ 0)
    (v : Nat) (m : Mem) (touched : Bool) (hm : touched = false → m v = 0) :
    segs.foldl (fun o ph => ph.load image v o) (if touched then some (true, m v) else none) =
      if touched || segs.any (·.touches v) then
        some (true, segs.foldl (fun m ph => m.write ph.vaddr (segmentBytes image ph)) m v)
      else none := by
  induction segs generalizing m touched with
  | nil => simp
  | cons ph segs ih =>
    have hlen := length_segmentBytes (hsegs ph List.mem_cons_self).1
    have hrest : ∀ ph' ∈ segs, segmentOk image.length ph' = true ∧ ph'.memsz ≠ 0 := fun ph' hph' =>
      hsegs ph' (List.mem_cons_of_mem _ hph')
    have hstep : ph.load image v (if touched then some (true, m v) else none) =
        if touched || ph.touches v then some (true, m.write ph.vaddr (segmentBytes image ph) v) else none := by
      unfold Elf64Phdr.load onPages writeAt Mem.write
      rw [hlen]
      by_cases htouch : ph.touches v = true
      · have hpage := of_decide_eq_true htouch
        rw [if_pos hpage, htouch, Bool.or_true, if_pos rfl]
        cases touched with
        | true => split <;> rfl
        | false =>
          rw [← hm rfl]
          split <;> rfl
      · have hpage : ¬ (ph.vaddr / 4096 ≤ v / 4096 ∧ v / 4096 * 4096 < ph.vaddr + ph.memsz) := fun h =>
          htouch (decide_eq_true h)
        have hout : ¬ (ph.vaddr ≤ v ∧ v < ph.vaddr + ph.memsz) := by omega
        rw [if_neg hpage, if_neg hout, if_neg hout, Bool.eq_false_of_not_eq_true htouch, Bool.or_false]
    rw [List.foldl_cons, hstep, ih hrest, List.foldl_cons, List.any_cons, Bool.or_assoc]
    intro hfalse
    rw [Bool.or_eq_false_iff] at hfalse
    have hout : ¬ (ph.vaddr ≤ v ∧ v < ph.vaddr + ph.memsz) := by
      have hpage := of_decide_eq_false hfalse.2
      omega
    rw [Mem.write, hlen, if_neg hout]
    exact hm hfalse.1

theorem foldl_protect (segs : List Elf64Phdr) (v : Nat) (o : Option (Bool × UInt8)) :
    segs.foldl (fun o ph => ph.protect v o) o =
      ((segs.filter (·.touches v)).getLast?.elim o fun ph => o.map fun w => (ph.writable, w.2)) := by
  induction segs using List.reverseRecOn with
  | nil => rfl
  | append_singleton segs ph ih =>
    rw [List.foldl_append, ih, List.foldl_cons, List.foldl_nil, List.filter_append, List.filter_cons, List.filter_nil]
    unfold Elf64Phdr.protect onPages
    by_cases htouch : ph.touches v = true
    · rw [if_pos (of_decide_eq_true htouch), if_pos htouch, List.getLast?_concat, Option.elim_some]
      cases (segs.filter (·.touches v)).getLast? with
      | none => rfl
      | some ph' => cases o <;> rfl
    · rw [if_neg fun h => htouch (decide_eq_true h), if_neg htouch, List.append_nil]

theorem any_touches (v : Nat) : (segments image).any (·.touches v) = (touching image v).getLast?.isSome := by
  rw [touching]
  cases h : (segments image).any (·.touches v) with
  | false =>
    rw [List.any_eq_false] at h
    rw [List.filter_eq_nil_iff.mpr h]
    rfl
  | true =>
    rw [List.any_eq_true] at h
    obtain ⟨ph, hph, htouch⟩ := h
    symm
    rw [List.getLast?_isSome, ne_eq, List.filter_eq_nil_iff]
    exact fun hnil => hnil ph hph htouch

theorem loadProgram_view (hs : Sound p root) (hempty : ∀ v < 2 ^ 47, p.userView root v = none)
    (hok : (p.loadProgram root image).1 = true) :
    Sound (p.loadProgram root image).2 root ∧
      ∀ v < 2 ^ 47, (p.loadProgram root image).2.userView root v = imageView image v := by
  obtain ⟨hsegs, hshow⟩ := loadProgram_shows hok
  refine ⟨hshow.sound hs, fun v hv => ?_⟩
  have hload := foldl_load hsegs v (fun _ => 0) false fun _ => rfl
  rw [hshow.view hs v hv, hempty v hv]
  rw [show (none : Option (Bool × UInt8)) = if false = true then some (true, 0) else none from rfl, hload,
    foldl_protect, Bool.false_or, any_touches]
  unfold imageView touching
  cases ((segments image).filter (·.touches v)).getLast? with
  | none => rfl
  | some ph => rfl

theorem touching_range (hsegs : ∀ ph ∈ segments image, segmentOk image.length ph = true ∧ ph.memsz ≠ 0) {v : Nat}
    (h : imageView image v ≠ none) : userMin ≤ v ∧ v < userImageEnd := by
  rw [imageView, ne_eq, Option.map_eq_none_iff, List.getLast?_eq_none_iff, touching, List.filter_eq_nil_iff] at h
  push Not at h
  obtain ⟨ph, hph, htouch⟩ := h
  have hpage := of_decide_eq_true htouch
  obtain ⟨-, -, -, h₄, h₅, h₆⟩ := segmentOk_iff.mp (hsegs ph hph).1
  unfold userMin userImageEnd at *
  omega

/-- An image loaded into an empty space: outside the stack there is the image. -/
theorem loadImage_view (hs : Sound p root) (hempty : ∀ v < 2 ^ 47, p.userView root v = none) {r : Nat × Nat}
    (h : (p.loadImage root image argv envp).1 = some r) :
    (∀ ph ∈ segments image, segmentOk image.length ph = true ∧ ph.memsz ≠ 0) ∧
      ∀ v < 2 ^ 47, ¬ (userStackBottom ≤ v ∧ v < userStackTop) →
        (p.loadImage root image argv envp).2.userView root v = imageView image v := by
  rw [loadImage_eq] at h ⊢
  have hprogram : (p.loadProgram root image).1 = true → _ := loadProgram_view hs hempty
  have hsegs : (p.loadProgram root image).1 = true → _ := fun h => (loadProgram_shows h).1
  generalize p.loadProgram root image = q at h hprogram hsegs ⊢
  obtain ⟨_ | _, q⟩ := q
  · cases h
  obtain ⟨hs', hview⟩ := hprogram rfl
  dsimp only at h hs' hview ⊢
  rw [Option.map_eq_some_iff] at h
  obtain ⟨sp, hsp, -⟩ := h
  refine ⟨hsegs rfl, fun v hv hout => ?_⟩
  have hguard : ∀ v, userStackBottom ≤ v + 4096 → v < userStackBottom → q.userView root v = none := fun v h₁ h₂ => by
    rw [hview v (h₂.trans (by decide))]
    by_contra hne
    have hrange := (touching_range (hsegs rfl) hne).2
    unfold userImageEnd at hrange
    unfold userStackBottom userStackTop userStackSize at h₁
    omega
  obtain ⟨-, hrest⟩ := buildStack_outside hs' hguard hsp
  rw [hrest v hv hout, hview v hv]

-- ---------------------------------------------------------------------------
-- From the file system
-- ---------------------------------------------------------------------------

structure Vfs.Stores (s : Vfs) (path : CString) (image : List UInt8) (node : Ptr) : Prop where
  lookup : s.lookup path.bytes = .ok node
  type : (s.node node).type = .reg
  linked : (s.node node).linked = true
  size : (s.node node).size ≤ vfsFileMax
  contents : s.contents node = image

def Vfs.reopened (s : Vfs) (node : Ptr) : Vfs :=
  (s.modify node fun v => { v with refs := (v.refs + 1) % 2 ^ 32 }).dropRef node

theorem vfsOpen_stores {s : Vfs} {path : CString} {node : Ptr} (h : s.Stores path image node) :
    s.vfsOpen path 1 = (.ok, some ⟨some node, 0, 1⟩, s.modify node fun v => { v with refs := (v.refs + 1) % 2 ^ 32 }) := by
  unfold Vfs.vfsOpen
  rw [h.lookup]
  rfl

theorem vfsRead_node {s : Vfs} {file : File} {node : Ptr} (hn : file.node = some node) (length : Nat) :
    (s.vfsRead file length).2.node = some node := by
  unfold Vfs.vfsRead
  rw [hn]
  dsimp only
  split
  · exact hn
  split
  · exact hn
  · rfl

theorem vfsClose_linked {s : Vfs} {file : File} {node : Ptr} (hn : file.node = some node)
    (hlinked : ((s.dropRef node).node node).linked = true) : (s.vfsClose file).2 = s.dropRef node := by
  unfold Vfs.vfsClose
  rw [hn]
  dsimp only
  rw [if_neg fun h => h.1 hlinked]

theorem load_stores {s : Vfs} {path : CString} {node : Ptr} (h : s.Stores path image node) (hargv : argv ≠ []) :
    load s root path argv envp = ((s.phys.loadImage root image argv envp).1,
      { s.reopened node with phys := (s.phys.loadImage root image argv envp).2 }) := by
  have hself : ∀ f : Vnode → Vnode, (s.modify node f).node node = f (s.node node) := fun f => Function.update_self ..
  have hopened : ((s.modify node fun v => { v with refs := (v.refs + 1) % 2 ^ 32 }).node node) =
      { s.node node with refs := ((s.node node).refs + 1) % 2 ^ 32 } := hself _
  have hcontents : (s.modify node fun v => { v with refs := (v.refs + 1) % 2 ^ 32 }).contents node = image := by
    rw [← h.contents]
    unfold Vfs.contents Vfs.byteAt Vfs.raw Vfs.slot
    rw [hopened]
    rfl
  have hphys : (s.reopened node).phys = s.phys := by
    unfold Vfs.reopened Vfs.dropRef
    split <;> rfl
  have hclose : ∀ file : File, file.node = some node →
      ((s.modify node fun v => { v with refs := (v.refs + 1) % 2 ^ 32 }).vfsClose file).2 = s.reopened node :=
    fun file hn => vfsClose_linked hn ((Vfs.dropRef_sameTree.node node).linked.trans (by rw [hopened]; exact h.linked))
  unfold load
  rw [if_neg hargv, vfsOpen_stores h]
  dsimp only
  generalize hs₁ : (s.modify node fun v => { v with refs := (v.refs + 1) % 2 ^ 32 }) = s₁ at *
  have htype : (s₁.node node).type = .reg := by rw [hopened]; exact h.type
  have hsize : (s₁.node node).size = image.length := by rw [← hcontents, Vfs.length_contents]
  have hle : (s₁.node node).size ≤ vfsFileMax := by rw [hopened]; exact h.size
  rw [if_neg (by rw [not_or]; exact ⟨not_not.mpr htype, Nat.not_lt.mpr hle⟩)]
  have hread : (s₁.vfsRead ⟨some node, 0, 1⟩ image.length).1 = some image := by
    have hreads : s₁.ReadsArray node (s₁.contents node) 0 image.length := .inr (.inl rfl)
    have hflag : (⟨some node, 0, 1⟩ : File).flags.read = true := by
      show Nat.testBit 1 0 = true
      decide
    rw [(Vfs.vfsRead_iff rfl htype hflag _).mpr hreads, hcontents]
    exact congrArg some (List.take_length ..)
  have hnode : (s₁.vfsRead ⟨some node, 0, 1⟩ image.length).2.node = some node := vfsRead_node rfl _
  rw [hsize]
  generalize s₁.vfsRead ⟨some node, 0, 1⟩ image.length = r at hread hnode ⊢
  obtain ⟨bytes, file⟩ := r
  dsimp only at hread hnode ⊢
  rw [hread]
  dsimp only
  rw [if_neg (not_not.mpr rfl), hclose file hnode, hphys]

/-- In every run of calls on file contents, a path to a regular file leads to its
array. -/
theorem Session.Refines.stores {s : Session} {a : Ptr → List UInt8} (h : s.Refines a) {path : CString} {node : Ptr}
    (hl : s.vfs.lookup path.bytes = .ok node) (htype : (s.vfs.node node).type = .reg) :
    s.vfs.Stores path (a node) node := by
  obtain ⟨kids, ht⟩ := h.tree
  have hlinked := ht.lookup_linked hl
  have hlive := ht.live hlinked
  exact ⟨hl, htype, hlinked, (h.filled node hlive).size, h.contents node hlive⟩

theorem Phys.Avail.create_empty {A : Multiset Nat} (hA : p.Avail A) {cr3 : Nat}
    (hr : (p.vmmSpaceCreate cr3).1 = some root) :
    Sound (p.vmmSpaceCreate cr3).2 root ∧ ∀ v < 2 ^ 47, (p.vmmSpaceCreate cr3).2.userView root v = none := by
  refine ⟨hA.sound_create hr, fun v hv => ?_⟩
  rcases hA.vmmSpaceCreate cr3 with ⟨hnone, -⟩ | ⟨root', B, hsome, -, -, hsp, -⟩
  · rw [hnone] at hr
    cases hr
  · obtain rfl : root' = root := Option.some.inj (hsome.symm.trans hr)
    rw [hsp.userView (userHalf_of_lt hv)]
    exact treeView_none rfl

-- ---------------------------------------------------------------------------
-- Permissions
-- ---------------------------------------------------------------------------

def Writable (p : Phys) (root v : Nat) : Prop := ∃ b, p.userView root v = some (true, b)

/-- A page of the image can be written exactly when one of its segments is to be
written; then every byte of such a segment can. -/
structure PermissionsMet (p : Phys) (root : Nat) (image : List UInt8) : Prop where
  page : ∀ v, touching image v ≠ [] → (Writable p root v ↔ ∃ ph ∈ touching image v, ph.writable = true)
  segment : ∀ ph ∈ segments image, ph.writable = true → ∀ v, ph.vaddr ≤ v → v < ph.vaddr + ph.memsz → Writable p root v

/-- On every page with a segment to be written, the last segment is one. -/
def LastWritable (image : List UInt8) : Prop :=
  ∀ v, (∃ ph ∈ touching image v, ph.writable = true) → ∀ ph ∈ (touching image v).getLast?, ph.writable = true

theorem load_permissions_iff {s : Vfs} {path : CString} {node : Ptr} (hstores : s.Stores path image node)
    (hs : Sound s.phys root) (hempty : ∀ v < 2 ^ 47, s.phys.userView root v = none) {entry sp : Nat}
    (hload : (load s root path argv envp).1 = some (entry, sp)) :
    PermissionsMet (load s root path argv envp).2.phys root image ↔ LastWritable image := by
  have hargv : argv ≠ [] := by
    rintro rfl
    cases hload
  rw [load_stores hstores hargv] at hload ⊢
  obtain ⟨hsegs, hview⟩ := loadImage_view hs hempty hload
  dsimp only at hview ⊢
  generalize (s.phys.loadImage root image argv envp).2 = p at hview ⊢
  -- the pages of the image have the permission of their last segment
  have hlast : ∀ v ph, (touching image v).getLast? = some ph → (Writable p root v ↔ ph.writable = true) :=
    fun v ph hph => by
      have hsome : imageView image v = some (ph.writable, imageMemory image v) := by rw [imageView, hph, Option.map_some]
      have hrange := touching_range hsegs (by rw [hsome]; exact Option.some_ne_none _)
      rw [Writable, hview v (by unfold userImageEnd at hrange; omega)
        (by unfold userImageEnd userStackBottom userStackTop userStackSize at *; omega), hsome]
      constructor
      · rintro ⟨b, hb⟩
        exact congrArg Prod.fst (Option.some.inj hb)
      · intro hw
        exact ⟨_, by rw [hw]⟩
  have hsome : ∀ v, touching image v ≠ [] → ∃ ph, (touching image v).getLast? = some ph := fun v hne =>
    ⟨_, List.getLast?_eq_some_getLast hne⟩
  constructor
  · rintro ⟨hpage, -⟩ v hex ph hph
    have hne : touching image v ≠ [] := fun hnil => by
      obtain ⟨ph', hph', -⟩ := hex
      rw [hnil] at hph'
      cases hph'
    exact (hlast v ph hph).mp ((hpage v hne).mpr hex)
  · intro h
    have hpage : ∀ v, touching image v ≠ [] → (Writable p root v ↔ ∃ ph ∈ touching image v, ph.writable = true) :=
      fun v hne => by
        obtain ⟨ph, hph⟩ := hsome v hne
        rw [hlast v ph hph]
        exact ⟨fun hw => ⟨ph, List.mem_of_getLast? hph, hw⟩, fun hex => h v hex ph hph⟩
    refine ⟨hpage, fun ph hph hw v h₁ h₂ => ?_⟩
    have htouch : ph ∈ touching image v :=
      List.mem_filter.mpr ⟨hph, (Elf64Phdr.touches_iff (hsegs ph hph).2 v).mpr ⟨v, h₁, h₂, rfl⟩⟩
    exact (hpage v (List.ne_nil_of_mem htouch)).mpr ⟨ph, htouch, hw⟩

def twoSegments (first second : Nat) : List UInt8 :=
  [0x7f, 69, 76, 70, 2, 1, 1, 0, 0, 0, 0, 0, 0, 0, 0, 0] ++ toLE 2 etExec ++ toLE 2 archElfMachine ++
    toLE 4 1 ++ toLE 8 userMin ++ toLE 8 64 ++ toLE 8 0 ++ toLE 4 0 ++ toLE 2 64 ++ toLE 2 56 ++
    toLE 2 2 ++ toLE 2 0 ++ toLE 2 0 ++ toLE 2 0 ++
  (toLE 4 ptLoad ++ toLE 4 first ++ toLE 8 0 ++ toLE 8 userMin ++ toLE 8 userMin ++ toLE 8 176 ++
    toLE 8 176 ++ toLE 8 4096) ++
  (toLE 4 ptLoad ++ toLE 4 second ++ toLE 8 0 ++ toLE 8 (userMin + 256) ++ toLE 8 (userMin + 256) ++ toLE 8 0 ++
    toLE 8 16 ++ toLE 8 16)

example : (segments (twoSegments 4 6)).length = 2 := by decide +kernel

def aPath : CString := ⟨[47, 97], CString.noNul_slash_a⟩

def writtenFile (map : List MemmapEntry) (image : List UInt8) : Session × (Ptr → List UInt8) :=
  Session.replay [.openPath 0 aPath 7, .write 0 image, .close 0]
    (Session.start (Session.emptyBoot [some 3, some 4] (mmInit map (fun _ => 0) [])),
      (Session.emptyBoot [some 3, some 4] (mmInit map (fun _ => 0) [])).payload)

def execVfs (map : List MemmapEntry) (image : List UInt8) : Vfs :=
  let s := (writtenFile map image).1.vfs
  { s with phys := (s.phys.vmmSpaceCreate 0).2 }

theorem execVfs_space {map : List MemmapEntry} (hmap : MemmapOk map)
    (hr : ((writtenFile map image).1.vfs.phys.vmmSpaceCreate 0).1 = some root) :
    Sound (execVfs map image).phys root ∧ ∀ v < 2 ^ 47, (execVfs map image).phys.userView root v = none := by
  have hrun : Session.ArrayRun (Session.emptyBoot [some 3, some 4] (mmInit map (fun _ => 0) [])) (writtenFile map image).1
      (writtenFile map image).2 := Session.ArrayRun.start.replay (by simp [FsCall.onContents])
  have hrefines := hrun.refines (Session.refines_start (Phys.avail_mmInit hmap) (Session.vfsInit_emptyBoot _ _))
  obtain ⟨A, hA⟩ := hrefines.frames
  exact hA.avail.create_empty hr

theorem execVfs_stores {map : List MemmapEntry}
    (hlookup : (execVfs map image).lookup aPath.bytes = .ok 3)
    (hnode : ((execVfs map image).node 3).type = .reg ∧ ((execVfs map image).node 3).linked = true)
    (hsize : image.length ≤ vfsFileMax) (hcontents : (execVfs map image).contents 3 = image) :
    (execVfs map image).Stores aPath image 3 :=
  ⟨hlookup, hnode.1, hnode.2, by rwa [← hcontents, Vfs.length_contents] at hsize, hcontents⟩

/-- A file on which the last segment is to be written, found by `load`. -/
theorem execVfs_ready : (execVfs loaderMap (twoSegments 4 6)).Stores aPath (twoSegments 4 6) 3 ∧
    Sound (execVfs loaderMap (twoSegments 4 6)).phys 0x101000 ∧
    (∀ v < 2 ^ 47, (execVfs loaderMap (twoSegments 4 6)).phys.userView 0x101000 v = none) ∧
    (load (execVfs loaderMap (twoSegments 4 6)) 0x101000 aPath [aPath] []).1 = some (0x400000, 0x7fffff40) := by
  have hroot : ((writtenFile loaderMap (twoSegments 4 6)).1.vfs.phys.vmmSpaceCreate 0).1 = some 0x101000 := by decide +kernel
  have hspace := execVfs_space loaderMap_ok hroot
  exact ⟨execVfs_stores (by decide +kernel) (by decide +kernel) (by decide +kernel) (by decide +kernel),
    hspace.1, hspace.2, by decide +kernel⟩

example : imageView (twoSegments 4 6) userMin = some (true, 0x7f) := by decide +kernel

/-- The page is read only after the second segment, and the first is to be written. -/
theorem load_permissions_lost : ¬ ∀ (s : Vfs) path image node argv envp root entry sp,
    s.Stores path image node → Sound s.phys root → (∀ v < 2 ^ 47, s.phys.userView root v = none) →
    (load s root path argv envp).1 = some (entry, sp) →
    PermissionsMet (load s root path argv envp).2.phys root image := by
  intro h
  have hroot : ((writtenFile loaderMap (twoSegments 6 4)).1.vfs.phys.vmmSpaceCreate 0).1 = some 0x101000 := by decide +kernel
  have hspace := execVfs_space loaderMap_ok hroot
  have hmet := h (execVfs loaderMap (twoSegments 6 4)) aPath (twoSegments 6 4) 3 [aPath] [] 0x101000 0x400000 0x7fffff40
    (execVfs_stores (by decide +kernel) (by decide +kernel) (by decide +kernel) (by decide +kernel)) hspace.1 hspace.2
    (by decide +kernel)
  obtain ⟨b, hb⟩ := hmet.segment (programHeader (twoSegments 6 4) 0) (by decide +kernel) (by decide +kernel) 0x400000
    (by decide +kernel) (by decide +kernel)
  have hflag : ((load (execVfs loaderMap (twoSegments 6 4)) 0x101000 aPath [aPath] []).2.phys.userView 0x101000
      0x400000).map Prod.fst = some true := by
    rw [hb]
    rfl
  revert hflag
  decide +kernel

theorem load_permissions_kept :
    PermissionsMet (load (execVfs loaderMap (twoSegments 4 6)) 0x101000 aPath [aPath] []).2.phys 0x101000
      (twoSegments 4 6) := by
  obtain ⟨hstores, hs, hempty, hload⟩ := execVfs_ready
  refine (load_permissions_iff hstores hs hempty hload).mpr ?_
  have hsegs : segments (twoSegments 4 6) =
      [⟨ptLoad, 4, 0, userMin, 176, 176⟩, ⟨ptLoad, 6, 0, userMin + 256, 0, 16⟩] := by decide +kernel
  intro v hex ph hph
  rw [touching, hsegs, List.filter_cons, List.filter_cons, List.filter_nil] at hex hph
  by_cases htouch : (⟨ptLoad, 6, 0, userMin + 256, 0, 16⟩ : Elf64Phdr).touches v = true
  · rw [if_pos htouch] at hph
    split at hph
    · cases hph
      rfl
    · cases hph
      rfl
  · have hfirst : ¬ (⟨ptLoad, 4, 0, userMin, 176, 176⟩ : Elf64Phdr).touches v = true := fun h => by
      have hpage := of_decide_eq_true h
      refine htouch (decide_eq_true ?_)
      unfold userMin at *
      dsimp only at hpage ⊢
      omega
    rw [if_neg htouch, if_neg hfirst] at hph
    cases hph

end NarcOs
