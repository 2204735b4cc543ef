import NarcOs.Fs.InitLaws
import NarcOs.Kernel.Task
import NarcOs.Kernel.UserView

/-!
# Reading a directory from user mode

`copy_to_user` and `handle_read_dir` of `kernel/syscall.c`. The call reads one
entry into a structure on its stack and copies it out as a whole. Two things
follow from the order of the steps: bytes that `vfs_readdir` did not write go
out with the others, and the position has moved when the copy fails.
-/

namespace NarcOs

inductive ReadDirError
  | badHandle
  | notDirectory
  | ioError
  | badAddress
  deriving DecidableEq

def narcNameMax : Nat := 64
def narcFileRegular : Nat := 1
def narcFileDirectory : Nat := 2
def sizeofDirEntry : Nat := 80

/-- What the stack holds where `handle_read_dir` puts its `struct vfs_dirent`. -/
structure DirentStack where
  source : VfsDirent
  length : source.name.length = vfsNameMax

/-- The bytes of the `narc_dir_entry_t`; the reserved ones are cleared. -/
def dirEntryBytes (source : VfsDirent) : List UInt8 :=
  toLE 8 source.ino ++ [UInt8.ofNat (if source.type = .dir then narcFileDirectory else narcFileRegular)] ++
    source.name.take narcNameMax ++ List.replicate 7 0

/-- `copy_to_user`; the loop is that of `copy_out`. -/
def Phys.copyToUser (p : Phys) (root dst : Nat) (bytes : List UInt8) : Bool × Phys :=
  if ¬ p.vmmUserRangeOk root dst bytes.length true then (false, p)
  else Phys.copyOut root bytes.length dst bytes p

namespace Kernel

def taskFdFile (k : Kernel) (fd : Int32) : Option Ptr :=
  (k.fdGet fd).filter fun f => (k.openFile f).type = .vfs

def taskFdValid (k : Kernel) (fd : Int32) : Bool := (k.fdGet fd).isSome

def setFile (k : Kernel) (f : Ptr) (file : File) : Kernel :=
  { k with openFile := Function.update k.openFile f { k.openFile f with file := file } }

def handleReadDir (k : Kernel) (stack : DirentStack) (fd address : Nat) : Except ReadDirError Nat × Kernel :=
  match k.taskFdFile (Int32.ofNat fd) with
  | none => (.error (if k.taskFdValid (Int32.ofNat fd) then .notDirectory else .badHandle), k)
  | some f =>
    match (k.openFile f).file.node with
    | none => (.error .notDirectory, k)
    | some node =>
      if (k.vfs.node node).type ≠ .dir then (.error .notDirectory, k)
      else
        let (result, file, source) := k.vfs.vfsReaddir (k.openFile f).file stack.source
        let k := k.setFile f file
        if result < 0 then (.error .ioError, k)
        else if result = 0 then (.ok 0, k)
        else
          match k.phys.copyToUser k.cr3 address (dirEntryBytes source) with
          | (false, phys) => (.error .badAddress, k.setPhys phys)
          | (true, phys) => (.ok 1, k.setPhys phys)

end Kernel

-- ---------------------------------------------------------------------------
-- The copy
-- ---------------------------------------------------------------------------

variable {p : Phys} {root : Nat}

/-- A range that `vmm_user_range_ok` accepts for writing is there and writable. -/
theorem vmmUserRangeOk_view {virt len : Nat} (h : p.vmmUserRangeOk root virt len true = true) (hlen : 0 < len) :
    virt + len ≤ 2 ^ 47 ∧ ∀ v, virt ≤ v → v < virt + len → (p.userView root v).isSome := by
  unfold Phys.vmmUserRangeOk at h
  rw [if_neg (by omega)] at h
  split at h
  · cases h
  split at h
  · cases h
  refine ⟨by omega, fun v h₁ h₂ => ?_⟩
  rw [List.all_eq_true] at h
  have hk := h (v / 4096 - virt / 4096) (by
    rw [List.mem_range]
    unfold alignDown pageSize
    omega)
  have hva : alignDown virt + pageSize * (v / 4096 - virt / 4096) = v / 4096 * 4096 := by
    unfold alignDown pageSize
    omega
  rw [hva, presentPte_page] at hk
  cases hpte : p.presentPte root v with
  | none =>
    rw [hpte] at hk
    cases hk
  | some entry =>
    rw [hpte] at hk
    simp only [Bool.not_true, Bool.false_or, Bool.and_eq_true] at hk
    unfold Phys.userView
    rw [hpte]
    simp only [hk.1, if_true]
    rfl

theorem copyToUser_ok (hs : Sound p root) {dst : Nat} {bytes : List UInt8} (hpos : 0 < bytes.length) :
    (p.copyToUser root dst bytes).1 = p.vmmUserRangeOk root dst bytes.length true := by
  unfold Phys.copyToUser
  cases hr : p.vmmUserRangeOk root dst bytes.length true with
  | false => rfl
  | true =>
    obtain ⟨hend, hall⟩ := vmmUserRangeOk_view hr hpos
    exact copyOut_ok bytes.length hend hs hall

theorem copyToUser_shows {dst : Nat} {bytes : List UInt8} (hpos : 0 < bytes.length)
    (hok : (p.copyToUser root dst bytes).1 = true) :
    Shows root p (p.copyToUser root dst bytes).2 (writeAt dst bytes) := by
  unfold Phys.copyToUser at hok ⊢
  cases hr : p.vmmUserRangeOk root dst bytes.length true with
  | false =>
    rw [hr] at hok
    cases hok
  | true =>
    rw [hr] at hok
    exact copyOut_shows bytes.length (vmmUserRangeOk_view hr hpos).1 le_rfl hok

-- ---------------------------------------------------------------------------
-- The call
-- ---------------------------------------------------------------------------

namespace Kernel

variable {k : Kernel} {fd address : Nat} {f child : Ptr}

structure NextEntry (k : Kernel) (fd : Nat) (f child : Ptr) : Prop where
  file : k.taskFdFile (Int32.ofNat fd) = some f
  entry : ∃ node, (k.openFile f).file.node = some node ∧ (k.vfs.node node).type = .dir ∧
    (k.vfs.entries node)[(k.openFile f).file.offset]? = some child

def entryName (k : Kernel) (stack : DirentStack) (child : Ptr) : List UInt8 :=
  (k.vfs.node child).name ++ 0 :: stack.source.name.drop ((k.vfs.node child).name.length + 1)

def entryBytes (k : Kernel) (stack : DirentStack) (child : Ptr) : List UInt8 :=
  dirEntryBytes ⟨(k.vfs.node child).ino, (k.vfs.node child).type, k.entryName stack child⟩

theorem length_entryBytes (k : Kernel) (stack : DirentStack) (child : Ptr) :
    (k.entryBytes stack child).length = sizeofDirEntry := by
  have hlen := stack.length
  simp only [entryBytes, dirEntryBytes, entryName, List.length_append, length_toLE, List.length_take,
    List.length_cons, List.length_drop, List.length_replicate, List.length_nil, narcNameMax, vfsNameMax,
    sizeofDirEntry] at hlen ⊢
  omega

theorem setFile_self (k : Kernel) (f : Ptr) : k.setFile f (k.openFile f).file = k := by
  unfold setFile
  rw [Function.update_eq_self]

theorem handleReadDir_none (h : ¬ ∃ f child, k.NextEntry fd f child) :
    ∃ r, ∀ stack address, k.handleReadDir stack fd address = (r, k) := by
  unfold handleReadDir
  cases hf : k.taskFdFile (Int32.ofNat fd) with
  | none => exact ⟨_, fun _ _ => rfl⟩
  | some f =>
    cases hn : (k.openFile f).file.node with
    | none => exact ⟨.error .notDirectory, fun _ _ => by simp only [hn]⟩
    | some node =>
      by_cases hdir : (k.vfs.node node).type = .dir
      · have hnone : (k.vfs.entries node)[(k.openFile f).file.offset]? = none := by
          by_contra hne
          obtain ⟨child, hc⟩ := Option.ne_none_iff_exists'.mp hne
          exact h ⟨f, child, hf, node, hn, hdir, hc⟩
        refine ⟨.ok 0, fun stack address => ?_⟩
        simp only [hn, hdir, ne_eq, not_true_eq_false, if_false, Vfs.vfsReaddir, hnone, lt_irrefl, if_true,
          setFile_self]
      · exact ⟨.error .notDirectory, fun _ _ => by simp only [hn, hdir, ne_eq, not_false_eq_true, if_true]⟩

/-- Where there is one, the position moves and the structure is copied out. -/
theorem handleReadDir_some (h : k.NextEntry fd f child) (stack : DirentStack) (address : Nat) :
    k.handleReadDir stack fd address =
      (if (k.phys.copyToUser k.cr3 address (k.entryBytes stack child)).1 then .ok 1 else .error .badAddress,
        (k.setFile f { (k.openFile f).file with offset := wrap64 ((k.openFile f).file.offset + 1) }).setPhys
          (k.phys.copyToUser k.cr3 address (k.entryBytes stack child)).2) := by
  obtain ⟨hf, node, hn, hdir, hc⟩ := h
  have hphys : ∀ file, (k.setFile f file).phys = k.phys := fun _ => rfl
  have hcr3 : ∀ file, (k.setFile f file).cr3 = k.cr3 := fun _ => rfl
  unfold handleReadDir
  simp only [hf, hn, hdir, ne_eq, not_true_eq_false, if_false, Vfs.vfsReaddir, hc, hphys, hcr3]
  rw [if_neg (by decide), if_neg (by decide), ← entryName, ← entryBytes]
  rcases k.phys.copyToUser k.cr3 address (k.entryBytes stack child) with ⟨_ | _, q⟩ <;> rfl

def Undisclosed (k : Kernel) (fd address : Nat) : Prop :=
  ∀ stack stack' root v, (k.handleReadDir stack fd address).2.phys.userView root v =
    (k.handleReadDir stack' fd address).2.phys.userView root v

def Discloses (k : Kernel) (fd address : Nat) : Prop :=
  ∃ f child, k.NextEntry fd f child ∧ (k.vfs.node child).name.length + 1 < vfsNameMax ∧
    k.phys.vmmUserRangeOk k.cr3 address sizeofDirEntry true = true

theorem entryBytes_full {stack stack' : DirentStack} (h : vfsNameMax ≤ (k.vfs.node child).name.length + 1) :
    k.entryBytes stack child = k.entryBytes stack' child := by
  have hdrop : ∀ st : DirentStack, st.source.name.drop ((k.vfs.node child).name.length + 1) = [] := fun st =>
    List.drop_eq_nil_of_le (by rw [st.length]; exact h)
  unfold entryBytes entryName
  rw [hdrop, hdrop]

def fill (byte : UInt8) : DirentStack where
  source := ⟨0, .reg, List.replicate vfsNameMax byte⟩
  length := List.length_replicate

theorem entryBytes_fill (h : (k.vfs.node child).name.length + 1 < vfsNameMax) (byte d : UInt8) :
    (k.entryBytes (fill byte) child).getD (9 + ((k.vfs.node child).name.length + 1)) d = byte := by
  set n := (k.vfs.node child).name.length with hn
  have hmax : vfsNameMax = 64 := rfl
  have hname : ((k.entryName (fill byte) child).take narcNameMax)[n + 1]? = some byte := by
    rw [List.getElem?_take_of_lt (show n + 1 < narcNameMax from h), entryName, List.getElem?_append_right (by omega), ← hn,
      show n + 1 - n = 1 by omega, List.getElem?_cons_succ, List.getElem?_drop, fill,
      List.getElem?_replicate_of_lt (by omega)]
  rw [List.getD_eq_getElem?_getD, entryBytes, dirEntryBytes, List.append_assoc,
    List.getElem?_append_right (by simp), List.length_append, length_toLE, List.length_singleton,
    show 9 + (n + 1) - (8 + 1) = n + 1 by omega, List.getElem?_append_left, hname]
  · rfl
  · simp only [entryName, List.length_take, List.length_append, List.length_cons, List.length_drop, fill,
      List.length_replicate, narcNameMax]
    omega

def rootReader : Kernel where
  vfs := { ((Session.emptyBoot [some 3, some 4] imageTask).vfsMkdir ⟨[47, 97], CString.noNul_slash_a⟩ 0o755).2 with
    phys := imageTask }
  cr3 := 0x100000
  heap := []
  taskList := [20]
  task := fun _ => { pid := 1, state := .runnable, space := 0x100000, fds := [none, none, none, some 10] }
  nextPid := 2
  current := 20
  files := [10]
  openFile := fun _ => { refs := 1, type := .vfs, file := ⟨some 1, 0, 1⟩ }
  pipes := []
  pipe := fun _ => {}

theorem rootReader_sound : Sound rootReader.phys rootReader.cr3 := by
  dsimp only [rootReader, phys]
  exact imageTask_sound

theorem handleReadDir_undisclosed_iff (k : Kernel) (fd address : Nat) (hs : Sound k.phys k.cr3) :
    k.Undisclosed fd address ↔ ¬ k.Discloses fd address := by
  constructor
  · rintro h ⟨f, child, hnext, hshort, hrange⟩
    have hmax : vfsNameMax = 64 := rfl
    have hsize : sizeofDirEntry = 80 := rfl
    obtain ⟨hend, hall⟩ := vmmUserRangeOk_view hrange (by decide)
    set v := address + (9 + ((k.vfs.node child).name.length + 1)) with hv
    obtain ⟨w, hw⟩ := Option.isSome_iff_exists.mp (hall v (by omega) (by omega))
    -- the byte at `v` is the stack's
    have hbyte : ∀ byte, (k.handleReadDir (fill byte) fd address).2.phys.userView k.cr3 v = some (w.1, byte) := by
      intro byte
      have hlen := k.length_entryBytes (fill byte) child
      have hok : (k.phys.copyToUser k.cr3 address (k.entryBytes (fill byte) child)).1 = true := by
        rw [copyToUser_ok hs (by omega), hlen, hrange]
      have hview := (copyToUser_shows (by omega) hok).view hs
      rw [handleReadDir_some hnext]
      show (k.phys.copyToUser k.cr3 address (k.entryBytes (fill byte) child)).2.userView k.cr3 v = _
      rw [hview v (by omega), hw, writeAt, if_pos (by omega), Option.map_some, hv, Nat.add_sub_cancel_left,
        entryBytes_fill hshort]
    have heq := h (fill 0) (fill 1) k.cr3 v
    rw [hbyte, hbyte] at heq
    simp at heq
  · intro h stack stack' root v
    by_cases hnext : ∃ f child, k.NextEntry fd f child
    · obtain ⟨f, child, hnext⟩ := hnext
      rw [handleReadDir_some hnext, handleReadDir_some hnext]
      by_cases hfull : vfsNameMax ≤ (k.vfs.node child).name.length + 1
      · rw [entryBytes_full hfull]
      · have hrange : k.phys.vmmUserRangeOk k.cr3 address sizeofDirEntry true = false := by
          rw [← Bool.not_eq_true]
          exact fun hr => h ⟨f, child, hnext, not_le.mp hfull, hr⟩
        have hsame : ∀ st : DirentStack, k.phys.copyToUser k.cr3 address (k.entryBytes st child) =
            (false, k.phys) := fun st => by
          unfold Phys.copyToUser
          rw [length_entryBytes, hrange]
          rfl
        rw [hsame, hsame]
    · obtain ⟨r, hr⟩ := handleReadDir_none hnext
      rw [hr, hr]

theorem zero_notMem_longPath : (0 : UInt8) ∉ (47 :: List.replicate 63 98 : List UInt8) := by
  simp

def longPath : CString := ⟨47 :: List.replicate 63 98, zero_notMem_longPath⟩

def longReader : Kernel := { rootReader with
  vfs := { ((Session.emptyBoot [some 3, some 4] imageTask).vfsMkdir longPath 0o755).2 with phys := imageTask } }

theorem longReader_sound : Sound longReader.phys longReader.cr3 := by
  dsimp only [longReader, phys]
  exact imageTask_sound

theorem handleReadDir_undisclosed_long : longReader.Undisclosed 3 0x400000 ∧
    (longReader.handleReadDir (fill 0) 3 0x400000).1 = .ok 1 := by
  refine ⟨(handleReadDir_undisclosed_iff longReader 3 0x400000 longReader_sound).mpr ?_, by decide +kernel⟩
  rintro ⟨f, child, hnext, hshort, -⟩
  obtain ⟨node, hn, -, hc⟩ := hnext.entry
  have hroot : node = 1 := (Option.some.inj hn).symm
  have hfirst : (longReader.vfs.entries 1)[0]? = some 3 := by decide +kernel
  rw [hroot] at hc
  rw [← Option.some.inj (hfirst.symm.trans hc)] at hshort
  revert hshort
  decide +kernel

/-- The name `a` takes two bytes of the array; the third is the stack's. -/
theorem handleReadDir_discloses : ¬ rootReader.Undisclosed 3 0x400000 := by
  intro h
  have hbyte := h (fill 0) (fill 1) 0x100000 0x40000b
  revert hbyte
  decide +kernel

def KeepsPosition (k : Kernel) (fd address : Nat) : Prop :=
  ∀ stack e, (k.handleReadDir stack fd address).1 = .error e →
    ∀ f, ((k.handleReadDir stack fd address).2.openFile f).file = (k.openFile f).file

def LosesEntry (k : Kernel) (fd address : Nat) : Prop :=
  (∃ f child, k.NextEntry fd f child) ∧ k.phys.vmmUserRangeOk k.cr3 address sizeofDirEntry true = false

theorem wrap64_succ_ne (n : Nat) : wrap64 (n + 1) ≠ n := by
  unfold wrap64
  omega

theorem handleReadDir_keepsPosition_iff (k : Kernel) (fd address : Nat) (hs : Sound k.phys k.cr3) :
    k.KeepsPosition fd address ↔ ¬ k.LosesEntry fd address := by
  have hok : ∀ stack child, (k.phys.copyToUser k.cr3 address (k.entryBytes stack child)).1 =
      k.phys.vmmUserRangeOk k.cr3 address sizeofDirEntry true := fun stack child => by
    have hlen := k.length_entryBytes stack child
    rw [copyToUser_ok hs (by rw [hlen]; decide), hlen]
  constructor
  · rintro h ⟨⟨f, child, hnext⟩, hrange⟩
    have hcall := handleReadDir_some hnext (fill 0) address
    rw [hok, hrange] at hcall
    have hpos := h (fill 0) .badAddress (by rw [hcall]; rfl) f
    rw [hcall] at hpos
    have hset : ((((k.setFile f { (k.openFile f).file with
        offset := wrap64 ((k.openFile f).file.offset + 1) }).setPhys
          (k.phys.copyToUser k.cr3 address (k.entryBytes (fill 0) child)).2).openFile f).file).offset =
        wrap64 ((k.openFile f).file.offset + 1) := by
      show (Function.update k.openFile f _ f).file.offset = _
      rw [Function.update_self]
    rw [hpos] at hset
    exact wrap64_succ_ne _ hset.symm
  · intro h stack e he g
    by_cases hnext : ∃ f child, k.NextEntry fd f child
    · obtain ⟨f, child, hnext⟩ := hnext
      rw [handleReadDir_some hnext, hok] at he
      cases hr : k.phys.vmmUserRangeOk k.cr3 address sizeofDirEntry true with
      | false => exact absurd ⟨⟨f, child, hnext⟩, hr⟩ h
      | true =>
        rw [hr] at he
        cases he
    · obtain ⟨r, hr⟩ := handleReadDir_none hnext
      rw [hr]

/-- The page at the destination is there, and the call does not fail. -/
theorem handleReadDir_keepsPosition_closed : rootReader.KeepsPosition 4 0x400000 ∧
    (rootReader.handleReadDir (fill 0) 4 0x400000).1 = .error .badHandle := by
  refine ⟨(handleReadDir_keepsPosition_iff rootReader 4 0x400000 rootReader_sound).mpr ?_, by decide +kernel⟩
  rintro ⟨⟨f, child, hnext⟩, -⟩
  have hnone : rootReader.taskFdFile (Int32.ofNat 4) = none := by decide +kernel
  rw [hnext.file] at hnone
  cases hnone

/-- With an unmapped destination the call fails, and `/a` is never returned. -/
theorem handleReadDir_loses : ¬ rootReader.KeepsPosition 3 0 := by
  intro h
  have hpos := h (fill 0) .badAddress (by decide +kernel) 10
  revert hpos
  decide +kernel

end Kernel

end NarcOs
