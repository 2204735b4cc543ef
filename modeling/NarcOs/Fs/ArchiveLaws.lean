import NarcOs.Fs.Archive
import NarcOs.Fs.Arrays

/-!
# The archive is read inside its bounds

The checked reader never stops: it gives what `vfs_init` gives, for every
archive. An accepted header puts the member and the next offset inside the
archive, at least one block further on, so the members end. What the archive
holds of a file stays inside it in every later run, since the calls only ever
drop it.
-/

namespace NarcOs

theorem Chain.follow_eq {α : Type*} {next : α → Option α} {head : Option α} {l : List α}
    (h : Chain next head l) {n : Nat} (hn : l.length ≤ n) : follow next n head = some l := by
  induction h generalizing n with
  | nil => cases n <;> rfl
  | cons _ ih =>
    cases n with
    | zero => simp at hn
    | succ n => simp only [follow, ih (by simpa using hn), Option.map_some]

theorem Mem.read_succ (m : Mem) (a n : Nat) : m.read a (n + 1) = m a :: m.read (a + 1) n := by
  rw [Nat.add_comm, Mem.read_add]
  rfl

theorem Mem.take_read (m : Mem) (a : Nat) {k n : Nat} (h : k ≤ n) : (m.read a n).take k = m.read a k := by
  obtain ⟨r, rfl⟩ := Nat.exists_eq_add_of_le h
  rw [Mem.read_add]
  exact List.take_left' Mem.length_read

theorem pushPath_eq {output : List UInt8} (h : output.length < tarPathMax) (c : UInt8) :
    pushPath output c = some (output ++ [c]) := if_pos h

theorem octalFrom_lt {k value : Nat} {field : List UInt8} (hvalue : value < 8 ^ k) :
    octalFrom field value < 8 ^ (k + field.length) := by
  induction field generalizing k value with
  | nil => exact hvalue
  | cons c field ih =>
    have hup : value < 8 ^ (k + (c :: field).length) :=
      hvalue.trans_le (Nat.pow_le_pow_right (by decide) (Nat.le_add_right _ _))
    have hlen : k + 1 + field.length = k + (c :: field).length := by
      rw [List.length_cons]
      omega
    have hwide : value < 8 ^ (k + 1) := hvalue.trans_le (Nat.pow_le_pow_right (by decide) (Nat.le_succ k))
    unfold octalFrom
    split
    · exact hup
    split
    · rw [← hlen]
      exact ih hwide
    · rename_i hdigit
      rw [← hlen]
      refine ih ?_
      have hc : c.toNat ≤ 55 := by
        have := not_or.mp hdigit
        simpa [UInt8.le_iff_toNat_le] using not_lt.mp this.2
      have hstep : value * 8 + (c.toNat - 48) < 8 ^ (k + 1) := by
        rw [Nat.pow_succ]
        omega
      exact (Nat.mod_le _ _).trans_lt hstep

theorem octal_lt (field : List UInt8) : octal field < 8 ^ field.length := by
  have h := @octalFrom_lt 0 0 field (by decide)
  rwa [Nat.zero_add] at h

namespace Vfs

variable {s t : Vfs} {kids : Ptr → List Ptr} {n d p : Ptr} {name : List UInt8} {offset position : Nat}

theorem archiveByte_eq (h : position < s.tarSize) : s.archiveByte position = some (s.tarData position) := if_pos h

theorem archiveBytes_eq {length : Nat} (h : position + length ≤ s.tarSize) :
    s.archiveBytes position length = some (s.tarData.read position length) := if_pos h

-- ---------------------------------------------------------------------------
-- Headers
-- ---------------------------------------------------------------------------

theorem octalChecked_eq {n k value : Nat} (hin : position + n ≤ s.tarSize) (hvalue : value < 8 ^ k)
    (hfit : k + n ≤ 21) :
    s.octalChecked n position value = some (octalFrom (s.tarData.read position n) value) := by
  induction n generalizing position k value with
  | zero => rfl
  | succ n ih =>
    have hwide : value < 8 ^ (k + 1) := hvalue.trans_le (Nat.pow_le_pow_right (by decide) (Nat.le_succ k))
    rw [octalChecked, archiveByte_eq (by omega), Mem.read_succ]
    simp only [some_bind, octalFrom]
    split
    · rfl
    split
    · exact ih (by omega) hwide (by omega)
    · rename_i hdigit
      have hc : (s.tarData position).toNat ≤ 55 := by
        have := not_or.mp hdigit
        simpa [UInt8.le_iff_toNat_le] using not_lt.mp this.2
      have hpow : 8 ^ (k + 1) ≤ 8 ^ 21 := Nat.pow_le_pow_right (by decide) (by omega)
      have hstep : value * 8 + ((s.tarData position).toNat - 48) < 8 ^ (k + 1) := by
        rw [Nat.pow_succ]
        omega
      have hsmall : (8 : Nat) ^ 21 < 2 ^ 64 := by decide
      rw [mul64_eq (by omega), some_bind, add64_eq (by omega), some_bind, wrap64, Nat.mod_eq_of_lt (by omega)]
      exact ih (by omega) hstep (by omega)

theorem zeroFrom_eq {n : Nat} (hin : position + n ≤ s.tarSize) :
    s.zeroFrom n position = some ((s.tarData.read position n).all (· == 0)) := by
  induction n generalizing position with
  | zero => rfl
  | succ n ih =>
    rw [zeroFrom, archiveByte_eq (by omega), Mem.read_succ, some_bind, List.all_cons]
    split
    · rename_i hc
      rw [beq_eq_false_iff_ne.mpr hc, Bool.false_and]
    · rename_i hc
      rw [ih (by omega), not_not.mp hc]
      rfl

def memberBlocks (s : Vfs) (offset : Nat) : Nat := (octal (s.headerSize offset) + tarBlock - 1) / tarBlock * tarBlock

theorem memberBlocks_lt (s : Vfs) (offset : Nat) :
    octal (s.headerSize offset) ≤ s.memberBlocks offset ∧ s.memberBlocks offset < 2 ^ 37 := by
  have h : octal (s.headerSize offset) < 8 ^ 12 := by
    have := octal_lt (s.headerSize offset)
    rwa [headerSize, headerField, Mem.length_read] at this
  unfold memberBlocks tarBlock
  omega

/-- What `header_at` establishes: the header and the member are inside, and the next
offset has not wrapped. -/
structure Inside (s : Vfs) (offset : Nat) : Prop where
  header : offset + tarBlock ≤ s.tarSize
  next : s.nextOffset offset = offset + tarBlock + s.memberBlocks offset
  stop : offset + tarBlock + s.memberBlocks offset ≤ s.tarSize

theorem headerAt_inside (hsize : s.tarSize < 2 ^ 64) (h : s.headerAt offset = true) : s.Inside offset := by
  unfold headerAt at h
  split at h
  · cases h
  rename_i hroom
  split at h
  · cases h
  have hblocks := (s.memberBlocks_lt offset).2
  have hnext : s.nextOffset offset = wrap64 (offset + tarBlock + s.memberBlocks offset) := rfl
  rw [hnext] at h
  unfold wrap64 tarBlock at *
  simp only [decide_not, Bool.not_eq_eq_eq_not, Bool.not_true, decide_eq_false_iff_not] at h
  refine ⟨?_, ?_, ?_⟩
  · unfold tarBlock
    omega
  · rw [hnext]
    unfold tarBlock
    omega
  · unfold tarBlock
    omega

theorem nextOffsetChecked_eq (h : s.Inside offset) (hsize : s.tarSize < 2 ^ 64) :
    s.nextOffsetChecked offset = some (s.nextOffset offset) := by
  have hblocks := s.memberBlocks_lt offset
  have hheader := h.header
  have hstop := h.stop
  rw [h.next, nextOffsetChecked, octalChecked_eq (k := 0) (by unfold tarBlock at hheader; omega) (by decide) (by decide),
    some_bind, add64_eq (by omega), some_bind]
  change (add64 (octal (s.headerSize offset)) (tarBlock - 1) >>= _) = _
  rw [add64_eq (by unfold tarBlock; omega), some_bind]
  exact add64_eq (hstop.trans_lt hsize)

theorem headerAtChecked_eq (hsize : s.tarSize < 2 ^ 64) : s.headerAtChecked offset = some (s.headerAt offset) := by
  unfold headerAtChecked headerAt
  split
  · rfl
  rename_i hroom
  have hblocks := s.memberBlocks_lt offset
  have hheader : offset + 512 ≤ s.tarSize := by
    unfold tarBlock at hroom
    omega
  rw [zeroFrom_eq (n := tarBlock) hheader, some_bind]
  change (if s.zeroBlock offset = true then _ else _) = _
  split
  · rfl
  rw [nextOffsetProbe, octalChecked_eq (k := 0) (by omega) (by decide) (by decide), some_bind,
    add64_eq (by unfold tarBlock; omega), some_bind]
  change (add64 (octal (s.headerSize offset)) (tarBlock - 1) >>= _) >>= _ = _
  rw [add64_eq (by unfold tarBlock; omega), some_bind, some_bind]
  rfl

theorem copyField_eq {n : Nat} {output : List UInt8} (hin : position + n ≤ s.tarSize)
    (hroom : output.length + n ≤ tarPathMax) :
    s.copyField n position output = some (output ++ (s.tarData.read position n).takeWhile (· != 0)) := by
  induction n generalizing position output with
  | zero => simp [copyField, Mem.read]
  | succ n ih =>
    rw [copyField, archiveByte_eq (by omega), Mem.read_succ, some_bind, List.takeWhile_cons]
    split
    · rename_i hc
      simp [hc]
    · rename_i hc
      rw [pushPath_eq (by omega), some_bind, ih (by omega) (by rw [List.length_append, List.length_singleton]; omega)]
      simp [hc]

theorem length_takeWhile_read_le (m : Mem) (a n : Nat) : ((m.read a n).takeWhile (· != 0)).length ≤ n :=
  (List.takeWhile_prefix _).length_le.trans Mem.length_read.le

theorem tarPathChecked_eq (h : s.Inside offset) : s.tarPathChecked offset = some (s.tarPath offset) := by
  have hheader := h.header
  unfold tarBlock at hheader
  have hfront := length_takeWhile_read_le s.tarData (offset + 345) 155
  have hname := length_takeWhile_read_le s.tarData (offset + 0) 100
  unfold tarPathChecked tarPath headerPrefix headerName headerField
  rw [copyField_eq (by omega) (by decide), some_bind, List.nil_append]
  dsimp only
  generalize (s.tarData.read (offset + 345) 155).takeWhile (· != 0) = front at hfront ⊢
  generalize hlast : (s.tarData.read (offset + 0) 100).takeWhile (· != 0) = last at hname ⊢
  have hcopy : ∀ output : List UInt8, output.length ≤ 156 → s.copyField 100 offset output = some (output ++ last) := by
    intro output hlen
    rw [copyField_eq (by omega) (by unfold tarPathMax; omega), ← hlast, Nat.add_zero]
  have hend : ∀ output : List UInt8, output.length ≤ 156 → pushPath (output ++ last) 0 = some (output ++ last ++ [0]) := by
    intro output hlen
    refine pushPath_eq ?_ 0
    rw [List.length_append]
    unfold tarPathMax
    omega
  split
  · rename_i hnil
    rw [hnil, some_bind, hcopy [] (by decide), some_bind, hend [] (by decide), some_bind]
  · have hlen : (front ++ [slash]).length ≤ 156 := by
      rw [List.length_append, List.length_singleton]
      omega
    rw [pushPath_eq (by unfold tarPathMax; omega), some_bind, hcopy _ hlen, some_bind, hend _ hlen, some_bind]

theorem magicFrom_eq {expected : List UInt8} (hin : position + expected.length ≤ s.tarSize) :
    s.magicFrom expected position = some (decide (s.tarData.read position expected.length = expected)) := by
  induction expected generalizing position with
  | nil => rfl
  | cons c rest ih =>
    rw [List.length_cons] at hin
    rw [magicFrom, archiveByte_eq (by omega), some_bind, List.length_cons, Mem.read_succ]
    split
    · rename_i hc
      simp [hc]
    · rename_i hc
      rw [ih (by omega), not_not.mp hc]
      simp

-- ---------------------------------------------------------------------------
-- Members
-- ---------------------------------------------------------------------------

theorem Tree.entriesChecked_eq (h : s.Tree kids) (hd : d ∈ s.linked) : s.entriesChecked d = some (s.entries d) := by
  rw [h.links.entries_eq hd]
  have hchain := h.links.chain d hd
  exact hchain.follow_eq (hchain.length_le_card fun c hc => h.live (h.kid_linked hd hc))

/-- The new vnode is on no list yet, so `attach` walks over the entries from before. -/
theorem Tree.entriesChecked_withNode (h : s.Tree kids) (hd : d ∈ s.linked) (hn : n ∉ s.live)
    (type : VType) (mode : Nat) : (s.withNode n name type mode).entriesChecked d = some (kids d) := by
  have hkid : ∀ c ∈ kids d, c ≠ n := fun c hc => ne_of_mem_of_not_mem (h.live (h.kid_linked hd hc)) hn
  have hchain : Chain (s.withNode n name type mode).next (s.node d).children (kids d) :=
    (h.links.chain d hd).congr fun c hc => by rw [next, withNode_of_ne (hkid c hc), next]
  have hcard := hchain.length_le_card fun c hc => h.live (h.kid_linked hd hc)
  rw [entriesChecked, withNode_of_ne (ne_of_mem_of_not_mem (h.live hd) hn)]
  refine hchain.follow_eq (hcard.trans (Finset.card_le_card ?_))
  exact Finset.subset_insert n s.live

theorem Tree.newNodeChecked_eq (h : s.Tree kids) (hd : d ∈ s.linked) (type : VType) (mode : Nat) :
    s.newNodeChecked d name type mode = some (s.newNode d name type mode) := by
  unfold newNodeChecked newNode
  obtain ⟨heap₁, h₁⟩ := kmalloc_rest s
  rcases hk : s.kmalloc with ⟨_ | n, t⟩
  · rfl
  have hn : n ∉ s.live := kmalloc_fresh (by rw [hk])
  rw [hk] at h₁
  dsimp only
  obtain ⟨heap₂, h₂⟩ := kmalloc_rest t
  rcases hk' : t.kmalloc with ⟨_ | m, u⟩
  · rfl
  rw [hk'] at h₂
  have hu : u = { s with heap := heap₂ } := by
    rw [show u = _ from h₂, show t = _ from h₁]
  subst hu
  obtain ⟨kids', h'⟩ := (setHeap_sameTree heap₂).grows.tree h
  change ((withNode { s with heap := heap₂ } n name type mode).entriesChecked d >>= _) = _
  rw [h'.entriesChecked_withNode hd hn]
  rfl

theorem Tree.childOrNewChecked_eq (h : s.Tree kids) (hd : d ∈ s.linked) (type : VType) (mode : Nat) :
    s.childOrNewChecked d name type mode = some (s.childOrNew d name type mode) := by
  unfold childOrNewChecked
  rw [h.entriesChecked_eq hd, some_bind, h.newNodeChecked_eq hd]
  unfold Vfs.childOrNew childNamed
  cases (s.entries d).find? fun child => nameEq (s.node child).name name <;> rfl

theorem Tree.tarNodeChecked_eq (type : VType) (mode : Nat) {k : Nat} {cursor : List UInt8} (h : s.Tree kids)
    (hn : n ∈ s.linked) (hnul : (0 : UInt8) ∉ cursor) (hk : cursor.length < k) :
    tarNodeChecked type mode k cursor n s = some (Vfs.tarNodeFrom type mode k cursor n s) := by
  induction k generalizing s kids n cursor with
  | zero => omega
  | succ k ih =>
    simp only [tarNodeChecked, Vfs.tarNodeFrom]
    set start := cursor.dropWhile (· == slash) with hstart
    set component := start.takeWhile (· != slash) with hcomponent
    set rest := (start.dropWhile (· != slash)).dropWhile (· == slash) with hrest
    have hsub : ∀ b ∈ start, b ∈ cursor := fun b hb => (List.dropWhile_suffix _).subset hb
    have hcomp : ∀ b ∈ component, b ∈ cursor := fun b hb => hsub b ((List.takeWhile_prefix _).subset hb)
    have hnul' : (0 : UInt8) ∉ rest := fun h0 =>
      hnul (hsub _ ((List.dropWhile_suffix _).subset ((List.dropWhile_suffix _).subset h0)))
    split
    · rfl
    rename_i hne
    have hshorter : rest.length < k := by
      have h₁ : rest.length ≤ (start.dropWhile (· != slash)).length := (List.dropWhile_suffix _).length_le
      have h₂ : start.length ≤ cursor.length := (List.dropWhile_suffix _).length_le
      have h₃ : component.length + (start.dropWhile (· != slash)).length = start.length := by
        rw [hcomponent, ← List.length_append, List.takeWhile_append_dropWhile]
      have h₄ := List.length_pos_iff.mpr hne
      omega
    split
    · split
      · rfl
      · exact ih h hn hnul' hshorter
    split
    · rfl
    rename_i hok
    simp only [not_or, Bool.not_eq_true, not_le, not_not] at hok
    obtain ⟨hdot, hshort, hdir⟩ := hok
    have hdots : component ≠ [dot] ∧ component ≠ [dot, dot] :=
      not_or.mp (dotName_iff.not.mp (Bool.eq_false_iff.mp hdot))
    have hgood : GoodName component :=
      ⟨hne, fun h0 => hnul (hcomp _ h0), fun hs => by simpa using List.mem_takeWhile_imp hs,
        hdots.1, hdots.2, hshort⟩
    obtain ⟨hch, hmem⟩ := h.childOrNew (if rest.isEmpty then type else .dir)
      (if rest.isEmpty then mode else sIfdir ||| 0o755) hn hdir hgood
    obtain ⟨kids', h'⟩ := hch.tree h
    rw [h.childOrNewChecked_eq hn, some_bind]
    rcases hc : s.childOrNew n component (if rest.isEmpty then type else .dir)
      (if rest.isEmpty then mode else sIfdir ||| 0o755) with ⟨_ | child, t⟩
    · rfl
    rw [hc] at h' hmem
    dsimp only
    split
    · split <;> rfl
    · exact ih h' (hmem child rfl) hnul' hshorter

theorem archive_loadStable (tarData : Mem) (tarSize : Nat) :
    LoadStable fun s => s.tarData = tarData ∧ s.tarSize = tarSize where
  newNode {s d name type mode} h := by
    obtain ⟨heap, hn | ⟨n, -, hn⟩⟩ := newNode_cases s d name type mode
    · rw [hn]
      exact h
    · rw [hn]
      have hr := attach_rest (withNode { s with heap := heap } n name type mode) d n
      exact ⟨hr.tarData.trans h.1, hr.tarSize.trans h.2⟩
  setMode h := h
  setArchive h _ _ := h

theorem memberType_eq (s : Vfs) (offset : Nat) :
    s.memberType offset = if s.tarData (offset + 156) = 53 then .dir else .reg := by
  have hread : s.headerType offset = [s.tarData (offset + 156)] := rfl
  unfold memberType
  rw [hread]
  simp

theorem Tree.loadMemberChecked_eq (h : s.Tree kids) (hin : s.Inside offset) (hsize : s.tarSize < 2 ^ 64) :
    s.loadMemberChecked offset = some (s.loadMember offset) := by
  have hheader := hin.header
  unfold tarBlock at hheader
  unfold loadMemberChecked Vfs.loadMember
  rw [magicFrom_eq (by simp only [List.length_cons, List.length_nil]; omega), some_bind]
  have hmagic : (s.headerMagic offset).take 5 = s.tarData.read (offset + 257) 5 :=
    s.tarData.take_read (offset + 257) (by decide)
  simp only [decide_eq_true_eq, hmagic, List.length_cons, List.length_nil, Nat.reduceAdd]
  split
  · rfl
  rw [tarPathChecked_eq hin, some_bind, archiveByte_eq (by omega), some_bind,
    octalChecked_eq (k := 0) (by omega) (by decide) (by decide), some_bind, ← memberType_eq]
  have hmode : octalFrom (s.tarData.read (offset + 100) 8) 0 = octal (s.headerMode offset) := rfl
  rw [hmode, h.tarNodeChecked_eq _ _ h.root (tarPath_noNul s offset) (Nat.lt_succ_self _), some_bind]
  have hdata : (s.tarNode (s.tarPath offset) (s.memberType offset) (s.memberMode offset)).2.tarData = s.tarData ∧
      (s.tarNode (s.tarPath offset) (s.memberType offset) (s.memberMode offset)).2.tarSize = s.tarSize := by
    exact (archive_loadStable s.tarData s.tarSize).tarNodeFrom _ _ _ _ _ ⟨rfl, rfl⟩
  have hcall : Vfs.tarNodeFrom (s.memberType offset)
      ((if s.memberType offset = .dir then sIfdir else sIfreg) ||| octal (s.headerMode offset) &&& 0o777)
      (s.tarPath offset).length.succ (s.tarPath offset) s.root s =
        s.tarNode (s.tarPath offset) (s.memberType offset) (s.memberMode offset) := rfl
  rw [hcall]
  rcases hnode : s.tarNode (s.tarPath offset) (s.memberType offset) (s.memberMode offset) with ⟨_ | node, t⟩
  · rfl
  rw [hnode] at hdata
  have htar : t.tarSize = s.tarSize := hdata.2
  dsimp only
  split
  · rfl
  split
  · rfl
  have hfield : octalFrom (t.tarData.read (offset + 124) 12) 0 = octal (t.headerSize offset) := rfl
  rw [octalChecked_eq (k := 0) (by omega) (by decide) (by decide), hfield, some_bind,
    add64_eq (by unfold tarBlock; omega)]
  split <;> rfl

/-- The next header is at least a block further on, so the rounds are enough. -/
theorem Tree.loadMembersChecked_eq {k : Nat} (h : s.Tree kids) (hsize : s.tarSize < 2 ^ 64)
    (hk : (s.tarSize - offset) / tarBlock < k) :
    loadMembersChecked k offset s = some (Vfs.loadMembers k offset s) := by
  induction k generalizing s kids offset with
  | zero => exact absurd hk (Nat.not_lt_zero _)
  | succ k ih =>
    rw [loadMembersChecked, Vfs.loadMembers, headerAtChecked_eq hsize, some_bind]
    split
    · rename_i hheader
      have hin := headerAt_inside hsize hheader
      rw [h.loadMemberChecked_eq hin hsize, some_bind]
      cases hload : s.loadMember offset with
      | none => rfl
      | some t =>
        have hsame := (archive_loadStable s.tarData s.tarSize).loadMember ⟨rfl, rfl⟩ hload
        obtain ⟨kids', h'⟩ := (h.loadMember hload).tree h
        dsimp only
        rw [nextOffsetChecked_eq hin hsize, some_bind]
        refine ih h' (hsame.2 ▸ hsize) ?_
        have hnext := hin.next
        have hstop := hin.stop
        rw [hsame.2]
        unfold tarBlock at *
        omega
    · rfl

theorem vfsInitChecked_eq (tarData : Mem) {tarSize : Nat} (heap : List (Option Ptr)) (phys : Phys)
    (hsize : tarSize < 2 ^ 64) :
    vfsInitChecked (some tarData) tarSize heap phys = some (vfsInit tarData tarSize heap phys) := by
  unfold vfsInitChecked vfsInit
  dsimp only
  split
  · rfl
  obtain ⟨heap₁, h₁⟩ := kmalloc_rest (blank tarData tarSize heap phys)
  rcases hk : (blank tarData tarSize heap phys).kmalloc with ⟨_ | root, t⟩
  · rfl
  rw [hk] at h₁
  obtain ⟨heap₂, h₂⟩ := kmalloc_rest t
  dsimp only
  rcases hk' : t.kmalloc with ⟨_ | m, u⟩
  · rfl
  rw [hk'] at h₂
  have hu : u = blank tarData tarSize heap₂ phys := by
    rw [show u = _ from h₂, show t = _ from h₁]
    rfl
  subst hu
  have htree : ((blank tarData tarSize heap₂ phys).withRoot root).Tree fun _ => [] := tree_withRoot rfl
  exact htree.loadMembersChecked_eq hsize (Nat.lt_succ_self _)

-- ---------------------------------------------------------------------------
-- What is in the archive
-- ---------------------------------------------------------------------------

def Stored (s : Vfs) : Prop :=
  ∀ p archive, (s.node p).archive = some archive →
    archive + (s.node p).size ≤ s.tarSize ∧ (s.node p).size ≤ vfsFileMax

def Missing (s : Vfs) (p : Ptr) : Prop :=
  p ∈ s.live ∧ (s.node p).type = .reg ∧ (s.node p).archive = none

theorem created_archive (s : Vfs) (n d : Ptr) (name : List UInt8) (type : VType) (mode : Nat) (p : Ptr) :
    (((s.withNode n name type mode).attach d n).node p).archive = if p = n then none else (s.node p).archive := by
  rw [(attach_data (s.withNode n name type mode) d n p).archive]
  split
  · rename_i hp
    rw [hp, withNode_self]
  · rename_i hp
    rw [withNode_of_ne hp]

theorem stored_tarStable : TarStable Stored where
  newNode {s d name type mode} h := by
    obtain ⟨heap, hn | ⟨n, -, hn⟩⟩ := newNode_cases s d name type mode
    · rw [hn]
      exact h
    rw [hn]
    intro p archive hp
    rw [created_archive] at hp
    split at hp
    · cases hp
    · rename_i hne
      rw [(created_sameFile { s with heap := heap } n d name type mode hne).size,
        (attach_rest (withNode { s with heap := heap } n name type mode) d n).tarSize]
      exact h p archive hp
  setMode {s n mode} h p archive hp := by
    rw [modify_node] at hp ⊢
    split at hp
    · rename_i hpn
      rw [if_pos hpn]
      exact h p archive hp
    · rename_i hpn
      rw [if_neg hpn]
      exact h p archive hp

theorem missing_newNode {type : VType} {mode : Nat} {c : Ptr} (hnew : s.newNode d name type mode = (some c, t))
    (hp : t.Missing p) : s.Missing p ∨ p = c ∧ type = .reg := by
  obtain ⟨heap, hn | ⟨n, -, hn⟩⟩ := newNode_cases s d name type mode
  · rw [hn] at hnew
    cases hnew
  rw [hn] at hnew
  cases hnew
  obtain ⟨hlive, htype, harchive⟩ := hp
  rw [(attach_rest _ d c).live] at hlive
  rw [(attach_data _ d c p).type] at htype
  rw [created_archive] at harchive
  by_cases hpc : p = c
  · rw [hpc, withNode_self] at htype
    exact .inr ⟨hpc, htype⟩
  · rw [withNode_of_ne hpc] at htype
    rw [if_neg hpc] at harchive
    exact .inl ⟨(Finset.mem_insert.mp hlive).resolve_left hpc, htype, harchive⟩

theorem missing_childOrNew {type : VType} {mode : Nat} {c : Ptr} (hchild : s.childOrNew d name type mode = (some c, t))
    (hp : t.Missing p) : s.Missing p ∨ p = c ∧ type = .reg := by
  unfold childOrNew at hchild
  split at hchild
  · cases hchild
    exact .inl hp
  · exact missing_newNode hchild hp

/-- `tar_node` makes directories on its way, and a regular vnode at most at its end. -/
theorem missing_tarNodeFrom {type : VType} {mode k : Nat} {cursor : List UInt8} {c : Ptr}
    (hnode : tarNodeFrom type mode k cursor n s = (some c, t)) (hp : t.Missing p) : s.Missing p ∨ p = c := by
  induction k generalizing s n cursor with
  | zero => cases hnode
  | succ k ih =>
    simp only [tarNodeFrom] at hnode
    split at hnode
    · cases hnode
      exact .inl hp
    split at hnode
    · split at hnode
      · cases hnode
        exact .inl hp
      · exact ih hnode
    split at hnode
    · cases hnode
    split at hnode
    · cases hnode
    rename_i child u hchild
    split at hnode
    · split at hnode
      · cases hnode
      cases hnode
      have hu : u.Missing p := by
        obtain ⟨hlive, htype, harchive⟩ := hp
        rw [modify_node] at htype harchive
        split at htype
        · rename_i hpc
          rw [if_pos hpc] at harchive
          exact ⟨hlive, hpc ▸ htype, hpc ▸ harchive⟩
        · rename_i hpc
          rw [if_neg hpc] at harchive
          exact ⟨hlive, htype, harchive⟩
      exact (missing_childOrNew hchild hu).imp_right And.left
    · rename_i hlast
      rcases ih hnode with hu | rfl
      · rw [if_neg hlast] at hchild
        rcases missing_childOrNew hchild hu with hs | ⟨-, htype⟩
        · exact .inl hs
        · cases htype
      · exact .inr rfl

structure Archived (s : Vfs) : Prop where
  stored : s.Stored
  none_missing : ∀ p, ¬ s.Missing p

theorem Archived.loadMember (h : s.Archived) (hin : s.Inside offset) (hl : s.loadMember offset = some t) :
    t.Archived := by
  unfold Vfs.loadMember at hl
  split at hl
  · cases hl
  simp only at hl
  have hstored : (s.tarNode (s.tarPath offset) (s.memberType offset) (s.memberMode offset)).2.Stored :=
    stored_tarStable.tarNodeFrom _ _ _ _ _ h.stored
  have hsame := (archive_loadStable s.tarData s.tarSize).tarNodeFrom (s.memberType offset) (s.memberMode offset)
    ((s.tarPath offset).length + 1) (s.tarPath offset) s.root ⟨rfl, rfl⟩
  split at hl
  · cases hl
  rename_i node u hu
  unfold tarNode at hu hstored
  rw [hu] at hstored hsame
  obtain ⟨hdata, hsize⟩ := hsame
  have hmissing : ∀ p, u.Missing p → p = node := fun p hp =>
    (missing_tarNodeFrom hu hp).resolve_left (h.none_missing p)
  split at hl
  · cases hl
  rename_i htype
  rw [not_not] at htype
  split at hl
  · rename_i hdir
    cases hl
    refine ⟨hstored, fun p hp => hdir ?_⟩
    rw [← htype, ← hmissing p hp]
    exact hp.2.1
  split at hl
  · cases hl
  rename_i hsmall
  cases hl
  refine ⟨fun p archive hp => ?_, fun p hp => ?_⟩
  · rw [modify_node] at hp ⊢
    split at hp
    · rename_i hpn
      cases hp
      rw [if_pos hpn]
      have hstop := hin.stop
      have hblocks := (s.memberBlocks_lt offset).1
      refine ⟨?_, not_lt.mp hsmall⟩
      change offset + tarBlock + octal (u.headerSize offset) ≤ u.tarSize
      have hfield : u.headerSize offset = s.headerSize offset := by
        rw [headerSize, headerField, hdata, headerSize, headerField]
      rw [hfield, hsize]
      omega
    · rename_i hpn
      rw [if_neg hpn]
      exact hstored p archive hp
  · obtain ⟨hlive, hreg, harchive⟩ := hp
    rw [modify_node] at hreg harchive
    split at harchive
    · cases harchive
    · rename_i hpn
      rw [if_neg hpn] at hreg
      exact hpn (hmissing p ⟨hlive, hreg, harchive⟩)

theorem Archived.loadMembers {k : Nat} (h : s.Archived) (hsize : s.tarSize < 2 ^ 64)
    (hl : loadMembers k offset s = some t) : t.Archived ∧ t.tarSize = s.tarSize := by
  refine ⟨?_, ((archive_loadStable s.tarData s.tarSize).loadMembers ⟨rfl, rfl⟩ hl).2⟩
  induction k generalizing s offset with
  | zero => cases hl
  | succ k ih =>
    simp only [Vfs.loadMembers] at hl
    split at hl
    · rename_i hheader
      split at hl
      · cases hl
      · rename_i u hu
        have hsame := (archive_loadStable s.tarData s.tarSize).loadMember ⟨rfl, rfl⟩ hu
        exact ih (h.loadMember (headerAt_inside hsize hheader) hu) (hsame.2 ▸ hsize) hl
    · cases hl
      exact h

theorem archived_vfsInit {tarData : Mem} {tarSize : Nat} {heap : List (Option Ptr)} {phys : Phys}
    (hsize : tarSize < 2 ^ 64) (h : vfsInit tarData tarSize heap phys = some s) :
    s.Archived ∧ s.tarSize = tarSize := by
  obtain ⟨root, heap', -, -, hl⟩ := vfsInit_from h
  refine Archived.loadMembers ⟨fun p archive hp => ?_, ?_⟩ hsize hl
  · have hnone : (((blank tarData tarSize heap' phys).withRoot root).node p).archive = none := by
      unfold withRoot
      dsimp only
      rw [Function.update_apply]
      split <;> rfl
    rw [hnone] at hp
    cases hp
  · rintro p ⟨hlive, htype, -⟩
    rw [Finset.mem_singleton.mp hlive] at htype
    unfold withRoot at htype
    dsimp only at htype
    rw [Function.update_self] at htype
    cases htype

end Vfs

end NarcOs
