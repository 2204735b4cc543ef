import NarcOs.Fs.Contents
import NarcOs.Fs.InitLaws

/-!
# Files as byte arrays

`arrays s a c` is what the call `c` should do to the byte arrays `a` of the
files: a truncating open empties one, a successful write splices one. Along
every run of the calls on file contents the storage of each vnode holds its
array, whether in the archive or in pages. `vfs_read` delivers the array from
an archive; from pages it does so exactly when the start of the first page and
the bytes at the offset agree, since it copies the first chunk from the start
of its page.
-/

namespace NarcOs

namespace Vfs

variable {s t : Vfs} {A : Multiset Nat} {n d p : Ptr} {name : List UInt8}

-- ---------------------------------------------------------------------------
-- Booting
-- ---------------------------------------------------------------------------

structure Loaded (s : Vfs) (phys : Phys) : Prop where
  phys : s.phys = phys
  pages : ∀ p i, s.slot p i = 0
  size : ∀ p, (s.node p).size ≤ vfsFileMax
  empty : ∀ p, (s.node p).archive = none → (s.node p).size = 0

theorem Loaded.congr {phys : Phys} (h : s.Loaded phys) (hphys : t.phys = s.phys)
    (hpages : ∀ p, (t.node p).pages = (s.node p).pages)
    (hsize : ∀ p, (t.node p).size = (s.node p).size)
    (harchive : ∀ p, (t.node p).archive = (s.node p).archive) : t.Loaded phys := by
  constructor
  · exact hphys.trans h.phys
  · intro p i
    rw [slot, hpages]
    exact h.pages p i
  · intro p
    rw [hsize]
    exact h.size p
  · intro p ha
    rw [hsize]
    exact h.empty p (harchive p ▸ ha)

theorem created_sameFile (s : Vfs) (n d : Ptr) (name : List UInt8) (type : VType) (mode : Nat)
    (hp : p ≠ n) : ((s.withNode n name type mode).attach d n).SameFile s p := by
  have hr := attach_rest (s.withNode n name type mode) d n
  have hd := attach_data (s.withNode n name type mode) d n p
  rw [withNode_of_ne hp] at hd
  exact sameFile_of_mem_eq hr.tarData (by rw [hr.phys]; rfl) hd.size hd.archive hd.pages

theorem created_self (s : Vfs) (n d : Ptr) (name : List UInt8) (type : VType) (mode : Nat) :
    (((s.withNode n name type mode).attach d n).node n).size = 0 ∧
      (((s.withNode n name type mode).attach d n).node n).archive = none ∧
      ∀ i, ((s.withNode n name type mode).attach d n).slot n i = 0 := by
  have hd := attach_data (s.withNode n name type mode) d n n
  rw [withNode_self] at hd
  exact ⟨hd.size, hd.archive, fun i => congrFun hd.pages i⟩

theorem Loaded.newNode {phys : Phys} (h : s.Loaded phys) (d : Ptr) (name : List UInt8)
    (type : VType) (mode : Nat) : (s.newNode d name type mode).2.Loaded phys := by
  obtain ⟨heap, hn | ⟨n, -, hn⟩⟩ := newNode_cases s d name type mode
  · rw [hn]
    exact h.congr rfl (fun _ => rfl) (fun _ => rfl) fun _ => rfl
  rw [hn]
  obtain ⟨hsize, -, hpages⟩ := created_self { s with heap := heap } n d name type mode
  have hsame : ∀ p ≠ n, (((withNode { s with heap := heap } n name type mode).attach d n).SameFile
      { s with heap := heap } p) := fun p hp => created_sameFile _ n d name type mode hp
  constructor
  · rw [(attach_rest _ d n).phys]
    exact h.phys
  · intro p i
    by_cases hp : p = n
    · rw [hp]
      exact hpages i
    · rw [(hsame p hp).slot]
      exact h.pages p i
  · intro p
    by_cases hp : p = n
    · rw [hp, hsize]
      exact Nat.zero_le _
    · rw [(hsame p hp).size]
      exact h.size p
  · intro p ha
    by_cases hp : p = n
    · rw [hp]
      exact hsize
    · rw [(hsame p hp).archive] at ha
      rw [(hsame p hp).size]
      exact h.empty p ha

theorem loaded_loadStable (phys : Phys) : LoadStable fun s => s.Loaded phys where
  newNode h := h.newNode _ _ _ _
  setMode h := by
    refine h.congr rfl ?_ ?_ ?_
    all_goals
      intro p
      rw [modify_node]
      split <;> rfl
  setArchive h _ hsmall := by
    constructor
    · exact h.phys
    · intro p i
      rw [slot, modify_node]
      split <;> exact h.pages p i
    · intro p
      rw [modify_node]
      split
      · exact hsmall
      · exact h.size p
    · intro p ha
      rw [modify_node] at ha ⊢
      split at ha
      · cases ha
      · rename_i hp
        rw [if_neg hp]
        exact h.empty p ha

theorem loaded_vfsInit {tarData : Mem} {tarSize : Nat} {heap : List (Option Ptr)} {phys : Phys}
    (h : vfsInit tarData tarSize heap phys = some s) : s.Loaded phys := by
  obtain ⟨root, heap', -, -, hl⟩ := vfsInit_from h
  refine (loaded_loadStable phys).loadMembers ?_ hl
  have hnode : ∀ p, ((blank tarData tarSize heap' phys).withRoot root).node p =
      if p = root then { ino := 1, type := .dir, mode := sIfdir ||| 0o755, linked := true }
      else {} := fun p => Function.update_apply _ _ _ _
  constructor
  · rfl
  · intro p i
    rw [slot, hnode]
    split <;> rfl
  all_goals
    intro p
    rw [hnode]
    split <;> simp

def payload (s : Vfs) (p : Ptr) : List UInt8 :=
  if p ∈ s.live then
    match (s.node p).archive with
    | some archive => s.tarData.read archive (s.node p).size
    | none => []
  else []

theorem Loaded.frames {phys : Phys} (h : s.Loaded phys) (hA : phys.Avail A) : s.Frames A where
  avail := h.phys ▸ hA
  frame p i hp := absurd (h.pages p i) hp
  held p i hp := absurd (h.pages p i) hp
  inj p _ i _ hp := absurd (h.pages p i) hp
  bound p i _ := h.pages p i

theorem Loaded.filled {phys : Phys} (h : s.Loaded phys) (p : Ptr) : s.Filled p where
  size := h.size p
  backed ha x hx := by
    rw [h.empty p ha] at hx
    exact absurd hx (Nat.not_lt_zero x)
  slack _ hp := absurd (h.pages p _) hp

theorem Loaded.contents {phys : Phys} (h : s.Loaded phys) (hp : p ∈ s.live) :
    s.contents p = s.payload p := by
  rw [payload, if_pos hp]
  cases ha : (s.node p).archive with
  | none => exact contents_eq_nil (h.empty p ha)
  | some archive =>
    unfold Vfs.contents byteAt
    simp only [ha]
    rfl

/-- What `vfs_read` needs to deliver the array `a` from `offset` on. -/
def ReadsArray (s : Vfs) (n : Ptr) (a : List UInt8) (offset length : Nat) : Prop :=
  (s.node n).archive ≠ none ∨ offset % pageSize = 0 ∨
    ∀ i < min (min length (a.length - offset)) (pageSize - offset % pageSize),
      a.getD (offset - offset % pageSize + i) 0 = a.getD (offset + i) 0

theorem take_drop_contents (s : Vfs) (n : Ptr) (offset length : Nat) :
    ((s.contents n).drop offset).take length =
      (List.range (min length ((s.node n).size - offset))).map fun i => s.byteAt n (offset + i) := by
  apply List.ext_getElem?
  intro i
  rw [List.getElem?_take, List.getElem?_map]
  by_cases hi : i < min length ((s.node n).size - offset)
  · rw [if_pos (by omega), List.getElem?_drop, getElem?_contents (by omega), List.getElem?_range hi]
    rfl
  · rw [List.getElem?_eq_none (l := List.range _) (by rw [List.length_range]; omega)]
    split
    · rw [List.getElem?_drop, List.getElem?_eq_none (by rw [length_contents]; omega)]
      rfl
    · rfl

theorem vfsRead_count {file : File} (hn : file.node = some n) (htype : (s.node n).type = .reg)
    (hread : file.flags.read = true) (length : Nat) :
    (s.vfsRead file length).1 =
      some (s.readLoop n (min length ((s.node n).size - file.offset)) file.offset
        (min length ((s.node n).size - file.offset))) := by
  unfold vfsRead
  rw [hn]
  simp only [htype, hread, ne_eq, not_true_eq_false, or_self, if_false]
  split
  · rename_i hend
    have hz : min length ((s.node n).size - file.offset) = 0 := by omega
    rw [hz]
    rfl
  · have hmin : (if length > (s.node n).size - file.offset then (s.node n).size - file.offset
        else length) = min length ((s.node n).size - file.offset) := by split <;> omega
    rw [hmin]

theorem length_readLoop (s : Vfs) (n : Ptr) (position left : Nat) :
    (s.readLoop n left position left).length = left := by
  cases ha : (s.node n).archive with
  | none => simp [readLoop_pages ha]
  | some archive => simp [readLoop_archive ha]

theorem vfsRead_iff {file : File} (hn : file.node = some n) (htype : (s.node n).type = .reg)
    (hread : file.flags.read = true) (length : Nat) :
    (s.vfsRead file length).1 = some (((s.contents n).drop file.offset).take length) ↔
      s.ReadsArray n (s.contents n) file.offset length := by
  rw [vfsRead_count hn htype hread, take_drop_contents, Option.some_inj]
  unfold ReadsArray pageSize
  rw [length_contents]
  cases ha : (s.node n).archive with
  | some archive =>
    refine iff_of_true ?_ (.inl (by simp))
    rw [readLoop_archive ha _ _ _ (Nat.le_refl _)]
    refine List.map_congr_left fun i _ => ?_
    rw [byteAt, ha, Nat.add_assoc]
  | none =>
    have hbyte : ∀ x, s.byteAt n x = s.raw n x := fun x => by rw [byteAt, ha]
    have hget : ∀ x < (s.node n).size, (s.contents n).getD x 0 = s.raw n x := fun x hx => by
      rw [getD_contents hx, hbyte]
    rw [readLoop_pages ha, List.map_inj_left]
    simp only [ne_eq, not_true_eq_false, false_or, List.mem_range, hbyte]
    constructor
    · intro h
      right
      intro i hi
      have hi' := h i (by omega)
      rw [if_pos (by omega)] at hi'
      rw [hget _ (by omega), hget _ (by omega)]
      exact hi'
    · intro h i hi
      split
      · rename_i hfirst
        rcases h with h | h
        · rw [h, Nat.sub_zero]
        · have hi' := h i (by omega)
          rwa [hget _ (by omega), hget _ (by omega)] at hi'
      · rfl

theorem vfsRead_file {file : File} (hf : s.Filled n) (hn : file.node = some n)
    (hoff : file.offset ≤ vfsFileMax) (length : Nat) :
    (s.vfsRead file length).2.node = some n ∧ (s.vfsRead file length).2.flags = file.flags ∧
      (s.vfsRead file length).2.offset ≤ vfsFileMax := by
  have hsize := hf.size
  unfold vfsRead
  rw [hn]
  simp only
  split
  · exact ⟨hn, rfl, hoff⟩
  split
  · exact ⟨hn, rfl, hoff⟩
  · rename_i hin
    refine ⟨rfl, rfl, ?_⟩
    simp only [wrap64]
    have hle : (if length > (s.node n).size - file.offset then (s.node n).size - file.offset
        else length) ≤ (s.node n).size - file.offset := by split <;> omega
    exact (Nat.mod_le _ _).trans (by omega)

theorem vfsSeek_file {file : File} (hn : file.node = some n) (hoff : file.offset ≤ vfsFileMax)
    (offset : Int) (origin : Nat) :
    (s.vfsSeek file offset origin).2.node = some n ∧
      (s.vfsSeek file offset origin).2.offset ≤ vfsFileMax := by
  unfold vfsSeek
  rw [hn]
  dsimp only
  generalize (if origin = 0 then (0 : Int) else if origin = 1 then toSigned file.offset
    else if origin = 2 then toSigned (s.node n).size else -1) = base
  split
  · exact ⟨hn, hoff⟩
  split
  · exact ⟨hn, hoff⟩
  split
  · exact ⟨hn, hoff⟩
  · rename_i hmax
    exact ⟨rfl, not_lt.mp hmax⟩

end Vfs

-- ---------------------------------------------------------------------------
-- Runs
-- ---------------------------------------------------------------------------

def FsCall.onContents : FsCall → Bool
  | .openPath .. | .close .. | .read .. | .write .. | .seek .. => true
  | .readdir .. | .mkdir .. | .unlink .. | .rename .. => false

namespace Session

def opened (a : Ptr → List UInt8) (file : Option File) (flags : OpenFlags) : Ptr → List UInt8 :=
  match file.bind File.node with
  | some n => if flags.truncate ∧ flags.write then Function.update a n [] else a
  | none => a

def arrays (s : Session) (a : Ptr → List UInt8) : FsCall → Ptr → List UInt8
  | .openPath handle path flags =>
    match s.file handle with
    | some _ => a
    | none => opened a (s.vfs.vfsOpen path flags).2.1 flags
  | .write handle bytes =>
    match s.file handle with
    | none => a
    | some file =>
      match file.node, (s.vfs.vfsWrite file bytes).1 with
      | some n, some _ =>
        Function.update a n
          (splice (a n) (if file.flags.append then (a n).length else file.offset) bytes)
      | _, _ => a
  | _ => a

inductive ArrayRun (boot : Vfs) : Session → (Ptr → List UInt8) → Prop
  | start : ArrayRun boot (start boot) boot.payload
  | call {s a} (c : FsCall) : ArrayRun boot s a → c.onContents → ArrayRun boot (s.call c) (s.arrays a c)

structure Refines (s : Session) (a : Ptr → List UInt8) : Prop where
  tree : ∃ kids, s.vfs.Tree kids
  frames : ∃ A, s.vfs.Frames A
  filled : ∀ p ∈ s.vfs.live, s.vfs.Filled p
  contents : ∀ p ∈ s.vfs.live, s.vfs.contents p = a p
  fresh : ∀ p ∉ s.vfs.live, a p = []
  handle : ∀ k file, s.file k = some file →
    ∃ n ∈ s.vfs.linked, file.node = some n ∧ file.offset ≤ vfsFileMax

variable {s : Session} {a : Ptr → List UInt8} {t : Vfs} {n : Ptr} {l : List UInt8}

theorem Refines.linked_live (h : s.Refines a) (hn : n ∈ s.vfs.linked) : n ∈ s.vfs.live := by
  obtain ⟨kids, ht⟩ := h.tree
  exact ht.live hn

theorem refines_start {tarData : Mem} {tarSize : Nat} {heap : List (Option Ptr)} {phys : Phys}
    {boot : Vfs} {A : Multiset Nat} (hA : phys.Avail A)
    (h : Vfs.vfsInit tarData tarSize heap phys = some boot) : (start boot).Refines boot.payload where
  tree := Vfs.tree_vfsInit h
  frames := ⟨A, (Vfs.loaded_vfsInit h).frames hA⟩
  filled p _ := (Vfs.loaded_vfsInit h).filled p
  contents _ hp := (Vfs.loaded_vfsInit h).contents hp
  fresh p hp := if_neg hp
  handle := fun _ _ hf => by cases hf

theorem Refines.holds (h : s.Refines a) (hn : n ∈ s.vfs.live) (ht : t.SameTree s.vfs)
    (hh : t.Holds s.vfs n l) : Refines { s with vfs := t } (Function.update a n l) where
  tree := by
    obtain ⟨kids, hk⟩ := h.tree
    exact (Vfs.Change.same ht).tree hk
  frames := hh.frames
  filled p hp := by
    by_cases hpn : p = n
    · rw [hpn]
      exact hh.filled
    · exact (hh.other p hpn).filled (h.filled p (ht.live ▸ hp))
  contents p hp := by
    by_cases hpn : p = n
    · rw [hpn, Function.update_self]
      exact hh.contents
    · rw [Function.update_of_ne hpn, (hh.other p hpn).contents]
      exact h.contents p (ht.live ▸ hp)
  fresh p hp := by
    have hp' : p ∉ s.vfs.live := ht.live ▸ hp
    rw [Function.update_of_ne (ne_of_mem_of_not_mem hn hp').symm]
    exact h.fresh p hp'
  handle k file hf := by
    obtain ⟨m, hm, hfile⟩ := h.handle k file hf
    refine ⟨m, ?_, hfile⟩
    rw [Vfs.mem_linked, (ht.node m).linked]
    exact hm

theorem Refines.setFile (h : s.Refines a) {k : Nat} {file : Option File}
    (hf : ∀ f, file = some f → ∃ n ∈ s.vfs.linked, f.node = some n ∧ f.offset ≤ vfsFileMax) :
    (s.setFile k file).Refines a :=
  ⟨h.tree, h.frames, h.filled, h.contents, h.fresh, fun j f hj => by
    simp only [Session.setFile, Function.update_apply] at hj
    split at hj
    · exact hf f hj
    · exact h.handle j f hj⟩

theorem update_contents (h : s.Refines a) (hn : n ∈ s.vfs.live) :
    Function.update a n (s.vfs.contents n) = a := by
  rw [h.contents n hn]
  exact Function.update_eq_self n a

theorem Refines.create (h : s.Refines a) (hc : Vfs.Create s.vfs t) :
    Refines { s with vfs := t } a := by
  obtain ⟨kids, hk⟩ := h.tree
  have htree := hc.tree hk
  cases hc with
  | @mk n d name type mode hn hd hdir hgood hnew =>
    obtain ⟨A, hA⟩ := h.frames
    have hr := Vfs.attach_rest (s.vfs.withNode n name type mode) d n
    have hsame := fun p (hp : p ≠ n) => Vfs.created_sameFile s.vfs n d name type mode hp
    obtain ⟨hsize, harchive, hslot⟩ := Vfs.created_self s.vfs n d name type mode
    have hlive : ((s.vfs.withNode n name type mode).attach d n).live = insert n s.vfs.live := hr.live
    have hold : ∀ p ∈ ((s.vfs.withNode n name type mode).attach d n).live, p ≠ n → p ∈ s.vfs.live := by
      intro p hp hpn
      rw [hlive] at hp
      exact (Finset.mem_insert.mp hp).resolve_left hpn
    have hkeep : ∀ p i, ((s.vfs.withNode n name type mode).attach d n).slot p i ≠ 0 →
        ((s.vfs.withNode n name type mode).attach d n).slot p i = s.vfs.slot p i := by
      intro p i hp
      refine (hsame p ?_).slot i
      rintro rfl
      exact hp (hslot i)
    constructor
    · exact htree
    · refine ⟨A, hA.shrink ?_ hkeep ?_⟩
      · rw [hr.phys]
        exact hA.avail
      · intro p i hp
        have e := hkeep p i hp
        exact e ▸ hA.held p i (e ▸ hp)
    · intro p hp
      by_cases hpn : p = n
      · subst hpn
        refine ⟨?_, fun _ x hx => ?_, fun x hx => absurd (hslot _) hx⟩
        · rw [hsize]
          exact Nat.zero_le _
        · rw [hsize] at hx
          exact absurd hx (Nat.not_lt_zero x)
      · exact (hsame p hpn).filled (h.filled p (hold p hp hpn))
    · intro p hp
      by_cases hpn : p = n
      · rw [hpn, h.fresh n hn]
        exact Vfs.contents_eq_nil hsize
      · rw [(hsame p hpn).contents]
        exact h.contents p (hold p hp hpn)
    · intro p hp
      rw [hlive, Finset.mem_insert, not_or] at hp
      exact h.fresh p hp.2
    · intro k file hf
      obtain ⟨m, hm, hfile⟩ := h.handle k file hf
      refine ⟨m, ?_, hfile⟩
      have hmn : m ≠ n := ne_of_mem_of_not_mem (h.linked_live hm) hn
      rw [Vfs.mem_linked, Vfs.attach_linked, if_neg hmn, Vfs.withNode_of_ne hmn]
      exact hm

theorem Refines.openNode (h : s.Refines a) (hn : n ∈ s.vfs.linked) (k : Nat) (flags : OpenFlags) :
    (Session.setFile { s with vfs := (s.vfs.openNode n flags).2.2 } k (s.vfs.openNode n flags).2.1).Refines
      (opened a (s.vfs.openNode n flags).2.1 flags) := by
  have hlive := h.linked_live hn
  obtain ⟨A, hA⟩ := h.frames
  obtain ⟨hh, hfile⟩ := Vfs.openNode_holds hA (h.filled n hlive) flags
  have hst : (s.vfs.openNode n flags).2.2.SameTree s.vfs := Vfs.openNode_sameTree
  have harr : opened a (s.vfs.openNode n flags).2.1 flags = Function.update a n
      (if (s.vfs.openNode n flags).2.1.isSome ∧ flags.truncate ∧ flags.write then []
        else s.vfs.contents n) := by
    unfold opened
    cases he : (s.vfs.openNode n flags).2.1 with
    | none => simp [update_contents h hlive]
    | some file =>
      simp only [Option.bind_some, (hfile file he).1, Option.isSome_some, true_and]
      split
      · rfl
      · exact (update_contents h hlive).symm
  rw [harr]
  refine (h.holds hlive hst hh).setFile fun f hf => ⟨n, ?_, (hfile f hf).1, (hfile f hf).2.2⟩
  rw [Vfs.mem_linked, (hst.node n).linked]
  exact hn

theorem Refines.setHeap (h : s.Refines a) (heap : List (Option Ptr)) :
    Refines { s with vfs := { s.vfs with heap := heap } } a where
  tree := by
    obtain ⟨kids, hk⟩ := h.tree
    exact (Vfs.Change.same (Vfs.setHeap_sameTree heap)).tree hk
  frames := by
    obtain ⟨A, hA⟩ := h.frames
    exact ⟨A, hA.congr rfl fun _ => rfl⟩
  filled p hp := Vfs.SameFile.filled (s := s.vfs) ⟨rfl, rfl, rfl, rfl, fun _ => rfl⟩ (h.filled p hp)
  contents p hp := h.contents p hp
  fresh := h.fresh
  handle := h.handle

theorem Refines.vfsOpen (h : s.Refines a) (k : Nat) (path : CString) (flags : OpenFlags) :
    (Session.setFile { s with vfs := (s.vfs.vfsOpen path flags).2.2 } k
      (s.vfs.vfsOpen path flags).2.1).Refines (opened a (s.vfs.vfsOpen path flags).2.1 flags) := by
  obtain ⟨kids, htree⟩ := h.tree
  -- an open that fails in the lookups changes nothing
  have hfail : (s.setFile k none).Refines (opened a none flags) := h.setFile fun f hf => by cases hf
  unfold Vfs.vfsOpen
  split
  · rename_i n hlookup
    split
    · exact hfail
    · exact h.openNode (htree.lookup_linked hlookup) k flags
  · rename_i status hlookup
    split
    · rename_i hnf
      split
      · exact hfail
      · rename_i parent name hpar
        have hp := Vfs.lookupParent_ok path.noNul hpar
        have hnew := hp.childNamed_eq_none hlookup
        obtain ⟨heap, hn | ⟨n, hfresh, hn⟩⟩ :=
          Vfs.newNode_cases s.vfs parent name .reg (sIfreg ||| 0o666)
        · rw [hn]
          exact (h.setHeap heap).setFile fun f hf => by cases hf
        · rw [hn]
          have hc := (h.setHeap heap).create
            (@Vfs.Create.mk _ _ _ _ .reg (sIfreg ||| 0o666) hfresh (htree.parentOf_linked hp) hp.dir
              hp.good hnew)
          refine hc.openNode ?_ k flags
          rw [Vfs.mem_linked, Vfs.attach_linked, if_pos rfl]
    · exact hfail

theorem Refines.vfsClose (h : s.Refines a) (k : Nat) {file : File} (hf : s.file k = some file) :
    (Session.setFile { s with vfs := (s.vfs.vfsClose file).2 } k none).Refines a := by
  obtain ⟨n, hn, hnode, -⟩ := h.handle k file hf
  have hlive := h.linked_live hn
  obtain ⟨A, hA⟩ := h.frames
  have hst : (s.vfs.dropRef n).SameTree s.vfs := Vfs.dropRef_sameTree
  have hlinked : ((s.vfs.dropRef n).node n).linked = true := (hst.node n).linked.trans hn
  have hh : (s.vfs.dropRef n).Kept s.vfs n := by
    refine (hA.kept (h.filled n hlive)).congr ?_ ?_ ?_ ?_ ?_
    · unfold Vfs.dropRef
      split <;> rfl
    · unfold Vfs.dropRef
      split <;> rfl
    all_goals
      intro p
      unfold Vfs.dropRef
      split
      · rw [Vfs.modify_node]
        split <;> rfl
      · rfl
  have hr := h.holds hlive hst hh
  rw [update_contents h hlive] at hr
  unfold Vfs.vfsClose
  rw [hnode]
  simp only [hlinked, not_true_eq_false, false_and, if_false]
  exact hr.setFile fun f hf => by cases hf

theorem Refines.vfsWrite (h : s.Refines a) (k : Nat) {file : File} (hf : s.file k = some file)
    (bytes : List UInt8) :
    (Session.setFile { s with vfs := (s.vfs.vfsWrite file bytes).2.2 } k
      (some (s.vfs.vfsWrite file bytes).2.1)).Refines (s.arrays a (.write k bytes)) := by
  obtain ⟨n, hn, hnode, hoff⟩ := h.handle k file hf
  have hlive := h.linked_live hn
  obtain ⟨A, hA⟩ := h.frames
  obtain ⟨hh, hfile, -, hle⟩ := Vfs.vfsWrite_holds bytes hA (h.filled n hlive) hnode hoff
  have hst : (s.vfs.vfsWrite file bytes).2.2.SameTree s.vfs := Vfs.vfsWrite_sameTree file bytes
  have harr : s.arrays a (.write k bytes) = Function.update a n
      (if (s.vfs.vfsWrite file bytes).1.isSome then
        splice (s.vfs.contents n) (s.vfs.writeOffset n file) bytes else s.vfs.contents n) := by
    simp only [arrays, hf, hnode]
    cases (s.vfs.vfsWrite file bytes).1 with
    | none => simp [update_contents h hlive]
    | some count =>
      have hlen : (s.vfs.node n).size = (a n).length := by
        rw [← h.contents n hlive, Vfs.length_contents]
      simp [Vfs.writeOffset, h.contents n hlive, hlen]
  rw [harr]
  refine (h.holds hlive hst hh).setFile ?_
  rintro _ ⟨⟩
  refine ⟨n, ?_, hfile, hle⟩
  rw [Vfs.mem_linked, (hst.node n).linked]
  exact hn

theorem Refines.call (h : s.Refines a) (c : FsCall) (hc : c.onContents) :
    (s.call c).Refines (s.arrays a c) := by
  cases c with
  | openPath k path flags =>
    simp only [Session.call, arrays]
    cases hf : s.file k with
    | some file => exact h
    | none => exact h.vfsOpen k path flags
  | close k =>
    simp only [Session.call, arrays]
    cases hf : s.file k with
    | none => exact h
    | some file => exact h.vfsClose k hf
  | read k length =>
    simp only [Session.call, arrays]
    cases hf : s.file k with
    | none => exact h
    | some file =>
      obtain ⟨n, hn, hnode, hoff⟩ := h.handle k file hf
      obtain ⟨hnode', -, hoff'⟩ :=
        Vfs.vfsRead_file (h.filled n (h.linked_live hn)) hnode hoff length
      refine h.setFile ?_
      rintro _ ⟨⟩
      exact ⟨n, hn, hnode', hoff'⟩
  | write k bytes =>
    simp only [Session.call]
    cases hf : s.file k with
    | none =>
      simp only [arrays, hf]
      exact h
    | some file => exact h.vfsWrite k hf bytes
  | seek k offset origin =>
    simp only [Session.call, arrays]
    cases hf : s.file k with
    | none => exact h
    | some file =>
      obtain ⟨n, hn, hnode, hoff⟩ := h.handle k file hf
      obtain ⟨hnode', hoff'⟩ := Vfs.vfsSeek_file (s := s.vfs) hnode hoff offset origin
      refine h.setFile ?_
      rintro _ ⟨⟩
      exact ⟨n, hn, hnode', hoff'⟩
  | readdir | mkdir | unlink | rename => cases hc

theorem ArrayRun.refines {boot : Vfs} (hrun : ArrayRun boot s a)
    (h : (Session.start boot).Refines boot.payload) : s.Refines a := by
  induction hrun with
  | start => exact h
  | call c _ hc ih => exact ih.call c hc

/-- Along every run, a read returns the right number of bytes, and they are the
bytes of the array exactly when the storage lets the source's copy loop see them. -/
theorem read_array_iff (tarData : Mem) (tarSize : Nat) (heap : List (Option Ptr)) (phys : Phys)
    (A : Multiset Nat) (hphys : phys.Avail A) (boot : Vfs)
    (hboot : Vfs.vfsInit tarData tarSize heap phys = some boot) (s : Session)
    (a : Ptr → List UInt8) (hrun : ArrayRun boot s a) (handle : Nat) (file : File) (n : Ptr)
    (hfile : s.file handle = some file) (hnode : file.node = some n)
    (hreg : (s.vfs.node n).type = .reg) (hread : file.flags.read = true) (length : Nat) :
    (∃ bytes, (s.vfs.vfsRead file length).1 = some bytes ∧
      bytes.length = min length ((a n).length - file.offset)) ∧
    ((s.vfs.vfsRead file length).1 = some (((a n).drop file.offset).take length) ↔
      s.vfs.ReadsArray n (a n) file.offset length) := by
  have h := hrun.refines (refines_start hphys hboot)
  obtain ⟨m, hm, hnode', -⟩ := h.handle handle file hfile
  obtain rfl : m = n := Option.some_inj.mp (hnode'.symm.trans hnode)
  have hcontents := h.contents m (h.linked_live hm)
  constructor
  · refine ⟨_, Vfs.vfsRead_count hnode hreg hread length, ?_⟩
    rw [Vfs.length_readLoop, ← hcontents, Vfs.length_contents]
  · rw [← hcontents]
    exact Vfs.vfsRead_iff hnode hreg hread length

def replay (cs : List FsCall) (x : Session × (Ptr → List UInt8)) : Session × (Ptr → List UInt8) :=
  cs.foldl (fun x c => (x.1.call c, x.1.arrays x.2 c)) x

theorem ArrayRun.replay {boot : Vfs} (h : ArrayRun boot s a) {cs : List FsCall}
    (hc : ∀ c ∈ cs, c.onContents) :
    ArrayRun boot (Session.replay cs (s, a)).1 (Session.replay cs (s, a)).2 := by
  induction cs generalizing s a with
  | nil => exact h
  | cons c cs ih =>
    exact ih (.call c h (hc c (by simp))) fun d hd => hc d (List.mem_cons_of_mem _ hd)

def scratchPhys : Phys := mmInit [⟨4096, 4096, limineMemmapUsable⟩] (fun _ => 0) []

theorem memmapOk_scratchPhys : MemmapOk [⟨4096, 4096, limineMemmapUsable⟩] where
  entry e he _ := by
    rw [List.mem_singleton.mp he]
    exact ⟨rfl, rfl, by decide, by decide⟩
  disjoint := by simp

def scratchBoot : Vfs := emptyBoot [some 3, some 4] scratchPhys

def scratchCalls (position : Int) : List FsCall :=
  [.openPath 0 ⟨[47, 97], CString.noNul_slash_a⟩ 7, .write 0 [97, 98], .seek 0 position 0]

def scratch (position : Int) : Session × (Ptr → List UInt8) :=
  replay (scratchCalls position) (start scratchBoot, scratchBoot.payload)

theorem scratch_run (position : Int) :
    ArrayRun scratchBoot (scratch position).1 (scratch position).2 :=
  ArrayRun.start.replay (by simp [scratchCalls, FsCall.onContents])

/-- The file holds `ab`, and a read of one byte at offset 1 delivers `a`. -/
theorem read_array_fails :
    Vfs.vfsInit (fun _ => 0) 1024 (some 1 :: some 2 :: [some 3, some 4]) scratchPhys =
      some scratchBoot ∧
    ArrayRun scratchBoot (scratch 1).1 (scratch 1).2 ∧
    (scratch 1).1.file 0 = some ⟨some 3, 1, 7⟩ ∧
    (scratch 1).2 3 = [97, 98] ∧
    ((scratch 1).1.vfs.vfsRead ⟨some 3, 1, 7⟩ 1).1 = some [97] ∧
    some [97] ≠ some ((((scratch 1).2 3).drop 1).take 1) :=
  ⟨vfsInit_emptyBoot _ _, scratch_run 1, by decide +kernel, by decide +kernel, by decide +kernel,
    by decide +kernel⟩

/-- Read from offset 0, the same file delivers `ab`. -/
theorem read_array_iff_scratch :
    ((scratch 0).1.vfs.vfsRead ⟨some 3, 0, 7⟩ 9).1 = some ((((scratch 0).2 3).drop 0).take 9) :=
  (read_array_iff (fun _ => 0) 1024 [some 1, some 2, some 3, some 4] scratchPhys _
    (Phys.avail_mmInit memmapOk_scratchPhys) scratchBoot (vfsInit_emptyBoot _ _) (scratch 0).1
    (scratch 0).2 (scratch_run 0) 0 ⟨some 3, 0, 7⟩ 3 (by decide +kernel) rfl (by decide +kernel)
    (by decide +kernel) 9).2.mpr (.inr (.inl rfl))

end Session

end NarcOs
