import NarcOs.Fs.Entries

/-!
# Directory listings

A listing reads a directory through one handle while other calls change the
directory. `vfs_readdir` finds its place by a number, the entries before it; a
call that takes one of these out moves the entries after it down, and one of
them is passed over. Where no call does that, every entry that stays is
returned exactly once.
-/

namespace NarcOs

def VfsDirent.string (entry : VfsDirent) : List UInt8 := entry.name.takeWhile (· != 0)

structure Session.Opens (s : Session) (handle : Nat) (path : CString) (flags : OpenFlags) (d : Ptr) : Prop where
  closed : s.file handle = none
  file : ∃ file, (s.vfs.vfsOpen path flags).2.1 = some file ∧ file.node = some d
  directory : ((s.vfs.vfsOpen path flags).2.2.node d).type = .dir

/-- A directory while it is listed: `kept` are the entries that were there when
it was opened and have stayed, `seen` the names that `vfs_readdir` returned. -/
structure Listing where
  session : Session
  kept : List Ptr
  seen : List (List UInt8)

namespace Listing

variable {handle : Nat} {d : Ptr} {l l' : Listing}

def start (s : Session) (d : Ptr) : Listing := ⟨s, s.vfs.entries d, []⟩

def passed (l : Listing) (d : Ptr) (file : File) : List Ptr := (l.session.vfs.entries d).take file.offset

inductive Step (handle : Nat) (d : Ptr) : Listing → Listing → Prop
  | other {l : Listing} (c : FsCall) : c.handle ≠ some handle →
      Step handle d l
        { session := l.session.call c
          kept := l.kept.filter (l.session.vfs.Stays (l.session.call c).vfs d)
          seen := l.seen }
  | entry {l : Listing} (file : File) (e : VfsDirent) : l.session.file handle = some file →
      (l.session.vfs.vfsReaddir file e).1 = 1 →
      Step handle d l
        { session := l.session.call (.readdir handle e)
          kept := l.kept
          seen := l.seen ++ [(l.session.vfs.vfsReaddir file e).2.2.string] }

/-- The step takes out no entry that the handle has passed, unless it has
passed all the entries to be kept. -/
def Careful (handle : Nat) (d : Ptr) (l l' : Listing) : Prop :=
  ∀ file, l.session.file handle = some file →
    (∀ p ∈ l.passed d file, l.session.vfs.Stays l'.session.vfs d p) ∨ ∀ p ∈ l'.kept, p ∈ l.passed d file

def Over (handle : Nat) (l : Listing) : Prop :=
  ∃ file e, l.session.file handle = some file ∧ (l.session.vfs.vfsReaddir file e).1 = 0

/-- Every entry that stayed was returned exactly once. -/
def Complete (l : Listing) : Prop := ∀ p ∈ l.kept, l.seen.count (l.session.vfs.node p).name = 1

abbrev Run (handle : Nat) (d : Ptr) := Relation.ReflTransGen (Step handle d)

abbrev CarefulRun (handle : Nat) (d : Ptr) :=
  Relation.ReflTransGen fun l l' => Step handle d l l' ∧ Careful handle d l l'

/-- What a listing keeps: the entries that the handle has passed are the ones
returned so far, once each. -/
structure Sound (handle : Nat) (d : Ptr) (l : Listing) : Prop where
  tree : ∃ kids, l.session.vfs.Tree kids
  addressed : l.session.vfs.Addressed
  linked : l.kept ≠ [] → d ∈ l.session.vfs.linked
  file : ∃ file, l.session.file handle = some file ∧ file.node = some d
  entry : ∀ p ∈ l.kept, p ∈ l.session.vfs.entries d
  once : ∀ file, l.session.file handle = some file → ∀ p ∈ l.kept,
    l.seen.count (l.session.vfs.node p).name = if p ∈ l.passed d file then 1 else 0

-- ---------------------------------------------------------------------------
-- Positions in a list that loses and gains elements
-- ---------------------------------------------------------------------------

section
variable {xs new : List Ptr} {f : Ptr → Bool} {k : Nat} {p : Ptr}

theorem filter_eq_take_drop (xs : List Ptr) (f : Ptr → Bool) (k : Nat) :
    xs.filter f = (xs.take k).filter f ++ (xs.drop k).filter f := by
  rw [← List.filter_append, List.take_append_drop]

theorem mem_take_filter (hp : p ∈ xs.take k) (hf : f p) : p ∈ (xs.filter f ++ new).take k := by
  rw [filter_eq_take_drop xs f k, List.append_assoc, List.take_append]
  refine List.mem_append_left _ ?_
  have hlen : ((xs.take k).filter f).length ≤ k :=
    (List.length_filter_le _ _).trans (List.length_take_le _ _)
  rw [List.take_of_length_le hlen]
  exact List.mem_filter.mpr ⟨hp, hf⟩

theorem take_filter_of_all (hk : k ≤ xs.length) (hf : ∀ p ∈ xs.take k, f p) :
    (xs.filter f ++ new).take k = xs.take k := by
  have hlen : (xs.take k).length = k := List.length_take_of_le hk
  rw [filter_eq_take_drop xs f k, List.filter_eq_self.mpr hf, List.append_assoc, List.take_append, hlen,
    Nat.sub_self, List.take_zero, List.append_nil, List.take_of_length_le hlen.le]

end

-- ---------------------------------------------------------------------------
-- Steps
-- ---------------------------------------------------------------------------

theorem call_file (s : Session) {c : FsCall} (h : c.handle ≠ some handle) :
    (s.call c).file handle = s.file handle := by
  have hset : ∀ (s : Session) (a : Nat) (file : Option File), some a ≠ some handle →
      (s.setFile a file).file handle = s.file handle := fun s a file ha =>
    Function.update_of_ne (fun e => ha (congrArg some e.symm)) _ _
  cases c with
  | mkdir | unlink | rename => rfl
  | openPath a | close a | read a | write a | seek a | readdir a =>
    simp only [Session.call]
    split
    · rfl
    · exact hset _ _ _ h

theorem Sound.other (h : Sound handle d l) {c : FsCall} (hc : c.handle ≠ some handle)
    (hcare : Careful handle d l
      { session := l.session.call c
        kept := l.kept.filter (l.session.vfs.Stays (l.session.call c).vfs d)
        seen := l.seen }) :
    Sound handle d
      { session := l.session.call c
        kept := l.kept.filter (l.session.vfs.Stays (l.session.call c).vfs d)
        seen := l.seen } := by
  obtain ⟨kids, ht⟩ := h.tree
  have hloses := Session.call_loses ht c
  have hkept : ∀ p ∈ l.kept.filter (l.session.vfs.Stays (l.session.call c).vfs d),
      p ∈ l.kept ∧ l.session.vfs.Stays (l.session.call c).vfs d p := fun p hp => by
    simpa using List.mem_filter.mp hp
  have hd : ∀ p ∈ l.kept, d ∈ l.session.vfs.linked ∧ d ∈ (l.session.call c).vfs.linked := fun p hp => by
    have hd := h.linked (List.ne_nil_of_mem hp)
    exact ⟨hd, hloses.linked hd (h.entry p hp)⟩
  constructor
  · exact (Session.call_changes ht c).tree ht
  · exact h.addressed.draws (l.session.call_draws c)
  · intro hne
    obtain ⟨p, hp⟩ := List.exists_mem_of_ne_nil _ hne
    exact (hd p (hkept p hp).1).2
  · rw [call_file _ hc]
    exact h.file
  · intro p hp
    obtain ⟨hp, hst⟩ := hkept p hp
    obtain ⟨new, hnew⟩ := hloses.entries ht (hd p hp).1 (hd p hp).2
    show p ∈ (l.session.call c).vfs.entries d
    rw [hnew]
    exact List.mem_append_left _ (List.mem_filter.mpr ⟨h.entry p hp, decide_eq_true hst⟩)
  · intro file hfile p hp
    rw [call_file _ hc] at hfile
    obtain ⟨hpk, hst⟩ := hkept p hp
    obtain ⟨new, hnew⟩ := hloses.entries ht (hd p hpk).1 (hd p hpk).2
    have hiff : p ∈ ((l.session.call c).vfs.entries d).take file.offset ↔ p ∈ l.passed d file := by
      rw [hnew]
      refine ⟨fun hin => ?_, fun hin => mem_take_filter hin (decide_eq_true hst)⟩
      rcases hcare file hfile with hall | hall
      · rcases le_total file.offset (l.session.vfs.entries d).length with hle | hle
        · rwa [take_filter_of_all hle fun q hq => decide_eq_true (hall q hq)] at hin
        · rw [passed, List.take_of_length_le hle]
          exact h.entry p hpk
      · exact hall p hp
    simp only [passed] at hiff ⊢
    rw [hst.2, h.once file hfile p hpk, passed]
    simp only [hiff]

theorem entries_length {s : Vfs} {kids : Ptr → List Ptr} (h : s.Tree kids) (ha : s.Addressed)
    (hd : d ∈ s.linked) : (s.entries d).length < 2 ^ 64 := by
  rw [h.links.entries_eq hd]
  have hroot : s.root ∉ kids d := fun hr => h.kid_ne_root hd hr rfl
  have hsub : (s.root :: kids d).toFinset ⊆ Finset.range (2 ^ 64) := fun p hp => by
    rw [List.mem_toFinset, List.mem_cons] at hp
    refine Finset.mem_range.mpr (ha.live p ?_)
    rcases hp with rfl | hp
    · exact h.live h.root
    · exact h.live (h.kid_linked hd hp)
  have hcard := Finset.card_le_card hsub
  rw [List.toFinset_card_of_nodup (List.nodup_cons.mpr ⟨hroot, h.links.nodup hd⟩), Finset.card_range,
    List.length_cons] at hcard
  exact hcard

/-- What `vfs_readdir` returns is the next entry. -/
theorem readdir_one {s : Vfs} {file : File} {e : VfsDirent} (hnode : file.node = some d)
    (h : (s.vfsReaddir file e).1 = 1) : ∃ child, (s.entries d)[file.offset]? = some child ∧
      (s.vfsReaddir file e).2.1 = { file with offset := wrap64 (file.offset + 1) } ∧
      (s.vfsReaddir file e).2.2.name = (s.node child).name ++ 0 :: e.name.drop ((s.node child).name.length + 1) := by
  unfold Vfs.vfsReaddir at h ⊢
  rw [hnode] at h ⊢
  simp only at h ⊢
  split at h
  · cases h
  rename_i hdir
  rw [if_neg hdir]
  cases hc : (s.entries d)[file.offset]? with
  | none =>
    rw [hc] at h
    cases h
  | some child => exact ⟨child, rfl, rfl, rfl⟩

theorem readdir_zero {s : Vfs} {file : File} {e : VfsDirent} (hnode : file.node = some d)
    (h : (s.vfsReaddir file e).1 = 0) : (s.entries d).length ≤ file.offset := by
  unfold Vfs.vfsReaddir at h
  rw [hnode] at h
  simp only at h
  split at h
  · cases h
  split at h
  · rename_i hnone
    exact List.getElem?_eq_none_iff.mp hnone
  · cases h

theorem takeWhile_name {name rest : List UInt8} (h : (0 : UInt8) ∉ name) :
    (name ++ 0 :: rest).takeWhile (· != 0) = name := by
  rw [List.takeWhile_append_of_pos fun b hb => by simpa using ne_of_mem_of_not_mem hb h]
  simp

theorem Sound.next (h : Sound handle d l) {file : File} {e : VfsDirent}
    (hfile : l.session.file handle = some file) (hone : (l.session.vfs.vfsReaddir file e).1 = 1) :
    Sound handle d
      { session := l.session.call (.readdir handle e)
        kept := l.kept
        seen := l.seen ++ [(l.session.vfs.vfsReaddir file e).2.2.string] } := by
  obtain ⟨kids, ht⟩ := h.tree
  obtain ⟨file', hfile', hnode⟩ := h.file
  rw [hfile] at hfile'
  cases hfile'
  obtain ⟨child, hchild, hnext, hname⟩ := readdir_one hnode hone
  have hcall : l.session.call (.readdir handle e) =
      l.session.setFile handle (some { file with offset := wrap64 (file.offset + 1) }) := by
    simp only [Session.call, hfile, hnext]
  have hset : (l.session.setFile handle (some { file with offset := wrap64 (file.offset + 1) })).file handle =
      some { file with offset := wrap64 (file.offset + 1) } := Function.update_self _ _ _
  rw [hcall]
  refine ⟨⟨kids, ht⟩, h.addressed, h.linked, ⟨_, hset, hnode⟩, h.entry, fun file' hfile' p hp => ?_⟩
  rw [hset] at hfile'
  cases hfile'
  have hd := h.linked (List.ne_nil_of_mem hp)
  have hent := ht.links.entries_eq hd
  have hpe := h.entry p hp
  obtain ⟨hlt, hget⟩ := List.getElem?_eq_some_iff.mp hchild
  have hwrap : wrap64 (file.offset + 1) = file.offset + 1 :=
    Nat.mod_eq_of_lt (lt_of_le_of_lt hlt (entries_length ht h.addressed hd))
  have htake : (l.session.vfs.entries d).take (file.offset + 1) = l.passed d file ++ [child] := by
    rw [List.take_add_one, hchild]
    rfl
  have hnodup : (l.passed d file ++ [child]).Nodup := by
    rw [← htake, hent]
    exact (ht.links.nodup hd).sublist (List.take_sublist _ _)
  have hcm : child ∈ kids d := hent ▸ hget ▸ List.getElem_mem hlt
  have hstring : (l.session.vfs.vfsReaddir file e).2.2.string = (l.session.vfs.node child).name := by
    rw [VfsDirent.string, hname, takeWhile_name (ht.kid_good hd hcm).noNul]
  show (l.seen ++ [(l.session.vfs.vfsReaddir file e).2.2.string]).count (l.session.vfs.node p).name = if p ∈
    (l.session.vfs.entries d).take (wrap64 (file.offset + 1)) then 1 else 0
  rw [hwrap, htake, hstring, List.count_append, h.once file hfile p hp, List.count_singleton]
  simp only [List.mem_append, List.mem_singleton]
  by_cases hpc : p = child
  · subst hpc
    have hnot : p ∉ l.passed d file := fun hin => List.disjoint_of_nodup_append hnodup hin (by simp)
    simp [hnot]
  · have hne : (l.session.vfs.node child).name ≠ (l.session.vfs.node p).name := fun he =>
      hpc (ht.distinct d hd child hcm p (hent ▸ hpe) he).symm
    simp [hpc, hne]

theorem Sound.step (h : Sound handle d l) (hs : Step handle d l l') (hc : Careful handle d l l') :
    Sound handle d l' := by
  cases hs with
  | other c hne => exact h.other hne hc
  | entry file e hfile hone => exact h.next hfile hone

theorem Sound.run (h : Sound handle d l) (hr : CarefulRun handle d l l') : Sound handle d l' := by
  induction hr with
  | refl => exact h
  | tail _ hs ih => exact ih.step hs.1 hs.2

theorem Sound.complete (h : Sound handle d l) (ho : Over handle l) : l.Complete := by
  obtain ⟨file, e, hfile, hzero⟩ := ho
  obtain ⟨file', hfile', hnode⟩ := h.file
  rw [hfile] at hfile'
  cases hfile'
  intro p hp
  rw [h.once file hfile p hp, passed, List.take_of_length_le (readdir_zero hnode hzero), if_pos (h.entry p hp)]

-- ---------------------------------------------------------------------------
-- Opening
-- ---------------------------------------------------------------------------

theorem openNode_file {s : Vfs} {n : Ptr} {flags : OpenFlags} {file : File}
    (h : (s.openNode n flags).2.1 = some file) : file.node = some n ∧
      (file.offset = 0 ∨ file.offset = ((s.openNode n flags).2.2.node n).size) := by
  unfold Vfs.openNode at h ⊢
  split at h
  · cases h
  split at h
  · cases h
  rename_i hdir hwrite
  rw [if_neg hdir, if_neg hwrite]
  cases h
  refine ⟨rfl, ?_⟩
  dsimp only
  rw [Vfs.modify_node, if_pos rfl]
  split
  · exact .inr rfl
  · exact .inl rfl

theorem vfsOpen_file {s : Vfs} {kids : Ptr → List Ptr} (ht : s.Tree kids) {path : CString} {flags : OpenFlags}
    {file : File} (h : (s.vfsOpen path flags).2.1 = some file) (hnode : file.node = some d) :
    d ∈ (s.vfsOpen path flags).2.2.linked ∧
      (file.offset = 0 ∨ file.offset = ((s.vfsOpen path flags).2.2.node d).size) := by
  unfold Vfs.vfsOpen at h ⊢
  cases hl : s.lookup path.bytes with
  | ok n =>
    rw [hl] at h
    simp only at h ⊢
    split at h
    · cases h
    rename_i hx
    rw [if_neg hx]
    obtain ⟨hn, hoff⟩ := openNode_file h
    rw [hnode] at hn
    cases hn
    rw [Vfs.openNode_sameTree.linked]
    exact ⟨ht.lookup_linked hl, hoff⟩
  | error status =>
    rw [hl] at h
    simp only at h ⊢
    split at h
    swap
    · cases h
    rename_i hx
    rw [if_pos hx]
    cases hp : s.lookupParent path.bytes with
    | error status' =>
      rw [hp] at h
      cases h
    | ok where_ =>
      obtain ⟨parent, name⟩ := where_
      rw [hp] at h
      obtain ⟨heap, hc | ⟨m, -, hc⟩⟩ := Vfs.newNode_cases s parent name .reg (sIfreg ||| 0o666)
      · simp only [hc] at h
        cases h
      · simp only [hc] at h ⊢
        obtain ⟨hn, hoff⟩ := openNode_file h
        rw [hnode] at hn
        cases hn
        rw [Vfs.openNode_sameTree.linked]
        refine ⟨?_, hoff⟩
        rw [Vfs.mem_linked, Vfs.attach_linked, if_pos rfl]

theorem Sound.opened {s : Session} {path : CString} {flags : OpenFlags} (ho : s.Opens handle path flags d)
    {kids : Ptr → List Ptr} (ht : s.vfs.Tree kids) (ha : s.vfs.Addressed) (he : s.vfs.DirsEmpty) :
    Sound handle d (start (s.call (.openPath handle path flags)) d) := by
  obtain ⟨file, hopen, hnode⟩ := ho.file
  obtain ⟨hlinked, hoff⟩ := vfsOpen_file ht hopen hnode
  have hcall : s.call (.openPath handle path flags) =
      Session.setFile { s with vfs := (s.vfs.vfsOpen path flags).2.2 } handle (some file) := by
    simp only [Session.call, ho.closed, hopen]
  have hset : (s.call (.openPath handle path flags)).file handle = some file := by
    rw [hcall]
    exact Function.update_self _ _ _
  have hzero : file.offset = 0 := by
    rcases hoff with hoff | hoff
    · exact hoff
    · rw [hoff]
      exact he.vfsOpen path flags d ho.directory
  have hvfs : (s.call (.openPath handle path flags)).vfs = (s.vfs.vfsOpen path flags).2.2 := by
    rw [hcall]
    rfl
  refine ⟨(Session.call_changes ht _).tree ht, ha.draws (s.call_draws _), fun _ => ?_, ⟨file, hset, hnode⟩,
    fun p hp => hp, fun file' hfile' p hp => ?_⟩
  · exact hvfs ▸ hlinked
  · rw [show (start (s.call (.openPath handle path flags)) d).session.file handle = some file from hset] at hfile'
    cases hfile'
    rw [passed, hzero]
    rfl

end Listing

theorem Session.Steps.dirsEmpty {s t : Session} (hs : Steps s t) (h : s.vfs.DirsEmpty) : t.vfs.DirsEmpty := by
  induction hs with
  | refl => exact h
  | tail _ hc ih =>
    obtain ⟨c, rfl⟩ := hc
    exact dirsEmpty_call ih c

theorem Session.Steps.addressed {s t : Session} (hs : Steps s t) (h : s.vfs.Addressed) : t.vfs.Addressed := by
  induction hs with
  | refl => exact h
  | tail _ hc ih =>
    obtain ⟨c, rfl⟩ := hc
    exact ih.draws (call_draws _ c)

/-- A directory listing whose other calls are careful returns every entry that
stays exactly once. -/
theorem listing_complete (tarData : Mem) (tarSize : Nat) (heap : List (Option Ptr)) (phys : Phys) (v : Vfs)
    (hheap : ∀ p, some p ∈ heap → p < 2 ^ 64) (hv : Vfs.vfsInit tarData tarSize heap phys = some v)
    (s : Session) (hs : Session.Steps (Session.start v) s) (handle : Nat) (path : CString) (flags : OpenFlags)
    (d : Ptr) (ho : s.Opens handle path flags d) (l : Listing)
    (hrun : Listing.CarefulRun handle d (Listing.start (s.call (.openPath handle path flags)) d) l)
    (hover : l.Over handle) : l.Complete := by
  obtain ⟨kids, hv'⟩ := Vfs.tree_vfsInit hv
  obtain ⟨kids', ht⟩ := hs.tree hv'
  have ha := hs.addressed (Vfs.addressed_vfsInit hheap hv)
  have he := hs.dirsEmpty (Vfs.dirsEmpty_vfsInit hv)
  exact ((Listing.Sound.opened ho ht ha he).run hrun).complete hover

namespace Listing

def twoEntries : Session :=
  ((Session.start (Session.emptyBoot [some 3, some 4, some 5, some 6, some 7, some 8]
    (mmInit [] (fun _ => 0) []))).call (.mkdir ⟨[47, 97], by decide⟩ 0o755)).call
      (.mkdir ⟨[47, 98], by decide⟩ 0o755)

theorem twoEntries_steps : Session.Steps (Session.start (Session.emptyBoot
    [some 3, some 4, some 5, some 6, some 7, some 8] (mmInit [] (fun _ => 0) []))) twoEntries :=
  .tail (.single ⟨_, rfl⟩) ⟨_, rfl⟩

def rootPath : CString := ⟨[47], by decide⟩

theorem twoEntries_opens : twoEntries.Opens 0 rootPath 1 1 :=
  ⟨rfl, ⟨⟨some 1, 0, 1⟩, by decide +kernel, rfl⟩, by decide +kernel⟩

def noDirent : VfsDirent := ⟨0, .reg, []⟩

end Listing

/-- With `/a` returned and then removed, `/b` is passed over. -/
theorem listing_not_complete : ¬ ∀ tarData tarSize heap phys v, (∀ p, some p ∈ heap → p < 2 ^ 64) →
    Vfs.vfsInit tarData tarSize heap phys = some v → ∀ s, Session.Steps (Session.start v) s →
      ∀ handle path flags d, s.Opens handle path flags d →
        ∀ l, Listing.Run handle d (Listing.start (s.call (.openPath handle path flags)) d) l →
          l.Over handle → l.Complete := by
  intro h
  have hcount := h _ _ _ _ _ (by simp) (Session.vfsInit_emptyBoot _ _) _ Listing.twoEntries_steps 0
    Listing.rootPath 1 1 Listing.twoEntries_opens _
    ((Relation.ReflTransGen.refl.tail (.entry ⟨some 1, 0, 1⟩ Listing.noDirent (by decide +kernel)
      (by decide +kernel))).tail (.other (.unlink ⟨[47, 97], by decide⟩ true) (by decide)))
    ⟨⟨some 1, 1, 1⟩, Listing.noDirent, by decide +kernel, by decide +kernel⟩ 5 (by decide +kernel)
  revert hcount
  decide +kernel

theorem Listing.careful_of {handle : Nat} {d : Ptr} {l l' : Listing} (file : File)
    (hfile : l.session.file handle = some file)
    (h : ∀ p ∈ l.passed d file, l.session.vfs.Stays l'.session.vfs d p) : Careful handle d l l' := by
  intro file' hfile'
  rw [hfile] at hfile'
  cases hfile'
  exact .inl h

/-- `/a` is returned, `/c` is made, and the reading goes on to its end. -/
theorem listing_complete_mkdir : ∃ l : Listing,
    Listing.CarefulRun 0 1 (Listing.start (Listing.twoEntries.call (.openPath 0 Listing.rootPath 1)) 1) l ∧
      l.kept = [3, 5] ∧ l.Complete := by
  have hrun := ((((Relation.ReflTransGen.refl (r := fun l l' => Listing.Step 0 1 l l' ∧ Listing.Careful 0 1 l l')
    (a := Listing.start (Listing.twoEntries.call (.openPath 0 Listing.rootPath 1)) 1)).tail
      ⟨.entry ⟨some 1, 0, 1⟩ Listing.noDirent (by decide +kernel) (by decide +kernel),
        Listing.careful_of ⟨some 1, 0, 1⟩ (by decide +kernel) (by decide +kernel)⟩).tail
      ⟨.other (.mkdir ⟨[47, 99], by decide⟩ 0o755) (by decide),
        Listing.careful_of ⟨some 1, 1, 1⟩ (by decide +kernel) (by decide +kernel)⟩).tail
      ⟨.entry ⟨some 1, 1, 1⟩ Listing.noDirent (by decide +kernel) (by decide +kernel),
        Listing.careful_of ⟨some 1, 1, 1⟩ (by decide +kernel) (by decide +kernel)⟩).tail
      ⟨.entry ⟨some 1, 2, 1⟩ Listing.noDirent (by decide +kernel) (by decide +kernel),
        Listing.careful_of ⟨some 1, 2, 1⟩ (by decide +kernel) (by decide +kernel)⟩
  exact ⟨_, hrun, by decide +kernel, listing_complete _ _ _ _ _ (by simp) (Session.vfsInit_emptyBoot _ _) _
    Listing.twoEntries_steps 0 Listing.rootPath 1 1 Listing.twoEntries_opens _ hrun
    ⟨⟨some 1, 3, 1⟩, Listing.noDirent, by decide +kernel, by decide +kernel⟩⟩

end NarcOs
