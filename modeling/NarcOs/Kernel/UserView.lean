import NarcOs.Kernel.UserLaws

/-!
# What a program sees of its memory

`userView` is a user address as the program finds it: there or not, writable or
not, and its byte. The operations of the loader and the copies of the system
calls change it address by address; `Shows` says how.
-/

namespace NarcOs

variable {p p' p'' q : Phys} {root virt : Nat} {A B : Multiset Nat} {kids kids' : Fin 512 → PTree}

def Phys.userView (p : Phys) (root virt : Nat) : Option (Bool × UInt8) :=
  match p.presentPte root virt with
  | none => none
  | some (_, _, pte) => if isUser pte then some (isWrite pte, p.mem (p.vmmUserPhys root virt)) else none

def treeView (m : Mem) (kids : Fin 512 → PTree) (virt : Nat) : Option (Bool × UInt8) :=
  (PTree.lookup 3 kids virt).bind fun e =>
    if isUser e then some (isWrite e, m (pteAddr e + virt % 4096)) else none

theorem treeView_none {m : Mem} (h : PTree.lookup 3 kids virt = none) : treeView m kids virt = none := by
  rw [treeView, h]
  rfl

theorem treeView_some {m : Mem} {e : Nat} (h : PTree.lookup 3 kids virt = some e) :
    treeView m kids virt = if isUser e then some (isWrite e, m (pteAddr e + virt % 4096)) else none := by
  rw [treeView, h]
  rfl

theorem treeView_congr {m m' : Mem} (hl : PTree.lookup 3 kids' virt = PTree.lookup 3 kids virt)
    (hbyte : ∀ e, PTree.lookup 3 kids virt = some e → m' (pteAddr e + virt % 4096) = m (pteAddr e + virt % 4096)) :
    treeView m' kids' virt = treeView m kids virt := by
  cases h : PTree.lookup 3 kids virt with
  | none => rw [treeView_none (hl.trans h), treeView_none h]
  | some e => rw [treeView_some (hl.trans h), treeView_some h, hbyte e h]

theorem presentPte_page (va : Nat) : p.presentPte root (va / 4096 * 4096) = p.presentPte root va := by
  have hi : ∀ l, tableIndex (va / 4096 * 4096) l = tableIndex va l := fun l => by
    rw [tableIndex, tableIndex, Nat.mul_div_cancel _ (by decide)]
  unfold Phys.presentPte Phys.getPte
  simp only [hi]

theorem IsSpace.vmmUserPhys_eq (h : IsSpace p.mem root kids) (hv : UserHalf virt) {e : Nat}
    (hl : PTree.lookup 3 kids virt = some e) (hu : isUser e = true) :
    p.vmmUserPhys root virt = pteAddr e + virt % 4096 := by
  have hpres := h.presentPte hv
  rw [hl] at hpres
  obtain ⟨pt, i, hsome, -, -⟩ := hpres
  obtain ⟨-, hf, -⟩ := h.entries.isFrame_leaf hv hl
  unfold Phys.vmmUserPhys
  simp only [hsome, hu, not_true_eq_false, if_false]
  exact or_eq_add hf.aligned (Nat.mod_lt _ (by decide))

theorem IsSpace.userView (h : IsSpace p.mem root kids) (hv : UserHalf virt) :
    p.userView root virt = treeView p.mem kids virt := by
  have hpres := h.presentPte hv
  unfold Phys.userView
  cases hl : PTree.lookup 3 kids virt with
  | none =>
    rw [hl] at hpres
    rw [hpres, treeView_none hl]
  | some e =>
    rw [hl] at hpres
    obtain ⟨pt, i, hsome, -, -⟩ := hpres
    rw [hsome, treeView_some hl]
    dsimp only
    cases hu : isUser e with
    | false => rfl
    | true => rw [h.vmmUserPhys_eq hv hl hu]

theorem Sound.userView_isSome (hs : Sound p root) (hv : UserHalf virt) :
    (p.userView root virt).isSome ↔ p.vmmUserPhys root virt ≠ 0 := by
  obtain ⟨A, kids, -, hsp, -⟩ := hs
  rw [hsp.vmmUserPhys hv, hsp.userView hv, treeView]
  cases PTree.lookup 3 kids virt with
  | none => simp
  | some e => cases hu : isUser e <;> simp [hu]

theorem PTree.pages_ne {level v v' e e' : Nat} (hnd : (sumFin fun j => (kids j).pages).Nodup)
    (hl : PTree.lookup level kids v = some e) (hl' : PTree.lookup level kids v' = some e')
    (hne : ¬ PTree.SamePath level v v') : pteAddr e ≠ pteAddr e' :=
  (x86Pte true).pages_ne (by simpa only [PTree.pages_radix] using hnd) hl hl' hne

theorem samePath_iff_page {v v' : Nat} (hv : v < 2 ^ 47) (hv' : v' < 2 ^ 47) :
    PTree.SamePath 3 v v' ↔ v / 4096 = v' / 4096 :=
  PTree.samePath_iff_page (by omega) (by omega)

-- ---------------------------------------------------------------------------
-- Changes of the view
-- ---------------------------------------------------------------------------

/-- Only free frames and those of the space are written, and no other gets into it. -/
def Remaps (root : Nat) (p p' : Phys) : Prop :=
  ∀ A kids, p.Avail A → IsSpace p.mem root kids → (A + spaceFrames root kids).Nodup →
    ∃ B kids' lost, Remapped p p' root A B kids kids' 0 lost

theorem Remaps.trans (h : Remaps root p p') (h' : Remaps root p' p'') : Remaps root p p'' := by
  intro A kids hA hsp hnd
  obtain ⟨B, kids', lost, hre⟩ := h A kids hA hsp hnd
  obtain ⟨C, kids'', lost', hre'⟩ := h' B kids' hre.avail hre.space (hre.nodup (by rwa [add_zero]))
  exact ⟨C, kids'', lost + lost', hre.trans hre'⟩

structure Shows (root : Nat) (p p' : Phys) (f : Nat → Option (Bool × UInt8) → Option (Bool × UInt8)) : Prop where
  remaps : Remaps root p p'
  view : Sound p root → ∀ v < 2 ^ 47, p'.userView root v = f v (p.userView root v)

variable {f g : Nat → Option (Bool × UInt8) → Option (Bool × UInt8)}

theorem Shows.sound (h : Shows root p p' f) (hs : Sound p root) : Sound p' root := by
  obtain ⟨A, kids, hA, hsp, hnd⟩ := hs
  obtain ⟨B, kids', lost, hre⟩ := h.remaps A kids hA hsp hnd
  exact hre.sound hnd

theorem Shows.refl (root : Nat) (p : Phys) : Shows root p p fun _ o => o where
  remaps A kids hA hsp _ := ⟨A, kids, 0, .refl hA hsp⟩
  view _ _ _ := rfl

theorem Shows.trans (h : Shows root p p' f) (h' : Shows root p' p'' g) :
    Shows root p p'' fun v o => g v (f v o) where
  remaps := h.remaps.trans h'.remaps
  view hs v hv := by rw [h'.view (h.sound hs) v hv, h.view hs v hv]

theorem Shows.congr (h : Shows root p p' f) (hfg : ∀ v o, f v o = g v o) : Shows root p p' g where
  remaps := h.remaps
  view hs v hv := (h.view hs v hv).trans (hfg v _)

def writeAt (dst : Nat) (bytes : List UInt8) (v : Nat) (o : Option (Bool × UInt8)) : Option (Bool × UInt8) :=
  if dst ≤ v ∧ v < dst + bytes.length then o.map fun w => (w.1, bytes.getD (v - dst) 0) else o

theorem writeAt_nil (dst v : Nat) (o : Option (Bool × UInt8)) : writeAt dst [] v o = o := by
  unfold writeAt
  rw [if_neg (by simp)]

theorem writeAt_append (dst : Nat) (bs cs : List UInt8) (v : Nat) (o : Option (Bool × UInt8)) :
    writeAt (dst + bs.length) cs v (writeAt dst bs v o) = writeAt dst (bs ++ cs) v o := by
  unfold writeAt
  rw [List.length_append]
  by_cases h₁ : dst ≤ v ∧ v < dst + bs.length
  · rw [if_pos h₁, if_neg (by omega), if_pos (by omega), List.getD_append _ _ _ _ (by omega)]
  · rw [if_neg h₁]
    by_cases h₂ : dst + bs.length ≤ v ∧ v < dst + bs.length + cs.length
    · rw [if_pos h₂, if_pos (by omega), List.getD_append_right _ _ _ _ (by omega),
        show v - dst - bs.length = v - (dst + bs.length) by omega]
    · rw [if_neg h₂, if_neg (by omega)]

theorem isSome_writeAt (dst : Nat) (bytes : List UInt8) (v : Nat) (o : Option (Bool × UInt8)) :
    (writeAt dst bytes v o).isSome = o.isSome := by
  unfold writeAt
  split
  · exact Option.isSome_map
  · rfl

theorem IsSpace.writePage (h : IsSpace p.mem root kids) (hA : p.Avail A) (hnd : (A + spaceFrames root kids).Nodup)
    {dst e : Nat} {bytes : List UInt8} (hv : UserHalf dst) (hl : PTree.lookup 3 kids dst = some e) (hu : isUser e = true)
    (hlen : dst % 4096 + bytes.length ≤ 4096) :
    Remapped p { p with mem := p.mem.write (p.vmmUserPhys root dst) bytes } root A A kids kids 0 0 ∧
      Mem.Within {pteAddr e} p.mem (p.mem.write (p.vmmUserPhys root dst) bytes) := by
  obtain ⟨-, hf, hmem⟩ := h.entries.isFrame_leaf hv hl
  have hmem' : pteAddr e ∈ spaceFrames root kids := Multiset.mem_add.mpr (.inr hmem)
  have hwithin : Mem.Within {pteAddr e} p.mem (p.mem.write (p.vmmUserPhys root dst) bytes) := by
    rw [h.vmmUserPhys_eq hv hl hu]
    exact Mem.within_write hf (Multiset.mem_singleton_self _) hlen
  refine ⟨⟨hA.within hwithin (fun f hfA => ?_) rfl, h.within hwithin fun f hft => ?_, rfl,
    hwithin.mono fun f hf => ?_⟩, hwithin⟩
  · rw [Multiset.mem_singleton]
    rintro rfl
    exact not_mem_of_add hnd hfA hmem'
  · rw [Multiset.mem_singleton]
    rintro rfl
    exact not_mem_of_add (Multiset.nodup_add.mp hnd).2.1 hft hmem
  · rw [Multiset.mem_singleton.mp hf]
    exact Multiset.mem_add.mpr (.inr hmem')

theorem writePage_shows {dst : Nat} {bytes : List UInt8} (hdst : dst < 2 ^ 47)
    (hne : p.vmmUserPhys root dst ≠ 0) (hlen : dst % 4096 + bytes.length ≤ 4096) :
    Shows root p { p with mem := p.mem.write (p.vmmUserPhys root dst) bytes } (writeAt dst bytes) := by
  have hv := userHalf_of_lt hdst
  constructor
  case remaps =>
    intro A kids hA hsp hnd
    obtain ⟨e, hl, hu⟩ := (hsp.vmmUserPhys hv).mp hne
    exact ⟨A, kids, 0, (hsp.writePage hA hnd hv hl hu hlen).1⟩
  rintro ⟨A, kids, hA, hsp, hnd⟩ v hv47
  obtain ⟨e, hl, hu⟩ := (hsp.vmmUserPhys hv).mp hne
  obtain ⟨⟨-, hsp', -, -⟩, hwithin⟩ := hsp.writePage hA hnd hv hl hu hlen
  have hphys := hsp.vmmUserPhys_eq hv hl hu
  have hndk := (Multiset.nodup_add.mp hnd).2.1
  rw [IsSpace.userView (p := { p with mem := p.mem.write (p.vmmUserPhys root dst) bytes }) hsp'
    (userHalf_of_lt hv47), hsp.userView (userHalf_of_lt hv47)]
  unfold writeAt
  cases hlv : PTree.lookup 3 kids v with
  | none =>
    rw [treeView_none hlv, treeView_none hlv]
    split <;> rfl
  | some e' =>
    rw [treeView_some hlv, treeView_some hlv]
    obtain ⟨-, hf', hmem'⟩ := hsp.entries.isFrame_leaf (userHalf_of_lt hv47) hlv
    by_cases hpage : dst / 4096 = v / 4096
    · -- the frame that is written
      have hpath := (samePath_iff_page hdst hv47).mpr hpage
      rw [← PTree.lookup_samePath hpath, hl] at hlv
      cases hlv
      rw [hphys, hu]
      simp only [if_true]
      by_cases hin : dst ≤ v ∧ v < dst + bytes.length
      · rw [if_pos hin, Option.map_some,
          show pteAddr e + v % 4096 = pteAddr e + dst % 4096 + (v - dst) by omega,
          Mem.write_apply_inside (by omega)]
      · rw [if_neg hin, Mem.write_apply_outside (by omega)]
    · have hpath : ¬ PTree.SamePath 3 dst v := fun h => hpage ((samePath_iff_page hdst hv47).mp h)
      have hother := PTree.pages_ne (Multiset.nodup_add.mp hndk).2.1 hl hlv hpath
      have hbyte := hwithin _ hf' (by rw [Multiset.mem_singleton]; exact Ne.symm hother) (v % 4096)
        (Nat.mod_lt _ (by decide))
      rw [if_neg (show ¬ (dst ≤ v ∧ v < dst + bytes.length) by omega)]
      exact congrArg (fun b => if isUser e' then some (isWrite e', b) else none) hbyte

-- ---------------------------------------------------------------------------
-- Copies
-- ---------------------------------------------------------------------------

theorem chunkTo_pos {dst len : Nat} (h : 0 < len) : 0 < Phys.chunkTo dst len := by
  unfold Phys.chunkTo pageSize
  split <;> omega

theorem copyOut_shows (n : Nat) {dst : Nat} {bytes : List UInt8} (hend : dst + bytes.length ≤ 2 ^ 47)
    (hn : bytes.length ≤ n) (hok : (Phys.copyOut root n dst bytes p).1 = true) :
    Shows root p (Phys.copyOut root n dst bytes p).2 (writeAt dst bytes) := by
  induction n generalizing dst bytes p with
  | zero =>
    rw [List.length_eq_zero_iff.mp (Nat.le_zero.mp hn)]
    exact (Shows.refl root p).congr fun v o => (writeAt_nil dst v o).symm
  | succ n ih =>
    rw [Phys.copyOut] at hok ⊢
    split
    · rename_i hbytes
      rw [hbytes]
      exact (Shows.refl root p).congr fun v o => (writeAt_nil dst v o).symm
    rename_i hbytes
    rw [if_neg hbytes] at hok
    simp only at hok ⊢
    split
    · rename_i hz
      rw [if_pos hz] at hok
      cases hok
    rename_i hne
    rw [if_neg hne] at hok
    have hpos := List.length_pos_iff.mpr hbytes
    obtain ⟨hle, hpage⟩ := chunkTo_le dst bytes.length
    have hchunk : 0 < Phys.chunkTo dst bytes.length := chunkTo_pos hpos
    set c := Phys.chunkTo dst bytes.length
    have hw : wrap64 (dst + c) = dst + c := by
      unfold wrap64
      omega
    rw [hw] at hok ⊢
    have htake : (bytes.take c).length = c := by
      rw [List.length_take]
      omega
    have hfirst : Shows root p { p with mem := p.mem.write (p.vmmUserPhys root dst) (bytes.take c) }
        (writeAt dst (bytes.take c)) := writePage_shows (by omega) hne (by omega)
    have hrest := ih (by rw [List.length_drop]; omega) (by rw [List.length_drop]; omega) hok
    refine (hfirst.trans hrest).congr fun v o => ?_
    have happ := writeAt_append dst (bytes.take c) (bytes.drop c) v o
    rwa [htake, List.take_append_drop] at happ

theorem copyOut_ok (n : Nat) {dst : Nat} {bytes : List UInt8} (hend : dst + bytes.length ≤ 2 ^ 47)
    (hs : Sound p root) (hall : ∀ v, dst ≤ v → v < dst + bytes.length → (p.userView root v).isSome) :
    (Phys.copyOut root n dst bytes p).1 = true := by
  induction n generalizing dst bytes p with
  | zero => rfl
  | succ n ih =>
    rw [Phys.copyOut]
    split
    · rfl
    rename_i hbytes
    have hpos := List.length_pos_iff.mpr hbytes
    have hne := (hs.userView_isSome (userHalf_of_lt (by omega))).mp (hall dst le_rfl (by omega))
    simp only
    rw [if_neg hne]
    obtain ⟨hle, hpage⟩ := chunkTo_le dst bytes.length
    set c := Phys.chunkTo dst bytes.length
    have hw : wrap64 (dst + c) = dst + c := by
      unfold wrap64
      omega
    have htake : (bytes.take c).length = c := by
      rw [List.length_take]
      omega
    have hfirst : Shows root p { p with mem := p.mem.write (p.vmmUserPhys root dst) (bytes.take c) }
        (writeAt dst (bytes.take c)) := writePage_shows (by omega) hne (by omega)
    rw [hw]
    refine ih (by rw [List.length_drop]; omega) (hfirst.sound hs) fun v h₁ h₂ => ?_
    rw [List.length_drop] at h₂
    rw [hfirst.view hs v (by omega), isSome_writeAt]
    exact hall v (by omega) (by omega)

theorem memset_zero (m : Mem) (a n : Nat) : m.memset a 0 n = m.write a (List.replicate n 0) := by
  funext x
  unfold Mem.memset Mem.write
  rw [List.length_replicate]
  split
  · rename_i h
    rw [List.getD_eq_getElem?_getD, List.getElem?_replicate_of_lt (by omega)]
    rfl
  · rfl

theorem zeroOut_eq_copyOut (n dst len : Nat) (p : Phys) :
    Phys.zeroOut root n dst len p = Phys.copyOut root n dst (List.replicate len 0) p := by
  induction n generalizing dst len p with
  | zero => rfl
  | succ n ih =>
    rw [Phys.zeroOut, Phys.copyOut, List.length_replicate]
    by_cases hlen : len = 0
    · rw [if_pos hlen, if_pos ((List.replicate_eq_nil_iff _).mpr hlen)]
    rw [if_neg hlen, if_neg fun h => hlen ((List.replicate_eq_nil_iff _).mp h)]
    simp only
    split
    · rfl
    · obtain ⟨hle, -⟩ := chunkTo_le dst len
      rw [ih, memset_zero, List.take_replicate, List.drop_replicate, min_eq_left hle]

theorem zeroOut_shows {dst len : Nat} (hend : dst + len ≤ 2 ^ 47)
    (hok : (Phys.zeroOut root len dst len p).1 = true) :
    Shows root p (Phys.zeroOut root len dst len p).2 (writeAt dst (List.replicate len 0)) := by
  rw [zeroOut_eq_copyOut] at hok ⊢
  exact copyOut_shows len (by simpa using hend) (by simp) hok

-- ---------------------------------------------------------------------------
-- Pages
-- ---------------------------------------------------------------------------

theorem IsSpace.vmmMap_within (h : IsSpace p.mem root kids) (hA : p.Avail A)
    (hnd : (A + spaceFrames root kids).Nodup) (hv : UserHalf virt) {phys : Nat} (hf : IsFrame phys)
    (flags : Nat) (user : Bool) : Mem.Within (A + (root ::ₘ sumFin fun j => (kids j).tables)) p.mem
      (p.vmmMap root virt phys flags user).2.mem := by
  have htab : (A + (root ::ₘ sumFin fun j => (kids j).tables)).Nodup := by
    rw [spaceFrames, ← add_assoc] at hnd
    exact (Multiset.nodup_add.mp hnd).1
  obtain ⟨B, grown, hg, hwalk⟩ := Phys.walkCreate_spec user hA h.entries h.frame htab hv
  have hre := hg.remapped h
  unfold Phys.vmmMap
  rw [Phys.getPte_create]
  generalize Phys.walkCreate user 3 p root virt = r at hg hwalk hre ⊢
  obtain ⟨_ | ⟨pt, i⟩, p₁⟩ := r
  · exact hg.within
  obtain ⟨haddr, hpres, -, -, hlt⟩ := leafEntry_spec hf flags user
  have ht : PTree.Rep p₁.mem 0 (leafEntry phys flags user) (.page (leafEntry phys flags user)) :=
    ⟨rfl, hpres, haddr.symm ▸ hf⟩
  obtain ⟨-, -, -, -, hwithin⟩ := hre.space.setEntry hre.avail (hre.nodup (by rwa [add_zero])) hv (hwalk _ rfl)
    ht hlt
  refine hg.within.trans (hwithin.mono (Multiset.subset_of_le ?_))
  have htables := hg.tables
  rw [← Multiset.singleton_add, ← Multiset.singleton_add, add_left_comm, ← htables]
  exact add_le_add le_rfl (Multiset.le_add_left _ _)

structure Fresh (p q : Phys) (root phys : Nat) (A B : Multiset Nat) (kids : Fin 512 → PTree) : Prop where
  frame : IsFrame phys
  split : A = phys ::ₘ B
  avail : q.Avail B
  mem : q.mem = p.mem.memset phys 0 4096
  space : IsSpace q.mem root kids
  nodup : (B + spaceFrames root kids).Nodup
  notMem : phys ∉ B + spaceFrames root kids

theorem IsSpace.allocPage (h : IsSpace p.mem root kids) (hA : p.Avail A)
    (hnd : (A + spaceFrames root kids).Nodup) (hne : p.allocPage.1 ≠ 0) :
    ∃ B, Fresh p p.allocPage.2 root p.allocPage.1 A B kids := by
  rcases hA.allocPage with ⟨hz, -⟩ | ⟨B, -, hAB, hav, hmem⟩
  · exact absurd hz hne
  have hphys : p.allocPage.1 ∈ A := hAB ▸ Multiset.mem_cons_self _ _
  have hframe := hA.isFrame hphys
  have hnd' := hnd
  rw [hAB, Multiset.cons_add, Multiset.nodup_cons] at hnd'
  have hwithin : Mem.Within {p.allocPage.1} p.mem p.allocPage.2.mem := by
    rw [hmem]
    exact Mem.within_memset hframe (Multiset.mem_singleton_self _) 0
  refine ⟨B, hframe, hAB, hav, hmem, h.within hwithin fun f hf => ?_, hnd'.2, hnd'.1⟩
  rw [Multiset.mem_singleton]
  rintro rfl
  exact hnd'.1 (Multiset.mem_add.mpr (.inr (Multiset.mem_add.mpr (.inl hf))))

def onPage (va : Nat) (g : Option (Bool × UInt8) → Option (Bool × UInt8)) (v : Nat)
    (o : Option (Bool × UInt8)) : Option (Bool × UInt8) := if v / 4096 = va / 4096 then g o else o

theorem mapNew_shows {va flags : Nat} (hva : va < 2 ^ 47) (hok : (p.mapNew root va flags).1 = true) :
    Shows root p (p.mapNew root va flags).2 (onPage va fun _ => some (flags.testBit 1, 0)) := by
  have hv := userHalf_of_lt hva
  constructor
  case remaps =>
    intro A kids hA hsp hnd
    obtain ⟨B, kids', ⟨-, hre, -⟩ | ⟨-, hre, -⟩⟩ := hsp.mapNew hA hnd hv flags
    · exact ⟨B, kids', _, hre⟩
    · exact ⟨B, kids', _, hre⟩
  rintro ⟨A, kids, hA, hsp, hnd⟩ v hv47
  unfold Phys.mapNew at hok ⊢
  simp only at hok ⊢
  split at hok
  · cases hok
  rename_i hne
  rw [if_neg hne]
  obtain ⟨B, hfresh⟩ := hsp.allocPage hA hnd hne
  generalize p.allocPage.1 = phys at *
  generalize p.allocPage.2 = r at *
  obtain ⟨C, kids', hcase⟩ := hfresh.space.vmmMap hfresh.avail hfresh.nodup hv hfresh.frame flags true
  have hwithin := hfresh.space.vmmMap_within hfresh.avail hfresh.nodup hv hfresh.frame flags true
  unfold Phys.vmmMapUser at hok ⊢
  generalize r.vmmMap root va phys flags true = r' at hcase hwithin hok ⊢
  obtain ⟨ok, p₁⟩ := r'
  cases ok with
  | false => cases hok
  | true =>
    rcases hcase with ⟨hfalse, -⟩ | ⟨-, hre, hlook⟩
    · cases hfalse
    simp only
    obtain ⟨haddr, -, huser, hwrite, -⟩ := leafEntry_spec hfresh.frame flags true
    rw [hre.space.userView (userHalf_of_lt hv47), hsp.userView (userHalf_of_lt hv47)]
    have htables : ∀ f, f ∉ B + spaceFrames root kids ∨ f ∈ (sumFin fun j => (kids j).pages) →
        f ∉ B + (root ::ₘ sumFin fun j => (kids j).tables) := by
      rintro f (hf | hf) hm
      · refine hf ?_
        rw [spaceFrames, ← add_assoc]
        exact Multiset.mem_add.mpr (.inl hm)
      · have hnd₂ := hfresh.nodup
        rw [spaceFrames, ← add_assoc] at hnd₂
        exact not_mem_of_add hnd₂ hm hf
    unfold onPage
    split
    · -- the new page
      rename_i hpage
      rw [treeView_some ((hlook v).trans (if_pos ((samePath_iff_page hva hv47).mpr hpage.symm))), huser, hwrite,
        haddr, if_pos rfl]
      have hbyte := hwithin phys hfresh.frame (htables phys (.inl hfresh.notMem)) (v % 4096)
        (Nat.mod_lt _ (by decide))
      rw [hfresh.mem, Mem.memset_apply_inside (Nat.mod_lt _ (by decide))] at hbyte
      rw [hbyte]
    · -- the other pages
      rename_i hpage
      have hl := (hlook v).trans (if_neg fun hs => hpage ((samePath_iff_page hva hv47).mp hs).symm)
      refine treeView_congr hl fun e hlv => ?_
      obtain ⟨-, hf, hmem⟩ := hsp.entries.isFrame_leaf (userHalf_of_lt hv47) hlv
      have hbyte := hwithin _ hf (htables _ (.inr hmem)) (v % 4096) (Nat.mod_lt _ (by decide))
      have hne' : pteAddr e ≠ phys := by
        intro he
        exact hfresh.notMem (Multiset.mem_add.mpr (.inr (Multiset.mem_add.mpr (.inr (he ▸ hmem)))))
      have hzero := Mem.within_memset (m := p.mem) hfresh.frame (Multiset.mem_singleton_self phys) 0 _ hf
        (by rw [Multiset.mem_singleton]; exact hne') (v % 4096) (Nat.mod_lt _ (by decide))
      rwa [hfresh.mem, hzero] at hbyte

theorem vmmProtectUser_shows {va flags : Nat} (hva : va < 2 ^ 47)
    (hok : (p.vmmProtectUser root va flags).1 = true) :
    Shows root p (p.vmmProtectUser root va flags).2
      (onPage va fun o => o.map fun w => (flags.testBit 1, w.2)) := by
  have hv := userHalf_of_lt hva
  have hleaf : ∀ kids, IsSpace p.mem root kids → ∃ e, PTree.lookup 3 kids va = some e ∧ isUser e = true := by
    intro kids hsp
    have hpres := hsp.presentPte hv
    cases hl : PTree.lookup 3 kids va with
    | none =>
      rw [hl] at hpres
      simp only [Phys.vmmProtectUser, hpres, Bool.false_eq_true] at hok
    | some e =>
      cases hu : isUser e with
      | false =>
        rw [hl] at hpres
        obtain ⟨pt, i, hsome, -⟩ := hpres
        simp only [Phys.vmmProtectUser, hsome, hu, Bool.false_eq_true, not_false_eq_true, if_true] at hok
      | true => exact ⟨e, rfl, hu⟩
  constructor
  case remaps =>
    intro A kids hA hsp hnd
    obtain ⟨e, hl, hu⟩ := hleaf kids hsp
    obtain ⟨pt, i, e', hcall, hw, haddr, hp, -, -, hlt⟩ := hsp.vmmProtectUser hv hl hu flags
    obtain ⟨kids', hre, -⟩ := hsp.protected hA hnd hv hl hw haddr hp hlt
    rw [hcall]
    exact ⟨A, kids', 0, hre⟩
  rintro ⟨A, kids, hA, hsp, hnd⟩ v hv47
  obtain ⟨e, hl, hu⟩ := hleaf kids hsp
  obtain ⟨pt, i, e', hcall, hw, haddr, hp, hu', hwrite, hlt⟩ := hsp.vmmProtectUser hv hl hu flags
  obtain ⟨kids', hre, hlook, hwithin⟩ := hsp.protected hA hnd hv hl hw haddr hp hlt
  rw [hcall]
  simp only
  rw [hre.space.userView (userHalf_of_lt hv47), hsp.userView (userHalf_of_lt hv47)]
  have hbyte : ∀ e₀, PTree.lookup 3 kids v = some e₀ →
      (p.setEntry pt i e').mem (pteAddr e₀ + v % 4096) = p.mem (pteAddr e₀ + v % 4096) := fun e₀ hl₀ => by
    obtain ⟨-, hf, hmem⟩ := hsp.entries.isFrame_leaf (userHalf_of_lt hv47) hl₀
    refine hwithin _ hf (fun hm => ?_) _ (Nat.mod_lt _ (by decide))
    exact not_mem_of_add (Multiset.nodup_add.mp hnd).2.1 hm hmem
  unfold onPage
  split
  · rename_i hpage
    have hpath := (samePath_iff_page hva hv47).mpr hpage.symm
    have hlv : PTree.lookup 3 kids v = some e := (PTree.lookup_samePath hpath).symm.trans hl
    rw [treeView_some ((hlook v).trans (if_pos hpath)), treeView_some hlv, hu', hu, hwrite, haddr, hbyte e hlv]
    rfl
  · rename_i hpage
    have hl' := (hlook v).trans (if_neg fun h => hpage ((samePath_iff_page hva hv47).mp h).symm)
    exact treeView_congr hl' hbyte

-- ---------------------------------------------------------------------------
-- Loops
-- ---------------------------------------------------------------------------

/-- A loop that ran to its end has done what its rounds do, in their order. -/
theorem forEntries_shows {body : Phys → Nat → Bool × Phys}
    {h : Nat → Nat → Option (Bool × UInt8) → Option (Bool × UInt8)} {l : List Nat}
    (hbody : ∀ q, ∀ k ∈ l, (body q k).1 = true → Shows root q (body q k).2 (h k))
    (hok : (Phys.forEntries body l p).1 = true) :
    Shows root p (Phys.forEntries body l p).2 fun v o => l.foldl (fun o k => h k v o) o := by
  induction l generalizing p with
  | nil => exact Shows.refl root p
  | cons k l ih =>
    have hk := hbody p k List.mem_cons_self
    rw [Phys.forEntries] at hok ⊢
    generalize body p k = r at hk hok ⊢
    obtain ⟨ok, q⟩ := r
    cases ok with
    | false => cases hok
    | true => exact (hk rfl).trans (ih (fun q j hj => hbody q j (List.mem_cons_of_mem _ hj)) hok)

theorem foldl_onPage {g : Option (Bool × UInt8) → Option (Bool × UInt8)} (hg : ∀ o, g (g o) = g o)
    (l : List Nat) (va : Nat → Nat) (v : Nat) (o : Option (Bool × UInt8)) :
    l.foldl (fun o k => onPage (va k) g v o) o = if ∃ k ∈ l, v / 4096 = va k / 4096 then g o else o := by
  induction l generalizing o with
  | nil => simp
  | cons k l ih =>
    rw [List.foldl_cons, ih]
    unfold onPage
    by_cases hk : v / 4096 = va k / 4096
    · rw [if_pos hk, hg, ite_self, if_pos ⟨k, List.mem_cons_self, hk⟩]
    · rw [if_neg hk]
      simp [hk]

def onPages (start stop : Nat) (g : Option (Bool × UInt8) → Option (Bool × UInt8)) (v : Nat)
    (o : Option (Bool × UInt8)) : Option (Bool × UInt8) :=
  if start / 4096 ≤ v / 4096 ∧ v / 4096 * 4096 < stop then g o else o

theorem forPages_shows {body : Phys → Nat → Bool × Phys} {start stop : Nat} (hstop : stop < 2 ^ 46)
    {g : Option (Bool × UInt8) → Option (Bool × UInt8)} (hg : ∀ o, g (g o) = g o)
    (hbody : ∀ q va, va < 2 ^ 47 → (body q va).1 = true → Shows root q (body q va).2 (onPage va g))
    (hok : (Phys.forPages body start stop p).1 = true) :
    Shows root p (Phys.forPages body start stop p).2 (onPages start stop g) := by
  have hrange : ∀ k ∈ List.range ((alignUp stop pageSize - alignDown start) / pageSize),
      alignDown start + pageSize * k < 2 ^ 47 := fun k hk => by
    rw [List.mem_range] at hk
    unfold alignUp alignDown wrap64 pageSize at *
    omega
  have hloop : Shows root p (Phys.forPages body start stop p).2 fun v o =>
      (List.range ((alignUp stop pageSize - alignDown start) / pageSize)).foldl
        (fun o k => onPage (alignDown start + pageSize * k) g v o) o :=
    forEntries_shows (h := fun k => onPage (alignDown start + pageSize * k) g)
      (fun q k hk => hbody q _ (hrange k hk)) hok
  refine hloop.congr fun v o => ?_
  rw [foldl_onPage hg]
  unfold onPages
  congr 1
  refine propext ⟨?_, fun h => ⟨v / 4096 - start / 4096, ?_, ?_⟩⟩
  · rintro ⟨k, hk, hv⟩
    rw [List.mem_range] at hk
    unfold alignUp alignDown wrap64 pageSize at *
    omega
  · rw [List.mem_range]
    unfold alignUp alignDown wrap64 pageSize
    omega
  · unfold alignDown pageSize
    omega

theorem mapRange_shows {start stop : Nat} (hstop : stop < 2 ^ 46)
    (hok : (p.mapRange root start stop).1 = true) :
    Shows root p (p.mapRange root start stop).2 (onPages start stop fun o => o.or (some (true, 0))) := by
  refine forPages_shows hstop (fun o => by cases o <;> rfl) (fun q va hva hbody => ?_) hok
  split at hbody
  · rename_i hne
    rw [if_pos hne]
    refine ⟨(Shows.refl root q).remaps, fun hs v hv => ?_⟩
    unfold onPage
    split
    · rename_i hpage
      have hsome : (q.userView root v).isSome := by
        rw [hs.userView_isSome (userHalf_of_lt hv), hs.onUserPage (userHalf_of_lt hv), ← onUserPage_page, hpage,
          onUserPage_page, ← hs.onUserPage (userHalf_of_lt hva)]
        exact hne
      obtain ⟨w, hw⟩ := Option.isSome_iff_exists.mp hsome
      rw [hw]
      rfl
    · rfl
  · rename_i hz
    rw [if_neg hz]
    have hnew := mapNew_shows hva hbody
    refine ⟨hnew.remaps, fun hs v hv => ?_⟩
    rw [hnew.view hs v hv]
    unfold onPage
    split
    · rename_i hpage
      have hnone : q.userView root v = none := by
        rw [← Option.not_isSome_iff_eq_none, hs.userView_isSome (userHalf_of_lt hv),
          hs.onUserPage (userHalf_of_lt hv), ← onUserPage_page, hpage, onUserPage_page,
          ← hs.onUserPage (userHalf_of_lt hva)]
        exact hz
      rw [hnone]
      rfl
    · rfl

end NarcOs
