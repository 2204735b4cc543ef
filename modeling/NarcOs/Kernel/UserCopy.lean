import NarcOs.Mm.Refinement
import NarcOs.Kernel.UserView

/-!
# Copies to and from user memory

`copy_from_user` and `copy_to_user` of `kernel/syscall.c` over the functions of a
machine. The range check and the copy loop agree on the pages of a range, and the
bytes go to and from the frames that the tables give.
-/

namespace NarcOs

namespace Vmm

variable (V : Vmm) (root : Nat)

/-- The copy loop of `copy_from_user`: whether it ran to its end, and the bytes copied.
Every round copies a byte, which bounds the rounds. -/
def copyIn (p : Phys) : Nat → Nat → Nat → Bool × List UInt8
  | 0, _, _ => (true, [])
  | n + 1, src, len =>
    if len = 0 then (true, [])
    else
      let phys := V.userPhys p root src
      if phys = 0 then (false, [])
      else
        let chunk := Phys.chunkTo src len
        let (done, rest) := copyIn p n (wrap64 (src + chunk)) (len - chunk)
        (done, p.mem.read phys chunk ++ rest)

def copyFromUser (p : Phys) (src len : Nat) : Bool × List UInt8 :=
  if ¬ V.userRangeOk p root src len false then (false, []) else V.copyIn root p len src len

/-- The copy loop of `copy_to_user`. -/
def copyOut : Nat → Nat → List UInt8 → Phys → Bool × Phys
  | 0, _, _, p => (true, p)
  | n + 1, dst, bytes, p =>
    if bytes = [] then (true, p)
    else
      let phys := V.userPhys p root dst
      if phys = 0 then (false, p)
      else
        let chunk := Phys.chunkTo dst bytes.length
        copyOut n (wrap64 (dst + chunk)) (bytes.drop chunk)
          { p with mem := p.mem.write phys (bytes.take chunk) }

def copyToUser (p : Phys) (dst : Nat) (bytes : List UInt8) : Bool × Phys :=
  if ¬ V.userRangeOk p root dst bytes.length true then (false, p) else V.copyOut root bytes.length dst bytes p

end Vmm

/-- The loop of `vmm_user_range_ok` from a page on; `none` when it is not at its end after
the rounds given. -/
def PteFormat.rangeFrom (F : PteFormat) (level : Nat) (p : Phys) (root : Nat) (write : Bool) (last : Nat) :
    Nat → Nat → Option Bool
  | 0, _ => none
  | n + 1, page =>
    match F.userPte level p root page with
    | none => some false
    | some (_, _, pte) =>
      if write ∧ ¬ F.write pte then some false
      else if page = last then some true
      else rangeFrom F level p root write last n (wrap64 (page + pageSize))

/-- The loop ends with the last page, and has tested every page of the range. -/
theorem PteFormat.rangeFrom_eq (F : PteFormat) (level : Nat) (p : Phys) (root : Nat) (write : Bool) {page last rounds : Nat}
    (k : Nat) (hk : last = page + pageSize * k) (hlast : last + pageSize ≤ 2 ^ 64) (hrounds : k < rounds) :
    F.rangeFrom level p root write last rounds page = some ((List.range (k + 1)).all fun j =>
      match F.userPte level p root (page + pageSize * j) with
      | none => false
      | some (_, _, pte) => !write || F.write pte) := by
  induction k generalizing page rounds with
  | zero =>
    obtain ⟨n, rfl⟩ := Nat.exists_eq_succ_of_ne_zero (Nat.ne_of_gt hrounds)
    simp only [rangeFrom, Nat.zero_add, List.range_one, List.all_cons, List.all_nil, Nat.mul_zero, Nat.add_zero,
      Bool.and_true] at hk ⊢
    cases F.userPte level p root page with
    | none => rfl
    | some w => cases hw : F.write w.2.2 <;> cases write <;> simp [hk, hw]
  | succ k ih =>
    obtain ⟨n, rfl⟩ := Nat.exists_eq_succ_of_ne_zero (Nat.ne_of_gt (Nat.zero_lt_of_lt hrounds))
    have hne : page ≠ last := by
      simp only [pageSize] at hk
      omega
    have hwrap : wrap64 (page + pageSize) = page + pageSize := by
      refine Nat.mod_eq_of_lt ?_
      simp only [pageSize] at hk hlast ⊢
      omega
    have hstep := @ih (page + pageSize) n (by rw [hk]; ring) (Nat.lt_of_succ_lt_succ hrounds)
    have hall : ∀ (f : Nat → Bool) (s : Nat), (List.range (k + 1 + 1)).all (fun j => f (page + s * j)) =
        (f page && (List.range (k + 1)).all fun j => f (page + s + s * j)) := by
      intro f s
      have hnext : ((fun j => f (page + s * j)) ∘ Nat.succ) = fun j => f (page + s + s * j) := by
        funext j
        rw [Function.comp_apply, Nat.mul_succ, Nat.add_comm (s * j), ← Nat.add_assoc]
      rw [List.range_succ_eq_map, List.all_cons, List.all_map, hnext, Nat.mul_zero, Nat.add_zero]
    rw [hall (fun virt => match F.userPte level p root virt with
      | none => false
      | some (_, _, pte) => !write || F.write pte) pageSize]
    simp only [rangeFrom, if_neg hne, hwrap, hstep]
    cases F.userPte level p root page with
    | none => rfl
    | some w => cases hw : F.write w.2.2 <;> cases write <;> simp [hw]

def PteFormat.userRangeIn (F : PteFormat) (level last rounds : Nat) (p : Phys) (root virt len : Nat) (write : Bool) :
    Option Bool :=
  if len = 0 then some true
  else if virt > last then some false
  else if len - 1 > last - virt then some false
  else F.rangeFrom level p root write (alignDown (virt + len - 1)) rounds (alignDown virt)

theorem PteFormat.userRangeIn_eq (F : PteFormat) (level : Nat) {last rounds : Nat} (hlast : last < 2 ^ 63) (p : Phys)
    (root virt len : Nat) (write : Bool) (hrounds : 2 ^ 52 ≤ rounds) :
    F.userRangeIn level last rounds p root virt len write = some (F.userRangeOk level last p root virt len write) := by
  unfold userRangeIn userRangeOk
  split
  · rfl
  split
  · rfl
  split
  · rfl
  · refine F.rangeFrom_eq level p root write _ ?_ ?_ ?_ <;> simp only [alignDown, pageSize] <;> omega

-- ---------------------------------------------------------------------------
-- Bytes of a space
-- ---------------------------------------------------------------------------

namespace Layout

/-- Every byte of the range is in the user's half on a page that is there, and that may
be written when that is asked for. -/
def Accessible (L : Layout) (M : PageMap) (virt len : Nat) (write : Bool) : Prop :=
  ∀ i < len, virt + i < L.userEnd ∧ ∃ frame w, M.get (virt + i) = some (frame, w) ∧ (write = true → w = true)

variable {L : Layout} {K : Set Nat} {p : Phys} {root virt len : Nat} {kids : Fin 512 → PTree} {write : Bool}

theorem IsSpace.accessible_iff (h : L.IsSpace K p.mem root kids) :
    (L.pageMap kids).rangeOk virt len write ↔ L.Accessible (L.pageMap kids) virt len write := by
  have huser : L.userEnd % 4096 = 0 := Nat.mul_mod_left _ _
  constructor
  · intro hall i hi
    obtain ⟨frame, w, he, hw⟩ := hall (by omega) ((virt + i) / pageSize)
      (Nat.div_le_div_right (by omega)) (Nat.div_le_div_right (by omega))
    refine ⟨?_, frame, w, he, hw⟩
    have := pageMap_mapped h he
    simp only [pageSize] at this
    omega
  · intro hall hz page hlo hhi
    simp only [pageSize] at hlo hhi
    by_cases hpage : page = virt / 4096
    · obtain ⟨-, frame, w, he, hw⟩ := hall 0 (by omega)
      exact ⟨frame, w, by rw [hpage]; exact he, hw⟩
    · obtain ⟨-, frame, w, he, hw⟩ := hall (page * 4096 - virt) (by omega)
      refine ⟨frame, w, ?_, hw⟩
      rw [PageMap.get, show virt + (page * 4096 - virt) = page * 4096 by omega, pageSize,
        Nat.mul_div_cancel _ (by decide)] at he
      exact he

theorem IsSpace.get (h : L.IsSpace K p.mem root kids) (hv : virt < L.span) {frame : Nat} {w : Bool}
    (he : (L.pageMap kids).get virt = some (frame, w)) :
    IsFrame frame ∧ frame ∈ (sumFin fun j => L.pte.pages (kids j)) ∧ (L.pageMap kids).phys virt = frame + virt % 4096 := by
  have hphys : (L.pageMap kids).phys virt = frame + virt % 4096 := by
    rw [PageMap.phys, he]
    rfl
  rw [pageMap_get hv] at he
  obtain ⟨e, hl, hfe⟩ := Option.map_eq_some_iff.mp he
  obtain ⟨rfl, -⟩ := Prod.mk.inj hfe
  have hu : virt < L.userEnd := by
    by_contra hu
    rw [userLeaf_of_userEnd_le h hv (Nat.not_lt.mp hu)] at hl
    cases hl
  exact ⟨h.leaf_isFrame hv hl, (h.entries.leaf ((index_lt_iff hv).mpr hu) (PteFormat.userLeaf_eq_some.mp hl).1).2, hphys⟩

theorem IsSpace.phys_ne (h : L.IsSpace K p.mem root kids) (hnd : (L.pte.frames root kids).Nodup) {virt' : Nat}
    (hv : virt < L.span) (hv' : virt' < L.span) {e e' : Nat × Bool} (he : (L.pageMap kids).get virt = some e)
    (he' : (L.pageMap kids).get virt' = some e') (hne : virt ≠ virt') :
    (L.pageMap kids).phys virt ≠ (L.pageMap kids).phys virt' := by
  obtain ⟨frame, w⟩ := e
  obtain ⟨frame', w'⟩ := e'
  obtain ⟨hf, -, hp⟩ := h.get hv he
  obtain ⟨hf', -, hp'⟩ := h.get hv' he'
  have hal := hf.aligned
  have hal' := hf'.aligned
  rw [hp, hp']
  by_cases hpage : virt / 4096 = virt' / 4096
  · omega
  · have hframes : frame ≠ frame' := by
      rw [pageMap_get hv] at he
      rw [pageMap_get hv'] at he'
      obtain ⟨x, hl, hx⟩ := Option.map_eq_some_iff.mp he
      obtain ⟨x', hl', hx'⟩ := Option.map_eq_some_iff.mp he'
      rw [← (Prod.mk.inj hx).1, ← (Prod.mk.inj hx').1]
      refine L.pte.pages_ne (Multiset.nodup_add.mp hnd).2.1 (PteFormat.userLeaf_eq_some.mp hl).1
        (PteFormat.userLeaf_eq_some.mp hl').1 fun hs => hpage ?_
      exact (PTree.samePath_iff_page hv hv').mp hs
    omega

end Layout

theorem PageMap.phys_add {M : PageMap} {virt c : Nat} (he : (M.get virt).isSome) (hc : virt % 4096 + c < 4096) :
    M.phys (virt + c) = M.phys virt + c := by
  have hpage : M.get (virt + c) = M.get virt := by
    rw [PageMap.get, PageMap.get, pageSize, show (virt + c) / 4096 = virt / 4096 by omega]
  obtain ⟨e, he⟩ := Option.isSome_iff_exists.mp he
  rw [PageMap.phys, PageMap.phys, hpage, he, pageSize, show (virt + c) % 4096 = virt % 4096 + c by omega, Nat.add_assoc]

structure PageMap.Copied (M : PageMap) (virt : Nat) (bytes : List UInt8) (m m' : Mem) : Prop where
  inside : ∀ i < bytes.length, m' (M.phys (virt + i)) = bytes.getD i 0
  outside : ∀ x, (∀ i < bytes.length, x ≠ M.phys (virt + i)) → m' x = m x

theorem PageMap.copied_nil (M : PageMap) (virt : Nat) (m : Mem) : M.Copied virt [] m m :=
  ⟨fun i hi => absurd hi (Nat.not_lt_zero i), fun _ _ => rfl⟩

theorem PageMap.Copied.append {M : PageMap} {virt : Nat} {bs cs : List UInt8} {m m' m'' : Mem} (h : M.Copied virt bs m m')
    (h' : M.Copied (virt + bs.length) cs m' m'')
    (hne : ∀ i < bs.length, ∀ j < cs.length, M.phys (virt + i) ≠ M.phys (virt + bs.length + j)) :
    M.Copied virt (bs ++ cs) m m'' where
  inside i hi := by
    rw [List.length_append] at hi
    by_cases hib : i < bs.length
    · rw [h'.outside _ (hne i hib), h.inside i hib, List.getD_append _ _ _ _ hib]
    · have hlast := h'.inside (i - bs.length) (by omega)
      rw [show virt + bs.length + (i - bs.length) = virt + i by omega] at hlast
      rw [hlast, List.getD_append_right _ _ _ _ (Nat.not_lt.mp hib)]
  outside x hx := by
    rw [List.length_append] at hx
    rw [h'.outside x fun j hj => by rw [Nat.add_assoc]; exact hx (bs.length + j) (by omega)]
    exact h.outside x fun i hi => hx i (by omega)

theorem PageMap.copied_write {M : PageMap} {virt : Nat} {bytes : List UInt8} (m : Mem)
    (hplace : ∀ i < bytes.length, M.phys (virt + i) = M.phys virt + i) :
    M.Copied virt bytes m (m.write (M.phys virt) bytes) where
  inside i hi := by
    rw [hplace i hi]
    exact Mem.write_apply_inside hi
  outside x hx := by
    refine Mem.write_apply_outside ?_
    by_contra hin
    refine hx (x - M.phys virt) (by omega) ?_
    rw [hplace _ (by omega)]
    omega

namespace Layout

variable {L : Layout} {K : Set Nat} {p : Phys} {root virt len : Nat} {kids : Fin 512 → PTree} {write : Bool} {M : PageMap}

theorem Accessible.get (h : L.Accessible M virt len write) {i : Nat} (hi : i < len) : (M.get (virt + i)).isSome := by
  obtain ⟨-, frame, w, he, -⟩ := h i hi
  rw [he]
  rfl

theorem Accessible.lt (h : L.Accessible M virt len write) {i : Nat} (hi : i < len) : virt + i < L.userEnd := (h i hi).1

theorem Accessible.drop {c : Nat} (h : L.Accessible M virt len write) : L.Accessible M (virt + c) (len - c) write := by
  intro i hi
  rw [Nat.add_assoc]
  exact h (c + i) (by omega)

theorem IsSpace.chunk (hL : L.Lawful) (h : L.IsSpace K p.mem root kids) (hlen : 0 < len)
    (hacc : L.Accessible (L.pageMap kids) virt len write) :
    L.vmm.userPhys p root virt = (L.pageMap kids).phys virt ∧ (L.pageMap kids).phys virt ≠ 0 ∧
      ∀ i < Phys.chunkTo virt len, (L.pageMap kids).phys (virt + i) = (L.pageMap kids).phys virt + i := by
  have hv : virt < L.span := Nat.lt_of_lt_of_le (hacc.lt hlen) hL.userEnd_le
  obtain ⟨e, he⟩ := Option.isSome_iff_exists.mp (hacc.get hlen)
  obtain ⟨hf, -, hp⟩ := h.get hv he
  refine ⟨h.userPhys hv, ?_, fun i hi => PageMap.phys_add (hacc.get hlen) ?_⟩
  · have := hf.1
    omega
  · have := (chunkTo_le virt len).2
    omega

/-- The loop of `copy_from_user` gives the bytes of the range. -/
theorem IsSpace.copyIn (hL : L.Lawful) (hend : L.userEnd < 2 ^ 64) (h : L.IsSpace K p.mem root kids) (n : Nat) {src : Nat}
    (hn : len ≤ n) (hacc : L.Accessible (L.pageMap kids) src len false) :
    L.vmm.copyIn root p n src len = (true, (List.range len).map fun i => p.mem ((L.pageMap kids).phys (src + i))) := by
  induction n generalizing src len with
  | zero =>
    obtain rfl := Nat.le_zero.mp hn
    rfl
  | succ n ih =>
    rw [Vmm.copyIn]
    split
    · rename_i hz
      rw [hz]
      rfl
    rename_i hz
    have hlen := Nat.pos_of_ne_zero hz
    obtain ⟨hphys, hne, hplace⟩ := h.chunk hL hlen hacc
    have hc := @chunkTo_pos src len hlen
    obtain ⟨hle, -⟩ := chunkTo_le src len
    have hlast := hacc.lt (Nat.sub_lt hlen Nat.one_pos)
    generalize Phys.chunkTo src len = c at hplace hc hle ⊢
    have hwrap : wrap64 (src + c) = src + c := Nat.mod_eq_of_lt (by omega)
    simp only [hphys, hne, if_false, hwrap, @ih (len - c) (src + c) (by omega) hacc.drop]
    refine Prod.ext rfl ?_
    obtain ⟨rest, rfl⟩ := Nat.exists_eq_add_of_le hle
    rw [Nat.add_sub_cancel_left, List.range_add, List.map_append, List.map_map]
    refine congrArg₂ (· ++ ·) (List.map_congr_left fun i hi => ?_) (List.map_congr_left fun i _ => ?_)
    · rw [hplace i (List.mem_range.mp hi)]
    · rw [Function.comp_apply, Nat.add_assoc]

theorem IsSpace.places_ne (hL : L.Lawful) (h : L.IsSpace K p.mem root kids) (hnd : (L.pte.frames root kids).Nodup)
    (hacc : L.Accessible (L.pageMap kids) virt len write) {i j : Nat} (hi : i < len) (hj : j < len) (hij : i ≠ j) :
    (L.pageMap kids).phys (virt + i) ≠ (L.pageMap kids).phys (virt + j) := by
  have hv : ∀ {i}, i < len → virt + i < L.span := fun hi => Nat.lt_of_lt_of_le (hacc.lt hi) hL.userEnd_le
  obtain ⟨e, he⟩ := Option.isSome_iff_exists.mp (hacc.get hi)
  obtain ⟨e', he'⟩ := Option.isSome_iff_exists.mp (hacc.get hj)
  exact h.phys_ne hnd (hv hi) (hv hj) he he' fun hv => hij (Nat.add_left_cancel hv)

theorem IsSpace.copied_onlyIn (hL : L.Lawful) (h : L.IsSpace K p.mem root kids) {bytes : List UInt8} {mem : Mem}
    (hacc : L.Accessible (L.pageMap kids) virt bytes.length write) (hc : (L.pageMap kids).Copied virt bytes p.mem mem) :
    Mem.OnlyIn (sumFin fun j => L.pte.pages (kids j)) p.mem mem := by
  intro x hx
  refine hc.outside x fun i hi => ?_
  obtain ⟨e, he⟩ := Option.isSome_iff_exists.mp (hacc.get hi)
  obtain ⟨-, hmem, hphys⟩ := h.get (Nat.lt_of_lt_of_le (hacc.lt hi) hL.userEnd_le) he
  have := hx e.1 hmem
  rw [hphys]
  omega

theorem IsSpace.copied (hL : L.Lawful) (h : L.IsSpace K p.mem root kids) (hnd : (L.pte.frames root kids).Nodup)
    (hK : ∀ f ∈ K, IsFrame f ∧ f ∉ L.pte.frames root kids) {bytes : List UInt8} {mem : Mem}
    (hacc : L.Accessible (L.pageMap kids) virt bytes.length write) (hc : (L.pageMap kids).Copied virt bytes p.mem mem) :
    L.IsSpace K mem root kids :=
  PteFormat.IsSpace.within h ((h.copied_onlyIn hL hacc hc).within fun _ hf =>
      PteFormat.IsSpace.isFrame h (Multiset.mem_add.mpr (.inr hf)))
    (fun f hf => ⟨(hK f hf).1, fun hm => (hK f hf).2 (Multiset.mem_add.mpr (.inr hm))⟩)
    fun _ hft hm => not_mem_of_add hnd hft hm

/-- The loop of `copy_to_user` writes its bytes at the places of the range, and nowhere else. -/
theorem IsSpace.copyOut (hL : L.Lawful) (hend : L.userEnd < 2 ^ 64) (h : L.IsSpace K p.mem root kids)
    (hnd : (L.pte.frames root kids).Nodup) (hK : ∀ f ∈ K, IsFrame f ∧ f ∉ L.pte.frames root kids) (n : Nat) {dst : Nat}
    {bytes : List UInt8} (hn : bytes.length ≤ n) (hacc : L.Accessible (L.pageMap kids) dst bytes.length true) :
    ∃ mem, L.vmm.copyOut root n dst bytes p = (true, { p with mem := mem }) ∧
      (L.pageMap kids).Copied dst bytes p.mem mem := by
  induction n generalizing dst bytes p with
  | zero =>
    obtain rfl := List.length_eq_zero_iff.mp (Nat.le_zero.mp hn)
    exact ⟨p.mem, rfl, PageMap.copied_nil _ _ _⟩
  | succ n ih =>
    rw [Vmm.copyOut]
    split
    · rename_i hz
      subst hz
      exact ⟨p.mem, rfl, PageMap.copied_nil _ _ _⟩
    rename_i hz
    have hlen := List.length_pos_iff.mpr hz
    obtain ⟨hphys, hne, hplace⟩ := h.chunk hL hlen hacc
    have hc := @chunkTo_pos dst bytes.length hlen
    have hle := (chunkTo_le dst bytes.length).1
    have hlast := hacc.lt (Nat.sub_lt hlen Nat.one_pos)
    generalize Phys.chunkTo dst bytes.length = c at hplace hc hle ⊢
    have hwrap : wrap64 (dst + c) = dst + c := Nat.mod_eq_of_lt (by omega)
    have htake : (bytes.take c).length = c := List.length_take_of_le hle
    have hdrop : (bytes.drop c).length = bytes.length - c := List.length_drop
    simp only [hphys, hne, if_false, hwrap]
    -- the chunk is in a page of the space, so the tables stay
    have hfirst := @PageMap.copied_write (L.pageMap kids) dst (bytes.take c) p.mem fun i hi => hplace i (by omega)
    have htaken : L.Accessible (L.pageMap kids) dst (bytes.take c).length true := fun i hi => hacc i (by omega)
    have hspace := h.copied hL hnd hK htaken hfirst
    obtain ⟨mem, hrest, hcopied⟩ := @ih { p with mem := p.mem.write ((L.pageMap kids).phys dst) (bytes.take c) } hspace (dst + c)
      (bytes.drop c) (by omega) (by rw [hdrop]; exact hacc.drop)
    refine ⟨mem, hrest, ?_⟩
    have hall := hfirst.append (by rw [htake]; exact hcopied) fun i hi j hj => ?_
    · rwa [List.take_append_drop] at hall
    · rw [htake, Nat.add_assoc]
      exact h.places_ne hL hnd hacc (by omega) (by omega) (by omega)

end Layout

-- ---------------------------------------------------------------------------
-- The machines
-- ---------------------------------------------------------------------------

def Machine.userRangeIn (m : Machine) : Nat → Phys → Nat → Nat → Nat → Bool → Option Bool := fun rounds =>
  m.layout.pte.userRangeIn m.layout.top m.layout.last rounds

theorem Machine.userEnd_lt (m : Machine) : m.layout.userEnd < 2 ^ 64 ∧ m.layout.last < 2 ^ 63 := by
  cases m <;> exact ⟨by decide, by decide⟩

theorem Machine.copyToUser_copied (m : Machine) {K : Set Nat} {p : Phys} {root : Nat} {kids : Fin 512 → PTree}
    (space : m.layout.IsSpace K p.mem root kids) (distinct : (m.layout.pte.frames root kids).Nodup)
    (apart : ∀ f ∈ K, IsFrame f ∧ f ∉ m.layout.pte.frames root kids) {virt : Nat} {bytes : List UInt8}
    (hacc : m.layout.Accessible (m.layout.pageMap kids) virt bytes.length true) :
    ∃ mem, m.vmm.copyToUser root p virt bytes = (true, { p with mem := mem }) ∧
      (m.layout.pageMap kids).Copied virt bytes p.mem mem := by
  have hok : m.layout.vmm.userRangeOk p root virt bytes.length true = true :=
    ((space.userRangeOk m.shape virt bytes.length true).trans space.accessible_iff).mpr hacc
  rw [m.vmm_eq, Vmm.copyToUser, hok, if_neg (by simp)]
  exact space.copyOut m.lawful m.userEnd_lt.1 distinct apart bytes.length le_rfl hacc

/-- On every machine the check of a user range ends, and says whether all of its bytes
may be accessed. The copies go on exactly then, and byte by byte follow the tables. -/
theorem user_copies (m : Machine) {K : Set Nat} {p : Phys} {root : Nat} {kids : Fin 512 → PTree}
    (space : m.layout.IsSpace K p.mem root kids) (distinct : (m.layout.pte.frames root kids).Nodup)
    (apart : ∀ f ∈ K, IsFrame f ∧ f ∉ m.layout.pte.frames root kids) (virt len : Nat) :
    (∀ write, (∀ rounds ≥ 2 ^ 52, m.userRangeIn rounds p root virt len write = some (m.vmm.userRangeOk p root virt len write)) ∧
        (m.vmm.userRangeOk p root virt len write = true ↔ m.layout.Accessible (m.layout.pageMap kids) virt len write)) ∧
      ((m.vmm.copyFromUser root p virt len).1 = true ↔ m.layout.Accessible (m.layout.pageMap kids) virt len false) ∧
      (m.vmm.copyFromUser root p virt len = (true, (List.range len).map fun i => p.mem (m.vmm.userPhys p root (virt + i))) ∨
        m.vmm.copyFromUser root p virt len = (false, [])) ∧
      ∀ bytes : List UInt8, bytes.length = len →
        ((m.vmm.copyToUser root p virt bytes).1 = true ↔ m.layout.Accessible (m.layout.pageMap kids) virt len true) ∧
        ((∃ mem, m.vmm.copyToUser root p virt bytes = (true, { p with mem := mem }) ∧
            (∀ i < len, mem (m.vmm.userPhys p root (virt + i)) = bytes.getD i 0) ∧
            ∀ x, (∀ i < len, x ≠ m.vmm.userPhys p root (virt + i)) → mem x = p.mem x) ∨
          m.vmm.copyToUser root p virt bytes = (false, p)) := by
  obtain ⟨hend, hlast⟩ := m.userEnd_lt
  have hok : ∀ write, m.layout.vmm.userRangeOk p root virt len write = true ↔
      m.layout.Accessible (m.layout.pageMap kids) virt len write := fun write =>
    (space.userRangeOk m.shape virt len write).trans space.accessible_iff
  have hphys : ∀ {write}, m.layout.Accessible (m.layout.pageMap kids) virt len write → ∀ i < len,
      (m.layout.pageMap kids).phys (virt + i) = m.layout.vmm.userPhys p root (virt + i) := fun hacc i hi =>
    (space.userPhys (Nat.lt_of_lt_of_le (hacc.lt hi) m.lawful.userEnd_le)).symm
  rw [m.vmm_eq]
  refine ⟨fun write => ⟨fun rounds hr => ?_, hok write⟩, ?_, ?_, ?_⟩
  · exact m.layout.pte.userRangeIn_eq m.layout.top hlast p root virt len write hr
  · rw [Vmm.copyFromUser]
    by_cases hacc : m.layout.Accessible (m.layout.pageMap kids) virt len false
    · rw [(hok false).mpr hacc, if_neg (by simp), space.copyIn m.lawful hend len le_rfl hacc]
      exact iff_of_true rfl hacc
    · rw [if_pos ((hok false).not.mpr hacc)]
      exact iff_of_false (by simp) hacc
  · rw [Vmm.copyFromUser]
    by_cases hacc : m.layout.Accessible (m.layout.pageMap kids) virt len false
    · left
      rw [(hok false).mpr hacc, if_neg (by simp), space.copyIn m.lawful hend len le_rfl hacc]
      refine Prod.ext rfl (List.map_congr_left fun i hi => ?_)
      rw [hphys hacc i (List.mem_range.mp hi)]
    · right
      rw [if_pos ((hok false).not.mpr hacc)]
  · rintro bytes rfl
    rw [Vmm.copyToUser]
    by_cases hacc : m.layout.Accessible (m.layout.pageMap kids) virt bytes.length true
    · obtain ⟨mem, hcopy, hin, hout⟩ := m.copyToUser_copied space distinct apart hacc
      rw [m.vmm_eq, Vmm.copyToUser] at hcopy
      rw [hcopy]
      refine ⟨iff_of_true rfl hacc, .inl ⟨mem, rfl, fun i hi => ?_, fun x hx => hout x fun i hi => ?_⟩⟩
      · rw [← hphys hacc i hi]
        exact hin i hi
      · rw [hphys hacc i hi]
        exact hx i hi
    · rw [if_pos ((hok true).not.mpr hacc)]
      exact ⟨iff_of_false (by simp) hacc, .inr rfl⟩

theorem user_copies_smallMapped : ∃ mem,
    Machine.x86_64.vmm.copyToUser (smallMapped.root 0) smallMapped.phys 0x400ffe [1, 2] =
      (true, { smallMapped.phys with mem := mem }) ∧ mem 0x100fff = 2 := by
  obtain ⟨O, hO, hst⟩ := smallStart_boot.stands
  obtain ⟨A, live, kids, h⟩ := (smallMapped_run.stands hO hst).2
  have hs : 0 ∈ live := h.live_iff.mpr (show smallMapped.root 0 ≠ 0 by decide +kernel)
  obtain ⟨hnd, hK⟩ := h.space_free hO hs
  have hcopies := user_copies .x86_64 (h.space 0 hs) (Multiset.nodup_add.mp hnd).2.1
    (fun f hf => ⟨(hK f hf).1, fun hm => (hK f hf).2 (Multiset.mem_add.mpr (.inr hm))⟩) 0x400ffe 2
  have hok : Machine.x86_64.vmm.userRangeOk smallMapped.phys (smallMapped.root 0) 0x400ffe 2 true = true := by decide +kernel
  have hphys : Machine.x86_64.vmm.userPhys smallMapped.phys (smallMapped.root 0) (0x400ffe + 1) = 0x100fff := by decide +kernel
  obtain ⟨htrue, ⟨mem, hcopy, hin, -⟩ | hfail⟩ := hcopies.2.2.2 [1, 2] rfl
  · refine ⟨mem, hcopy, ?_⟩
    rw [← hphys]
    exact hin 1 (by decide)
  · have := htrue.mpr (((hcopies.1 true).2).mp hok)
    rw [hfail] at this
    cases this

end NarcOs
