import NarcOs.Libc.Allocate

/-!
# Allocating

`malloc` takes a free block that is large enough, or makes an arena with one, or leaves
the heap as it is.
-/

namespace NarcOs

open Tiling

variable {m m' : Mem} {owner a stop x y size prev next : Nat} {b c : Block} {bs pre post : List Block}
  {A A' : Arena} {As Pre Post : List Arena}

namespace UserHeap

variable {h h' : UserHeap} {p q k n : Nat}

-- ---------------------------------------------------------------------------
-- A new arena
-- ---------------------------------------------------------------------------

theorem alignSize_spec {value alignment : Nat} (hpos : 0 < alignment) (hle : value + alignment ≤ 2 ^ 64) :
    value ≤ alignSize value alignment ∧ alignSize value alignment < value + alignment ∧
      alignment ∣ alignSize value alignment := by
  unfold alignSize
  rw [wrapSize_eq (by omega)]
  have hdiv := Nat.div_add_mod (value + alignment - 1) alignment
  have hmod := Nat.mod_lt (value + alignment - 1) hpos
  rw [Nat.mul_comm] at hdiv
  exact ⟨by omega, by omega, Nat.dvd_mul_left _ _⟩

theorem mmap_cases (h : UserHeap) (length : Nat) :
    ((h.mmap length).1 = none ∧ (h.mmap length).2 = { h with answers := h.answers.tail }) ∨
    ∃ base, h.Fresh length base ∧ h.mmap length = (some base, { h with
      mem := h.mem.memset base 0 length
      regions := (base, length) :: h.regions
      answers := h.answers.tail }) := by
  obtain ⟨mem, arenas, errno, regions, _ | ⟨_ | base, rest⟩⟩ := h
  · exact .inl ⟨rfl, rfl⟩
  · exact .inl ⟨rfl, rfl⟩
  · by_cases hfresh : Fresh ⟨mem, arenas, errno, regions, some base :: rest⟩ length base
    · exact .inr ⟨base, hfresh, if_pos hfresh⟩
    · have hnone : mmap ⟨mem, arenas, errno, regions, some base :: rest⟩ length =
          (none, ⟨mem, arenas, errno, regions, rest⟩) := if_neg hfresh
      rw [hnone]
      exact .inl ⟨rfl, rfl⟩

end UserHeap

theorem Mem.store64_apply_congr {z v : Nat} (h : m' z = m z) : m'.store64 x v z = m.store64 x v z := by
  unfold store64 write
  split
  · rfl
  · exact h

theorem Mem.arenaHeader_setMapped {v : Nat} (hv : v < 2 ^ 64) :
    (m.setArenaMapped x v).arenaHeader x = { m.arenaHeader x with mapped := v } := by
  have h := onlyAt_store64 m x v
  unfold arenaHeader arenaMapped arenaActive arenaPrevious arenaNext setArenaMapped
  rw [load64_store64, Nat.mod_eq_of_lt hv, h.load64 (by omega), h.load64 (by omega), h.load64 (by omega)]

def Regions (As : List Arena) : Prop := As.Pairwise fun A B => Separate A.region B.region

theorem Linked.arenaBack (h : Linked m 0 prev As) (hapart : Regions As) {v : Nat} (hv : v < 2 ^ 64) :
    Linked (m.arenaBack (firstArena 0 As) v) 0 v As := by
  cases As with
  | nil => trivial
  | cons B As =>
    obtain ⟨hB, hAs⟩ := h
    have hbounds := hB.bounds
    have hne : firstArena 0 (B :: As) ≠ 0 := hB.pos.ne'
    rw [Mem.arenaBack, if_pos hne]
    refine ⟨hB.setPrevious hv, hAs.congr fun C hC z hl hr => ?_⟩
    have hsep := (List.pairwise_cons.mp hapart).1 C hC
    unfold Separate Arena.region at hsep
    dsimp only at hsep
    exact Mem.onlyAt_store64 m (B.base + 16) v z (by omega)

namespace UserHeap

variable {h h' : UserHeap} {p q k n : Nat}

theorem Has.live_avoids (hh : h.Has As) (hA : A ∈ As) (hlive : Live As q n) {z : Nat} (hl : q ≤ z) (hr : z < q + n) :
    z < A.base ∨ A.base + 80 ≤ z := by
  obtain ⟨B, hB, hin, hout⟩ := hh.live_inside hlive
  obtain ⟨Pre, Post, rfl⟩ := List.append_of_mem hA
  rcases List.mem_append.mp hB with hB | hB
  · have := hh.elsewhere (List.mem_append_left Post hB) (z := z) (by omega) (by omega)
    have := hh.ok.bounds
    omega
  rcases List.mem_cons.mp hB with rfl | hB
  · omega
  · have := hh.elsewhere (List.mem_append_right Pre hB) (z := z) (by omega) (by omega)
    have := hh.ok.bounds
    omega

theorem Has.first_lt (hh : h.Has As) : firstArena 0 As < 2 ^ 64 := by
  cases As with
  | nil => exact Nat.two_pow_pos 64
  | cons A As =>
    have := (show h.Has ([] ++ A :: As) from hh).ok.bounds
    show A.base < _
    omega

theorem Has.fresh (hh : h.Has As) {length base : Nat} (hfresh : h.Fresh length base) (hA : A ∈ As) :
    Separate (base, length) A.region :=
  hfresh.2.2.2 _ (hh.regions.mem_iff.mpr (List.mem_map_of_mem hA))

theorem arenaBack_other {z v : Nat} (hz : ∀ A ∈ As, z < A.base ∨ A.base + 32 ≤ z) :
    m.arenaBack (firstArena 0 As) v z = m z := by
  unfold Mem.arenaBack
  split
  · cases As with
    | nil => contradiction
    | cons A As =>
      have := hz A List.mem_cons_self
      exact Mem.onlyAt_store64 m (A.base + 16) v z (by omega)
  · rfl

/-- What `create_arena` writes to a region that was mapped. -/
theorem newArena_mem {base mapped next : Nat} (hmapped : mapped < 2 ^ 64) (hnext : next < 2 ^ 64)
    (hapart : next = 0 ∨ next + 32 ≤ base ∨ base + 32 ≤ next) (harenas : h.arenas = next) :
    (h.newArena base mapped).mem.arenaHeader base = ⟨mapped, 0, 0, next⟩ ∧
      ∀ z, z < base ∨ base + 32 ≤ z → (h.newArena base mapped).mem z = h.mem.arenaBack next base z := by
  obtain ⟨m₁, hm₁⟩ : ∃ m₁, m₁ = (((h.mem.setArenaMapped base mapped).setArenaActive base 0).setArenaPrevious base
      0).setArenaNext base next := ⟨_, rfl⟩
  have hnew : (h.newArena base mapped).mem = m₁.arenaBack next base := by
    unfold newArena
    simp only
    rw [harenas, hm₁]
  have hheader : m₁.arenaHeader base = ⟨mapped, 0, 0, next⟩ := by
    rw [hm₁, Mem.arenaHeader_setNext hnext, Mem.arenaHeader_setPrevious (by decide), Mem.arenaHeader_setActive (by decide),
      Mem.arenaHeader_setMapped hmapped]
  have honly : ∀ z, z < base ∨ base + 32 ≤ z → m₁ z = h.mem z := fun z hz => by
    rw [hm₁]
    unfold Mem.setArenaMapped Mem.setArenaActive Mem.setArenaPrevious Mem.setArenaNext
    rw [Mem.store64_apply_outside (by omega), Mem.store64_apply_outside (by omega), Mem.store64_apply_outside (by omega),
      Mem.store64_apply_outside (by omega)]
  rw [hnew]
  unfold Mem.arenaBack
  split
  · rename_i hne
    refine ⟨?_, fun z hz => Mem.store64_apply_congr (honly z hz)⟩
    rw [← hheader]
    exact Mem.arenaHeader_congr fun z hl hr => Mem.onlyAt_store64 m₁ (next + 16) base z (by omega)
  · exact ⟨hheader, honly⟩

theorem firstHeader_put {base size : Nat} (hsize : size < 2 ^ 64) (hbase : base < 2 ^ 64) :
    m.Put (m.firstHeader base size) (base + 32) ⟨size, 0, 0, base, true⟩ :=
  Mem.put_header hsize (by decide) (by decide) hbase

theorem Has.newArena {length base : Nat} (hh : h.Has As) (hfresh : h.Fresh length base) (hlarge : 80 ≤ length)
    (hpages : mapPageSize ∣ length) (hlt : length < 2 ^ 64) :
    let h₁ : UserHeap := { h with
      mem := h.mem.memset base 0 length
      regions := (base, length) :: h.regions
      answers := h.answers.tail }
    let h₂ := h₁.newArena base length
    let h₃ := h₂.setMem (h₂.mem.firstHeader base (length - 80))
    h₃.Has (⟨base, length, [⟨length - 80, true⟩]⟩ :: As) ∧ Intact h.mem h₃.mem As := by
  intro h₁ h₂ h₃
  have hbase : 0 < base := hfresh.2.1
  have hend : base + length ≤ 2 ^ 64 := hfresh.2.2.1
  have hfirst : firstArena 0 As = 0 ∨ firstArena 0 As + 32 ≤ base ∨ base + 32 ≤ firstArena 0 As := by
    cases As with
    | nil => exact .inl rfl
    | cons B As =>
      have hsep := hh.fresh hfresh (A := B) List.mem_cons_self
      have hbounds := (show h.Has ([] ++ B :: As) from hh).ok.bounds
      unfold Separate Arena.region at hsep
      dsimp only at hsep
      right
      show B.base + 32 ≤ base ∨ base + 32 ≤ B.base
      omega
  obtain ⟨hheader, hrest⟩ := @newArena_mem h₁ base length _ hlt hh.first_lt hfirst hh.arenas
  have hput : h₂.mem.Put h₃.mem (base + 32) ⟨length - 80, 0, 0, base, true⟩ := firstHeader_put (by omega) (by omega)
  -- outside the region only the link of the first arena is new
  have hsame : ∀ z, z < base ∨ base + length ≤ z → h₃.mem z = h.mem.arenaBack (firstArena 0 As) base z := fun z hz => by
    rw [hput.only z (by omega)]
    refine (hrest z (by omega)).trans ?_
    unfold Mem.arenaBack
    have hmem : h₁.mem z = h.mem z := Mem.memset_apply_outside hz
    split
    · exact Mem.store64_apply_congr hmem
    · exact hmem
  have helsewhere : ∀ B ∈ As, ∀ z, B.base ≤ z → z < B.base + B.mapped → z < base ∨ base + length ≤ z := fun B hB z hl hr => by
    have hsep := hh.fresh hfresh hB
    unfold Separate Arena.region at hsep
    dsimp only at hsep
    omega
  have hdvd : 16 ∣ length - 80 := Nat.dvd_sub ((by decide : 16 ∣ mapPageSize).trans hpages) (by decide)
  refine ⟨⟨rfl, ⟨?_, ?_⟩, ?_, ?_⟩, ?_⟩
  · have htiles : h₃.mem.header (base + 32) = headerOf 48 base (base + length) 0 (base + 32) ⟨length - 80, true⟩ := by
      have hstop : base + 32 + 48 + (length - 80) = base + length := by omega
      rw [hput.header]
      unfold headerOf
      rw [if_pos hstop]
    refine ⟨?_, ⟨⟨htiles, trivial⟩, ?_, by show 0 < base + 32; omega, by show base + length < _; omega⟩, ?_, ?_, ?_,
      Nat.dvd_of_mod_eq_zero hfresh.1, hpages, hbase⟩
    · exact (Mem.arenaHeader_congr fun z (hl : base ≤ z) (hr : z < base + 32) => hput.only z (.inl hr)).trans hheader
    · show base + 32 + 48 + (length - 80) = base + length
      omega
    · exact List.isChain_singleton _
    · intro b hb
      rw [List.mem_singleton.mp hb]
      exact hdvd
    · exact List.cons_ne_nil _ _
  · have hback := hh.linked.arenaBack hh.apart (show base < 2 ^ 64 by omega)
    exact hback.congr fun B hB z hl hr => hsame z (helsewhere B hB z hl hr)
  · exact hh.regions.cons (base, length)
  · exact List.pairwise_cons.mpr ⟨fun B hB => hh.fresh hfresh hB, hh.apart⟩
  · intro p n hlive i hi
    obtain ⟨B, hB, hl, hr⟩ := hh.live_inside hlive
    rw [hsame _ (helsewhere B hB _ (by omega) (by omega))]
    refine arenaBack_other fun A hA => ?_
    have := hh.live_avoids hA hlive (z := p + i) (by omega) (by omega)
    omega

theorem Has.createArena (hh : h.Has As) (size : Nat) :
    ((h.createArena size).1 = 0 ∧ ∃ answers, (h.createArena size).2 = { h with answers := answers }) ∨
    ∃ A : Arena, (h.createArena size).1 = A.base ∧ 0 < A.base ∧ A.blocks = [⟨A.mapped - 80, true⟩] ∧
      size ≤ A.mapped - 80 ∧ (h.createArena size).2.Has (A :: As) ∧ Intact h.mem (h.createArena size).2.mem As := by
  have hoverhead : wrapSize (arenaHeaderSize + sizeofBlock) = 80 := by decide
  have hlimit : subSize (subSize sizeMax 80) (mapPageSize - 1) = 2 ^ 64 - 4176 := by decide
  unfold UserHeap.createArena
  simp only [hoverhead, hlimit]
  by_cases hlarge : 2 ^ 64 - 4176 < size
  · rw [if_pos hlarge]
    exact .inl ⟨rfl, h.answers, rfl⟩
  rw [if_neg hlarge, wrapSize_eq (show size + 80 < 2 ^ 64 by omega)]
  obtain ⟨hrequired, hbound, hpages⟩ := @alignSize_spec (size + 80) mapPageSize (by decide) (by unfold mapPageSize; omega)
  generalize alignSize (size + 80) mapPageSize = required at hrequired hbound hpages
  obtain ⟨mapped, hmapped, hroom, hpages, hlt⟩ : ∃ mapped, (if required > arenaSize then required else arenaSize) = mapped ∧
      size + 80 ≤ mapped ∧ mapPageSize ∣ mapped ∧ mapped < 2 ^ 64 := by
    refine ⟨_, rfl, ?_⟩
    unfold mapPageSize arenaSize at *
    split
    · exact ⟨hrequired, hpages, by omega⟩
    · exact ⟨by omega, by decide, by decide⟩
  rw [hmapped]
  rcases mmap_cases h mapped with ⟨hnone, hsame⟩ | ⟨base, hfresh, hmmap⟩
  · generalize h.mmap mapped = r at hnone hsame ⊢
    obtain ⟨answer, h'⟩ := r
    cases hnone
    exact .inl ⟨rfl, _, hsame⟩
  · obtain ⟨hhas, hintact⟩ := hh.newArena hfresh (by omega) hpages hlt
    rw [hmmap, subSize_eq hlt (by omega)]
    exact .inr ⟨⟨base, mapped, [⟨mapped - 80, true⟩]⟩, rfl, hfresh.2.1, rfl, Nat.le_sub_of_add_le hroom, hhas, hintact⟩

-- ---------------------------------------------------------------------------
-- malloc
-- ---------------------------------------------------------------------------

structure Same (h h' : UserHeap) : Prop where
  mem : h'.mem = h.mem
  arenas : h'.arenas = h.arenas
  regions : h'.regions = h.regions

theorem Sound.same (hs : h.Sound As) (hsame : Same h h') : h'.Sound As where
  arenas := hsame.arenas.trans hs.arenas
  linked := by
    rw [hsame.mem]
    exact hs.linked
  regions := by
    rw [hsame.regions]
    exact hs.regions
  apart := hs.apart
  idle_le := hs.idle_le

structure Gained (h h' : UserHeap) (As As' : List Arena) (p n : Nat) : Prop where
  sound : h'.Sound As'
  live : ∀ q k, Live As' q k ↔ (q = p ∧ k = n) ∨ Live As q k
  fresh : ∀ k, ¬ Live As p k
  intact : Intact h.mem h'.mem As

/-- What an allocation of `size` bytes does. -/
inductive Allocated (h : UserHeap) (As : List Arena) (size : Nat) : Option (Nat × UserHeap) → Prop
  | null {h' : UserHeap} (hsame : Same h h') (herrno : h'.errno = enomem) : Allocated h As size (some (0, h'))
  | block {h' : UserHeap} {As' : List Arena} {p n : Nat} (hsize : size ≤ n) (hgained : Gained h h' As As' p n) :
    Allocated h As size (some (p, h'))

theorem idle_used (hA : 0 < used A.blocks) : idle (Pre ++ A :: Post) = idle (Pre ++ Post) := by
  unfold idle
  rw [List.countP_append, List.countP_append, List.countP_cons_of_neg (by simpa using hA.ne')]

theorem live_taken (hblocks : A.blocks = pre ++ b :: post) (hb : b.free = true) (hle : size ≤ b.size) :
    Live (Pre ++ taken A pre b post size :: Post) q n ↔
      (q = endOf 48 (A.base + 32) pre + 48 ∧ n = splitSize b size) ∨ Live (Pre ++ A :: Post) q n := by
  have hold : ∀ x, At 48 (A.base + 32) A.blocks x ⟨n, false⟩ ↔ At 48 (A.base + 32) pre x ⟨n, false⟩ ∨
      At 48 (endOf 48 (A.base + 32) pre + 48 + b.size) post x ⟨n, false⟩ := fun x => by
    rw [hblocks, at_append, at_cons, used_eq_mk, hb]
    simp
  have hnew : ∀ x, At 48 (A.base + 32) (taken A pre b post size).blocks x ⟨n, false⟩ ↔
      (x = endOf 48 (A.base + 32) pre ∧ n = splitSize b size) ∨ At 48 (A.base + 32) A.blocks x ⟨n, false⟩ := fun x => by
    rw [hold, or_left_comm]
    exact at_taken hle
  rw [live_middle, live_middle, ← or_assoc]
  refine or_congr_left ⟨?_, ?_⟩
  · rintro ⟨x, rfl, hx⟩
    rcases (hnew x).mp hx with ⟨rfl, hn⟩ | hx
    · exact .inl ⟨rfl, hn⟩
    · exact .inr ⟨x, rfl, hx⟩
  · rintro (⟨rfl, hn⟩ | ⟨x, rfl, hx⟩)
    · exact ⟨_, rfl, (hnew _).mpr (.inl ⟨rfl, hn⟩)⟩
    · exact ⟨x, rfl, (hnew x).mpr (.inr hx)⟩

theorem Has.free_not_live (hh : h.Has As) (hA : A ∈ As) (hb : At 48 (A.base + 32) A.blocks x b) (hfree : b.free = true) :
    ¬ Live As (x + 48) n := by
  rintro ⟨B, hB, y, heq, hlive⟩
  have hone := hh.blocks_apart hA hb hB hlive
  obtain ⟨rfl, rfl⟩ := hone.resolve_right fun hapart => by
    simp only at hapart
    omega
  cases hfree

theorem Has.gained (hh : h.Has (Pre ++ A :: Post)) (hblocks : A.blocks = pre ++ b :: post) (hb : b.free = true)
    (hle : size ≤ b.size) (hsize : 16 ∣ size) (hidle : idle (Pre ++ Post) ≤ 1) :
    (h.take (endOf 48 (A.base + 32) pre) size).1 = endOf 48 (A.base + 32) pre + 48 ∧
      Gained h (h.take (endOf 48 (A.base + 32) pre) size).2 (Pre ++ A :: Post) (Pre ++ taken A pre b post size :: Post)
        (endOf 48 (A.base + 32) pre + 48) (splitSize b size) := by
  obtain ⟨hhas, hintact⟩ := hh.take hblocks hb hle hsize
  have hat : At 48 (A.base + 32) A.blocks (endOf 48 (A.base + 32) pre) b := at_iff.mpr ⟨pre, post, hblocks, rfl⟩
  have hpos : 0 < used (taken A pre b post size).blocks := by
    show 0 < used (pre ++ ⟨splitSize b size, false⟩ :: splitRest b size post)
    rw [used_taken hb]
    omega
  refine ⟨rfl, { hhas with idle_le := ?_ }, fun q k => live_taken hblocks hb hle, fun k => ?_, hintact⟩
  · rw [idle_used hpos]
    exact hidle
  · exact hh.free_not_live (by simp) hat hb

theorem splitSize_ge (hle : size ≤ b.size) : size ≤ splitSize b size := by
  unfold splitSize
  split
  · exact hle
  · exact le_rfl

theorem idle_middle : idle (Pre ++ Post) ≤ idle (Pre ++ A :: Post) := by
  unfold idle
  rw [List.countP_append, List.countP_append, List.countP_cons]
  omega

theorem Sound.malloc (hs : h.Sound As) (hlt : size < 2 ^ 64) : Allocated h As size (h.malloc size) := by
  obtain ⟨wanted, hwanted, hle, hbound⟩ : ∃ wanted, (if size = 0 then 1 else size) = wanted ∧ size ≤ wanted ∧
      wanted < 2 ^ 64 := ⟨_, rfl, by split <;> omega, by split <;> omega⟩
  have hlimit : subSize sizeMax (maxAlign - 1) = 2 ^ 64 - 16 := by decide
  unfold UserHeap.malloc allocate
  simp only [hwanted, hlimit]
  by_cases hlarge : 2 ^ 64 - 16 < wanted
  · rw [if_pos hlarge]
    exact .null ⟨rfl, rfl, rfl⟩ rfl
  rw [if_neg hlarge]
  obtain ⟨hrounded, -, hdvd⟩ := @alignSize_spec wanted maxAlign (by decide) (by unfold maxAlign; omega)
  generalize alignSize wanted maxAlign = rounded at hrounded hdvd
  have hfound := @findFrom_cases _ rounded _ _ _ hs.linked hs.length_lt
  rw [← hs.arenas] at hfound
  rcases hfound with hnone | ⟨Pre, A, Post, pre, b, post, rfl, hblocks, hfree, hfits, hsome⟩
  · rw [hnone, Option.bind_eq_bind, Option.bind_some, if_neg (not_not.mpr rfl)]
    rcases hs.toHas.createArena rounded with ⟨hzero, answers, hsame⟩ | ⟨A, hbase, hpos, hblocks, hroom, hhas, hintact⟩
    · rw [hsame, if_pos hzero]
      exact .null ⟨rfl, rfl, rfl⟩ rfl
    · have hnew : (h.createArena rounded).2.Has ([] ++ A :: As) := hhas
      have hlive : ∀ q k, Live ([] ++ A :: As) q k ↔ Live As q k := fun q k => by
        rw [live_middle, hblocks]
        simp [At]
      obtain ⟨hp, hgained⟩ := @Has.gained rounded ⟨A.mapped - 80, true⟩ [] [] A [] As _ hnew hblocks rfl hroom hdvd hs.idle_le
      have hfirst : endOf 48 (A.base + 32) [] = firstBlock A.base := rfl
      rw [hfirst] at hp hgained
      rw [hbase, if_neg hpos.ne']
      change Allocated h _ size (some (((h.createArena rounded).2.take (firstBlock A.base) rounded).1,
        ((h.createArena rounded).2.take (firstBlock A.base) rounded).2))
      rw [hp]
      refine .block ((hle.trans hrounded).trans (@splitSize_ge rounded ⟨A.mapped - 80, true⟩ hroom)) ⟨hgained.sound, fun q k => ?_, fun k hk => ?_,
        fun q k hk i hi => ?_⟩
      · rw [hgained.live, hlive]
      · exact hgained.fresh k ((hlive _ _).mpr hk)
      · rw [hgained.intact q k ((hlive _ _).mpr hk) i hi, hintact q k hk i hi]
  · have hpos : endOf 48 (A.base + 32) pre ≠ 0 := by
      have := le_endOf 48 (A.base + 32) pre
      omega
    obtain ⟨hp, hgained⟩ := hs.toHas.gained hblocks hfree hfits hdvd (idle_middle.trans hs.idle_le)
    rw [hsome, Option.bind_eq_bind, Option.bind_some, if_pos hpos]
    change Allocated h _ size (some ((h.take (endOf 48 (A.base + 32) pre) rounded).1,
      (h.take (endOf 48 (A.base + 32) pre) rounded).2))
    rw [hp]
    exact .block ((hle.trans hrounded).trans (splitSize_ge hfits)) hgained

end UserHeap

end NarcOs
