import NarcOs.Libc.Malloc

/-!
# Releasing

A block that is freed is merged with the free ones beside it. The others in use keep
their places and their bytes. An arena without blocks in use is unmapped unless it is
the only one.
-/

namespace NarcOs

open Tiling

variable {m m' m'' : Mem} {owner a stop x y n k size prev next : Nat} {b c : Block} {bs bs' bs'' pre post : List Block}

structure Recut (m m' : Mem) (owner a stop : Nat) (bs bs' : List Block) : Prop where
  laid : m'.Laid owner a stop bs'
  at_iff : ∀ y k, At 48 a bs' y ⟨k, false⟩ ↔ At 48 a bs y ⟨k, false⟩
  payload : ∀ y k, At 48 a bs y ⟨k, false⟩ → ∀ i < k, m' (y + 48 + i) = m (y + 48 + i)
  outside : ∀ z, z < a ∨ stop ≤ z → m' z = m z
  used_eq : used bs' = used bs

theorem Recut.trans (h : Recut m m' owner a stop bs bs') (h' : Recut m' m'' owner a stop bs' bs'') :
    Recut m m'' owner a stop bs bs'' where
  laid := h'.laid
  at_iff y k := (h'.at_iff y k).trans (h.at_iff y k)
  payload y k hb i hi := (h'.payload y k ((h.at_iff y k).mpr hb) i hi).trans (h.payload y k hb i hi)
  outside z hz := (h'.outside z hz).trans (h.outside z hz)
  used_eq := h'.used_eq.trans h.used_eq

theorem mergeNext_recut (h : m.Laid owner a stop (pre ++ b :: post)) (hb : b.free = true) :
    Recut m (m.mergeNext (endOf 48 a pre)) owner a stop (pre ++ b :: post) (pre ++ mergeAt b post) := by
  obtain ⟨hlaid, honly⟩ := mergeNext_laid h
  refine ⟨hlaid, fun y k => ?_, fun y k hy i hi => honly.payload hy hi, fun z hz => honly.outside ?_, ?_⟩
  · rw [at_append, at_append, at_mergeAt, at_cons, used_eq_mk, hb]
    simp
  · rwa [h.stop_eq]
  · rw [used_append, used_append, used_mergeAt]

theorem coalesce_recut (h : m.Laid owner a stop (pre ++ ⟨n, true⟩ :: post)) (hpre : Merged pre) (hpost : Merged post)
    (haligned : Aligned (pre ++ ⟨n, true⟩ :: post)) :
    ∃ bs', Recut m (m.coalesce (endOf 48 a pre)) owner a stop (pre ++ ⟨n, true⟩ :: post) bs' ∧ Merged bs' ∧
      Aligned bs' ∧ bs' ≠ [] := by
  have hfirst := mergeNext_recut h rfl
  have hmerged : Merged (mergeAt ⟨n, true⟩ post) := Merged.mergeAt hpost
  have haligned' : Aligned (mergeAt ⟨n, true⟩ post) :=
    Aligned.mergeAt fun c hc => haligned c (List.mem_append_right pre hc)
  have haligned_pre : Aligned pre := fun c hc => haligned c (List.mem_append_left _ hc)
  unfold Mem.coalesce
  simp only
  generalize m.mergeNext (endOf 48 a pre) = m₁ at hfirst ⊢
  have hlaid := hfirst.laid
  rw [mergeAt_eq] at hlaid
  have hprevious : m₁.blockPrevious (endOf 48 a pre) = lastOf 48 0 a pre := (Mem.header_fields hlaid.tiles.split.1).2.1
  rw [hprevious]
  -- whether there is a block before, and whether it is free
  rcases List.eq_nil_or_concat pre with rfl | ⟨pre', c, rfl⟩
  · rw [if_neg (fun hne => hne.1 rfl)]
    refine ⟨_, hfirst, hmerged, haligned', ?_⟩
    rw [mergeAt_eq]
    exact List.cons_ne_nil _ _
  · rw [List.concat_eq_append] at *
    have hlast : lastOf 48 0 a (pre' ++ [c]) = endOf 48 a pre' := by
      rw [lastOf_append]
      rfl
    have hpos : endOf 48 a pre' ≠ 0 := by
      have hle := le_endOf 48 a pre'
      have := h.pos
      omega
    have hbefore := hfirst.laid
    rw [← List.append_cons] at hbefore
    have hfree : m₁.blockFree (endOf 48 a pre') = c.free := (Mem.header_fields hbefore.tiles.split.1).2.2.2.2
    rw [hlast, hfree]
    have hall : Aligned (pre' ++ c :: mergeAt ⟨n, true⟩ post) := fun d hd => by
      rw [List.append_cons] at hd
      exact (List.mem_append.mp hd).elim (haligned_pre d) (haligned' d)
    have hsplit := List.isChain_append.mp hpre
    by_cases hc : c.free = true
    · rw [if_pos ⟨hpos, hc⟩]
      have hsecond := mergeNext_recut hbefore hc
      rw [List.append_cons] at hsecond
      refine ⟨_, hfirst.trans hsecond, Merged.append hsplit.1 (Merged.mergeAt hmerged) fun d hd => ?_, fun d hd => ?_, ?_⟩
      · have hnot := hsplit.2.2 d hd c rfl
        cases hfree : d.free with
        | false => rfl
        | true => exact absurd ⟨hfree, hc⟩ hnot
      · rcases List.mem_append.mp hd with hd | hd
        · exact hall d (List.mem_append_left _ hd)
        · exact Aligned.mergeAt (fun e he => hall e (List.mem_append_right pre' he)) d hd
      · rw [mergeAt_eq]
        simp
    · rw [if_neg (fun hne => hc hne.2)]
      refine ⟨_, hfirst, Merged.append hpre hmerged fun d hd => ?_, ?_, by simp⟩
      · rw [List.getLast?_append] at hd
        cases hd
        exact Bool.eq_false_iff.mpr hc
      · rwa [List.append_cons] at hall

variable {A A' B : Arena} {As Pre Post : List Arena}

theorem Linked.arenaNext (h : Linked m next prev (Pre ++ [B])) (hapart : Regions (Pre ++ [B])) {v : Nat} (hv : v < 2 ^ 64) :
    Linked (m.setArenaNext B.base v) v prev (Pre ++ [B]) := by
  obtain ⟨hpre, hB, -⟩ := linked_append.mp h
  have hbounds := hB.bounds
  refine linked_append.mpr ⟨hpre.congr fun C hC z hl hr => ?_, hB.setNext hv, trivial⟩
  have hsep := (List.pairwise_append.mp hapart).2.2 C hC B (List.mem_singleton_self B)
  unfold Separate Arena.region at hsep
  dsimp only at hsep
  exact Mem.onlyAt_store64 m (B.base + 24) v z (by omega)

theorem lastArena_append : lastArena prev (Pre ++ [B]) = B.base := by
  induction Pre generalizing prev with
  | nil => rfl
  | cons A Pre ih => exact ih

namespace UserHeap

variable {h h' : UserHeap} {p q : Nat}

/-- In `__allocator_release`, what pointed to the arena points behind it. -/
theorem Has.unlink (hh : h.Has (Pre ++ A :: Post)) :
    let h₁ := if lastArena 0 Pre ≠ 0 then h.setMem (h.mem.setArenaNext (lastArena 0 Pre) (firstArena 0 Post))
      else { h with arenas := firstArena 0 Post }
    h₁.arenas = firstArena 0 (Pre ++ Post) ∧ h₁.regions = h.regions ∧ Linked h₁.mem (firstArena 0 Post) 0 Pre ∧
      ∀ z, (∀ B ∈ Pre, z < B.base ∨ B.base + 32 ≤ z) → h₁.mem z = h.mem z := by
  obtain ⟨hpre, -, -⟩ := linked_append.mp hh.linked
  rcases List.eq_nil_or_concat Pre with rfl | ⟨Pre, B, rfl⟩
  · intro h₁
    exact ⟨rfl, rfl, trivial, fun _ _ => rfl⟩
  · rw [List.concat_eq_append] at *
    have hB : 0 < B.base := by
      obtain ⟨_, _, hok⟩ := hh.ok_of_mem (A := B) (by simp)
      exact hok.pos
    have hlast : lastArena 0 (Pre ++ [B]) = B.base := lastArena_append
    have hfirst : firstArena 0 Post < 2 ^ 64 := by
      cases Post with
      | nil => exact Nat.two_pow_pos 64
      | cons C Post =>
        obtain ⟨_, _, hok⟩ := hh.ok_of_mem (A := C) (by simp)
        have := hok.bounds
        show C.base < _
        omega
    have hapart : Regions (Pre ++ [B]) := (List.pairwise_append.mp hh.apart).1
    rw [hlast, if_pos hB.ne']
    intro h₁
    refine ⟨?_, rfl, hpre.arenaNext hapart hfirst, fun z hz => ?_⟩
    · show h.arenas = _
      rw [hh.arenas]
      cases Pre <;> rfl
    · have := hz B (by simp)
      exact Mem.onlyAt_store64 h.mem (B.base + 24) _ z (by omega)

theorem Has.dropArena (hh : h.Has (Pre ++ A :: Post)) :
    (h.dropArena A.base).Has (Pre ++ Post) ∧ Intact h.mem (h.dropArena A.base).mem (Pre ++ Post) := by
  have hA := hh.ok
  have hbounds := hA.bounds
  obtain ⟨hmapped, -, hprevious, hnext⟩ := Mem.arenaHeader_fields hA.header
  simp only at hmapped hprevious hnext
  have hlast : lastArena 0 Pre < 2 ^ 64 := by
    rw [← hprevious]
    exact Mem.load64_lt _ _
  obtain ⟨-, -, hpost⟩ := linked_append.mp hh.linked
  obtain ⟨hapartPre, hapartPost, hcross⟩ := List.pairwise_append.mp hh.apart
  obtain ⟨-, hapartPost⟩ := List.pairwise_cons.mp hapartPost
  have hsides : ∀ {B C : Arena}, B ∈ Pre → C ∈ Post → Separate B.region C.region := fun hB hC =>
    hcross _ hB _ (List.mem_cons_of_mem A hC)
  have hsize : ∀ {B : Arena}, B ∈ Pre ++ Post → 80 ≤ B.mapped := fun {B} hB => by
    obtain ⟨_, _, hok⟩ := hh.ok_of_mem (mem_middle hB)
    have := hok.bounds
    omega
  obtain ⟨harenas, hregions, hpre, hunlink⟩ := hh.unlink
  unfold UserHeap.dropArena
  simp only [hprevious, hnext]
  generalize (if lastArena 0 Pre ≠ 0 then h.setMem (h.mem.setArenaNext (lastArena 0 Pre) (firstArena 0 Post))
    else { h with arenas := firstArena 0 Post }) = h₁ at harenas hregions hpre hunlink
  have hhere : ∀ z, A.base ≤ z → z < A.base + A.mapped → h₁.mem z = h.mem z := fun z hl hr =>
    hunlink z fun B hB => by
      have := hh.separate (List.mem_append_left Post hB)
      have := hsize (List.mem_append_left Post hB)
      omega
  have hheader : h₁.mem.arenaHeader A.base = h.mem.arenaHeader A.base :=
    Mem.arenaHeader_congr fun z hl hr => hhere z hl (by omega)
  rw [hA.header] at hheader
  obtain ⟨-, -, hprevious₁, hnext₁⟩ := Mem.arenaHeader_fields hheader
  simp only at hprevious₁ hnext₁
  rw [hprevious₁, hnext₁]
  -- the link from the arena behind
  obtain ⟨m₂, hm₂⟩ : ∃ m₂, h₁.mem.arenaBack (firstArena 0 Post) (lastArena 0 Pre) = m₂ := ⟨_, rfl⟩
  have hback : ∀ z, (∀ B ∈ Post, z < B.base ∨ B.base + 32 ≤ z) → m₂ z = h₁.mem z := fun z hz => by
    rw [← hm₂]
    exact arenaBack_other hz
  have hmapped₂ : m₂.arenaMapped A.base = A.mapped := by
    have hheader₂ : m₂.arenaHeader A.base = h₁.mem.arenaHeader A.base :=
      Mem.arenaHeader_congr fun z hl hr => hback z fun B hB => by
        have := hh.separate (List.mem_append_right Pre hB)
        have := hsize (List.mem_append_right Pre hB)
        omega
    exact (Mem.arenaHeader_fields (hheader₂.trans hheader)).1
  have hpost₂ : Linked m₂ 0 (lastArena 0 Pre) Post := by
    rw [← hm₂]
    refine Linked.arenaBack (hpost.congr fun C hC z hl hr => hunlink z fun B hB => ?_) hapartPost hlast
    have hsep := hsides hB hC
    have := hsize (List.mem_append_left Post hB)
    unfold Separate Arena.region at hsep
    dsimp only at hsep
    omega
  have hpre₂ : Linked m₂ (firstArena 0 Post) 0 Pre := hpre.congr fun B hB z hl hr => hback z fun C hC => by
    have hsep := hsides hB hC
    have := hsize (List.mem_append_right Pre hC)
    unfold Separate Arena.region at hsep
    dsimp only at hsep
    omega
  rw [hm₂, show (h₁.setMem m₂).mem.arenaMapped A.base = A.mapped from hmapped₂]
  refine ⟨⟨harenas, linked_append.mpr ⟨hpre₂, hpost₂⟩, ?_, ?_⟩, fun q k hlive i hi => ?_⟩
  · show (h₁.regions.erase A.region).Perm _
    rw [hregions]
    have hperm := hh.regions.erase A.region
    rw [List.map_append, List.map_cons] at hperm
    have hmiddle : (Pre.map Arena.region ++ A.region :: Post.map Arena.region).Perm
        (A.region :: (Pre ++ Post).map Arena.region) := by
      rw [List.map_append]
      exact List.perm_middle
    have herase := hmiddle.erase A.region
    rw [List.erase_cons_head] at herase
    exact hperm.trans herase
  · exact List.pairwise_append.mpr ⟨hapartPre, hapartPost, fun B hB C hC => hsides hB hC⟩
  · have hlive' : Live (Pre ++ A :: Post) q k := live_middle.mpr (.inr hlive)
    show m₂ (q + i) = h.mem (q + i)
    rw [hback _ fun B hB => ?_, hunlink _ fun B hB => ?_]
    · have := hh.live_avoids (A := B) (by simp [hB]) hlive' (z := q + i) (by omega) (by omega)
      omega
    · have := hh.live_avoids (A := B) (by simp [hB]) hlive' (z := q + i) (by omega) (by omega)
      omega

theorem Has.live_apart (hh : h.Has As) (hp : Live As p n) (hq : Live As q k) :
    (p = q ∧ n = k) ∨ p + n + 48 ≤ q ∨ q + k + 48 ≤ p := by
  obtain ⟨A, hA, x, rfl, hx⟩ := hp
  obtain ⟨B, hB, y, rfl, hy⟩ := hq
  rcases hh.blocks_apart hA hx hB hy with ⟨rfl, heq⟩ | hapart | hapart
  · cases heq
    exact .inl ⟨rfl, rfl⟩
  · exact .inr (.inl (by simp only at hapart; omega))
  · exact .inr (.inr (by simp only at hapart; omega))

theorem Sound.store (hs : h.Sound As) (hlive : Live As p n) (hsame : ∀ z, z < p ∨ p + n ≤ z → m' z = h.mem z) :
    (h.setMem m').Sound As := by
  obtain ⟨A, hA, x, rfl, hat⟩ := hlive
  have hin := hs.toHas.block_inside hA hat
  obtain ⟨Pre, Post, rfl⟩ := List.append_of_mem hA
  have hok := hs.toHas.ok
  have hheader : m'.arenaHeader A.base = h.mem.arenaHeader A.base :=
    Mem.arenaHeader_congr fun z hl hr => hsame z (by omega)
  have hlaid : m'.Laid A.base (A.base + 32) (A.base + A.mapped) A.blocks := hok.laid.headers fun y b hy i hi => by
    have hapart := hat.apart hy
    simp only at hapart hin
    exact hsame _ (by omega)
  exact { hs.toHas.update ⟨hheader.trans hok.header, hlaid, hok.merged, hok.aligned, hok.nonempty, hok.page, hok.pages,
    hok.pos⟩ rfl fun z hz => hsame z (by simp only at hin; omega) with idle_le := hs.idle_le }

-- ---------------------------------------------------------------------------
-- free
-- ---------------------------------------------------------------------------

structure Lost (h h' : UserHeap) (As As' : List Arena) (p : Nat) : Prop where
  sound : h'.Sound As'
  live : ∀ q k, Live As' q k ↔ q ≠ p ∧ Live As q k
  intact : Intact h.mem h'.mem As'

theorem at_freed : At 48 a (pre ++ ⟨n, true⟩ :: post) y ⟨k, false⟩ ↔
    y ≠ endOf 48 a pre ∧ At 48 a (pre ++ ⟨n, false⟩ :: post) y ⟨k, false⟩ := by
  rw [at_append, at_append, at_cons, at_cons]
  constructor
  · rintro (hy | ⟨-, heq⟩ | hy)
    · exact ⟨by have := hy.bounds; omega, .inl hy⟩
    · cases heq
    · exact ⟨by have := hy.bounds; omega, .inr (.inr hy)⟩
  · rintro ⟨hne, hy | ⟨rfl, -⟩ | hy⟩
    · exact .inl hy
    · exact absurd rfl hne
    · exact .inr (.inr hy)

theorem Has.released (hh : h.Has (Pre ++ A :: Post)) (hblocks : A.blocks = pre ++ ⟨n, false⟩ :: post) :
    let m := h.mem.released (endOf 48 (A.base + 32) pre) A.base
    ∃ bs, (h.setMem m).Has (Pre ++ { A with blocks := bs } :: Post) ∧ used bs + 1 = used A.blocks ∧
      (∀ y k, At 48 (A.base + 32) bs y ⟨k, false⟩ ↔
        y ≠ endOf 48 (A.base + 32) pre ∧ At 48 (A.base + 32) A.blocks y ⟨k, false⟩) ∧
      Intact h.mem m (Pre ++ { A with blocks := bs } :: Post) := by
  intro m
  have hA := hh.ok
  have hbounds := hA.bounds
  have hlaid := hA.laid
  have hmerged := hA.merged
  rw [hblocks] at hlaid hmerged
  obtain ⟨hpre, hpost⟩ := (merged_used rfl).mp hmerged
  obtain ⟨hlaid₁, honly₁⟩ := hlaid.setFree (show 1 < 2 ^ 32 by decide)
  have hstop := hlaid.stop_eq
  obtain ⟨m₁, hm₁⟩ : ∃ m₁, h.mem.setBlockFree (endOf 48 (A.base + 32) pre) 1 = m₁ := ⟨_, rfl⟩
  rw [hm₁] at hlaid₁ honly₁
  have hheader : m₁.arenaHeader A.base = ⟨A.mapped, used A.blocks, lastArena 0 Pre, firstArena 0 Post⟩ := by
    rw [Mem.arenaHeader_congr fun z _ hr => honly₁.outside (.inl hr)]
    exact hA.header
  have hactive : m₁.arenaActive A.base = used A.blocks := (Mem.arenaHeader_fields hheader).2.1
  have hused : used A.blocks = used (pre ++ ⟨n, true⟩ :: post) + 1 := by
    rw [hblocks, used_append, used_append, used_cons, used_cons]
    rfl
  have hlt := hA.used_lt
  -- the count of the arena
  obtain ⟨m₂, hm₂⟩ : ∃ m₂, m₁.setArenaActive A.base (used A.blocks - 1) = m₂ := ⟨_, rfl⟩
  have honly₂ : ∀ z, z < A.base ∨ A.base + 32 ≤ z → m₂ z = m₁ z := fun z hz => by
    rw [← hm₂]
    exact Mem.onlyAt_store64 m₁ (A.base + 8) _ z (by omega)
  have hlaid₂ := hlaid₁.congr fun z hl _ => honly₂ z (.inr hl)
  have haligned : Aligned (pre ++ ⟨n, true⟩ :: post) := fun c hc => by
    rcases List.mem_append.mp hc with hc | hc
    · exact hA.aligned c (by simp [hblocks, hc])
    rcases List.mem_cons.mp hc with rfl | hc
    · exact hA.aligned ⟨n, false⟩ (by simp [hblocks])
    · exact hA.aligned c (by simp [hblocks, hc])
  obtain ⟨bs, hrecut, hmerged', haligned', hne⟩ := coalesce_recut hlaid₂ hpre hpost haligned
  have hm : m = m₂.coalesce (endOf 48 (A.base + 32) pre) := by
    show h.mem.released _ _ = _
    unfold Mem.released
    simp only
    rw [hm₁, hactive, if_pos (by omega), subSize_eq (by omega) (by omega), hm₂]
  rw [hm]
  have hheader₂ : (m₂.coalesce (endOf 48 (A.base + 32) pre)).arenaHeader A.base =
      ⟨A.mapped, used bs, lastArena 0 Pre, firstArena 0 Post⟩ := by
    rw [Mem.arenaHeader_congr fun z _ hr => hrecut.outside z (.inl hr), ← hm₂, Mem.arenaHeader_setActive (by omega),
      hheader, hrecut.used_eq]
    simp only [ArenaHeader.mk.injEq, and_true, true_and]
    omega
  have hlive : ∀ y k, At 48 (A.base + 32) bs y ⟨k, false⟩ ↔
      y ≠ endOf 48 (A.base + 32) pre ∧ At 48 (A.base + 32) A.blocks y ⟨k, false⟩ := fun y k => by
    rw [hrecut.at_iff, hblocks]
    exact at_freed
  refine ⟨bs, hh.update ⟨hheader₂, hrecut.laid, hmerged', haligned', hne, hA.page, hA.pages, hA.pos⟩ rfl fun z hz => ?_,
    ?_, hlive, ?_⟩
  · rw [hrecut.outside z (by omega), honly₂ z (by omega), honly₁.outside (by omega)]
  · rw [hrecut.used_eq]
    exact hused.symm
  · intro q k hq i hi
    rcases live_middle.mp hq with ⟨y, rfl, hy⟩ | hq
    · have hold := ((hlive y k).mp hy).2
      rw [hblocks] at hold
      have hbounds' := hold.bounds
      rw [hrecut.payload y k ((hrecut.at_iff y k).mp hy) i hi, honly₂ _ (by omega), honly₁.payload hold hi]
    · refine hh.intact_others (fun z hz => ?_) q k hq i hi
      rw [hrecut.outside z (by omega), honly₂ z (by omega), honly₁.outside (by omega)]

theorem not_live_of_used (h : used bs = 0) : ¬ At 48 a bs x ⟨k, false⟩ := fun hat => by
  have := hat.used_pos rfl
  omega

theorem Has.not_live_others (hh : h.Has (Pre ++ A :: Post)) (hb : At 48 (A.base + 32) A.blocks x b) :
    ¬ Live (Pre ++ Post) (x + 48) k := by
  rintro ⟨B, hB, y, heq, hy⟩
  have hsep := hh.separate hB
  have hx := hh.block_inside (by simp) hb
  have hy := hh.block_inside (mem_middle hB) hy
  omega

theorem Has.live_freed (hh : h.Has (Pre ++ A :: Post)) (hb : At 48 (A.base + 32) A.blocks x b)
    (hbs : ∀ y k, At 48 (A.base + 32) bs y ⟨k, false⟩ ↔ y ≠ x ∧ At 48 (A.base + 32) A.blocks y ⟨k, false⟩) :
    Live (Pre ++ { A with blocks := bs } :: Post) q k ↔ q ≠ x + 48 ∧ Live (Pre ++ A :: Post) q k := by
  rw [live_middle, live_middle]
  constructor
  · rintro (⟨y, rfl, hy⟩ | hq)
    · obtain ⟨hne, hy⟩ := (hbs y k).mp hy
      exact ⟨by omega, .inl ⟨y, rfl, hy⟩⟩
    · refine ⟨?_, .inr hq⟩
      rintro rfl
      exact hh.not_live_others hb hq
  · rintro ⟨hne, ⟨y, rfl, hy⟩ | hq⟩
    · exact .inl ⟨y, rfl, (hbs y k).mpr ⟨by omega, hy⟩⟩
    · exact .inr hq

theorem Has.sole (hh : h.Has (Pre ++ A :: Post)) (hfirst : lastArena 0 Pre = 0) (hlast : firstArena 0 Post = 0) :
    Pre = [] ∧ Post = [] := by
  constructor
  · rcases List.eq_nil_or_concat Pre with rfl | ⟨Pre, B, rfl⟩
    · rfl
    · rw [List.concat_eq_append] at *
      rw [lastArena_append] at hfirst
      obtain ⟨_, _, hok⟩ := hh.ok_of_mem (A := B) (by simp)
      exact absurd hfirst hok.pos.ne'
  · cases Post with
    | nil => rfl
    | cons B Post =>
      obtain ⟨_, _, hok⟩ := hh.ok_of_mem (A := B) (by simp)
      exact absurd hlast hok.pos.ne'

theorem Sound.free (hs : h.Sound As) (hlive : Live As p n) : ∃ As', Lost h (h.free p) As As' p := by
  obtain ⟨A, hA, x, rfl, hat⟩ := hlive
  obtain ⟨Pre, Post, rfl⟩ := List.append_of_mem hA
  obtain ⟨pre, post, hblocks, rfl⟩ := at_iff.mp hat
  have hok := hs.toHas.ok
  have hlaid := hok.laid
  rw [hblocks] at hlaid
  have howner : h.mem.blockArena (endOf 48 (A.base + 32) pre) = A.base := (Mem.header_fields hlaid.tiles.split.1).2.2.2.1
  obtain ⟨bs, hhas, hused, hbs, hintact⟩ := hs.toHas.released hblocks
  have hsub : endOf 48 (A.base + 32) pre + 48 - sizeofBlock = endOf 48 (A.base + 32) pre := by
    unfold sizeofBlock
    omega
  have hne : ¬ endOf 48 (A.base + 32) pre + 48 = 0 := by omega
  unfold UserHeap.free release
  simp only
  rw [if_neg hne, hsub, howner]
  generalize h.mem.released (endOf 48 (A.base + 32) pre) A.base = m at hhas hintact
  obtain ⟨-, hactive, hprevious, hnext⟩ := Mem.arenaHeader_fields hhas.ok.header
  change m.arenaActive A.base = used bs at hactive
  change m.arenaPrevious A.base = lastArena 0 Pre at hprevious
  change m.arenaNext A.base = firstArena 0 Post at hnext
  have hlive : ∀ q k, Live (Pre ++ { A with blocks := bs } :: Post) q k ↔
      q ≠ endOf 48 (A.base + 32) pre + 48 ∧ Live (Pre ++ A :: Post) q k := fun q k => hs.toHas.live_freed hat hbs
  rw [hactive, hprevious, hnext]
  split
  · rename_i hstay
    refine ⟨_, { hhas with idle_le := ?_ }, hlive, hintact⟩
    have hidle := hs.idle_le
    rcases hstay with hne | ⟨hfirst, hlast⟩
    · rw [idle_used (Nat.pos_of_ne_zero hne)]
      exact idle_middle.trans hidle
    · obtain ⟨rfl, rfl⟩ := hs.toHas.sole hfirst hlast
      exact List.countP_le_length
  · rename_i hdrop
    have hzero : used bs = 0 := by
      by_contra hne
      exact hdrop (.inl hne)
    obtain ⟨hhas', hintact'⟩ := hhas.dropArena
    have hothers : ∀ q k, Live (Pre ++ { A with blocks := bs } :: Post) q k ↔ Live (Pre ++ Post) q k := fun q k => by
      rw [live_middle, or_iff_right]
      rintro ⟨y, -, hy⟩
      exact not_live_of_used hzero hy
    refine ⟨_, { hhas' with idle_le := idle_middle.trans hs.idle_le }, fun q k => ?_, fun q k hq i hi => ?_⟩
    · rw [← hothers, hlive]
    · exact (hintact' q k hq i hi).trans (hintact q k ((hothers q k).mpr hq) i hi)

end UserHeap

end NarcOs
