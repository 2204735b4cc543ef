import NarcOs.Libc.Arenas

/-!
# Taking a free block

`find_block` looks at all blocks of all arenas, so a block that it returns is free and
large enough. The block that is taken becomes a live one, and no other live block is
touched.
-/

namespace NarcOs

open Tiling

variable {m m' : Mem} {owner a stop x y size prev next : Nat} {b c : Block} {bs pre post : List Block}

theorem firstBlock_eq (arena : Nat) : firstBlock arena = arena + 32 := rfl

-- ---------------------------------------------------------------------------
-- Finding a block
-- ---------------------------------------------------------------------------

theorem findInArena_cases {rounds : Nat} (h : m.Laid owner a stop (pre ++ post)) (hk : post.length < rounds) :
    m.findInArena size rounds (firstOf (endOf 48 a pre) post) = some 0 ∨
    ∃ pre' b post', pre ++ post = pre' ++ b :: post' ∧ b.free = true ∧ size ≤ b.size ∧
      m.findInArena size rounds (firstOf (endOf 48 a pre) post) = some (endOf 48 a pre') := by
  induction rounds generalizing pre post with
  | zero => omega
  | succ rounds ih =>
    rw [Mem.findInArena]
    cases post with
    | nil => exact .inl (if_pos rfl)
    | cons b post =>
      obtain ⟨hsize, -, -, -, hfree⟩ := Mem.header_fields h.tiles.split.1
      have hpos : ¬ endOf 48 a pre = 0 := by
        have hle := le_endOf 48 a pre
        have := h.pos
        omega
      have hsize' : m.blockSize (endOf 48 a pre) = b.size := hsize
      have hfree' : m.blockFree (endOf 48 a pre) = b.free := hfree
      rw [firstOf_cons, if_neg hpos, hsize', hfree', h.next]
      by_cases hfits : b.free = true ∧ size ≤ b.size
      · rw [if_pos hfits]
        exact .inr ⟨pre, b, post, rfl, hfits.1, hfits.2, rfl⟩
      · rw [if_neg hfits]
        have hend : endOf 48 a (pre ++ [b]) = endOf 48 a pre + 48 + b.size := by
          rw [endOf_append]
          rfl
        have hrest := @ih (pre ++ [b]) post (by rwa [← List.append_cons]) (by simpa using hk)
        rw [hend, ← List.append_cons] at hrest
        exact hrest

variable {A A' : Arena} {As Pre Post : List Arena}

theorem findFrom_cases {rounds : Nat} (h : Linked m 0 prev As) (hk : As.length < rounds) :
    m.findFrom size rounds (firstArena 0 As) = some 0 ∨
    ∃ Pre A Post pre b post, As = Pre ++ A :: Post ∧ A.blocks = pre ++ b :: post ∧ b.free = true ∧ size ≤ b.size ∧
      m.findFrom size rounds (firstArena 0 As) = some (endOf 48 (A.base + 32) pre) := by
  induction rounds generalizing prev As with
  | zero => omega
  | succ rounds ih =>
    cases As with
    | nil => exact .inl (if_pos rfl)
    | cons A As =>
      obtain ⟨hA, hAs⟩ := h
      have hlaid : m.Laid A.base (A.base + 32) (A.base + A.mapped) ([] ++ A.blocks) := hA.laid
      have hcount : A.blocks.length < Mem.findRounds := by
        have hle := length_le_endOf 48 (A.base + 32) A.blocks
        have hbounds := hA.bounds
        rw [hA.laid.stop_eq] at hle
        unfold Mem.findRounds
        omega
      have hfirst : firstOf (endOf 48 (A.base + 32) []) A.blocks = A.base + 32 := by
        cases hb : A.blocks with
        | nil => exact absurd hb hA.nonempty
        | cons b bs => rfl
      have hnext : m.arenaNext A.base = firstArena 0 As := (Mem.arenaHeader_fields hA.header).2.2.2
      have hround : m.findFrom size (rounds + 1) A.base =
          (m.findInArena size Mem.findRounds (A.base + 32)).bind fun block =>
            if block ≠ 0 then some block else m.findFrom size rounds (firstArena 0 As) := by
        rw [Mem.findFrom, if_neg hA.pos.ne', firstBlock_eq, hnext]
        rfl
      change m.findFrom size (rounds + 1) A.base = some 0 ∨ _
      have hhere := @findInArena_cases _ _ _ _ size _ _ _ hlaid hcount
      rw [hfirst] at hhere
      rcases hhere with hnone | ⟨pre, b, post, hblocks, hfree, hfits, hsome⟩
      · rw [hnone] at hround
        change m.findFrom size (rounds + 1) A.base = m.findFrom size rounds (firstArena 0 As) at hround
        rw [hround]
        rcases ih hAs (by simpa using hk) with hall | ⟨Pre, B, Post, pre, b, post, rfl, hblocks, hfree, hfits, hsome⟩
        · exact .inl hall
        · exact .inr ⟨A :: Pre, B, Post, pre, b, post, rfl, hblocks, hfree, hfits, hround.trans hsome⟩
      · have hpos : endOf 48 (A.base + 32) pre ≠ 0 := by
          have := le_endOf 48 (A.base + 32) pre
          omega
        rw [hsome] at hround
        exact .inr ⟨[], A, As, pre, b, post, rfl, hblocks, hfree, hfits, hround.trans (if_pos hpos)⟩

namespace UserHeap

variable {h h' : UserHeap} {p q k n : Nat}

theorem Has.length_lt (hh : h.Has As) : As.length < Mem.findRounds := by
  have hbounds : ∀ A ∈ As, 0 < A.base ∧ A.base < 2 ^ 64 ∧ 80 ≤ A.mapped := fun A hA => by
    obtain ⟨_, _, hok⟩ := hh.ok_of_mem hA
    have hsize := hok.bounds
    have hpos := hok.pos
    omega
  have hnodup : (As.map Arena.base).Nodup := by
    rw [List.Nodup, List.pairwise_map]
    refine hh.apart.imp_of_mem fun hA hB hapart heq => ?_
    have hsA := (hbounds _ hA).2.2
    have hsB := (hbounds _ hB).2.2
    unfold Separate Arena.region at hapart
    dsimp only at hapart
    omega
  have hsub : (As.map Arena.base).toFinset ⊆ Finset.Ico 1 (2 ^ 64) := by
    intro x hx
    obtain ⟨A, hA, rfl⟩ := List.mem_map.mp (List.mem_toFinset.mp hx)
    obtain ⟨hpos, hlt, -⟩ := hbounds A hA
    exact Finset.mem_Ico.mpr ⟨hpos, hlt⟩
  have hcard := Finset.card_le_card hsub
  rw [List.toFinset_card_of_nodup hnodup, List.length_map, Nat.card_Ico] at hcard
  unfold Mem.findRounds
  omega

-- ---------------------------------------------------------------------------
-- Taking a block
-- ---------------------------------------------------------------------------

def taken (A : Arena) (pre : List Block) (b : Block) (post : List Block) (size : Nat) : Arena :=
  { A with blocks := pre ++ ⟨splitSize b size, false⟩ :: splitRest b size post }

theorem Has.take (hh : h.Has (Pre ++ A :: Post)) (hblocks : A.blocks = pre ++ b :: post) (hb : b.free = true)
    (hle : size ≤ b.size) (hsize : 16 ∣ size) :
    (h.take (endOf 48 (A.base + 32) pre) size).2.Has (Pre ++ taken A pre b post size :: Post) ∧
      Intact h.mem (h.take (endOf 48 (A.base + 32) pre) size).2.mem (Pre ++ A :: Post) := by
  have hA := hh.ok
  have hlaid := hA.laid
  have hbounds := hA.bounds
  rw [hblocks] at hlaid
  obtain ⟨hlaid₁, honly₁⟩ := splitBlock_laid hlaid hle
  have hcut : endOf 48 (A.base + 32) (pre ++ cutAt b size post) = A.base + A.mapped := by
    rw [endOf_append, endOf_cutAt hle, ← endOf_append]
    exact hlaid.stop_eq
  have haligned : Aligned (splitAt b size post) := by
    refine Aligned.splitAt (fun c hc => hA.aligned c ?_) hsize
    rw [hblocks]
    exact List.mem_append_right pre hc
  rw [splitAt_eq] at hlaid₁ haligned
  obtain ⟨hlaid₂, honly₂⟩ := hlaid₁.setFree (show 0 < 2 ^ 32 by decide)
  unfold UserHeap.take
  simp only
  set x := endOf 48 (A.base + 32) pre with hx
  set m₁ := h.mem.splitBlock x size
  set m₂ := m₁.setBlockFree x 0 with hm₂
  have hstop₁ := hlaid₁.stop_eq
  have hsame₂ : ∀ z, z < A.base + 32 ∨ A.base + A.mapped ≤ z → m₂ z = h.mem z := fun z hz => by
    rw [honly₂.outside (by rwa [hstop₁]), honly₁.outside (by rwa [hcut])]
  have hheader : m₂.arenaHeader A.base = ⟨A.mapped, used A.blocks, lastArena 0 Pre, firstArena 0 Post⟩ := by
    rw [Mem.arenaHeader_congr fun z _ hr => hsame₂ z (.inl hr)]
    exact hA.header
  have howner : m₂.blockArena x = A.base := (Mem.header_fields hlaid₂.tiles.split.1).2.2.2.1
  have hactive : m₂.arenaActive A.base = used A.blocks := (Mem.arenaHeader_fields hheader).2.1
  have hlt := hA.used_lt
  have hwrap : wrapSize (used A.blocks + 1) = used A.blocks + 1 := wrapSize_eq (by omega)
  rw [howner, hactive, hwrap]
  have honly₃ := Mem.onlyAt_store64 m₂ (A.base + 8) (used A.blocks + 1)
  have hsame₃ : ∀ z, z < A.base ∨ A.base + 32 ≤ z → m₂.setArenaActive A.base (used A.blocks + 1) z = m₂ z :=
    fun z hz => honly₃ z (by omega)
  refine ⟨hh.update ?_ rfl fun z hz => ?_, ?_⟩
  · refine ⟨?_, hlaid₂.congr fun z hl _ => hsame₃ z (.inr hl), merged_taken (hblocks ▸ hA.merged), ?_, by simp [taken],
      hA.page, hA.pages, hA.pos⟩
    · change (m₂.setArenaActive A.base (used A.blocks + 1)).arenaHeader A.base = _
      rw [Mem.arenaHeader_setActive (by omega), hheader, hblocks, ← used_taken hb]
      rfl
    · intro c hc
      rcases List.mem_append.mp hc with hc | hc
      · exact hA.aligned c (by simp [hblocks, hc])
      rcases List.mem_cons.mp hc with rfl | hc
      · exact haligned ⟨splitSize b size, b.free⟩ List.mem_cons_self
      · exact haligned c (List.mem_cons_of_mem _ hc)
  · rw [hsame₃ z (by omega), hsame₂ z (by omega)]
  · rintro p n hlive i hi
    change m₂.setArenaActive A.base (used A.blocks + 1) (p + i) = h.mem (p + i)
    rcases live_middle.mp hlive with ⟨y, rfl, hat⟩ | hlive
    · rw [hblocks] at hat
      have hbounds' := hat.bounds
      have hsides : At 48 (A.base + 32) pre y ⟨n, false⟩ ∨ At 48 (x + 48 + b.size) post y ⟨n, false⟩ := by
        rw [at_append, at_cons, used_eq_mk, hb] at hat
        exact hat.imp_right fun h => h.resolve_left fun h => by simp at h
      have hat₁ : At 48 (A.base + 32) (pre ++ ⟨splitSize b size, b.free⟩ :: splitRest b size post) y ⟨n, false⟩ := by
        rw [← splitAt_eq, at_append, at_splitAt hle]
        exact hsides.imp_right .inr
      have hcutAt : At 48 (A.base + 32) (pre ++ cutAt b size post) y ⟨n, false⟩ := by
        rw [at_append, at_cutAt hle]
        exact hsides.imp_right .inr
      rw [hsame₃ _ (by omega), honly₂.payload hat₁ hi, honly₁.payload hcutAt hi]
    · exact hh.intact_others (fun z hz => by rw [hsame₃ z (by omega), hsame₂ z (by omega)]) p n hlive i hi

end UserHeap

end NarcOs
