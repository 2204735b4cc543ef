import NarcOs.Libc.Split

/-!
# The arenas of the heap

An arena is a region with a header of its own and blocks behind it, and the arenas are
linked both ways. What is done in one arena leaves the others as they are.
-/

namespace NarcOs

open Tiling

variable {m m' : Mem} {owner a stop x y s size prev next : Nat} {b c : Block} {bs pre post : List Block}

theorem Mem.Laid.setFree (h : m.Laid owner a stop (pre ++ b :: post)) {v : Nat} (hv : v < 2 ^ 32) :
    (m.setBlockFree (endOf 48 a pre) v).Laid owner a stop (pre ++ ⟨b.size, decide (v ≠ 0)⟩ :: post) ∧
      HeadersOnly m (m.setBlockFree (endOf 48 a pre) v) a (pre ++ b :: post) := by
  have hput : m.Put (m.setBlockFree (endOf 48 a pre) v) _ _ := Mem.put_blockFree hv
  have hheader := hput.header
  rw [h.tiles.split.1] at hheader
  have hend : endOf 48 a (pre ++ [b]) = endOf 48 a pre + 48 + b.size := by
    rw [endOf_append]
    rfl
  have htiles : Tiles 48 owner stop m.header 0 a (pre ++ [b] ++ post) := by
    rw [List.append_assoc]
    exact h.tiles
  refine ⟨⟨?_, ?_, h.pos, h.lt⟩, hput.headersOnly (at_iff.mpr ⟨pre, post, rfl, rfl⟩)⟩
  · have hmid : Tiles 48 owner stop (m.setBlockFree (endOf 48 a pre) v).header (lastOf 48 0 a pre) (endOf 48 a pre)
        [⟨b.size, decide (v ≠ 0)⟩] := ⟨hheader, trivial⟩
    have hnew := htiles.replace hmid hend.symm
      (fun y hy => hput.other (.inl hy)) (fun hne => ?_) fun y hy => hput.other (.inr (by omega))
    · rwa [List.append_assoc] at hnew
    · have hnext := (tiles_append.mp htiles).2
      rw [hend, hput.other (.inr (by omega))]
      cases post with
      | nil => exact absurd rfl hne
      | cons d post =>
        rw [hend, lastOf_append] at hnext
        rw [hnext.1]
        rfl
  · have hstop := h.stop_eq
    rw [endOf_append] at hstop ⊢
    exact hstop

theorem Mem.Laid.headers (h : m.Laid owner a stop bs) (hsame : ∀ y b, At 48 a bs y b → ∀ i < 48, m' (y + i) = m (y + i)) :
    m'.Laid owner a stop bs := by
  refine ⟨h.tiles.congr fun y b hy => ?_, h.stop_eq, h.pos, h.lt⟩
  have hbytes := hsame y b hy
  have h64 : ∀ k, k + 8 ≤ 48 → m'.load64 (y + k) = m.load64 (y + k) := fun k hk =>
    Mem.load64_congr fun i hi => by
      rw [Nat.add_assoc]
      exact hbytes _ (by omega)
  have h32 : m'.load32 (y + 32) = m.load32 (y + 32) := Mem.load32_congr fun i hi => by
    rw [Nat.add_assoc]
    exact hbytes _ (by omega)
  unfold Mem.header Mem.blockSize Mem.blockPrevious Mem.blockNext Mem.blockArena Mem.blockFree
  have h0 : m'.load64 y = m.load64 y := h64 0 (by omega)
  rw [h64 8 (by omega), h64 16 (by omega), h64 24 (by omega), h32, h0]

theorem Mem.Laid.congr (h : m.Laid owner a stop bs) (hsame : ∀ z, a ≤ z → z < stop → m' z = m z) :
    m'.Laid owner a stop bs :=
  h.headers fun y b hy i hi => by
    have hbounds := hy.bounds
    rw [h.stop_eq] at hbounds
    exact hsame _ (by omega) (by omega)

theorem HeadersOnly.outside (h : HeadersOnly m m' a bs) {z : Nat} (hz : z < a ∨ endOf 48 a bs ≤ z) : m' z = m z :=
  h z fun hin => by
    have := hin.bounds
    omega

theorem HeadersOnly.payload (h : HeadersOnly m m' a bs) (hb : At 48 a bs x b) {i : Nat} (hi : i < b.size) :
    m' (x + 48 + i) = m (x + 48 + i) :=
  h _ (hb.not_inHeader (by omega) (by omega))

-- ---------------------------------------------------------------------------
-- The header of an arena
-- ---------------------------------------------------------------------------

structure ArenaHeader where
  mapped : Nat
  active : Nat
  previous : Nat
  next : Nat

namespace Mem

def arenaHeader (m : Mem) (x : Nat) : ArenaHeader where
  mapped := m.arenaMapped x
  active := m.arenaActive x
  previous := m.arenaPrevious x
  next := m.arenaNext x

/-- Of the header at `x`, as a whole. -/
theorem arenaHeader_fields {h : ArenaHeader} (heq : m.arenaHeader x = h) : m.arenaMapped x = h.mapped ∧
    m.arenaActive x = h.active ∧ m.arenaPrevious x = h.previous ∧ m.arenaNext x = h.next := by
  subst heq
  exact ⟨rfl, rfl, rfl, rfl⟩

theorem arenaHeader_congr (h : ∀ z, x ≤ z → z < x + 32 → m' z = m z) : m'.arenaHeader x = m.arenaHeader x := by
  have h64 : ∀ k, k + 8 ≤ 32 → m'.load64 (x + k) = m.load64 (x + k) := fun k hk =>
    load64_congr fun i hi => h _ (by omega) (by omega)
  unfold arenaHeader arenaMapped arenaActive arenaPrevious arenaNext
  have h0 : m'.load64 x = m.load64 x := h64 0 (by omega)
  rw [h64 8 (by omega), h64 16 (by omega), h64 24 (by omega), h0]

theorem arenaHeader_setActive {v : Nat} (hv : v < 2 ^ 64) :
    (m.setArenaActive x v).arenaHeader x = { m.arenaHeader x with active := v } := by
  have h := onlyAt_store64 m (x + 8) v
  unfold arenaHeader arenaMapped arenaActive arenaPrevious arenaNext setArenaActive
  rw [load64_store64, Nat.mod_eq_of_lt hv, h.load64 (by omega), h.load64 (by omega), h.load64 (by omega)]

theorem arenaHeader_setPrevious {v : Nat} (hv : v < 2 ^ 64) :
    (m.setArenaPrevious x v).arenaHeader x = { m.arenaHeader x with previous := v } := by
  have h := onlyAt_store64 m (x + 16) v
  unfold arenaHeader arenaMapped arenaActive arenaPrevious arenaNext setArenaPrevious
  rw [load64_store64, Nat.mod_eq_of_lt hv, h.load64 (by omega), h.load64 (by omega), h.load64 (by omega)]

theorem arenaHeader_setNext {v : Nat} (hv : v < 2 ^ 64) :
    (m.setArenaNext x v).arenaHeader x = { m.arenaHeader x with next := v } := by
  have h := onlyAt_store64 m (x + 24) v
  unfold arenaHeader arenaMapped arenaActive arenaPrevious arenaNext setArenaNext
  rw [load64_store64, Nat.mod_eq_of_lt hv, h.load64 (by omega), h.load64 (by omega), h.load64 (by omega)]

end Mem

-- ---------------------------------------------------------------------------
-- Arenas
-- ---------------------------------------------------------------------------

structure Arena where
  base : Nat
  mapped : Nat
  blocks : List Block

def Arena.region (A : Arena) : Nat × Nat := (A.base, A.mapped)

structure Arena.Ok (A : Arena) (m : Mem) (prev next : Nat) : Prop where
  header : m.arenaHeader A.base = ⟨A.mapped, used A.blocks, prev, next⟩
  laid : m.Laid A.base (A.base + 32) (A.base + A.mapped) A.blocks
  merged : Merged A.blocks
  aligned : Aligned A.blocks
  nonempty : A.blocks ≠ []
  page : mapPageSize ∣ A.base
  pages : mapPageSize ∣ A.mapped
  pos : 0 < A.base

def firstArena (next : Nat) : List Arena → Nat
  | [] => next
  | A :: _ => A.base

def lastArena : Nat → List Arena → Nat
  | prev, [] => prev
  | _, A :: As => lastArena A.base As

def Linked (m : Mem) (next : Nat) : Nat → List Arena → Prop
  | _, [] => True
  | prev, A :: As => A.Ok m prev (firstArena next As) ∧ Linked m next A.base As

variable {A A' B : Arena} {As Pre Post : List Arena}

theorem Arena.Ok.congr (h : A.Ok m prev next) (hsame : ∀ z, A.base ≤ z → z < A.base + A.mapped → m' z = m z) :
    A.Ok m' prev next := by
  have hle := le_endOf 48 (A.base + 32) A.blocks
  rw [h.laid.stop_eq] at hle
  refine ⟨?_, h.laid.congr fun z hl hr => hsame z (by omega) hr, h.merged, h.aligned, h.nonempty, h.page, h.pages, h.pos⟩
  rw [Mem.arenaHeader_congr fun z hl hr => hsame z hl (by omega), h.header]

theorem mem_middle (hB : B ∈ Pre ++ Post) : B ∈ Pre ++ A :: Post := by
  rcases List.mem_append.mp hB with hB | hB
  · exact List.mem_append_left _ hB
  · exact List.mem_append_right _ (List.mem_cons_of_mem A hB)

theorem firstArena_append : firstArena next (Pre ++ Post) = firstArena (firstArena next Post) Pre := by
  cases Pre <;> rfl

theorem linked_append : Linked m next prev (Pre ++ Post) ↔
    Linked m (firstArena next Post) prev Pre ∧ Linked m next (lastArena prev Pre) Post := by
  induction Pre generalizing prev with
  | nil => exact ⟨fun h => ⟨trivial, h⟩, And.right⟩
  | cons A Pre ih =>
    rw [List.cons_append, Linked, Linked, ih, firstArena_append, and_assoc]
    rfl

theorem Linked.congr (h : Linked m next prev As)
    (hsame : ∀ A ∈ As, ∀ z, A.base ≤ z → z < A.base + A.mapped → m' z = m z) : Linked m' next prev As := by
  induction As generalizing prev with
  | nil => trivial
  | cons A As ih =>
    exact ⟨h.1.congr (hsame A List.mem_cons_self), ih h.2 fun B hB => hsame B (List.mem_cons_of_mem A hB)⟩

theorem Arena.Ok.setPrevious (h : A.Ok m prev next) {v : Nat} (hv : v < 2 ^ 64) :
    A.Ok (m.setArenaPrevious A.base v) v next := by
  have honly := Mem.onlyAt_store64 m (A.base + 16) v
  refine ⟨?_, h.laid.congr fun z hl _ => honly z (by omega), h.merged, h.aligned, h.nonempty, h.page, h.pages, h.pos⟩
  rw [Mem.arenaHeader_setPrevious hv, h.header]

theorem Arena.Ok.setNext (h : A.Ok m prev next) {v : Nat} (hv : v < 2 ^ 64) :
    A.Ok (m.setArenaNext A.base v) prev v := by
  have honly := Mem.onlyAt_store64 m (A.base + 24) v
  refine ⟨?_, h.laid.congr fun z hl _ => honly z (by omega), h.merged, h.aligned, h.nonempty, h.page, h.pages, h.pos⟩
  rw [Mem.arenaHeader_setNext hv, h.header]

theorem Arena.Ok.bounds (h : A.Ok m prev next) : A.base + 32 + 48 ≤ A.base + A.mapped ∧ A.base + A.mapped < 2 ^ 64 + 1 := by
  have hstop := h.laid.stop_eq
  have hlt := h.laid.lt
  have hne := h.nonempty
  cases hb : A.blocks with
  | nil => exact absurd hb hne
  | cons b bs =>
    rw [hb, endOf] at hstop
    have hle := le_endOf 48 (A.base + 32 + 48 + b.size) bs
    omega

theorem Arena.Ok.used_lt (hA : A.Ok m prev next) : used A.blocks < 2 ^ 64 - 1 := by
  have hle := length_le_endOf 48 (A.base + 32) A.blocks
  have hbounds := hA.bounds
  have hcount : used A.blocks ≤ A.blocks.length := List.countP_le_length
  rw [hA.laid.stop_eq] at hle
  omega

-- ---------------------------------------------------------------------------
-- The heap
-- ---------------------------------------------------------------------------

namespace UserHeap

variable {h h' : UserHeap} {p q k n : Nat}

/-- The arenas of a heap. Each is in a region of its own, and there is no other region. -/
structure Has (h : UserHeap) (As : List Arena) : Prop where
  arenas : h.arenas = firstArena 0 As
  linked : Linked h.mem 0 0 As
  regions : h.regions.Perm (As.map Arena.region)
  apart : As.Pairwise fun A B => Separate A.region B.region

def idle (As : List Arena) : Nat := As.countP fun A => used A.blocks = 0

/-- The allocator's invariant. -/
structure Sound (h : UserHeap) (As : List Arena) : Prop extends h.Has As where
  idle_le : idle As ≤ 1

/-- `malloc` has returned `p`, and the block has `n` bytes. -/
def Live (As : List Arena) (p n : Nat) : Prop :=
  ∃ A ∈ As, ∃ x, p = x + 48 ∧ At 48 (A.base + 32) A.blocks x ⟨n, false⟩

def Intact (m m' : Mem) (As : List Arena) : Prop := ∀ p n, Live As p n → ∀ i < n, m' (p + i) = m (p + i)

theorem Has.ok (hh : h.Has (Pre ++ A :: Post)) : A.Ok h.mem (lastArena 0 Pre) (firstArena 0 Post) :=
  (linked_append.mp hh.linked).2.1

theorem live_middle : Live (Pre ++ A :: Post) q n ↔
    (∃ x, q = x + 48 ∧ At 48 (A.base + 32) A.blocks x ⟨n, false⟩) ∨ Live (Pre ++ Post) q n := by
  unfold Live
  simp only [List.mem_append, List.mem_cons]
  constructor
  · rintro ⟨B, hB | rfl | hB, hlive⟩
    · exact .inr ⟨B, .inl hB, hlive⟩
    · exact .inl hlive
    · exact .inr ⟨B, .inr hB, hlive⟩
  · rintro (hlive | ⟨B, hB | hB, hlive⟩)
    · exact ⟨A, .inr (.inl rfl), hlive⟩
    · exact ⟨B, .inl hB, hlive⟩
    · exact ⟨B, .inr (.inr hB), hlive⟩

theorem Has.ok_of_mem (hh : h.Has As) (hA : A ∈ As) : ∃ prev next, A.Ok h.mem prev next := by
  obtain ⟨Pre, Post, rfl⟩ := List.append_of_mem hA
  exact ⟨_, _, hh.ok⟩

theorem Has.separate (hh : h.Has (Pre ++ A :: Post)) (hB : B ∈ Pre ++ Post) :
    A.base + A.mapped ≤ B.base ∨ B.base + B.mapped ≤ A.base := by
  obtain ⟨-, hpost, hcross⟩ := List.pairwise_append.mp hh.apart
  rcases List.mem_append.mp hB with hB | hB
  · exact (hcross B hB A List.mem_cons_self).symm
  · exact (List.pairwise_cons.mp hpost).1 B hB

theorem Has.elsewhere (hh : h.Has (Pre ++ A :: Post)) (hB : B ∈ Pre ++ Post) {z : Nat}
    (hl : B.base ≤ z) (hr : z < B.base + B.mapped) : z < A.base ∨ A.base + A.mapped ≤ z := by
  have := hh.separate hB
  omega

theorem Has.block_inside (hh : h.Has As) (hA : A ∈ As) (hb : At 48 (A.base + 32) A.blocks x b) :
    A.base + 32 ≤ x ∧ x + 48 + b.size ≤ A.base + A.mapped := by
  obtain ⟨_, _, hok⟩ := hh.ok_of_mem hA
  have hbounds := hb.bounds
  rwa [hok.laid.stop_eq] at hbounds

theorem Has.live_inside (hh : h.Has As) (hlive : Live As q n) :
    ∃ A ∈ As, A.base + 80 ≤ q ∧ q + n ≤ A.base + A.mapped := by
  obtain ⟨A, hA, x, rfl, hat⟩ := hlive
  obtain ⟨hl, hr⟩ := hh.block_inside hA hat
  exact ⟨A, hA, by omega, hr⟩

theorem Has.blocks_apart (hh : h.Has As) (hA : A ∈ As) (hb : At 48 (A.base + 32) A.blocks x b) (hB : B ∈ As)
    (hc : At 48 (B.base + 32) B.blocks y c) :
    (x = y ∧ b = c) ∨ x + 48 + b.size ≤ y ∨ y + 48 + c.size ≤ x := by
  have hx := hh.block_inside hA hb
  have hy := hh.block_inside hB hc
  obtain ⟨Pre, Post, rfl⟩ := List.append_of_mem hA
  have hother : B ∈ Pre ++ Post → x + 48 + b.size ≤ y ∨ y + 48 + c.size ≤ x := fun hB => by
    have := hh.separate hB
    omega
  rcases List.mem_append.mp hB with hB | hB
  · exact .inr (hother (List.mem_append_left Post hB))
  rcases List.mem_cons.mp hB with rfl | hB
  · exact hb.apart hc
  · exact .inr (hother (List.mem_append_right Pre hB))

theorem Has.update (hh : h.Has (Pre ++ A :: Post)) (hA : A'.Ok m' (lastArena 0 Pre) (firstArena 0 Post))
    (hregion : A'.region = A.region) (hsame : ∀ z, z < A.base ∨ A.base + A.mapped ≤ z → m' z = h.mem z) :
    (h.setMem m').Has (Pre ++ A' :: Post) := by
  have hbase : A'.base = A.base := congrArg Prod.fst hregion
  have hother : ∀ B ∈ Pre ++ Post, ∀ z, B.base ≤ z → z < B.base + B.mapped → m' z = h.mem z := fun B hB z hl hr =>
    hsame z (hh.elsewhere hB hl hr)
  obtain ⟨hpre, -, hpost⟩ := linked_append.mp hh.linked
  refine ⟨?_, linked_append.mpr ⟨?_, hA, ?_⟩, ?_, ?_⟩
  · change h.arenas = _
    rw [hh.arenas, firstArena_append, firstArena_append]
    change firstArena A.base Pre = firstArena A'.base Pre
    rw [hbase]
  · change Linked m' A'.base 0 Pre
    rw [hbase]
    exact hpre.congr fun B hB => hother B (List.mem_append_left Post hB)
  · rw [hbase]
    exact hpost.congr fun B hB => hother B (List.mem_append_right Pre hB)
  · have hregions := hh.regions
    rw [List.map_append, List.map_cons] at hregions ⊢
    rwa [hregion]
  · have hmap : ∀ As : List Arena, As.Pairwise (fun A B => Separate A.region B.region) ↔
        (As.map Arena.region).Pairwise Separate := fun As => List.pairwise_map.symm
    have hapart := hh.apart
    rw [hmap] at hapart ⊢
    simpa [hregion] using hapart

theorem Has.intact_others (hh : h.Has (Pre ++ A :: Post)) (hsame : ∀ z, z < A.base ∨ A.base + A.mapped ≤ z → m' z = h.mem z) :
    Intact h.mem m' (Pre ++ Post) := by
  rintro p n ⟨B, hB, x, rfl, hat⟩ i hi
  have hbounds := hh.block_inside (mem_middle hB) hat
  simp only at hbounds
  exact hsame _ (hh.elsewhere hB (by omega) (by omega))

end UserHeap

end NarcOs
