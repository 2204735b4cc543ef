import NarcOs.Lib.Tiling
import NarcOs.Libc.Allocator

/-!
# Headers of blocks and arenas

What a store to a header changes, and how the headers of blocks end to end lie in
memory.
-/

namespace NarcOs

open Tiling

theorem wrapSize_eq {n : Nat} (h : n < 2 ^ 64) : wrapSize n = n := Nat.mod_eq_of_lt h

theorem subSize_eq {a b : Nat} (ha : a < 2 ^ 64) (hb : b ≤ a) : subSize a b = a - b := by
  unfold subSize wrapSize
  have hsum : a + 2 ^ 64 - b = a - b + 2 ^ 64 := by omega
  rw [hsum, Nat.add_mod_right, Nat.mod_eq_of_lt (by omega)]

namespace Mem

variable {m m' : Mem} {x y z k n v : Nat}

-- ---------------------------------------------------------------------------
-- Stores to a header
-- ---------------------------------------------------------------------------

theorem load32_congr (h : ∀ i < 4, m' (x + i) = m (x + i)) : m'.load32 x = m.load32 x := by
  rw [load32, load32, read_congr h]

theorem load32_store32 (m : Mem) (x v : Nat) : (m.store32 x v).load32 x = v % 2 ^ 32 := by
  have h := read_write m x (toLE 4 v)
  rw [length_toLE] at h
  rw [load32, store32, h, ofLE_toLE]
  norm_num

def OnlyAt (m m' : Mem) (x n : Nat) : Prop := ∀ z, z < x ∨ x + n ≤ z → m' z = m z

theorem OnlyAt.mono (h : OnlyAt m m' x n) (hl : y ≤ x) (hr : x + n ≤ y + k) : OnlyAt m m' y k :=
  fun z hz => h z (by omega)

theorem onlyAt_store64 (m : Mem) (x v : Nat) : OnlyAt m (m.store64 x v) x 8 :=
  fun _ hz => store64_apply_outside hz

theorem onlyAt_store32 (m : Mem) (x v : Nat) : OnlyAt m (m.store32 x v) x 4 :=
  fun _ hz => write_apply_outside (by simpa using hz)

theorem OnlyAt.load64 (h : OnlyAt m m' x n) (hd : y + 8 ≤ x ∨ x + n ≤ y) : m'.load64 y = m.load64 y :=
  load64_congr fun _ _ => h _ (by omega)

theorem OnlyAt.load32 (h : OnlyAt m m' x n) (hd : y + 4 ≤ x ∨ x + n ≤ y) : m'.load32 y = m.load32 y :=
  load32_congr fun _ _ => h _ (by omega)

def header (m : Mem) (x : Nat) : Header where
  size := m.blockSize x
  previous := m.blockPrevious x
  next := m.blockNext x
  owner := m.blockArena x
  free := m.blockFree x

theorem OnlyAt.header (h : OnlyAt m m' x n) (hd : y + 48 ≤ x ∨ x + n ≤ y) : m'.header y = m.header y := by
  unfold Mem.header blockSize blockPrevious blockNext blockArena blockFree
  rw [h.load64 (by omega), h.load64 (by omega), h.load64 (by omega), h.load64 (by omega), h.load32 (by omega)]

structure Put (m m' : Mem) (x : Nat) (h : Header) : Prop where
  header : m'.header x = h
  only : OnlyAt m m' x 48

theorem Put.trans {m'' : Mem} {h h' : Header} (hp : Put m m' x h) (hp' : Put m' m'' x h') : Put m m'' x h' :=
  ⟨hp'.header, fun z hz => (hp'.only z hz).trans (hp.only z hz)⟩

theorem Put.other {h : Header} (hp : Put m m' x h) (hd : y + 48 ≤ x ∨ x + 48 ≤ y) : m'.header y = m.header y :=
  hp.only.header hd

theorem put_blockSize (hv : v < 2 ^ 64) : Put m (m.setBlockSize x v) x { m.header x with size := v } := by
  have h := onlyAt_store64 m x v
  refine ⟨?_, h.mono (by omega) (by omega)⟩
  unfold Mem.header blockSize blockPrevious blockNext blockArena blockFree setBlockSize
  rw [load64_store64, Nat.mod_eq_of_lt hv, h.load64 (by omega), h.load64 (by omega), h.load64 (by omega),
    h.load32 (by omega)]

theorem put_blockPrevious (hv : v < 2 ^ 64) : Put m (m.setBlockPrevious x v) x { m.header x with previous := v } := by
  have h := onlyAt_store64 m (x + 8) v
  refine ⟨?_, h.mono (by omega) (by omega)⟩
  unfold Mem.header blockSize blockPrevious blockNext blockArena blockFree setBlockPrevious
  rw [load64_store64, Nat.mod_eq_of_lt hv, h.load64 (by omega), h.load64 (by omega), h.load64 (by omega),
    h.load32 (by omega)]

theorem put_blockNext (hv : v < 2 ^ 64) : Put m (m.setBlockNext x v) x { m.header x with next := v } := by
  have h := onlyAt_store64 m (x + 16) v
  refine ⟨?_, h.mono (by omega) (by omega)⟩
  unfold Mem.header blockSize blockPrevious blockNext blockArena blockFree setBlockNext
  rw [load64_store64, Nat.mod_eq_of_lt hv, h.load64 (by omega), h.load64 (by omega), h.load64 (by omega),
    h.load32 (by omega)]

theorem put_blockArena (hv : v < 2 ^ 64) : Put m (m.setBlockArena x v) x { m.header x with owner := v } := by
  have h := onlyAt_store64 m (x + 24) v
  refine ⟨?_, h.mono (by omega) (by omega)⟩
  unfold Mem.header blockSize blockPrevious blockNext blockArena blockFree setBlockArena
  rw [load64_store64, Nat.mod_eq_of_lt hv, h.load64 (by omega), h.load64 (by omega), h.load64 (by omega),
    h.load32 (by omega)]

theorem put_blockFree (hv : v < 2 ^ 32) : Put m (m.setBlockFree x v) x { m.header x with free := v ≠ 0 } := by
  have h := onlyAt_store32 m (x + 32) v
  refine ⟨?_, h.mono (by omega) (by omega)⟩
  unfold Mem.header blockSize blockPrevious blockNext blockArena blockFree setBlockFree
  rw [load32_store32, Nat.mod_eq_of_lt hv, h.load64 (by omega), h.load64 (by omega), h.load64 (by omega),
    h.load64 (by omega)]

theorem put_header {s p n o : Nat} (hs : s < 2 ^ 64) (hp : p < 2 ^ 64) (hn : n < 2 ^ 64) (ho : o < 2 ^ 64) :
    m.Put (((((m.setBlockSize x s).setBlockPrevious x p).setBlockNext x n).setBlockArena x o).setBlockFree x 1) x
      ⟨s, p, n, o, true⟩ := by
  have hsize : m.Put (m.setBlockSize x s) x _ := put_blockSize hs
  have hprevious := hsize.trans (put_blockPrevious hp)
  have hnext := hprevious.trans (put_blockNext hn)
  have harena := hnext.trans (put_blockArena ho)
  have hfree := harena.trans (put_blockFree (show 1 < 2 ^ 32 by decide))
  rw [harena.header, hnext.header, hprevious.header, hsize.header] at hfree
  exact hfree

structure Laid (m : Mem) (owner a stop : Nat) (bs : List Block) : Prop where
  tiles : Tiles 48 owner stop m.header 0 a bs
  stop_eq : endOf 48 a bs = stop
  pos : 0 < a
  lt : stop < 2 ^ 64 + 1

variable {owner a stop : Nat} {b c : Block} {bs pre post : List Block}

/-- Of the header at `x`, as a whole. -/
theorem header_fields {h : Header} (heq : m.header x = h) : m.blockSize x = h.size ∧ m.blockPrevious x = h.previous ∧
    m.blockNext x = h.next ∧ m.blockArena x = h.owner ∧ m.blockFree x = h.free := by
  subst heq
  exact ⟨rfl, rfl, rfl, rfl, rfl⟩

theorem fields_of_header_eq (h : m'.header x = m.header y) : m'.blockSize x = m.blockSize y ∧
    m'.blockPrevious x = m.blockPrevious y ∧ m'.blockNext x = m.blockNext y ∧ m'.blockArena x = m.blockArena y ∧
    m'.blockFree x = m.blockFree y :=
  header_fields h

/-- The block behind `b` is the next one, or there is none. -/
theorem Laid.next (h : m.Laid owner a stop (pre ++ b :: post)) :
    m.blockNext (endOf 48 a pre) = firstOf (endOf 48 a pre + 48 + b.size) post := by
  obtain ⟨-, -, hnext, -⟩ := header_fields h.tiles.split.1
  have hstop := h.stop_eq
  rw [hnext, headerOf]
  rw [endOf_append, endOf] at hstop
  cases post with
  | nil => exact if_pos hstop
  | cons c post =>
    have := le_endOf 48 (endOf 48 a pre + 48 + b.size + 48 + c.size) post
    rw [endOf] at hstop
    exact if_neg (by omega)

end Mem

end NarcOs
