import NarcOs.Lib.Tiling

/-!
# The blocks of an arena

The blocks that `merge_next` and `split_block` leave: the same ones are in use, at the
same addresses and with their sizes but for the block itself, and a merge never leaves
two free blocks side by side.
-/

namespace NarcOs

open Tiling

variable {a x y s n k size : Nat} {b c : Block} {bs pre post : List Block}

def mergeAt (b : Block) : List Block → List Block
  | [] => [b]
  | c :: post => if c.free then ⟨b.size + 48 + c.size, b.free⟩ :: post else b :: c :: post

theorem mergeAt_cons (b c : Block) (post : List Block) : mergeAt b (c :: post) =
    if c.free then ⟨b.size + 48 + c.size, b.free⟩ :: post else b :: c :: post := rfl

/-- A block that is shortened, with a new free one behind it when that is large enough. -/
def cutAt (b : Block) (size : Nat) (post : List Block) : List Block :=
  if b.size - size < 64 then b :: post else ⟨size, b.free⟩ :: ⟨b.size - size - 48, true⟩ :: post

def splitAt (b : Block) (size : Nat) (post : List Block) : List Block :=
  if b.size - size < 64 then b :: post else ⟨size, b.free⟩ :: mergeAt ⟨b.size - size - 48, true⟩ post

def mergedSize (b : Block) : List Block → Nat
  | [] => b.size
  | c :: _ => if c.free then b.size + 48 + c.size else b.size

def mergedRest : List Block → List Block
  | [] => []
  | c :: post => if c.free then post else c :: post

def splitSize (b : Block) (size : Nat) : Nat := if b.size - size < 64 then b.size else size

def splitRest (b : Block) (size : Nat) (post : List Block) : List Block :=
  if b.size - size < 64 then post else mergeAt ⟨b.size - size - 48, true⟩ post

theorem mergeAt_eq (b : Block) (post : List Block) : mergeAt b post = ⟨mergedSize b post, b.free⟩ :: mergedRest post := by
  cases post with
  | nil => rfl
  | cons c post =>
    by_cases hc : c.free = true <;> simp [mergeAt, mergedSize, mergedRest, hc]

theorem splitAt_eq (b : Block) (size : Nat) (post : List Block) :
    splitAt b size post = ⟨splitSize b size, b.free⟩ :: splitRest b size post := by
  unfold splitAt splitSize splitRest
  split <;> rfl

theorem mergedSize_cons (b c : Block) (post : List Block) : mergedSize b (c :: post) =
    if c.free then b.size + 48 + c.size else b.size := rfl

theorem at_cons : At 48 a (b :: bs) y c ↔ (y = a ∧ c = b) ∨ At 48 (a + 48 + b.size) bs y c := Iff.rfl

theorem used_eq_mk : (⟨s, false⟩ : Block) = b ↔ b.free = false ∧ s = b.size := by
  cases b with
  | mk size free =>
    rw [Block.mk.injEq]
    exact ⟨fun h => ⟨h.2.symm, h.1⟩, fun h => ⟨h.2, h.1.symm⟩⟩

-- ---------------------------------------------------------------------------
-- Blocks in use
-- ---------------------------------------------------------------------------

theorem at_mergeAt : At 48 x (mergeAt b post) y ⟨s, false⟩ ↔
    (y = x ∧ b.free = false ∧ s = mergedSize b post) ∨ At 48 (x + 48 + b.size) post y ⟨s, false⟩ := by
  cases post with
  | nil =>
    rw [mergeAt, at_cons, used_eq_mk]
    rfl
  | cons c post =>
    rw [mergeAt_cons, mergedSize_cons]
    by_cases hc : c.free = true
    · have hend : x + 48 + (b.size + 48 + c.size) = x + 48 + b.size + 48 + c.size := by omega
      rw [if_pos hc, if_pos hc, at_cons, at_cons, used_eq_mk, used_eq_mk, hc, hend]
      simp
    · rw [if_neg hc, if_neg hc, at_cons, used_eq_mk]

theorem at_splitAt (hle : size ≤ b.size) : At 48 x (splitAt b size post) y ⟨s, false⟩ ↔
    (y = x ∧ b.free = false ∧ s = splitSize b size) ∨ At 48 (x + 48 + b.size) post y ⟨s, false⟩ := by
  unfold splitAt splitSize
  by_cases hsmall : b.size - size < 64
  · rw [if_pos hsmall, if_pos hsmall, at_cons, used_eq_mk]
  · have hend : x + 48 + size + 48 + (b.size - size - 48) = x + 48 + b.size := by omega
    rw [if_neg hsmall, if_neg hsmall, at_cons, at_mergeAt, used_eq_mk, hend]
    simp

theorem at_cutAt (hle : size ≤ b.size) : At 48 x (cutAt b size post) y ⟨s, false⟩ ↔
    (y = x ∧ b.free = false ∧ s = splitSize b size) ∨ At 48 (x + 48 + b.size) post y ⟨s, false⟩ := by
  unfold cutAt splitSize
  by_cases hsmall : b.size - size < 64
  · rw [if_pos hsmall, if_pos hsmall, at_cons, used_eq_mk]
  · have hend : x + 48 + size + 48 + (b.size - size - 48) = x + 48 + b.size := by omega
    rw [if_neg hsmall, if_neg hsmall, at_cons, at_cons, used_eq_mk, used_eq_mk, hend]
    simp

theorem endOf_cutAt (hle : size ≤ b.size) : endOf 48 x (cutAt b size post) = endOf 48 x (b :: post) := by
  unfold cutAt
  split
  · rfl
  · have hend : x + 48 + size + 48 + (b.size - size - 48) = x + 48 + b.size := by omega
    change endOf 48 (x + 48 + size + 48 + (b.size - size - 48)) post = _
    rw [hend]
    rfl

-- ---------------------------------------------------------------------------
-- Invariants of the list
-- ---------------------------------------------------------------------------

theorem used_mergeAt : used (mergeAt b post) = used (b :: post) := by
  cases post with
  | nil => rfl
  | cons c post =>
    rw [mergeAt_cons]
    split
    · rename_i hc
      rw [used_cons, used_cons, used_cons, if_pos hc]
      rfl
    · rfl

theorem used_splitAt : used (splitAt b size post) = used (b :: post) := by
  unfold splitAt
  split
  · rfl
  · rw [used_cons, used_mergeAt, used_cons, used_cons]
    rfl

def Aligned (bs : List Block) : Prop := ∀ b ∈ bs, 16 ∣ b.size

theorem Aligned.mergeAt (h : Aligned (b :: post)) : Aligned (mergeAt b post) := by
  cases post with
  | nil => exact h
  | cons c post =>
    rw [mergeAt_cons]
    split
    · intro d hd
      rcases List.mem_cons.mp hd with rfl | hd
      · have hb := h b List.mem_cons_self
        have hc := h c (by simp)
        exact Nat.dvd_add (Nat.dvd_add hb (by decide)) hc
      · exact h d (by simp [hd])
    · exact h

theorem Aligned.splitAt (h : Aligned (b :: post)) (hsize : 16 ∣ size) : Aligned (splitAt b size post) := by
  unfold NarcOs.splitAt
  split
  · exact h
  · intro d hd
    rcases List.mem_cons.mp hd with rfl | hd
    · exact hsize
    · refine Aligned.mergeAt (fun e he => ?_) d hd
      rcases List.mem_cons.mp he with rfl | he
      · have hb := h b List.mem_cons_self
        exact Nat.dvd_sub (Nat.dvd_sub hb hsize) (by decide)
      · exact h e (List.mem_cons_of_mem b he)

theorem merged_used (hb : b.free = false) : Merged (pre ++ b :: post) ↔ Merged pre ∧ Merged post := by
  unfold Merged
  rw [List.isChain_append, List.isChain_cons]
  simp [hb]

theorem Merged.mergeAt (h : Merged post) : Merged (mergeAt b post) := by
  cases post with
  | nil => exact List.isChain_singleton b
  | cons c post =>
    unfold Merged at h ⊢
    rw [mergeAt_cons]
    split
    · rename_i hc
      rw [List.isChain_cons] at h ⊢
      refine ⟨fun d hd hfree => h.1 d hd ⟨hc, hfree.2⟩, h.2⟩
    · rename_i hc
      exact List.isChain_cons_cons.mpr ⟨fun hfree => hc hfree.2, h⟩

theorem Merged.append (h : Merged pre) (h' : Merged post) (hlast : ∀ c, pre.getLast? = some c → c.free = false) :
    Merged (pre ++ post) := by
  refine List.isChain_append.mpr ⟨h, h', fun c hc d _ hfree => ?_⟩
  have := hlast c hc
  rw [hfree.1] at this
  cases this

-- ---------------------------------------------------------------------------
-- A block in use, split
-- ---------------------------------------------------------------------------

theorem merged_taken (h : Merged (pre ++ b :: post)) : Merged (pre ++ ⟨splitSize b size, false⟩ :: splitRest b size post) := by
  have hpre : Merged pre := (List.isChain_append.mp h).1
  have hpost : Merged post := (List.isChain_cons.mp (List.isChain_append.mp h).2.1).2
  refine (merged_used rfl).mpr ⟨hpre, ?_⟩
  unfold splitRest
  split
  · exact hpost
  · exact Merged.mergeAt hpost

theorem used_taken (hb : b.free = true) :
    used (pre ++ ⟨splitSize b size, false⟩ :: splitRest b size post) = used (pre ++ b :: post) + 1 := by
  have hsplit : used (splitAt b size post) = used (b :: post) := used_splitAt
  rw [splitAt_eq, used_cons, used_cons, if_pos hb] at hsplit
  rw [used_append, used_append, used_cons, used_cons, if_pos hb]
  simp only [Bool.false_eq_true, if_false]
  omega

theorem at_taken (hle : size ≤ b.size) :
    At 48 a (pre ++ ⟨splitSize b size, false⟩ :: splitRest b size post) x ⟨n, false⟩ ↔
      At 48 a pre x ⟨n, false⟩ ∨ (x = endOf 48 a pre ∧ n = splitSize b size) ∨
        At 48 (endOf 48 a pre + 48 + b.size) post x ⟨n, false⟩ := by
  have hsplit := @at_splitAt (endOf 48 a pre) x n size ⟨b.size, false⟩ post hle
  rw [splitAt_eq] at hsplit
  rw [at_append]
  refine or_congr_right (hsplit.trans (or_congr_left ?_))
  exact ⟨fun h => ⟨h.1, h.2.2⟩, fun h => ⟨h.1, rfl, h.2⟩⟩

end NarcOs
