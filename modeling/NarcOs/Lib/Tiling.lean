import Mathlib

/-!
# Blocks end to end

A stretch of addresses cut into blocks, each of which is a header of `H` addresses
and a payload. The headers form a list that is linked both ways, and each says
whose it is, how long its payload is and whether that is free. What memory has in
the headers is a function of their addresses.
-/

namespace NarcOs.Tiling

structure Block where
  size : Nat
  free : Bool
  deriving DecidableEq

structure Header where
  size : Nat
  previous : Nat
  next : Nat
  owner : Nat
  free : Bool

def endOf (H : Nat) : Nat → List Block → Nat
  | a, [] => a
  | a, b :: bs => endOf H (a + H + b.size) bs

def lastOf (H : Nat) : Nat → Nat → List Block → Nat
  | prev, _, [] => prev
  | _, a, b :: bs => lastOf H a (a + H + b.size) bs

def firstOf (a : Nat) : List Block → Nat
  | [] => 0
  | _ :: _ => a

def headerOf (H owner stop prev a : Nat) (b : Block) : Header where
  size := b.size
  previous := prev
  next := if a + H + b.size = stop then 0 else a + H + b.size
  owner := owner
  free := b.free

/-- The headers of blocks that start at `a`, behind the header `prev`. -/
def Tiles (H owner stop : Nat) (hd : Nat → Header) : Nat → Nat → List Block → Prop
  | _, _, [] => True
  | prev, a, b :: bs => hd a = headerOf H owner stop prev a b ∧ Tiles H owner stop hd a (a + H + b.size) bs

def At (H : Nat) : Nat → List Block → Nat → Block → Prop
  | _, [], _, _ => False
  | a, c :: bs, x, b => (x = a ∧ b = c) ∨ At H (a + H + c.size) bs x b

def InHeader (H : Nat) : Nat → List Block → Nat → Prop
  | _, [], _ => False
  | a, b :: bs, x => (a ≤ x ∧ x < a + H) ∨ InHeader H (a + H + b.size) bs x

variable {H owner stop prev a x y : Nat} {hd hd' : Nat → Header} {b c : Block} {bs cs pre mid mid' post : List Block}

-- ---------------------------------------------------------------------------
-- Concatenation
-- ---------------------------------------------------------------------------

@[simp] theorem endOf_append : endOf H a (bs ++ cs) = endOf H (endOf H a bs) cs := by
  induction bs generalizing a with
  | nil => rfl
  | cons b bs ih => exact ih

@[simp] theorem lastOf_append : lastOf H prev a (bs ++ cs) = lastOf H (lastOf H prev a bs) (endOf H a bs) cs := by
  induction bs generalizing prev a with
  | nil => rfl
  | cons b bs ih => exact ih

@[simp] theorem firstOf_nil : firstOf a [] = 0 := rfl

@[simp] theorem firstOf_cons : firstOf a (b :: bs) = a := rfl

theorem tiles_append : Tiles H owner stop hd prev a (bs ++ cs) ↔
    Tiles H owner stop hd prev a bs ∧ Tiles H owner stop hd (lastOf H prev a bs) (endOf H a bs) cs := by
  induction bs generalizing prev a with
  | nil => exact ⟨fun h => ⟨trivial, h⟩, And.right⟩
  | cons b bs ih =>
    rw [List.cons_append, Tiles, Tiles, ih, and_assoc]
    rfl

theorem at_append : At H a (bs ++ cs) x b ↔ At H a bs x b ∨ At H (endOf H a bs) cs x b := by
  induction bs generalizing a with
  | nil => exact ⟨.inr, fun h => h.resolve_left id⟩
  | cons c bs ih =>
    rw [List.cons_append, At, At, ih, or_assoc]
    rfl

theorem inHeader_append : InHeader H a (bs ++ cs) x ↔ InHeader H a bs x ∨ InHeader H (endOf H a bs) cs x := by
  induction bs generalizing a with
  | nil => exact ⟨.inr, fun h => h.resolve_left id⟩
  | cons c bs ih =>
    rw [List.cons_append, InHeader, InHeader, ih, or_assoc]
    rfl

-- ---------------------------------------------------------------------------
-- Where blocks lie
-- ---------------------------------------------------------------------------

theorem le_endOf (H a : Nat) (bs : List Block) : a ≤ endOf H a bs := by
  induction bs generalizing a with
  | nil => exact le_rfl
  | cons b bs ih =>
    have := ih (a + H + b.size)
    rw [endOf]
    omega

theorem length_le_endOf (H a : Nat) (bs : List Block) : a + H * bs.length ≤ endOf H a bs := by
  induction bs generalizing a with
  | nil => exact le_rfl
  | cons b bs ih =>
    have h := ih (a + H + b.size)
    rw [endOf, List.length_cons, Nat.mul_succ]
    omega

theorem At.bounds (h : At H a bs x b) : a ≤ x ∧ x + H + b.size ≤ endOf H a bs := by
  induction bs generalizing a with
  | nil => exact h.elim
  | cons c bs ih =>
    rw [endOf]
    rcases h with ⟨rfl, rfl⟩ | h
    · exact ⟨le_rfl, le_endOf _ _ _⟩
    · have := ih h
      omega

theorem InHeader.bounds (h : InHeader H a bs x) : a ≤ x ∧ x < endOf H a bs := by
  induction bs generalizing a with
  | nil => exact h.elim
  | cons c bs ih =>
    rw [endOf]
    rcases h with ⟨hl, hr⟩ | h
    · have := le_endOf H (a + H + c.size) bs
      omega
    · have := ih h
      omega

theorem At.apart (h : At H a bs x b) (h' : At H a bs y c) :
    (x = y ∧ b = c) ∨ x + H + b.size ≤ y ∨ y + H + c.size ≤ x := by
  induction bs generalizing a with
  | nil => exact h.elim
  | cons d bs ih =>
    rcases h with ⟨rfl, rfl⟩ | h <;> rcases h' with ⟨rfl, rfl⟩ | h'
    · exact .inl ⟨rfl, rfl⟩
    · exact .inr (.inl h'.bounds.1)
    · exact .inr (.inr h.bounds.1)
    · exact ih h h'

theorem At.not_inHeader (h : At H a bs x b) (hl : x + H ≤ y) (hr : y < x + H + b.size) : ¬ InHeader H a bs y := by
  induction bs generalizing a with
  | nil => exact h.elim
  | cons c bs ih =>
    rintro (⟨hl', hr'⟩ | hi) <;> rcases h with ⟨rfl, rfl⟩ | h
    · omega
    · have := h.bounds
      omega
    · have := hi.bounds
      omega
    · exact ih h hi

theorem at_iff : At H a bs x b ↔ ∃ pre post, bs = pre ++ b :: post ∧ x = endOf H a pre := by
  constructor
  · intro h
    induction bs generalizing a with
    | nil => exact h.elim
    | cons c bs ih =>
      rcases h with ⟨rfl, rfl⟩ | h
      · exact ⟨[], bs, rfl, rfl⟩
      · obtain ⟨pre, post, rfl, hx⟩ := ih h
        exact ⟨c :: pre, post, rfl, hx⟩
  · rintro ⟨pre, post, rfl, rfl⟩
    exact at_append.mpr (.inr (.inl ⟨rfl, rfl⟩))

theorem At.mem (h : At H a bs x b) : b ∈ bs := by
  obtain ⟨pre, post, rfl, -⟩ := at_iff.mp h
  simp

-- ---------------------------------------------------------------------------
-- Headers
-- ---------------------------------------------------------------------------

theorem Tiles.at (h : Tiles H owner stop hd prev a bs) (hb : At H a bs x b) :
    ∃ p, hd x = headerOf H owner stop p x b := by
  induction bs generalizing prev a with
  | nil => exact hb.elim
  | cons c bs ih =>
    rcases hb with ⟨rfl, rfl⟩ | hb
    · exact ⟨prev, h.1⟩
    · exact ih h.2 hb

theorem Tiles.congr (h : Tiles H owner stop hd prev a bs) (hsame : ∀ y b, At H a bs y b → hd' y = hd y) :
    Tiles H owner stop hd' prev a bs := by
  induction bs generalizing prev a with
  | nil => trivial
  | cons b bs ih =>
    exact ⟨(hsame a b (.inl ⟨rfl, rfl⟩)).trans h.1, ih h.2 fun y c hy => hsame y c (.inr hy)⟩

theorem Tiles.split (h : Tiles H owner stop hd prev a (pre ++ b :: post)) :
    hd (endOf H a pre) = headerOf H owner stop (lastOf H prev a pre) (endOf H a pre) b ∧
      Tiles H owner stop hd (endOf H a pre) (endOf H a pre + H + b.size) post :=
  (tiles_append.mp h).2

/-- Other blocks in the place of `mid`. Behind them only the link back changes. -/
theorem Tiles.replace (h : Tiles H owner stop hd prev a (pre ++ mid ++ post))
    (hmid : Tiles H owner stop hd' (lastOf H prev a pre) (endOf H a pre) mid')
    (hend : endOf H (endOf H a pre) mid' = endOf H a (pre ++ mid))
    (hbefore : ∀ y, y + H ≤ endOf H a pre → hd' y = hd y)
    (hnext : post ≠ [] → hd' (endOf H a (pre ++ mid)) =
      { hd (endOf H a (pre ++ mid)) with previous := lastOf H (lastOf H prev a pre) (endOf H a pre) mid' })
    (hafter : ∀ y, endOf H a (pre ++ mid) + H ≤ y → hd' y = hd y) :
    Tiles H owner stop hd' prev a (pre ++ mid' ++ post) := by
  obtain ⟨hpm, hpost⟩ := tiles_append.mp h
  obtain ⟨hpre, -⟩ := tiles_append.mp hpm
  refine tiles_append.mpr ⟨tiles_append.mpr ⟨hpre.congr fun y _ hy => hbefore y (Nat.le_of_add_right_le hy.bounds.2), hmid⟩, ?_⟩
  rw [endOf_append, hend, lastOf_append]
  cases post with
  | nil => trivial
  | cons c post =>
    have hafter' : Tiles H owner stop hd' (endOf H a (pre ++ mid)) (endOf H a (pre ++ mid) + H + c.size) post :=
      hpost.2.congr fun y _ hy => hafter y (Nat.le_of_add_right_le hy.bounds.1)
    refine ⟨?_, hafter'⟩
    rw [hnext (List.cons_ne_nil _ _), hpost.1]
    rfl

-- ---------------------------------------------------------------------------
-- Free neighbours
-- ---------------------------------------------------------------------------

def Merged (bs : List Block) : Prop := bs.IsChain fun b c => ¬ (b.free = true ∧ c.free = true)

def used (bs : List Block) : Nat := bs.countP fun b => !b.free

@[simp] theorem used_append : used (bs ++ cs) = used bs + used cs := List.countP_append

@[simp] theorem used_cons : used (b :: bs) = used bs + if b.free then 0 else 1 := by
  rw [used, List.countP_cons]
  cases b.free <;> rfl

theorem At.used_pos (h : At H a bs x b) (hb : b.free = false) : 0 < used bs :=
  List.countP_pos_iff.mpr ⟨b, h.mem, by simp [hb]⟩

end NarcOs.Tiling
