import NarcOs.Libc.Blocks
import NarcOs.Libc.Headers

/-!
# Merging and splitting in memory

`merge_next` and `split_block` on the blocks of an arena. Both write in headers only,
and no sum of sizes wraps.
-/

namespace NarcOs

open Tiling

def HeadersOnly (m m' : Mem) (a : Nat) (bs : List Block) : Prop := ∀ z, ¬ InHeader 48 a bs z → m' z = m z

variable {m : Mem} {owner a stop : Nat} {b c : Block} {bs pre post : List Block}

theorem HeadersOnly.trans {m' m'' : Mem} (h : HeadersOnly m m' a bs) (h' : HeadersOnly m' m'' a bs) :
    HeadersOnly m m'' a bs := fun z hz => (h' z hz).trans (h z hz)

theorem Mem.Put.headersOnly {m' : Mem} {x : Nat} {hd : Header} (hp : m.Put m' x hd) (hb : At 48 a bs x b) :
    HeadersOnly m m' a bs := by
  intro z hz
  refine hp.only z ?_
  by_contra hin
  refine hz ?_
  obtain ⟨pre, post, rfl, rfl⟩ := at_iff.mp hb
  exact inHeader_append.mpr (.inr (.inl (by omega)))

theorem Mem.Laid.join {m₂ : Mem} (h : m.Laid owner a stop (pre ++ b :: c :: post))
    (hp : m.Put m₂ (endOf 48 a pre)
      (headerOf 48 owner stop (lastOf 48 0 a pre) (endOf 48 a pre) ⟨b.size + 48 + c.size, b.free⟩)) :
    (m₂.linkBack (m.blockNext (endOf 48 a pre + 48 + b.size)) (endOf 48 a pre)).Laid owner a stop
        (pre ++ ⟨b.size + 48 + c.size, b.free⟩ :: post) ∧
      HeadersOnly m (m₂.linkBack (m.blockNext (endOf 48 a pre + 48 + b.size)) (endOf 48 a pre)) a
        (pre ++ b :: c :: post) := by
  have hb : At 48 a (pre ++ b :: c :: post) (endOf 48 a pre) b := at_iff.mpr ⟨pre, _, rfl, rfl⟩
  have hnext : m.blockNext (endOf 48 a pre + 48 + b.size) =
      firstOf (endOf 48 a pre + 48 + b.size + 48 + c.size) post := by
    have hsplit : pre ++ b :: c :: post = (pre ++ [b]) ++ c :: post := by simp
    rw [hsplit] at h
    have hnext := h.next
    rwa [endOf_append] at hnext
  have hstop := h.stop_eq
  have hlt := h.lt
  have hpos := h.pos
  have hend : endOf 48 a (pre ++ [b, c]) = endOf 48 a pre + 48 + b.size + 48 + c.size := by
    rw [endOf_append]
    rfl
  have hend' : endOf 48 (endOf 48 a pre) [⟨b.size + 48 + c.size, b.free⟩] = endOf 48 a (pre ++ [b, c]) := by
    rw [hend]
    show endOf 48 a pre + 48 + (b.size + 48 + c.size) = _
    omega
  have htiles : Tiles 48 owner stop m.header 0 a (pre ++ [b, c] ++ post) := by
    rw [List.append_assoc]
    exact h.tiles
  have hle := le_endOf 48 a pre
  rw [hnext]
  have hstop' : endOf 48 a (pre ++ ⟨b.size + 48 + c.size, b.free⟩ :: post) = stop := by
    rw [List.append_cons, endOf_append, endOf_append, hend', ← endOf_append, List.append_assoc]
    exact hstop
  have hmid : ∀ {hd : Nat → Header}, hd (endOf 48 a pre) = headerOf 48 owner stop (lastOf 48 0 a pre) (endOf 48 a pre)
      ⟨b.size + 48 + c.size, b.free⟩ →
      Tiles 48 owner stop hd (lastOf 48 0 a pre) (endOf 48 a pre) [⟨b.size + 48 + c.size, b.free⟩] :=
    fun h => ⟨h, trivial⟩
  have hbelow : endOf 48 a pre + 48 ≤ endOf 48 a (pre ++ [b, c]) := by omega
  cases post with
  | nil =>
    refine ⟨⟨?_, hstop', hpos, hlt⟩, hp.headersOnly hb⟩
    have hnew := htiles.replace (hmid hp.header) hend' (fun y hy => hp.other (.inl hy)) (fun hn => absurd rfl hn)
      fun y hy => hp.other (.inr (by omega))
    rw [List.append_nil] at hnew
    exact hnew
  | cons d post =>
    rw [firstOf_cons, ← hend, Mem.linkBack, if_pos (by omega)]
    have hd : At 48 a (pre ++ b :: c :: d :: post) (endOf 48 a (pre ++ [b, c])) d :=
      at_iff.mpr ⟨pre ++ [b, c], post, by simp, rfl⟩
    have hfits := hd.bounds
    have hback : m₂.Put (m₂.setBlockPrevious (endOf 48 a (pre ++ [b, c])) (endOf 48 a pre)) _ _ :=
      Mem.put_blockPrevious (by omega)
    refine ⟨⟨?_, hstop', hpos, hlt⟩, (hp.headersOnly hb).trans (hback.headersOnly hd)⟩
    have hnew := htiles.replace (hmid ((hback.other (.inl hbelow)).trans hp.header)) hend'
      (fun y hy => (hback.other (.inl (by omega))).trans (hp.other (.inl hy))) (fun _ => ?_)
      fun y hy => (hback.other (.inr (by omega))).trans (hp.other (.inr (by omega)))
    · rwa [List.append_assoc] at hnew
    · rw [hback.header, hp.other (.inr hbelow)]
      rfl

theorem headerOf_join (prev x : Nat) : headerOf 48 owner stop prev x ⟨b.size + 48 + c.size, b.free⟩ =
    { headerOf 48 owner stop prev x b with
      size := b.size + (48 + c.size)
      next := (headerOf 48 owner stop x (x + 48 + b.size) c).next } := by
  unfold headerOf
  simp only [show b.size + 48 + c.size = b.size + (48 + c.size) by omega,
    show x + 48 + (b.size + (48 + c.size)) = x + 48 + b.size + 48 + c.size by omega]

theorem mergeNext_laid (h : m.Laid owner a stop (pre ++ b :: post)) :
    (m.mergeNext (endOf 48 a pre)).Laid owner a stop (pre ++ mergeAt b post) ∧
      HeadersOnly m (m.mergeNext (endOf 48 a pre)) a (pre ++ b :: post) := by
  obtain ⟨hb, hpost⟩ := h.tiles.split
  obtain ⟨hsize, -⟩ := Mem.header_fields hb
  have hsizeX : m.blockSize (endOf 48 a pre) = b.size := hsize
  have hnext := h.next
  cases post with
  | nil =>
    rw [firstOf_nil] at hnext
    rw [Mem.mergeNext, if_pos (.inl hnext)]
    exact ⟨h, fun _ _ => rfl⟩
  | cons c post =>
    obtain ⟨hc, -⟩ := hpost
    obtain ⟨hcsize, -, hcnext, -, hcfree⟩ := Mem.header_fields hc
    have hsizeN : m.blockSize (endOf 48 a pre + 48 + b.size) = c.size := hcsize
    have hfreeN : m.blockFree (endOf 48 a pre + 48 + b.size) = c.free := hcfree
    rw [firstOf_cons] at hnext
    cases hfree : c.free with
    | false =>
      rw [Mem.mergeNext, hnext, hfreeN, if_pos (.inr hfree), mergeAt_cons, if_neg (by simp [hfree])]
      exact ⟨h, fun _ _ => rfl⟩
    | true =>
      have hcAt : At 48 a (pre ++ b :: c :: post) (endOf 48 a pre + 48 + b.size) c :=
        at_iff.mpr ⟨pre ++ [b], post, by simp, by rw [endOf_append]; rfl⟩
      have hfits := hcAt.bounds
      have hstop := h.stop_eq
      have hlt := h.lt
      have hpos := h.pos
      have hsized : m.Put (m.setBlockSize (endOf 48 a pre) (b.size + (48 + c.size))) _ _ :=
        Mem.put_blockSize (by omega)
      have hsame := hsized.other (y := endOf 48 a pre + 48 + b.size) (.inr (by omega))
      have hnextN : (m.setBlockSize (endOf 48 a pre) (b.size + (48 + c.size))).blockNext (endOf 48 a pre + 48 + b.size) =
          m.blockNext (endOf 48 a pre + 48 + b.size) := (Mem.header_fields hsame).2.2.1
      have hput : m.Put ((m.setBlockSize (endOf 48 a pre) (b.size + (48 + c.size))).setBlockNext (endOf 48 a pre)
          (m.blockNext (endOf 48 a pre + 48 + b.size))) (endOf 48 a pre)
          (headerOf 48 owner stop (lastOf 48 0 a pre) (endOf 48 a pre) ⟨b.size + 48 + c.size, b.free⟩) := by
        have hput := hsized.trans (Mem.put_blockNext (Mem.load64_lt m (endOf 48 a pre + 48 + b.size + 16)))
        rw [headerOf_join, ← hcnext, ← hb]
        rw [hsized.header] at hput
        exact hput
      have hnextX := (Mem.header_fields hput.header).2.2.1
      rw [headerOf_join, ← hcnext] at hnextX
      have hmerge : m.mergeNext (endOf 48 a pre) = ((m.setBlockSize (endOf 48 a pre) (b.size + (48 + c.size))).setBlockNext
          (endOf 48 a pre) (m.blockNext (endOf 48 a pre + 48 + b.size))).linkBack
          (m.blockNext (endOf 48 a pre + 48 + b.size)) (endOf 48 a pre) := by
        have hwrap : wrapSize (b.size + (sizeofBlock + c.size)) = b.size + (48 + c.size) := wrapSize_eq (by
          unfold sizeofBlock
          omega)
        have hused : ¬ (endOf 48 a pre + 48 + b.size = 0 ∨ m.blockFree (endOf 48 a pre + 48 + b.size) = false) := by
          rw [hfreeN, hfree]
          simp
        unfold Mem.mergeNext
        simp only
        rw [hnext, if_neg hused, hsizeN, hsizeX, hwrap, hnextN, hnextX]
      rw [hmerge, mergeAt_cons, if_pos hfree]
      exact h.join hput

-- ---------------------------------------------------------------------------
-- Splitting
-- ---------------------------------------------------------------------------

theorem Mem.store64_comm {x y v w : Nat} (hd : x + 8 ≤ y ∨ y + 8 ≤ x) (m : Mem) :
    (m.store64 x v).store64 y w = (m.store64 y w).store64 x v := by
  funext z
  have hinside : ∀ (m : Mem) x v, x ≤ z → z < x + 8 → m.store64 x v z = (toLE 8 v).getD (z - x) 0 :=
    fun m x v hl hr => by
      unfold store64 write
      rw [if_pos (by simp; omega)]
  by_cases hx : x ≤ z ∧ z < x + 8
  · rw [store64_apply_outside (m := m.store64 x v) (by omega), hinside _ x v hx.1 hx.2, hinside _ x v hx.1 hx.2]
  · rw [store64_apply_outside (m := m.store64 y w) (by omega)]
    by_cases hy : y ≤ z ∧ z < y + 8
    · rw [hinside _ y w hy.1 hy.2, hinside _ y w hy.1 hy.2]
    · rw [store64_apply_outside (by omega), store64_apply_outside (by omega), store64_apply_outside (by omega)]

/-- The last two stores of `split_block`, to the block that is split. -/
def shorten (m : Mem) (block split size : Nat) : Mem := (m.setBlockNext block split).setBlockSize block size

section
variable {x split size y v : Nat}

theorem shorten_onlyAt (m : Mem) (x split size : Nat) : m.OnlyAt (shorten m x split size) x 48 := by
  have hnext := (Mem.onlyAt_store64 m (x + 16) split).mono (y := x) (k := 48) (by omega) (by omega)
  have hsize := (Mem.onlyAt_store64 (m.setBlockNext x split) x size).mono (y := x) (k := 48) (by omega) (by omega)
  exact fun z hz => (hsize z hz).trans (hnext z hz)

theorem shorten_comm (hd : x + 24 ≤ y) : (shorten m x split size).store64 y v = shorten (m.store64 y v) x split size := by
  unfold shorten Mem.setBlockNext Mem.setBlockSize
  rw [Mem.store64_comm (by omega), Mem.store64_comm (y := y) (by omega)]

/-- The free block behind a split can be absorbed before or after these stores. -/
theorem mergeNext_shorten (hx : x + 48 ≤ y) (hnext : m.blockNext y = 0 ∨ y + 48 ≤ m.blockNext y)
    (hbehind : m.blockNext y ≠ 0 → m.blockNext (m.blockNext y) = 0 ∨ x + 48 ≤ m.blockNext (m.blockNext y)) :
    (shorten m x split size).mergeNext y = shorten (m.mergeNext y) x split size := by
  have hread : ∀ (m : Mem) z, x + 48 ≤ z → (shorten m x split size).header z = m.header z := fun m z hz =>
    (shorten_onlyAt m x split size).header (.inr hz)
  obtain ⟨hsizeY, -, hnextY, -, -⟩ := Mem.fields_of_header_eq (hread m y hx)
  unfold Mem.mergeNext
  simp only [hnextY, hsizeY]
  by_cases hz : m.blockNext y = 0
  · rw [if_pos (.inl hz), if_pos (.inl hz)]
  replace hnext := hnext.resolve_left hz
  obtain ⟨hsizeN, -, -, -, hfreeN⟩ := Mem.fields_of_header_eq (hread m (m.blockNext y) (by omega))
  rw [hfreeN, hsizeN]
  split
  · rfl
  generalize wrapSize (m.blockSize y + (sizeofBlock + m.blockSize (m.blockNext y))) = grown
  have hsized : (shorten m x split size).setBlockSize y grown = shorten (m.setBlockSize y grown) x split size :=
    shorten_comm (by omega)
  have hlinked : ∀ (m : Mem) v, (shorten m x split size).setBlockNext y v = shorten (m.setBlockNext y v) x split size :=
    fun m v => shorten_comm (by omega)
  have hsame : (m.setBlockSize y grown).blockNext (m.blockNext y) = m.blockNext (m.blockNext y) :=
    (Mem.onlyAt_store64 m y grown).load64 (by omega)
  have hstored : ∀ (m : Mem) v, (m.setBlockNext y v).blockNext y = v % 2 ^ 64 := fun m v =>
    Mem.load64_store64 m (y + 16) v
  rw [hsized, (Mem.fields_of_header_eq (hread (m.setBlockSize y grown) (m.blockNext y) (by omega))).2.2.1, hlinked,
    hsame, (Mem.fields_of_header_eq (hread _ y hx)).2.2.1, hstored]
  have hlt : m.blockNext (m.blockNext y) < 2 ^ 64 := Mem.load64_lt _ _
  rw [Nat.mod_eq_of_lt hlt]
  unfold Mem.linkBack
  split
  · rename_i hne
    exact shorten_comm (by have := (hbehind hz).resolve_left hne; omega)
  · rfl

theorem put_shorten (hs : split < 2 ^ 64) (hv : size < 2 ^ 64) : m.Put (shorten m x split size) x { m.header x with
    size := size
    next := split } := by
  have hnext := Mem.put_blockNext (m := m) (x := x) hs
  have hsize := Mem.put_blockSize (m := m.setBlockNext x split) (x := x) hv
  rw [hnext.header] at hsize
  exact hnext.trans hsize

theorem put_newHeader (hx : x + 48 ≤ split) (hs : size < 2 ^ 64) (hlt : split < 2 ^ 64) :
    m.Put (m.newHeader x split size) split ⟨size, x, m.blockNext x, m.blockArena x, true⟩ := by
  -- the stores so far are behind the header that is read
  have hread : ∀ {m' : Mem}, m.OnlyAt m' split 48 → m'.header x = m.header x := fun h => h.header (.inl hx)
  have hsize := (Mem.onlyAt_store64 m split size).mono (y := split) (k := 48) le_rfl (by omega)
  have hprevious : m.OnlyAt ((m.setBlockSize split size).setBlockPrevious split x) split 48 := fun z hz =>
    (Mem.onlyAt_store64 _ (split + 8) x z (by omega)).trans (hsize z hz)
  have hnext : ∀ v, m.OnlyAt (((m.setBlockSize split size).setBlockPrevious split x).setBlockNext split v) split 48 :=
    fun v z hz => (Mem.onlyAt_store64 _ (split + 16) v z (by omega)).trans (hprevious z hz)
  unfold Mem.newHeader
  simp only [(Mem.fields_of_header_eq (hread hprevious)).2.2.1, (Mem.fields_of_header_eq (hread (hnext _))).2.2.2.1]
  exact Mem.put_header hs (by omega) (Mem.load64_lt _ _) (Mem.load64_lt _ _)

theorem Mem.Laid.cut (h : m.Laid owner a stop (pre ++ b :: post)) (hle : size + 48 ≤ b.size)
    (hx : endOf 48 a pre = x) (hsplit : x + 48 + size = split) :
    let m' := shorten ((m.newHeader x split (b.size - size - 48)).linkBack (firstOf (x + 48 + b.size) post) split) x
      split size
    m'.Laid owner a stop (pre ++ ⟨size, b.free⟩ :: ⟨b.size - size - 48, true⟩ :: post) ∧
      HeadersOnly m m' a (pre ++ ⟨size, b.free⟩ :: ⟨b.size - size - 48, true⟩ :: post) := by
  intro m'
  obtain ⟨hb, -⟩ := h.tiles.split
  have hstop := h.stop_eq
  have hlt := h.lt
  have hpos := h.pos
  have hbounds := (at_iff.mpr ⟨pre, post, rfl, rfl⟩ : At 48 a (pre ++ b :: post) _ b).bounds
  have hnextX := h.next
  rw [hx] at hb hbounds hnextX
  have hends : x + 48 + size + 48 + (b.size - size - 48) = x + 48 + b.size := by omega
  have hend : endOf 48 a (pre ++ [b]) = x + 48 + b.size := by
    rw [endOf_append, hx]
    rfl
  have hend' : endOf 48 (endOf 48 a pre) [⟨size, b.free⟩, ⟨b.size - size - 48, true⟩] = endOf 48 a (pre ++ [b]) := by
    rw [hend, hx]
    exact hends
  have hatX : At 48 a (pre ++ ⟨size, b.free⟩ :: ⟨b.size - size - 48, true⟩ :: post) x ⟨size, b.free⟩ :=
    at_iff.mpr ⟨pre, _, rfl, hx.symm⟩
  have hatSplit : At 48 a (pre ++ ⟨size, b.free⟩ :: ⟨b.size - size - 48, true⟩ :: post) split
      ⟨b.size - size - 48, true⟩ :=
    at_iff.mpr ⟨pre ++ [⟨size, b.free⟩], post, by simp, by rw [endOf_append, hx, ← hsplit]; rfl⟩
  have hstop' : endOf 48 a (pre ++ ⟨size, b.free⟩ :: ⟨b.size - size - 48, true⟩ :: post) = stop := by
    rw [show pre ++ ⟨size, b.free⟩ :: ⟨b.size - size - 48, true⟩ :: post =
      pre ++ ([⟨size, b.free⟩, ⟨b.size - size - 48, true⟩] ++ post) by simp, endOf_append, endOf_append, hend',
      ← endOf_append, List.append_assoc]
    exact hstop
  have htiles : Tiles 48 owner stop m.header 0 a (pre ++ [b] ++ post) := by
    rw [List.append_assoc]
    exact h.tiles
  obtain ⟨-, -, hnextB, harena, -⟩ := Mem.header_fields hb
  have hnew : m.Put (m.newHeader x split (b.size - size - 48)) split
      (headerOf 48 owner stop x split ⟨b.size - size - 48, true⟩) := by
    have hnew : m.Put (m.newHeader x split (b.size - size - 48)) split
        ⟨b.size - size - 48, x, m.blockNext x, m.blockArena x, true⟩ :=
      put_newHeader (by omega) (by omega) (by omega)
    rw [hnextB, harena] at hnew
    unfold headerOf at hnew ⊢
    rwa [show split + 48 + (b.size - size - 48) = x + 48 + b.size by omega]
  have hshort : ∀ {m₂ : Mem}, m₂.header x = m.header x → m₂.Put (shorten m₂ x split size) x
      (headerOf 48 owner stop (lastOf 48 0 a pre) x ⟨size, b.free⟩) := fun {m₂} hsame => by
    have hput : m₂.Put (shorten m₂ x split size) x { m₂.header x with
        size := size
        next := split } := put_shorten (by omega) (by omega)
    rw [hsame, hb] at hput
    unfold headerOf at hput ⊢
    rwa [if_neg (show ¬ x + 48 + size = stop by omega), hsplit]
  have hmid : ∀ {hd : Nat → Header}, hd x = headerOf 48 owner stop (lastOf 48 0 a pre) x ⟨size, b.free⟩ →
      hd split = headerOf 48 owner stop x split ⟨b.size - size - 48, true⟩ →
      Tiles 48 owner stop hd (lastOf 48 0 a pre) (endOf 48 a pre) [⟨size, b.free⟩, ⟨b.size - size - 48, true⟩] :=
    fun h₁ h₂ => by
      rw [hx]
      exact ⟨h₁, hsplit ▸ h₂, trivial⟩
  -- only the first header behind the new block, if there is one, is written besides
  cases post with
  | nil =>
    have hx₁ := hshort (hnew.other (y := x) (.inl (by omega)))
    refine ⟨⟨?_, hstop', hpos, hlt⟩, (hnew.headersOnly hatSplit).trans (hx₁.headersOnly hatX)⟩
    have hreplaced := htiles.replace (hmid hx₁.header ((hx₁.other (.inr (by omega))).trans hnew.header)) hend'
      (fun y hy => (hx₁.other (.inl (by omega))).trans (hnew.other (.inl (by omega)))) (fun hn => absurd rfl hn)
      fun y hy => (hx₁.other (.inr (by omega))).trans (hnew.other (.inr (by omega)))
    rw [List.append_nil] at hreplaced
    exact hreplaced
  | cons c post =>
    have hc : At 48 a (pre ++ ⟨size, b.free⟩ :: ⟨b.size - size - 48, true⟩ :: c :: post) (x + 48 + b.size) c :=
      at_iff.mpr ⟨pre ++ [⟨size, b.free⟩, ⟨b.size - size - 48, true⟩], post, by simp, by
        rw [endOf_append, hend', hend]⟩
    have hfits := hc.bounds
    have hback : Mem.Put (m.newHeader x split (b.size - size - 48)) ((newHeader m x split
        (b.size - size - 48)).setBlockPrevious (x + 48 + b.size) split) _ _ := Mem.put_blockPrevious (by omega)
    have hm' : m' = shorten ((m.newHeader x split (b.size - size - 48)).setBlockPrevious (x + 48 + b.size) split) x
        split size := by
      show shorten (Mem.linkBack _ (x + 48 + b.size) split) x split size = _
      rw [Mem.linkBack, if_pos (by omega)]
    rw [hm']
    have hx₂ := hshort ((hback.other (.inl (by omega))).trans (hnew.other (y := x) (.inl (by omega))))
    refine ⟨⟨?_, hstop', hpos, hlt⟩, ((hnew.headersOnly hatSplit).trans (hback.headersOnly hc)).trans
      (hx₂.headersOnly hatX)⟩
    have hreplaced := htiles.replace
      (hmid hx₂.header (((hx₂.other (.inr (by omega))).trans (hback.other (.inl (by omega)))).trans hnew.header)) hend'
      (fun y hy => ((hx₂.other (.inl (by omega))).trans (hback.other (.inl (by omega)))).trans
        (hnew.other (.inl (by omega)))) (fun _ => ?_)
      fun y hy => ((hx₂.other (.inr (by omega))).trans (hback.other (.inr (by omega)))).trans
        (hnew.other (.inr (by omega)))
    · rw [List.append_assoc] at hreplaced
      exact hreplaced
    · rw [hend, hx₂.other (.inr (by omega)), hback.header, hnew.other (.inr (by omega)), hx, ← hsplit]
      rfl

theorem Mem.Laid.behind (h : m.Laid owner a stop (pre ++ b :: post)) (hy : endOf 48 a pre = y) :
    (m.blockNext y = 0 ∨ y + 48 ≤ m.blockNext y) ∧
      (m.blockNext y ≠ 0 → m.blockNext (m.blockNext y) = 0 ∨ y + 48 ≤ m.blockNext (m.blockNext y)) := by
  have hnext := h.next
  rw [hy] at hnext
  cases post with
  | nil => exact ⟨.inl hnext, fun hne => absurd hnext hne⟩
  | cons c post =>
    rw [firstOf_cons] at hnext
    refine ⟨.inr (by omega), fun _ => ?_⟩
    have hsplit : pre ++ b :: c :: post = (pre ++ [b]) ++ c :: post := by simp
    have hnext' := (hsplit ▸ h).next
    rw [endOf_append, hy] at hnext'
    rw [hnext, show m.blockNext (y + 48 + b.size) = _ from hnext']
    cases post with
    | nil => exact .inl rfl
    | cons d post =>
      right
      show y + 48 ≤ y + 48 + b.size + 48 + c.size
      omega

end

/-- `split_block` takes in a block as `merge_next` does. -/
theorem absorbNext_eq (m : Mem) (split : Nat) : m.absorbNext split = m.mergeNext split := by
  have hnext : ∀ v, (m.setBlockSize split v).blockNext split = m.blockNext split := fun v =>
    (Mem.onlyAt_store64 m split v).load64 (by omega)
  unfold Mem.absorbNext Mem.mergeNext
  by_cases hz : m.blockNext split = 0
  · simp [hz]
  · cases hf : m.blockFree (m.blockNext split) <;> simp [hz, hf, hnext]

/-- What `split_block` makes of a block is a cut and a merge. -/
theorem splitBlock_laid {size : Nat} (h : m.Laid owner a stop (pre ++ b :: post)) (hle : size ≤ b.size) :
    (m.splitBlock (endOf 48 a pre) size).Laid owner a stop (pre ++ splitAt b size post) ∧
      HeadersOnly m (m.splitBlock (endOf 48 a pre) size) a (pre ++ cutAt b size post) := by
  have hstop := h.stop_eq
  have hlt := h.lt
  have hpos := h.pos
  have hbounds := (at_iff.mpr ⟨pre, post, rfl, rfl⟩ : At 48 a (pre ++ b :: post) _ b).bounds
  obtain ⟨hsize, -⟩ := Mem.header_fields h.tiles.split.1
  have hsizeX : m.blockSize (endOf 48 a pre) = b.size := hsize
  have hremaining : subSize b.size size = b.size - size := subSize_eq (by omega) hle
  have hthreshold : sizeofBlock + maxAlign = 64 := rfl
  unfold Mem.splitBlock
  simp only [hsizeX, hremaining, hthreshold]
  by_cases hsmall : b.size - size < 64
  · rw [if_pos hsmall, splitAt, if_pos hsmall]
    exact ⟨h, fun _ _ => rfl⟩
  have hsub : subSize (b.size - size) sizeofBlock = b.size - size - 48 := subSize_eq (by omega) (by
    unfold sizeofBlock
    omega)
  rw [if_neg hsmall, hsub, splitAt, if_neg hsmall, cutAt, if_neg hsmall]
  set x := endOf 48 a pre with hx
  set split := x + 48 + size with hsplit
  have hsplit' : x + sizeofBlock + size = split := rfl
  set n := m.newHeader x split (b.size - size - 48) with hn
  have hnew : m.Put n split ⟨b.size - size - 48, x, m.blockNext x, m.blockArena x, true⟩ :=
    put_newHeader (by omega) (by omega) (by omega)
  have hlink : n.blockNext split = firstOf (x + 48 + b.size) post := (Mem.header_fields hnew.header).2.2.1.trans h.next
  have hfits : size + 48 ≤ b.size := by omega
  obtain ⟨hcut, honly⟩ := h.cut hfits rfl hsplit.symm
  rw [← hx, ← hn] at hcut honly
  rw [hsplit', hlink, absorbNext_eq]
  set linked := n.linkBack (firstOf (x + 48 + b.size) post) split
  rw [List.append_cons] at hcut
  have hend : endOf 48 a (pre ++ [⟨size, b.free⟩]) = split := by
    rw [endOf_append]
    rfl
  obtain ⟨hlaid, hmerged⟩ := mergeNext_laid hcut
  rw [hend] at hlaid hmerged
  -- the two stores to the block itself come last
  obtain ⟨hnear, hfar⟩ := hcut.behind hend
  have hread : ∀ z, x + 48 ≤ z → (shorten linked x split size).header z = linked.header z := fun z hz =>
    (shorten_onlyAt linked x split size).header (.inr hz)
  rw [(Mem.fields_of_header_eq (hread split (by omega))).2.2.1] at hnear hfar
  have hcomm : (shorten linked x split size).mergeNext split = shorten (linked.mergeNext split) x split size :=
    mergeNext_shorten (by omega) hnear fun hne => by
      have hbehind := hnear.resolve_left hne
      rw [← (Mem.fields_of_header_eq (hread (linked.blockNext split) (by omega))).2.2.1]
      exact (hfar hne).imp_right fun hle => by omega
  rw [hcomm] at hlaid hmerged
  rw [← List.append_cons] at hlaid hmerged
  exact ⟨hlaid, honly.trans hmerged⟩

end NarcOs
