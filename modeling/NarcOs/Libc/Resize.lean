import NarcOs.Libc.Release

/-!
# Resizing

`realloc` shortens a block where it is, lets it take in a free one behind it, or moves
it. In each case what the block contained is kept as far as both sizes go, and no
other block is touched.
-/

namespace NarcOs

open Tiling

variable {m m' m'' : Mem} {owner a stop x y n n' n'' k size : Nat} {b c : Block} {bs bs' bs'' pre post : List Block}

structure Reshaped (m m' : Mem) (owner a stop : Nat) (bs bs' : List Block) (x n n' : Nat) : Prop where
  laid : m'.Laid owner a stop bs'
  merged : Merged bs'
  aligned : Aligned bs'
  at_iff : ∀ y k, At 48 a bs' y ⟨k, false⟩ ↔ (y = x ∧ k = n') ∨ (y ≠ x ∧ At 48 a bs y ⟨k, false⟩)
  kept : ∀ i < n, i < n' → m' (x + 48 + i) = m (x + 48 + i)
  payload : ∀ y k, y ≠ x → At 48 a bs y ⟨k, false⟩ → ∀ i < k, m' (y + 48 + i) = m (y + 48 + i)
  outside : ∀ z, z < a ∨ stop ≤ z → m' z = m z
  used_eq : used bs' = used bs

theorem Reshaped.trans (h : Reshaped m m' owner a stop bs bs' x n n') (h' : Reshaped m' m'' owner a stop bs' bs'' x n' n'')
    (hle : n ≤ n') : Reshaped m m'' owner a stop bs bs'' x n n'' where
  laid := h'.laid
  merged := h'.merged
  aligned := h'.aligned
  at_iff y k := by
    rw [h'.at_iff, h.at_iff]
    tauto
  kept i hi hi' := (h'.kept i (by omega) hi').trans (h.kept i hi (by omega))
  payload y k hne hb i hi :=
    (h'.payload y k hne ((h.at_iff y k).mpr (.inr ⟨hne, hb⟩)) i hi).trans (h.payload y k hne hb i hi)
  outside z hz := (h'.outside z hz).trans (h.outside z hz)
  used_eq := h'.used_eq.trans h.used_eq

theorem at_others : At 48 a (pre ++ ⟨n, false⟩ :: post) y ⟨k, false⟩ ↔
    (y = endOf 48 a pre ∧ k = n) ∨
      (y ≠ endOf 48 a pre ∧ (At 48 a pre y ⟨k, false⟩ ∨ At 48 (endOf 48 a pre + 48 + n) post y ⟨k, false⟩)) := by
  have hbefore : At 48 a pre y ⟨k, false⟩ → y ≠ endOf 48 a pre := fun hy => by
    have := hy.bounds
    omega
  have hbehind : At 48 (endOf 48 a pre + 48 + n) post y ⟨k, false⟩ → y ≠ endOf 48 a pre := fun hy => by
    have := hy.bounds
    omega
  have hsize : (⟨k, false⟩ : Block) = ⟨n, false⟩ ↔ k = n := by simp
  rw [at_append, at_cons, hsize]
  tauto

theorem at_reshaped (hbs' : At 48 a bs' y ⟨k, false⟩ ↔ At 48 a pre y ⟨k, false⟩ ∨ (y = endOf 48 a pre ∧ k = n') ∨
    At 48 (endOf 48 a pre + 48 + n) post y ⟨k, false⟩) :
    At 48 a bs' y ⟨k, false⟩ ↔
      (y = endOf 48 a pre ∧ k = n') ∨ (y ≠ endOf 48 a pre ∧ At 48 a (pre ++ ⟨n, false⟩ :: post) y ⟨k, false⟩) := by
  have hold : (y ≠ endOf 48 a pre ∧ At 48 a (pre ++ ⟨n, false⟩ :: post) y ⟨k, false⟩) ↔
      At 48 a pre y ⟨k, false⟩ ∨ At 48 (endOf 48 a pre + 48 + n) post y ⟨k, false⟩ := by
    rw [at_others]
    constructor
    · rintro ⟨hne, heq | ⟨-, hy⟩⟩
      · exact absurd heq.1 hne
      · exact hy
    · intro hy
      have hne : y ≠ endOf 48 a pre := by
        rcases hy with hy | hy <;> have := hy.bounds <;> omega
      exact ⟨hne, .inr ⟨hne, hy⟩⟩
  rw [hbs', hold, or_left_comm]

theorem splitBlock_reshaped (h : m.Laid owner a stop (pre ++ ⟨n, false⟩ :: post)) (hmerged : Merged (pre ++ ⟨n, false⟩ :: post))
    (haligned : Aligned (pre ++ ⟨n, false⟩ :: post)) (hle : size ≤ n) (hsize : 16 ∣ size) :
    ∃ bs', Reshaped m (m.splitBlock (endOf 48 a pre) size) owner a stop (pre ++ ⟨n, false⟩ :: post) bs' (endOf 48 a pre) n
      (splitSize ⟨n, false⟩ size) := by
  obtain ⟨hlaid, honly⟩ := splitBlock_laid h hle
  obtain ⟨hpre, hpost⟩ := (merged_used rfl).mp hmerged
  have hcut : endOf 48 a (pre ++ cutAt ⟨n, false⟩ size post) = stop := by
    rw [endOf_append, endOf_cutAt hle, ← endOf_append]
    exact h.stop_eq
  have hends : endOf 48 a (pre ++ ⟨n, false⟩ :: post) = stop := h.stop_eq
  have haligned' : Aligned (pre ++ splitAt ⟨n, false⟩ size post) := fun c hc => by
    rcases List.mem_append.mp hc with hc | hc
    · exact haligned c (List.mem_append_left _ hc)
    · exact Aligned.splitAt (fun d hd => haligned d (List.mem_append_right pre hd)) hsize c hc
  have hmerged' : Merged (pre ++ splitAt ⟨n, false⟩ size post) := by
    rw [splitAt_eq]
    exact merged_taken (b := ⟨n, false⟩) hmerged
  refine ⟨_, hlaid, hmerged', haligned', fun y k => ?_, fun i hi hi' => ?_, fun y k hne hy i hi => ?_, fun z hz => ?_, ?_⟩
  · rw [splitAt_eq]
    exact at_reshaped (at_taken (b := ⟨n, false⟩) hle)
  · refine honly.payload (b := ⟨splitSize ⟨n, false⟩ size, false⟩) (at_append.mpr (.inr ?_)) hi'
    rw [at_cutAt hle]
    exact .inl ⟨rfl, rfl, rfl⟩
  · refine honly.payload (b := ⟨k, false⟩) (at_append.mpr ?_) hi
    rw [at_cutAt hle]
    have hsides := (at_others.mp hy).resolve_left fun heq => hne heq.1
    exact hsides.2.imp_right .inr
  · exact honly.outside (by rwa [hcut])
  · rw [used_append, used_append, used_splitAt]

theorem mergeNext_reshaped (h : m.Laid owner a stop (pre ++ ⟨n, false⟩ :: c :: post))
    (hmerged : Merged (pre ++ ⟨n, false⟩ :: c :: post)) (haligned : Aligned (pre ++ ⟨n, false⟩ :: c :: post))
    (hc : c.free = true) :
    Reshaped m (m.mergeNext (endOf 48 a pre)) owner a stop (pre ++ ⟨n, false⟩ :: c :: post)
      (pre ++ ⟨n + 48 + c.size, false⟩ :: post) (endOf 48 a pre) n (n + 48 + c.size) := by
  obtain ⟨hlaid, honly⟩ := mergeNext_laid h
  have hmerge : mergeAt ⟨n, false⟩ (c :: post) = ⟨n + 48 + c.size, false⟩ :: post := by
    rw [mergeAt_cons, if_pos hc]
  have haligned' : Aligned (pre ++ mergeAt ⟨n, false⟩ (c :: post)) := fun d hd => by
    rcases List.mem_append.mp hd with hd | hd
    · exact haligned d (List.mem_append_left _ hd)
    · exact Aligned.mergeAt (fun e he => haligned e (List.mem_append_right pre he)) d hd
  have hused : used (pre ++ mergeAt ⟨n, false⟩ (c :: post)) = used (pre ++ ⟨n, false⟩ :: c :: post) := by
    rw [used_append, used_append, used_mergeAt]
  rw [hmerge] at hlaid haligned' hused
  obtain ⟨hpre, hpost⟩ := (merged_used rfl).mp hmerged
  refine ⟨hlaid, (merged_used rfl).mpr ⟨hpre, (List.isChain_cons.mp hpost).2⟩, haligned', fun y k => ?_, fun i hi _ => ?_,
    fun y k _ hy i hi => honly.payload hy hi, fun z hz => ?_, hused⟩
  · have hend : endOf 48 a pre + 48 + (n + 48 + c.size) = endOf 48 a pre + 48 + n + 48 + c.size := by omega
    refine at_reshaped ?_
    rw [at_append, at_cons, at_cons, used_eq_mk, used_eq_mk, hc]
    simp [hend]
  · exact honly.payload (at_iff.mpr ⟨pre, c :: post, rfl, rfl⟩) hi
  · exact honly.outside (by rwa [h.stop_eq])

variable {A : Arena} {As As' Pre Post : List Arena}

namespace UserHeap

variable {h h' : UserHeap} {p p' q : Nat}

/-- The block of `n` bytes at `p` is now one of `n'` bytes at `p'`. What it contains is kept as
far as both go, and the others are as before. -/
structure Moved (h h' : UserHeap) (As As' : List Arena) (p n p' n' : Nat) : Prop where
  sound : h'.Sound As'
  live : ∀ q k, Live As' q k ↔ (q = p' ∧ k = n') ∨ (q ≠ p ∧ Live As q k)
  fresh : p' = p ∨ ∀ k, ¬ Live As p' k
  kept : ∀ i < n, i < n' → h'.mem (p' + i) = h.mem (p + i)
  intact : ∀ q k, q ≠ p → Live As q k → ∀ i < k, h'.mem (q + i) = h.mem (q + i)

theorem Sound.moved (hs : h.Sound (Pre ++ A :: Post)) (hat : At 48 (A.base + 32) A.blocks x ⟨n, false⟩)
    (hr : Reshaped h.mem m' A.base (A.base + 32) (A.base + A.mapped) A.blocks bs' x n n') :
    Moved h (h.setMem m') (Pre ++ A :: Post) (Pre ++ { A with blocks := bs' } :: Post) (x + 48) n (x + 48) n' := by
  have hA := hs.toHas.ok
  have hbounds := hA.bounds
  have hheader : m'.arenaHeader A.base = ⟨A.mapped, used bs', lastArena 0 Pre, firstArena 0 Post⟩ := by
    rw [Mem.arenaHeader_congr fun z _ hz => hr.outside z (.inl hz), hr.used_eq]
    exact hA.header
  have hne : bs' ≠ [] := by
    rintro rfl
    have hnew := (hr.at_iff x n').mpr (.inl ⟨rfl, rfl⟩)
    exact hnew
  have hsame : ∀ z, z < A.base ∨ A.base + A.mapped ≤ z → m' z = h.mem z := fun z hz => hr.outside z (by omega)
  have hused : 0 < used bs' := by
    rw [hr.used_eq]
    exact hat.used_pos rfl
  have hok : Arena.Ok { A with blocks := bs' } m' (lastArena 0 Pre) (firstArena 0 Post) :=
    ⟨hheader, hr.laid, hr.merged, hr.aligned, hne, hA.page, hA.pages, hA.pos⟩
  refine ⟨{ hs.toHas.update hok rfl hsame with idle_le := ?_ }, fun q k => ?_, .inl rfl, hr.kept, fun q k hq hlive i hi => ?_⟩
  · rw [idle_used hused]
    exact idle_middle.trans hs.idle_le
  · rw [live_middle, live_middle]
    constructor
    · rintro (⟨y, rfl, hy⟩ | hq)
      · rcases (hr.at_iff y k).mp hy with ⟨rfl, rfl⟩ | ⟨hne, hy⟩
        · exact .inl ⟨rfl, rfl⟩
        · exact .inr ⟨by omega, .inl ⟨y, rfl, hy⟩⟩
      · refine .inr ⟨?_, .inr hq⟩
        rintro rfl
        exact hs.toHas.not_live_others hat hq
    · rintro (⟨rfl, rfl⟩ | ⟨hne, ⟨y, rfl, hy⟩ | hq⟩)
      · exact .inl ⟨x, rfl, (hr.at_iff x k).mpr (.inl ⟨rfl, rfl⟩)⟩
      · exact .inl ⟨y, rfl, (hr.at_iff y k).mpr (.inr ⟨by omega, hy⟩)⟩
      · exact .inr hq
  · rcases live_middle.mp hlive with ⟨y, rfl, hy⟩ | hlive
    · exact hr.payload y k (by omega) hy i hi
    · exact hs.toHas.intact_others hsame q k hlive i hi

inductive ResizedBlock (h : UserHeap) (As : List Arena) (p n size : Nat) : Bool × UserHeap → Prop
  | refused (hlt : n < size) : ResizedBlock h As p n size (false, h)
  | done {h' : UserHeap} {As' : List Arena} {n' : Nat} (hsize : size ≤ n') (hmoved : Moved h h' As As' p n p n') :
    ResizedBlock h As p n size (true, h')

theorem Sound.resize (hs : h.Sound As) (hlive : Live As p n) (hlt : size < 2 ^ 64) :
    ResizedBlock h As p n size (h.resize p size) := by
  obtain ⟨A, hA, x, rfl, hat⟩ := hlive
  obtain ⟨Pre, Post, rfl⟩ := List.append_of_mem hA
  obtain ⟨pre, post, hblocks, hx⟩ := at_iff.mp hat
  have hok := hs.toHas.ok
  have hbounds := hok.bounds
  have hlaid := hok.laid
  have hmerged := hok.merged
  have haligned := hok.aligned
  rw [hblocks] at hlaid hmerged haligned
  have hsub : x + 48 - sizeofBlock = x := by
    unfold sizeofBlock
    omega
  have hlimit : subSize sizeMax (maxAlign - 1) = 2 ^ 64 - 16 := by decide
  unfold UserHeap.resize
  simp only [hsub, hlimit]
  by_cases hlarge : 2 ^ 64 - 16 < size
  · have hin := hs.toHas.block_inside hA hat
    simp only at hin
    rw [if_pos hlarge]
    exact .refused (by omega)
  rw [if_neg hlarge]
  obtain ⟨hrounded, hclose, hdvd⟩ := @alignSize_spec size maxAlign (by decide) (by unfold maxAlign; omega)
  generalize alignSize size maxAlign = rounded at hrounded hclose hdvd
  have hsize : h.mem.blockSize x = n := by
    rw [hx]
    exact (Mem.header_fields hlaid.tiles.split.1).1
  rw [hsize]
  by_cases hfits : rounded ≤ n
  · obtain ⟨bs', hr⟩ := splitBlock_reshaped hlaid hmerged haligned hfits hdvd
    rw [← hblocks, ← hx] at hr
    rw [if_pos hfits]
    exact .done (hrounded.trans (splitSize_ge (b := ⟨n, false⟩) hfits)) (hs.moved hat hr)
  have hlarger : n < size := by
    have hn : 16 ∣ n := haligned ⟨n, false⟩ (by simp)
    unfold maxAlign at hclose hdvd
    omega
  rw [if_neg hfits]
  have hnext : h.mem.blockNext x = firstOf (x + 48 + n) post := by
    rw [hx]
    exact hlaid.next
  rw [hnext]
  cases post with
  | nil =>
    rw [if_pos (.inl rfl)]
    exact .refused hlarger
  | cons c post =>
    rw [firstOf_cons]
    split
    · exact .refused hlarger
    · rename_i hgo
      have hbehind := hlaid
      rw [List.append_cons] at hbehind
      have hend : endOf 48 (A.base + 32) (pre ++ [⟨n, false⟩]) = x + 48 + n := by
        rw [endOf_append, hx]
        rfl
      have hc := hbehind.tiles.split.1
      rw [hend] at hc
      obtain ⟨hcsize, -, -, -, hcfree⟩ := Mem.header_fields hc
      have hfree : c.free = true := by
        rw [← Bool.not_eq_false]
        exact fun hused => hgo (.inr (.inl (hcfree.trans hused)))
      have hroom : rounded ≤ n + 48 + c.size := by
        have hwrapped := not_lt.mp fun hlt => hgo (.inr (.inr hlt))
        have hfits := hlaid.stop_eq
        have hlast := le_endOf 48 (x + 48 + n + 48 + c.size) post
        rw [endOf_append, endOf, endOf, ← hx] at hfits
        simp only at hfits
        rwa [show h.mem.blockSize (x + 48 + n) = c.size from hcsize,
          wrapSize_eq (by unfold sizeofBlock; omega)] at hwrapped
      have hgrown := mergeNext_reshaped hlaid hmerged haligned hfree
      obtain ⟨bs', hsplit⟩ := splitBlock_reshaped hgrown.laid hgrown.merged hgrown.aligned hroom hdvd
      have hr := hgrown.trans hsplit (by omega)
      rw [← hblocks, ← hx] at hr
      exact .done (hrounded.trans (splitSize_ge (b := ⟨n + 48 + c.size, false⟩) hroom)) (hs.moved hat hr)

inductive Reallocated (h : UserHeap) (As : List Arena) (p n size : Nat) : Option (Nat × UserHeap) → Prop
  | null {h' : UserHeap} (hsame : Same h h') (herrno : h'.errno = enomem) : Reallocated h As p n size (some (0, h'))
  | block {h' : UserHeap} {As' : List Arena} {p' n' : Nat} (hsize : size ≤ n') (hmoved : Moved h h' As As' p n p' n') :
    Reallocated h As p n size (some (p', h'))

theorem Gained.filled (hg : Gained h h' As As' p n) (hsame : ∀ z, z < p ∨ p + n ≤ z → m' z = h'.mem z) :
    Gained h (h'.setMem m') As As' p n := by
  have hnew : Live As' p n := (hg.live p n).mpr (.inl ⟨rfl, rfl⟩)
  refine ⟨hg.sound.store hnew hsame, hg.live, hg.fresh, fun q k hq i hi => ?_⟩
  have hne : q ≠ p := by
    rintro rfl
    exact hg.fresh k hq
  have hapart := hg.sound.toHas.live_apart hnew ((hg.live q k).mpr (.inr hq))
  exact (hsame _ (by omega)).trans (hg.intact q k hq i hi)

theorem Gained.copied (hg : Gained h h' As As' p' n') (hlive : Live As p n) (hle : n ≤ n') :
    ∃ As'', Moved h ((h'.setMem (h'.mem.write p' (h'.mem.read p n))).free p) As As'' p n p' n' := by
  have hne : p' ≠ p := by
    rintro rfl
    exact hg.fresh n hlive
  have hfilled : Gained h (h'.setMem (h'.mem.write p' (h'.mem.read p n))) As As' p' n' :=
    hg.filled fun z hz => Mem.write_apply_outside (by
      rw [Mem.length_read]
      omega)
  obtain ⟨As'', hlost⟩ := hfilled.sound.free ((hg.live p n).mpr (.inr hlive))
  have hlive' : ∀ q k, Live As'' q k ↔ (q = p' ∧ k = n') ∨ (q ≠ p ∧ Live As q k) := fun q k => by
    rw [hlost.live, hg.live]
    constructor
    · rintro ⟨hqp, heq | hq⟩
      · exact .inl heq
      · exact .inr ⟨hqp, hq⟩
    · rintro (⟨rfl, rfl⟩ | ⟨hqp, hq⟩)
      · exact ⟨hne, .inl ⟨rfl, rfl⟩⟩
      · exact ⟨hqp, .inr hq⟩
  refine ⟨As'', hlost.sound, hlive', .inr hg.fresh, fun i hi hi' => ?_, fun q k hqp hq i hi => ?_⟩
  · rw [hlost.intact p' n' ((hlive' p' n').mpr (.inl ⟨rfl, rfl⟩)) i hi']
    show h'.mem.write p' (h'.mem.read p n) (p' + i) = _
    rw [Mem.write_apply_inside (by rwa [Mem.length_read]), Mem.getD_read hi, hg.intact p n hlive i hi]
  · rw [hlost.intact q k ((hlive' q k).mpr (.inr ⟨hqp, hq⟩)) i hi, hfilled.intact q k hq i hi]

theorem Has.live_pos (hh : h.Has As) (hlive : Live As p n) : p ≠ 0 := by
  obtain ⟨A, -, hl, -⟩ := hh.live_inside hlive
  omega

theorem Has.size_eq (hh : h.Has As) (hlive : Live As p n) : h.size p = n := by
  obtain ⟨A, hA, x, rfl, hat⟩ := hlive
  obtain ⟨_, _, hok⟩ := hh.ok_of_mem hA
  obtain ⟨_, hheader⟩ := hok.laid.tiles.at hat
  have hsub : x + 48 - sizeofBlock = x := by
    unfold sizeofBlock
    omega
  unfold UserHeap.size
  rw [hsub]
  exact (Mem.header_fields hheader).1

theorem Sound.realloc (hs : h.Sound As) (hlive : Live As p n) (hpos : size ≠ 0) (hlt : size < 2 ^ 64) :
    Reallocated h As p n size (h.realloc p size) := by
  have hsize : h.size p = n := hs.toHas.size_eq hlive
  have hresize := hs.resize hlive hlt
  have hmalloc := hs.malloc hlt
  unfold UserHeap.realloc
  rw [if_neg (hs.toHas.live_pos hlive), if_neg hpos, hsize]
  simp only
  generalize h.resize p size = r at hresize ⊢
  cases hresize with
  | done hroom hmoved => exact .block hroom hmoved
  | refused hlarger =>
    simp only [Bool.false_eq_true, if_false]
    generalize h.malloc size = r at hmalloc ⊢
    cases hmalloc with
    | null hsame herrno => exact .null hsame herrno
    | @block h' As' p' n' hroom hgained =>
      have hp' : p' ≠ 0 := hgained.sound.toHas.live_pos ((hgained.live p' n').mpr (.inl ⟨rfl, rfl⟩))
      obtain ⟨As'', hmoved⟩ := hgained.copied hlive (by omega)
      simp only [Option.bind_eq_bind, Option.bind_some, if_neg hp']
      exact .block hroom hmoved

end UserHeap

end NarcOs
