import NarcOs.Lib.Buffers
import NarcOs.Libc.Resize

/-!
# Runs of a program with its heap

The program calls the functions of the library, and loads and stores bytes of the
buffers that it owns, in any order. Its heap keeps the allocator's invariant, and what
it is answered is what a store of buffers may answer.
-/

namespace NarcOs

open Tiling

namespace UserHeap

variable {h h' : UserHeap} {As As' : List Arena} {A : Arena} {p p' q n k size : Nat} {tr : HeapTrace} {c : HeapCall}
  {a : HeapAnswer} {bs bs' : List UInt8}

def call (h : UserHeap) : HeapCall → Option (HeapAnswer × UserHeap)
  | .malloc size => (h.malloc size).map fun r => (.pointer r.1, r.2)
  | .calloc count size => (h.calloc count size).map fun r => (.pointer r.1, r.2)
  | .realloc pointer size => (h.realloc pointer size).map fun r => (.pointer r.1, r.2)
  | .free pointer => some (.done, h.free pointer)
  | .load pointer i => some (.byte (h.mem (pointer + i)), h)
  | .store pointer i byte => some (.done, h.setMem (h.mem.write (pointer + i) [byte]))

end UserHeap

inductive HeapRun : HeapTrace → UserHeap → Prop
  | start {h : UserHeap} (harenas : h.arenas = 0) (hregions : h.regions = []) : HeapRun [] h
  | call {tr : HeapTrace} {h h' : UserHeap} {c : HeapCall} {a : HeapAnswer} (hrun : HeapRun tr h)
    (hmay : MayCall (owned tr) c) (hcall : h.call c = some (a, h')) : HeapRun ((c, a) :: tr) h'

namespace UserHeap

variable {h h' : UserHeap} {As As' : List Arena} {A : Arena} {B B' : Buffers} {p p' q n k size : Nat} {tr : HeapTrace}
  {c : HeapCall} {a : HeapAnswer} {bs bs' : List UInt8}

structure Shows (h : UserHeap) (As : List Arena) (B : Buffers) : Prop where
  sound : h.Sound As
  live : ∀ {p bs}, B.get p = some bs → ∃ k, bs.length ≤ k ∧ Live As p k
  owned : ∀ {p k}, Live As p k → ∃ bs, B.get p = some bs
  bytes : ∀ {p bs}, B.get p = some bs → h.mem.read p bs.length = bs

theorem Shows.start (harenas : h.arenas = 0) (hregions : h.regions = []) : h.Shows [] Buffers.empty where
  sound :=
    { arenas := harenas
      linked := trivial
      regions := by rw [hregions]; exact List.Perm.nil
      apart := List.Pairwise.nil
      idle_le := Nat.zero_le 1 }
  live h := by cases h
  owned h := by
    obtain ⟨A, hA, -⟩ := h
    cases hA
  bytes h := by cases h

theorem Shows.same (hs : h.Shows As B) (hsame : Same h h') : h'.Shows As B :=
  ⟨hs.sound.same hsame, hs.live, hs.owned, fun hp => by rw [hsame.mem]; exact hs.bytes hp⟩

theorem Shows.none_iff (hs : h.Shows As B) : B.get p = none ↔ ∀ k, ¬ Live As p k := by
  constructor
  · intro hnone k hlive
    obtain ⟨bs, hsome⟩ := hs.owned hlive
    rw [hnone] at hsome
    cases hsome
  · intro hfresh
    cases hget : B.get p with
    | none => rfl
    | some bs =>
      obtain ⟨k, -, hlive⟩ := hs.live hget
      exact absurd hlive (hfresh k)

/-- The buffer at `p` is given up, and a block at `p'` becomes one. -/
theorem Shows.placed (hs : h.Shows As B) (hsound : h'.Sound As')
    (hlive : ∀ q k, Live As' q k ↔ (q = p' ∧ k = n) ∨ (q ≠ p ∧ Live As q k))
    (hintact : ∀ q k, q ≠ p → Live As q k → ∀ i < k, h'.mem (q + i) = h.mem (q + i)) (hle : bs.length ≤ n)
    (hread : h'.mem.read p' bs.length = bs) :
    ∃ hfits : (B.drop p).Fits p' bs, h'.Shows As' ((B.drop p).put p' bs hfits) := by
  have hnew : Live As' p' n := (hlive p' n).mpr (.inl ⟨rfl, rfl⟩)
  have hkeep : ∀ {q k}, q ≠ p → Live As q k → Live As' q k := fun {q k} hne hq => (hlive q k).mpr (.inr ⟨hne, hq⟩)
  have hfits : (B.drop p).Fits p' bs := by
    refine ⟨hsound.toHas.live_pos hnew, fun q cs hne hq => ?_⟩
    obtain ⟨hqp, hq⟩ := Buffers.get_drop.mp hq
    obtain ⟨k, hk, hq⟩ := hs.live hq
    have := hsound.toHas.live_apart hnew (hkeep hqp hq)
    omega
  have hcases : ∀ {q cs}, ((B.drop p).put p' bs hfits).get q = some cs →
      (q = p' ∧ cs = bs) ∨ (q ≠ p ∧ B.get q = some cs) := fun {q cs} hq => by
    by_cases hne : q = p'
    · rw [hne, Buffers.get_put_self] at hq
      cases hq
      exact .inl ⟨hne, rfl⟩
    · rw [Buffers.get_put_of_ne hfits hne, Buffers.get_drop] at hq
      exact .inr hq
  refine ⟨hfits, hsound, fun hq => ?_, fun {q k} hq => ?_, fun {q cs} hq => ?_⟩
  · rcases hcases hq with ⟨rfl, rfl⟩ | ⟨hqp, hq⟩
    · exact ⟨n, hle, hnew⟩
    · obtain ⟨k, hk, hq⟩ := hs.live hq
      exact ⟨k, hk, hkeep hqp hq⟩
  · by_cases hne : q = p'
    · exact ⟨bs, by rw [hne, Buffers.get_put_self]⟩
    · obtain ⟨hqp, hq⟩ := ((hlive q k).mp hq).resolve_left fun heq => hne heq.1
      rw [Buffers.get_put_of_ne hfits hne, Buffers.get_drop_of_ne hqp]
      exact hs.owned hq
  · rcases hcases hq with ⟨rfl, rfl⟩ | ⟨hqp, hq⟩
    · exact hread
    · obtain ⟨k, hk, hlive⟩ := hs.live hq
      rw [Mem.read_congr fun i hi => hintact q k hqp hlive i (by omega)]
      exact hs.bytes hq

theorem Shows.gained (hs : h.Shows As B) (hg : Gained h h' As As' p n) (hle : bs.length ≤ n)
    (hread : h'.mem.read p bs.length = bs) :
    ∃ hfits : B.Fits p bs, B.get p = none ∧ h'.Shows As' (B.put p bs hfits) := by
  have hplaced := hs.placed (p := 0) hg.sound (fun q k => ?_) (fun q k _ => hg.intact q k) hle hread
  · rw [B.drop_null] at hplaced
    obtain ⟨hfits, hshows⟩ := hplaced
    exact ⟨hfits, hs.none_iff.mpr hg.fresh, hshows⟩
  · rw [hg.live]
    refine or_congr_right ⟨fun hq => ⟨hs.sound.toHas.live_pos hq, hq⟩, And.right⟩

theorem Shows.lost (hs : h.Shows As B) (hl : Lost h h' As As' p) : h'.Shows As' (B.drop p) := by
  refine ⟨hl.sound, fun {q cs} hq => ?_, fun {q k} hq => ?_, fun {q cs} hq => ?_⟩
  · obtain ⟨hne, hq⟩ := Buffers.get_drop.mp hq
    obtain ⟨k, hk, hlive⟩ := hs.live hq
    exact ⟨k, hk, (hl.live q k).mpr ⟨hne, hlive⟩⟩
  · obtain ⟨hne, hlive⟩ := (hl.live q k).mp hq
    rw [Buffers.get_drop_of_ne hne]
    exact hs.owned hlive
  · obtain ⟨hne, hq⟩ := Buffers.get_drop.mp hq
    obtain ⟨k, hk, hlive⟩ := hs.live hq
    rw [Mem.read_congr fun i hi => hl.intact q k ((hl.live q k).mpr ⟨hne, hlive⟩) i (by omega)]
    exact hs.bytes hq

/-- A block that was resized or moved is a buffer with the bytes that it had. -/
theorem Shows.moved (hs : h.Shows As B) (hm : Moved h h' As As' p n p' k) (hp : B.get p = some bs)
    (hn : bs.length ≤ n) (hle : bs'.length ≤ k) (hread : h'.mem.read p' bs'.length = bs') :
    bs'.take bs.length = bs.take bs'.length ∧ (p' = p ∨ B.get p' = none) ∧
      ∃ hfits : (B.drop p).Fits p' bs', h'.Shows As' ((B.drop p).put p' bs' hfits) := by
  refine ⟨?_, hm.fresh.imp_right hs.none_iff.mpr, hs.placed hm.sound hm.live hm.intact hle hread⟩
  obtain ⟨-, hold⟩ := Mem.read_eq_iff.mp (hs.bytes hp)
  obtain ⟨-, hnew⟩ := Mem.read_eq_iff.mp hread
  refine List.ext_getElem? fun i => ?_
  rw [List.getElem?_take, List.getElem?_take]
  by_cases hi : i < bs.length <;> by_cases hi' : i < bs'.length
  · rw [if_pos hi, if_pos hi', hold i hi, hnew i hi', hm.kept i (by omega) (by omega)]
  · rw [if_pos hi, if_neg hi', List.getElem?_eq_none (not_lt.mp hi')]
  · rw [if_neg hi, if_pos hi', List.getElem?_eq_none (not_lt.mp hi)]
  · rw [if_neg hi, if_neg hi']

-- ---------------------------------------------------------------------------
-- A call
-- ---------------------------------------------------------------------------

def Served (h : UserHeap) (B : Buffers) (c : HeapCall) : Prop :=
  ∃ a h' As' B', h.call c = some (a, h') ∧ B.Step c a B' ∧ h'.Shows As' B'

theorem served_of_pointer {r : Option (Nat × UserHeap)} (hcall : h.call c = r.map fun r => (.pointer r.1, r.2))
    (hr : ∃ p h' As' B', r = some (p, h') ∧ B.Step c (.pointer p) B' ∧ h'.Shows As' B') : Served h B c := by
  obtain ⟨p, h', As', B', rfl, hstep, hshows⟩ := hr
  exact ⟨_, _, _, _, hcall, hstep, hshows⟩

theorem Shows.malloc (hs : h.Shows As B) (hlt : size < 2 ^ 64) :
    ∃ p h' As' B', h.malloc size = some (p, h') ∧ h'.Shows As' B' ∧
      (p = 0 ∧ B' = B ∨ ∃ bs : List UInt8, ∃ hfits, bs.length = size ∧ B.get p = none ∧ B' = B.put p bs hfits) := by
  have hmalloc := hs.sound.malloc hlt
  generalize h.malloc size = r at hmalloc ⊢
  cases hmalloc with
  | null hsame _ => exact ⟨_, _, _, _, rfl, hs.same hsame, .inl ⟨rfl, rfl⟩⟩
  | @block h' As' p n hroom hg =>
    have hlength : (h'.mem.read p size).length = size := Mem.length_read
    obtain ⟨hfits, hnew, hshows⟩ := hs.gained hg (hlength.trans_le hroom) (by rw [hlength])
    exact ⟨_, _, _, _, rfl, hshows, .inr ⟨_, hfits, hlength, hnew, rfl⟩⟩

theorem Shows.served_malloc (hs : h.Shows As B) (hlt : size < 2 ^ 64) : Served h B (.malloc size) := by
  obtain ⟨p, h', As', B', hcall, hshows, ⟨rfl, rfl⟩ | ⟨bs, hfits, rfl, hnew, rfl⟩⟩ := hs.malloc hlt
  · exact served_of_pointer rfl ⟨_, _, _, _, hcall, .mallocNull size, hshows⟩
  · exact served_of_pointer rfl ⟨_, _, _, _, hcall, .malloc hnew hfits, hshows⟩

theorem product_lt {count : Nat} (h : ¬ (size ≠ 0 ∧ count > sizeMax / size)) : count * size < 2 ^ 64 := by
  by_cases hzero : size = 0
  · rw [hzero, Nat.mul_zero]
    exact Nat.two_pow_pos 64
  · have hle : count ≤ sizeMax / size := not_lt.mp fun hlt => h ⟨hzero, hlt⟩
    have hmul := (Nat.le_div_iff_mul_le (Nat.pos_of_ne_zero hzero)).mp hle
    unfold sizeMax at hmul
    omega

theorem Shows.served_calloc (hs : h.Shows As B) (count size : Nat) : Served h B (.calloc count size) := by
  refine served_of_pointer rfl ?_
  unfold UserHeap.calloc
  simp only
  by_cases hlarge : size ≠ 0 ∧ count > sizeMax / size
  · rw [if_pos hlarge]
    exact ⟨_, _, _, _, rfl, .callocNull count size, hs.same ⟨rfl, rfl, rfl⟩⟩
  rw [if_neg hlarge, wrapSize_eq (product_lt hlarge)]
  have hmalloc := hs.sound.malloc (product_lt hlarge)
  generalize h.malloc (count * size) = r at hmalloc ⊢
  cases hmalloc with
  | null hsame _ => exact ⟨_, _, _, _, rfl, .callocNull count size, hs.same hsame⟩
  | @block h' As' p n hroom hg =>
    have hp : p ≠ 0 := hg.sound.toHas.live_pos ((hg.live p n).mpr (.inl ⟨rfl, rfl⟩))
    have hfilled : Gained h (h'.setMem (h'.mem.memset p 0 (count * size))) As As' p n :=
      hg.filled fun z hz => Mem.memset_apply_outside (by omega)
    have hlength : (List.replicate (count * size) (0 : UInt8)).length = count * size := List.length_replicate
    obtain ⟨hfits, hnew, hshows⟩ := hs.gained hfilled (hlength.trans_le hroom) (by
      rw [hlength]
      exact Mem.read_eq_iff.mpr ⟨hlength, fun i hi => by
        show _ = some (h'.mem.memset p 0 (count * size) (p + i))
        rw [Mem.memset_apply_inside hi, List.getElem?_replicate_of_lt hi]⟩)
    refine ⟨_, _, _, _, if_pos hp, .calloc hnew hfits, hshows⟩

theorem Shows.served_realloc (hs : h.Shows As B) (hp : p = 0 ∨ (B.get p).isSome = true) (hlt : size < 2 ^ 64) :
    Served h B (.realloc p size) := by
  refine served_of_pointer rfl ?_
  by_cases hnull : p = 0
  · obtain ⟨p', h', As', B', hcall, hshows, hstep⟩ := hs.malloc hlt
    have hrealloc : h.realloc p size = some (p', h') := (if_pos hnull).trans hcall
    rw [hrealloc, hnull]
    rcases hstep with ⟨rfl, rfl⟩ | ⟨bs, hfits, rfl, hnew, rfl⟩
    · exact ⟨_, _, _, _, rfl, .reallocNull (.inl rfl), hshows⟩
    · exact ⟨_, _, _, _, rfl, .reallocNew hnew hfits, hshows⟩
  obtain ⟨bs, hold⟩ := Option.isSome_iff_exists.mp (hp.resolve_left hnull)
  obtain ⟨n, hn, hlive⟩ := hs.live hold
  by_cases hzero : size = 0
  · obtain ⟨As', hlost⟩ := hs.sound.free hlive
    have hrealloc : h.realloc p size = some (0, h.free p) := (if_neg hnull).trans (if_pos hzero)
    rw [hrealloc, hzero]
    exact ⟨_, _, _, _, rfl, .reallocFree hold, hs.lost hlost⟩
  have hrealloc := hs.sound.realloc hlive hzero hlt
  generalize h.realloc p size = r at hrealloc ⊢
  cases hrealloc with
  | null hsame _ => exact ⟨_, _, _, _, rfl, .reallocNull (.inr hzero), hs.same hsame⟩
  | @block h' As' p' n' hroom hm =>
    have hlength : (h'.mem.read p' size).length = size := Mem.length_read
    obtain ⟨hkept, hfresh, hfits, hshows⟩ := hs.moved hm hold hn (hlength.trans_le hroom) (by rw [hlength])
    have hstep := Buffers.Step.realloc hold (hlength.trans_ne hzero) hfresh hkept hfits
    rw [hlength] at hstep
    exact ⟨_, _, _, _, rfl, hstep, hshows⟩

theorem Shows.served_free (hs : h.Shows As B) (hp : p = 0 ∨ (B.get p).isSome = true) : Served h B (.free p) := by
  by_cases hnull : p = 0
  · subst hnull
    exact ⟨.done, h, As, B, rfl, .freeNull, hs⟩
  · obtain ⟨bs, hold⟩ := Option.isSome_iff_exists.mp (hp.resolve_left hnull)
    obtain ⟨n, -, hlive⟩ := hs.live hold
    obtain ⟨As', hlost⟩ := hs.sound.free hlive
    exact ⟨.done, h.free p, As', _, rfl, .free hold, hs.lost hlost⟩

theorem Shows.served_load (hs : h.Shows As B) {i : Nat} (hold : B.get p = some bs) (hi : i < bs.length) :
    Served h B (.load p i) := by
  obtain ⟨-, hbytes⟩ := Mem.read_eq_iff.mp (hs.bytes hold)
  exact ⟨_, h, As, B, rfl, .load hold (hbytes i hi), hs⟩

theorem Shows.served_store (hs : h.Shows As B) {i : Nat} (b : UInt8) (hold : B.get p = some bs) (hi : i < bs.length) :
    Served h B (.store p i b) := by
  obtain ⟨n, hn, hlive⟩ := hs.live hold
  obtain ⟨-, hbytes⟩ := Mem.read_eq_iff.mp (hs.bytes hold)
  have houtside : ∀ z, z ≠ p + i → h.mem.write (p + i) [b] z = h.mem z := fun z hz =>
    Mem.write_apply_outside (by
      rw [List.length_singleton]
      omega)
  have hsound : (h.setMem (h.mem.write (p + i) [b])).Sound As := hs.sound.store hlive fun z hz => houtside z (by omega)
  have hapart : ∀ q k, Live As q k → (q = p ∧ k = n) ∨ q + k + 48 ≤ p ∨ p + n + 48 ≤ q := fun q k hq =>
    hs.sound.toHas.live_apart hq hlive
  have hread : (h.mem.write (p + i) [b]).read p (bs.set i b).length = bs.set i b := by
    refine Mem.read_eq_iff.mpr ⟨rfl, fun j hj => ?_⟩
    rw [List.length_set] at hj
    rw [List.getElem?_set]
    by_cases hij : i = j
    · subst hij
      rw [if_pos rfl, if_pos hj]
      exact congrArg some (Mem.write_apply_inside (show 0 < [b].length from Nat.one_pos)).symm
    · rw [if_neg hij, hbytes j hj, houtside (p + j) (by omega)]
  have hlive' : ∀ q k, Live As q k ↔ (q = p ∧ k = n) ∨ (q ≠ p ∧ Live As q k) := fun q k => by
    constructor
    · intro hq
      rcases hapart q k hq with heq | hlt
      · exact .inl heq
      · exact .inr ⟨by omega, hq⟩
    · rintro (⟨rfl, rfl⟩ | ⟨-, hq⟩)
      · exact hlive
      · exact hq
  have hintact : ∀ q k, q ≠ p → Live As q k → ∀ j < k, h.mem.write (p + i) [b] (q + j) = h.mem (q + j) :=
    fun q k hne hq j hj => by
      have := hapart q k hq
      exact houtside _ (by omega)
  obtain ⟨hfits, hshows⟩ := hs.placed hsound hlive' hintact ((List.length_set).trans_le hn) hread
  rw [Buffers.put_drop] at hshows
  exact ⟨.done, _, As, _, rfl, .store hold (Buffers.fits_drop.mp hfits), hshows⟩

theorem Shows.served (hs : h.Shows As B) (hmay : MayCall B.sizes c) : Served h B c := by
  have hsome : ∀ {p}, (B.sizes p).isSome = true → (B.get p).isSome = true := fun hp => by
    rwa [Buffers.sizes, Option.isSome_map] at hp
  cases c with
  | malloc size => exact hs.served_malloc hmay
  | calloc count size => exact hs.served_calloc count size
  | realloc p size => exact hs.served_realloc (hmay.1.imp_right hsome) hmay.2
  | free p => exact hs.served_free (hmay.imp_right hsome)
  | load p i =>
    obtain ⟨n, hn, hi⟩ := hmay
    obtain ⟨bs, hold, rfl⟩ := Option.map_eq_some_iff.mp hn
    exact hs.served_load hold hi
  | store p i b =>
    obtain ⟨n, hn, hi⟩ := hmay
    obtain ⟨bs, hold, rfl⟩ := Option.map_eq_some_iff.mp hn
    exact hs.served_store b hold hi

end UserHeap

-- ---------------------------------------------------------------------------
-- Runs
-- ---------------------------------------------------------------------------

open UserHeap

variable {h h' : UserHeap} {As As' : List Arena} {A : Arena} {B B' : Buffers} {p q n k : Nat} {tr : HeapTrace}
  {c : HeapCall} {a : HeapAnswer} {bs : List UInt8}

theorem HeapRun.shows (hrun : HeapRun tr h) : ∃ As B, B.Run tr ∧ h.Shows As B := by
  induction hrun with
  | start harenas hregions => exact ⟨[], _, .start, .start harenas hregions⟩
  | @call tr h h' c a _ hmay hcall ih =>
    obtain ⟨As, B, hB, hs⟩ := ih
    rw [hB.sizes] at hmay
    obtain ⟨a', h'', As', B', hcall', hstep, hs'⟩ := hs.served hmay
    rw [hcall] at hcall'
    cases hcall'
    exact ⟨As', B', .call hB hstep, hs'⟩

theorem endOf_dvd {x : Nat} {bs : List Block} (hx : 16 ∣ x) (hbs : Aligned bs) : 16 ∣ endOf 48 x bs := by
  induction bs generalizing x with
  | nil => exact hx
  | cons b bs ih =>
    have hb := hbs b List.mem_cons_self
    exact ih (Nat.dvd_add (Nat.dvd_add hx (by decide)) hb) fun c hc => hbs c (List.mem_cons_of_mem b hc)

theorem UserHeap.Has.live_aligned (hh : h.Has As) (hlive : Live As p k) : 16 ∣ p := by
  obtain ⟨A, hA, x, rfl, hat⟩ := hlive
  obtain ⟨_, _, hok⟩ := hh.ok_of_mem hA
  obtain ⟨pre, post, hblocks, rfl⟩ := at_iff.mp hat
  have hbase : 16 ∣ A.base := (by decide : 16 ∣ mapPageSize).trans hok.page
  have hpre : Aligned pre := fun b hb => hok.aligned b (by simp [hblocks, hb])
  exact Nat.dvd_add (endOf_dvd (Nat.dvd_add hbase (by decide)) hpre) (by decide)

theorem UserHeap.Has.live_header (hh : h.Has As) (hlive : Live As p k) (hA : A ∈ As) :
    p + k ≤ A.base ∨ A.base + 32 ≤ p := by
  obtain ⟨C, hC, hl, hr⟩ := hh.live_inside hlive
  obtain ⟨_, _, hok⟩ := hh.ok_of_mem hA
  have hbounds := hok.bounds
  obtain ⟨Pre, Post, rfl⟩ := List.append_of_mem hA
  have hother : C ∈ Pre ++ Post → p + k ≤ A.base ∨ A.base + 32 ≤ p := fun hC => by
    have := hh.separate hC
    omega
  rcases List.mem_append.mp hC with hC | hC
  · exact hother (List.mem_append_left Post hC)
  rcases List.mem_cons.mp hC with rfl | hC
  · exact .inr (by omega)
  · exact hother (List.mem_append_right Pre hC)

theorem UserHeap.Sound.length_le (hs : h.Sound As) (hnone : ∀ p k, ¬ Live As p k) : h.regions.length ≤ 1 := by
  have hidle : idle As = As.length := by
    refine List.countP_eq_length.mpr fun A hA => decide_eq_true ?_
    by_contra hused
    obtain ⟨b, hb, hfree⟩ := List.countP_pos_iff.mp (Nat.pos_of_ne_zero hused)
    obtain ⟨pre, post, hblocks⟩ := List.append_of_mem hb
    have hused : b = ⟨b.size, false⟩ := by
      obtain ⟨size, free⟩ := b
      rw [Bool.not_eq_true'] at hfree
      simp only at hfree
      rw [hfree]
    exact hnone _ b.size ⟨A, hA, _, rfl, at_iff.mpr ⟨pre, post, by rw [← hused]; exact hblocks, rfl⟩⟩
  rw [hs.regions.length_eq, List.length_map, ← hidle]
  exact hs.idle_le

/-- What the heap of a program is like between its calls: the allocator's invariant holds,
the live blocks are those that the program owns, aligned and with the room that it asked
for, none of them meets another block or a header, and a heap with nothing in use holds
one region at most. No call fails to return. -/
structure HeapKept (tr : HeapTrace) (h : UserHeap) (As : List Arena) : Prop where
  sound : h.Sound As
  room : ∀ p n, owned tr p = some n → ∃ k, n ≤ k ∧ Live As p k
  owned : ∀ p k, Live As p k → ∃ n, owned tr p = some n
  aligned : ∀ p k, Live As p k → maxAlign ∣ p
  blocks : ∀ p k, Live As p k → ∀ A ∈ As, ∀ x b, At sizeofBlock (firstBlock A.base) A.blocks x b →
    p = x + sizeofBlock ∧ k = b.size ∨ p + k ≤ x ∨ x + sizeofBlock + b.size ≤ p
  headers : ∀ p k, Live As p k → ∀ A ∈ As, p + k ≤ A.base ∨ A.base + sizeofArena ≤ p
  unmapped : (∀ p, NarcOs.owned tr p = none) → h.regions.length ≤ 1
  returns : ∀ c, MayCall (NarcOs.owned tr) c → (h.call c).isSome = true

theorem HeapRun.heap_kept (hrun : HeapRun tr h) : ∃ As, HeapKept tr h As := by
  obtain ⟨As, B, hB, hs⟩ := hrun.shows
  have hhas := hs.sound.toHas
  refine ⟨As, hs.sound, fun p n hp => ?_, fun p k hlive => ?_, fun p k hlive => hhas.live_aligned hlive,
    fun p k hlive A hA x b hb => ?_, fun p k hlive A hA => ?_, fun hnone => hs.sound.length_le fun p k hlive => ?_,
    fun c hmay => ?_⟩
  · rw [hB.sizes] at hp
    obtain ⟨bs, hget, rfl⟩ := Option.map_eq_some_iff.mp hp
    exact hs.live hget
  · obtain ⟨bs, hp⟩ := hs.owned hlive
    exact ⟨bs.length, by rw [hB.sizes, Buffers.sizes_eq hp]⟩
  · obtain ⟨C, hC, y, rfl, hat⟩ := hlive
    have hapart := hhas.blocks_apart hC hat hA hb
    unfold sizeofBlock
    rcases hapart with ⟨rfl, rfl⟩ | hapart | hapart
    · exact .inl ⟨rfl, rfl⟩
    · exact .inr (.inl hapart)
    · exact .inr (.inr (by omega))
  · exact hhas.live_header hlive hA
  · obtain ⟨bs, hp⟩ := hs.owned hlive
    have hsome := Buffers.sizes_eq hp
    rw [← hB.sizes, hnone] at hsome
    cases hsome
  · rw [hB.sizes] at hmay
    obtain ⟨a, h', -, -, hcall, -⟩ := hs.served hmay
    rw [hcall]
    rfl

theorem HeapRun.refines_buffers (hrun : HeapRun tr h) :
    ∃ B : Buffers, B.Run tr ∧ B.sizes = owned tr ∧ ∀ p bs, B.get p = some bs → h.mem.read p bs.length = bs := by
  obtain ⟨As, B, hB, hs⟩ := hrun.shows
  exact ⟨B, hB, hB.sizes.symm, fun p bs hp => hs.bytes hp⟩

/-- `realloc` of a live block. -/
theorem UserHeap.Sound.realloc_keeps (hs : h.Sound As) {size : Nat} (hlive : Live As p n) (hpos : 0 < size)
    (hlt : size < 2 ^ 64) :
    ∃ p' h', h.realloc p size = some (p', h') ∧
      (p' = 0 → h'.mem = h.mem ∧ h'.Sound As ∧ h'.errno = enomem) ∧
      (p' ≠ 0 → ∃ As' n', h'.Sound As' ∧ Live As' p' n' ∧ size ≤ n' ∧
        (∀ i < min n n', h'.mem (p' + i) = h.mem (p + i)) ∧
        (∀ q k, Live As' q k ↔ (q = p' ∧ k = n') ∨ (q ≠ p ∧ Live As q k)) ∧
        ∀ q k, Live As q k → q ≠ p → ∀ i < k, h'.mem (q + i) = h.mem (q + i)) := by
  have hrealloc := hs.realloc hlive hpos.ne' hlt
  generalize h.realloc p size = r at hrealloc ⊢
  cases hrealloc with
  | @null h' hsame herrno =>
    exact ⟨0, h', rfl, fun _ => ⟨hsame.mem, hs.same hsame, herrno⟩, fun hne => absurd rfl hne⟩
  | @block h' As' p' n' hroom hm =>
    have hnew : Live As' p' n' := (hm.live p' n').mpr (.inl ⟨rfl, rfl⟩)
    refine ⟨p', h', rfl, fun hnull => absurd hnull (hm.sound.toHas.live_pos hnew), fun _ => ⟨As', n', hm.sound, hnew, hroom,
      fun i hi => hm.kept i ?_ ?_, hm.live, fun q k hq hne => hm.intact q k hne hq⟩⟩
    · exact lt_of_lt_of_le hi (Nat.min_le_left n n')
    · exact lt_of_lt_of_le hi (Nat.min_le_right n n')

-- ---------------------------------------------------------------------------
-- A buffer that is moved
-- ---------------------------------------------------------------------------

def UserHeap.after (h : UserHeap) (c : HeapCall) : UserHeap := ((h.call c).getD (.done, h)).2

theorem HeapRun.after (hrun : HeapRun tr h) (hmay : MayCall (owned tr) c) (hcall : (h.call c).map Prod.fst = some a) :
    HeapRun ((c, a) :: tr) (h.after c) := by
  obtain ⟨r, hr, rfl⟩ := Option.map_eq_some_iff.mp hcall
  refine .call hrun hmay ?_
  unfold UserHeap.after
  rw [hr]
  rfl

def emptyHeap : UserHeap where
  mem _ := 0
  arenas := 0
  errno := 0
  regions := []
  answers := [some 65536]

def twoBuffers : UserHeap := ((emptyHeap.after (.malloc 10)).after (.store 65616 3 7)).after (.malloc 100)

def twoCalls : HeapTrace :=
  [(.malloc 100, .pointer 65680), (.store 65616 3 7, .done), (.malloc 10, .pointer 65616)]

theorem twoBuffers_run : HeapRun twoCalls twoBuffers := by
  have hfirst : HeapRun [(.malloc 10, .pointer 65616)] (emptyHeap.after (.malloc 10)) :=
    (HeapRun.start rfl rfl).after (by decide : 10 < 2 ^ 64) (by decide +kernel)
  have hstore := hfirst.after (c := .store 65616 3 7) (a := .done) ⟨10, rfl, by decide⟩ (by decide +kernel)
  exact hstore.after (by decide : 100 < 2 ^ 64) (by decide +kernel)

theorem movedBuffer_run : HeapRun ((.realloc 65616 40, .pointer 65840) :: twoCalls) (twoBuffers.after (.realloc 65616 40)) :=
  twoBuffers_run.after ⟨.inr rfl, by decide⟩ (by decide +kernel)

theorem HeapRun.heap_kept_moved :
    ∃ As, HeapKept ((.realloc 65616 40, .pointer 65840) :: twoCalls) (twoBuffers.after (.realloc 65616 40)) As :=
  HeapRun.heap_kept movedBuffer_run

theorem HeapRun.refines_buffers_moved :
    ∃ B : Buffers, B.Run ((.realloc 65616 40, .pointer 65840) :: twoCalls) ∧
      B.sizes = owned ((.realloc 65616 40, .pointer 65840) :: twoCalls) ∧
      ∀ p bs, B.get p = some bs → (twoBuffers.after (.realloc 65616 40)).mem.read p bs.length = bs :=
  HeapRun.refines_buffers movedBuffer_run

theorem UserHeap.Sound.realloc_keeps_moved :
    ∃ As n, 10 ≤ n ∧ Live As 65616 n ∧ ∃ p' h', twoBuffers.realloc 65616 40 = some (p', h') ∧
      (p' = 0 → h'.mem = twoBuffers.mem ∧ h'.Sound As ∧ h'.errno = enomem) ∧
      (p' ≠ 0 → ∃ As' n', h'.Sound As' ∧ Live As' p' n' ∧ 40 ≤ n' ∧
        (∀ i < min n n', h'.mem (p' + i) = twoBuffers.mem (65616 + i)) ∧
        (∀ q k, Live As' q k ↔ (q = p' ∧ k = n') ∨ (q ≠ 65616 ∧ Live As q k)) ∧
        ∀ q k, Live As q k → q ≠ 65616 → ∀ i < k, h'.mem (q + i) = twoBuffers.mem (q + i)) := by
  obtain ⟨As, B, hB, hs⟩ := twoBuffers_run.shows
  have hsize : B.sizes 65616 = some 10 := by
    rw [← hB.sizes]
    rfl
  obtain ⟨bs, hget, hlength⟩ := Option.map_eq_some_iff.mp hsize
  obtain ⟨n, hn, hlive⟩ := hs.live hget
  exact ⟨As, n, by omega, hlive, UserHeap.Sound.realloc_keeps hs.sound hlive (by decide) (by decide)⟩

end NarcOs
