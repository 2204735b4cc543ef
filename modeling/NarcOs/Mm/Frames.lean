import NarcOs.Mm.PmmLaws
import NarcOs.Mm.Vmm

/-!
# Writes to frames

What an operation leaves alone is said in frames: of all frames, only those of
a given multiset were written.
-/

namespace NarcOs

/-- Of all frames, only those of `S` were written. -/
def Mem.Within (S : Multiset Nat) (m m' : Mem) : Prop :=
  ∀ f, IsFrame f → f ∉ S → ∀ x < 4096, m' (f + x) = m (f + x)

variable {S T A : Multiset Nat} {m m' m'' : Mem} {p : Phys} {a b i v : Nat}

theorem Phys.setEntry_outside {f pt i v : Nat} (hf : IsFrame f) (hpt : IsFrame pt) (hne : f ≠ pt)
    (hi : i < 512) {x : Nat} (hx : x < 4096) : (p.setEntry pt i v).mem (f + x) = p.mem (f + x) := by
  have := hf.disjoint hpt hne
  exact Mem.store64_apply_outside (by omega)

theorem Phys.entry_setEntry_self {pt i v : Nat} (hv : v < 2 ^ 64) : (p.setEntry pt i v).entry pt i = v := by
  rw [Phys.entry, Phys.setEntry, Mem.load64_store64, Nat.mod_eq_of_lt hv]

theorem Phys.entry_setEntry_of_ne {pt i j v : Nat} (h : j ≠ i) :
    (p.setEntry pt i v).entry pt j = p.entry pt j :=
  Mem.load64_store64_of_disjoint (by omega)

theorem Mem.Within.refl (S : Multiset Nat) (m : Mem) : Mem.Within S m m := fun _ _ _ _ _ => rfl

theorem Mem.Within.mono (h : Mem.Within S m m') (hs : S ⊆ T) : Mem.Within T m m' :=
  fun f hf hn => h f hf fun hm => hn (hs hm)

theorem Mem.Within.trans (h : Mem.Within S m m') (h' : Mem.Within S m' m'') :
    Mem.Within S m m'' :=
  fun f hf hn x hx => (h' f hf hn x hx).trans (h f hf hn x hx)

def Mem.OnlyIn (S : Multiset Nat) (m m' : Mem) : Prop := ∀ x, (∀ f ∈ S, x < f ∨ f + 4096 ≤ x) → m' x = m x

theorem Mem.OnlyIn.within (h : Mem.OnlyIn S m m') (hS : ∀ f ∈ S, IsFrame f) : Mem.Within S m m' := by
  intro f hf hn x hx
  refine h _ fun g hg => ?_
  have := hf.disjoint (hS g hg) fun e => hn (e ▸ hg)
  omega

theorem Mem.within_memset (ha : IsFrame a) (hs : a ∈ S) (byte : UInt8) :
    Mem.Within S m (m.memset a byte 4096) := by
  intro f hf hn x hx
  have := hf.disjoint ha fun e => hn (e ▸ hs)
  exact Mem.memset_apply_outside (by omega)

theorem Mem.within_write (ha : IsFrame a) (hs : a ∈ S) {x : Nat} {bs : List UInt8}
    (hb : x + bs.length ≤ 4096) : Mem.Within S m (m.write (a + x) bs) := by
  intro f hf hn y hy
  have := hf.disjoint ha fun e => hn (e ▸ hs)
  exact Mem.write_apply_outside (by omega)

theorem Phys.within_setEntry (ha : IsFrame a) (hs : a ∈ S) (hi : i < 512) :
    Mem.Within S p.mem (p.setEntry a i v).mem :=
  fun _ hf hn _ hx => Phys.setEntry_outside hf ha (fun e => hn (e ▸ hs)) hi hx

theorem Phys.within_pmmFreePage (ha : IsFrame a) (hs : a ∈ S) :
    Mem.Within S p.mem (p.pmmFreePage a).mem := by
  intro f hf hn x hx
  have := hf.disjoint ha fun e => hn (e ▸ hs)
  exact Phys.pmmFreePage_mem_outside (by omega)

theorem Phys.Avail.within {p' : Phys} (h : p.Avail A) (hm : Mem.Within S p.mem p'.mem)
    (hd : ∀ f ∈ A, f ∉ S) (hp : p' = { p with mem := p'.mem }) : p'.Avail A := by
  rw [hp]
  exact h.setMem fun f hf x hx => hm f (h.isFrame hf) (hd f hf) x hx

theorem load64_within (hm : Mem.Within S m m') (ha : IsFrame a) (hn : a ∉ S) {j : Nat}
    (hj : j < 512) : m'.load64 (a + 8 * j) = m.load64 (a + 8 * j) := by
  refine Mem.load64_congr fun x hx => ?_
  rw [Nat.add_assoc]
  exact hm a ha hn _ (by omega)

end NarcOs
