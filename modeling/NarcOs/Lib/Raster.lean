import NarcOs.Lib.Memory

/-!
# Pixels in a linear buffer

A picture in memory: rows of `pitch` bytes, of which a pixel takes `depth`. Pixels
of a picture that is no wider than its rows do not overlap, so a write of one
leaves the others alone. `foldlM_range` is the rule for a counted loop that may stop.
-/

namespace NarcOs

theorem foldlM_range {σ : Type*} {f : σ → Nat → Option σ} {P : Nat → σ → Prop} {n : Nat} {s : σ} (h : P 0 s)
    (hstep : ∀ i < n, ∀ s, P i s → ∃ t, f s i = some t ∧ P (i + 1) t) :
    ∃ t, (List.range n).foldlM f s = some t ∧ P n t := by
  induction n with
  | zero => exact ⟨s, rfl, h⟩
  | succ n ih =>
    obtain ⟨t, ht, hP⟩ := ih fun i hi => hstep i (Nat.lt_succ_of_lt hi)
    obtain ⟨u, hu, hP'⟩ := hstep n (Nat.lt_succ_self n) t hP
    refine ⟨u, ?_, hP'⟩
    rw [List.range_succ, List.foldlM_append, ht]
    simpa using hu

namespace Mem

variable {m m' : Mem} {pitch depth width height x y x' y' : Nat} {bs : List UInt8}

def pixel (m : Mem) (pitch depth x y : Nat) : List UInt8 := m.read (y * pitch + x * depth) depth

theorem row_le (hx : x < width) (hpitch : width * depth ≤ pitch) : x * depth + depth ≤ pitch := by
  have h : (x + 1) * depth ≤ width * depth := Nat.mul_le_mul_right depth hx
  rw [Nat.succ_mul] at h
  exact h.trans hpitch

theorem pixel_inside (hx : x < width) (hy : y < height) (hpitch : width * depth ≤ pitch) :
    y * pitch + x * depth + depth ≤ height * pitch := by
  have hrow := row_le hx hpitch
  have h : (y + 1) * pitch ≤ height * pitch := Nat.mul_le_mul_right pitch hy
  rw [Nat.succ_mul] at h
  omega

theorem pixel_write_self (h : bs.length = depth) :
    (m.write (y * pitch + x * depth) bs).pixel pitch depth x y = bs := by
  subst h
  exact read_write m _ bs

theorem pixel_write_other (h : bs.length = depth) (hpitch : width * depth ≤ pitch) (hx : x < width)
    (hx' : x' < width) (hne : ¬ (x' = x ∧ y' = y)) :
    (m.write (y * pitch + x * depth) bs).pixel pitch depth x' y' = m.pixel pitch depth x' y' := by
  have hrow := row_le hx hpitch
  have hrow' := row_le hx' hpitch
  refine read_congr fun i hi => write_apply_outside ?_
  rw [h]
  rcases Nat.lt_trichotomy y' y with hlt | rfl | hgt
  · have hrows : (y' + 1) * pitch ≤ y * pitch := Nat.mul_le_mul_right pitch hlt
    rw [Nat.succ_mul] at hrows
    omega
  · rcases Nat.lt_trichotomy x' x with hlt | rfl | hgt
    · have hcols : (x' + 1) * depth ≤ x * depth := Nat.mul_le_mul_right depth hlt
      rw [Nat.succ_mul] at hcols
      omega
    · exact absurd ⟨rfl, rfl⟩ hne
    · have hcols : (x + 1) * depth ≤ x' * depth := Nat.mul_le_mul_right depth hgt
      rw [Nat.succ_mul] at hcols
      omega
  · have hrows : (y + 1) * pitch ≤ y' * pitch := Nat.mul_le_mul_right pitch hgt
    rw [Nat.succ_mul] at hrows
    omega

theorem pixel_shift {rows k : Nat} (h : ∀ j < rows * pitch, m' j = m (j + k * pitch)) (hpitch : width * depth ≤ pitch)
    (hx : x < width) (hy : y < rows) : m'.pixel pitch depth x y = m.pixel pitch depth x (y + k) := by
  have hin := pixel_inside hx hy hpitch
  unfold pixel read
  refine List.map_congr_left fun i hi => ?_
  have hi' := List.mem_range.mp hi
  rw [h _ (by omega), Nat.add_mul]
  congr 1
  omega

end Mem

end NarcOs
