import NarcOs.Fs.InitLaws

/-!
# Opens that fail

`vfs_open` makes a missing file before it looks at the rest of the flags. When
it then refuses the file that it made, the file stays; every other failed open
leaves the file system as it was.
-/

namespace NarcOs

namespace Vfs

variable {s : Vfs} {path : CString} {flags : OpenFlags}

structure Untouched (t s : Vfs) : Prop where
  live : t.live = s.live
  root : t.root = s.root
  node : t.node = s.node
  phys : t.phys = s.phys
  tarData : t.tarData = s.tarData

theorem Untouched.refl (s : Vfs) : s.Untouched s := ⟨rfl, rfl, rfl, rfl, rfl⟩

def FailsClean (s : Vfs) (path : CString) (flags : OpenFlags) : Prop :=
  (s.vfsOpen path flags).1 ≠ .ok → (s.vfsOpen path flags).2.2.Untouched s

def HasRoom (s : Vfs) : Prop := s.kmalloc.1.isSome ∧ s.kmalloc.2.kmalloc.1.isSome

/-- A missing file is asked for, to be created and to be a directory. -/
def MakesForDirectory (s : Vfs) (path : CString) (flags : OpenFlags) : Prop :=
  s.lookup path.bytes = .error .notFound ∧ flags.create = true ∧ flags.directory = true ∧
    (∃ parent name, s.lookupParent path.bytes = .ok (parent, name)) ∧ s.HasRoom

theorem newNode_room (d : Ptr) (name : List UInt8) (type : VType) (mode : Nat) :
    (s.newNode d name type mode).1.isSome ↔ s.HasRoom := by
  unfold newNode HasRoom
  split
  · rename_i hk
    simp [hk]
  · rename_i n t hk
    rw [hk]
    simp only [Option.isSome_some, true_and]
    split
    · rename_i hk'
      simp [hk']
    · rename_i hk'
      simp [hk']

theorem openNode_failed {n : Ptr} (h : (s.openNode n flags).1 ≠ .ok) : (s.openNode n flags).2.2 = s := by
  unfold openNode at h ⊢
  split
  · rfl
  split
  · rfl
  · rename_i hd hw
    rw [if_neg hd, if_neg hw] at h
    exact absurd rfl h

/-- The file that a creating open makes is refused exactly when a directory was
asked for. -/
theorem openNode_reg_ok {n : Ptr} (h : (s.node n).type = .reg) :
    (s.openNode n flags).1 = .ok ↔ flags.directory = false := by
  unfold openNode
  cases hd : flags.directory <;> simp [h]

theorem newNode_type {n : Ptr} {d : Ptr} {name : List UInt8} {type : VType} {mode : Nat} {t : Vfs}
    (h : s.newNode d name type mode = (some n, t)) : (t.node n).type = type ∧ n ∈ t.live ∧ n ∉ s.live := by
  obtain ⟨heap, hn | ⟨m, hm, hn⟩⟩ := newNode_cases s d name type mode
  · rw [hn] at h
    cases h
  · rw [hn] at h
    cases h
    refine ⟨?_, ?_, hm⟩
    · rw [(attach_data _ d n n).type, withNode_self]
    · rw [(attach_rest _ d n).live]
      exact Finset.mem_insert_self _ _

theorem newNode_none {d : Ptr} {name : List UInt8} {type : VType} {mode : Nat} {t : Vfs}
    (h : s.newNode d name type mode = (none, t)) : t.Untouched s := by
  obtain ⟨heap, hn | ⟨m, -, hn⟩⟩ := newNode_cases s d name type mode
  · rw [hn] at h
    cases h
    exact ⟨rfl, rfl, rfl, rfl, rfl⟩
  · rw [hn] at h
    cases h

theorem vfsOpen_failsClean_iff (s : Vfs) (path : CString) (flags : OpenFlags) :
    s.FailsClean path flags ↔ ¬ s.MakesForDirectory path flags := by
  unfold FailsClean MakesForDirectory
  cases hl : s.lookup path.bytes with
  | ok n =>
    refine ⟨fun _ h => (nomatch h.1), fun _ hne => ?_⟩
    simp only [vfsOpen, hl] at hne ⊢
    split
    · exact .refl s
    · rename_i hx
      rw [if_neg hx] at hne
      rw [openNode_failed hne]
      exact .refl s
  | error status =>
    by_cases hc : status = .notFound ∧ flags.create = true
    · obtain ⟨rfl, hc⟩ := hc
      cases hp : s.lookupParent path.bytes with
      | error status' =>
        refine ⟨fun _ h => (nomatch h.2.2.2.1.choose_spec.choose_spec), fun _ _ => ?_⟩
        simp only [vfsOpen, hl, hc, and_self, if_true, hp]
        exact .refl s
      | ok where_ =>
        obtain ⟨parent, name⟩ := where_
        have hroom := newNode_room (s := s) parent name .reg (sIfreg ||| 0o666)
        simp only [vfsOpen, hl, hc, and_self, if_true, hp, true_and]
        cases hn : s.newNode parent name .reg (sIfreg ||| 0o666) with
        | mk made t =>
          rw [hn] at hroom
          cases made with
          | none =>
            refine ⟨fun _ h => by simpa using hroom.mpr h.2.2, fun _ _ => ?_⟩
            exact newNode_none hn
          | some n =>
            obtain ⟨htype, hlive, hfresh⟩ := newNode_type hn
            have hok : (t.openNode n flags).1 = .ok ↔ flags.directory = false := openNode_reg_ok htype
            cases hd : flags.directory with
            | false => exact ⟨fun _ h => (nomatch h.1), fun _ hne => absurd (hok.mpr hd) hne⟩
            | true =>
              have hne : (t.openNode n flags).1 ≠ .ok := fun h => by
                rw [hok.mp h] at hd
                cases hd
              refine ⟨fun h => absurd ?_ hfresh, fun h => absurd ?_ h⟩
              · rw [← (h hne).live, openNode_failed hne]
                exact hlive
              · exact ⟨rfl, ⟨_, _, rfl⟩, hroom.mp rfl⟩
    · refine ⟨fun _ h => hc ⟨Except.error.inj h.1, h.2.1⟩, fun _ hne => ?_⟩
      simp only [vfsOpen, hl, if_neg hc]
      exact .refl s

/-- `/a` is to be created and to be a directory: the open fails, and `/a` is there. -/
theorem vfsOpen_not_failsClean : ¬ ∀ tarData tarSize heap phys v,
    vfsInit tarData tarSize heap phys = some v → ∀ t, Session.Steps (Session.start v) t →
      ∀ path flags, t.vfs.FailsClean path flags := by
  intro h
  have hclean := h _ _ _ _ _ (Session.vfsInit_emptyBoot [some 3, some 4] (mmInit [] (fun _ => 0) [])) _ .refl
    ⟨[47, 97], by decide⟩ 13
  have hlive := (hclean (by decide +kernel)).live
  revert hlive
  decide +kernel

end Vfs

end NarcOs
