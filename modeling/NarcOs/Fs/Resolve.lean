import NarcOs.Fs.InitLaws

/-!
# The two path resolvers

`lookup` goes over the whole path, `lookup_parent` cuts off the last component and
goes over the rest. On a tree they agree: what the one finds is the entry that the
other points to.
-/

namespace NarcOs

section
variable {path name : List UInt8} {front : List (List UInt8)}

/-- What `lookup_parent` takes for the name is the last component. -/
theorem lastComponent (h : components path = front ++ [name]) :
    (path.rdropWhile (· == slash)).rtakeWhile (· != slash) = name ∧
      components ((path.rdropWhile (· == slash)).rdropWhile (· != slash)) = front := by
  have hbody : components (path.rdropWhile (· == slash)) = front ++ [name] := by
    rw [components_rdropWhile_slash, h]
  have hne : path.rdropWhile (· == slash) ≠ [] := by
    intro he
    rw [he, components_nil] at hbody
    simp at hbody
  have hlast : (path.rdropWhile (· == slash)).rtakeWhile (· != slash) ≠ [] := by
    rw [Ne, List.rtakeWhile_eq_nil_iff]
    intro hall
    have hslash := List.rdropWhile_last_not (· == slash) path hne
    exact hall hne (by simpa using hslash)
  have hsplit := components_rtakeWhile hlast
  rw [hbody] at hsplit
  obtain ⟨hfront, hname⟩ := List.append_inj' hsplit rfl
  exact ⟨(List.singleton_inj.mp hname).symm, hfront.symm⟩

/-- The part in front of the name starts with the slash that the path starts with. -/
theorem front_absolute (habs : charAt path 0 = slash) (h : components path ≠ []) :
    charAt ((path.rdropWhile (· == slash)).rdropWhile (· != slash)) 0 = slash := by
  have hbody : path.rdropWhile (· == slash) ≠ [] := by
    intro he
    rw [← components_rdropWhile_slash, he] at h
    exact h rfl
  have hpart := List.rdropWhile_prefix (· == slash) path
  generalize path.rdropWhile (· == slash) = body at hbody hpart ⊢
  cases body with
  | nil => exact absurd rfl hbody
  | cons c body =>
    obtain ⟨more, rfl⟩ := hpart
    have hc : c = slash := habs
    subst hc
    have hkept : (slash :: body).rdropWhile (· != slash) ≠ [] := by
      rw [Ne, List.rdropWhile_eq_nil_iff]
      intro hall
      simpa using hall slash List.mem_cons_self
    obtain ⟨rest, hrest⟩ := List.rdropWhile_prefix (· != slash) (slash :: body)
    generalize (slash :: body).rdropWhile (· != slash) = front at hkept hrest ⊢
    cases front with
    | nil => exact absurd rfl hkept
    | cons d front =>
      cases hrest
      rfl

end

namespace Vfs

variable {s : Vfs} {kids : Ptr → List Ptr} {n parent : Ptr} {name : List UInt8} {path : CString}

/-- What the forward walk found under a proper name, the other resolver finds too. -/
theorem Tree.lookupParent_of_lookup (h : s.Tree kids) (hl : s.lookup path.bytes = .ok n)
    (hlast : (components path.bytes).getLast? = some name) (hdot : dotName name = false) :
    ∃ parent, s.lookupParent path.bytes = .ok (parent, name) := by
  obtain ⟨front, hcomp⟩ := List.getLast?_eq_some_iff.mp hlast
  obtain ⟨hname, hfront⟩ := lastComponent hcomp
  have habs : charAt path.bytes 0 = slash := by
    unfold lookup walk at hl
    split at hl
    · cases hl
    · rename_i hstart
      exact not_not.mp fun hne => hstart (.inr hne)
  have hnul : ∀ c ∈ components path.bytes, (0 : UInt8) ∉ c := fun c hc h0 => path.noNul (mem_components hc h0)
  rw [hcomp] at hnul
  -- the walk over all components passes the parent before the last one
  have hwalk := walk_ok hl
  rw [hcomp, walkComponents_append] at hwalk
  cases hparent : s.walkComponents front s.root with
  | error status =>
    rw [hparent] at hwalk
    cases hwalk
  | ok parent =>
    rw [hparent] at hwalk
    have hlinked : parent ∈ s.linked :=
      h.walkComponents_linked (fun c hc => hnul c (List.mem_append_left _ hc)) h.root hparent
    simp only [Except.bind, walkComponents, hdot] at hwalk
    split at hwalk
    · cases hwalk
    rename_i hdir
    simp only [Bool.false_eq_true, if_false] at hwalk
    cases hchild : s.childNamed parent name with
    | none =>
      rw [hchild] at hwalk
      cases hwalk
    | some child =>
      have hkid := (h.childNamed_eq_some hlinked (hnul name (by simp))).mp hchild
      have hgood : GoodName name := hkid.2 ▸ h.kid_good hlinked hkid.1
      refine ⟨parent, ?_⟩
      have hne : components path.bytes ≠ [] := by simp [hcomp]
      unfold lookupParent
      rw [if_neg (not_not.mpr habs)]
      simp only [hname, hdot, hgood.nonempty, Bool.false_eq_true, or_false, if_false, if_neg (not_le.mpr hgood.short),
        walk_eq (front_absolute habs hne), hfront, hparent, hdir]

/-- The resolvers agree on every path, so an open never adds a name that is there. -/
theorem resolvers_agree (h : s.Tree kids) (path : CString) :
    (∀ parent name, s.lookupParent path.bytes = .ok (parent, name) →
      (∀ n, s.lookup path.bytes = .ok n ↔ s.childNamed parent name = some n) ∧
      (s.lookup path.bytes = .error .notFound ↔ s.childNamed parent name = none)) ∧
    (∀ n name, s.lookup path.bytes = .ok n → (components path.bytes).getLast? = some name →
      name ≠ [dot] → name ≠ [dot, dot] → ∃ parent, s.lookupParent path.bytes = .ok (parent, name)) ∧
    ∀ flags, ∀ d ∈ (s.vfsOpen path flags).2.2.linked,
      (((s.vfsOpen path flags).2.2.entries d).map fun c => ((s.vfsOpen path flags).2.2.node c).name).Nodup := by
  refine ⟨fun parent name hp => ?_, fun n name hl hlast hdot hdots => ?_, fun flags d hd => ?_⟩
  · have hparent := lookupParent_ok path.noNul hp
    rw [hparent.lookup_eq]
    cases s.childNamed parent name with
    | none => simp
    | some child => simp
  · refine h.lookupParent_of_lookup hl hlast ?_
    rw [← Bool.not_eq_true, dotName_iff, not_or]
    exact ⟨hdot, hdots⟩
  · obtain ⟨kids', htree⟩ := (h.vfsOpen path flags).tree h
    exact htree.isTree.distinct d hd

def nestedDirs : Vfs :=
  (((Session.emptyBoot [some 3, some 4, some 5, some 6, some 7, some 8] (mmInit [] (fun _ => 0) [])).vfsMkdir
    ⟨[47, 97], CString.noNul_slash_a⟩ 0o755).2.vfsMkdir (.join ⟨[47, 97], CString.noNul_slash_a⟩ ⟨[98], by simp⟩)
      0o755).2

theorem nestedDirs_tree : ∃ kids, nestedDirs.Tree kids := by
  obtain ⟨kids₁, h₁⟩ := tree_vfsInit (Session.vfsInit_emptyBoot _ _)
  obtain ⟨kids₂, h₂⟩ := (h₁.vfsMkdir _ _).tree h₁
  exact (h₂.vfsMkdir _ _).tree h₂

theorem resolvers_agree_nested :
    nestedDirs.lookup [47, 97, 47, 47, 98, 47] = .ok 5 ∧
      nestedDirs.lookup [47, 97, 47, 46, 46, 47, 98] = .error .notFound ∧
      (∃ parent, nestedDirs.lookupParent [47, 97, 47, 46, 47, 98] = .ok (parent, [98])) ∧
      ∀ d ∈ (nestedDirs.vfsOpen ⟨[47, 97], CString.noNul_slash_a⟩ 7).2.2.linked,
        (((nestedDirs.vfsOpen ⟨[47, 97], CString.noNul_slash_a⟩ 7).2.2.entries d).map fun c =>
          ((nestedDirs.vfsOpen ⟨[47, 97], CString.noNul_slash_a⟩ 7).2.2.node c).name).Nodup := by
  obtain ⟨kids, h⟩ := nestedDirs_tree
  refine ⟨?_, ?_, ?_, (resolvers_agree h _).2.2 7⟩
  · exact (((resolvers_agree h ⟨[47, 97, 47, 47, 98, 47], by decide⟩).1 3 [98] rfl).1 5).mpr rfl
  · exact ((resolvers_agree h ⟨[47, 97, 47, 46, 46, 47, 98], by decide⟩).1 1 [98] rfl).2.mpr rfl
  · exact (resolvers_agree h ⟨[47, 97, 47, 46, 47, 98], by decide⟩).2.1 5 [98] rfl rfl (by decide) (by decide)

end Vfs

end NarcOs
