import NarcOs.Fs.Vfs

/-!
# Paths as component lists

The loops of `walk` and `lookup_parent` work on a byte string; here their
results are put in terms of the path's components. A path in front of a slash
and the path after it contribute their components independently, which is all
that relates the two resolvers.
-/

namespace NarcOs

section
variable {name component n : List UInt8}

-- ---------------------------------------------------------------------------
-- Names
-- ---------------------------------------------------------------------------

structure GoodName (name : List UInt8) : Prop where
  nonempty : name ≠ []
  noNul : (0 : UInt8) ∉ name
  noSlash : slash ∉ name
  notDot : name ≠ [dot]
  notDotDot : name ≠ [dot, dot]
  short : name.length < vfsNameMax

theorem dotName_iff : dotName n = true ↔ n = [dot] ∨ n = [dot, dot] := by
  rcases n with _ | ⟨a, _ | ⟨b, _ | ⟨c, t⟩⟩⟩ <;> simp [dotName, charAt]

theorem charAt_of_ge {i : Nat} (h : n.length ≤ i) : charAt n i = 0 := by
  simp [charAt, List.getD, List.getElem?_eq_none h]

theorem charAt_ne_zero {i : Nat} (h : (0 : UInt8) ∉ n) (hi : i < n.length) : charAt n i ≠ 0 := by
  intro he
  refine h (he ▸ ?_)
  simp [charAt, List.getD, hi]

theorem nameEq_iff (hn : (0 : UInt8) ∉ name) (hc : (0 : UInt8) ∉ component) :
    nameEq name component = true ↔ name = component := by
  unfold nameEq
  rw [Bool.and_eq_true, List.all_eq_true]
  constructor
  · rintro ⟨hall, hend⟩
    have hle : name.length ≤ component.length := by
      by_contra hlt
      exact charAt_ne_zero hn (Nat.lt_of_not_le hlt) (by simpa using hend)
    have hge : component.length ≤ name.length := by
      by_contra hlt
      have h := hall name.length (List.mem_range.mpr (by omega))
      rw [charAt_of_ge (le_refl _)] at h
      exact charAt_ne_zero hc (i := name.length) (by omega) (by simpa using (beq_iff_eq.mp h).symm)
    refine List.ext_getElem (by omega) fun i h₁ h₂ => ?_
    have h := beq_iff_eq.mp (hall i (List.mem_range.mpr h₂))
    simpa [charAt, List.getD, h₁, h₂] using h
  · rintro rfl
    exact ⟨fun i _ => by simp, by simp [charAt_of_ge (le_refl _)]⟩

end

-- ---------------------------------------------------------------------------
-- Components
-- ---------------------------------------------------------------------------

def consComponent (c : List UInt8) (cs : List (List UInt8)) : List (List UInt8) :=
  if c = [] then cs else c :: cs

def splitPath : List UInt8 → List UInt8 × List (List UInt8)
  | [] => ([], [])
  | c :: rest =>
    if c = slash then ([], consComponent (splitPath rest).1 (splitPath rest).2)
    else (c :: (splitPath rest).1, (splitPath rest).2)

def components (path : List UInt8) : List (List UInt8) :=
  consComponent (splitPath path).1 (splitPath path).2

@[simp] theorem components_nil : components [] = [] := rfl

@[simp] theorem components_slash (path : List UInt8) :
    components (slash :: path) = components path := by
  simp [components, splitPath, consComponent]

theorem splitPath_append (a b : List UInt8) :
    splitPath (a ++ slash :: b) = ((splitPath a).1, (splitPath a).2 ++ components b) := by
  induction a with
  | nil => simp [splitPath, components]
  | cons c a ih =>
    simp only [List.cons_append, splitPath, ih]
    split
    · unfold consComponent
      split <;> simp
    · rfl

theorem components_append (a b : List UInt8) :
    components (a ++ slash :: b) = components a ++ components b := by
  change consComponent _ _ = consComponent _ _ ++ _
  rw [splitPath_append, consComponent, consComponent]
  split <;> simp

theorem splitPath_noSlash {n : List UInt8} (h : slash ∉ n) : splitPath n = (n, []) := by
  induction n with
  | nil => rfl
  | cons c n ih =>
    rw [List.mem_cons, not_or] at h
    simp [splitPath, Ne.symm h.1, ih h.2]

theorem components_noSlash {n : List UInt8} (h : slash ∉ n) (hn : n ≠ []) :
    components n = [n] := by
  simp [components, splitPath_noSlash h, consComponent, hn]

theorem mem_splitPath {path : List UInt8} :
    (∀ b ∈ (splitPath path).1, b ∈ path) ∧ ∀ c ∈ (splitPath path).2, ∀ b ∈ c, b ∈ path := by
  induction path with
  | nil => simp [splitPath]
  | cons c path ih =>
    simp only [splitPath]
    split
    · refine ⟨by simp, fun c hc b hb => List.mem_cons_of_mem _ ?_⟩
      unfold consComponent at hc
      split at hc
      · exact ih.2 c hc b hb
      · rcases List.mem_cons.mp hc with rfl | hc
        · exact ih.1 b hb
        · exact ih.2 c hc b hb
    · refine ⟨fun b hb => ?_, fun c hc b hb => List.mem_cons_of_mem _ (ih.2 c hc b hb)⟩
      rcases List.mem_cons.mp hb with rfl | hb
      · exact List.mem_cons_self
      · exact List.mem_cons_of_mem _ (ih.1 b hb)

theorem mem_components {path c : List UInt8} (hc : c ∈ components path) {b : UInt8} (hb : b ∈ c) :
    b ∈ path := by
  unfold components consComponent at hc
  split at hc
  · exact mem_splitPath.2 c hc b hb
  · rcases List.mem_cons.mp hc with rfl | hc
    · exact mem_splitPath.1 b hb
    · exact mem_splitPath.2 c hc b hb

theorem components_dropWhile_slash (path : List UInt8) :
    components (path.dropWhile (· == slash)) = components path := by
  induction path with
  | nil => rfl
  | cons c path ih =>
    rw [List.dropWhile_cons]
    split
    · rename_i hc
      rw [ih, beq_iff_eq.mp hc, components_slash]
    · rfl

theorem components_concat_slash (path : List UInt8) :
    components (path ++ [slash]) = components path := by
  simp [components_append]

theorem components_rdropWhile_slash (path : List UInt8) :
    components (path.rdropWhile (· == slash)) = components path := by
  induction path using List.reverseRecOn with
  | nil => rfl
  | append_singleton path c ih =>
    by_cases hc : c = slash
    · rw [List.rdropWhile_concat_pos _ _ _ (by simp [hc]), ih, hc, components_concat_slash]
    · rw [List.rdropWhile_concat_neg _ _ _ (by simp [hc])]

theorem components_rtakeWhile {body : List UInt8} (hn : body.rtakeWhile (· != slash) ≠ []) :
    components body =
      components (body.rdropWhile (· != slash)) ++ [body.rtakeWhile (· != slash)] := by
  have hno : slash ∉ body.rtakeWhile (· != slash) := fun h => by
    simpa using List.mem_rtakeWhile_imp h
  have hsplit := List.rdropWhile_append_rtakeWhile (p := (· != slash)) (l := body)
  rcases List.eq_nil_or_concat (body.rdropWhile (· != slash)) with hf | ⟨f, c, hf⟩
  · rw [hf, List.nil_append] at hsplit
    rw [hf, components_nil, List.nil_append, hsplit, components_noSlash (hsplit ▸ hno) (hsplit ▸ hn)]
  · rw [List.concat_eq_append] at hf
    have hc : c = slash := by
      have := List.rdropWhile_last_not (· != slash) body (by simp [hf])
      simpa [hf] using this
    subst hc
    rw [hf, components_concat_slash]
    conv_lhs => rw [← hsplit]
    rw [hf, List.append_assoc, List.singleton_append, components_append, components_noSlash hno hn]

/-- A run of other bytes in front of the end or of a slash is one component. -/
theorem components_eq_cons {path : List UInt8}
    (hc : path.takeWhile (· != slash) ≠ []) :
    components path =
      path.takeWhile (· != slash) :: components (path.dropWhile (· != slash)) := by
  have hno : slash ∉ path.takeWhile (· != slash) := fun h => by
    simpa using List.mem_takeWhile_imp h
  have hsplit := List.takeWhile_append_dropWhile (p := (· != slash)) (l := path)
  cases hd : path.dropWhile (· != slash) with
  | nil =>
    rw [hd, List.append_nil] at hsplit
    rw [hsplit] at hno hc ⊢
    rw [components_noSlash hno hc, components_nil]
  | cons c rest =>
    have hcs : c = slash := by
      have := List.head?_dropWhile_not (· != slash) path
      rw [hd] at this
      simpa using this
    subst hcs
    rw [hd] at hsplit
    conv_lhs => rw [← hsplit]
    rw [components_append, components_noSlash hno hc, components_slash, List.singleton_append]

theorem components_eq_nil {path : List UInt8}
    (h : (path.dropWhile (· == slash)).takeWhile (· != slash) = []) : components path = [] := by
  rw [← components_dropWhile_slash]
  cases hd : path.dropWhile (· == slash) with
  | nil => rfl
  | cons c rest =>
    have h₁ := List.head?_dropWhile_not (· == slash) path
    rw [hd] at h₁ h
    simp_all

namespace Vfs

variable {s : Vfs}

/-- The rounds of `walk`, one component each. -/
def walkComponents (s : Vfs) : List (List UInt8) → Ptr → Except VfsStatus Ptr
  | [], node => .ok node
  | c :: rest, node =>
    if (s.node node).type ≠ .dir then .error .notDirectory
    else if dotName c then
      walkComponents s rest
        (if c.length = 2 then (s.node node).parent.getD node else node)
    else
      match s.childNamed node c with
      | none => .error .notFound
      | some child => walkComponents s rest child

theorem walkComponents_append (a b : List (List UInt8)) (p : Ptr) :
    s.walkComponents (a ++ b) p = (s.walkComponents a p).bind (s.walkComponents b) := by
  induction a generalizing p with
  | nil => rfl
  | cons c a ih =>
    simp only [List.cons_append, walkComponents]
    split
    · rfl
    · split
      · exact ih _
      · cases s.childNamed p c with
        | none => rfl
        | some q => exact ih q

theorem walkFrom_eq {k : Nat} {path : List UInt8} (h : path.length < k) (p : Ptr) :
    s.walkFrom k path p = s.walkComponents (components path) p := by
  induction k generalizing path p with
  | zero => omega
  | succ k ih =>
    simp only [walkFrom]
    set start := path.dropWhile (· == slash) with hstart
    have hlen : start.length ≤ path.length := List.length_dropWhile_le _ _
    split
    · rename_i hc
      rw [components_eq_nil hc]
      rfl
    · rename_i hc
      have hrest : (start.dropWhile (· != slash)).length < k := by
        have hsplit := congrArg List.length
          (List.takeWhile_append_dropWhile (p := (· != slash)) (l := start))
        rw [List.length_append] at hsplit
        have := List.length_pos_iff.mpr hc
        omega
      rw [← components_dropWhile_slash, ← hstart, components_eq_cons hc, walkComponents]
      split
      · rfl
      · split
        · by_cases h2 : (start.takeWhile (· != slash)).length = 2
          · cases hp : (s.node p).parent <;> simp [h2, ih hrest]
          · simp [h2, ih hrest]
        · cases s.childNamed p (start.takeWhile (· != slash)) with
          | none => rfl
          | some q => exact ih hrest q

theorem walk_ok {path : List UInt8} {p : Ptr} (h : s.walk path = .ok p) :
    s.walkComponents (components path) s.root = .ok p := by
  unfold walk at h
  split at h
  · cases h
  · rwa [walkFrom_eq (Nat.lt_succ_self _)] at h

theorem walk_eq {path : List UInt8} (h : charAt path 0 = slash) :
    s.walk path = s.walkComponents (components path) s.root := by
  have hne : path ≠ [] := by
    rintro rfl
    simp [charAt, slash] at h
  rw [walk, if_neg (by simp [hne, h]), walkFrom_eq (Nat.lt_succ_self _)]

structure ParentOf (s : Vfs) (path : List UInt8) (d : Ptr) (name : List UInt8) : Prop where
  absolute : charAt path 0 = slash
  good : GoodName name
  dir : (s.node d).type = .dir
  walk : ∃ front, components path = front ++ [name] ∧ s.walkComponents front s.root = .ok d

theorem lookupParent_ok {path : List UInt8} {d : Ptr} {name : List UInt8}
    (hnul : (0 : UInt8) ∉ path) (h : s.lookupParent path = .ok (d, name)) :
    s.ParentOf path d name := by
  unfold lookupParent at h
  split at h
  · cases h
  rename_i habs
  simp only at h
  set body := path.rdropWhile (· == slash) with hbody
  split at h
  · cases h
  rename_i hname
  rw [not_or, dotName_iff, not_or] at hname
  split at h
  · cases h
  rename_i hshort
  split at h
  · cases h
  rename_i parent hwalk
  split at h
  · cases h
  rename_i hdir
  cases h
  have hsub : ∀ c ∈ body.rtakeWhile (· != slash), c ∈ path := fun c hc =>
    (List.rdropWhile_prefix (· == slash) path).subset
      ((List.rtakeWhile_suffix (· != slash) body).subset hc)
  refine ⟨not_not.mp habs, ⟨hname.1, fun h0 => hnul (hsub _ h0), fun hs => ?_, hname.2.1,
    hname.2.2, not_le.mp hshort⟩, not_not.mp hdir, _, ?_, walk_ok hwalk⟩
  · simpa using List.mem_rtakeWhile_imp hs
  · rw [← components_rdropWhile_slash, ← hbody, components_rtakeWhile hname.1]

theorem walkFrom_ne_ok (k : Nat) (path : List UInt8) (p : Ptr) :
    s.walkFrom k path p ≠ .error .ok := by
  induction k generalizing path p with
  | zero => simp [walkFrom]
  | succ k ih =>
    simp only [walkFrom]
    split
    · simp
    split
    · simp
    split
    · split <;> exact ih _ _
    · split
      · simp
      · exact ih _ _

theorem lookupParent_ne_ok (path : List UInt8) : s.lookupParent path ≠ .error .ok := by
  unfold lookupParent
  split
  · simp
  dsimp only
  split
  · simp
  split
  · simp
  split
  · rename_i status hw
    rintro ⟨⟩
    unfold walk at hw
    split at hw
    · cases hw
    · exact walkFrom_ne_ok _ _ _ hw
  · split <;> simp

theorem ParentOf.lookup_eq {path : List UInt8} {d : Ptr} {name : List UInt8}
    (h : s.ParentOf path d name) :
    s.lookup path = match s.childNamed d name with
      | none => .error .notFound
      | some child => .ok child := by
  obtain ⟨front, hc, hw⟩ := h.walk
  have hdot : dotName name = false := by
    rw [Bool.eq_false_iff, ne_eq, dotName_iff, not_or]
    exact ⟨h.good.notDot, h.good.notDotDot⟩
  rw [lookup, walk_eq h.absolute, hc, walkComponents_append, hw]
  simp only [Except.bind, walkComponents, h.dir, hdot]
  simp

theorem ParentOf.childNamed_eq_none {path : List UInt8} {d : Ptr} {name : List UInt8}
    (h : s.ParentOf path d name) {status : VfsStatus} (hl : s.lookup path = .error status) :
    s.childNamed d name = none := by
  have he := h.lookup_eq
  rw [hl] at he
  cases hc : s.childNamed d name with
  | none => rfl
  | some c => simp [hc] at he

end Vfs

end NarcOs
