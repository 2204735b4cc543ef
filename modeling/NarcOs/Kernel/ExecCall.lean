import NarcOs.Kernel.Image
import NarcOs.Kernel.Task

/-!
# Passing arguments to a new program

`copy_from_user`, `copy_string`, `copy_string_list` and `handle_exec` of
`kernel/syscall.c`. The strings go from the memory of the caller through arrays
of the kernel to the stack of the new program, and come out as they were.
-/

namespace NarcOs

def vfsPathMax : Nat := 128

def CString.cons (b : UInt8) (s : CString) (hb : ¬ b = 0) : CString :=
  ⟨b :: s.bytes, fun h => (List.mem_cons.mp h).elim (fun h => hb h.symm) s.noNul⟩

namespace Phys

/-- The copy loop of `copy_from_user`. Every round copies a byte, which bounds
the rounds. -/
def copyIn (p : Phys) (root : Nat) : Nat → Nat → Nat → Option (List UInt8)
  | 0, _, _ => some []
  | n + 1, src, len =>
    if len = 0 then some []
    else
      let phys := p.vmmUserPhys root src
      if phys = 0 then none
      else
        let chunk := chunkTo src len
        (p.copyIn root n (wrap64 (src + chunk)) (len - chunk)).map (p.mem.read phys chunk ++ ·)

def copyFromUser (p : Phys) (root src len : Nat) : Option (List UInt8) :=
  if ¬ p.vmmUserRangeOk root src len false then none else p.copyIn root len src len

/-- `copy_string`, with the capacity that is left. -/
def copyString (p : Phys) (root : Nat) : Nat → Nat → Option CString
  | 0, _ => none
  | n + 1, src =>
    match p.copyFromUser root src 1 with
    | none => none
    | some bytes =>
      if h : bytes.headD 0 = 0 then some .empty
      else (p.copyString root n (wrap64 (src + 1))).map fun s => s.cons (bytes.headD 0) h

/-- The loop of `copy_string_list`, with the entries that there is still room for
and those that were copied. -/
def copyStrings (p : Phys) (root address : Nat) : Nat → Nat → Option (List CString)
  | 0, count =>
    match p.copyFromUser root (wrap64 (address + count * 8)) 8 with
    | none => none
    | some terminator => if ofLE terminator ≠ 0 then none else some []
  | n + 1, count =>
    match p.copyFromUser root (wrap64 (address + count * 8)) 8 with
    | none => none
    | some item =>
      if ofLE item = 0 then some []
      else
        match p.copyString root vfsPathMax (ofLE item) with
        | none => none
        | some s => (p.copyStrings root address n (count + 1)).map (s :: ·)

def copyStringList (p : Phys) (root address : Nat) : Option (List CString) :=
  if address = 0 then some [] else p.copyStrings root address 16 0

end Phys

inductive ExecStatus
  | ok
  | badAddress
  | notFound
  deriving DecidableEq

namespace Kernel

/-- The arguments for `user_exec`: the path takes the place of an empty list. -/
def execArguments (path : CString) (arguments : List CString) : List CString :=
  if arguments = [] then [path] else arguments

def handleExec (k : Kernel) (frame : TaskFrame) (pathAddress argvAddress envpAddress : Nat) :
    ExecStatus × TaskFrame × Kernel :=
  match k.phys.copyString k.cr3 vfsPathMax pathAddress with
  | none => (.badAddress, frame, k)
  | some path =>
    match k.phys.copyStringList k.cr3 argvAddress with
    | none => (.badAddress, frame, k)
    | some arguments =>
      match k.phys.copyStringList k.cr3 envpAddress with
      | none => (.badAddress, frame, k)
      | some environment =>
        match k.userExec frame path (execArguments path arguments) environment with
        | (result, frame, k) => (if result = 0 then .ok else .notFound, frame, k)

end Kernel

-- ---------------------------------------------------------------------------
-- Copies of what is there
-- ---------------------------------------------------------------------------

variable {p : Phys} {root a : Nat} {bytes : List UInt8}

theorem UserBytes.isSome (h : UserBytes p root a bytes) {v : Nat} (h₁ : a ≤ v) (h₂ : v < a + bytes.length) :
    (p.userView root v).isSome := by
  have hbyte := h.2 (v - a) (by omega)
  rw [Nat.add_sub_cancel' h₁, Phys.userByte, Option.map_eq_some_iff] at hbyte
  obtain ⟨w, hw, -⟩ := hbyte
  rw [hw]
  rfl

theorem vmmUserPhys_add {v i : Nat} (hpage : v % 4096 + i < 4096) (hne : p.vmmUserPhys root v ≠ 0) :
    p.vmmUserPhys root (v + i) = p.vmmUserPhys root v + i := by
  have hpres : p.presentPte root (v + i) = p.presentPte root v := by
    rw [← presentPte_page, show (v + i) / 4096 = v / 4096 by omega, presentPte_page]
  unfold Phys.vmmUserPhys at hne ⊢
  rw [hpres]
  cases hp : p.presentPte root v with
  | none =>
    rw [hp] at hne
    exact absurd rfl hne
  | some entry =>
    obtain ⟨pt, j, pte⟩ := entry
    dsimp only
    split
    · rename_i hu
      rw [hp] at hne
      dsimp only at hne
      rw [if_pos hu] at hne
      exact absurd rfl hne
    · have haligned : pteAddr pte % 4096 = 0 := Nat.mul_mod_left _ _
      unfold pageSize
      rw [or_eq_add haligned (Nat.mod_lt _ (by decide)), or_eq_add haligned (Nat.mod_lt _ (by decide))]
      omega

theorem userByte_eq {v : Nat} {b : UInt8} (h : p.userByte root v = some b) : p.mem (p.vmmUserPhys root v) = b := by
  unfold Phys.userByte Phys.userView at h
  cases hp : p.presentPte root v with
  | none =>
    rw [hp] at h
    cases h
  | some entry =>
    rw [hp] at h
    dsimp only at h
    split at h
    · cases h
      rfl
    · cases h

theorem vmmUserRangeOk_of_view {virt len : Nat} (hend : virt + len ≤ 2 ^ 47)
    (hall : ∀ v, virt ≤ v → v < virt + len → (p.userView root v).isSome) :
    p.vmmUserRangeOk root virt len false = true := by
  unfold Phys.vmmUserRangeOk
  split
  · rfl
  rename_i hlen
  rw [if_neg (by omega), if_neg (by omega), List.all_eq_true]
  intro k hk
  rw [List.mem_range] at hk
  -- an address of the range on the page that is looked at
  have hv : ∃ v, virt ≤ v ∧ v < virt + len ∧ v / 4096 * 4096 = alignDown virt + pageSize * k := by
    refine ⟨max virt (alignDown virt + pageSize * k), ?_⟩
    unfold alignDown pageSize at *
    omega
  obtain ⟨v, h₁, h₂, hpage⟩ := hv
  have hsome := hall v h₁ h₂
  rw [← hpage, presentPte_page]
  unfold Phys.userView at hsome
  cases hp : p.presentPte root v with
  | none =>
    rw [hp] at hsome
    cases hsome
  | some entry =>
    rw [hp] at hsome
    dsimp only at hsome ⊢
    split at hsome
    · rename_i hu
      rw [hu]
      rfl
    · cases hsome

theorem copyIn_eq (hs : Sound p root) (n : Nat) (h : UserBytes p root a bytes) (hn : bytes.length ≤ n) :
    p.copyIn root n a bytes.length = some bytes := by
  induction n generalizing a bytes with
  | zero =>
    rw [List.length_eq_zero_iff.mp (Nat.le_zero.mp hn)]
    rfl
  | succ n ih =>
    rw [Phys.copyIn]
    split
    · rename_i hlen
      rw [List.length_eq_zero_iff.mp hlen]
    rename_i hlen
    have hend := h.1
    have hne := (hs.userView_isSome (userHalf_of_lt (by omega))).mp (h.isSome le_rfl (by omega))
    dsimp only
    rw [if_neg hne]
    obtain ⟨hle, hpage⟩ := chunkTo_le a bytes.length
    have hpos : 0 < Phys.chunkTo a bytes.length := chunkTo_pos (by omega)
    generalize Phys.chunkTo a bytes.length = c at hle hpage hpos ⊢
    have hw : wrap64 (a + c) = a + c := by
      unfold wrap64
      omega
    have hsplit : UserBytes p root a (bytes.take c) ∧ UserBytes p root (a + c) (bytes.drop c) := by
      have happ := userBytes_append.mp (show UserBytes p root a (bytes.take c ++ bytes.drop c) by rwa [List.take_append_drop])
      rwa [List.length_take, Nat.min_eq_left hle] at happ
    have hread : p.mem.read (p.vmmUserPhys root a) c = bytes.take c := by
      apply List.ext_getElem
      · rw [Mem.read, List.length_map, List.length_range, List.length_take]
        omega
      · intro i hi hi'
        rw [List.length_take] at hi'
        have hbyte := hsplit.1.2 i (by rw [List.length_take]; exact hi')
        have hmem : p.mem (p.vmmUserPhys root a + i) = (bytes.take c).getD i 0 := by
          rw [← vmmUserPhys_add (by omega) hne, userByte_eq hbyte]
        rw [List.getD_eq_getElem?_getD, List.getElem?_eq_getElem (by rwa [List.length_take]), Option.getD_some] at hmem
        simp only [Mem.read, List.getElem_map, List.getElem_range, hmem]
    have hrest := ih hsplit.2 (by rw [List.length_drop]; omega)
    rw [List.length_drop] at hrest
    rw [hw, hrest, hread, Option.map_some, List.take_append_drop]

theorem copyFromUser_eq (hs : Sound p root) (h : UserBytes p root a bytes) :
    p.copyFromUser root a bytes.length = some bytes := by
  unfold Phys.copyFromUser
  rw [if_neg (not_not.mpr (vmmUserRangeOk_of_view h.1 fun v h₁ h₂ => h.isSome h₁ h₂))]
  exact copyIn_eq hs bytes.length h le_rfl

theorem copyString_eq (hs : Sound p root) (n : Nat) {s : CString} (h : UserString p root a s) (hn : s.bytes.length < n) :
    p.copyString root n a = some s := by
  induction n generalizing a s with
  | zero => exact absurd hn (Nat.not_lt_zero _)
  | succ n ih =>
    obtain ⟨bytes, hnul⟩ := s
    rw [Phys.copyString]
    cases bytes with
    | nil =>
      have hcopy : p.copyFromUser root a 1 = some [0] := copyFromUser_eq hs h
      rw [hcopy]
      rfl
    | cons b bs =>
      obtain ⟨hb, hrest⟩ := userBytes_append.mp (show UserBytes p root a ([b] ++ (bs ++ [0])) from h)
      have hcopy : p.copyFromUser root a 1 = some [b] := copyFromUser_eq hs hb
      have hne : ¬ [b].headD 0 = 0 := fun he => hnul (List.mem_cons.mpr (.inl he.symm))
      have hw : wrap64 (a + 1) = a + 1 := by
        have hend := hrest.1
        rw [List.length_singleton] at hend
        unfold wrap64
        omega
      have htail : p.copyString root n (a + 1) = some ⟨bs, fun hm => hnul (List.mem_cons_of_mem _ hm)⟩ :=
        ih hrest (Nat.lt_of_succ_lt_succ hn)
      rw [hcopy]
      dsimp only
      rw [dif_neg hne, hw, htail]
      rfl

theorem copyWord_eq (hs : Sound p root) {w : Nat} (h : UserWords p root a [w]) (hw : w < 2 ^ 64) :
    p.copyFromUser root (wrap64 a) 8 = some (toLE 8 w) ∧ ofLE (toLE 8 w) = w := by
  have hcopy : p.copyFromUser root a 8 = some (toLE 8 w) := by
    have hbytes := copyFromUser_eq hs h
    rwa [List.flatMap_singleton, length_toLE] at hbytes
  have hend := h.1
  have ha : wrap64 a = a := by
    unfold wrap64
    omega
  rw [ha]
  refine ⟨hcopy, ?_⟩
  rw [ofLE_toLE]
  exact Nat.mod_eq_of_lt (by omega)

theorem pointers_ok {pointers : List Nat} {strings : List CString}
    (h : List.Forall₂ (fun pointer s => pointer ≠ 0 ∧ UserString p root pointer s) pointers strings) :
    ∀ w ∈ pointers, w ≠ 0 ∧ w < 2 ^ 64 := by
  induction h with
  | nil => exact fun w hw => (nomatch hw)
  | cons hs _ ih =>
    intro w hw
    rcases List.mem_cons.mp hw with rfl | hw
    · exact ⟨hs.1, hs.2.lt⟩
    · exact ih w hw

theorem copyStrings_eq (hs : Sound p root) {address : Nat} (n count : Nat) {pointers : List Nat} {strings : List CString}
    (h : UserVector p root (address + count * 8) pointers strings) (hn : strings.length ≤ n)
    (hshort : ∀ s ∈ strings, s.bytes.length ≤ 127) : p.copyStrings root address n count = some strings := by
  obtain ⟨hwords, hstrings⟩ := h
  induction n generalizing count pointers strings with
  | zero =>
    obtain rfl := List.length_eq_zero_iff.mp (Nat.le_zero.mp hn)
    cases hstrings
    obtain ⟨hcopy, hzero⟩ := copyWord_eq hs hwords (by decide)
    rw [Phys.copyStrings, hcopy]
    dsimp only
    rw [if_neg (not_not.mpr hzero)]
  | succ n ih =>
    rw [Phys.copyStrings]
    cases hstrings with
    | nil =>
      obtain ⟨hcopy, hzero⟩ := copyWord_eq hs hwords (by decide)
      rw [hcopy]
      dsimp only
      rw [if_pos hzero]
    | @cons pointer s pointers strings hs' hrest =>
      obtain ⟨hword, hwords'⟩ := userWords_append.mp
        (show UserWords p root (address + count * 8) ([pointer] ++ (pointers ++ [0])) from hwords)
      obtain ⟨hcopy, hvalue⟩ := copyWord_eq hs hword hs'.2.lt
      have hnext : address + count * 8 + 8 * [pointer].length = address + (count + 1) * 8 := by
        rw [List.length_singleton]
        omega
      rw [hnext] at hwords'
      have hstring := copyString_eq hs vfsPathMax hs'.2 (Nat.lt_succ_of_le (hshort s List.mem_cons_self))
      have htail := ih (count + 1) (Nat.le_of_succ_le_succ hn) (fun t ht => hshort t (List.mem_cons_of_mem _ ht)) hwords' hrest
      rw [hcopy]
      dsimp only
      rw [hvalue, if_neg hs'.1, hstring]
      dsimp only
      rw [htail, Option.map_some]

theorem copyStrings_long (hs : Sound p root) {address : Nat} (n count : Nat) {words : List Nat}
    (h : UserWords p root (address + count * 8) words) (hn : n < words.length) (hwords : ∀ w ∈ words, w ≠ 0 ∧ w < 2 ^ 64) :
    p.copyStrings root address n count = none := by
  induction n generalizing count words with
  | zero =>
    cases words with
    | nil => exact absurd hn (Nat.not_lt_zero _)
    | cons w words =>
      obtain ⟨hword, -⟩ := userWords_append.mp (show UserWords p root _ ([w] ++ words) from h)
      obtain ⟨hne, hlt⟩ := hwords w List.mem_cons_self
      obtain ⟨hcopy, hvalue⟩ := copyWord_eq hs hword hlt
      rw [Phys.copyStrings, hcopy]
      dsimp only
      rw [hvalue, if_pos hne]
  | succ n ih =>
    cases words with
    | nil => exact absurd hn (Nat.not_lt_zero _)
    | cons w words =>
      obtain ⟨hword, hrest⟩ := userWords_append.mp (show UserWords p root _ ([w] ++ words) from h)
      obtain ⟨hne, hlt⟩ := hwords w List.mem_cons_self
      obtain ⟨hcopy, hvalue⟩ := copyWord_eq hs hword hlt
      have hnext : address + count * 8 + 8 * [w].length = address + (count + 1) * 8 := by
        rw [List.length_singleton]
        omega
      rw [hnext] at hrest
      have htail := ih (count + 1) hrest (Nat.lt_of_succ_lt_succ hn) fun w' hw' => hwords w' (List.mem_cons_of_mem _ hw')
      rw [Phys.copyStrings, hcopy]
      dsimp only
      rw [hvalue, if_neg hne]
      cases p.copyString root vfsPathMax w with
      | none => rfl
      | some s =>
        dsimp only
        rw [htail, Option.map_none]

-- ---------------------------------------------------------------------------
-- The call
-- ---------------------------------------------------------------------------

def ExecList (p : Phys) (root address : Nat) (strings : List CString) : Prop :=
  (address = 0 ∧ strings = []) ∨ address ≠ 0 ∧ ∃ pointers, UserVector p root address pointers strings

theorem copyStringList_eq (hs : Sound p root) {address : Nat} {strings : List CString}
    (h : ExecList p root address strings) (hn : strings.length ≤ 16) (hshort : ∀ s ∈ strings, s.bytes.length ≤ 127) :
    p.copyStringList root address = some strings := by
  unfold Phys.copyStringList
  rcases h with ⟨hz, rfl⟩ | ⟨hne, pointers, hvector⟩
  · rw [if_pos hz]
  · rw [if_neg hne]
    exact copyStrings_eq hs 16 0 (by rwa [Nat.zero_mul, Nat.add_zero]) hn hshort

theorem copyStringList_long (hs : Sound p root) {address : Nat} {strings : List CString}
    (h : ExecList p root address strings) (hn : 16 < strings.length) : p.copyStringList root address = none := by
  unfold Phys.copyStringList
  rcases h with ⟨-, rfl⟩ | ⟨hne, pointers, hwords, hstrings⟩
  · exact absurd hn (Nat.not_lt_zero _)
  · rw [if_neg hne]
    obtain ⟨hpointers, -⟩ := userWords_append.mp hwords
    exact copyStrings_long hs 16 0 (by rwa [Nat.zero_mul, Nat.add_zero]) (by rwa [hstrings.length_eq])
      (pointers_ok hstrings)

namespace Kernel

variable {k : Kernel} {frame : TaskFrame} {pathAddress argvAddress envpAddress space cr3 : Nat} {p' phys : Phys}
  {path : CString} {arguments environment : List CString} {image : List UInt8}

structure ExecArgs (k : Kernel) (pathAddress argvAddress envpAddress : Nat) (path : CString)
    (arguments environment : List CString) : Prop where
  pathString : UserString k.phys k.cr3 pathAddress path
  argvList : ExecList k.phys k.cr3 argvAddress arguments
  envpList : ExecList k.phys k.cr3 envpAddress environment
  pathLength : path.bytes.length ≤ 127
  lengths : ArgsOk arguments environment

structure ExecImage (k : Kernel) (path : CString) (image : List UInt8) (space : Nat) (phys : Phys) : Prop where
  created : k.phys.vmmSpaceCreate k.cr3 = (some space, phys)
  stored : ∃ node, Vfs.Stores { k.vfs with phys := phys } path image node
  loads : (phys.loadProgram space image).1 = true

/-- The call succeeds, and the stack of the new program is made of the strings; a
task that ran in its own space finds it so when the call returns. -/
def ArgsArrive (k : Kernel) (frame : TaskFrame) (pathAddress argvAddress envpAddress : Nat) (path : CString)
    (arguments environment : List CString) (image : List UInt8) (space : Nat) (phys : Phys) : Prop :=
  ∃ sp randomp argp envAddresses,
    (load { k.vfs with phys := phys } space path arguments environment).1 = some ((elfHeader image).entry, sp) ∧
    InitialStack (load { k.vfs with phys := phys } space path arguments environment).2.phys space sp arguments environment
      (auxVector (elfHeader image) (findPhdr image) randomp (argp.getD 0 0)) randomp argp envAddresses ∧
    (k.handleExec frame pathAddress argvAddress envpAddress).1 = .ok ∧
    (k.handleExec frame pathAddress argvAddress envpAddress).2.1.rsp = sp ∧
    ((k.task k.current).space = k.cr3 →
      (k.handleExec frame pathAddress argvAddress envpAddress).2.2.cr3 = space ∧
      InitialStack (k.handleExec frame pathAddress argvAddress envpAddress).2.2.phys space sp arguments environment
        (auxVector (elfHeader image) (findPhdr image) randomp (argp.getD 0 0)) randomp argp envAddresses)

theorem destroy_view (hs : Sound p cr3) (hcreated : p.vmmSpaceCreate cr3 = (some space, phys))
    (hre : Remaps space phys p') {v : Nat} (hv : v < 2 ^ 47) :
    (p'.vmmSpaceDestroy space cr3).2.userView space v = p'.userView space v := by
  obtain ⟨A, kids, hA, hold, hnd⟩ := hs
  have hcreate := hA.vmmSpaceCreate cr3
  rw [hcreated] at hcreate
  rcases hcreate with ⟨hnone, -⟩ | ⟨root, B, hsome, hAB, hav, hnew, hwithin⟩
  · cases hnone
  cases hsome
  have hndB : (B + spaceFrames space fun _ => .empty).Nodup := by
    rw [spaceFrames_empty, add_comm, Multiset.singleton_add, ← hAB]
    exact hA.nodup
  obtain ⟨C, kids', lost, hload⟩ := hre B _ hav hnew hndB
  -- all that was written came from the allocator
  have htotal : C + spaceFrames space kids' + lost = A := by
    rw [hload.frames, spaceFrames_empty, add_zero, add_comm, Multiset.singleton_add, hAB]
  have hwritten : Mem.Within A p.mem p'.mem := by
    refine (hwithin.mono fun f hf => ?_).trans (hload.within.mono fun f hf => ?_)
    · rw [Multiset.mem_singleton.mp hf, hAB]
      exact Multiset.mem_cons_self _ _
    · rwa [spaceFrames_empty, add_comm, Multiset.singleton_add, ← hAB] at hf
  have hkept : IsSpace p'.mem cr3 kids := hold.within hwritten fun f hf hm =>
    not_mem_of_add hnd hm (Multiset.mem_add.mpr (.inl hf))
  have hle : C + spaceFrames space kids' ≤ A := htotal ▸ Multiset.le_add_right _ _
  have hapart : ∀ f ∈ spaceFrames space kids', f ∉ spaceFrames cr3 kids := fun f hf =>
    not_mem_of_add hnd (Multiset.mem_of_le hle (Multiset.mem_add.mpr (.inr hf)))
  have hne : space ≠ cr3 := by
    rintro rfl
    exact hapart space (Multiset.mem_add.mpr (.inl (Multiset.mem_cons_self _ _)))
      (Multiset.mem_add.mpr (.inl (Multiset.mem_cons_self _ _)))
  have hfree := hkept.vmmSpaceDestroy hload.avail
    ((Multiset.nodup_of_le (Multiset.add_le_add_right ((Multiset.le_add_right _ _).trans hle)) hnd)) hne
  have hspace := hload.space.within hfree fun f hf => hapart f (Multiset.mem_add.mpr (.inl hf))
  rw [hspace.userView (userHalf_of_lt hv), hload.space.userView (userHalf_of_lt hv)]
  refine treeView_congr rfl fun e hl => ?_
  obtain ⟨-, hframe, hmem⟩ := hload.space.entries.isFrame_leaf (userHalf_of_lt hv) hl
  exact hfree _ hframe (hapart _ (Multiset.mem_add.mpr (.inr hmem))) (v % 4096) (Nat.mod_lt _ (by decide))

theorem execArguments_ok (hpath : path.bytes.length ≤ 127) (h : ArgsOk arguments environment) :
    execArguments path arguments ≠ [] ∧ ArgsOk (execArguments path arguments) environment := by
  unfold execArguments
  split
  · refine ⟨List.cons_ne_nil _ _, by simp, h.envc, fun s hs => ?_⟩
    rw [List.singleton_append, List.mem_cons] at hs
    rcases hs with rfl | hs
    · exact hpath
    · exact h.short s (List.mem_append_right _ hs)
  · rename_i hne
    exact ⟨hne, h⟩

/-- `handle_exec` calls `user_exec` with what the caller had. -/
theorem ExecArgs.handleExec (h : ExecArgs k pathAddress argvAddress envpAddress path arguments environment)
    (hs : Sound k.phys k.cr3) (frame : TaskFrame) :
    k.handleExec frame pathAddress argvAddress envpAddress =
      (if (k.userExec frame path (execArguments path arguments) environment).1 = 0 then .ok else .notFound,
        (k.userExec frame path (execArguments path arguments) environment).2) := by
  have hargs := copyStringList_eq hs h.argvList h.lengths.argc fun s hs =>
    h.lengths.short s (List.mem_append_left _ hs)
  have henv := copyStringList_eq hs h.envpList h.lengths.envc fun s hs =>
    h.lengths.short s (List.mem_append_right _ hs)
  unfold Kernel.handleExec
  rw [copyString_eq hs vfsPathMax h.pathString (Nat.lt_succ_of_le h.pathLength), hargs, henv]

/-- The stack has been built, so `user_exec` starts the program. -/
theorem ExecImage.userExec {path : CString} {arguments environment : List CString} {image : List UInt8} {sp : Nat}
    (h : ExecImage k path image space phys) (hne : arguments ≠ [])
    (hbuild : (phys.loadProgram space image).2.buildStack space (elfHeader image) (findPhdr image) arguments environment =
      (some sp, p')) (frame : TaskFrame) :
    ∃ vfs : Vfs, vfs.phys = p' ∧
      load { k.vfs with phys := phys } space path arguments environment = (some ((elfHeader image).entry, sp), vfs) ∧
      k.userExec frame path arguments environment = (0, taskExec { k with vfs := vfs } space (elfHeader image).entry sp) := by
  obtain ⟨node, hstores⟩ := h.stored
  have hcall : load { k.vfs with phys := phys } space path arguments environment = _ := load_stores hstores hne
  rw [show ({ k.vfs with phys := phys } : Vfs).phys = phys from rfl, loadImage_built h.loads hbuild] at hcall
  refine ⟨_, rfl, hcall, ?_⟩
  unfold Kernel.userExec
  rw [h.created]
  dsimp only
  rw [hcall]

theorem handleExec_args (hs : Sound k.phys k.cr3) (frame : TaskFrame) (pathAddress argvAddress envpAddress : Nat) :
    (∀ path arguments environment, ExecArgs k pathAddress argvAddress envpAddress path arguments environment →
      ∀ image space phys, ExecImage k path image space phys →
        ((phys.loadProgram space image).2.mapRange space userStackBottom userStackTop).1 = true →
        ArgsArrive k frame pathAddress argvAddress envpAddress path (execArguments path arguments) environment image space
          phys) ∧
    ∀ strings, 16 < strings.length →
      ExecList k.phys k.cr3 argvAddress strings ∨ ExecList k.phys k.cr3 envpAddress strings →
      k.handleExec frame pathAddress argvAddress envpAddress = (.badAddress, frame, k) := by
  constructor
  · intro path arguments environment hexec image space phys himage hmap
    obtain ⟨hne, hargs⟩ := execArguments_ok hexec.pathLength hexec.lengths
    have hspace : Sound phys space := by
      obtain ⟨A, kids, hA, -, -⟩ := hs
      have hnew : Sound (k.phys.vmmSpaceCreate k.cr3).2 space := hA.sound_create (by rw [himage.created])
      rwa [himage.created] at hnew
    obtain ⟨-, hshow⟩ := loadProgram_shows himage.loads
    obtain ⟨sp, p', randomp, argp, envAddresses, hbuild, hremaps, hstack⟩ :=
      buildStack_initialStack (hshow.sound hspace) hmap (elfHeader image) (findPhdr image) hargs
    obtain ⟨vfs, rfl, hcall, huser⟩ := himage.userExec hne hbuild frame
    refine ⟨sp, randomp, argp, envAddresses, ?_, ?_, ?_⟩
    · rw [hcall]
    · rw [hcall]
      exact hstack
    · rw [hexec.handleExec hs, huser]
      refine ⟨rfl, rfl, fun hcurrent => ⟨rfl, hstack.view fun v hv => ?_⟩⟩
      have hview := destroy_view hs himage.created (hshow.remaps.trans hremaps) hv
      rw [← hcurrent] at hview
      exact hview
  · intro strings hlong hlist
    unfold Kernel.handleExec
    cases k.phys.copyString k.cr3 vfsPathMax pathAddress with
    | none => rfl
    | some path =>
      dsimp only
      rcases hlist with hlist | hlist
      · rw [copyStringList_long hs hlist hlong]
      · cases k.phys.copyStringList k.cr3 argvAddress with
        | none => rfl
        | some arguments =>
          dsimp only
          rw [copyStringList_long hs hlist hlong]

-- ---------------------------------------------------------------------------
-- A caller
-- ---------------------------------------------------------------------------

def bPath : CString := ⟨[47, 98], CString.noNul_slash_b⟩

theorem noNul_setting : (0 : UInt8) ∉ [97, 61, 98] := by decide

def aSetting : CString := ⟨[97, 61, 98], noNul_setting⟩

def callerBytes : List UInt8 :=
  (aPath.bytes ++ [0]) ++ ((bPath.bytes ++ [0]) ++ ((aSetting.bytes ++ [0]) ++ (List.replicate 6 0 ++
    ([0x400000, 0x400003, 0].flatMap (toLE 8) ++ [0x400006, 0].flatMap (toLE 8)))))

def callerPhys (map : List MemmapEntry) : Phys :=
  (Phys.copyOut 0x101000 32 0x400000 callerBytes
    ((execVfs map (twoSegments 4 6)).phys.mapNew 0x101000 0x400000 vmmWrite).2).2

def execCaller (map : List MemmapEntry) : Kernel where
  vfs := { (execVfs map (twoSegments 4 6)) with phys := callerPhys map }
  cr3 := 0x101000
  heap := []
  taskList := [20]
  task := fun _ => { pid := 1, state := .runnable, space := 0x101000 }
  nextPid := 2
  current := 20
  files := []
  openFile := fun _ => { refs := 1, type := .vfs, file := ⟨some 1, 0, 1⟩ }
  pipes := []
  pipe := fun _ => {}

example : (execCaller loaderMap).phys.userView 0x101000 0x400000 = some (true, 47) := by decide +kernel

theorem execCaller_sound {map : List MemmapEntry} (hmap : MemmapOk map)
    (hroot : ((writtenFile map (twoSegments 4 6)).1.vfs.phys.vmmSpaceCreate 0).1 = some 0x101000) :
    Sound (execCaller map).phys (execCaller map).cr3 := by
  have hnew : Sound ((execVfs map (twoSegments 4 6)).phys.mapNew 0x101000 0x400000 vmmWrite).2 0x101000 :=
    (execVfs_space hmap hroot).1.mapNew (userHalf_of_lt (by decide)) vmmWrite
  exact (copyOut_grows 0x101000 32 0x400000 callerBytes (by decide) _).sound hnew

def tightMap : List MemmapEntry := [⟨0x100000, 0xc000, limineMemmapUsable⟩]

theorem tightMap_ok : MemmapOk tightMap where
  entry := by
    intro e he _
    rw [tightMap, List.mem_singleton] at he
    subst he
    exact ⟨by decide, by decide, by decide, by decide⟩
  disjoint := List.pairwise_singleton _ _

theorem execCaller_args {map : List MemmapEntry}
    (hbytes : UserBytes (execCaller map).phys 0x101000 0x400000 callerBytes) :
    ExecArgs (execCaller map) 0x400000 0x400010 0x400028 aPath [aPath, bPath] [aSetting] := by
  obtain ⟨hpath, hrest⟩ := userBytes_append.mp hbytes
  obtain ⟨hb, hrest⟩ := userBytes_append.mp hrest
  obtain ⟨hsetting, hrest⟩ := userBytes_append.mp hrest
  obtain ⟨-, hvectors⟩ := userBytes_append.mp hrest
  obtain ⟨hargv, henvp⟩ := userBytes_append.mp hvectors
  constructor
  case pathString => exact hpath
  case argvList =>
    exact .inr ⟨by decide, [0x400000, 0x400003], hargv, .cons ⟨by decide, hpath⟩ (.cons ⟨by decide, hb⟩ .nil)⟩
  case envpList => exact .inr ⟨by decide, [0x400006], henvp, .cons ⟨by decide, hsetting⟩ .nil⟩
  case pathLength => decide
  case lengths => exact ⟨by decide, by decide, by decide⟩

theorem execCaller_image {map : List MemmapEntry} {phys : Phys}
    (hphys : phys = ((execCaller map).phys.vmmSpaceCreate 0x101000).2)
    (hroot : ((execCaller map).phys.vmmSpaceCreate 0x101000).1 = some 0x106000)
    (hlookup : Vfs.lookup { (execCaller map).vfs with phys := phys } aPath.bytes = .ok 3)
    (hnode : ((execCaller map).vfs.node 3).type = .reg ∧ ((execCaller map).vfs.node 3).linked = true)
    (hsize : ((execCaller map).vfs.node 3).size ≤ vfsFileMax)
    (hcontents : Vfs.contents { (execCaller map).vfs with phys := phys } 3 = twoSegments 4 6)
    (hloads : (phys.loadProgram 0x106000 (twoSegments 4 6)).1 = true) :
    ExecImage (execCaller map) aPath (twoSegments 4 6) 0x106000 phys where
  created := Prod.ext hroot hphys.symm
  stored := ⟨3, hlookup, hnode.1, hnode.2, hsize, hcontents⟩
  loads := hloads

/-- The program starts with two arguments and a setting. -/
theorem handleExec_args_two :
    ((execCaller loaderMap).handleExec archTaskFrameInit 0x400000 0x400010 0x400028).1 = .ok ∧
      ∃ sp randomp argp envAddresses,
        ((execCaller loaderMap).handleExec archTaskFrameInit 0x400000 0x400010 0x400028).2.1.rsp = sp ∧
        InitialStack ((execCaller loaderMap).handleExec archTaskFrameInit 0x400000 0x400010 0x400028).2.2.phys
          0x106000 sp [aPath, bPath] [aSetting] (auxVector (elfHeader (twoSegments 4 6)) (findPhdr (twoSegments 4 6))
            randomp (argp.getD 0 0)) randomp argp envAddresses := by
  have hs := execCaller_sound loaderMap_ok (by decide +kernel)
  have hargs : ExecArgs (execCaller loaderMap) 0x400000 0x400010 0x400028 aPath [aPath, bPath] [aSetting] :=
    execCaller_args (by unfold UserBytes; decide +kernel)
  have himage := execCaller_image (rfl : ((execCaller loaderMap).phys.vmmSpaceCreate 0x101000).2 = _)
    (by decide +kernel) (by decide +kernel) (by decide +kernel) (by decide +kernel) (by decide +kernel) (by decide +kernel)
  obtain ⟨sp, randomp, argp, envAddresses, -, -, hok, hrsp, hleft⟩ :=
    (handleExec_args hs archTaskFrameInit 0x400000 0x400010 0x400028).1 aPath [aPath, bPath] [aSetting] hargs
      (twoSegments 4 6) 0x106000 _ himage (by decide +kernel)
  exact ⟨hok, sp, randomp, argp, envAddresses, hrsp, (hleft rfl).2⟩

example : (execCaller tightMap).phys.userView 0x101000 0x400000 = some (true, 47) := by decide +kernel

/-- The image loads, and there is no frame left for the stack. -/
theorem handleExec_args_tight : ¬ ∀ (k : Kernel) frame pathAddress argvAddress envpAddress, Sound k.phys k.cr3 →
    ∀ path arguments environment, ExecArgs k pathAddress argvAddress envpAddress path arguments environment →
      ∀ image space phys, ExecImage k path image space phys →
        ArgsArrive k frame pathAddress argvAddress envpAddress path (execArguments path arguments) environment image space
          phys := by
  intro h
  have hargs : ExecArgs (execCaller tightMap) 0x400000 0x400010 0x400028 aPath [aPath, bPath] [aSetting] :=
    execCaller_args (by unfold UserBytes; decide +kernel)
  have himage := execCaller_image (rfl : ((execCaller tightMap).phys.vmmSpaceCreate 0x101000).2 = _)
    (by decide +kernel) (by decide +kernel) (by decide +kernel) (by decide +kernel) (by decide +kernel) (by decide +kernel)
  obtain ⟨-, -, -, -, -, -, hok, -⟩ := h (execCaller tightMap) archTaskFrameInit 0x400000 0x400010 0x400028
    (execCaller_sound tightMap_ok (by decide +kernel)) aPath [aPath, bPath] [aSetting] hargs (twoSegments 4 6) 0x106000 _ himage
  revert hok
  decide +kernel

end Kernel

end NarcOs
