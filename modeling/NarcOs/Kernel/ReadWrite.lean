import NarcOs.Kernel.StreamLaws

/-!
# The calls that read and write

`handle_read` and `handle_write` of `kernel/syscall.c`. A read goes through a buffer of
512 bytes, and a write goes page by page through the user's memory. Every byte that
leaves a source arrives, and every byte that is reported as written was taken; what
`vfs_read` itself gets wrong is seen here as well.
-/

namespace NarcOs

inductive IoError
  | badHandle
  | isDirectory
  | badAddress
  | ioError
  deriving DecidableEq

/-- A loop that is not at its end after the rounds given, that waits for the console, or
that ended. -/
inductive Progress (α : Type)
  | running
  | waits
  | ended (result : α)

def chunkSize : Nat := 512

namespace Io

def isDirectory (io : Io) (fd : Int32) : Bool :=
  match io.kernel.taskFdFile fd with
  | none => false
  | some f => (io.kernel.openFile f).file.node.any fun n => (io.kernel.vfs.node n).type = .dir

/-- The loop of `handle_read`. -/
def readChunks (m : Machine) (fd : Int32) (buffer length : Nat) : Nat → Nat → Io → Progress (Except IoError Nat × Io)
  | 0, _, _ => .running
  | rounds + 1, done, io =>
    if ¬ done < length then .ended (.ok done, io)
    else
      let want := if length - done > chunkSize then chunkSize else length - done
      match io.taskFdRead fd want with
      | none => .waits
      | some (none, io) => .ended (if done ≠ 0 then .ok done else .error .ioError, io)
      | some (some bytes, io) =>
        if bytes.length = 0 then .ended (.ok done, io)
        else
          match m.vmm.copyToUser io.kernel.cr3 io.phys (wrap64 (buffer + done)) bytes with
          | (false, phys) => .ended (.error .badAddress, io.setPhys phys)
          | (true, phys) =>
            let done := wrap64 (done + bytes.length)
            if bytes.length < want then .ended (.ok done, io.setPhys phys)
            else readChunks m fd buffer length rounds done (io.setPhys phys)

def handleRead (m : Machine) (rounds : Nat) (io : Io) (fd buffer length : Nat) : Progress (Except IoError Nat × Io) :=
  if ¬ io.kernel.taskFdValid (Int32.ofNat fd) then .ended (.error .badHandle, io)
  else if io.isDirectory (Int32.ofNat fd) then .ended (.error .isDirectory, io)
  else if ¬ m.vmm.userRangeOk io.phys io.kernel.cr3 buffer length true then .ended (.error .badAddress, io)
  else readChunks m (Int32.ofNat fd) buffer length rounds 0 io

/-- The loop of `handle_write`. -/
def writeChunks (m : Machine) (fd : Int32) (buffer length : Nat) : Nat → Nat → Io → Progress (Except IoError Nat × Io)
  | 0, _, _ => .running
  | rounds + 1, done, io =>
    if ¬ done < length then .ended (.ok done, io)
    else
      let ptr := wrap64 (buffer + done)
      let phys := m.vmm.userPhys io.phys io.kernel.cr3 ptr
      if phys = 0 then .ended (.error .badAddress, io)
      else
        let chunk := Phys.chunkTo ptr (length - done)
        match io.taskFdWrite fd (io.phys.mem.read phys chunk) with
        | (none, io) => .ended (if done ≠ 0 then .ok done else .error .ioError, io)
        | (some wrote, io) =>
          let done := wrap64 (done + wrote)
          if wrote < chunk then .ended (.ok done, io) else writeChunks m fd buffer length rounds done io

def handleWrite (m : Machine) (rounds : Nat) (io : Io) (fd buffer length : Nat) : Progress (Except IoError Nat × Io) :=
  if ¬ io.kernel.taskFdValid (Int32.ofNat fd) then .ended (.error .badHandle, io)
  else if ¬ m.vmm.userRangeOk io.phys io.kernel.cr3 buffer length false then .ended (.error .badAddress, io)
  else writeChunks m (Int32.ofNat fd) buffer length rounds 0 io

-- ---------------------------------------------------------------------------
-- Reading
-- ---------------------------------------------------------------------------

variable {m : Machine} {K : Set Nat} {kids : Fin 512 → PTree} {io io' io₁ io₂ : Io} {fd : Int32}
  {buffer length left : Nat} {bytes : List UInt8}

/-- `vfs_read` is right about every piece of 512 bytes. -/
def ReadsRight (io : Io) (fd : Int32) (left : Nat) : Prop :=
  ∀ n file, io.readable fd = some (n, file) → ∀ j, chunkSize * j < left →
    io.kernel.vfs.ReadsArray n (io.kernel.vfs.contents n) (file.offset + chunkSize * j) (min chunkSize (left - chunkSize * j))

theorem readsArray_end {s : Vfs} {n : Ptr} {offset len : Nat} (h : (s.node n).size ≤ offset) :
    s.ReadsArray n (s.contents n) offset len := by
  refine .inr (.inr fun i hi => ?_)
  rw [Vfs.length_contents] at hi
  omega

theorem Took.atEnd (h : io.Took fd (min chunkSize left) bytes io') (hshort : bytes.length ≠ chunkSize) :
    io'.ReadsRight fd (left - bytes.length) := by
  intro n file hfile j hj
  cases hio : io.readable fd with
  | none =>
    rw [h.other hio] at hfile
    cases hfile
  | some x =>
    obtain ⟨n', file'⟩ := x
    obtain ⟨hmoved, hlen⟩ := h.moved n' file' hio
    rw [hfile] at hmoved
    cases hmoved
    rw [h.vfs]
    exact readsArray_end (by dsimp only; omega)

theorem Took.readsRight (h : io.Took fd (min chunkSize left) bytes io') (hleft : 0 < left) : io.ReadsRight fd left ↔
    (∀ n file, io.readable fd = some (n, file) →
      io.kernel.vfs.ReadsArray n (io.kernel.vfs.contents n) file.offset (min chunkSize left)) ∧
    io'.ReadsRight fd (left - bytes.length) := by
  constructor
  · refine fun hr => ⟨fun n file hfile => ?_, ?_⟩
    · simpa using hr n file hfile 0 hleft
    by_cases hfull : bytes.length = chunkSize
    · intro n file hfile j hj
      cases hio : io.readable fd with
      | none =>
        rw [h.other hio] at hfile
        cases hfile
      | some x =>
        obtain ⟨n', file'⟩ := x
        obtain ⟨hmoved, -⟩ := h.moved n' file' hio
        rw [hfile] at hmoved
        cases hmoved
        have hnext := hr _ file' hio (j + 1)
        rw [Nat.mul_add, Nat.mul_one] at hnext
        have hnext := hnext (by omega)
        rw [h.vfs, hfull]
        rwa [show file'.offset + chunkSize + chunkSize * j = file'.offset + (chunkSize * j + chunkSize) by omega,
          show left - chunkSize - chunkSize * j = left - (chunkSize * j + chunkSize) by omega]
    · exact h.atEnd hfull
  · rintro ⟨hfirst, hrest⟩ n file hfile j hj
    obtain ⟨hmoved, hlen⟩ := h.moved n file hfile
    cases j with
    | zero => simpa using hfirst n file hfile
    | succ j =>
      rw [Nat.mul_add, Nat.mul_one] at hj ⊢
      by_cases hfull : bytes.length = chunkSize
      · have hnext := hrest n _ hmoved j (by omega)
        rw [h.vfs, hfull] at hnext
        rwa [show file.offset + (chunkSize * j + chunkSize) = file.offset + chunkSize + chunkSize * j by omega,
          show left - (chunkSize * j + chunkSize) = left - chunkSize - chunkSize * j by omega]
      · exact readsArray_end (by omega)

structure SameButUser (m : Machine) (K : Set Nat) (kids : Fin 512 → PTree) (io io' : Io) : Prop where
  ready : io'.Ready
  apart : io'.kernel.Apart m K kids
  source : ∀ fd, io'.source fd = io.source fd
  readable : ∀ fd, io'.readable fd = io.readable fd
  array : ∀ n a offset len, io'.kernel.vfs.ReadsArray n a offset len ↔ io.kernel.vfs.ReadsArray n a offset len
  contents : ∀ n, io'.kernel.vfs.contents n = io.kernel.vfs.contents n
  cr3 : io'.kernel.cr3 = io.kernel.cr3
  openFile : io'.kernel.openFile = io.kernel.openFile
  get : ∀ fd, io'.kernel.fdGet fd = io.kernel.fdGet fd

theorem SameButUser.refl (hready : io.Ready) (hA : io.kernel.Apart m K kids) : SameButUser m K kids io io :=
  ⟨hready, hA, fun _ => rfl, fun _ => rfl, fun _ _ _ _ => Iff.rfl, fun _ => rfl, rfl, rfl, fun _ => rfl⟩

theorem SameButUser.readsRight (h : SameButUser m K kids io io') : io'.ReadsRight fd left ↔ io.ReadsRight fd left := by
  unfold ReadsRight
  rw [h.readable]
  exact forall₂_congr fun n file => forall_congr' fun _ => forall₂_congr fun j _ => by
    rw [h.contents]
    exact h.array _ _ _ _

theorem Took.apart {len : Nat} (h : io.Took fd len bytes io') (hA : io.kernel.Apart m K kids) : io'.kernel.Apart m K kids := by
  obtain ⟨A, hframes, hforeign⟩ := hA.foreign
  have hcr3 := h.cr3
  have hphys : io'.kernel.phys = io.kernel.phys := congrArg Vfs.phys h.vfs
  refine ⟨?_, ?_, ?_, ?_, A, ?_, fun f hf => ?_⟩
  · rw [hphys, hcr3]
    exact hA.space
  · rw [hcr3]
    exact hA.distinct
  · rw [hcr3]
    exact hA.kernel
  · rw [h.pipes, h.pipe, hcr3]
    exact hA.pages
  · rw [h.vfs]
    exact hframes
  · rw [Kernel.Others, h.pipes, h.pipe, hcr3] at hf
    rw [h.vfs]
    exact hforeign f hf

theorem Ready.setUser (h : io.Ready) (hA : io.kernel.Apart m K kids) {mem : Mem}
    (hw : Mem.OnlyIn (sumFin fun j => m.layout.pte.pages (kids j)) io.phys.mem mem) :
    SameButUser m K kids io (io.setPhys { io.phys with mem := mem }) := by
  have hsame := hA.sameFile (fun f hf => (hA.userPages f hf).1) hw
  have hcontents := fun n => (hsame n).contents
  refine ⟨⟨fun fd f hf => ?_, h.pipes, h.queues, h.console⟩, hA.setMem hA.userPages hw, fun fd => ?_, fun fd => rfl,
    fun n a offset len => Iff.rfl, hcontents, rfl, rfl, fun _ => rfl⟩
  · obtain ⟨n, hn, hfilled, hoff⟩ := h.files fd f hf
    exact ⟨n, hn, (hsame n).filled hfilled, hoff⟩
  · have hget' : (io.setPhys { io.phys with mem := mem }).kernel.fdGet fd = io.kernel.fdGet fd := rfl
    have htype' : ∀ f, (io.setPhys { io.phys with mem := mem }).kernel.openFile f = io.kernel.openFile f := fun _ => rfl
    simp only [source, hget', htype']
    cases hget : io.kernel.fdGet fd with
    | none => rfl
    | some f =>
      cases htype : (io.kernel.openFile f).type with
      | vfs =>
        simp only [htype]
        refine congrArg (fun contents => Option.elim _ [] contents) (funext fun n => ?_)
        exact congrArg (List.drop _) (hcontents n)
      | console =>
        simp only [htype]
        rfl
      | pipeR =>
        obtain ⟨q, hq, hpipe⟩ := h.pipes fd f hget (.inl htype)
        simp only [htype, hpipe, Option.elim_some]
        refine Ring.queue_congr (h.queues q hq).1 fun i hi => hw _ fun g hg => ?_
        have hpage := hA.isFrame (hA.pipePage hq _ (Multiset.mem_singleton_self _)).1
        have hd := hpage.disjoint (hA.isFrame (hA.userPages g hg).1) fun he =>
          (hA.pages q hq).2 (he ▸ Multiset.mem_add.mpr (.inr hg))
        rw [pipeSize, pageSize] at hi
        show (io.kernel.pipe q).page + i < g ∨ g + 4096 ≤ (io.kernel.pipe q).page + i
        omega
      | pipeW => simp only [htype]

structure Delivered (m : Machine) (kids : Fin 512 → PTree) (io : Io) (fd : Int32) (virt left : Nat) (bytes : List UInt8)
    (io' : Io) : Prop where
  length : bytes.length ≤ left
  copied : (m.layout.pageMap kids).Copied virt bytes io.phys.mem io'.phys.mem
  source : io'.source fd = (io.source fd).drop bytes.length
  enough : bytes.length ≤ (io.source fd).length
  right : bytes = (io.source fd).take bytes.length ↔ io.ReadsRight fd left
  moved : ∀ n file, io.readable fd = some (n, file) →
    io'.readable fd = some (n, { file with offset := file.offset + bytes.length })

theorem Delivered.stop {virt : Nat} (h : io.ReadsRight fd left) : Delivered m kids io fd virt left [] io where
  length := Nat.zero_le _
  copied := PageMap.copied_nil _ _ _
  source := rfl
  enough := Nat.zero_le _
  right := iff_of_true rfl h
  moved _ _ hr := hr

theorem readsRight_zero (io : Io) (fd : Int32) : io.ReadsRight fd 0 := fun _ _ _ _ hj => absurd hj (Nat.not_lt_zero _)

theorem readsRight_none (h : io.readable fd = none) : io.ReadsRight fd left := fun n file hr => by
  rw [h] at hr
  cases hr

theorem Delivered.append {virt : Nat} {cs : List UInt8} (hL : m.layout.Lawful) (hA : io.kernel.Apart m K kids)
    (hacc : m.layout.Accessible (m.layout.pageMap kids) virt left true)
    (htook : io.Took fd (min chunkSize left) bytes io₁) (hleft : 0 < left)
    (hcopied : (m.layout.pageMap kids).Copied virt bytes io.phys.mem io₂.phys.mem) (hsame : SameButUser m K kids io₁ io₂)
    (hrest : Delivered m kids io₂ fd (virt + bytes.length) (left - bytes.length) cs io') :
    Delivered m kids io fd virt left (bytes ++ cs) io' := by
  have hlen := htook.length
  have henough := htook.enough
  have hsource₂ : io₂.source fd = (io.source fd).drop bytes.length := (hsame.source fd).trans htook.source
  refine ⟨?_, ?_, ?_, ?_, ?_, fun n file hr => ?_⟩
  · have := hrest.length
    rw [List.length_append]
    omega
  · refine hcopied.append hrest.copied fun i hi j hj => ?_
    have := hrest.length
    rw [Nat.add_assoc]
    exact hA.space.places_ne hL hA.distinct hacc (by omega) (by omega) (by omega)
  · rw [hrest.source, hsource₂, List.drop_drop, List.length_append]
  · have := hrest.enough
    rw [hsource₂, List.length_drop] at this
    rw [List.length_append]
    omega
  · have hsplit : (io.source fd).take (bytes ++ cs).length = (io.source fd).take bytes.length ++ (io₂.source fd).take cs.length := by
      rw [List.length_append, List.take_add, hsource₂]
    have htakelen : bytes.length = ((io.source fd).take bytes.length).length := (List.length_take_of_le henough).symm
    rw [hsplit, htook.readsRight hleft, ← htook.right, ← hsame.readsRight, ← hrest.right]
    exact ⟨fun h => List.append_inj h htakelen, fun h => congrArg₂ (· ++ ·) h.1 h.2⟩
  · obtain ⟨hmoved, -⟩ := htook.moved n file hr
    rw [← hsame.readable] at hmoved
    rw [hrest.moved n _ hmoved, List.length_append, Nat.add_assoc]

theorem want_eq (left : Nat) : (if left > chunkSize then chunkSize else left) = min chunkSize left := by split <;> omega

/-- The loop of `handle_read` ends, or it waits for the console. -/
theorem readChunks_spec (hacc : m.layout.Accessible (m.layout.pageMap kids) buffer length true) (rounds : Nat) {done : Nat}
    (hready : io.Ready) (hA : io.kernel.Apart m K kids) (hdone : done ≤ length) (hrounds : length - done < rounds) :
    match readChunks m fd buffer length rounds done io with
    | .running => False
    | .waits => io.readable fd = none
    | .ended (result, io') => ∃ bytes, Delivered m kids io fd (buffer + done) (length - done) bytes io' ∧
        (result = .ok (done + bytes.length) ∨ result = .error .ioError ∧ done = 0 ∧ bytes = [] ∧ io' = io) := by
  induction rounds generalizing done io with
  | zero => exact absurd hrounds (Nat.not_lt_zero _)
  | succ rounds ih =>
    rw [readChunks]
    by_cases hlt : done < length
    swap
    · rw [if_pos hlt, show length - done = 0 by omega]
      exact ⟨[], .stop (readsRight_zero io fd), .inl rfl⟩
    have hend := m.userEnd_lt.1
    have hlast := hacc.lt (Nat.sub_lt (Nat.zero_lt_of_lt hlt) Nat.one_pos)
    have hwrap : wrap64 (buffer + done) = buffer + done := Nat.mod_eq_of_lt (by omega)
    have hrange : m.layout.Accessible (m.layout.pageMap kids) (buffer + done) (length - done) true := hacc.drop
    simp only [hlt, not_true_eq_false, if_false, want_eq, hwrap]
    have htook := hready.taskFdRead fd (min chunkSize (length - done))
    generalize io.taskFdRead fd (min chunkSize (length - done)) = r at htook ⊢
    match r with
    | none => exact htook
    | some (none, io₁) =>
      obtain ⟨rfl, hnone⟩ := htook
      refine ⟨[], .stop (readsRight_none hnone), ?_⟩
      by_cases hz : done = 0
      · exact .inr ⟨if_neg (not_not.mpr hz), hz, rfl, rfl⟩
      · exact .inl (if_pos hz)
    | some (some bytes, io₁) =>
      simp only at htook ⊢
      have hleft : 0 < length - done := Nat.sub_pos_of_lt hlt
      have hlen := htook.length
      have hA₁ := htook.apart hA
      have hphys : io₁.phys = io.phys := congrArg Vfs.phys htook.vfs
      by_cases hz : bytes.length = 0
      · obtain rfl := List.length_eq_zero_iff.mp hz
        have hrest : io₁.ReadsRight fd (length - done - 0) := htook.atEnd (by decide)
        refine ⟨[], Delivered.append m.lawful hA hrange htook hleft ?_ (.refl htook.ready hA₁) (.stop hrest), .inl rfl⟩
        rw [hphys]
        exact PageMap.copied_nil _ _ _
      have hbytes : m.layout.Accessible (m.layout.pageMap kids) (buffer + done) bytes.length true := fun i hi =>
        hrange i (by omega)
      obtain ⟨mem, hcopy, hcopied⟩ := m.copyToUser_copied hA₁.space hA₁.distinct hA₁.kernel hbytes
      have hsame := htook.ready.setUser hA₁ (hA₁.space.copied_onlyIn m.lawful hbytes hcopied)
      rw [show io₁.kernel.phys = io₁.phys from rfl] at hcopy hcopied
      rw [hphys] at hcopied
      have hcopied : (m.layout.pageMap kids).Copied (buffer + done) bytes io.phys.mem
          (io₁.setPhys { io₁.phys with mem := mem }).phys.mem := hcopied
      have hdone' : wrap64 (done + bytes.length) = done + bytes.length := Nat.mod_eq_of_lt (by omega)
      simp only [hz, if_false, hcopy, hdone']
      by_cases hshort : bytes.length < min chunkSize (length - done)
      · rw [if_pos hshort]
        have hrest := hsame.readsRight.mpr (htook.atEnd (by omega))
        have hall := Delivered.append m.lawful hA hrange htook hleft hcopied hsame (.stop hrest)
        rw [List.append_nil] at hall
        exact ⟨bytes, hall, .inl rfl⟩
      · rw [if_neg hshort]
        have hnext := @ih (io₁.setPhys { io₁.phys with mem := mem }) (done + bytes.length) hsame.ready hsame.apart (by omega) (by omega)
        generalize readChunks m fd buffer length rounds (done + bytes.length) _ = r at hnext ⊢
        match r with
        | .running => exact hnext
        | .waits =>
          have hnone : io₁.readable fd = none := (hsame.readable fd).symm.trans hnext
          refine Option.eq_none_iff_forall_ne_some.mpr fun x hio => ?_
          obtain ⟨hmoved, -⟩ := htook.moved x.1 x.2 hio
          rw [hnone] at hmoved
          cases hmoved
        | .ended (result, io') =>
          obtain ⟨cs, hdelivered, hresult⟩ := hnext
          rw [← Nat.add_assoc, ← Nat.sub_sub] at hdelivered
          refine ⟨bytes ++ cs, Delivered.append m.lawful hA hrange htook hleft hcopied hsame hdelivered, ?_⟩
          rcases hresult with rfl | ⟨-, hz', -, -⟩
          · exact .inl (by rw [List.length_append, Nat.add_assoc])
          · omega

-- ---------------------------------------------------------------------------
-- Writing
-- ---------------------------------------------------------------------------

def userBytes (m : Machine) (io : Io) (virt len : Nat) : List UInt8 :=
  (List.range len).map fun i => io.phys.mem (m.vmm.userPhys io.phys io.kernel.cr3 (virt + i))

theorem userBytes_eq {virt len : Nat} {write : Bool} (hA : io.kernel.Apart m K kids)
    (hacc : m.layout.Accessible (m.layout.pageMap kids) virt len write) :
    userBytes m io virt len = (List.range len).map fun i => io.phys.mem ((m.layout.pageMap kids).phys (virt + i)) := by
  refine List.map_congr_left fun i hi => ?_
  have hv := Nat.lt_of_lt_of_le (hacc.lt (List.mem_range.mp hi)) m.lawful.userEnd_le
  rw [m.vmm_eq]
  exact congrArg io.phys.mem (hA.space.userPhys hv)

theorem Gave.userBytes {virt len : Nat} {write : Bool} (h : Gave m K kids io fd bytes io') (hA : io.kernel.Apart m K kids)
    (hacc : m.layout.Accessible (m.layout.pageMap kids) virt len write) :
    Io.userBytes m io' virt len = Io.userBytes m io virt len := by
  rw [userBytes_eq h.apart hacc, userBytes_eq hA hacc]
  refine List.map_congr_left fun i hi => ?_
  have hi := List.mem_range.mp hi
  obtain ⟨e, he⟩ := Option.isSome_iff_exists.mp (hacc.get hi)
  obtain ⟨-, hmem, hphys⟩ := hA.space.get (Nat.lt_of_lt_of_le (hacc.lt hi) m.lawful.userEnd_le) he
  rw [hphys]
  exact h.user _ hmem _ (Nat.mod_lt _ (by decide))

theorem userBytes_add (m : Machine) (io : Io) (virt c rest : Nat) :
    userBytes m io virt (c + rest) = userBytes m io virt c ++ userBytes m io (virt + c) rest := by
  simp [userBytes, List.range_add, Nat.add_assoc]

@[simp] theorem length_userBytes (m : Machine) (io : Io) (virt len : Nat) : (userBytes m io virt len).length = len := by
  simp [userBytes]

/-- The loop of `handle_write` ends; what was given are the first bytes. -/
theorem writeChunks_spec (hacc : m.layout.Accessible (m.layout.pageMap kids) buffer length false) (rounds : Nat) {done : Nat}
    (hready : io.Ready) (hA : io.kernel.Apart m K kids) (hdone : done ≤ length) (hrounds : length - done < rounds) :
    ∃ result n io', writeChunks m fd buffer length rounds done io = .ended (result, io') ∧ n ≤ length - done ∧
      Gave m K kids io fd ((userBytes m io (buffer + done) (length - done)).take n) io' ∧
      (result = .ok (done + n) ∨ result = .error .ioError ∧ done = 0 ∧ n = 0) := by
  induction rounds generalizing done io with
  | zero => exact absurd hrounds (Nat.not_lt_zero _)
  | succ rounds ih =>
    rw [writeChunks]
    by_cases hlt : done < length
    swap
    · rw [if_pos hlt]
      exact ⟨_, 0, io, rfl, Nat.zero_le _, .refl hready hA fd, .inl rfl⟩
    have hend := m.userEnd_lt.1
    have hleft : 0 < length - done := Nat.sub_pos_of_lt hlt
    have hlast := hacc.lt (Nat.sub_lt (Nat.zero_lt_of_lt hlt) Nat.one_pos)
    have hwrap : wrap64 (buffer + done) = buffer + done := Nat.mod_eq_of_lt (by omega)
    have hrange : m.layout.Accessible (m.layout.pageMap kids) (buffer + done) (length - done) false := hacc.drop
    obtain ⟨hphys, hne, hplace⟩ := hA.space.chunk m.lawful hleft hrange
    rw [← m.vmm_eq] at hphys
    have hc := @chunkTo_pos (buffer + done) _ hleft
    have hle := (chunkTo_le (buffer + done) (length - done)).1
    have hphys : m.vmm.userPhys io.phys io.kernel.cr3 (buffer + done) = (m.layout.pageMap kids).phys (buffer + done) := hphys
    simp only [hlt, not_true_eq_false, if_false, hwrap, hphys, hne]
    generalize Phys.chunkTo (buffer + done) (length - done) = chunk at hplace hc hle ⊢
    -- the chunk has the user's next bytes
    have hchunk : io.phys.mem.read ((m.layout.pageMap kids).phys (buffer + done)) chunk = userBytes m io (buffer + done) chunk := by
      rw [@userBytes_eq m K kids io (buffer + done) chunk false hA fun i hi => hrange i (by omega)]
      exact List.map_congr_left fun i hi => by rw [hplace i (List.mem_range.mp hi)]
    obtain ⟨rest, hrest⟩ := Nat.exists_eq_add_of_le hle
    have hsplit : userBytes m io (buffer + done) (length - done) =
        userBytes m io (buffer + done) chunk ++ userBytes m io (buffer + done + chunk) rest := by
      rw [hrest, userBytes_add]
    have htake : ∀ n ≤ chunk, (userBytes m io (buffer + done) (length - done)).take n = (userBytes m io (buffer + done) chunk).take n :=
      fun n hn => by rw [hsplit, List.take_append_of_le_length (by rw [length_userBytes]; exact hn)]
    rw [hchunk]
    have hgave := @Ready.taskFdWrite io (userBytes m io (buffer + done) chunk) m K kids hready hA fd
      (List.ne_nil_of_length_pos (by rw [length_userBytes]; exact hc))
    generalize io.taskFdWrite fd (userBytes m io (buffer + done) chunk) = r at hgave ⊢
    match r with
    | (none, io₁) =>
      refine ⟨_, 0, io₁, rfl, Nat.zero_le _, hgave, ?_⟩
      by_cases hz : done = 0
      · exact .inr ⟨if_neg (not_not.mpr hz), hz, rfl⟩
      · exact .inl (if_pos hz)
    | (some wrote, io₁) =>
      obtain ⟨hwrote, hgave⟩ := hgave
      rw [length_userBytes] at hwrote
      have hdone' : wrap64 (done + wrote) = done + wrote := Nat.mod_eq_of_lt (by omega)
      simp only [hdone']
      by_cases hshort : wrote < chunk
      · rw [if_pos hshort]
        refine ⟨_, wrote, io₁, rfl, by omega, ?_, .inl rfl⟩
        rw [htake wrote hwrote]
        exact hgave
      · rw [if_neg hshort]
        obtain rfl : wrote = chunk := by omega
        obtain ⟨result, n, io', hloop, hn, hgave', hresult⟩ := @ih io₁ (done + wrote) hgave.ready hgave.apart (by omega) (by omega)
        refine ⟨result, wrote + n, io', hloop, by omega, ?_, ?_⟩
        · have hlater : m.layout.Accessible (m.layout.pageMap kids) (buffer + (done + wrote)) (length - (done + wrote)) false :=
            hacc.drop
          rw [hgave.userBytes hA hlater] at hgave'
          have hall := hgave.append hgave'
          rw [List.take_of_length_le (by rw [length_userBytes])] at hall
          rw [hsplit, List.take_append, length_userBytes, List.take_of_length_le (by rw [length_userBytes]; omega),
            Nat.add_sub_cancel_left]
          rw [show length - (done + wrote) = rest by omega, ← Nat.add_assoc] at hall
          exact hall
        · rcases hresult with rfl | ⟨-, hz, -⟩
          · exact .inl (by rw [Nat.add_assoc])
          · omega

-- ---------------------------------------------------------------------------
-- The calls
-- ---------------------------------------------------------------------------

/-- A read that succeeded took as many bytes from its source as it reports, and these are
at the user's buffer, with nothing else changed. A read that failed took none. -/
def ReadAccounts (m : Machine) (io : Io) (fd : Int32) (buffer length : Nat) (result : Except IoError Nat) (io' : Io) : Prop :=
  match result with
  | .ok n => n ≤ length ∧ ∃ bytes, bytes.length = n ∧ io.source fd = bytes ++ io'.source fd ∧
      (∀ i < n, io'.phys.mem (m.vmm.userPhys io.phys io.kernel.cr3 (buffer + i)) = bytes.getD i 0) ∧
      (∀ x, (∀ i < n, x ≠ m.vmm.userPhys io.phys io.kernel.cr3 (buffer + i)) → io'.phys.mem x = io.phys.mem x) ∧
      ∀ node file, io.readable fd = some (node, file) →
        io'.readable fd = some (node, { file with offset := file.offset + n })
  | .error _ => io' = io

/-- A write that succeeded gave as many of the user's bytes as it reports, and one that
failed gave none. -/
def WriteAccounts (m : Machine) (io : Io) (fd : Int32) (buffer length : Nat) (result : Except IoError Nat) (io' : Io) : Prop :=
  match result with
  | .ok n => n ≤ length ∧ io.Accepts fd ((userBytes m io buffer length).take n) io'
  | .error _ => io.Accepts fd [] io'

theorem Apart.accessible_iff (hA : io.kernel.Apart m K kids) (buffer length : Nat) (write : Bool) :
    m.vmm.userRangeOk io.phys io.kernel.cr3 buffer length write = true ↔
      m.layout.Accessible (m.layout.pageMap kids) buffer length write := by
  rw [m.vmm_eq]
  exact (hA.space.userRangeOk m.shape buffer length write).trans hA.space.accessible_iff

theorem checks_of_readable {x : Ptr × File} (h : io.readable fd = some x) :
    io.kernel.taskFdValid fd = true ∧ io.isDirectory fd = false := by
  obtain ⟨f, hget, htype, hfile, hn, hreg, -⟩ := readable_eq_some.mp h
  constructor
  · rw [Kernel.taskFdValid, hget]
    rfl
  · rw [isDirectory, taskFdFile_eq_some.mpr ⟨hget, htype⟩]
    simp only [hfile, hn, Option.any_some, hreg]
    rfl

theorem handleRead_spec (hready : io.Ready) (hA : io.kernel.Apart m K kids) (fd buffer length : Nat) {rounds : Nat}
    (hrounds : length < rounds) :
    match handleRead m rounds io fd buffer length with
    | .running => False
    | .waits => io.readable (Int32.ofNat fd) = none
    | .ended (result, io') => ReadAccounts m io (Int32.ofNat fd) buffer length result io' ↔
        (m.vmm.userRangeOk io.phys io.kernel.cr3 buffer length true = true → io.ReadsRight (Int32.ofNat fd) length) := by
  have hnone : io.readable (Int32.ofNat fd) = none → io.ReadsRight (Int32.ofNat fd) length := readsRight_none
  unfold handleRead
  by_cases hvalid : io.kernel.taskFdValid (Int32.ofNat fd) = true
  swap
  · rw [if_pos hvalid]
    refine iff_of_true rfl fun _ => hnone (Option.eq_none_iff_forall_ne_some.mpr fun x hx => ?_)
    exact hvalid (checks_of_readable hx).1
  rw [if_neg (not_not.mpr hvalid)]
  by_cases hdir : io.isDirectory (Int32.ofNat fd) = true
  · rw [if_pos hdir]
    refine iff_of_true rfl fun _ => hnone (Option.eq_none_iff_forall_ne_some.mpr fun x hx => ?_)
    rw [(checks_of_readable hx).2] at hdir
    cases hdir
  rw [if_neg hdir]
  by_cases hok : m.vmm.userRangeOk io.phys io.kernel.cr3 buffer length true = true
  swap
  · rw [if_pos hok]
    exact iff_of_true rfl fun h => absurd h hok
  rw [if_neg (not_not.mpr hok)]
  have hacc := (Apart.accessible_iff hA buffer length true).mp hok
  have hspec := @readChunks_spec m K kids io (Int32.ofNat fd) buffer length hacc rounds 0 hready hA (Nat.zero_le _)
    (by rw [Nat.sub_zero]; exact hrounds)
  generalize readChunks m (Int32.ofNat fd) buffer length rounds 0 io = r at hspec ⊢
  match r with
  | .running => exact hspec
  | .waits => exact hspec
  | .ended (result, io') =>
    obtain ⟨bytes, hd, hresult⟩ := hspec
    rw [Nat.add_zero, Nat.sub_zero] at hd
    simp only [hok, forall_const]
    rw [← hd.right]
    rcases hresult with rfl | ⟨rfl, -, rfl, rfl⟩
    · have hphys : ∀ i < bytes.length, m.vmm.userPhys io.phys io.kernel.cr3 (buffer + i) = (m.layout.pageMap kids).phys (buffer + i) :=
        fun i hi => by
          have hv := hacc.lt (Nat.lt_of_lt_of_le hi hd.length)
          rw [m.vmm_eq]
          exact hA.space.userPhys (Nat.lt_of_lt_of_le hv m.lawful.userEnd_le)
      constructor
      · rintro ⟨-, cs, hlen, hsource, hin, -, -⟩
        rw [Nat.zero_add] at hlen hin
        have hcs : cs = (io.source (Int32.ofNat fd)).take bytes.length := by
          rw [hsource, ← hlen, List.take_left]
        rw [← hcs]
        refine List.ext_getElem hlen.symm fun i h₁ h₂ => ?_
        have hi := hin i h₁
        rw [hphys i h₁, hd.copied.inside i h₁, List.getD_eq_getElem _ 0 h₁, List.getD_eq_getElem _ 0 h₂] at hi
        exact hi
      · intro heq
        rw [ReadAccounts, Nat.zero_add]
        refine ⟨hd.length, bytes, rfl, ?_, fun i hi => ?_, fun x hx => hd.copied.outside x fun i hi => ?_, hd.moved⟩
        · rw [hd.source]
          conv_lhs => rw [← List.take_append_drop bytes.length (io.source (Int32.ofNat fd)), ← heq]
        · rw [hphys i hi]
          exact hd.copied.inside i hi
        · rw [← hphys i hi]
          exact hx i hi
    · exact iff_of_true rfl rfl

theorem handleWrite_spec (hready : io.Ready) (hA : io.kernel.Apart m K kids) (fd buffer length : Nat) {rounds : Nat}
    (hrounds : length < rounds) : ∃ result io', handleWrite m rounds io fd buffer length = .ended (result, io') ∧
      WriteAccounts m io (Int32.ofNat fd) buffer length result io' := by
  unfold handleWrite
  by_cases hvalid : io.kernel.taskFdValid (Int32.ofNat fd) = true
  swap
  · exact ⟨_, io, if_pos hvalid, .refl io _⟩
  rw [if_neg (not_not.mpr hvalid)]
  by_cases hok : m.vmm.userRangeOk io.phys io.kernel.cr3 buffer length false = true
  swap
  · exact ⟨_, io, if_pos hok, .refl io _⟩
  rw [if_neg (not_not.mpr hok)]
  have hacc := (Apart.accessible_iff hA buffer length false).mp hok
  obtain ⟨result, n, io', hloop, hn, hgave, hresult⟩ := @writeChunks_spec m K kids io (Int32.ofNat fd) buffer length hacc rounds 0
    hready hA (Nat.zero_le _) (by rw [Nat.sub_zero]; exact hrounds)
  refine ⟨result, io', hloop, ?_⟩
  have haccepts := hgave.accepts
  rw [Nat.add_zero, Nat.sub_zero] at haccepts
  rcases hresult with rfl | ⟨rfl, -, rfl⟩
  · rw [WriteAccounts, Nat.zero_add]
    exact ⟨hn, haccepts⟩
  · exact haccepts

/-- On every machine the two loops end. A write accounts for every byte, and a read does
exactly when `vfs_read` is right about each piece of 512 bytes. -/
theorem read_write_account (m : Machine) {K : Set Nat} {kids : Fin 512 → PTree} {io : Io} (ready : io.Ready)
    (apart : io.kernel.Apart m K kids) (fd buffer length : Nat) :
    (∀ rounds, length < rounds → handleRead m rounds io fd buffer length ≠ .running ∧
      ∃ result io', handleWrite m rounds io fd buffer length = .ended (result, io') ∧
        WriteAccounts m io (Int32.ofNat fd) buffer length result io') ∧
    ((∀ rounds, length < rounds → ∀ result io', handleRead m rounds io fd buffer length = .ended (result, io') →
        ReadAccounts m io (Int32.ofNat fd) buffer length result io') ↔
      (m.vmm.userRangeOk io.phys io.kernel.cr3 buffer length true = true → io.ReadsRight (Int32.ofNat fd) length)) := by
  have hread := fun rounds (h : length < rounds) => @handleRead_spec m K kids io ready apart fd buffer length rounds h
  refine ⟨fun rounds h => ⟨fun hrun => ?_, handleWrite_spec ready apart fd buffer length h⟩, ?_, ?_⟩
  · have hspec := hread rounds h
    rw [hrun] at hspec
    exact hspec
  · intro hall hok
    have hspec := hread (length + 1) (Nat.lt_succ_self length)
    cases hr : handleRead m (length + 1) io fd buffer length with
    | running =>
      rw [hr] at hspec
      exact hspec.elim
    | waits =>
      rw [hr] at hspec
      exact readsRight_none hspec
    | ended r =>
      rw [hr] at hspec
      exact hspec.mp (hall (length + 1) (Nat.lt_succ_self length) r.1 r.2 hr) hok
  · intro hright rounds h result io' hr
    have hspec := hread rounds h
    rw [hr] at hspec
    exact hspec.mpr hright

-- ---------------------------------------------------------------------------
-- A note of two letters
-- ---------------------------------------------------------------------------

attribute [local irreducible] smallMapped

def noteBoot : Vfs := Session.emptyBoot [some 3, some 4] smallMapped.phys

def noteOpened : Vfs := (noteBoot.vfsOpen ⟨[47, 97], CString.noNul_slash_a⟩ 7).2.2

def noteVfs : Vfs := (noteOpened.vfsWrite ⟨some 3, 0, 7⟩ [97, 98]).2.2

def noteKernel (vfs : Vfs) (position : Nat) : Kernel where
  vfs := vfs
  cr3 := smallMapped.root 0
  heap := []
  taskList := [20]
  task := fun _ => { pid := 1, state := .runnable, space := smallMapped.root 0, fds := [none, none, none, some 10] }
  nextPid := 2
  current := 20
  files := [10]
  openFile := fun _ => { refs := 1, type := .vfs, file := ⟨some 3, position, 7⟩ }
  pipes := []
  pipe := fun _ => {}

def noteIo (position : Nat) : Io where
  kernel := noteKernel noteVfs position
  queue := fun _ => {}
  console := {}

theorem noteIo_settled {position : Nat} (hp : position ≤ vfsFileMax) :
    ∃ kids, (noteIo position).Ready ∧ (noteIo position).kernel.Apart .x86_64 {0x1000} kids := by
  obtain ⟨O, hO, hst⟩ := smallStart_boot.stands
  obtain ⟨A, live, kids, h⟩ := (smallMapped_run.stands hO hst).2
  have hs : 0 ∈ live := h.live_iff.mpr (show smallMapped.root 0 ≠ 0 by decide +kernel)
  obtain ⟨hnd, hK⟩ := h.space_free hO hs
  have hloaded := Vfs.loaded_vfsInit (Session.vfsInit_emptyBoot [some 3, some 4] smallMapped.phys)
  have hspace : Machine.x86_64.layout.IsSpace {0x1000} smallMapped.phys.mem (smallMapped.root 0) (kids 0) := h.space 0 hs
  have hboot : (noteKernel noteBoot position).Apart .x86_64 {0x1000} (kids 0) := by
    refine ⟨hspace, (Multiset.nodup_add.mp hnd).2.1, fun f hf => ⟨(hK f hf).1, fun hm =>
      (hK f hf).2 (Multiset.mem_add.mpr (.inr hm))⟩, fun q hq => (by cases hq), A, hloaded.frames h.avail, fun f hf => ?_⟩
    have hframe : IsFrame f ∧ f ∉ A := by
      rcases hf with hf | hf | ⟨q, hq, -⟩
      · exact ⟨(hK f hf).1, fun hm => (hK f hf).2 (Multiset.mem_add.mpr (.inl hm))⟩
      · exact ⟨PteFormat.IsSpace.isFrame hspace hf, fun hm => not_mem_of_add hnd hm hf⟩
      · cases hq
    refine ⟨hframe.1, hframe.2, fun p i hi => hframe.1.pos ?_⟩
    rw [← hi]
    exact hloaded.pages p i
  have hopened := (hboot.setVfs (Vfs.vfsOpen_spares noteBoot ⟨[47, 97], by decide⟩ 7)).1
  obtain ⟨B, hB, -⟩ := hopened.foreign
  have hfilled : noteOpened.Filled 3 := by
    have hsize : (noteOpened.node 3).size = 0 := by decide +kernel
    have hslots : ∀ i < 16, noteOpened.slot 3 i = 0 := by decide +kernel
    refine ⟨by rw [hsize]; exact Nat.zero_le _, fun _ x hx => ?_, fun x hx => absurd ?_ hx⟩
    · rw [hsize] at hx
      exact absurd hx (Nat.not_lt_zero x)
    · by_cases hi : x / 4096 < 16
      · exact hslots _ hi
      · exact hB.bound 3 _ (Nat.not_lt.mp hi)
  have hwritten : (noteOpened.vfsWrite ⟨some 3, 0, 7⟩ [97, 98]).2.2.Spares noteOpened :=
    Vfs.vfsWrite_spares [97, 98] hB hfilled rfl (Nat.zero_le _)
  have hholds : (noteOpened.vfsWrite ⟨some 3, 0, 7⟩ [97, 98]).2.2.Holds noteOpened 3 _ :=
    (Vfs.vfsWrite_holds [97, 98] hB hfilled rfl (Nat.zero_le _)).1
  refine ⟨kids 0, ⟨fun fd f _ => ⟨3, rfl, hholds.filled, hp⟩, fun fd f hget htype => ?_, fun q hq => (by cases hq),
    ⟨le_rfl, Nat.zero_le _⟩⟩, (hopened.setVfs hwritten).1⟩
  rcases htype with htype | htype <;> cases htype

theorem noteIo_readable (position : Nat) : (noteIo position).readable 3 = some (3, ⟨some 3, position, 7⟩) := by
  have htype : (noteVfs.node 3).type = .reg := by decide +kernel
  have hread : (7 : OpenFlags).read = true := by decide
  exact readable_eq_some.mpr ⟨10, rfl, rfl, rfl, rfl, htype, hread⟩

/-- From its start the note is read as it was written. -/
theorem read_write_account_note : ∃ result io', handleRead .x86_64 3 (noteIo 0) 3 0x400000 2 = .ended (result, io') ∧
    ReadAccounts .x86_64 (noteIo 0) 3 0x400000 2 result io' := by
  obtain ⟨kids, hready, hapart⟩ := noteIo_settled (Nat.zero_le _)
  have haccounts := (read_write_account .x86_64 hready hapart 3 0x400000 2).2.mpr (fun _ n file hfile j hj => by
    rw [show Int32.ofNat 3 = 3 from rfl, noteIo_readable] at hfile
    cases hfile
    obtain rfl : j = 0 := by
      rw [chunkSize] at hj
      omega
    exact .inr (.inl rfl)) 3 (by decide)
  have hspec := @handleRead_spec .x86_64 {0x1000} kids (noteIo 0) hready hapart 3 0x400000 2 3 (by decide)
  cases hr : handleRead .x86_64 3 (noteIo 0) 3 0x400000 2 with
  | running =>
    rw [hr] at hspec
    exact hspec.elim
  | waits =>
    rw [hr] at hspec
    exact absurd ((noteIo_readable 0).symm.trans hspec) (Option.some_ne_none _)
  | ended r => exact ⟨r.1, r.2, rfl, haccounts r.1 r.2 hr⟩

/-- From its second letter a read delivers the first one. -/
theorem read_account_fails : ¬ ∀ (m : Machine) (K : Set Nat) (kids : Fin 512 → PTree) (io : Io), io.Ready →
    io.kernel.Apart m K kids → ∀ fd buffer length rounds, length < rounds → ∀ result io',
      handleRead m rounds io fd buffer length = .ended (result, io') →
        ReadAccounts m io (Int32.ofNat fd) buffer length result io' := by
  intro hall
  obtain ⟨kids, hready, hapart⟩ := @noteIo_settled 1 (by decide)
  have hspec := @handleRead_spec .x86_64 {0x1000} kids (noteIo 1) hready hapart 3 0x400000 1 2 (by decide)
  have hreadable := noteIo_readable 1
  have hok : Machine.x86_64.vmm.userRangeOk (noteIo 1).phys (noteIo 1).kernel.cr3 0x400000 1 true = true := by decide +kernel
  have hcontents : noteVfs.contents 3 = [97, 98] := by decide +kernel
  have harchive : (noteVfs.node 3).archive = none := by decide +kernel
  cases hr : handleRead .x86_64 2 (noteIo 1) 3 0x400000 1 with
  | running =>
    rw [hr] at hspec
    exact hspec
  | waits =>
    rw [hr] at hspec
    exact Option.some_ne_none _ (hreadable.symm.trans hspec)
  | ended r =>
    rw [hr] at hspec
    have hright := hspec.mp (hall .x86_64 {0x1000} kids (noteIo 1) hready hapart 3 0x400000 1 2 (by decide) r.1 r.2 hr) hok
    have hpiece : noteVfs.ReadsArray 3 (noteVfs.contents 3) 1 1 := hright 3 _ hreadable 0 (by decide)
    rcases hpiece with h | h | h
    · exact h harchive
    · cases h
    · have hbyte := h 0 (by rw [hcontents]; decide)
      rw [hcontents] at hbyte
      exact absurd hbyte (by decide)

end Io

end NarcOs
