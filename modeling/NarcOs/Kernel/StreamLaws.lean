import NarcOs.Fs.Arrays
import NarcOs.Kernel.Streams

/-!
# What a descriptor reads and writes

A descriptor that is read is the list of the bytes that are still to come, and one
that is written takes bytes at its end or, for a file, at its position. The calls are
about these lists as long as the user's pages, the files' and the pipes' are apart.
-/

namespace NarcOs

-- ---------------------------------------------------------------------------
-- The console
-- ---------------------------------------------------------------------------

theorem readLine_spec {input serial line echo rest : List UInt8} (h : readLine input serial = some (line, echo, rest))
    (hin : input.length ≤ inputSize) :
    line.length ≤ inputSize ∧ rest.length ≤ serial.length ∧ (input.length < inputSize → rest.length < serial.length) := by
  induction serial generalizing input line echo rest with
  | nil =>
    rw [readLine] at h
    split at h
    · cases h
    · rename_i hfull
      cases h
      exact ⟨hin, le_rfl, fun hlt => absurd hlt hfull⟩
  | cons c serial ih =>
    rw [readLine] at h
    split at h
    · rename_i hroom
      have hshorter : ∀ {next line echo rest}, readLine next serial = some (line, echo, rest) → next.length ≤ inputSize →
          line.length ≤ inputSize ∧ rest.length ≤ (c :: serial).length ∧
            (input.length < inputSize → rest.length < (c :: serial).length) := fun hr hnext => by
        obtain ⟨hline, hrest, -⟩ := ih hr hnext
        rw [List.length_cons]
        exact ⟨hline, by omega, fun _ => by omega⟩
      dsimp only at h
      generalize (if c = 13 then 10 else c) = c' at h
      split at h
      · obtain ⟨⟨line', echo', rest'⟩, hr, heq⟩ := Option.map_eq_some_iff.mp h
        cases heq
        exact hshorter hr (by rw [List.length_dropLast]; omega)
      split at h
      · exact hshorter h hin
      split at h
      · cases h
        rw [List.length_append, List.length_singleton, List.length_cons]
        exact ⟨hroom, by omega, fun _ => by omega⟩
      · obtain ⟨⟨line', echo', rest'⟩, hr, heq⟩ := Option.map_eq_some_iff.mp h
        cases heq
        exact hshorter hr (by rw [List.length_append, List.length_singleton]; exact hroom)
    · rename_i hfull
      cases h
      exact ⟨hin, le_rfl, fun hlt => absurd hlt hfull⟩

def lines (serial : List UInt8) : List UInt8 :=
  match _h : readLine [] serial with
  | none => []
  | some (line, _, rest) => line ++ lines rest
termination_by serial.length
decreasing_by exact (readLine_spec _h (Nat.zero_le _)).2.2 (by decide)

theorem lines_of_some {serial line echo rest : List UInt8} (h : readLine [] serial = some (line, echo, rest)) :
    lines serial = line ++ lines rest := by
  rw [lines]
  split
  · rename_i hn
    rw [hn] at h
    cases h
  · rename_i hs
    rw [hs] at h
    cases h
    rfl

namespace Console

variable {c c' : Console}

structure Ok (c : Console) : Prop where
  pos : c.inputPos ≤ c.input.length
  small : c.input.length ≤ inputSize

def typed (c : Console) : List UInt8 := c.input.drop c.inputPos ++ lines c.serial

theorem Ok.await (hc : c.Ok) (h : c.await = some c') : c'.Ok ∧ c'.typed = c.typed ∧ c'.inputPos ≤ c'.input.length := by
  unfold Console.await at h
  split at h
  · rename_i hend
    obtain ⟨⟨line, echo, rest⟩, hr, heq⟩ := Option.map_eq_some_iff.mp h
    cases heq
    refine ⟨⟨Nat.zero_le _, (readLine_spec hr (Nat.zero_le _)).1⟩, ?_, Nat.zero_le _⟩
    simp only [typed]
    rw [hend, List.drop_length, List.nil_append, List.drop_zero, lines_of_some hr]
  · cases h
    exact ⟨hc, rfl, hc.pos⟩

theorem Ok.take (hc : c.Ok) (len : Nat) : (c.take len).2.Ok ∧ (c.take len).1 ++ (c.take len).2.typed = c.typed ∧
    (c.take len).1.length ≤ len := by
  have hdone : (if len < c.input.length - c.inputPos then len else c.input.length - c.inputPos) =
      min len (c.input.length - c.inputPos) := by split <;> omega
  have hpos := hc.pos
  have hsmall := hc.small
  unfold Console.take
  simp only [hdone]
  have hle : min len (c.input.length - c.inputPos) ≤ c.input.length - c.inputPos := Nat.min_le_right _ _
  have hlen : min len (c.input.length - c.inputPos) ≤ len := Nat.min_le_left _ _
  generalize min len (c.input.length - c.inputPos) = done at hle hlen
  refine ⟨?_, ?_, (List.length_take_le _ _).trans hlen⟩
  · split
    · exact ⟨Nat.zero_le _, Nat.zero_le _⟩
    · exact ⟨show c.inputPos + done ≤ c.input.length by omega, hsmall⟩
  · have hsplit : c.input.drop c.inputPos = (c.input.drop c.inputPos).take done ++ c.input.drop (c.inputPos + done) := by
      rw [← List.drop_drop, List.take_append_drop]
    split
    · rename_i hend
      rw [hend, List.drop_length, List.append_nil] at hsplit
      rw [typed, typed, ← hsplit]
      rfl
    · rw [typed, typed, ← List.append_assoc]
      exact congrArg (· ++ lines c.serial) hsplit.symm

end Console

-- ---------------------------------------------------------------------------
-- Pipes
-- ---------------------------------------------------------------------------

theorem Mem.putRing_data (page head count : Nat) (bytes : List UInt8) (m : Mem) :
    (fun i => (m.putRing page head count bytes) (page + i)) = Ring.push pipeSize head count bytes fun i => m (page + i) := by
  induction bytes generalizing count m with
  | nil => rfl
  | cons b bytes ih =>
    rw [putRing, Ring.push, ih]
    refine congrArg _ (funext fun i => ?_)
    rw [Function.update_apply]
    by_cases hi : i = (head + count) % pipeSize
    · rw [if_pos hi, hi]
      exact write_apply_inside (i := 0) Nat.one_pos
    · rw [if_neg hi]
      refine write_apply_outside ?_
      rw [List.length_singleton]
      omega

theorem Mem.putRing_onlyIn (page head count : Nat) (bytes : List UInt8) (m : Mem) :
    Mem.OnlyIn {page} m (m.putRing page head count bytes) := by
  intro x hx
  have hx := hx page (Multiset.mem_singleton_self _)
  induction bytes generalizing count m with
  | nil => rfl
  | cons b bytes ih =>
    have hcell : (head + count) % pipeSize < 4096 := Nat.mod_lt (head + count) (by decide)
    rw [putRing, ih]
    refine write_apply_outside ?_
    rw [List.length_singleton]
    omega

-- ---------------------------------------------------------------------------
-- Frames of one kernel
-- ---------------------------------------------------------------------------

namespace Kernel

def Others (m : Machine) (K : Set Nat) (kids : Fin 512 → PTree) (k : Kernel) (f : Nat) : Prop :=
  f ∈ K ∨ f ∈ m.layout.pte.frames k.cr3 kids ∨ ∃ q ∈ k.pipes, f = (k.pipe q).page

/-- The tables and pages of the active space, the pipes' pages, the files' pages and the
free frames are apart. -/
structure Apart (m : Machine) (K : Set Nat) (kids : Fin 512 → PTree) (k : Kernel) : Prop where
  space : m.layout.IsSpace K k.phys.mem k.cr3 kids
  distinct : (m.layout.pte.frames k.cr3 kids).Nodup
  kernel : ∀ f ∈ K, IsFrame f ∧ f ∉ m.layout.pte.frames k.cr3 kids
  pages : ∀ q ∈ k.pipes, (k.pipe q).page ∉ K ∧ (k.pipe q).page ∉ m.layout.pte.frames k.cr3 kids
  foreign : ∃ A, k.vfs.Frames A ∧ ∀ f, k.Others m K kids f → k.vfs.Foreign A f

variable {m : Machine} {K : Set Nat} {kids : Fin 512 → PTree} {k : Kernel} {S : Multiset Nat} {mem : Mem}

theorem Apart.isFrame (h : k.Apart m K kids) {f : Nat} (hf : k.Others m K kids f) : IsFrame f := by
  obtain ⟨A, -, hforeign⟩ := h.foreign
  exact (hforeign f hf).frame

/-- A write to frames that are not the file system's leaves the files as they are. -/
theorem Apart.sameFile (h : k.Apart m K kids) (hS : ∀ f ∈ S, k.Others m K kids f) (hw : Mem.OnlyIn S k.phys.mem mem)
    (n : Ptr) : ({ k.vfs with phys := { k.vfs.phys with mem := mem } } : Vfs).SameFile k.vfs n := by
  obtain ⟨A, hA, hforeign⟩ := h.foreign
  refine ⟨rfl, rfl, rfl, rfl, fun x => hw _ fun f hf => ?_⟩
  have hf := hforeign f (hS f hf)
  show k.vfs.slot n (x / 4096) + x % 4096 < f ∨ _
  by_cases hz : k.vfs.slot n (x / 4096) = 0
  · have := hf.frame.pos
    have := hf.frame.aligned
    omega
  · have := (hA.frame n _ hz).disjoint hf.frame (hf.slot n _)
    show _ ∨ f + 4096 ≤ k.vfs.slot n (x / 4096) + x % 4096
    omega

/-- What is there stays apart when pages of user mode or of a pipe are written. -/
theorem Apart.setMem (h : k.Apart m K kids)
    (hS : ∀ f ∈ S, k.Others m K kids f ∧ f ∉ K ∧ f ∉ k.cr3 ::ₘ sumFin fun j => m.layout.pte.tables (kids j))
    (hw : Mem.OnlyIn S k.phys.mem mem) : (k.setPhys { k.phys with mem := mem }).Apart m K kids := by
  obtain ⟨A, hA, hforeign⟩ := h.foreign
  have hframes := hw.within fun f hf => h.isFrame (hS f hf).1
  refine ⟨?_, h.distinct, h.kernel, h.pages, A, ⟨?_, hA.frame, hA.held, hA.inj, hA.bound⟩, fun f hf =>
    ⟨(hforeign f hf).frame, (hforeign f hf).taken, (hforeign f hf).slot⟩⟩
  · exact PteFormat.IsSpace.within h.space hframes (fun f hf => ⟨(h.kernel f hf).1, fun hm => (hS f hm).2.1 hf⟩)
      fun f hf hm => (hS f hm).2.2 hf
  · exact hA.avail.within hframes (fun f hf hm => (hforeign f (hS f hm).1).taken hf) rfl

theorem Apart.setVfs (h : k.Apart m K kids) {vfs : Vfs} (hs : vfs.Spares k.vfs) :
    Apart m K kids { k with vfs := vfs } ∧ ∃ S, Mem.Within S k.phys.mem vfs.phys.mem ∧ ∀ f, k.Others m K kids f → f ∉ S := by
  obtain ⟨A, hA, hforeign⟩ := h.foreign
  obtain ⟨S, hS, hnot⟩ := hs.within A hA
  obtain ⟨B, hB, hkeep⟩ := hs.foreign A hA
  have hout : ∀ f, k.Others m K kids f → f ∉ S := fun f hf => hnot f (hforeign f hf)
  refine ⟨⟨?_, h.distinct, h.kernel, h.pages, B, hB, fun f hf => hkeep f (hforeign f hf)⟩, S, hS, hout⟩
  exact PteFormat.IsSpace.within h.space hS (fun f hf => ⟨(h.kernel f hf).1, hout f (.inl hf)⟩) fun f hf =>
    hout f (.inr (.inl (Multiset.mem_add.mpr (.inl hf))))

theorem Apart.userPages (h : k.Apart m K kids) : ∀ f ∈ sumFin fun j => m.layout.pte.pages (kids j),
    k.Others m K kids f ∧ f ∉ K ∧ f ∉ k.cr3 ::ₘ sumFin fun j => m.layout.pte.tables (kids j) := fun f hf => by
  have hmem : f ∈ m.layout.pte.frames k.cr3 kids := Multiset.mem_add.mpr (.inr hf)
  exact ⟨.inr (.inl hmem), fun hK => (h.kernel f hK).2 hmem, fun ht => not_mem_of_add h.distinct ht hf⟩

theorem Apart.pipePage (h : k.Apart m K kids) {q : Ptr} (hq : q ∈ k.pipes) : ∀ f ∈ ({(k.pipe q).page} : Multiset Nat),
    k.Others m K kids f ∧ f ∉ K ∧ f ∉ k.cr3 ::ₘ sumFin fun j => m.layout.pte.tables (kids j) := fun f hf => by
  obtain rfl := Multiset.mem_singleton.mp hf
  obtain ⟨hK, hframes⟩ := h.pages q hq
  exact ⟨.inr (.inr ⟨q, hq, rfl⟩), hK, fun ht => hframes (Multiset.mem_add.mpr (.inl ht))⟩

end Kernel

-- ---------------------------------------------------------------------------
-- Reading
-- ---------------------------------------------------------------------------

namespace Io

structure Ready (io : Io) : Prop where
  files : ∀ fd f, io.kernel.taskFdFile fd = some f → ∃ n, (io.kernel.openFile f).file.node = some n ∧
    io.kernel.vfs.Filled n ∧ (io.kernel.openFile f).file.offset ≤ vfsFileMax
  pipes : ∀ fd f, io.kernel.fdGet fd = some f →
    (io.kernel.openFile f).type = .pipeR ∨ (io.kernel.openFile f).type = .pipeW →
      ∃ q ∈ io.kernel.pipes, (io.kernel.openFile f).pipe = some q
  queues : ∀ q ∈ io.kernel.pipes, (io.queue q).head < pipeSize ∧ (io.queue q).count ≤ pipeSize
  console : io.console.Ok

def queued (io : Io) (q : Ptr) : List UInt8 := Ring.queue pipeSize (io.pipeData q) (io.queue q).head (io.queue q).count

def source (io : Io) (fd : Int32) : List UInt8 :=
  match io.kernel.fdGet fd with
  | none => []
  | some f =>
    match (io.kernel.openFile f).type with
    | .vfs => (io.kernel.openFile f).file.node.elim [] fun n =>
        (io.kernel.vfs.contents n).drop (io.kernel.openFile f).file.offset
    | .console => io.console.typed
    | .pipeR => (io.kernel.openFile f).pipe.elim [] io.queued
    | .pipeW => []

def readable (io : Io) (fd : Int32) : Option (Ptr × File) :=
  (io.kernel.taskFdFile fd).bind fun f => ((io.kernel.openFile f).file.node.filter fun n =>
    (io.kernel.vfs.node n).type = .reg ∧ (io.kernel.openFile f).file.flags.read).map fun n => (n, (io.kernel.openFile f).file)

structure Took (io : Io) (fd : Int32) (len : Nat) (bytes : List UInt8) (io' : Io) : Prop where
  ready : io'.Ready
  vfs : io'.kernel.vfs = io.kernel.vfs
  cr3 : io'.kernel.cr3 = io.kernel.cr3
  pipes : io'.kernel.pipes = io.kernel.pipes
  pipe : io'.kernel.pipe = io.kernel.pipe
  length : bytes.length ≤ len
  source : io'.source fd = (io.source fd).drop bytes.length
  enough : bytes.length ≤ (io.source fd).length
  right : bytes = (io.source fd).take bytes.length ↔ ∀ n file, io.readable fd = some (n, file) →
    io.kernel.vfs.ReadsArray n (io.kernel.vfs.contents n) file.offset len
  moved : ∀ n file, io.readable fd = some (n, file) →
    io'.readable fd = some (n, { file with offset := file.offset + bytes.length }) ∧
      bytes.length = min len ((io.kernel.vfs.node n).size - file.offset)
  other : io.readable fd = none → io'.readable fd = none

variable {io io' : Io} {fd : Int32} {len : Nat} {bytes : List UInt8} {f n : Ptr} {file : File}

theorem taskFdFile_eq_some : io.kernel.taskFdFile fd = some f ↔ io.kernel.fdGet fd = some f ∧ (io.kernel.openFile f).type = .vfs := by
  simp [Kernel.taskFdFile, Option.filter_eq_some_iff]

theorem readable_eq_some : io.readable fd = some (n, file) ↔ ∃ f, io.kernel.fdGet fd = some f ∧
    (io.kernel.openFile f).type = .vfs ∧ (io.kernel.openFile f).file = file ∧ file.node = some n ∧
    (io.kernel.vfs.node n).type = .reg ∧ file.flags.read = true := by
  unfold readable
  constructor
  · intro h
    obtain ⟨f, hf, h⟩ := Option.bind_eq_some_iff.mp h
    obtain ⟨n', hn, heq⟩ := Option.map_eq_some_iff.mp h
    obtain ⟨rfl, rfl⟩ := Prod.mk.inj heq
    obtain ⟨hn, hreg⟩ := Option.filter_eq_some_iff.mp hn
    obtain ⟨hget, htype⟩ := taskFdFile_eq_some.mp hf
    simp only [decide_eq_true_eq] at hreg
    exact ⟨f, hget, htype, rfl, hn, hreg⟩
  · rintro ⟨f, hget, htype, rfl, hn, hreg⟩
    rw [taskFdFile_eq_some.mpr ⟨hget, htype⟩, Option.bind_some, hn, Option.filter_some, if_pos (by simpa using hreg)]
    rfl

theorem readable_eq_none (hget : io.kernel.fdGet fd = some f) (htype : (io.kernel.openFile f).type ≠ .vfs) :
    io.readable fd = none := by
  rw [Option.eq_none_iff_forall_ne_some]
  rintro ⟨n, file⟩ h
  obtain ⟨f', hget', htype', -⟩ := readable_eq_some.mp h
  rw [hget] at hget'
  cases hget'
  exact htype htype'

@[simp] theorem setVfs_openFile (io : Io) (vfs : Vfs) : (io.setVfs vfs).kernel.openFile = io.kernel.openFile := rfl

@[simp] theorem setVfs_get (io : Io) (vfs : Vfs) (fd : Int32) : (io.setVfs vfs).kernel.fdGet fd = io.kernel.fdGet fd := rfl

@[simp] theorem setFile_get (io : Io) (f : Ptr) (file : File) (fd : Int32) :
    (io.setFile f file).kernel.fdGet fd = io.kernel.fdGet fd := rfl

@[simp] theorem setFile_self (io : Io) (f : Ptr) (file : File) :
    ((io.setFile f file).kernel.openFile f).file = file := by
  simp [setFile, Kernel.setFile]

theorem setFile_of_ne (io : Io) {f f' : Ptr} (h : f' ≠ f) (file : File) :
    (io.setFile f file).kernel.openFile f' = io.kernel.openFile f' := Function.update_of_ne h _ _

@[simp] theorem setFile_type (io : Io) (f : Ptr) (file : File) (f' : Ptr) :
    ((io.setFile f file).kernel.openFile f').type = (io.kernel.openFile f').type := by
  by_cases h : f' = f
  · subst h
    simp [setFile, Kernel.setFile]
  · rw [setFile_of_ne io h]

@[simp] theorem setFile_pipe (io : Io) (f : Ptr) (file : File) (f' : Ptr) :
    ((io.setFile f file).kernel.openFile f').pipe = (io.kernel.openFile f').pipe := by
  by_cases h : f' = f
  · subst h
    simp [setFile, Kernel.setFile]
  · rw [setFile_of_ne io h]

theorem source_file (hget : io.kernel.fdGet fd = some f) (htype : (io.kernel.openFile f).type = .vfs)
    (hn : (io.kernel.openFile f).file.node = some n) :
    io.source fd = (io.kernel.vfs.contents n).drop (io.kernel.openFile f).file.offset := by
  simp only [source, hget, htype, hn, Option.elim_some]

theorem source_setFile (hget : io.kernel.fdGet fd = some f) (htype : (io.kernel.openFile f).type = .vfs)
    (hn : file.node = some n) : (io.setFile f file).source fd = (io.kernel.vfs.contents n).drop file.offset := by
  have hself := setFile_self io f file
  have h := @source_file (io.setFile f file) fd f n hget ((setFile_type io f file f).trans htype) (by rw [hself, hn])
  rw [h, hself]
  rfl

theorem Ready.setFile (h : io.Ready) {vfs : Vfs} (hfilled : ∀ n, io.kernel.vfs.Filled n → vfs.Filled n)
    (hfile : ∃ n, file.node = some n ∧ vfs.Filled n ∧ file.offset ≤ vfsFileMax) :
    ((io.setVfs vfs).setFile f file).Ready where
  files fd f' hf := by
    obtain ⟨hget, htype⟩ := taskFdFile_eq_some.mp hf
    rw [setFile_type] at htype
    by_cases hff : f' = f
    · subst hff
      rw [setFile_self]
      exact hfile
    · rw [setFile_of_ne _ hff]
      obtain ⟨n, hn, hfill, hoff⟩ := h.files fd f' (taskFdFile_eq_some.mpr ⟨hget, htype⟩)
      exact ⟨n, hn, hfilled n hfill, hoff⟩
  pipes fd f' hget htype := by
    rw [setFile_type] at htype
    rw [setFile_pipe]
    exact h.pipes fd f' hget htype
  queues := h.queues
  console := h.console

theorem vfsRead_moves {s : Vfs} (hf : s.Filled n) (hn : file.node = some n) (htype : (s.node n).type = .reg)
    (hread : file.flags.read = true) (len : Nat) :
    (s.vfsRead file len).2 = { file with offset := file.offset + min len ((s.node n).size - file.offset) } := by
  have hsize := hf.size
  unfold Vfs.vfsRead
  rw [hn]
  simp only [htype, hread, ne_eq, not_true_eq_false, or_self, if_false]
  split
  · rename_i hend
    rw [show min len ((s.node n).size - file.offset) = 0 by omega, Nat.add_zero, ← hn]
  · have hmin : (if len > (s.node n).size - file.offset then (s.node n).size - file.offset else len) =
        min len ((s.node n).size - file.offset) := by split <;> omega
    simp only [hmin]
    rw [wrap64, Nat.mod_eq_of_lt (by simp only [vfsFileMax] at hsize; omega)]

theorem Ready.took_file (h : io.Ready) (hget : io.kernel.fdGet fd = some f) (htype : (io.kernel.openFile f).type = .vfs)
    (hn : (io.kernel.openFile f).file.node = some n) (hreg : (io.kernel.vfs.node n).type = .reg)
    (hread : (io.kernel.openFile f).file.flags.read = true) (len : Nat) :
    ∃ bytes, (io.kernel.vfs.vfsRead (io.kernel.openFile f).file len).1 = some bytes ∧
      io.Took fd len bytes (io.setFile f (io.kernel.vfs.vfsRead (io.kernel.openFile f).file len).2) := by
  obtain ⟨n', hn', hfilled, hoff⟩ := h.files fd f (taskFdFile_eq_some.mpr ⟨hget, htype⟩)
  obtain rfl : n' = n := Option.some_inj.mp (hn'.symm.trans hn)
  have hcount := Vfs.vfsRead_count (s := io.kernel.vfs) hn hreg hread len
  have hright := Vfs.vfsRead_iff (s := io.kernel.vfs) hn hreg hread len
  have hmoves := vfsRead_moves hfilled hn hreg hread len
  have hlen := io.kernel.vfs.length_readLoop n' (io.kernel.openFile f).file.offset
    (min len ((io.kernel.vfs.node n').size - (io.kernel.openFile f).file.offset))
  rw [hcount, Option.some_inj] at hright
  refine ⟨_, hcount, ?_⟩
  rw [hmoves]
  generalize io.kernel.vfs.readLoop n' _ _ _ = bytes at hlen hright ⊢
  have hreadable : io.readable fd = some (n', (io.kernel.openFile f).file) :=
    readable_eq_some.mpr ⟨f, hget, htype, rfl, hn, hreg, hread⟩
  have hsource := source_file hget htype hn
  have hsourcelen : (io.source fd).length = (io.kernel.vfs.node n').size - (io.kernel.openFile f).file.offset := by
    rw [hsource, List.length_drop, Vfs.length_contents]
  have htake : (io.source fd).take len = (io.source fd).take bytes.length := by
    rw [hlen, ← hsourcelen, List.take_eq_take_min]
  refine ⟨h.setFile (fun _ hf => hf) ⟨n', hn, hfilled, ?_⟩, rfl, rfl, rfl, rfl, ?_, ?_, ?_, ?_, fun n file hr => ?_, fun hr => ?_⟩
  · have := hfilled.size
    simp only
    omega
  · omega
  · rw [hsource, List.drop_drop, hlen]
    exact source_setFile hget htype hn
  · omega
  · rw [← htake, hsource, hright]
    constructor
    · intro hr n file he
      rw [hreadable] at he
      cases he
      exact hr
    · exact fun hr => hr _ _ hreadable
  · rw [hreadable] at hr
    cases hr
    refine ⟨?_, hlen⟩
    refine readable_eq_some.mpr ⟨f, hget, ?_, ?_, hn, hreg, hread⟩
    · rw [setFile_type]
      exact htype
    · rw [setFile_self, hlen]
  · rw [hreadable] at hr
    cases hr

theorem took_stream (hready : io'.Ready) (hkernel : io'.kernel = io.kernel) (hlen : bytes.length ≤ len)
    (hsource : io.source fd = bytes ++ io'.source fd) (hnone : io.readable fd = none) : io.Took fd len bytes io' where
  ready := hready
  vfs := by rw [hkernel]
  cr3 := by rw [hkernel]
  pipes := by rw [hkernel]
  pipe := by rw [hkernel]
  length := hlen
  source := by rw [hsource, List.drop_left]
  enough := by
    rw [hsource, List.length_append]
    exact Nat.le_add_right _ _
  right := by
    rw [hsource, List.take_left]
    exact iff_of_true rfl fun n file hr => by
      rw [hnone] at hr
      cases hr
  moved n file hr := by
    rw [hnone] at hr
    cases hr
  other _ := by
    rw [readable, hkernel]
    exact hnone

theorem setQueue_queue (io : Io) (q : Ptr) (queue : PipeQueue) (r : Ptr) :
    (io.setQueue q queue).queue r = if r = q then queue else io.queue r := Function.update_apply _ _ _ _

theorem Ready.setQueue (h : io.Ready) (q : Ptr) {queue : PipeQueue} (hq : queue.head < pipeSize ∧ queue.count ≤ pipeSize) :
    (io.setQueue q queue).Ready where
  files := h.files
  pipes := h.pipes
  queues r hr := by
    rw [setQueue_queue]
    split
    · exact hq
    · exact h.queues r hr
  console := h.console

theorem source_pipe (hget : io.kernel.fdGet fd = some f) (htype : (io.kernel.openFile f).type = .pipeR) {q : Ptr}
    (hpipe : (io.kernel.openFile f).pipe = some q) : io.source fd = io.queued q := by
  simp only [source, hget, htype, hpipe, Option.elim_some]

theorem Ready.took_pipe (h : io.Ready) (hget : io.kernel.fdGet fd = some f) (htype : (io.kernel.openFile f).type = .pipeR)
    {q : Ptr} (hq : q ∈ io.kernel.pipes) (hpipe : (io.kernel.openFile f).pipe = some q) {n : Nat} (hn : n ≤ len)
    (hcount : n ≤ (io.queue q).count) :
    io.Took fd len (Ring.pop pipeSize (io.pipeData q) n (io.queue q).head).1
      (io.setQueue q ⟨(Ring.pop pipeSize (io.pipeData q) n (io.queue q).head).2, (io.queue q).count - n⟩) := by
  obtain ⟨hhead, hfits⟩ := h.queues q hq
  obtain ⟨hqueue, hlen, hlast⟩ := @Ring.pop_queue _ pipeSize _ _ (io.pipeData q) n hhead hcount
  refine took_stream (h.setQueue q ⟨hlast, (Nat.sub_le _ _).trans hfits⟩) rfl (by rw [hlen]; exact hn) ?_
    (readable_eq_none hget (by rw [htype]; decide))
  rw [source_pipe hget htype hpipe, queued, hqueue]
  refine congrArg _ ((@source_pipe (io.setQueue q _) fd f hget htype q hpipe).trans ?_).symm
  rw [queued, setQueue_queue, if_pos rfl]
  rfl

/-- One call of `task_fd_read`. -/
theorem Ready.taskFdRead (h : io.Ready) (fd : Int32) (len : Nat) :
    match io.taskFdRead fd len with
    | none => io.readable fd = none
    | some (none, io') => io' = io ∧ io.readable fd = none
    | some (some bytes, io') => io.Took fd len bytes io' := by
  unfold Io.taskFdRead
  cases hget : io.kernel.fdGet fd with
  | none =>
    refine ⟨rfl, ?_⟩
    rw [readable, Kernel.taskFdFile, hget]
    rfl
  | some f =>
    cases htype : (io.kernel.openFile f).type with
    | vfs =>
      simp only [htype]
      obtain ⟨n, hn, hfilled, hoff⟩ := h.files fd f (taskFdFile_eq_some.mpr ⟨hget, htype⟩)
      by_cases hreg : (io.kernel.vfs.node n).type = .reg ∧ (io.kernel.openFile f).file.flags.read = true
      · obtain ⟨bytes, hread, htook⟩ := h.took_file hget htype hn hreg.1 hreg.2 len
        rw [hread]
        exact htook
      · have hfail : io.kernel.vfs.vfsRead (io.kernel.openFile f).file len = (none, (io.kernel.openFile f).file) := by
          unfold Vfs.vfsRead
          rw [hn]
          simp only
          rw [if_pos (not_and_or.mp hreg)]
        rw [hfail]
        refine ⟨congrArg (fun k => { io with kernel := k }) (io.kernel.setFile_self f), ?_⟩
        rw [Option.eq_none_iff_forall_ne_some]
        rintro ⟨n', file⟩ hr
        obtain ⟨f', hget', -, rfl, hn', hreg'⟩ := readable_eq_some.mp hr
        rw [hget] at hget'
        cases hget'
        rw [hn] at hn'
        cases hn'
        exact hreg hreg'
    | console =>
      have hnone := readable_eq_none hget (by rw [htype]; decide)
      simp only [htype]
      cases hawait : io.console.await with
      | none => exact hnone
      | some c =>
        obtain ⟨hok, htyped, -⟩ := h.console.await hawait
        obtain ⟨hok', htake, hlen⟩ := hok.take len
        refine took_stream ⟨h.files, h.pipes, h.queues, hok'⟩ rfl hlen ?_ hnone
        simp only [source, hget, htype]
        rw [htake, htyped]
    | pipeR =>
      obtain ⟨q, hq, hpipe⟩ := h.pipes fd f hget (.inl htype)
      simp only [htype, hpipe]
      refine h.took_pipe hget htype hq hpipe ?_ ?_ <;> split <;> omega
    | pipeW =>
      simp only [htype]
      exact ⟨trivial, readable_eq_none hget (by rw [htype]; decide)⟩

-- ---------------------------------------------------------------------------
-- Writing
-- ---------------------------------------------------------------------------

structure Spliced (io : Io) (f n : Ptr) (bytes : List UInt8) (io' : Io) : Prop where
  contents : io'.kernel.vfs.contents n = if bytes = [] then io.kernel.vfs.contents n
    else splice (io.kernel.vfs.contents n) (io.kernel.vfs.writeOffset n (io.kernel.openFile f).file) bytes
  offset : io'.kernel.vfs.writeOffset n (io'.kernel.openFile f).file =
    io.kernel.vfs.writeOffset n (io.kernel.openFile f).file + bytes.length

def Accepts (io : Io) (fd : Int32) (bytes : List UInt8) (io' : Io) : Prop :=
  match io.kernel.fdGet fd with
  | none => bytes = []
  | some f =>
    match (io.kernel.openFile f).type with
    | .vfs => ∀ n, (io.kernel.openFile f).file.node = some n → io.Spliced f n bytes io'
    | .console => io'.console.output = io.console.output ++ bytes
    | .pipeW => ∀ q, (io.kernel.openFile f).pipe = some q → io'.queued q = io.queued q ++ bytes
    | .pipeR => bytes = []

structure Gave (m : Machine) (K : Set Nat) (kids : Fin 512 → PTree) (io : Io) (fd : Int32) (bytes : List UInt8)
    (io' : Io) : Prop where
  ready : io'.Ready
  apart : io'.kernel.Apart m K kids
  cr3 : io'.kernel.cr3 = io.kernel.cr3
  get : io'.kernel.fdGet fd = io.kernel.fdGet fd
  type : ∀ f, (io'.kernel.openFile f).type = (io.kernel.openFile f).type
  node : ∀ f, (io'.kernel.openFile f).file.node = (io.kernel.openFile f).file.node
  pipe : ∀ f, (io'.kernel.openFile f).pipe = (io.kernel.openFile f).pipe
  accepts : io.Accepts fd bytes io'
  user : ∀ f ∈ sumFin fun j => m.layout.pte.pages (kids j), ∀ x < 4096, io'.phys.mem (f + x) = io.phys.mem (f + x)

variable {m : Machine} {K : Set Nat} {kids : Fin 512 → PTree} {io'' : Io} {cs : List UInt8}

theorem Accepts.refl (io : Io) (fd : Int32) : io.Accepts fd [] io := by
  unfold Accepts
  split
  · rfl
  split
  · exact fun n _ => ⟨(if_pos rfl).symm, rfl⟩
  · exact (List.append_nil _).symm
  · exact fun q _ => (List.append_nil _).symm
  · rfl

theorem Gave.refl (hready : io.Ready) (hapart : io.kernel.Apart m K kids) (fd : Int32) : Gave m K kids io fd [] io :=
  ⟨hready, hapart, rfl, rfl, fun _ => rfl, fun _ => rfl, fun _ => rfl, .refl io fd, fun _ _ _ _ => rfl⟩

theorem Spliced.append (h : io.Spliced f n bytes io') (h' : io'.Spliced f n cs io'') :
    io.Spliced f n (bytes ++ cs) io'' where
  contents := by
    rw [h'.contents, h.contents, h.offset]
    by_cases hb : bytes = []
    · simp [hb]
    · by_cases hc : cs = []
      · simp [hc]
      · rw [if_neg hb, if_neg hc, if_neg (List.append_ne_nil_of_left_ne_nil hb cs), splice_append]
  offset := by rw [h'.offset, h.offset, List.length_append, Nat.add_assoc]

theorem Gave.append (h : Gave m K kids io fd bytes io') (h' : Gave m K kids io' fd cs io'') :
    Gave m K kids io fd (bytes ++ cs) io'' where
  ready := h'.ready
  apart := h'.apart
  cr3 := h'.cr3.trans h.cr3
  get := h'.get.trans h.get
  type f := (h'.type f).trans (h.type f)
  node f := (h'.node f).trans (h.node f)
  pipe f := (h'.pipe f).trans (h.pipe f)
  user f hf x hx := (h'.user f hf x hx).trans (h.user f hf x hx)
  accepts := by
    have ha := h.accepts
    have ha' := h'.accepts
    unfold Accepts at ha ha' ⊢
    rw [h.get] at ha'
    cases hget : io.kernel.fdGet fd with
    | none =>
      simp only [hget] at ha ha' ⊢
      rw [ha, ha', List.append_nil]
    | some f =>
      simp only [hget, h.type, h.node, h.pipe] at ha ha' ⊢
      cases htype : (io.kernel.openFile f).type with
      | vfs =>
        simp only [htype] at ha ha' ⊢
        exact fun n hn => (ha n hn).append (ha' n hn)
      | console =>
        simp only [htype] at ha ha' ⊢
        rw [ha', ha, List.append_assoc]
      | pipeR =>
        simp only [htype] at ha ha' ⊢
        rw [ha, ha', List.append_nil]
      | pipeW =>
        simp only [htype] at ha ha' ⊢
        exact fun q hq => by rw [ha' q hq, ha q hq, List.append_assoc]

theorem vfsWrite_count {s : Vfs} (hn : file.node = some n) (hsum : s.writeOffset n file ≤ vfsFileMax) (bytes : List UInt8) :
    (∀ c, (s.vfsWrite file bytes).1 = some c → c = bytes.length ∧
      (s.vfsWrite file bytes).2.1.offset = s.writeOffset n file + bytes.length) ∧
    ((s.vfsWrite file bytes).1 = none → (s.vfsWrite file bytes).2.1.offset = file.offset ∨
      (s.vfsWrite file bytes).2.1.offset = s.writeOffset n file) := by
  unfold Vfs.vfsWrite
  rw [hn]
  simp only
  split
  · exact ⟨fun c hc => (by cases hc), fun _ => .inl rfl⟩
  split
  · exact ⟨fun c hc => (by cases hc), fun _ => .inr rfl⟩
  · rename_i hfits
    simp only [wrap64, vfsFileMax] at hfits hsum
    have hwrap : wrap64 (s.writeOffset n file + bytes.length) = s.writeOffset n file + bytes.length :=
      Nat.mod_eq_of_lt (by omega)
    simp only [hwrap]
    split
    · exact ⟨fun c hc => (by cases hc), fun _ => .inr rfl⟩
    · exact ⟨fun c hc => ⟨(Option.some_inj.mp hc).symm, rfl⟩, fun hc => by cases hc⟩

theorem vfsWrite_offset {s : Vfs} {A : Multiset Nat} (hA : s.Frames A) (hf : s.Filled n) (hn : file.node = some n)
    (hoff : file.offset ≤ vfsFileMax) (bytes : List UInt8) :
    (s.vfsWrite file bytes).2.2.writeOffset n (s.vfsWrite file bytes).2.1 =
      s.writeOffset n file + if (s.vfsWrite file bytes).1.isSome then bytes.length else 0 := by
  obtain ⟨hholds, -, hflags, -⟩ := Vfs.vfsWrite_holds bytes hA hf hn hoff
  obtain ⟨hsome, hnone⟩ := vfsWrite_count hn (Vfs.writeOffset_le hf hoff) bytes
  have hsize := hholds.size
  generalize s.vfsWrite file bytes = r at hsize hflags hsome hnone
  obtain ⟨r, file', t⟩ := r
  rw [Vfs.writeOffset, hflags]
  by_cases happend : file.flags.append = true
  · rw [if_pos happend, hsize, Vfs.writeOffset, if_pos happend]
    cases r with
    | none => simp
    | some c => simp [length_splice]
  · rw [if_neg happend]
    cases r with
    | none =>
      have hw : s.writeOffset n file = file.offset := if_neg happend
      rw [hw] at hnone ⊢
      simpa using hnone rfl
    | some c => simpa using (hsome c rfl).2

theorem Ready.gave_file (h : io.Ready) (hA : io.kernel.Apart m K kids) (hget : io.kernel.fdGet fd = some f)
    (htype : (io.kernel.openFile f).type = .vfs) (hne : bytes ≠ []) :
    Gave m K kids io fd (if (io.kernel.vfs.vfsWrite (io.kernel.openFile f).file bytes).1.isSome then bytes else [])
      ((io.setVfs (io.kernel.vfs.vfsWrite (io.kernel.openFile f).file bytes).2.2).setFile f
        (io.kernel.vfs.vfsWrite (io.kernel.openFile f).file bytes).2.1) := by
  obtain ⟨n, hn, hfilled, hoff⟩ := h.files fd f (taskFdFile_eq_some.mpr ⟨hget, htype⟩)
  obtain ⟨A, hframes, -⟩ := hA.foreign
  obtain ⟨hholds, hnode, hflags, hoff'⟩ := Vfs.vfsWrite_holds bytes hframes hfilled hn hoff
  have hoffset := vfsWrite_offset hframes hfilled hn hoff bytes
  obtain ⟨hapart, S, hS, hout⟩ := hA.setVfs (Vfs.vfsWrite_spares bytes hframes hfilled hn hoff)
  generalize io.kernel.vfs.vfsWrite (io.kernel.openFile f).file bytes = r at hholds hnode hflags hoff' hoffset hapart hS ⊢
  obtain ⟨r, file', t⟩ := r
  refine ⟨h.setFile (fun p hp => ?_) ⟨n, hnode, hholds.filled, hoff'⟩,
    ⟨hapart.space, hapart.distinct, hapart.kernel, hapart.pages, hapart.foreign⟩, rfl, rfl, fun f' => ?_, fun f' => ?_,
    fun f' => ?_, ?_, fun g hg x hx => ?_⟩
  · by_cases hpn : p = n
    · rw [hpn]
      exact hholds.filled
    · exact (hholds.other p hpn).filled hp
  · rw [setFile_type, setVfs_openFile]
  · by_cases hff : f' = f
    · rw [hff, setFile_self, hn]
      exact hnode
    · rw [setFile_of_ne _ hff, setVfs_openFile]
  · rw [setFile_pipe, setVfs_openFile]
  · simp only [Accepts, hget, htype]
    intro n' hn'
    obtain rfl : n = n' := Option.some_inj.mp (hn.symm.trans hn')
    constructor
    · refine hholds.contents.trans ?_
      cases r with
      | none => simp
      | some c => simp [hne]
    · rw [setFile_self]
      refine hoffset.trans ?_
      cases r <;> rfl
  · exact hS g (hA.isFrame (hA.userPages g hg).1) (hout g (hA.userPages g hg).1) x hx

theorem Ready.gave_pipe (h : io.Ready) (hA : io.kernel.Apart m K kids) (hget : io.kernel.fdGet fd = some f)
    (htype : (io.kernel.openFile f).type = .pipeW) {q : Ptr} (hq : q ∈ io.kernel.pipes)
    (hpipe : (io.kernel.openFile f).pipe = some q) (hfits : (io.queue q).count + bytes.length ≤ pipeSize) :
    Gave m K kids io fd bytes (io.putPipe q bytes) := by
  dsimp only [putPipe]
  have hw := Mem.putRing_onlyIn (io.kernel.pipe q).page (io.queue q).head (io.queue q).count bytes io.phys.mem
  have hdata := Mem.putRing_data (io.kernel.pipe q).page (io.queue q).head (io.queue q).count bytes io.phys.mem
  have hsame := hA.sameFile (fun f hf => (hA.pipePage hq f hf).1) hw
  have hapart := hA.setMem (hA.pipePage hq) hw
  have hpush := @Ring.queue_push _ pipeSize (io.queue q).head (io.queue q).count (io.pipeData q) bytes hfits
  generalize io.phys.mem.putRing (io.kernel.pipe q).page (io.queue q).head (io.queue q).count bytes = mem
    at hw hdata hsame hapart ⊢
  have hready : (io.setPhys { io.phys with mem := mem }).Ready := by
    refine ⟨fun fd f hf => ?_, h.pipes, h.queues, h.console⟩
    obtain ⟨n, hn, hfilled, hoff⟩ := h.files fd f hf
    exact ⟨n, hn, (hsame n).filled hfilled, hoff⟩
  refine ⟨hready.setQueue q ⟨(h.queues q hq).1, hfits⟩, hapart, rfl, rfl, fun _ => rfl, fun _ => rfl, fun _ => rfl, ?_,
    fun g hg x hx => ?_⟩
  · simp only [Accepts, hget, htype]
    intro q' hq'
    obtain rfl : q = q' := Option.some_inj.mp (hpipe.symm.trans hq')
    rw [queued, setQueue_queue, if_pos rfl]
    show Ring.queue pipeSize (fun i => mem ((io.kernel.pipe q).page + i)) _ _ = _
    rw [hdata]
    exact hpush
  · refine (hw.within fun g hg => hA.isFrame (hA.pipePage hq g hg).1) g (hA.isFrame (hA.userPages g hg).1) (fun hm => ?_) x hx
    rw [Multiset.mem_singleton.mp hm] at hg
    exact (hA.pages q hq).2 (Multiset.mem_add.mpr (.inr hg))

/-- One call of `task_fd_write`. -/
theorem Ready.taskFdWrite (h : io.Ready) (hA : io.kernel.Apart m K kids) (fd : Int32) (hne : bytes ≠ []) :
    match io.taskFdWrite fd bytes with
    | (none, io') => Gave m K kids io fd [] io'
    | (some n, io') => n ≤ bytes.length ∧ Gave m K kids io fd (bytes.take n) io' := by
  unfold Io.taskFdWrite
  cases hget : io.kernel.fdGet fd with
  | none => exact .refl h hA fd
  | some f =>
    cases htype : (io.kernel.openFile f).type with
    | vfs =>
      simp only [htype]
      obtain ⟨n, hn, hfilled, hoff⟩ := h.files fd f (taskFdFile_eq_some.mpr ⟨hget, htype⟩)
      have hgave := h.gave_file hA hget htype hne
      obtain ⟨hsome, -⟩ := vfsWrite_count hn (Vfs.writeOffset_le hfilled hoff) bytes
      generalize io.kernel.vfs.vfsWrite (io.kernel.openFile f).file bytes = r at hgave hsome ⊢
      obtain ⟨r, file', t⟩ := r
      cases r with
      | none => exact hgave
      | some c =>
        obtain ⟨rfl, -⟩ := hsome c rfl
        refine ⟨le_rfl, ?_⟩
        rw [List.take_length]
        exact hgave
    | console =>
      simp only [htype]
      refine ⟨le_rfl, ?_⟩
      rw [List.take_length]
      refine ⟨⟨h.files, h.pipes, h.queues, h.console.pos, h.console.small⟩, ⟨hA.space, hA.distinct, hA.kernel, hA.pages, hA.foreign⟩,
        rfl, rfl, fun _ => rfl, fun _ => rfl, fun _ => rfl, ?_, fun _ _ _ _ => rfl⟩
      simp only [Accepts, hget, htype]
    | pipeR =>
      simp only [htype]
      exact .refl h hA fd
    | pipeW =>
      obtain ⟨q, hq, hpipe⟩ := h.pipes fd f hget (.inr htype)
      simp only [htype, hpipe]
      have hcount := (h.queues q hq).2
      have hdone : (if bytes.length < pipeSize - (io.queue q).count then bytes.length else pipeSize - (io.queue q).count) =
          min bytes.length (pipeSize - (io.queue q).count) := by split <;> omega
      rw [hdone]
      generalize hd : min bytes.length (pipeSize - (io.queue q).count) = done
      have htake : (bytes.take done).length = done := List.length_take_of_le (by omega)
      exact ⟨by omega, h.gave_pipe hA hget htype hq hpipe (by omega)⟩

end Io

end NarcOs
