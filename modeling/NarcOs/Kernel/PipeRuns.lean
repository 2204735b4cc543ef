import NarcOs.Kernel.ReadWrite

/-!
# Pipes over whole runs

A pipe from `task_fd_pipe` on, with the reads and writes of all descriptors that
lead to its two ends, in any order and of any lengths. What was taken in is what
was given out and, behind it, the bytes in the ring.
-/

namespace NarcOs

namespace Io

/-- `task_fd_pipe`: `kzalloc` clears `head` and `count` of the pipe. -/
def taskFdPipe (io : Io) : Option (Nat × Nat) × Io :=
  let (fds, kernel) := io.kernel.taskFdPipe
  (fds, { io with
    kernel := kernel
    queue := match (io.kernel.kmalloc io.kernel.pipes).1 with
      | none => io.queue
      | some q => Function.update io.queue q {} })

def IsEnd (io : Io) (type : FdType) (q : Ptr) (fd : Int32) : Prop :=
  ∃ f, io.kernel.fdGet fd = some f ∧ (io.kernel.openFile f).type = type ∧
    (io.kernel.openFile f).pipe = some q

def InRing (io : Io) (q : Ptr) : Prop :=
  (io.queue q).head < pipeSize ∧ (io.queue q).count ≤ pipeSize

variable {io io' : Io} {q : Ptr} {fd : Int32} {len : Nat} {bytes given taken : List UInt8}

theorem IsEnd.read (h : io.IsEnd .pipeR q fd) (hring : io.InRing q) (len : Nat) :
    ∃ bytes io', io.taskFdRead fd len = some (some bytes, io') ∧
      bytes.length = min len (io.queue q).count ∧ io.queued q = bytes ++ io'.queued q ∧
      io'.InRing q := by
  obtain ⟨f, hget, htype, hpipe⟩ := h
  have hdone : (if len < (io.queue q).count then len else (io.queue q).count) =
      min len (io.queue q).count := by split <;> omega
  have hle : min len (io.queue q).count ≤ (io.queue q).count := Nat.min_le_right _ _
  obtain ⟨hqueue, hlen, hlast⟩ := @Ring.pop_queue _ pipeSize _ _ (io.pipeData q) _ hring.1 hle
  generalize min len (io.queue q).count = done at hdone hle hqueue hlen hlast ⊢
  have hcall : io.taskFdRead fd len =
      some (some (Ring.pop pipeSize (io.pipeData q) done (io.queue q).head).1, io.setQueue q
        ⟨(Ring.pop pipeSize (io.pipeData q) done (io.queue q).head).2,
          (io.queue q).count - done⟩) := by
    simp only [taskFdRead, hget, htype, hpipe, hdone]
  refine ⟨_, _, hcall, hlen, ?_, ?_⟩
  · rw [queued, hqueue]
    refine congrArg _ ?_
    rw [queued, setQueue_queue, if_pos rfl]
    rfl
  · rw [InRing, setQueue_queue, if_pos rfl]
    exact ⟨hlast, (Nat.sub_le _ _).trans hring.2⟩

theorem putPipe_queued (hfits : (io.queue q).count + bytes.length ≤ pipeSize) :
    (io.putPipe q bytes).queued q = io.queued q ++ bytes := by
  have hdata := Mem.putRing_data (io.kernel.pipe q).page (io.queue q).head (io.queue q).count bytes
    io.phys.mem
  have hpush := @Ring.queue_push _ pipeSize (io.queue q).head (io.queue q).count (io.pipeData q)
    bytes hfits
  rw [putPipe, queued, setQueue_queue, if_pos rfl]
  refine Eq.trans ?_ hpush
  exact congrArg (fun data => Ring.queue pipeSize data _ _) hdata

/-- What a write gives goes behind the ring, as much as there is room for. -/
theorem IsEnd.write (h : io.IsEnd .pipeW q fd) (hring : io.InRing q) (bytes : List UInt8) :
    ∃ n io', io.taskFdWrite fd bytes = (some n, io') ∧
      n = min bytes.length (pipeSize - (io.queue q).count) ∧
      io'.queued q = io.queued q ++ bytes.take n ∧ io'.InRing q := by
  obtain ⟨f, hget, htype, hpipe⟩ := h
  have hdone : (if bytes.length < pipeSize - (io.queue q).count then bytes.length
      else pipeSize - (io.queue q).count) = min bytes.length (pipeSize - (io.queue q).count) := by
    split <;> omega
  have hcount := hring.2
  have hroom : (io.queue q).count +
      (bytes.take (min bytes.length (pipeSize - (io.queue q).count))).length ≤ pipeSize := by
    rw [List.length_take]
    omega
  generalize min bytes.length (pipeSize - (io.queue q).count) = done at hdone hroom ⊢
  have hcall : io.taskFdWrite fd bytes = (some done, io.putPipe q (bytes.take done)) := by
    simp only [taskFdWrite, hget, htype, hpipe, hdone]
  refine ⟨done, _, hcall, rfl, putPipe_queued hroom, ?_⟩
  rw [InRing, putPipe, setQueue_queue, if_pos rfl]
  exact ⟨hring.1, hroom⟩

-- ---------------------------------------------------------------------------
-- Runs
-- ---------------------------------------------------------------------------

/-- The kernel after a run, with the bytes that the writes of the pipe took and the
bytes that its reads gave. Between two calls the kernel may do anything that leaves
the pipe and its page as they are. -/
inductive PipeRun (q : Ptr) : Io → List UInt8 → List UInt8 → Prop
  | created {io io' : Io} {fds : Nat × Nat} (call : io.taskFdPipe = (some fds, io'))
      (new : (io.kernel.kmalloc io.kernel.pipes).1 = some q) : PipeRun q io' [] []
  | other {io io' : Io} {taken given : List UInt8} (run : PipeRun q io taken given)
      (queue : io'.queue q = io.queue q)
      (data : ∀ i < pipeSize, io'.pipeData q i = io.pipeData q i) : PipeRun q io' taken given
  | read {io io' : Io} {fd : Int32} {len : Nat} {bytes taken given : List UInt8}
      (run : PipeRun q io taken given) (reader : io.IsEnd .pipeR q fd)
      (call : io.taskFdRead fd len = some (some bytes, io')) :
      PipeRun q io' taken (given ++ bytes)
  | write {io io' : Io} {fd : Int32} {n : Nat} {bytes taken given : List UInt8}
      (run : PipeRun q io taken given) (writer : io.IsEnd .pipeW q fd)
      (call : io.taskFdWrite fd bytes = (some n, io')) :
      PipeRun q io' (taken ++ bytes.take n) given

theorem PipeRun.queued (run : PipeRun q io taken given) :
    io.InRing q ∧ taken = given ++ io.queued q := by
  induction run with
  | @created io io' fds call new =>
    have hqueue : io'.queue q = {} := by
      have h : io'.queue = (io.taskFdPipe).2.queue := by rw [call]
      rw [h, taskFdPipe]
      simp only [new, Function.update_self]
    refine ⟨?_, ?_⟩
    · rw [InRing, hqueue]
      exact ⟨by decide, Nat.zero_le _⟩
    · rw [Io.queued, hqueue]
      rfl
  | @other io io' taken given run queue data ih =>
    refine ⟨?_, ?_⟩
    · rw [InRing, queue]
      exact ih.1
    · rw [ih.2, Io.queued, Io.queued, queue]
      exact congrArg _ (Ring.queue_congr ih.1.1 data).symm
  | @read io io' fd len bytes taken given run reader call ih =>
    obtain ⟨bytes', io₁, hcall, -, hqueue, hring⟩ := reader.read ih.1 len
    rw [call] at hcall
    obtain ⟨hbytes, rfl⟩ := Prod.mk.inj (Option.some.inj hcall)
    obtain rfl := Option.some.inj hbytes
    exact ⟨hring, by rw [ih.2, hqueue, List.append_assoc]⟩
  | @write io io' fd n bytes taken given run writer call ih =>
    obtain ⟨n', io₁, hcall, -, hqueue, hring⟩ := writer.write ih.1 bytes
    rw [call] at hcall
    obtain ⟨hn, rfl⟩ := Prod.mk.inj hcall
    obtain rfl := Option.some.inj hn
    exact ⟨hring, by rw [ih.2, hqueue, List.append_assoc]⟩

/-- In every run a pipe is a queue of at most `PIPE_SIZE` bytes, and its calls move as
many bytes as there are or as there is room for. -/
theorem pipe_fifo (q : Ptr) (io : Io) (taken given : List UInt8) (run : PipeRun q io taken given) :
    ((io.queue q).head < pipeSize ∧ (io.queue q).count ≤ pipeSize) ∧
      (given <+: taken ∧ taken = given ++ io.queued q ∧
        (io.queued q).length = (io.queue q).count) ∧
      (∀ fd len, io.IsEnd .pipeR q fd → ∃ bytes io', io.taskFdRead fd len = some (some bytes, io') ∧
        bytes.length = min len (io.queue q).count) ∧
      ∀ fd bytes, io.IsEnd .pipeW q fd → ∃ io', io.taskFdWrite fd bytes =
        (some (min bytes.length (pipeSize - (io.queue q).count)), io') := by
  obtain ⟨hring, htaken⟩ := run.queued
  refine ⟨hring, ⟨⟨_, htaken.symm⟩, htaken, Ring.length_queue⟩, fun fd len h => ?_,
    fun fd bytes h => ?_⟩
  · obtain ⟨bytes, io', hcall, hlen, -⟩ := h.read hring len
    exact ⟨bytes, io', hcall, hlen⟩
  · obtain ⟨n, io', hcall, rfl, -⟩ := h.write hring bytes
    exact ⟨io', hcall⟩

def pipeIo : Io where
  kernel := { noteKernel noteBoot 0 with heap := [some 30, some 31, some 32, some 33] }
  queue := fun _ => {}
  console := {}

/-- A pipe is made, and `ab` is written to it. -/
theorem pipe_fifo_written : ∃ io, PipeRun 30 io [97, 98] [] ∧ (io.queue 30).count = 2 := by
  have hsome : (pipeIo.taskFdPipe).1 = some (0, 1) := by decide +kernel
  have hcall : pipeIo.taskFdPipe = (some (0, 1), (pipeIo.taskFdPipe).2) := by rw [← hsome]
  have hrun : PipeRun 30 (pipeIo.taskFdPipe).2 [] [] := .created hcall (by decide +kernel)
  have hqueue : ((pipeIo.taskFdPipe).2.queue 30).count = 0 := by decide +kernel
  have hwriter : (pipeIo.taskFdPipe).2.IsEnd .pipeW 30 1 :=
    ⟨32, by decide +kernel, by decide +kernel, by decide +kernel⟩
  obtain ⟨io', hwrite⟩ := (pipe_fifo 30 _ [] [] hrun).2.2.2 1 [97, 98] hwriter
  rw [hqueue] at hwrite
  have hrun' := PipeRun.write hrun hwriter hwrite
  obtain ⟨-, ⟨-, htaken, hlen⟩, -⟩ := pipe_fifo 30 io' [97, 98] [] hrun'
  refine ⟨io', hrun', ?_⟩
  rw [← hlen, List.nil_append] at *
  rw [← htaken]
  rfl

end Io

end NarcOs
