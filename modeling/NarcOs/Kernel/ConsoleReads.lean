import NarcOs.Kernel.ReadWrite

/-!
# The console as a stream

Reads of the console by any tasks, one after the other. What they return together
is the start of the typed text as the line editor leaves it, and a call that has
bytes of a line does not wait for more of them.
-/

namespace NarcOs

-- ---------------------------------------------------------------------------
-- The edited text
-- ---------------------------------------------------------------------------

structure Editor where
  finished : List UInt8 := []
  line : List UInt8 := []

/-- A character is typed: a carriage return counts as a newline, an erase takes
back a character of the line, and a newline or the 256th character ends it. -/
def Editor.type (e : Editor) (c : UInt8) : Editor :=
  let c := if c = 13 then 10 else c
  if c = 8 ∨ c = 127 then { e with line := e.line.dropLast }
  else if c = 10 ∨ e.line.length + 1 = inputSize then ⟨e.finished ++ e.line ++ [c], []⟩
  else { e with line := e.line ++ [c] }

def edited (serial : List UInt8) : List UInt8 := (serial.foldl Editor.type {}).finished

theorem readLine_editor {input serial : List UInt8} (hin : input.length < inputSize)
    (finished : List UInt8) :
    match readLine input serial with
    | none => (serial.foldl Editor.type ⟨finished, input⟩).finished = finished
    | some (line, _, rest) =>
      serial.foldl Editor.type ⟨finished, input⟩ = rest.foldl Editor.type ⟨finished ++ line, []⟩ := by
  induction serial generalizing input with
  | nil =>
    rw [readLine, if_pos hin]
    rfl
  | cons c serial ih =>
    rw [readLine, if_pos hin, List.foldl_cons]
    simp only [Editor.type]
    generalize (if c = 13 then 10 else c) = c
    by_cases herase : c = 8 ∨ c = 127
    · simp only [herase, if_true, true_and]
      by_cases hne : input = []
      · subst hne
        simpa using ih hin
      · have hshort : input.dropLast.length < inputSize := by
          rw [List.length_dropLast]
          omega
        have hnext := ih hshort
        simp only [hne, ne_eq, not_false_eq_true, if_true]
        cases hr : readLine input.dropLast serial with
        | none =>
          rw [hr] at hnext
          exact hnext
        | some r =>
          rw [hr] at hnext
          exact hnext
    · simp only [herase, if_false, false_and]
      by_cases hend : c = 10
      · simp [hend]
      simp only [hend, if_false, false_or]
      by_cases hfull : input.length + 1 = inputSize
      · -- the loop ends because the buffer is full
        have hline : readLine (input ++ [c]) serial = some (input ++ [c], [], serial) := by
          cases serial with
          | nil => rw [readLine, if_neg (by rw [List.length_append, List.length_singleton]; omega)]
          | cons d serial =>
            rw [readLine, if_neg (by rw [List.length_append, List.length_singleton]; omega)]
        rw [hline, if_pos hfull]
        simp
      · rw [if_neg hfull]
        have hroom : (input ++ [c]).length < inputSize := by
          rw [List.length_append, List.length_singleton]
          omega
        have hnext := ih hroom
        cases hr : readLine (input ++ [c]) serial with
        | none =>
          rw [hr] at hnext
          exact hnext
        | some r =>
          rw [hr] at hnext
          exact hnext

theorem foldl_finished (serial finished : List UInt8) :
    (serial.foldl Editor.type ⟨finished, []⟩).finished = finished ++ lines serial := by
  induction hk : serial.length using Nat.strong_induction_on generalizing serial finished with
  | _ k ih =>
    subst hk
    have h := @readLine_editor [] serial (by decide) finished
    cases hr : readLine [] serial with
    | none =>
      rw [hr] at h
      rw [h, lines]
      split
      · rw [List.append_nil]
      · rename_i hs
        rw [hr] at hs
        cases hs
    | some r =>
      obtain ⟨line, echo, rest⟩ := r
      rw [hr] at h
      have hrest := (readLine_spec hr (Nat.zero_le _)).2.2 (by decide)
      rw [h, ih rest.length hrest rest (finished ++ line) rfl, lines_of_some hr, List.append_assoc]

theorem lines_eq (serial : List UInt8) : lines serial = edited serial :=
  ((foldl_finished serial []).trans (List.nil_append _)).symm

theorem readLine_ne_nil {input serial line echo rest : List UInt8}
    (h : readLine input serial = some (line, echo, rest)) : line ≠ [] := by
  induction serial generalizing input line echo rest with
  | nil =>
    rw [readLine] at h
    split_ifs at h with hin
    cases h
    exact fun hnil => hin (by rw [hnil]; decide)
  | cons c serial ih =>
    rw [readLine] at h
    split at h
    · dsimp only at h
      generalize (if c = 13 then 10 else c) = c at h
      split at h
      · obtain ⟨⟨line', echo', rest'⟩, hr, heq⟩ := Option.map_eq_some_iff.mp h
        cases heq
        exact ih hr
      split at h
      · exact ih h
      split at h
      · cases h
        simp
      · obtain ⟨⟨line', echo', rest'⟩, hr, heq⟩ := Option.map_eq_some_iff.mp h
        cases heq
        exact ih hr
    · rename_i hin
      cases h
      exact fun hnil => hin (by rw [hnil]; decide)

namespace Io

variable {m : Machine} {K : Set Nat} {kids : Fin 512 → PTree} {io io' : Io}
  {fd buffer length rounds n : Nat} {serial bytes : List UInt8} {c : Console}

-- ---------------------------------------------------------------------------
-- One call
-- ---------------------------------------------------------------------------

def IsConsole (io : Io) (fd : Int32) : Prop :=
  ∃ f, io.kernel.fdGet fd = some f ∧ (io.kernel.openFile f).type = .console

theorem IsConsole.readable (h : io.IsConsole (Int32.ofNat fd)) :
    io.readable (Int32.ofNat fd) = none := by
  obtain ⟨f, hget, htype⟩ := h
  exact readable_eq_none hget (by rw [htype]; decide)

theorem IsConsole.source (h : io.IsConsole (Int32.ofNat fd)) :
    io.source (Int32.ofNat fd) = io.console.typed := by
  obtain ⟨f, hget, htype⟩ := h
  simp only [Io.source, hget, htype]

theorem IsConsole.taskFdRead (h : io.IsConsole (Int32.ofNat fd)) (len : Nat) :
    io.taskFdRead (Int32.ofNat fd) len = io.console.await.map fun c =>
      (some (c.take len).1, { io with console := (c.take len).2 }) := by
  obtain ⟨f, hget, htype⟩ := h
  simp only [Io.taskFdRead, hget, htype]

theorem IsConsole.handleRead_bad (h : io.IsConsole (Int32.ofNat fd))
    (hok : ¬ m.vmm.userRangeOk io.phys io.kernel.cr3 buffer length true = true) :
    handleRead m rounds io fd buffer length = .ended (.error .badAddress, io) := by
  obtain ⟨f, hget, htype⟩ := h
  have hvalid : io.kernel.taskFdValid (Int32.ofNat fd) = true := by
    rw [Kernel.taskFdValid, hget]
    rfl
  have hdir : io.isDirectory (Int32.ofNat fd) = false := by
    simp [isDirectory, Kernel.taskFdFile, hget, htype, Option.filter]
  simp [handleRead, hvalid, hdir, hok]

theorem IsConsole.handleRead_eq (h : io.IsConsole (Int32.ofNat fd))
    (hok : m.vmm.userRangeOk io.phys io.kernel.cr3 buffer length true = true) :
    handleRead m rounds io fd buffer length =
      readChunks m (Int32.ofNat fd) buffer length rounds 0 io := by
  obtain ⟨f, hget, htype⟩ := h
  have hvalid : io.kernel.taskFdValid (Int32.ofNat fd) = true := by
    rw [Kernel.taskFdValid, hget]
    rfl
  have hdir : io.isDirectory (Int32.ofNat fd) = false := by
    simp [isDirectory, Kernel.taskFdFile, hget, htype, Option.filter]
  simp [handleRead, hvalid, hdir, hok]

theorem await_left (hc : io.console.Ok) (h : io.console.await = some c) :
    c.Ok ∧ c.inputPos < c.input.length := by
  have hok := (hc.await h).1
  refine ⟨hok, ?_⟩
  unfold Console.await at h
  split_ifs at h with hend
  · obtain ⟨⟨line, echo, rest⟩, hr, heq⟩ := Option.map_eq_some_iff.mp h
    cases heq
    exact List.length_pos_of_ne_nil (readLine_ne_nil hr)
  · cases h
    have := hc.pos
    omega

/-- A read of the console asks for a line at most once: it waits when no byte is
left and no line comes, and otherwise it gives what there is. -/
theorem handleRead_console (hready : io.Ready) (hA : io.kernel.Apart m K kids)
    (h : io.IsConsole (Int32.ofNat fd)) (hpos : 1 ≤ length) (hrounds : length < rounds)
    (hok : m.vmm.userRangeOk io.phys io.kernel.cr3 buffer length true = true) :
    match io.console.await with
    | none => handleRead m rounds io fd buffer length = .waits
    | some c => ∃ io', handleRead m rounds io fd buffer length =
          .ended (.ok (c.take (min chunkSize length)).1.length, io') ∧
        io'.console = (c.take (min chunkSize length)).2 := by
  rw [h.handleRead_eq hok]
  obtain ⟨rounds, rfl⟩ : ∃ r, rounds = r + 2 := ⟨rounds - 2, by omega⟩
  have hread := h.taskFdRead (min chunkSize length)
  rw [readChunks]
  simp only [hpos, Nat.lt_of_lt_of_le Nat.zero_lt_one, not_true_eq_false, if_false, Nat.sub_zero,
    want_eq, Nat.add_zero, hread]
  cases hawait : io.console.await with
  | none => rfl
  | some c =>
    obtain ⟨hcok, hleft⟩ := await_left hready.console hawait
    have hlen := (hcok.take (min chunkSize length)).2.2
    have hsmall := hcok.small
    have hcount : (c.take (min chunkSize length)).1.length =
        min (min chunkSize length) (c.input.length - c.inputPos) := by
      simp only [Console.take, List.length_take, List.length_drop]
      split_ifs <;> omega
    simp only [Option.map_some, Nat.zero_add]
    generalize c.take (min chunkSize length) = r at hlen hcount ⊢
    obtain ⟨bytes, c'⟩ := r
    simp only at hlen hcount ⊢
    have hne : bytes.length ≠ 0 := by
      unfold chunkSize at hcount
      omega
    have hacc := (Apart.accessible_iff hA buffer length true).mp hok
    have hbytes : m.layout.Accessible (m.layout.pageMap kids) buffer bytes.length true :=
      fun i hi => hacc i (by omega)
    obtain ⟨mem, hcopy, -⟩ := m.copyToUser_copied hA.space hA.distinct hA.kernel hbytes
    have hend := m.userEnd_lt.1
    have hlast := hacc.lt (Nat.sub_lt hpos Nat.one_pos)
    have hwrap : wrap64 buffer = buffer := Nat.mod_eq_of_lt (by omega)
    have hdone : wrap64 bytes.length = bytes.length := Nat.mod_eq_of_lt (by omega)
    have hcopy : m.vmm.copyToUser io.kernel.cr3 { io with console := c' }.phys (wrap64 buffer)
        bytes = (true, { io.phys with mem := mem }) := by
      rw [hwrap]
      exact hcopy
    simp only [hne, if_false, hdone, hcopy]
    by_cases hshort : bytes.length < min chunkSize length
    · rw [if_pos hshort]
      exact ⟨_, rfl, rfl⟩
    · -- a line has at most 256 characters, so the read is at its end
      have hall : ¬ bytes.length < length := by
        unfold chunkSize inputSize at *
        omega
      rw [if_neg hshort, readChunks]
      simp only [hall, not_false_eq_true, if_true]
      exact ⟨_, rfl, rfl⟩

-- ---------------------------------------------------------------------------
-- Runs
-- ---------------------------------------------------------------------------

def delivered (m : Machine) (io io' : Io) (buffer n : Nat) : List UInt8 :=
  (List.range n).map fun i => io'.phys.mem (m.vmm.userPhys io.phys io.kernel.cr3 (buffer + i))

/-- What the serial line gives from the start, the console after some calls, and
the bytes that its reads delivered. Between two calls anything else may change. -/
inductive ConsoleRun (m : Machine) (serial : List UInt8) : Console → List UInt8 → Prop
  | start : ConsoleRun m serial { serial := serial } []
  | wrote {c : Console} {bytes output : List UInt8} (run : ConsoleRun m serial c bytes) :
      ConsoleRun m serial { c with output := output } bytes
  | read {K : Set Nat} {kids : Fin 512 → PTree} {io io' : Io} {fd buffer length rounds n : Nat}
      {bytes : List UInt8} (run : ConsoleRun m serial io.console bytes) (ready : io.Ready)
      (apart : io.kernel.Apart m K kids) (console : io.IsConsole (Int32.ofNat fd))
      (positive : 1 ≤ length) (enough : length < rounds)
      (call : handleRead m rounds io fd buffer length = .ended (.ok n, io')) :
      ConsoleRun m serial io'.console (bytes ++ delivered m io io' buffer n)
  | refused {K : Set Nat} {kids : Fin 512 → PTree} {io io' : Io}
      {fd buffer length rounds : Nat} {bytes : List UInt8} {e : IoError}
      (run : ConsoleRun m serial io.console bytes) (ready : io.Ready)
      (apart : io.kernel.Apart m K kids) (console : io.IsConsole (Int32.ofNat fd))
      (positive : 1 ≤ length) (enough : length < rounds)
      (call : handleRead m rounds io fd buffer length = .ended (.error e, io')) :
      ConsoleRun m serial io'.console bytes

/-- A call that returned has read one line at most, and delivered its start. -/
theorem handleRead_took (hready : io.Ready) (hA : io.kernel.Apart m K kids)
    (h : io.IsConsole (Int32.ofNat fd)) (hpos : 1 ≤ length) (hrounds : length < rounds)
    (hcall : handleRead m rounds io fd buffer length = .ended (.ok n, io')) :
    ∃ c len, io.console.await = some c ∧ io'.console = (c.take len).2 ∧
      delivered m io io' buffer n = (c.take len).1 ∧ (c.take len).1 ≠ [] := by
  have hok : m.vmm.userRangeOk io.phys io.kernel.cr3 buffer length true = true := by
    by_contra hbad
    rw [h.handleRead_bad hbad] at hcall
    cases hcall
  have hone := handleRead_console hready hA h hpos hrounds hok
  have hspec := handleRead_spec hready hA fd buffer length hrounds
  cases hawait : io.console.await with
  | none =>
    rw [hawait] at hone
    rw [hone] at hcall
    cases hcall
  | some c =>
    rw [hawait] at hone
    obtain ⟨io₁, hend, hconsole⟩ := hone
    rw [hend] at hcall
    cases hcall
    rw [hend] at hspec
    obtain ⟨-, bytes, hlen, hsource, hin, -, -⟩ := hspec.mpr fun _ => readsRight_none h.readable
    obtain ⟨hcok, hleft⟩ := await_left hready.console hawait
    have htyped := (hready.console.await hawait).2.1
    have htake := (hcok.take (min chunkSize length)).2.1
    refine ⟨c, min chunkSize length, rfl, hconsole, ?_, fun hnil => ?_⟩
    · have hbytes : bytes = (c.take (min chunkSize length)).1 := by
        rw [h.source, ← htyped, ← htake] at hsource
        exact (List.append_inj hsource hlen.symm).1.symm
      rw [← hbytes]
      refine List.ext_getElem (by simp [delivered, hlen]) fun i h₁ h₂ => ?_
      have hi := hin i (by omega)
      rw [List.getD_eq_getElem _ 0 h₂] at hi
      simpa [delivered] using hi
    · have hempty := congrArg List.length hnil
      simp only [Console.take, List.length_take, List.length_drop, List.length_nil] at hempty
      unfold chunkSize at hempty
      split_ifs at hempty <;> omega

/-- What a read of the console asks of the serial line: it waits only where nothing
is left of a line, and it takes the characters of one line at most, and of none
where it has bytes already. -/
def AsksOnce (m : Machine) (c : Console) : Prop :=
  ∀ (K : Set Nat) (kids : Fin 512 → PTree) (io : Io) (fd buffer length rounds : Nat),
    io.console = c → io.Ready → io.kernel.Apart m K kids → io.IsConsole (Int32.ofNat fd) →
    1 ≤ length → length < rounds →
      (handleRead m rounds io fd buffer length = .waits → c.await = none) ∧
      ∀ n io', handleRead m rounds io fd buffer length = .ended (.ok n, io') →
        1 ≤ n ∧ ∃ line, c.await = some line ∧ io'.console.serial = line.serial

theorem serial_take (c : Console) (len : Nat) : (c.take len).2.serial = c.serial := by
  simp only [Console.take]
  split_ifs <;> rfl

theorem asksOnce (m : Machine) (c : Console) : AsksOnce m c := by
  rintro K kids io fd buffer length rounds rfl hready hA h hpos hrounds
  refine ⟨fun hwaits => ?_, fun n io' hcall => ?_⟩
  · have hok : m.vmm.userRangeOk io.phys io.kernel.cr3 buffer length true = true := by
      by_contra hbad
      rw [h.handleRead_bad hbad] at hwaits
      cases hwaits
    have hone := handleRead_console hready hA h hpos hrounds hok
    cases hawait : io.console.await with
    | none => rfl
    | some c =>
      rw [hawait] at hone
      obtain ⟨io', hend, -⟩ := hone
      rw [hend] at hwaits
      cases hwaits
  · obtain ⟨line, len, hawait, hconsole, hbytes, hne⟩ :=
      handleRead_took hready hA h hpos hrounds hcall
    have hlen : n = (line.take len).1.length := by
      rw [← hbytes]
      simp [delivered]
    refine ⟨?_, line, hawait, ?_⟩
    · rw [hlen]
      exact List.length_pos_of_ne_nil hne
    · rw [hconsole, serial_take]

theorem ConsoleRun.typed (run : ConsoleRun m serial c bytes) :
    c.Ok ∧ edited serial = bytes ++ c.typed := by
  induction run with
  | start =>
    refine ⟨⟨le_rfl, Nat.zero_le _⟩, ?_⟩
    rw [← lines_eq]
    rfl
  | wrote run ih => exact ⟨⟨ih.1.pos, ih.1.small⟩, ih.2⟩
  | read run hready hA h hpos hrounds hcall ih =>
    obtain ⟨c, len, hawait, hconsole, hbytes, -⟩ :=
      handleRead_took hready hA h hpos hrounds hcall
    obtain ⟨hcok, htyped, -⟩ := ih.1.await hawait
    obtain ⟨hok, htake, -⟩ := hcok.take len
    rw [hconsole, hbytes]
    refine ⟨hok, ?_⟩
    rw [ih.2, ← htyped, ← htake, List.append_assoc]
  | @refused K kids io io' fd buffer length rounds bytes e run hready hA h hpos hrounds hcall ih =>
    have hio : io' = io := by
      by_cases hok : m.vmm.userRangeOk io.phys io.kernel.cr3 buffer length true = true
      · have hone := handleRead_console hready hA h hpos hrounds hok
        cases hawait : io.console.await with
        | none =>
          rw [hawait] at hone
          rw [hone] at hcall
          cases hcall
        | some c =>
          rw [hawait] at hone
          obtain ⟨io₁, hend, -⟩ := hone
          rw [hend] at hcall
          cases hcall
      · rw [h.handleRead_bad hok] at hcall
        cases hcall
        rfl
    rw [hio]
    exact ih

/-- The bytes that the reads return are the start of the edited text, and the rest
of it is still to be read. -/
theorem console_stream (m : Machine) (serial : List UInt8) (c : Console) (bytes : List UInt8)
    (run : ConsoleRun m serial c bytes) :
    bytes <+: edited serial ∧ edited serial = bytes ++ c.typed ∧ AsksOnce m c :=
  ⟨⟨c.typed, run.typed.2.symm⟩, run.typed.2, asksOnce m c⟩

attribute [local irreducible] smallMapped noteVfs

def typingIo (serial : List UInt8) : Io where
  kernel := { noteKernel noteVfs 0 with openFile := fun _ => { refs := 1, type := .console } }
  queue := fun _ => {}
  console := { serial := serial }

theorem typingIo_settled (serial : List UInt8) : ∃ kids, (typingIo serial).Ready ∧
    (typingIo serial).kernel.Apart .x86_64 {0x1000} kids := by
  obtain ⟨kids, -, hA⟩ := noteIo_settled (Nat.zero_le _)
  refine ⟨kids, ⟨fun fd f hf => ?_, fun fd f hget htype => ?_, fun q hq => (by cases hq),
    ⟨le_rfl, Nat.zero_le _⟩⟩, hA.space, hA.distinct, hA.kernel, hA.pages, hA.foreign⟩
  · cases (taskFdFile_eq_some.mp hf).2
  · rcases htype with htype | htype <;> cases htype

/-- The letters `ab` are typed, the second one is taken back, and the line is read. -/
theorem console_stream_typing : ∃ c bytes, bytes ≠ [] ∧
    (bytes <+: edited [97, 98, 8, 13] ∧ edited [97, 98, 8, 13] = bytes ++ c.typed ∧
      AsksOnce .x86_64 c) := by
  obtain ⟨kids, hready, hA⟩ := typingIo_settled [97, 98, 8, 13]
  have hconsole : (typingIo [97, 98, 8, 13]).IsConsole (Int32.ofNat 3) := ⟨10, rfl, rfl⟩
  have hok : Machine.x86_64.vmm.userRangeOk (typingIo [97, 98, 8, 13]).phys
      (typingIo [97, 98, 8, 13]).kernel.cr3 0x400000 2 true = true := by decide +kernel
  obtain ⟨io', hcall, -⟩ := handleRead_console hready hA hconsole (by decide) (by decide : 2 < 3) hok
  have hne := (handleRead_took hready hA hconsole (by decide) (by decide) hcall)
  obtain ⟨c, len, -, -, hbytes, hne⟩ := hne
  refine ⟨io'.console, _, ?_, console_stream .x86_64 [97, 98, 8, 13] io'.console _
    (.read .start hready hA hconsole (by decide) (by decide) hcall)⟩
  rw [List.nil_append, hbytes]
  exact hne

end Io

end NarcOs
