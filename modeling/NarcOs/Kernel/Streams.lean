import NarcOs.Fs.Spares
import NarcOs.Kernel.ReadDir
import NarcOs.Kernel.UserCopy
import NarcOs.Lib.Ring

/-!
# Reading and writing through descriptors

`task_fd_read` and `task_fd_write` of `kernel/task.c`: the console with its line
editor, the pipes, whose bytes are in a page each, and the files.
-/

namespace NarcOs

def pipeSize : Nat := pageSize
def inputSize : Nat := 256

/-- `head` and `count` of a `struct pipe`. -/
structure PipeQueue where
  head : Nat := 0
  count : Nat := 0

/-- The variables of the console: `input` has `input_count` characters. `serial` is not
part of the source: it has the characters that `serial_getc` will give, and when there
are none the call waits. `output` is all that was written. -/
structure Console where
  input : List UInt8 := []
  inputPos : Nat := 0
  serial : List UInt8 := []
  output : List UInt8 := []

structure Io where
  kernel : Kernel
  queue : Ptr → PipeQueue
  console : Console

/-- The loop that reads a line: the line, its echo and what comes after it; `none` when it
waits. -/
def readLine (input : List UInt8) : List UInt8 → Option (List UInt8 × List UInt8 × List UInt8)
  | [] => if input.length < inputSize then none else some (input, [], [])
  | c :: serial =>
    if input.length < inputSize then
      let c := if c = 13 then 10 else c
      if (c = 8 ∨ c = 127) ∧ input ≠ [] then
        (readLine input.dropLast serial).map fun (line, echo, rest) => (line, [8, 32, 8] ++ echo, rest)
      else if c = 8 ∨ c = 127 then readLine input serial
      else if c = 10 then some (input ++ [c], [c], serial)
      else (readLine (input ++ [c]) serial).map fun (line, echo, rest) => (line, [c] ++ echo, rest)
    else some (input, [], c :: serial)

namespace Console

def await (c : Console) : Option Console :=
  if c.inputPos = c.input.length then
    (readLine [] c.serial).map fun (line, echo, rest) =>
      { input := line, inputPos := 0, serial := rest, output := c.output ++ echo }
  else some c

def take (c : Console) (len : Nat) : List UInt8 × Console :=
  let done := if len < c.input.length - c.inputPos then len else c.input.length - c.inputPos
  (((c.input.drop c.inputPos).take done),
    if c.inputPos + done = c.input.length then { c with input := [], inputPos := 0 }
    else { c with inputPos := c.inputPos + done })

end Console

def Mem.putRing (page head : Nat) : Nat → List UInt8 → Mem → Mem
  | _, [], m => m
  | count, b :: bytes, m => putRing page head (count + 1) bytes (m.write (page + (head + count) % pipeSize) [b])

namespace Io

def phys (io : Io) : Phys := io.kernel.phys

def setPhys (io : Io) (phys : Phys) : Io := { io with kernel := io.kernel.setPhys phys }

def setFile (io : Io) (f : Ptr) (file : File) : Io := { io with kernel := io.kernel.setFile f file }

def setVfs (io : Io) (vfs : Vfs) : Io := { io with kernel := { io.kernel with vfs := vfs } }

/-- `pipe->data` -/
def pipeData (io : Io) (q : Ptr) : Nat → UInt8 := fun i => io.phys.mem ((io.kernel.pipe q).page + i)

def setQueue (io : Io) (q : Ptr) (queue : PipeQueue) : Io := { io with queue := Function.update io.queue q queue }

/-- The loop of a pipe's writer with the new count, when there is room for the bytes. -/
def putPipe (io : Io) (q : Ptr) (bytes : List UInt8) : Io :=
  let queue := io.queue q
  let mem := io.phys.mem.putRing (io.kernel.pipe q).page queue.head queue.count bytes
  (io.setPhys { io.phys with mem := mem }).setQueue q ⟨queue.head, queue.count + bytes.length⟩

/-- The outer `none` is a call that waits, and the inner one the source's -1. -/
def taskFdRead (io : Io) (fd : Int32) (len : Nat) : Option (Option (List UInt8) × Io) :=
  match io.kernel.fdGet fd with
  | none => some (none, io)
  | some f =>
    match (io.kernel.openFile f).type with
    | .vfs =>
      let (bytes, file) := io.kernel.vfs.vfsRead (io.kernel.openFile f).file len
      some (bytes, io.setFile f file)
    | .console =>
      io.console.await.map fun console =>
        let (bytes, console) := console.take len
        (some bytes, { io with console := console })
    | .pipeR =>
      match (io.kernel.openFile f).pipe with
      | none => some (none, io)
      | some q =>
        let queue := io.queue q
        let done := if len < queue.count then len else queue.count
        let (bytes, head) := Ring.pop pipeSize (io.pipeData q) done queue.head
        some (some bytes, io.setQueue q ⟨head, queue.count - done⟩)
    | .pipeW => some (none, io)

/-- `none` is the source's -1. -/
def taskFdWrite (io : Io) (fd : Int32) (bytes : List UInt8) : Option Nat × Io :=
  match io.kernel.fdGet fd with
  | none => (none, io)
  | some f =>
    match (io.kernel.openFile f).type with
    | .console =>
      (some bytes.length, { io with console := { io.console with output := io.console.output ++ bytes } })
    | .vfs =>
      let (count, file, vfs) := io.kernel.vfs.vfsWrite (io.kernel.openFile f).file bytes
      (count, (io.setVfs vfs).setFile f file)
    | .pipeW =>
      match (io.kernel.openFile f).pipe with
      | none => (none, io)
      | some q =>
        let count := (io.queue q).count
        let done := if bytes.length < pipeSize - count then bytes.length else pipeSize - count
        (some done, io.putPipe q (bytes.take done))
    | .pipeR => (none, io)

end Io

end NarcOs
