import NarcOs.Pablo.Service
import NarcOs.Pablo.Text

/-!
# Configuration files

`pablo_read_file` of `userland/pablo/src/io.c` and the two loaders of
`userland/pablo/src/config.c`. A file is read into a buffer on the stack, and is
parsed there: `next_line`, `pablo_trim` and `split_setting` write NULs into the
bytes that the cursor walks over. The log lines are left out.
-/

namespace NarcOs
namespace Pablo

/-- The values of `errno` that are told apart, or set here. -/
inductive Errno
  | noEntry
  | interrupted
  | invalid
  | overflow
  | other
  deriving DecidableEq

/-- An open file: the bytes not read yet, and how the next calls of `read` are answered. A
call that is not listed, or listed with `n`, returns what is asked for, or at most `n + 1`
bytes. -/
structure Descriptor where
  rest : List UInt8
  answers : List (Except Errno Nat) := []

def Descriptor.read (d : Descriptor) (count : Nat) : Except Errno (List UInt8) × Descriptor :=
  match d.answers with
  | [] => (.ok (d.rest.take count), ⟨d.rest.drop count, []⟩)
  | .ok n :: answers => (.ok (d.rest.take (min count (n + 1))), ⟨d.rest.drop (min count (n + 1)), answers⟩)
  | .error e :: answers => (.error e, ⟨d.rest, answers⟩)

theorem Descriptor.read_error {d d' : Descriptor} {count : Nat} {e : Errno} (h : d.read count = (.error e, d')) :
    d'.answers.length < d.answers.length ∧ d'.rest = d.rest := by
  unfold read at h
  cases ha : d.answers with
  | nil => simp [ha] at h
  | cons a answers =>
    cases a with
    | ok n => simp [ha] at h
    | error e =>
      simp only [ha] at h
      cases h
      exact ⟨Nat.lt_succ_self _, rfl⟩

theorem Descriptor.read_ok {d d' : Descriptor} {count : Nat} {data : List UInt8} (h : d.read count = (.ok data, d')) :
    data ++ d'.rest = d.rest ∧ data.length ≤ count ∧ d'.answers.length ≤ d.answers.length := by
  unfold read at h
  cases ha : d.answers with
  | nil =>
    simp only [ha] at h
    cases h
    exact ⟨List.take_append_drop _ _, List.length_take_le _ _, le_rfl⟩
  | cons a answers =>
    cases a with
    | error e => simp [ha] at h
    | ok n =>
      simp only [ha] at h
      cases h
      exact ⟨List.take_append_drop _ _, (List.length_take_le _ _).trans (min_le_left _ _), Nat.le_succ _⟩

/-- The loop of `pablo_read_file`, with the bytes read so far. -/
def readLoop (capacity : Nat) (d : Descriptor) (used : List UInt8) : Except Errno (List UInt8) × Descriptor :=
  if used.length + 1 < capacity then
    match h : d.read (capacity - used.length - 1) with
    | (.error .interrupted, d') => readLoop capacity d' used
    | (.error e, d') => (.error e, d')
    | (.ok [], d') => (.ok used, d')
    | (.ok (c :: data), d') => readLoop capacity d' (used ++ c :: data)
  else (.ok used, d)
termination_by d.answers.length + d.rest.length
decreasing_by
  · obtain ⟨ha, hr⟩ := Descriptor.read_error h
    rw [hr]
    omega
  · obtain ⟨hr, -, ha⟩ := Descriptor.read_ok h
    rw [← hr, List.length_append, List.length_cons]
    omega

/-- What `open` and `close` return for a file. -/
structure Opening where
  opened : Except Errno Descriptor
  closed : Except Errno Unit := .ok ()

/-- `errno` after a failed read and the `close` that follows it. -/
def Opening.afterClose (file : Opening) (e : Errno) : Errno :=
  match file.closed with
  | .ok () => e
  | .error e' => e'

/-- The bytes before the NUL that ends the buffer, or `errno`. -/
def pabloReadFile (file : Opening) (capacity : Nat) : Except Errno (List UInt8) :=
  if capacity = 0 then .error .invalid
  else
    match file.opened with
    | .error e => .error e
    | .ok d =>
      match readLoop capacity d [] with
      | (.error e, _) => .error (file.afterClose e)
      | (.ok used, d') =>
        match (d'.read 1).1 with
        | .error e => .error (file.afterClose e)
        | .ok (_ :: _) => .error .overflow
        | .ok [] =>
          match file.closed with
          | .ok () => .ok used
          | .error e => .error e

-- ---------------------------------------------------------------------------
-- Lines and settings
-- ---------------------------------------------------------------------------

variable {n : Nat}

def splitSetting (b : Buffer n) (line : Nat) : Buffer n × Option (Nat × Nat) :=
  match b.strchr line 61 with
  | none => (b, none)
  | some separator =>
    let (b, key) := pabloTrim (b.set separator 0) line
    let (b, value) := pabloTrim b (separator + 1)
    (b, if b.get key ≠ 0 ∧ b.get value ≠ 0 then some (key, value) else none)

def nextLine (b : Buffer n) (cursor : Nat) : Option (Buffer n × Nat × Nat) :=
  if b.get cursor = 0 then none
  else
    match b.strchr cursor 10 with
    | some last => some (b.set last 0, last + 1, cursor)
    | none => some (b, cursor + b.strlen cursor, cursor)

theorem nextLine_lt {b b' : Buffer n} {cursor cursor' line : Nat} (h : nextLine b cursor = some (b', cursor', line)) :
    cursor < n ∧ cursor < cursor' := by
  unfold nextLine at h
  split at h
  · cases h
  rename_i hget
  refine ⟨Buffer.lt_of_get_ne_zero hget, ?_⟩
  cases hc : b.strchr cursor 10 with
  | some last =>
    rw [hc] at h
    cases h
    exact Nat.lt_succ_of_le (Buffer.le_of_strchr hc)
  | none =>
    rw [hc] at h
    cases h
    have := Buffer.strlen_pos hget
    omega

/-- What both loaders do with a line: blank lines and comments are passed over, the others
given to `parse`, with the state that it changes. -/
def parseLine {σ : Type} (parse : Buffer n → Nat → σ → Buffer n × Int × σ) (b : Buffer n) (line : Nat) (state : σ) :
    Buffer n × Int × σ :=
  let (b, line) := pabloTrim b line
  if b.get line = 0 ∨ b.get line = 35 then (b, 0, state) else parse b line state

def eachLine {σ : Type} (parse : Buffer n → Nat → σ → Buffer n × Int × σ) (b : Buffer n) (cursor : Nat) (state : σ) :
    Int × σ :=
  match h : nextLine b cursor with
  | none => (0, state)
  | some (b, cursor', line) =>
    let (b, result, state) := parseLine parse b line state
    if result ≠ 0 then (-1, state) else eachLine parse b cursor' state
termination_by n - cursor
decreasing_by
  have := nextLine_lt h
  omega

def pabloFileMax : Nat := 4096

/-- The body of the loop of `load_settings`. -/
def parseSettingsLine {m : Nat} (b : Buffer n) (line : Nat) (config : Config m) : Buffer n × Int × Config m :=
  match splitSetting b line with
  | (b, none) => (b, -1, config)
  | (b, some (key, value)) =>
    match pabloParseUnsigned (b.stringAt value) with
    | none => (b, -1, config)
    | some number =>
      if b.stringAt key = ascii "restart_limit" then (b, 0, { config with restartLimit := number })
      else if b.stringAt key = ascii "restart_delay" then (b, 0, { config with restartDelay := number })
      else (b, -1, config)

/-- `stack` is what the buffer holds before the file is read. -/
def loadSettings {m : Nat} (config : Config m) (file : Opening) (stack : Buffer pabloFileMax) : Int × Config m :=
  match pabloReadFile file pabloFileMax with
  | .error .noEntry => (0, config)
  | .error _ => (-1, config)
  | .ok content => eachLine parseSettingsLine (stack.store content) 0 config

-- ---------------------------------------------------------------------------
-- Services
-- ---------------------------------------------------------------------------

def pabloNameMax : Nat := 32
def pabloPathMax : Nat := 128
def pabloArgMax : Nat := 8
def pabloArgLength : Nat := 64

/-- A service with its `argument_count` arguments. -/
structure ServiceEntry extends Service where
  arguments : List CString := []

def serviceName (filename : CString) : Option CString :=
  if ¬ pabloHasSuffix filename ⟨ascii ".service", by decide +kernel⟩ then none
  else
    let length := filename.bytes.length - 8
    if length = 0 ∨ length ≥ pabloNameMax then none
    else some ⟨filename.bytes.take length, fun h => filename.noNul (List.mem_of_mem_take h)⟩

def parseServiceLine (b : Buffer n) (line : Nat) (service : ServiceEntry) : Buffer n × Int × ServiceEntry :=
  match splitSetting b line with
  | (b, none) => (b, -1, service)
  | (b, some (key, value)) =>
    if b.stringAt key = ascii "exec" then
      let (result, path) := pabloCopy service.path pabloPathMax (b.cstringAt value)
      (b, result, { service with path })
    else if b.stringAt key = ascii "after" then
      let (result, after) := pabloCopy service.after pabloNameMax (b.cstringAt value)
      (b, result, { service with after })
    else if b.stringAt key = ascii "policy" then
      if b.stringAt value = ascii "once" then (b, 0, { service with policy := .once })
      else if b.stringAt value = ascii "respawn" then (b, 0, { service with policy := .respawn })
      else (b, -1, service)
    else if b.stringAt key = ascii "arg" then
      if service.arguments.length ≥ pabloArgMax then (b, -1, service)
      else
        -- the count goes up before the argument is copied
        let (result, argument) := pabloCopy .empty pabloArgLength (b.cstringAt value)
        (b, result, { service with arguments := service.arguments ++ [argument] })
    else (b, -1, service)

/-- `files` are the files by their paths, `stack` the buffer before the file is read. -/
def loadService (files : CString → Opening) (directory filename : CString) (stack : Buffer pabloFileMax) :
    Int × ServiceEntry :=
  let service : ServiceEntry := { name := .empty, path := .empty, after := .empty }
  match serviceName filename with
  | none => (-1, service)
  | some name =>
    let service := { service with name }
    if directory.bytes.length + filename.bytes.length + 2 > pabloPathMax then (-1, service)
    else
      match pabloReadFile (files (directory.join filename)) pabloFileMax with
      | .error _ => (-1, service)
      | .ok content =>
        let (result, service) := eachLine parseServiceLine (stack.store content) 0 service
        if result ≠ 0 then (-1, service)
        else if service.path.first ≠ 0 then (0, service)
        else (-1, service)

end Pablo
end NarcOs
