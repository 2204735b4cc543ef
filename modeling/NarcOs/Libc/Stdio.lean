import NarcOs.Lib.CString

/-!
# Formatted output

`lib/libc/src/stdio/format.c`, with `fwrite.c` below it. The text of a format
string and of a string argument is the bytes before the NUL. `none` stands for
undefined behaviour: an argument of another type than the directive reads, a
store behind the digit buffer, a signed overflow. `errno` is left out.
-/

namespace NarcOs
namespace Libc

def intMax : Nat := 2147483647

-- ---------------------------------------------------------------------------
-- Streams
-- ---------------------------------------------------------------------------

/-- What `write` answers: `EINTR`, another error, or the number of bytes taken,
which is one and up to `more` others. -/
inductive Answer
  | interrupted
  | failed
  | wrote (more : Nat)

/-- `struct __libc_file`, with the bytes its descriptor has taken and the answers
of the coming calls of `write`; behind these `write` takes all it is given. -/
structure File where
  writable : Bool
  error : Bool := false
  text : List UInt8 := []
  answers : List Answer := []

/-- The loop of `fwrite`: the bytes taken, the answers left, whether it broke. -/
def writeLoop : List Answer → List UInt8 → List UInt8 × List Answer × Bool
  | answers, [] => ([], answers, false)
  | [], b :: data => (b :: data, [], false)
  | .interrupted :: answers, b :: data => writeLoop answers (b :: data)
  | .failed :: answers, _ :: _ => ([], answers, true)
  | .wrote more :: answers, b :: data =>
    let (taken, rest) := writeLoop answers (data.drop more)
    (b :: data.take more ++ taken, rest)

/-- `fwrite(data, 1, length, stream)`. -/
def fwrite (data : List UInt8) (stream : File) : Nat × File :=
  if ¬ stream.writable then (0, { stream with error := true })
  else
    match writeLoop stream.answers data with
    | (taken, answers, broke) => (taken.length, { stream with
        text := stream.text ++ taken
        answers := answers
        error := stream.error || broke })

/-- The stream and the variable `total` of `__stdio_format`. -/
structure Out where
  stream : File
  total : Nat
  totalLe : total ≤ intMax

def emit (data : List UInt8) (out : Out) : Int × Out :=
  if h : data.length > intMax - out.total then (-1, out)
  else
    match fwrite data out.stream with
    | (written, stream) =>
      if written ≠ data.length then (-1, { out with stream := stream })
      else (0, {
        stream
        total := out.total + data.length
        totalLe := by have := out.totalLe; omega
      })

-- ---------------------------------------------------------------------------
-- Numbers
-- ---------------------------------------------------------------------------

/-- The result of a signed operation of a type with `bits` bits. -/
def signed (bits : Nat) (x : Int) : Option Int :=
  if -2 ^ (bits - 1) ≤ x ∧ x < 2 ^ (bits - 1) then some x else none

def digitChar (uppercase : Bool) (d : Nat) : UInt8 :=
  if d < 10 then .ofNat (48 + d) else if uppercase then .ofNat (55 + d) else .ofNat (87 + d)

/-- The loop that fills `buffer`, which has 32 bytes. -/
def digitLoop (base : Nat) (uppercase : Bool) (value : Nat) (buffer : List UInt8) :
    Option (List UInt8) :=
  if buffer.length < 32 then
    let buffer' := buffer ++ [digitChar uppercase (value % base)]
    if value / base = 0 then some buffer' else digitLoop base uppercase (value / base) buffer'
  else none
termination_by 32 - buffer.length
decreasing_by simp; omega

/-- `while (width > length + marker)`, with the sum in `need`. -/
def padLoop (padding : UInt8) (need width : Int) (out : Out) : Option (Int × Out) :=
  if width > need then
    match emit [padding] out with
    | (result, out) =>
      if result ≠ 0 then some (-1, out)
      else
        match signed 32 (width - 1) with
        | none => none
        | some _ => padLoop padding need (width - 1) out
  else some (0, out)
termination_by (width - need).toNat

/-- `while (length) emit(&buffer[--length], 1)`, on the buffer from its end. -/
def emitEach : List UInt8 → Out → Int × Out
  | [], out => (0, out)
  | b :: rest, out =>
    match emit [b] out with
    | (result, out) => if result ≠ 0 then (-1, out) else emitEach rest out

/-- `if (condition && emit(...) != 0) return -1`. -/
def emitIf (condition : Bool) (data : List UInt8) (out : Out) : Int × Out :=
  if condition then emit data out else (0, out)

/-- `if (condition) while ...`. -/
def padIf (condition : Bool) (padding : UInt8) (need width : Int) (out : Out) :
    Option (Int × Out) :=
  if condition then padLoop padding need width out else some (0, out)

def andThen (r : Option (Int × Out)) (next : Out → Option (Int × Out)) : Option (Int × Out) :=
  r.bind fun r => if r.1 ≠ 0 then some (-1, r.2) else next r.2

def marker (negative pointer : Bool) : Int := if negative then 1 else if pointer then 2 else 0

/-- `emit_number`; the argument `prefix` is `pointer` here. -/
def emitNumber (value base : Nat) (uppercase negative pointer : Bool) (width : Int)
    (zeroPad : Bool) (out : Out) : Option (Int × Out) :=
  (digitLoop base uppercase value []).bind fun buffer =>
    (signed 32 (buffer.length + marker negative pointer)).bind fun need =>
      let padding : UInt8 := if zeroPad then 48 else 32
      andThen (padIf (!zeroPad) padding need width out) fun out =>
      andThen (some (emitIf negative [45] out)) fun out =>
      andThen (some (emitIf pointer (if uppercase then [48, 88] else [48, 120]) out)) fun out =>
      andThen (padIf zeroPad padding need width out) fun out =>
        some (emitEach buffer.reverse out)

-- ---------------------------------------------------------------------------
-- Arguments
-- ---------------------------------------------------------------------------

inductive LengthKind
  | int
  | long
  | longLong
  | size

/-- A variable argument. Signed and unsigned integers of one size have the same
bits; a string is what the pointer leads to. -/
inductive Arg
  | int (value : BitVec 32)
  | long (value : BitVec 64)
  | longLong (value : BitVec 64)
  | size (value : BitVec 64)
  | string (value : Option CString)
  | pointer (value : BitVec 64)

def unsignedArgument : LengthKind → List Arg → Option (Nat × List Arg)
  | .longLong, .longLong value :: rest => some (value.toNat, rest)
  | .long, .long value :: rest => some (value.toNat, rest)
  | .size, .size value :: rest => some (value.toNat, rest)
  | .int, .int value :: rest => some (value.toNat, rest)
  | _, _ => none

def signedArgument : LengthKind → List Arg → Option (Int × List Arg)
  | .longLong, .longLong value :: rest => some (value.toInt, rest)
  | .long, .long value :: rest => some (value.toInt, rest)
  | .size, .size value :: rest => some (value.toInt, rest)
  | .int, .int value :: rest => some (value.toInt, rest)
  | _, _ => none

/-- `value < 0 ? (uint64_t)(-(value + 1)) + 1 : (uint64_t)value`. -/
def magnitude (value : Int) : Option Nat :=
  if value < 0 then
    (signed 64 (value + 1)).bind fun next =>
      (signed 64 (-next)).map fun flipped => (flipped.toNat + 1) % 2 ^ 64
  else some value.toNat

-- ---------------------------------------------------------------------------
-- Directives
-- ---------------------------------------------------------------------------

/-- What stands between a `%` and the text behind the directive. -/
structure Directive where
  zeroPad : Bool
  width : Nat
  widthLe : width ≤ intMax
  length : LengthKind
  specifier : UInt8

def IsDigit (b : UInt8) : Prop := 48 ≤ b.toNat ∧ b.toNat ≤ 57

instance (b : UInt8) : Decidable (IsDigit b) := inferInstanceAs (Decidable (_ ∧ _))

def widen (width : { w : Nat // w ≤ intMax }) (digit : Fin 10) : { w : Nat // w ≤ intMax } :=
  if h : width.1 ≤ (intMax - digit) / 10 then
    ⟨width.1 * 10 + digit, by have := digit.2; unfold intMax at *; omega⟩
  else ⟨intMax, Nat.le_refl _⟩

def parseWidth : { w : Nat // w ≤ intMax } → List UInt8 → { w : Nat // w ≤ intMax } × List UInt8
  | width, [] => (width, [])
  | width, b :: rest =>
    if h : IsDigit b then
      parseWidth (widen width ⟨b.toNat - 48, by have := h.2; omega⟩) rest
    else (width, b :: rest)

/-- The flag `0`. -/
def parseZero : List UInt8 → Bool × List UInt8
  | 48 :: rest => (true, rest)
  | format => (false, format)

/-- The length modifiers `l` and `ll`, and `z`. -/
def parseLength : List UInt8 → LengthKind × List UInt8
  | 108 :: 108 :: rest => (.longLong, rest)
  | 108 :: rest => (.long, rest)
  | 122 :: rest => (.size, rest)
  | format => (.int, format)

/-- The directive behind a `%` and the rest of the format. -/
def parseDirective (format : List UInt8) : Directive × List UInt8 :=
  let zero := parseZero format
  let width := parseWidth ⟨0, Nat.zero_le _⟩ zero.2
  let length := parseLength width.2
  ({
    zeroPad := zero.1
    width := width.1.1
    widthLe := width.1.2
    length := length.1
    specifier := length.2.headD 0
  }, length.2.tail)

inductive Conversion
  | percent
  | char (width : Nat) (value : UInt8)
  | string (width : Nat) (value : List UInt8)
  | number (value base : Nat) (uppercase negative pointer : Bool) (width : Nat) (zeroPad : Bool)
  | invalid

def nullText : List UInt8 := [40, 110, 117, 108, 108, 41]

/-- The variable `base` for `u`, `o`, `x` and `X`. -/
def unsignedBase (specifier : UInt8) : Nat :=
  if specifier = 111 then 8 else if specifier = 117 then 10 else 16

/-- The branches on the specifier, up to the calls of `emit` and `emit_number`. -/
def convert (d : Directive) (args : List Arg) : Option (Conversion × List Arg) :=
  if d.specifier = 37 then some (.percent, args)
  else if d.specifier = 99 then
    match args with
    | .int value :: rest => some (.char d.width (.ofNat value.toNat), rest)
    | _ => none
  else if d.specifier = 115 then
    match args with
    | .string value :: rest => some (.string d.width ((value.map (·.bytes)).getD nullText), rest)
    | _ => none
  else if d.specifier = 100 ∨ d.specifier = 105 then
    (signedArgument d.length args).bind fun (value, rest) =>
      (magnitude value).map fun absolute =>
        (.number absolute 10 false (value < 0) false d.width d.zeroPad, rest)
  else if d.specifier = 117 ∨ d.specifier = 111 ∨ d.specifier = 120 ∨ d.specifier = 88 then
    (unsignedArgument d.length args).map fun (value, rest) =>
      (.number value (unsignedBase d.specifier) (d.specifier = 88) false false d.width d.zeroPad,
        rest)
  else if d.specifier = 112 then
    match args with
    | .pointer value :: rest =>
      some (.number value.toNat 16 false false true d.width d.zeroPad, rest)
    | _ => none
  else some (.invalid, args)

/-- The calls of `emit` and `emit_number` in these branches. -/
def emitConversion : Conversion → Out → Option (Int × Out)
  | .percent, out => some (emit [37] out)
  | .char _ value, out => some (emit [value] out)
  | .string _ value, out => some (emit value out)
  | .number value base uppercase negative pointer width zeroPad, out =>
    emitNumber value base uppercase negative pointer width zeroPad out
  | .invalid, out => some (-1, out)

theorem length_parseWidth (w : { w : Nat // w ≤ intMax }) (format : List UInt8) :
    (parseWidth w format).2.length ≤ format.length := by
  induction format generalizing w with
  | nil => simp [parseWidth]
  | cons b rest ih =>
    rw [parseWidth]
    split_ifs
    · exact Nat.le_trans (ih _) (by simp)
    · exact Nat.le_refl _

theorem length_parseZero (format : List UInt8) : (parseZero format).2.length ≤ format.length := by
  unfold parseZero
  split
  · simp
  · exact Nat.le_refl _

theorem length_parseLength (format : List UInt8) :
    (parseLength format).2.length ≤ format.length := by
  unfold parseLength
  split
  · simp only [List.length_cons]
    omega
  · simp
  · simp
  · exact Nat.le_refl _

theorem length_parseDirective (format : List UInt8) :
    (parseDirective format).2.length ≤ format.length := by
  have hzero := length_parseZero format
  have hwidth := length_parseWidth ⟨0, Nat.zero_le _⟩ (parseZero format).2
  have hlength := length_parseLength (parseWidth ⟨0, Nat.zero_le _⟩ (parseZero format).2).2
  simp only [parseDirective, List.length_tail]
  omega

def literal (format : List UInt8) : List UInt8 := format.takeWhile (· ≠ 37)

theorem length_rest {format rest : List UInt8} {b : UInt8}
    (h : format.dropWhile (· ≠ 37) = b :: rest) : rest.length < format.length := by
  have hdrop := (List.dropWhile_suffix (l := format) (· ≠ 37)).length_le
  rw [h, List.length_cons] at hdrop
  exact hdrop

/-- The loop of `__stdio_format`. -/
def formatLoop (format : List UInt8) (args : List Arg) (out : Out) : Option (Int × Out) :=
  if format = [] then some (0, out)
  else
    andThen (some (emitIf (literal format ≠ []) (literal format) out)) fun out =>
      match _h : format.dropWhile (· ≠ 37) with
      | [] => some (0, out)
      | _ :: rest =>
        (convert (parseDirective rest).1 args).bind fun (conversion, args) =>
          andThen (emitConversion conversion out) fun out =>
            formatLoop (parseDirective rest).2 args out
termination_by format.length
decreasing_by
  have hrest := length_rest _h
  have hdir := length_parseDirective rest
  omega

/-- `__stdio_format`: the result and the stream. -/
def stdioFormat (format : CString) (args : List Arg) (stream : File) : Option (Int × File) :=
  (formatLoop format.bytes args ⟨stream, 0, Nat.zero_le _⟩).map fun (result, out) =>
    (if result ≠ 0 then -1 else (BitVec.ofNat 32 out.total).toInt, out.stream)

end Libc
end NarcOs
