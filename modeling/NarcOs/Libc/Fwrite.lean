import Mathlib.Data.List.GetD
import NarcOs.Libc.FormatLaws

/-!
# Writing items to a stream

`lib/libc/src/stdio/fwrite.c` for items of any size, where a call of `write` may return
anything. `fwrite` of one-byte items, as `__stdio_format` calls it, is a case of it.
-/

namespace NarcOs
namespace Libc

def eintr : Int := 4

/-- `FILE_WRITE` -/
def fileWrite : UInt32 := 0x02

/-- `FILE_ERROR` -/
def fileError : UInt32 := 0x08

def slice (data : Nat → UInt8) (start count : Nat) : List UInt8 := (List.range count).map fun i => data (start + i)

/-- What `write` returns: -1 with `errno`, or how many of the bytes it took. -/
inductive Written
  | error (errno : Int)
  | took (count : Nat)

/-- The loop of `fwrite` ends with this: a failure that is no interruption, or no byte. -/
def Written.Stops : Written → Prop
  | .error errno => errno ≠ eintr
  | .took count => count = 0

/-- `struct __libc_file`, with the bytes its descriptor has got and what the next calls of
`write` return; a call that is not listed takes all its bytes, and none takes more. -/
structure Stream where
  flags : UInt32
  got : List UInt8 := []
  results : List Written := []

namespace Stream

def write (s : Stream) (bytes : List UInt8) : Written × Stream :=
  match s.results with
  | [] => (.took bytes.length, { s with got := s.got ++ bytes })
  | .error errno :: results => (.error errno, { s with results := results })
  | .took count :: results => (.took (min count bytes.length), { s with
      got := s.got ++ bytes.take count
      results := results })

/-- `stream->flags |= FILE_ERROR` -/
def fail (s : Stream) : Stream := { s with flags := s.flags ||| fileError }

theorem write_error {s s' : Stream} {bytes : List UInt8} {errno : Int} (h : s.write bytes = (.error errno, s')) :
    s.results = .error errno :: s'.results ∧ s'.flags = s.flags ∧ s'.got = s.got := by
  unfold write at h
  split at h
  · cases h
  · rename_i results heq
    cases h
    exact ⟨heq, rfl, rfl⟩
  · cases h

theorem write_took {s s' : Stream} {bytes : List UInt8} {count : Nat} (h : s.write bytes = (.took count, s')) :
    (s.results = s'.results ∧ count = bytes.length ∨
        ∃ allowed, s.results = .took allowed :: s'.results ∧ count = min allowed bytes.length) ∧
      s'.flags = s.flags ∧ s'.got = s.got ++ bytes.take count := by
  unfold write at h
  split at h
  · cases h
    exact ⟨.inl ⟨rfl, rfl⟩, rfl, by rw [List.take_length]⟩
  · cases h
  · rename_i count' results heq
    cases h
    refine ⟨.inr ⟨count', heq, rfl⟩, rfl, ?_⟩
    rcases le_total count' bytes.length with hle | hle
    · rw [min_eq_left hle]
    · rw [min_eq_right hle, List.take_length, List.take_of_length_le hle]

theorem write_took_le {s s' : Stream} {bytes : List UInt8} {count : Nat} (h : s.write bytes = (.took count, s')) :
    s'.results.length ≤ s.results.length ∧ count ≤ bytes.length := by
  obtain ⟨⟨heq, rfl⟩ | ⟨allowed, heq, rfl⟩, -⟩ := write_took h
  · exact ⟨(congrArg List.length heq).ge, le_rfl⟩
  · rw [heq]
    exact ⟨Nat.le_succ _, min_le_right _ _⟩

/-- The results that `write` has returned on the way to `s'`; `stopped` says whether one ended the loop. -/
def Uses (s s' : Stream) (stopped : Prop) : Prop :=
  ∃ used, s.results = used ++ s'.results ∧ (stopped ↔ ∃ w ∈ used, w.Stops)

theorem Uses.none {s s' : Stream} {stopped : Prop} (h : s.results = s'.results) (hs : ¬ stopped) : Uses s s' stopped :=
  ⟨[], h, by simp [hs]⟩

theorem Uses.stop {s s' : Stream} {w : Written} {stopped : Prop} (h : s.results = w :: s'.results) (hw : w.Stops)
    (hs : stopped) : Uses s s' stopped :=
  ⟨[w], h, by simp [hs, hw]⟩

theorem Uses.cons {s s' s'' : Stream} {w : Written} {stopped : Prop} (h : s.results = w :: s'.results) (hw : ¬ w.Stops)
    (hs : Uses s' s'' stopped) : Uses s s'' stopped := by
  obtain ⟨used, heq, hiff⟩ := hs
  exact ⟨w :: used, by rw [h, heq, List.cons_append], by simp [hiff, hw]⟩

end Stream

@[simp] theorem length_slice (data : Nat → UInt8) (start count : Nat) : (slice data start count).length = count := by
  simp [slice]

/-- The loop of `fwrite`, with the variable `done`. -/
def fwriteLoop (data : Nat → UInt8) (total done : Nat) (s : Stream) : Nat × Stream :=
  if done < total then
    match h : s.write (slice data done (total - done)) with
    | (.error errno, s') => if errno = eintr then fwriteLoop data total done s' else (done, s'.fail)
    | (.took 0, s') => (done, s'.fail)
    | (.took (n + 1), s') => fwriteLoop data total (done + (n + 1)) s'
  else (done, s)
termination_by s.results.length + (total - done)
decreasing_by
  · have hone := congrArg List.length (Stream.write_error h).1
    rw [List.length_cons] at hone
    omega
  · have hle := Stream.write_took_le h
    rw [length_slice] at hle
    omega

def fwriteItems (data : Nat → UInt8) (size count : Nat) (s : Stream) : Nat × Stream :=
  if s.flags &&& fileWrite = 0 then (0, s.fail)
  else if size = 0 ∨ count = 0 then (0, s)
  else if count > (2 ^ 64 - 1) / size then (0, s.fail)
  else
    let (done, s) := fwriteLoop data (size * count % 2 ^ 64) 0 s
    (done / size, s)

-- ---------------------------------------------------------------------------
-- What the descriptor gets
-- ---------------------------------------------------------------------------

variable {data : Nat → UInt8} {total done start m n : Nat} {s : Stream}

theorem slice_add (data : Nat → UInt8) (start m n : Nat) :
    slice data start (m + n) = slice data start m ++ slice data (start + m) n := by
  unfold slice
  rw [List.range_add, List.map_append, List.map_map]
  congr 1
  exact List.map_congr_left fun i _ => by rw [Function.comp_apply, Nat.add_assoc]

theorem take_slice (h : m ≤ n) : (slice data start n).take m = slice data start m := by
  obtain ⟨k, rfl⟩ := Nat.exists_eq_add_of_le h
  rw [slice_add, List.take_left' (length_slice _ _ _)]

/-- `fwrite` goes on from `done` and stops with the error flag, or at the end. -/
structure Handed (data : Nat → UInt8) (total done : Nat) (s : Stream) (result : Nat × Stream) : Prop where
  ge : done ≤ result.1
  le : result.1 ≤ total
  got : result.2.got = s.got ++ slice data done (result.1 - done)
  flags : result.2.flags = if result.1 < total then s.flags ||| fileError else s.flags
  uses : s.Uses result.2 (result.1 < total)

theorem Handed.stop {s' : Stream} {w : Written} (hlt : done < total) (hresults : s.results = w :: s'.results)
    (hw : w.Stops) (hflags : s'.flags = s.flags) (hgot : s'.got = s.got) :
    Handed data total done s (done, s'.fail) := by
  refine ⟨le_rfl, hlt.le, ?_, ?_, .stop hresults hw hlt⟩
  · change s'.got = _
    rw [hgot, Nat.sub_self]
    exact (List.append_nil _).symm
  · change s'.flags ||| fileError = _
    rw [hflags, if_pos hlt]

theorem Handed.more {s' : Stream} {result : Nat × Stream} (h : Handed data total (done + n) s' result)
    (hflags : s'.flags = s.flags) (hgot : s'.got = s.got ++ slice data done n)
    (huses : s.Uses result.2 (result.1 < total)) : Handed data total done s result := by
  have hge := h.ge
  have hsum : result.1 - done = n + (result.1 - (done + n)) := by omega
  refine ⟨by omega, h.le, ?_, ?_, huses⟩
  · rw [h.got, hgot, hsum, slice_add, List.append_assoc]
  · rw [h.flags, hflags]

theorem fwriteLoop_handed (hle : done ≤ total) : Handed data total done s (fwriteLoop data total done s) := by
  fun_induction fwriteLoop data total done s with
  | case1 done s hlt s' hwrite ih =>
    obtain ⟨hresults, hflags, hgot⟩ := Stream.write_error hwrite
    refine Handed.more (n := 0) (ih hle) hflags ?_ (.cons hresults (fun h => h rfl) (ih hle).uses)
    rw [hgot]
    exact (List.append_nil _).symm
  | case2 done s hlt errno s' hwrite hother =>
    obtain ⟨hresults, hflags, hgot⟩ := Stream.write_error hwrite
    exact .stop hlt hresults hother hflags hgot
  | case3 done s hlt s' hwrite =>
    obtain ⟨hresults, hflags, hgot⟩ := Stream.write_took hwrite
    rw [length_slice] at hresults
    rcases hresults with ⟨-, hnone⟩ | ⟨allowed, hresults, hnone⟩
    · omega
    · have hallowed : allowed = 0 := by omega
      exact .stop hlt hresults hallowed hflags (hgot.trans (List.append_nil _))
  | case4 done s hlt n s' hwrite ih =>
    obtain ⟨hresults, hflags, hgot⟩ := Stream.write_took hwrite
    obtain ⟨-, hfits⟩ := Stream.write_took_le hwrite
    rw [length_slice] at hfits hresults
    rw [take_slice hfits] at hgot
    have hrest := ih (by omega)
    refine hrest.more hflags hgot ?_
    rcases hresults with ⟨hsame, -⟩ | ⟨allowed, hresults, hsome⟩
    · obtain ⟨used, heq, hiff⟩ := hrest.uses
      exact ⟨used, hsame.trans heq, hiff⟩
    · have hallowed : ¬ allowed = 0 := by omega
      exact .cons hresults hallowed hrest.uses
  | case5 done s hend =>
    refine ⟨le_rfl, hle, ?_, (if_neg hend).symm, .none rfl hend⟩
    rw [Nat.sub_self]
    exact (List.append_nil _).symm

/-- The descriptor gets the first `done` bytes, and the error flag says that some are missing:
they do not fit a `size_t`, or a call of `write` has stopped. -/
theorem fwriteItems_handed (data : Nat → UInt8) (size count : Nat) (s : Stream) (hw : s.flags &&& fileWrite ≠ 0) :
    ∃ done ≤ size * count, (fwriteItems data size count s).1 = done / size ∧
      (fwriteItems data size count s).2.got = s.got ++ slice data 0 done ∧
      (fwriteItems data size count s).2.flags = (if done < size * count then s.flags ||| fileError else s.flags) ∧
      ∃ used, s.results = used ++ (fwriteItems data size count s).2.results ∧
        (done < size * count ↔ 2 ^ 64 ≤ size * count ∨ ∃ w ∈ used, w.Stops) := by
  unfold fwriteItems
  rw [if_neg hw]
  by_cases hnone : size = 0 ∨ count = 0
  · have hzero : size * count = 0 := mul_eq_zero.mpr hnone
    rw [if_pos hnone]
    refine ⟨0, Nat.zero_le _, (Nat.zero_div size).symm, (List.append_nil _).symm, ?_, [], rfl, by simp [hzero]⟩
    rw [hzero, if_neg (lt_irrefl 0)]
  rw [if_neg hnone]
  have hsize : 0 < size := Nat.pos_of_ne_zero fun h => hnone (.inl h)
  have hcount : 0 < count := Nat.pos_of_ne_zero fun h => hnone (.inr h)
  by_cases hover : count > (2 ^ 64 - 1) / size
  · have hlarge : 2 ^ 64 ≤ size * count := by
      have h := (Nat.div_lt_iff_lt_mul hsize).mp hover
      rw [Nat.mul_comm] at h
      omega
    rw [if_pos hover]
    refine ⟨0, Nat.zero_le _, (Nat.zero_div size).symm, (List.append_nil _).symm, ?_, [], rfl, ?_⟩
    · rw [if_pos (Nat.mul_pos hsize hcount)]
      rfl
    · exact iff_of_true (Nat.mul_pos hsize hcount) (.inl hlarge)
  · have hfits : size * count ≤ 2 ^ 64 - 1 := by
      rw [Nat.mul_comm]
      exact (Nat.le_div_iff_mul_le hsize).mp (not_lt.mp hover)
    rw [if_neg hover, Nat.mod_eq_of_lt (by omega)]
    have h := @fwriteLoop_handed data (size * count) 0 s (Nat.zero_le _)
    obtain ⟨used, hresults, hiff⟩ := h.uses
    refine ⟨_, h.le, rfl, ?_, h.flags, used, hresults, ?_⟩
    · rw [h.got, Nat.sub_zero]
    · rw [hiff, or_iff_right (show ¬ 2 ^ 64 ≤ size * count by omega)]

-- ---------------------------------------------------------------------------
-- Items of one byte
-- ---------------------------------------------------------------------------

def Answer.written : Answer → Written
  | .interrupted => .error eintr
  | .failed => .error 5
  | .wrote more => .took (more + 1)

def File.flags (writable error : Bool) : UInt32 := (if writable then fileWrite else 0) ||| if error then fileError else 0

theorem File.flags_unwritable : ∀ error, File.flags false error &&& fileWrite = 0 := by decide

theorem File.flags_writable : ∀ error, File.flags true error &&& fileWrite ≠ 0 := by decide

theorem File.flags_broke : ∀ writable error broke,
    (if broke then File.flags writable error ||| fileError else File.flags writable error) =
      File.flags writable (error || broke) := by decide

def File.stream (f : File) : Stream := ⟨File.flags f.writable f.error, f.text, f.answers.map Answer.written⟩

theorem slice_getD (before data : List UInt8) : slice ((before ++ data).getD · 0) before.length data.length = data := by
  refine List.ext_getElem (length_slice _ _ _) fun i hi hi' => ?_
  rw [length_slice] at hi
  simp only [slice, List.getElem_map, List.getElem_range]
  rw [List.getD_append_right _ _ _ _ (Nat.le_add_right _ _), Nat.add_sub_cancel_left, List.getD_eq_getElem _ _ hi]

theorem fwriteLoop_eq (hlt : done < total) :
    fwriteLoop data total done s = match s.write (slice data done (total - done)) with
      | (.error errno, s') => if errno = eintr then fwriteLoop data total done s' else (done, s'.fail)
      | (.took 0, s') => (done, s'.fail)
      | (.took (n + 1), s') => fwriteLoop data total (done + (n + 1)) s' := by
  rw [fwriteLoop, if_pos hlt]
  split <;> rename_i heq <;> rw [heq]

theorem fwriteLoop_getD (before data : List UInt8) (b : UInt8) (s : Stream) :
    fwriteLoop ((before ++ b :: data).getD · 0) (before ++ b :: data).length before.length s =
      match s.write (b :: data) with
      | (.error errno, s') =>
        if errno = eintr then fwriteLoop ((before ++ b :: data).getD · 0) (before ++ b :: data).length before.length s'
        else (before.length, s'.fail)
      | (.took 0, s') => (before.length, s'.fail)
      | (.took (n + 1), s') =>
        fwriteLoop ((before ++ b :: data).getD · 0) (before ++ b :: data).length (before.length + (n + 1)) s' := by
  have hlt : before.length < (before ++ b :: data).length := by
    rw [List.length_append, List.length_cons]
    omega
  have hlen : (before ++ b :: data).length - before.length = (b :: data).length := by
    rw [List.length_append, Nat.add_sub_cancel_left]
  rw [fwriteLoop_eq hlt, hlen, slice_getD]

theorem fwriteLoop_writeLoop (answers : List Answer) (before data got : List UInt8) (flags : UInt32) :
    fwriteLoop ((before ++ data).getD · 0) (before ++ data).length before.length ⟨flags, got, answers.map Answer.written⟩ =
      match writeLoop answers data with
      | (taken, rest, broke) => (before.length + taken.length,
        ⟨if broke then flags ||| fileError else flags, got ++ taken, rest.map Answer.written⟩) := by
  fun_induction writeLoop answers data generalizing before got with
  | case1 answers =>
    rw [fwriteLoop, if_neg (by simp)]
    simp
  | case2 b data =>
    have hwrite : Stream.write ⟨flags, got, []⟩ (b :: data) = (.took (data.length + 1), ⟨flags, got ++ b :: data, []⟩) := rfl
    have hend : ¬ before.length + (data.length + 1) < (before ++ b :: data).length := by
      rw [List.length_append, List.length_cons]
      omega
    rw [List.map_nil, fwriteLoop_getD, hwrite]
    simp only
    rw [fwriteLoop, if_neg hend]
    rfl
  | case3 answers b data ih =>
    have hwrite : Stream.write ⟨flags, got, (Answer.interrupted :: answers).map Answer.written⟩ (b :: data) =
      (.error eintr, ⟨flags, got, answers.map Answer.written⟩) := rfl
    rw [fwriteLoop_getD, hwrite]
    exact ih before got
  | case4 answers b data =>
    have hwrite : Stream.write ⟨flags, got, (Answer.failed :: answers).map Answer.written⟩ (b :: data) =
      (.error 5, ⟨flags, got, answers.map Answer.written⟩) := rfl
    rw [fwriteLoop_getD, hwrite]
    simp [Stream.fail, eintr]
  | case5 more answers b data taken rest heq ih =>
    have hwrite : Stream.write ⟨flags, got, (Answer.wrote more :: answers).map Answer.written⟩ (b :: data) =
        (.took (min more data.length + 1), ⟨flags, got ++ b :: data.take more, answers.map Answer.written⟩) := by
      rw [← Nat.add_min_add_right]
      rfl
    have hdone : (before ++ b :: data.take more).length = before.length + (min more data.length + 1) := by simp
    have hdata : (before ++ b :: data.take more) ++ data.drop more = before ++ b :: data := by simp
    have h := ih (before ++ b :: data.take more) (got ++ b :: data.take more)
    rw [hdata, hdone, heq] at h
    rw [fwriteLoop_getD, hwrite]
    refine h.trans ?_
    simp [Nat.add_assoc, Nat.add_comm 1]

/-- `fwrite` of the bytes of a format is a case of it. -/
theorem fwriteItems_bytes (data : List UInt8) (f : File) (hlen : data.length < 2 ^ 64) :
    fwriteItems (data.getD · 0) 1 data.length f.stream = ((fwrite data f).1, (fwrite data f).2.stream) := by
  obtain ⟨writable, error, text, answers⟩ := f
  unfold fwriteItems fwrite
  cases writable with
  | false =>
    have hw : (File.stream ⟨false, error, text, answers⟩).flags &&& fileWrite = 0 := File.flags_unwritable error
    rw [if_pos hw, if_pos Bool.false_ne_true]
    simp only [File.stream, Stream.fail, Prod.mk.injEq, Stream.mk.injEq, and_true, true_and]
    cases error <;> rfl
  | true =>
    have hw : (File.stream ⟨true, error, text, answers⟩).flags &&& fileWrite ≠ 0 := File.flags_writable error
    rw [if_neg hw, if_neg (not_not.mpr rfl)]
    cases data with
    | nil =>
      rw [if_pos (.inr rfl)]
      simp [writeLoop, File.stream]
    | cons b data =>
      have hloop := fwriteLoop_writeLoop answers [] (b :: data) text (File.flags true error)
      have hlen' : (b :: data).length ≤ (2 ^ 64 - 1) / 1 := by omega
      rw [if_neg (by simp), if_neg (not_lt.mpr hlen'), Nat.one_mul, Nat.mod_eq_of_lt hlen]
      simp only [List.nil_append, List.length_nil, Nat.zero_add, File.flags_broke] at hloop
      simp only [File.stream, hloop, Nat.div_one]

end Libc
end NarcOs
