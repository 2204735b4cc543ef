import NarcOs.Libc.Fwrite
import NarcOs.Pablo.LoadServices

/-!
# Whole files

`pablo_read_file` with the buffer that it fills and the length that it stores, for a buffer
of `n` bytes of which `capacity` may be used. `none` stands for a store outside the buffer.
What it reads is `pabloReadFile` of the loaders.
-/

namespace NarcOs

def Buffer.copyIn {n : Nat} (b : Buffer n) (p : Nat) (data : List UInt8) : Option (Buffer n) :=
  if h : p + data.length ≤ n then
    some ⟨b.bytes.take p ++ (data ++ b.bytes.drop (p + data.length)), by
      rw [List.length_append, List.length_append, List.length_take, List.length_drop, b.length_bytes]
      omega⟩
  else none

theorem Buffer.copyIn_append {n : Nat} {b : Buffer n} {used data : List UInt8} (hused : used <+: b.bytes)
    (hfits : used.length + data.length ≤ n) :
    ∃ b', b.copyIn used.length data = some b' ∧ used ++ data <+: b'.bytes := by
  refine ⟨_, dif_pos hfits, b.bytes.drop (used.length + data.length), ?_⟩
  show used ++ data ++ _ = b.bytes.take used.length ++ (data ++ _)
  rw [← List.prefix_iff_eq_take.mp hused, List.append_assoc]

namespace Pablo

variable {n : Nat}

/-- The loop of `pablo_read_file`, with `used`. -/
def readIntoLoop (capacity : Nat) (d : Descriptor) (b : Buffer n) (used : Nat) :
    Option (Except Errno Nat × Buffer n × Descriptor) :=
  if used + 1 < capacity then
    match _h : d.read (capacity - used - 1) with
    | (.error .interrupted, d') => readIntoLoop capacity d' b used
    | (.error e, d') => some (.error e, b, d')
    | (.ok [], d') => some (.ok used, b, d')
    | (.ok (c :: data), d') =>
      match b.copyIn used (c :: data) with
      | none => none
      | some b' => readIntoLoop capacity d' b' (used + (c :: data).length)
  else some (.ok used, b, d)
termination_by d.answers.length + d.rest.length
decreasing_by
  · obtain ⟨ha, hr⟩ := Descriptor.read_error _h
    rw [hr]
    omega
  · obtain ⟨hr, -, ha⟩ := Descriptor.read_ok _h
    rw [← hr, List.length_append, List.length_cons]
    omega

/-- What `pablo_read_file` returns, the buffer and `*length`. -/
def pabloReadFileInto (file : Opening) (b : Buffer n) (capacity length : Nat) :
    Option (Except Errno Unit × Buffer n × Nat) :=
  if capacity = 0 then some (.error .invalid, b, length)
  else
    match file.opened with
    | .error e => some (.error e, b, length)
    | .ok d =>
      match readIntoLoop capacity d b 0 with
      | none => none
      | some (.error e, b, _) => some (.error (file.afterClose e), b, length)
      | some (.ok used, b, d') =>
        match (d'.read 1).1 with
        | .error e => some (.error (file.afterClose e), b, length)
        | .ok (_ :: _) => some (.error .overflow, b, length)
        | .ok [] =>
          match file.closed with
          | .error e => some (.error e, b, length)
          | .ok () =>
            match b.copyIn used [0] with
            | none => none
            | some b' => some (.ok (), b', used)

-- ---------------------------------------------------------------------------
-- The buffer holds what the loop has read
-- ---------------------------------------------------------------------------

variable {capacity : Nat} {d d' : Descriptor} {used : List UInt8} {b : Buffer n}

theorem readIntoLoop_room {k : Nat} (hroom : k + 1 < capacity) :
    readIntoLoop capacity d b k = match d.read (capacity - k - 1) with
      | (.error .interrupted, d') => readIntoLoop capacity d' b k
      | (.error e, d') => some (.error e, b, d')
      | (.ok [], d') => some (.ok k, b, d')
      | (.ok (c :: data), d') =>
        match b.copyIn k (c :: data) with
        | none => none
        | some b' => readIntoLoop capacity d' b' (k + (c :: data).length) := by
  rw [readIntoLoop, if_pos hroom]
  split <;> rename_i heq <;> simp only [heq]

/-- The buffer starts with what the loop of `pablo_read_file` has read. -/
theorem readIntoLoop_eq (hcap : capacity ≤ n) (hused : used <+: b.bytes) :
    ∃ b', readIntoLoop capacity d b used.length =
        some ((readLoop capacity d used).1.map List.length, b', (readLoop capacity d used).2) ∧
      ∀ content, (readLoop capacity d used).1 = .ok content → content <+: b'.bytes := by
  fun_induction readLoop capacity d used generalizing b with
  | case1 d used hroom d' hread ih =>
    rw [readIntoLoop_room hroom, hread]
    exact ih hused
  | case2 d used hroom e d' hother hread =>
    rw [readIntoLoop_room hroom, hread]
    refine ⟨b, ?_, fun content h => by cases h⟩
    cases e with
    | interrupted => exact absurd rfl hother
    | _ => rfl
  | case3 d used hroom d' hread =>
    rw [readIntoLoop_room hroom, hread]
    exact ⟨b, rfl, fun content h => Except.ok.inj h ▸ hused⟩
  | case4 d used hroom c data d' hread ih =>
    have hdata := (Descriptor.read_ok hread).2.1
    obtain ⟨b', hcopy, hused'⟩ := b.copyIn_append hused (show used.length + (c :: data).length ≤ n by omega)
    rw [readIntoLoop_room hroom, hread]
    simp only [hcopy]
    rw [← List.length_append]
    exact ih hused'
  | case5 d used hend =>
    rw [readIntoLoop, if_neg hend]
    exact ⟨b, rfl, fun content h => Except.ok.inj h ▸ hused⟩

theorem readLoop_rest {content : List UInt8} (h : readLoop capacity d used = (.ok content, d')) :
    content ++ d'.rest = used ++ d.rest := by
  fun_induction readLoop capacity d used with
  | case1 d used hroom d' hread ih => rw [ih h, (Descriptor.read_error hread).2]
  | case2 d used hroom e d' hread hother => cases h
  | case3 d used hroom d' hread =>
    cases h
    rw [← (Descriptor.read_ok hread).1, List.nil_append]
  | case4 d used hroom c data d' hread ih =>
    rw [ih h, List.append_assoc, (Descriptor.read_ok hread).1]
  | case5 d used hend =>
    cases h
    rfl

theorem Descriptor.rest_of_read_nil {count : Nat} (hcount : 0 < count) (h : (d.read count).1 = .ok []) : d.rest = [] := by
  have hnil : ∀ k, 0 < k → d.rest.take k = [] → d.rest = [] := fun k hk htake =>
    (List.take_eq_nil_iff.mp htake).resolve_left hk.ne'
  unfold read at h
  split at h
  · exact hnil count hcount (Except.ok.inj h)
  · exact hnil _ (lt_min hcount (Nat.succ_pos _)) (Except.ok.inj h)
  · cases h

/-- The function keeps within the buffer, and computes `pabloReadFile`. -/
theorem pabloReadFileInto_eq (file : Opening) (b : Buffer n) (length : Nat) (hcap : capacity ≤ n) :
    ∃ b', pabloReadFileInto file b capacity length = some (match pabloReadFile file capacity with
        | .error e => (.error e, b', length)
        | .ok content => (.ok (), b', content.length)) ∧
      ∀ content, pabloReadFile file capacity = .ok content → content ++ [0] <+: b'.bytes := by
  unfold pabloReadFileInto pabloReadFile
  by_cases hzero : capacity = 0
  · rw [if_pos hzero, if_pos hzero]
    exact ⟨b, rfl, fun content h => by cases h⟩
  rw [if_neg hzero, if_neg hzero]
  cases hopen : file.opened with
  | error e => exact ⟨b, rfl, fun content h => by cases h⟩
  | ok d =>
    obtain ⟨b', hloop, hstart⟩ := readIntoLoop_eq (d := d) hcap (show [] <+: b.bytes from ⟨b.bytes, rfl⟩)
    simp only [List.length_nil] at hloop
    simp only [hloop]
    cases hread : readLoop capacity d [] with
    | mk r d' =>
      cases r with
      | error e => exact ⟨b', rfl, fun content h => by cases h⟩
      | ok used =>
        simp only [Except.map]
        cases hextra : (d'.read 1).1 with
        | error e => exact ⟨b', rfl, fun content h => by cases h⟩
        | ok extra =>
          cases extra with
          | cons c rest => exact ⟨b', rfl, fun content h => by cases h⟩
          | nil =>
            cases hclosed : file.closed with
            | error e => exact ⟨b', rfl, fun content h => by cases h⟩
            | ok _ =>
              have hlen := readLoop_length hread (Nat.pos_of_ne_zero hzero)
              have hused : used <+: b'.bytes := hstart used (by rw [hread])
              obtain ⟨b'', hcopy, hstart'⟩ := b'.copyIn_append hused
                (show used.length + [(0 : UInt8)].length ≤ n by rw [List.length_singleton]; omega)
              simp only [hcopy]
              exact ⟨b'', rfl, fun content h => Except.ok.inj h ▸ hstart'⟩

theorem pabloReadFile_steps {file : Opening} {content : List UInt8} (h : pabloReadFile file capacity = .ok content) :
    ∃ d d', file.opened = .ok d ∧ readLoop capacity d [] = (.ok content, d') ∧ (d'.read 1).1 = .ok [] := by
  unfold pabloReadFile at h
  split at h
  · cases h
  cases hopen : file.opened with
  | error e => simp [hopen] at h
  | ok d =>
    simp only [hopen] at h
    cases hread : readLoop capacity d [] with
    | mk r d' =>
      simp only [hread] at h
      refine ⟨d, d', rfl, ?_⟩
      split at h
      · cases h
      · split at h
        · cases h
        · cases h
        · rename_i used d'' heq _ hextra
          split at h
          · obtain ⟨hused, rfl⟩ := Prod.mk.inj heq
            cases hused
            cases h
            exact ⟨hread, hextra⟩
          · cases h

theorem pabloReadFile_whole {file : Opening} {content : List UInt8} (h : pabloReadFile file capacity = .ok content) :
    file.opened.map Descriptor.rest = .ok content := by
  obtain ⟨d, d', hopen, hread, hextra⟩ := pabloReadFile_steps h
  have hrest := readLoop_rest hread
  rw [Descriptor.rest_of_read_nil Nat.one_pos hextra, List.append_nil, List.nil_append] at hrest
  rw [hopen, hrest]
  rfl

-- ---------------------------------------------------------------------------
-- Reads and writes in parts
-- ---------------------------------------------------------------------------

theorem partial_io :
    (∀ (n : Nat) (file : Opening) (b : Buffer n) (capacity length : Nat), capacity ≤ n →
      ∃ result b' length', pabloReadFileInto file b capacity length = some (result, b', length') ∧
        (result = .ok () → ∃ d, file.opened = .ok d ∧ d.rest ++ [0] <+: b'.bytes ∧ length' = d.rest.length) ∧
        ∀ d, file.opened = .ok d → capacity ≤ d.rest.length → result ≠ .ok ()) ∧
    ∀ (data : Nat → UInt8) (size count : Nat) (s : Libc.Stream), s.flags &&& Libc.fileWrite ≠ 0 →
      ∃ done ≤ size * count, (Libc.fwriteItems data size count s).1 = done / size ∧
        (Libc.fwriteItems data size count s).2.got = s.got ++ Libc.slice data 0 done ∧
        (Libc.fwriteItems data size count s).2.flags =
          (if done < size * count then s.flags ||| Libc.fileError else s.flags) ∧
        ∃ used, s.results = used ++ (Libc.fwriteItems data size count s).2.results ∧
          (done < size * count ↔ 2 ^ 64 ≤ size * count ∨ ∃ w ∈ used, w.Stops) := by
  refine ⟨fun n file b capacity length hcap => ?_, Libc.fwriteItems_handed⟩
  obtain ⟨b', heq, hstart⟩ := pabloReadFileInto_eq file b length hcap
  cases hread : pabloReadFile file capacity with
  | error e =>
    rw [hread] at heq
    exact ⟨.error e, b', length, heq, fun h => (by cases h), fun _ _ _ h => (by cases h)⟩
  | ok content =>
    rw [hread] at heq
    have hwhole := pabloReadFile_whole hread
    have hopened : ∀ d, file.opened = .ok d → d.rest = content := fun d hopen => by
      rw [hopen] at hwhole
      exact Except.ok.inj hwhole
    refine ⟨.ok (), b', content.length, heq, fun _ => ?_, fun d hopen hlong _ => ?_⟩
    · obtain ⟨d, -, hopen, -⟩ := pabloReadFile_steps hread
      refine ⟨d, hopen, ?_, by rw [hopened d hopen]⟩
      rw [hopened d hopen]
      exact hstart content hread
    · have hshort := pabloReadFile_length hread
      rw [hopened d hopen] at hlong
      omega

/-- A file that fills its buffer, one that comes in two pieces, and a write that takes nothing. -/
theorem partial_io_run :
    (∃ result, ∃ b' : Buffer 6, ∃ length',
      pabloReadFileInto ⟨.ok ⟨[65, 66, 67, 68], [.ok 0, .error .interrupted]⟩, .ok ()⟩ ⟨List.replicate 6 9, rfl⟩ 4 0 =
          some (result, b', length') ∧ result ≠ .ok ()) ∧
      (∃ b' : Buffer 6,
        pabloReadFileInto ⟨.ok ⟨[65, 66, 67, 68], [.ok 1, .error .interrupted]⟩, .ok ()⟩ ⟨List.replicate 6 9, rfl⟩ 6 0 =
            some (.ok (), b', 4) ∧ [65, 66, 67, 68, 0] <+: b'.bytes) ∧
      (Libc.fwriteItems (fun i => .ofNat i) 3 2
        ⟨Libc.fileWrite, [], [.took 1, .error Libc.eintr, .took 3, .took 0]⟩).1 = 1 ∧
      (Libc.fwriteItems (fun i => .ofNat i) 3 2
        ⟨Libc.fileWrite, [], [.took 1, .error Libc.eintr, .took 3, .took 0]⟩).2.got = [0, 1, 2, 3] := by
  refine ⟨?_, ?_, ?_⟩
  · obtain ⟨result, b', length', heq, -, hlong⟩ := partial_io.1 6
      ⟨.ok ⟨[65, 66, 67, 68], [.ok 0, .error .interrupted]⟩, .ok ()⟩ ⟨List.replicate 6 9, rfl⟩ 4 0 (by decide)
    exact ⟨result, b', length', heq, hlong _ rfl le_rfl⟩
  · obtain ⟨result, b', length', heq, hwhole, -⟩ := partial_io.1 6
      ⟨.ok ⟨[65, 66, 67, 68], [.ok 1, .error .interrupted]⟩, .ok ()⟩ ⟨List.replicate 6 9, rfl⟩ 6 0 (by decide)
    have hok : (pabloReadFileInto ⟨.ok ⟨[65, 66, 67, 68], [.ok 1, .error .interrupted]⟩, .ok ()⟩
        (⟨List.replicate 6 9, rfl⟩ : Buffer 6) 6 0).map Prod.fst = some (.ok ()) := by decide +kernel
    rw [heq] at hok
    obtain rfl := Option.some.inj hok
    obtain ⟨d, hopen, hbytes, rfl⟩ := hwhole rfl
    cases hopen
    exact ⟨b', heq, hbytes⟩
  · obtain ⟨done, -, hdone, hgot, -⟩ := partial_io.2 (fun i => .ofNat i) 3 2
      ⟨Libc.fileWrite, [], [.took 1, .error Libc.eintr, .took 3, .took 0]⟩ (by decide)
    have hlength : (Libc.fwriteItems (fun i => .ofNat i) 3 2
        ⟨Libc.fileWrite, [], [.took 1, .error Libc.eintr, .took 3, .took 0]⟩).2.got.length = 4 := by decide +kernel
    rw [hgot, List.length_append, Libc.length_slice] at hlength
    obtain rfl : done = 4 := by simpa using hlength
    exact ⟨hdone, hgot⟩

end Pablo
end NarcOs
