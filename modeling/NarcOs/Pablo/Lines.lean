import NarcOs.Pablo.ConfigFile

/-!
# Lines of a configuration file

The loaders change the buffer that they read. What they do with it is one step for
each line of the text before the first NUL.
-/

namespace NarcOs
namespace Pablo

variable {n : Nat} {σ : Type} {b : Buffer n} {before s behind : List UInt8}

def accepted (r : Int × σ) : Option σ := if r.1 = 0 then some r.2 else none

theorem accepted_of_eq {r : Int × σ} (h : r.1 = 0) : accepted r = some r.2 := if_pos h

theorem accepted_of_ne {r : Int × σ} (h : r.1 ≠ 0) : accepted r = none := if_neg h

/-- A call that reads the string at the pointer that it is given: its bytes may change,
but the NUL that ends it and what is behind stay. -/
def Parses (parse : Buffer n → Nat → σ → Buffer n × Int × σ) (entry : List UInt8 → σ → Option σ) : Prop :=
  ∀ (b : Buffer n) (before s behind : List UInt8) (state : σ), b.bytes = before ++ (s ++ 0 :: behind) → 0 ∉ s →
    (∃ front, (parse b before.length state).1.bytes = front ++ 0 :: behind ∧
      front.length = before.length + s.length) ∧
    accepted (parse b before.length state).2 = entry s state

def Skipped (line : List UInt8) : Prop := trim line = [] ∨ (trim line).head? = some 35

instance (line : List UInt8) : Decidable (Skipped line) := inferInstanceAs (Decidable (_ ∨ _))

def readLine (entry : List UInt8 → σ → Option σ) (line : List UInt8) (state : σ) : Option σ :=
  if Skipped line then some state else entry (trim line) state

def readLines (entry : List UInt8 → σ → Option σ) : List (List UInt8) → σ → Option σ
  | [], state => some state
  | line :: lines, state => (readLine entry line state).bind (readLines entry lines)

theorem zeros_cons (k : Nat) (text : List UInt8) :
    List.replicate k 0 ++ 0 :: text = 0 :: (List.replicate k 0 ++ text) := by
  induction k with
  | zero => rfl
  | succ k ih => rw [List.replicate_succ, List.cons_append, List.cons_append, ih]

theorem headD_eq {c : UInt8} (hs : 0 ∉ s) : s.headD 0 = 0 ∨ s.headD 0 = c ↔ s = [] ∨ s.head? = some c := by
  cases s with
  | nil => simp
  | cons d s =>
    have hd : d ≠ 0 := by
      rintro rfl
      exact hs List.mem_cons_self
    simp [hd]

theorem headD_ne_zero (hs : 0 ∉ s) : s.headD 0 ≠ 0 ↔ s ≠ [] := by
  cases s with
  | nil => simp
  | cons d s =>
    have hd : d ≠ 0 := by
      rintro rfl
      exact hs List.mem_cons_self
    simp [hd]

theorem Parses.line {parse : Buffer n → Nat → σ → Buffer n × Int × σ} {entry : List UInt8 → σ → Option σ}
    (hp : Parses parse entry) : Parses (parseLine parse) (readLine entry) := by
  intro b before s behind state h hs
  obtain ⟨k, hbytes, hlen, hstart⟩ := pabloTrim_bytes h hs
  have htrim := notMem_trim hs
  rw [zeros_cons] at hbytes
  have hskip : (pabloTrim b before.length).1.get (pabloTrim b before.length).2 = 0 ∨
      (pabloTrim b before.length).1.get (pabloTrim b before.length).2 = 35 ↔ Skipped s := by
    rw [hstart, Buffer.get_string hbytes]
    exact headD_eq htrim
  unfold parseLine readLine
  simp only
  by_cases hsk : Skipped s
  · rw [if_pos (hskip.mpr hsk), if_pos hsk]
    refine ⟨⟨before ++ s.takeWhile space ++ trim s ++ List.replicate k 0, ?_, ?_⟩, rfl⟩
    · rw [hbytes, ← zeros_cons]
      simp
    · simp
      omega
  · rw [if_neg (mt hskip.mp hsk), if_neg hsk, hstart]
    obtain ⟨⟨front, hfront, hfl⟩, hres⟩ := hp _ _ _ _ state hbytes htrim
    refine ⟨⟨front ++ List.replicate k 0, ?_, ?_⟩, hres⟩
    · rw [hfront, ← zeros_cons, List.append_assoc]
    · rw [List.length_append, hfl, List.length_replicate, List.length_append]
      omega

theorem nextLine_end (h : b.bytes = before ++ 0 :: behind) : nextLine b before.length = none := by
  rw [nextLine, if_pos (Buffer.get_append h)]

theorem nextLine_last (h : b.bytes = before ++ (s ++ 0 :: behind)) (hs : 0 ∉ s) (hne : s ≠ []) (hn : 10 ∉ s) :
    nextLine b before.length = some (b, before.length + s.length, before.length) := by
  have hget : b.get before.length ≠ 0 := by
    rw [Buffer.get_string h]
    exact (headD_ne_zero hs).mpr hne
  have hstring := Buffer.stringAt_append h hs
  rw [nextLine, if_neg hget, Buffer.strchr, hstring, if_neg hn, Buffer.strlen, hstring]

theorem idxOf_append {c : UInt8} {left right : List UInt8} (h : c ∉ left) : (left ++ c :: right).idxOf c = left.length := by
  rw [List.idxOf_append_of_notMem h, List.idxOf_cons_self, Nat.add_zero]

theorem nextLine_newline {rest : List UInt8} (h : b.bytes = before ++ ((s ++ 10 :: rest) ++ 0 :: behind))
    (hs : 0 ∉ s ++ 10 :: rest) (hn : 10 ∉ s) :
    nextLine b before.length = some (b.set (before.length + s.length) 0, before.length + s.length + 1, before.length) ∧
      (b.set (before.length + s.length) 0).bytes = before ++ (s ++ 0 :: (rest ++ 0 :: behind)) := by
  have hget : b.get before.length ≠ 0 := by
    rw [Buffer.get_string h]
    exact (headD_ne_zero hs).mpr (by simp)
  have hstring := Buffer.stringAt_append h hs
  refine ⟨?_, ?_⟩
  · rw [nextLine, if_neg hget, Buffer.strchr, hstring, if_pos (by simp), idxOf_append hn]
  · have hmid : b.bytes = (before ++ s) ++ 10 :: (rest ++ 0 :: behind) := h.trans (by simp)
    rw [← List.length_append, Buffer.bytes_set hmid, List.append_assoc]

theorem eachLine_none {parse : Buffer n → Nat → σ → Buffer n × Int × σ} {cursor : Nat} (h : nextLine b cursor = none)
    (state : σ) : eachLine parse b cursor state = (0, state) := by
  rw [eachLine]
  split
  · rfl
  · rename_i hnext
    rw [h] at hnext
    cases hnext

theorem eachLine_some {parse : Buffer n → Nat → σ → Buffer n × Int × σ} {b' : Buffer n} {cursor cursor' line : Nat}
    {state : σ} {r : Buffer n × Int × σ} (h : nextLine b cursor = some (b', cursor', line))
    (hr : parseLine parse b' line state = r) :
    eachLine parse b cursor state = if r.2.1 ≠ 0 then (-1, r.2.2) else eachLine parse r.1 cursor' r.2.2 := by
  rw [eachLine]
  split
  · rename_i hnext
    rw [h] at hnext
    cases hnext
  · rename_i hnext
    rw [h] at hnext
    cases hnext
    rw [hr]

/-- The loop reads the lines of the text before the first NUL. The induction is on the
length of that text: a line is cut off with its newline in each round. -/
theorem eachLine_eq {parse : Buffer n → Nat → σ → Buffer n × Int × σ} {entry : List UInt8 → σ → Option σ}
    (hp : Parses parse entry) (h : b.bytes = before ++ (s ++ 0 :: behind)) (hs : 0 ∉ s) (state : σ) :
    accepted (eachLine parse b before.length state) = readLines entry (s.splitOn 10) state := by
  induction hk : s.length using Nat.strong_induction_on generalizing b before s state with
  | _ k ih =>
    rcases splitOn_cases 10 s with hn | ⟨line, rest, hline, rfl⟩
    · rw [splitOn_single hn]
      by_cases hne : s = []
      · subst hne
        rw [eachLine_none (nextLine_end h)]
        rfl
      obtain ⟨⟨front, hfront, hfl⟩, hres⟩ := hp.line b before s behind state h hs
      generalize hr : parseLine parse b before.length state = r at hfront hres
      rw [eachLine_some (nextLine_last h hs hne hn) hr, readLines, ← hres]
      by_cases hok : r.2.1 = 0
      · rw [if_neg (not_not.mpr hok), ← hfl, eachLine_none (nextLine_end hfront), accepted_of_eq hok]
        rfl
      · rw [if_pos hok, accepted_of_ne hok]
        rfl
    · obtain ⟨hnl, hset⟩ := nextLine_newline h hs hline
      have hs' : 0 ∉ line ∧ 0 ∉ rest := by simpa using hs
      obtain ⟨⟨front, hfront, hfl⟩, hres⟩ := hp.line _ before line _ state hset hs'.1
      generalize hr : parseLine parse (b.set (before.length + line.length) 0) before.length state = r at hfront hres
      rw [splitOn_cons hline, eachLine_some hnl hr, readLines, ← hres]
      by_cases hok : r.2.1 = 0
      · have hnext : r.1.bytes = (front ++ [0]) ++ (rest ++ 0 :: behind) := by
          rw [hfront, List.append_assoc]
          rfl
        have hlt : rest.length < k := by
          rw [← hk, List.length_append, List.length_cons]
          omega
        have hrest := ih rest.length hlt hnext hs'.2 r.2.2 rfl
        rw [List.length_append, List.length_singleton, hfl] at hrest
        rw [if_neg (not_not.mpr hok), hrest, accepted_of_eq hok]
        rfl
      · rw [if_pos hok, accepted_of_ne hok]
        rfl

-- ---------------------------------------------------------------------------
-- Keys and values
-- ---------------------------------------------------------------------------

/-- Key and value of a line: what is before and after the first `=`, trimmed. -/
def keyValue (line : List UInt8) : Option (List UInt8 × List UInt8) :=
  let key := trim (line.takeWhile (· ≠ 61))
  let value := trim (line.dropWhile (· ≠ 61)).tail
  if 61 ∈ line ∧ key ≠ [] ∧ value ≠ [] then some (key, value) else none

theorem keyValue_split {left right : List UInt8} (h : 61 ∉ left) : keyValue (left ++ 61 :: right) =
    if trim left ≠ [] ∧ trim right ≠ [] then some (trim left, trim right) else none := by
  have htake : (left ++ 61 :: right).takeWhile (· ≠ 61) = left := by
    rw [List.takeWhile_append_of_pos (fun c hc => by simpa using fun e : c = 61 => h (e ▸ hc)), List.takeWhile_cons]
    simp
  have hdrop : (left ++ 61 :: right).dropWhile (· ≠ 61) = 61 :: right := by
    rw [List.dropWhile_append_of_pos (fun c hc => by simpa using fun e : c = 61 => h (e ▸ hc)), List.dropWhile_cons]
    simp
  unfold keyValue
  simp only [htake, hdrop, List.tail_cons]
  simp

theorem splitSetting_eq (h : b.bytes = before ++ (s ++ 0 :: behind)) (hs : 0 ∉ s) :
    (∃ front, (splitSetting b before.length).1.bytes = front ++ 0 :: behind ∧
      front.length = before.length + s.length) ∧
    (splitSetting b before.length).2.map (fun p =>
      ((splitSetting b before.length).1.stringAt p.1, (splitSetting b before.length).1.stringAt p.2)) = keyValue s := by
  have hstring := Buffer.stringAt_append h hs
  by_cases hsep : 61 ∈ s
  · obtain ⟨left, right, rfl, hleft⟩ := List.eq_append_cons_of_mem hsep
    have hs' : 0 ∉ left ∧ 0 ∉ right := by simpa using hs
    have hchr : b.strchr before.length 61 = some (before.length + left.length) := by
      rw [Buffer.strchr, hstring, if_pos hsep, idxOf_append hleft]
    have hmid : b.bytes = (before ++ left) ++ 61 :: (right ++ 0 :: behind) := h.trans (by simp)
    have hset : (b.set (before.length + left.length) 0).bytes = before ++ (left ++ 0 :: (right ++ 0 :: behind)) := by
      rw [← List.length_append, Buffer.bytes_set hmid, List.append_assoc]
    obtain ⟨k, hkey, hklen, hkstart⟩ := pabloTrim_bytes hset hs'.1
    generalize hb₁ : pabloTrim (b.set (before.length + left.length) 0) before.length = r₁ at hkey hkstart
    have hvalueAt : r₁.1.bytes = (before ++ left.takeWhile space ++ trim left ++ List.replicate k 0 ++ [0]) ++
        (right ++ 0 :: behind) := by
      rw [hkey]
      simp
    have hfront : (before ++ left.takeWhile space ++ trim left ++ List.replicate k 0 ++ [0]).length =
        before.length + left.length + 1 := by
      simp only [List.length_append, List.length_replicate, List.length_singleton]
      omega
    obtain ⟨m, hvalue, hmlen, hvstart⟩ := pabloTrim_bytes hvalueAt hs'.2
    rw [hfront] at hvalue hvstart
    generalize hb₂ : pabloTrim r₁.1 (before.length + left.length + 1) = r₂ at hvalue hvstart
    have hsplit : splitSetting b before.length =
        (r₂.1, if r₂.1.get r₁.2 ≠ 0 ∧ r₂.1.get r₂.2 ≠ 0 then some (r₁.2, r₂.2) else none) := by
      unfold splitSetting
      simp only [hchr, hb₁, hb₂]
    have hkeyAt : r₂.1.bytes = (before ++ left.takeWhile space) ++ (trim left ++ 0 :: (List.replicate k 0 ++
        (right.takeWhile space ++ (trim right ++ (List.replicate m 0 ++ 0 :: behind))))) := by
      rw [hvalue, ← zeros_cons k]
      simp
    rw [zeros_cons] at hvalue
    have hgetKey : r₂.1.get r₁.2 ≠ 0 ↔ trim left ≠ [] := by
      rw [hkstart, Buffer.get_string hkeyAt]
      exact headD_ne_zero (notMem_trim hs'.1)
    have hgetValue : r₂.1.get r₂.2 ≠ 0 ↔ trim right ≠ [] := by
      rw [hvstart, Buffer.get_string hvalue]
      exact headD_ne_zero (notMem_trim hs'.2)
    rw [hsplit, keyValue_split hleft]
    simp only [hgetKey, hgetValue]
    refine ⟨⟨before ++ left.takeWhile space ++ trim left ++ List.replicate k 0 ++ [0] ++ right.takeWhile space ++
      trim right ++ List.replicate m 0, ?_, ?_⟩, ?_⟩
    · rw [hvalue, ← zeros_cons]
      simp
    · simp only [List.length_append, List.length_replicate, List.length_cons] at hfront ⊢
      omega
    · split
      · rw [Option.map_some, hkstart, hvstart, Buffer.stringAt_append hkeyAt (notMem_trim hs'.1),
          Buffer.stringAt_append hvalue (notMem_trim hs'.2)]
      · rfl
  · have hchr : b.strchr before.length 61 = none := by rw [Buffer.strchr, hstring, if_neg hsep]
    have hsplit : splitSetting b before.length = (b, none) := by
      unfold splitSetting
      simp only [hchr]
    rw [hsplit, keyValue]
    simp only [hsep, false_and, if_false]
    exact ⟨⟨before ++ s, h.trans (by simp), by simp⟩, rfl⟩

end Pablo
end NarcOs
