import NarcOs.Pablo.Settings

/-!
# Loading a configuration file

What the loaders return on a file, against the meaning of its lines. The two differ
on files with a NUL: the text behind it is not read.
-/

namespace NarcOs
namespace Pablo

variable {σ : Type} {m : Nat} {content line : List UInt8} {lines : List (List UInt8)} {answers : List (Except Errno Nat)}

-- ---------------------------------------------------------------------------
-- Reading the file
-- ---------------------------------------------------------------------------

def Descriptor.Answers (d : Descriptor) : Prop := ∀ a ∈ d.answers, ∃ k, a = .ok k

theorem Descriptor.Answers.read {d d' : Descriptor} {count : Nat} {r : Except Errno (List UInt8)} (h : d.Answers)
    (hr : d.read count = (r, d')) :
    d'.Answers ∧ ∃ data, r = .ok data ∧ (data = [] → d.rest = [] ∨ count = 0) := by
  unfold Descriptor.read at hr
  cases ha : d.answers with
  | nil =>
    simp only [ha] at hr
    cases hr
    refine ⟨by simp [Answers], _, rfl, fun e => ?_⟩
    simpa [List.take_eq_nil_iff, or_comm] using e
  | cons a answers =>
    obtain ⟨k, rfl⟩ := h a (by simp [ha])
    simp only [ha] at hr
    cases hr
    refine ⟨fun a ha' => h a (by simp [ha, show a ∈ answers from ha']), _, rfl, fun e => ?_⟩
    rw [List.take_eq_nil_iff] at e
    rcases e with e | e
    · exact .inr (by omega)
    · exact .inl e

theorem readLoop_ok {capacity : Nat} {d : Descriptor} {used : List UInt8} (h : d.Answers)
    (hfit : used.length + d.rest.length < capacity) : ∃ d', readLoop capacity d used = (.ok (used ++ d.rest), d') ∧
      d'.Answers ∧ d'.rest = [] := by
  induction hk : d.rest.length using Nat.strong_induction_on generalizing d used with
  | _ k ih =>
    rw [readLoop]
    by_cases hroom : used.length + 1 < capacity
    · rw [if_pos hroom]
      generalize hr : d.read (capacity - used.length - 1) = r
      obtain ⟨r, d'⟩ := r
      obtain ⟨hans, data, rfl, hnil⟩ := h.read hr
      obtain ⟨hrest, -, -⟩ := Descriptor.read_ok hr
      cases data with
      | nil =>
        have hend : d.rest = [] := (hnil rfl).resolve_right (by omega)
        refine ⟨d', ?_, hans, by rw [hend] at hrest; exact hrest⟩
        rw [hend, List.append_nil]
      | cons c data =>
        have hlen := congrArg List.length hrest
        rw [List.length_append, List.length_cons] at hlen
        have hleft : (used ++ c :: data).length + d'.rest.length < capacity := by
          rw [List.length_append, List.length_cons]
          omega
        obtain ⟨d'', hloop, hans', hend⟩ := ih d'.rest.length (by omega) hans hleft rfl
        refine ⟨d'', ?_, hans', hend⟩
        simp only
        rw [hloop, List.append_assoc, hrest]
    · rw [if_neg hroom]
      have hend : d.rest = [] := List.eq_nil_of_length_eq_zero (by omega)
      exact ⟨d, by rw [hend, List.append_nil], h, hend⟩

/-- Every file of fewer than `capacity` bytes is read whole. -/
theorem pabloReadFile_ok {capacity : Nat} (h : ∀ a ∈ answers, ∃ k, a = .ok k) (hfit : content.length < capacity) :
    pabloReadFile ⟨.ok ⟨content, answers⟩, .ok ()⟩ capacity = .ok content := by
  have hnone : ([] : List UInt8).length + content.length < capacity := by simpa using hfit
  have hanswers : (⟨content, answers⟩ : Descriptor).Answers := h
  obtain ⟨d, hloop, hans, hend⟩ := readLoop_ok hanswers hnone
  generalize hr : d.read 1 = r
  obtain ⟨r, d'⟩ := r
  obtain ⟨-, data, rfl, -⟩ := hans.read hr
  obtain ⟨hrest, -, -⟩ := Descriptor.read_ok hr
  have hdata : data = [] := (List.append_eq_nil_iff.mp (hrest.trans hend)).1
  unfold pabloReadFile
  rw [if_neg (by omega)]
  simp only
  rw [hloop]
  simp only [hr, hdata]
  rfl

-- ---------------------------------------------------------------------------
-- The text before the first NUL
-- ---------------------------------------------------------------------------

def seen (content : List UInt8) : List UInt8 := content.takeWhile (· ≠ 0)

def later (content : List UInt8) : List (List UInt8) := ((content.dropWhile (· ≠ 0)).splitOn 10).tail

def InComment (content : List UInt8) : Prop :=
  ((seen content).splitOn 10).getLast?.any (fun line => (trim line).head? = some 35) = true

instance (content : List UInt8) : Decidable (InComment content) := inferInstanceAs (Decidable (_ = true))

theorem seen_eq (h : 0 ∉ content) : seen content = content :=
  List.takeWhile_eq_self_iff.mpr fun c hc => by simpa using fun e : c = 0 => h (e ▸ hc)

theorem accepted_eachLine {n : Nat} {parse : Buffer n → Nat → σ → Buffer n × Int × σ} {entry : List UInt8 → σ → Option σ}
    (hp : Parses parse entry) (hfit : content.length < n) (stack : Buffer n) (state : σ) :
    accepted (eachLine parse (stack.store content) 0 state) = readLines entry ((seen content).splitOn 10) state := by
  have hstore := Buffer.bytes_store (b := stack) hfit
  by_cases h : 0 ∈ content
  · obtain ⟨left, right, hparts, hleft⟩ := List.eq_append_cons_of_mem h
    have hseen : seen content = left := by rw [seen, hparts, Buffer.takeWhile_string hleft]
    rw [hseen]
    have hbytes : (stack.store content).bytes = [] ++ (left ++ 0 :: (right ++ 0 :: stack.bytes.drop (content.length + 1))) := by
      rw [hstore, List.nil_append, ← List.cons_append, ← List.append_assoc, ← hparts]
    exact eachLine_eq hp hbytes hleft state
  · rw [seen_eq h]
    have hbytes : (stack.store content).bytes = [] ++ (content ++ 0 :: stack.bytes.drop (content.length + 1)) := hstore
    exact eachLine_eq hp hbytes h state

theorem skipped_nul {left right : List UInt8} : Skipped (left ++ 0 :: right) ↔ (trim left).head? = some 35 := by
  have hdrop : (left ++ 0 :: right).dropWhile space = left.dropWhile space ++ 0 :: right := by
    induction left with
    | nil => rfl
    | cons c left ih =>
      rw [List.cons_append, List.dropWhile_cons, List.dropWhile_cons]
      split
      · exact ih
      · rfl
  have hne : trim (left ++ 0 :: right) ≠ [] := List.ne_nil_of_mem (mem_trim (c := 0) (by simp) rfl)
  unfold Skipped
  rw [or_iff_right hne]
  cases hl : left.dropWhile space with
  | nil =>
    have hhead : (trim (left ++ 0 :: right)).head? = some 0 := by
      rw [trim, hdrop, hl]
      exact head?_rdropWhile rfl rfl
    rw [hhead, trim, hl]
    simp
  | cons c rest =>
    have hc : space c = false := by
      have := List.head_dropWhile_not space (l := left) (by rw [hl]; simp)
      simpa [hl] using this
    have h₁ : (trim (left ++ 0 :: right)).head? = some c := by
      rw [trim, hdrop, hl]
      exact head?_rdropWhile rfl hc
    have h₂ : (trim left).head? = some c := by
      rw [trim, hl]
      exact head?_rdropWhile rfl hc
    rw [h₁, h₂]

/-- A file with a NUL: its line is nothing but a comment, or is refused, and the text that
the loaders see ends in it. -/
theorem readLines_nul {entry : List UInt8 → σ → Option σ} (hentry : ∀ line state, 0 ∈ line → entry line state = none)
    (h : 0 ∈ content) (state : σ) : readLines entry (content.splitOn 10) state =
      if InComment content then
        (readLines entry ((seen content).splitOn 10) state).bind (readLines entry (later content))
      else none := by
  obtain ⟨left, right, rfl, hleft⟩ := List.eq_append_cons_of_mem h
  have hseen : seen (left ++ 0 :: right) = left := Buffer.takeWhile_string hleft
  have hdrop : (left ++ 0 :: right).dropWhile (· ≠ 0) = 0 :: right := by
    rw [List.dropWhile_append_of_pos (fun c hc => by simpa using fun e : c = 0 => hleft (e ▸ hc)), List.dropWhile_cons]
    simp
  obtain ⟨lines, last, first, rest, h₁, h₂, h₃⟩ := @splitOn_append _ _ 10 left (0 :: right)
  have hfirst : ∃ more, first = 0 :: more := by
    rcases splitOn_cases 10 right with hn | ⟨more, text, hn, rfl⟩
    · rw [splitOn_single (by simpa using hn)] at h₂
      exact ⟨right, (List.cons.inj h₂).1.symm⟩
    · rw [← List.cons_append, splitOn_cons (by simpa using hn)] at h₂
      exact ⟨more, (List.cons.inj h₂).1.symm⟩
  obtain ⟨more, rfl⟩ := hfirst
  have hlater : later (left ++ 0 :: right) = rest := by rw [later, hdrop, h₂, List.tail_cons]
  have hcomment : InComment (left ++ 0 :: right) ↔ (trim last).head? = some 35 := by
    unfold InComment
    rw [hseen, h₁]
    simp
  rw [hlater, hseen, h₁, h₃, readLines_append, readLines_append]
  by_cases hc : (trim last).head? = some 35
  · have hlast : ∀ s : σ, readLine entry last s = some s := fun s => if_pos (.inr hc)
    have hnul : ∀ s : σ, readLine entry (last ++ 0 :: more) s = some s := fun s => if_pos (skipped_nul.mpr hc)
    rw [if_pos (hcomment.mpr hc), Option.bind_assoc]
    refine congrArg _ (funext fun s => ?_)
    rw [readLines, hnul, readLines, hlast]
    rfl
  · have hnul : ∀ s : σ, readLine entry (last ++ 0 :: more) s = none := fun s => by
      rw [readLine, if_neg (mt skipped_nul.mp hc)]
      exact hentry _ s (mem_trim (c := 0) (by simp) rfl)
    rw [if_neg (mt hcomment.mp hc)]
    cases readLines entry lines state with
    | none => rfl
    | some s => rw [Option.bind_some, readLines, hnul, Option.bind_none]

theorem accepted_eq_iff {r : Int × σ} {P : Prop} [Decidable P] {state : σ} :
    accepted r = (if P then some state else none) ↔ (r.1 = 0 ↔ P) ∧ (r.1 = 0 → r.2 = state) := by
  unfold accepted
  by_cases hr : r.1 = 0
  · by_cases hp : P
    · simp [hr, hp]
    · simp [hr, hp]
  · by_cases hp : P
    · simp [hr, hp]
    · simp [hr, hp]

-- ---------------------------------------------------------------------------
-- Settings
-- ---------------------------------------------------------------------------

theorem settingsEntry_nul (line : List UInt8) (config : Config m) (h : 0 ∈ line) : settingsEntry line config = none := by
  unfold settingsEntry
  cases hkv : keyValue line with
  | none => rfl
  | some p =>
    rw [Option.bind_some]
    rcases keyValue_nul hkv h with hk | hv
    · have hlimit : p.1 ≠ restartLimit := fun e => absurd (e ▸ hk) (by decide +kernel)
      have hdelay : p.1 ≠ restartDelay := fun e => absurd (e ▸ hk) (by decide +kernel)
      simp [hlimit, hdelay]
    · have hdec : decimal p.2 = none := if_neg fun hd => absurd (hd.1.2 0 hv).1 (by decide)
      rw [hdec]
      rfl

/-- The file has no NUL; or a line that is read is malformed; or the first NUL stands in a
comment, and the lines behind are in order and leave the settings as they are. -/
def SettingsHold (config : Config m) (content : List UInt8) : Prop :=
  0 ∉ content ∨ (∃ line ∈ (seen content).splitOn 10, ¬ SettingsLine line) ∨
    (InComment content ∧ (∀ line ∈ later content, SettingsLine line) ∧
      (config.withSettings ((seen content).splitOn 10)).withSettings (later content) =
        config.withSettings ((seen content).splitOn 10))

theorem loadSettings_eq (h : ∀ a ∈ answers, ∃ k, a = .ok k) (hfit : content.length < pabloFileMax) (config : Config m)
    (stack : Buffer pabloFileMax) : accepted (loadSettings config ⟨.ok ⟨content, answers⟩, .ok ()⟩ stack) =
      readLines settingsEntry ((seen content).splitOn 10) config := by
  unfold loadSettings
  rw [pabloReadFile_ok h hfit]
  exact accepted_eachLine settings_parse hfit stack config

theorem settingsMean_iff (h : ∀ a ∈ answers, ∃ k, a = .ok k) (hfit : content.length < pabloFileMax) (config : Config m)
    (stack : Buffer pabloFileMax) :
    SettingsMean config content (loadSettings config ⟨.ok ⟨content, answers⟩, .ok ()⟩ stack) ↔
      SettingsHold config content := by
  unfold SettingsMean SettingsHold
  rw [← accepted_eq_iff, ← readLines_settings, loadSettings_eq h hfit]
  by_cases hnul : 0 ∈ content
  · rw [or_iff_right (not_not.mpr hnul), readLines_nul settingsEntry_nul hnul, readLines_settings]
    by_cases hall : ∀ line ∈ (seen content).splitOn 10, SettingsLine line
    · have hno : ¬ ∃ line ∈ (seen content).splitOn 10, ¬ SettingsLine line := by
        rintro ⟨line, hline, hbad⟩
        exact hbad (hall line hline)
      rw [if_pos hall, Option.bind_some, readLines_settings, or_iff_right hno]
      by_cases hc : InComment content
      · rw [if_pos hc, and_iff_right hc]
        by_cases hlater : ∀ line ∈ later content, SettingsLine line
        · rw [if_pos hlater, and_iff_right hlater, Option.some.injEq]
          exact eq_comm
        · rw [if_neg hlater]
          exact iff_of_false (by simp) fun hrest => hlater hrest.1
      · rw [if_neg hc]
        exact iff_of_false (by simp) fun hrest => hc hrest.1
    · have hex : ∃ line ∈ (seen content).splitOn 10, ¬ SettingsLine line := by simpa using hall
      rw [if_neg hall, Option.bind_none, ite_self]
      exact iff_of_true rfl (.inl hex)
  · rw [seen_eq hnul]
    exact iff_of_true rfl (.inl hnul)

-- ---------------------------------------------------------------------------
-- Services
-- ---------------------------------------------------------------------------

theorem textOf_nul {value : List UInt8} (h : 0 ∈ value) (capacity : Nat) : textOf capacity value = none :=
  dif_neg fun hc => hc.2 h

theorem serviceEntry_nul (line : List UInt8) (service : ServiceEntry) (h : 0 ∈ line) : serviceEntry line service = none := by
  unfold serviceEntry
  cases hkv : keyValue line with
  | none => rfl
  | some p =>
    rw [Option.bind_some]
    have hkeys : ∀ key ∈ [ascii "exec", ascii "after", ascii "policy", ascii "arg"], 0 ∉ key := by decide +kernel
    simp only [List.mem_cons, List.not_mem_nil, or_false, forall_eq_or_imp, forall_eq] at hkeys
    obtain ⟨h₁, h₂, h₃, h₄⟩ := hkeys
    rcases keyValue_nul hkv h with hk | hv
    · have hne : ∀ {key : List UInt8}, 0 ∉ key → p.1 ≠ key := by
        rintro key hn rfl
        exact hn hk
      rw [if_neg (hne h₁), if_neg (hne h₂), if_neg (hne h₃), if_neg (hne h₄)]
    · have hpolicy : policyNamed p.2 = none := by
        have hvalues : 0 ∉ ascii "once" ∧ 0 ∉ ascii "respawn" := by decide +kernel
        unfold policyNamed
        have honce : p.2 ≠ ascii "once" := fun e => hvalues.1 (e ▸ hv)
        have hrespawn : p.2 ≠ ascii "respawn" := fun e => hvalues.2 (e ▸ hv)
        rw [if_neg honce, if_neg hrespawn]
      simp only [textOf_nul hv, hpolicy, Option.map_none, ite_self]

def ServiceEntry.finish (service : ServiceEntry) : Option ServiceEntry :=
  if service.path.first ≠ 0 then some service else none

theorem loadService_eq {files : CString → Opening} {directory filename name : CString} (hname : serviceName filename = some name)
    (hpath : directory.bytes.length + filename.bytes.length + 2 ≤ pabloPathMax)
    (hfile : files (directory.join filename) = ⟨.ok ⟨content, answers⟩, .ok ()⟩) (h : ∀ a ∈ answers, ∃ k, a = .ok k)
    (hfit : content.length < pabloFileMax) (stack : Buffer pabloFileMax) :
    accepted (loadService files directory filename stack) =
      (readLines serviceEntry ((seen content).splitOn 10) (.named name)).bind ServiceEntry.finish := by
  have heach := accepted_eachLine service_parse hfit stack (ServiceEntry.named name)
  unfold ServiceEntry.named at heach ⊢
  unfold loadService
  rw [hname]
  simp only
  rw [if_neg (not_lt.mpr hpath), hfile, pabloReadFile_ok h hfit, ← heach]
  simp only
  generalize eachLine parseServiceLine (stack.store content) 0 _ = r
  by_cases hr : r.1 = 0
  · rw [accepted_of_eq hr, if_neg (not_not.mpr hr), Option.bind_some, ServiceEntry.finish]
    split
    · rfl
    · rfl
  · rw [accepted_of_ne hr, if_pos hr]
    rfl

theorem keyValue_value {key value : List UInt8} (h : keyValue line = some (key, value)) : value ≠ [] := by
  obtain ⟨-, -, -, -, -, -, hne⟩ := keyValue_eq_some h
  exact hne

theorem execOf_first {path : CString} (h : execOf line = some path) : path.first ≠ 0 := by
  unfold execOf stringOf at h
  cases hkv : keyValue (trim line) with
  | none =>
    rw [hkv] at h
    cases h
  | some p =>
    rw [hkv, Option.bind_some] at h
    split at h
    · unfold textOf at h
      split at h
      · cases h
        rw [Ne, CString.first_eq_zero]
        intro hempty
        exact keyValue_value hkv (congrArg CString.bytes hempty)
      · cases h
    · cases h

theorem path_first (lines : List (List UInt8)) (start : CString) :
    (lastOf execOf lines start).first ≠ 0 ↔ HasExec lines ∨ start.first ≠ 0 := by
  induction lines generalizing start with
  | nil => simp [HasExec]
  | cons line lines ih =>
    have hcons : HasExec (line :: lines) ↔ (execOf line).isSome ∨ HasExec lines := by simp [HasExec]
    rw [lastOf_cons, ih, hcons]
    cases h : execOf line with
    | none => simp
    | some path => simp [execOf_first h]

theorem finish_named (name : CString) (lines : List (List UInt8)) :
    ((ServiceEntry.named name).withLines lines).finish =
      if HasExec lines then some ((ServiceEntry.named name).withLines lines) else none := by
  have hempty : CString.empty.first = 0 := rfl
  have h : ((ServiceEntry.named name).withLines lines).path.first ≠ 0 ↔ HasExec lines :=
    (path_first lines .empty).trans (by simp [hempty])
  unfold ServiceEntry.finish
  simp only [h]

theorem readLines_named (name : CString) (lines : List (List UInt8)) :
    readLines serviceEntry lines (.named name) =
      if ServiceLines lines then some ((ServiceEntry.named name).withLines lines) else none := by
  rw [readLines_service lines (Nat.zero_le _)]
  simp only [ServiceEntry.named, List.length_nil, zero_add]
  rfl

def Keeps (lines more : List (List UInt8)) : Prop :=
  (∀ line ∈ more, ServiceLine line) ∧ more.filterMap argOf = [] ∧
    lastOf execOf more (lastOf execOf lines .empty) = lastOf execOf lines .empty ∧
    lastOf afterOf more (lastOf afterOf lines .empty) = lastOf afterOf lines .empty ∧
    lastOf policyOf more (lastOf policyOf lines .once) = lastOf policyOf lines .once

/-- The file has no NUL; or the lines that are read are malformed; or the first NUL stands
in a comment, and the lines behind are in order and change nothing; or no line that is
read names a program, and the file as a whole is not in order either. -/
def ServiceHold (content : List UInt8) : Prop :=
  0 ∉ content ∨ ¬ ServiceLines ((seen content).splitOn 10) ∨
    (InComment content ∧ Keeps ((seen content).splitOn 10) (later content)) ∨
    (¬ HasExec ((seen content).splitOn 10) ∧
      ¬ (InComment content ∧ ServiceLines ((seen content).splitOn 10 ++ later content) ∧ HasExec (later content)))

theorem hasExec_append (lines more : List (List UInt8)) : HasExec (lines ++ more) ↔ HasExec lines ∨ HasExec more := by
  unfold HasExec
  simp only [List.mem_append, or_and_right, exists_or]

theorem keeps_iff (name : CString) {lines more : List (List UInt8)} (hlines : ServiceLines lines) :
    Keeps lines more ↔ ServiceLines (lines ++ more) ∧
      (ServiceEntry.named name).withLines (lines ++ more) = (ServiceEntry.named name).withLines lines := by
  have hargs : ((ServiceEntry.named name).withLines (lines ++ more)).arguments =
      lines.filterMap argOf ++ more.filterMap argOf := by
    simp [ServiceEntry.withLines, ServiceEntry.named]
  have hargs' : ((ServiceEntry.named name).withLines lines).arguments = lines.filterMap argOf := by
    simp [ServiceEntry.withLines, ServiceEntry.named]
  constructor
  · rintro ⟨hall, hnone, hexec, hafter, hpolicy⟩
    refine ⟨⟨?_, ?_⟩, ?_⟩
    · intro line hline
      exact (List.mem_append.mp hline).elim (hlines.1 line) (hall line)
    · rw [List.filterMap_append, hnone, List.append_nil]
      exact hlines.2
    · unfold ServiceEntry.withLines ServiceEntry.named
      simp only [lastOf_append, List.filterMap_append, hnone, hexec, hafter, hpolicy, List.append_nil]
  · rintro ⟨⟨hall, -⟩, heq⟩
    refine ⟨fun line hline => hall line (List.mem_append_right _ hline), ?_, ?_, ?_, ?_⟩
    · have := congrArg ServiceEntry.arguments heq
      rw [hargs, hargs'] at this
      simpa using this
    · rw [← lastOf_append]
      exact congrArg (fun s => s.path) heq
    · rw [← lastOf_append]
      exact congrArg (fun s => s.after) heq
    · rw [← lastOf_append]
      exact congrArg (fun s => s.policy) heq

theorem readLines_finish (name : CString) (lines : List (List UInt8)) :
    (readLines serviceEntry lines (.named name)).bind ServiceEntry.finish =
      if ServiceLines lines ∧ HasExec lines then some ((ServiceEntry.named name).withLines lines) else none := by
  rw [readLines_named]
  by_cases h : ServiceLines lines
  · rw [if_pos h, Option.bind_some, finish_named]
    simp only [h, true_and]
  · rw [if_neg h, Option.bind_none, if_neg (fun hc => h hc.1)]

theorem serviceMean_seen (name : CString) (hnul : 0 ∈ content) :
    (readLines serviceEntry (content.splitOn 10) (.named name)).bind ServiceEntry.finish =
      if InComment content ∧ ServiceLines ((seen content).splitOn 10 ++ later content) ∧
          HasExec ((seen content).splitOn 10 ++ later content) then
        some ((ServiceEntry.named name).withLines ((seen content).splitOn 10 ++ later content))
      else none := by
  rw [readLines_nul serviceEntry_nul hnul]
  by_cases hc : InComment content
  · rw [if_pos hc, ← readLines_append, readLines_finish]
    simp only [hc, true_and]
  · rw [if_neg hc, Option.bind_none, if_neg (fun h => hc h.1)]

theorem serviceMean_iff {files : CString → Opening} {directory filename name : CString}
    (hname : serviceName filename = some name)
    (hpath : directory.bytes.length + filename.bytes.length + 2 ≤ pabloPathMax)
    (hfile : files (directory.join filename) = ⟨.ok ⟨content, answers⟩, .ok ()⟩) (h : ∀ a ∈ answers, ∃ k, a = .ok k)
    (hfit : content.length < pabloFileMax) (stack : Buffer pabloFileMax) :
    ServiceMean name content (loadService files directory filename stack) ↔ ServiceHold content := by
  unfold ServiceMean ServiceHold
  rw [← accepted_eq_iff, ← readLines_finish, loadService_eq hname hpath hfile h hfit]
  by_cases hnul : 0 ∈ content
  · rw [or_iff_right (not_not.mpr hnul), serviceMean_seen name hnul, readLines_finish]
    by_cases hlines : ServiceLines ((seen content).splitOn 10)
    · rw [or_iff_right (not_not.mpr hlines), keeps_iff name hlines]
      simp only [hlines, hasExec_append, true_and]
      by_cases hexec : HasExec ((seen content).splitOn 10)
      · simp only [hexec, if_true, true_or, and_true, not_true_eq_false, false_and, or_false]
        by_cases hc : InComment content ∧ ServiceLines ((seen content).splitOn 10 ++ later content)
        · rw [if_pos hc, Option.some.injEq, and_iff_right hc.1, and_iff_right hc.2]
          exact eq_comm
        · rw [if_neg hc]
          exact iff_of_false (by simp) fun hk => hc ⟨hk.1, hk.2.1⟩
      · simp only [hexec, if_false, false_or, not_false_eq_true, true_and]
        by_cases hc : InComment content ∧ ServiceLines ((seen content).splitOn 10 ++ later content) ∧
            HasExec (later content)
        · rw [if_pos hc]
          refine iff_of_false (by simp) ?_
          rintro (⟨-, -, heq⟩ | hno)
          · -- a record that names a program is not one that names none
            have hpaths : lastOf execOf ((seen content).splitOn 10 ++ later content) CString.empty =
                lastOf execOf ((seen content).splitOn 10) CString.empty := congrArg (fun s => s.path) heq
            have hsome := (path_first ((seen content).splitOn 10 ++ later content) CString.empty).mpr
              (.inl ((hasExec_append _ _).mpr (.inr hc.2.2)))
            rw [hpaths, path_first] at hsome
            exact hsome.elim hexec fun hz => hz rfl
          · exact hno hc
        · rw [if_neg hc]
          exact iff_of_true rfl (.inr hc)
    · have hbad : ¬ ServiceLines ((seen content).splitOn 10 ++ later content) := fun hall =>
        hlines ⟨fun line hline => hall.1 line (List.mem_append_left _ hline), by
          have := hall.2
          rw [List.filterMap_append, List.length_append] at this
          omega⟩
      rw [if_neg (fun hc => hlines hc.1), if_neg (fun hc => hbad hc.2.1)]
      exact iff_of_true rfl (.inl hlines)
  · rw [seen_eq hnul]
    exact iff_of_true rfl (.inl hnul)

/-- When a loader does what the lines of the file say. -/
theorem load_meaning_iff (h : ∀ a ∈ answers, ∃ k, a = .ok k) (hfit : content.length < pabloFileMax)
    (stack : Buffer pabloFileMax) :
    (∀ m (config : Config m),
      SettingsMean config content (loadSettings config ⟨.ok ⟨content, answers⟩, .ok ()⟩ stack) ↔
        SettingsHold config content) ∧
    (∀ files directory filename name, serviceName filename = some name →
      directory.bytes.length + filename.bytes.length + 2 ≤ pabloPathMax →
      files (directory.join filename) = ⟨.ok ⟨content, answers⟩, .ok ()⟩ →
      (ServiceMean name content (loadService files directory filename stack) ↔ ServiceHold content)) :=
  ⟨fun _ config => settingsMean_iff h hfit config stack, fun _ _ _ _ hname hpath hfile =>
    serviceMean_iff hname hpath hfile h hfit stack⟩

def clearStack : Buffer pabloFileMax := ⟨List.replicate pabloFileMax 0, List.length_replicate⟩

def noServices : Config 0 := ⟨Fin.elim0, 5, 64⟩

theorem noNul_aService : (0 : UInt8) ∉ ascii "a.service" := by decide +kernel

theorem noNul_aName : (0 : UInt8) ∉ ascii "a" := by decide +kernel

def shellFile : CString → Opening := fun _ => { opened := .ok ⟨ascii "exec=/bin/sh\narg=-c", [.ok 3, .ok 3]⟩ }

theorem load_meaning_limit :
    SettingsMean noServices (ascii "restart_limit=3")
        (loadSettings noServices ⟨.ok ⟨ascii "restart_limit=3", []⟩, .ok ()⟩ clearStack) ∧
      ServiceMean ⟨ascii "a", noNul_aName⟩ (ascii "exec=/bin/sh\narg=-c")
        (loadService shellFile .empty ⟨ascii "a.service", noNul_aService⟩ clearStack) := by
  constructor
  · exact ((load_meaning_iff (by simp) (by decide +kernel) clearStack).1 0 noServices).mpr (.inl (by decide +kernel))
  · exact ((load_meaning_iff (by simp) (by decide +kernel) clearStack).2 shellFile .empty
      ⟨ascii "a.service", noNul_aService⟩ ⟨ascii "a", noNul_aName⟩ (by decide +kernel) (by decide +kernel) rfl).mpr
      (.inl (by decide +kernel))

/-- Behind a NUL a malformed line is not seen. -/
theorem load_meaning_hidden : ¬ ∀ content, content.length < pabloFileMax → ∀ m (config : Config m),
    SettingsMean config content (loadSettings config ⟨.ok ⟨content, []⟩, .ok ()⟩ clearStack) := by
  intro h
  have hmean := h (ascii "restart_limit=3\n\x00restart_delay=x") (by decide +kernel) 0 noServices
  rw [settingsMean_iff (by simp) (by decide +kernel)] at hmean
  rcases hmean with hnul | ⟨line, hline, hbad⟩ | ⟨hcomment, -⟩
  · revert hnul
    decide +kernel
  · have hall : ∀ line ∈ (seen (ascii "restart_limit=3\n\x00restart_delay=x")).splitOn 10, SettingsLine line := by
      decide +kernel
    exact hbad (hall line hline)
  · revert hcomment
    decide +kernel

end Pablo
end NarcOs
