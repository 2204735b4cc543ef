import NarcOs.Pablo.Lines

/-!
# What a configuration file says

The meaning of a file is given by its lines, over its whole length. The loaders read
the lines of the text before the first NUL, and are compared with that meaning.
-/

namespace NarcOs
namespace Pablo

variable {σ α : Type} {m : Nat} {line : List UInt8} {lines : List (List UInt8)}

def lastOf (read : List UInt8 → Option α) (lines : List (List UInt8)) (start : α) : α :=
  (lines.filterMap read).getLast?.getD start

@[simp] theorem lastOf_nil (read : List UInt8 → Option α) (start : α) : lastOf read [] start = start := rfl

theorem lastOf_cons (read : List UInt8 → Option α) (line : List UInt8) (lines : List (List UInt8)) (start : α) :
    lastOf read (line :: lines) start = lastOf read lines ((read line).getD start) := by
  unfold lastOf
  cases h : read line with
  | none => rw [List.filterMap_cons_none h]; rfl
  | some a => rw [List.filterMap_cons_some h, List.getLast?_cons]; rfl

theorem lastOf_append (read : List UInt8 → Option α) (more : List (List UInt8)) (start : α) :
    lastOf read (lines ++ more) start = lastOf read more (lastOf read lines start) := by
  induction lines generalizing start with
  | nil => rfl
  | cons line lines ih => rw [List.cons_append, lastOf_cons, lastOf_cons, ih]

-- ---------------------------------------------------------------------------
-- Settings
-- ---------------------------------------------------------------------------

def restartLimit : List UInt8 := ascii "restart_limit"
def restartDelay : List UInt8 := ascii "restart_delay"

def settingOf (key line : List UInt8) : Option UInt32 :=
  (keyValue (trim line)).bind fun p => if p.1 = key then decimal p.2 else none

def SettingsLine (line : List UInt8) : Prop :=
  Skipped line ∨ (settingOf restartLimit line).isSome ∨ (settingOf restartDelay line).isSome

instance (line : List UInt8) : Decidable (SettingsLine line) := inferInstanceAs (Decidable (_ ∨ _))

def Config.withSettings (config : Config m) (lines : List (List UInt8)) : Config m :=
  { config with
    restartLimit := lastOf (settingOf Pablo.restartLimit) lines config.restartLimit
    restartDelay := lastOf (settingOf Pablo.restartDelay) lines config.restartDelay }

/-- A call succeeds just on files whose lines are all in order, and then gives each
setting the value of its last line. -/
def SettingsMean (config : Config m) (content : List UInt8) (r : Int × Config m) : Prop :=
  (r.1 = 0 ↔ ∀ line ∈ content.splitOn 10, SettingsLine line) ∧
  (r.1 = 0 → r.2 = config.withSettings (content.splitOn 10))

-- ---------------------------------------------------------------------------
-- Services
-- ---------------------------------------------------------------------------

def textOf (capacity : Nat) (value : List UInt8) : Option CString :=
  if h : value.length < capacity ∧ 0 ∉ value then some ⟨value, h.2⟩ else none

def stringOf (key : List UInt8) (capacity : Nat) (line : List UInt8) : Option CString :=
  (keyValue (trim line)).bind fun p => if p.1 = key then textOf capacity p.2 else none

def execOf : List UInt8 → Option CString := stringOf (ascii "exec") pabloPathMax
def afterOf : List UInt8 → Option CString := stringOf (ascii "after") pabloNameMax
def argOf : List UInt8 → Option CString := stringOf (ascii "arg") pabloArgLength

def policyNamed (value : List UInt8) : Option Policy :=
  if value = ascii "once" then some .once else if value = ascii "respawn" then some .respawn else none

def policyOf (line : List UInt8) : Option Policy :=
  (keyValue (trim line)).bind fun p => if p.1 = ascii "policy" then policyNamed p.2 else none

def ServiceLine (line : List UInt8) : Prop :=
  Skipped line ∨ (execOf line).isSome ∨ (afterOf line).isSome ∨ (policyOf line).isSome ∨ (argOf line).isSome

instance (line : List UInt8) : Decidable (ServiceLine line) := inferInstanceAs (Decidable (_ ∨ _))

def ServiceLines (lines : List (List UInt8)) : Prop :=
  (∀ line ∈ lines, ServiceLine line) ∧ (lines.filterMap argOf).length ≤ pabloArgMax

instance (lines : List (List UInt8)) : Decidable (ServiceLines lines) := inferInstanceAs (Decidable (_ ∧ _))

def HasExec (lines : List (List UInt8)) : Prop := ∃ line ∈ lines, (execOf line).isSome

instance (lines : List (List UInt8)) : Decidable (HasExec lines) := inferInstanceAs (Decidable (∃ line ∈ lines, _))

def ServiceEntry.withLines (service : ServiceEntry) (lines : List (List UInt8)) : ServiceEntry :=
  { service with
    path := lastOf execOf lines service.path
    after := lastOf afterOf lines service.after
    policy := lastOf policyOf lines service.policy
    arguments := service.arguments ++ lines.filterMap argOf }

def ServiceEntry.named (name : CString) : ServiceEntry := { name, path := .empty, after := .empty }

/-- A call succeeds just on files whose lines are all in order, with one that names a
program, and then returns the record of these lines. -/
def ServiceMean (name : CString) (content : List UInt8) (r : Int × ServiceEntry) : Prop :=
  (r.1 = 0 ↔ ServiceLines (content.splitOn 10) ∧ HasExec (content.splitOn 10)) ∧
  (r.1 = 0 → r.2 = (ServiceEntry.named name).withLines (content.splitOn 10))

-- ---------------------------------------------------------------------------
-- The lines as steps
-- ---------------------------------------------------------------------------

theorem mem_trim {c : UInt8} {text : List UInt8} (h : c ∈ text) (hc : space c = false) : c ∈ trim text := by
  have hdrop : c ∈ text.dropWhile space := by
    rw [← List.takeWhile_append_dropWhile (p := space) (l := text)] at h
    rcases List.mem_append.mp h with h | h
    · rw [List.mem_takeWhile_imp h] at hc
      cases hc
    · exact h
  unfold trim
  rw [← List.rdropWhile_append_rtakeWhile (p := space) (l := text.dropWhile space)] at hdrop
  rcases List.mem_append.mp hdrop with h | h
  · exact h
  · rw [List.mem_rtakeWhile_imp h] at hc
    cases hc

theorem keyValue_eq_some {key value : List UInt8} (h : keyValue line = some (key, value)) :
    ∃ left right, line = left ++ 61 :: right ∧ key = trim left ∧ value = trim right ∧ key ≠ [] ∧ value ≠ [] := by
  by_cases hsep : 61 ∈ line
  · obtain ⟨left, right, rfl, hleft⟩ := List.eq_append_cons_of_mem hsep
    rw [keyValue_split hleft] at h
    split at h
    · rename_i hne
      cases h
      exact ⟨left, right, rfl, rfl, rfl, hne⟩
    · cases h
  · unfold keyValue at h
    rw [if_neg (fun hc => hsep hc.1)] at h
    cases h

theorem keyValue_nul {key value : List UInt8} (h : keyValue line = some (key, value)) (hl : 0 ∈ line) :
    0 ∈ key ∨ 0 ∈ value := by
  obtain ⟨left, right, rfl, rfl, rfl, -, -⟩ := keyValue_eq_some h
  rcases List.mem_append.mp hl with hl | hl
  · exact .inl (mem_trim hl rfl)
  · rcases List.mem_cons.mp hl with hl | hl
    · cases hl
    · exact .inr (mem_trim hl rfl)

theorem head?_rdropWhile {c : UInt8} {text : List UInt8} (h : text.head? = some c) (hc : space c = false) :
    (text.rdropWhile space).head? = some c := by
  cases text with
  | nil => cases h
  | cons d text =>
    cases h
    obtain ⟨more, hmore⟩ := List.rdropWhile_prefix space (c :: text)
    cases hd : (c :: text).rdropWhile space with
    | nil =>
      have := List.rdropWhile_eq_nil_iff.mp hd c List.mem_cons_self
      rw [hc] at this
      cases this
    | cons d rest =>
      rw [hd] at hmore
      cases hmore
      rfl

theorem head?_trim {c : UInt8} {text : List UInt8} (h : text.head? = some c) (hc : space c = false) :
    (trim text).head? = some c := by
  cases text with
  | nil => cases h
  | cons d text =>
    cases h
    rw [trim, List.dropWhile_cons_of_neg (by simp [hc])]
    exact head?_rdropWhile rfl hc

theorem Skipped.key {key value : List UInt8} (h : Skipped line) (hkv : keyValue (trim line) = some (key, value)) :
    key.head? = some 35 := by
  obtain ⟨left, right, hline, rfl, -, hne, -⟩ := keyValue_eq_some hkv
  rcases h with h | h
  · rw [h] at hline
    simp at hline
  · cases left with
    | nil => exact absurd rfl hne
    | cons c left =>
      rw [hline] at h
      exact head?_trim h rfl

theorem readLines_append (entry : List UInt8 → σ → Option σ) (more : List (List UInt8)) (state : σ) :
    readLines entry (lines ++ more) state = (readLines entry lines state).bind (readLines entry more) := by
  induction lines generalizing state with
  | nil => rfl
  | cons line lines ih =>
    rw [List.cons_append, readLines, readLines, Option.bind_assoc]
    exact congrArg _ (funext ih)

/-- `parseSettingsLine` on a trimmed line. -/
def settingsEntry (line : List UInt8) (config : Config m) : Option (Config m) :=
  (keyValue line).bind fun p =>
    (decimal p.2).bind fun number =>
      if p.1 = restartLimit then some { config with restartLimit := number }
      else if p.1 = restartDelay then some { config with restartDelay := number }
      else none

theorem settings_parse {n : Nat} : Parses (n := n) (σ := Config m) parseSettingsLine settingsEntry := by
  intro b before s behind config h hs
  obtain ⟨hfront, hkv⟩ := splitSetting_eq h hs
  unfold parseSettingsLine settingsEntry
  rw [← hkv]
  generalize splitSetting b before.length = r at hfront
  obtain ⟨b, _ | ⟨key, value⟩⟩ := r
  · exact ⟨hfront, rfl⟩
  · simp only [Option.map_some, Option.bind_some, pabloParseUnsigned_eq]
    cases decimal (b.stringAt value) with
    | none => exact ⟨hfront, rfl⟩
    | some number =>
      simp only [Option.bind_some]
      by_cases h₁ : b.stringAt key = ascii "restart_limit"
      · rw [if_pos h₁, if_pos (show _ = restartLimit from h₁)]
        exact ⟨hfront, rfl⟩
      · rw [if_neg h₁, if_neg (show ¬ _ = restartLimit from h₁)]
        by_cases h₂ : b.stringAt key = ascii "restart_delay"
        · rw [if_pos h₂, if_pos (show _ = restartDelay from h₂)]
          exact ⟨hfront, rfl⟩
        · rw [if_neg h₂, if_neg (show ¬ _ = restartDelay from h₂)]
          exact ⟨hfront, rfl⟩

theorem restartLimit_ne : restartLimit ≠ restartDelay := by decide +kernel

theorem Skipped.noValue {key : List UInt8} (h : Skipped line) (hkey : key.head? ≠ some 35)
    (read : List UInt8 → Option α) :
    ((keyValue (trim line)).bind fun p => if p.1 = key then read p.2 else none) = none := by
  cases hkv : keyValue (trim line) with
  | none => rfl
  | some p =>
    have hp : p.1 ≠ key := fun e => hkey (e ▸ h.key hkv)
    rw [Option.bind_some, if_neg hp]

theorem settingOf_skipped {key : List UInt8} (hkey : key.head? ≠ some 35) (h : Skipped line) : settingOf key line = none :=
  h.noValue hkey decimal

theorem readLine_settings (line : List UInt8) (config : Config m) : readLine settingsEntry line config =
    if SettingsLine line then some (config.withSettings [line]) else none := by
  have hone : config.withSettings [line] = { config with
      restartLimit := (settingOf restartLimit line).getD config.restartLimit
      restartDelay := (settingOf restartDelay line).getD config.restartDelay } := by
    rw [Config.withSettings, lastOf_cons, lastOf_cons]
    rfl
  rw [hone, readLine]
  by_cases hs : Skipped line
  · rw [if_pos hs, if_pos (.inl hs), settingOf_skipped (by decide +kernel) hs, settingOf_skipped (by decide +kernel) hs]
    rfl
  · rw [if_neg hs]
    unfold SettingsLine settingsEntry settingOf
    simp only [hs, false_or]
    cases keyValue (trim line) with
    | none => rfl
    | some p =>
      obtain ⟨key, value⟩ := p
      simp only [Option.bind_some]
      cases hd : decimal value with
      | none => simp
      | some number =>
        by_cases h₁ : key = restartLimit
        · subst h₁
          simp [restartLimit_ne]
        · by_cases h₂ : key = restartDelay
          · subst h₂
            simp [restartLimit_ne.symm]
          · simp [h₁, h₂]

theorem Config.withSettings_cons (config : Config m) (line : List UInt8) (lines : List (List UInt8)) :
    config.withSettings (line :: lines) = (config.withSettings [line]).withSettings lines := by
  unfold withSettings
  simp only [lastOf_cons, lastOf_nil]

theorem readLines_settings (lines : List (List UInt8)) (config : Config m) : readLines settingsEntry lines config =
    if ∀ line ∈ lines, SettingsLine line then some (config.withSettings lines) else none := by
  induction lines generalizing config with
  | nil =>
    rw [if_pos (by simp)]
    rfl
  | cons line lines ih =>
    rw [readLines, readLine_settings]
    by_cases h : SettingsLine line
    · rw [if_pos h, Option.bind_some, ih, ← Config.withSettings_cons]
      simp only [List.forall_mem_cons, h, true_and]
    · rw [if_neg h, Option.bind_none, if_neg (fun hall => h (hall line List.mem_cons_self))]

/-- `parseServiceLine` on a trimmed line. -/
def serviceEntry (line : List UInt8) (service : ServiceEntry) : Option ServiceEntry :=
  (keyValue line).bind fun p =>
    if p.1 = ascii "exec" then (textOf pabloPathMax p.2).map fun path => { service with path }
    else if p.1 = ascii "after" then (textOf pabloNameMax p.2).map fun after => { service with after }
    else if p.1 = ascii "policy" then (policyNamed p.2).map fun policy => { service with policy }
    else if p.1 = ascii "arg" then
      if service.arguments.length ≥ pabloArgMax then none
      else (textOf pabloArgLength p.2).map fun argument =>
        { service with arguments := service.arguments ++ [argument] }
    else none

theorem accepted_copy {n : Nat} (b : Buffer n) (value capacity : Nat) (destination : CString) (use : CString → σ) :
    accepted ((pabloCopy destination capacity (b.cstringAt value)).1,
      use (pabloCopy destination capacity (b.cstringAt value)).2) =
    (textOf capacity (b.stringAt value)).map use := by
  have hnul : 0 ∉ b.stringAt value := b.notMem_stringAt value
  unfold pabloCopy textOf
  by_cases h : (b.cstringAt value).bytes.length ≥ capacity
  · rw [if_pos h, dif_neg (fun hc => absurd hc.1 (not_lt.mpr h))]
    rfl
  · rw [if_neg h, dif_pos ⟨not_le.mp h, hnul⟩]
    rfl

theorem service_parse {n : Nat} : Parses (n := n) (σ := ServiceEntry) parseServiceLine serviceEntry := by
  intro b before s behind service h hs
  obtain ⟨hfront, hkv⟩ := splitSetting_eq h hs
  unfold parseServiceLine serviceEntry
  rw [← hkv]
  generalize splitSetting b before.length = r at hfront
  obtain ⟨b, _ | ⟨key, value⟩⟩ := r
  · exact ⟨hfront, rfl⟩
  · simp only [Option.map_some, Option.bind_some]
    split
    · exact ⟨hfront, accepted_copy b value pabloPathMax service.path fun path => { service with path }⟩
    split
    · exact ⟨hfront, accepted_copy b value pabloNameMax service.after fun after => { service with after }⟩
    split
    · unfold policyNamed
      split
      · exact ⟨hfront, rfl⟩
      split
      · exact ⟨hfront, rfl⟩
      · exact ⟨hfront, rfl⟩
    split
    · split
      · exact ⟨hfront, rfl⟩
      · exact ⟨hfront, accepted_copy b value pabloArgLength .empty fun argument =>
          { service with arguments := service.arguments ++ [argument] }⟩
    · exact ⟨hfront, rfl⟩

theorem keys_ne : ([ascii "exec", ascii "after", ascii "policy", ascii "arg"].Pairwise (· ≠ ·)) ∧
    ∀ key ∈ [ascii "exec", ascii "after", ascii "policy", ascii "arg"], key.head? ≠ some 35 := by decide +kernel

theorem readLine_service (line : List UInt8) {service : ServiceEntry} (hargs : service.arguments.length ≤ pabloArgMax) :
    readLine serviceEntry line service =
      if ServiceLine line ∧ service.arguments.length + ([line].filterMap argOf).length ≤ pabloArgMax then
        some (service.withLines [line])
      else none := by
  obtain ⟨hne, hhash⟩ := keys_ne
  simp only [List.mem_cons, List.not_mem_nil, or_false, forall_eq_or_imp, forall_eq] at hhash
  obtain ⟨hexec, hafter, hpolicy, harg⟩ := hhash
  simp only [List.pairwise_cons, List.mem_cons, List.not_mem_nil, or_false, forall_eq_or_imp, forall_eq,
    IsEmpty.forall_iff, implies_true, List.Pairwise.nil, and_true] at hne
  obtain ⟨⟨hea, hep, heg⟩, ⟨hap, hag⟩, hpg⟩ := hne
  have hone : service.withLines [line] = { service with
      path := (execOf line).getD service.path
      after := (afterOf line).getD service.after
      policy := (policyOf line).getD service.policy
      arguments := service.arguments ++ [line].filterMap argOf } := by
    rw [ServiceEntry.withLines, lastOf_cons, lastOf_cons, lastOf_cons]
    rfl
  rw [hone, readLine]
  by_cases hs : Skipped line
  · have h₁ : execOf line = none := hs.noValue hexec _
    have h₂ : afterOf line = none := hs.noValue hafter _
    have h₃ : policyOf line = none := hs.noValue hpolicy _
    have h₄ : argOf line = none := hs.noValue harg _
    simp [ServiceLine, hs, h₁, h₂, h₃, h₄, hargs]
  · rw [if_neg hs]
    have hfm : [line].filterMap argOf = (argOf line).toList := by cases h : argOf line <;> simp [h]
    rw [hfm]
    unfold ServiceLine serviceEntry execOf afterOf policyOf argOf stringOf
    simp only [hs, false_or]
    cases keyValue (trim line) with
    | none => simp
    | some p =>
      obtain ⟨key, value⟩ := p
      simp only [Option.bind_some]
      by_cases h₁ : key = ascii "exec"
      · subst h₁
        cases textOf pabloPathMax value <;> simp [hea, hep, heg, hargs]
      by_cases h₂ : key = ascii "after"
      · subst h₂
        cases textOf pabloNameMax value <;> simp [hea.symm, hap, hag, hargs]
      by_cases h₃ : key = ascii "policy"
      · subst h₃
        cases policyNamed value <;> simp [hep.symm, hap.symm, hpg, hargs]
      by_cases h₄ : key = ascii "arg"
      · subst h₄
        cases textOf pabloArgLength value with
        | none => simp [heg.symm, hag.symm, hpg.symm]
        | some argument =>
          by_cases hfull : service.arguments.length ≥ pabloArgMax
          · simp [heg.symm, hag.symm, hpg.symm, hfull]
          · simp [heg.symm, hag.symm, hpg.symm, hfull]
      · simp [h₁, h₂, h₃, h₄]

theorem ServiceEntry.withLines_cons (service : ServiceEntry) (line : List UInt8) (lines : List (List UInt8)) :
    service.withLines (line :: lines) = (service.withLines [line]).withLines lines := by
  have hargs : (line :: lines).filterMap argOf = [line].filterMap argOf ++ lines.filterMap argOf := by
    rw [← List.filterMap_append]
    rfl
  unfold withLines
  simp only [lastOf_cons, lastOf_nil, hargs, List.append_assoc]

theorem readLines_service (lines : List (List UInt8)) {service : ServiceEntry}
    (hargs : service.arguments.length ≤ pabloArgMax) : readLines serviceEntry lines service =
      if (∀ line ∈ lines, ServiceLine line) ∧
          service.arguments.length + (lines.filterMap argOf).length ≤ pabloArgMax then
        some (service.withLines lines)
      else none := by
  induction lines generalizing service with
  | nil =>
    rw [if_pos ⟨by simp, by simpa using hargs⟩]
    simp [readLines, ServiceEntry.withLines]
  | cons line lines ih =>
    have hcount : ((line :: lines).filterMap argOf).length =
        ([line].filterMap argOf).length + (lines.filterMap argOf).length := by
      rw [← List.length_append, ← List.filterMap_append]
      rfl
    rw [readLines, readLine_service line hargs]
    by_cases h : ServiceLine line ∧ service.arguments.length + ([line].filterMap argOf).length ≤ pabloArgMax
    · have hnext : (service.withLines [line]).arguments.length =
          service.arguments.length + ([line].filterMap argOf).length := List.length_append
      rw [if_pos h, Option.bind_some, ih (by rw [hnext]; exact h.2), hnext, hcount, ← ServiceEntry.withLines_cons,
        add_assoc]
      simp only [List.forall_mem_cons, h.1, true_and]
    · rw [if_neg h, Option.bind_none, if_neg]
      rintro ⟨hall, hle⟩
      exact h ⟨hall line List.mem_cons_self, by omega⟩

end Pablo
end NarcOs
