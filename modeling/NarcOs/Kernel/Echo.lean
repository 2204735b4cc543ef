import NarcOs.Kernel.ConsoleLaws
import NarcOs.Kernel.Streams

/-!
# What the screen shows of a typed line

The line editor in the console branch of `task_fd_read` echoes what is typed. A
character appears behind the line and the cursor after it. An erase echoes a
backspace, a space and a backspace, but `console_putc` does nothing on a backspace:
the space goes behind the character that was taken back, and the cursor after it.
-/

namespace NarcOs

open FbConsole

/-- The variables of the loop: `input` holds `input_count` characters. -/
structure LineEditor where
  input : List UInt8
  console : FbConsole

namespace LineEditor

def Erases (e : LineEditor) (key : UInt8) : Prop := (key = 8 ∨ key = 127) ∧ e.input ≠ []

/-- The body of the loop, for the character that `serial_getc` gives. -/
def typeKey (e : LineEditor) (key : UInt8) : Option LineEditor :=
  let c := if key = 13 then 10 else key
  if (c = 8 ∨ c = 127) ∧ e.input ≠ [] then do
    let console ← e.console.consoleWrite [8, 32, 8]
    some ⟨e.input.dropLast, console⟩
  else if c = 8 ∨ c = 127 then some e
  else do
    let console ← e.console.consoleWrite [c]
    some ⟨e.input ++ [c], console⟩

theorem typeKey_eq (e : LineEditor) (key : UInt8) : e.typeKey key =
    if ((if key = 13 then 10 else key) = 8 ∨ (if key = 13 then 10 else key) = 127) ∧ e.input ≠ [] then
      (e.console.consoleWrite [8, 32, 8]).map fun console => ⟨e.input.dropLast, console⟩
    else if (if key = 13 then 10 else key) = 8 ∨ (if key = 13 then 10 else key) = 127 then some e
    else (e.console.consoleWrite [if key = 13 then 10 else key]).map fun console =>
      ⟨e.input ++ [if key = 13 then 10 else key], console⟩ := by
  unfold typeKey
  dsimp only
  cases e.console.consoleWrite [8, 32, 8] <;> cases e.console.consoleWrite [if key = 13 then 10 else key] <;> rfl

end LineEditor

theorem consoleWrite_append (c : FbConsole) (s s' : List UInt8) :
    c.consoleWrite (s ++ s') = (c.consoleWrite s).bind fun d => d.consoleWrite s' := List.foldlM_append

theorem readLine_typeKey {input serial line echo rest : List UInt8} (h : readLine input serial = some (line, echo, rest))
    {c d : FbConsole} (hecho : c.consoleWrite echo = some d) :
    ∃ keys, serial = keys ++ rest ∧ keys.foldlM LineEditor.typeKey ⟨input, c⟩ = some ⟨line, d⟩ := by
  induction serial generalizing input line echo c with
  | nil =>
    rw [readLine] at h
    split at h
    · cases h
    · cases h
      cases hecho
      exact ⟨[], rfl, rfl⟩
  | cons key serial ih =>
    rw [readLine] at h
    split at h
    case isFalse =>
      cases h
      cases hecho
      exact ⟨[], rfl, rfl⟩
    have htype := LineEditor.typeKey_eq ⟨input, c⟩ key
    simp only at h htype
    generalize (if key = 13 then 10 else key) = k at h htype
    by_cases herase : (k = 8 ∨ k = 127) ∧ input ≠ []
    · rw [if_pos herase] at h htype
      obtain ⟨⟨l, e, r⟩, hnext, heq⟩ := Option.map_eq_some_iff.mp h
      cases heq
      rw [consoleWrite_append] at hecho
      obtain ⟨m, hm, hecho⟩ := Option.bind_eq_some_iff.mp hecho
      obtain ⟨keys, rfl, hkeys⟩ := ih hnext hecho
      refine ⟨key :: keys, rfl, ?_⟩
      rw [List.foldlM_cons, htype, hm, Option.map_some, some_bind]
      exact hkeys
    rw [if_neg herase] at h htype
    by_cases hnone : k = 8 ∨ k = 127
    · rw [if_pos hnone] at h htype
      obtain ⟨keys, rfl, hkeys⟩ := ih h hecho
      refine ⟨key :: keys, rfl, ?_⟩
      rw [List.foldlM_cons, htype, some_bind]
      exact hkeys
    rw [if_neg hnone] at h htype
    by_cases hend : k = 10
    · rw [if_pos hend] at h
      cases h
      refine ⟨[key], rfl, ?_⟩
      rw [List.foldlM_cons, htype, hecho, Option.map_some, some_bind]
      rfl
    · rw [if_neg hend] at h
      obtain ⟨⟨l, e, r⟩, hnext, heq⟩ := Option.map_eq_some_iff.mp h
      cases heq
      rw [consoleWrite_append] at hecho
      obtain ⟨m, hm, hecho⟩ := Option.bind_eq_some_iff.mp hecho
      obtain ⟨keys, rfl, hkeys⟩ := ih hnext hecho
      refine ⟨key :: keys, rfl, ?_⟩
      rw [List.foldlM_cons, htype, hm, Option.map_some, some_bind]
      exact hkeys

-- ---------------------------------------------------------------------------
-- The line on the screen
-- ---------------------------------------------------------------------------

variable {rows cols : Nat} {fb : Framebuffer} {base t : Terminal rows cols UInt8} {line : List UInt8}
  {e e' : LineEditor} {key : UInt8}

/-- The screen since the line was begun: its characters from where the cursor was,
then the cursor, and behind it what was there or blanks. -/
structure LineShown (base : Terminal rows cols UInt8) (line : List UInt8) (t : Terminal rows cols UInt8) : Prop where
  row : t.row = base.row
  col : (t.col : Nat) = base.col + line.length
  chars : ∀ i < line.length, ∀ k : Fin cols, (k : Nat) = base.col + i → t.cell base.row k = drawn (line.getD i 0)
  after : ∀ k : Fin cols, base.col + line.length ≤ k →
    t.cell base.row k = base.cell base.row k ∨ t.cell base.row k = 32
  others : ∀ r k, ¬ (r = base.row ∧ base.col ≤ k) → t.cell r k = base.cell r k

def LineEditor.Right (fb : Framebuffer) (base : Terminal rows cols UInt8) (e : LineEditor) : Prop :=
  ∃ t, Displays fb e.console t ∧ LineShown base e.input t

theorem lineShown_start (base : Terminal rows cols UInt8) : LineShown base [] base where
  row := rfl
  col := rfl
  chars i h := absurd h (Nat.not_lt_zero i)
  after _ _ := .inl rfl
  others _ _ _ := rfl

theorem put_eq {a : UInt8} (h : (t.col : Nat) + 1 < cols) :
    t.put 32 a = { t.setCell a with col := ⟨t.col + 1, h⟩ } := by
  unfold Terminal.put
  exact dif_pos h

theorem LineShown.put (h : LineShown base line t) (c : UInt8) (hroom : base.col + (line.length + 1) < cols) :
    LineShown base (line ++ [c]) (t.put 32 (drawn c)) := by
  have hcol := h.col
  have hrow := h.row
  rw [put_eq (by omega)]
  have hcell : ∀ r k, (t.setCell (drawn c)).cell r k = if r = t.row ∧ k = t.col then drawn c else t.cell r k :=
    fun _ _ => rfl
  refine ⟨hrow, ?_, fun i hi k hk => ?_, fun k hk => ?_, fun r k hrk => ?_⟩
  · rw [List.length_append, List.length_singleton]
    change (t.col : Nat) + 1 = _
    omega
  · change (t.setCell (drawn c)).cell base.row k = _
    rw [hcell]
    rw [List.length_append, List.length_singleton] at hi
    by_cases hlast : i = line.length
    · subst hlast
      rw [if_pos ⟨hrow.symm, Fin.ext (by omega)⟩]
      simp
    · rw [if_neg fun hself => hlast (by have := congrArg Fin.val hself.2; omega),
        List.getD_append _ _ _ _ (by omega)]
      exact h.chars i (by omega) k hk
  · rw [List.length_append, List.length_singleton] at hk
    change (t.setCell (drawn c)).cell base.row k = _ ∨ (t.setCell (drawn c)).cell base.row k = _
    rw [hcell, if_neg fun hself => by have := congrArg Fin.val hself.2; omega]
    exact h.after k (by omega)
  · change (t.setCell (drawn c)).cell r k = _
    rw [hcell, if_neg ?_]
    · exact h.others r k hrk
    · rintro ⟨rfl, rfl⟩
      exact hrk ⟨hrow, by omega⟩

-- ---------------------------------------------------------------------------
-- Keys
-- ---------------------------------------------------------------------------

theorem typeKey_total (hu : fb.Usable) (h : Displays fb e.console t) (key : UInt8) : (e.typeKey key).isSome := by
  rw [LineEditor.typeKey_eq]
  generalize (if key = 13 then 10 else key) = c
  split
  · obtain ⟨d, hd, -⟩ := h.consoleWrite hu [8, 32, 8]
    rw [hd]
    rfl
  split
  · rfl
  · obtain ⟨d, hd, -⟩ := h.consoleWrite hu [c]
    rw [hd]
    rfl

def Printable (key : UInt8) : Prop := 32 ≤ key ∧ key ≠ 127

instance (key : UInt8) : Decidable (Printable key) := inferInstanceAs (Decidable (32 ≤ key ∧ key ≠ 127))

theorem Printable.action (h : Printable key) : action key = .glyph (drawn key) := by
  obtain ⟨hlow, -⟩ := h
  unfold FbConsole.action
  rw [if_neg (by rintro rfl; exact absurd hlow (by decide)), if_neg (by rintro rfl; exact absurd hlow (by decide)),
    if_neg (by rintro rfl; exact absurd hlow (by decide)), if_pos hlow]

theorem Right.printable (hu : fb.Usable) (h : e.Right fb base) (hkey : Printable key) (htyped : e.typeKey key = some e')
    (hroom : base.col + e'.input.length < cols) : e'.Right fb base := by
  obtain ⟨t, hshows, hline⟩ := h
  have hne : key ≠ 13 ∧ key ≠ 8 := by
    constructor <;> rintro rfl <;> exact absurd hkey.1 (by decide)
  obtain ⟨d, hd, hnew⟩ := hshows.consoleWrite hu [key]
  unfold LineEditor.typeKey at htyped
  simp only [hne.1, hne.2, hkey.2, if_false, or_self, false_and, hd, some_bind] at htyped
  obtain rfl := Option.some_inj.mp htyped
  dsimp only at hroom
  rw [List.length_append, List.length_singleton] at hroom
  refine ⟨_, hnew, ?_⟩
  rw [List.map_singleton, hkey.action]
  exact hline.put key hroom

theorem erase_echo (hu : fb.Usable) (hshows : Displays fb e.console t)
    (herases : e.Erases key) (htyped : e.typeKey key = some e') :
    e'.input = e.input.dropLast ∧ Displays fb e'.console (t.put 32 32) := by
  obtain ⟨hkey, hne⟩ := herases
  have h13 : key ≠ 13 := by
    rintro rfl
    rcases hkey with h | h <;> exact absurd h (by decide)
  obtain ⟨d, hd, hnew⟩ := hshows.consoleWrite hu [8, 32, 8]
  unfold LineEditor.typeKey at htyped
  simp only [h13, hkey, hne, ne_eq, if_false, not_false_eq_true, and_self, if_true, hd, some_bind] at htyped
  obtain rfl := Option.some_inj.mp htyped
  exact ⟨rfl, hnew⟩

theorem Right.erase (hu : fb.Usable) (h : e.Right fb base) (hroom : base.col + (e.input.length + 1) < cols)
    (herases : e.Erases key) (htyped : e.typeKey key = some e') : ¬ e'.Right fb base := by
  rintro ⟨u, hu', hline'⟩
  obtain ⟨t, hshows, hline⟩ := h
  have hcol := hline.col
  obtain ⟨hinput, hnew⟩ := erase_echo hu hshows herases htyped
  have hcursor : (u.col : Nat) = (t.put 32 32).col := by rw [← hu'.col, hnew.col]
  have hput : ((t.put 32 32).col : Nat) = t.col + 1 := by rw [put_eq (by omega)]
  have hwant := hline'.col
  rw [hinput, List.length_dropLast] at hwant
  omega

-- ---------------------------------------------------------------------------
-- Runs
-- ---------------------------------------------------------------------------

/-- The line editor after keys that take no character back, with the screen at the start
of the line. A line can begin anywhere on the screen; its echo stays on one row until the
newline, which begins the next line, as does a full buffer. -/
inductive Typed (fb : Framebuffer) {rows cols : Nat} : Terminal rows cols UInt8 → LineEditor → Prop
  | start (c : FbConsole) (t : Terminal rows cols UInt8) : Displays fb c t → Typed fb t ⟨[], c⟩
  | printable (base : Terminal rows cols UInt8) (e e' : LineEditor) (key : UInt8) : Typed fb base e →
      e.input.length < inputSize → Printable key → e.typeKey key = some e' → base.col + e'.input.length < cols →
      Typed fb base e'
  | erase (base : Terminal rows cols UInt8) (e e' : LineEditor) (key : UInt8) : Typed fb base e →
      key = 8 ∨ key = 127 → ¬ e.Erases key → e.typeKey key = some e' → Typed fb base e'
  | newline (base : Terminal rows cols UInt8) (e e' : LineEditor) (key : UInt8) (t : Terminal rows cols UInt8) :
      Typed fb base e → e.input.length < inputSize → key = 10 ∨ key = 13 → e.typeKey key = some e' →
      Displays fb e'.console t → Typed fb t ⟨[], e'.console⟩
  | full (base : Terminal rows cols UInt8) (e : LineEditor) (t : Terminal rows cols UInt8) : Typed fb base e →
      e.input.length = inputSize → Displays fb e.console t → Typed fb t ⟨[], e.console⟩

theorem typeKey_nothing (hkey : key = 8 ∨ key = 127) (hne : ¬ e.Erases key) : e.typeKey key = some e := by
  have h13 : key ≠ 13 := by
    rintro rfl
    rcases hkey with h | h <;> exact absurd h (by decide)
  have hnil : e.input = [] := by
    by_contra hinput
    exact hne ⟨hkey, hinput⟩
  unfold LineEditor.typeKey
  simp [h13, hkey, hnil]

theorem Typed.right (hu : fb.Usable) (h : Typed fb base e) : e.Right fb base := by
  induction h with
  | start c t hshows => exact ⟨t, hshows, lineShown_start t⟩
  | printable base e e' key _ _ hkey htyped hroom ih => exact Right.printable hu ih hkey htyped hroom
  | erase base e e' key _ hkey hne htyped ih =>
    rw [typeKey_nothing hkey hne] at htyped
    obtain rfl := Option.some_inj.mp htyped
    exact ih
  | newline base e e' key t _ _ _ _ hshows _ => exact ⟨t, hshows, lineShown_start t⟩
  | full base e t _ _ hshows _ => exact ⟨t, hshows, lineShown_start t⟩

/-- Without an erase the framebuffer shows the line in the buffer after every key, and
after an erase of a character it never does. -/
theorem echo_right (fb : Framebuffer) (hu : fb.Usable) (rows cols : Nat) (base : Terminal rows cols UInt8) (e : LineEditor)
    (h : Typed fb base e) :
    e.Right fb base ∧ (∀ key, (e.typeKey key).isSome) ∧
      ∀ key e', e.Erases key → base.col + (e.input.length + 1) < cols → e.typeKey key = some e' → ¬ e'.Right fb base := by
  have hright := h.right hu
  refine ⟨hright, fun key => ?_, fun key e' herases hroom htyped => Right.erase hu hright hroom herases htyped⟩
  obtain ⟨t, hshows, -⟩ := hright
  exact typeKey_total hu hshows key

def tenColumns : Framebuffer := ⟨4096, 80, 32, 320, 32, limineFramebufferRgb, 8, 16, 8, 8, 8, 0⟩

theorem tenColumns_usable : tenColumns.Usable := by
  constructor <;> decide

def tenColumnsClear : Terminal 2 10 UInt8 := Terminal.clear 32 (by decide) (by decide)

/-- The console at the start, and an `a` typed. -/
theorem typed_a : ∃ d e, noConsole.consoleInit (some ⟨1, some fun _ => some tenColumns⟩) = some (true, d) ∧
    LineEditor.typeKey ⟨[], d⟩ 97 = some e ∧ e.input = [97] ∧ Typed tenColumns tenColumnsClear e := by
  obtain ⟨d, hd, hclear⟩ := @consoleInit_shows tenColumns tenColumns_usable noConsole 1
    (fun _ => some tenColumns) (by decide) rfl
  have hstart : Typed tenColumns tenColumnsClear ⟨[], d⟩ := .start d tenColumnsClear hclear
  obtain ⟨e, he⟩ := Option.isSome_iff_exists.mp (typeKey_total (e := ⟨[], d⟩) tenColumns_usable hclear 97)
  obtain ⟨c, -, hc⟩ := Option.map_eq_some_iff.mp ((LineEditor.typeKey_eq ⟨[], d⟩ 97).symm.trans he)
  subst hc
  exact ⟨d, _, hd, he, rfl, .printable _ _ _ 97 hstart (by decide : 0 < inputSize) (by decide) he (by decide : 0 + 1 < 10)⟩

theorem echo_right_typed : ∃ e : LineEditor, e.input = [97] ∧ e.Right tenColumns tenColumnsClear := by
  obtain ⟨d, e, -, -, hinput, htyped⟩ := typed_a
  exact ⟨e, hinput, (echo_right tenColumns tenColumns_usable 2 10 tenColumnsClear e htyped).1⟩

/-- An `a` and a backspace: the buffer is empty, and the cursor is in column 2. -/
theorem echo_wrong : ∃ d e e', noConsole.consoleInit (some ⟨1, some fun _ => some tenColumns⟩) = some (true, d) ∧
    LineEditor.typeKey ⟨[], d⟩ 97 = some e ∧ e.typeKey 8 = some e' ∧ e'.input = [] ∧ e'.console.cursorCol = 2 ∧
      ¬ e'.Right tenColumns tenColumnsClear := by
  obtain ⟨d, e, hd, he, hinput, htyped⟩ := typed_a
  have hright := htyped.right tenColumns_usable
  obtain ⟨t, hshows, hline⟩ := id hright
  obtain ⟨e', he'⟩ := Option.isSome_iff_exists.mp (typeKey_total tenColumns_usable hshows 8)
  have herases : e.Erases 8 := ⟨.inl rfl, by rw [hinput]; decide⟩
  obtain ⟨hinput', hnew⟩ := erase_echo tenColumns_usable hshows herases he'
  have hcol : (t.col : Nat) = 0 + 1 := by
    rw [hline.col, hinput]
    rfl
  refine ⟨d, e, e', hd, he, he', ?_, ?_, Right.erase tenColumns_usable hright ?_ herases he'⟩
  · rw [hinput', hinput]
    rfl
  · rw [hnew.col, put_eq (by omega)]
    change (t.col : Nat) + 1 = 2
    omega
  · rw [hinput]
    decide

end NarcOs
