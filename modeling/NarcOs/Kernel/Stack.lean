import NarcOs.Kernel.UserView

/-!
# The stack of a new program

`build_stack` writes from the top of the stack downwards: the strings of the
environment, those of the arguments, sixteen bytes, and a table of words with
the addresses of the strings. Here is what a program finds there.
-/

namespace NarcOs

variable {p p' : Phys} {root : Nat}

def userStackBottom : Nat := userStackTop - userStackSize

def stringBlock (strings : List (List UInt8)) : List UInt8 := strings.flatMap (· ++ [0])

def placed : Nat → List (List UInt8) → List Nat
  | _, [] => []
  | a, s :: rest => a :: placed (a + (s.length + 1)) rest

@[simp] theorem stringBlock_nil : stringBlock [] = [] := rfl

@[simp] theorem stringBlock_cons (s : List UInt8) (rest : List (List UInt8)) :
    stringBlock (s :: rest) = s ++ [0] ++ stringBlock rest := rfl

theorem stringBlock_append (xs ys : List (List UInt8)) :
    stringBlock (xs ++ ys) = stringBlock xs ++ stringBlock ys := List.flatMap_append

theorem length_stringBlock_reverse (xs : List (List UInt8)) :
    (stringBlock xs.reverse).length = (stringBlock xs).length := by
  induction xs with
  | nil => rfl
  | cons s rest ih =>
    rw [List.reverse_cons, stringBlock_append, stringBlock_cons, stringBlock_cons, stringBlock_nil]
    simp only [List.length_append, List.length_nil, ih]
    omega

theorem length_placed (a : Nat) (xs : List (List UInt8)) : (placed a xs).length = xs.length := by
  induction xs generalizing a with
  | nil => rfl
  | cons s rest ih => rw [placed, List.length_cons, ih, List.length_cons]

theorem placed_append (a : Nat) (xs ys : List (List UInt8)) :
    placed a (xs ++ ys) = placed a xs ++ placed (a + (stringBlock xs).length) ys := by
  induction xs generalizing a with
  | nil => rfl
  | cons s rest ih =>
    rw [List.cons_append, placed, placed, List.cons_append, ih, stringBlock_cons, List.length_append,
      List.length_append, List.length_singleton, Nat.add_assoc]

theorem writeAt_below {a b : Nat} (bs cs : List UInt8) (hb : a + bs.length = b) (v : Nat) (o : Option (Bool × UInt8)) :
    writeAt a bs v (writeAt b cs v o) = writeAt a (bs ++ cs) v o := by
  subst hb
  unfold writeAt
  rw [List.length_append]
  by_cases h₁ : a ≤ v ∧ v < a + bs.length
  · rw [if_pos h₁, if_neg (by omega), if_pos (by omega), List.getD_append _ _ _ _ (by omega)]
  · rw [if_neg h₁]
    by_cases h₂ : a + bs.length ≤ v ∧ v < a + bs.length + cs.length
    · rw [if_pos h₂, if_pos (by omega), List.getD_append_right _ _ _ _ (by omega),
        show v - a - bs.length = v - (a + bs.length) by omega]
    · rw [if_neg h₂, if_neg (by omega)]

-- ---------------------------------------------------------------------------
-- Pushing
-- ---------------------------------------------------------------------------

def StackMapped (p : Phys) (root : Nat) : Prop :=
  ∀ v, userStackBottom ≤ v → v < userStackTop → (p.userView root v).isSome

theorem StackMapped.shows (h : StackMapped p root) (hs : Sound p root) {dst : Nat} {bytes : List UInt8}
    (hshow : Shows root p p' (writeAt dst bytes)) : Sound p' root ∧ StackMapped p' root := by
  refine ⟨hshow.sound hs, fun v h₁ h₂ => ?_⟩
  rw [hshow.view hs v (Nat.lt_trans h₂ (by decide)), isSome_writeAt]
  exact h v h₁ h₂

theorem putStack_ok (bytes : List UInt8) (hs : Sound p root) (hstack : StackMapped p root) {sp : Nat}
    (hsp : sp ≤ userStackTop) (hroom : userStackBottom + bytes.length ≤ sp) :
    ∃ p', p.putStack root sp bytes = (some (sp - bytes.length), p') ∧
      Shows root p p' (writeAt (sp - bytes.length) bytes) := by
  have hend : sp - bytes.length + bytes.length ≤ 2 ^ 47 := by
    unfold userStackTop at hsp
    omega
  have hok := copyOut_ok bytes.length hend hs fun v h₁ h₂ => hstack v (by omega) (by omega)
  have hshow := copyOut_shows bytes.length hend le_rfl hok
  refine ⟨_, ?_, hshow⟩
  unfold Phys.putStack
  rw [if_neg (show ¬ sp < userStackTop - userStackSize + bytes.length from Nat.not_lt.mpr hroom)]
  dsimp only
  generalize Phys.copyOut root bytes.length (sp - bytes.length) bytes p = r at hok ⊢
  obtain ⟨ok, q⟩ := r
  cases hok
  rfl

theorem putStrings_ok (strings : List (List UInt8)) (hs : Sound p root) (hstack : StackMapped p root) {sp : Nat}
    (hsp : sp ≤ userStackTop) (hroom : userStackBottom + (stringBlock strings).length ≤ sp) (addresses : List Nat) :
    ∃ p', Phys.putStrings root strings sp addresses p =
        (some (sp - (stringBlock strings).length,
          placed (sp - (stringBlock strings).length) strings.reverse ++ addresses), p') ∧
      Shows root p p' (writeAt (sp - (stringBlock strings).length) (stringBlock strings.reverse)) := by
  induction strings generalizing p sp addresses with
  | nil =>
    refine ⟨p, rfl, (Shows.refl root p).congr fun v o => ?_⟩
    exact (writeAt_nil _ v o).symm
  | cons s rest ih =>
    have hlen : (stringBlock (s :: rest)).length = (s ++ [0]).length + (stringBlock rest).length := by
      rw [stringBlock_cons, List.length_append]
    rw [hlen] at hroom ⊢
    obtain ⟨p₁, hput, hshow⟩ := putStack_ok (s ++ [0]) hs hstack hsp (by omega)
    obtain ⟨hs₁, hstack₁⟩ := hstack.shows hs hshow
    have hsub : sp - ((s ++ [0]).length + (stringBlock rest).length) =
        sp - (s ++ [0]).length - (stringBlock rest).length := by omega
    rw [hsub]
    have hle : sp - (s ++ [0]).length ≤ userStackTop := by omega
    obtain ⟨p₂, hrest, hshow'⟩ := ih hs₁ hstack₁ hle (by omega) ((sp - (s ++ [0]).length) :: addresses)
    have hnext : sp - (s ++ [0]).length - (stringBlock rest).length + (stringBlock rest.reverse).length =
        sp - (s ++ [0]).length := by
      rw [length_stringBlock_reverse]
      omega
    refine ⟨p₂, ?_, (hshow.trans hshow').congr fun v o => ?_⟩
    · unfold Phys.putStrings
      rw [hput]
      dsimp only
      rw [hrest, List.reverse_cons, placed_append, hnext, List.append_assoc]
      rfl
    · rw [List.reverse_cons, stringBlock_append, stringBlock_cons, stringBlock_nil, List.append_nil]
      exact writeAt_below _ _ hnext v o

-- ---------------------------------------------------------------------------
-- The whole stack
-- ---------------------------------------------------------------------------

def envAt (envp : List CString) : Nat := userStackTop - (stringBlock (envp.map CString.bytes)).length

def argAt (argv envp : List CString) : Nat := envAt envp - (stringBlock (argv.map CString.bytes)).length

def randomAt (argv envp : List CString) : Nat := argAt argv envp - Phys.randomBytes.length

def initialWords (eh : Elf64Ehdr) (phdr : Nat) (argv envp : List CString) : List Nat :=
  Phys.stackWords eh phdr (placed (argAt argv envp) (argv.map CString.bytes))
    (placed (envAt envp) (envp.map CString.bytes)) (randomAt argv envp)

def initialSp (argv envp : List CString) : Nat :=
  (randomAt argv envp / 16 * 16 - (argv.length + envp.length + 19) * 8) / 16 * 16

theorem length_initialWords (eh : Elf64Ehdr) (phdr : Nat) (argv envp : List CString) :
    (initialWords eh phdr argv envp).length = argv.length + envp.length + 19 := by
  simp only [initialWords, Phys.stackWords, List.length_append, List.length_cons, List.length_nil, length_placed,
    List.length_map]
  omega

structure StringsFit (argv envp : List CString) : Prop where
  argc : argv.length ≤ 16
  envc : envp.length ≤ 16
  room : userStackBottom + (stringBlock (argv.map CString.bytes)).length +
    (stringBlock (envp.map CString.bytes)).length + Phys.randomBytes.length ≤ userStackTop

/-- Where the parts of the stack are: each below the one before. The table may
end in the page below the bottom. -/
structure StackRoom (argv envp : List CString) : Prop where
  env : envAt envp + (stringBlock (envp.map CString.bytes)).length = userStackTop
  arg : argAt argv envp + (stringBlock (argv.map CString.bytes)).length = envAt envp
  random : randomAt argv envp + Phys.randomBytes.length = argAt argv envp
  strings : userStackBottom ≤ randomAt argv envp
  words : initialSp argv envp + 8 * (argv.length + envp.length + 19) ≤ randomAt argv envp
  guard : userStackBottom ≤ initialSp argv envp + 4096

theorem StringsFit.stackRoom {argv envp : List CString} (h : StringsFit argv envp) : StackRoom argv envp := by
  have hargc := h.argc
  have henvc := h.envc
  have hfit := h.room
  have hrandom : Phys.randomBytes.length = 16 := rfl
  constructor
  all_goals
    simp only [initialSp, randomAt, argAt, envAt, userStackBottom, userStackTop, userStackSize, hrandom] at hfit ⊢
    omega

/-- The facts of `StackRoom` on the addresses alone. -/
theorem StackRoom.ends {argv envp : List CString} (h : StackRoom argv envp) :
    envAt envp ≤ userStackTop ∧ argAt argv envp ≤ userStackTop ∧ randomAt argv envp ≤ userStackTop ∧
      userStackBottom + (stringBlock (envp.map CString.bytes)).length ≤ userStackTop ∧
      userStackBottom + (stringBlock (argv.map CString.bytes)).length ≤ envAt envp ∧
      userStackBottom + Phys.randomBytes.length ≤ argAt argv envp := by
  obtain ⟨h₁, h₂, h₃, h₄, -, -⟩ := h
  generalize randomAt argv envp = a₁ at *
  generalize argAt argv envp = a₂ at *
  generalize envAt envp = a₃ at *
  generalize userStackBottom = bottom at *
  omega

/-- The numbers and lengths that the callers of `load` keep to. -/
structure ArgsOk (argv envp : List CString) : Prop where
  argc : argv.length ≤ 16
  envc : envp.length ≤ 16
  short : ∀ s ∈ argv ++ envp, s.bytes.length ≤ 127

theorem length_stringBlock_le {l : List CString} (h : ∀ s ∈ l, s.bytes.length ≤ 127) :
    (stringBlock (l.map CString.bytes)).length ≤ 128 * l.length := by
  induction l with
  | nil => exact Nat.zero_le _
  | cons s rest ih =>
    have hs := h s List.mem_cons_self
    have hrest := ih fun t ht => h t (List.mem_cons_of_mem _ ht)
    rw [List.map_cons, stringBlock_cons, List.length_append, List.length_append, List.length_singleton,
      List.length_cons]
    omega

theorem ArgsOk.fit {argv envp : List CString} (h : ArgsOk argv envp) :
    StringsFit argv envp ∧ userStackBottom ≤ initialSp argv envp := by
  have hargc := h.argc
  have henvc := h.envc
  have harg := length_stringBlock_le fun s hs => h.short s (List.mem_append_left _ hs)
  have henv := length_stringBlock_le fun s hs => h.short s (List.mem_append_right _ hs)
  have hrandom : Phys.randomBytes.length = 16 := rfl
  refine ⟨⟨hargc, henvc, ?_⟩, ?_⟩
  all_goals
    simp only [initialSp, randomAt, argAt, envAt, userStackBottom, userStackTop, userStackSize, hrandom]
    omega

def stackStrings (argv envp : List CString) : List UInt8 :=
  Phys.randomBytes ++ stringBlock (argv.map CString.bytes) ++ stringBlock (envp.map CString.bytes)

def initialBytes (eh : Elf64Ehdr) (phdr : Nat) (argv envp : List CString) : List UInt8 :=
  (initialWords eh phdr argv envp).flatMap (toLE 8)

theorem length_initialBytes (eh : Elf64Ehdr) (phdr : Nat) (argv envp : List CString) :
    (initialBytes eh phdr argv envp).length = 8 * (argv.length + envp.length + 19) := by
  rw [initialBytes, length_stackBytes, length_initialWords, Nat.mul_comm]

theorem StackRoom.stackStrings {argv envp : List CString} (h : StackRoom argv envp) :
    randomAt argv envp + (stackStrings argv envp).length = userStackTop := by
  rw [NarcOs.stackStrings, List.length_append, List.length_append, ← Nat.add_assoc, ← Nat.add_assoc, h.random, h.arg,
    h.env]

def stringsWritten (argv envp : List CString) (v : Nat) (o : Option (Bool × UInt8)) : Option (Bool × UInt8) :=
  writeAt (randomAt argv envp) (stackStrings argv envp) v
    (onPages userStackBottom userStackTop (fun o => o.or (some (true, 0))) v o)

theorem isSome_stringsWritten {argv envp : List CString} {v : Nat} (h₁ : userStackBottom ≤ v) (h₂ : v < userStackTop)
    (o : Option (Bool × UInt8)) : (stringsWritten argv envp v o).isSome := by
  rw [stringsWritten, isSome_writeAt, onPages,
    if_pos (by unfold userStackBottom userStackTop userStackSize at *; omega)]
  cases o <;> rfl

/-- `build_stack` with strings that fit: only the table can still fail. -/
theorem buildStack_strings (hs : Sound p root) (hmap : (p.mapRange root userStackBottom userStackTop).1 = true)
    (eh : Elf64Ehdr) (phdr : Nat) {argv envp : List CString} (hfit : StringsFit argv envp) :
    ∃ q, Shows root p q (stringsWritten argv envp) ∧
      p.buildStack root eh phdr argv envp =
        match Phys.copyOut root (initialBytes eh phdr argv envp).length (initialSp argv envp)
          (initialBytes eh phdr argv envp) q with
        | (false, p) => (none, p)
        | (true, p) => (some (initialSp argv envp), p) := by
  have hroom := hfit.stackRoom
  obtain ⟨henvTop, hargTop, hrandomTop, henvRoom, hargRoom, hrandomRoom⟩ := hroom.ends
  have hmapped := mapRange_shows (by decide) hmap
  have hs₁ := hmapped.sound hs
  have hstack : StackMapped (p.mapRange root userStackBottom userStackTop).2 root := fun v h₁ h₂ => by
    have htop : v < 2 ^ 47 := Nat.lt_trans h₂ (by decide)
    rw [hmapped.view hs v htop]
    unfold onPages
    rw [if_pos (by unfold userStackBottom userStackTop userStackSize at *; omega)]
    cases p.userView root v <;> rfl
  unfold Phys.buildStack
  rw [show userStackTop - userStackSize = userStackBottom from rfl]
  generalize p.mapRange root userStackBottom userStackTop = r at hmap hmapped hs₁ hstack ⊢
  obtain ⟨ok, p₁⟩ := r
  cases hmap
  dsimp only at hmapped hs₁ hstack ⊢
  rw [if_neg (by have := hfit.argc; have := hfit.envc; omega)]
  -- the environment, then the arguments
  obtain ⟨p₂, henv, hshow₂⟩ := putStrings_ok (envp.map CString.bytes).reverse hs₁ hstack
    (le_refl userStackTop) (by rwa [length_stringBlock_reverse]) []
  rw [length_stringBlock_reverse, List.reverse_reverse, List.append_nil] at henv
  rw [length_stringBlock_reverse, List.reverse_reverse] at hshow₂
  obtain ⟨hs₂, hstack₂⟩ := hstack.shows hs₁ hshow₂
  rw [henv]
  dsimp only
  rw [show userStackTop - (stringBlock (envp.map CString.bytes)).length = envAt envp from rfl] at hshow₂ ⊢
  obtain ⟨p₃, harg, hshow₃⟩ := putStrings_ok (argv.map CString.bytes).reverse hs₂ hstack₂
    henvTop (by rwa [length_stringBlock_reverse]) []
  rw [length_stringBlock_reverse, List.reverse_reverse, List.append_nil] at harg
  rw [length_stringBlock_reverse, List.reverse_reverse] at hshow₃
  obtain ⟨hs₃, hstack₃⟩ := hstack₂.shows hs₂ hshow₃
  rw [harg]
  dsimp only
  rw [show envAt envp - (stringBlock (argv.map CString.bytes)).length = argAt argv envp from rfl] at hshow₃ ⊢
  obtain ⟨p₄, hrandom, hshow₄⟩ := putStack_ok Phys.randomBytes hs₃ hstack₃ hargTop hrandomRoom
  rw [hrandom]
  dsimp only
  rw [show argAt argv envp - Phys.randomBytes.length = randomAt argv envp from rfl] at hshow₄ ⊢
  -- the table
  rw [show Phys.stackWords eh phdr (placed (argAt argv envp) (argv.map CString.bytes))
      (placed (envAt envp) (envp.map CString.bytes)) (randomAt argv envp) = initialWords eh phdr argv envp from rfl,
    length_initialWords, show (randomAt argv envp / 16 * 16 - (argv.length + envp.length + 19) * 8) / 16 * 16 =
      initialSp argv envp from rfl]
  refine ⟨p₄, (((hmapped.trans hshow₂).trans hshow₃).trans hshow₄).congr fun v o => ?_, rfl⟩
  have hblock : randomAt argv envp + (Phys.randomBytes ++ stringBlock (argv.map CString.bytes)).length = envAt envp := by
    rw [List.length_append, ← Nat.add_assoc, hroom.random, hroom.arg]
  rw [writeAt_below _ _ hroom.random, writeAt_below _ _ hblock]
  rfl

theorem buildStack_ok (hs : Sound p root) (hmap : (p.mapRange root userStackBottom userStackTop).1 = true)
    (eh : Elf64Ehdr) (phdr : Nat) {argv envp : List CString} (hargs : ArgsOk argv envp) :
    ∃ p', p.buildStack root eh phdr argv envp = (some (initialSp argv envp), p') ∧
      Shows root p p' fun v o =>
        writeAt (initialSp argv envp) (initialBytes eh phdr argv envp) v (stringsWritten argv envp v o) := by
  obtain ⟨hfit, hbottom⟩ := hargs.fit
  have hroom := hfit.stackRoom
  obtain ⟨q, hshow, hbuild⟩ := buildStack_strings hs hmap eh phdr hfit
  have hs' := hshow.sound hs
  have hview := hshow.view hs
  have htop : initialSp argv envp + (initialBytes eh phdr argv envp).length ≤ userStackTop := by
    rw [length_initialBytes]
    exact hroom.words.trans hroom.ends.2.2.1
  have hend : initialSp argv envp + (initialBytes eh phdr argv envp).length ≤ 2 ^ 47 := htop.trans (by decide)
  have hok := copyOut_ok (initialBytes eh phdr argv envp).length hend hs' fun v h₁ h₂ => by
    rw [hview v (h₂.trans_le hend)]
    exact isSome_stringsWritten (hbottom.trans h₁) (h₂.trans_le htop) _
  have hshow' := copyOut_shows _ hend le_rfl hok
  rw [hbuild]
  generalize Phys.copyOut root _ (initialSp argv envp) (initialBytes eh phdr argv envp) q = r at hok hshow' ⊢
  obtain ⟨ok, p'⟩ := r
  cases hok
  exact ⟨p', rfl, hshow.trans hshow'⟩

-- ---------------------------------------------------------------------------
-- A stack that was built fits
-- ---------------------------------------------------------------------------

theorem putStack_room {sp sp' : Nat} {bytes : List UInt8} (h : (p.putStack root sp bytes).1 = some sp') :
    sp' + bytes.length = sp ∧ userStackBottom ≤ sp' := by
  unfold Phys.putStack at h
  split at h
  · cases h
  rename_i hroom
  dsimp only at h
  generalize Phys.copyOut root bytes.length (sp - bytes.length) bytes p = r at h
  obtain ⟨_ | _, q⟩ := r
  · cases h
  · cases h
    unfold userStackBottom
    omega

theorem putStrings_room {strings : List (List UInt8)} {sp sp' : Nat} {addresses addresses' : List Nat}
    (hsp : userStackBottom ≤ sp) (h : (Phys.putStrings root strings sp addresses p).1 = some (sp', addresses')) :
    sp' + (stringBlock strings).length = sp ∧ userStackBottom ≤ sp' := by
  induction strings generalizing p sp addresses with
  | nil =>
    cases h
    exact ⟨rfl, hsp⟩
  | cons s rest ih =>
    rw [Phys.putStrings] at h
    have hput : ∀ sp₁, (p.putStack root sp (s ++ [0])).1 = some sp₁ →
        sp₁ + (s ++ [0]).length = sp ∧ userStackBottom ≤ sp₁ := fun sp₁ h => putStack_room h
    generalize p.putStack root sp (s ++ [0]) = r at h hput
    obtain ⟨_ | sp₁, q⟩ := r
    · cases h
    · obtain ⟨h₁, h₂⟩ := hput sp₁ rfl
      obtain ⟨h₃, h₄⟩ := ih h₂ h
      rw [stringBlock_cons, List.length_append]
      exact ⟨by omega, h₄⟩

theorem buildStack_fit {eh : Elf64Ehdr} {phdr sp : Nat} {argv envp : List CString}
    (h : (p.buildStack root eh phdr argv envp).1 = some sp) :
    (p.mapRange root userStackBottom userStackTop).1 = true ∧ StringsFit argv envp := by
  unfold Phys.buildStack at h
  rw [show userStackTop - userStackSize = userStackBottom from rfl] at h
  generalize p.mapRange root userStackBottom userStackTop = r at h ⊢
  obtain ⟨_ | _, p₁⟩ := r
  · cases h
  dsimp only at h
  split at h
  · cases h
  rename_i hcount
  refine ⟨rfl, by omega, by omega, ?_⟩
  have henv : ∀ sp₁ l, (Phys.putStrings root (envp.map CString.bytes).reverse userStackTop [] p₁).1 = some (sp₁, l) →
      sp₁ + (stringBlock (envp.map CString.bytes).reverse).length = userStackTop ∧ userStackBottom ≤ sp₁ :=
    fun sp₁ l h => putStrings_room (by decide) h
  generalize Phys.putStrings root (envp.map CString.bytes).reverse userStackTop [] p₁ = r at h henv
  obtain ⟨_ | ⟨sp₁, l₁⟩, p₂⟩ := r
  · cases h
  obtain ⟨henvLen, henvLow⟩ := henv sp₁ l₁ rfl
  dsimp only at h
  have harg : ∀ sp₂ l, (Phys.putStrings root (argv.map CString.bytes).reverse sp₁ [] p₂).1 = some (sp₂, l) →
      sp₂ + (stringBlock (argv.map CString.bytes).reverse).length = sp₁ ∧ userStackBottom ≤ sp₂ :=
    fun sp₂ l h => putStrings_room henvLow h
  generalize Phys.putStrings root (argv.map CString.bytes).reverse sp₁ [] p₂ = r at h harg
  obtain ⟨_ | ⟨sp₂, l₂⟩, p₃⟩ := r
  · cases h
  obtain ⟨hargLen, -⟩ := harg sp₂ l₂ rfl
  dsimp only at h
  have hrandom : ∀ sp₃, (p₃.putStack root sp₂ Phys.randomBytes).1 = some sp₃ →
      sp₃ + Phys.randomBytes.length = sp₂ ∧ userStackBottom ≤ sp₃ := fun sp₃ h => putStack_room h
  generalize p₃.putStack root sp₂ Phys.randomBytes = r at h hrandom
  obtain ⟨_ | sp₃, p₄⟩ := r
  · cases h
  obtain ⟨hrandomLen, hrandomLow⟩ := hrandom sp₃ rfl
  rw [length_stringBlock_reverse] at henvLen hargLen
  omega

theorem copyOut_first (hs : Sound p root) {n dst : Nat} {bytes : List UInt8} (hdst : dst < 2 ^ 47) (hn : 0 < n)
    (hlen : 0 < bytes.length) (hok : (Phys.copyOut root n dst bytes p).1 = true) : (p.userView root dst).isSome := by
  obtain ⟨n, rfl⟩ := Nat.exists_eq_add_of_lt hn
  rw [hs.userView_isSome (userHalf_of_lt hdst), Nat.zero_add] at *
  intro hz
  rw [Phys.copyOut, if_neg (List.length_pos_iff.mp hlen)] at hok
  dsimp only at hok
  rw [if_pos hz] at hok
  cases hok

/-- With nothing mapped in the page below the stack, only the stack is written. -/
theorem buildStack_outside (hs : Sound p root) {eh : Elf64Ehdr} {phdr sp : Nat} {argv envp : List CString}
    (hguard : ∀ v, userStackBottom ≤ v + 4096 → v < userStackBottom → p.userView root v = none)
    (h : (p.buildStack root eh phdr argv envp).1 = some sp) :
    Sound (p.buildStack root eh phdr argv envp).2 root ∧
      ∀ v < 2 ^ 47, ¬ (userStackBottom ≤ v ∧ v < userStackTop) →
        (p.buildStack root eh phdr argv envp).2.userView root v = p.userView root v := by
  obtain ⟨hmap, hfit⟩ := buildStack_fit h
  have hroom := hfit.stackRoom
  obtain ⟨q, hshow, hbuild⟩ := buildStack_strings hs hmap eh phdr hfit
  have hs' := hshow.sound hs
  have hview := hshow.view hs
  have htop : initialSp argv envp + (initialBytes eh phdr argv envp).length ≤ userStackTop := by
    rw [length_initialBytes]
    exact hroom.words.trans hroom.ends.2.2.1
  have hend : initialSp argv envp + (initialBytes eh phdr argv envp).length ≤ 2 ^ 47 := htop.trans (by decide)
  have hout : ∀ v, ¬ (userStackBottom ≤ v ∧ v < userStackTop) → ∀ o, stringsWritten argv envp v o = o := fun v hv o => by
    have hstrings := hroom.stackStrings
    have hlow := hroom.strings
    rw [stringsWritten, onPages, if_neg (by unfold userStackBottom userStackTop userStackSize at *; omega)]
    exact if_neg (by omega)
  rw [hbuild] at h ⊢
  have hpos : 0 < (initialBytes eh phdr argv envp).length := by
    rw [length_initialBytes]
    omega
  have hfirst : (Phys.copyOut root (initialBytes eh phdr argv envp).length (initialSp argv envp)
      (initialBytes eh phdr argv envp) q).1 = true → _ := copyOut_first hs' (by omega) hpos hpos
  have hshow' : (Phys.copyOut root (initialBytes eh phdr argv envp).length (initialSp argv envp)
      (initialBytes eh phdr argv envp) q).1 = true → _ := copyOut_shows _ hend le_rfl
  generalize Phys.copyOut root _ (initialSp argv envp) (initialBytes eh phdr argv envp) q = r at h hfirst hshow' ⊢
  obtain ⟨_ | _, p'⟩ := r
  · cases h
  have hview' := (hshow' rfl).view hs'
  have hbottom : userStackBottom ≤ initialSp argv envp := by
    by_contra hlt
    have hsome := hfirst rfl
    have hv : initialSp argv envp < 2 ^ 47 := (Nat.not_le.mp hlt).trans (by decide)
    rw [hview _ hv, hout _ (fun h => hlt h.1), hguard _ hroom.guard (Nat.not_le.mp hlt)] at hsome
    cases hsome
  refine ⟨(hshow' rfl).sound hs', fun v hv hne => ?_⟩
  rw [hview' v hv, hview v hv, hout v hne]
  exact if_neg (by omega)

-- ---------------------------------------------------------------------------
-- Reading user memory
-- ---------------------------------------------------------------------------

def Phys.userByte (p : Phys) (root virt : Nat) : Option UInt8 := (p.userView root virt).map Prod.snd

def Phys.userRead (p : Phys) (root : Nat) : Nat → Nat → Option (List UInt8)
  | _, 0 => some []
  | virt, n + 1 => (p.userByte root virt).bind fun b => (p.userRead root (virt + 1) n).map (b :: ·)

def Phys.userWord (p : Phys) (root virt : Nat) : Option Nat := (p.userRead root virt 8).map ofLE

/-- `_start` of `crt0.S`: the three arguments of `__libc_start`. -/
def Phys.startArgs (p : Phys) (root rsp : Nat) : Option (Nat × Nat × Nat) :=
  (p.userWord root rsp).map fun rdi => (rdi, wrap64 (rsp + 8), wrap64 (wrap64 (rsp + 8) + rdi * 8 + 8))

/-- The bytes are at a user address. -/
def UserBytes (p : Phys) (root a : Nat) (bytes : List UInt8) : Prop :=
  a + bytes.length ≤ 2 ^ 47 ∧ ∀ i < bytes.length, p.userByte root (a + i) = some (bytes.getD i 0)

def UserWords (p : Phys) (root a : Nat) (words : List Nat) : Prop := UserBytes p root a (words.flatMap (toLE 8))

def UserString (p : Phys) (root a : Nat) (s : CString) : Prop := UserBytes p root a (s.bytes ++ [0])

structure UserVector (p : Phys) (root a : Nat) (pointers : List Nat) (strings : List CString) : Prop where
  words : UserWords p root a (pointers ++ [0])
  strings : List.Forall₂ (fun pointer s => pointer ≠ 0 ∧ UserString p root pointer s) pointers strings

variable {a : Nat}

theorem userBytes_append {xs ys : List UInt8} :
    UserBytes p root a (xs ++ ys) ↔ UserBytes p root a xs ∧ UserBytes p root (a + xs.length) ys := by
  unfold UserBytes
  rw [List.length_append]
  constructor
  · rintro ⟨hend, hbytes⟩
    refine ⟨⟨by omega, fun i hi => ?_⟩, by omega, fun i hi => ?_⟩
    · rw [hbytes i (by omega), List.getD_append _ _ _ _ hi]
    · rw [Nat.add_assoc, hbytes _ (by omega), List.getD_append_right _ _ _ _ (Nat.le_add_right _ _),
        Nat.add_sub_cancel_left]
  · rintro ⟨⟨-, hxs⟩, hend, hys⟩
    refine ⟨by omega, fun i hi => ?_⟩
    by_cases hlt : i < xs.length
    · rw [hxs i hlt, List.getD_append _ _ _ _ hlt]
    · have hi' := hys (i - xs.length) (by omega)
      rw [show a + xs.length + (i - xs.length) = a + i by omega] at hi'
      rw [hi', List.getD_append_right _ _ _ _ (by omega)]

theorem userWords_append {xs ys : List Nat} :
    UserWords p root a (xs ++ ys) ↔ UserWords p root a xs ∧ UserWords p root (a + 8 * xs.length) ys := by
  unfold UserWords
  rw [List.flatMap_append, userBytes_append, length_stackBytes, Nat.mul_comm]

theorem UserBytes.userRead {bytes : List UInt8} (h : UserBytes p root a bytes) :
    p.userRead root a bytes.length = some bytes := by
  induction bytes generalizing a with
  | nil => rfl
  | cons b bytes ih =>
    obtain ⟨⟨-, hb⟩, hrest⟩ := userBytes_append.mp (show UserBytes p root a ([b] ++ bytes) from h)
    have hb' : p.userByte root a = some b := hb 0 Nat.zero_lt_one
    have hrest' : p.userRead root (a + 1) bytes.length = some bytes := ih hrest
    rw [List.length_cons, Phys.userRead, hb', Option.bind_some, hrest']
    rfl

theorem UserWords.userWord {n : Nat} (h : UserWords p root a [n]) (hn : n < 2 ^ 64) :
    p.userWord root a = some n := by
  have hread := UserBytes.userRead h
  rw [List.flatMap_singleton, length_toLE] at hread
  rw [Phys.userWord, hread, Option.map_some, ofLE_toLE, Nat.mod_eq_of_lt (by omega)]

theorem UserBytes.unique {xs ys : List UInt8} (h : UserBytes p root a xs) (h' : UserBytes p root a ys)
    (hlen : xs.length = ys.length) : xs = ys := by
  have hread := h.userRead
  rw [hlen, h'.userRead, Option.some_inj] at hread
  exact hread.symm

theorem UserString.unique {s t : CString} (h : UserString p root a s) (h' : UserString p root a t) : s = t := by
  obtain ⟨xs, hxs⟩ := s
  obtain ⟨ys, hys⟩ := t
  rw [CString.mk.injEq]
  induction xs generalizing a ys with
  | nil =>
    cases ys with
    | nil => rfl
    | cons y ys =>
      obtain ⟨hy, -⟩ := userBytes_append.mp (show UserBytes p root a ([y] ++ (ys ++ [0])) from h')
      have hzero := UserBytes.unique (show UserBytes p root a [0] from h) hy rfl
      rw [List.singleton_inj] at hzero
      exact absurd (List.mem_cons.mpr (.inl hzero)) hys
  | cons x xs ih =>
    obtain ⟨hx, hxs'⟩ := userBytes_append.mp (show UserBytes p root a ([x] ++ (xs ++ [0])) from h)
    cases ys with
    | nil =>
      have hzero := UserBytes.unique (show UserBytes p root a [0] from h') hx rfl
      rw [List.singleton_inj] at hzero
      exact absurd (List.mem_cons.mpr (.inl hzero)) hxs
    | cons y ys =>
      obtain ⟨hy, hys'⟩ := userBytes_append.mp (show UserBytes p root a ([y] ++ (ys ++ [0])) from h')
      rw [List.singleton_inj.mp (hx.unique hy rfl),
        ih (fun hm => hxs (List.mem_cons_of_mem _ hm)) hxs' ys (fun hm => hys (List.mem_cons_of_mem _ hm)) hys']

theorem UserWords.head_unique {w w' : Nat} {ws ws' : List Nat} (h : UserWords p root a (w :: ws))
    (h' : UserWords p root a (w' :: ws')) (hw : w < 2 ^ 64) (hw' : w' < 2 ^ 64) : w = w' := by
  have h₁ := (userWords_append.mp (show UserWords p root a ([w] ++ ws) from h)).1.userWord hw
  have h₂ := (userWords_append.mp (show UserWords p root a ([w'] ++ ws') from h')).1.userWord hw'
  exact Option.some.inj (h₁.symm.trans h₂)

theorem UserString.lt {s : CString} (h : UserString p root a s) : a < 2 ^ 64 := by
  have hend := h.1
  rw [List.length_append, List.length_singleton] at hend
  omega

theorem UserVector.unique {pointers pointers' : List Nat} {strings strings' : List CString}
    (h : UserVector p root a pointers strings) (h' : UserVector p root a pointers' strings') : strings = strings' := by
  obtain ⟨hwords, hstrings⟩ := h
  obtain ⟨hwords', hstrings'⟩ := h'
  induction hstrings generalizing a pointers' strings' with
  | nil =>
    cases hstrings' with
    | nil => rfl
    | cons hs' _ => exact absurd (hwords.head_unique hwords' (by decide) hs'.2.lt).symm hs'.1
  | @cons pointer s pointers strings hs _ ih =>
    cases hstrings' with
    | nil => exact absurd (hwords.head_unique hwords' hs.2.lt (by decide)) hs.1
    | @cons pointer' s' pointers' strings' hs' hrest' =>
      have hpointer := hwords.head_unique hwords' hs.2.lt hs'.2.lt
      subst hpointer
      obtain ⟨-, hnext⟩ := userWords_append.mp (show UserWords p root a ([pointer] ++ (pointers ++ [0])) from hwords)
      obtain ⟨-, hnext'⟩ := userWords_append.mp (show UserWords p root a ([pointer] ++ (pointers' ++ [0])) from hwords')
      rw [hs.2.unique hs'.2, ih hnext hnext' hrest']

theorem userStrings_placed {l : List CString} (h : UserBytes p root a (stringBlock (l.map CString.bytes)))
    (ha : a ≠ 0) :
    List.Forall₂ (fun pointer s => pointer ≠ 0 ∧ UserString p root pointer s) (placed a (l.map CString.bytes)) l := by
  induction l generalizing a with
  | nil => exact .nil
  | cons s rest ih =>
    rw [List.map_cons, stringBlock_cons, userBytes_append, List.length_append, List.length_singleton] at h
    exact .cons ⟨ha, h.1⟩ (ih h.2 (by omega))

def stringExtents (pointers : List Nat) (strings : List CString) : List (Nat × Nat) :=
  pointers.zip (strings.map fun s => s.bytes.length + 1)

theorem stringExtents_placed (a : Nat) (l : List CString) :
    (stringExtents (placed a (l.map CString.bytes)) l).Pairwise (fun b c => b.1 + b.2 ≤ c.1) ∧
      ∀ b ∈ stringExtents (placed a (l.map CString.bytes)) l,
        a ≤ b.1 ∧ b.1 + b.2 ≤ a + (stringBlock (l.map CString.bytes)).length := by
  induction l generalizing a with
  | nil => exact ⟨.nil, fun b hb => (nomatch hb)⟩
  | cons s rest ih =>
    obtain ⟨hpair, hin⟩ := ih (a + (s.bytes.length + 1))
    have hcons : stringExtents (placed a ((s :: rest).map CString.bytes)) (s :: rest) =
        (a, s.bytes.length + 1) :: stringExtents (placed (a + (s.bytes.length + 1)) (rest.map CString.bytes)) rest := rfl
    rw [hcons, List.map_cons, stringBlock_cons, List.length_append, List.length_append, List.length_singleton]
    refine ⟨.cons (fun c hc => (hin c hc).1) hpair, fun b hb => ?_⟩
    cases hb with
    | head => exact ⟨le_rfl, by dsimp only; omega⟩
    | tail _ hb =>
      have hb' := hin b hb
      omega

-- ---------------------------------------------------------------------------
-- What the program finds
-- ---------------------------------------------------------------------------

def auxVector (eh : Elf64Ehdr) (phdr randomp execfn : Nat) : List (Nat × Nat) :=
  [(atPhdr, phdr), (atPhent, eh.phentsize), (atPhnum, eh.phnum), (atPagesz, pageSize), (atEntry, eh.entry),
    (atRandom, randomp), (atExecfn, execfn), (atNull, 0)]

/-- All that `build_stack` wrote, as addresses and lengths. -/
def stackExtents (sp randomp : Nat) (argp envAddresses : List Nat) (argv envp : List CString) : List (Nat × Nat) :=
  (sp, 8 * (argv.length + envp.length + 19)) :: (randomp, Phys.randomBytes.length) ::
    (stringExtents argp argv ++ stringExtents envAddresses envp)

/-- A stack as a program expects it, with the vectors and strings at the given
addresses. -/
structure InitialStack (p : Phys) (root sp : Nat) (argv envp : List CString) (aux : List (Nat × Nat))
    (randomp : Nat) (argp envAddresses : List Nat) : Prop where
  aligned : sp % 16 = 0
  start : p.startArgs root sp = some (argv.length, sp + 8, sp + 8 * (argv.length + 2))
  arguments : UserVector p root (sp + 8) argp argv
  environment : UserVector p root (sp + 8 * (argv.length + 2)) envAddresses envp
  auxiliary : UserWords p root (sp + 8 * (argv.length + envp.length + 3)) (aux.flatMap fun w => [w.1, w.2])
  terminated : ∃ entries, aux = entries ++ [(atNull, 0)] ∧ ∀ w ∈ entries, w.1 ≠ atNull
  random : UserBytes p root randomp Phys.randomBytes
  mapped : StackMapped p root
  inside : ∀ b ∈ stackExtents sp randomp argp envAddresses argv envp,
    userStackBottom ≤ b.1 ∧ b.1 + b.2 ≤ userStackTop
  apart : (stackExtents sp randomp argp envAddresses argv envp).Pairwise fun b c => b.1 + b.2 ≤ c.1

theorem userBytes_writeAt {bytes : List UInt8} (hend : a + bytes.length ≤ 2 ^ 47)
    (hview : ∀ v, a ≤ v → v < a + bytes.length → ∃ o : Option (Bool × UInt8), o.isSome ∧
      p.userView root v = writeAt a bytes v o) : UserBytes p root a bytes := by
  refine ⟨hend, fun i hi => ?_⟩
  obtain ⟨o, ho, hv⟩ := hview (a + i) (Nat.le_add_right _ _) (Nat.add_lt_add_left hi a)
  obtain ⟨w, rfl⟩ := Option.isSome_iff_exists.mp ho
  rw [Phys.userByte, hv, writeAt, if_pos ⟨Nat.le_add_right _ _, Nat.add_lt_add_left hi a⟩, Nat.add_sub_cancel_left]
  rfl

theorem writeAt_of_ge {bytes : List UInt8} {v : Nat} (h : a + bytes.length ≤ v) (o : Option (Bool × UInt8)) :
    writeAt a bytes v o = o := if_neg fun h' => Nat.not_lt.mpr h h'.2

/-- What is in memory after `build_stack`, part by part. -/
theorem buildStack_holds (hs : Sound p root) (hmap : (p.mapRange root userStackBottom userStackTop).1 = true)
    (eh : Elf64Ehdr) (phdr : Nat) {argv envp : List CString} (hargs : ArgsOk argv envp) :
    ∃ p', p.buildStack root eh phdr argv envp = (some (initialSp argv envp), p') ∧ Remaps root p p' ∧ StackMapped p' root ∧
      UserWords p' root (initialSp argv envp) (initialWords eh phdr argv envp) ∧
      UserBytes p' root (randomAt argv envp) Phys.randomBytes ∧
      UserBytes p' root (argAt argv envp) (stringBlock (argv.map CString.bytes)) ∧
      UserBytes p' root (envAt envp) (stringBlock (envp.map CString.bytes)) := by
  obtain ⟨p', hbuild, hshow⟩ := buildStack_ok hs hmap eh phdr hargs
  have hview := hshow.view hs
  obtain ⟨hfit, hbottom⟩ := hargs.fit
  have hroom := hfit.stackRoom
  have htop : userStackTop < 2 ^ 47 := by decide
  have hspTop : initialSp argv envp + (initialBytes eh phdr argv envp).length ≤ randomAt argv envp := by
    rw [length_initialBytes]
    exact hroom.words
  have hblock : UserBytes p' root (randomAt argv envp) (stackStrings argv envp) := by
    refine userBytes_writeAt (hroom.stackStrings.le.trans htop.le) fun v h₁ h₂ => ?_
    rw [hroom.stackStrings] at h₂
    have hpage : (stringsWritten argv envp v (p.userView root v)).isSome :=
      isSome_stringsWritten (hroom.strings.trans h₁) h₂ _
    rw [stringsWritten, isSome_writeAt] at hpage
    exact ⟨_, hpage, (hview v (h₂.trans htop)).trans (writeAt_of_ge (hspTop.trans h₁) _)⟩
  rw [stackStrings, userBytes_append, userBytes_append, List.length_append, ← Nat.add_assoc, hroom.random, hroom.arg]
    at hblock
  refine ⟨p', hbuild, hshow.remaps, fun v h₁ h₂ => ?_, ?_, hblock.1.1, hblock.1.2, hblock.2⟩
  · rw [hview v (h₂.trans htop), isSome_writeAt]
    exact isSome_stringsWritten h₁ h₂ _
  · refine userBytes_writeAt ((hspTop.trans hroom.ends.2.2.1).trans htop.le) fun v h₁ h₂ => ?_
    have hv := (h₂.trans_le hspTop).trans_le hroom.ends.2.2.1
    exact ⟨_, isSome_stringsWritten (hbottom.trans h₁) hv _, hview v (hv.trans htop)⟩

theorem initialWords_eq (eh : Elf64Ehdr) (phdr : Nat) (argv envp : List CString) :
    initialWords eh phdr argv envp = [argv.length] ++
      ((placed (argAt argv envp) (argv.map CString.bytes) ++ [0]) ++
        ((placed (envAt envp) (envp.map CString.bytes) ++ [0]) ++
          (auxVector eh phdr (randomAt argv envp)
            ((placed (argAt argv envp) (argv.map CString.bytes)).getD 0 0)).flatMap fun w => [w.1, w.2])) := by
  simp only [initialWords, Phys.stackWords, length_placed, List.length_map, List.append_assoc]
  rfl

theorem stackExtents_initial {argv envp : List CString} (h : StackRoom argv envp)
    (hbottom : userStackBottom ≤ initialSp argv envp) {extents : List (Nat × Nat)}
    (hextents : extents = stackExtents (initialSp argv envp) (randomAt argv envp)
      (placed (argAt argv envp) (argv.map CString.bytes)) (placed (envAt envp) (envp.map CString.bytes)) argv envp) :
    (extents.Pairwise fun b c => b.1 + b.2 ≤ c.1) ∧
      ∀ b ∈ extents, userStackBottom ≤ b.1 ∧ b.1 + b.2 ≤ userStackTop := by
  obtain ⟨hargPair, hargIn⟩ := stringExtents_placed (argAt argv envp) argv
  obtain ⟨henvPair, henvIn⟩ := stringExtents_placed (envAt envp) envp
  obtain ⟨henv, harg, hrandom, hlow, hwords, -⟩ := h
  rw [harg] at hargIn
  rw [henv] at henvIn
  rw [stackExtents] at hextents
  generalize stringExtents (placed (argAt argv envp) (argv.map CString.bytes)) argv = xs at *
  generalize stringExtents (placed (envAt envp) (envp.map CString.bytes)) envp = ys at *
  generalize initialSp argv envp = sp at *
  generalize randomAt argv envp = random at *
  generalize argAt argv envp = arg at *
  generalize envAt envp = env at *
  generalize userStackBottom = bottom at *
  have hin : ∀ c ∈ xs ++ ys, arg ≤ c.1 ∧ c.1 + c.2 ≤ userStackTop := fun c hc => by
    rcases List.mem_append.mp hc with hc | hc
    · have hc' := hargIn c hc
      omega
    · have hc' := henvIn c hc
      omega
  subst hextents
  constructor
  · refine .cons (fun c hc => ?_) (.cons (fun c hc => ?_) (List.pairwise_append.mpr ⟨hargPair, henvPair, ?_⟩))
    · rcases List.mem_cons.mp hc with rfl | hc
      · exact hwords
      · exact (hwords.trans ((Nat.le_add_right _ _).trans hrandom.le)).trans (hin c hc).1
    · exact hrandom.le.trans (hin c hc).1
    · exact fun b hb c hc => (hargIn b hb).2.trans (henvIn c hc).1
  · intro b hb
    simp only [List.mem_cons] at hb
    rcases hb with rfl | rfl | hb
    · dsimp only
      omega
    · dsimp only
      omega
    · have hb' := hin b hb
      omega

theorem buildStack_initialStack (hs : Sound p root)
    (hmap : (p.mapRange root userStackBottom userStackTop).1 = true) (eh : Elf64Ehdr) (phdr : Nat)
    {argv envp : List CString} (hargs : ArgsOk argv envp) :
    ∃ sp p' randomp argp envAddresses, p.buildStack root eh phdr argv envp = (some sp, p') ∧ Remaps root p p' ∧
      InitialStack p' root sp argv envp (auxVector eh phdr randomp (argp.getD 0 0)) randomp argp envAddresses := by
  obtain ⟨p', hbuild, hremaps, hmapped, hwords, hrandom, hargBytes, henvBytes⟩ := buildStack_holds hs hmap eh phdr hargs
  obtain ⟨hfit, hbottom⟩ := hargs.fit
  have hroom := hfit.stackRoom
  obtain ⟨hapart, hinside⟩ := stackExtents_initial hroom hbottom rfl
  have hargc := hargs.argc
  have hpos : 0 < userStackBottom := by decide
  have hargPos : argAt argv envp ≠ 0 := fun h => by
    have := hroom.ends.2.2.2.2.2
    omega
  have henvPos : envAt envp ≠ 0 := fun h => by
    have := hroom.ends.2.2.2.2.1
    omega
  rw [initialWords_eq] at hwords
  obtain ⟨hargcWord, hvectors⟩ := userWords_append.mp hwords
  obtain ⟨hargVector, hvectors⟩ := userWords_append.mp hvectors
  obtain ⟨henvVector, haux⟩ := userWords_append.mp hvectors
  simp only [List.length_append, length_placed, List.length_map, List.length_singleton] at hargVector henvVector haux
  have hspEnd : initialSp argv envp + 8 * (argv.length + envp.length + 19) ≤ 2 ^ 47 :=
    (hroom.words.trans hroom.ends.2.2.1).trans (by decide)
  refine ⟨_, p', randomAt argv envp, placed (argAt argv envp) (argv.map CString.bytes),
    placed (envAt envp) (envp.map CString.bytes), hbuild, hremaps, ?_⟩
  constructor
  case aligned => exact Nat.mul_mod_left _ _
  case start =>
    have hword := hargcWord.userWord (by omega)
    rw [Phys.startArgs, hword, Option.map_some]
    generalize initialSp argv envp = sp at *
    have h₁ : wrap64 (sp + 8) = sp + 8 := by
      unfold wrap64
      omega
    have h₂ : wrap64 (sp + 8 + argv.length * 8 + 8) = sp + 8 * (argv.length + 2) := by
      unfold wrap64
      omega
    rw [h₁, h₂]
  case arguments => exact ⟨hargVector, userStrings_placed hargBytes hargPos⟩
  case environment =>
    refine ⟨?_, userStrings_placed henvBytes henvPos⟩
    rwa [show initialSp argv envp + 8 * (argv.length + 2) = initialSp argv envp + 8 * 1 + 8 * (argv.length + 1) by ring]
  case auxiliary =>
    rwa [show initialSp argv envp + 8 * (argv.length + envp.length + 3) =
      initialSp argv envp + 8 * 1 + 8 * (argv.length + 1) + 8 * (envp.length + 1) by ring]
  case terminated =>
    refine ⟨(auxVector eh phdr (randomAt argv envp) _).dropLast, rfl, ?_⟩
    simp [auxVector, atNull, atPhdr, atPhent, atPhnum, atPagesz, atEntry, atRandom, atExecfn]
  case random => exact hrandom
  case mapped => exact hmapped
  case inside => exact hinside
  case apart => exact hapart

-- ---------------------------------------------------------------------------
-- Memories that look alike
-- ---------------------------------------------------------------------------

section
variable (hview : ∀ v < 2 ^ 47, p'.userView root v = p.userView root v)
include hview

theorem UserBytes.view {bytes : List UInt8} (h : UserBytes p root a bytes) : UserBytes p' root a bytes := by
  obtain ⟨hend, hbytes⟩ := h
  refine ⟨hend, fun i hi => ?_⟩
  rw [← hbytes i hi, Phys.userByte, Phys.userByte, hview (a + i) (by omega)]

theorem UserVector.view {pointers : List Nat} {strings : List CString} (h : UserVector p root a pointers strings) :
    UserVector p' root a pointers strings :=
  ⟨UserBytes.view hview h.words, h.strings.imp fun _ _ hs => ⟨hs.1, hs.2.view hview⟩⟩

theorem userRead_view {n : Nat} (hend : a + n ≤ 2 ^ 47) : p'.userRead root a n = p.userRead root a n := by
  induction n generalizing a with
  | zero => rfl
  | succ n ih => rw [Phys.userRead, Phys.userRead, Phys.userByte, Phys.userByte, hview a (by omega), ih (by omega)]

theorem InitialStack.view {sp randomp : Nat} {argv envp : List CString} {aux : List (Nat × Nat)}
    {argp envAddresses : List Nat} (h : InitialStack p root sp argv envp aux randomp argp envAddresses) :
    InitialStack p' root sp argv envp aux randomp argp envAddresses where
  aligned := h.aligned
  start := by
    obtain ⟨-, htop⟩ := h.inside (sp, 8 * (argv.length + envp.length + 19)) List.mem_cons_self
    have hlimit : userStackTop < 2 ^ 47 := by decide
    rw [← h.start, Phys.startArgs, Phys.startArgs, Phys.userWord, Phys.userWord, userRead_view hview (by omega)]
  arguments := h.arguments.view hview
  environment := h.environment.view hview
  auxiliary := UserBytes.view hview h.auxiliary
  terminated := h.terminated
  random := h.random.view hview
  mapped v h₁ h₂ := by
    rw [hview v (h₂.trans (by decide))]
    exact h.mapped v h₁ h₂
  inside := h.inside
  apart := h.apart

end

end NarcOs
