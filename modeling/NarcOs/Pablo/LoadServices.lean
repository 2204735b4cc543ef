import NarcOs.Lib.InsertionSort
import NarcOs.Pablo.Loading
import Mathlib.Data.List.Lex

/-!
# The directory of services

`load_services` of `userland/pablo/src/config.c` and the functions below it. The
names that match are collected in the order of the directory, sorted, and loaded
one after the other; so neither the result nor the services depend on that order.
The bytes behind the NUL of a record of `names` are left out.
-/

namespace NarcOs
namespace Pablo

-- ---------------------------------------------------------------------------
-- The functions of the source
-- ---------------------------------------------------------------------------

/-- `strcmp` on the bytes before the NULs. -/
def strcmp : List UInt8 → List UInt8 → Int
  | [], [] => 0
  | [], b :: _ => 0 - b.toNat
  | a :: _, [] => a.toNat - 0
  | a :: left, b :: right => if a = b then strcmp left right else a.toNat - b.toNat

def pabloServiceMax : Nat := 16
def pabloServiceFileMax : Nat := 40

/-- `strcmp(left, right) > 0`. -/
def nameAbove (left right : CString) : Bool := 0 < strcmp left.bytes right.bytes

def sortNames (names : List CString) (count : Nat) : List CString :=
  sortInPlace nameAbove names count

theorem serviceSuffix_noNul : 0 ∉ ascii ".service" := by decide +kernel

def serviceSuffix : CString := ⟨ascii ".service", serviceSuffix_noNul⟩

/-- The loop over the entries, with the names collected so far; `none` is the
return of -1 from within the loop. -/
def collectNames : List CString → List CString → Option (List CString)
  | [], names => some names
  | entry :: entries, names =>
    if entry.first = 46 ∨ ¬ pabloHasSuffix entry serviceSuffix then collectNames entries names
    else if names.length ≥ pabloServiceMax then none
    else
      match pabloCopy .empty pabloServiceFileMax entry with
      | (result, name) => if result ≠ 0 then none else collectNames entries (names ++ [name])

/-- What the directory's calls answer: `opendir` with the entries that `readdir`
gives up to its first null pointer, and `closedir`. -/
structure Directory where
  opened : Except Errno (List CString)
  closed : Int := 0

/-- The loop over the sorted names, behind the services loaded before. `stack i`
is what the buffer of call `i` of `load_service` holds. -/
def loadEach (files : CString → Opening) (directory : CString) (stack : Nat → Buffer pabloFileMax) :
    List CString → List ServiceEntry → Int × List ServiceEntry
  | [], services => (0, services)
  | name :: names, services =>
    match loadService files directory name (stack services.length) with
    | (result, service) =>
      if result ≠ 0 then (-1, services)
      else loadEach files directory stack names (services ++ [service])

def loadServices (files : CString → Opening) (directory : CString) (entries : Directory)
    (stack : Nat → Buffer pabloFileMax) : Int × List ServiceEntry :=
  match entries.opened with
  | .error .noEntry => (0, [])
  | .error _ => (-1, [])
  | .ok list =>
    match collectNames list [] with
    | none => (-1, [])
    | some names =>
      if entries.closed ≠ 0 then (-1, [])
      else loadEach files directory stack (sortNames names names.length) []

-- ---------------------------------------------------------------------------
-- Byte order
-- ---------------------------------------------------------------------------

def codes (s : CString) : List Nat := s.bytes.map UInt8.toNat

theorem codes_inj {s t : CString} (h : codes s = codes t) : s = t := by
  obtain ⟨bs, hs⟩ := s
  obtain ⟨bt, ht⟩ := t
  have heq : bs = bt := List.map_injective_iff.2 (fun _ _ => UInt8.toNat_inj.1) h
  subst heq
  rfl

theorem strcmp_pos {l r : List UInt8} (hr : 0 ∉ r) (hl : 0 ∉ l) :
    0 < strcmp l r ↔ r.map UInt8.toNat < l.map UInt8.toNat := by
  have hpos : ∀ {b : UInt8} {s : List UInt8}, 0 ∉ b :: s → 0 < b.toNat := by
    intro b s h
    rw [List.mem_cons, not_or] at h
    exact Nat.pos_of_ne_zero fun hz => h.1 (UInt8.toNat_inj.1 hz).symm
  fun_induction strcmp l r with
  | case1 => simp
  | case2 b tail =>
    have := hpos hr
    simp
  | case3 a tail =>
    have := hpos hl
    simp
    omega
  | case4 left b right ih =>
    rw [List.mem_cons, not_or] at hr hl
    refine (ih hr.2 hl.2).trans ?_
    rw [List.map_cons, List.map_cons, List.cons_lt_cons_self]
  | case5 a left b right hne =>
    have hne : b.toNat ≠ a.toNat := fun h => hne (UInt8.toNat_inj.1 h).symm
    rw [List.map_cons, List.map_cons, List.cons_lt_cons_iff]
    omega

theorem nameAbove_iff {s t : CString} : nameAbove s t = true ↔ codes t < codes s := by
  rw [nameAbove, decide_eq_true_iff]
  exact strcmp_pos t.noNul s.noNul

theorem nameAbove_eq_false {s t : CString} : nameAbove s t = false ↔ codes s ≤ codes t := by
  rw [← Bool.not_eq_true, nameAbove_iff, not_lt]

theorem nameAbove_asymm (s t : CString) (h : nameAbove s t = true) : nameAbove t s = false :=
  nameAbove_eq_false.2 (nameAbove_iff.1 h).le

theorem nameAbove_trans (s t u : CString) (h : nameAbove s t = false)
    (h' : nameAbove t u = false) : nameAbove s u = false :=
  nameAbove_eq_false.2 ((nameAbove_eq_false.1 h).trans (nameAbove_eq_false.1 h'))

def Ordered (names : List CString) : Prop := names.Pairwise fun s t => codes s ≤ codes t

theorem sorted_iff {names : List CString} : Sorted nameAbove names ↔ Ordered names := by
  unfold Sorted Ordered
  simp only [nameAbove_eq_false]

theorem Ordered.eq_of_perm {l l' : List CString} (hl : Ordered l) (hl' : Ordered l')
    (h : l.Perm l') : l = l' :=
  h.eq_of_pairwise (fun _ _ _ _ hst hts => codes_inj (le_antisymm hst hts)) hl hl'

theorem sortNames_spec (names : List CString) (count : Nat) (hc : count ≤ names.length) :
    ∃ s, sortNames names count = s ++ names.drop count ∧ s.Perm (names.take count) ∧ Ordered s := by
  obtain ⟨s, hs, hperm, hsorted⟩ := sortInPlace_spec nameAbove_asymm nameAbove_trans names count hc
  exact ⟨s, hs, hperm, sorted_iff.1 hsorted⟩

theorem sortNames_all (names : List CString) :
    (sortNames names names.length).Perm names ∧ Ordered (sortNames names names.length) := by
  obtain ⟨s, hs, hperm, hsorted⟩ := sortNames_spec names names.length le_rfl
  rw [List.drop_length, List.append_nil] at hs
  rw [List.take_length] at hperm
  exact ⟨hs ▸ hperm, hs ▸ hsorted⟩

-- ---------------------------------------------------------------------------
-- The names that are collected
-- ---------------------------------------------------------------------------

/-- The name does not start with a dot and ends in `.service`. -/
def IsServiceFile (name : CString) : Prop :=
  name.bytes.head? ≠ some 46 ∧ serviceSuffix.bytes <:+ name.bytes

instance : DecidablePred IsServiceFile := fun _ => inferInstanceAs (Decidable (_ ∧ _))

theorem pabloHasSuffix_iff (text suffix : CString) :
    pabloHasSuffix text suffix = true ↔ suffix.bytes <:+ text.bytes := by
  unfold pabloHasSuffix
  split_ifs with h
  · refine iff_of_false (by simp) fun hs => ?_
    have := hs.length_le
    omega
  · rw [decide_eq_true_iff, List.suffix_iff_eq_drop]
    exact eq_comm

theorem first_eq_dot {name : CString} : name.first = 46 ↔ name.bytes.head? = some 46 := by
  obtain ⟨bytes, hnul⟩ := name
  cases bytes with
  | nil => simp [CString.first]
  | cons b bytes => simp [CString.first]

theorem skipped_iff (name : CString) :
    (name.first = 46 ∨ ¬ pabloHasSuffix name serviceSuffix) ↔ ¬ IsServiceFile name := by
  rw [IsServiceFile, first_eq_dot, pabloHasSuffix_iff]
  tauto

theorem collectNames_eq (entries names : List CString) (hn : names.length ≤ pabloServiceMax) :
    collectNames entries names =
      if (∀ e ∈ entries.filter IsServiceFile, e.bytes.length < pabloServiceFileMax) ∧
          names.length + (entries.filter IsServiceFile).length ≤ pabloServiceMax then
        some (names ++ entries.filter IsServiceFile)
      else none := by
  induction entries generalizing names with
  | nil => simp [collectNames, hn]
  | cons entry entries ih =>
    rw [collectNames]
    by_cases hskip : IsServiceFile entry
    swap
    · rw [if_pos ((skipped_iff entry).2 hskip), ih names hn]
      simp [hskip]
    rw [if_neg fun h => (skipped_iff entry).1 h hskip]
    have hfilter : (entry :: entries).filter IsServiceFile =
        entry :: entries.filter IsServiceFile := by simp [hskip]
    rw [hfilter, List.length_cons]
    split_ifs with hfull hall hall
    · omega
    · rfl
    · have hcopy : pabloCopy .empty pabloServiceFileMax entry = (0, entry) :=
        if_neg (not_le.2 (hall.1 entry List.mem_cons_self))
      rw [hcopy]
      simp only [ne_eq, not_true_eq_false, if_false]
      rw [ih _ (by simp; omega), if_pos, List.append_assoc, List.singleton_append]
      refine ⟨fun e he => hall.1 e (List.mem_cons_of_mem _ he), ?_⟩
      rw [List.length_append, List.length_singleton]
      omega
    · unfold pabloCopy
      split_ifs with hlong
      · simp
      · simp only [ne_eq, not_true_eq_false, if_false]
        rw [ih _ (by simp; omega), if_neg]
        rintro ⟨hlen, hcount⟩
        rw [List.length_append, List.length_singleton] at hcount
        exact hall ⟨List.forall_mem_cons.2 ⟨not_le.1 hlong, hlen⟩, by omega⟩

theorem collectNames_perm {l l' : List CString} (h : l.Perm l') :
    (collectNames l [] = none ∧ collectNames l' [] = none) ∨
      ∃ names names', collectNames l [] = some names ∧ collectNames l' [] = some names' ∧
        names = l.filter IsServiceFile ∧ names.Perm names' := by
  have hfilter := h.filter IsServiceFile
  rw [collectNames_eq l [] (Nat.zero_le _), collectNames_eq l' [] (Nat.zero_le _)]
  have hiff : ((∀ e ∈ l.filter IsServiceFile, e.bytes.length < pabloServiceFileMax) ∧
      ([] : List CString).length + (l.filter IsServiceFile).length ≤ pabloServiceMax) ↔
      (∀ e ∈ l'.filter IsServiceFile, e.bytes.length < pabloServiceFileMax) ∧
      ([] : List CString).length + (l'.filter IsServiceFile).length ≤ pabloServiceMax := by
    rw [hfilter.length_eq]
    simp only [hfilter.mem_iff]
  by_cases hc : (∀ e ∈ l.filter IsServiceFile, e.bytes.length < pabloServiceFileMax) ∧
      ([] : List CString).length + (l.filter IsServiceFile).length ≤ pabloServiceMax
  · exact .inr ⟨_, _, if_pos hc, if_pos (hiff.1 hc), rfl, hfilter⟩
  · exact .inl ⟨if_neg hc, if_neg fun hc' => hc (hiff.2 hc')⟩

-- ---------------------------------------------------------------------------
-- The services that are loaded
-- ---------------------------------------------------------------------------

theorem readLoop_length {capacity : Nat} {d d' : Descriptor} {used content : List UInt8}
    (h : readLoop capacity d used = (.ok content, d')) (hu : used.length < capacity) :
    content.length < capacity := by
  fun_induction readLoop capacity d used with
  | case1 d used hroom d₁ hread ih => exact ih h hu
  | case2 d used hroom e d₁ hread => simp at h
  | case3 d used hroom d₁ hread =>
    obtain ⟨rfl, -⟩ := by simpa using h
    exact hu
  | case4 d used hroom c data d₁ hread ih =>
    have hlen := (Descriptor.read_ok hread).2.1
    refine ih h ?_
    rw [List.length_append]
    omega
  | case5 d used hroom =>
    obtain ⟨rfl, -⟩ := by simpa using h
    exact hu

theorem pabloReadFile_length {file : Opening} {capacity : Nat} {content : List UInt8}
    (h : pabloReadFile file capacity = .ok content) : content.length < capacity := by
  unfold pabloReadFile at h
  split_ifs at h with hzero
  split at h
  · simp at h
  · split at h
    · simp at h
    · rename_i d _ used d' hloop
      have hlen := readLoop_length hloop (by simpa using Nat.pos_of_ne_zero hzero)
      split at h
      · simp at h
      · simp at h
      · split at h
        · obtain rfl := by simpa using h
          exact hlen
        · simp at h

def serviceOf (files : CString → Opening) (directory filename : CString) : Option ServiceEntry :=
  (serviceName filename).bind fun name =>
    if directory.bytes.length + filename.bytes.length + 2 > pabloPathMax then none
    else
      match pabloReadFile (files (directory.join filename)) pabloFileMax with
      | .error _ => none
      | .ok content =>
        (readLines serviceEntry ((seen content).splitOn 10) (.named name)).bind ServiceEntry.finish

theorem loadService_accepted (files : CString → Opening) (directory filename : CString)
    (stack : Buffer pabloFileMax) :
    accepted (loadService files directory filename stack) = serviceOf files directory filename := by
  unfold loadService serviceOf
  cases serviceName filename with
  | none => rfl
  | some name =>
    simp only [Option.bind_some]
    split_ifs with hpath
    · rfl
    · cases hread : pabloReadFile (files (directory.join filename)) pabloFileMax with
      | error e => rfl
      | ok content =>
        have heach := accepted_eachLine service_parse (pabloReadFile_length hread) stack
          (ServiceEntry.named name)
        unfold ServiceEntry.named at heach ⊢
        simp only
        rw [← heach]
        generalize eachLine parseServiceLine (stack.store content) 0 _ = r
        by_cases hr : r.1 = 0
        · rw [accepted_of_eq hr, if_neg (not_not.mpr hr), Option.bind_some, ServiceEntry.finish]
          split
          · rfl
          · rfl
        · rw [accepted_of_ne hr, if_pos hr]
          rfl

theorem serviceName_bytes {filename name : CString} (h : serviceName filename = some name) :
    filename.bytes = name.bytes ++ serviceSuffix.bytes := by
  unfold serviceName at h
  split_ifs at h with hs
  have hs : pabloHasSuffix filename serviceSuffix = true := hs
  have hsuffix := (pabloHasSuffix_iff filename serviceSuffix).1 hs
  have hlength : serviceSuffix.bytes.length = 8 := by decide +kernel
  simp only at h
  split_ifs at h with hlen
  obtain rfl := Option.some.inj h
  obtain ⟨stem, hstem⟩ := hsuffix
  have hstemLength : filename.bytes.length - 8 = stem.length := by
    rw [← hstem, List.length_append, hlength, Nat.add_sub_cancel]
  have htake : filename.bytes.take stem.length = stem := by rw [← hstem, List.take_left]
  simp only [hstemLength, htake, hstem]

theorem serviceOf_name {files : CString → Opening} {directory filename : CString}
    {service : ServiceEntry} (h : serviceOf files directory filename = some service) :
    filename.bytes = service.name.bytes ++ serviceSuffix.bytes := by
  obtain ⟨name, hname, h⟩ := Option.bind_eq_some_iff.1 h
  split_ifs at h with hpath
  split at h
  · simp at h
  · obtain ⟨read, hread, hfinish⟩ := Option.bind_eq_some_iff.1 h
    rw [readLines_named] at hread
    split_ifs at hread with hlines
    unfold ServiceEntry.finish at hfinish
    split_ifs at hfinish with hpath
    obtain rfl := Option.some.inj hread
    obtain rfl := Option.some.inj hfinish
    exact serviceName_bytes hname

/-- The services of the names, behind those before; a failure leaves no more. -/
theorem loadEach_eq (files : CString → Opening) (directory : CString)
    (stack stack' : Nat → Buffer pabloFileMax) (names : List CString)
    (services : List ServiceEntry) :
    loadEach files directory stack names services =
        loadEach files directory stack' names services ∧
      ((loadEach files directory stack names services).1 = 0 →
        ∃ loaded, (loadEach files directory stack names services).2 = services ++ loaded ∧
          List.Forall₂ (fun name service => serviceOf files directory name = some service)
            names loaded) := by
  induction names generalizing services with
  | nil => exact ⟨rfl, fun _ => ⟨[], by simp [loadEach], .nil⟩⟩
  | cons name names ih =>
    have h := loadService_accepted files directory name (stack services.length)
    have h' := loadService_accepted files directory name (stack' services.length)
    rw [loadEach, loadEach]
    generalize loadService files directory name (stack services.length) = r at h
    generalize loadService files directory name (stack' services.length) = r' at h'
    obtain ⟨result, service⟩ := r
    obtain ⟨result', service'⟩ := r'
    have hsame := h.trans h'.symm
    by_cases hr : result = 0
    · rw [accepted_of_eq hr] at h hsame
      have hr' : result' = 0 := by
        by_contra hne
        rw [accepted_of_ne hne] at hsame
        simp at hsame
      rw [accepted_of_eq hr'] at hsame
      obtain rfl : service = service' := Option.some.inj hsame
      simp only [hr, hr', ne_eq, not_true_eq_false, if_false]
      refine ⟨(ih _).1, fun hzero => ?_⟩
      obtain ⟨loaded, hloaded, hall⟩ := (ih _).2 hzero
      exact ⟨service :: loaded, by rw [hloaded]; simp, .cons h.symm hall⟩
    · rw [accepted_of_ne hr] at hsame
      have hr' : result' ≠ 0 := by
        intro hzero
        rw [accepted_of_eq hzero] at hsame
        simp at hsame
      simp [hr, hr']

def Loads (files : CString → Opening) (directory name : CString) (service : ServiceEntry) : Prop :=
  ∀ stack, loadService files directory name stack = (0, service)

theorem loads_of_serviceOf {files : CString → Opening} {directory name : CString}
    {service : ServiceEntry} (h : serviceOf files directory name = some service) :
    Loads files directory name service := by
  intro stack
  have haccepted := (loadService_accepted files directory name stack).trans h
  generalize loadService files directory name stack = r at haccepted
  obtain ⟨result, loaded⟩ := r
  by_cases hr : result = 0
  · rw [accepted_of_eq hr] at haccepted
    obtain rfl : loaded = service := Option.some.inj haccepted
    rw [hr]
  · rw [accepted_of_ne hr] at haccepted
    simp at haccepted

theorem Ordered.strict {names : List CString} (h : Ordered names) (hn : names.Nodup) :
    names.Pairwise fun s t => codes s < codes t :=
  (h.and hn).imp fun ⟨hle, hne⟩ => lt_of_le_of_ne hle fun he => hne (codes_inj he)

/-- The same directory read in two orders gives the same result and services. -/
theorem loadServices_order (files : CString → Opening) (directory : CString)
    (entries entries' : List CString) (closed : Int) (stack stack' : Nat → Buffer pabloFileMax)
    (hperm : entries.Perm entries') (hnodup : entries.Nodup) :
    ((loadServices files directory ⟨.ok entries, closed⟩ stack).1 =
        (loadServices files directory ⟨.ok entries', closed⟩ stack').1 ∧
      ((loadServices files directory ⟨.ok entries, closed⟩ stack).1 = 0 →
        (loadServices files directory ⟨.ok entries, closed⟩ stack).2 =
            (loadServices files directory ⟨.ok entries', closed⟩ stack').2 ∧
          ∃ names : List CString, names.Perm (entries.filter IsServiceFile) ∧
            names.Pairwise (fun s t => codes s < codes t) ∧
            List.Forall₂ (fun name service => Loads files directory name service ∧
                name.bytes = service.name.bytes ++ serviceSuffix.bytes)
              names (loadServices files directory ⟨.ok entries, closed⟩ stack).2)) ∧
      ∀ (names : List CString) (count : Nat), count ≤ names.length →
        ∃ s, sortNames names count = s ++ names.drop count ∧ s.Perm (names.take count) ∧
          Ordered s := by
  refine ⟨?_, fun names count hc => sortNames_spec names count hc⟩
  unfold loadServices
  rcases collectNames_perm hperm with ⟨h, h'⟩ | ⟨names, names', h, h', rfl, hnames⟩
  · simp [h, h']
  simp only [h, h']
  by_cases hclosed : closed = 0
  swap
  · simp [hclosed]
  simp only [hclosed, ne_eq, not_true_eq_false, if_false]
  obtain ⟨hp, hordered⟩ := sortNames_all (entries.filter IsServiceFile)
  obtain ⟨hp', hordered'⟩ := sortNames_all names'
  have hsorted := hordered.eq_of_perm hordered' (hp.trans (hnames.trans hp'.symm))
  obtain ⟨hsame, hloads⟩ := loadEach_eq files directory stack stack'
    (sortNames (entries.filter IsServiceFile) (entries.filter IsServiceFile).length) []
  rw [← hsorted, ← hsame]
  refine ⟨rfl, fun hzero => ⟨rfl, _, hp, ?_, ?_⟩⟩
  · exact hordered.strict (hp.nodup_iff.2 (hnodup.filter _))
  · obtain ⟨loaded, hloaded, hall⟩ := hloads hzero
    rw [hloaded, List.nil_append]
    exact hall.imp fun _ _ h => ⟨loads_of_serviceOf h, serviceOf_name h⟩

def twoServices : List CString :=
  [⟨ascii "b.service", by decide +kernel⟩, ⟨ascii "a.service", by decide +kernel⟩]

def execFile : CString → Opening := fun _ => { opened := .ok ⟨ascii "exec=/bin/sh", []⟩ }

theorem loadServices_order_two :
    ∃ services, loadServices execFile .empty ⟨.ok twoServices, 0⟩ (fun _ => clearStack) = (0, services) ∧
      loadServices execFile .empty ⟨.ok twoServices.reverse, 0⟩ (fun _ => clearStack) = (0, services) ∧
      services.map (fun s => s.name.bytes) = [ascii "a", ascii "b"] := by
  obtain ⟨⟨hresult, hservices⟩, -⟩ := loadServices_order execFile .empty twoServices twoServices.reverse 0
    (fun _ => clearStack) (fun _ => clearStack) (List.reverse_perm _).symm (by decide +kernel)
  have hzero : (loadServices execFile .empty ⟨.ok twoServices, 0⟩ fun _ => clearStack).1 = 0 := by decide +kernel
  have hnames : (loadServices execFile .empty ⟨.ok twoServices, 0⟩ fun _ => clearStack).2.map
      (fun s => s.name.bytes) = [ascii "a", ascii "b"] := by decide +kernel
  obtain ⟨hsame, -⟩ := hservices hzero
  exact ⟨_, Prod.ext hzero rfl, Prod.ext (hresult.symm.trans hzero) hsame.symm, hnames⟩

end Pablo
end NarcOs
