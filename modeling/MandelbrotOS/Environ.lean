import Mathlib.Data.List.TakeWhile
import MandelbrotOS.ArgStack
import MandelbrotOS.Runs

/-! The environment of a program, `libc/src/stdlib.c`. `environ` is meant to hold a map
from names to values as an array of `name=value` strings closed by a NULL. A string that
replaces another is put together in memory that nobody cleared, and a string that is
added takes the place of the NULL, so the map is kept only while the names stay the ones
the program was started with. -/
namespace MandelbrotOS.Environ
open ArgStack Runs

/-! ## Strings -/

/-- `'='`. -/
def equals : BitVec 8 := 0x3d#8

/-- The byte at an index, up to the terminating `NUL`. -/
def byteAt (string : CString) (index : Nat) : BitVec 8 := string.bytes.getD index 0

/-- The loop of `strncmp`, which has counted the first byte already. -/
def compareLoop : List (BitVec 8) → List (BitVec 8) → Nat → Int
  | l :: ls, r :: rs, n + 1 => if l = r then compareLoop ls rs n else l.toNat - r.toNat
  | ls, rs, _ => (ls.headD 0).toNat - (rs.headD 0).toNat

def strncmp (l r : CString) (n : Nat) : Int :=
  if n = 0 then 0 else compareLoop l.bytes r.bytes (n - 1)

/-- `strchr` for a character other than `NUL`, as an offset. -/
def strchr (string : CString) (c : BitVec 8) : Option Nat := string.bytes.findIdx? (· = c)

/-- The second loop of `strcat`; `none` is a store behind the block. -/
def copyOver : List (BitVec 8) → List (BitVec 8) → Option (List (BitVec 8))
  | [], dest => some dest
  | _ :: _, [] => none
  | byte :: src, _ :: dest => (copyOver src dest).map (byte :: ·)

/-- `strcat` to the string in a block of memory; `none` is an access behind the block. -/
def strcat : List (BitVec 8) → CString → Option (List (BitVec 8))
  | [], _ => none
  | byte :: dest, src =>
    if byte = 0 then copyOver (src.bytes ++ [0]) (byte :: dest)
    else (strcat dest src).map (byte :: ·)

/-- The string at the start of a block. -/
def stringAt (block : List (BitVec 8)) : CString where
  bytes := block.takeWhile (· ≠ 0)
  noNul byte member := by simpa using List.mem_takeWhile_imp member

/-- The string that starts at an offset of another. -/
def suffix (string : CString) (offset : Nat) : CString where
  bytes := string.bytes.drop offset
  noNul byte member := string.noNul byte (List.mem_of_mem_drop member)

/-! ## The array -/

/-- The cells of the allocation `environ` points to. -/
abbrev Cells := List (Option CString)

/-- `for (char **e = environ; *e; e++)` with the test that all three functions make;
`none` is a read behind the allocation. -/
def scan (name : CString) (l : Nat) : Cells → Option (Option Nat)
  | [] => none
  | none :: _ => some none
  | some entry :: rest =>
    if strncmp name entry l = 0 ∧ byteAt entry l = equals then some (some 0)
    else (scan name l rest).map (Option.map (· + 1))

/-- The loop under its `if (environ && !name[l] && l)`. -/
def search (environ : Option Cells) (name : CString) (l : Nat) : Option (Option Nat) :=
  match environ with
  | none => some none
  | some cells => if byteAt name l = 0 ∧ l ≠ 0 then scan name l cells else some none

def getenv (environ : Option Cells) (name : CString) : Option (Option CString) :=
  (search environ name (strlen name)).map fun found => found.bind fun e =>
    ((environ.getD [])[e]?.join).map fun entry => suffix entry (strlen name + 1)

/-- `while (environ[env_len]) env_len++`. -/
def envLen : Cells → Option Nat
  | [] => none
  | none :: _ => some 0
  | some _ :: rest => (envLen rest).map (· + 1)

/-- The end of `setenv` and `putenv`: the array is reallocated to `env_len + 1` cells,
which is never more than it had, and the last one overwritten. -/
def append (environ : Option Cells) (string : CString) : Option (Option Cells) :=
  environ.bind fun cells => (envLen cells).map fun len =>
    some ((cells.take (len + 1)).set len (some string))

/-- `"="`. -/
def equalsString : CString := ⟨[equals], by simp [equals]⟩

/-- The block that `malloc` returned, with the three strings appended to what it held. -/
def newString (fresh : Nat → BitVec 8) (name value : CString) : Option CString :=
  let block := (List.range (strlen name + strlen value + 2)).map fresh
  (((strcat block name).bind (strcat · equalsString)).bind (strcat · value)).map stringAt

def setenv (environ : Option Cells) (fresh : Nat → BitVec 8) (name value : CString) (overwrite : Int) :
    Option (Option Cells) :=
  (search environ name (strlen name)).bind fun
    | some e =>
      if overwrite ≠ 0 then
        (newString fresh name value).map fun string => environ.map (·.set e (some string))
      else some environ
    | none => (newString fresh name value).bind (append environ)

/-- `putenv`. Without a `'='` the offset is that of a NULL pointer, and the read of
`name[l]` faults. -/
def putenv (environ : Option Cells) (name : CString) : Option (Option Cells) :=
  (strchr name equals).bind fun l => (search environ name l).bind fun
    | some e => some (environ.map (·.set e (some name)))
    | none => append environ name

/-- The loop of `__crt_load_environ`. -/
def loadFrom (cells : Cells) (i : Nat) : List CString → Cells
  | [] => cells
  | string :: rest => loadFrom (cells.set i (some string)) (i + 1) rest

/-- `__crt_load_environ`; `env` is NULL or an array of strings closed by a NULL. -/
def crtLoadEnviron (env : Option (List CString)) : Option Cells :=
  let strings := env.getD []
  some (loadFrom (List.replicate (strings.length + 1) none) 0 strings)

/-! ## The map it is meant to be -/

theorem CString.ext_bytes {one two : CString} (same : one.bytes = two.bytes) : one = two := by
  cases one
  cases two
  cases same
  rfl

instance : DecidableEq CString := fun one two =>
  decidable_of_iff (one.bytes = two.bytes) ⟨CString.ext_bytes, congrArg _⟩

/-- A name that may be set. -/
structure Name where
  string : CString
  nonempty : string.bytes ≠ []
  noEquals : equals ∉ string.bytes
  deriving DecidableEq

/-- Two strings as one. -/
def cat (one two : CString) : CString where
  bytes := one.bytes ++ two.bytes
  noNul byte member := (List.mem_append.mp member).elim (one.noNul byte) (two.noNul byte)

/-- `name=value`. -/
def entry (name : Name) (value : CString) : CString := cat name.string (cat equalsString value)

/-- What stands before the first `'='` of a string. -/
def nameIn (string : CString) : Option (List (BitVec 8)) := (strchr string equals).map string.bytes.take

/-- The string sets this name. -/
def Sets (name : Name) (string : CString) : Prop := nameIn string = some name.string.bytes

instance (name : Name) (string : CString) : Decidable (Sets name string) :=
  inferInstanceAs (Decidable (_ = _))

abbrev Environment := Name → Option CString

/-- The values that strings set, the first for a name that several of them set. -/
def environmentOf (strings : List CString) : Environment := fun name =>
  strings.findSome? fun string =>
    if Sets name string then some (suffix string (strlen name.string + 1)) else none

/-- No name is set twice. -/
def Distinct (strings : List CString) : Prop := (strings.filterMap nameIn).Nodup

/-- An array of strings that a NULL closes, and the rest of its allocation. -/
def array (strings : List CString) (rest : Cells) : Cells := strings.map some ++ none :: rest

/-- `setenv`, with what `malloc` finds in the block it returns, or `putenv` of a string
`name=value`. -/
inductive Call where
  | setenv (fresh : Nat → BitVec 8) (name : Name) (value : CString) (overwrite : Int)
  | putenv (name : Name) (value : CString)

/-- The map after a call. -/
def updated (environment : Environment) : Call → Environment
  | .setenv _ name value overwrite =>
    if overwrite = 0 ∧ (environment name).isSome then environment
    else Function.update environment name (some value)
  | .putenv name value => Function.update environment name (some value)

/-- The array, and the map that the calls so far have set. -/
structure State where
  environ : Option Cells
  environment : Environment

def step (s : State) (call : Call) : Option State :=
  let after := match call with
    | .setenv fresh name value overwrite => setenv s.environ fresh name.string value overwrite
    | .putenv name value => putenv s.environ (entry name value)
  after.map fun environ => ⟨environ, updated s.environment call⟩

def start (env : Option (List CString)) : State := ⟨crtLoadEnviron env, environmentOf (env.getD [])⟩

/-- The array is closed inside its allocation, sets no name twice and answers for every
name as the map does. -/
structure Faithful (s : State) : Prop where
  closed : ∃ strings rest, s.environ = some (array strings rest) ∧ Distinct strings
  answers : ∀ name : Name, getenv s.environ name.string = some (s.environment name)

/-- The name is set already, and the old value stays or the block starts with a zero. -/
def Replaces (s : State) : Call → Prop
  | .setenv fresh name _ overwrite =>
    (s.environment name).isSome ∧ (overwrite = 0 ∨ fresh 0 = 0)
  | .putenv _ _ => False

instance (s : State) (call : Call) : Decidable (Replaces s call) :=
  match call with
  | .setenv .. => inferInstanceAs (Decidable (_ ∧ (_ ∨ _)))
  | .putenv .. => inferInstanceAs (Decidable False)

/-! ## Appending strings to a block -/

theorem copyOver_eq (src dest : List (BitVec 8)) : copyOver src dest =
    if src.length ≤ dest.length then some (src ++ dest.drop src.length) else none := by
  induction src generalizing dest with
  | nil => simp [copyOver]
  | cons byte src ih =>
    cases dest with
    | nil => simp [copyOver]
    | cons old dest =>
      rw [copyOver, ih]
      simp_all

theorem strcat_eq (front src : CString) (rest : List (BitVec 8)) : strcat (front.bytes ++ 0 :: rest) src =
    if strlen src ≤ rest.length then some ((cat front src).bytes ++ 0 :: rest.drop (strlen src)) else none := by
  obtain ⟨front, noNul⟩ := front
  induction front with
  | nil => by_cases fits : src.bytes.length ≤ rest.length <;> simp [strcat, copyOver_eq, cat, strlen, fits]
  | cons byte front ih =>
    rw [List.cons_append, strcat, if_neg (noNul byte List.mem_cons_self),
      ih fun byte member => noNul byte (List.mem_cons_of_mem _ member)]
    split <;> rfl

theorem strcat_open (src : CString) (unclosed : 0 ∉ block) : strcat block src = none := by
  induction block with
  | nil => rfl
  | cons byte block ih =>
    simp_all [strcat, Ne.symm]

theorem stringAt_append (string : CString) (rest : List (BitVec 8)) :
    stringAt (string.bytes ++ 0 :: rest) = string := by
  apply CString.ext_bytes
  change List.takeWhile _ _ = _
  rw [List.takeWhile_append_of_pos (by simpa using string.noNul)]
  simp

theorem newString_eq (fresh : Nat → BitVec 8) (name value : CString) : newString fresh name value =
    if fresh 0 = 0 then some (cat name (cat equalsString value)) else none := by
  generalize made : (List.range (strlen name + strlen value + 2)).map fresh = block
  have size := congrArg List.length made
  rw [List.length_map, List.length_range] at size
  have head : block.head? = some (fresh 0) := by
    rw [← made, List.range_succ_eq_map]
    rfl
  simp only [newString, made]
  by_cases closed : 0 ∈ block
  · obtain ⟨front, rest, rfl, noNul⟩ := List.eq_append_cons_of_mem closed
    obtain ⟨front, rfl⟩ : ∃ string : CString, string.bytes = front :=
      ⟨⟨front, fun byte member zero => noNul (zero ▸ member)⟩, rfl⟩
    have one : strlen equalsString = 1 := rfl
    rw [List.length_append, List.length_cons] at size
    by_cases empty : front.bytes = []
    · rw [empty, List.length_nil] at size
      have zero : fresh 0 = 0 := by simpa [empty] using head.symm
      rw [strcat_eq, if_pos (by omega), Option.bind_some, strcat_eq, if_pos (by rw [List.length_drop]; omega),
        Option.bind_some, strcat_eq, if_pos (by simp only [List.length_drop]; omega), Option.map_some,
        stringAt_append, if_pos zero]
      simp_all [cat]
    · have some := List.length_pos_iff.mpr empty
      have nonzero : fresh 0 ≠ 0 := by
        obtain ⟨byte, rest', split⟩ := List.exists_cons_of_ne_nil empty
        grind
      rw [if_neg nonzero, Option.map_eq_none_iff, strcat_eq]
      split
      next =>
        rw [Option.bind_some, strcat_eq]
        split
        next more =>
          rw [List.length_drop] at more
          rw [Option.bind_some, strcat_eq, if_neg (by simp only [List.length_drop]; omega)]
        next => rfl
      next => rfl
  · have nonzero : fresh 0 ≠ 0 := fun zero => closed (zero ▸ List.mem_of_head? head)
    rw [strcat_open name closed, if_neg nonzero]
    rfl

/-! ## Searching the array -/

theorem difference_zero (l r : BitVec 8) : (l.toNat : Int) - r.toNat = 0 ↔ l = r := by
  rw [Int.sub_eq_zero, Int.natCast_inj]
  exact BitVec.toNat_inj

theorem compareLoop_zero (noNul : ∀ byte ∈ name, byte ≠ (0 : BitVec 8)) (size : name.length = n + 1) :
    compareLoop name string n = 0 ↔ name <+: string := by
  induction n generalizing name string with
  | zero =>
    obtain ⟨l, rfl⟩ := List.length_eq_one_iff.mp size
    have nonzero : l ≠ 0 := noNul l List.mem_cons_self
    cases string with
    | nil => exact (difference_zero l 0).trans (by simpa using nonzero)
    | cons r rs => simp [compareLoop, difference_zero]
  | succ n ih =>
    obtain ⟨l, ls, rfl⟩ := List.exists_cons_of_length_eq_add_one size
    have nonzero : l ≠ 0 := noNul l List.mem_cons_self
    cases string with
    | nil => exact (difference_zero l 0).trans (by simpa using nonzero)
    | cons r rs =>
      have later := @ih ls rs (fun byte member => noNul byte (List.mem_cons_of_mem l member)) (Nat.succ.inj size)
      by_cases same : l = r
      · rw [compareLoop, if_pos same, later, List.cons_prefix_cons, and_iff_right same]
      · rw [compareLoop, if_neg same, difference_zero, List.cons_prefix_cons]
        simp [same]

theorem byteAt_append {string : CString} (split : string.bytes = front ++ rest) :
    byteAt string front.length = rest.headD 0 := by
  rw [byteAt, split, List.getD_eq_getElem?_getD, List.getElem?_append_right (Nat.le_refl _), Nat.sub_self]
  cases rest <;> rfl

theorem strchr_of_split (name : Name) {string : CString} (split : string.bytes = name.string.bytes ++ equals :: rest) :
    strchr string equals = some (strlen name.string) := by
  have passed : name.string.bytes.findIdx? (· = equals) = none := by
    rw [List.findIdx?_eq_none_iff]
    intro byte member
    simpa using ne_of_mem_of_not_mem member name.noEquals
  rw [strchr, split, List.findIdx?_append, passed, List.findIdx?_cons, if_pos (decide_eq_true rfl)]
  simp [strlen]

theorem sets_iff (name : Name) (string : CString) :
    Sets name string ↔ ∃ rest, string.bytes = name.string.bytes ++ equals :: rest := by
  constructor
  · intro sets
    obtain ⟨l, found, taken⟩ := Option.map_eq_some_iff.mp sets
    obtain ⟨inside, here, _⟩ := List.findIdx?_eq_some_iff_getElem.mp found
    refine ⟨string.bytes.drop (l + 1), ?_⟩
    rw [← taken, ← of_decide_eq_true here, List.getElem_cons_drop, List.take_append_drop]
  · grind [Sets, nameIn, strchr_of_split, strlen]

theorem test_iff (name : Name) (string : CString) :
    (strncmp name.string string (strlen name.string) = 0 ∧
      byteAt string (strlen name.string) = equals) ↔ Sets name string := by
  have long : name.string.bytes.length ≠ 0 := fun none => name.nonempty (List.length_eq_zero_iff.mp none)
  rw [strncmp, strlen, if_neg long, compareLoop_zero name.string.noNul (by omega), sets_iff]
  constructor
  · rintro ⟨⟨rest, split⟩, next⟩
    rw [byteAt_append split.symm] at next
    cases rest with
    | nil => simp [equals] at next
    | cons byte rest => exact ⟨rest, by rw [← split, ← next]; rfl⟩
  · simp_all [byteAt_append]

theorem nameIn_entry (name : Name) (value : CString) : nameIn (entry name value) = some name.string.bytes :=
  (sets_iff name _).mpr ⟨value.bytes, rfl⟩

theorem search_array (name : Name) (strings : List CString) (rest : Cells) :
    search (some (array strings rest)) name.string (strlen name.string) =
      some (strings.findIdx? (Sets name ·)) := by
  have ends : byteAt name.string (strlen name.string) = 0 := byteAt_append (List.append_nil _).symm
  have long : strlen name.string ≠ 0 := fun none => name.nonempty (List.length_eq_zero_iff.mp none)
  rw [search, if_pos ⟨ends, long⟩]
  induction strings with
  | nil => rfl
  | cons string strings ih =>
    rw [array, List.map_cons, List.cons_append, scan, List.findIdx?_cons]
    by_cases sets : Sets name string
    · simp_all [test_iff]
    · rw [if_neg (fun test => sets ((test_iff name string).mp test)), if_neg (by simpa using sets)]
      exact congrArg (Option.map (Option.map (· + 1))) ih

theorem environmentOf_eq (strings : List CString) (name : Name) : environmentOf strings name =
    (strings.findIdx? (Sets name ·)).bind fun e =>
      strings[e]?.map fun string => suffix string (strlen name.string + 1) := by
  induction strings with
  | nil => rfl
  | cons string strings ih =>
    rw [environmentOf, List.findSome?_cons, List.findIdx?_cons]
    by_cases sets : Sets name string
    · simp_all
    · rw [if_neg sets, if_neg (by simpa using sets)]
      refine Eq.trans ih ?_
      cases strings.findIdx? (Sets name ·) <;> simp

theorem getenv_array (name : Name) (strings : List CString) (rest : Cells) :
    getenv (some (array strings rest)) name.string = some (environmentOf strings name) := by
  rw [getenv, search_array, environmentOf_eq, Option.map_some]
  cases found : strings.findIdx? (Sets name ·) with
  | none => rfl
  | some e =>
    grind [List.findIdx?_eq_some_iff_getElem, array]

theorem isSome_environmentOf (strings : List CString) (name : Name) :
    (environmentOf strings name).isSome = (strings.findIdx? (Sets name ·)).isSome := by
  rw [environmentOf_eq]
  cases found : strings.findIdx? (Sets name ·) with
  | none => rfl
  | some e =>
    grind [List.findIdx?_eq_some_iff_getElem]

/-! ## Replacing an entry -/

theorem map_set_same {f : CString → β} {strings : List CString} (inside : e < strings.length)
    (same : f string = f strings[e]) : (strings.set e string).map f = strings.map f := by
  apply List.ext_getElem
  · simp
  · intro k _ _
    by_cases here : e = k <;> simp_all

theorem names_set {strings : List CString} (found : strings.findIdx? (Sets name ·) = some e) (value : CString) :
    (strings.set e (entry name value)).map nameIn = strings.map nameIn := by
  obtain ⟨inside, sets, _⟩ := List.findIdx?_eq_some_iff_getElem.mp found
  exact map_set_same inside ((nameIn_entry name value).trans (of_decide_eq_true sets).symm)

theorem distinct_set {strings : List CString} (distinct : Distinct strings)
    (found : strings.findIdx? (Sets name ·) = some e) (value : CString) :
    Distinct (strings.set e (entry name value)) := by
  have through (list : List CString) : list.filterMap nameIn = (list.map nameIn).filterMap id := by
    rw [List.filterMap_map, Function.id_comp]
  grind [Distinct, names_set]

theorem sets_unique (one : Sets name string) (two : Sets other string) : name = other := by
  have same : name.string = other.string := CString.ext_bytes (Option.some.inj (one.symm.trans two))
  cases name
  cases other
  cases same
  rfl

theorem environmentOf_set {strings : List CString}
    (found : strings.findIdx? (Sets name ·) = some e) (value : CString) :
    environmentOf (strings.set e (entry name value)) =
      Function.update (environmentOf strings) name (some value) := by
  have through (list : List CString) (other : Name) : list.findIdx? (Sets other ·) =
      (list.map nameIn).findIdx? (· = some other.string.bytes) := by
    rw [List.findIdx?_map]
    rfl
  obtain ⟨inside, sets, _⟩ := List.findIdx?_eq_some_iff_getElem.mp found
  funext other
  rw [environmentOf_eq, through, names_set found, ← through]
  by_cases same : other = name
  · subst same
    have behind : suffix (entry other value) (strlen other.string + 1) = value :=
      CString.ext_bytes (by simp [suffix, entry, cat, equalsString, strlen])
    simp [found, inside, behind]
  · rw [Function.update_of_ne same, environmentOf_eq]
    cases elsewhere : strings.findIdx? (Sets other ·) with
    | none => rfl
    | some k =>
      obtain ⟨_, also, _⟩ := List.findIdx?_eq_some_iff_getElem.mp elsewhere
      have away : e ≠ k := by
        rintro rfl
        exact same (sets_unique (of_decide_eq_true also) (of_decide_eq_true sets))
      simp_all

/-! ## Adding an entry -/

theorem envLen_array (strings : List CString) (rest : Cells) : envLen (array strings rest) = some strings.length := by
  induction strings with
  | nil => rfl
  | cons string strings ih => exact congrArg (Option.map (· + 1)) ih

theorem append_opens (appended : append (some (array strings rest)) string = some environ) :
    ¬ Faithful ⟨environ, environment⟩ := by
  rintro ⟨⟨after, more, held, _⟩, _⟩
  rw [append, Option.bind_some, envLen_array, Option.map_some] at appended
  cases appended
  have stays : none ∈ ((array strings rest).take (strings.length + 1)).set strings.length (some string) := by
    rw [Option.some.inj held]
    simp [array]
  have inside : none ∈ (strings.map some).take (strings.length + 1) := by
    simpa [array, List.take_append] using stays
  simpa using List.mem_of_mem_take inside

theorem putenv_eq (environ : Option Cells) (name : Name) (value : CString) :
    putenv environ (entry name value) = append environ (entry name value) := by
  have split : (entry name value).bytes = name.string.bytes ++ equals :: value.bytes := rfl
  have byte : byteAt (entry name value) (strlen name.string) = equals := byteAt_append split
  rw [putenv, strchr_of_split name split, Option.bind_some]
  cases environ with
  | none => rfl
  | some cells => rw [search, if_neg (by simp [byte, equals]), Option.bind_some]

/-! ## Runs -/

theorem loadFrom_eq (rest : List CString) (done : Cells) :
    loadFrom (done ++ List.replicate (rest.length + 1) none) done.length rest = done ++ array rest [] := by
  induction rest generalizing done with
  | nil => rfl
  | cons string rest ih =>
    have stored := ih (done ++ [some string])
    rw [List.length_append, List.length_singleton, List.append_assoc] at stored
    rw [loadFrom, List.length_cons, List.set_append_right _ _ (Nat.le_refl _), Nat.sub_self, List.replicate_succ,
      List.set_cons_zero]
    exact stored.trans (List.append_assoc ..)

theorem start_faithful {env : Option (List CString)} (distinct : Distinct (env.getD [])) : Faithful (start env) := by
  have loaded : crtLoadEnviron env = some (array (env.getD []) []) := congrArg some (loadFrom_eq (env.getD []) [])
  refine ⟨⟨_, _, loaded, distinct⟩, fun name => ?_⟩
  rw [start, loaded, getenv_array]

theorem faithful_map (answers : ∀ name : Name, getenv (some (array strings rest)) name.string = some (environment name)) :
    environment = environmentOf strings := by
  funext name
  exact Option.some.inj ((answers name).symm.trans (getenv_array name strings rest))

theorem replaces_kept {s : State} (faithful : Faithful s) (replaces : Replaces s call) :
    ∃ next, step s call = some next ∧ Faithful next := by
  obtain ⟨environ, environment⟩ := s
  obtain ⟨⟨strings, rest, rfl, distinct⟩, answers⟩ := faithful
  cases call with
  | putenv name value => exact replaces.elim
  | setenv fresh name value overwrite =>
    obtain ⟨isSet, fits⟩ := replaces
    obtain rfl := faithful_map answers
    obtain ⟨e, found⟩ := Option.isSome_iff_exists.mp ((isSome_environmentOf _ name).symm.trans isSet)
    simp only [step, setenv, search_array, found, Option.bind_some]
    by_cases keep : overwrite = 0
    · rw [if_neg (by simpa using keep), Option.map_some, updated, if_pos ⟨keep, isSet⟩]
      exact ⟨_, rfl, ⟨_, _, rfl, distinct⟩, answers⟩
    · rw [if_pos keep, newString_eq, if_pos (fits.resolve_left keep), updated, if_neg (fun both => keep both.1)]
      obtain ⟨inside, _⟩ := List.findIdx?_eq_some_iff_getElem.mp found
      have replaced : (array strings rest).set e (some (entry name value)) =
          array (strings.set e (entry name value)) rest := by
        simp_all [array]
      refine ⟨_, rfl, ⟨_, rest, congrArg some replaced, distinct_set distinct found value⟩, fun other => ?_⟩
      exact (congrArg (getenv · other.string) (congrArg some replaced)).trans
        ((getenv_array other _ rest).trans (by rw [environmentOf_set found]))

theorem others_break {s next : State} (faithful : Faithful s) (other : ¬ Replaces s call)
    (stepped : step s call = some next) : ¬ Faithful next := by
  obtain ⟨environ, environment⟩ := s
  obtain ⟨⟨strings, rest, rfl, distinct⟩, answers⟩ := faithful
  obtain ⟨environ, ran, rfl⟩ := Option.map_eq_some_iff.mp stepped
  cases call with
  | putenv name value => exact append_opens ((putenv_eq _ name value).symm.trans ran)
  | setenv fresh name value overwrite =>
    obtain rfl := faithful_map answers
    simp only [setenv, search_array, Option.bind_some] at ran
    have known := isSome_environmentOf strings name
    cases found : strings.findIdx? (Sets name ·) with
    | none =>
      grind [Option.bind_eq_some_iff, append_opens]
    | some e =>
      rw [found] at known
      have missed := not_or.mp fun fits => other ⟨known, fits⟩
      simp_all [newString_eq]

/-- **When the environment is a map.** Every call returns and leaves an array that is
the map exactly when each one sets a name that is set already, and keeps its value or is
given memory that starts with a zero. -/
theorem environment_is_map_iff {env : Option (List CString)} (distinct : Distinct (env.getD []))
    (calls : List Call) :
    Served step Faithful (start env) calls ↔ Along step Replaces (start env) calls :=
  served_iff_along (fun _ faithful => faithful)
    (fun _ _ faithful (_ : True) replaces => replaces_kept faithful replaces)
    (fun _ _ _ faithful _ other stepped => others_break faithful other stepped)
    (start_faithful distinct) (along_always (fun _ _ => trivial) _ _)

/-- `A`. -/
def nameA : Name := ⟨⟨[0x41], by decide⟩, by decide, by decide⟩

/-- A value of one digit. -/
def digit : Fin 10 → CString := fun n => ⟨[0x30 + BitVec.ofNat 8 n], by revert n; decide⟩

theorem value_replaced :
    Served step Faithful (start (some [entry nameA (digit 1)]))
      [.setenv (fun _ => 0) nameA (digit 2) 1, .setenv (fun _ => 7) nameA (digit 3) 0] :=
  (environment_is_map_iff (by rw [Distinct]; decide) _).mpr (by decide)

/-- `setenv("A", "1", 1)`, in cleared memory. -/
def firstName : Call := .setenv (fun _ => 0) nameA (digit 1) 1

/-- The first name of an empty environment leaves one cell without a NULL, and the
next search reads behind it. -/
theorem new_name_opens :
    ∃ after, step (start none) firstName = some after ∧
      after.environ = some [some (entry nameA (digit 1))] ∧
      getenv after.environ (digit 2) = none ∧ ¬ Faithful after := by
  have cell : setenv (start none).environ (fun _ => 0) nameA.string (digit 1) 1 =
      some (some [some (entry nameA (digit 1))]) := by decide
  refine ⟨⟨_, updated (start none).environment firstName⟩,
    congrArg (Option.map (State.mk · (updated (start none).environment firstName))) cell, rfl, by decide, ?_⟩
  rintro ⟨⟨strings, rest, held, _⟩, _⟩
  have stays : none ∈ array strings rest := by simp [array]
  rw [← Option.some.inj held] at stays
  simp at stays

end MandelbrotOS.Environ
