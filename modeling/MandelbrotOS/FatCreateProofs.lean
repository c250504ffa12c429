import MandelbrotOS.FatLongNames

/-! Making an entry and finding it again. The index of the entry goes to the table
as if it were a cluster, so `fat_create` keeps the table only where the byte of
that number is the mark already; `fat_mkdir` does the same for the two entries of
the new directory, after it has followed the mark of the new cluster, which is
the number of a cluster too. -/
namespace MandelbrotOS.FatCreateProofs
open ByteMemory Fat FatAlloc FatChains FatCreate FatFiles FatLongNames FatLookup FatNames FatPaths FatSlots Walks
open Blocks (gather)

/-! ### What is asked of the calls -/

/-- A handle is returned, and the path then leads to a cluster that was free and
is no more; no other entry of the table has changed. -/
def Makes (v : Volume) (path : Path) (run : Option (Option Handle × Volume)) : Prop :=
  ∃ file v' lookup, run = some (some file, v') ∧ fatFind v' path = some lookup ∧
    Free v lookup.ret ∧ ¬ Free v' lookup.ret ∧ ∀ x < entries v.boot, x ≠ lookup.ret → SameTable v v' x

section
variable {v w : Volume} {directories : List Nat} {depth : Nat → Nat} {parent cluster index : Nat}
  {clusters : List Nat} {image : Image} {parents : List Component} {name : FileName} {path stale : Path}
  {now : Datetime}

/-! ### Before and after the entry is made -/

theorem spell_nonzero (parents : List Component) : ∀ char ∈ spell parents, char ≠ 0 := by
  intro char member
  obtain ⟨c, -, inside⟩ := List.mem_flatMap.mp member
  obtain rfl | text := List.mem_cons.mp inside
  · decide
  · obtain plain | tail := List.mem_append.mp text
    · exact (c.namePlain char plain).1
    · split at tail
      · cases tail
      · obtain rfl | ext := List.mem_cons.mp tail
        · decide
        · exact (c.extPlain char ext).1

theorem findOrMake_unlisted (spot : Spot v directories depth parent clusters cluster)
    (site : Site v path parents name parent) (unlisted : Unlisted v clusters name)
    (make : Nat → Int → Option Volume) :
    findOrMake v path make = (make parent ((spell parents).length + 1)).bind fun w =>
      (fatOpen w path).map fun file => (file, w) := by
  have missing := ((altered_refl spot.free clusters).lookup spot site fun i few alive =>
    (spot.plain i few alive).1).1 unlisted
  have slash := strrchr_reads site.reads (spell_nonzero parents) name.plain site.fits none
  rw [Int.zero_add] at slash
  simp only [findOrMake, missing, Option.bind_eq_bind, Option.bind_some, slash, ne_eq, not_true_eq_false,
    if_false]
  cases make parent ((spell parents).length + 1) with
  | none => rfl
  | some w =>
    simp only [Option.bind_some]
    cases fatOpen w path <;> rfl

theorem unlisted_of_makes (spot : Spot v directories depth parent clusters cluster)
    (site : Site v path parents name parent) (make : Nat → Int → Option Volume)
    (makes : Makes v path (findOrMake v path make)) : Unlisted v clusters name := by
  intro i few
  refine Bool.eq_false_iff.mpr fun here => ?_
  obtain ⟨file, v', lookup, ran, -, free, taken, -⟩ := makes
  obtain ⟨j, few', here', entry, found⟩ := ((altered_refl spot.free clusters).lookup spot site
    fun i few alive => (spot.plain i few alive).1).2 i few here
  have cluster := (spot.plain j few' (Bool.and_eq_true_iff.mp here').1).2
  grind [notFound, findOrMake, Option.bind_eq_some_iff]

/-! ### The new entry -/

theorem newEntry_name (now : Datetime) (ticks : Nat) (flags : BitVec 8) (cluster : Nat) (filename : Memory)
    (inside : k < 11) : newEntry now ticks flags cluster filename k = filename k := by
  rw [newEntry, copy, if_pos (by omega), Nat.sub_zero]

theorem newEntry_flags (now : Datetime) (ticks : Nat) (flags : BitVec 8) (cluster : Nat) (filename : Memory) :
    newEntry now ticks flags cluster filename 11 = flags := rfl

theorem newEntry_cluster (now : Datetime) (ticks : Nat) (flags : BitVec 8) (filename : Memory)
    (small : cluster < 2 ^ 32) : (newEntry now ticks flags cluster filename).clusterNo = cluster := by
  have bytes : ∀ k ∈ [20, 21, 26, 27], newEntry now ticks flags cluster filename k =
      setField (setField (fun _ => 0) 26 2 cluster) 20 2 (cluster / 2 ^ 16) k := by
    intro k member
    simp only [List.mem_cons, List.not_mem_nil, or_false] at member
    rcases member with rfl | rfl | rfl | rfl <;> rfl
  rw [DirEntry.clusterNo, bytes 20 (by decide), bytes 21 (by decide), bytes 26 (by decide),
    bytes 27 (by decide), toNat_append_byte, toNat_append_byte, toNat_append_byte]
  simp [setField, copy]
  omega

/-! ### Short names -/

/-- The name `fat_mkdir` stores. -/
def kept (name : FileName) : Memory := (encoding false false name.chars 0 blank).2.2

theorem short_reads (site : Site v path parents name parent) (short : name.long = false) (dots : Bool) :
    isLongFilename path (2 ^ 64) ((spell parents).length + 1) 0 = some false ∧
      ∃ stop, encodeName dots false path (2 ^ 64) ((spell parents).length + 1) 0 (fun _ => 0x20) =
        some (stop, (encoding dots false name.chars 0 blank).2) := by
  have fits := name.fits
  have nonzero : ∀ char ∈ name.chars, char ≠ 0 := fun char member => (name.plain char member).1
  have enough : name.chars.length < 2 ^ 64 := by omega
  have counted := isLongFilename_reads site.name_reads nonzero enough (Nat.zero_le 11)
  rw [Nat.zero_add, show decide _ = false from short] at counted
  exact ⟨counted, _, encodeName_reads site.name_reads nonzero enough dots false 0 blank⟩

section
variable (spot : Spot v directories depth parent clusters cluster) (site : Site v path parents name parent)
  (vacant : Vacant v clusters index) (short : name.long = false)
include spot site vacant short

theorem createNamed_short : createNamed v now path stale parent ((spell parents).length + 1) = (do
      let (fresh, w) := fatFindFreeClusterChain (marked v index) 1
      fatSetDirEntry w parent index (newEntry now (now.seconds % 2) 0 fresh name.sought)) := by
  obtain ⟨counted, stop, made⟩ := short_reads site short true
  simp only [createNamed, counted, Option.bind_eq_bind, Option.bind_some, Bool.false_eq_true, if_false, made,
    vacant.search spot]
  rfl

/-- The end of `fat_mkdir` for a short name: the entries of the new directory. -/
def dotEntries (w : Volume) (fresh : Nat) (dir : DirEntry) : Option Volume := do
  let (index, w) ← fatGetFreeDirEntryChain w fresh 1
  let w ← fatSetDirEntry w fresh index (copy dir 0 11 (dotName 1))
  let (index, w) ← fatGetFreeDirEntryChain w fresh 1
  fatSetDirEntry w fresh index (copy dir 0 11 (dotName 2))

theorem mkdirNamed_short : mkdirNamed v now path stale parent ((spell parents).length + 1) = (do
      let (fresh, w) := fatFindFreeClusterChain (marked v index) 1
      let dir := newEntry now (now.seconds % 2 * 100) 0x10 fresh (kept name)
      let w ← fatSetDirEntry w parent index dir
      dotEntries w fresh dir) := by
  obtain ⟨counted, stop, made⟩ := short_reads site short false
  simp only [mkdirNamed, counted, Option.bind_eq_bind, Option.bind_some, Bool.false_eq_true, if_false, made,
    vacant.search spot]
  rfl

end

theorem makes_found (altered : Altered v w clusters cluster image)
    (spot : Spot v directories depth parent clusters cluster) (linked : image.link = 0xf8)
    (found : fatFind w path = some ⟨cluster, parent, some place⟩) :
    Makes v path ((fatOpen w path).map fun file => (file, w)) := by
  obtain ⟨low, bound, -⟩ := spot.bounds
  have small := spot.sound.small
  have valid : cluster ≠ notFound := by
    rw [notFound]
    omega
  refine ⟨_, w, _, by rw [fatOpen, found]; exact congrArg _ (if_neg valid), found, spot.free, fun free => ?_,
    fun x few other => ?_⟩
  · have zero := free.2
    rw [altered.table cluster bound, if_pos rfl, linked] at zero
    cases zero
  · exact (altered.table x few).trans (if_neg other)

theorem makes_iff_bears (altered : Altered v w clusters cluster image)
    (spot : Spot v directories depth parent clusters cluster) (site : Site v path parents name parent)
    (unlisted : Unlisted v clusters name) (inside : index < slotCount v.boot clusters)
    (listing : image.listing = Function.update (slot v clusters) index entry) (linked : image.link = 0xf8)
    (short : entry 11 ≠ 0xf) (number : entry.clusterNo = cluster) :
    Makes v path ((fatOpen w path).map fun file => (file, w)) ↔ bears name entry = true := by
  have here : image.listing index = entry := by
    rw [listing, Function.update_self]
  have elsewhere (j : Nat) (other : j ≠ index) : image.listing j = slot v clusters j := by
    rw [listing, Function.update_of_ne other]
  have plain : ∀ i < slotCount v.boot clusters, live (image.listing i) = true → image.listing i 11 ≠ 0xf := by
    intro i few alive
    by_cases same : i = index
    · rwa [same, here]
    · rw [elsewhere i same] at alive ⊢
      exact (spot.plain i few alive).1
  obtain ⟨missing, found⟩ := altered.lookup spot site plain
  constructor
  · rintro ⟨file, v', lookup, ran, -⟩
    by_contra unread
    rw [fatOpen, missing] at ran
    · cases ran
    · intro i few
      by_cases same : i = index
      · grind
      · rw [elsewhere i same]
        exact unlisted i few
  · intro bearing
    obtain ⟨j, few, taken, stored, ran⟩ := found index inside (here.symm ▸ bearing)
    have same : j = index := by
      by_contra other
      rw [elsewhere j other, unlisted j few] at taken
      cases taken
    grind [makes_found]

/-! ### Names that are read back -/

theorem sameBytes_self (one other : Memory) (same : ∀ k < n, other k = one k) : sameBytes one other n = true := by
  simp_all [sameBytes]

theorem head_live (name : FileName) (dots tilde : Bool) (same : entry 0 =
    (encoding dots tilde name.chars 0 blank).2.2 0) : live entry = true ↔ name.chars.head? ≠ some 0xe5 := by
  obtain ⟨first, rest, shape, -, notDot⟩ := name.starts
  have some := (name.plain first (by rw [shape]; exact List.mem_cons_self)).1
  rw [live_iff, same, shape, encoding_first tilde dots rest notDot, List.head?_cons]
  constructor
  · intro alive deleted
    cases deleted
    exact alive (Or.inr rfl)
  · rintro kept (zero | deleted)
    · exact some (upperCase_zero first zero)
    · exact kept (congrArg _ ((upperCase_deleted first).mp deleted))

theorem bears_sought (now : Datetime) (ticks : Nat) (flags : BitVec 8) (cluster : Nat) (name : FileName) :
    bears name (newEntry now ticks flags cluster name.sought) = true ↔ name.chars.head? ≠ some 0xe5 := by
  have bytes : ∀ k < 11, newEntry now ticks flags cluster name.sought k = name.sought k := fun k inside =>
    newEntry_name now ticks flags cluster name.sought inside
  rw [bears, Bool.and_eq_true, head_live name true false (bytes 0 (by decide)),
    and_iff_left (sameBytes_self _ _ bytes)]

theorem bears_kept (now : Datetime) (ticks : Nat) (flags : BitVec 8) (cluster : Nat) (name : FileName) :
    bears name (newEntry now ticks flags cluster (kept name)) = true ↔
      name.chars.head? ≠ some 0xe5 ∧ ∀ char ∈ name.chars.take 11, char ≠ 0x2e := by
  have bytes : ∀ k < 11, newEntry now ticks flags cluster (kept name) k = kept name k := fun k inside =>
    newEntry_name now ticks flags cluster (kept name) inside
  rw [bears, Bool.and_eq_true, head_live name false false (bytes 0 (by decide))]
  refine and_congr_right fun _ => ⟨fun same char member dot => ?_, fun noDot => ?_⟩
  · obtain ⟨k, inside, stored⟩ := encoding_dot (Nat.zero_le 11) ⟨char, member, dot⟩ blank
    have equal := beq_iff_eq.mp (List.all_eq_true.mp same k (List.mem_range.mpr inside))
    rw [bytes k inside, kept, stored] at equal
    exact encoding_noDot name.chars blank (fun _ => show (0x20 : BitVec 8) ≠ 0x2e by decide) k equal
  · refine sameBytes_self _ _ fun k inside => ?_
    rw [bytes k inside, kept, encoding_eq (Nat.zero_le 11) noDot]
    rfl

/-! ### Marks stay -/

theorem low_iff (small : x < 2 ^ 28) : Low v x ↔ tableOf v.boot v.disk x % 256 = 0xf8 := by
  rw [tableOf, halfWord_mod, Low, entryAddress_eq v.boot small]
  exact BitVec.toNat_eq

/-- From one volume to the next the marks in the table stay. -/
structure Keeps (v w : Volume) : Prop where
  boot : w.boot = v.boot
  marks : ∀ x < entries v.boot, Low v x → Low w x

theorem Keeps.trans {u : Volume} (first : Keeps u v) (second : Keeps v w) : Keeps u w :=
  ⟨second.boot.trans first.boot, fun x inside low =>
    second.marks x (first.boot.symm ▸ inside) (first.marks x inside low)⟩

theorem keeps_marked (v : Volume) (x : Nat) : Keeps v (marked v x) := by
  refine ⟨rfl, fun y _ low => ?_⟩
  rw [Low, marked]
  dsimp only
  rw [Function.update_apply]
  split
  · rfl
  · exact low

theorem low_marked (v : Volume) (x : Nat) : Low (marked v x) x := by
  rw [Low, marked]
  exact Function.update_self _ _ _

theorem keeps_set (tables : 1 ≤ v.boot.tableCount) (small : entries v.boot ≤ 2 ^ 28)
    (set : fatSetDirEntry v directory i entry = some w) : Keeps v w := by
  have boot := fatSetDirEntry_boot set
  refine ⟨boot, fun x inside low => ?_⟩
  rw [Low, boot, fatSetDirEntry_tables (fun data here => ?_) set]
  · exact low
  · have before := entry_before_data tables (show x < 128 * v.boot.tableSize by rw [entries] at inside; omega)
      (by omega) here
    omega

theorem Keeps.low {u : Volume} (keeps : Keeps v w) (boot : v.boot = u.boot) (inside : x < entries u.boot)
    (low : Low v x) : Low w x := keeps.marks x (boot ▸ inside) low

theorem walked_of_search (found : fatGetFreeDirEntry v directory = some i) :
    ∃ listed, chain v (orRoot v.boot directory) = some listed := by
  grind [fatGetFreeDirEntry, readDirectory_eq, Option.bind_eq_some_iff]

theorem low_of_kept (sound : Sound v directories depth) (inside : index < entries v.boot)
    (other : ∃ x ≠ index, Free v x)
    (keeps : Keeps (marked (marked v index) (fatFindFreeCluster (marked v index))) w)
    (free : Free v ret) (same : ∀ x < entries v.boot, x ≠ ret → SameTable v w x) : Low v index := by
  have small := sound.proper.table
  have unchanged (x : Nat) (few : x < entries v.boot) (not : x ≠ ret) (low : Low w x) : Low v x := by
    rw [low_iff (by omega)] at low ⊢
    rwa [← same x few not]
  have lowIndex : Low w index := keeps.marks index inside ((keeps_marked _ _).marks index inside (low_marked v index))
  by_contra unmarked
  have here : index = ret := by
    grind
  subst here
  have table : tableOf (marked v index).boot (marked v index).disk = setLow (tableOf v.boot v.disk) index 0xffffff8 :=
    tableOf_change v.boot v.disk (by omega) 0xffffff8
  have searched := fatFindFreeCluster_eq (marked v index)
  rw [table] at searched
  obtain ⟨x, apart, x_in, x_free⟩ := other
  obtain ⟨few, zero, -⟩ | ⟨-, full⟩ := lowestFree_cases small (setLow (tableOf v.boot v.disk) index 0xffffff8)
  · rw [show lowestFree (entries v.boot) (setLow (tableOf v.boot v.disk) index 0xffffff8) =
      fatFindFreeCluster (marked v index) from searched.symm] at few zero
    have fresh : fatFindFreeCluster (marked v index) ≠ index := by
      grind [setLow_self]
    have low := unchanged _ few fresh (keeps.marks _ few (low_marked _ _))
    grind [low_iff, setLow_other]
  · grind [setLow_other]

/-! ### Files with short names -/

/-- Nothing in the directory is taken for the name, the name does not begin like
a deleted entry, and the mark for the index is in the table already. -/
structure CreateFits (v : Volume) (clusters : List Nat) (name : FileName) (index : Nat) : Prop where
  unlisted : Unlisted v clusters name
  head : name.chars.head? ≠ some 0xe5
  low : Low v index

section
variable (spot : Spot v directories depth parent clusters cluster) (site : Site v path parents name parent)
  (vacant : Vacant v clusters index) (short : name.long = false)
include spot site vacant short

theorem create_low (unlisted : Unlisted v clusters name) (low : Low v index) :
    Makes v path (fatCreate v now path stale) ↔ name.chars.head? ≠ some 0xe5 := by
  obtain ⟨searched, altered⟩ := (altered_refl spot.free clusters).mark spot rfl
  obtain ⟨set, altered⟩ := altered.store_listing spot vacant.inside
    (newEntry now (now.seconds % 2) 0 cluster name.sought)
  have ran : fatCreate v now path stale = _ := findOrMake_unlisted spot site unlisted _
  rw [createNamed_short spot site vacant short, marked_low low, searched] at ran
  dsimp only at ran
  rw [set, Option.bind_some] at ran
  rw [ran, makes_iff_bears altered spot site unlisted vacant.inside rfl rfl
    (by rw [newEntry_flags]; decide) (newEntry_cluster _ _ _ _ spot.number), bears_sought]

theorem create_short_iff : (CreateFits v clusters name index → Makes v path (fatCreate v now path stale)) ∧
      ((∃ x ≠ index, Free v x) → Makes v path (fatCreate v now path stale) → CreateFits v clusters name index) := by
  constructor
  · intro fits
    exact (create_low spot site vacant short fits.unlisted fits.low).mpr fits.head
  · intro other makes
    have unlisted := unlisted_of_makes spot site _ makes
    have low : Low v index := by
      obtain ⟨file, v', lookup, ran, -, free, -, same⟩ := makes
      rw [fatCreate, findOrMake_unlisted spot site unlisted, createNamed_short spot site vacant short,
        fatFindFreeClusterChain_one (v := marked v index) spot.sound.proper] at ran
      simp only [Option.bind_eq_some_iff, Option.map_eq_some_iff, Prod.mk.injEq] at ran
      obtain ⟨w, set, _, _, _, rfl⟩ := ran
      exact low_of_kept spot.sound (vacant.bound spot) other
        (keeps_set spot.sound.tables spot.sound.proper.table set) free same
    exact ⟨unlisted, (create_low spot site vacant short unlisted low).mp makes, low⟩

end

/-! ### The entries of a new directory -/

/-- The first two free places of a cluster. -/
structure Pair (v : Volume) (cluster one two : Nat) : Prop where
  first : Vacant v [cluster] one
  later : one < two
  inside : two < slotCount v.boot [cluster]
  free : live (slot v [cluster] two) = false
  between : ∀ j < two, j ≠ one → live (slot v [cluster] j) = true

/-- The chain that the mark of the new cluster leads to comes to an end without
it, and the marks for the two places are in the table, or are that of the new
cluster itself. -/
structure DotsFit (v : Volume) (cluster one two : Nat) : Prop where
  tail : ∃ tail, chain v 0xf8 = some tail ∧ cluster ∉ tail
  first : Low v one ∨ one = cluster
  second : Low v two ∨ two = cluster

theorem Pair.bounds (pair : Pair v cluster one two) (sound : Sound v directories depth) :
    one < entries v.boot ∧ two < entries v.boot := by
  have fits := (slotCount_spec v.boot [cluster]).mp pair.inside
  have width := sound.proper.clusters.2
  have large := sound.large
  have later := pair.later
  rw [List.length_singleton, Nat.one_mul, clusterBytes] at fits
  omega

theorem low_altered (altered : Altered v w clusters cluster image)
    (spot : Spot v directories depth parent clusters cluster) (linked : image.link = 0xf8)
    (inside : x < entries v.boot) : Low w x ↔ Low v x ∨ x = cluster := by
  have small := spot.sound.proper.table
  rw [low_iff (by omega), low_iff (by omega), altered.table x inside]
  grind

theorem dot_live (dir : DirEntry) (positive : 0 < dots) : live (copy dir 0 11 (dotName dots)) = true := by
  simp_all [copy, dotName, live]

section
variable (altered : Altered v w clusters cluster image)
  (spot : Spot v directories depth parent clusters cluster) (linked : image.link = 0xf8)
include altered spot linked

theorem dots_first (own : image.own = slot v [cluster]) (pair : Pair v cluster one two)
    (walked : chain v 0xf8 = some tail) (fresh : cluster ∉ tail) :
    fatGetFreeDirEntryChain w cluster 1 = some (one, marked w one) := by
  refine fatGetFreeDirEntryChain_one (altered.free_own spot linked walked fresh pair.first.inside ?_ ?_)
  · rw [own]
    exact pair.first.free
  · rw [own]
    exact pair.first.first

theorem dots_second (own : image.own = Function.update (slot v [cluster]) one entry) (alive : live entry = true)
    (pair : Pair v cluster one two) (walked : chain v 0xf8 = some tail) (fresh : cluster ∉ tail) :
    fatGetFreeDirEntryChain w cluster 1 = some (two, marked w two) := by
  have later := pair.later
  refine fatGetFreeDirEntryChain_one (altered.free_own spot linked walked fresh pair.inside ?_ fun j earlier => ?_)
  · rw [own, Function.update_of_ne (by omega)]
    exact pair.free
  · rw [own, Function.update_apply]
    split
    · exact alive
    · rename_i other
      exact pair.between j earlier other

theorem dots_run (own : image.own = slot v [cluster]) (pair : Pair v cluster one two) (fit : DotsFit v cluster one two)
    (dir : DirEntry) : ∃ w' own', dotEntries w cluster dir = some w' ∧
      Altered v w' clusters cluster { image with own := own' } := by
  obtain ⟨⟨tail, walked, fresh⟩, first, second⟩ := fit
  obtain ⟨bound, bound'⟩ := pair.bounds spot.sound
  have low := (low_altered altered spot linked bound).mpr first
  obtain ⟨set, altered₁⟩ := altered.store_own spot linked walked fresh pair.first.inside (copy dir 0 11 (dotName 1))
  have low₁ := (low_altered altered₁ spot linked bound').mpr second
  obtain ⟨set₁, altered₂⟩ := altered₁.store_own spot linked walked fresh pair.inside (copy dir 0 11 (dotName 2))
  refine ⟨_, _, ?_, altered₂⟩
  simp only [dotEntries, dots_first altered spot linked own pair walked fresh, marked_low low,
    Option.bind_eq_bind, Option.bind_some, set, dots_second altered₁ spot linked (by rw [own])
      (dot_live dir Nat.one_pos) pair walked fresh, marked_low low₁, set₁]

end

theorem dots_steps (tables : 1 ≤ w.boot.tableCount) (small : entries w.boot ≤ 2 ^ 28)
    (ran : dotEntries w fresh dir = some w') :
    ∃ i middle j, fatGetFreeDirEntry w fresh = some i ∧
      fatSetDirEntry (marked w i) fresh i (copy dir 0 11 (dotName 1)) = some middle ∧
      fatGetFreeDirEntry middle fresh = some j ∧ Keeps w w' ∧ ∀ x < entries w.boot, x = i ∨ x = j → Low w' x := by
  simp only [dotEntries, Option.bind_eq_bind, Option.bind_eq_some_iff, Prod.exists] at ran
  obtain ⟨i, w₁, search, middle, set, j, w₃, search₁, set₁⟩ := ran
  obtain ⟨found, rfl⟩ := search_of_chain search
  obtain ⟨found₁, rfl⟩ := search_of_chain search₁
  have keeps := keeps_set (v := marked w i) tables small set
  have boot : middle.boot = w.boot := keeps.boot
  have keeps₁ := keeps_set (v := marked middle j) (boot.symm ▸ tables) (boot.symm ▸ small) set₁
  have onward := keeps.trans ((keeps_marked middle j).trans keeps₁)
  refine ⟨i, middle, j, found, set, found₁, (keeps_marked w i).trans onward, fun x inside made => ?_⟩
  rcases made with rfl | rfl
  · exact onward.marks x inside (low_marked w x)
  · exact keeps₁.low (u := w) boot inside (low_marked middle x)

theorem dots_fit (altered : Altered v w clusters cluster image)
    (spot : Spot v directories depth parent clusters cluster) (linked : image.link = 0xf8)
    (own : image.own = slot v [cluster]) (pair : Pair v cluster one two)
    (ran : dotEntries w cluster dir = some w')
    (same : ∀ x < entries v.boot, x ≠ ret → SameTable v w' x) : DotsFit v cluster one two := by
  have small := spot.sound.proper.table
  have inside := spot.bounds.2.1
  have positive := spot.bounds.1
  obtain ⟨bound, bound'⟩ := pair.bounds spot.sound
  obtain ⟨i, middle, j, found, set, found₁, keeps, marks⟩ := dots_steps (altered.boot.symm ▸ spot.sound.tables)
    (altered.boot.symm ▸ small) ran
  rw [altered.boot] at marks
  have unchanged (x : Nat) (few : x < entries v.boot) (apart : x ≠ ret) (low : Low w' x) : Low v x := by
    rw [low_iff (by omega)] at low ⊢
    rwa [← same x few apart]
  -- the new cluster is marked, so it is the one that may change
  have asked : cluster = ret := by
    by_contra apart
    have low := unchanged cluster inside apart (keeps.low altered.boot inside
      ((low_altered altered spot linked inside).mpr (Or.inr rfl)))
    rw [low_iff (by omega), spot.free.2] at low
    cases low
  have fit (x : Nat) (few : x < entries v.boot) (low : Low w' x) : Low v x ∨ x = cluster := by
    grind
  obtain ⟨tail, walked, fresh⟩ : ∃ tail, chain v 0xf8 = some tail ∧ cluster ∉ tail := by
    obtain ⟨listed, walked⟩ := walked_of_search found
    rw [orRoot, if_neg (by omega)] at walked
    obtain ⟨tail, walked, fresh, -⟩ := (altered.chain_new spot linked).mp walked
    exact ⟨tail, walked, fresh⟩
  have here : i = one := by
    have same := (fatGetFreeDirEntryChain_one found).symm.trans
      (dots_first altered spot linked own pair walked fresh)
    exact congrArg Prod.fst (Option.some.inj same)
  subst here
  have first := fit i bound (marks i bound (Or.inl rfl))
  obtain ⟨stored₁, altered₁⟩ := altered.store_own spot linked walked fresh pair.first.inside
    (copy dir 0 11 (dotName 1))
  rw [marked_low ((low_altered altered spot linked bound).mpr first), stored₁] at set
  cases set
  have there : j = two := by
    have same := (fatGetFreeDirEntryChain_one found₁).symm.trans
      (dots_second altered₁ spot linked (by rw [own]) (dot_live dir Nat.one_pos) pair walked fresh)
    exact congrArg Prod.fst (Option.some.inj same)
  exact ⟨⟨tail, walked, fresh⟩, first, fit two bound' (marks two bound' (Or.inr there.symm))⟩

/-! ### Directories with short names -/

/-- What holds for `fat_create`, without a dot among the eleven characters that are
stored, and with the marks for the entries of the new directory. -/
structure MkdirFits (v : Volume) (clusters : List Nat) (name : FileName) (index cluster one two : Nat) :
    Prop extends CreateFits v clusters name index where
  noDot : ∀ char ∈ name.chars.take 11, char ≠ 0x2e
  dots : DotsFit v cluster one two

section
variable (spot : Spot v directories depth parent clusters cluster) (site : Site v path parents name parent)
  (vacant : Vacant v clusters index) (short : name.long = false) (pair : Pair v cluster one two)
include spot site vacant short pair

theorem mkdir_low (unlisted : Unlisted v clusters name) (low : Low v index) :
    (DotsFit v cluster one two → (Makes v path (fatMkdir v now path stale) ↔
      name.chars.head? ≠ some 0xe5 ∧ ∀ char ∈ name.chars.take 11, char ≠ 0x2e)) ∧
    (Makes v path (fatMkdir v now path stale) → DotsFit v cluster one two) := by
  obtain ⟨searched, altered⟩ := (altered_refl spot.free clusters).mark spot rfl
  obtain ⟨set, altered⟩ := altered.store_listing spot vacant.inside
    (newEntry now (now.seconds % 2 * 100) 0x10 cluster (kept name))
  have ran : fatMkdir v now path stale = _ := findOrMake_unlisted spot site unlisted _
  rw [mkdirNamed_short spot site vacant short, marked_low low, searched] at ran
  dsimp only [Option.bind_eq_bind] at ran
  rw [set, Option.bind_some] at ran
  constructor
  · intro fit
    obtain ⟨w', own, stored, altered⟩ := dots_run altered spot rfl rfl pair fit
      (newEntry now (now.seconds % 2 * 100) 0x10 cluster (kept name))
    rw [stored, Option.bind_some] at ran
    rw [ran, makes_iff_bears altered spot site unlisted vacant.inside rfl rfl
      (by rw [newEntry_flags]; decide) (newEntry_cluster _ _ _ _ spot.number), bears_kept]
  · rintro ⟨file, v', lookup, made, -, -, -, same⟩
    rw [ran] at made
    simp only [Option.bind_eq_some_iff, Option.map_eq_some_iff, Prod.mk.injEq] at made
    obtain ⟨w', stored, _, _, _, rfl⟩ := made
    exact dots_fit altered spot rfl rfl pair stored same

theorem mkdir_short_iff :
    (MkdirFits v clusters name index cluster one two → Makes v path (fatMkdir v now path stale)) ∧
      ((∃ x ≠ index, Free v x) → Makes v path (fatMkdir v now path stale) →
        MkdirFits v clusters name index cluster one two) := by
  constructor
  · intro fits
    exact ((mkdir_low spot site vacant short pair fits.unlisted fits.low).1 fits.dots).mpr ⟨fits.head, fits.noDot⟩
  · intro other makes
    have unlisted := unlisted_of_makes spot site _ makes
    have low : Low v index := by
      obtain ⟨file, v', lookup, ran, -, free, -, same⟩ := makes
      rw [fatMkdir, findOrMake_unlisted spot site unlisted, mkdirNamed_short spot site vacant short,
        fatFindFreeClusterChain_one (v := marked v index) spot.sound.proper] at ran
      simp only [Option.bind_eq_bind, Option.bind_eq_some_iff, Option.map_eq_some_iff, Prod.mk.injEq] at ran
      obtain ⟨w', ⟨w, set, stored⟩, _, _, _, rfl⟩ := ran
      have keeps := keeps_set (v := marked (marked v index) (fatFindFreeCluster (marked v index)))
        spot.sound.tables spot.sound.proper.table set
      have boot : w.boot = v.boot := keeps.boot
      obtain ⟨_, _, _, _, _, _, onward, _⟩ := dots_steps (boot.symm ▸ spot.sound.tables)
        (boot.symm ▸ spot.sound.proper.table) stored
      exact low_of_kept spot.sound (vacant.bound spot) other (keeps.trans onward) free same
    obtain ⟨exact, needed⟩ := mkdir_low spot site vacant short pair unlisted low
    have fit := needed makes
    obtain ⟨head, noDot⟩ := (exact fit).mp makes
    exact ⟨⟨unlisted, head, low⟩, noDot, fit⟩

end

/-! ### Long names -/

theorem long_reads (site : Site v path parents name parent) (long : name.long = true) :
    isLongFilename path (2 ^ 64) ((spell parents).length + 1) 0 = some true := by
  have fits := name.fits
  have counted := isLongFilename_reads site.name_reads (fun char member => (name.plain char member).1)
    (show name.chars.length < 2 ^ 64 by omega) (Nat.zero_le 11)
  rwa [Nat.zero_add, show decide _ = true from long] at counted

section
variable (spot : Spot v directories depth parent clusters cluster)
include spot

section
variable (site : Site v path parents name parent) (vacant : Vacant v clusters index)
  (long : name.long = true) (fits : LongFits v clusters name index)
include site vacant long fits

theorem long_entry (same : encoding dots true name.chars 0 blank = encoding true true name.chars 0 blank) (stale : Path)
    (entry : Nat → Memory → DirEntry) (number : (entry cluster (shortAlias name)).clusterNo = cluster) :
    ∃ w w₁ w₂ image, writeLongName dots v parent path ((spell parents).length + 1) stale =
        some (index + parts name, shortAlias name, w) ∧
      fatFindFreeClusterChain w 1 = (cluster, w₁) ∧
      fatSetDirEntry w₁ parent (index + parts name) (entry cluster (shortAlias name)) = some w₂ ∧
      Altered v w₂ clusters cluster image ∧ image.link = 0xf8 ∧
      ∀ w' own, Altered v w' clusters cluster { image with own := own } →
        Makes v path ((fatOpen w' path).map fun file => (file, w')) := by
  obtain ⟨w, listing, checksum, written, altered, spelled, others⟩ :=
    writeLongName_run spot site vacant long fits same stale
  obtain ⟨searched, altered₁⟩ := altered.mark spot rfl
  obtain ⟨set, altered₂⟩ := altered₁.store_listing spot fits.room (entry cluster (shortAlias name))
  refine ⟨w, _, _, _, written, searched, set, altered₂, rfl, fun w' own altered' => ?_⟩
  obtain ⟨place, found⟩ := lookup_long altered' spot site vacant long fits
    (fun i few => (Function.update_of_ne (by omega) _ _).trans (spelled i few))
    fun j earlier => (Function.update_of_ne (by omega) _ _).trans (others j (Or.inl earlier))
  grind [makes_found]

theorem create_long : Makes v path (fatCreate v now path stale) := by
  obtain ⟨w, w₁, w₂, image, written, searched, set, altered, -, makes⟩ := long_entry spot site vacant long fits rfl
    stale (newEntry now (now.seconds % 2) 0) (newEntry_cluster _ _ _ _ spot.number)
  rw [fatCreate, findOrMake_unlisted spot site fits.unlisted]
  simp only [createNamed, long_reads site long, Option.bind_eq_bind, Option.bind_some, if_true, written,
    searched, set]
  exact makes w₂ image.own altered

theorem mkdir_long (noDot : ∀ char ∈ name.chars.take 11, char ≠ 0x2e)
    (walked : chain v 0xf8 = some tail) (fresh : cluster ∉ tail) :
    Makes v path (fatMkdir v now path stale) := by
  have places : ∀ i < 2, i < slotCount v.boot [cluster] := by
    intro i few
    have width := spot.sound.proper.clusters.1
    rw [slotCount_spec, List.length_singleton, Nat.one_mul, clusterBytes]
    omega
  obtain ⟨w, w₁, w₂, image, written, searched, set, altered, linked, makes⟩ := long_entry spot site vacant long fits
    (encoding_eq (Nat.zero_le 11) noDot true blank) stale (newEntry now (now.seconds % 2 * 100) 0x10)
    (newEntry_cluster _ _ _ _ spot.number)
  obtain ⟨dot, altered₁⟩ := altered.store_own spot linked walked fresh (places 0 (by decide)) (dotDir cluster 1)
  obtain ⟨dotDot, altered₂⟩ := altered₁.store_own spot linked walked fresh (places 1 (by decide)) (dotDir cluster 2)
  rw [fatMkdir, findOrMake_unlisted spot site fits.unlisted]
  simp only [mkdirNamed, long_reads site long, Option.bind_eq_bind, Option.bind_some, if_true, written,
    searched, set, dot, dotDot]
  exact makes _ _ altered₂

end

end

/-! ### 8.3 names -/

theorem sought_component {c : Component} (same : name.chars = c.text) : ∀ k < 11, name.sought k = c.encoded k := by
  obtain ⟨reads, -⟩ := dotBehind_reads c.text
  have fits := name.fits
  have plain := name.plain
  have stop : dotBehind c.text (0 + c.text.length) = 0 := by
    rw [reads_getD reads (Nat.le_refl _), List.getD_eq_default _ _ (Nat.le_refl _)]
  rw [same] at fits plain
  have made := shortName_reads reads plain (show c.text.length < 2 ^ 64 by omega) 0 blank
  have alone : Reads (dotBehind c.text) 0 (c.text ++ []) := by rwa [List.append_nil]
  obtain ⟨_, bytes, made', encoded⟩ := shortName_component alone (Or.inl stop) (show 12 < 2 ^ 64 by decide)
  rw [show (fun _ => 0x20) = blank from rfl, made] at made'
  rw [FileName.sought, same, congrArg (fun code => code.2.2) (Option.some.inj made')]
  exact encoded

theorem unlisted_iff {c : Component} (spot : Spot v directories depth parent clusters cluster)
    (same : name.chars = c.text) : Unlisted v clusters name ↔ entryNamed v parent c = none := by
  obtain ⟨buffer, read, bytes⟩ := readDirectory_slots spot.walked
  have legible := spot.sound.tree.legible spot.member
  have agree : ∀ i < slotCount v.boot clusters, bears name (slot v clusters i) =
      (live (entryOf buffer i) && named c (entryOf buffer i)) := by
    intro i few
    rw [← bears_congr name (bytes i few), bears]
    cases alive : live (entryOf buffer i) with
    | false => rfl
    | true => rw [sameBytes_named (sought_component same) (legible.plain buffer _ read i few alive).2.1]
  rw [entryNamed, read]
  simp only [Option.bind_eq_bind, Option.bind_some, Option.bind_eq_none_iff, reduceCtorEq, imp_false]
  rw [← Option.eq_none_iff_forall_ne_some, List.find?_eq_none]
  constructor
  · intro unlisted i member
    rw [← agree i (List.mem_range.mp member), unlisted i (List.mem_range.mp member)]
    exact Bool.false_ne_true
  · intro absent i few
    rw [agree i few]
    simp_all

/-- On a tree of 8.3 entries, for a path that no dot leads astray: with a short
name the calls do what is asked when the marks are in the table already, and not
otherwise as long as there is a free cluster besides the one with the number of
the index. With a long name they do it when there is room for it at the first free
entry. -/
theorem create_then_find (spot : Spot v directories depth parent clusters cluster)
    (site : Site v path parents name parent) (vacant : Vacant v clusters index) (now : Datetime) (stale : Path) :
    (∀ c : Component, name.chars = c.text → (Unlisted v clusters name ↔ entryNamed v parent c = none)) ∧
    (name.long = false →
      ((CreateFits v clusters name index → Makes v path (fatCreate v now path stale)) ∧
        ((∃ x ≠ index, Free v x) →
          Makes v path (fatCreate v now path stale) → CreateFits v clusters name index)) ∧
      ∀ one two, Pair v cluster one two →
        (MkdirFits v clusters name index cluster one two → Makes v path (fatMkdir v now path stale)) ∧
        ((∃ x ≠ index, Free v x) →
          Makes v path (fatMkdir v now path stale) → MkdirFits v clusters name index cluster one two)) ∧
    (name.long = true → LongFits v clusters name index → Makes v path (fatCreate v now path stale) ∧
      ((∀ char ∈ name.chars.take 11, char ≠ 0x2e) → (∃ tail, chain v 0xf8 = some tail ∧ cluster ∉ tail) →
        Makes v path (fatMkdir v now path stale))) := by
  refine ⟨fun c same => unlisted_iff spot same, fun short => ⟨create_short_iff spot site vacant short,
    fun one two pair => mkdir_short_iff spot site vacant short pair⟩, fun long fits => ⟨?_, ?_⟩⟩
  · exact create_long spot site vacant long fits
  · rintro noDot ⟨tail, walked, fresh⟩
    exact mkdir_long spot site vacant long fits noDot walked fresh

end

/-! ### A volume with one file -/

/-- A table of 65536 entries, and clusters of one sector. -/
def oneSector : Boot := ⟨1, 1, 1, 512, 2⟩

/-- The root directory holds the file `A`; the second entry of the table is
reserved, and has this low byte. -/
def oneEntry (low : BitVec 8) : Volume := ⟨oneSector, fun adr =>
  if adr < 512 then 0
  else if adr < 524 then
    [0xf8, 0xff, 0xff, 0x0f, low, 0xff, 0xff, 0x0f, 0xf8, 0xff, 0xff, 0x0f].getD (adr - 512) 0
  else if adr < 262656 then 0
  else if adr < 262688 then (0x41 :: List.replicate 10 0x20).getD (adr - 262656) 0
  else 0⟩

theorem oneEntry_table (low : BitVec 8) (past : 3 ≤ x) (inside : x < 65536) :
    tableOf oneSector (oneEntry low).disk x = 0 := by
  have same : tableOf oneSector (oneEntry low).disk x = tableOf oneSector (fun _ => 0) x := by
    refine tableOf_congr _ fun k part => ?_
    have start : oneSector.reservedSectors = 1 := rfl
    rw [oneEntry, start]
    dsimp only
    grind
  rw [same, tableOf, halfWord]
  decide

theorem oneEntry_chain (reserved : low = 0xf8 ∨ low = 0xff) : chain (oneEntry low) 2 = some [2] := by
  rcases reserved with rfl | rfl
  · decide +kernel
  · decide +kernel

/-- What the root directory is read as. -/
def oneEntryRoot (low : BitVec 8) : Memory := gather 512 (oneEntry low).disk (fun _ => 0) 0 [262656]

section
variable {low : BitVec 8} (reserved : low = 0xf8 ∨ low = 0xff)
include reserved

theorem oneEntry_read : readDirectory (oneEntry low) 2 = some (oneEntryRoot low, 16) := by
  have place : starts oneSector [2] = [262656] := by decide
  have boot : (oneEntry low).boot = oneSector := rfl
  rw [readDirectory_eq, oneEntry_chain reserved, boot, Option.map_some, place]
  rfl

theorem oneEntry_tree : Tree (oneEntry low) [2] fun _ => 0 where
  root := List.mem_cons_self
  valid := by decide
  readable directory member := by
    simp_all [oneEntry_read]
  plain directory member buffer size read := by
    rw [List.mem_singleton.mp member, oneEntry_read reserved] at read
    cases read
    rcases reserved with rfl | rfl
    · decide +kernel
    · decide +kernel
  below directory member buffer size read := by
    rw [List.mem_singleton.mp member, oneEntry_read reserved] at read
    cases read
    intro i few alive isDirectory
    have files : ∀ i < 16, live (entryOf (oneEntryRoot low) i) = true →
        (entryOf (oneEntryRoot low) i).directory = false := by
      rcases reserved with rfl | rfl
      · decide +kernel
      · decide +kernel
    simp_all

theorem oneEntry_sound : Sound (oneEntry low) [2] fun _ => 0 where
  proper := ⟨show 0 < oneSector.clusterSize ∧ oneSector.clusterSize < 256 by decide,
    show entries oneSector ≤ 2 ^ 28 by decide⟩
  tables := Nat.le_refl 1
  small := show entries oneSector ≤ 0xffffff7 by decide
  large := show 65525 + 2 ≤ entries oneSector by decide
  reserved := by
    rcases reserved with rfl | rfl
    · decide +kernel
    · decide +kernel
  links x inside linked := by
    by_cases past : 3 ≤ x
    · grind [entries, oneEntry, oneSector, oneEntry_table]
    · have ends : ∀ x < 3, inChain (tableOf (oneEntry low).boot (oneEntry low).disk x % 2 ^ 28) = false := by
        rcases reserved with rfl | rfl
        · decide +kernel
        · decide +kernel
      simp_all
  tree := oneEntry_tree reserved
  taken d member clusters walked x listed := by
    rw [List.mem_singleton.mp member, oneEntry_chain reserved] at walked
    cases walked
    rw [List.mem_singleton.mp listed]
    rcases reserved with rfl | rfl
    · decide +kernel
    · decide +kernel
  apart d member d' member' other := absurd
    ((List.mem_singleton.mp member).trans (List.mem_singleton.mp member').symm) other
  sizes d member clusters walked := by
    rw [List.mem_singleton.mp member, oneEntry_chain reserved] at walked
    cases walked
    exact show slotCount oneSector [2] ≤ 65536 by decide

theorem oneEntry_spot : Spot (oneEntry low) [2] (fun _ => 0) 2 [2] 3 where
  sound := oneEntry_sound reserved
  member := List.mem_cons_self
  walked := oneEntry_chain reserved
  free := ⟨show 3 < entries oneSector by decide, oneEntry_table low (Nat.le_refl 3) (by decide)⟩
  lowest := by
    rcases reserved with rfl | rfl
    · decide +kernel
    · decide +kernel

theorem oneEntry_vacant : Vacant (oneEntry low) [2] 1 := by
  rcases reserved with rfl | rfl
  · exact ⟨by decide, by decide +kernel, by decide +kernel⟩
  · exact ⟨by decide, by decide +kernel, by decide +kernel⟩

end

/-- The name `b`. -/
def nameB : FileName := ⟨[0x62], by decide, ⟨0x62, [], rfl, by decide, by decide⟩, by decide⟩

/-- The name `abcdefghijklm`, which takes two entries. -/
def nameAM : FileName := ⟨(List.range 13).map fun k => BitVec.ofNat 8 (0x61 + k), by decide,
  ⟨0x61, _, rfl, by decide, by decide⟩, by decide⟩

/-- The path to a name in the root directory. -/
def inRoot (name : FileName) : Path := dotBehind (0x2f :: name.chars)

theorem oneEntry_site (low : BitVec 8) (name : FileName) : Site (oneEntry low) (inRoot name) [] name 2 where
  entered := rfl
  reads := (dotBehind_reads (0x2f :: name.chars)).1
  direct := trivial
  fits := by
    have fits := name.fits
    grind [spell]

theorem oneEntry_unlisted (reserved : low = 0xf8 ∨ low = 0xff) : Unlisted (oneEntry low) [2] nameB := by
  rcases reserved with rfl | rfl
  · decide +kernel
  · decide +kernel

theorem oneEntry_dots : Pair (oneEntry 0xf8) 3 0 1 ∧ DotsFit (oneEntry 0xf8) 3 0 1 := by
  refine ⟨⟨⟨?_, ?_, ?_⟩, Nat.one_pos, ?_, ?_, ?_⟩, ⟨[0xf8], ?_, by decide⟩, Or.inl ?_, Or.inl ?_⟩
  all_goals decide +kernel

theorem oneEntry_long : LongFits (oneEntry 0xf8) [2] nameAM 1 := by
  refine ⟨?_, ?_, ?_, ?_, ?_, Or.inl ?_⟩
  all_goals decide +kernel

def newYear : Datetime := ⟨0, 0, 0, 1, 1, 2000⟩

def zeros : Path := fun _ => 0

theorem oneEntry_makes :
    (Makes (oneEntry 0xf8) (inRoot nameB) (fatCreate (oneEntry 0xf8) newYear (inRoot nameB) zeros) ∧
      Makes (oneEntry 0xf8) (inRoot nameB) (fatMkdir (oneEntry 0xf8) newYear (inRoot nameB) zeros)) ∧
    Makes (oneEntry 0xf8) (inRoot nameAM) (fatCreate (oneEntry 0xf8) newYear (inRoot nameAM) zeros) ∧
      Makes (oneEntry 0xf8) (inRoot nameAM) (fatMkdir (oneEntry 0xf8) newYear (inRoot nameAM) zeros) := by
  have spot := oneEntry_spot (Or.inl rfl)
  have vacant := oneEntry_vacant (Or.inl rfl)
  have fits : CreateFits (oneEntry 0xf8) [2] nameB 1 :=
    ⟨oneEntry_unlisted (Or.inl rfl), by decide, by decide +kernel⟩
  obtain ⟨pair, dots⟩ := oneEntry_dots
  obtain ⟨-, short, -⟩ := create_then_find spot (oneEntry_site _ nameB) vacant newYear zeros
  obtain ⟨creates, makesDirectory⟩ := short (by decide)
  obtain ⟨-, -, long⟩ := create_then_find spot (oneEntry_site _ nameAM) vacant newYear zeros
  obtain ⟨createsLong, makesLong⟩ := long (by decide) oneEntry_long
  exact ⟨⟨creates.1 fits, (makesDirectory 0 1 pair).1 ⟨fits, by decide, dots⟩⟩,
    createsLong, makesLong (by decide) dots.tail⟩

/-- Otherwise `fat_create` for `/b` returns a handle, and has changed the second
entry of the table, which was not free. -/
theorem reserved_entry_changed :
    Spot (oneEntry 0xff) [2] (fun _ => 0) 2 [2] 3 ∧ Site (oneEntry 0xff) (inRoot nameB) [] nameB 2 ∧
    Vacant (oneEntry 0xff) [2] 1 ∧ Unlisted (oneEntry 0xff) [2] nameB ∧
    tableOf oneSector (oneEntry 0xff).disk 1 = 0xfffffff ∧
    (fatCreate (oneEntry 0xff) newYear (inRoot nameB) zeros).map
      (fun made => (made.1.isSome, tableOf oneSector made.2.disk 1)) = some (true, 0xffffff8) ∧
    ¬ Makes (oneEntry 0xff) (inRoot nameB) (fatCreate (oneEntry 0xff) newYear (inRoot nameB) zeros) ∧
    ¬ Makes (oneEntry 0xff) (inRoot nameB) (fatMkdir (oneEntry 0xff) newYear (inRoot nameB) zeros) := by
  have spot := oneEntry_spot (Or.inr rfl)
  have site := oneEntry_site 0xff nameB
  have vacant := oneEntry_vacant (Or.inr rfl)
  have other : ∃ x ≠ 1, Free (oneEntry 0xff) x := ⟨3, by decide, spot.free⟩
  have changed : ¬ Low (oneEntry 0xff) 1 := by decide +kernel
  have pair : Pair (oneEntry 0xff) 3 0 1 := by
    refine ⟨⟨?_, ?_, ?_⟩, Nat.one_pos, ?_, ?_, ?_⟩
    all_goals decide +kernel
  refine ⟨spot, site, vacant, oneEntry_unlisted (Or.inr rfl), by decide +kernel, by decide +kernel, ?_, ?_⟩
  · intro makes
    exact changed ((create_short_iff spot site vacant (by decide)).2 other makes).low
  · intro makes
    exact changed ((mkdir_short_iff spot site vacant (by decide) pair).2 other makes).low

end MandelbrotOS.FatCreateProofs
