import MandelbrotOS.FatCreateProofs
import MandelbrotOS.FatTable
import MandelbrotOS.Runs

/-! What becomes of the entries of a directory when `fat_create` or `fat_mkdir` of
`fs/fat32.c` makes a new one. The search looks for one free entry, also for a name
that takes several: those behind the free one are overwritten, in use or not. -/
namespace MandelbrotOS.FatHoles
open Blocks ByteMemory Fat FatAlloc FatChains FatCreate FatCreateProofs FatFiles FatLongNames FatLookup
  FatNames FatPaths FatSlots FatTable Runs Walks

/-! ### The calls -/

inductive Call where
  | create
  | mkdir
  deriving DecidableEq

def Call.run : Call → Volume → Datetime → Path → Path → Option (Option Handle × Volume)
  | create => fatCreate
  | mkdir => fatMkdir

/-- What the call does once its name is known not to be there. -/
def Call.named : Call → Volume → Datetime → Path → Path → Nat → Int → Option Volume
  | create => createNamed
  | mkdir => mkdirNamed

/-- A dot ends the first part of a short name. -/
def Call.dots : Call → Bool
  | create => true
  | mkdir => false

def Call.entry : Call → Datetime → Nat → Memory → DirEntry
  | create, now => newEntry now (now.seconds % 2) 0
  | mkdir, now => newEntry now (now.seconds % 2 * 100) 0x10

/-- What is done after the entry is stored: a directory gets its two entries. -/
def Call.rest : Call → Bool → Nat → DirEntry → Volume → Option Volume
  | create, _, _, _, w => some w
  | mkdir, true, fresh, _, w => do
    let w ← fatSetDirEntry w fresh 0 (dotDir fresh 1)
    fatSetDirEntry w fresh 1 (dotDir fresh 2)
  | mkdir, false, fresh, dir, w => dotEntries w fresh dir

/-- The index, the short name and the volume that the entry is stored on. -/
def Call.prepared (call : Call) (long : Bool) (v : Volume) (path stale : Path) (parent : Nat) (cursor : Int) :
    Option (Nat × Memory × Volume) :=
  if long then writeLongName call.dots v parent path cursor stale
  else do
    let (_, _, shortPath) ← encodeName call.dots false path (2 ^ 64) cursor 0 fun _ => 0x20
    let (index, v) ← fatGetFreeDirEntryChain v parent 1
    some (index, shortPath, v)

theorem Call.named_eq (call : Call) (v : Volume) (now : Datetime) (path stale : Path) (parent : Nat) (cursor : Int) :
    call.named v now path stale parent cursor = (do
      let long ← isLongFilename path (2 ^ 64) cursor 0
      let (index, shortPath, v) ← call.prepared long v path stale parent cursor
      let (fresh, v) := fatFindFreeClusterChain v 1
      let v ← fatSetDirEntry v parent index (call.entry now fresh shortPath)
      call.rest long fresh (call.entry now fresh shortPath) v) := by
  cases call with
  | create =>
    rw [named, createNamed]
    cases isLongFilename path (2 ^ 64) cursor 0 with
    | none => rfl
    | some long =>
      cases long with
      | true =>
        simp only [prepared, dots, entry, rest, Option.bind_eq_bind, Option.bind_some, if_true, Option.bind_fun_some]
      | false =>
        simp [prepared, dots, entry, rest, Option.bind_assoc]
  | mkdir =>
    rw [named, mkdirNamed]
    cases isLongFilename path (2 ^ 64) cursor 0 with
    | none => rfl
    | some long =>
      cases long with
      | true => rfl
      | false =>
        simp only [prepared, dots, entry, rest, Option.bind_eq_bind, Option.bind_some, Option.bind_assoc,
          Bool.false_eq_true, if_false, dotEntries]

/-! ### The entries that are made -/

/-- What is worked out of a long name before anything is stored. -/
structure Plan where
  char : Nat → BitVec 16
  parts : Nat
  shortPath : Memory

def planned (dots : Bool) (v : Volume) (parent : Nat) (path : Path) (cursor : Int) (stale : Path) :
    Option Plan := do
  let (cursor, pos, shortPath) ← encodeName dots true path (2 ^ 64) cursor 0 fun _ => 0x20
  let name ← freeAlias v parent 256 (tmpShortName shortPath stale)
  let length ← strlen path (2 ^ 64) (cursor - pos)
  some ⟨longChar path (cursor - pos) length, length / 13 + 1, Function.update shortPath 6 (name 7)⟩

theorem writeLongName_eq (dots : Bool) (v : Volume) (parent : Nat) (path : Path) (cursor : Int) (stale : Path) :
    writeLongName dots v parent path cursor stale = (do
      let plan ← planned dots v parent path cursor stale
      let (index, v) ← fatGetFreeDirEntryChain v parent plan.parts
      let v ← storeLongName plan.char (fatGetShortFilenameChecksum plan.shortPath) parent index plan.parts v
      some (index + plan.parts, plan.shortPath, v)) := by
  simp [writeLongName, planned, Option.bind_assoc]

/-- The entries of a long name, in their order in the directory. -/
def Plan.entries (plan : Plan) : List DirEntry :=
  (List.range plan.parts).map fun j => longEntry plan.char (plan.parts - 1 - j)
    (placement plan.parts (plan.parts - 1 - j)) (fatGetShortFilenameChecksum plan.shortPath)

/-- The entries for a name that is not there, one behind the other. -/
def Call.namedEntries (call : Call) (v : Volume) (now : Datetime) (path stale : Path) (parent : Nat) (cursor : Int)
    (fresh : Nat) : Option (List DirEntry) := do
  if ← isLongFilename path (2 ^ 64) cursor 0 then
    let plan ← planned call.dots v parent path cursor stale
    some (plan.entries ++ [call.entry now fresh plan.shortPath])
  else
    let (_, _, shortPath) ← encodeName call.dots false path (2 ^ 64) cursor 0 fun _ => 0x20
    some [call.entry now fresh shortPath]

/-- The table with the mark for an index. -/
def markedTable (v : Volume) (index : Nat) : Nat → Nat := setLow (tableOf v.boot v.disk) index 0xffffff8

/-- The first free cluster, once the index has its mark. -/
def freshCluster (v : Volume) (index : Nat) : Nat := lowestFree (entries v.boot) (markedTable v index)

/-- The entries that a call makes; none for a path that is there, or that has no
slash. -/
def Call.madeEntries (call : Call) (v : Volume) (now : Datetime) (path stale : Path) (index : Nat) :
    Option (List DirEntry) := do
  let lookup ← fatFind v path
  if lookup.ret ≠ notFound then some []
  else
    match ← strrchr path 0x2f (2 ^ 64) 0 none with
    | none => some []
    | some slash => call.namedEntries v now path stale lookup.parentClusterDir (slash + 1) (freshCluster v index)

/-! ### What is asked of a call -/

/-- Every entry in use has its 32 bytes still. -/
def Unharmed (v v' : Volume) (clusters : List Nat) : Prop :=
  ∀ i < slotCount v.boot clusters, live (slot v clusters i) = true →
    ∀ k < 32, slot v' clusters i k = slot v clusters i k

/-- Behind the free entry, each of those that the new ones go to is free too or
has their bytes already. -/
def Held (v : Volume) (clusters : List Nat) (index : Nat) (made : List DirEntry) : Prop :=
  ∀ j, 0 < j → j < made.length → index + j < slotCount v.boot clusters →
    live (slot v clusters (index + j)) = true →
      ∀ k < 32, slot v clusters (index + j) k = made.getD j (fun _ => 0) k

/-- A listing with entries put in from an index on. -/
def overlaid (listing : Nat → DirEntry) (index : Nat) (made : List DirEntry) : Nat → DirEntry := fun i =>
  if index ≤ i ∧ i < index + made.length then made.getD (i - index) (fun _ => 0) else listing i

/-- A directory with the index that the search finds, or the number for none. The
byte stored in the table for it leaves the chain of the directory as it is. -/
structure Ground (v : Volume) (parent : Nat) (clusters : List Nat) (index : Nat) : Prop where
  proper : Proper v.boot
  tables : 1 ≤ v.boot.tableCount
  small : entries v.boot ≤ 0xffffff7
  walked : chain v (orRoot v.boot parent) = some clusters
  taken : ∀ x ∈ clusters, x < entries v.boot ∧ tableOf v.boot v.disk x ≠ 0
  sizes : slotCount v.boot clusters ≤ 65536
  chosen : Vacant v clusters index ∨ index = notFound ∧ ∀ i < slotCount v.boot clusters, live (slot v clusters i) = true
  aside : Aside v.boot clusters index
  kept : chain (marked v index) (orRoot v.boot parent) = some clusters
  steady : index ∉ clusters ∨ clusters.getLast? = some index
  clear : (∃ x ≠ index, Free v x) ∨ Aside v.boot clusters notFound

section
variable {v w w' u : Volume} {those clusters : List Nat} {table table' : Nat → Nat}
  {listing listing' : Nat → DirEntry} {parent index : Nat} {path stale : Path} {now : Datetime}

theorem unharmed_iff {made : List DirEntry}
    (free : index < slotCount v.boot clusters → live (slot v clusters index) = false)
    (slots : ∀ i < slotCount v.boot clusters, ∀ k < 32,
      slot w clusters i k = overlaid (slot v clusters) index made i k) :
    Unharmed v w clusters ↔ Held v clusters index made := by
  constructor
  · intro unharmed j _ few inside alive k part
    have same := slots (index + j) inside k part
    rw [overlaid, if_pos (by omega), Nat.add_sub_cancel_left] at same
    rw [← same, unharmed (index + j) inside alive k part]
  · intro held i inside alive k part
    rw [slots i inside k part, overlaid]
    split
    · rename_i within
      obtain ⟨j, rfl⟩ := Nat.exists_eq_add_of_le within.1
      rcases Nat.eq_zero_or_pos j with rfl | later
      · simp_all
      · rw [Nat.add_sub_cancel_left]
        exact (held j later (by omega) inside alive k part).symm
    · rfl

/-! ### The search -/

section
variable (ground : Ground v parent clusters index)
include ground

theorem Ground.number : index < 2 ^ 28 := by
  have sizes := ground.sizes
  obtain vacant | ⟨rfl, -⟩ := ground.chosen
  · have inside := vacant.inside
    omega
  · decide

theorem Ground.free (inside : index < slotCount v.boot clusters) : live (slot v clusters index) = false := by
  have sizes := ground.sizes
  obtain vacant | ⟨rfl, -⟩ := ground.chosen
  · exact vacant.free
  · rw [notFound] at inside
    omega

theorem Ground.link_relinked (member : x ∈ clusters)
    (linked : x = index → inChain (fatGetNextCluster v.boot v.disk x) = true) (byte : BitVec 8) :
    fatGetNextCluster (relinked v index byte).boot (relinked v index byte).disk x =
      fatGetNextCluster v.boot v.disk x := by
  have number := ground.number
  have small := ground.small
  have bound := (ground.taken x member).1
  have other : x ≠ index := by
    intro same
    obtain none | last := ground.steady
    · exact none (same ▸ member)
    · rw [same, walk_last ground.walked last] at linked
      exact absurd (linked rfl) Bool.false_ne_true
  grind [FatLongNames.link_relinked]

theorem Ground.search (found : fatGetFreeDirEntry (relinked v index byte) parent = some i) : i = index := by
  obtain ⟨listed, walked⟩ := walked_of_search found
  have sizes := ground.sizes
  obtain vacant | ⟨rfl, full⟩ := ground.chosen
  · obtain ⟨more, rfl⟩ := walk_extends ground.walked walked fun x member linked =>
      ground.link_relinked member (fun _ => linked) byte
    have inside := vacant.inside
    have same (j : Nat) (few : j < slotCount v.boot clusters) :
        live (slot (relinked v index byte) (clusters ++ more) j) = live (slot v clusters j) := by
      refine live_congr fun k part => ?_
      rw [← slot_relinked ground.aside few part byte, slot, slot, relinked_boot, chainPlace_append few]
    have first := fatGetFreeDirEntry_slot walked (slotCount_append inside more) (by omega)
      ((same index inside).trans vacant.free) fun j earlier =>
        (same j (Nat.lt_trans earlier inside)).trans (vacant.first j earlier)
    exact Option.some.inj (found.symm.trans first)
  · have small := ground.small
    have walked : chain (relinked v notFound byte) (orRoot v.boot parent) = some clusters := by
      refine walk_congr ground.walked fun x member => ground.link_relinked member (fun same => ?_) byte
      have bound := (ground.taken x member).1
      rw [same, notFound] at bound
      omega
    have none := fatGetFreeDirEntry_full walked fun i few =>
      (live_congr fun k part => slot_relinked ground.aside few part byte).trans (full i few)
    exact Option.some.inj (found.symm.trans none)

end

/-- What a turn of the search leaves. -/
structure Searching (v : Volume) (index : Nat) (s : Chaining) : Prop where
  volume : ∃ byte, s.volume = relinked v index byte
  start : s.start = 0 ∨ s.start = index
  previous : s.previous = 0 ∨ s.previous = index

theorem Ground.turn (ground : Ground v parent clusters index) (searching : Searching v index s)
    (ran : entryTurn parent s = some s') :
    Searching v index s' ∧ s'.start = index ∧ s'.previous = index := by
  obtain ⟨⟨byte, volume⟩, start, previous⟩ := searching
  simp only [entryTurn, bind_returns] at ran
  obtain ⟨found, searched, same⟩ := ran
  cases Option.some.inj same
  rw [volume] at searched
  cases ground.search searched
  have begun : (if s.start = 0 then index else s.start) = index := by
    grind
  refine ⟨⟨?_, Or.inr begun, Or.inr rfl⟩, begun, rfl⟩
  by_cases zero : s.previous = 0
  · refine ⟨byte, ?_⟩
    simp_all
  · simp_all [fatChangeFatValue, relinked]

theorem Ground.searched (ground : Ground v parent clusters index) (positive : 0 < count)
    (ran : fatGetFreeDirEntryChain v parent count = some (i, w)) : i = index ∧ w = marked v index := by
  simp only [fatGetFreeDirEntryChain, bind_returns] at ran
  obtain ⟨s, looped, same⟩ := ran
  have own : v = relinked v index (v.disk (entryAddress v.boot index)) := by
    rw [relinked, Function.update_eq_self]
  have start : Searching v index ⟨v, 0, 0⟩ := ⟨⟨_, own⟩, Or.inl rfl, Or.inl rfl⟩
  have step (s : Chaining) (_ : Nat) (s' : Chaining) (searching : Searching v index s)
      (ran : entryTurn parent s = some s') : Searching v index s' ∧ (s'.start = index ∧ s'.previous = index) ∧
        ∀ _ : Nat, s.start = index ∧ s.previous = index → s'.start = index ∧ s'.previous = index := by
    obtain ⟨onward, found⟩ := ground.turn searching ran
    exact ⟨onward, found, fun _ _ => found⟩
  obtain ⟨searching, found, -⟩ := foldlM_establishes step start looped
  obtain ⟨started, ended⟩ := found 0 (List.mem_range.mpr positive)
  obtain ⟨byte, volume⟩ := searching.volume
  grind [fatChangeFatValue, relinked, marked, Function.update_idem]

/-! ### The entries in the directory -/

theorem overlaid_concat (listing : Nat → DirEntry) (index : Nat) (made : List DirEntry) (entry : DirEntry) :
    Function.update (overlaid listing index made) (index + made.length) entry =
      overlaid listing index (made ++ [entry]) := by
  funext i
  rw [Function.update_apply, overlaid, overlaid, List.length_append, List.length_singleton]
  grind

section
variable (ground : Ground v parent clusters index)
include ground

theorem Ground.inside : ∀ x ∈ clusters, x < entries v.boot :=
  fun x member => (ground.taken x member).1

theorem Ground.shown : Shows v (marked v index) clusters (markedTable v index) (slot v clusters) :=
  (shows_refl v clusters).mark ground.number ground.aside

theorem Ground.store (shows : Shows v w clusters (markedTable v index) listing) (i : Nat) (entry : DirEntry) :
    ∃ w', fatSetDirEntry w parent i entry = some w' ∧
      Shows v w' clusters (markedTable v index) (Function.update listing i entry) := by
  have walked := shows.chain ground.shown ground.proper.table ground.kept ground.inside fun _ _ => rfl
  obtain ⟨w', set, shows', -⟩ := shows.set ground.tables ground.proper walked ground.inside i entry
  exact ⟨w', set, shows'⟩

theorem Ground.planned (plan : Plan)
    (positive : 0 < plan.parts) (checked : fatGetFreeDirEntryChain v parent plan.parts = some (i, u))
    (ran : storeLongName plan.char (fatGetShortFilenameChecksum plan.shortPath) parent i plan.parts u = some w) :
    i = index ∧ Shows v w clusters (markedTable v index) (overlaid (slot v clusters) index plan.entries) := by
  obtain ⟨rfl, rfl⟩ := ground.searched positive checked
  obtain ⟨w', listing, stored, shows, made, others⟩ := storeLongName_run
    (Shows v · clusters (markedTable v i) ·) (fun w listing i entry _ _ shows => ground.store shows i entry)
    ground.shown plan.char (fatGetShortFilenameChecksum plan.shortPath)
  cases stored.symm.trans ran
  have length : plan.entries.length = plan.parts := by
    rw [Plan.entries, List.length_map, List.length_range]
  have same : listing = overlaid (slot v clusters) i plan.entries := by
    funext j
    rw [overlaid, length]
    split
    · rename_i within
      have place : j = i + plan.parts - 1 - (plan.parts - 1 - (j - i)) := by omega
      grind [Plan.entries]
    · rename_i outside
      exact others j (by omega)
  exact ⟨rfl, same ▸ shows⟩

theorem Ground.prepared (call : Call) (measured : isLongFilename path (2 ^ 64) cursor 0 = some long)
    (ran : call.prepared long v path stale parent cursor = some (i, shortPath, w)) :
    ∃ made, i = index + made.length ∧
      Shows v w clusters (markedTable v index) (overlaid (slot v clusters) index made) ∧
      (∀ now fresh, call.namedEntries v now path stale parent cursor fresh =
        some (made ++ [call.entry now fresh shortPath])) ∧ (long = false → w = marked v index) := by
  cases long with
  | true =>
    rw [Call.prepared, if_pos rfl, writeLongName_eq] at ran
    simp only [bind_returns, Prod.exists] at ran
    obtain ⟨plan, work, i, u, checked, w, stored, same⟩ := ran
    have positive : 0 < plan.parts := by
      grind [FatHoles.planned, bind_returns]
    obtain ⟨rfl, shows⟩ := ground.planned plan positive checked stored
    cases same
    refine ⟨plan.entries, ?_, shows, fun now fresh => ?_, fun short => nomatch short⟩
    · simp [Plan.entries]
    · simp_all [Call.namedEntries]
  | false =>
    rw [Call.prepared, if_neg Bool.false_ne_true] at ran
    simp only [bind_returns, Prod.exists] at ran
    obtain ⟨_, _, shortPath, encoded, i, w, checked, same⟩ := ran
    obtain ⟨rfl, rfl⟩ := ground.searched Nat.one_pos checked
    cases same
    refine ⟨[], rfl, ?_, fun now fresh => ?_, fun _ => rfl⟩
    · have nothing : overlaid (slot v clusters) i [] = slot v clusters := by
        funext j
        rw [overlaid, if_neg]
        rw [List.length_nil]
        omega
      rw [nothing]
      exact ground.shown
    · simp_all [Call.namedEntries]

end

/-! ### The new cluster -/

theorem lowestFree_congr (same : ∀ x < count, table x = table' x) : lowestFree count table = lowestFree count table' := by
  grind [lowestFree, List.find?_congr]

section
variable (ground : Ground v parent clusters index)
include ground

theorem Ground.fresh :
    (freshCluster v index < entries v.boot ∧ markedTable v index (freshCluster v index) = 0 ∧
        freshCluster v index ∉ clusters) ∨
      freshCluster v index = notFound ∧ Aside v.boot clusters notFound := by
  obtain ⟨inside, zero, -⟩ | ⟨none, full⟩ := lowestFree_cases ground.proper.table (markedTable v index)
  · refine Or.inl ⟨inside, zero, fun member => ?_⟩
    have taken := (ground.taken _ member).2
    by_cases same : freshCluster v index = index
    · simp_all [freshCluster, markedTable, setLow_self]
    · exact taken ((setLow_other _ _ same).symm.trans zero)
  · refine Or.inr ⟨none, ground.clear.resolve_left ?_⟩
    rintro ⟨x, other, bound, zero⟩
    exact full x bound ((setLow_other _ _ other).trans zero)

theorem Ground.fresh_aside :
    Aside v.boot clusters (freshCluster v index) ∧ freshCluster v index ∉ clusters := by
  obtain ⟨inside, -, other⟩ | ⟨none, aside⟩ := ground.fresh
  · exact ⟨aside_of_table ground.tables ground.proper.table (walk_live ground.walked) inside, other⟩
  · refine ⟨none ▸ aside, fun member => ?_⟩
    have bound := ground.inside _ member
    grind [small, notFound]

theorem Ground.find (shows : Shows v w clusters (markedTable v index) listing) :
    fatFindFreeClusterChain w 1 = (freshCluster v index, marked w (freshCluster v index)) := by
  have proper := ground.proper
  rw [← shows.boot] at proper
  have same : fatFindFreeCluster w = freshCluster v index := by
    rw [fatFindFreeCluster_eq, shows.boot, ← shows.boot]
    refine (lowestFree_congr fun x inside => ?_).trans (by rw [freshCluster, shows.boot])
    exact shows.table x (shows.boot ▸ inside)
  rw [fatFindFreeClusterChain_one proper, same]

theorem Ground.enter (shows : Shows v w clusters (markedTable v index) listing) (i : Nat) (entry : DirEntry) :
    ∃ w', fatSetDirEntry (marked w (freshCluster v index)) parent i entry = some w' ∧
      Shows v w' clusters (setLow (markedTable v index) (freshCluster v index) 0xffffff8)
        (Function.update listing i entry) ∧ Spares v (marked w (freshCluster v index)) w' clusters := by
  obtain ⟨aside, other⟩ := ground.fresh_aside
  have marks := shows.mark (lowestFree_lt _ _) aside
  refine marks.set ground.tables ground.proper
    (marks.chain ground.shown ground.proper.table ground.kept ground.inside fun x member => ?_) ground.inside i entry
  exact setLow_other _ _ (ne_of_mem_of_not_mem member other)

theorem Ground.entered (call : Call) (ran : call.named v now path stale parent cursor = some w') :
    ∃ long made dir w, call.namedEntries v now path stale parent cursor (freshCluster v index) = some made ∧
      Shows v w clusters (setLow (markedTable v index) (freshCluster v index) 0xffffff8)
        (overlaid (slot v clusters) index made) ∧
      isLongFilename path (2 ^ 64) cursor 0 = some long ∧
      call.rest long (freshCluster v index) dir w = some w' ∧
      (long = false → Spares v (marked (marked v index) (freshCluster v index)) w clusters) := by
  rw [call.named_eq] at ran
  simp only [bind_returns, Prod.exists] at ran
  obtain ⟨long, measured, i, shortPath, w, prepared, w₁, set, rest⟩ := ran
  obtain ⟨made, rfl, shows, entries, early⟩ := ground.prepared call measured prepared
  rw [ground.find shows] at set rest
  obtain ⟨w₂, stored, shows, spares⟩ := ground.enter shows (index + made.length)
    (call.entry now (freshCluster v index) shortPath)
  grind [overlaid_concat]

end

/-! ### The entries of a new directory -/

/-- Links stay in the table, also with the low byte of a mark. -/
def Closed (count : Nat) (table : Nat → Nat) : Prop :=
  ∀ x < count, inChain (table x % 2 ^ 28) = true →
    table x % 2 ^ 28 < count ∧ table x % 2 ^ 28 / 256 * 256 + 0xf8 < count

theorem Closed.mark (closed : Closed count table) (large : 0xf8 < count) (y : Nat) :
    Closed count (setLow table y 0xffffff8) := by
  intro x inside
  by_cases same : x = y
  · rw [same, setLow_self, show (table y / 256 * 256 + 0xffffff8 % 256) % 2 ^ 28 =
      table y % 2 ^ 28 / 256 * 256 + 0xf8 by omega]
    intro live
    have bounds := inChain_iff.mp live
    have below : table y % 2 ^ 28 / 256 * 256 + 0xf8 < count := by
      by_cases linked : inChain (table y % 2 ^ 28) = true
      · exact (closed y (same ▸ inside) linked).2
      · rw [inChain_iff] at linked
        omega
    omega
  · rw [setLow_other _ _ same]
    exact closed x inside

/-- A cluster of the table, of which the first of a new directory is one. -/
structure Own (v : Volume) (cluster : Nat) : Prop where
  tables : 1 ≤ v.boot.tableCount
  proper : Proper v.boot
  inside : cluster < entries v.boot
  linked : inChain cluster = true

section
variable (own : Own v cluster)
include own

theorem Own.alone : ∀ x ∈ [cluster], inChain x = true := by
  intro x member
  rw [List.mem_singleton.mp member]
  exact own.linked

theorem Own.orRoot (boot : Boot) : orRoot boot cluster = cluster := by
  have low := (inChain_iff.mp own.linked).1
  rw [Fat.orRoot, if_neg (by omega)]

theorem Own.chain (walked : chain w cluster = some listed) : ∃ tail, listed = cluster :: tail := by
  obtain ⟨dead, -⟩ | ⟨-, _, tail, _, rfl, _⟩ := walk_cases walked
  · rw [own.linked] at dead
    cases dead
  · exact ⟨tail, rfl⟩

theorem Own.set (shows : Shows v w those table listing)
    (closed : Closed (entries v.boot) table) (few : i < slotCount v.boot [cluster])
    (set : fatSetDirEntry w cluster i entry = some w') : w' = stored w [cluster] i entry := by
  have small := own.proper.table
  obtain ⟨listed, walked⟩ : ∃ listed, FatChains.chain w cluster = some listed := by
    simp only [fatSetDirEntry, readDirectory_eq, own.orRoot, bind_returns, Option.map_eq_some_iff] at set
    grind
  have inside : ∀ x ∈ listed, x < entries v.boot := by
    refine walk_inside walked (fun _ => own.inside) fun x _ bound live => ?_
    rw [fatGetNextCluster_eq _ _ (by omega), shows.table x bound] at live ⊢
    exact (closed x bound live).1
  have onTable : OnTable w.boot listed := by
    intro x member
    have bound := inside x member
    rw [shows.boot]
    rw [entries] at bound
    omega
  obtain ⟨tail, rfl⟩ := own.chain walked
  rw [← shows.boot] at few
  rw [fatSetDirEntry_head (shows.boot.symm ▸ own.tables) (by rwa [own.orRoot]) onTable few, Option.some.injEq] at set
  exact set.symm

theorem Own.search (shows : Shows v w [cluster] table listing)
    (few : one < slotCount v.boot [cluster]) (free : live (listing one) = false)
    (first : ∀ j < one, live (listing j) = true) (found : fatGetFreeDirEntry w cluster = some i) : i = one := by
  obtain ⟨listed, walked⟩ := walked_of_search found
  have start := walked
  rw [own.orRoot] at start
  obtain ⟨tail, rfl⟩ := own.chain start
  exact Option.some.inj (found.symm.trans (shows.search_head walked own.proper.clusters.2 few free first))

theorem Own.set_elsewhere (shows : Shows v w clusters table listing)
    (closed : Closed (entries v.boot) table) (live : ∀ x ∈ clusters, inChain x = true)
    (apart : cluster ∉ clusters) (few : i < slotCount v.boot [cluster])
    (set : fatSetDirEntry w cluster i entry = some w') : Shows v w' clusters table listing := by
  rw [own.set shows closed few set]
  refine shows.stored_elsewhere own.tables own.proper.table live own.alone (fun x member same => apart ?_) few entry
  exact List.mem_singleton.mp same ▸ member

theorem Own.dot {own' : Nat → DirEntry}
    (shows : Shows v w clusters table listing) (alone : Shows v w [cluster] table own')
    (closed : Closed (entries v.boot) table) (large : 0xf8 < entries v.boot)
    (width : slotCount v.boot [cluster] ≤ entries v.boot)
    (linked : ∀ x ∈ clusters, inChain x = true) (apart : cluster ∉ clusters)
    (few : one < slotCount v.boot [cluster]) (free : live (own' one) = false)
    (first : ∀ j < one, live (own' j) = true)
    (search : fatGetFreeDirEntryChain w cluster 1 = some (i, u)) (set : fatSetDirEntry u cluster i entry = some w') :
    Shows v w' clusters (setLow table one 0xffffff8) listing ∧
      Shows v w' [cluster] (setLow table one 0xffffff8) (Function.update own' one entry) := by
  have small := own.proper.table
  obtain ⟨found, rfl⟩ := search_of_chain search
  cases own.search alone few free first found
  have inside : one < entries v.boot := Nat.lt_of_lt_of_le few width
  have shows := shows.mark (show one < 2 ^ 28 by omega) (aside_of_table own.tables small linked inside)
  have alone := alone.mark (show one < 2 ^ 28 by omega) (aside_of_table own.tables small own.alone inside)
  have closed := closed.mark large one
  refine ⟨own.set_elsewhere shows closed linked apart few set, ?_⟩
  rw [own.set shows closed few set]
  exact alone.stored own.tables small own.alone (List.nodup_singleton cluster) few entry

end

theorem set_none (boot : w.boot = v.boot) (tables : 1 ≤ v.boot.tableCount) (proper : Proper v.boot)
    (set : fatSetDirEntry w notFound i entry = some w') : w' = w := by
  have walked : chain w (orRoot w.boot notFound) = some [] := walk_dead rfl _
  rw [fatSetDirEntry_place (boot.symm ▸ tables) (boot.symm ▸ proper.clusters.1) walked
    (List.forall_mem_nil _), if_neg, Option.some.injEq] at set
  · exact set.symm
  · simp [slotCount]

theorem search_none (search : fatGetFreeDirEntryChain w notFound 1 = some (i, u)) :
    i = notFound ∧ u = marked w notFound := by
  obtain ⟨found, rfl⟩ := search_of_chain search
  have walked : chain w (orRoot w.boot notFound) = some [] := walk_dead rfl _
  simp_all [fatGetFreeDirEntry_full, slotCount]

/-- The name is made as a short one. -/
def Short (path : Path) : Prop :=
  ∃ slash, strrchr path 0x2f (2 ^ 64) 0 none = some (some slash) ∧
    isLongFilename path (2 ^ 64) (slash + 1) 0 = some false

/-- What a new directory needs besides: links that stay in the table, and for a
short name two free places in the cluster that it gets. -/
structure Room (v : Volume) (path : Path) (index : Nat) : Prop where
  reserved : ∀ x < 2, tableOf v.boot v.disk x ≠ 0
  large : 0xf8 < entries v.boot
  closed : Closed (entries v.boot) (tableOf v.boot v.disk)
  places : Short path → freshCluster v index < entries v.boot →
    slotCount v.boot [freshCluster v index] ≤ entries v.boot ∧ Aside v.boot [freshCluster v index] index ∧
      ∃ one two, Pair v (freshCluster v index) one two

theorem Ground.own (ground : Ground v parent clusters index) (room : Room v path index)
    (inside : freshCluster v index < entries v.boot) (zero : markedTable v index (freshCluster v index) = 0) :
    Own v (freshCluster v index) := by
  have small := ground.small
  refine ⟨ground.tables, ground.proper, inside, inChain_iff.mpr ⟨Nat.le_of_not_lt fun low => ?_, by omega⟩⟩
  by_cases same : freshCluster v index = index
  · rw [same, markedTable, setLow_self] at zero
    omega
  · exact room.reserved _ low ((setLow_other _ _ same).symm.trans zero)

/-- The entries of the new directory leave those of the old one. -/
theorem Ground.rest (ground : Ground v parent clusters index) (room : Room v path index)
    (shows : Shows v w clusters (setLow (markedTable v index) (freshCluster v index) 0xffffff8) listing)
    (spares : long = false → Short path ∧ Spares v (marked (marked v index) (freshCluster v index)) w clusters)
    (ran : Call.mkdir.rest long (freshCluster v index) dir w = some w') :
    ∃ table, Shows v w' clusters table listing := by
  have live := walk_live ground.walked
  have tables := ground.tables
  have proper := ground.proper
  obtain ⟨inside, zero, apart⟩ | ⟨none, aside⟩ := ground.fresh
  · have own := ground.own room inside zero
    have closed := (room.closed.mark room.large index).mark room.large (freshCluster v index)
    cases long with
    | true =>
      simp only [Call.rest, bind_returns] at ran
      obtain ⟨w₁, set, set₁⟩ := ran
      have places : ∀ i < 2, i < slotCount v.boot [freshCluster v index] := by
        intro i few
        have width := proper.clusters.1
        rw [slotCount_spec, List.length_singleton, Nat.one_mul, clusterBytes]
        omega
      have shows₁ := own.set_elsewhere shows closed live apart (places 0 (by decide)) set
      exact ⟨_, own.set_elsewhere shows₁ closed live apart (places 1 (by decide)) set₁⟩
    | false =>
      obtain ⟨short, spares⟩ := spares rfl
      obtain ⟨width, aside, one, two, pair⟩ := room.places short inside
      have alone := spares _ _ _ own.alone (fun x same => List.mem_singleton.mp same ▸ apart)
        (((shows_refl v [freshCluster v index]).mark ground.number aside).mark (lowestFree_lt _ _)
          (aside_of_table tables proper.table own.alone inside))
      simp only [Call.rest, dotEntries, bind_returns, Prod.exists] at ran
      obtain ⟨i, w₁, search, w₂, set, j, w₃, search₁, set₁⟩ := ran
      obtain ⟨shows, alone⟩ := own.dot shows alone closed room.large width live apart pair.first.inside
        pair.first.free pair.first.first search set
      have later := pair.later
      obtain ⟨shows, -⟩ := own.dot shows alone (closed.mark room.large one) room.large width live apart pair.inside
        (by rw [Function.update_of_ne (by omega)]; exact pair.free) (fun j earlier => by
          rw [Function.update_apply]
          split
          · exact dot_live dir Nat.one_pos
          · exact pair.between j earlier ‹_›) search₁ set₁
      exact ⟨_, shows⟩
  · rw [none] at ran shows
    cases long with
    | true =>
      simp only [Call.rest, bind_returns] at ran
      obtain ⟨w₁, set, set₁⟩ := ran
      cases set_none shows.boot tables proper set
      cases set_none shows.boot tables proper set₁
      exact ⟨_, shows⟩
    | false =>
      simp only [Call.rest, dotEntries, bind_returns, Prod.exists] at ran
      obtain ⟨i, w₁, search, w₂, set, j, w₃, search₁, set₁⟩ := ran
      obtain ⟨rfl, rfl⟩ := search_none search
      have shows := shows.mark (show notFound < 2 ^ 28 by decide) aside
      cases set_none shows.boot tables proper set
      obtain ⟨rfl, rfl⟩ := search_none search₁
      have shows := shows.mark (show notFound < 2 ^ 28 by decide) aside
      cases set_none shows.boot tables proper set₁
      exact ⟨_, shows⟩

/-! ### Whole calls -/

theorem Call.run_eq (call : Call) (v : Volume) (now : Datetime) (path stale : Path) :
    call.run v now path stale = findOrMake v path (call.named v now path stale) := by
  cases call <;> rfl

theorem Ground.named (ground : Ground v parent clusters index) (call : Call)
    (room : call = .mkdir → Room v path index) (last : strrchr path 0x2f (2 ^ 64) 0 none = some (some slash))
    (ran : call.named v now path stale parent (slash + 1) = some w') :
    ∃ made, call.namedEntries v now path stale parent (slash + 1) (freshCluster v index) = some made ∧
      (Unharmed v w' clusters ↔ Held v clusters index made) := by
  obtain ⟨long, made, dir, w, entries, shows, measured, rest, spares⟩ := ground.entered call ran
  have shown : ∃ table, Shows v w' clusters table (overlaid (slot v clusters) index made) := by
    cases call with
    | create =>
      cases rest
      exact ⟨_, shows⟩
    | mkdir =>
      refine ground.rest (room rfl) shows (fun short => ⟨⟨slash, last, ?_⟩, spares short⟩) rest
      rw [measured, short]
  obtain ⟨table, shows⟩ := shown
  exact ⟨made, entries, unharmed_iff ground.free shows.slots⟩

/-- **The entries in use stay exactly where those behind the free one, as many as
a long name takes, are free too or have the bytes of the new entries already.** A
short name takes the free entry alone. -/
theorem entries_unharmed_iff (call : Call) (found : fatFind v path = some lookup)
    (ground : Ground v lookup.parentClusterDir clusters index) (room : call = .mkdir → Room v path index)
    (ran : call.run v now path stale = some (file, w')) :
    (∃ made, call.madeEntries v now path stale index = some made ∧
      (Unharmed v w' clusters ↔ Held v clusters index made)) ∧ (Short path → Unharmed v w' clusters) := by
  have nothing : Unharmed v v clusters ∧ Held v clusters index [] :=
    ⟨fun _ _ _ _ _ => rfl, fun j _ few => absurd few (Nat.not_lt_zero j)⟩
  rw [call.run_eq, findOrMake, found] at ran
  rw [Call.madeEntries, found]
  simp only [Option.bind_eq_bind, Option.bind_some] at ran ⊢
  by_cases there : lookup.ret ≠ notFound
  · rw [if_pos there] at ran ⊢
    obtain ⟨_, _, same⟩ := Option.bind_eq_some_iff.mp ran
    cases Option.some.inj same
    exact ⟨⟨[], rfl, iff_of_true nothing.1 nothing.2⟩, fun _ => nothing.1⟩
  · rw [if_neg there] at ran ⊢
    obtain ⟨slash, last, ran⟩ := Option.bind_eq_some_iff.mp ran
    rw [last, Option.bind_some]
    cases slash with
    | none =>
      cases Option.some.inj ran
      exact ⟨⟨[], rfl, iff_of_true nothing.1 nothing.2⟩, fun _ => nothing.1⟩
    | some slash =>
      obtain ⟨w, ran, opened⟩ := Option.bind_eq_some_iff.mp ran
      obtain ⟨_, _, same⟩ := Option.bind_eq_some_iff.mp opened
      cases Option.some.inj same
      obtain ⟨made, entries, exactly⟩ := ground.named call room last ran
      refine ⟨⟨made, entries, exactly⟩, ?_⟩
      rintro ⟨slash', last', short⟩
      cases last.symm.trans last'
      simp only [Call.namedEntries, short, Option.bind_eq_bind, Option.bind_some, Bool.false_eq_true, if_false,
        Option.bind_eq_some_iff] at entries
      obtain ⟨_, _, single⟩ := entries
      cases Option.some.inj single
      exact exactly.mpr fun j later few => absurd few (Nat.not_lt.mpr later)

end

/-! ### A directory with a hole -/

/-- A table of 256 entries; the root directory has an entry with this first byte
and behind it the file `A`. -/
def holed (first : BitVec 8) : Volume := ⟨⟨1, 1, 1, 2, 2⟩, fun adr =>
  if adr < 512 then 0
  else if adr < 524 then [0xf8, 0xff, 0xff, 0x0f].getD (adr % 4) 0
  else if adr = 1536 then first else if adr = 1568 then 0x41
  else if 1536 < adr ∧ adr < 1547 ∨ 1568 < adr ∧ adr < 1579 then 0x20 else 0⟩

theorem holed_ground : Ground (holed 0x42) 2 [2] 2 where
  proper := ⟨by decide, by decide⟩
  tables := Nat.le_refl 1
  small := by decide
  walked := by decide +kernel
  taken := by decide +kernel
  sizes := by decide
  chosen := Or.inl ⟨by decide, by decide +kernel, by decide +kernel⟩
  aside := aside_of_table (Nat.le_refl 1) (by decide) (by decide) (by decide)
  kept := by decide +kernel
  steady := Or.inr rfl
  clear := Or.inl ⟨3, by decide, by decide, by decide +kernel⟩

theorem holed_room (path : Path) : Room (holed 0x42) path 2 := by
  have fresh : freshCluster (holed 0x42) 2 = 3 := by decide +kernel
  refine ⟨by decide +kernel, by decide, ?_, fun _ _ => ?_⟩
  · have links : ∀ x < 256, inChain (tableOf (holed 0x42).boot (holed 0x42).disk x % 2 ^ 28) = false := by
      decide +kernel
    intro x inside live
    rw [links x inside] at live
    cases live
  · rw [fresh]
    refine ⟨by decide, aside_of_table (Nat.le_refl 1) (by decide) (by decide) (by decide), 0, 1, ?_⟩
    refine ⟨⟨by decide, by decide +kernel, by decide +kernel⟩, Nat.one_pos, by decide, by decide +kernel, ?_⟩
    decide +kernel

theorem holed_found (parent : (fatFind (holed 0x42) path).map (·.parentClusterDir) = some 2) :
    ∃ lookup, fatFind (holed 0x42) path = some lookup ∧ Ground (holed 0x42) lookup.parentClusterDir [2] 2 := by
  grind [Option.map_eq_some_iff, holed_ground]

theorem names_go_behind :
    (∃ file v', Call.create.run (holed 0x42) newYear (inRoot nameAM) zeros = some (file, v') ∧
      Unharmed (holed 0x42) v' [2]) ∧
    ∃ file v', Call.mkdir.run (holed 0x42) newYear (inRoot nameB) zeros = some (file, v') ∧
      Unharmed (holed 0x42) v' [2] := by
  constructor
  · obtain ⟨lookup, found, ground⟩ := @holed_found (inRoot nameAM) (by decide +kernel)
    have ran : (Call.create.run (holed 0x42) newYear (inRoot nameAM) zeros).isSome = true := by decide +kernel
    have three : (Call.create.madeEntries (holed 0x42) newYear (inRoot nameAM) zeros 2).map List.length = some 3 := by
      decide +kernel
    obtain ⟨⟨file, v'⟩, ran⟩ := Option.isSome_iff_exists.mp ran
    obtain ⟨⟨made, entries, exactly⟩, -⟩ := entries_unharmed_iff .create found ground (fun other => nomatch other) ran
    refine ⟨file, v', ran, exactly.mpr ?_⟩
    intro j later few inside alive
    rw [entries, Option.map_some, Option.some.injEq] at three
    have free : ∀ j < 3, live (slot (holed 0x42) [2] (2 + j)) = false := by decide +kernel
    rw [free j (three ▸ few)] at alive
    cases alive
  · obtain ⟨lookup, found, ground⟩ := @holed_found (inRoot nameB) (by decide +kernel)
    have ran : (Call.mkdir.run (holed 0x42) newYear (inRoot nameB) zeros).isSome = true := by decide +kernel
    obtain ⟨⟨file, v'⟩, ran⟩ := Option.isSome_iff_exists.mp ran
    obtain ⟨-, kept⟩ := entries_unharmed_iff .mkdir found ground (fun _ => holed_room _) ran
    exact ⟨file, v', ran, kept ⟨0, by decide +kernel, by decide +kernel⟩⟩

/-- A long name for which the hole is too small takes the place of the file behind
it: where its name began there is the number of a part of the long one. -/
theorem file_behind_hole_lost :
    live (slot (holed 0xe5) [2] 1) = true ∧ slot (holed 0xe5) [2] 1 0 = 0x41 ∧
    ∀ call : Call, ∃ file v', call.run (holed 0xe5) newYear (inRoot nameAM) zeros = some (file, v') ∧
      slot v' [2] 1 0 = 1 ∧ ¬ Unharmed (holed 0xe5) v' [2] := by
  have name : slot (holed 0xe5) [2] 1 0 = 0x41 := by decide +kernel
  have alive : live (slot (holed 0xe5) [2] 1) = true := by decide +kernel
  refine ⟨alive, name, fun call => ?_⟩
  have ran : (call.run (holed 0xe5) newYear (inRoot nameAM) zeros).map (fun made => slot made.2 [2] 1 0) = some 1 := by
    cases call with
    | create => decide +kernel
    | mkdir => decide +kernel
  obtain ⟨⟨file, v'⟩, ran, byte⟩ := Option.map_eq_some_iff.mp ran
  refine ⟨file, v', ran, byte, fun unharmed => ?_⟩
  have same := unharmed 1 (by decide) alive 0 (by decide)
  rw [show slot v' [2] 1 0 = 1 from byte, name] at same
  cases same

end MandelbrotOS.FatHoles
