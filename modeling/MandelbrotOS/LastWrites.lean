import Mathlib.Data.List.Forall2
import Mathlib.Tactic.Common

/-! A store filled by a list of writes: at each key the last write is what
shows. Two lists that write the same keys in the same order show the same
position of the list. -/
namespace MandelbrotOS.LastWrites

variable {Item Other Key Value : Type} [DecidableEq Key]

/-- The last item at a key. -/
def lastAt (key : Item → Key) (items : List Item) (place : Key) : Option Item :=
  (items.filter fun item => decide (key item = place)).getLast?

theorem lastAt_append (key : Item → Key) (first second : List Item) (place : Key) :
    lastAt key (first ++ second) place = (lastAt key second place).or (lastAt key first place) := by
  simp [lastAt]

theorem lastAt_map (key : Other → Key) (f : Item → Other) (items : List Item) (place : Key) :
    lastAt key (items.map f) place = (lastAt (fun item => key (f item)) items place).map f := by
  rw [lastAt, List.filter_map, List.getLast?_map]
  rfl

theorem lastAt_eq_none_iff {key : Item → Key} {items : List Item} {place : Key} :
    lastAt key items place = none ↔ ∀ item ∈ items, key item ≠ place := by
  simp [lastAt]

theorem lastAt_mem {key : Item → Key} {items : List Item} {place : Key} {item : Item}
    (last : lastAt key items place = some item) : item ∈ items ∧ key item = place := by
  have member := List.mem_of_getLast? last
  simp_all

theorem lastAt_greatest {key : Item → Key} {items : List Item} {place : Key} {item other : Item}
    {before : Item → Item → Prop} (sorted : items.Pairwise before)
    (last : lastAt key items place = some item) (member : other ∈ items) (here : key other = place) :
    other = item ∨ before other item := by
  obtain ⟨front, split⟩ := List.getLast?_eq_some_iff.mp last
  have listed : other ∈ items.filter fun item => decide (key item = place) :=
    List.mem_filter.mpr ⟨member, decide_eq_true here⟩
  have ordered := sorted.filter fun item => decide (key item = place)
  grind

theorem lastAt_related {key : Item → Key} {key' : Other → Key} {related : Item → Other → Prop}
    (sameKey : ∀ item other, related item other → key item = key' other)
    {items : List Item} {others : List Other} (paired : List.Forall₂ related items others)
    (last : lastAt key items place = some item) :
    ∃ other, lastAt key' others place = some other ∧ related item other := by
  have filtered : List.Forall₂ related (items.filter fun item => decide (key item = place))
      (others.filter fun other => decide (key' other = place)) :=
    List.rel_filter (fun item other holds => by simp [sameKey item other holds]) paired
  have reversed := List.forall₂_reverse_iff.mpr filtered
  rw [lastAt, List.getLast?_eq_head?_reverse] at last ⊢
  generalize (items.filter _).reverse = winners at last reversed
  generalize (others.filter _).reverse = winners' at reversed ⊢
  cases reversed with
  | nil => cases last
  | @cons first other rest rest' pair pairs =>
    cases last
    exact ⟨other, rfl, pair⟩

/-- What a store that held `old` shows at a key after the writes. -/
def shown (old : Value) (writes : List (Key × Value)) (place : Key) : Value :=
  ((lastAt Prod.fst writes place).map Prod.snd).getD old

theorem shown_append (old : Value) (first second : List (Key × Value)) (place : Key) :
    shown old (first ++ second) place = shown (shown old first place) second place := by
  rw [shown, lastAt_append, shown, shown]
  cases lastAt Prod.fst second place <;> rfl

theorem shown_map (view : Value → Other) (old : Value) (writes : List (Key × Value)) (place : Key) :
    view (shown old writes place) = shown (view old) (writes.map (Prod.map id view)) place := by
  rw [shown, shown, lastAt_map]
  change _ = (((lastAt Prod.fst writes place).map _).map Prod.snd).getD _
  cases lastAt Prod.fst writes place <;> rfl

theorem shown_of_written {writes : List (Key × Value)} {place : Key} (written : ∃ write ∈ writes, write.1 = place) :
    ∃ value, (place, value) ∈ writes ∧ ∀ old, shown old writes place = value := by
  cases last : lastAt Prod.fst writes place with
  | none =>
    grind [lastAt_eq_none_iff]
  | some write =>
    obtain ⟨listed, rfl⟩ := lastAt_mem last
    grind [shown]

theorem shown_single (old : Value) (key : Key) (value : Value) (place : Key) :
    shown old [(key, value)] place = if key = place then value else old := by
  by_cases same : key = place <;> simp [shown, lastAt, same]

end MandelbrotOS.LastWrites
