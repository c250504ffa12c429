import Mathlib.Data.List.Induction
import Mathlib.Data.Set.Insert
import Mathlib.Tactic.Common

/-! Trees of bounded depth whose nodes live in one shared store. An edge is a
label under which a node names another one; several roots may own the same
subtree below some of their labels, and share nothing else. The store changes
by linking a fresh node into an empty place and by adding a root; what can be
reached afterwards is described exactly. -/
namespace MandelbrotOS.Forests

variable {Node Label : Type}

/-- The node at the end of a path. -/
def reach (next : Node → Label → Option Node) : Node → List Label → Option Node
  | node, [] => some node
  | node, label :: rest => (next node label).bind fun child => reach next child rest

@[simp] theorem reach_nil (next : Node → Label → Option Node) (node : Node) :
    reach next node [] = some node := rfl

theorem reach_append (next : Node → Label → Option Node) (node : Node) (path rest : List Label) :
    reach next node (path ++ rest) = (reach next node path).bind fun child => reach next child rest := by
  induction path generalizing node with
  | nil => rfl
  | cons label path ih =>
    simp only [List.cons_append, reach]
    cases next node label with
    | none => rfl
    | some child => exact ih child

theorem reach_snoc (next : Node → Label → Option Node) (node : Node) (path : List Label) (label : Label) :
    reach next node (path ++ [label]) = (reach next node path).bind fun child => next child label := by
  rw [reach_append]
  congr 1
  funext child
  simp [reach]

theorem reach_single (next : Node → Label → Option Node) (node : Node) (label : Label) :
    reach next node [label] = next node label :=
  reach_snoc next node [] label

theorem reach_congr {next next' : Node → Label → Option Node}
    (same : ∀ front child label back, path = front ++ label :: back →
      reach next node front = some child → next' child label = next child label) :
    reach next' node path = reach next node path := by
  induction path generalizing node with
  | nil => rfl
  | cons label path ih =>
    simp only [reach, same [] node label path rfl rfl]
    cases edge : next node label with
    | none => rfl
    | some child =>
      grind [reach]

/-- Trees of the given depth: a node is reached from a root along one path
only, and from two roots only below a label they share. Shared labels are
never empty and name the same child in every root. -/
structure Forest (next : Node → Label → Option Node) (depth : Nat) (shared : Label → Prop)
    (roots : Set Node) : Prop where
  path_unique : ∀ {root root' path path' node}, root ∈ roots → root' ∈ roots →
    path.length ≤ depth → path'.length ≤ depth →
    reach next root path = some node → reach next root' path' = some node → path = path'
  root_unique : ∀ {root root' label rest node}, root ∈ roots → root' ∈ roots → ¬ shared label →
    (label :: rest).length ≤ depth → reach next root (label :: rest) = some node →
    reach next root' (label :: rest) = some node → root = root'
  common : ∀ {root root' label}, root ∈ roots → root' ∈ roots → shared label →
    next root label = next root' label
  present : ∀ {root label}, root ∈ roots → shared label → next root label ≠ none

variable {next next' : Node → Label → Option Node} {depth : Nat} {shared : Label → Prop}
  {roots : Set Node}

theorem reach_shared (forest : Forest next depth shared roots) (member : root ∈ roots)
    (member' : root' ∈ roots) (common : shared label) (rest : List Label) :
    reach next root (label :: rest) = reach next root' (label :: rest) := by
  simp only [reach, forest.common member member' common]

theorem forest_subset (forest : Forest next depth shared roots) (within : roots' ⊆ roots) :
    Forest next depth shared roots' :=
  ⟨fun member member' => forest.path_unique (within member) (within member'),
    fun member member' => forest.root_unique (within member) (within member'),
    fun member member' => forest.common (within member) (within member'),
    fun member => forest.present (within member)⟩

theorem forest_congr (forest : Forest next depth shared roots) (deep : 0 < depth)
    (same : ∀ root ∈ roots, ∀ path child label, path.length < depth →
      reach next root path = some child → next' child label = next child label) :
    Forest next' depth shared roots ∧
      ∀ root ∈ roots, ∀ path, path.length ≤ depth → reach next' root path = reach next root path := by
  have kept : ∀ root ∈ roots, ∀ path, path.length ≤ depth →
      reach next' root path = reach next root path := by
    grind [reach_congr]
  have first : ∀ {root}, root ∈ roots → ∀ label, next' root label = next root label :=
    fun member label => same _ member [] _ label deep rfl
  refine ⟨⟨?_, ?_, ?_, ?_⟩, kept⟩
  · intro root root' path path' node member member' short short' reached reached'
    rw [kept root member path short] at reached
    rw [kept root' member' path' short'] at reached'
    exact forest.path_unique member member' short short' reached reached'
  · intro root root' label rest node member member' apart short reached reached'
    rw [kept root member _ short] at reached
    rw [kept root' member' _ short] at reached'
    exact forest.root_unique member member' apart short reached reached'
  · intro root root' label member member' common
    rw [first member, first member']
    exact forest.common member member' common
  · intro root label member common
    rw [first member]
    exact forest.present member common

theorem forest_share (forest : Forest next depth shared {root}) {shared' : Label → Prop}
    (filled : ∀ label, shared' label → next root label ≠ none) :
    Forest next depth shared' {root} := by
  refine ⟨forest.path_unique, ?_, ?_, ?_⟩
  · rintro _ _ _ _ _ rfl rfl _ _ _ _
    rfl
  · rintro _ _ _ rfl rfl _
    rfl
  · simp_all

/-- `next'` is `next` with the fresh, empty node `child` put in the place
`label` of `parent`. -/
structure Linked (next next' : Node → Label → Option Node) (parent : Node) (label : Label)
    (child : Node) : Prop where
  placed : next' parent label = some child
  blank : ∀ other, next' child other = none
  others : ∀ node other, node ≠ child → ¬ (node = parent ∧ other = label) →
    next' node other = next node other

/-- What linking a node needs: an empty place on a known path, and a node no
path leads to. -/
structure Linkable (next : Node → Label → Option Node) (depth : Nat) (roots : Set Node)
    (root : Node) (path : List Label) (parent : Node) (label : Label) (child : Node) : Prop where
  member : root ∈ roots
  reached : reach next root path = some parent
  short : path.length < depth
  empty : next parent label = none
  fresh : ∀ other ∈ roots, ∀ way, way.length ≤ depth → reach next other way ≠ some child

theorem reach_link (forest : Forest next depth shared roots)
    (linkable : Linkable next depth roots root path parent label child)
    (linked : Linked next next' parent label child) (member : other ∈ roots)
    (short : way.length ≤ depth) :
    reach next' other way = some node ↔ reach next other way = some node ∨
      (way = path ++ [label] ∧ reach next other path = some parent ∧ node = child) := by
  induction way using List.reverseRecOn generalizing node with
  | nil => simp
  | append_singleton way step ih =>
    have shorter : way.length < depth := by
      rw [List.length_append] at short
      exact short
    have before (node : Node) := @ih node (Nat.le_of_lt shorter)
    simp only [reach_snoc, Option.bind_eq_some_iff]
    constructor
    · rintro ⟨middle, reached, edge⟩
      rcases (before middle).mp reached with old | ⟨_, _, rfl⟩
      · have distinct : middle ≠ child := fun same =>
          linkable.fresh other member way (Nat.le_of_lt shorter) (same ▸ old)
        by_cases place : middle = parent ∧ step = label
        · obtain ⟨rfl, rfl⟩ := place
          have sameWay := forest.path_unique member linkable.member (Nat.le_of_lt shorter)
            (Nat.le_of_lt linkable.short) old linkable.reached
          rw [linked.placed] at edge
          simp_all
        · rw [linked.others middle step distinct place] at edge
          exact Or.inl ⟨middle, old, edge⟩
      · rw [linked.blank] at edge
        cases edge
    · rintro (⟨middle, old, edge⟩ | ⟨split, reached, rfl⟩)
      · refine ⟨middle, (before middle).mpr (Or.inl old), ?_⟩
        rw [linked.others middle step, edge]
        · exact fun same => linkable.fresh other member way (Nat.le_of_lt shorter) (same ▸ old)
        · rintro ⟨rfl, rfl⟩
          rw [linkable.empty] at edge
          cases edge
      · obtain ⟨rfl, last⟩ := List.append_inj' split rfl
        cases last
        exact ⟨parent, (before parent).mpr (Or.inl reached), linked.placed⟩

theorem forest_link (forest : Forest next depth shared roots)
    (linkable : Linkable next depth roots root path parent label child)
    (linked : Linked next next' parent label child) : Forest next' depth shared roots := by
  have fresh := linkable.fresh
  have first : ∀ {other}, other ∈ roots → ∀ {step}, shared step → next' other step = next other step := by
    intro other member step common
    refine linked.others other step (fun same => ?_) (fun place => ?_)
    · exact fresh other member [] (Nat.zero_le _) (by rw [reach_nil, same])
    · obtain ⟨rfl, rfl⟩ := place
      exact forest.present member common linkable.empty
  refine ⟨?_, ?_, ?_, ?_⟩
  · intro one two way way' node member member' short short' reached reached'
    rcases (reach_link forest linkable linked member short).mp reached with old | ⟨new, _, rfl⟩ <;>
      rcases (reach_link forest linkable linked member' short').mp reached' with old' | ⟨new', _, same⟩
    · exact forest.path_unique member member' short short' old old'
    · simp_all
    · exact absurd old' (fresh two member' way' short')
    · rw [new, new']
  · intro one two step rest node member member' apart short reached reached'
    rcases (reach_link forest linkable linked member short).mp reached with old | ⟨new, up, rfl⟩ <;>
      rcases (reach_link forest linkable linked member' short).mp reached' with old' | ⟨_, up', same⟩
    · exact forest.root_unique member member' apart short old old'
    · simp_all
    · exact absurd old' (fresh two member' _ short)
    · -- both roots reach the parent, along the path that starts as the new one does
      cases path with
      | nil => exact Option.some.inj (up.trans up'.symm)
      | cons head tail =>
        obtain ⟨rfl, _⟩ := List.cons.inj new
        exact forest.root_unique member member' apart (Nat.le_of_lt linkable.short) up up'
  · intro one two step member member' common
    rw [first member common, first member' common]
    exact forest.common member member' common
  · intro one step member common
    rw [first member common]
    exact forest.present member common

/-- `next'` is `next` with a fresh root that has the shared children of
`model` and no others. -/
structure Rooted (next next' : Node → Label → Option Node) (shared : Label → Prop)
    (model root : Node) : Prop where
  common : ∀ label, shared label → next' root label = next model label
  apart : ∀ label, ¬ shared label → next' root label = none
  others : ∀ node label, node ≠ root → next' node label = next node label

theorem reach_old_root (rooted : Rooted next next' shared model root)
    (fresh : ∀ other ∈ roots, ∀ way, way.length ≤ depth → reach next other way ≠ some root)
    (inside : other ∈ roots) (short : way.length ≤ depth) :
    reach next' other way = reach next other way := by
  refine reach_congr fun front child label back split reached => ?_
  refine rooted.others child label fun same => fresh other inside front ?_ (same ▸ reached)
  rw [split, List.length_append] at short
  omega

theorem reach_new_root (rooted : Rooted next next' shared model root) (member : model ∈ roots)
    (fresh : ∀ other ∈ roots, ∀ way, way.length ≤ depth → reach next other way ≠ some root)
    (short : way.length ≤ depth) :
    reach next' root way = some node ↔ (way = [] ∧ node = root) ∨
      ∃ label rest, way = label :: rest ∧ shared label ∧ reach next model way = some node := by
  cases way with
  | nil => simp [eq_comm]
  | cons label rest =>
    by_cases common : shared label
    · have below : reach next' root (label :: rest) = reach next' model (label :: rest) := by
        have distinct : model ≠ root := fun same =>
          fresh model member [] (Nat.zero_le _) (by rw [reach_nil, same])
        simp only [reach, rooted.common label common, rooted.others model label distinct]
      grind [reach_old_root]
    · simp [reach, rooted.apart label common, common]

theorem reach_rooted (rooted : Rooted next next' shared model root) (member : model ∈ roots)
    (fresh : ∀ other ∈ roots, ∀ way, way.length ≤ depth → reach next other way ≠ some root)
    (inside : other ∈ insert root roots) (short : way.length ≤ depth)
    (reached : reach next' other way = some node) :
    (way = [] ∧ other = root ∧ node = root) ∨ ∃ old ∈ roots, reach next old way = some node ∧
      (other = old ∨ ∃ label rest, way = label :: rest ∧ shared label) := by
  grind [reach_new_root, reach_old_root]

theorem forest_root (forest : Forest next depth shared roots)
    (rooted : Rooted next next' shared model root) (member : model ∈ roots)
    (fresh : ∀ other ∈ roots, ∀ way, way.length ≤ depth → reach next other way ≠ some root) :
    Forest next' depth shared (insert root roots) := by
  have distinct : ∀ other ∈ roots, other ≠ root := fun other inside same =>
    fresh other inside [] (Nat.zero_le _) (by rw [reach_nil, same])
  have first : ∀ other ∈ insert root roots, ∀ label, shared label →
      next' other label = next model label := by
    rintro other (rfl | inside) label common
    · exact rooted.common label common
    · rw [rooted.others other label (distinct other inside)]
      exact forest.common inside member common
  refine ⟨?_, ?_, ?_, ?_⟩
  · intro one two way way' node inside inside' short short' reached reached'
    have origin := reach_rooted rooted member fresh inside short reached
    have origin' := reach_rooted rooted member fresh inside' short' reached'
    rcases origin with ⟨rfl, _, rfl⟩ | ⟨old, known, below, _⟩ <;>
      rcases origin' with ⟨rfl, _, same⟩ | ⟨old', known', below', _⟩
    · rfl
    · exact absurd below' (fresh old' known' way' short')
    · simp_all
    · exact forest.path_unique known known' short short' below below'
  · intro one two label rest node inside inside' apart short reached reached'
    have unshared : ¬ ∃ label' rest', label :: rest = label' :: rest' ∧ shared label' := by
      simp_all
    have origin := reach_rooted rooted member fresh inside short reached
    have origin' := reach_rooted rooted member fresh inside' short reached'
    rcases origin with ⟨nil, _⟩ | ⟨old, known, below, same⟩
    · cases nil
    rcases origin' with ⟨nil, _⟩ | ⟨old', known', below', same'⟩
    · cases nil
    rw [same.resolve_right unshared, same'.resolve_right unshared]
    exact forest.root_unique known known' apart short below below'
  · grind
  · intro one label inside common
    rw [first one inside label common]
    exact forest.present member common

end MandelbrotOS.Forests
