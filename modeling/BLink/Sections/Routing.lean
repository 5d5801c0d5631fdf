import BLink.Structure.Root

/-! Where a traversal goes from a page, in a tree that satisfies the structural invariant. -/

namespace BLink

open Library

variable {K V : Type} [TotalOrd K]

variable {N : Nat} {t : Tree K V} {shape : Shape} {l : Nat} {p q s : PageId}

namespace Inv

theorem allocated (inv : Inv N t shape) (member : p ∈ shape.row l) : p < t.pages :=
  (inv.active member).1

/-- Whatever leads to an active page is allocated. -/
theorem allocated_of_resolves (inv : Inv N t shape) (resolves : Resolves t.forward p s)
    (member : s ∈ shape.row l)
    : p < t.pages := by
  cases resolves with
  | settled _ => exact inv.allocated member
  | forward there _ => exact (inv.forwards _ _ there).1

/-- An allocated page is retired, or stands in some row. -/
theorem retired_or_mem (inv : Inv N t shape) (allocated : p < t.pages)
    : (∃ target, t.forward p = some target) ∨ ∃ l, p ∈ shape.row l := by
  cases role : t.forward p with
  | some target => exact Or.inl ⟨target, rfl⟩
  | none => exact Or.inr ((inv.active_iff p).mp ⟨allocated, role⟩)

/-- A page in a row has no right link, or one that leads to its successor in the row. -/
theorem right_cases (inv : Inv N t shape) (member : p ∈ shape.row l)
    : (t.page p).right = none ∧ t.high p = none
      ∨ ∃ next successor,
          (t.page p).right = some next
          ∧ successor ∈ shape.row l
          ∧ Resolves t.forward next successor
          ∧ t.high p = t.low successor
          ∧ t.high p ≠ none := by
  obtain ⟨separators, tiles⟩ := inv.tiles (inv.le_height member)
  obtain ⟨front, back, row, leads⟩ := (inv.linked l).exists_of_mem member
  rw [row] at tiles
  rcases tiles.upper_cases with ⟨rfl, ends⟩ | ⟨successor, rest, bound, rfl, ends, begins⟩
  · exact Or.inl ⟨leads, ends⟩
  · obtain ⟨next, points, resolves⟩ := leads
    refine Or.inr ⟨next, successor, points, by simp [row], resolves, ?_, by simp [ends]⟩
    rw [ends, begins]

/-- A right link leads to the page's successor, which begins where the page ends. -/
theorem exists_successor (inv : Inv N t shape) (member : p ∈ shape.row l) {next : PageId}
    (points : (t.page p).right = some next)
    : ∃ successor ∈ shape.row l,
        Resolves t.forward next successor
        ∧ t.high p = t.low successor
        ∧ t.low successor ≠ none := by
  rcases inv.right_cases member with ⟨last, -⟩ | ⟨_, s, points', inRow, resolves, fences, finite⟩
  · rw [last] at points
    cases points
  · rw [points, Option.some.injEq] at points'
    subst points'
    exact ⟨s, inRow, resolves, fences, fences ▸ finite⟩

/-- The fences between two neighbouring children. -/
theorem exists_separator (inv : Inv N t shape) (member : q ∈ shape.row l)
    {first second : PageId} {separator : KeyHandle K} {front back : List (KeyHandle K)}
    {before after : List PageId}
    (kind
      : (t.page q).kind
        = .internal (front ++ separator :: back) (before ++ first :: second :: after))
    (aligned : before.length = front.length)
    : t.high first = some separator
      ∧ t.low second = some separator
      ∧ Below (t.low first) (some separator) := by
  have tiles := inv.content_internal member kind
  obtain ⟨-, left, right, -⟩ := (tiles_pair_iff aligned).mp tiles
  refine ⟨left.upper_eq, right.lower_eq, ?_⟩
  rw [left.lower_eq]
  exact left.below

/-- The four ways a traversal can go on from an allocated page. -/
inductive Routes (t : Tree K V) (shape : Shape) (p : PageId) (key : Query K)
    : Route → Prop
  | forward {target : PageId} (retired : t.forward p = some target) : Routes t shape p key (.right target)
  | restart {level : Nat} (member : p ∈ shape.row level) (under : Under (t.low p) key)
    : Routes t shape p key .restart
  | right {level : Nat} {next successor : PageId} (member : p ∈ shape.row level)
    (points : (t.page p).right = some next) (inRow : successor ∈ shape.row level)
    (resolves : Resolves t.forward next successor)
    (beyond : Beyond (t.high p) key)
    : Routes t shape p key (.right next)
  | here {level : Nat} (member : p ∈ shape.row level)
    (covers : Covers (t.low p) (t.high p) key)
    : Routes t shape p key .here

/-- Routing never fails. Witness: a finite upper fence comes with a right link. -/
theorem route_ok (inv : Inv N t shape) (allocated : p < t.pages) (key : Query K)
    : ∃ route, (t.page p).route key = .ok route ∧ Routes t shape p key route := by
  rcases inv.retired_or_mem allocated with ⟨target, retired⟩ | ⟨l, member⟩
  · refine ⟨.right target, ?_, .forward retired⟩
    rw [Tree.forward_eq] at retired
    cases kind : (t.page p).kind <;> rw [kind] at retired <;> cases retired
    simp [Node.route, kind]
  · have active : ∀ target, (t.page p).kind ≠ .redirect target := by
      intro target kind
      have content := (inv.page l p member).content
      rw [kind] at content
      exact content
    have unfolded : (t.page p).route key
        = if (t.page p).lowKey.any (fun low => key.cmp low.key = .lt) then
            .ok .restart
          else if (t.page p).highKey.any (fun high => key.cmp high.key ≠ .lt) then do
            let right ← expect "a finite high fence must have a right sibling" (t.page p).right
            return .right right
          else
            .ok .here := by
      rw [Node.route]
      cases kind : (t.page p).kind with
      | redirect target => exact absurd kind (active target)
      | internal _ _ => rfl
      | leaf _ => rfl
    rw [unfolded]
    by_cases below : (t.page p).lowKey.any (fun low => key.cmp low.key = .lt)
    · refine ⟨.restart, by rw [if_pos below], .restart member ?_⟩
      obtain ⟨low, isLow, lower⟩ := (Option.any_eq_true _ _).mp below
      exact ⟨low, isLow, by simpa using lower⟩
    · rw [if_neg below]
      by_cases beyond : (t.page p).highKey.any (fun high => key.cmp high.key ≠ .lt)
      · rw [if_pos beyond]
        rcases inv.right_cases member with ⟨-, unbounded⟩ | ⟨next, s, points, inRow, resolves, -⟩
        · rw [Tree.high] at unbounded
          rw [unbounded] at beyond
          cases beyond
        · refine ⟨.right next, by rw [points]; rfl,
            .right member points inRow resolves ?_⟩
          obtain ⟨high, isHigh, notLower⟩ := (Option.any_eq_true _ _).mp beyond
          exact ⟨high, isHigh, by simpa using notLower⟩
      · rw [if_neg beyond]
        refine ⟨.here, rfl, .here member ⟨?_, ?_⟩⟩
        · intro lowest begins lower
          rw [Tree.low] at begins
          exact below (by rw [begins]; simpa using lower)
        · intro bound ends
          by_contra notLower
          rw [Tree.high] at ends
          exact beyond (by rw [ends]; simpa using notLower)

/-- The child that a search key descends to. -/
structure Descends (t : Tree K V) (shape : Shape) (l : Nat) (p : PageId) (key : Query K)
    (keys : List (KeyHandle K)) (children : List PageId) (front back : List (KeyHandle K))
    (before : List PageId) (child : PageId) (after : List PageId)
    : Prop where
  keys_eq : keys = front ++ back
  children_eq : children = before ++ child :: after
  aligned : before.length = front.length
  index : InternalNode.childIndex keys key = .ok front.length
  slot : Array.index children front.length = .ok child
  member : child ∈ shape.row l
  low : t.low child = front.getLast?.or (t.low p)
  high : t.high child = back.head?.or (t.high p)
  covers : Covers (t.low p) (t.high p) key → Covers (t.low child) (t.high child) key

/-- Descending never fails. Witness: the search cuts the separators, and with them the
children, at the search key.
-/
theorem descend_ok (inv : Inv N t shape) (member : p ∈ shape.row (l + 1))
    {keys : List (KeyHandle K)} {children : List PageId}
    (kind : (t.page p).kind = .internal keys children) (key : Query K)
    : ∃ front back before child after,
        Descends t shape l p key keys children front back before child after := by
  have tiles := inv.content_internal member kind
  obtain ⟨front, back, rfl, index, reached, passed⟩ :=
    InternalNode.childIndex_ok tiles.keys_sorted.1 key
  obtain ⟨before, child, after, rfl, aligned, spans⟩ :=
    tiles.exists_child front back rfl
  refine ⟨front, back, before, child, after, rfl, rfl, aligned, index, ?_, ?_, spans.lower_eq,
    spans.upper_eq, ?_⟩
  · rw [← aligned]
    exact Array.index_append before child after
  · exact inv.child_mem member kind (by simp)
  · intro covers
    rw [spans.lower_eq, spans.upper_eq]
    exact covers.between reached passed

end Inv

end BLink
